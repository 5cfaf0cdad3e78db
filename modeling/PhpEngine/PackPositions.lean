/-
The positions of the numbers in `pack` and in `unpack`.
-/
import PhpEngine.Unpack

namespace PhpEngine.Unpack

open List

section Packing

variable (word : LongSize)

/-- A turn of the loop of `pack` over the numbers of a code. -/
def packNumber (size : Nat) (s : Cursor) : Cursor :=
  ⟨s.pos + size, s.numbers ++ [s.pos]⟩

/-- What `pack` does for a code with its count, `none` where it returns `FALSE`, and for the
codes of strings. -/
def packCode (code : UInt8 × Nat) (s : Cursor) : Option Cursor :=
  match kindOf word code.1 with
  | some (.fixed size) =>
    if (2147483647 - s.pos) / size < code.2 then none else some ((packNumber size)^[code.2] s)
  | some .skip =>
    if 2147483647 - s.pos < code.2 then none else some { s with pos := s.pos + code.2 }
  | some .back => some { s with pos := if s.pos - code.2 < 0 then 0 else s.pos - code.2 }
  | some .seek => some { s with pos := code.2 }
  | _ => none

def packCodes : List (UInt8 × Nat) → Cursor → Option Cursor
  | [], s => some s
  | code :: codes, s => (packCode word code s).bind (packCodes codes)

/-- No code leads out of the data. -/
def StaysInside (inputlen : Int) : List (UInt8 × Nat) → Cursor → Prop
  | [], s => s.pos ≤ inputlen
  | code :: codes, s => s.pos ≤ inputlen ∧ (kindOf word code.1 = some .back → code.2 ≤ s.pos) ∧
    ∀ s' ∈ packCode word code s, StaysInside inputlen codes s'

/-- How far `unpack` is ahead of `pack` behind a code: an `@` with the count zero does not move
it. -/
def aheadAfter (code : UInt8 × Nat) (s : Cursor) (ahead : Int) : Int :=
  if kindOf word code.1 = some .seek then if code.2 = 0 then s.pos + ahead else 0 else ahead

/-- While `unpack` is ahead there is no number, and no `x` that leads it out of the data. -/
def InStep (inputlen : Int) : List (UInt8 × Nat) → Cursor → Int → Prop
  | [], _, _ => True
  | code :: codes, s, ahead =>
    (match kindOf word code.1 with
      | some (.fixed _) => code.2 = 0 ∨ ahead = 0
      | some .skip => s.pos + ahead + code.2 ≤ inputlen
      | _ => True) ∧
    ∀ s' ∈ packCode word code s, InStep inputlen codes s' (aheadAfter word code s ahead)

/-- The format of `unpack` with the same codes. -/
def counted (codes : List (UInt8 × Nat)) : List Code :=
  codes.map fun code => (code.1, (code.2 : Int))

end Packing

section Prefixes

variable {word : LongSize} {kind : Kind} {size arg inputlen i : Int} {turns : Nat} {s s' : Cursor}

theorem step_prefix : s.numbers <+: (s.step kind size arg inputlen i).numbers := by
  cases kind
  case fixed => exact prefix_append _ _
  all_goals exact prefix_rfl

theorem repeatLoop_prefix (h : repeatLoop kind size arg inputlen turns i s = some (some s')) :
    s.numbers <+: s'.numbers := by
  induction turns generalizing i s with
  | zero =>
    rw [repeatLoop] at h
    split_ifs at h
    cases h
    exact prefix_rfl
  | succ turns ih =>
    rw [repeatLoop] at h
    split_ifs at h with hend hover hfits hstar
    · cases h
      exact prefix_rfl
    · cases h
    · exact step_prefix.trans (ih h)
    · cases h
      exact prefix_rfl
    · cases h

theorem unpackCodes_extends {turns : Int → Nat} {codes : List Code}
    (h : unpackCodes word turns inputlen codes s = some (some s')) :
    s.numbers <+: s'.numbers := by
  induction codes generalizing s with
  | nil =>
    cases h
    exact prefix_rfl
  | cons code codes ih =>
    rw [unpackCodes] at h
    split at h
    next s₁ hcode =>
      refine IsPrefix.trans ?_ (ih h)
      rw [unpackCode] at hcode
      split at hcode
      next => cases hcode
      next =>
        simp only at hcode
        split_ifs at hcode
        · cases hcode
        · exact repeatLoop_prefix hcode
    next hfail => exact absurd h (hfail s')

theorem packNumbers_extends (size n : Nat) (s : Cursor) :
    s.numbers <+: ((packNumber size)^[n] s).numbers := by
  induction n generalizing s with
  | zero => exact prefix_rfl
  | succ n ih => exact (prefix_append _ [s.pos]).trans (ih (packNumber size s))

theorem packCodes_extends {codes : List (UInt8 × Nat)} (h : packCodes word codes s = some s') :
    s.numbers <+: s'.numbers := by
  induction codes generalizing s with
  | nil =>
    cases h
    exact prefix_rfl
  | cons code codes ih =>
    obtain ⟨s₁, hcode, h⟩ := Option.bind_eq_some_iff.mp h
    refine IsPrefix.trans ?_ (ih h)
    rw [packCode] at hcode
    split at hcode
    · split_ifs at hcode
      cases hcode
      exact packNumbers_extends _ _ s
    · split_ifs at hcode
      cases hcode
      exact prefix_rfl
    · cases hcode
      exact prefix_rfl
    · cases hcode
      exact prefix_rfl
    · cases hcode

end Prefixes

section Turns

variable {kind : Kind} {size arg inputlen : Int} {turns : Nat} {s : Cursor}

theorem repeatLoop_iterate {f : Cursor → Cursor} {P : Nat → Cursor → Prop}
    (hturn : ∀ m s i, P (m + 1) s → (size = -1 ∨ s.pos ≤ 2147483647 - size + 1) ∧
      s.pos + size ≤ inputlen ∧ (take size arg inputlen s.pos i kind).2 = i ∧
      s.step kind size arg inputlen i = f s ∧ P m (f s))
    {m : Nat} {i : Int} (hs : P m s) (hm : m ≤ turns) (hi : i + m = arg) :
    repeatLoop kind size arg inputlen turns i s = some (some (f^[m] s)) := by
  induction m generalizing turns s i with
  | zero =>
    unfold repeatLoop
    rw [if_pos (by omega)]
    rfl
  | succ m ih =>
    obtain ⟨turns, rfl⟩ : ∃ t, turns = t + 1 := ⟨turns - 1, by omega⟩
    obtain ⟨hover, hfits, hnext, hstep, hrest⟩ := hturn m s i hs
    push_cast at hi
    rw [repeatLoop, if_neg (by omega), if_neg (by omega), if_pos hfits, hnext, hstep]
    exact ih hrest (by omega) (by omega)

theorem iterate_move (size : Int) (m : Nat) (s : Cursor) :
    (fun s : Cursor => { s with pos := s.pos + size })^[m] s =
      { s with pos := s.pos + m * size } := by
  induction m generalizing s with
  | zero => simp
  | succ m ih =>
    rw [Function.iterate_succ_apply, ih]
    simp only [Cursor.mk.injEq, and_true]
    push_cast
    ring

end Turns

section Positions

variable {word : LongSize} {n : Nat} {type : UInt8} {arg : Nat} {s : Cursor}

theorem unpackCode_eq {kind : Kind} {size : Int} (h : kindOf word type = some kind)
    (hkind : sizeAndArg arg kind = (size, (arg : Int))) (hsize : -1 ≤ size) :
    unpackCode word (bound n) n (type, (arg : Int)) s =
      repeatLoop kind size arg n (arg + 1) 0 s := by
  have hbound : bound n arg = arg + 1 := by
    rw [bound, if_neg (by omega), Int.toNat_natCast]
  rw [unpackCode, h, hbound]
  simp only [hkind]
  rw [if_neg (by omega)]

theorem unpackCode_fixed {size : Nat} (hn : n ≤ 2147483647)
    (h : kindOf word type = some (.fixed size)) (hs : 0 ≤ s.pos) (hfits : s.pos + arg * size ≤ n) :
    unpackCode word (bound n) n (type, (arg : Int)) s =
      some (some ((packNumber size)^[arg] s)) := by
  rw [unpackCode_eq h rfl (by omega)]
  refine repeatLoop_iterate (P := fun m s => 0 ≤ s.pos ∧ s.pos + m * size ≤ n) ?_ ⟨hs, hfits⟩
    (Nat.le_succ _) (Int.zero_add _)
  rintro m s i ⟨hs, hfits⟩
  have hsize : (0 : Int) ≤ m * size :=
    Int.mul_nonneg (Int.natCast_nonneg m) (Int.natCast_nonneg size)
  push_cast [Int.add_mul] at hfits
  refine ⟨by omega, by omega, rfl, ?_, ?_⟩
  · exact congrArg₂ Cursor.mk (Int.max_eq_right (show 0 ≤ s.pos + size by omega)) rfl
  · exact ⟨show 0 ≤ s.pos + size by omega, show s.pos + size + m * size ≤ n by omega⟩

theorem unpackCode_move {kind : Kind} {size : Int} (hn : n ≤ 2147483647)
    (h : kindOf word type = some kind) (hkind : sizeAndArg arg kind = (size, (arg : Int)))
    (hsize : size = 1 ∨ size = -1)
    (htake : ∀ p i, 0 ≤ p → take size arg n p i kind = (p + size, i))
    (hstep : ∀ (s : Cursor) i, (s.step kind size arg n i).numbers = s.numbers)
    (hs : 0 ≤ s.pos ∧ s.pos ≤ n) (hfits : 0 ≤ s.pos + arg * size ∧ s.pos + arg * size ≤ n) :
    unpackCode word (bound n) n (type, (arg : Int)) s =
      some (some { s with pos := s.pos + arg * size }) := by
  rw [← iterate_move, unpackCode_eq h hkind (by omega)]
  refine repeatLoop_iterate (P := fun m s => (0 ≤ s.pos ∧ s.pos ≤ n) ∧ 0 ≤ s.pos + m * size ∧
    s.pos + m * size ≤ n) ?_ ⟨hs, hfits⟩ (Nat.le_succ _) (Int.zero_add _)
  rintro m s i ⟨hinside, hend⟩
  have hnext : 0 ≤ s.pos + size ∧ s.pos + size ≤ n := by
    rcases hsize with rfl | rfl <;> omega
  refine ⟨by omega, hnext.2, by rw [htake _ _ hinside.1], ?_, hnext, ?_⟩
  · refine congrArg₂ Cursor.mk ?_ (hstep s i)
    rw [htake _ _ hinside.1]
    exact Int.max_eq_right hnext.1
  · push_cast [Int.add_mul] at hend
    show 0 ≤ s.pos + size + m * size ∧ s.pos + size + m * size ≤ n
    omega

theorem unpackCode_seek (h : kindOf word type = some .seek) (hs : s.pos ≤ n) (hfits : arg ≤ n) :
    unpackCode word (bound n) n (type, (arg : Int)) s =
      some (some { s with pos := if arg = 0 then s.pos else arg }) := by
  rw [unpackCode_eq h rfl (by omega), repeatLoop]
  rcases Nat.eq_zero_or_pos arg with rfl | hpos
  · rfl
  · have hnext : (take 0 arg n s.pos 0 .seek).2 + 1 = arg := Int.sub_add_cancel _ _
    have hpos' : (s.step .seek 0 arg n 0).pos = arg := by
      change max 0 (take 0 arg n s.pos 0 .seek).1 = arg
      rw [take, if_pos (Int.ofNat_le.mpr hfits)]
      omega
    rw [if_neg (by omega), if_neg (by omega), if_pos (by omega), hnext, if_neg (by omega)]
    unfold repeatLoop
    rw [if_pos rfl]
    exact congrArg (some ∘ some) (congrArg₂ Cursor.mk hpos' rfl)

/-- `x` reads every byte it goes over. -/
theorem repeatLoop_skip {turns : Nat} {i : Int} {s' : Cursor} (hi : 0 ≤ i ∧ i ≤ arg)
    (hs : 0 ≤ s.pos) (h : repeatLoop .skip 1 arg n turns i s = some (some s')) :
    s'.pos = s.pos + (arg - i) := by
  induction turns generalizing i s with
  | zero =>
    rw [repeatLoop] at h
    split_ifs at h
    cases h
    omega
  | succ turns ih =>
    rw [repeatLoop] at h
    split_ifs at h with hend hover hfits
    · cases h
      omega
    · cases h
    · have hpos : (s.step .skip 1 arg n i).pos = s.pos + 1 :=
        Int.max_eq_right (show 0 ≤ s.pos + 1 by omega)
      have := ih (s := s.step .skip 1 arg n i) (i := i + 1) (by omega) (by omega) h
      omega
    · omega
    · cases h

theorem unpackCode_number {size : Nat} {s' : Cursor} (h : kindOf word type = some (.fixed size))
    (harg : arg ≠ 0)
    (hcode : unpackCode word (bound n) n (type, (arg : Int)) s = some (some s')) :
    s.numbers ++ [s.pos] <+: s'.numbers := by
  rw [unpackCode_eq h rfl (by omega), repeatLoop] at hcode
  split_ifs at hcode with hend hover hfits
  · omega
  · cases hcode
  · exact repeatLoop_prefix hcode
  · omega
  · cases hcode

theorem iterate_packNumber_pos (size : Nat) (m : Nat) (s : Cursor) :
    ((packNumber size)^[m] s).pos = s.pos + m * size := by
  induction m generalizing s with
  | zero => simp
  | succ m ih =>
    rw [Function.iterate_succ_apply, ih, packNumber]
    push_cast
    ring

theorem StaysInside.pos_le {codes : List (UInt8 × Nat)} (h : StaysInside word n codes s) :
    s.pos ≤ n := by
  cases codes with
  | nil => exact h
  | cons => exact h.1

/-- What stands before the next number is what both have read or written. -/
theorem unpackCodes_iff {codes : List (UInt8 × Nat)} {u r : Cursor} {ahead : Int}
    (hn : n ≤ 2147483647) (hahead : 0 ≤ ahead) (hs : 0 ≤ s.pos) (hpos : u.pos = s.pos + ahead)
    (hnumbers : u.numbers = s.numbers) (hle : u.pos ≤ n) (hpack : packCodes word codes s = some r)
    (hinside : StaysInside word n codes s) :
    (∃ u', unpackCodes word (bound n) n (counted codes) u = some (some u') ∧
      u'.numbers = r.numbers) ↔ InStep word n codes s ahead := by
  induction codes generalizing s u ahead with
  | nil =>
    cases hpack
    simp [counted, unpackCodes, InStep, hnumbers]
  | cons code codes ih =>
    obtain ⟨type, arg⟩ := code
    obtain ⟨s', hcode, hpack⟩ := Option.bind_eq_some_iff.mp hpack
    obtain ⟨-, hback, hinside⟩ := hinside
    have hinside := hinside s' hcode
    have hle' := hinside.pos_le
    rw [InStep, hcode]
    simp only [Option.mem_def, Option.some.injEq, forall_eq', aheadAfter]
    -- the code is in step, and leaves `unpack` ahead as it should
    have hstep {u₁ : Cursor} {ahead' : Int} {P : Prop} (hP : P)
        (hu : unpackCode word (bound n) n (type, (arg : Int)) u = some (some u₁))
        (hs' : 0 ≤ s'.pos) (hahead' : 0 ≤ ahead') (hpos' : u₁.pos = s'.pos + ahead')
        (hnumbers' : u₁.numbers = s'.numbers) (hle₁ : u₁.pos ≤ n) :
        (∃ u', unpackCodes word (bound n) n (counted ((type, arg) :: codes)) u =
          some (some u') ∧ u'.numbers = r.numbers) ↔ P ∧ InStep word n codes s' ahead' := by
      rw [counted, map_cons, unpackCodes, hu]
      simp only [hP, true_and]
      exact ih hahead' hs' hpos' hnumbers' hle₁ hpack hinside
    rw [packCode] at hcode
    dsimp only at hcode hback
    split at hcode
    next size hkind =>
      split_ifs at hcode
      cases hcode
      simp only [hkind, Option.some.injEq, reduceCtorEq, if_false]
      rw [iterate_packNumber_pos] at hle'
      by_cases hzero : arg = 0 ∨ ahead = 0
      · have hsame : ((packNumber size)^[arg] u).numbers = ((packNumber size)^[arg] s).numbers := by
          rcases hzero with rfl | rfl
          · exact hnumbers
          · rw [show u = s from congrArg₂ Cursor.mk (by omega) hnumbers]
        have hfits : u.pos + arg * size ≤ n := by
          rcases hzero with rfl | rfl
          · simpa using hle
          · omega
        refine hstep hzero (unpackCode_fixed hn hkind (by omega) hfits) ?_ hahead ?_ hsame ?_
        · rw [iterate_packNumber_pos]
          exact Int.add_nonneg hs (Int.mul_nonneg (Int.natCast_nonneg _) (Int.natCast_nonneg _))
        · rw [iterate_packNumber_pos, iterate_packNumber_pos]
          omega
        · rwa [iterate_packNumber_pos]
      · simp only [hzero, false_and, iff_false]
        rintro ⟨u', hrun, hsame⟩
        rw [counted, map_cons, unpackCodes] at hrun
        split at hrun
        next u₁ hcode =>
          have hread := (unpackCode_number hkind (by tauto) hcode).trans (unpackCodes_extends hrun)
          obtain ⟨m, rfl⟩ := Nat.exists_eq_succ_of_ne_zero (not_or.mp hzero).1
          have hwritten := (packNumbers_extends size m (packNumber size s)).trans
            (packCodes_extends hpack)
          rw [hsame, hnumbers] at hread
          have hprefix := prefix_of_prefix_length_le hread hwritten (by simp [packNumber])
          have heq := hprefix.eq_of_length (by simp [packNumber])
          simp only [packNumber, append_cancel_left_eq, cons.injEq, and_true] at heq
          omega
        next hfail => exact hfail u' hrun
    next hkind =>
      split_ifs at hcode
      cases hcode
      simp only [hkind, Option.some.injEq, reduceCtorEq, if_false]
      dsimp only at hle'
      by_cases hfits : s.pos + ahead + arg ≤ n
      · refine hstep hfits (unpackCode_move hn hkind rfl (.inl rfl) (fun p i hp => rfl)
          (fun s i => rfl) ⟨by omega, hle⟩ (by omega)) ?_ hahead ?_ hnumbers ?_
        all_goals
          dsimp only
          omega
      · simp only [hfits, false_and, iff_false]
        rintro ⟨u', hrun, -⟩
        rw [counted, map_cons, unpackCodes] at hrun
        split at hrun
        next u₁ hcode =>
          have hhigh := (unpackCode_inside ⟨by omega, hle⟩ hcode).2
          rw [unpackCode_eq hkind rfl (by omega)] at hcode
          have := repeatLoop_skip (by omega) (by omega) hcode
          omega
        next hfail => exact hfail u' hrun
    next hkind =>
      cases hcode
      simp only [hkind, Option.some.injEq, reduceCtorEq, if_false]
      have hle := hback hkind
      rw [if_neg (by omega)] at *
      refine hstep trivial (unpackCode_move hn hkind rfl (.inr rfl)
        (fun p i hp => by rw [take, if_neg (by omega)]) (fun s i => rfl) ⟨by omega, by omega⟩
        (by omega)) ?_ hahead ?_ hnumbers ?_
      all_goals
        dsimp only
        omega
    next hkind =>
      cases hcode
      simp only [hkind, if_true]
      dsimp only at hle'
      refine hstep trivial (unpackCode_seek hkind hle (Int.ofNat_le.mp hle')) (Int.natCast_nonneg _)
        (by split_ifs <;> omega) ?_ hnumbers ?_
      all_goals
        dsimp only
        split_ifs
        all_goals omega
    next => cases hcode

/-- `unpack` reads the numbers of a format where `pack` wrote them, on data that no code leads
out of, exactly where it is not ahead of `pack` when it reads one. -/
theorem unpack_agrees_iff {codes : List (UInt8 × Nat)} {r : Cursor} (hn : n ≤ 2147483647)
    (hpack : packCodes word codes ⟨0, []⟩ = some r)
    (hinside : StaysInside word n codes ⟨0, []⟩) :
    (∃ u, unpackCodes word (bound n) n (counted codes) ⟨0, []⟩ = some (some u) ∧
      u.numbers = r.numbers) ↔ InStep word n codes ⟨0, []⟩ 0 :=
  unpackCodes_iff hn le_rfl le_rfl rfl rfl (Int.natCast_nonneg n) hpack hinside

theorem kindOf_sample : kindOf .eight (byte 'c') = some (.fixed 1) ∧
    kindOf .eight (byte '@') = some .seek := by
  decide

theorem unpack_agrees_iff_rewound :
    (∃ u, unpackCodes .eight (bound 2) 2 (counted [(byte 'c', 2), (byte '@', 0)]) ⟨0, []⟩ =
      some (some u) ∧ u.numbers = [0, 1]) ↔
      InStep .eight 2 [(byte 'c', 2), (byte '@', 0)] ⟨0, []⟩ 0 :=
  unpack_agrees_iff (r := ⟨0, [0, 1]⟩) (by decide) rfl
    (by simp [StaysInside, packCode, packNumber, kindOf_sample])

/-- `pack("c1@0c1", 1, 2)` writes twice at the start, and `unpack("c1a/@0/c1b", …)` reads on. -/
theorem unpack_not_agrees :
    packCodes .eight [(byte 'c', 1), (byte '@', 0), (byte 'c', 1)] ⟨0, []⟩ = some ⟨1, [0, 0]⟩ ∧
    StaysInside .eight 2 [(byte 'c', 1), (byte '@', 0), (byte 'c', 1)] ⟨0, []⟩ ∧
    unpackCodes .eight (bound 2) 2 (counted [(byte 'c', 1), (byte '@', 0), (byte 'c', 1)])
      ⟨0, []⟩ = some (some ⟨2, [0, 1]⟩) :=
  ⟨by decide, by simp [StaysInside, packCode, packNumber, kindOf_sample], by decide⟩

end Positions

end PhpEngine.Unpack

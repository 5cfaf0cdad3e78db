/-
`unpack` of ext/standard/pack.c: which bytes its repeat loops take, and where they end.
-/
import PhpEngine.Decimal
import PhpEngine.LongSize
import Mathlib.Tactic.SplitIfs

namespace PhpEngine.Unpack

open List

/-- The format codes that one `case` of the loop deals with. -/
inductive Kind where
  /-- `a`, `A` and `Z` -/
  | text
  /-- `h` and `H` -/
  | nibbles
  /-- the numbers -/
  | fixed (size : Nat)
  /-- `x` -/
  | skip
  /-- `X` -/
  | back
  /-- `@` -/
  | seek
deriving DecidableEq, Repr

/-- The `switch` over the code, `none` where `FALSE` is returned. -/
def kindOf (size : LongSize) (type : UInt8) : Option Kind :=
  if type ∈ "aAZ".toList.map byte then some .text
  else if type ∈ "hH".toList.map byte then some .nibbles
  else if type ∈ "cC".toList.map byte then some (.fixed 1)
  else if type ∈ "sSnv".toList.map byte then some (.fixed 2)
  else if type ∈ "iIlLNVf".toList.map byte then some (.fixed 4)
  else if type ∈ "qQJP".toList.map byte then
    match size with
    | .four => none
    | .eight => some (.fixed 8)
  else if type = byte 'd' then some (.fixed 8)
  else if type = byte 'x' then some .skip
  else if type = byte 'X' then some .back
  else if type = byte '@' then some .seek
  else none

/-- `size` and `arg` behind the `switch`. -/
def sizeAndArg (arg : Int) : Kind → Int × Int
  | .text => (arg, 1)
  | .nibbles => (if 0 < arg then (arg + arg % 2) / 2 else arg, 1)
  | .fixed size => (size, arg)
  | .skip => (1, arg)
  | .back => (-1, arg)
  | .seek => (0, arg)

/-- `inputpos` or `outputpos`, and where the numbers were until there. -/
structure Cursor where
  pos : Int
  numbers : List Int
deriving DecidableEq, Repr

/-- `inputpos` behind `inputpos += size`, and `i`. -/
def take (size arg inputlen inputpos i : Int) : Kind → Int × Int
  | .text =>
    let len := inputlen - inputpos
    (inputpos + if 0 ≤ size ∧ size < len then size else len, i)
  | .back => if inputpos < size then (-size + size, arg - 1) else (inputpos + size, i)
  | .seek => ((if arg ≤ inputlen then arg else inputpos) + size, arg - 1)
  | _ => (inputpos + size, i)

section Loops

variable (kind : Kind) (size arg inputlen : Int)

def Cursor.step (s : Cursor) (i : Int) : Cursor where
  pos := max 0 (take size arg inputlen s.pos i kind).1
  numbers := match kind with
    | .fixed _ => s.numbers ++ [s.pos]
    | _ => s.numbers

/-- The `for` loop, if it ends after so many turns; `some none` is the return of `FALSE`. -/
def repeatLoop : Nat → Int → Cursor → Option (Option Cursor)
  | turns, i, s =>
    if i = arg then some (some s)
    else match turns with
    | 0 => none
    | turns + 1 =>
      if size ≠ 0 ∧ size ≠ -1 ∧ 2147483647 - size + 1 < s.pos then some none
      else if s.pos + size ≤ inputlen then
        repeatLoop turns ((take size arg inputlen s.pos i kind).2 + 1)
          (s.step kind size arg inputlen i)
      else if arg < 0 then some (some s)
      else some none

end Loops

/-- A code with its repeater, `-1` for an asterisk. -/
abbrev Code : Type :=
  UInt8 × Int

/-- The repeater, and the format behind it. -/
def repeater : List UInt8 → Int × List UInt8
  | [] => (1, [])
  | c :: format =>
    if isDigit c then
      (decimalValue ((c :: format).takeWhile isDigit) 0, (c :: format).dropWhile isDigit)
    else if c = byte '*' then (-1, format)
    else (1, c :: format)

/-- The codes of a format. -/
def codesOf : List UInt8 → List Code
  | [] => []
  | type :: format =>
    (type, (repeater format).1) :: codesOf (((repeater format).2.dropWhile (· ≠ byte '/')).drop 1)
termination_by format => format.length
decreasing_by
  have hrest : (repeater format).2.length ≤ format.length := by
    unfold repeater
    split
    · rfl
    · split_ifs
      · exact (dropWhile_suffix _).length_le
      · exact Nat.le_succ _
      · rfl
  have hname := (dropWhile_suffix (fun b => decide (b ≠ byte '/'))
    (l := (repeater format).2)).length_le
  rw [length_drop, length_cons]
  omega

section Codes

variable (word : LongSize) (turns : Int → Nat) (inputlen : Int)

/-- A turn of the `while` loop, where the repeat loop has the turns that the repeater gives. -/
def unpackCode (code : Code) (s : Cursor) : Option (Option Cursor) :=
  match kindOf word code.1 with
  | none => some none
  | some kind =>
    let r := sizeAndArg code.2 kind
    if r.1 ≠ 0 ∧ r.1 ≠ -1 ∧ r.1 < 0 then some none
    else repeatLoop kind r.1 r.2 inputlen (turns code.2) 0 s

def unpackCodes : List Code → Cursor → Option (Option Cursor)
  | [], s => some (some s)
  | code :: codes, s =>
    match unpackCode word turns inputlen code s with
    | some (some s) => unpackCodes codes s
    | ended => ended

/-- `unpack` -/
def unpack (format input : List UInt8) : Option (Option Cursor) :=
  unpackCodes word turns input.length (codesOf format) ⟨0, []⟩

/-- An `X` with an asterisk is reached. -/
def ReachesStar : List Code → Cursor → Prop
  | [], _ => False
  | code :: codes, s => (code.1 = byte 'X' ∧ code.2 < 0) ∨
    ∃ s', unpackCode word turns inputlen code s = some (some s') ∧ ReachesStar codes s'

end Codes

/-- The turns that are enough: none past the input for an asterisk. -/
def bound (inputlen : Nat) (arg : Int) : Nat :=
  if arg < 0 then inputlen + 1 else arg.toNat + 1

section Termination

variable {word : LongSize} {kind : Kind} {size arg inputlen : Int} {turns : Nat} {i : Int}
  {s : Cursor}

/-- The cursor is in the input or behind it. -/
def Cursor.Inside (inputlen : Int) (s : Cursor) : Prop :=
  0 ≤ s.pos ∧ s.pos ≤ inputlen

theorem Cursor.Inside.step (hseek : kind = .seek → size = 0) (hs : s.Inside inputlen)
    (hfits : s.pos + size ≤ inputlen) :
    (s.step kind size arg inputlen i).Inside inputlen := by
  obtain ⟨hlow, hhigh⟩ := hs
  refine ⟨Int.le_max_left 0 _, Int.max_le.mpr ⟨by omega, ?_⟩⟩
  cases kind
  case seek =>
    rw [take, hseek rfl]
    split_ifs
    all_goals omega
  all_goals
    simp only [take]
    try split_ifs
    all_goals omega

theorem Cursor.Inside.repeatLoop {s' : Cursor} (hseek : kind = .seek → size = 0)
    (hs : s.Inside inputlen) (h : repeatLoop kind size arg inputlen turns i s = some (some s')) :
    s'.Inside inputlen := by
  induction turns generalizing i s with
  | zero =>
    rw [Unpack.repeatLoop] at h
    split_ifs at h
    cases h
    exact hs
  | succ turns ih =>
    rw [Unpack.repeatLoop] at h
    split_ifs at h with hend hover hfits hstar
    · cases h
      exact hs
    · cases h
    · exact ih (hs.step hseek hfits) h
    · cases h
      exact hs
    · cases h

/-- With a count every turn brings `i` nearer to it, or to it. -/
theorem repeatLoop_counted (hi : 0 ≤ i) (hle : i ≤ arg) (hturns : arg ≤ i + turns) :
    (repeatLoop kind size arg inputlen turns i s).isSome := by
  induction turns generalizing i s with
  | zero =>
    rw [repeatLoop, if_pos (by omega)]
    rfl
  | succ turns ih =>
    have hstep : (take size arg inputlen s.pos i kind).2 = i ∨
        (take size arg inputlen s.pos i kind).2 = arg - 1 := by
      cases kind
      all_goals
        simp only [take]
        try split_ifs
        all_goals simp
    rw [repeatLoop]
    split_ifs
    · rfl
    · rfl
    · exact ih (by omega) (by omega) (by push_cast at hturns; omega)
    · omega
    · rfl

/-- A code that takes bytes is done with the input at last. -/
theorem repeatLoop_star (htake : ∀ p i, take size arg inputlen p i kind = (p + size, i))
    (hsize : 0 < size) (hi : 0 ≤ i) (harg : arg < 0) (hs : 0 ≤ s.pos)
    (hturns : 0 < turns) (hlen : inputlen < s.pos + turns) :
    (repeatLoop kind size arg inputlen turns i s).isSome := by
  induction turns generalizing i s with
  | zero => cases hturns
  | succ turns ih =>
    rw [repeatLoop, htake]
    split_ifs with hend hover hfits
    · rfl
    · rfl
    · have hpos : (s.step kind size arg inputlen i).pos = s.pos + size := by
        change max 0 _ = _
        rw [htake, Int.max_eq_right (by omega)]
      push_cast at hlen
      exact ih (by omega) (by omega) (by omega) (by omega)
    · rfl

/-- `inputpos < size` is never met behind an `X`, whose `size` is `-1`. -/
theorem repeatLoop_back (hi : 0 ≤ i) (harg : arg < 0) (hs : s.Inside inputlen) :
    repeatLoop .back (-1) arg inputlen turns i s = none := by
  obtain ⟨hlow, hhigh⟩ := hs
  induction turns generalizing i s with
  | zero => rw [repeatLoop, if_neg (by omega)]
  | succ turns ih =>
    have hstep : (s.step .back (-1) arg inputlen i).Inside inputlen :=
      Cursor.Inside.step nofun ⟨hlow, hhigh⟩ (by omega)
    have hnext : (take (-1) arg inputlen s.pos i .back).2 = i := by
      rw [take, if_neg (by omega)]
    rw [repeatLoop, if_neg (by omega), if_neg (by omega), if_pos (by omega), hnext]
    exact ih (by omega) hstep.1 hstep.2

theorem kindOf_back {type : UInt8} (h : kindOf word type = some .back) : type = byte 'X' := by
  unfold kindOf at h
  split_ifs at h
  any_goals cases h
  · cases word <;> cases h
  · assumption

theorem kindOf_fixed {type : UInt8} {size : Nat} (h : kindOf word type = some (.fixed size)) :
    0 < size := by
  unfold kindOf at h
  split_ifs at h
  any_goals cases h
  any_goals decide
  cases word
  · cases h
  · cases h
    decide

theorem arg_le_bound (n : Nat) (arg : Int) (kind : Kind) :
    (sizeAndArg arg kind).2 ≤ bound n arg := by
  rw [bound]
  cases kind
  all_goals
    rw [sizeAndArg]
    split_ifs
    all_goals
      push_cast
      omega

variable (word) in
theorem unpackCode_isSome {n : Nat} {code : Code} (hs : s.Inside n)
    (h : ¬(code.1 = byte 'X' ∧ code.2 < 0)) : (unpackCode word (bound n) n code s).isSome := by
  obtain ⟨hlow, hhigh⟩ := hs
  rw [unpackCode]
  split
  next => rfl
  next kind hkind =>
    simp only
    split_ifs
    · rfl
    have hle := arg_le_bound n code.2 kind
    rcases le_or_gt 0 (sizeAndArg code.2 kind).2 with hcount | hneg
    · exact repeatLoop_counted le_rfl hcount (by omega)
    · cases kind with
      | text => cases hneg
      | nibbles => cases hneg
      | fixed size =>
        have hsize := kindOf_fixed hkind
        have hbound : bound n code.2 = n + 1 := if_pos hneg
        exact repeatLoop_star (fun p i => rfl) (Int.natCast_pos.mpr hsize) le_rfl hneg hlow
          (by omega) (by omega)
      | skip =>
        have hbound : bound n code.2 = n + 1 := if_pos hneg
        exact repeatLoop_star (fun p i => rfl) Int.one_pos le_rfl hneg hlow (by omega) (by omega)
      | back => exact absurd ⟨kindOf_back hkind, hneg⟩ h
      | seek =>
        have hbound : bound n code.2 = n + 1 := if_pos hneg
        have hone : (take 0 code.2 n s.pos 0 .seek).2 + 1 = code.2 := Int.sub_add_cancel _ _
        have hneg : code.2 < 0 := hneg
        rw [hbound, sizeAndArg, repeatLoop, if_neg (by omega), if_neg (by omega),
          if_pos (by omega), hone]
        unfold repeatLoop
        simp

theorem unpackCode_inside {n : Nat} {turns : Int → Nat} {code : Code} {s' : Cursor}
    (hs : s.Inside n) (h : unpackCode word turns n code s = some (some s')) : s'.Inside n := by
  rw [unpackCode] at h
  split at h
  next => cases h
  next kind hkind =>
    simp only at h
    split_ifs at h with hover
    · cases h
    · exact hs.repeatLoop (fun hseek => by rw [hseek]; rfl) h

variable (word) in
theorem unpackCode_star {n : Nat} (turns : Int → Nat) {code : Code} (hs : s.Inside n)
    (h : code.1 = byte 'X' ∧ code.2 < 0) : unpackCode word turns n code s = none := by
  have hkind : kindOf word (byte 'X') = some .back := by
    cases word <;> decide
  rw [unpackCode, h.1, hkind]
  exact repeatLoop_back le_rfl h.2 hs

theorem unpackCodes_isSome_iff {n : Nat} (codes : List Code) (hs : s.Inside n) :
    (unpackCodes word (bound n) n codes s).isSome ↔ ¬ReachesStar word (bound n) n codes s := by
  induction codes generalizing s with
  | nil => simp [unpackCodes, ReachesStar]
  | cons code codes ih =>
    rw [unpackCodes, ReachesStar]
    by_cases hstar : code.1 = byte 'X' ∧ code.2 < 0
    · simp [unpackCode_star word _ hs hstar, hstar]
    · obtain ⟨r, hr⟩ := Option.isSome_iff_exists.mp (unpackCode_isSome word hs hstar)
      cases r with
      | none => simp [hr, hstar]
      | some s' =>
        simp [hr, hstar, ih (unpackCode_inside hs hr)]

/-- The repeat loops of `unpack` end, those of an asterisk in as many turns as the input has
bytes and one more, where no `X` with an asterisk is reached, whose loop never ends. -/
theorem unpack_ends_iff (word : LongSize) (format input : List UInt8) :
    ((unpack word (bound input.length) format input).isSome ↔
      ¬ReachesStar word (bound input.length) input.length (codesOf format) ⟨0, []⟩) ∧
    ∀ arg < 0, ∀ turns s, s.Inside input.length →
      unpackCode word turns input.length (byte 'X', arg) s = none :=
  ⟨unpackCodes_isSome_iff _ ⟨le_rfl, Int.natCast_nonneg _⟩,
    fun _ harg _ _ hs => unpackCode_star word _ hs ⟨rfl, harg⟩⟩

/-- `unpack("X*", "a")` -/
theorem unpack_star : ¬∃ turns, (unpack .eight turns [byte 'X', byte '*'] [97]).isSome := by
  rintro ⟨turns, hsome⟩
  have hcodes : codesOf [byte 'X', byte '*'] = [(byte 'X', -1)] := by
    rw [codesOf, show repeater [byte '*'] = (-1, []) by decide, dropWhile_nil, drop_nil, codesOf]
  have hcode := @unpackCode_star .eight ⟨0, []⟩ 1 turns (byte 'X', -1)
    ⟨le_rfl, Int.one_nonneg⟩ ⟨rfl, by decide⟩
  rw [unpack, hcodes, unpackCodes] at hsome
  simp only [length_singleton, Nat.cast_one] at *
  rw [hcode] at hsome
  cases hsome

end Termination

end PhpEngine.Unpack

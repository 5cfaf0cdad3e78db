/-
The groups of the table of literals: a marked name and the literals related to
it.  The merging loop looks a group up under a key, and where it keeps one it
copies it to the end of the new table in place.
-/
import PhpEngine.LiteralMarks
import PhpEngine.LiteralKeys

namespace PhpEngine

open List

variable {α : Type}

/-- The key of a type that is merged by its value alone. -/
def LiteralZval.scalarKey : LiteralZval α → Option LiteralKey
  | .null => some .null
  | .bool b => some (.bool b)
  | .long n => some (.long n)
  | .double bits => some (.double bits)
  | _ => none

theorem LiteralZval.scalarKey_injective {c c' : LiteralZval α}
    {key : LiteralKey} (h : c.scalarKey = some key) (h' : c'.scalarKey = some key) : c = c' := by
  cases c <;> cases h <;> cases c' <;> cases h' <;> rfl

/-- The literals and their marks as the merging loop finds them. -/
structure MarkedTable (α : Type) where
  literals : List (ZendLiteral α)
  info : InfoTable

namespace MarkedTable

variable (T : MarkedTable α)

def constant (n : Nat) : LiteralZval α :=
  (literalAt T.literals n).constant

/-- How many literals a marked one takes with it, itself included. -/
def size (n : Nat) : Nat :=
  match infoAt T.info n with
  | some info =>
    if (T.constant n).isText then info.flags.related.val - 1 + 1 else 1
  | none => 1

/-- How many cache slots a marked literal takes. -/
def slots (n : Nat) : Nat :=
  match infoAt T.info n with
  | some info => if (T.constant n).isText then info.flags.slots.val else 0
  | none => 0

def arKey (n : Nat) (info : LiteralInfo) : KeyBytes :=
  let text := (T.constant n).text
  if info.flags.exObj then
    objKey info.num text
  else if info.flags.exClass then
    classKey (T.constant info.num.toNat).text text
  else
    text ++ [0]

/-- What a marked literal is looked up under, if it may be merged at all. -/
def key (n : Nat) : Option LiteralKey :=
  match infoAt T.info n with
  | none => none
  | some info =>
    if (T.constant n).isText then
      if info.flags.mayMerge then some (.text info.flags (T.arKey n info))
      else none
    else
      (T.constant n).scalarKey

/-- The merging loop cannot tell `n` from `c`. -/
structure Alike (c n : Nat) : Prop where
  key : T.key c = T.key n
  known : T.key n ≠ none
  type : (T.constant n).isText = true → (T.constant n).sameType (T.constant c) = true

/-- The groups of marked literals lie apart in the table, and the name of a
class is itself a string and no member. -/
structure Grouped : Prop where
  infoLength : T.info.length = T.literals.length
  inside : ∀ n, infoAt T.info n ≠ none → n + T.size n ≤ T.literals.length
  apart : ∀ n, infoAt T.info n ≠ none → ∀ m, n < m → m < n + T.size n → infoAt T.info m = none
  classes : ∀ n info, infoAt T.info n = some info →
    info.flags.exClass = true → ∃ text classInfo, T.constant info.num.toNat = .string text ∧
      infoAt T.info info.num.toNat = some classInfo ∧
      classInfo.flags.exObj = false ∧ classInfo.flags.exClass = false

theorem size_pos (n : Nat) : 0 < T.size n := by
  unfold size
  split
  · split <;> omega
  · exact Nat.one_pos

theorem key_eq_none_of_unmarked {n : Nat} (h : infoAt T.info n = none) : T.key n = none := by
  unfold key
  rw [h]

theorem arKey_ne_nil (n : Nat) (info : LiteralInfo) : T.arKey n info ≠ [] := by
  unfold arKey objKey classKey
  split
  · simp
  · split <;> simp

theorem key_text {n : Nat} {info : LiteralInfo} (hinfo : infoAt T.info n = some info)
    (htext : (T.constant n).isText = true) (hmerge : info.flags.mayMerge = true) :
    T.key n = some (.text info.flags (T.arKey n info)) := by
  simp [key, hinfo, htext, hmerge]

theorem key_cases {n : Nat} {key : LiteralKey} (h : T.key n = some key) :
    ∃ info, infoAt T.info n = some info ∧
      ((T.constant n).isText = true ∧ info.flags.mayMerge = true ∧
          key = .text info.flags (T.arKey n info) ∨ (T.constant n).isText = false ∧
          (T.constant n).scalarKey = some key) := by
  unfold MarkedTable.key at h
  split at h
  · cases h
  · case h_2 info hinfo =>
      refine ⟨info, hinfo, ?_⟩
      by_cases htext : (T.constant n).isText = true
      · by_cases hmerge : info.flags.mayMerge = true
        · simp only [htext, hmerge, if_true, Option.some.injEq] at h
          exact .inl ⟨htext, hmerge, h.symm⟩
        · simp [htext, hmerge] at h
      · rw [if_neg htext] at h
        exact .inr ⟨by simpa using htext, h⟩

theorem key_valid {n : Nat} {key : LiteralKey} (h : T.key n = some key) : key.Valid := by
  obtain ⟨info, -, ⟨-, -, rfl⟩ | ⟨-, hscalar⟩⟩ := T.key_cases h
  · exact T.arKey_ne_nil n info
  · cases hconstant : T.constant n <;> rw [hconstant] at hscalar <;> cases hscalar <;> trivial

theorem scalarKey_ne_text (constant : LiteralZval α) (flags : LiteralFlags)
    (arKey : KeyBytes) : constant.scalarKey ≠ some (.text flags arKey) := by
  cases constant <;> simp [LiteralZval.scalarKey]

variable {T}

/-- Names that the loop cannot tell apart have the same flags and the same
key. -/
theorem Alike.of_text {c n : Nat} {info : LiteralInfo} (h : T.Alike c n)
    (hinfo : infoAt T.info n = some info) (htext : (T.constant n).isText = true) :
    ∃ info', infoAt T.info c = some info' ∧ info'.flags = info.flags ∧
      T.arKey c info' = T.arKey n info ∧ info.flags.mayMerge = true := by
  obtain ⟨key, hkey⟩ := Option.ne_none_iff_exists'.mp h.known
  obtain ⟨info₁, hinfo₁, ⟨-, hmerge, rfl⟩ | ⟨hscalar, -⟩⟩ := T.key_cases hkey
  · have heq : info₁ = info := Option.some.inj (hinfo₁.symm.trans hinfo)
    subst heq
    obtain ⟨info', hinfo', ⟨-, -, hsame⟩ | ⟨-, hscalar⟩⟩ :=
      T.key_cases (h.key.trans hkey)
    · simp only [LiteralKey.text.injEq] at hsame
      exact ⟨info', hinfo', hsame.1.symm, hsame.2.symm, hmerge⟩
    · exact absurd hscalar (scalarKey_ne_text _ _ _)
  · rw [htext] at hscalar
    cases hscalar

/-- Other literals that the loop cannot tell apart are equal. -/
theorem Alike.of_scalar {c n : Nat} (h : T.Alike c n) (htext : (T.constant n).isText = false) :
    T.constant c = T.constant n := by
  obtain ⟨key, hkey⟩ := Option.ne_none_iff_exists'.mp h.known
  obtain ⟨info, -, ⟨hisText, -, -⟩ | ⟨-, hscalar⟩⟩ := T.key_cases hkey
  · rw [htext] at hisText
    cases hisText
  · obtain ⟨info', -, ⟨-, -, rfl⟩ | ⟨-, hscalar'⟩⟩ :=
      T.key_cases (h.key.trans hkey)
    · exact absurd hscalar (scalarKey_ne_text _ _ _)
    · exact LiteralZval.scalarKey_injective hscalar' hscalar

theorem Grouped.lt_length (h : T.Grouped) {n : Nat}
    (hmarked : infoAt T.info n ≠ none) : n < T.literals.length := by
  have hinside := h.inside n hmarked
  have hpos := T.size_pos n
  omega

end MarkedTable

/-! What is left alone by the parts of a turn. -/

namespace MergeState

variable (s : MergeState α) (key : LiteralKey)

@[simp] theorem enter_literals : (s.enter key).literals = s.literals := by
  cases key with
  | bool b => cases b <;> rfl
  | _ => rfl

@[simp] theorem enter_info : (s.enter key).info = s.info := by
  cases key with
  | bool b => cases b <;> rfl
  | _ => rfl

@[simp] theorem enter_map : (s.enter key).map = s.map := by
  cases key with
  | bool b => cases b <;> rfl
  | _ => rfl

@[simp] theorem enter_j : (s.enter key).j = s.j := by
  cases key with
  | bool b => cases b <;> rfl
  | _ => rfl

@[simp] theorem enter_cacheSlots : (s.enter key).cacheSlots = s.cacheSlots := by
  cases key with
  | bool b => cases b <;> rfl
  | _ => rfl

end MergeState

theorem literalAt_of_getElem? {literals literals' : List (ZendLiteral α)}
    {n n' : Nat} (h : literals[n]? = literals'[n']?) :
    literalAt literals n = literalAt literals' n' := by
  simp only [literalAt, getD_eq_getElem?_getD, h]

theorem constantAt_eq {literals : List (ZendLiteral α)} {n : Nat} (h : n < literals.length) :
    constantAt literals n = some (literalAt literals n).constant := by
  simp [constantAt, literalAt, h]

theorem constant_of_constantAt {literals : List (ZendLiteral α)} {n : Nat}
    {constant : LiteralZval α} (h : constantAt literals n = some constant) :
    (literalAt literals n).constant = constant := by
  obtain ⟨literal, hliteral, rfl⟩ := Option.map_eq_some_iff.mp h
  simp [literalAt, hliteral]

@[simp] theorem constant_fillHash (literal : ZendLiteral α) :
    literal.fillHash.constant = literal.constant := by
  unfold ZendLiteral.fillHash
  split <;> rfl

@[simp] theorem cacheSlot_fillHash (literal : ZendLiteral α) :
    literal.fillHash.cacheSlot = literal.cacheSlot := by
  unfold ZendLiteral.fillHash
  split <;> rfl

/-- The related literals are copied in place from behind, so each is read
before it is written over. -/
theorem copyRelated_spec (n : Nat) (s : MergeState α) (i : Nat)
    (hbehind : s.j ≤ i + 1) (hinside : i + n < s.literals.length) : ∃ literals, copyRelated n s i =
        ({ s with literals := literals, j := s.j + n }, i + n) ∧
      literals.length = s.literals.length ∧
      (∀ k, k < s.j ∨ s.j + n ≤ k → literals[k]? = s.literals[k]?) ∧
      ∀ t < n, constantAt literals (s.j + t) = constantAt s.literals (i + 1 + t) := by
  induction n generalizing s i with
  | zero => exact ⟨s.literals, rfl, rfl, fun _ _ => rfl, by simp⟩
  | succ n ih =>
    obtain ⟨literals, hrun, hlength, hkept, hcopied⟩ := ih { s with
        literals := s.literals.set s.j (literalAt s.literals (i + 1)).fillHash
        j := s.j + 1 } (i + 1) (by simp; omega) (by simp; omega)
    simp only [length_set] at hlength hkept hcopied
    refine ⟨literals, ?_, hlength, ?_, ?_⟩
    · rw [copyRelated, hrun]
      simp only [add_assoc, add_comm 1 n]
    · intro k hk
      rw [hkept k (by omega), getElem?_set_ne (by omega)]
    · intro t ht
      cases t with
      | zero =>
        rw [add_zero, add_zero, constantAt, hkept s.j (by omega),
          getElem?_set_self (by omega), constantAt_eq (by omega)]
        simp
      | succ t =>
        have hnext := hcopied t (by omega)
        rw [constantAt, constantAt, getElem?_set_ne (by omega)]
          at hnext
        rw [constantAt, constantAt, show s.j + (t + 1) = s.j + 1 + t by omega,
          hnext, show i + 1 + 1 + t = i + 1 + (t + 1) by omega]

theorem copyRelated_snd (n : Nat) (s : MergeState α) (i : Nat) : (copyRelated n s i).2 = i + n := by
  induction n generalizing s i with
  | zero => rfl
  | succ n ih =>
    rw [copyRelated, ih]
    omega

theorem mergeLiteral_le (s : MergeState α) (i : Nat) : i ≤ (mergeLiteral s i).2 := by
  have hkeep : ∀ (s : MergeState α) flags, i ≤ (keepName s i flags).2 := by
    intro s flags
    rw [keepName, copyRelated_snd]
    exact Nat.le_add_right i _
  have hname : ∀ info, i ≤ (mergeName s i info).2 := by
    intro info
    unfold mergeName
    split
    · dsimp only
      split
      · split
        · exact Nat.le_add_right i _
        · exact hkeep _ _
      · exact hkeep _ _
    · exact hkeep _ _
  unfold mergeLiteral
  split
  · exact le_refl i
  · split <;> first | exact le_refl i | exact hname _

/-- The group of `c` stands at `pos` of the new table and has the cache slots
from `slot` on. -/
structure GroupStored (T : MarkedTable α) (s : MergeState α) (pos slot c : Nat) :
    Prop where
  constants : ∀ t < T.size c, constantAt s.literals (pos + t) = constantAt T.literals (c + t)
  info : infoAt s.info pos = infoAt T.info c
  cacheSlot : (literalAt s.literals pos).cacheSlot =
    if T.slots c = 0 then (literalAt T.literals c).cacheSlot else slot

/-- The group of `i` goes to the end of the new table. -/
structure Keeps (T : MarkedTable α) (s s' : MergeState α) (i : Nat) :
    Prop where
  literalsLength : s'.literals.length = s.literals.length
  infoLength : s'.info.length = s.info.length
  map : s'.map = s.map.set i s.j
  j : s'.j = s.j + T.size i
  cacheSlots : s'.cacheSlots = s.cacheSlots + T.slots i
  stored : GroupStored T s' s.j s.cacheSlots i
  literals : ∀ n, n < s.j ∨ s.j + T.size i ≤ n → s'.literals[n]? = s.literals[n]?
  info : ∀ n, n ≠ s.j → s'.info[n]? = s.info[n]?

/-- The tables at `i`: what lies ahead is as it was. -/
structure InPlace (T : MarkedTable α) (s : MergeState α) (i : Nat) :
    Prop where
  literalsLength : s.literals.length = T.literals.length
  infoLength : s.info.length = T.literals.length
  behind : s.j ≤ i
  ahead : ∀ n, i ≤ n → s.literals[n]? = T.literals[n]? ∧ s.info[n]? = T.info[n]?

namespace InPlace

variable {T : MarkedTable α} {s s' : MergeState α} {i : Nat}

theorem literalAt_eq (h : InPlace T s i) {n : Nat} (hn : i ≤ n) :
    literalAt s.literals n = literalAt T.literals n :=
  literalAt_of_getElem? (h.ahead n hn).1

theorem infoAt_eq (h : InPlace T s i) {n : Nat} (hn : i ≤ n) :
    infoAt s.info n = infoAt T.info n := by
  rw [infoAt, infoAt, (h.ahead n hn).2]

theorem enter (h : InPlace T s i) (key : LiteralKey) : InPlace T (s.enter key) i := by
  obtain ⟨hliterals, hinfo, hbehind, hahead⟩ := h
  constructor <;> simpa

theorem keepLiteral_keeps (h : InPlace T s i) (hi : i < T.literals.length) (hsize : T.size i = 1)
    (hslots : T.slots i = 0) : Keeps T s (s.keepLiteral i) i := by
  have hbehind := h.behind
  have hlength := h.literalsLength
  have hinfoLength := h.infoLength
  have hself : (s.literals.set s.j (literalAt s.literals i))[s.j]? =
      some (literalAt T.literals i) := by
    rw [getElem?_set_self (by omega), h.literalAt_eq (le_refl i)]
  refine
    { literalsLength := length_set ..
      infoLength := length_set ..
      map := rfl
      j := by rw [hsize]; rfl
      cacheSlots := by rw [hslots]; rfl
      stored := ⟨?_, ?_, ?_⟩, literals := ?_, info := ?_ }
  · intro t ht
    have hzero : t = 0 := by omega
    subst hzero
    rw [add_zero, add_zero, constantAt_eq hi]
    simp only [constantAt, MergeState.keepLiteral, MergeState.move,
      MergeState.point, hself, Option.map_some]
  · simp only [MergeState.keepLiteral, MergeState.move, MergeState.point]
    rw [infoAt_set, if_pos ⟨rfl, by omega⟩, h.infoAt_eq (le_refl i)]
  · rw [if_pos hslots]
    simp only [MergeState.keepLiteral, MergeState.move, MergeState.point,
      literalAt, getD_eq_getElem?_getD]
    rw [show (s.literals.set s.j (s.literals[i]?.getD _))[s.j]? = _ from hself]
    rfl
  · intro n hn
    have hne : s.j ≠ n := by omega
    exact getElem?_set_ne hne
  · intro n hn
    exact getElem?_set_ne (Ne.symm hn)

theorem keepName_eq (s : MergeState α) (i : Nat) (flags : LiteralFlags)
    (hj : s.j < s.literals.length) : keepName s i flags = copyRelated (flags.related.val - 1)
      { s with
        map := s.map.set i s.j
        info := s.info.set s.j (infoAt s.info i)
        literals := s.literals.set s.j
          (if flags.slots.val = 0 then (literalAt s.literals i).fillHash
            else { (literalAt s.literals i).fillHash with
              cacheSlot := s.cacheSlots })
        cacheSlots := s.cacheSlots + flags.slots.val
        j := s.j + 1 } i := by
  have hself : literalAt (s.literals.set s.j (literalAt s.literals i)) s.j =
      literalAt s.literals i := by
    simp [literalAt, hj]
  simp only [keepName, MergeState.move, MergeState.point, set_set, hself]

theorem keepName_keeps (h : InPlace T s i) (hgrouped : T.Grouped)
    {info : LiteralInfo} (hinfo : infoAt T.info i = some info)
    (htext : (T.constant i).isText = true) : Keeps T s (keepName s i info.flags).1 i ∧
      (keepName s i info.flags).2 + 1 = i + T.size i ∧
      (keepName s i info.flags).1.find = s.find := by
  have hbehind := h.behind
  have hlength := h.literalsLength
  have hinfoLength := h.infoLength
  have hsize : T.size i = info.flags.related.val - 1 + 1 := by
    simp [MarkedTable.size, hinfo, htext]
  have hslots : T.slots i = info.flags.slots.val := by
    simp [MarkedTable.slots, hinfo, htext]
  have hinside := hgrouped.inside i (by rw [hinfo]; simp)
  rw [keepName_eq s i info.flags (by omega), h.literalAt_eq (le_refl i)]
  generalize hfirst : (if info.flags.slots.val = 0 then
    (literalAt T.literals i).fillHash else
    { (literalAt T.literals i).fillHash with
      cacheSlot := s.cacheSlots }) = first
  obtain ⟨literals, hrun, hlen, hkept, hcopied⟩ := copyRelated_spec (info.flags.related.val - 1)
    { s with
      map := s.map.set i s.j
      info := s.info.set s.j (infoAt s.info i)
      literals := s.literals.set s.j first
      cacheSlots := s.cacheSlots + info.flags.slots.val
      j := s.j + 1 } i (Nat.succ_le_succ hbehind)
    (by rw [length_set]; omega)
  simp only [length_set] at hlen hkept hcopied
  have hself : literals[s.j]? = some first := by
    rw [hkept s.j (by omega), getElem?_set_self (by omega)]
  rw [hrun]
  refine ⟨?_, by change i + _ + 1 = _; omega, rfl⟩
  refine
    { literalsLength := hlen
      infoLength := length_set ..
      map := rfl
      j := by change s.j + 1 + _ = _; omega
      cacheSlots := by rw [hslots]
      stored := ⟨?_, ?_, ?_⟩, literals := ?_, info := ?_ }
  · intro t ht
    change constantAt literals (s.j + t) = constantAt T.literals (i + t)
    cases t with
    | zero =>
      rw [add_zero, add_zero, constantAt, hself, constantAt_eq (by omega), ← hfirst]
      split <;> simp
    | succ t =>
      have hnext := hcopied t (by omega)
      rw [constantAt, constantAt, getElem?_set_ne (by omega),
        (h.ahead (i + 1 + t) (by omega)).1] at hnext
      rw [show s.j + (t + 1) = s.j + 1 + t by omega,
        show i + (t + 1) = i + 1 + t by omega]
      exact hnext
  · change infoAt (s.info.set s.j (infoAt s.info i)) s.j = infoAt T.info i
    rw [infoAt_set, if_pos ⟨rfl, by omega⟩, h.infoAt_eq (le_refl i)]
  · change (literalAt literals s.j).cacheSlot = _
    rw [hslots, literalAt, getD_eq_getElem?_getD, hself, ← hfirst]
    split <;> simp
  · intro n hn
    rw [hkept n (by omega), getElem?_set_ne (by omega)]
  · intro n hn
    exact getElem?_set_ne (Ne.symm hn)

end InPlace

theorem Keeps.of_enter {T : MarkedTable α} {s s' : MergeState α} {i : Nat}
    {key : LiteralKey} (h : Keeps T (s.enter key) s' i) : Keeps T s s' i := by
  obtain ⟨hliterals, hinfo, hmap, hj, hslots, hstored, hkept, hkept'⟩ := h
  simp only [MergeState.enter_literals, MergeState.enter_info,
    MergeState.enter_map, MergeState.enter_j, MergeState.enter_cacheSlots] at *
  exact ⟨hliterals, hinfo, hmap, hj, hslots, hstored, hkept, hkept'⟩

end PhpEngine

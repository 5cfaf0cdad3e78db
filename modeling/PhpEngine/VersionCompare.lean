/-
`php_version_compare` (`ext/standard/versioning.c`).  A string is the list of the bytes in
front of its NUL.
-/
import PhpEngine.NumericString
import PhpEngine.OpcacheKey
import Mathlib.Data.List.TakeWhile

namespace PhpEngine

open List Option

namespace Versioning

section Functions

variable (size : LongSize) (highAlnum : UInt8 → Bool)

/-- `isdig` -/
def isDig (b : UInt8) : Bool :=
  isDigit b && b != byte '.'

/-- `isndig` -/
def isNdig (b : UInt8) : Bool :=
  !isDigit b && b != byte '.'

/-- `isspecialver` -/
def isSpecialVer (b : UInt8) : Bool :=
  b == byte '-' || b == byte '_' || b == byte '+'

/-- The loop of `php_canonicalize_version`, with the last byte read and the last byte
written. -/
def canonicalizeLoop (lp lq : UInt8) : List UInt8 → List UInt8
  | [] => []
  | c :: p =>
    if isSpecialVer c then
      if lq ≠ byte '.' then byte '.' :: canonicalizeLoop c (byte '.') p
      else canonicalizeLoop c lq p
    else if (isNdig lp && isDig c) || (isDig lp && isNdig c) then
      if lq ≠ byte '.' then byte '.' :: c :: canonicalizeLoop c c p
      else c :: canonicalizeLoop c c p
    else if !isalnum highAlnum c then
      if lq ≠ byte '.' then byte '.' :: canonicalizeLoop c (byte '.') p
      else canonicalizeLoop c lq p
    else c :: canonicalizeLoop c c p

def phpCanonicalizeVersion : List UInt8 → List UInt8
  | [] => []
  | c :: p => c :: canonicalizeLoop highAlnum c c p

/-- `special_forms` -/
def specialForms : List (String × Int) :=
  [("dev", 0), ("alpha", 1), ("a", 1), ("beta", 2), ("b", 2), ("RC", 3), ("rc", 3), ("#", 4),
    ("pl", 5), ("p", 5)]

/-- `found1` or `found2`. -/
def specialOrder (form : List UInt8) : Int :=
  match specialForms.find? fun pp => (pp.1.toList.map byte).isPrefixOf form with
  | some pp => pp.2
  | none => -1

def compareSpecialVersionForms (form1 form2 : List UInt8) : Int :=
  (specialOrder form1 - specialOrder form2).sign

/-- `"#N#"` -/
def numberMark : List UInt8 :=
  [byte '#', byte 'N', byte '#']

/-- The two elements of a turn. -/
def compareElements (p1 p2 : List UInt8) : Int :=
  if NumericString.startsDigit p1 && NumericString.startsDigit p2 then
    (strtol size 10 p1 - strtol size 10 p2).sign
  else if !NumericString.startsDigit p1 && !NumericString.startsDigit p2 then
    compareSpecialVersionForms p1 p2
  else if NumericString.startsDigit p1 then compareSpecialVersionForms numberMark p2
  else compareSpecialVersionForms p1 numberMark

/-- The element at the front: the bytes up to the point that is overwritten. -/
def element (p : List UInt8) : List UInt8 :=
  p.takeWhile (· != byte '.')

/-- `n1 + 1`, where `n1` is the result of `strchr(p1, '.')`. -/
def behindPoint (p : List UInt8) : Option (List UInt8) :=
  match p.dropWhile (· != byte '.') with
  | [] => none
  | _ :: rest => some rest

/-- The variables behind the loop; of `n1` and `n2` whether they are not `NULL`. -/
structure LoopEnd where
  compare : Int
  p1 : List UInt8
  p2 : List UInt8
  n1 : Bool
  n2 : Bool
deriving DecidableEq, Repr

def compareLoop : Nat → List UInt8 → List UInt8 → Option LoopEnd
  | 0, _, _ => none
  | fuel + 1, p1, p2 =>
    if p1 = [] ∨ p2 = [] then some ⟨0, p1, p2, true, true⟩
    else
      let compare := compareElements size (element p1) (element p2)
      let n1 := behindPoint p1
      let n2 := behindPoint p2
      if compare ≠ 0 then some ⟨compare, p1, p2, n1.isSome, n2.isSome⟩
      else
        match n1, n2 with
        | some rest1, some rest2 => compareLoop fuel rest1 rest2
        | some rest1, none => some ⟨0, rest1, p2, true, false⟩
        | none, some rest2 => some ⟨0, p1, rest2, false, true⟩
        | none, none => some ⟨0, p1, p2, false, false⟩

/-- `ver1` or `ver2`: a string with `#` at its front is taken as it is. -/
def versionForm (version : List UInt8) : List UInt8 :=
  if version.head? = some (byte '#') then version
  else phpCanonicalizeVersion highAlnum version

def phpVersionCompare : Nat → List UInt8 → List UInt8 → Option Int
  | 0, _, _ => none
  | fuel + 1, origVer1, origVer2 =>
    if origVer1 = [] ∨ origVer2 = [] then
      some (if origVer1 = [] ∧ origVer2 = [] then 0 else if origVer1 ≠ [] then 1 else -1)
    else
      let ver1 := versionForm highAlnum origVer1
      let ver2 := versionForm highAlnum origVer2
      (compareLoop size (ver1.length + 1) ver1 ver2).bind fun e =>
        if e.compare ≠ 0 then some e.compare
        else if e.n1 then
          if NumericString.startsDigit e.p1 then some 1
          else phpVersionCompare fuel e.p1 numberMark
        else if e.n2 then
          if NumericString.startsDigit e.p2 then some (-1)
          else phpVersionCompare fuel numberMark e.p2
        else some 0

end Functions

section Elements

variable {size : LongSize}

theorem compareSpecialVersionForms_swap (form1 form2 : List UInt8) :
    compareSpecialVersionForms form2 form1 = -compareSpecialVersionForms form1 form2 := by
  rw [compareSpecialVersionForms, compareSpecialVersionForms, ← Int.sign_neg, neg_sub]

theorem compareElements_swap (p1 p2 : List UInt8) :
    compareElements size p2 p1 = -compareElements size p1 p2 := by
  rw [compareElements, compareElements]
  cases NumericString.startsDigit p1 <;> cases NumericString.startsDigit p2
  · exact compareSpecialVersionForms_swap p1 p2
  · exact compareSpecialVersionForms_swap p1 numberMark
  · exact compareSpecialVersionForms_swap numberMark p2
  · simp only [Bool.and_self, if_true]
    rw [← Int.sign_neg, neg_sub]

theorem compareElements_self (p : List UInt8) : compareElements size p p = 0 := by
  have hswap := @compareElements_swap size p p
  omega

theorem behindPoint_length {p rest : List UInt8} (h : behindPoint p = some rest) :
    rest.length < p.length := by
  have hle := (dropWhile_sublist (l := p) (· != byte '.')).length_le
  rw [behindPoint] at h
  split at h
  · cases h
  next b l hdrop =>
    cases h
    rw [hdrop, length_cons] at hle
    omega

theorem behindPoint_ne_nil {p rest : List UInt8} (h : behindPoint p = some rest) : p ≠ [] := by
  rintro rfl
  cases h

theorem behindPoint_last {p rest : List UInt8} (h : behindPoint p = some rest) :
    p.getLast? = some (byte '.') ↔ rest = [] ∨ rest.getLast? = some (byte '.') := by
  have hsplit := takeWhile_append_dropWhile (p := (· != byte '.')) (l := p)
  have hhead := head?_dropWhile_not (· != byte '.') p
  rw [behindPoint] at h
  split at h
  · cases h
  next b l hdrop =>
    obtain rfl := Option.some.inj h
    rw [hdrop] at hsplit hhead
    have hb : b = byte '.' := by simpa using hhead
    rw [← hsplit, hb]
    cases l <;> simp

theorem no_behindPoint_last {p : List UInt8} (h : behindPoint p = none) :
    p.getLast? ≠ some (byte '.') := by
  intro hlast
  have hmem := mem_of_getLast? hlast
  rw [behindPoint] at h
  split at h
  next hdrop =>
    rw [dropWhile_eq_nil_iff] at hdrop
    have hne := hdrop _ hmem
    simp at hne
  · cases h

end Elements

section Loop

variable {size : LongSize}

/-- The same end, of the loop on the versions the other way round. -/
def LoopEnd.swap (e : LoopEnd) : LoopEnd :=
  ⟨-e.compare, e.p2, e.p1, e.n2, e.n1⟩

theorem compareLoop_swap (fuel : Nat) (p1 p2 : List UInt8) :
    compareLoop size fuel p2 p1 = (compareLoop size fuel p1 p2).map LoopEnd.swap := by
  induction fuel generalizing p1 p2 with
  | zero => rfl
  | succ fuel ih =>
    rw [compareLoop, compareLoop]
    by_cases hnil : p1 = [] ∨ p2 = []
    · rw [if_pos hnil, if_pos hnil.symm]
      rfl
    · rw [if_neg hnil, if_neg fun h => hnil h.symm]
      simp only [compareElements_swap (element p1) (element p2), neg_ne_zero]
      split
      · rfl
      · cases behindPoint p1 <;> cases behindPoint p2
        · rfl
        · rfl
        · rfl
        · exact ih _ _

/-- Each turn takes an element off the first version, so that the loop comes to its end. -/
theorem compareLoop_ends {fuel : Nat} {p1 : List UInt8} (h : p1.length < fuel)
    (p2 : List UInt8) : ∃ e, compareLoop size fuel p1 p2 = some e := by
  induction fuel generalizing p1 p2 with
  | zero => omega
  | succ fuel ih =>
    rw [compareLoop]
    split
    · exact ⟨_, rfl⟩
    · simp only
      split
      · exact ⟨_, rfl⟩
      · cases hn1 : behindPoint p1 with
        | none => cases behindPoint p2 <;> exact ⟨_, rfl⟩
        | some rest1 =>
          cases behindPoint p2 with
          | none => exact ⟨_, rfl⟩
          | some rest2 =>
            have hlength := behindPoint_length hn1
            exact ih (by omega) rest2

theorem compareLoop_fuel {fuel fuel' : Nat} {p1 p2 : List UInt8} {e : LoopEnd}
    (h : compareLoop size fuel p1 p2 = some e) (hle : fuel ≤ fuel') :
    compareLoop size fuel' p1 p2 = some e := by
  induction fuel generalizing fuel' p1 p2 with
  | zero => cases h
  | succ fuel ih =>
    obtain ⟨k, rfl⟩ : ∃ k, fuel' = k + 1 := ⟨fuel' - 1, by omega⟩
    rw [compareLoop] at h ⊢
    split
    next hnil => rwa [if_pos hnil] at h
    next hnil =>
      rw [if_neg hnil] at h
      simp only at h ⊢
      split
      next hcompare => rwa [if_pos hcompare] at h
      next hcompare =>
        rw [if_neg hcompare] at h
        cases hn1 : behindPoint p1 with
        | none =>
          rw [hn1] at h
          cases hn2 : behindPoint p2 <;> rw [hn2] at h <;> exact h
        | some rest1 =>
          cases hn2 : behindPoint p2 with
          | none =>
            rw [hn1, hn2] at h
            exact h
          | some rest2 =>
            rw [hn1, hn2] at h
            exact ih h (by omega)

/-- The loop on two versions and the one on the same versions the other way round. -/
theorem compareLoop_both (p1 p2 : List UInt8) :
    ∃ e, compareLoop size (p1.length + 1) p1 p2 = some e ∧
      compareLoop size (p2.length + 1) p2 p1 = some e.swap := by
  obtain ⟨e, he⟩ := @compareLoop_ends size _ _ (Nat.lt_succ_self p1.length) p2
  obtain ⟨e', he'⟩ := @compareLoop_ends size _ _ (Nat.lt_succ_self p2.length) p1
  have hsame := compareLoop_fuel he (Nat.le_max_left _ (p2.length + 1))
  have hsame' := compareLoop_fuel he' (Nat.le_max_right (p1.length + 1) _)
  rw [compareLoop_swap, hsame, map_some, Option.some.injEq] at hsame'
  exact ⟨e, he, by rw [hsame']; exact he'⟩

end Loop

section Marks

theorem head_of_isPrefixOf {b : UInt8} {name form : List UInt8}
    (h : (b :: name).isPrefixOf form = true) : form.head? = some b := by
  cases form with
  | nil => cases h
  | cons c l =>
    rw [List.isPrefixOf, Bool.and_eq_true, beq_iff_eq] at h
    rw [h.1, head?_cons]

/-- The first byte of a form tells whether it ranks above the mark of a number, as the mark
or below it. -/
theorem specialForm_head {pp : String × Int} {form : List UInt8} (hmem : pp ∈ specialForms)
    (hform : (pp.1.toList.map byte).isPrefixOf form = true) :
    pp.2 ≤ 3 ∧ form.head? ≠ some (byte '#') ∧ form.head? ≠ some (byte 'p') ∨
      pp.2 = 4 ∧ form.head? = some (byte '#') ∨ pp.2 = 5 ∧ form.head? = some (byte 'p') := by
  simp only [specialForms, mem_cons, not_mem_nil, or_false] at hmem
  rcases hmem with rfl | rfl | rfl | rfl | rfl | rfl | rfl | rfl | rfl | rfl
  · rw [head_of_isPrefixOf (b := byte 'd') hform]
    decide
  · rw [head_of_isPrefixOf (b := byte 'a') hform]
    decide
  · rw [head_of_isPrefixOf (b := byte 'a') hform]
    decide
  · rw [head_of_isPrefixOf (b := byte 'b') hform]
    decide
  · rw [head_of_isPrefixOf (b := byte 'b') hform]
    decide
  · rw [head_of_isPrefixOf (b := byte 'R') hform]
    decide
  · rw [head_of_isPrefixOf (b := byte 'r') hform]
    decide
  · rw [head_of_isPrefixOf (b := byte '#') hform]
    decide
  · rw [head_of_isPrefixOf (b := byte 'p') hform]
    decide
  · rw [head_of_isPrefixOf (b := byte 'p') hform]
    decide

theorem specialOrder_spec (form : List UInt8) :
    if form.head? = some (byte '#') then specialOrder form = 4
    else if form.head? = some (byte 'p') then specialOrder form = 5 else specialOrder form ≤ 3 := by
  rw [specialOrder]
  cases hfind : specialForms.find? fun pp => (pp.1.toList.map byte).isPrefixOf form with
  | some pp =>
    have hform := find?_some hfind
    rcases specialForm_head (mem_of_find?_eq_some hfind) hform with
      ⟨hle, hhash, hp⟩ | ⟨heq, hhash⟩ | ⟨heq, hp⟩
    · rw [if_neg hhash, if_neg hp]
      exact hle
    · rw [if_pos hhash]
      exact heq
    · rw [if_neg (by rw [hp]; decide), if_pos hp]
      exact heq
  | none =>
    rw [find?_eq_none] at hfind
    match form with
    | [] => decide
    | c :: l =>
      have hhash : c ≠ byte '#' := by
        rintro rfl
        exact hfind ("#", 4) (by decide) rfl
      have hp : c ≠ byte 'p' := by
        rintro rfl
        exact hfind ("p", 5) (by decide) rfl
      rw [head?_cons, if_neg (by simpa using hhash), if_neg (by simpa using hp)]
      decide

variable {size : LongSize} {highAlnum : UInt8 → Bool}

theorem versionForm_cons (c : UInt8) (l : List UInt8) :
    ∃ l', versionForm highAlnum (c :: l) = c :: l' ∧ (c = byte '#' → l' = l) := by
  rw [versionForm]
  split
  · exact ⟨l, rfl, fun _ => rfl⟩
  next hhash => exact ⟨_, rfl, fun h => absurd (congrArg some h) hhash⟩

theorem versionForm_ne_nil {x : List UInt8} (h : x ≠ []) : versionForm highAlnum x ≠ [] := by
  match x, h with
  | c :: l, _ =>
    obtain ⟨l', heq, -⟩ := @versionForm_cons highAlnum c l
    rw [heq]
    exact cons_ne_nil c l'

theorem phpVersionCompare_loop (fuel : Nat) {ver1 ver2 : List UInt8} (h1 : ver1 ≠ [])
    (h2 : ver2 ≠ []) {e : LoopEnd}
    (he : compareLoop size ((versionForm highAlnum ver1).length + 1) (versionForm highAlnum ver1)
      (versionForm highAlnum ver2) = some e) :
    phpVersionCompare size highAlnum (fuel + 1) ver1 ver2 = if e.compare ≠ 0 then some e.compare
      else if e.n1 then
        if NumericString.startsDigit e.p1 then some 1
        else phpVersionCompare size highAlnum fuel e.p1 numberMark else if e.n2 then
        if NumericString.startsDigit e.p2 then some (-1)
        else phpVersionCompare size highAlnum fuel numberMark e.p2 else some 0 := by
  rw [phpVersionCompare, if_neg (by simp [h1, h2])]
  simp only [he, bind_some]

theorem element_head (c : UInt8) (l : List UInt8) :
    (element (c :: l)).head? = if c = byte '.' then none else some c := by
  rw [element, takeWhile_cons]
  by_cases hc : c = byte '.'
  · rw [if_pos hc, if_neg (by simp [hc])]
    rfl
  · rw [if_neg hc, if_pos (by simp [hc])]
    rfl

/-- How the rest of a version ranks against the mark of a number: above it are numbers, `p`
and `pl`, and marks in front of one of these. -/
inductive Outranks : List UInt8 → Prop
  | number {x : List UInt8} : NumericString.startsDigit x = true → Outranks x
  | patch {x : List UInt8} : x.head? = some (byte 'p') → Outranks x
  | mark {x rest : List UInt8} : x.head? = some (byte '#') → behindPoint x = some rest →
      Outranks rest → Outranks x

/-- The first element of a version that does not start with a digit, against the mark of a
number. -/
theorem compareElements_mark {c : UInt8} {l : List UInt8} (hc : isDigit c = false) :
    compareElements size (element (c :: l)) (element numberMark) =
      if c = byte '#' then 0 else if c = byte 'p' then 1 else -1 := by
  have hspec := specialOrder_spec (element (c :: l))
  have hmark : specialOrder (element numberMark) = 4 := by decide
  have hstart : NumericString.startsDigit (element (c :: l)) = false := by
    rw [element, takeWhile_cons]
    split
    · exact hc
    · rfl
  have hstart' : NumericString.startsDigit (element numberMark) = false := by decide
  rw [compareElements, hstart, hstart']
  simp only [Bool.and_false, Bool.false_eq_true, if_false, Bool.not_false, Bool.and_true,
    if_true, compareSpecialVersionForms, hmark]
  rw [element_head] at hspec
  by_cases hhash : c = byte '#'
  · subst hhash
    rfl
  · by_cases hp : c = byte 'p'
    · subst hp
      rw [hspec, if_neg hhash, if_pos rfl]
      rfl
    · have hne : ∀ d, c ≠ d → (if c = byte '.' then none else some c) ≠ some d := by
        intro d hd
        split
        · simp
        · simpa using hd
      rw [if_neg (hne _ hhash), if_neg (hne _ hp)] at hspec
      rw [if_neg hhash, if_neg hp]
      exact Int.sign_eq_neg_one_of_neg (by omega)

theorem compareLoop_mark {c : UInt8} {l : List UInt8} (hc : isDigit c = false) (fuel : Nat) :
    ∃ e, compareLoop size (fuel + 1) (c :: l) numberMark = some e ∧ e.n2 = false ∧
      if c = byte '#' then
        e.compare = 0 ∧ e.n1 = (behindPoint (c :: l)).isSome ∧
          ∀ rest, behindPoint (c :: l) = some rest → e.p1 = rest
      else e.compare = if c = byte 'p' then 1 else -1 := by
  have hbehind : behindPoint numberMark = none := rfl
  rw [compareLoop, if_neg (by simp [numberMark])]
  simp only [compareElements_mark hc, hbehind, isSome_none]
  by_cases hhash : c = byte '#'
  · simp only [hhash, if_true, ne_eq, not_true_eq_false, if_false]
    cases behindPoint (byte '#' :: l) with
    | none => exact ⟨_, rfl, rfl, rfl, rfl, fun _ h => by cases h⟩
    | some rest => exact ⟨_, rfl, rfl, rfl, rfl, fun _ h => Option.some.inj h⟩
  · simp only [hhash, if_false]
    by_cases hp : c = byte 'p'
    · simp only [hp, if_true]
      exact ⟨_, rfl, rfl, rfl⟩
    · simp only [hp, if_false]
      exact ⟨_, rfl, rfl, rfl⟩

/-- What the rest `x` of a version, from behind a point on, decides where the other version has
no such rest. -/
theorem mark_spec (size : LongSize) (highAlnum : UInt8 → Bool) (x : List UInt8) :
    ∃ t : Int, (t = 1 ↔ Outranks x) ∧ (x = [] → t = -1) ∧ ∀ fuel, x.length < fuel →
      (if NumericString.startsDigit x then some 1
        else phpVersionCompare size highAlnum fuel x numberMark) = some t ∧
      (if NumericString.startsDigit x then some (-1)
        else phpVersionCompare size highAlnum fuel numberMark x) = some (-t) := by
  induction hn : x.length using Nat.strong_induction_on generalizing x with
  | _ n ih =>
    match x with
    | [] =>
      refine ⟨-1, iff_of_false (by decide) ?_, fun _ => rfl, fun fuel hfuel => ?_⟩
      · intro h
        cases h with
        | number h | patch h => cases h
        | mark h _ _ => cases h
      · obtain ⟨k, rfl⟩ : ∃ k, fuel = k + 1 := ⟨fuel - 1, by omega⟩
        exact ⟨rfl, rfl⟩
    | c :: l =>
      cases hc : isDigit c with
      | true =>
        have hstart : NumericString.startsDigit (c :: l) = true := hc
        refine ⟨1, iff_of_true rfl (.number hstart), fun h => absurd h (cons_ne_nil c l),
          fun fuel _ => ?_⟩
        rw [hstart]
        exact ⟨rfl, rfl⟩
      | false =>
        have hstart : NumericString.startsDigit (c :: l) = false := hc
        obtain ⟨l', hform, hsame⟩ := @versionForm_cons highAlnum c l
        have hmarkNil : numberMark ≠ [] := by decide
        obtain ⟨e, he, hn2, hspec⟩ := @compareLoop_mark size c l' hc 0
        have hloop := compareLoop_fuel he (Nat.le_add_left 1 (c :: l').length)
        have hnil := cons_ne_nil c l
        have hloop' := @compareLoop_swap size (numberMark.length + 1) (c :: l') numberMark
        rw [compareLoop_fuel he (Nat.le_add_left 1 numberMark.length), map_some] at hloop'
        rw [← hform] at hloop
        have hone := fun fuel => phpVersionCompare_loop fuel hnil hmarkNil hloop
        have htwo := fun fuel => phpVersionCompare_loop fuel hmarkNil hnil
          (e := e.swap) (by rw [hform]; exact hloop')
        simp only [LoopEnd.swap, neg_ne_zero, hn2] at htwo
        by_cases hhash : c = byte '#'
        · obtain rfl := hsame hhash
          rw [if_pos hhash] at hspec
          obtain ⟨hcompare, hn1, hp1⟩ := hspec
          cases hbehind : behindPoint (c :: l') with
          | none =>
            rw [hbehind, isSome_none] at hn1
            refine ⟨0, iff_of_false (by decide) ?_,
              fun h => absurd h (cons_ne_nil c l'), fun fuel hfuel => ?_⟩
            · intro h
              cases h with
              | number h =>
                rw [hstart] at h
                cases h
              | patch h =>
                rw [head?_cons, hhash] at h
                cases h
              | mark _ h _ =>
                rw [hbehind] at h
                cases h
            · obtain ⟨k, rfl⟩ : ∃ k, fuel = k + 1 := ⟨fuel - 1, by omega⟩
              rw [hone, htwo]
              simp [hstart, hcompare, hn1, hn2]
          | some rest =>
            rw [hbehind, isSome_some] at hn1
            have hrest := hp1 rest hbehind
            have hlength := behindPoint_length hbehind
            obtain ⟨t, hrank, -, ht⟩ := ih rest.length (by omega) rest rfl
            refine ⟨t, hrank.trans ⟨fun h => ?_, fun h => ?_⟩,
              fun h => absurd h (cons_ne_nil c l'), fun fuel hfuel => ?_⟩
            · exact .mark (by rw [head?_cons, hhash]) hbehind h
            · cases h with
              | number h =>
                rw [hstart] at h
                cases h
              | patch h =>
                rw [head?_cons, hhash] at h
                cases h
              | mark _ h houtranks =>
                rw [hbehind] at h
                cases h
                exact houtranks
            · obtain ⟨k, rfl⟩ : ∃ k, fuel = k + 1 := ⟨fuel - 1, by omega⟩
              obtain ⟨ht, ht'⟩ := ht k (by omega)
              rw [hone, htwo]
              simp [hstart, hcompare, hn1, hrest, ht, ht']
        · rw [if_neg hhash] at hspec
          have hne : e.compare ≠ 0 := by
            rw [hspec]
            split <;> decide
          refine ⟨e.compare, ?_, fun h => absurd h (cons_ne_nil c l), fun fuel hfuel => ?_⟩
          · rw [hspec]
            by_cases hp : c = byte 'p'
            · rw [if_pos hp]
              exact iff_of_true rfl (.patch (by rw [head?_cons, hp]))
            · rw [if_neg hp]
              refine iff_of_false (by decide) fun h => ?_
              cases h with
              | number h =>
                rw [hstart] at h
                cases h
              | patch h => exact hp (Option.some.inj h)
              | mark h _ _ => exact hhash (Option.some.inj h)
          · obtain ⟨k, rfl⟩ : ∃ k, fuel = k + 1 := ⟨fuel - 1, by omega⟩
            rw [hone, htwo]
            simp [hstart, hne]

end Marks

section Symmetry

variable {size : LongSize} {highAlnum : UInt8 → Bool}

/-- The second version ends in a point, its elements compare equal to the first ones of the
first version, and `rest` is what that one has behind them. -/
inductive Consumed (size : LongSize) : List UInt8 → List UInt8 → List UInt8 → Prop
  | last {p1 p2 rest : List UInt8} : compareElements size (element p1) (element p2) = 0 →
      behindPoint p1 = some rest → behindPoint p2 = some [] → Consumed size p1 p2 rest
  | step {p1 p2 rest1 rest2 rest : List UInt8} :
      compareElements size (element p1) (element p2) = 0 → behindPoint p1 = some rest1 →
      behindPoint p2 = some rest2 → Consumed size rest1 rest2 rest → Consumed size p1 p2 rest

theorem compareLoop_length {fuel : Nat} {p1 p2 : List UInt8} {e : LoopEnd}
    (h : compareLoop size fuel p1 p2 = some e) :
    e.p1.length ≤ p1.length ∧ e.p2.length ≤ p2.length := by
  induction fuel generalizing p1 p2 with
  | zero => cases h
  | succ fuel ih =>
    rw [compareLoop] at h
    split at h
    · cases h
      exact ⟨le_refl _, le_refl _⟩
    · simp only at h
      split at h
      · cases h
        exact ⟨le_refl _, le_refl _⟩
      · cases hn1 : behindPoint p1 with
        | none =>
          cases hn2 : behindPoint p2 with
          | none =>
            rw [hn1, hn2] at h
            cases h
            exact ⟨le_refl _, le_refl _⟩
          | some rest2 =>
            have hlength2 := behindPoint_length hn2
            rw [hn1, hn2] at h
            cases h
            exact ⟨le_refl _, hlength2.le⟩
        | some rest1 =>
          have hlength1 := behindPoint_length hn1
          cases hn2 : behindPoint p2 with
          | none =>
            rw [hn1, hn2] at h
            cases h
            exact ⟨hlength1.le, le_refl _⟩
          | some rest2 =>
            have hlength2 := behindPoint_length hn2
            rw [hn1, hn2] at h
            obtain ⟨hle1, hle2⟩ := ih h
            exact ⟨by omega, by omega⟩

/-- A version has come to its end with a point where the other one has gone on. -/
theorem compareLoop_open {fuel : Nat} {p1 p2 : List UInt8} {e : LoopEnd}
    (h : compareLoop size fuel p1 p2 = some e) (h1 : p1 ≠ []) (h2 : p2 ≠ [])
    (hcompare : e.compare = 0) (hn1 : e.n1 = true) (hn2 : e.n2 = true) :
    e.p1 = [] ∧ p1.getLast? = some (byte '.') ∨ e.p2 = [] ∧ Consumed size p1 p2 e.p1 := by
  induction fuel generalizing p1 p2 with
  | zero => cases h
  | succ fuel ih =>
    rw [compareLoop, if_neg (by simp [h1, h2])] at h
    simp only at h
    split at h
    next hne =>
      cases h
      exact absurd hcompare hne
    next heq =>
      rw [not_not] at heq
      cases hb1 : behindPoint p1 with
      | none =>
        rw [hb1] at h
        cases hb2 : behindPoint p2 <;> rw [hb2] at h <;> obtain rfl := Option.some.inj h <;>
          cases hn1
      | some rest1 =>
        cases hb2 : behindPoint p2 with
        | none =>
          rw [hb1, hb2] at h
          cases h
          cases hn2
        | some rest2 =>
          rw [hb1, hb2] at h
          simp only at h
          by_cases hr1 : rest1 = []
          · -- The first version is through.
            left
            have hlast := (behindPoint_last hb1).mpr (.inl hr1)
            match fuel, h with
            | fuel + 1, h =>
              rw [compareLoop, if_pos (.inl hr1)] at h
              cases h
              exact ⟨hr1, hlast⟩
          · by_cases hr2 : rest2 = []
            · right
              match fuel, h with
              | fuel + 1, h =>
                rw [compareLoop, if_pos (.inr hr2)] at h
                cases h
                exact ⟨hr2, .last heq hb1 (hr2 ▸ hb2)⟩
            · rcases ih h hr1 hr2 with ⟨hnil, hlast⟩ | ⟨hnil, hconsumed⟩
              · exact .inl ⟨hnil, (behindPoint_last hb1).mpr (.inr hlast)⟩
              · exact .inr ⟨hnil, .step heq hb1 hb2 hconsumed⟩

theorem compareLoop_consumed {fuel : Nat} {p1 p2 rest : List UInt8} {e : LoopEnd}
    (hconsumed : Consumed size p1 p2 rest) (hlast : p1.getLast? ≠ some (byte '.'))
    (h : compareLoop size fuel p1 p2 = some e) : e = ⟨0, rest, [], true, true⟩ := by
  induction hconsumed generalizing fuel with
  | @last p1 p2 rest heq hb1 hb2 =>
    match fuel, h with
    | fuel + 1, h =>
      rw [compareLoop, if_neg (by simp [behindPoint_ne_nil hb1, behindPoint_ne_nil hb2])] at h
      simp only [heq, hb1, hb2, ne_eq, not_true_eq_false, if_false] at h
      match fuel, h with
      | fuel + 1, h =>
        rw [compareLoop, if_pos (.inr rfl)] at h
        exact (Option.some.inj h).symm
  | @step p1 p2 rest1 rest2 rest heq hb1 hb2 hconsumed ih =>
    match fuel, h with
    | fuel + 1, h =>
      rw [compareLoop, if_neg (by simp [behindPoint_ne_nil hb1, behindPoint_ne_nil hb2])] at h
      simp only [heq, hb1, hb2, ne_eq, not_true_eq_false, if_false] at h
      exact ih (fun hl => hlast ((behindPoint_last hb1).mpr (.inr hl))) h

theorem compareLoop_self {fuel : Nat} {p : List UInt8} {e : LoopEnd}
    (h : compareLoop size fuel p p = some e) (hp : p ≠ []) :
    e.compare = 0 ∧ e.n1 = e.n2 ∧ (e.n1 = true ↔ p.getLast? = some (byte '.')) ∧
      (e.n1 = true → e.p1 = []) := by
  induction fuel generalizing p with
  | zero => cases h
  | succ fuel ih =>
    rw [compareLoop, if_neg (by simp [hp])] at h
    simp only [compareElements_self, ne_eq, not_true_eq_false, if_false] at h
    cases hb : behindPoint p with
    | none =>
      rw [hb] at h
      cases h
      exact ⟨rfl, rfl, iff_of_false Bool.false_ne_true (no_behindPoint_last hb),
        fun h => by cases h⟩
    | some rest =>
      rw [hb] at h
      simp only at h
      rw [behindPoint_last hb]
      by_cases hrest : rest = []
      · match fuel, h with
        | fuel + 1, h =>
          rw [compareLoop, if_pos (.inl hrest)] at h
          cases h
          exact ⟨rfl, rfl, iff_of_true rfl (.inl hrest), fun _ => hrest⟩
      · obtain ⟨hcompare, hsame, hlast, hnil⟩ := ih h hrest
        exact ⟨hcompare, hsame, hlast.trans (or_iff_right hrest).symm, hnil⟩

/-- What the function makes of the end of the loop, where `t1` and `t2` are the ranks of the
rests of the versions against the mark of a number. -/
def LoopEnd.outcome (e : LoopEnd) (t1 t2 : Int) : Int :=
  if e.compare ≠ 0 then e.compare
  else if e.n1 then t1
  else if e.n2 then -t2
  else 0

/-- The comparison of two versions and the one the other way round. -/
theorem phpVersionCompare_value (size : LongSize) (highAlnum : UInt8 → Bool)
    {a b : List UInt8} (ha : a ≠ []) (hb : b ≠ []) :
    ∃ e t1 t2, compareLoop size ((versionForm highAlnum a).length + 1) (versionForm highAlnum a)
        (versionForm highAlnum b) = some e ∧
      (t1 = 1 ↔ Outranks e.p1) ∧ (e.p1 = [] → t1 = -1) ∧ (e.p2 = [] → t2 = -1) ∧
      ∀ fuel, (versionForm highAlnum a).length + (versionForm highAlnum b).length + 1 < fuel →
        phpVersionCompare size highAlnum fuel a b = some (e.outcome t1 t2) ∧
        phpVersionCompare size highAlnum fuel b a = some (e.swap.outcome t2 t1) := by
  obtain ⟨e, he, he'⟩ := @compareLoop_both size (versionForm highAlnum a) (versionForm highAlnum b)
  obtain ⟨hle1, hle2⟩ := compareLoop_length he
  obtain ⟨t1, hone1, hnil1, ht1⟩ := mark_spec size highAlnum e.p1
  obtain ⟨t2, -, hnil2, ht2⟩ := mark_spec size highAlnum e.p2
  refine ⟨e, t1, t2, he, hone1, hnil1, hnil2, fun fuel hfuel => ?_⟩
  obtain ⟨k, rfl⟩ : ∃ k, fuel = k + 1 := ⟨fuel - 1, by omega⟩
  obtain ⟨hforth1, hback1⟩ := ht1 k (by omega)
  obtain ⟨hforth2, hback2⟩ := ht2 k (by omega)
  have hforth := phpVersionCompare_loop k ha hb he
  have hback := phpVersionCompare_loop k hb ha he'
  rw [hforth1, hback2] at hforth
  rw [show e.swap.p1 = e.p2 from rfl, show e.swap.p2 = e.p1 from rfl, hforth2, hback1] at hback
  rw [hforth, hback, LoopEnd.outcome, LoopEnd.outcome, LoopEnd.swap]
  constructor
  · split_ifs <;> rfl
  · split_ifs <;> rfl

/-- Where the comparison of `a` is one: its form does not end in a point, and where that of
`b` does and is used up first, what `a` still has outranks the mark of a number. -/
structure Comparable (size : LongSize) (highAlnum : UInt8 → Bool) (a b : List UInt8) : Prop where
  point : (versionForm highAlnum a).getLast? ≠ some (byte '.')
  rest : ∀ rest, Consumed size (versionForm highAlnum a) (versionForm highAlnum b) rest →
    Outranks rest

/-- The function returns, and a version is equal to itself and compared with another one as
that one is with it, exactly where the versions are comparable. -/
theorem phpVersionCompare_iff (size : LongSize) (highAlnum : UInt8 → Bool) (a b : List UInt8) :
    ∃ self forth back : Int,
      (∀ fuel, 2 * (versionForm highAlnum a).length + (versionForm highAlnum b).length + 1 < fuel →
        phpVersionCompare size highAlnum fuel a a = some self ∧
        phpVersionCompare size highAlnum fuel a b = some forth ∧
        phpVersionCompare size highAlnum fuel b a = some back) ∧
      (self = 0 ∧ forth = -back ↔ Comparable size highAlnum a b) := by
  have hempty : ∀ c fuel, 0 < fuel →
      phpVersionCompare size highAlnum fuel [] c = some (if c = [] then 0 else -1) ∧
      phpVersionCompare size highAlnum fuel c [] = some (if c = [] then 0 else 1) := by
    intro c fuel hfuel
    obtain ⟨k, rfl⟩ : ∃ k, fuel = k + 1 := ⟨fuel - 1, by omega⟩
    rw [phpVersionCompare, phpVersionCompare, if_pos (.inl rfl), if_pos (Or.inr rfl)]
    by_cases hc : c = []
    · rw [if_pos hc, if_pos hc, if_pos ⟨rfl, hc⟩, if_pos ⟨hc, rfl⟩]
      exact ⟨rfl, rfl⟩
    · rw [if_neg hc, if_neg hc, if_neg fun h => hc h.2, if_neg fun h => h rfl,
        if_neg fun h => hc h.1, if_pos hc]
      exact ⟨rfl, rfl⟩
  by_cases ha : a = []
  · subst ha
    refine ⟨0, if b = [] then 0 else -1, if b = [] then 0 else 1, fun fuel hfuel => ?_, ?_⟩
    · exact ⟨(hempty [] fuel (by omega)).1, (hempty b fuel (by omega)).1,
        (hempty b fuel (by omega)).2⟩
    · have hform : versionForm highAlnum [] = [] := rfl
      refine iff_of_true ⟨rfl, ?_⟩ ⟨by rw [hform]; decide, fun rest hrest => ?_⟩
      · split <;> rfl
      · cases hrest with
        | last _ h _ => cases h
        | step _ h _ _ => cases h
  · obtain ⟨e, t1, t2, he, -, hnil1, -, hself⟩ := phpVersionCompare_value size highAlnum ha ha
    obtain ⟨hcompare, hsame, hlast, hp1⟩ := compareLoop_self he (versionForm_ne_nil ha)
    have hzero : e.outcome t1 t2 = 0 ↔ (versionForm highAlnum a).getLast? ≠ some (byte '.') := by
      rw [LoopEnd.outcome, ← hsame, hcompare, if_neg (not_not.mpr rfl), ne_eq, ← hlast]
      cases hn1 : e.n1 with
      | true =>
        rw [if_pos rfl, hnil1 (hp1 hn1)]
        decide
      | false => simp
    by_cases hb : b = []
    · subst hb
      refine ⟨e.outcome t1 t2, 1, -1, fun fuel hfuel => ?_, ?_⟩
      · refine ⟨(hself fuel (by omega)).1, ?_, ?_⟩
        · rw [(hempty a fuel (by omega)).2, if_neg ha]
        · rw [(hempty a fuel (by omega)).1, if_neg ha]
      · rw [hzero]
        constructor
        · intro h
          refine ⟨h.1, fun rest hrest => ?_⟩
          cases hrest with
          | last _ _ h => cases h
          | step _ _ h _ => cases h
        · exact fun h => ⟨h.point, rfl⟩
    · obtain ⟨e', u1, u2, he', hone, hnil1', hnil2', hvalue⟩ :=
        phpVersionCompare_value size highAlnum ha hb
      refine ⟨e.outcome t1 t2, e'.outcome u1 u2, e'.swap.outcome u2 u1, fun fuel hfuel => ?_, ?_⟩
      · exact ⟨(hself fuel (by omega)).1, hvalue fuel (by omega)⟩
      · rw [hzero]
        constructor
        · rintro ⟨hpoint, hanti⟩
          refine ⟨hpoint, fun rest hrest => ?_⟩
          have hend := compareLoop_consumed hrest hpoint he'
          rw [hend] at hone hnil2' hanti
          rw [LoopEnd.outcome, LoopEnd.outcome, LoopEnd.swap, hnil2' rfl] at hanti
          exact hone.mp (by simpa using hanti)
        · rintro ⟨hpoint, hrest⟩
          refine ⟨hpoint, ?_⟩
          rw [LoopEnd.outcome, LoopEnd.outcome, LoopEnd.swap]
          simp only [neg_ne_zero]
          by_cases hcompare' : e'.compare = 0
          · rw [if_neg (not_not.mpr hcompare'), if_neg (not_not.mpr hcompare')]
            cases hn1 : e'.n1 with
            | false => cases hn2 : e'.n2 <;> simp
            | true =>
              cases hn2 : e'.n2 with
              | false => simp
              | true =>
                rcases compareLoop_open he' (versionForm_ne_nil ha) (versionForm_ne_nil hb)
                  hcompare' hn1 hn2 with ⟨-, hlastPoint⟩ | ⟨hnil, hconsumed⟩
                · exact absurd hlastPoint hpoint
                · rw [if_pos rfl, if_pos rfl, hone.mpr (hrest _ hconsumed), hnil2' hnil]
                  rfl
          · rw [if_pos hcompare', if_pos hcompare', neg_neg]

end Symmetry

/-- With an empty component behind its last point a version comes before itself. -/
theorem phpVersionCompare_not_reflexive : ∃ a : List UInt8, (0 : UInt8) ∉ a ∧
    phpVersionCompare .eight (fun _ => false) 8 a a = some (-1) :=
  ⟨[byte '1', byte '.'], by decide, by decide⟩

end Versioning

end PhpEngine

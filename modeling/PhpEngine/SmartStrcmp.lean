/-
`zendi_smart_strcmp` (`Zend/zend_operators.c`) on the texts of integers.
-/
import PhpEngine.NumericPrefix
import PhpEngine.DoubleRounding
import Mathlib.Data.List.TakeWhile

namespace PhpEngine

open DoubleRounding List

namespace NumericString

/-- The operations on `double` that the function uses. -/
structure DoubleOps (D : Type) where
  strtod : List UInt8 → D
  hexStrtod : List UInt8 → D
  ofInt : Int → D
  sub : D → D → D
  lt : D → D → Bool
  eq : D → D → Bool
  finite : D → Bool

section Functions

variable {D : Type} (size : LongSize) (ops : DoubleOps D)

/-- `zend_binary_strcmp` of two strings at different addresses.  Lengths are `int`s. -/
def zendBinaryStrcmp (s1 s2 : List UInt8) : Int :=
  match memcmp s1 s2 with
  | .lt => -1
  | .gt => 1
  | .eq => (s1.length : Int) - s2.length

/-- `ZEND_NORMALIZE_BOOL` of a `double`. -/
def normalizeBool (d : D) : Int :=
  if ops.lt (ops.ofInt 0) d then 1 else if ops.lt d (ops.ofInt 0) then -1 else 0

def stringCmp (s1 s2 : List UInt8) : Int :=
  (zendBinaryStrcmp s1 s2).sign

def zendiSmartStrcmp (s1 s2 : List UInt8) : Int :=
  let r1 := isNumericStringEx size ops.strtod ops.hexStrtod ⟨true, true, true⟩ 0 s1
  let r2 := isNumericStringEx size ops.strtod ops.hexStrtod ⟨true, true, true⟩ 0 s2
  let oflow1 := r1.oflowInfo.getD 0
  let oflow2 := r2.oflowInfo.getD 0
  let lval1 := r1.lval.getD 0
  let lval2 := r2.lval.getD 0
  let dval1 := r1.dval.getD (ops.ofInt 0)
  let dval2 := r2.dval.getD (ops.ofInt 0)
  if r1.type ≠ .notNumeric ∧ r2.type ≠ .notNumeric then
    if oflow1 ≠ 0 ∧ oflow1 = oflow2 ∧ ops.eq (ops.sub dval1 dval2) (ops.ofInt 0) ∧
        (size = .four → oflow1 = 1 ∧ ops.lt (ops.ofInt 9007199254740991) dval1 ∨
            oflow1 = -1 ∧ ops.lt dval1 (ops.ofInt (-9007199254740991))) then
      stringCmp s1 s2
    else if r1.type = .isDouble ∨ r2.type = .isDouble then
      if r1.type ≠ .isDouble then
        if oflow2 ≠ 0 then -1 * oflow2
        else normalizeBool ops (ops.sub (ops.ofInt lval1) dval2)
      else if r2.type ≠ .isDouble then
        if oflow1 ≠ 0 then oflow1
        else normalizeBool ops (ops.sub dval1 (ops.ofInt lval2))
      else if ops.eq dval1 dval2 ∧ ¬ops.finite dval1 then stringCmp s1 s2
      else normalizeBool ops (ops.sub dval1 dval2)
    else if lval1 > lval2 then 1
    else if lval1 < lval2 then -1
    else 0
  else stringCmp s1 s2

end Functions

/-- The text of an integer: an optional minus, and digits without superfluous zeros. -/
structure IntegerText where
  neg : Bool
  digits : List UInt8
  canonical : IsCanonical digits

namespace IntegerText

def text (t : IntegerText) : List UInt8 :=
  if t.neg then byte '-' :: t.digits else t.digits

def magnitude (t : IntegerText) : Nat :=
  decimalValue t.digits 0

def value (t : IntegerText) : Int :=
  if t.neg then -(t.magnitude : Int) else t.magnitude

/-- As a number in a string. -/
def numeral (t : IntegerText) : Numeral where
  space := []
  sign := if t.neg then [byte '-'] else []
  zeros := t.digits.takeWhile (· == byte '0')
  digits := t.digits.dropWhile (· == byte '0')
  rest := []

variable (t : IntegerText)

theorem zeros_digits : t.numeral.zeros ++ t.numeral.digits = t.digits :=
  takeWhile_append_dropWhile

theorem zeros_eq {b : UInt8} (hb : b ∈ t.numeral.zeros) : b = byte '0' := by
  have hzero := mem_takeWhile_imp hb
  simpa using hzero

theorem numeral_body : t.numeral.body = t.text := by
  rw [Numeral.body, text, ← append_assoc t.numeral.zeros, zeros_digits]
  simp only [numeral, append_nil]
  cases t.neg <;> rfl

theorem numeral_text : t.numeral.text = t.text :=
  t.numeral_body

theorem numeral_value : t.numeral.value = t.value := by
  have hvalue : decimalValue t.numeral.digits 0 = t.magnitude := by
    rw [magnitude, ← t.zeros_digits, decimalValue_zeros fun b hb => t.zeros_eq hb]
  rw [Numeral.value, hvalue, value]
  cases hneg : t.neg <;> simp [numeral, hneg]

theorem numeral_isPlain : t.numeral.IsPlain where
  space := by simp [numeral]
  sign := by
    simp only [numeral]
    cases t.neg <;> simp
  zeros := fun b hb => t.zeros_eq hb
  digits := fun b hb => t.canonical.digits b (dropWhile_sublist _ |>.mem hb)
  head := by
    intro hhead
    have hzero := head?_dropWhile_not (· == byte '0') t.digits
    simp only [numeral] at hhead
    rw [hhead] at hzero
    simp at hzero
  ne_nil := by
    rw [zeros_digits]
    exact t.canonical.ne_nil
  behind := rfl
  point := by simp [numeral]
  exponent := rfl
  hex := by simp [numeral]

theorem classified {D : Type} (size : LongSize) (ops : DoubleOps D) :
    isNumericStringEx size ops.strtod ops.hexStrtod ⟨true, true, true⟩ 0 t.text =
      if size.IsLong t.value then ⟨.isLong, some t.value, none, some 0, false⟩
      else ⟨.isDouble, none, some (ops.strtod (t.text ++ [0])),
        some (if 0 < t.value then 1 else -1), false⟩ := by
  have hplain := t.numeral_isPlain
  have hright : t.numeral.ReadRight size := by
    intro _
    exact fun _ => rfl
  have htaken := (Numeral.readRight_iff size hplain).mp hright
  have hspec := isNumericStringEx_numeral ops.strtod ops.hexStrtod ⟨true, true, true⟩ 0 size hplain
  have hrest : ¬(t.numeral.rest ≠ [] ∧ (0 : Int) = 0) := fun h => h.1 rfl
  have hnotice : (decide (t.numeral.rest ≠ []) && (0 : Int) == -1) = false := by
    simp
  rw [numeral_text, if_neg hrest, hnotice, numeral_body] at hspec
  rw [numeral_value] at htaken
  rw [hspec]
  by_cases hlong : size.IsLong t.value
  · have hstrtol := hplain.strtol_body size
    rw [numeral_body, numeral_value, min_eq_right hlong.2, max_eq_right hlong.1] at hstrtol
    rw [if_pos (htaken.mpr hlong), if_pos hlong, hstrtol]
    rfl
  · have hside : overflowSide (t.text ++ [0]) = if 0 < t.value then 1 else -1 := by
      have hminus := hplain.head_minus
      have hmax := size.longMin_eq
      rw [numeral_body] at hminus
      rw [LongSize.IsLong, value] at hlong
      rw [overflowSide, value]
      simp only [hminus, numeral]
      cases hneg : t.neg with
      | true =>
        simp
      | false =>
        have hpos : 0 < t.magnitude := by omega
        simp [hpos]
    rw [if_neg fun h => hlong (htaken.mp h), if_neg hlong, hside]
    rfl

/-- The order of the bytes agrees with the order of two integers of one sign: the shorter of
two positive ones is not above the front of the longer one, the shorter of two negative ones
is. -/
def FrontOrdered (a b : IntegerText) : Prop :=
  if a.neg then
    a.value = b.value ∨ a.digits.length < b.digits.length ∧
        b.magnitude / 10 ^ (b.digits.length - a.digits.length) < a.magnitude ∨
      b.digits.length < a.digits.length ∧
        a.magnitude / 10 ^ (a.digits.length - b.digits.length) < b.magnitude
  else
    (a.digits.length < b.digits.length →
      a.magnitude ≤ b.magnitude / 10 ^ (b.digits.length - a.digits.length)) ∧
    (b.digits.length < a.digits.length →
      b.magnitude ≤ a.magnitude / 10 ^ (a.digits.length - b.digits.length))

instance (a b : IntegerText) : Decidable (FrontOrdered a b) :=
  inferInstanceAs (Decidable (ite _ _ _))

end IntegerText

section Bytes

variable {a b : IntegerText}

theorem memcmp_text (h : a.neg = b.neg) : memcmp a.text b.text = memcmp a.digits b.digits := by
  rw [IntegerText.text, IntegerText.text, ← h]
  cases a.neg <;> rfl

theorem length_text (h : a.neg = b.neg) :
    (a.text.length : Int) - b.text.length = (a.digits.length : Int) - b.digits.length := by
  rw [IntegerText.text, IntegerText.text, ← h]
  cases a.neg with
  | true =>
    simp only [if_true, length_cons]
    omega
  | false => rfl

theorem stringCmp_swap (s1 s2 : List UInt8) : stringCmp s2 s1 = -stringCmp s1 s2 := by
  have hswap := memcmp_swap s1 s2
  rw [stringCmp, stringCmp, zendBinaryStrcmp, zendBinaryStrcmp, hswap]
  cases memcmp s1 s2 with
  | lt | gt => rfl
  | eq =>
    rw [Ordering.swap_eq, ← Int.sign_neg, neg_sub]

theorem magnitude_lt (h : a.digits.length < b.digits.length) : a.magnitude < b.magnitude := by
  have hlt := decimalValue_lt a.canonical.digits
  match hdigits : b.digits, h with
  | c :: l, h =>
    have hcanonical := b.canonical
    rw [hdigits] at hcanonical
    have hlow := (decimalValue_bounds hcanonical.digits).1
    have ha := length_pos_of_ne_nil a.canonical.ne_nil
    rw [length_cons] at h
    have hc : 1 ≤ digitValue c := by
      by_contra hzero
      have hspec := (digitValue_spec (hcanonical.digits c mem_cons_self)).2
      rw [show digitValue c = 0 by omega] at hspec
      have hone := hcanonical.head (by rw [← hspec]; rfl)
      rw [length_cons] at hone
      omega
    have hpow : (10 : Nat) ^ a.digits.length ≤ 10 ^ l.length :=
      Nat.pow_le_pow_right (by decide) (by omega)
    have hmul := Nat.mul_le_mul hc hpow
    rw [IntegerText.magnitude, IntegerText.magnitude, hdigits]
    omega

theorem stringCmp_of_lt (hneg : a.neg = b.neg) (h : a.digits.length < b.digits.length) :
    stringCmp a.text b.text =
      if a.magnitude ≤ b.magnitude / 10 ^ (b.digits.length - a.digits.length) then -1 else 1 := by
  have hfront : memcmp a.digits b.digits = compare a.magnitude
      (b.magnitude / 10 ^ (b.digits.length - a.digits.length)) := by
    rw [memcmp_take (le_of_lt h), memcmp_digits a.canonical.digits
      (fun c hc => b.canonical.digits c (mem_of_mem_take hc))
      (by rw [length_take, min_eq_left (le_of_lt h)]),
      decimalValue_take b.canonical.digits]
    rfl
  rw [stringCmp, zendBinaryStrcmp, memcmp_text hneg, hfront]
  rcases Nat.lt_trichotomy a.magnitude
    (b.magnitude / 10 ^ (b.digits.length - a.digits.length)) with hlt | heq | hgt
  · rw [compare_lt_iff_lt.mpr hlt, if_pos (le_of_lt hlt)]
    rfl
  · rw [compare_eq_iff_eq.mpr heq, if_pos (le_of_eq heq)]
    simp only [length_text hneg]
    exact Int.sign_eq_neg_one_of_neg (by omega)
  · rw [compare_gt_iff_gt.mpr hgt, if_neg (Nat.not_le_of_lt hgt)]
    rfl

theorem stringCmp_of_eq (hneg : a.neg = b.neg) (h : a.digits.length = b.digits.length) :
    stringCmp a.text b.text = ((a.magnitude : Int) - b.magnitude).sign := by
  have hcmp : memcmp a.digits b.digits = compare a.magnitude b.magnitude :=
    memcmp_digits a.canonical.digits b.canonical.digits h
  rw [stringCmp, zendBinaryStrcmp, memcmp_text hneg, hcmp]
  rcases Nat.lt_trichotomy a.magnitude b.magnitude with hlt | heq | hgt
  · rw [compare_lt_iff_lt.mpr hlt, Int.sign_eq_neg_one_of_neg (a := (a.magnitude : Int) - _)
      (by omega)]
    rfl
  · rw [compare_eq_iff_eq.mpr heq]
    simp only [length_text hneg, h, heq, sub_self]
  · rw [compare_gt_iff_gt.mpr hgt, Int.sign_eq_one_of_pos (a := (a.magnitude : Int) - _) (by omega)]
    rfl

theorem value_of_neg (h : a.neg = true) : a.value = -(a.magnitude : Int) := by
  rw [IntegerText.value, if_pos h]

theorem value_of_pos (h : a.neg = false) : a.value = a.magnitude := by
  rw [IntegerText.value, if_neg (by rw [h]; exact Bool.false_ne_true)]

theorem stringCmp_shorter (hneg : a.neg = b.neg) (h : a.digits.length < b.digits.length) :
    stringCmp a.text b.text = (a.value - b.value).sign ↔ a.FrontOrdered b := by
  have hmagnitude := magnitude_lt h
  rw [stringCmp_of_lt hneg h, IntegerText.FrontOrdered]
  cases ha : a.neg with
  | true =>
    rw [ha] at hneg
    rw [value_of_neg ha, value_of_neg hneg.symm, if_pos rfl,
      Int.sign_eq_one_of_pos (a := -(a.magnitude : Int) - -(b.magnitude : Int)) (by omega)]
    split
    · constructor
      · intro hsign
        cases hsign
      · omega
    · exact iff_of_true rfl (.inr (.inl ⟨h, by omega⟩))
  | false =>
    rw [ha] at hneg
    rw [value_of_pos ha, value_of_pos hneg.symm, if_neg Bool.false_ne_true,
      Int.sign_eq_neg_one_of_neg (a := (a.magnitude : Int) - b.magnitude) (by omega)]
    split
    next hle => exact iff_of_true rfl ⟨fun _ => hle, by omega⟩
    next hle =>
      constructor
      · intro hsign
        cases hsign
      · exact fun hordered => absurd (hordered.1 h) hle

theorem frontOrdered_comm (hneg : a.neg = b.neg) : a.FrontOrdered b ↔ b.FrontOrdered a := by
  rw [IntegerText.FrontOrdered, IntegerText.FrontOrdered, ← hneg]
  split
  · rw [eq_comm, or_comm (a := _ ∧ _)]
  · exact and_comm

/-- Where the bytes of two integers of one sign are in the order of the integers. -/
theorem stringCmp_iff (hneg : a.neg = b.neg) :
    stringCmp a.text b.text = (a.value - b.value).sign ↔ a.FrontOrdered b := by
  rcases Nat.lt_trichotomy a.digits.length b.digits.length with hlt | heq | hgt
  · exact stringCmp_shorter hneg hlt
  · rw [stringCmp_of_eq hneg heq, IntegerText.FrontOrdered]
    cases ha : a.neg with
    | true =>
      rw [ha] at hneg
      rw [value_of_neg ha, value_of_neg hneg.symm, if_pos rfl]
      rcases Nat.lt_trichotomy a.magnitude b.magnitude with h | h | h
      · rw [Int.sign_eq_neg_one_of_neg (a := (a.magnitude : Int) - _) (by omega),
          Int.sign_eq_one_of_pos (by omega)]
        exact iff_of_false (by decide) (by omega)
      · rw [h]
        exact iff_of_true (by simp) (.inl rfl)
      · rw [Int.sign_eq_one_of_pos (a := (a.magnitude : Int) - _) (by omega),
          Int.sign_eq_neg_one_of_neg (by omega)]
        exact iff_of_false (by decide) (by omega)
    | false =>
      rw [ha] at hneg
      rw [value_of_pos ha, value_of_pos hneg.symm, if_neg Bool.false_ne_true]
      exact iff_of_true rfl ⟨by omega, by omega⟩
  · rw [← neg_inj, ← stringCmp_swap, ← Int.sign_neg, neg_sub, frontOrdered_comm hneg]
    exact stringCmp_shorter hneg.symm hgt

end Bytes

attribute [local instance] DoubleRounding.intPreorder

/-- What the comparison relies on: `zend_strtod` rounds correctly, and comparing doubles and
the difference of two says how the numbers lie that they stand for.  `Denotes` is about the
doubles that are integers or infinite. -/
structure CorrectlyRounded {D : Type} (ops : DoubleOps D)
    (Denotes : D → WithBot (WithTop Int) → Prop) : Prop where
  strtod : ∀ t : IntegerText, Denotes (ops.strtod (t.text ++ [0])) (toDouble t.value)
  ofInt : ∀ n : Int, n.natAbs < 2 ^ 53 → Denotes (ops.ofInt n) ((n : WithTop Int) : WithBot _)
  lt : ∀ x y u v, Denotes x u → Denotes y v → (ops.lt x y = true ↔ u < v)
  eq : ∀ x y u v, Denotes x u → Denotes y v → (ops.eq x y = true ↔ u = v)
  finite : ∀ x u, Denotes x u →
    (ops.finite x = true ↔ ∃ n : Int, u = ((n : WithTop Int) : WithBot _))
  sub_zero : ∀ x y u v, Denotes x u → Denotes y v → (ops.eq (ops.sub x y) (ops.ofInt 0) = true ↔
      u = v ∧ ∃ n : Int, u = ((n : WithTop Int) : WithBot _))
  sub_pos : ∀ x y u v, Denotes x u → Denotes y v →
    (ops.lt (ops.ofInt 0) (ops.sub x y) = true ↔ v < u)
  sub_neg : ∀ x y u v, Denotes x u → Denotes y v →
    (ops.lt (ops.sub x y) (ops.ofInt 0) = true ↔ u < v)

section Order

variable {D : Type} {ops : DoubleOps D} {Denotes : D → WithBot (WithTop Int) → Prop}
  {size : LongSize} {a b : IntegerText}

theorem toDouble_lt {v w : Int} (h : toDouble v < toDouble w) : v < w := by
  by_contra hle
  exact absurd (toDouble_mono (not_lt.mp hle)) (not_le.mpr h)

/-- The difference of two doubles that are not the same tells the integers apart. -/
theorem normalizeBool_sub (hround : CorrectlyRounded ops Denotes)
    (hne : toDouble a.value ≠ toDouble b.value) :
    normalizeBool ops (ops.sub (ops.strtod (a.text ++ [0])) (ops.strtod (b.text ++ [0]))) =
      (a.value - b.value).sign := by
  have hpos := hround.sub_pos _ _ _ _ (hround.strtod a) (hround.strtod b)
  have hneg := hround.sub_neg _ _ _ _ (hround.strtod a) (hround.strtod b)
  rw [normalizeBool]
  rcases lt_or_gt_of_ne hne with hlt | hgt
  · have horder := toDouble_lt hlt
    rw [if_neg fun h => absurd (hpos.mp h) (not_lt.mpr (le_of_lt hlt)), if_pos (hneg.mpr hlt),
      Int.sign_eq_neg_one_of_neg (by omega)]
  · have horder := toDouble_lt hgt
    rw [if_pos (hpos.mpr hgt), Int.sign_eq_one_of_pos (by omega)]

/-- On which side the text of an integer beyond the range of a `long` leaves it. -/
def IntegerText.side (t : IntegerText) : Int :=
  if t.neg then -1 else 1

theorem IntegerText.side_ne_zero (t : IntegerText) : t.side ≠ 0 := by
  rw [side]
  split <;> decide

theorem side_eq (ha : ¬size.IsLong a.value) : (if 0 < a.value then 1 else -1 : Int) = a.side := by
  have hmin := size.longMin_eq
  rw [LongSize.IsLong, IntegerText.value] at ha
  rw [IntegerText.value, IntegerText.side]
  cases hneg : a.neg with
  | true => simp
  | false =>
    have hpos : 0 < a.magnitude := by omega
    simp [hpos]

/-- Two integers beyond the range of a `long`. -/
theorem zendiSmartStrcmp_doubles (ops : DoubleOps D) (ha : ¬size.IsLong a.value)
    (hb : ¬size.IsLong b.value) : zendiSmartStrcmp size ops a.text b.text = if a.side = b.side ∧
          ops.eq (ops.sub (ops.strtod (a.text ++ [0])) (ops.strtod (b.text ++ [0])))
            (ops.ofInt 0) = true ∧ (size = .four →
            a.side = 1 ∧ ops.lt (ops.ofInt 9007199254740991) (ops.strtod (a.text ++ [0])) = true ∨
              a.side = -1 ∧
                ops.lt (ops.strtod (a.text ++ [0])) (ops.ofInt (-9007199254740991)) = true) then
        stringCmp a.text b.text
      else if ops.eq (ops.strtod (a.text ++ [0])) (ops.strtod (b.text ++ [0])) = true ∧
          ¬ops.finite (ops.strtod (a.text ++ [0])) = true then stringCmp a.text b.text else
        normalizeBool ops (ops.sub (ops.strtod (a.text ++ [0])) (ops.strtod (b.text ++ [0]))) := by
  rw [zendiSmartStrcmp]
  simp only [a.classified, b.classified, if_neg ha, if_neg hb, Option.getD_some, side_eq ha,
    side_eq hb, ne_eq, a.side_ne_zero, not_false_eq_true, true_and, reduceCtorEq, and_self,
    if_true, or_self, not_true_eq_false, if_false]

section

variable (hround : CorrectlyRounded ops Denotes) (ha : ¬size.IsLong a.value)
  (hb : ¬size.IsLong b.value)
include hround ha hb

/-- The doubles of two integers on one side are the same: the bytes are compared, or the
integers are the same too. -/
theorem zendiSmartStrcmp_same (hneg : a.neg = b.neg) (heq : toDouble a.value = toDouble b.value) :
    zendiSmartStrcmp size ops a.text b.text = stringCmp a.text b.text ∨
      a.value = b.value ∧ zendiSmartStrcmp size ops a.text b.text = 0 := by
  have hda := hround.strtod a
  have hdb := hround.strtod b
  have hzero := hround.sub_zero _ _ _ _ hda hdb
  have hfinite := hround.finite _ _ hda
  have hside : a.side = b.side := by
    rw [IntegerText.side, IntegerText.side, hneg]
  rw [zendiSmartStrcmp_doubles ops ha hb]
  by_cases hfin : ∃ n : Int, toDouble a.value = ((n : WithTop Int) : WithBot _)
  · split
    · exact .inl rfl
    next hcond =>
      -- The doubles are too small for a loss of accuracy.
      right
      obtain ⟨n, hn⟩ := id hfin
      have hsmall : n.natAbs < 2 ^ 53 := by
        by_contra hlarge
        apply hcond
        refine ⟨hside, hzero.mpr ⟨heq, hfin⟩, fun _ => ?_⟩
        have hlt := hround.lt _ _ _ _ (hround.ofInt 9007199254740991 (by decide)) hda
        have hlt' := hround.lt _ _ _ _ hda (hround.ofInt (-9007199254740991) (by decide))
        rw [hn, WithBot.coe_lt_coe, WithTop.coe_lt_coe] at hlt hlt'
        have horigin : toDouble 0 = (((0 : Int) : WithTop Int) : WithBot _) :=
          toDouble_of_lt (by decide)
        have hvalue := hn
        rw [IntegerText.value] at hvalue
        rw [IntegerText.side]
        cases hsign : a.neg with
        | true =>
          simp only [hsign, if_true] at hvalue
          have hle := toDouble_mono (show -(a.magnitude : Int) ≤ 0 by omega)
          rw [hvalue, horigin, WithBot.coe_le_coe, WithTop.coe_le_coe] at hle
          exact .inr ⟨if_pos rfl, hlt'.mpr (by omega)⟩
        | false =>
          simp only [hsign, Bool.false_eq_true, if_false] at hvalue
          have hle := toDouble_mono (show (0 : Int) ≤ a.magnitude by omega)
          rw [hvalue, horigin, WithBot.coe_le_coe, WithTop.coe_le_coe] at hle
          exact .inl ⟨if_neg Bool.false_ne_true, hlt.mpr (by omega)⟩
      have hvalue : a.value = b.value := by
        rw [eq_of_toDouble hsmall hn, eq_of_toDouble hsmall (heq.symm.trans hn)]
      have hpos := hround.sub_pos _ _ _ _ hda hdb
      have hnegative := hround.sub_neg _ _ _ _ hda hdb
      refine ⟨hvalue, ?_⟩
      rw [if_neg fun h => h.2 (hfinite.mpr hfin), normalizeBool,
        if_neg fun h => absurd (hpos.mp h) (not_lt.mpr (le_of_eq heq)),
        if_neg fun h => absurd (hnegative.mp h) (not_lt.mpr (le_of_eq heq.symm))]
  · -- Both doubles are infinite.
    left
    have hdeq := (hround.eq _ _ _ _ hda hdb).mpr heq
    rw [if_neg fun h => hfin (hzero.mp h.2.1).2, if_pos ⟨hdeq, fun h => hfin (hfinite.mp h)⟩]

theorem zendiSmartStrcmp_apart (hne : toDouble a.value ≠ toDouble b.value) :
    zendiSmartStrcmp size ops a.text b.text = (a.value - b.value).sign := by
  have hda := hround.strtod a
  have hdb := hround.strtod b
  rw [zendiSmartStrcmp_doubles ops ha hb,
    if_neg fun h => hne ((hround.sub_zero _ _ _ _ hda hdb).mp h.2.1).1,
    if_neg fun h => hne ((hround.eq _ _ _ _ hda hdb).mp h.1), normalizeBool_sub hround hne]

end

theorem toDouble_pos {v : Int} : 0 < toDouble v ↔ 0 < v := by
  have horigin : toDouble 0 = 0 := toDouble_of_lt (by decide)
  rw [← horigin]
  constructor
  · exact toDouble_lt
  · intro hpos
    have hone : toDouble 1 = 1 := toDouble_of_lt (by decide)
    apply lt_of_lt_of_le _ (toDouble_mono (show 1 ≤ v by omega))
    rw [horigin, hone]
    exact zero_lt_one

/-- Integers on different sides do not come to one double. -/
theorem toDouble_sides (ha : ¬size.IsLong a.value) (hb : ¬size.IsLong b.value)
    (hneg : a.neg ≠ b.neg) : toDouble a.value ≠ toDouble b.value := by
  have hvalue : ∀ t : IntegerText, ¬size.IsLong t.value → (0 < t.value ↔ t.neg = false) := by
    intro t ht
    have hside := side_eq ht
    rw [IntegerText.side] at hside
    cases hsign : t.neg with
    | true =>
      rw [value_of_neg hsign]
      exact iff_of_false (by omega) (by simp)
    | false =>
      rw [hsign] at hside
      by_contra hiff
      rw [if_neg fun hpos => hiff (iff_of_true hpos rfl)] at hside
      cases hside
  intro heq
  have hpos := toDouble_pos (v := a.value)
  rw [heq, toDouble_pos, hvalue a ha, hvalue b hb] at hpos
  cases hsign : a.neg <;> cases hsign' : b.neg <;> simp_all

theorem side_cases (ha : ¬size.IsLong a.value) :
    a.side = 1 ∧ (size.longMax : Int) < a.value ∨ a.side = -1 ∧ a.value < size.longMin := by
  have hmin := size.longMin_eq
  rw [← side_eq ha]
  rw [LongSize.IsLong] at ha
  by_cases hpos : 0 < a.value
  · exact .inl ⟨if_pos hpos, by omega⟩
  · exact .inr ⟨if_neg hpos, by omega⟩

theorem frontOrdered_of_value (hneg : a.neg = b.neg) (h : a.value = b.value) :
    a.FrontOrdered b := by
  rw [IntegerText.FrontOrdered]
  cases ha : a.neg with
  | true => exact .inl h
  | false =>
    rw [ha] at hneg
    rw [value_of_pos ha, value_of_pos hneg.symm] at h
    constructor
    · intro hlt
      have := magnitude_lt hlt
      omega
    · intro hlt
      have := magnitude_lt hlt
      omega

/-- The texts of two integers are compared as the integers unless both leave the range of a
`long` on one side, come to the same double, and have their bytes in another order. -/
theorem zendiSmartStrcmp_iff (hround : CorrectlyRounded ops Denotes) :
    zendiSmartStrcmp size ops a.text b.text = (a.value - b.value).sign ↔
      (¬size.IsLong a.value → ¬size.IsLong b.value → a.neg = b.neg →
        toDouble a.value = toDouble b.value → a.FrontOrdered b) := by
  by_cases ha : size.IsLong a.value
  · refine iff_of_true ?_ fun h => absurd ha h
    rw [zendiSmartStrcmp]
    by_cases hb : size.IsLong b.value
    · simp only [a.classified, b.classified, if_pos ha, if_pos hb, Option.getD_some, ne_eq,
        reduceCtorEq, not_false_eq_true, and_self, if_true, not_true_eq_false, false_and,
        if_false, or_self]
      rcases lt_trichotomy a.value b.value with hlt | heq | hgt
      · rw [if_neg (by omega), if_pos hlt, Int.sign_eq_neg_one_of_neg (by omega)]
      · rw [if_neg (by omega), if_neg (by omega), heq, sub_self, Int.sign_zero]
      · rw [if_pos hgt, Int.sign_eq_one_of_pos (by omega)]
    · simp only [a.classified, b.classified, if_pos ha, if_neg hb, Option.getD_some, side_eq hb,
        ne_eq, reduceCtorEq, not_false_eq_true, and_self, if_true, not_true_eq_false, false_and,
        if_false, or_true, b.side_ne_zero]
      rw [LongSize.IsLong] at ha
      rcases side_cases hb with ⟨hside, hmax⟩ | ⟨hside, hmin⟩
      · rw [hside, Int.sign_eq_neg_one_of_neg (by omega)]
        rfl
      · rw [hside, Int.sign_eq_one_of_pos (by omega)]
        rfl
  · by_cases hb : size.IsLong b.value
    · refine iff_of_true ?_ fun _ h => absurd hb h
      rw [zendiSmartStrcmp]
      simp only [a.classified, b.classified, if_neg ha, if_pos hb, Option.getD_some, side_eq ha,
        ne_eq, reduceCtorEq, not_false_eq_true, and_self, if_true, not_true_eq_false, false_and,
        and_false, if_false, true_or, a.side_ne_zero]
      rw [LongSize.IsLong] at hb
      rcases side_cases ha with ⟨hside, hmax⟩ | ⟨hside, hmin⟩
      · rw [hside, Int.sign_eq_one_of_pos (by omega)]
      · rw [hside, Int.sign_eq_neg_one_of_neg (by omega)]
    · by_cases heq : toDouble a.value = toDouble b.value
      · have hneg : a.neg = b.neg := by
          by_contra hne
          exact toDouble_sides ha hb hne heq
        simp only [ha, hb, hneg, heq, not_false_eq_true, forall_const]
        rcases zendiSmartStrcmp_same hround ha hb hneg heq with hbytes | ⟨hvalue, hzero⟩
        · rw [hbytes, stringCmp_iff hneg]
        · rw [hzero, hvalue, sub_self, Int.sign_zero]
          exact iff_of_true rfl (frontOrdered_of_value hneg hvalue)
      · exact iff_of_true (zendiSmartStrcmp_apart hround ha hb heq) fun _ _ _ h => absurd h heq

end Order

/-- The integer that a decimal text starts with. -/
def readInteger (text : List UInt8) : Int :=
  let v := decimalValue ((afterSign text).takeWhile isDigit) 0
  if text.head? = some (byte '-') then -v else v

/-- The difference of two doubles, `none` for infinities on one side. -/
def difference (u v : WithBot (WithTop Int)) : Option (WithBot (WithTop Int)) :=
  if u = ⊥ then if v = ⊥ then none else some ⊥
  else if u = ((⊤ : WithTop Int) : WithBot _) then
    if v = ((⊤ : WithTop Int) : WithBot _) then none else some u
  else if v = ⊥ then some ((⊤ : WithTop Int) : WithBot _)
  else if v = ((⊤ : WithTop Int) : WithBot _) then some ⊥
  else some (toDouble ((u.unbotD 0).untopD 0 - (v.unbotD 0).untopD 0))

/-- Doubles that are integers or infinite, and `none` for all others. -/
def integerDoubles : DoubleOps (Option (WithBot (WithTop Int))) where
  strtod text := some (toDouble (readInteger text))
  hexStrtod _ := none
  ofInt n := some (toDouble n)
  sub x y := do difference (← x) (← y)
  lt x y := match x, y with
    | some u, some v => decide (u < v)
    | _, _ => false
  eq x y := match x, y with
    | some u, some v => decide (u = v)
    | _, _ => false
  finite x := match x with
    | some u => decide (u ≠ ⊥ ∧ u ≠ ((⊤ : WithTop Int) : WithBot _))
    | none => false

theorem readInteger_text (t : IntegerText) : readInteger (t.text ++ [0]) = t.value := by
  have hplain := t.numeral_isPlain
  have hbody := t.numeral_body
  have hminus := hplain.head_minus
  have hafter := hplain.afterSign_body
  rw [hbody] at hminus hafter
  have htake : (t.numeral.zeros ++ (t.numeral.digits ++ (t.numeral.rest ++ [0]))).takeWhile
      isDigit = t.digits := by
    rw [← append_assoc, t.zeros_digits]
    exact takeWhile_all t.canonical.digits fun b hb => hplain.behind_nul hb
  rw [readInteger, hafter, htake, ← t.numeral_value, Numeral.value]
  have hvalue : decimalValue t.numeral.digits 0 = decimalValue t.digits 0 := by
    rw [← t.zeros_digits, decimalValue_zeros fun b hb => t.zeros_eq hb]
  simp only [hminus, hvalue]

theorem toDouble_neg_iff {v : Int} : toDouble v < 0 ↔ v < 0 := by
  have horigin : toDouble 0 = 0 := toDouble_of_lt (by decide)
  rw [← horigin]
  constructor
  · exact toDouble_lt
  · intro hneg
    have hone : toDouble (-1) = (((-1 : Int) : WithTop Int) : WithBot _) :=
      toDouble_of_lt (by decide)
    apply lt_of_le_of_lt (toDouble_mono (show v ≤ -1 by omega))
    rw [horigin, hone]
    exact WithBot.coe_lt_coe.mpr (WithTop.coe_lt_coe.mpr (by decide))

theorem toDouble_eq_zero {v : Int} : toDouble v = 0 ↔ v = 0 := by
  constructor
  · exact fun h => eq_of_toDouble (d := 0) (by decide) h
  · rintro rfl
    exact toDouble_of_lt (by decide)

theorem difference_spec (u v : WithBot (WithTop Int)) :
    difference u v = none ∧ u = v ∧ (¬∃ n : Int, u = ((n : WithTop Int) : WithBot _)) ∨
      ∃ d, difference u v = some d ∧ (0 < d ↔ v < u) ∧ (d < 0 ↔ u < v) ∧
        (d = 0 ↔ u = v ∧ ∃ n : Int, u = ((n : WithTop Int) : WithBot _)) := by
  have htop : ((0 : WithBot (WithTop Int)) < ((⊤ : WithTop Int) : WithBot _)) :=
    WithBot.coe_lt_coe.mpr (WithTop.coe_lt_top 0)
  have hbot : (⊥ : WithBot (WithTop Int)) < 0 := WithBot.bot_lt_coe _
  induction u using WithBot.recBotCoe with
  | bot =>
    by_cases hv : v = ⊥
    · subst hv
      exact .inl ⟨by simp [difference], rfl, by simp⟩
    · exact .inr ⟨⊥, by simp [difference, hv],
        iff_of_false (not_lt.mpr hbot.le) not_lt_bot,
        iff_of_true hbot (bot_lt_iff_ne_bot.mpr hv),
        iff_of_false hbot.ne fun h => hv h.1.symm⟩
  | coe u =>
    induction v using WithBot.recBotCoe with
    | bot =>
      have hdiff : difference (u : WithBot (WithTop Int)) ⊥ =
          some ((⊤ : WithTop Int) : WithBot _) := by
        by_cases hu : u = ⊤
        · subst hu
          simp [difference]
        · simp [difference, hu]
      exact .inr ⟨_, hdiff, iff_of_true htop (WithBot.bot_lt_coe u),
        iff_of_false (not_lt.mpr htop.le) not_lt_bot,
        iff_of_false htop.ne' fun h => absurd h.1 (WithBot.coe_ne_bot)⟩
    | coe v =>
      induction u using WithTop.recTopCoe with
      | top =>
        by_cases hv : v = ⊤
        · subst hv
          exact .inl ⟨by simp [difference], rfl, by simp⟩
        · have hlt : v < ⊤ := lt_top_iff_ne_top.mpr hv
          refine .inr ⟨((⊤ : WithTop Int) : WithBot _), by simp [difference, hv],
            iff_of_true htop (WithBot.coe_lt_coe.mpr hlt),
            iff_of_false (not_lt.mpr htop.le) ?_, iff_of_false htop.ne' ?_⟩
          · rw [WithBot.coe_lt_coe]
            exact not_lt.mpr hlt.le
          · rintro ⟨heq, -⟩
            exact hv (WithBot.coe_inj.mp heq).symm
      | coe m =>
        induction v using WithTop.recTopCoe with
        | top =>
          refine .inr ⟨⊥, by simp [difference],
            iff_of_false (not_lt.mpr hbot.le) ?_, iff_of_true hbot ?_,
            iff_of_false hbot.ne ?_⟩
          · rw [WithBot.coe_lt_coe]
            exact not_top_lt
          · exact WithBot.coe_lt_coe.mpr (WithTop.coe_lt_top m)
          · rintro ⟨heq, -⟩
            exact WithTop.coe_ne_top (WithBot.coe_inj.mp heq)
        | coe n =>
          refine .inr ⟨toDouble (m - n), by simp [difference], ?_, ?_, ?_⟩
          · rw [toDouble_pos, WithBot.coe_lt_coe, WithTop.coe_lt_coe]
            omega
          · rw [toDouble_neg_iff, WithBot.coe_lt_coe, WithTop.coe_lt_coe]
            omega
          · rw [toDouble_eq_zero, WithBot.coe_inj, WithTop.coe_inj]
            constructor
            · intro hzero
              exact ⟨by omega, m, rfl⟩
            · rintro ⟨heq, -⟩
              omega

theorem integerDoubles_rounded : CorrectlyRounded integerDoubles fun x u => x = some u where
  strtod t := by
    simp only [integerDoubles, readInteger_text]
  ofInt n hn := by
    simp only [integerDoubles, toDouble_of_lt hn]
  lt x y u v hx hy := by
    subst hx hy
    simp [integerDoubles]
  eq x y u v hx hy := by
    subst hx hy
    simp [integerDoubles]
  finite x u hx := by
    subst hx
    induction u using WithBot.recBotCoe with
    | bot => simp [integerDoubles]
    | coe u =>
      induction u using WithTop.recTopCoe with
      | top | coe n => simp [integerDoubles]
  sub_zero x y u v hx hy := by
    subst hx hy
    have horigin : toDouble 0 = 0 := toDouble_eq_zero.mpr rfl
    rcases difference_spec u v with ⟨hnone, -, hinfinite⟩ | ⟨d, hsome, -, -, hzero⟩
    · simp [integerDoubles, hnone, hinfinite]
    · simp [integerDoubles, hsome, horigin, hzero]
  sub_pos x y u v hx hy := by
    subst hx hy
    have horigin : toDouble 0 = 0 := toDouble_eq_zero.mpr rfl
    rcases difference_spec u v with ⟨hnone, rfl, -⟩ | ⟨d, hsome, hpos, -, -⟩
    · simp [integerDoubles, hnone]
    · simp [integerDoubles, hsome, horigin, hpos]
  sub_neg x y u v hx hy := by
    subst hx hy
    have horigin : toDouble 0 = 0 := toDouble_eq_zero.mpr rfl
    rcases difference_spec u v with ⟨hnone, rfl, -⟩ | ⟨d, hsome, -, hneg, -⟩
    · simp [integerDoubles, hnone]
    · simp [integerDoubles, hsome, horigin, hneg]

/-- 10 ^ 22 -/
def tenPow : IntegerText where
  neg := false
  digits := byte '1' :: List.replicate 22 (byte '0')
  canonical := ⟨by decide, forall_mem_of_all (by decide), by decide⟩

/-- 10 ^ 22 + 1 -/
def tenPowSucc : IntegerText where
  neg := false
  digits := byte '1' :: List.replicate 21 (byte '0') ++ [byte '1']
  canonical := ⟨by decide, forall_mem_of_all (by decide), by decide⟩

/-- 10 ^ 22 - 1 -/
def nines : IntegerText where
  neg := false
  digits := List.replicate 22 (byte '9')
  canonical := ⟨by decide, forall_mem_of_all (by decide), by decide⟩

/-- The least `long`, and one less. -/
def belowLongMin (last : Char) (h : isDigit (byte last) = true) : IntegerText where
  neg := true
  digits := "922337203685477581".toList.map byte ++ [byte last]
  canonical := by
    refine ⟨by simp, fun b hb => ?_, by simp [byte]⟩
    rcases mem_append.mp hb with hb | hb
    · exact forall_mem_of_all (P := fun b => isDigit b = true) (by decide) b hb
    · rw [mem_singleton.mp hb]
      exact h

/-- Two integers of one length that come to the same double. -/
theorem zendiSmartStrcmp_iff_tenPow :
    zendiSmartStrcmp .eight integerDoubles tenPow.text tenPowSucc.text =
      (tenPow.value - tenPowSucc.value).sign :=
  (zendiSmartStrcmp_iff integerDoubles_rounded).mpr fun _ _ _ _ => by decide

/-- Two positive integers of different lengths, and two negative ones. -/
theorem zendiSmartStrcmp_not_ordered :
    zendiSmartStrcmp .eight integerDoubles tenPow.text nines.text ≠
        (tenPow.value - nines.value).sign ∧
      zendiSmartStrcmp .eight integerDoubles (belowLongMin '0' (by decide)).text
          (belowLongMin '1' (by decide)).text ≠
        ((belowLongMin '0' (by decide)).value - (belowLongMin '1' (by decide)).value).sign := by
  decide +kernel

end NumericString

end PhpEngine

/-
Functions of the C library on texts that end in a NUL, and what they say of decimal
digits.
-/
import PhpEngine.DecimalText
import PhpEngine.LongSize

namespace PhpEngine

open List

variable {l l' : List UInt8} {b : UInt8}

/-- `strcmp`, by the sign of its result. -/
def strcmp : List UInt8 → List UInt8 → Ordering
  | a :: s, b :: t =>
    if a ≠ b then compare a.toNat b.toNat
    else if a = 0 then .eq
    else strcmp s t
  | _, _ => .eq

/-- `memcmp` on the length they both have, by the sign of its result. -/
def memcmp : List UInt8 → List UInt8 → Ordering
  | a :: s, b :: t => if a ≠ b then compare a.toNat b.toNat else memcmp s t
  | _, _ => .eq

/-- `isspace` in the C locale. -/
def isSpace (b : UInt8) : Bool :=
  b == 32 || (9 ≤ b && b ≤ 13)

/-- The value of a digit in the bases up to sixteen, sixteen for any other byte. -/
def xdigitValue (b : UInt8) : Nat :=
  if isDigit b then digitValue b
  else if byte 'a' ≤ b ∧ b ≤ byte 'f' then b.toNat - 87
  else if byte 'A' ≤ b ∧ b ≤ byte 'F' then b.toNat - 55
  else 16

def isSign (b : UInt8) : Bool :=
  b == byte '-' || b == byte '+'

def afterSign : List UInt8 → List UInt8
  | [] => []
  | b :: text => if isSign b then text else b :: text

/-- `strtol(text, NULL, base)` for the bases ten and sixteen. -/
def strtol (size : LongSize) (base : Nat) (text : List UInt8) : Int :=
  let text := text.dropWhile isSpace
  let digits := afterSign text
  let digits :=
    if base = 16 ∧ digits.head? = some (byte '0') ∧
        (digits[1]? = some (byte 'x') ∨ digits[1]? = some (byte 'X')) then digits.drop 2
    else digits
  let v := (digits.takeWhile fun b => xdigitValue b < base).foldl
    (fun v b => v * base + xdigitValue b) 0
  let n : Int := if text.head? = some (byte '-') then -v else v
  max size.longMin (min size.longMax n)

theorem forall_mem_of_all {P : UInt8 → Prop} [DecidablePred P]
    (h : (l.all fun b => decide (P b)) = true) : ∀ b ∈ l, P b := by
  rw [List.all_eq_true] at h
  exact fun b hb => of_decide_eq_true (h b hb)

theorem isDigit_cases (h : isDigit b = true) :
    isSpace b = false ∧ isSign b = false ∧ b ≠ 0 ∧ b ≠ byte '-' ∧ b ≠ byte '+' ∧ b ≠ byte '.' ∧
      b ≠ byte 'e' ∧ b ≠ byte 'E' ∧ b ≠ byte 'x' ∧ b ≠ byte 'X' := by
  have hall : ∀ n : Fin 256, isDigit (UInt8.ofNat n.val) = true →
      isSpace (UInt8.ofNat n.val) = false ∧ isSign (UInt8.ofNat n.val) = false ∧
        UInt8.ofNat n.val ≠ 0 ∧ UInt8.ofNat n.val ≠ byte '-' ∧ UInt8.ofNat n.val ≠ byte '+' ∧
        UInt8.ofNat n.val ≠ byte '.' ∧ UInt8.ofNat n.val ≠ byte 'e' ∧
        UInt8.ofNat n.val ≠ byte 'E' ∧ UInt8.ofNat n.val ≠ byte 'x' ∧
        UInt8.ofNat n.val ≠ byte 'X' := by
    decide +kernel
  have hb := hall ⟨b.toNat, b.toNat_lt⟩
  rw [UInt8.ofNat_toNat] at hb
  exact hb h

theorem xdigitValue_lt_ten (b : UInt8) : xdigitValue b < 10 ↔ isDigit b = true := by
  have hall : ∀ n : Fin 256,
      (xdigitValue (UInt8.ofNat n.val) < 10 ↔ isDigit (UInt8.ofNat n.val) = true) := by
    decide +kernel
  have hb := hall ⟨b.toNat, b.toNat_lt⟩
  rwa [UInt8.ofNat_toNat] at hb

theorem digitValue_inj {a : UInt8} (ha : isDigit a = true) (hb : isDigit b = true)
    (h : digitValue a = digitValue b) : a = b := by
  rw [← (digitValue_spec ha).2, h, (digitValue_spec hb).2]

theorem decimalValue_cons (b : UInt8) (l : List UInt8) :
    decimalValue (b :: l) 0 = digitValue b * 10 ^ l.length + decimalValue l 0 := by
  rw [← decimalValue_start]
  simp [decimalValue]

theorem decimalValue_zeros {zeros : List UInt8} (h : ∀ b ∈ zeros, b = byte '0')
    (l : List UInt8) : decimalValue (zeros ++ l) 0 = decimalValue l 0 := by
  induction zeros with
  | nil => rfl
  | cons b zeros ih =>
    rw [cons_append, decimalValue_cons, h b mem_cons_self,
      ih fun c hc => h c (mem_cons_of_mem b hc)]
    have hzero : digitValue (byte '0') = 0 := by decide
    rw [hzero, Nat.zero_mul, zero_add]

theorem decimalValue_take (h : ∀ b ∈ l, isDigit b = true) (k : Nat) :
    decimalValue (l.take k) 0 = decimalValue l 0 / 10 ^ (l.length - k) := by
  have hrest := decimalValue_lt (l := l.drop k) fun b hb => h b (mem_of_mem_drop hb)
  have hsplit : decimalValue l 0 =
      decimalValue (l.take k) 0 * 10 ^ (l.drop k).length + decimalValue (l.drop k) 0 := by
    rw [← decimalValue_start, ← decimalValue_append, take_append_drop]
  rw [← length_drop, hsplit, mul_comm, Nat.mul_add_div (Nat.pow_pos (by decide)),
    Nat.div_eq_of_lt hrest, add_zero]

theorem xdigitValue_of_isDigit (h : isDigit b = true) : xdigitValue b = digitValue b := by
  rw [xdigitValue, if_pos h]

theorem foldl_xdigitValue (h : ∀ b ∈ l, isDigit b = true) (v : Nat) :
    l.foldl (fun v b => v * 10 + xdigitValue b) v = decimalValue l v := by
  induction l generalizing v with
  | nil => rfl
  | cons b l ih =>
    rw [foldl_cons, xdigitValue_of_isDigit (h b mem_cons_self),
      ih fun c hc => h c (mem_cons_of_mem b hc)]
    rfl

theorem digitValue_toNat (h : isDigit b = true) : b.toNat = digitValue b + 48 := by
  rw [isDigit, Bool.and_eq_true, decide_eq_true_eq] at h
  have hlow : 48 ≤ b.toNat := UInt8.le_iff_toNat_le.mp h.1
  rw [digitValue]
  omega

/-- Of two numbers with equally many digits `memcmp` sees which one is less. -/
theorem memcmp_digits (hl : ∀ b ∈ l, isDigit b = true)
    (hl' : ∀ b ∈ l', isDigit b = true) (hlength : l.length = l'.length) :
    memcmp l l' = compare (decimalValue l 0) (decimalValue l' 0) := by
  induction l generalizing l' with
  | nil =>
    obtain rfl := length_eq_zero_iff.mp hlength.symm
    rfl
  | cons a l ih =>
    match l', hl', hlength with
    | b :: l', hl', hlength =>
      rw [length_cons, length_cons, Nat.add_right_cancel_iff] at hlength
      have hrest := fun c hc => hl c (mem_cons_of_mem a hc)
      have hrest' := fun c hc => hl' c (mem_cons_of_mem b hc)
      have ha := hl a mem_cons_self
      have hb := hl' b mem_cons_self
      rw [memcmp, decimalValue_cons, decimalValue_cons]
      by_cases heq : a = b
      · subst heq
        rw [if_neg (not_not.mpr rfl), ih hrest hrest' hlength, hlength]
        rcases Nat.lt_trichotomy (decimalValue l 0) (decimalValue l' 0) with h | h | h
        · rw [compare_lt_iff_lt.mpr h, compare_lt_iff_lt.mpr (by omega)]
        · rw [h]
          simp
        · rw [compare_gt_iff_gt.mpr h, compare_gt_iff_gt.mpr (by omega)]
      · have hlow := decimalValue_lt hrest
        have hlow' := decimalValue_lt hrest'
        have htoNat := digitValue_toNat ha
        have htoNat' := digitValue_toNat hb
        rw [if_pos heq, hlength]
        rw [hlength] at hlow
        rcases Nat.lt_trichotomy (digitValue a) (digitValue b) with h | h | h
        · have hmul : (digitValue a + 1) * 10 ^ l'.length ≤
              digitValue b * 10 ^ l'.length := Nat.mul_le_mul_right _ h
          rw [Nat.add_mul, Nat.one_mul] at hmul
          rw [compare_lt_iff_lt.mpr (show a.toNat < b.toNat by omega),
            compare_lt_iff_lt.mpr (by omega)]
        · exact absurd (digitValue_inj ha hb h) heq
        · have hmul : (digitValue b + 1) * 10 ^ l'.length ≤
              digitValue a * 10 ^ l'.length := Nat.mul_le_mul_right _ h
          rw [Nat.add_mul, Nat.one_mul] at hmul
          rw [compare_gt_iff_gt.mpr (show b.toNat < a.toNat by omega),
            compare_gt_iff_gt.mpr (by omega)]

theorem compare_then {a b : UInt8} (h : a ≠ b) (o : Ordering) :
    (compare a.toNat b.toNat).then o = compare a.toNat b.toNat := by
  cases hcmp : compare a.toNat b.toNat with
  | eq => exact absurd (UInt8.toNat_inj.mp (compare_eq_iff_eq.mp hcmp)) h
  | lt | gt => rfl

theorem memcmp_append (hlength : l.length = l'.length)
    (s t : List UInt8) : memcmp (l ++ s) (l' ++ t) = (memcmp l l').then (memcmp s t) := by
  induction l generalizing l' with
  | nil =>
    obtain rfl := length_eq_zero_iff.mp hlength.symm
    rfl
  | cons a l ih =>
    match l', hlength with
    | b :: l', hlength =>
      rw [length_cons, length_cons, Nat.add_right_cancel_iff] at hlength
      rw [cons_append, cons_append, memcmp, memcmp]
      by_cases heq : a = b
      · rw [if_neg (not_not.mpr heq), if_neg (not_not.mpr heq), ih hlength]
      · rw [if_pos heq, if_pos heq, compare_then heq]

theorem memcmp_take (h : l.length ≤ l'.length) : memcmp l l' = memcmp l (l'.take l.length) := by
  have hlength : l.length = (l'.take l.length).length := by
    rw [length_take, min_eq_left h]
  have hsplit := memcmp_append hlength [] (l'.drop l.length)
  have hend : memcmp [] (l'.drop l.length) = .eq := rfl
  rw [append_nil, take_append_drop, hend] at hsplit
  rw [hsplit]
  cases memcmp l (l'.take l.length) <;> rfl

theorem memcmp_swap (l l' : List UInt8) : memcmp l' l = (memcmp l l').swap := by
  induction l generalizing l' with
  | nil => cases l' <;> rfl
  | cons a l ih =>
    cases l' with
    | nil => rfl
    | cons b l' =>
      rw [memcmp, memcmp]
      by_cases heq : a = b
      · rw [if_neg (not_not.mpr heq.symm), if_neg (not_not.mpr heq), ih]
      · rw [if_pos (Ne.symm heq), if_pos heq, Nat.compare_swap]

/-- Up to a NUL `strcmp` compares as `memcmp` does. -/
theorem strcmp_append (hl : ∀ b ∈ l, b ≠ 0) (hlength : l.length = l'.length) (s t : List UInt8) :
    strcmp (l ++ s) (l' ++ t) = (memcmp l l').then (strcmp s t) := by
  induction l generalizing l' with
  | nil =>
    obtain rfl := length_eq_zero_iff.mp hlength.symm
    rfl
  | cons a l ih =>
    match l', hlength with
    | b :: l', hlength =>
      rw [length_cons, length_cons, Nat.add_right_cancel_iff] at hlength
      rw [cons_append, cons_append, strcmp, memcmp]
      by_cases heq : a = b
      · rw [if_neg (not_not.mpr heq), if_neg (hl a mem_cons_self),
          if_neg (not_not.mpr heq), ih (fun c hc => hl c (mem_cons_of_mem a hc)) hlength]
      · rw [if_pos heq, if_pos heq, compare_then heq]

/-- `strcmp` looks at what follows the digits where the numbers are equal. -/
theorem strcmp_digits (hl : ∀ b ∈ l, isDigit b = true)
    (hl' : ∀ b ∈ l', isDigit b = true) (hlength : l.length = l'.length) (s t : List UInt8) :
    strcmp (l ++ s) (l' ++ t) =
      (compare (decimalValue l 0) (decimalValue l' 0)).then (strcmp s t) := by
  rw [strcmp_append (fun b hb => (isDigit_cases (hl b hb)).2.2.1) hlength,
    memcmp_digits hl hl' hlength]

end PhpEngine

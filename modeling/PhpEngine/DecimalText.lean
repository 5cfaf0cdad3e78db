/-
Decimal texts.  A text without a superfluous zero is the one that printing its value
gives.
-/
import PhpEngine.Decimal
import Mathlib.Data.List.Induction

namespace PhpEngine

open List

theorem printDigits_length_le (fuel : Nat) {num k : Nat} (acc : List UInt8) (hk : 0 < k)
    (h : num < 10 ^ k) : (printDigits fuel num acc).length ≤ acc.length + k := by
  induction fuel generalizing num k acc with
  | zero =>
    rw [printDigits]
    omega
  | succ fuel ih =>
    rw [printDigits]
    split
    next hlarge =>
      obtain ⟨k, rfl⟩ : ∃ j, k = j + 1 := ⟨k - 1, by omega⟩
      have hpos : 0 < k := by
        rcases Nat.eq_zero_or_pos k with rfl | hpos
        · omega
        · exact hpos
      have hless : num / 10 < 10 ^ k := by
        omega
      have hlength := ih (digitByte (num % 10) :: acc) hpos hless
      rw [length_cons] at hlength
      omega
    · rw [length_cons]
      omega

theorem printDigits_head {fuel num : Nat} {acc : List UInt8}
    (h : num < 10 ^ fuel) (hpos : 0 < num) :
    (printDigits fuel num acc).head? ≠ some (byte '0') := by
  induction fuel generalizing num acc with
  | zero => omega
  | succ fuel ih =>
    rw [printDigits]
    split
    next hlarge => exact ih (by rw [pow_succ] at h; omega) hlarge
    next hsmall =>
      have hdigit : ∀ d < 10, d ≠ 0 → some (digitByte d) ≠ some (byte '0') := by
        decide
      exact hdigit (num % 10) (by omega) (by omega)

theorem printUnsigned_head {num : Nat} (h : num < ulongMod) :
    (printUnsigned num).head? = some (byte '0') → (printUnsigned num).length = 1 := by
  intro hhead
  rcases Nat.eq_zero_or_pos num with rfl | hpos
  · rfl
  · exact absurd hhead (printDigits_head (lt_trans h (by decide)) hpos)

theorem printUnsigned_length_le {num : Nat} (h : num ≤ 2 ^ 63) :
    (printUnsigned num).length ≤ 19 := by
  have hless : num < 10 ^ 19 := lt_of_le_of_lt h (by decide)
  have hlength := printDigits_length_le 20 [] (by decide) hless
  simpa [printUnsigned] using hlength

theorem decimalValue_printUnsigned' {num : Nat} (h : num < ulongMod) :
    (printUnsigned num).foldl (fun idx b => idx * 10 + digitValue b) 0 = num :=
  decimalValue_printUnsigned h

/-- A text of digits as `%lu` prints it: no zero in front of another digit. -/
structure IsCanonical (text : List UInt8) : Prop where
  ne_nil : text ≠ []
  digits : ∀ b ∈ text, isDigit b = true
  head : text.head? = some (byte '0') → text.length = 1

theorem printUnsigned_canonical {num : Nat} (h : num < ulongMod) :
    IsCanonical (printUnsigned num) where
  ne_nil := ne_nil_of_length_pos (printUnsigned_length_pos num)
  digits := printUnsigned_digits num
  head := printUnsigned_head h

theorem digitValue_spec {b : UInt8} (h : isDigit b = true) :
    digitValue b < 10 ∧ digitByte (digitValue b) = b := by
  have hall : ∀ n : Fin 256, isDigit (UInt8.ofNat n.val) = true →
      digitValue (UInt8.ofNat n.val) < 10 ∧
        digitByte (digitValue (UInt8.ofNat n.val)) = UInt8.ofNat n.val := by
    decide +kernel
  have hb := hall ⟨b.toNat, b.toNat_lt⟩
  rw [UInt8.ofNat_toNat] at hb
  exact hb h

theorem decimalValue_append (l l' : List UInt8) (v : Nat) :
    decimalValue (l ++ l') v = decimalValue l' (decimalValue l v) :=
  foldl_append

theorem decimalValue_start (l : List UInt8) (v : Nat) :
    decimalValue l v = v * 10 ^ l.length + decimalValue l 0 := by
  induction l using List.reverseRecOn with
  | nil => simp [decimalValue]
  | append_singleton l b ih =>
    rw [decimalValue_append, decimalValue_append, ih, length_append]
    simp only [decimalValue, foldl_cons, foldl_nil, length_singleton, pow_succ]
    ring

theorem decimalValue_lt {l : List UInt8} (h : ∀ b ∈ l, isDigit b = true) :
    decimalValue l 0 < 10 ^ l.length := by
  induction l using List.reverseRecOn with
  | nil => simp [decimalValue]
  | append_singleton l b ih =>
    have hl := ih fun c hc => h c (mem_append_left _ hc)
    have hb := (digitValue_spec (h b (by simp))).1
    rw [decimalValue_append, length_append]
    simp only [decimalValue, foldl_cons, foldl_nil, length_singleton, pow_succ] at hl ⊢
    omega

/-- The first digit and the number of digits bound a value from below and from above. -/
theorem decimalValue_bounds {b : UInt8} {l : List UInt8} (h : ∀ c ∈ b :: l, isDigit c = true) :
    digitValue b * 10 ^ l.length ≤ decimalValue (b :: l) 0 ∧
      decimalValue (b :: l) 0 < (digitValue b + 1) * 10 ^ l.length := by
  have hrest := decimalValue_lt fun c hc => h c (mem_cons_of_mem b hc)
  have hstart : decimalValue (b :: l) 0 = digitValue b * 10 ^ l.length + decimalValue l 0 := by
    rw [← decimalValue_start]
    simp [decimalValue]
  constructor
  · omega
  · rw [Nat.add_mul, Nat.one_mul]
    omega

theorem IsCanonical.pos {text : List UInt8} (h : IsCanonical text) (hlong : 1 < text.length) :
    0 < decimalValue text 0 := by
  match text, h, hlong with
  | b :: l, h, hlong =>
    have hne : digitValue b ≠ 0 := by
      intro hzero
      have hb := (digitValue_spec (h.digits b mem_cons_self)).2
      rw [hzero] at hb
      have hone := h.head (by rw [← hb]; rfl)
      omega
    have hlow := (decimalValue_bounds h.digits).1
    have hpos : 0 < digitValue b * 10 ^ l.length :=
      Nat.mul_pos (Nat.pos_of_ne_zero hne) (Nat.pow_pos (by decide))
    omega

theorem printDigits_canonical {text : List UInt8} (h : IsCanonical text) {fuel : Nat}
    (hfuel : text.length ≤ fuel) (acc : List UInt8) :
    printDigits fuel (decimalValue text 0) acc = text ++ acc := by
  induction text using List.reverseRecOn generalizing fuel acc with
  | nil => exact absurd rfl h.ne_nil
  | append_singleton l b ih =>
    have hb := digitValue_spec (h.digits b (by simp))
    rw [length_append, length_singleton] at hfuel
    obtain ⟨m, rfl⟩ : ∃ m, fuel = m + 1 := ⟨fuel - 1, by omega⟩
    have hvalue : decimalValue (l ++ [b]) 0 = decimalValue l 0 * 10 + digitValue b := by
      rw [decimalValue_append]
      rfl
    have hlast : (decimalValue l 0 * 10 + digitValue b) % 10 = digitValue b := by omega
    have hrest : (decimalValue l 0 * 10 + digitValue b) / 10 = decimalValue l 0 := by omega
    rw [printDigits, hvalue, hlast, hrest, hb.2]
    by_cases hnil : l = []
    · subst hnil
      rfl
    · have hlength : 0 < l.length := length_pos_of_ne_nil hnil
      have hhead : (l ++ [b]).head? = l.head? := head?_append_of_ne_nil l hnil
      have hprefix : IsCanonical l := by
        refine ⟨hnil, fun c hc => h.digits c (mem_append_left _ hc), fun hzero => ?_⟩
        have hone := h.head (hhead.trans hzero)
        rw [length_append, length_singleton] at hone
        omega
      have hpos : 0 < decimalValue l 0 := by
        by_cases hlong : 1 < l.length
        · exact hprefix.pos hlong
        · obtain ⟨c, rfl⟩ := length_eq_one_iff.mp (show l.length = 1 by omega)
          have hc := digitValue_spec (h.digits c (by simp))
          have hne : digitValue c ≠ 0 := by
            intro hzero
            rw [hzero] at hc
            have hone := h.head (by rw [← hc.2]; rfl)
            simp at hone
          simp only [decimalValue, foldl_cons, foldl_nil]
          omega
      rw [if_pos hpos, ih hprefix (by omega), append_assoc]
      rfl

theorem IsCanonical.print {text : List UInt8} (h : IsCanonical text)
    (hlength : text.length ≤ 20) : printUnsigned (decimalValue text 0) = text := by
  rw [printUnsigned, printDigits_canonical h hlength, append_nil]

end PhpEngine

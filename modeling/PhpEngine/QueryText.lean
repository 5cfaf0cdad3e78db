/-
The text of a query string: what stands for a key or a value is decoded to that
key or value, and has none of the bytes that take a query string apart.
-/
import PhpEngine.CText
import PhpEngine.NumericKeys
import PhpEngine.QueryVars
import PhpEngine.NestedReads

namespace PhpEngine

open List

/-- The bytes that take a query string apart. -/
def isQuerySyntax (b : UInt8) : Prop :=
  b = byte '&' ∨ b = byte '=' ∨ b = 0

/-- `text` stands for `bytes` wherever it is found. -/
structure UrlText (text bytes : List UInt8) : Prop where
  decode : ∀ rest, phpUrlDecode (text ++ rest) = bytes ++ phpUrlDecode rest
  plain : ∀ b ∈ text, ¬ isQuerySyntax b

namespace UrlText

theorem nil : UrlText [] [] :=
  ⟨fun _ => rfl, by simp⟩

theorem append {text text' bytes bytes' : List UInt8}
    (h : UrlText text bytes) (h' : UrlText text' bytes') :
    UrlText (text ++ text') (bytes ++ bytes') where
  decode := by
    intro rest
    rw [append_assoc, h.decode, h'.decode, append_assoc]
  plain := by
    intro b hb
    rcases mem_append.mp hb with hb | hb
    · exact h.plain b hb
    · exact h'.plain b hb

theorem flatMap {encode : UInt8 → List UInt8} (h : ∀ c, UrlText (encode c) [c]) (s : List UInt8) :
    UrlText (s.flatMap encode) s := by
  induction s with
  | nil => exact nil
  | cons c s ih => exact (h c).append ih

theorem decode_all {text bytes : List UInt8} (h : UrlText text bytes) :
    phpUrlDecode text = bytes := by
  have hdecode := h.decode []
  rw [append_nil] at hdecode
  rw [hdecode, phpUrlDecode, append_nil]

end UrlText

theorem phpUrlDecode_plus (l : List UInt8) :
    phpUrlDecode (byte '+' :: l) = byte ' ' :: phpUrlDecode l := by
  match l with
  | [] => rfl
  | [_] => rfl
  | s0 :: s1 :: data => rw [phpUrlDecode, if_pos rfl]

theorem phpUrlDecode_other {c : UInt8} (hplus : c ≠ byte '+')
    (hpercent : c ≠ byte '%') (l : List UInt8) : phpUrlDecode (c :: l) = c :: phpUrlDecode l := by
  match l with
  | [] => simp [phpUrlDecode, hplus]
  | [_] => simp [phpUrlDecode, hplus]
  | s0 :: s1 :: data =>
    rw [phpUrlDecode, if_neg hplus, if_neg (fun h => hpercent h.1)]

theorem phpUrlDecode_percent {s0 s1 : UInt8} (h0 : isXDigit s0 = true)
    (h1 : isXDigit s1 = true) (l : List UInt8) : phpUrlDecode (byte '%' :: s0 :: s1 :: l) =
      phpHtoi s0 s1 :: phpUrlDecode l := by
  rw [phpUrlDecode, if_neg (by decide), if_pos ⟨rfl, h0, h1⟩]

theorem forall_byte {P : UInt8 → Prop} (h : ∀ n : Fin 256, P (UInt8.ofNat n))
    (c : UInt8) : P c := by
  have hc := h ⟨c.toNat, c.toNat_lt⟩
  rwa [UInt8.ofNat_toNat] at hc

/-- The three ways to write a byte. -/
def WrittenAs (c : UInt8) (text : List UInt8) : Prop :=
  (text = [c] ∧ c ≠ byte '+' ∧ c ≠ byte '%') ∨ (text = [byte '+'] ∧ c = byte ' ') ∨
    ∃ s0 ∈ text, ∃ s1 ∈ text, text = [byte '%', s0, s1] ∧
      isXDigit s0 = true ∧ isXDigit s1 = true ∧ phpHtoi s0 s1 = c

/-- The test for it.  `text` has one byte or three. -/
def isWrittenAs (c : UInt8) : List UInt8 → Bool
  | [b] => (b == c && b != byte '+' && b != byte '%') || (b == byte '+' && c == byte ' ')
  | [b, s0, s1] => b == byte '%' && isXDigit s0 && isXDigit s1 && phpHtoi s0 s1 == c
  | _ => false

theorem WrittenAs.of_isWrittenAs {c : UInt8} {text : List UInt8} (h : isWrittenAs c text = true) :
    WrittenAs c text := by
  match text, h with
  | [b], h =>
    simp only [isWrittenAs, Bool.or_eq_true, Bool.and_eq_true, beq_iff_eq, bne_iff_ne] at h
    rcases h with ⟨⟨rfl, hplus⟩, hpercent⟩ | ⟨rfl, rfl⟩
    · exact .inl ⟨rfl, hplus, hpercent⟩
    · exact .inr (.inl ⟨rfl, rfl⟩)
  | [b, s0, s1], h =>
    simp only [isWrittenAs, Bool.and_eq_true, beq_iff_eq] at h
    obtain ⟨⟨⟨rfl, h0⟩, h1⟩, hc⟩ := h
    exact .inr (.inr ⟨s0, by simp, s1, by simp, rfl, h0, h1, hc⟩)

instance (b : UInt8) : Decidable (isQuerySyntax b) :=
  inferInstanceAs (Decidable (_ ∨ _))

/-- A text is decoded to the byte it is written for, and does not take a query string
apart. -/
theorem isWrittenAs_plain {c : UInt8} {text : List UInt8}
    (h : (isWrittenAs c text && text.all fun b => decide (¬ isQuerySyntax b)) = true) :
    WrittenAs c text ∧ ∀ b ∈ text, ¬ isQuerySyntax b := by
  rw [Bool.and_eq_true] at h
  exact ⟨.of_isWrittenAs h.1, forall_mem_of_all h.2⟩

theorem WrittenAs.decode {c : UInt8} {text : List UInt8} (h : WrittenAs c text)
    (rest : List UInt8) : phpUrlDecode (text ++ rest) = [c] ++ phpUrlDecode rest := by
  rcases h with ⟨rfl, hplus, hpercent⟩ | ⟨rfl, rfl⟩ | ⟨s0, -, s1, -, rfl, h0, h1, rfl⟩
  · exact phpUrlDecode_other hplus hpercent rest
  · exact phpUrlDecode_plus rest
  · exact phpUrlDecode_percent h0 h1 rest

theorem urlEncodeByte_writes (c : UInt8) :
    WrittenAs c (urlEncodeByte c) ∧ ∀ b ∈ urlEncodeByte c, ¬ isQuerySyntax b := by
  apply isWrittenAs_plain
  revert c
  apply forall_byte
  decide +kernel

theorem rawUrlEncodeByte_writes (c : UInt8) : WrittenAs c (rawUrlEncodeByte c) ∧
      ∀ b ∈ rawUrlEncodeByte c, ¬ isQuerySyntax b := by
  apply isWrittenAs_plain
  revert c
  apply forall_byte
  decide +kernel

theorem QueryEncType.urlText_encode (enc : QueryEncType) (s : List UInt8) :
    UrlText (enc.encode s) s := by
  cases enc with
  | rfc1738 =>
    apply UrlText.flatMap
    intro c
    obtain ⟨hwritten, hplain⟩ := urlEncodeByte_writes c
    exact ⟨hwritten.decode, hplain⟩
  | rfc3986 =>
    apply UrlText.flatMap
    intro c
    obtain ⟨hwritten, hplain⟩ := rawUrlEncodeByte_writes c
    exact ⟨hwritten.decode, hplain⟩

theorem isDigit_urlText {c : UInt8} (h : isDigit c = true ∨ c = byte '-') : UrlText [c] [c] := by
  have hall : ∀ c : UInt8, isDigit c = true ∨ c = byte '-' →
      c ≠ byte '+' ∧ c ≠ byte '%' ∧ ¬ isQuerySyntax c := by
    apply forall_byte
    decide +kernel
  obtain ⟨hplus, hpercent, hplain⟩ := hall c h
  exact ⟨phpUrlDecode_other hplus hpercent, by simpa using hplain⟩

theorem printLong_bytes (n : Int) : ∀ b ∈ printLong n, isDigit b = true ∨ b = byte '-' := by
  intro b hb
  rw [printLong] at hb
  split at hb
  · rcases mem_cons.mp hb with rfl | hb
    · exact .inr rfl
    · exact .inl (printUnsigned_digits _ b hb)
  · exact .inl (printUnsigned_digits _ b hb)

theorem urlText_printLong (n : Int) : UrlText (printLong n) (printLong n) := by
  have hbytes := printLong_bytes n
  generalize printLong n = text at hbytes
  induction text with
  | nil => exact .nil
  | cons c text ih =>
    exact (isDigit_urlText (hbytes c mem_cons_self)).append
      (ih fun b hb => hbytes b (mem_cons_of_mem c hb))

/-! An integer key is printed as the string that stands for it. -/

theorem handleNumeric_printUnsigned {num : Nat} (h : num ≤ longMax) :
    handleNumeric (printUnsigned num) = some num := by
  have hlt : num < ulongMod := lt_of_le_of_lt h (by decide)
  have hdigits := printUnsigned_digits num
  have hne : printUnsigned num ≠ [] :=
    ne_nil_of_length_pos (printUnsigned_length_pos num)
  have hneg : (printUnsigned num).head? ≠ some (byte '-') := by
    intro hhead
    have hmem := mem_of_mem_head? hhead
    exact absurd (hdigits _ hmem) (by decide)
  have hzero : ¬ ((printUnsigned num).head? = some (byte '0') ∧
      1 < (printUnsigned num).length) := by
    rintro ⟨hhead, hlength⟩
    have hone := printUnsigned_head hlt hhead
    omega
  have hlength := printUnsigned_length_le (le_trans h (by decide : longMax ≤ 2 ^ 63))
  have hall : (printUnsigned num).all isDigit = true := List.all_eq_true.mpr hdigits
  simp only [handleNumeric, hneg, if_false]
  rw [if_neg (by simp [hne, hall]), if_neg hzero, if_neg (by omega),
    decimalValue_printUnsigned' hlt, if_neg (by omega)]

theorem handleNumeric_printNegative {num : Nat} (hpos : 0 < num) (h : num ≤ 2 ^ 63) :
    handleNumeric (byte '-' :: printUnsigned num) = some (ulongMod - num) := by
  have hlt : num < ulongMod := lt_of_le_of_lt h (by decide)
  have hdigits := printUnsigned_digits num
  have hne : printUnsigned num ≠ [] :=
    ne_nil_of_length_pos (printUnsigned_length_pos num)
  have hzero : (printUnsigned num).head? ≠ some (byte '0') :=
    printDigits_head (lt_trans hlt (by decide)) hpos
  have hlength := printUnsigned_length_le h
  have hall : (printUnsigned num).all isDigit = true := List.all_eq_true.mpr hdigits
  have hbound : ¬ longMax < (num + (ulongMod - 1)) % ulongMod := by
    simp only [ulongMod, longMax] at h hlt ⊢
    omega
  simp only [handleNumeric, head?_cons, if_true, tail_cons]
  rw [if_neg (by simp [hne, hall]), if_neg (fun h => hzero h.1),
    if_neg (by omega), decimalValue_printUnsigned' hlt, if_neg hbound,
    Nat.mod_eq_of_lt (by omega)]

theorem handleNumeric_printLong {h : Nat} (hh : h < ulongMod) :
    handleNumeric (printLong (toLong h)) = some h := by
  by_cases hlt : h < 2 ^ 63
  · have hprint : printLong (toLong h) = printUnsigned h := by
      rw [toLong_of_lt hlt, printLong_of_nonneg (by omega), Int.toNat_natCast]
    rw [hprint, handleNumeric_printUnsigned (by
      simp only [longMax]
      omega)]
  · have hneg := toLong_of_ge (Nat.le_of_not_lt hlt)
    have hh' := hh
    simp only [ulongMod] at hh hneg
    have hprint : printLong (toLong h) = byte '-' :: printUnsigned (ulongMod - h) := by
      rw [printLong, if_pos (by omega), Nat.mod_eq_of_lt]
      · congr 2
        simp only [ulongMod]
        omega
      · simp only [ulongMod]
        omega
    rw [hprint, handleNumeric_printNegative]
    · rw [Nat.sub_sub_self (le_of_lt hh')]
    · simp only [ulongMod]
      omega
    · simp only [ulongMod]
      omega

theorem symtableKey_printLong {h : Nat} (hh : h < ulongMod) :
    symtableKey (printLong (toLong h)) = .long h := by
  rw [symtableKey, handleNumeric_printLong hh]

end PhpEngine

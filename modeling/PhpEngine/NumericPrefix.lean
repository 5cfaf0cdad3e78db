/-
What `is_numeric_string_ex` makes of a decimal integer, and of what follows it.
-/
import PhpEngine.NumericString

namespace PhpEngine

open List

namespace NumericString

/-- An `e` or `E` that opens an exponent. -/
def startsExponent : List UInt8 → Bool
  | [] => false
  | b :: after => isExponentMark b && startsDigit (afterSign after)

/-- An `e` or `E` with a sign behind it. -/
def startsSignedMark : List UInt8 → Bool
  | b :: c :: _ => isExponentMark b && isSign c
  | _ => false

/-- A decimal integer in a string, with what stands around it.  `digits` are the significant
ones. -/
structure Numeral where
  space : List UInt8
  sign : List UInt8
  zeros : List UInt8
  digits : List UInt8
  rest : List UInt8
deriving DecidableEq, Repr

namespace Numeral

/-- The number without the white space, with what follows it. -/
def body (t : Numeral) : List UInt8 :=
  t.sign ++ (t.zeros ++ (t.digits ++ t.rest))

def text (t : Numeral) : List UInt8 :=
  t.space ++ t.body

def value (t : Numeral) : Int :=
  if t.sign = [byte '-'] then -(decimalValue t.digits 0 : Int) else decimalValue t.digits 0

/-- The number is the longest one at this place of the string, and it is no hexadecimal
one. -/
structure IsPlain (t : Numeral) : Prop where
  space : ∀ b ∈ t.space, isSpace b = true
  sign : t.sign = [] ∨ t.sign = [byte '-'] ∨ t.sign = [byte '+']
  zeros : ∀ b ∈ t.zeros, b = byte '0'
  digits : ∀ b ∈ t.digits, isDigit b = true
  head : t.digits.head? ≠ some (byte '0')
  ne_nil : t.zeros ++ t.digits ≠ []
  behind : startsDigit t.rest = false
  point : t.rest.head? ≠ some (byte '.')
  exponent : startsExponent t.rest = false
  hex : t.sign = [] → t.zeros ++ t.digits = [byte '0'] →
    t.rest.head? = some (byte 'x') ∨ t.rest.head? = some (byte 'X') → t.rest.length < 2

end Numeral

theorem dropWhile_all {p : UInt8 → Bool} {l l' : List UInt8} (h : ∀ b ∈ l, p b = true)
    (h' : ∀ b, l'.head? = some b → p b = false) : (l ++ l').dropWhile p = l' := by
  rw [dropWhile_append_of_pos h]
  match l', h' with
  | [], _ => rfl
  | b :: rest, h' => rw [dropWhile_cons_of_neg (by simp [h' b rfl])]

theorem takeWhile_all {p : UInt8 → Bool} {l l' : List UInt8} (h : ∀ b ∈ l, p b = true)
    (h' : ∀ b, l'.head? = some b → p b = false) : (l ++ l').takeWhile p = l := by
  rw [takeWhile_append_of_pos h]
  match l', h' with
  | [], _ => simp
  | b :: rest, h' => rw [takeWhile_cons_of_neg (by simp [h' b rfl]), append_nil]

variable {size : LongSize} {stops : Bool} {type : NumericType}

theorem startsDigit_nul (l : List UInt8) : startsDigit (l ++ [0]) = startsDigit l := by
  cases l with
  | nil | cons b l => rfl

theorem startsDigit_afterSign_nul (l : List UInt8) :
    startsDigit (afterSign (l ++ [0])) = startsDigit (afterSign l) := by
  cases l with
  | nil => rfl
  | cons b l =>
    rw [cons_append, afterSign, afterSign]
    split
    · exact startsDigit_nul l
    · rfl

theorem checkDigits_digits {base dpOrE : Nat} {l : List UInt8} (hl : ∀ b ∈ l, isDigit b = true)
    (t : List UInt8) {digits : Nat}
    (hfew : stops = true → digits + l.length < size.maxLengthOfLong) :
    checkDigits size base stops dpOrE type (l ++ t) digits =
      checkDigits size base stops dpOrE type t (digits + l.length) := by
  induction l generalizing digits with
  | nil => rfl
  | cons b l ih =>
    have hb := hl b mem_cons_self
    rw [length_cons] at hfew
    have hbelow : ¬(decide (size.maxLengthOfLong ≤ digits + 1) && stops) = true := by
      intro hlimit
      rw [Bool.and_eq_true, decide_eq_true_eq] at hlimit
      have := hfew hlimit.2
      omega
    rw [cons_append, checkDigits_cons, if_pos (by simp [hb]), if_neg hbelow,
      ih (fun c hc => hl c (mem_cons_of_mem b hc)) (fun h => by have := hfew h; omega),
      length_cons]
    congr 1
    omega

/-- The loop that stops at the limit leaves the other digits. -/
theorem checkDigits_limit {base dpOrE : Nat} {l : List UInt8}
    (hl : ∀ b ∈ l, isDigit b = true) (t : List UInt8) {digits : Nat}
    (hbelow : digits < size.maxLengthOfLong) (hmany : size.maxLengthOfLong ≤ digits + l.length) :
    checkDigits size base true dpOrE type (l ++ t) digits =
      ⟨type, l.drop (size.maxLengthOfLong - digits) ++ t, size.maxLengthOfLong, false⟩ := by
  induction l generalizing digits with
  | nil =>
    rw [length_nil] at hmany
    omega
  | cons b l ih =>
    have hb := hl b mem_cons_self
    rw [length_cons] at hmany
    rw [cons_append, checkDigits_cons, if_pos (by simp [hb])]
    by_cases hlast : size.maxLengthOfLong ≤ digits + 1
    · have hdrop : size.maxLengthOfLong - digits = 1 := by omega
      rw [if_pos (by simp [hlast]), hdrop]
      congr 1
      omega
    · rw [if_neg (by simp [hlast]),
        ih (fun c hc => hl c (mem_cons_of_mem b hc)) (by omega) (by omega)]
      rw [show size.maxLengthOfLong - digits = size.maxLengthOfLong - (digits + 1) + 1 by omega]
      rfl

/-- Where the loop leaves the pointer behind the last digit. -/
def pastSign (rest : List UInt8) : List UInt8 :=
  if startsSignedMark rest then rest.tail else rest

theorem checkDigits_rest {rest : List UInt8} (hdigit : startsDigit rest = false)
    (hpoint : rest.head? ≠ some (byte '.')) (hexponent : startsExponent rest = false)
    (digits : Nat) : checkDigits size 10 stops 0 type (rest ++ [0]) digits =
      ⟨type, pastSign rest ++ [0], digits, false⟩ := by
  match rest with
  | [] => rfl
  | b :: after =>
    have hb : isDigit b = false := hdigit
    have hdot : (b == byte '.') = false := by
      rw [beq_eq_false_iff_ne]
      rintro rfl
      exact hpoint rfl
    rw [cons_append, checkDigits_cons, if_neg (by simp [hb]), if_neg (by simp [hdot])]
    by_cases hmark : isExponentMark b = true
    · rw [if_pos (by simp [hmark])]
      rw [startsExponent, hmark, Bool.true_and] at hexponent
      match after, hexponent with
      | [], _ => rfl
      | c :: after, hexponent =>
        rw [cons_append]
        simp only
        by_cases hsign : isSign c = true
        · rw [afterSign, if_pos hsign] at hexponent
          rw [if_pos hsign, startsDigit_nul, hexponent, if_neg Bool.false_ne_true]
          simp [pastSign, startsSignedMark, hmark, hsign]
        · rw [afterSign, if_neg hsign] at hexponent
          have hc : isDigit c = false := hexponent
          rw [if_neg hsign, hc, if_neg Bool.false_ne_true]
          simp [pastSign, startsSignedMark, hsign]
    · rw [if_neg (by simp [hmark])]
      cases after <;> simp [pastSign, startsSignedMark, hmark]

namespace Numeral.IsPlain

variable {t : Numeral}

theorem number (h : t.IsPlain) : ∀ b ∈ t.zeros ++ t.digits, isDigit b = true := by
  intro b hb
  rcases mem_append.mp hb with hb | hb
  · rw [h.zeros b hb]
    decide
  · exact h.digits b hb

theorem first (h : t.IsPlain) (l : List UInt8) :
    ∃ c next, t.zeros ++ (t.digits ++ l) = c :: next ∧ isDigit c = true := by
  obtain ⟨c, m, hcons⟩ := exists_cons_of_ne_nil h.ne_nil
  have hc : c ∈ t.zeros ++ t.digits := by
    rw [hcons]
    exact mem_cons_self
  rw [← append_assoc, hcons]
  exact ⟨c, m ++ l, rfl, h.number c hc⟩

/-- What stands behind the number is no digit, whether the string ends there or not. -/
theorem behind_nul (h : t.IsPlain) {b : UInt8} (hb : (t.rest ++ [0]).head? = some b) :
    isDigit b = false := by
  have hbehind := h.behind
  match hrest : t.rest with
  | [] =>
    rw [hrest] at hb
    cases hb
    decide
  | c :: _ =>
    rw [hrest] at hb hbehind
    cases hb
    exact hbehind

theorem body_eq (t : Numeral) :
    t.body ++ [0] = t.sign ++ (t.zeros ++ (t.digits ++ (t.rest ++ [0]))) := by
  simp [Numeral.body]

section

variable (h : t.IsPlain)
include h

theorem body_head {b : UInt8} (hb : (t.body ++ [0]).head? = some b) :
    (isDigit b = true ∧ t.sign = [] ∨ b = byte '-' ∧ t.sign = [byte '-'] ∨
      b = byte '+' ∧ t.sign = [byte '+']) ∧ isSpace b = false := by
  obtain ⟨c, next, heq, hc⟩ := h.first (t.rest ++ [0])
  rw [body_eq, heq] at hb
  rcases h.sign with hsign | hsign | hsign
  · rw [hsign] at hb
    cases hb
    exact ⟨.inl ⟨hc, hsign⟩, (isDigit_cases hc).1⟩
  · rw [hsign] at hb
    cases hb
    exact ⟨.inr (.inl ⟨rfl, hsign⟩), by decide⟩
  · rw [hsign] at hb
    cases hb
    exact ⟨.inr (.inr ⟨rfl, hsign⟩), by decide⟩

theorem head_minus :
    (t.body ++ [0]).head? = some (byte '-') ↔ t.sign = [byte '-'] := by
  constructor
  · intro hb
    rcases (h.body_head hb).1 with ⟨hdigit, -⟩ | ⟨-, hsign⟩ | ⟨hplus, -⟩
    · cases hdigit
    · exact hsign
    · cases hplus
  · intro hsign
    rw [body_eq, hsign]
    rfl

theorem dropWhile_space : (t.text ++ [0]).dropWhile isSpace = t.body ++ [0] := by
  rw [Numeral.text, append_assoc]
  exact dropWhile_all h.space fun b hb => (h.body_head hb).2

theorem dropWhile_body : (t.body ++ [0]).dropWhile isSpace = t.body ++ [0] :=
  dropWhile_all (l := []) (by simp) fun b hb => (h.body_head hb).2

theorem afterSign_body :
    afterSign (t.body ++ [0]) = t.zeros ++ (t.digits ++ (t.rest ++ [0])) := by
  obtain ⟨c, next, heq, hc⟩ := h.first (t.rest ++ [0])
  rw [body_eq, heq]
  rcases h.sign with hsign | hsign | hsign
  · rw [hsign, nil_append, afterSign, if_neg (by simp [(isDigit_cases hc).2.1])]
  · rw [hsign]
    rfl
  · rw [hsign]
    rfl

theorem dropWhile_zeros :
    (t.zeros ++ (t.digits ++ (t.rest ++ [0]))).dropWhile (· == byte '0') =
      t.digits ++ (t.rest ++ [0]) := by
  apply dropWhile_all
  · intro b hb
    rw [h.zeros b hb]
    rfl
  · intro b hb
    rw [beq_eq_false_iff_ne]
    rintro rfl
    have hhead := h.head
    match hdigits : t.digits with
    | [] =>
      rw [hdigits, nil_append] at hb
      exact absurd (h.behind_nul hb) (by decide)
    | c :: _ =>
      rw [hdigits] at hb hhead
      exact hhead hb

theorem digits_rest : (t.digits ++ (t.rest ++ [0])).takeWhile isDigit = t.digits ∧
      (t.digits ++ (t.rest ++ [0])).dropWhile isDigit = t.rest ++ [0] :=
  ⟨takeWhile_all h.digits fun _ hb => h.behind_nul hb,
    dropWhile_all h.digits fun _ hb => h.behind_nul hb⟩

/-- `zend_strtod` reads the number and nothing behind it. -/
theorem strtodEnd_body : strtodEnd (t.body ++ [0]) = t.rest ++ [0] := by
  obtain ⟨c, next, heq, hc⟩ := h.first (t.rest ++ [0])
  have hnul : (t.zeros ++ (t.digits ++ (t.rest ++ [0]))).head? ≠ some 0 := by
    rw [heq]
    intro hzero
    exact (isDigit_cases hc).2.2.1 (Option.some.inj hzero)
  have hpoint : (t.rest ++ [0]).head? ≠ some (byte '.') := by
    have hdot := h.point
    match t.rest, hdot with
    | [], _ => decide
    | _ :: _, hdot => exact hdot
  rw [strtodEnd]
  simp only [h.dropWhile_body, h.afterSign_body, if_neg hnul, h.dropWhile_zeros]
  split
  next hzeros =>
    -- The number is made of zeros, and the string ends behind it.
    match hdigits : t.digits with
    | [] => rfl
    | d :: _ =>
      rw [hdigits] at hzeros
      have hd := h.digits d (by rw [hdigits]; exact mem_cons_self)
      exact absurd (Option.some.inj hzeros.2) (isDigit_cases hd).2.2.1
  · simp only [h.digits_rest.1, h.digits_rest.2, if_neg hpoint]
    have hany : ¬(¬(t.zeros ++ (t.digits ++ (t.rest ++ [0]))).head? = some (byte '0') ∧
        t.digits = [] ∧ True) := by
      rintro ⟨hfirst, hnil, -⟩
      have hne := h.ne_nil
      rw [hnil, append_nil] at hne
      match hzeros : t.zeros with
      | [] => exact hne hzeros
      | z :: _ =>
        apply hfirst
        rw [hzeros, ← h.zeros z (by rw [hzeros]; exact mem_cons_self)]
        rfl
    rw [if_neg hany]
    have hexponent := h.exponent
    match hrest : t.rest with
    | [] => rfl
    | e :: after =>
      rw [hrest, startsExponent] at hexponent
      simp only [cons_append, startsDigit_afterSign_nul]
      by_cases hmark : isExponentMark e = true
      · rw [hmark, Bool.true_and] at hexponent
        rw [if_pos hmark, hexponent, if_neg Bool.false_ne_true]
      · rw [if_neg hmark]

end

theorem strtol_body (size : LongSize) (h : t.IsPlain) :
    strtol size 10 (t.body ++ [0]) = max size.longMin (min size.longMax t.value) := by
  have htake : (t.zeros ++ (t.digits ++ (t.rest ++ [0]))).takeWhile
      (fun b => decide (xdigitValue b < 10)) = t.zeros ++ t.digits := by
    rw [← append_assoc]
    apply takeWhile_all
    · intro b hb
      rw [decide_eq_true_eq, xdigitValue_lt_ten]
      exact h.number b hb
    · intro b hb
      rw [decide_eq_false_iff_not, xdigitValue_lt_ten, h.behind_nul hb]
      exact Bool.false_ne_true
  have hten : ¬(10 : Nat) = 16 := by decide
  rw [strtol]
  simp only [h.dropWhile_body, h.afterSign_body, hten, false_and, if_false, htake,
    foldl_xdigitValue h.number, decimalValue_zeros h.zeros, h.head_minus, Numeral.value]

theorem not_hex (h : t.IsPlain) :
    ¬(3 < (t.body ++ [0]).length ∧ (t.body ++ [0]).head? = some (byte '0') ∧
      ((t.body ++ [0])[1]? = some (byte 'x') ∨ (t.body ++ [0])[1]? = some (byte 'X'))) := by
  rintro ⟨hlong, hzero, hmark⟩
  have hsign : t.sign = [] := by
    rcases (h.body_head hzero).1 with ⟨-, hsign⟩ | ⟨hminus, -⟩ | ⟨hplus, -⟩
    · exact hsign
    · cases hminus
    · cases hplus
  have hnumber := h.number
  have hhex := h.hex hsign
  obtain ⟨c, m, hcons⟩ := exists_cons_of_ne_nil h.ne_nil
  rw [body_eq, hsign, nil_append, ← append_assoc, hcons] at hlong hzero hmark
  rw [hcons] at hnumber hhex
  cases hzero
  cases m with
  | nil =>
    cases hrest : t.rest with
    | nil =>
      rw [hrest] at hmark
      exact absurd hmark (by decide)
    | cons x rest =>
      rw [hrest] at hhex hlong hmark
      have hshort := hhex rfl hmark
      simp only [length_append, length_cons, length_nil] at hlong hshort
      omega
  | cons d m =>
    have hd := isDigit_cases (hnumber d (by simp))
    rcases hmark with hx | hx
    · exact hd.2.2.2.2.2.2.2.2.1 (Option.some.inj hx)
    · exact hd.2.2.2.2.2.2.2.2.2 (Option.some.inj hx)

end Numeral.IsPlain

section Number

variable {t : Numeral} {D : Type} (strtod hexStrtod : List UInt8 → D) (p : Pointers)
  (allowErrors : Int)

/-- The function goes to the loop over the significant digits. -/
theorem isNumericStringEx_text (size : LongSize) (h : t.IsPlain) :
    isNumericStringEx size strtod hexStrtod p allowErrors t.text =
      finish size strtod p allowErrors 10 (t.body ++ [0])
        (afterDigits size strtod hexStrtod p 10 (t.body ++ [0])
          (checkDigits size 10 (p.dval || allowErrors == 1) 0 .isLong
            (t.digits ++ (t.rest ++ [0])) 0)) := by
  obtain ⟨c, next, heq, hc⟩ := h.first (t.rest ++ [0])
  have hne : t.text ≠ [] := by
    intro hnil
    have hbody : t.body = [] := (append_eq_nil_iff.mp hnil).2
    rw [Numeral.body, ← append_assoc t.zeros] at hbody
    exact h.ne_nil (append_eq_nil_iff.mp (append_eq_nil_iff.mp hbody).2).1
  have hzeros := h.dropWhile_zeros
  rw [heq] at hzeros
  rw [isNumericStringEx, if_neg hne]
  simp only [h.dropWhile_space, h.afterSign_body, heq, hc, if_true, decide_eq_false h.not_hex,
    Bool.false_eq_true, if_false, hzeros]

/-- Whether the digits are left with `IS_LONG` at the end. -/
def Numeral.taken (size : LongSize) (t : Numeral) : Prop :=
  t.digits.length < size.maxLengthOfLong - 1 ∨ t.digits.length = size.maxLengthOfLong - 1 ∧
      if startsSignedMark t.rest then
        decimalValue t.digits.tail 0 < (size.longMax + 1) / 10
      else
        decimalValue t.digits 0 < size.longMax + 1 ∨
          decimalValue t.digits 0 = size.longMax + 1 ∧ t.rest.headD 0 = 0 ∧ t.sign = [byte '-']

instance (size : LongSize) (t : Numeral) : Decidable (t.taken size) :=
  inferInstanceAs (Decidable (_ ∨ _))

theorem backFrom_body (t : Numeral) :
    backFrom (t.body ++ [0]) (pastSign t.rest ++ [0]) t.digits.length =
      (t.digits ++ (t.rest ++ [0])).drop (if startsSignedMark t.rest then 1 else 0) := by
  have hdrop : ∀ k, (t.body ++ [0]).drop ((t.sign ++ t.zeros).length + k) =
      (t.digits ++ (t.rest ++ [0])).drop k := by
    intro k
    rw [Numeral.IsPlain.body_eq, ← append_assoc, drop_length_add_append]
  rw [backFrom, ← hdrop]
  congr 1
  rw [pastSign]
  split
  next hmark =>
    match hrest : t.rest, hmark with
    | e :: c :: after, _ =>
      simp only [Numeral.body, hrest, length_append, length_cons, tail_cons, length_nil]
      omega
  · simp only [Numeral.body, length_append, length_cons, length_nil]
    omega

theorem pastSign_length (rest : List UInt8) : (pastSign rest ++ [0]).length ≠ 1 ↔ rest ≠ [] := by
  match rest with
  | [] => simp [pastSign, startsSignedMark]
  | [b] => simp [pastSign, startsSignedMark]
  | b :: c :: after =>
    rw [pastSign]
    split <;> simp

theorem startsSignedMark_cons {s : List UInt8} (h : startsSignedMark s = true) :
    ∃ e after, s = e :: after ∧ (e = byte 'e' ∨ e = byte 'E') := by
  rcases s with _ | ⟨e, _ | ⟨c, after⟩⟩
  · cases h
  · cases h
  · rw [startsSignedMark, Bool.and_eq_true, isExponentMark, Bool.or_eq_true, beq_iff_eq,
      beq_iff_eq] at h
    exact ⟨e, _, rfl, h.1⟩

/-- What the comparison with `long_min_digits` says. -/
theorem cmp_iff (size : LongSize) (h : t.IsPlain)
    (hlength : t.digits.length = size.maxLengthOfLong - 1) {cmp : Ordering}
    (hcmp : strcmp (backFrom (t.body ++ [0]) (pastSign t.rest ++ [0]) t.digits.length)
      (size.longMinDigits ++ [0]) = cmp) :
    (cmp = .lt ∨ (cmp = .eq ∧ (t.body ++ [0]).head? = some (byte '-'))) ↔ t.taken size := by
  have hmin : ∀ b ∈ size.longMinDigits, isDigit b = true :=
    forall_mem_of_all (by cases size <;> decide)
  have hminValue : decimalValue size.longMinDigits 0 = size.longMax + 1 := by
    cases size <;> decide
  have hminLength : size.longMinDigits.length = size.maxLengthOfLong - 1 := by
    cases size <;> decide
  obtain ⟨init, hsplit, hinitValue, hinitLength⟩ :
      ∃ init : List UInt8, size.longMinDigits = init ++ [byte '8'] ∧
        decimalValue init 0 = (size.longMax + 1) / 10 ∧
        init.length = size.maxLengthOfLong - 2 :=
    ⟨size.longMinDigits.dropLast, by cases size <;> decide⟩
  have hinit : ∀ b ∈ init, isDigit b = true := fun b hb => hmin b (by
    rw [hsplit]
    exact mem_append_left _ hb)
  have htaken : t.taken size ↔ if startsSignedMark t.rest then
      decimalValue t.digits.tail 0 < (size.longMax + 1) / 10
    else decimalValue t.digits 0 < size.longMax + 1 ∨
      decimalValue t.digits 0 = size.longMax + 1 ∧ t.rest.headD 0 = 0 ∧ t.sign = [byte '-'] := by
    constructor
    · rintro (hfew | ⟨-, htaken⟩)
      · omega
      · exact htaken
    · exact fun htaken => .inr ⟨hlength, htaken⟩
  rw [backFrom_body] at hcmp
  rw [htaken, h.head_minus, ← hcmp]
  split
  next hmark =>
    -- The pointer is one byte too far: the first digit is not compared, a letter is.
    have hne : t.digits ≠ [] := by
      rintro hnil
      rw [hnil, length_nil] at hlength
      cases size <;> simp [LongSize.maxLengthOfLong] at hlength
    have htail : ∀ b ∈ t.digits.tail, isDigit b = true :=
      fun b hb => h.digits b (mem_of_mem_tail hb)
    have htailLength : t.digits.tail.length = init.length := by
      rw [length_tail, hlength, hinitLength]
      omega
    have hdrop : (t.digits ++ (t.rest ++ [0])).drop 1 = t.digits.tail ++ (t.rest ++ [0]) := by
      rw [drop_one, tail_append_of_ne_nil hne]
    have hletter : strcmp (t.rest ++ [0]) [byte '8', 0] = .gt := by
      obtain ⟨e, after, hrest, hexponent⟩ := startsSignedMark_cons hmark
      rw [hrest]
      rcases hexponent with rfl | rfl
      · rfl
      · rfl
    rw [hdrop, hsplit, append_assoc, singleton_append,
      strcmp_digits htail hinit htailLength, hletter, hinitValue]
    simp [Ordering.then_eq_lt, compare_lt_iff_lt]
  next hmark =>
    have hnul : strcmp (t.rest ++ [0]) [0] = if t.rest.headD 0 = 0 then .eq else .gt := by
      cases t.rest with
      | nil => rfl
      | cons b after =>
        rw [cons_append, strcmp, headD_cons]
        split
        next hb =>
          have hpos : 0 < b.toNat := by
            rw [Nat.pos_iff_ne_zero]
            exact fun hzero => hb (UInt8.toNat_inj.mp hzero)
          exact compare_gt_iff_gt.mpr hpos
        next hb =>
          rw [not_not] at hb
          rw [if_pos hb, if_pos hb]
    rw [drop_zero, strcmp_digits h.digits hmin (hlength.trans hminLength.symm), hnul, hminValue]
    split
    next hzero =>
      simp only [hzero, Ordering.then_eq, compare_lt_iff_lt, compare_eq_iff_eq, true_and]
    next hzero =>
      simp only [hzero, Ordering.then_eq_lt, Ordering.then_eq_eq, compare_lt_iff_lt, reduceCtorEq,
        false_and, and_false, or_false]

theorem isNumericStringEx_numeral (size : LongSize) (h : t.IsPlain) :
    isNumericStringEx size strtod hexStrtod p allowErrors t.text =
      if t.rest ≠ [] ∧ allowErrors = 0 then
        ⟨.notNumeric, none, none, if p.oflowInfo then
            some (if size.maxLengthOfLong ≤ t.digits.length then overflowSide (t.body ++ [0])
              else 0)
          else none, false⟩ else if t.taken size then
        ⟨.isLong, if p.lval then some (strtol size 10 (t.body ++ [0])) else none, none,
          if p.oflowInfo then some 0 else none, decide (t.rest ≠ []) && allowErrors == -1⟩ else
        ⟨.isDouble, none, if p.dval then some (strtod (t.body ++ [0])) else none,
          if p.oflowInfo then some (overflowSide (t.body ++ [0])) else none,
          decide (t.rest ≠ []) && allowErrors == -1⟩ := by
  have hrest := fun digits stops =>
    @checkDigits_rest size stops .isLong _ h.behind h.point h.exponent digits
  rw [isNumericStringEx_text strtod hexStrtod p allowErrors size h]
  by_cases hmany : size.maxLengthOfLong ≤ t.digits.length
  · have htaken : ¬t.taken size := by
      rintro (hfew | ⟨hlength, -⟩) <;> cases size <;>
        simp only [LongSize.maxLengthOfLong] at * <;> omega
    rw [if_neg htaken, if_pos hmany]
    obtain ⟨ptr, digits, hscan, hptr⟩ : ∃ ptr digits,
        checkDigits size 10 (p.dval || allowErrors == 1) 0 .isLong
            (t.digits ++ (t.rest ++ [0])) 0 = ⟨.isLong, ptr, digits, false⟩ ∧
          size.maxLengthOfLong ≤ digits ∧
          (p.dval = false → allowErrors ≠ 1 → ptr = pastSign t.rest ++ [0]) := by
      by_cases hstops : (p.dval || allowErrors == 1) = true
      · have hbelow : 0 < size.maxLengthOfLong := by cases size <;> decide
        rw [hstops, checkDigits_limit h.digits _ hbelow (by omega)]
        refine ⟨_, _, rfl, le_refl _, fun hdval hallow => ?_⟩
        simp [hdval, hallow] at hstops
      · rw [checkDigits_digits h.digits _ fun hs => absurd hs hstops, hrest]
        exact ⟨_, _, rfl, by omega, fun _ _ => rfl⟩
    rw [hscan, afterDigits, if_neg Bool.false_ne_true, if_pos rfl, if_pos hptr.1, processDouble]
    by_cases hdval : p.dval = true
    · have hmore : decide ((t.rest ++ [0]).length ≠ 1) = decide (t.rest ≠ []) := by
        simp
      rw [if_pos hdval, if_pos hdval, h.strtodEnd_body, finish]
      simp only [hmore, decide_eq_true_eq, reduceCtorEq, if_false]
    · rw [Bool.not_eq_true] at hdval
      have hmore : ∀ a : Int, a ≠ 1 → allowErrors = a →
          decide (ptr.length ≠ 1) = decide (t.rest ≠ []) := by
        rintro a ha rfl
        rw [hptr.2 hdval ha, decide_eq_decide, pastSign_length]
      rw [hdval, if_neg Bool.false_ne_true, if_neg Bool.false_ne_true, finish]
      by_cases hallow : allowErrors = 1
      · subst hallow
        simp
      · simp only [hmore allowErrors hallow rfl, decide_eq_true_eq, reduceCtorEq, if_false]
  · have hscan : checkDigits size 10 (p.dval || allowErrors == 1) 0 .isLong
        (t.digits ++ (t.rest ++ [0])) 0 =
        ⟨.isLong, pastSign t.rest ++ [0], t.digits.length, false⟩ := by
      rw [checkDigits_digits h.digits _ fun _ => by omega, hrest, zero_add]
    have hafter : afterDigits size strtod hexStrtod p 10 (t.body ++ [0])
        ⟨.isLong, pastSign t.rest ++ [0], t.digits.length, false⟩ =
        ⟨.isLong, pastSign t.rest ++ [0], t.digits.length, none, 0⟩ := by
      rw [afterDigits, if_neg Bool.false_ne_true, if_pos rfl, if_neg hmany]
    have hmore : decide ((pastSign t.rest ++ [0]).length ≠ 1) = decide (t.rest ≠ []) := by
      rw [decide_eq_decide, pastSign_length]
    rw [hscan, hafter, finish]
    simp only [hmore, decide_eq_true_eq, if_true, if_neg hmany]
    congr 1
    by_cases hlast : t.digits.length = size.maxLengthOfLong - 1
    · have hcmp := cmp_iff size h hlast rfl
      by_cases htaken : t.taken size
      · rw [if_pos htaken, if_neg fun hc => hc.2 (hcmp.mpr htaken)]
      · rw [if_neg htaken, if_pos ⟨hlast, fun hc => htaken (hcmp.mp hc)⟩]
    · have htaken : t.taken size := .inl (by omega)
      rw [if_pos htaken, if_neg fun hc => hlast hc.1]

end Number

namespace Numeral

/-- What the function should say of the number: a `long` if it is one, and otherwise the side
on which it leaves the range. -/
def Classified {D : Type} (size : LongSize) (p : Pointers) (t : Numeral)
    (r : NumericResult D) : Prop :=
  if size.IsLong t.value then r.type = .isLong ∧ (p.lval → r.lval = some t.value)
  else r.type = .isDouble ∧ (p.oflowInfo → r.oflowInfo = some (if 0 < t.value then 1 else -1))

/-- The bytes behind the number do not mislead the comparison of its digits: the least `long`
is not followed by another byte, and in front of `e+` or `e-` the digits but for the first,
which are compared in place of all of them, are small if the number is. -/
def ReadRight (size : LongSize) (t : Numeral) : Prop :=
  t.digits.length = size.maxLengthOfLong - 1 → if startsSignedMark t.rest then
      (size.IsLong t.value ↔ decimalValue t.digits.tail 0 < (size.longMax + 1) / 10)
    else t.value = size.longMin → t.rest.headD 0 = 0

variable {t : Numeral}

theorem value_isLong (size : LongSize) (t : Numeral) :
    size.IsLong t.value ↔ decimalValue t.digits 0 < size.longMax + 1 ∨
      decimalValue t.digits 0 = size.longMax + 1 ∧ t.sign = [byte '-'] := by
  have hmin := size.longMin_eq
  rw [LongSize.IsLong, value]
  split
  next hneg =>
    simp only [hneg, and_true]
    omega
  next hpos =>
    simp only [hpos, and_false, or_false]
    omega

theorem few_isLong (size : LongSize) (h : t.IsPlain)
    (hfew : t.digits.length < size.maxLengthOfLong - 1) : size.IsLong t.value := by
  have hlt := decimalValue_lt h.digits
  have hpow : (10 : Nat) ^ t.digits.length ≤ 10 ^ (size.maxLengthOfLong - 2) :=
    Nat.pow_le_pow_right (by decide) (by omega)
  have hmax : 10 ^ (size.maxLengthOfLong - 2) ≤ size.longMax := by cases size <;> decide
  rw [value_isLong]
  omega

theorem many_not_isLong (size : LongSize) (h : t.IsPlain)
    (hmany : size.maxLengthOfLong ≤ t.digits.length) : ¬size.IsLong t.value := by
  have hmax : size.longMax + 1 < 1 * 10 ^ (size.maxLengthOfLong - 1) := by cases size <;> decide
  rw [value_isLong]
  match hdigits : t.digits, hmany with
  | [], hmany => cases size <;> simp [LongSize.maxLengthOfLong] at hmany
  | b :: l, hmany =>
    have hall := h.digits
    have hhead := h.head
    rw [hdigits] at hall hhead
    have hb : 1 ≤ digitValue b := by
      by_contra hzero
      have hspec := (digitValue_spec (hall b mem_cons_self)).2
      rw [show digitValue b = 0 by omega] at hspec
      exact hhead (by rw [← hspec]; rfl)
    have hlow := (decimalValue_bounds hall).1
    rw [length_cons] at hmany
    have hpow : (10 : Nat) ^ (size.maxLengthOfLong - 1) ≤ 10 ^ l.length :=
      Nat.pow_le_pow_right (by decide) (by omega)
    have hmul := Nat.mul_le_mul hb hpow
    omega

/-- The digits are taken for a `long` exactly if the number is one, where nothing misleads the
comparison. -/
theorem readRight_iff (size : LongSize) (h : t.IsPlain) :
    t.ReadRight size ↔ (t.taken size ↔ size.IsLong t.value) := by
  rcases Nat.lt_trichotomy t.digits.length (size.maxLengthOfLong - 1) with hlt | heq | hgt
  · have hlong := few_isLong size h hlt
    have htaken : t.taken size := .inl hlt
    exact ⟨fun _ => iff_of_true htaken hlong, fun _ heq => absurd heq (by omega)⟩
  · have htaken : t.taken size ↔ _ := or_iff_right (by omega)
    rw [htaken, ReadRight, value_isLong]
    simp only [heq, true_and, forall_const]
    split
    · exact iff_comm
    · have hmin : t.value = size.longMin ↔
          decimalValue t.digits 0 = size.longMax + 1 ∧ t.sign = [byte '-'] := by
        rw [size.longMin_eq, value]
        split
        next hneg =>
          simp only [hneg, and_true]
          omega
        next hpos =>
          simp only [hpos, and_false, iff_false]
          omega
      rw [hmin]
      constructor
      · intro hright
        refine or_congr_right ⟨fun hc => ⟨hc.1, hc.2.2⟩, fun hc => ⟨hc.1, hright hc, hc.2⟩⟩
      · rintro hiff ⟨hvalue, hneg⟩
        rcases hiff.mpr (.inr ⟨hvalue, hneg⟩) with hless | hc
        · omega
        · exact hc.2.1
  · have hlong := many_not_isLong size h (by omega)
    have htaken : ¬t.taken size := by
      rintro (hfew | ⟨heq, -⟩) <;> omega
    exact ⟨fun _ => iff_of_false htaken hlong, fun _ heq => absurd heq (by omega)⟩

/-- A string that starts with a decimal integer is classified by it, whatever follows, but for
the two kinds of bytes that mislead the comparison of the digits.  With `allow_errors` of 0
nothing may follow. -/
theorem isNumericStringEx_classifies {D : Type} (size : LongSize)
    (strtod hexStrtod : List UInt8 → D) (p : Pointers) (allowErrors : Int) (h : t.IsPlain) :
    (allowErrors = 0 → t.rest ≠ [] →
      (isNumericStringEx size strtod hexStrtod p allowErrors t.text).type = .notNumeric) ∧
    ((allowErrors = 0 → t.rest = []) →
      (t.Classified size p (isNumericStringEx size strtod hexStrtod p allowErrors t.text) ↔
        t.ReadRight size)) := by
  rw [isNumericStringEx_numeral strtod hexStrtod p allowErrors size h, readRight_iff size h]
  constructor
  · intro hallow hrest
    rw [if_pos ⟨hrest, hallow⟩]
  · intro hallowed
    rw [if_neg fun hcond => hcond.1 (hallowed hcond.2), Classified]
    by_cases htaken : t.taken size
    · rw [if_pos htaken]
      by_cases hlong : size.IsLong t.value
      · have hstrtol : strtol size 10 (t.body ++ [0]) = t.value := by
          rw [h.strtol_body, min_eq_right hlong.2, max_eq_right hlong.1]
        rw [if_pos hlong]
        refine iff_of_true ⟨rfl, fun hp => ?_⟩ (iff_of_true htaken hlong)
        simp only [hp, if_true, hstrtol]
      · rw [if_neg hlong]
        refine iff_of_false (fun hclass => ?_) fun hiff => hlong (hiff.mp htaken)
        cases hclass.1
    · rw [if_neg htaken]
      by_cases hlong : size.IsLong t.value
      · rw [if_pos hlong]
        refine iff_of_false (fun hclass => ?_) fun hiff => htaken (hiff.mpr hlong)
        cases hclass.1
      · rw [if_neg hlong]
        refine iff_of_true ⟨rfl, fun hp => ?_⟩ (iff_of_false htaken hlong)
        rw [value_isLong] at hlong
        simp only [hp, if_true, overflowSide, h.head_minus, value]
        split
        · rw [if_neg (by omega)]
        · rw [if_pos (by omega)]

instance {D : Type} [DecidableEq D] (size : LongSize) (p : Pointers) (t : Numeral)
    (r : NumericResult D) : Decidable (t.Classified size p r) :=
  inferInstanceAs (Decidable (if size.IsLong t.value then
      r.type = .isLong ∧ (p.lval → r.lval = some t.value) else r.type = .isDouble ∧
      (p.oflowInfo → r.oflowInfo = some (if 0 < t.value then 1 else -1))))

def ofText (space sign zeros digits rest : String) : Numeral where
  space := space.toList.map byte
  sign := sign.toList.map byte
  zeros := zeros.toList.map byte
  digits := digits.toList.map byte
  rest := rest.toList.map byte

/-- A number with all that may stand around it. -/
def priced : Numeral :=
  ofText " \t" "-" "00" "42" "e+ and more"

theorem priced_isPlain : priced.IsPlain where
  space := forall_mem_of_all (by decide)
  sign := .inr (.inl rfl)
  zeros := forall_mem_of_all (by decide)
  digits := forall_mem_of_all (by decide)
  head := by decide
  ne_nil := by decide
  behind := by decide
  point := by decide
  exponent := by decide
  hex := fun hsign => by cases hsign

theorem isNumericStringEx_classifies_priced : priced.Classified .eight ⟨true, true, true⟩
      (isNumericStringEx .eight (strtol .eight 10) (strtol .eight 16) ⟨true, true, true⟩ 1
        priced.text) := by
  have hclass := (isNumericStringEx_classifies .eight (strtol .eight 10) (strtol .eight 16)
    ⟨true, true, true⟩ 1 priced_isPlain).2 fun hzero => by cases hzero
  exact hclass.mpr fun hlong => absurd hlong (by decide)

/-- With `allow_errors` of 0 no number is found in front of other bytes.  The least `long` is
taken for a `double` if a blank follows it, and a number that is too large for a `long` in
front of `e+`. -/
theorem followed_not_classified :
    (¬(ofText "" "" "" "12" "abc").Classified .eight ⟨true, true, true⟩
      (isNumericStringEx .eight (strtol .eight 10) (strtol .eight 16) ⟨true, true, true⟩ 0
        (ofText "" "" "" "12" "abc").text)) ∧
    (¬(ofText "" "-" "" "9223372036854775808" " ").Classified .eight ⟨true, true, true⟩
      (isNumericStringEx .eight (strtol .eight 10) (strtol .eight 16) ⟨true, true, true⟩ 1
        (ofText "" "-" "" "9223372036854775808" " ").text)) ∧
    ¬(ofText "" "" "" "9300000000000000000" "e+").Classified .eight ⟨true, true, true⟩
      (isNumericStringEx .eight (strtol .eight 10) (strtol .eight 16) ⟨true, true, true⟩ 1
        (ofText "" "" "" "9300000000000000000" "e+").text) := by
  decide +kernel

end Numeral

end NumericString

end PhpEngine

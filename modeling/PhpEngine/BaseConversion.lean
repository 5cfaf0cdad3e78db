/-
Numbers in the bases from two to thirty-six (ext/standard/math.c): `_php_math_basetozval`
reads the digits of a text, `_php_math_longtobase` writes those of a `long`.
-/
import PhpEngine.NumericKeys
import PhpEngine.PowFunction
import Mathlib.Data.Nat.Digits.Defs

namespace PhpEngine.BaseConversion

open List

/-- The `zval` that is converted. -/
inductive Source where
  | long (lval : Int)
  | string (strval : List UInt8)
  | other
deriving DecidableEq, Repr

/-- The digit that `c` is in a base, where it is one. -/
def digitOf (base : Nat) (c : UInt8) : Option Nat :=
  let c :=
    if byte '0' ≤ c ∧ c ≤ byte '9' then some (c - byte '0')
    else if byte 'A' ≤ c ∧ c ≤ byte 'Z' then some (c - (byte 'A' - 10))
    else if byte 'a' ≤ c ∧ c ≤ byte 'z' then some (c - (byte 'a' - 10))
    else none
  (c.map UInt8.toNat).filter (· < base)

/-- The integer that the digits of a text denote. -/
def denoted (base : Nat) (s : List UInt8) : Nat :=
  Nat.ofDigits base (s.filterMap (digitOf base)).reverse

section Conversions

variable {D : Type} (size : LongSize) (ofLong : Int → D) (mulAdd : D → Nat → Nat → D) (base : Nat)

/-- A digit, where `mode` is 0 and the value in `num`, or 1 and the value in `fnum`. -/
def addDigit : Number D → Nat → Number D
  | .long num, c =>
    if num < (size.longMax / base : Nat) ∨
        num = (size.longMax / base : Nat) ∧ c ≤ size.longMax % base then .long (num * base + c)
    else .double (mulAdd (ofLong num) base c)
  | .double fnum, c => .double (mulAdd fnum base c)

/-- The loop of `_php_math_basetozval`. -/
def readDigits : List UInt8 → Number D → Number D
  | [], value => value
  | c :: s, value =>
    match digitOf base c with
    | some d => readDigits s (addDigit size ofLong mulAdd base value d)
    | none => readDigits s value

/-- `_php_math_basetozval`, with `none` where it is `FAILURE`. -/
def phpMathBasetozval (arg : Source) : Option (Number D) :=
  match arg with
  | .string s =>
    if base < 2 ∨ 36 < base then none
    else some (readDigits size ofLong mulAdd base s (.long 0))
  | _ => none

def digits : List UInt8 :=
  "0123456789abcdefghijklmnopqrstuvwxyz".toList.map byte

/-- The `do` loop with `room` bytes between `buf` and `ptr`. -/
def writeDigits : Nat → Nat → List UInt8 → List UInt8
  | 0, _, written => written
  | room + 1, value, written =>
    let written := digits.getD (value % base) 0 :: written
    if value / base = 0 then written else writeDigits room (value / base) written

/-- `_php_math_longtobase` -/
def phpMathLongtobase (arg : Source) : List UInt8 :=
  match arg with
  | .long lval =>
    if base < 2 ∨ 36 < base then [] else writeDigits base size.bits (size.ofLong lval) []
  | _ => []

end Conversions

section Digits

variable {base : Nat}

theorem digitOf_lt {c : UInt8} {d : Nat} (h : digitOf base c = some d) : d < base := by
  simpa using (Option.filter_eq_some_iff.mp h).2

theorem digitOf_digits (hbase : base ≤ 36) {d : Nat} (hd : d < base) :
    digitOf base (digits.getD d 0) = some d := by
  have hread : ∀ d < 36, digitOf 36 (digits.getD d 0) = some d := by
    decide
  have h := Option.filter_eq_some_iff.mp (hread d (by omega))
  exact Option.filter_eq_some_iff.mpr ⟨h.1, by simpa using hd⟩

/-- The digits of a text one after the other. -/
def joined (base : Nat) (s : List UInt8) (num : Nat) : Nat :=
  (s.filterMap (digitOf base)).foldl (fun num d => num * base + d) num

theorem joined_zero (s : List UInt8) : joined base s 0 = denoted base s := by
  rw [joined, denoted, Nat.ofDigits_eq_foldr, foldr_reverse]
  congr 1
  funext num d
  simp [Nat.mul_comm, Nat.add_comm]

theorem le_joined (hbase : 0 < base) (s : List UInt8) (num : Nat) : num ≤ joined base s num := by
  rw [joined]
  induction s.filterMap (digitOf base) generalizing num with
  | nil => exact le_rfl
  | cons d ds ih =>
    exact (Nat.le_mul_of_pos_right num hbase).trans ((Nat.le_add_right _ d).trans (ih _))

theorem joined_writeDigits (hbase : 2 ≤ base) (hle : base ≤ 36) {room value : Nat}
    (hvalue : value < base ^ room) (written : List UInt8) :
    joined base (writeDigits base room value written) 0 = joined base written value := by
  induction room generalizing value written with
  | zero =>
    have hzero : value = 0 := by
      simpa using hvalue
    rw [hzero, writeDigits]
  | succ room ih =>
    have hdigit := digitOf_digits hle (Nat.mod_lt value (by omega))
    have hcons (num : Nat) : joined base (digits.getD (value % base) 0 :: written) num =
        joined base written (num * base + value % base) := by
      rw [joined, filterMap_cons_some hdigit, foldl_cons, joined]
    have hsplit := Nat.div_add_mod' value base
    rw [writeDigits]
    split
    next hlast => rw [hcons, ← hlast, hsplit]
    next =>
      have hless : value / base < base ^ room :=
        Nat.div_lt_of_lt_mul (by rwa [← Nat.pow_succ'])
      rw [ih hless, hcons, hsplit]

end Digits

section Exactness

variable {size : LongSize} {D : Type} {ofLong : Int → D} {mulAdd : D → Nat → Nat → D} {base : Nat}

/-- `cutoff` and `cutlim` tell exactly whether the next value is a `long`. -/
theorem cutoff_iff (limit num : Nat) {d : Nat} (hd : d < base) :
    num < limit / base ∨ num = limit / base ∧ d ≤ limit % base ↔ num * base + d ≤ limit := by
  have hsplit := Nat.div_add_mod' limit base
  constructor
  · rintro (hlt | ⟨rfl, hle⟩)
    · have hmul := Nat.mul_le_mul_right base (Nat.succ_le_of_lt hlt)
      rw [Nat.succ_mul] at hmul
      omega
    · omega
  · intro hle
    have hnum : num ≤ limit / base := (Nat.le_div_iff_mul_le (by omega)).mpr (by omega)
    rcases Nat.lt_or_eq_of_le hnum with hlt | rfl
    · exact .inl hlt
    · exact .inr ⟨rfl, by omega⟩

theorem readDigits_double (s : List UInt8) (fnum : D) (n : Int) :
    readDigits size ofLong mulAdd base s (.double fnum) ≠ .long n := by
  induction s generalizing fnum with
  | nil => simp [readDigits]
  | cons c s ih =>
    rw [readDigits]
    split
    · exact ih _
    · exact ih _

theorem readDigits_long_iff (hbase : 0 < base) (s : List UInt8) {num : Nat}
    (hnum : num ≤ size.longMax) (n : Int) :
    readDigits size ofLong mulAdd base s (.long num) = .long n ↔
      joined base s num ≤ size.longMax ∧ n = joined base s num := by
  induction s generalizing num with
  | nil =>
    have hjoined : joined base [] num = num := rfl
    rw [hjoined, readDigits, Number.long.injEq]
    exact ⟨fun h => ⟨hnum, h.symm⟩, fun h => h.2.symm⟩
  | cons c s ih =>
    rw [readDigits]
    split
    next d hdigit =>
      have hjoined : joined base (c :: s) num = joined base s (num * base + d) := by
        rw [joined, filterMap_cons_some hdigit, foldl_cons, joined]
      have hcutoff := cutoff_iff size.longMax num (digitOf_lt hdigit)
      rw [hjoined, addDigit]
      norm_cast
      split
      next hfits => exact ih (hcutoff.mp hfits)
      next hfits =>
        have hle := le_joined hbase s (num * base + d)
        have hover := mt hcutoff.mpr hfits
        exact ⟨fun h => absurd h (readDigits_double s _ n), fun h => by omega⟩
    next hnone =>
      have hjoined : joined base (c :: s) num = joined base s num := by
        rw [joined, filterMap_cons_none hnone, joined]
      rw [hjoined]
      exact ih hnum

/-- A text is read as the `long` its digits denote, exactly where that is one, and the text
written for a `long` that is not negative is read as that `long`. -/
theorem baseConversion_exact (hlow : 2 ≤ base) (hhigh : base ≤ 36) :
    (∀ s, (phpMathBasetozval size ofLong mulAdd base (.string s)).isSome ∧
      ∀ n, phpMathBasetozval size ofLong mulAdd base (.string s) = some (.long n) ↔
        denoted base s ≤ size.longMax ∧ n = denoted base s) ∧
    ∀ n, 0 ≤ n → size.IsLong n → phpMathBasetozval size ofLong mulAdd base
        (.string (phpMathLongtobase size base (.long n))) = some (.long n) := by
  have hbase : ¬(base < 2 ∨ 36 < base) := by
    omega
  have hread (s : List UInt8) (n : Int) :
      phpMathBasetozval size ofLong mulAdd base (.string s) = some (.long n) ↔
        denoted base s ≤ size.longMax ∧ n = denoted base s := by
    rw [phpMathBasetozval, if_neg hbase, Option.some.injEq, ← joined_zero]
    exact readDigits_long_iff (by omega) s (Nat.zero_le _) n
  refine ⟨fun s => ⟨by rw [phpMathBasetozval, if_neg hbase]; rfl, hread s⟩, fun n hn hlong => ?_⟩
  have hpow : n.toNat < base ^ size.bits :=
    calc
      n.toNat < 2 ^ size.bits := by
        rw [← LongSize.ofLong_of_nonneg hn hlong]
        exact size.ofLong_lt n
      _ ≤ base ^ size.bits := Nat.pow_le_pow_left hlow _
  have hdenoted : denoted base (phpMathLongtobase size base (.long n)) = n.toNat := by
    rw [phpMathLongtobase, if_neg hbase, LongSize.ofLong_of_nonneg hn hlong, ← joined_zero,
      joined_writeDigits hlow hhigh hpow, joined, filterMap_nil, foldl_nil]
  have hmax := hlong.2
  rw [hread, hdenoted]
  omega

theorem baseConversion_exact_hex :
    phpMathBasetozval .four id (fun num base c => num * base + c) 16
      (.string (phpMathLongtobase .four 16 (.long 255))) = some (.long 255) :=
  (baseConversion_exact (by decide) (by decide)).2 255 (by decide) (by decide)

end Exactness

end PhpEngine.BaseConversion

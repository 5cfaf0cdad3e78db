/-
`pow_function` on numbers.  The power of two longs is taken by repeated squaring and given
up for a `double` at the first product that does not fit.
-/
import PhpEngine.LongSize
import Mathlib.Tactic.Linarith
import Mathlib.Tactic.Ring

namespace PhpEngine

/-- A number with its type, `IS_LONG` or `IS_DOUBLE`. -/
inductive Number (D : Type) where
  | long (lval : Int)
  | double (dval : D)
deriving DecidableEq, Repr

/-- What `pow_function` uses of the floating point arithmetic. -/
structure Doubles (D : Type) where
  ofLong : Int → D
  mul : D → D → D
  pow : D → D → D

namespace PowFunction

variable {D : Type} (doubles : Doubles D)
  -- `ZEND_SIGNED_MULTIPLY_LONG`, the product or its `dval` where `usedval` is set
  (multiply : Int → Int → Number D)

/-- `while (i >= 1)` -/
def powLoop (l1 l2 : Int) (i : Nat) : Number D :=
  if i = 0 then .long l1
  else if i % 2 ≠ 0 then
    match multiply l1 l2 with
    | .double dval =>
      .double (doubles.mul dval (doubles.pow (doubles.ofLong l2) (doubles.ofLong (i - 1))))
    | .long l1 => powLoop l1 l2 (i - 1)
  else
    match multiply l2 l2 with
    | .double dval =>
      .double (doubles.mul (doubles.ofLong l1) (doubles.pow dval (doubles.ofLong (i / 2))))
    | .long l2 => powLoop l1 l2 (i / 2)
termination_by i

def powFunction : Number D → Number D → Number D
  | .long op1, .long op2 =>
    if 0 ≤ op2 then
      if op2 = 0 then .long 1
      else if op1 = 0 then .long 0
      else powLoop doubles multiply 1 op1 op2.toNat
    else .double (doubles.pow (doubles.ofLong op1) (doubles.ofLong op2))
  | .long op1, .double op2 => .double (doubles.pow (doubles.ofLong op1) op2)
  | .double op1, .long op2 => .double (doubles.pow op1 (doubles.ofLong op2))
  | .double op1, .double op2 => .double (doubles.pow op1 op2)

/-- Overflow is reported where the product of two longs is no long, and only there. -/
def ExactOverflow (size : LongSize) : Prop :=
  ∀ a b, size.IsLong a → size.IsLong b → if size.IsLong (a * b) then multiply a b = .long (a * b)
    else ∃ dval, multiply a b = .double dval

section Ranges

variable {size : LongSize} {a b : Int}

theorem sq_ne_longMin (size : LongSize) (a : Int) : a * a ≠ -size.longMin := by
  have hsq : a.natAbs * a.natAbs = a * a := by
    rw [← Nat.cast_mul, Int.natAbs_mul_self]
  cases size with
  | four =>
    have hmin : -LongSize.four.longMin = 2147483648 := rfl
    rcases Nat.lt_or_ge a.natAbs 46341 with hlt | hge
    · have := Nat.mul_le_mul (Nat.le_of_lt_succ hlt) (Nat.le_of_lt_succ hlt)
      omega
    · have := Nat.mul_le_mul hge hge
      omega
  | eight =>
    have hmin : -LongSize.eight.longMin = 9223372036854775808 := rfl
    rcases Nat.lt_or_ge a.natAbs 3037000500 with hlt | hge
    · have := Nat.mul_le_mul (Nat.le_of_lt_succ hlt) (Nat.le_of_lt_succ hlt)
      omega
    · have := Nat.mul_le_mul hge hge
      omega

theorem longMax_add_one (size : LongSize) : (size.longMax : Int) + 1 = -size.longMin := by
  cases size <;> rfl

/-- A factor that is at least one does not bring a number back into the range. -/
theorem not_isLong_mul (h : ¬size.IsLong a) (hb : 1 ≤ b) : ¬size.IsLong (a * b) := by
  rw [LongSize.IsLong, not_and_or, not_le, not_le] at h ⊢
  have hmax := longMax_add_one size
  rcases h with hlow | hhigh
  · left
    nlinarith
  · right
    nlinarith

theorem not_isLong_mul_sq (h : ¬size.IsLong (a * a)) (hb : b ≠ 0) : ¬size.IsLong (b * (a * a)) := by
  have hmax := longMax_add_one size
  have hne := sq_ne_longMin size a
  have hbig : -size.longMin < a * a := by
    rw [LongSize.IsLong, not_and_or, not_le, not_le] at h
    have := mul_self_nonneg a
    omega
  rw [LongSize.IsLong, not_and_or, not_le, not_le]
  rcases lt_or_gt_of_ne hb with hneg | hpos
  · left
    nlinarith
  · right
    nlinarith

end Ranges

section Power

variable {doubles} {multiply} {size : LongSize}

/-- The loop keeps the product `l1 * l2 ^ i`.  It is left early where that is no long. -/
theorem powLoop_spec (doubles : Doubles D) (i : Nat) (hmul : ExactOverflow multiply size)
    {l1 l2 : Int} (h1 : size.IsLong l1) (h2 : size.IsLong l2) (hne1 : l1 ≠ 0) (hne2 : l2 ≠ 0) :
    if size.IsLong (l1 * l2 ^ i) then
      powLoop doubles multiply l1 l2 i = .long (l1 * l2 ^ i)
    else ∃ dval, powLoop doubles multiply l1 l2 i = .double dval := by
  induction i using Nat.strong_induction_on generalizing l1 l2 with
  | _ i ih =>
    rcases Nat.eq_zero_or_pos i with rfl | hpos
    · rw [pow_zero, mul_one, if_pos h1, powLoop, if_pos rfl]
    · have hne : ¬i = 0 := by omega
      rcases Nat.mod_two_eq_zero_or_one i with heven | hodd
      · have hstep := hmul l2 l2 h2 h2
        have hpow : l1 * l2 ^ i = l1 * (l2 * l2) ^ (i / 2) := by
          rw [← pow_two, ← pow_mul, Nat.mul_div_cancel' (Nat.dvd_of_mod_eq_zero heven)]
        rw [powLoop, if_neg hne, if_neg (not_not.mpr heven), hpow]
        by_cases hfit : size.IsLong (l2 * l2)
        · rw [if_pos hfit] at hstep
          rw [hstep]
          exact ih (i / 2) (by omega) h1 hfit hne1 (mul_ne_zero hne2 hne2)
        · rw [if_neg hfit] at hstep
          obtain ⟨dval, hdval⟩ := hstep
          obtain ⟨k, hk⟩ : ∃ k, i / 2 = k + 1 := ⟨i / 2 - 1, by omega⟩
          have hout : ¬size.IsLong (l1 * (l2 * l2) ^ (i / 2)) := by
            rw [hk, pow_succ, ← mul_assoc]
            apply not_isLong_mul_sq hfit
            exact mul_ne_zero hne1 (pow_ne_zero _ (mul_ne_zero hne2 hne2))
          rw [if_neg hout, hdval]
          exact ⟨_, rfl⟩
      · have hstep := hmul l1 l2 h1 h2
        have hpow : l1 * l2 ^ i = l1 * l2 * l2 ^ (i - 1) := by
          rw [mul_assoc, ← pow_succ', Nat.sub_add_cancel hpos]
        have hodd' : i % 2 ≠ 0 := by omega
        rw [powLoop, if_neg hne, if_pos hodd', hpow]
        by_cases hfit : size.IsLong (l1 * l2)
        · rw [if_pos hfit] at hstep
          rw [hstep]
          exact ih (i - 1) (by omega) hfit h2 (mul_ne_zero hne1 hne2) hne2
        · rw [if_neg hfit] at hstep
          obtain ⟨dval, hdval⟩ := hstep
          -- The exponent that is left is even, so that the sign is settled.
          have hrest : 1 ≤ l2 ^ (i - 1) := by
            have heven : Even (i - 1) := (Nat.even_iff).mpr (by omega)
            have := heven.pow_pos hne2
            omega
          rw [if_neg (not_isLong_mul hfit hrest), hdval]
          exact ⟨_, rfl⟩

theorem powFunction_spec (doubles : Doubles D) (hmul : ExactOverflow multiply size)
    {b e : Int} (hb : size.IsLong b) (he : 0 ≤ e) : if size.IsLong (b ^ e.toNat) then
      powFunction doubles multiply (.long b) (.long e) = .long (b ^ e.toNat)
    else ∃ dval, powFunction doubles multiply (.long b) (.long e) = .double dval := by
  have hone : size.IsLong 1 := by cases size <;> decide
  have hzero : size.IsLong 0 := by cases size <;> decide
  rw [powFunction, if_pos he]
  by_cases he0 : e = 0
  · rw [if_pos he0, he0, Int.toNat_zero, pow_zero, if_pos hone]
  · have hne : e.toNat ≠ 0 := by omega
    rw [if_neg he0]
    by_cases hb0 : b = 0
    · rw [if_pos hb0, hb0, zero_pow hne, if_pos hzero]
    · rw [if_neg hb0]
      have h := powLoop_spec doubles e.toNat hmul hone hb one_ne_zero hb0
      rwa [one_mul] at h

/-- The result is a long exactly where the power is one, and then it is the power. -/
theorem powFunction_long_iff (doubles : Doubles D) (hmul : ExactOverflow multiply size)
    {b e : Int} (hb : size.IsLong b) (hpos : 0 ≤ e) (n : Int) :
    powFunction doubles multiply (.long b) (.long e) = .long n ↔
      size.IsLong (b ^ e.toNat) ∧ n = b ^ e.toNat := by
  have hspec := powFunction_spec doubles hmul hb hpos
  by_cases hfit : size.IsLong (b ^ e.toNat)
  · rw [if_pos hfit] at hspec
    rw [hspec, Number.long.injEq, eq_comm]
    exact ⟨fun h => ⟨hfit, h⟩, fun h => h.2⟩
  · rw [if_neg hfit] at hspec
    obtain ⟨dval, hdval⟩ := hspec
    rw [hdval]
    constructor
    · intro h
      cases h
    · intro h
      exact absurd h.1 hfit

/-- The macro where the product is taken in a wider type. -/
def multiplyLong (doubles : Doubles D) (size : LongSize) (a b : Int) : Number D :=
  if size.IsLong (a * b) then .long (a * b)
  else .double (doubles.mul (doubles.ofLong a) (doubles.ofLong b))

theorem multiplyLong_exact (doubles : Doubles D) (size : LongSize) :
    ExactOverflow (multiplyLong doubles size) size := by
  intro a b _ _
  by_cases hfit : size.IsLong (a * b)
  · simp [multiplyLong, hfit]
  · simp [multiplyLong, hfit]

def unitDoubles : Doubles Unit :=
  ⟨fun _ => (), fun _ _ => (), fun _ _ => ()⟩

theorem powFunction_long_iff_longMin :
    powFunction unitDoubles (multiplyLong unitDoubles .eight) (.long (-2)) (.long 63) =
      .long (-9223372036854775808) :=
  (powFunction_long_iff unitDoubles (multiplyLong_exact unitDoubles .eight) (by decide)
    (by decide) _).mpr ⟨by decide, by decide⟩

end Power

end PowFunction

end PhpEngine

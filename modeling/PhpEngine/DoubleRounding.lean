/-
Rounding an integer to a binary floating point number: to the nearest one, to the even one
of two that are equally near, and to an infinity beyond the largest.
-/
import Mathlib.Algebra.Group.Nat.Defs
import Mathlib.Data.Nat.Log
import Mathlib.Order.WithBot
import Mathlib.Data.Int.Order.Basic

namespace DoubleRounding

/-- The order of the integers by their linear order, whatever other instances are in scope. -/
local instance intPreorder : Preorder Int := Int.instLinearOrder.toPreorder

/-- The number of low bits that `n` has too many for `p` bits. -/
def surplus (p n : Nat) : Nat :=
  Nat.log 2 n + 1 - p

/-- Whether the last `e` bits are rounded up. -/
def RoundsUp (e n : Nat) : Prop :=
  2 ^ e < 2 * (n % 2 ^ e) ∨ 2 * (n % 2 ^ e) = 2 ^ e ∧ n / 2 ^ e % 2 = 1

instance (e n : Nat) : Decidable (RoundsUp e n) :=
  inferInstanceAs (Decidable (_ ∨ _))

/-- The multiple of `2 ^ e` next to `n`. -/
def roundAt (e n : Nat) : Nat :=
  (if RoundsUp e n then n / 2 ^ e + 1 else n / 2 ^ e) * 2 ^ e

/-- `n` with `p` significant bits. -/
def roundBits (p n : Nat) : Nat :=
  roundAt (surplus p n) n

/-- Where the finite numbers end. -/
def infinityFrom : Nat :=
  2 ^ 1024

/-- The number with a fraction of 53 bits next to `v`. -/
def toDouble (v : Int) : WithBot (WithTop Int) :=
  if roundBits 53 v.natAbs < infinityFrom then
    (((if v < 0 then -(roundBits 53 v.natAbs : Int) else roundBits 53 v.natAbs : Int) :
      WithTop Int) : WithBot (WithTop Int))
  else if v < 0 then ⊥
  else ((⊤ : WithTop Int) : WithBot (WithTop Int))

section Bits

variable {p e m n : Nat}

theorem roundAt_zero (n : Nat) : roundAt 0 n = n := by
  have hdown : ¬RoundsUp 0 n := by
    rw [RoundsUp, Nat.pow_zero, Nat.mod_one]
    omega
  rw [roundAt, if_neg hdown, Nat.pow_zero, Nat.div_one, Nat.mul_one]

theorem roundBits_of_lt (hp : 0 < p) (h : n < 2 ^ p) : roundBits p n = n := by
  have hlog : Nat.log 2 n < p := by
    rcases Nat.eq_zero_or_pos n with rfl | hpos
    · rw [Nat.log_zero_right]
      exact hp
    · exact Nat.log_lt_of_lt_pow (by omega) h
  have hzero : surplus p n = 0 := by
    rw [surplus]
    omega
  rw [roundBits, hzero, roundAt_zero]

theorem roundAt_mono (h : m ≤ n) : roundAt e m ≤ roundAt e n := by
  apply Nat.mul_le_mul_right
  have hm := Nat.div_add_mod m (2 ^ e)
  have hn := Nat.div_add_mod n (2 ^ e)
  have hquot : m / 2 ^ e ≤ n / 2 ^ e := Nat.div_le_div_right h
  rcases Nat.lt_or_eq_of_le hquot with hlt | heq
  · split <;> split <;> omega
  · have hrest : m % 2 ^ e ≤ n % 2 ^ e := by
      rw [heq] at hm
      omega
    have hup : RoundsUp e m → RoundsUp e n := by
      rintro (hmore | ⟨hhalf, hodd⟩)
      · exact .inl (by omega)
      · rw [heq] at hodd
        rcases Nat.lt_or_eq_of_le hrest with hmore | hsame
        · exact .inl (by omega)
        · exact .inr ⟨by omega, hodd⟩
    by_cases hmup : RoundsUp e m
    · rw [if_pos hmup, if_pos (hup hmup), heq]
    · rw [if_neg hmup, heq]
      split <;> omega

theorem le_roundAt (e n : Nat) : n / 2 ^ e * 2 ^ e ≤ roundAt e n := by
  apply Nat.mul_le_mul_right
  split <;> omega

theorem roundAt_le (e n : Nat) : roundAt e n ≤ (n / 2 ^ e + 1) * 2 ^ e := by
  apply Nat.mul_le_mul_right
  split <;> omega

/-- Within the numbers of one length, and from one length to the next, the rounding is
monotone. -/
theorem roundBits_mono (hp : 0 < p) (h : m ≤ n) : roundBits p m ≤ roundBits p n := by
  have hlog : Nat.log 2 m ≤ Nat.log 2 n := Nat.log_mono_right h
  rcases Nat.lt_or_eq_of_le (show surplus p m ≤ surplus p n by rw [surplus, surplus]; omega)
    with hlt | heq
  · -- Both lie on their side of the power of two between them.
    have hn0 : n ≠ 0 := by
      rintro rfl
      rw [surplus, surplus, Nat.log_zero_right] at hlt
      omega
    have hlow : 2 ^ (Nat.log 2 n) ≤ n := Nat.pow_log_le_self 2 hn0
    have hhigh : m < 2 ^ (Nat.log 2 m + 1) := Nat.lt_pow_succ_log_self (by decide) m
    have hsplit : 2 ^ (Nat.log 2 n) = 2 ^ (p - 1) * 2 ^ surplus p n := by
      rw [← Nat.pow_add]
      congr 1
      simp only [surplus] at hlt ⊢
      omega
    have hquot : 2 ^ (p - 1) ≤ n / 2 ^ surplus p n := by
      rw [Nat.le_div_iff_mul_le (Nat.two_pow_pos _), ← hsplit]
      exact hlow
    have hquot' : m / 2 ^ surplus p m < 2 ^ p := by
      rw [Nat.div_lt_iff_lt_mul (Nat.two_pow_pos _), ← Nat.pow_add]
      apply lt_of_lt_of_le hhigh
      apply Nat.pow_le_pow_right (by decide)
      rw [surplus]
      omega
    calc roundBits p m ≤ (m / 2 ^ surplus p m + 1) * 2 ^ surplus p m := roundAt_le _ m
      _ ≤ 2 ^ p * 2 ^ surplus p m := Nat.mul_le_mul_right _ hquot'
      _ = 2 ^ (p - 1) * 2 ^ (surplus p m + 1) := by
          rw [← Nat.pow_add, ← Nat.pow_add]
          congr 1
          omega
      _ ≤ 2 ^ (p - 1) * 2 ^ surplus p n :=
          Nat.mul_le_mul_left _ (Nat.pow_le_pow_right (by decide) hlt)
      _ ≤ n / 2 ^ surplus p n * 2 ^ surplus p n := Nat.mul_le_mul_right _ hquot
      _ ≤ roundBits p n := le_roundAt _ n
  · rw [roundBits, roundBits, heq]
    exact roundAt_mono h

end Bits

section Double

variable {v w : Int}

theorem toDouble_of_lt (h : v.natAbs < 2 ^ 53) : toDouble v = ((v : WithTop Int) : WithBot _) := by
  have hround := roundBits_of_lt (by decide : 0 < 53) h
  have hpow : 2 ^ 53 ≤ infinityFrom := by
    apply Nat.pow_le_pow_right
    · decide
    · decide
  have hrange : v.natAbs < infinityFrom := lt_of_lt_of_le h hpow
  rw [toDouble, hround, if_pos hrange]
  congr 2
  split <;> omega

theorem toDouble_mono (h : v ≤ w) : toDouble v ≤ toDouble w := by
  rw [toDouble, toDouble]
  rcases lt_or_ge v 0 with hv | hv
  · rcases lt_or_ge w 0 with hw | hw
    · have hround := roundBits_mono (by decide : 0 < 53) (show w.natAbs ≤ v.natAbs by omega)
      split
      next hfits =>
        rw [if_pos (lt_of_le_of_lt hround hfits)]
        exact WithBot.coe_le_coe.mpr (WithTop.coe_le_coe.mpr (by omega))
      · exact bot_le
    · simp only [hv, if_true, not_lt.mpr hw, if_false]
      split
      · split
        · exact WithBot.coe_le_coe.mpr (WithTop.coe_le_coe.mpr (by omega))
        · exact WithBot.coe_le_coe.mpr le_top
      · exact bot_le
  · have hround := roundBits_mono (by decide : 0 < 53) (show v.natAbs ≤ w.natAbs by omega)
    simp only [not_lt.mpr hv, not_lt.mpr (le_trans hv h), if_false]
    split
    · split
      · exact WithBot.coe_le_coe.mpr (WithTop.coe_le_coe.mpr (by omega))
      · exact WithBot.coe_le_coe.mpr le_top
    next hover =>
      rw [if_neg fun hfits => hover (lt_of_le_of_lt hround hfits)]

/-- Only the integers that are represented exactly come to a small number. -/
theorem eq_of_toDouble {d : Int} (hd : d.natAbs < 2 ^ 53)
    (h : toDouble v = ((d : WithTop Int) : WithBot _)) : v = d := by
  have hmax : toDouble (2 ^ 53) = (((2 ^ 53 : Int) : WithTop Int) : WithBot _) := by
    decide +kernel
  have hmin : toDouble (-2 ^ 53) = (((-2 ^ 53 : Int) : WithTop Int) : WithBot _) := by
    decide +kernel
  by_cases hv : v.natAbs < 2 ^ 53
  · rw [toDouble_of_lt hv] at h
    exact WithTop.coe_inj.mp (WithBot.coe_inj.mp h)
  · rcases lt_or_ge v 0 with hneg | hpos
    · have hle := toDouble_mono (show v ≤ -2 ^ 53 by omega)
      rw [h, hmin, WithBot.coe_le_coe, WithTop.coe_le_coe] at hle
      omega
    · have hle := toDouble_mono (show 2 ^ 53 ≤ v by omega)
      rw [h, hmax, WithBot.coe_le_coe, WithTop.coe_le_coe] at hle
      omega

end Double

end DoubleRounding

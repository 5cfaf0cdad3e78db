/-
The integer types of the engine on a 64-bit platform.  An unsigned value is a
natural number reduced modulo the width of its type: `uint` is 32 bits wide
and `ulong` 64.
-/
import Mathlib.Tactic.Ring

namespace PhpEngine

theorem exists_succ_of_lt {k fuel : Nat} (h : k < fuel) : ∃ n, fuel = n + 1 ∧ k ≤ n :=
  ⟨fuel - 1, by omega, by omega⟩

def uintMod : Nat := 2 ^ 32

def ulongMod : Nat := 2 ^ 64

def longMax : Nat := 2 ^ 63 - 1

/-- The cast of an `ulong` to `long`. -/
def toLong (n : Nat) : Int :=
  if n ≤ longMax then (n : Int) else (n : Int) - (ulongMod : Int)

/-- The cast of a `uint` to `int`. -/
def toInt (n : Nat) : Int :=
  if n < 2 ^ 31 then (n : Int) else (n : Int) - (uintMod : Int)

theorem toLong_of_lt {n : Nat} (h : n < 2 ^ 63) : toLong n = n :=
  if_pos (Nat.le_sub_one_of_lt h)

theorem toLong_of_ge {n : Nat} (h : 2 ^ 63 ≤ n) : toLong n = (n : Int) - (ulongMod : Int) :=
  if_neg fun hle => absurd (Nat.lt_of_le_of_lt (Nat.le_trans h hle)
    (by decide : longMax < 2 ^ 63)) (Nat.lt_irrefl _)

end PhpEngine

/-
The type `long` for both values of `SIZEOF_LONG` the engine builds with.
-/
import Mathlib.Algebra.Group.Int.Defs
import Mathlib.Algebra.Group.Nat.Defs

namespace PhpEngine

/-- `SIZEOF_LONG` -/
inductive LongSize where
  | four
  | eight
deriving DecidableEq, Repr

namespace LongSize

def bits : LongSize → Nat
  | four => 32
  | eight => 64

def sizeofLong : LongSize → Nat
  | four => 4
  | eight => 8

def ulongMax (size : LongSize) : Nat :=
  2 ^ size.bits - 1

def longMax (size : LongSize) : Nat :=
  2 ^ (size.bits - 1) - 1

def longMin (size : LongSize) : Int :=
  -(2 ^ (size.bits - 1))

/-- The values a `long` takes. -/
def IsLong (size : LongSize) (n : Int) : Prop :=
  size.longMin ≤ n ∧ n ≤ size.longMax

instance (size : LongSize) (n : Int) : Decidable (size.IsLong n) :=
  inferInstanceAs (Decidable (_ ∧ _))

/-- The cast of an `unsigned long` to `long`. -/
def toLong (size : LongSize) (n : Nat) : Int :=
  if n ≤ size.longMax then (n : Int) else (n : Int) - 2 ^ size.bits

end LongSize

end PhpEngine

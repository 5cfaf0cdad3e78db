/-
Decimal numbers in memory: printing an unsigned number, and the scanner's
accumulating loop, which reduces modulo the width of its result.
-/
import PhpEngine.MachineInt
import Mathlib.Data.List.Basic

namespace PhpEngine

open List

/-- A character of the source text as a byte. -/
def byte (c : Char) : UInt8 :=
  UInt8.ofNat c.toNat

def isDigit (b : UInt8) : Bool :=
  byte '0' ≤ b && b ≤ byte '9'

def digitValue (b : UInt8) : Nat :=
  b.toNat - 48

def digitByte (d : Nat) : UInt8 :=
  UInt8.ofNat (48 + d)

/-- The memory from `c` on starts with the given bytes. -/
def HoldsAt (mem : Nat → UInt8) (c : Nat) : List UInt8 → Prop
  | [] => True
  | b :: rest => mem c = b ∧ HoldsAt mem (c + 1) rest

instance decidableHoldsAt (mem : Nat → UInt8) :
    (c : Nat) → (l : List UInt8) → Decidable (HoldsAt mem c l)
  | _, [] => isTrue trivial
  | c, b :: rest =>
    @instDecidableAnd _ _ (decEq (mem c) b) (decidableHoldsAt mem (c + 1) rest)

/-- The loop `result = result * 10 + digit`; it ends behind the digits. -/
def scanDigits (mem : Nat → UInt8) (modulus : Nat) : Nat → Nat → Nat → Nat × Nat
  | 0, c, acc => (acc, c)
  | fuel + 1, c, acc =>
    if isDigit (mem c) then
      scanDigits mem modulus fuel (c + 1) ((acc * 10 + digitValue (mem c)) % modulus)
    else (acc, c)

/-- `smart_str_print_unsigned`: digits from the last to the first. -/
def printDigits : Nat → Nat → List UInt8 → List UInt8
  | 0, _, acc => acc
  | fuel + 1, num, acc =>
    let acc := digitByte (num % 10) :: acc
    if 0 < num / 10 then printDigits fuel (num / 10) acc else acc

/-- An `unsigned long` has at most twenty digits. -/
def printUnsigned (num : Nat) : List UInt8 :=
  printDigits 20 num []

/-- `smart_str_print_long`; the negation is one of `unsigned long`. -/
def printLong (num : Int) : List UInt8 :=
  if num < 0 then byte '-' :: printUnsigned ((-num).toNat % ulongMod)
  else printUnsigned num.toNat

section Holds

variable {mem : Nat → UInt8} {c : Nat}

theorem holdsAt_append (l₁ l₂ : List UInt8) : HoldsAt mem c (l₁ ++ l₂) ↔
      HoldsAt mem c l₁ ∧ HoldsAt mem (c + l₁.length) l₂ := by
  induction l₁ generalizing c with
  | nil => simp [HoldsAt]
  | cons b rest ih =>
    simp only [cons_append, HoldsAt, ih, length_cons, and_assoc]
    rw [Nat.add_right_comm c 1, add_assoc c]

end Holds

/-- The value of a list of digits that follow a number. -/
def decimalValue (l : List UInt8) (v : Nat) : Nat :=
  l.foldl (fun v b => v * 10 + digitValue b) v

section Digits

variable {mem : Nat → UInt8} {c : Nat}

theorem digitByte_spec {d : Nat} (h : d < 10) :
    isDigit (digitByte d) = true ∧ digitValue (digitByte d) = d := by
  revert d
  decide

/-- Printing in front of `acc` is read as `num` before `acc`. -/
theorem decimalValue_printDigits {fuel num : Nat} (h : num < 10 ^ fuel) (acc : List UInt8) :
    decimalValue (printDigits fuel num acc) 0 = decimalValue acc num := by
  induction fuel generalizing num acc with
  | zero =>
    have hzero : num = 0 := by omega
    rw [printDigits, hzero]
  | succ fuel ih =>
    have hdigit := (digitByte_spec (Nat.mod_lt num (by decide : 0 < 10))).2
    have hlast : decimalValue (digitByte (num % 10) :: acc) (num / 10) = decimalValue acc num := by
      rw [decimalValue, foldl_cons, hdigit, Nat.div_add_mod' num 10]
      rfl
    rw [printDigits]
    split
    · rw [ih (by rw [pow_succ] at h; omega), hlast]
    next hsmall =>
      have hzero : num / 10 = 0 := by omega
      rw [← hlast, hzero]

theorem printDigits_digits {fuel num : Nat} {acc : List UInt8} :
    ∀ b ∈ printDigits fuel num acc, isDigit b = true ∨ b ∈ acc := by
  induction fuel generalizing num acc with
  | zero => exact fun b hb => .inr hb
  | succ fuel ih =>
    have hdigit := (digitByte_spec (Nat.mod_lt num (by decide : 0 < 10))).1
    have hcons : ∀ b ∈ digitByte (num % 10) :: acc, isDigit b = true ∨ b ∈ acc := by
      intro b hb
      rcases mem_cons.mp hb with rfl | hb
      · exact .inl hdigit
      · exact .inr hb
    intro b hb
    rw [printDigits] at hb
    split at hb
    · rcases ih b hb with hb | hb
      · exact .inl hb
      · exact hcons b hb
    · exact hcons b hb

theorem printDigits_length (fuel num : Nat) (acc : List UInt8) :
    acc.length ≤ (printDigits fuel num acc).length ∧
      (0 < fuel → acc.length < (printDigits fuel num acc).length) := by
  induction fuel generalizing num acc with
  | zero => exact ⟨le_rfl, fun h => absurd h (lt_irrefl 0)⟩
  | succ fuel ih =>
    have hlong : acc.length < (printDigits (fuel + 1) num acc).length := by
      rw [printDigits]
      split
      · exact (ih (num / 10) (digitByte (num % 10) :: acc)).1
      · exact Nat.lt_succ_self _
    exact ⟨le_of_lt hlong, fun _ => hlong⟩

theorem printUnsigned_digits (num : Nat) : ∀ b ∈ printUnsigned num, isDigit b = true := by
  intro b hb
  rcases printDigits_digits b hb with hb | hb
  · exact hb
  · simp at hb

theorem printUnsigned_length_pos (num : Nat) : 0 < (printUnsigned num).length :=
  (printDigits_length 20 num []).2 (by decide)

theorem decimalValue_printUnsigned {num : Nat} (h : num < ulongMod) :
    decimalValue (printUnsigned num) 0 = num :=
  decimalValue_printDigits (Nat.lt_trans h (by decide)) []

/-- The scanner reads exactly the digits that stand before another byte. -/
theorem scanDigits_holdsAt (modulus : Nat) {l : List UInt8} {fuel v : Nat}
    (hl : ∀ b ∈ l, isDigit b = true) (hholds : HoldsAt mem c l)
    (hend : isDigit (mem (c + l.length)) = false) (hfuel : l.length < fuel) :
    scanDigits mem modulus fuel c (v % modulus) = (decimalValue l v % modulus, c + l.length) := by
  induction l generalizing c fuel v with
  | nil =>
    obtain ⟨n, rfl, -⟩ := exists_succ_of_lt hfuel
    rw [scanDigits, if_neg (by simpa using hend)]
    rfl
  | cons b rest ih =>
    obtain ⟨n, rfl, -⟩ := exists_succ_of_lt hfuel
    obtain ⟨hb, hrest⟩ := hholds
    have hstep : (v % modulus * 10 + digitValue b) % modulus =
        (v * 10 + digitValue b) % modulus := by
      rw [Nat.add_mod, Nat.mod_mul_mod, ← Nat.add_mod]
    rw [length_cons, add_comm rest.length, ← add_assoc] at hend
    rw [scanDigits, hb, if_pos (hl b mem_cons_self), hstep,
      ih (fun x hx => hl x (mem_cons_of_mem b hx)) hrest hend
        (by simp at hfuel; omega), length_cons]
    congr 1
    omega

end Digits

end PhpEngine

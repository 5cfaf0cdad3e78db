/-
`zend_qsort_r` (`Zend/zend_qsort.c`): quicksort over an array of `nmemb` slots of `siz`
bytes, with an explicit stack.  A pointer is its distance from `base`; the one before
`base` is formed but never followed.
-/
import PhpEngine.Memory
import PhpEngine.Rearrangement
import Mathlib.Tactic.Linarith
import Mathlib.Tactic.Ring

namespace PhpEngine.ZendQsort

open Memory

def sizeofInt : Nat := 4

/-- The loops of `_zend_qsort_swap`: `n` exchanges of `width` bytes each. -/
def swapLoop (width : Nat) : Nat → (Nat → UInt8) → Nat → Nat → Nat → UInt8
  | 0, mem, _, _ => mem
  | n + 1, mem, a, b =>
    let t := slice mem a width
    let mem := store mem a (slice mem b width)
    let mem := store mem b t
    swapLoop width n mem (a + width) (b + width)

/-- `_zend_qsort_swap`: whole `int`s first and the bytes that are left behind them. -/
def zendQsortSwap (mem : Nat → UInt8) (a b siz : Nat) : Nat → UInt8 :=
  let ints := siz / sizeofInt
  let mem := swapLoop sizeofInt ints mem a b
  swapLoop 1 (siz - ints * sizeofInt) mem (a + ints * sizeofInt) (b + ints * sizeofInt)

/-- `QSORT_STACK_SIZE` -/
def qsortStackSize : Nat := 8 * 8

/-- The arguments that stay: the comparator acts on a state `σ` of its own. -/
structure Qsort (σ : Type) where
  nmemb : Nat
  siz : Nat
  compare : List UInt8 → List UInt8 → σ → Int × σ

/-- The bytes of the array and the state of the comparator. -/
structure QsortState (σ : Type) where
  mem : Nat → UInt8
  user : σ

namespace Qsort

variable {σ : Type} (q : Qsort σ)

/-- A pointer to one of the slots `0 .. nmemb - 1`. -/
def IsSlot (p : Int) : Prop :=
  0 ≤ p ∧ p + q.siz ≤ q.nmemb * q.siz ∧ (q.siz : Int) ∣ p

instance (p : Int) : Decidable (q.IsSlot p) :=
  inferInstanceAs (Decidable (_ ∧ _ ∧ _))

/-- `compare(a, b)`, where both point to slots of the array. -/
def compareAt (a b : Int) (s : QsortState σ) : Option (Int × QsortState σ) :=
  if q.IsSlot a ∧ q.IsSlot b then
    let (answer, user) :=
      q.compare (slice s.mem a.toNat q.siz) (slice s.mem b.toNat q.siz) s.user
    some (answer, { s with user := user })
  else none

/-- `_zend_qsort_swap(a, b, siz)`, where both point to slots of the array. -/
def swapAt (a b : Int) (s : QsortState σ) : Option (QsortState σ) :=
  if q.IsSlot a ∧ q.IsSlot b then
    some { s with mem := zendQsortSwap s.mem a.toNat b.toNat q.siz }
  else none

/-- `for (; seg1 < seg2 && compare(begin, seg1) > 0; seg1 += siz)` -/
def scanUp (first : Int) : Nat → Int → Int → QsortState σ → Option (Int × QsortState σ)
  | 0, _, _, _ => none
  | fuel + 1, seg1, seg2, s =>
    if seg1 < seg2 then
      match q.compareAt first seg1 s with
      | none => none
      | some (answer, s) =>
        if answer > 0 then scanUp first fuel (seg1 + q.siz) seg2 s else some (seg1, s)
    else some (seg1, s)

/-- `for (; seg2 >= seg1 && compare(seg2, begin) > 0; seg2 -= siz)` -/
def scanDown (first : Int) : Nat → Int → Int → QsortState σ → Option (Int × QsortState σ)
  | 0, _, _, _ => none
  | fuel + 1, seg1, seg2, s =>
    if seg2 ≥ seg1 then
      match q.compareAt seg2 first s with
      | none => none
      | some (answer, s) =>
        if answer > 0 then scanDown first fuel seg1 (seg2 - q.siz) s else some (seg2, s)
    else some (seg2, s)

/-- `while (1)`: the value of `seg2` behind the loop.  Both scans get the fuel `steps`. -/
def partitionLoop (first : Int) (steps : Nat) :
    Nat → Int → Int → QsortState σ → Option (Int × QsortState σ)
  | 0, _, _, _ => none
  | fuel + 1, seg1, seg2, s =>
    match q.scanUp first steps seg1 seg2 s with
    | none => none
    | some (seg1, s) =>
      match q.scanDown first steps seg1 seg2 s with
      | none => none
      | some (seg2, s) =>
        if seg1 ≥ seg2 then some (seg2, s)
        else
          match q.swapAt seg1 seg2 s with
          | none => none
          | some s => partitionLoop first steps fuel (seg1 + q.siz) (seg2 - q.siz) s

/-- The pivot goes to `begin` and, behind the loop, to `seg2`. -/
def partition (steps : Nat) (first last : Int) (s : QsortState σ) : Option (Int × QsortState σ) :=
  -- `uint offset`
  let offset := ((last - first) / 2).toNat % 2 ^ 32
  match q.swapAt first (first + (offset - offset % q.siz : Nat)) s with
  | none => none
  | some s =>
    match q.partitionLoop first steps steps (first + q.siz) last s with
    | none => none
    | some (seg2, s) =>
      match q.swapAt first seg2 s with
      | none => none
      | some s => some (seg2, s)

/-- `begin_stack[loop] = ..; end_stack[loop++] = ..`.  The list holds the entries below
`loop`, the last one at its head. -/
def push (segment : Int × Int) (stack : List (Int × Int)) : Option (List (Int × Int)) :=
  if stack.length < qsortStackSize then some (segment :: stack) else none

/-- `while (begin < end)` -/
def segmentLoop (steps : Nat) : Nat → Int → Int → List (Int × Int) → QsortState σ →
    Option (List (Int × Int) × QsortState σ)
  | 0, _, _, _, _ => none
  | fuel + 1, first, last, stack, s =>
    if first < last then
      match q.partition steps first last s with
      | none => none
      | some (seg2p, s) =>
        if seg2p - first ≤ last - seg2p then
          match (if seg2p + q.siz < last then push (seg2p + q.siz, last) stack
            else some stack) with
          | none => none
          | some stack => segmentLoop steps fuel first (seg2p - q.siz) stack s
        else
          match (if seg2p - q.siz > first then push (first, seg2p - q.siz) stack
            else some stack) with
          | none => none
          | some stack => segmentLoop steps fuel (seg2p + q.siz) last stack s
    else some (stack, s)

/-- `for (loop = 0; loop >= 0; --loop)` -/
def stackLoop (steps : Nat) : Nat → List (Int × Int) → QsortState σ → Option (QsortState σ)
  | 0, _, _ => none
  | _ + 1, [], s => some s
  | fuel + 1, (first, last) :: stack, s =>
    match q.segmentLoop steps steps first last stack s with
    | none => none
    | some (stack, s) => stackLoop steps fuel stack s

/-- `zend_qsort_r`, every loop of which may take `fuel` turns. -/
def zendQsortR (fuel : Nat) (s : QsortState σ) : Option (QsortState σ) :=
  q.stackLoop fuel fuel [(0, ((q.nmemb : Int) - 1) * q.siz)] s

end Qsort

section SwapSpec

variable {mem : Nat → UInt8} {a b m n : Nat}

/-- The `n` bytes from `a` on and those from `b` on have changed places. -/
def exchanged (mem : Nat → UInt8) (a b n x : Nat) : UInt8 :=
  if a ≤ x ∧ x < a + n then mem (b + (x - a))
  else if b ≤ x ∧ x < b + n then mem (a + (x - b))
  else mem x

/-- Two slots are the same or lie apart. -/
def Apart (a b n : Nat) : Prop :=
  a = b ∨ a + n ≤ b ∨ b + n ≤ a

theorem store_slice_apply (mem mem' : Nat → UInt8) (a b n x : Nat) :
    store mem a (slice mem' b n) x = if a ≤ x ∧ x < a + n then mem' (b + (x - a)) else mem x := by
  by_cases hx : a ≤ x ∧ x < a + n
  · have hlt : x - a < n := by omega
    rw [if_pos hx, store, if_pos hx.1]
    simp [slice, hlt]
  · rw [if_neg hx]
    rcases Nat.lt_or_ge x a with hlt | hge
    · exact store_of_lt hlt
    · exact store_of_ge (by rw [length_slice]; omega)

theorem exchange_once (h : Apart a b n) :
    store (store mem a (slice mem b n)) b (slice mem a n) = exchanged mem a b n := by
  funext x
  rw [store_slice_apply, store_slice_apply, exchanged]
  rcases h with rfl | h | h
  · split_ifs <;> rfl
  all_goals split_ifs <;> first | rfl | omega

theorem exchanged_exchanged (h : Apart a b (m + n)) :
    exchanged (exchanged mem a b m) (a + m) (b + m) n = exchanged mem a b (m + n) := by
  funext x
  have hcases : ∀ c d : Nat, c = d → mem c = mem d := fun c d hcd => congrArg mem hcd
  simp only [exchanged]
  rcases h with rfl | h | h
  all_goals split_ifs <;> first | rfl | omega | exact hcases _ _ (by omega)

theorem swapLoop_eq (width : Nat) (h : Apart a b (n * width)) :
    swapLoop width n mem a b = exchanged mem a b (n * width) := by
  induction n generalizing mem a b with
  | zero =>
    funext x
    rw [swapLoop, exchanged, if_neg (by omega), if_neg (by omega)]
  | succ n ih =>
    have hwidth : (n + 1) * width = width + n * width := by ring
    rw [hwidth] at h ⊢
    have hfirst : Apart a b width := by
      rcases h with h | h | h <;> simp only [Apart] <;> omega
    have hrest : Apart (a + width) (b + width) (n * width) := by
      rcases h with h | h | h <;> simp only [Apart] <;> omega
    rw [swapLoop, exchange_once hfirst, ih hrest, exchanged_exchanged h]

theorem zendQsortSwap_eq {siz : Nat} (h : Apart a b siz) :
    zendQsortSwap mem a b siz = exchanged mem a b siz := by
  have hsplit : siz / sizeofInt * sizeofInt + (siz - siz / sizeofInt * sizeofInt) = siz := by
    have := Nat.div_mul_le_self siz sizeofInt
    omega
  generalize hm : siz / sizeofInt * sizeofInt = m at hsplit
  generalize hn : siz - m = n at hsplit
  rw [zendQsortSwap, hm, hn]
  have hfirst : Apart a b m := by
    rcases h with h | h | h <;> simp only [Apart] <;> omega
  have hrest : Apart (a + m) (b + m) n := by
    rcases h with h | h | h <;> simp only [Apart] <;> omega
  rw [swapLoop_eq 1 (by rwa [Nat.mul_one]), swapLoop_eq sizeofInt (hm.symm ▸ hfirst), hm,
    Nat.mul_one, exchanged_exchanged (hsplit.symm ▸ h), hsplit]

end SwapSpec

end PhpEngine.ZendQsort

/-
A memory that is addressed by natural numbers: a run of cells is read with
`slice` and written with `store`.
-/
import Mathlib.Data.List.Basic

namespace PhpEngine.Memory

open List

variable {α : Type}

/-- The `n` cells from `p` on. -/
def slice (mem : Nat → α) (p n : Nat) : List α :=
  (List.range n).map fun i => mem (p + i)

/-- Write `items` into the cells from `p` on. -/
def store (mem : Nat → α) (p : Nat) (items : List α) : Nat → α :=
  fun i => if p ≤ i then items[i - p]?.getD (mem i) else mem i

variable {mem : Nat → α} {p q m n : Nat}

@[simp] theorem length_slice (mem : Nat → α) (p n : Nat) : (slice mem p n).length = n := by
  simp [slice]

theorem slice_append (mem : Nat → α) (p m n : Nat) :
    slice mem p (m + n) = slice mem p m ++ slice mem (p + m) n := by
  simp only [slice, range_add, map_append, List.map_map]
  congr 1
  apply map_congr_left
  intro i _
  rw [Function.comp_apply, Nat.add_assoc]

theorem slice_append_eq {l l' : List α} (h : slice mem p (l ++ l').length = l ++ l') :
    slice mem p l.length = l ∧ slice mem (p + l.length) l'.length = l' := by
  rw [length_append, slice_append] at h
  exact append_inj h (length_slice _ _ _)

theorem slice_one (mem : Nat → α) (p : Nat) : slice mem p 1 = [mem p] :=
  rfl

theorem slice_congr {mem' : Nat → α} (h : ∀ i, p ≤ i → i < p + n → mem' i = mem i) :
    slice mem' p n = slice mem p n := by
  apply map_congr_left
  intro i hi
  have hlt := mem_range.mp hi
  exact h (p + i) (Nat.le_add_right p i) (Nat.add_lt_add_left hlt p)

theorem store_of_lt {items : List α} {i : Nat} (h : i < p) : store mem p items i = mem i :=
  if_neg (Nat.not_le_of_lt h)

theorem store_of_ge {items : List α} {i : Nat} (h : p + items.length ≤ i) :
    store mem p items i = mem i := by
  rw [store, if_pos (by omega), getElem?_eq_none (by omega), Option.getD_none]

@[simp] theorem store_nil : store mem p [] = mem := by
  funext i
  by_cases h : p ≤ i
  · exact store_of_ge (by simpa using h)
  · exact store_of_lt (Nat.lt_of_not_le h)

theorem slice_store (mem : Nat → α) (p : Nat) (items : List α) :
    slice (store mem p items) p items.length = items := by
  apply ext_getElem
  · simp
  · intro i hi hlt
    simp [slice, store, hlt]

theorem slice_store_before {items : List α} (h : q + n ≤ p) :
    slice (store mem p items) q n = slice mem q n := by
  apply slice_congr
  intro i _ hlt
  exact store_of_lt (by omega)

theorem slice_store_behind {items : List α} (h : p + items.length ≤ q) :
    slice (store mem p items) q n = slice mem q n := by
  apply slice_congr
  intro i hge _
  exact store_of_ge (by omega)

end PhpEngine.Memory

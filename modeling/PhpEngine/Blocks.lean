/-
A heap of separate blocks.  A block is a list of cells behind an address; an
access to a block that was freed, or behind the end of one, has no result.
-/
import Mathlib.Data.List.Basic
import Mathlib.Logic.Function.Basic

namespace PhpEngine

open List Function

/-- The blocks by their addresses.  From `brk` on no address was given out
yet. -/
structure Blocks (α : Type) where
  block : Nat → Option (List α)
  brk : Nat

namespace Blocks

variable {α : Type} (m : Blocks α)

def empty : Blocks α :=
  ⟨fun _ => none, 0⟩

def alloc (cells : List α) : Nat × Blocks α :=
  (m.brk, ⟨update m.block m.brk (some cells), m.brk + 1⟩)

def free (p : Nat) : Option (Blocks α) := do
  let _ ← m.block p
  return { m with block := update m.block p none }

/-- The first `n` cells of a block. -/
def read (p n : Nat) : Option (List α) := do
  let cells ← m.block p
  if n ≤ cells.length then some (cells.take n) else none

/-- Write `items` over the cells from `start` on. -/
def write (p start : Nat) (items : List α) : Option (Blocks α) := do
  let cells ← m.block p
  if start + items.length ≤ cells.length then
    some { m with block := update m.block p (some
      (cells.take start ++ items ++ cells.drop (start + items.length))) }
  else none

/-- A block with room for `n` cells that takes over the cells of another one.
It always lies elsewhere, so that no pointer to the old block stays good. -/
def realloc [Inhabited α] (p : Option Nat) (n : Nat) : Option (Nat × Blocks α) :=
  match p with
  | none => some (m.alloc (List.replicate n default))
  | some p => do
      let cells ← m.block p
      let m ← m.free p
      return m.alloc (cells.take n ++ List.replicate (n - cells.length) default)

/-- The block at `p` has `size` cells, and `items` are the first of them. -/
def Holds (p size : Nat) (items : List α) : Prop :=
  ∃ rest, m.block p = some (items ++ rest) ∧ items.length + rest.length = size

variable {m} {m' : Blocks α} {p q size : Nat} {items more : List α}

section

variable (h : m.Holds p size items)
include h

theorem Holds.congr (hp : m'.block p = m.block p) :
    m'.Holds p size items := by
  obtain ⟨rest, hblock, hsize⟩ := h
  exact ⟨rest, hp.trans hblock, hsize⟩

theorem Holds.length_le : items.length ≤ size := by
  obtain ⟨rest, -, hsize⟩ := h
  omega

/-- A block may be looked at as if less of it were in use. -/
theorem Holds.nil : m.Holds p size [] := by
  obtain ⟨rest, hblock, hsize⟩ := h
  exact ⟨items ++ rest, hblock, by simpa using hsize⟩

theorem Holds.read : m.read p items.length = some items := by
  obtain ⟨rest, hblock, -⟩ := h
  simp [Blocks.read, hblock]

end

theorem Holds.of_alloc (m : Blocks α) (items : List α) :
    (m.alloc items).2.Holds m.brk items.length items :=
  ⟨[], by simp [alloc], by simp⟩

theorem block_alloc_of_ne (h : p ≠ m.brk) (items : List α) :
    (m.alloc items).2.block p = m.block p := by
  simp [alloc, update_of_ne h]

theorem Holds.free (h : m.Holds p size items) : ∃ m', m.free p = some m' ∧ m'.brk = m.brk ∧
      ∀ q, q ≠ p → m'.block q = m.block q := by
  obtain ⟨rest, hblock, -⟩ := h
  refine ⟨{ m with block := update m.block p none }, ?_, rfl, ?_⟩
  · simp [Blocks.free, hblock]
  · intro q hq
    simp [update_of_ne hq]

/-- What is written right behind the cells in use is added to them. -/
theorem Holds.write (h : m.Holds p size items) (hroom : items.length + more.length ≤ size) :
    ∃ m', m.write p items.length more = some m' ∧ m'.brk = m.brk ∧ m'.Holds p size (items ++ more) ∧
      ∀ q, q ≠ p → m'.block q = m.block q := by
  obtain ⟨rest, hblock, hsize⟩ := h
  let cells := items ++ more ++ rest.drop more.length
  refine ⟨{ m with block := update m.block p (some cells) }, ?_, rfl, ?_, ?_⟩
  · simp only [Blocks.write, hblock, Option.bind_eq_bind, Option.bind_some, length_append]
    rw [if_pos (by omega), take_left, drop_length_add_append]
  · refine ⟨rest.drop more.length, by simp [cells], ?_⟩
    simp only [length_append, length_drop]
    omega
  · intro q hq
    simp [update_of_ne hq]

theorem Holds.realloc [Inhabited α] (h : m.Holds p size items) {n : Nat} (hn : size ≤ n) :
    ∃ m', m.realloc (some p) n = some (m.brk, m') ∧ m'.brk = m.brk + 1 ∧ m'.Holds m.brk n items ∧
      ∀ q, q ≠ p → q ≠ m.brk → m'.block q = m.block q := by
  obtain ⟨rest, hblock, hsize⟩ := h
  have hfit : (items ++ rest).length ≤ n := by
    rw [length_append]
    omega
  let cells := items ++ rest ++ List.replicate (n - (items ++ rest).length) default
  refine ⟨⟨update (update m.block p none) m.brk (some cells), m.brk + 1⟩, ?_, rfl, ?_, ?_⟩
  · simp only [Blocks.realloc, Blocks.free, hblock, Option.bind_eq_bind,
      Option.bind_some, Option.pure_def, alloc, take_of_length_le hfit]
    rfl
  · refine ⟨rest ++ List.replicate (n - (items ++ rest).length) default, ?_, ?_⟩
    · simp [cells]
    · simp only [length_append, length_replicate] at hfit ⊢
      omega
  · intro q hp hq
    simp [update_of_ne hp, update_of_ne hq]

end Blocks

end PhpEngine

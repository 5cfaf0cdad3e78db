/-
A file as an array with one offset.  A schedule decides how much of what is
asked a read delivers: at least one item, unless the offset is at the end.
-/
import Mathlib.Data.List.Basic
import Mathlib.Data.List.TakeDrop
import Mathlib.Data.UInt

namespace PhpEngine

open List

section Splice

variable {α : Type} [Zero α]

/-- Write `items` at `offset`, behind zeros if that is beyond the end. -/
def splice (l : List α) (offset : Nat) (items : List α) : List α :=
  l.take offset ++ List.replicate (offset - l.length) 0 ++ items ++ l.drop (offset + items.length)

section

variable (l : List α) (offset : Nat) (items : List α)
include l offset items

theorem length_splice_left :
    (l.take offset ++ List.replicate (offset - l.length) 0 ++
      items).length = offset + items.length := by
  simp only [length_append, length_take, length_replicate]
  omega

theorem drop_splice :
    (splice l offset items).drop (offset + items.length) = l.drop (offset + items.length) := by
  rw [splice, ← length_splice_left l offset items, drop_left]

theorem take_splice :
    (splice l offset items).take (offset + items.length) =
      l.take offset ++ List.replicate (offset - l.length) 0 ++ items := by
  rw [splice, ← length_splice_left l offset items, take_left]

theorem length_splice :
    (splice l offset items).length = max l.length (offset + items.length) := by
  rw [splice, length_append, length_splice_left, length_drop]
  omega

end

theorem splice_splice (l : List α) (offset : Nat) (first second : List α) :
    splice (splice l offset first) (offset + first.length) second =
      splice l offset (first ++ second) := by
  have hpad : offset + first.length - (splice l offset first).length = 0 := by
    rw [length_splice]
    omega
  have hdrop : (splice l offset first).drop (offset + first.length + second.length) =
        l.drop (offset + first.length + second.length) := by
    rw [← drop_drop, drop_splice, drop_drop]
  rw [splice, hpad, hdrop, take_splice, splice]
  simp only [replicate_zero, append_nil, append_assoc, length_append, add_assoc]

/-- What stands before the end of a write inside the array. -/
theorem slice_splice {l : List α} {start offset : Nat} (items : List α)
    (hstart : start ≤ offset) (hoffset : offset ≤ l.length) :
    ((splice l offset items).drop start).take (offset + items.length - start) =
      (l.drop start).take (offset - start) ++ items := by
  rw [← drop_take, take_splice, Nat.sub_eq_zero_of_le hoffset, replicate_zero, append_nil,
    drop_append_of_le_length (by rw [length_take]; omega),
    drop_take]

end Splice

/-- `reads` counts the reads that were made. -/
structure ByteFile where
  data : List UInt8
  offset : Nat
  schedule : Nat → Nat
  reads : Nat

namespace ByteFile

variable (f : ByteFile)

/-- What stands behind the offset. -/
def rest : List UInt8 :=
  f.data.drop f.offset

/-- How many bytes the next read delivers. -/
def delivered (asked : Nat) : Nat :=
  min (min asked (f.schedule f.reads + 1)) f.rest.length

def read (asked : Nat) : List UInt8 × ByteFile :=
  (f.rest.take (f.delivered asked),
    { f with offset := f.offset + f.delivered asked, reads := f.reads + 1 })

def write (bytes : List UInt8) : ByteFile :=
  { f with
    data := splice f.data f.offset bytes
    offset := f.offset + bytes.length }

/-- An offset before the start is refused. -/
def seek (offset : Int) : Option ByteFile :=
  if 0 ≤ offset then some { f with offset := offset.toNat } else none

variable {f}

theorem delivered_le_rest (asked : Nat) : f.delivered asked ≤ f.rest.length :=
  Nat.min_le_right _ _

theorem delivered_le_asked (asked : Nat) : f.delivered asked ≤ asked :=
  Nat.le_trans (Nat.min_le_left _ _) (Nat.min_le_left _ _)

theorem delivered_eq_zero {asked : Nat} (hasked : 0 < asked) :
    f.delivered asked = 0 ↔ f.rest = [] := by
  rw [← length_eq_zero_iff, delivered]
  omega

@[simp] theorem length_read (asked : Nat) : (f.read asked).1.length = f.delivered asked := by
  rw [read, length_take, min_eq_left (delivered_le_rest asked)]

@[simp] theorem read_offset (asked : Nat) :
    (f.read asked).2.offset = f.offset + f.delivered asked :=
  rfl

theorem read_append_rest (asked : Nat) : (f.read asked).1 ++ (f.read asked).2.rest = f.rest := by
  simp only [read, rest, ← drop_drop, take_append_drop]

theorem read_eq_nil {asked : Nat} (hasked : 0 < asked) : (f.read asked).1 = [] ↔ f.rest = [] := by
  rw [← length_eq_zero_iff, length_read, delivered_eq_zero hasked]

end ByteFile

end PhpEngine

/-
Items laid out one behind the other.  An item of a list starts where the sizes
of the items before it end, so the ranges of two places of the list do not
meet, and together they cover everything up to the total.
-/
import Mathlib.Data.List.Induction
import Mathlib.Tactic.Ring

namespace PhpEngine

open List

variable {β : Type}

/-- The room that the items take. -/
def totalSize (size : β → Nat) (items : List β) : Nat :=
  (items.map size).sum

/-- `x` is the item of `items` that comes behind `before`. -/
def PlacedAt (items before : List β) (x : β) : Prop :=
  before ++ [x] <+: items

@[simp] theorem totalSize_nil (size : β → Nat) : totalSize size [] = 0 :=
  rfl

@[simp] theorem totalSize_append (size : β → Nat) (l₁ l₂ : List β) :
    totalSize size (l₁ ++ l₂) = totalSize size l₁ + totalSize size l₂ := by
  simp [totalSize]

@[simp] theorem totalSize_singleton (size : β → Nat) (x : β) : totalSize size [x] = size x := by
  simp [totalSize]

theorem totalSize_le_of_prefix (size : β → Nat) {l₁ l₂ : List β}
    (h : l₁ <+: l₂) : totalSize size l₁ ≤ totalSize size l₂ := by
  obtain ⟨rest, rfl⟩ := h
  rw [totalSize_append]
  exact Nat.le_add_right _ _

namespace PlacedAt

variable {items before before' : List β} {x y : β}

theorem mem (h : PlacedAt items before x) : x ∈ items :=
  h.subset (mem_append_right before (mem_singleton.mpr rfl))

theorem append (h : PlacedAt items before x) (rest : List β) : PlacedAt (items ++ rest) before x :=
  List.IsPrefix.trans h (prefix_append items rest)

theorem last (items : List β) (x : β) : PlacedAt (items ++ [x]) items x :=
  prefix_refl _

/-- A place of a list with one more item is a place of the list or the new
one. -/
theorem of_append (h : PlacedAt (items ++ [y]) before x) :
    PlacedAt items before x ∨ before = items ∧ x = y := by
  rcases prefix_concat_iff.mp h with heq | hinitial
  · right
    have hparts := append_inj' heq rfl
    exact ⟨hparts.1, by simpa using hparts.2⟩
  · exact .inl hinitial

theorem end_le (size : β → Nat) (h : PlacedAt items before x) :
    totalSize size before + size x ≤ totalSize size items := by
  have hle := totalSize_le_of_prefix size h
  rwa [totalSize_append, totalSize_singleton] at hle

/-- Two places are the same, or one lies wholly before the other. -/
theorem trichotomy (h : PlacedAt items before x) (h' : PlacedAt items before' y) :
    (before = before' ∧ x = y) ∨ PlacedAt before' before x ∨ PlacedAt before before' y := by
  rcases Nat.lt_trichotomy before.length before'.length with
    hlt | heq | hlt
  · right
    left
    exact prefix_of_prefix_length_le h
      ((prefix_append before' [y]).trans h') (by rw [length_append, length_singleton]; omega)
  · left
    have hsame := prefix_of_prefix_length_le h h' (by simp [heq])
    have hparts := append_inj (hsame.eq_of_length (by simp [heq])) heq
    exact ⟨hparts.1, by simpa using hparts.2⟩
  · right
    right
    exact prefix_of_prefix_length_le h'
      ((prefix_append before [x]).trans h) (by rw [length_append, length_singleton]; omega)

theorem apart (size : β → Nat) (h : PlacedAt items before x) (h' : PlacedAt items before' y) :
    (before = before' ∧ x = y) ∨ totalSize size before + size x ≤ totalSize size before' ∨
      totalSize size before' + size y ≤ totalSize size before := by
  rcases trichotomy h h' with hsame | hbefore | hbehind
  · exact .inl hsame
  · exact .inr (.inl (hbefore.end_le size))
  · exact .inr (.inr (hbehind.end_le size))

/-- Where every item has a size, a place is known by its start. -/
theorem eq_of_start_eq (size : β → Nat) (hpos : ∀ z ∈ items, 0 < size z)
    (h : PlacedAt items before x) (h' : PlacedAt items before' y)
    (hstart : totalSize size before = totalSize size before') : before = before' ∧ x = y := by
  have hx := hpos x h.mem
  have hy := hpos y h'.mem
  rcases apart size h h' with hsame | hle | hle
  · exact hsame
  · omega
  · omega

end PlacedAt

/-- Every number below the total lies in the range of an item. -/
theorem exists_placedAt_of_lt (size : β → Nat) (items : List β) {n : Nat}
    (h : n < totalSize size items) :
    ∃ before x, PlacedAt items before x ∧ totalSize size before ≤ n ∧
      n < totalSize size before + size x := by
  induction items using List.reverseRecOn with
  | nil => simp at h
  | append_singleton items x ih =>
    by_cases hlt : n < totalSize size items
    · obtain ⟨before, y, hplaced, hrange⟩ := ih hlt
      exact ⟨before, y, hplaced.append [x], hrange⟩
    · refine ⟨items, x, PlacedAt.last items x, Nat.le_of_not_lt hlt, ?_⟩
      simpa using h

end PhpEngine

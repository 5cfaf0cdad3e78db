/-
Digital search trees.  A node holds one key, with all the elements of that key in
a ring, and the subtrees below it share an aligned interval of keys between them:
the left one has its lower half and the right one its upper half.  Which keys
stand above which is otherwise open.
-/
import Mathlib.Data.Nat.Bitwise
import Mathlib.Data.List.Perm.Basic

namespace PhpEngine

/-- A tree whose nodes hold the element `head` and the further elements of its
key in the order of a ring that begins behind `head`. -/
inductive DigitalTree (α : Type) where
  | nil
  | node (head : α) (ring : List α) (left right : DigitalTree α)
deriving Repr, DecidableEq

namespace DigitalTree

variable {α : Type}

/-- All elements of the tree. -/
def elems : DigitalTree α → List α
  | nil => []
  | node head ring left right => head :: ring ++ (left.elems ++ right.elems)

@[simp] theorem elems_nil : (nil : DigitalTree α).elems = [] := rfl

theorem mem_elems_node {x head : α} {ring : List α} {left right : DigitalTree α} :
    x ∈ (node head ring left right).elems ↔
      x = head ∨ x ∈ ring ∨ x ∈ left.elems ∨ x ∈ right.elems := by
  simp only [elems, List.cons_append, List.mem_cons, List.mem_append]

theorem elems_eq_nil_iff {tree : DigitalTree α} : tree.elems = [] ↔ tree = nil := by
  cases tree with
  | nil => simp
  | node head ring left right => simp [elems]

section Covers

variable (key : α → Nat)

/-- The keys of the tree are in the interval of the `2 ^ k` numbers from `base`
on, and below the root each half of the interval has its own side. -/
def Covers : DigitalTree α → Nat → Nat → Prop
  | nil, _, _ => True
  | node head ring left right, k, base =>
    (∀ x ∈ ring, key x = key head) ∧ base ≤ key head ∧ key head < base + 2 ^ k ∧ match k with
      | 0 => left = nil ∧ right = nil
      | k + 1 => left.Covers k base ∧ right.Covers k (base + 2 ^ k)

end Covers

variable {key key' : α → Nat} {k base : Nat} {head : α} {ring : List α}
  {left right tree : DigitalTree α}

@[simp] theorem covers_nil : (nil : DigitalTree α).Covers key k base := trivial

theorem Covers.bounds (h : tree.Covers key k base) {x : α} (hx : x ∈ tree.elems) :
    base ≤ key x ∧ key x < base + 2 ^ k := by
  induction tree generalizing k base with
  | nil => simp at hx
  | node head ring left right ihl ihr =>
    obtain ⟨hring, hle, hlt, hbelow⟩ := h
    rcases mem_elems_node.mp hx with rfl | hx | hx | hx
    · exact ⟨hle, hlt⟩
    · rw [hring x hx]
      exact ⟨hle, hlt⟩
    · cases k with
      | zero => simp [hbelow.1] at hx
      | succ k =>
        have hb := ihl hbelow.1 hx
        omega
    · cases k with
      | zero => simp [hbelow.2] at hx
      | succ k =>
        have hb := ihr hbelow.2 hx
        omega

theorem Covers.congr (h : tree.Covers key k base)
    (hkey : ∀ x ∈ tree.elems, key' x = key x) : tree.Covers key' k base := by
  induction tree generalizing k base with
  | nil => trivial
  | node head ring left right ihl ihr =>
    have hhead : key' head = key head := hkey head (mem_elems_node.mpr (.inl rfl))
    have hleft : ∀ x ∈ left.elems, key' x = key x := fun x hx =>
      hkey x (mem_elems_node.mpr (.inr (.inr (.inl hx))))
    have hright : ∀ x ∈ right.elems, key' x = key x := fun x hx =>
      hkey x (mem_elems_node.mpr (.inr (.inr (.inr hx))))
    obtain ⟨hring, hle, hlt, hbelow⟩ := h
    refine ⟨?_, by rwa [hhead], by rwa [hhead], ?_⟩
    · intro x hx
      rw [hkey x (mem_elems_node.mpr (.inr (.inl hx))), hhead]
      exact hring x hx
    · cases k with
      | zero => exact hbelow
      | succ k => exact ⟨ihl hbelow.1 hleft, ihr hbelow.2 hright⟩

/-- The keys on the left are less than those on the right. -/
theorem Covers.left_lt_right (h : (node head ring left right).Covers key k base)
    {x y : α} (hx : x ∈ left.elems) (hy : y ∈ right.elems) : key x < key y := by
  obtain ⟨-, -, -, hbelow⟩ := h
  cases k with
  | zero => simp [hbelow.1] at hx
  | succ k =>
    have hx' := hbelow.1.bounds hx
    have hy' := hbelow.2.bounds hy
    omega

theorem Covers.setRoot (h : (node head ring left right).Covers key k base) {head' : α}
    {ring' : List α} (hring : ∀ x ∈ ring', key x = key head') (hle : base ≤ key head')
    (hlt : key head' < base + 2 ^ k) : (node head' ring' left right).Covers key k base :=
  ⟨hring, hle, hlt, h.2.2.2⟩

/-- The half of an aligned interval that a number is in shows in its next bit. -/
theorem testBit_eq_decide {n : Nat} (hbase : 2 ^ (k + 1) ∣ base) (hle : base ≤ n)
    (hlt : n < base + 2 ^ (k + 1)) : n.testBit k = decide (base + 2 ^ k ≤ n) := by
  obtain ⟨q, rfl⟩ := hbase
  obtain ⟨r, rfl⟩ := Nat.exists_eq_add_of_le hle
  have hr : r < 2 ^ (k + 1) := by omega
  rw [Nat.testBit_two_pow_mul_add q hr, if_pos (Nat.lt_succ_self k)]
  by_cases hbit : 2 ^ k ≤ r
  · have hone : r.testBit k = true := by
      apply Nat.testBit_of_two_pow_le_and_two_pow_add_one_gt hbit
      exact hr
    rw [hone]
    simp only [Nat.add_le_add_iff_left, hbit, decide_true]
  · have hzero : r.testBit k = false := Nat.testBit_lt_two_pow (by omega)
    rw [hzero]
    simp only [Nat.add_le_add_iff_left, hbit, decide_false]

end DigitalTree

end PhpEngine

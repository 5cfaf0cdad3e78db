/-
Counting the edges of a finite directed multigraph by the state of their
source.  A graph is a successor list for each node; a node may occur several
times among the successors of another.
-/
import Mathlib.Algebra.BigOperators.Group.Finset.Basic
import Mathlib.Algebra.Order.BigOperators.Group.Finset
import Mathlib.Logic.Relation

namespace PhpEngine

open Function

universe u

variable {ν : Type u}

/-- A path from `a` whose inner nodes, `a` included and the last one left out,
satisfy `p`. -/
def ReachVia (succ : ν → List ν) (p : ν → Prop) : ν → ν → Prop :=
  Relation.ReflTransGen fun a b => p a ∧ b ∈ succ a

def Reaches (succ : ν → List ν) : ν → ν → Prop :=
  ReachVia succ fun _ => True

section Path

variable {succ : ν → List ν} {p q : ν → Prop} {a b c : ν}

theorem ReachVia.mono (h : ReachVia succ p a b) (hpq : ∀ n, p n → q n) : ReachVia succ q a b := by
  induction h with
  | refl => exact Relation.ReflTransGen.refl
  | tail _ hlast ih => exact ih.tail ⟨hpq _ hlast.1, hlast.2⟩

theorem ReachVia.head (ha : p a) (hb : b ∈ succ a) (h : ReachVia succ p b c) :
    ReachVia succ p a c :=
  Relation.ReflTransGen.head ⟨ha, hb⟩ h

/-- What holds at the start and passes along edges holds at the end. -/
theorem ReachVia.closed (h : ReachVia succ p a b) (good : ν → Prop)
    (ha : good a) (hstep : ∀ m n, p m → good m → n ∈ succ m → good n) : good b := by
  induction h with
  | refl => exact ha
  | tail _ hlast ih => exact hstep _ _ hlast.1 ih hlast.2

/-- What passes backwards along edges and holds at the end holds at the
start. -/
theorem ReachVia.closed_back (h : ReachVia succ p a b) {good : ν → Prop}
    (hb : good b) (hstep : ∀ m n, n ∈ succ m → good n → good m) : good a := by
  induction h with
  | refl => exact hb
  | tail _ hlast ih => exact ih (hstep _ _ hlast.2 hb)

end Path

section Count

variable [DecidableEq ν]

/-- The number of edges into `x` whose source satisfies `p`. -/
def edgesFrom (succ : ν → List ν) (nodes : Finset ν) (p : ν → Bool) (x : ν) : Nat :=
  ∑ n ∈ nodes, if p n then (succ n).count x else 0

variable {succ : ν → List ν} {nodes : Finset ν} {p q : ν → Bool} {n x : ν}

theorem edgesFrom_congr (h : ∀ m ∈ nodes, p m = q m) :
    edgesFrom succ nodes p x = edgesFrom succ nodes q x := by
  apply Finset.sum_congr rfl
  intro m hm
  rw [h m hm]

/-- A source that stops to count takes its own edges away. -/
theorem edgesFrom_clear (hn : n ∈ nodes) (hp : p n = true) : edgesFrom succ nodes p x =
      edgesFrom succ nodes (update p n false) x + (succ n).count x := by
  rw [edgesFrom, edgesFrom, ← Finset.add_sum_erase nodes _ hn, ← Finset.add_sum_erase nodes _ hn]
  have hrest : ∑ m ∈ nodes.erase n, (if p m then (succ m).count x else 0) = ∑ m ∈ nodes.erase n,
        if update p n false m then (succ m).count x else 0 := by
    apply Finset.sum_congr rfl
    intro m hm
    rw [update_of_ne (Finset.ne_of_mem_erase hm)]
  rw [hrest, hp]
  simp only [if_true, update_self, Bool.false_eq_true, if_false]
  omega

theorem edgesFrom_set (hn : n ∈ nodes) (hp : p n = false) :
    edgesFrom succ nodes (update p n true) x = edgesFrom succ nodes p x + (succ n).count x := by
  have hclear : edgesFrom succ nodes (update p n true) x = edgesFrom succ nodes
        (update (update p n true) n false) x +
        (succ n).count x := edgesFrom_clear hn (by simp)
  have hback : update (update p n true) n false = p := by
    rw [update_idem, ← hp, update_eq_self]
  rw [hback] at hclear
  exact hclear

theorem edgesFrom_mono (h : ∀ m, p m = true → q m = true) :
    edgesFrom succ nodes p x ≤ edgesFrom succ nodes q x := by
  apply Finset.sum_le_sum
  intro m _
  by_cases hm : p m = true
  · rw [if_pos hm, if_pos (h m hm)]
  · rw [if_neg hm]
    exact Nat.zero_le _

theorem count_le_edgesFrom (hn : n ∈ nodes) (hp : p n = true) :
    (succ n).count x ≤ edgesFrom succ nodes p x := by
  rw [edgesFrom_clear hn hp]
  exact Nat.le_add_left _ _

/-- Without a counted edge no counted node leads to `x`. -/
theorem not_mem_of_edgesFrom_eq_zero (h : edgesFrom succ nodes p x = 0)
    (hn : n ∈ nodes) (hp : p n = true) : x ∉ succ n := by
  have hcount : (succ n).count x ≤ edgesFrom succ nodes p x :=
    count_le_edgesFrom hn hp
  rw [h, Nat.le_zero] at hcount
  exact List.count_eq_zero.mp hcount

theorem edgesFrom_eq_zero (h : ∀ m ∈ nodes, p m = true → x ∉ succ m) :
    edgesFrom succ nodes p x = 0 := by
  apply Finset.sum_eq_zero
  intro m hm
  by_cases hp : p m = true
  · rw [if_pos hp, List.count_eq_zero]
    exact h m hm hp
  · rw [if_neg hp]

end Count

end PhpEngine

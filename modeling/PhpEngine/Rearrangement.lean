/-
Values in a row of slots that change places among themselves.
-/
import Mathlib.Data.Finset.Image
import Mathlib.Data.Multiset.Range
import Mathlib.Logic.Equiv.Basic

namespace Rearrangement

variable {α : Type*}

/-- The values of the first `n` slots. -/
def contents (n : Nat) (f : Nat → α) : Multiset α :=
  (Multiset.range n).map f

theorem contents_succ (n : Nat) (f : Nat → α) : contents (n + 1) f = f n ::ₘ contents n f := by
  rw [contents, Multiset.range_succ, Multiset.map_cons]
  rfl

theorem contents_congr {n : Nat} {f g : Nat → α} (h : ∀ k < n, f k = g k) :
    contents n f = contents n g := by
  apply Multiset.map_congr rfl
  intro k hk
  exact h k (Multiset.mem_range.mp hk)

theorem mem_contents {n : Nat} {f : Nat → α} {a : α} : a ∈ contents n f ↔ ∃ k < n, f k = a := by
  simp [contents]

/-- The values of `g` are those of `f`, and only the slots from `lo` to `hi` may have got
another one. -/
def Rearranges (lo hi : Nat) (f g : Nat → α) : Prop :=
  ∃ e : Equiv.Perm Nat, (∀ k, k < lo ∨ hi < k → e k = k) ∧ g = f ∘ e

namespace Rearranges

variable {lo hi : Nat} {f g h : Nat → α}

theorem refl (lo hi : Nat) (f : Nat → α) : Rearranges lo hi f f :=
  ⟨Equiv.refl Nat, fun _ _ => rfl, rfl⟩

theorem trans (hfg : Rearranges lo hi f g) (hgh : Rearranges lo hi g h) : Rearranges lo hi f h := by
  obtain ⟨e, hout, rfl⟩ := hfg
  obtain ⟨e', hout', rfl⟩ := hgh
  refine ⟨e'.trans e, fun k hk => ?_, rfl⟩
  rw [Equiv.trans_apply, hout' k hk, hout k hk]

theorem mono {lo' hi' : Nat} (h : Rearranges lo hi f g) (hlo : lo' ≤ lo) (hhi : hi ≤ hi') :
    Rearranges lo' hi' f g := by
  obtain ⟨e, hout, rfl⟩ := h
  exact ⟨e, fun k hk => hout k (hk.imp (fun h => by omega) fun h => by omega), rfl⟩

theorem swap {i j : Nat} (hi' : lo ≤ i ∧ i ≤ hi) (hj : lo ≤ j ∧ j ≤ hi) (f : Nat → α) :
    Rearranges lo hi f (f ∘ Equiv.swap i j) := by
  refine ⟨Equiv.swap i j, fun k hk => ?_, rfl⟩
  exact Equiv.swap_apply_of_ne_of_ne (by omega) (by omega)

theorem outside (h : Rearranges lo hi f g) {k : Nat} (hk : k < lo ∨ hi < k) : g k = f k := by
  obtain ⟨e, hout, rfl⟩ := h
  rw [Function.comp_apply, hout k hk]

theorem inside (h : Rearranges lo hi f g) {k : Nat} (hk : lo ≤ k ∧ k ≤ hi) :
    ∃ m, lo ≤ m ∧ m ≤ hi ∧ g k = f m := by
  obtain ⟨e, hout, rfl⟩ := h
  refine ⟨e k, ?_⟩
  by_contra hnot
  have hfix : e (e k) = e k := hout (e k) (by
    by_contra hin
    exact hnot ⟨by omega, by omega, rfl⟩)
  have hk' := e.injective hfix
  exact hnot ⟨by omega, by omega, rfl⟩

theorem contents_eq (h : Rearranges lo hi f g) {n : Nat} (hn : hi < n) :
    contents n g = contents n f := by
  obtain ⟨e, hout, rfl⟩ := h
  have hrange : (Multiset.range n).map e = Multiset.range n := by
    have himage : (Finset.range n).map e.toEmbedding = Finset.range n := by
      ext k
      simp only [Finset.mem_map_equiv, Finset.mem_range]
      constructor
      · intro hk
        by_contra hge
        have hfix := hout k (by omega)
        have hsymm : e.symm k = k := by rw [Equiv.symm_apply_eq, hfix]
        omega
      · intro hk
        by_contra hge
        have hfix := hout (e.symm k) (by omega)
        rw [Equiv.apply_symm_apply] at hfix
        omega
    exact congrArg Finset.val himage
  rw [contents, ← Multiset.map_map, hrange]
  rfl

end Rearranges

theorem contents_swap {n i j : Nat} (hi : i < n) (hj : j < n) (f : Nat → α) :
    contents n (f ∘ Equiv.swap i j) = contents n f := by
  have hswap : Rearranges 0 (n - 1) f (f ∘ Equiv.swap i j) :=
    .swap (by omega) (by omega) f
  exact hswap.contents_eq (by omega)

end Rearrangement

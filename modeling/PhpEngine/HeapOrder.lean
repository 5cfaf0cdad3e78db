/-
Binary heaps laid out in a row of slots: the slot `k` is a child of the slot `(k - 1) / 2`.
A value that rises or sinks changes places with one other value at a time.
-/
import PhpEngine.Rearrangement
import Mathlib.Order.Defs.Unbundled

namespace HeapOrder

variable {α : Type*}

section Order

variable (le : α → α → Prop)

/-- No value is above that of its parent. -/
def Ordered (n : Nat) (f : Nat → α) : Prop :=
  ∀ k, 0 < k → k < n → le (f k) (f ((k - 1) / 2))

/-- The order with the value at `i` on its way up. -/
structure Rising (n : Nat) (f : Nat → α) (i : Nat) : Prop where
  ordered : ∀ k, 0 < k → k < n → k ≠ i → le (f k) (f ((k - 1) / 2))
  below : 0 < i → ∀ k, 0 < k → k < n → (k - 1) / 2 = i → le (f k) (f ((i - 1) / 2))

/-- The order with the value at `i` on its way down. -/
structure Sinking (n : Nat) (f : Nat → α) (i : Nat) : Prop where
  ordered : ∀ k, 0 < k → k < n → (k - 1) / 2 ≠ i → le (f k) (f ((k - 1) / 2))
  below : 0 < i → ∀ k, 0 < k → k < n → (k - 1) / 2 = i → le (f k) (f ((i - 1) / 2))

variable {le} {n i j : Nat} {f : Nat → α}

theorem Ordered.rising (h : Ordered le n f) : Rising le (n + 1) f n where
  ordered k hk hkn hne := h k hk (by omega)
  below _ k _ hkn hpar := absurd hpar (by omega)

theorem Rising.ordered_of_le (h : Rising le n f i)
    (hle : 0 < i → le (f i) (f ((i - 1) / 2))) : Ordered le n f := by
  intro k hk hkn
  by_cases hki : k = i
  · subst hki
    exact hle hk
  · exact h.ordered k hk hkn hki

theorem Sinking.ordered_of_le (h : Sinking le n f i)
    (hle : ∀ k, 0 < k → k < n → (k - 1) / 2 = i → le (f k) (f i)) : Ordered le n f := by
  intro k hk hkn
  by_cases hpar : (k - 1) / 2 = i
  · rw [hpar]
    exact hle k hk hkn hpar
  · exact h.ordered k hk hkn hpar

/-- A value below one of its children changes places with the greater child. -/
theorem Sinking.step (h : Sinking le n f i) (hj : 0 < j) (hjn : j < n)
    (hpar : (j - 1) / 2 = i) (hle : le (f i) (f j))
    (hmax : ∀ k, 0 < k → k < n → (k - 1) / 2 = i → k ≠ j → le (f k) (f j)) :
    Sinking le n (f ∘ Equiv.swap i j) j := by
  have hfi : (f ∘ Equiv.swap i j) i = f j := by simp
  have hfj : (f ∘ Equiv.swap i j) j = f i := by simp
  have hother : ∀ k, k ≠ i → k ≠ j → (f ∘ Equiv.swap i j) k = f k := by
    intro k hki hkj
    simp [Equiv.swap_apply_of_ne_of_ne hki hkj]
  constructor
  · intro k hk hkn hkpar
    by_cases hki : k = i
    · subst hki
      rw [hfi, hother _ (by omega) hkpar]
      exact h.below hk j hj hjn hpar
    · by_cases hpari : (k - 1) / 2 = i
      · rw [hpari, hfi]
        by_cases hkj : k = j
        · subst hkj
          rw [hfj]
          exact hle
        · rw [hother k hki hkj]
          exact hmax k hk hkn hpari hkj
      · have hkj : k ≠ j := by
          rintro rfl
          exact hpari hpar
        rw [hother k hki hkj, hother _ hpari hkpar]
        exact h.ordered k hk hkn hpari
  · intro _ k hk hkn hkpar
    rw [hpar, hfi, hother k (by omega) (by omega)]
    have hkle := h.ordered k hk hkn (by omega)
    rwa [hkpar] at hkle

/-- A new value at the top of an ordered row, and another end of it. -/
theorem Ordered.sinking {m : Nat} (h : Ordered le n f) (hmn : m ≤ n) {g : Nat → α}
    (hg : ∀ k, 0 < k → k < m → g k = f k) : Sinking le m g 0 := by
  constructor
  · intro k hk hkm hpar
    rw [hg k hk hkm, hg ((k - 1) / 2) (by omega) (by omega)]
    exact h k hk (by omega)
  · intro h0
    exact absurd h0 (lt_irrefl 0)

variable [IsTrans α le]

/-- A value above its parent's takes the place of the parent. -/
theorem Rising.step (h : Rising le n f i) (hi : 0 < i) (hin : i < n)
    (hle : le (f ((i - 1) / 2)) (f i)) :
    Rising le n (f ∘ Equiv.swap i ((i - 1) / 2)) ((i - 1) / 2) := by
  generalize hp : (i - 1) / 2 = p at *
  have hfi : (f ∘ Equiv.swap i p) i = f p := by simp
  have hfp : (f ∘ Equiv.swap i p) p = f i := by simp
  have hother : ∀ k, k ≠ i → k ≠ p → (f ∘ Equiv.swap i p) k = f k := by
    intro k hki hkp
    simp [Equiv.swap_apply_of_ne_of_ne hki hkp]
  constructor
  · intro k hk hkn hkp
    by_cases hki : k = i
    · subst hki
      rw [hfi, hp, hfp]
      exact hle
    · rw [hother k hki hkp]
      have hkle := h.ordered k hk hkn hki
      by_cases hpari : (k - 1) / 2 = i
      · rw [hpari, hfi, ← hp]
        exact h.below hi k hk hkn hpari
      · by_cases hparp : (k - 1) / 2 = p
        · rw [hparp, hfp]
          rw [hparp] at hkle
          exact IsTrans.trans _ _ _ hkle hle
        · rw [hother _ hpari hparp]
          exact hkle
  · intro hp0 k hk hkn hpar
    have hgrand : le (f p) (f ((p - 1) / 2)) := h.ordered p hp0 (by omega) (by omega)
    rw [hother ((p - 1) / 2) (by omega) (by omega)]
    by_cases hki : k = i
    · subst hki
      rw [hfi]
      exact hgrand
    · rw [hother k hki (by omega)]
      have hkle := h.ordered k hk hkn hki
      rw [hpar] at hkle
      exact IsTrans.trans _ _ _ hkle hgrand

theorem Ordered.le_top [Std.Refl le] (h : Ordered le n f) {k : Nat} (hk : k < n) :
    le (f k) (f 0) := by
  induction k using Nat.strong_induction_on with
  | _ k ih =>
    rcases Nat.eq_zero_or_pos k with rfl | hpos
    · exact Std.Refl.refl _
    · exact IsTrans.trans _ _ _ (h k hpos hk) (ih ((k - 1) / 2) (by omega) (by omega))

end Order

end HeapOrder

/-
Doubly linked rings over an arbitrary node type.  A ring is a sentinel node
together with the list of the other nodes met when the forward links are
followed from it.  A list that is terminated by null pointers is the ring
whose sentinel is the null pointer: its forward link is the head pointer and
its backward link the tail pointer.
-/
import Mathlib.Data.List.Nodup
import Mathlib.Data.List.Lattice
import Mathlib.Data.List.Perm.Subperm

namespace PhpEngine

open List Function

universe u

variable {β : Type u}

/-- The forward links from `s` pass through exactly the nodes of `l` and come
back to `s`, and every backward link undoes a forward one.  The links are
described gap by gap: a gap is a way of cutting `l` in two. -/
structure Ring (nxt prv : β → β) (s : β) (l : List β) : Prop where
  nodup : (s :: l).Nodup
  gap : ∀ l₁ l₂, l = l₁ ++ l₂ → nxt (l₁.getLastD s) = l₂.headD s ∧ prv (l₂.headD s) = l₁.getLastD s

theorem getLastD_mem_cons (s : β) (l : List β) : l.getLastD s ∈ s :: l := by
  induction l generalizing s with
  | nil => simp
  | cons head tail ih =>
    rw [getLastD_cons]
    exact mem_cons_of_mem s (ih head)

theorem getLastD_mem_of_ne_nil (s : β) {l : List β} (hl : l ≠ []) : l.getLastD s ∈ l := by
  cases l with
  | nil => exact absurd rfl hl
  | cons head tail =>
    rw [getLastD_cons]
    exact getLastD_mem_cons head tail

theorem headD_mem_cons (s : β) (l : List β) : l.headD s ∈ s :: l := by
  cases l <;> simp

theorem headD_mem_of_ne_nil (s : β) {l : List β} (hl : l ≠ []) : l.headD s ∈ l := by
  cases l with
  | nil => exact absurd rfl hl
  | cons head tail => simp

theorem headD_append_of_ne_nil (s : β) {l₁ : List β} (hl : l₁ ≠ [])
    (l₂ : List β) : (l₁ ++ l₂).headD s = l₁.headD s := by
  cases l₁ with
  | nil => exact absurd rfl hl
  | cons head tail => rfl

theorem getLastD_append_of_ne_nil (s : β) (l₁ : List β) {l₂ : List β}
    (hl : l₂ ≠ []) : (l₁ ++ l₂).getLastD s = l₂.getLastD s := by
  rw [getLastD_eq_getLast?, getLastD_eq_getLast?, getLast?_append_of_ne_nil l₁ hl]

namespace Ring

variable {nxt prv nxt' prv' : β → β} {s a : β} {l l₁ l₂ : List β}

theorem nil_iff : Ring nxt prv s [] ↔ nxt s = s ∧ prv s = s := by
  constructor
  · intro h
    exact h.gap [] [] rfl
  · intro h
    refine ⟨by simp, ?_⟩
    intro l₁ l₂ hl
    obtain ⟨rfl, rfl⟩ := append_eq_nil_iff.mp hl.symm
    exact h

theorem sentinel_not_mem (h : Ring nxt prv s l) : s ∉ l :=
  (nodup_cons.mp h.nodup).1

theorem nodup_nodes (h : Ring nxt prv s l) : l.Nodup :=
  (nodup_cons.mp h.nodup).2

theorem nxt_sentinel (h : Ring nxt prv s l) : nxt s = l.headD s :=
  (h.gap [] l rfl).1

theorem prv_sentinel (h : Ring nxt prv s l) : prv s = l.getLastD s :=
  (h.gap l [] (by simp)).2

theorem nxt_node (h : Ring nxt prv s (l₁ ++ a :: l₂)) : nxt a = l₂.headD s := by
  have hgap := (h.gap (l₁ ++ [a]) l₂ (by simp)).1
  rwa [getLastD_append_of_ne_nil s l₁ (by simp)] at hgap

theorem prv_node (h : Ring nxt prv s (l₁ ++ a :: l₂)) : prv a = l₁.getLastD s :=
  (h.gap l₁ (a :: l₂) rfl).2

theorem congr (h : Ring nxt prv s l) (hnxt : ∀ x ∈ s :: l, nxt' x = nxt x)
    (hprv : ∀ x ∈ s :: l, prv' x = prv x) : Ring nxt' prv' s l := by
  refine ⟨h.nodup, ?_⟩
  intro l₁ l₂ hl
  have hlast : l₁.getLastD s ∈ s :: l := by
    rw [hl]
    rcases mem_cons.mp (getLastD_mem_cons s l₁) with heq | hmem
    · rw [heq]
      exact mem_cons_self
    · exact mem_cons_of_mem s (mem_append_left l₂ hmem)
  have hhead : l₂.headD s ∈ s :: l := by
    rw [hl]
    rcases mem_cons.mp (headD_mem_cons s l₂) with heq | hmem
    · rw [heq]
      exact mem_cons_self
    · exact mem_cons_of_mem s (mem_append_right l₁ hmem)
  rw [hnxt _ hlast, hprv _ hhead]
  exact h.gap l₁ l₂ hl

/-- Two cuts of one list: they coincide, or one lies strictly inside the
other. -/
theorem append_eq_append_cases {l₁ l₂ m₁ m₂ : List β} (h : l₁ ++ l₂ = m₁ ++ m₂) :
    (m₁ = l₁ ∧ m₂ = l₂) ∨ (∃ k, k ≠ [] ∧ l₁ = m₁ ++ k ∧ m₂ = k ++ l₂) ∨
      (∃ k, k ≠ [] ∧ m₁ = l₁ ++ k ∧ l₂ = k ++ m₂) := by
  rcases append_eq_append_iff.mp h with ⟨k, hm, hl⟩ | ⟨k, hl, hm⟩
  · by_cases hk : k = []
    · subst hk
      exact .inl ⟨by simpa using hm, by simpa using hl.symm⟩
    · exact .inr (.inr ⟨k, hk, hm, hl⟩)
  · by_cases hk : k = []
    · subst hk
      exact .inl ⟨by simpa using hl.symm, by simpa using hm⟩
    · exact .inr (.inl ⟨k, hk, hl, hm⟩)

variable [DecidableEq β]

/-- Unlinking a node: its neighbours are linked to each other. -/
theorem remove (h : Ring nxt prv s (l₁ ++ a :: l₂)) : Ring (update nxt (prv a) (nxt a))
      (update prv (nxt a) (prv a)) s (l₁ ++ l₂) := by
  have hnodup := h.nodup
  rw [h.nxt_node, h.prv_node]
  refine ⟨?_, ?_⟩
  · simp only [nodup_cons, mem_append, mem_cons, nodup_append] at hnodup ⊢
    grind
  intro m₁ m₂ hm
  rcases append_eq_append_cases hm with
    ⟨rfl, rfl⟩ | ⟨k, hk, rfl, rfl⟩ | ⟨k, hk, rfl, rfl⟩
  · simp
  · have hgap := h.gap m₁ (k ++ a :: l₂) (by simp)
    rw [headD_append_of_ne_nil s hk] at hgap ⊢
    have hlast' := getLastD_mem_cons s m₁
    have hhead := headD_mem_of_ne_nil s hk
    have hhead' := headD_mem_cons s l₂
    simp only [nodup_cons, mem_append, mem_cons, nodup_append] at hnodup hlast' hhead'
    rw [update_of_ne (by grind), update_of_ne (by grind)]
    exact hgap
  · have hgap := h.gap (l₁ ++ a :: k) m₂ (by simp)
    rw [getLastD_append_of_ne_nil s l₁ (by simp), getLastD_cons] at hgap
    rw [headD_append_of_ne_nil s hk, getLastD_append_of_ne_nil s l₁ hk]
    have hsame : k.getLastD a = k.getLastD s := by
      rw [getLastD_eq_getLast?, getLastD_eq_getLast?, getLast?_eq_some_getLast hk]
      rfl
    have hlast' := getLastD_mem_cons s l₁
    have hhead := headD_mem_of_ne_nil s hk
    have hhead' := headD_mem_cons s m₂
    rw [hsame] at hgap
    simp only [nodup_cons, mem_append, mem_cons, nodup_append] at hnodup hlast' hhead'
    rw [update_of_ne (by grind), update_of_ne (by grind)]
    exact hgap

theorem insert (h : Ring nxt prv s (l₁ ++ l₂)) (ha : a ∉ s :: (l₁ ++ l₂)) : Ring
      (update (update nxt a (l₂.headD s)) (l₁.getLastD s) a)
      (update (update prv a (l₁.getLastD s)) (l₂.headD s) a)
      s (l₁ ++ a :: l₂) := by
  have hnodup := h.nodup
  have hlastmem := getLastD_mem_cons s l₁
  have hheadmem := headD_mem_cons s l₂
  refine ⟨?_, ?_⟩
  · simp only [nodup_cons, mem_append, mem_cons, nodup_append] at hnodup ha ⊢
    grind
  intro m₁ m₂ hm
  rcases append_eq_append_cases hm with
    ⟨rfl, rfl⟩ | ⟨k, hk, rfl, rfl⟩ | ⟨k, hk, rfl, hl₂⟩
  · simp only [headD_cons, update_self, true_and]
    rw [update_of_ne, update_self]
    simp only [mem_append, mem_cons] at ha hheadmem
    grind
  · have hgap := h.gap m₁ (k ++ l₂) (by simp)
    rw [headD_append_of_ne_nil s hk] at hgap ⊢
    have hlast' := getLastD_mem_cons s m₁
    have hhead := headD_mem_of_ne_nil s hk
    simp only [nodup_cons, mem_append, mem_cons, nodup_append] at hnodup hlast' hheadmem ha
    rw [update_of_ne (by grind), update_of_ne (by grind),
      update_of_ne (by grind), update_of_ne (by grind)]
    exact hgap
  · cases k with
    | nil => exact absurd rfl hk
    | cons b k' =>
      obtain ⟨rfl, rfl⟩ : a = b ∧ l₂ = k' ++ m₂ := by
        simpa using hl₂
      rw [getLastD_append_of_ne_nil s l₁ (by simp), getLastD_cons]
      by_cases hk' : k' = []
      · subst hk'
        simp only [getLastD_nil, nil_append, update_self, and_true]
        rw [update_of_ne, update_self]
        grind
      · have hgap := h.gap (l₁ ++ k') m₂ (by simp)
        rw [getLastD_append_of_ne_nil s l₁ hk'] at hgap
        rw [headD_append_of_ne_nil s hk'] at hheadmem ⊢
        have hsame : k'.getLastD a = k'.getLastD s := by
          rw [getLastD_eq_getLast?, getLastD_eq_getLast?, getLast?_eq_some_getLast hk']
          rfl
        rw [hsame]
        have hlast := getLastD_mem_of_ne_nil s hk'
        have hhead := headD_mem_of_ne_nil s hk'
        have hhead' := headD_mem_cons s m₂
        simp only [nodup_cons, mem_append, mem_cons, nodup_append] at hnodup hlastmem hhead' ha
        rw [update_of_ne (by grind),
          update_of_ne (by grind),
          update_of_ne (by grind),
          update_of_ne (by grind)]
        exact hgap

end Ring

/-- A list of distinct numbers below `n` has at most `n` of them. -/
theorem length_le_of_nodup_lt {l : List Nat} {n : Nat} (hl : l.Nodup)
    (hlt : ∀ p ∈ l, p < n) : l.length ≤ n := by
  have hsub : l ⊆ List.range n := fun p hp => mem_range.mpr (hlt p hp)
  simpa using (subperm_of_subset hl hsub).length_le

section Walk

variable [DecidableEq β]

/-- The loop `for (p = start; p != s && !test(p); p = nxt(p))`, cut off after
`fuel` rounds.  The sentinel is the answer when no node passes the test. -/
def ringFind (nxt : β → β) (s : β) (test : β → Bool) : Nat → β → Option β
  | 0, _ => none
  | fuel + 1, p =>
    if p = s then some s
    else if test p then some p
    else ringFind nxt s test fuel (nxt p)

/-- A search that starts at a gap answers with the first passing node behind
it, as soon as the fuel exceeds the number of nodes left. -/
theorem ringFind_eq {nxt prv : β → β} {s : β} {l₁ l₂ : List β}
    (h : Ring nxt prv s (l₁ ++ l₂)) (test : β → Bool) {fuel : Nat} (hfuel : l₂.length < fuel) :
    ringFind nxt s test fuel (l₂.headD s) = some ((l₂.find? test).getD s) := by
  induction l₂ generalizing l₁ fuel with
  | nil =>
    obtain ⟨n, rfl⟩ : ∃ n, fuel = n + 1 := ⟨fuel - 1, by simp at hfuel; omega⟩
    simp [ringFind]
  | cons a rest ih =>
    obtain ⟨n, rfl⟩ : ∃ n, fuel = n + 1 := ⟨fuel - 1, by simp at hfuel; omega⟩
    have hne : a ≠ s := by
      intro heq
      exact h.sentinel_not_mem (by simp [heq])
    have hrest : rest.length < n := by
      simp only [length_cons] at hfuel
      omega
    have hnxt := h.nxt_node
    change ringFind nxt s test (n + 1) a = _
    rw [ringFind, if_neg hne]
    by_cases htest : test a = true
    · simp [htest]
    · have htest' : test a = false := by simpa using htest
      have hgap : Ring nxt prv s ((l₁ ++ [a]) ++ rest) := by simpa using h
      rw [if_neg htest, hnxt, ih hgap hrest, find?_cons, htest']

theorem ringFind_start {nxt prv : β → β} {s : β} {l : List β}
    (h : Ring nxt prv s l) (test : β → Bool) {fuel : Nat} (hfuel : l.length < fuel) :
    ringFind nxt s test fuel (nxt s) = some ((l.find? test).getD s) := by
  have hgap : Ring nxt prv s ([] ++ l) := h
  rw [h.nxt_sentinel, ringFind_eq hgap test hfuel]

end Walk

end PhpEngine

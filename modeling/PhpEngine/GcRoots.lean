/-
The root buffers.  The ring of possible roots and the list of unused buffers
share the `prev` links; a buffer that leaves the one enters the other.
-/
import PhpEngine.GcMark
import PhpEngine.GcScan
import PhpEngine.GcCollect
import PhpEngine.Ring

namespace PhpEngine

open List Function

/-- The list of unused buffers, linked through `prev`. -/
def UnusedList (s : GcState) : RootPtr → List Nat → Prop
  | ptr, [] => ptr = .null
  | ptr, i :: rest => ptr = .slot i ∧ UnusedList s (s.prev (.slot i)) rest

theorem UnusedList.congr {s s' : GcState} {ptr : RootPtr} {l : List Nat} (h : UnusedList s ptr l)
    (hprev : ∀ i ∈ l, s'.prev (.slot i) = s.prev (.slot i)) : UnusedList s' ptr l := by
  induction l generalizing ptr with
  | nil => exact h
  | cons i rest ih =>
    obtain ⟨hptr, hrest⟩ := h
    refine ⟨hptr, ?_⟩
    rw [hprev i mem_cons_self]
    exact ih hrest fun j hj => hprev j (mem_cons_of_mem i hj)

/-- The buffers below `first_unused` are on the ring, as `slots`, or on the
list of unused ones, as `spare`. -/
structure Buffers (s : GcState) (slots spare : List Nat) : Prop where
  ring : Ring s.next s.prev .roots (slots.map .slot)
  unused : UnusedList s s.unused spare
  disjoint : ∀ i ∈ spare, i ∉ slots
  covers : ∀ i, i < s.firstUnused ↔ i ∈ slots ∨ i ∈ spare

section Buffers

variable {s s' : GcState} {slots spare before after : List Nat} {i : Nat}

theorem Buffers.congr (h : Buffers s slots spare) (hnext : s'.next = s.next)
    (hprev : s'.prev = s.prev) (hunused : s'.unused = s.unused)
    (hfirst : s'.firstUnused = s.firstUnused) : Buffers s' slots spare := by
  refine ⟨by rw [hnext, hprev]; exact h.ring, ?_, h.disjoint, ?_⟩
  · rw [hunused]
    exact h.unused.congr fun _ _ => by rw [hprev]
  · intro j
    rw [hfirst]
    exact h.covers j

theorem Buffers.nodup (h : Buffers s slots spare) : slots.Nodup :=
  List.Nodup.of_map _ h.ring.nodup_nodes

theorem Buffers.length_lt (h : Buffers s slots spare) : slots.length < s.firstUnused + 1 :=
  Nat.lt_succ_of_le (length_le_of_nodup_lt h.nodup fun i hi => (h.covers i).mpr (Or.inl hi))

theorem Buffers.next_slot (h : Buffers s (before ++ i :: after) spare) :
    s.next (.slot i) = (after.map .slot).headD .roots := by
  have hring := h.ring
  rw [map_append, map_cons] at hring
  exact hring.nxt_node

theorem Buffers.next_roots (h : Buffers s slots spare) :
    s.next .roots = (slots.map .slot).headD .roots :=
  h.ring.nxt_sentinel

/-- `gc_remove_from_buffer`: the buffer goes from the ring to the front of
the unused list and keeps its `next`. -/
theorem Buffers.remove (h : Buffers s (before ++ i :: after) spare) :
    Buffers (gcRemoveFromBuffer s (.slot i)) (before ++ after) (i :: spare) ∧
      (gcRemoveFromBuffer s (.slot i)).next (.slot i) = s.next (.slot i) := by
  have hring := h.ring
  rw [map_append, map_cons] at hring
  have hnodup := hring.nodup
  have hnextmem := headD_mem_cons RootPtr.roots (after.map RootPtr.slot)
  have hprevmem := getLastD_mem_cons RootPtr.roots (before.map RootPtr.slot)
  have hnext : s.next (.slot i) ≠ .slot i := by
    rw [hring.nxt_node]
    intro heq
    rw [heq] at hnextmem
    grind
  have hprev : s.prev (.slot i) ≠ .slot i := by
    rw [hring.prv_node]
    intro heq
    rw [heq] at hprevmem
    grind
  -- The second statement reads `root->prev` after the first store.
  have hfields : (gcRemoveFromBuffer s (.slot i)).next =
        update s.next (s.prev (.slot i)) (s.next (.slot i)) ∧
      (gcRemoveFromBuffer s (.slot i)).prev = update (update s.prev (s.next (.slot i))
          (s.prev (.slot i))) (.slot i) s.unused := by
    simp [gcRemoveFromBuffer, update_of_ne hnext.symm]
  have hmem : ∀ j, RootPtr.slot j ∈ (before ++ after).map RootPtr.slot ↔ j ∈ before ++ after := by
    simp
  have hslots : (before ++ i :: after).Nodup := h.nodup
  have hi : i ∉ before ++ after := by
    simp only [nodup_append, nodup_cons, mem_append, mem_cons] at hslots ⊢
    grind
  have hremoved := hring.remove
  refine ⟨⟨?_, ?_, ?_, ?_⟩, ?_⟩
  · rw [hfields.1, hfields.2, map_append]
    apply hremoved.congr
    · intro x _
      rfl
    · intro x hx
      have hxi : x ≠ .slot i := by
        rintro rfl
        rw [← map_append] at hx
        rcases mem_cons.mp hx with heq | hx
        · simp at heq
        · exact hi ((hmem i).mp hx)
      rw [update_of_ne hxi]
  · refine ⟨rfl, ?_⟩
    rw [hfields.2, update_self]
    apply h.unused.congr
    intro j hj
    have hnot := h.disjoint j hj
    have hji : j ≠ i := by
      rintro rfl
      exact hnot (by simp)
    have hjnext : RootPtr.slot j ≠ s.next (.slot i) := by
      rw [hring.nxt_node]
      intro heq
      rw [← heq] at hnextmem
      have hjafter : j ∈ after := by simpa using hnextmem
      exact hnot (by simp [hjafter])
    rw [hfields.2, update_of_ne (by simpa using hji), update_of_ne hjnext]
  · intro j hj
    rcases mem_cons.mp hj with rfl | hj
    · exact hi
    · intro hmem
      apply h.disjoint j hj
      simp only [mem_append, mem_cons] at hmem ⊢
      tauto
  · intro j
    change j < s.firstUnused ↔ _
    rw [h.covers j]
    simp only [mem_append, mem_cons]
    tauto
  · rw [hfields.1, update_of_ne hprev.symm]

/-- The loop rule.  `done` are the buffers that the body left on the ring and
`todo` those it has not come to. -/
theorem rootsLoop_rule {body : Nat → GcState → Option GcState}
    {inv : List Nat → List Nat → GcState → Prop} (hstep : ∀ done i todo s, inv done (i :: todo) s →
      ∃ s' done', body i s = some s' ∧ inv done' todo s' ∧
        s'.next (.slot i) = (todo.map .slot).headD .roots)
    (done todo : List Nat) (fuel : Nat) (hfuel : todo.length < fuel) (hinv : inv done todo s) :
    ∃ s' done', rootsLoop body fuel ((todo.map .slot).headD .roots) s =
      some s' ∧ inv done' [] s' := by
  induction todo generalizing done fuel s with
  | nil =>
    obtain ⟨n, rfl, -⟩ := exists_succ_of_lt hfuel
    exact ⟨s, done, rfl, hinv⟩
  | cons i rest ih =>
    obtain ⟨n, rfl, hrest⟩ := exists_succ_of_lt hfuel
    obtain ⟨s₁, done₁, hrun, hinv₁, hnext⟩ := hstep done i rest s hinv
    obtain ⟨s', done', hloop, hinv'⟩ := ih done₁ n hrest hinv₁
    refine ⟨s', done', ?_, hinv'⟩
    change (body i s).bind (fun s => rootsLoop body n (s.next (.slot i)) s) = _
    rw [hrun, Option.bind_some, hnext, hloop]

end Buffers

end PhpEngine

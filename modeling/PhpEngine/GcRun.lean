/-
The collect phase and the whole run.  A white root is taken up from its own
buffer, at the moment its address is cleared; what else is white is reached
from such a root.
-/
import PhpEngine.GcPhases
import Mathlib.Algebra.BigOperators.Group.Finset.Piecewise

namespace PhpEngine

open List

/-- The list so far, in the collect phase: its zvals are those that are not
white any more, and each has one reference more than the ledger asks for. -/
structure FreeInv (heap : Heap) (owed : Node → Nat) (s₂ s : GcState) (free : List Nat) : Prop where
  list : FreeList s s.zvalToFree free
  nodup : free.Nodup
  mem : ∀ z, z ∈ free ↔ s₂.color (.zval z) = .white ∧ s.color (.zval z) ≠ .white
  balanced : ZvalBalanced heap s (fun x => owed x + (free.map Node.zval).count x) fun _ => 0

/-- Roots in `todo` have their address still.  They are the only white nodes
that the traversals pass over. -/
structure CollectInv (heap : Heap) (owed : Node → Nat) (s₂ : GcState)
    (kept todo : List Nat) (s : GcState) : Prop where
  buffers : ∃ spare, Buffers s todo spare
  sub : ∀ i ∈ todo, i ∈ kept
  root : s.root = s₂.root
  firstUnused : s.firstUnused = s₂.firstUnused
  objCount : ∀ handle, s.refcount (.obj handle) = s₂.refcount (.obj handle)
  untracked : ∀ n, heap.tracked n = false → s.refcount n = s₂.refcount n
  word : ∀ i ∈ todo, s.word (s₂.root i) = s₂.word (s₂.root i)
  step : ∀ n, s.color n = s₂.color n ∨ s₂.color n = .white ∧ counted s n = true
  passed : ∀ n, s.color n = .white → s.isWhite n = true ∨ ∃ i ∈ todo, s₂.root i = n
  taken : ∀ i ∈ kept, i ∈ todo ∨ s.color (s₂.root i) ≠ .white
  closed : ∀ n, s₂.color n = .white → s.color n ≠ .white →
    ∀ c ∈ heap.succ n, s.color c ≠ .white ∨ ∃ i ∈ todo, s₂.root i = c
  free : ∃ free, FreeInv heap owed s₂ s free

section Collect

variable {heap : Heap} {owed : Node → Nat} {s₀ s₂ s s' : GcState}
  {kept todo : List Nat} {i depth : Nat}

theorem Scanned.collectInv (h : Scanned heap owed s₀ kept s₂) :
    CollectInv heap owed s₂ kept kept s₂ where
  buffers := h.buffers
  sub := fun _ hi => hi
  root := rfl
  firstUnused := rfl
  objCount := fun _ => rfl
  untracked := fun _ _ => rfl
  word := fun _ _ => rfl
  step := fun _ => Or.inl rfl
  passed := fun n hn => by
    by_cases hroot : ∃ i ∈ kept, s₂.root i = n
    · exact Or.inr hroot
    · have hptr := h.ptrNull n fun i hi heq => hroot ⟨i, hi, heq⟩
      have hword : s₂.word n = ⟨.null, .white⟩ :=
        GcWord.ext hptr hn
      exact Or.inl (by simp [GcState.isWhite, hword])
  taken := fun _ hi => Or.inl hi
  closed := fun _ hn hn' => absurd hn hn'
  free := ⟨[], by rw [h.zvalToFree]; rfl, nodup_nil, by simp,
    fun z hz => by simpa using h.balanced (.zval z) hz⟩

theorem CollectInv.not_white (h : CollectInv heap owed s₂ kept todo s)
    {n : Node} (hn : s₂.color n ≠ .white) : s.color n ≠ .white := by
  rcases h.step n with heq | ⟨hwhite, _⟩
  · rwa [heq]
  · exact absurd hwhite hn

/-- What the visit to one root does to the colours: clearing the address
shows the root to the traversal, which then takes up what it reaches. -/
structure Takes (s : GcState) (i : Nat) (todo : List Nat) (s' : GcState) :
    Prop where
  step : ∀ n, s'.color n = s.color n ∨ s.color n = .white ∧ counted s' n = true
  passed : ∀ n, s'.color n = .white → s'.isWhite n = true ∨ ∃ j ∈ todo, s.root j = n
  taken : s'.color (s.root i) ≠ .white

theorem CollectInv.takes (h : CollectInv heap owed s₂ kept (i :: todo) s)
    {new : List Nat} (hcollects : Collects heap [s.root i] [] [] new
      (s.clearAddress (s.root i)) s') : Takes s i todo s' := by
  have hcolor := color_clearAddress s (s.root i)
  have hstep : ∀ n, s'.color n = s.color n ∨ s.color n = .white ∧ counted s' n = true := by
    intro n
    rcases hcollects.step n with heq | ⟨hwhite, hcounted⟩
    · refine .inl ?_
      rw [← hcolor n, GcState.color, GcState.color, heq]
    · refine .inr ⟨?_, hcounted⟩
      rw [← hcolor n]
      exact color_of_isWhite hwhite
  -- Still white means untouched since the address was cleared.
  have hword : ∀ n, s'.color n = .white → s'.word n = (s.clearAddress (s.root i)).word n := by
    intro n hn
    rcases hcollects.step n with heq | ⟨_, hcounted⟩
    · exact heq
    · simp [counted, hn] at hcounted
  have htaken : s'.color (s.root i) ≠ .white := by
    intro hn
    have hptr : (s'.word (s.root i)).ptr = .null := by
      rw [hword _ hn, ptr_clearAddress_self]
    have hnull : s'.word (s.root i) = ⟨.null, .white⟩ := GcWord.ext hptr hn
    have hdone := hcollects.done (s.root i) mem_cons_self
    simp [GcState.isWhite, hnull] at hdone
  refine ⟨hstep, ?_, htaken⟩
  intro n hn
  have hni : n ≠ s.root i := by
    rintro rfl
    exact htaken hn
  have hsame : s'.word n = s.word n := by
    rw [hword n hn, word_clearAddress_of_ne s hni]
  have hwhite : s.color n = .white := by
    rw [← hn, GcState.color, GcState.color, hsame]
  rcases h.passed n hwhite with hpassed | ⟨j, hj, hroot⟩
  · exact .inl (by rw [isWhite_congr hsame, hpassed])
  · rw [← h.root] at hroot
    rcases mem_cons.mp hj with rfl | hj
    · exact absurd hroot.symm hni
    · exact .inr ⟨j, hj, hroot⟩

theorem Takes.not_white (h : Takes s i todo s') {n : Node}
    (hn : s.color n ≠ .white) : s'.color n ≠ .white := by
  rcases h.step n with heq | ⟨hwhite, _⟩
  · rwa [heq]
  · exact absurd hwhite hn

theorem FreeInv.collect {free new : List Nat} (h : FreeInv heap owed s₂ s free)
    (hroot : s.word (s.root i) = s₂.word (s.root i))
    (hmono : ∀ n, s.color n = .white → s₂.color n = .white) (htakes : Takes s i todo s')
    (hcollects : Collects heap [s.root i] [] [] new (s.clearAddress (s.root i)) s')
    (hpays : Pays heap [] new (s.clearAddress (s.root i)) s') :
    FreeInv heap owed s₂ s' (new ++ free) := by
  have hcolor := color_clearAddress s (s.root i)
  have hold : ∀ z ∈ free, Node.zval z ≠ s.root i := by
    intro z hz heq
    obtain ⟨hwhite, hnot⟩ := (h.mem z).mp hz
    apply hnot
    rw [← hwhite, heq, GcState.color, GcState.color, hroot]
  have hlist : FreeList (s.clearAddress (s.root i)) s.zvalToFree free :=
    h.list.congr fun z hz => word_clearAddress_of_ne s (hold z hz)
  have hnew : ∀ z, z ∈ new ↔ s.color (.zval z) = .white ∧ s'.color (.zval z) ≠ .white := by
    intro z
    have hcollected := hcollects.collected z
    constructor
    · intro hz
      obtain ⟨hwhite, hdone⟩ := hcollected.mpr (.inl hz)
      refine ⟨by rw [← hcolor]; exact color_of_isWhite hwhite, ?_⟩
      rcases hcollects.step (.zval z) with heq | ⟨_, hcounted⟩
      · rw [isWhite_congr heq, hwhite] at hdone
        cases hdone
      · intro hz'
        simp [counted, hz'] at hcounted
    · rintro ⟨hwhite, hnot⟩
      rcases hcollects.step (.zval z) with heq | ⟨hz, hcounted⟩
      · exfalso
        apply hnot
        rw [GcState.color, heq]
        exact (hcolor _).trans hwhite
      · have hmem := hcollected.mp ⟨hz, isWhite_eq_false hcounted⟩
        simpa using hmem
  refine ⟨hcollects.list free hlist, ?_, ?_, ?_⟩
  · rw [nodup_append]
    refine ⟨by simpa using hcollects.nodup, h.nodup, ?_⟩
    rintro a ha b hb rfl
    exact ((h.mem a).mp hb).2 ((hnew a).mp ha).1
  · intro z
    rw [mem_append, hnew z, h.mem z]
    constructor
    · rintro (⟨hwhite, hnot⟩ | ⟨hwhite, hnot⟩)
      · exact ⟨hmono _ hwhite, hnot⟩
      · exact ⟨hwhite, htakes.not_white hnot⟩
    · rintro ⟨hwhite, hnot⟩
      by_cases hz : s.color (.zval z) = .white
      · exact .inl ⟨hz, hnot⟩
      · exact .inr ⟨hwhite, hz⟩
  · have hcleared : ZvalBalanced heap (s.clearAddress (s.root i))
        (fun x => owed x + (free.map Node.zval).count x)
        fun x => 0 + ([] : List Node).count x :=
      fun z hz => (h.balanced z hz).congr rfl fun m _ => counted_congr (hcolor m)
    have hpaid := hpays _ _ hcleared
    intro z hz
    have hz := hpaid z hz
    simp only [BalancedAt, map_append, count_append] at hz ⊢
    have hsum : owed (.zval z) + ((new.map Node.zval).count (.zval z) +
        (free.map Node.zval).count (.zval z)) =
        owed (.zval z) + (free.map Node.zval).count (.zval z) +
          (new.map Node.zval).count (.zval z) := by omega
    rw [hsum]
    exact hz

section

variable (h : CollectInv heap owed s₂ kept (i :: todo) s) (hscanned : Scanned heap owed s₀ kept s₂)
include h hscanned

/-- Two roots that are to come do not record the same node. -/
theorem CollectInv.fresh {j : Nat} (hj : j ∈ todo) :
    s₂.root j ≠ s₂.root i := by
  intro heq
  have hptr := hscanned.ptr j (h.sub j (mem_cons_of_mem i hj))
  rw [heq, hscanned.ptr i (h.sub i mem_cons_self)] at hptr
  obtain ⟨spare, hbuffers⟩ := h.buffers
  have hnodup := hbuffers.nodup
  rw [nodup_cons, GcPtr.slot.inj hptr] at hnodup
  exact hnodup.1 hj

theorem CollectInv.collect {new : List Nat}
    (hcollects : Collects heap [s.root i] [] [] new (s.clearAddress (s.root i)) s')
    (hpays : Pays heap [] new (s.clearAddress (s.root i)) s') :
    CollectInv heap owed s₂ kept todo (gcRemoveFromBuffer s' (.slot i)) := by
  have htakes := h.takes hcollects
  have hroot : s'.root = s.root := by rw [hcollects.frame]; rfl
  have hword := h.word i mem_cons_self
  refine
    { buffers := ?_
      sub := fun j hj => h.sub j (mem_cons_of_mem i hj)
      root := hroot.trans h.root
      firstUnused := ?_
      objCount := fun handle =>
        (hcollects.objCount handle).trans (h.objCount handle)
      untracked := fun n hn =>
        (hcollects.untracked n hn).trans (h.untracked n hn)
      word := ?_
      step := ?_
      passed := ?_
      taken := ?_
      closed := ?_
      free := ?_ }
  · obtain ⟨spare, hbuffers⟩ := h.buffers
    have hframe : Buffers s' ([] ++ i :: todo) spare :=
      hbuffers.congr (by rw [hcollects.frame]; rfl)
        (by rw [hcollects.frame]; rfl) (by rw [hcollects.frame]; rfl)
        (by rw [hcollects.frame]; rfl)
    exact ⟨_, hframe.remove.1⟩
  · change s'.firstUnused = _
    rw [hcollects.frame]
    exact h.firstUnused
  · -- A root that is still to come keeps its address, so it is passed over.
    intro j hj
    have hsame := h.word j (mem_cons_of_mem i hj)
    have hne : s₂.root j ≠ s.root i := by
      rw [h.root]
      exact h.fresh hscanned hj
    change s'.word (s₂.root j) = _
    rcases hcollects.step (s₂.root j) with heq | ⟨hwhite, _⟩
    · rw [heq, word_clearAddress_of_ne s hne, hsame]
    · have hptr := hscanned.ptr j (h.sub j (mem_cons_of_mem i hj))
      have hnull : s₂.word (s₂.root j) = ⟨.null, .white⟩ := by
        rw [isWhite_congr (word_clearAddress_of_ne s hne)] at hwhite
        rw [← hsame]
        simpa [GcState.isWhite] using hwhite
      rw [hnull] at hptr
      cases hptr
  · intro n
    rcases htakes.step n with heq | ⟨hwhite, hcounted⟩
    · rcases h.step n with heq₂ | ⟨hwhite₂, hcounted₂⟩
      · exact .inl (heq.trans heq₂)
      · refine .inr ⟨hwhite₂, ?_⟩
        exact (counted_congr heq).trans hcounted₂
    · refine .inr ⟨?_, hcounted⟩
      by_contra hne
      exact h.not_white hne hwhite
  · intro n hn
    rcases htakes.passed n hn with hpassed | ⟨j, hj, hroot⟩
    · exact .inl hpassed
    · exact .inr ⟨j, hj, by rw [← h.root, hroot]⟩
  · intro j hj
    rcases h.taken j hj with htodo | hdone
    · rcases mem_cons.mp htodo with rfl | htodo
      · exact .inr (by rw [← h.root]; exact htakes.taken)
      · exact .inl htodo
    · exact .inr (htakes.not_white hdone)
  · intro n hn hn' c hc
    change s'.color n ≠ .white at hn'
    by_cases hwhite : s.color n = .white
    · -- Taken up during this visit: its successors were visited.
      have hstep := hcollects.step n
      have hcleared := color_clearAddress s (s.root i) n
      rcases hstep with heq | ⟨hn₁, hcounted⟩
      · exfalso
        apply hn'
        rw [GcState.color, heq]
        exact hcleared.trans hwhite
      · have hdone := hcollects.closed n (by simp) hn₁ (isWhite_eq_false hcounted) c hc
        by_cases hcwhite : s'.color c = .white
        · rcases htakes.passed c hcwhite with hpassed | ⟨j, hj, hroot⟩
          · rw [hdone] at hpassed
            cases hpassed
          · exact .inr ⟨j, hj, by rw [← h.root, hroot]⟩
        · exact .inl hcwhite
    · rcases h.closed n hn hwhite c hc with hdone | ⟨j, hj, rfl⟩
      · exact .inl (htakes.not_white hdone)
      · rcases mem_cons.mp hj with rfl | hj
        · exact .inl (by rw [← h.root]; exact htakes.taken)
        · exact .inr ⟨j, hj, rfl⟩
  · obtain ⟨free, hfree⟩ := h.free
    have hmono : ∀ n, s.color n = .white → s₂.color n = .white := by
      intro n hn
      by_contra hne
      exact h.not_white hne hn
    have hgrown := hfree.collect (by rw [h.root]; exact hword) hmono htakes hcollects hpays
    exact ⟨_, hgrown.list.congr fun _ _ => rfl, hgrown.nodup, hgrown.mem,
      fun z hz => (hgrown.balanced z hz).congr rfl fun _ _ => rfl⟩

end

theorem collectRoot_inv (hdepth : heap.nodes.card < depth) (hscanned : Scanned heap owed s₀ kept s₂)
    (h : CollectInv heap owed s₂ kept (i :: todo) s) :
    ∃ s', collectRoot heap.toHeapData depth i s = some s' ∧ CollectInv heap owed s₂ kept todo s' ∧
      s'.next (.slot i) = (todo.map .slot).headD .roots := by
  have hfuel : whiteCount heap (s.clearAddress (s.root i)) < depth :=
    lt_of_le_of_lt (Finset.card_le_card (Finset.filter_subset _ _)) hdepth
  have hmem : s.root i ∈ heap.nodes := by
    rw [h.root]
    exact hscanned.rootMem i (h.sub i mem_cons_self)
  have htable : NoWhiteTable heap (s.clearAddress (s.root i)) := by
    intro n hn
    have hcolor := h.not_white (hscanned.table n hn)
    cases hwhite : (s.clearAddress (s.root i)).isWhite n with
    | false => rfl
    | true =>
      have heq := color_of_isWhite hwhite
      rw [color_clearAddress] at heq
      exact absurd heq hcolor
  have hrun : ∃ s' new, collectRoot heap.toHeapData depth i s =
        some (gcRemoveFromBuffer s' (.slot i)) ∧
      Collects heap [s.root i] [] [] new (s.clearAddress (s.root i)) s' ∧
      Pays heap [] new (s.clearAddress (s.root i)) s' := by
    have hzval := zvalCollectWhite_collects heap depth
    have hkeep : (s.clearAddress (s.root i)).root i = s.root i := rfl
    rw [collectRoot, hkeep]
    generalize s.clearAddress (s.root i) = t at hfuel htable ⊢
    cases hroot : s.root i with
    | obj handle =>
      rw [hroot] at hmem
      obtain ⟨s', new, hrun, hspec⟩ :=
        zobjCollectWhite_collects hzval htable hmem hfuel
      exact ⟨s', new, by simp [hrun], hspec⟩
    | zval z =>
      rw [hroot] at hmem
      obtain ⟨s', new, hrun, hspec⟩ := hzval z t htable hmem hfuel
      exact ⟨s', new, by simp [hrun], hspec⟩
  obtain ⟨s', new, hrun, hcollects, hpays⟩ := hrun
  refine ⟨gcRemoveFromBuffer s' (.slot i), hrun, h.collect hscanned hcollects hpays, ?_⟩
  obtain ⟨spare, hbuffers⟩ := h.buffers
  have hframe : Buffers s' ([] ++ i :: todo) spare :=
    hbuffers.congr (by rw [hcollects.frame]; rfl)
      (by rw [hcollects.frame]; rfl) (by rw [hcollects.frame]; rfl)
      (by rw [hcollects.frame]; rfl)
  rw [hframe.remove.2]
  exact hframe.next_slot

/-- `gc_collect_roots` ends with an empty ring. -/
theorem gcCollectRoots_inv (hdepth : heap.nodes.card < depth)
    (hscanned : Scanned heap owed s₀ kept s₂) :
    ∃ s₃, gcCollectRoots heap.toHeapData depth s₂ = some s₃ ∧
      CollectInv heap owed s₂ kept [] s₃ := by
  obtain ⟨spare, hbuffers⟩ := hscanned.buffers
  rw [gcCollectRoots, hbuffers.next_roots]
  have hstep : ∀ (done : List Nat) i todo s, CollectInv heap owed s₂ kept (i :: todo) s →
      ∃ s' done', collectRoot heap.toHeapData depth i s = some s' ∧
        (fun (_ : List Nat) todo s => CollectInv heap owed s₂ kept todo s) done' todo s' ∧
        s'.next (.slot i) = (todo.map .slot).headD .roots := by
    intro done i todo s hinv
    obtain ⟨s', hrun, hinv', hnext⟩ := collectRoot_inv hdepth hscanned hinv
    exact ⟨s', done, hrun, hinv', hnext⟩
  obtain ⟨s₃, -, hrun, hinv⟩ := rootsLoop_rule hstep [] kept _
    hbuffers.length_lt hscanned.collectInv
  exact ⟨s₃, hrun, hinv⟩

/-- No white node is left: each was reached from a root along nodes that are
referred to by white nodes only. -/
theorem CollectInv.no_white (h : CollectInv heap owed s₂ kept [] s)
    (hscanned : Scanned heap owed s₀ kept s₂) (n : Node) : s.color n ≠ .white := by
  intro hn
  have hwhite : s₂.color n = .white := by
    by_contra hne
    exact h.not_white hne hn
  obtain ⟨i, hi, hpath⟩ := hscanned.whiteReach n hwhite
  have hstart : s.color (s₂.root i) ≠ .white := by
    rcases h.taken i hi with hmem | hdone
    · simp at hmem
    · exact hdone
  refine hpath.closed (fun m => s.color m ≠ .white) hstart ?_ hn
  intro m c hm hdone hc
  by_cases hc₂ : s₂.color c = .white
  · have hm₂ := hscanned.whitePred m hm c hc hc₂
    rcases h.closed m hm₂ hdone c hc with hdone | ⟨j, hj, _⟩
    · exact hdone
    · simp at hj
  · exact h.not_white hc₂

end Collect

/-! The whole run. -/

/-- What the run of the three phases leaves.  `white` says which nodes were
found to be garbage; the zvals among them are the list `free`. -/
structure GcOutcome (heap : Heap) (owed : Node → Nat) (s : GcState)
    (white : Node → Bool) (free : List Nat) (s' : GcState) : Prop where
  list : FreeList s' s'.zvalToFree free
  nodup : free.Nodup
  mem : ∀ z, z ∈ free ↔ white (.zval z) = true
  noWhite : ∀ n, s'.color n ≠ .white
  table : ∀ n, heap.tracked n = false → white n = false
  whiteOwed : ∀ n, white n = true → owed n = 0
  whitePred : ∀ m ∈ heap.nodes, ∀ n ∈ heap.succ m, white n = true → white m = true
  garbage : ∀ v, heap.tracked v = true → (∀ m, Reaches heap.succ m v → owed m = 0 ∧
      ∃ r, s.color r = .purple ∧ Reaches heap.succ r m) → white v = true
  zvalCount : ∀ z, heap.tracked (.zval z) = true →
    s'.refcount (.zval z) = (edgesFrom heap.succ heap.nodes (fun _ => true)
      (.zval z) + owed (.zval z) + free.count z) % uintMod
  objCount : ∀ handle, s'.refcount (.obj handle) =
    edgesFrom heap.succ heap.nodes (fun n => !white n) (.obj handle) + owed (.obj handle)
  untracked : ∀ n, heap.tracked n = false → s'.refcount n = s.refcount n
  buffers : ∃ spare, Buffers s' [] spare
  firstUnused : s'.firstUnused = s.firstUnused

section Run

variable {heap : Heap} {owed : Node → Nat} {s s₂ s' : GcState}
  {slots spare kept : List Nat} {depth : Nat}

theorem CollectInv.outcome (h : CollectInv heap owed s₂ kept [] s')
    (hscanned : Scanned heap owed s kept s₂) (hfits : Fits heap owed) :
    ∃ free, GcOutcome heap owed s (fun n => s₂.color n == .white) free s' := by
  obtain ⟨free, hfree⟩ := h.free
  have hnoWhite := h.no_white hscanned
  have hcounted : ∀ n, counted s' n = true := by
    intro n
    rcases h.step n with heq | ⟨_, hcounted⟩
    · rw [counted_congr heq]
      apply hscanned.counted
      rw [← heq]
      exact hnoWhite n
    · exact hcounted
  have hwhite : ∀ n, counted s₂ n = !(s₂.color n == .white) := by
    intro n
    by_cases hn : s₂.color n = .white
    · simp [counted, hn]
    · rw [hscanned.counted n hn]
      simp [hn]
  refine ⟨free,
    { list := hfree.list
      nodup := hfree.nodup
      mem := fun z => by simp [hfree.mem z, hnoWhite]
      noWhite := hnoWhite
      table := fun n hn => by simpa using hscanned.table n hn
      whiteOwed := fun n hn => hscanned.whiteOwed n (by simpa using hn)
      whitePred := fun m hm n hn hcolor => by
        simpa using hscanned.whitePred m hm n hn (by simpa using hcolor)
      garbage := fun v hv hgarbage => by
        simpa using hscanned.garbage v hv hgarbage
      zvalCount := ?_
      objCount := ?_
      untracked := fun n hn =>
        (h.untracked n hn).trans (hscanned.untracked n hn)
      buffers := h.buffers
      firstUnused := h.firstUnused.trans hscanned.firstUnused }⟩
  · intro z hz
    obtain ⟨hlt, heq⟩ := hfree.balanced z hz
    have hcount : (free.map Node.zval).count (.zval z) = free.count z :=
      count_map_of_injective _ _ (fun _ _ hab => Node.zval.inj hab) z
    rw [add_zero, Nat.mod_eq_of_lt hlt, edgesFrom_congr fun m _ => hcounted m] at heq
    simp only [hcount] at heq
    rw [heq, add_assoc]
  · intro handle
    have htracked : heap.tracked (.obj handle) = true := rfl
    have hfit : edgesFrom heap.succ heap.nodes (counted s₂) (.obj handle) +
        owed (.obj handle) < uintMod := by
      have hall := hfits _ htracked
      have hle : edgesFrom heap.succ heap.nodes (counted s₂) (.obj handle) ≤
          edgesFrom heap.succ heap.nodes (fun _ => true) (.obj handle) :=
        edgesFrom_mono fun _ _ => rfl
      omega
    rw [h.objCount handle, hscanned.balanced.refcount_eq htracked hfit,
      edgesFrom_congr fun m _ => hwhite m]

theorem gcPhases_outcome (hdepth : heap.nodes.card < depth) (h : GcReady heap owed slots spare s) :
    ∃ s' white free, gcPhases heap.toHeapData depth s = some s' ∧
      GcOutcome heap owed s white free s' := by
  obtain ⟨s₁, kept, hmark, hmarked⟩ := gcMarkRoots_inv hdepth h
  obtain ⟨s₂, hscan, hscans⟩ := gcScanRoots_scans hdepth h.fits hmarked
  have hscanned := hscans.scanned hmarked
  obtain ⟨s', hcollect, hinv⟩ := gcCollectRoots_inv hdepth hscanned
  obtain ⟨free, houtcome⟩ := hinv.outcome hscanned h.fits
  refine ⟨s', _, free, ?_, houtcome⟩
  simp [gcPhases, hmark, hscan, hcollect]

end Run

/-! What the collector may and must take. -/

namespace HeapData

/-- What a node refers to.  A zval that holds the global symbol table refers
to the elements of that table, although it does not own them. -/
def refs (heap : HeapData) (n : Node) : List Node :=
  if heap.tracked n then heap.succ n else heap.symbolTable.map .zval

/-- A path either has owned edges only, or has them from an element of the
symbol table on. -/
theorem reaches_refs (heap : HeapData) {a b : Node}
    (h : Reaches heap.refs a b) : Reaches heap.succ a b ∨
      ∃ z ∈ heap.symbolTable, Reaches heap.succ (.zval z) b := by
  induction h with
  | refl => exact .inl Relation.ReflTransGen.refl
  | @tail m c _ hlast ih =>
    have hc := hlast.2
    rw [refs] at hc
    split at hc
    · rcases ih with hpath | ⟨z, hz, hpath⟩
      · exact .inl (hpath.tail ⟨trivial, hc⟩)
      · exact .inr ⟨z, hz, hpath.tail ⟨trivial, hc⟩⟩
    · obtain ⟨z, hz, rfl⟩ := List.mem_map.mp hc
      exact .inr ⟨z, hz, Relation.ReflTransGen.refl⟩

theorem mem_refs (heap : HeapData) {n c : Node} (h : c ∈ heap.succ n) : c ∈ heap.refs n := by
  rw [refs]
  cases htracked : heap.tracked n with
  | true => exact h
  | false =>
    rw [heap.succ_of_not_tracked htracked] at h
    simp at h

theorem refs_of_reaches (heap : HeapData) {a b : Node}
    (h : Reaches heap.succ a b) : Reaches heap.refs a b := by
  induction h with
  | refl => exact Relation.ReflTransGen.refl
  | tail _ hlast ih => exact ih.tail ⟨trivial, heap.mem_refs hlast.2⟩

end HeapData

/-- The object zvals of a handle that are not on the list. -/
def isLiveHolder (heap : HeapData) (free : List Nat) (handle : Nat) : Node → Bool
  | .zval z => heap.kind z = .object handle ∧ z ∉ free
  | .obj _ => false

def liveHolders (heap : Heap) (free : List Nat) (handle : Nat) : Finset Node :=
  heap.nodes.filter fun n => isLiveHolder heap.toHeapData free handle n

/-- A state with exact counts and one buffered root. -/
def oneRoot (heap : Heap) (owed : Node → Nat) (r : Node) : GcState where
  refcount n := edgesFrom heap.succ heap.nodes (fun _ => true) n + owed n
  word n := if n = r then ⟨.slot 0, .purple⟩ else ⟨.null, .black⟩
  root _ := r
  next
    | .roots => .slot 0
    | _ => .roots
  prev
    | .roots => .slot 0
    | _ => .roots
  unused := .null
  firstUnused := 1
  zvalToFree := .listEnd

theorem edgesFrom_le_sum (heap : Heap) (p : Node → Bool) (x : Node) :
    edgesFrom heap.succ heap.nodes p x ≤ ∑ n ∈ heap.nodes, (heap.succ n).length := by
  apply Finset.sum_le_sum
  intro n _
  split
  · exact count_le_length
  · exact Nat.zero_le _

theorem oneRoot_ready {heap : Heap} {owed : Node → Nat} {r : Node}
    (hr : r ∈ heap.nodes) (hglobals : heap.symbolTable = []) (howed : ∀ n, owed n ≤ 1)
    (hsum : ∑ n ∈ heap.nodes, (heap.succ n).length + 1 < uintMod) :
    GcReady heap owed [0] [] (oneRoot heap owed r) where
  buffers :=
    { ring :=
        { nodup := by decide
          gap := by
            intro l₁ l₂ h
            change [RootPtr.slot 0] = l₁ ++ l₂ at h
            cases l₁ with
            | nil =>
              subst h
              exact ⟨rfl, rfl⟩
            | cons a l =>
              rw [cons_append, List.cons.injEq, eq_comm (a := [])] at h
              obtain ⟨rfl, h⟩ := h
              rw [append_eq_nil_iff] at h
              obtain ⟨rfl, rfl⟩ := h
              exact ⟨rfl, rfl⟩ }
      unused := rfl
      disjoint := by simp
      covers := fun i => by simp [oneRoot] }
  rootMem := fun _ _ => hr
  rootWord := fun i hi => by
    have hi : i = 0 := by simpa using hi
    simp [oneRoot, hi]
  restWord := fun n hn => by
    have hnr : n ≠ r := fun heq => hn 0 (by simp) heq.symm
    simp [oneRoot, hnr]
  counts := fun _ _ => rfl
  fits := fun x _ => by
    have hedges := edgesFrom_le_sum heap (fun _ => true) x
    have howed := howed x
    omega
  globals := by simp [hglobals]

/-- An object whose property is an array that holds the object. -/
def cycleHeap : Heap where
  kind
    | 0 => .object 0
    | 1 => .array [0]
    | _ => .scalar
  store
    | 0 => ⟨true, some ⟨[some 1, none], none⟩⟩
    | _ => ⟨false, none⟩
  symbolTable := []
  nodes := {.zval 0, .zval 1, .obj 0}
  closed := by decide

theorem cycleHeap_card : cycleHeap.nodes.card < 4 := by decide

/-- Its array is referenced from outside. -/
def arrayHeld : Node → Nat
  | .zval 1 => 1
  | _ => 0

theorem cycleHeap_held : GcReady cycleHeap arrayHeld [0] []
      (oneRoot cycleHeap arrayHeld (.zval 0)) :=
  oneRoot_ready (by decide) rfl (fun n => by unfold arrayHeld; split <;> omega) (by decide)

theorem cycleHeap_garbage : GcReady cycleHeap (fun _ => 0) [0] []
      (oneRoot cycleHeap (fun _ => 0) (.zval 0)) :=
  oneRoot_ready (by decide) rfl (fun _ => Nat.zero_le 1) (by decide)

theorem cycleHeap_refs {m n : Node} (h : n ∈ cycleHeap.refs m) : m ∈ cycleHeap.nodes := by
  have hmem : ∀ k, Node.zval (k + 2) ≠ m ∧ Node.obj (k + 1) ≠ m := by
    intro k
    constructor <;> rintro rfl <;> exact absurd h (by simp [HeapData.refs,
      HeapData.tracked, HeapData.isSymbolTable, HeapData.succ,
      HeapData.children, HeapData.getGc, cycleHeap])
  rcases m with (_ | _ | k) | (_ | k)
  · decide
  · decide
  · exact absurd rfl (hmem k).1
  · decide
  · exact absurd rfl (hmem k).2

/-- A cycle that is in no buffer holds a zval that is. -/
def leakHeap : Heap where
  kind
    | 0 => .array [0]
    | 1 => .array [1, 0]
    | _ => .scalar
  store _ := ⟨false, none⟩
  symbolTable := []
  nodes := {.zval 0, .zval 1}
  closed := by decide

section Theorems

variable {heap : Heap} {owed : Node → Nat} {s s' : GcState}
  {slots spare free : List Nat} {white : Node → Bool} {depth : Nat}

theorem GcOutcome.live (h : GcOutcome heap owed s white free s')
    {x y : Node} (hy : y ∈ heap.nodes) (howed : 0 < owed y)
    (hpath : Reaches heap.succ y x) : x ∈ heap.nodes ∧ white x = false := by
  refine hpath.closed (fun n => n ∈ heap.nodes ∧ white n = false) ⟨hy, ?_⟩ ?_
  · by_contra hne
    have hzero := h.whiteOwed y (by simpa using hne)
    omega
  · rintro m n _ ⟨hm, hlive⟩ hn
    refine ⟨heap.closed m hm n hn, ?_⟩
    by_contra hne
    have hwhite := h.whitePred m hm n hn (by simpa using hne)
    rw [hlive] at hwhite
    cases hwhite

theorem GcOutcome.live_obj (h : GcOutcome heap owed s white free s')
    {y : Node} {handle : Nat} (hy : y ∈ heap.nodes) (howed : 0 < owed y)
    (hpath : Reaches heap.succ y (.obj handle)) : 0 < s'.refcount (.obj handle) := by
  rw [h.objCount]
  rcases Relation.ReflTransGen.cases_tail hpath with heq | ⟨m, hm, _, hc⟩
  · rw [heq]
    omega
  · obtain ⟨hmem, hlive⟩ := h.live hy howed hm
    have hcount : 0 < (heap.succ m).count (.obj handle) :=
      count_pos_iff.mpr hc
    have hle : (heap.succ m).count (.obj handle) ≤ edgesFrom heap.succ
        heap.nodes (fun n => !white n) (.obj handle) :=
      count_le_edgesFrom hmem (by simp [hlive])
    omega

/-- Nothing that a node with a reference from outside leads to is freed. -/
theorem gcPhases_safe (hdepth : heap.nodes.card < depth) (h : GcReady heap owed slots spare s) :
    ∃ s' free, gcPhases heap.toHeapData depth s = some s' ∧ FreeList s' s'.zvalToFree free ∧
      ∀ y ∈ heap.nodes, 0 < owed y → ∀ x, Reaches heap.refs y x → match x with
        | .zval z => z ∉ free
        | .obj handle => s'.color (.obj handle) ≠ .white ∧ 0 < s'.refcount (.obj handle) := by
  obtain ⟨s', white, free, hrun, hout⟩ := gcPhases_outcome hdepth h
  refine ⟨s', free, hrun, hout.list, ?_⟩
  intro y hy howed x hrefs
  -- The last element of the symbol table on the path is referenced as well.
  obtain ⟨w, hw, howed, hpath⟩ : ∃ w ∈ heap.nodes, 0 < owed w ∧ Reaches heap.succ w x := by
    rcases heap.reaches_refs hrefs with hpath | ⟨z, hz, hpath⟩
    · exact ⟨y, hy, howed, hpath⟩
    · exact ⟨.zval z, (h.globals z hz).1, (h.globals z hz).2, hpath⟩
  cases x with
  | zval z =>
    intro hz
    have hlive := (hout.live hw howed hpath).2
    rw [(hout.mem z).mp hz] at hlive
    cases hlive
  | obj handle =>
    exact ⟨hout.noWhite _, hout.live_obj hw howed hpath⟩

theorem gcPhases_safe_cycle : ∃ s' free, gcPhases cycleHeap.toHeapData 4
        (oneRoot cycleHeap arrayHeld (.zval 0)) = some s' ∧
      FreeList s' s'.zvalToFree free ∧ 0 ∉ free ∧ 1 ∉ free ∧ 0 < s'.refcount (.obj 0) := by
  obtain ⟨s', free, hrun, hlist, hsafe⟩ :=
    gcPhases_safe cycleHeap_card cycleHeap_held
  have hzval : Reaches cycleHeap.refs (.zval 1) (.zval 0) :=
    ReachVia.head trivial (by decide) Relation.ReflTransGen.refl
  have hobj : Reaches cycleHeap.refs (.zval 1) (.obj 0) :=
    hzval.tail ⟨trivial, by decide⟩
  have hheld := hsafe (.zval 1) (by decide) (by decide)
  exact ⟨s', free, hrun, hlist, hheld _ hzval, hheld _ Relation.ReflTransGen.refl, (hheld _ hobj).2⟩

theorem GcOutcome.edges_holders (h : GcOutcome heap owed s white free s') (handle : Nat) :
    edgesFrom heap.succ heap.nodes (fun n => !white n) (.obj handle) =
      (liveHolders heap free handle).card := by
  rw [edgesFrom, liveHolders, Finset.card_filter]
  apply Finset.sum_congr rfl
  intro n _
  cases n with
  | obj other =>
    have hcount : (heap.succ (.obj other)).count (.obj handle) = 0 := by
      rw [count_eq_zero]
      simp [HeapData.succ]
    simp [hcount, isLiveHolder]
  | zval z =>
    have hmem := h.mem z
    have hcount : (heap.succ (.zval z)).count (.obj handle) =
        if heap.kind z = .object handle then 1 else 0 := by
      cases hkind : heap.kind z with
      | scalar | symbolTable => simp [HeapData.succ, hkind]
      | object other =>
        by_cases heq : other = handle
        · simp [HeapData.succ, hkind, heq]
        · simp [HeapData.succ, hkind, heq]
      | array elements =>
        have hnone : (elements.map Node.zval).count (.obj handle) = 0 := by
          rw [count_eq_zero]
          simp
        simp [HeapData.succ, hkind, hnone]
    rw [hcount]
    by_cases hz : z ∈ free
    · simp [hz, hmem.mp hz, isLiveHolder]
    · have hwhite : white (.zval z) = false := by
        rw [hmem] at hz
        simpa using hz
      simp [hz, hwhite, isLiveHolder]

/-- The trial decrements are undone: all counts are as before, but for one
more reference to what is on the list and none from there to objects. -/
theorem gcPhases_restores (hdepth : heap.nodes.card < depth) (h : GcReady heap owed slots spare s) :
    ∃ s' free, gcPhases heap.toHeapData depth s = some s' ∧
      FreeList s' s'.zvalToFree free ∧ free.Nodup ∧
      (∀ z, z ∉ free → s'.refcount (.zval z) = s.refcount (.zval z)) ∧
      (∀ z ∈ free, s'.refcount (.zval z) = (s.refcount (.zval z) + 1) % uintMod) ∧
      ∀ handle, s'.refcount (.obj handle) =
        (liveHolders heap free handle).card + owed (.obj handle) := by
  obtain ⟨s', white, free, hrun, hout⟩ := gcPhases_outcome hdepth h
  refine ⟨s', free, hrun, hout.list, hout.nodup, ?_, ?_, ?_⟩
  · intro z hz
    cases htracked : heap.tracked (.zval z) with
    | false => exact hout.untracked _ htracked
    | true =>
      have hfit := h.fits _ htracked
      rw [hout.zvalCount z htracked, count_eq_zero.mpr hz,
        h.counts _ htracked, add_zero, Nat.mod_eq_of_lt hfit]
  · intro z hz
    have htracked : heap.tracked (.zval z) = true := by
      by_contra hne
      have hlive := hout.table (.zval z) (by simpa using hne)
      rw [(hout.mem z).mp hz] at hlive
      cases hlive
    rw [hout.zvalCount z htracked, count_eq_one_of_mem hout.nodup hz, h.counts _ htracked]
  · intro handle
    rw [hout.objCount handle, hout.edges_holders handle]

theorem gcPhases_restores_cycle : ∃ s' free, gcPhases cycleHeap.toHeapData 4
        (oneRoot cycleHeap arrayHeld (.zval 0)) = some s' ∧
      FreeList s' s'.zvalToFree free ∧ free.Nodup ∧
      (∀ z ∈ free, s'.refcount (.zval z) = ((oneRoot cycleHeap arrayHeld
        (.zval 0)).refcount (.zval z) + 1) % uintMod) ∧
      s'.refcount (.obj 0) = (liveHolders cycleHeap free 0).card := by
  obtain ⟨s', free, hrun, hlist, hnodup, _, hfree, hobj⟩ :=
    gcPhases_restores cycleHeap_card cycleHeap_held
  exact ⟨s', free, hrun, hlist, hnodup, hfree, hobj 0⟩

/-- Garbage is freed when all that refers to it was marked; and all buffers
are free again. -/
theorem gcPhases_complete (hdepth : heap.nodes.card < depth) (h : GcReady heap owed slots spare s) :
    ∃ s' free spare', gcPhases heap.toHeapData depth s = some s' ∧ FreeList s' s'.zvalToFree free ∧
      (∀ v, heap.tracked v = true → (∀ m, Reaches heap.refs m v → owed m = 0 ∧
          ∃ i ∈ slots, s.color (s.root i) = .purple ∧ Reaches heap.refs (s.root i) m) → match v with
        | .zval z => z ∈ free
        | .obj handle => s'.refcount (.obj handle) = 0) ∧
      s'.next .roots = .roots ∧ s'.prev .roots = .roots ∧
      UnusedList s' s'.unused spare' ∧ s'.firstUnused = s.firstUnused ∧
      ∀ i, i < s'.firstUnused ↔ i ∈ spare' := by
  obtain ⟨s', white, free, hrun, hout⟩ := gcPhases_outcome hdepth h
  obtain ⟨spare', hbuffers⟩ := hout.buffers
  refine ⟨s', free, spare', hrun, hout.list, ?_, hbuffers.ring.nxt_sentinel,
    hbuffers.ring.prv_sentinel, hbuffers.unused, hout.firstUnused,
    fun i => by simpa using hbuffers.covers i⟩
  intro v hv hgarbage
  have hwhite : white v = true := by
    refine hout.garbage v hv ?_
    intro m hm
    obtain ⟨howed, i, hi, hpurple, hpath⟩ :=
      hgarbage m (heap.refs_of_reaches hm)
    refine ⟨howed, s.root i, hpurple, ?_⟩
    rcases heap.reaches_refs hpath with hpath | ⟨z, hz, hpath⟩
    · exact hpath
    · have hzero := (hgarbage (.zval z) (heap.refs_of_reaches (hpath.trans hm))).1
      have hpos := (h.globals z hz).2
      omega
  cases v with
  | zval z => exact (hout.mem z).mpr hwhite
  | obj handle =>
    have hedges : edgesFrom heap.succ heap.nodes (fun n => !white n) (.obj handle) = 0 := by
      apply edgesFrom_eq_zero
      intro m hm hlive hc
      rw [hout.whitePred m hm _ hc hwhite] at hlive
      cases hlive
    change s'.refcount (.obj handle) = 0
    rw [hout.objCount handle, hedges, hout.whiteOwed _ hwhite]

theorem gcPhases_complete_cycle : ∃ s' free, gcPhases cycleHeap.toHeapData 4
        (oneRoot cycleHeap (fun _ => 0) (.zval 0)) = some s' ∧
      FreeList s' s'.zvalToFree free ∧ 0 ∈ free ∧ 1 ∈ free ∧
      s'.refcount (.obj 0) = 0 ∧ s'.next .roots = .roots := by
  obtain ⟨s', free, spare', hrun, hlist, hgarbage, hring, -⟩ :=
    gcPhases_complete cycleHeap_card cycleHeap_garbage
  have hobj : Reaches cycleHeap.refs (.zval 0) (.obj 0) :=
    ReachVia.head trivial (by decide) Relation.ReflTransGen.refl
  have hzval : Reaches cycleHeap.refs (.zval 0) (.zval 1) :=
    hobj.tail ⟨trivial, by decide⟩
  have hall : ∀ m ∈ cycleHeap.nodes, Reaches cycleHeap.refs (.zval 0) m := by
    intro m hm
    have hcases : m = .zval 0 ∨ m = .zval 1 ∨ m = .obj 0 := by
      simpa [cycleHeap] using hm
    rcases hcases with rfl | rfl | rfl
    · exact Relation.ReflTransGen.refl
    · exact hzval
    · exact hobj
  -- Only the three nodes refer to anything.
  have hback : ∀ v ∈ cycleHeap.nodes, ∀ m, Reaches cycleHeap.refs m v → m ∈ cycleHeap.nodes := by
    intro v hv m hm
    rcases Relation.ReflTransGen.cases_head hm with rfl | ⟨c, hc, _⟩
    · exact hv
    · exact cycleHeap_refs hc.2
  have hwhite := fun v hv htracked => hgarbage v htracked fun m hm =>
    ⟨rfl, 0, by simp, rfl, hall m (hback v hv m hm)⟩
  exact ⟨s', free, hrun, hlist, hwhite (.zval 0) (by decide) (by decide),
    hwhite (.zval 1) (by decide) (by decide),
    hwhite (.obj 0) (by decide) (by decide), hring⟩

/-- Nothing is referenced from outside and the root is purple, and yet the
list stays empty. -/
theorem leak_not_collected : GcReady leakHeap (fun _ => 0) [0] []
        (oneRoot leakHeap (fun _ => 0) (.zval 0)) ∧
      (oneRoot leakHeap (fun _ => 0) (.zval 0)).color (.zval 0) = .purple ∧
      (gcPhases leakHeap.toHeapData 3
        (oneRoot leakHeap (fun _ => 0) (.zval 0))).map (·.zvalToFree) = some .listEnd :=
  ⟨oneRoot_ready (by decide) rfl (fun _ => Nat.zero_le 1) (by decide), rfl, by decide⟩

end Theorems

end PhpEngine

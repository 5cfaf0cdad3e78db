/-
The loops over the roots.  Each phase has an invariant over the roots that it
has passed and those still to come, and the one's last state is the next
one's first.
-/
import PhpEngine.GcRoots

namespace PhpEngine

open List

/-- What the collector is given.  Every node but the buffered ones is black
and without address; a buffered one has the address of its buffer; and each
count that the traversals adjust is the number of edges plus the number of
references from outside. -/
structure GcReady (heap : Heap) (owed : Node → Nat) (slots spare : List Nat)
    (s : GcState) : Prop where
  buffers : Buffers s slots spare
  rootMem : ∀ i ∈ slots, s.root i ∈ heap.nodes
  rootWord : ∀ i ∈ slots, s.word (s.root i) = ⟨.slot i, .black⟩ ∨
    s.word (s.root i) = ⟨.slot i, .purple⟩
  restWord : ∀ n, (∀ i ∈ slots, s.root i ≠ n) → s.word n = ⟨.null, .black⟩
  counts : ∀ n, heap.tracked n = true → s.refcount n =
    edgesFrom heap.succ heap.nodes (fun _ => true) n + owed n
  fits : Fits heap owed
  globals : ∀ z ∈ heap.symbolTable, .zval z ∈ heap.nodes ∧ 0 < owed (.zval z)

/-! The mark phase. -/

/-- Roots in `kept` were marked and stay on the ring.  A root that is met
when it is not purple any more is dropped. -/
structure MarkInv (heap : Heap) (owed : Node → Nat) (s₀ : GcState)
    (kept todo : List Nat) (s : GcState) : Prop where
  buffers : ∃ spare, Buffers s (kept ++ todo) spare
  root : s.root = s₀.root
  rootMem : ∀ i ∈ kept ++ todo, s.root i ∈ heap.nodes
  firstUnused : s.firstUnused = s₀.firstUnused
  zvalToFree : s.zvalToFree = .listEnd
  pre : MarkPre heap s
  balanced : Balanced heap s owed fun _ => 0
  untracked : ∀ n, heap.tracked n = false → s.refcount n = s₀.refcount n
  grey : ∀ n, s.color n = .grey → n ∈ heap.nodes
  closed : ∀ n, s.color n = .grey → ∀ c ∈ heap.succ n, Visited heap s c
  reach : ∀ n, s.color n = .grey → ∃ i ∈ kept,
    ReachVia heap.succ (fun m => s.color m = .grey) (s.root i) n
  ptr : ∀ i ∈ kept ++ todo, (s.word (s.root i)).ptr = .slot i
  ptrNull : ∀ n, (∀ i ∈ kept ++ todo, s.root i ≠ n) → (s.word n).ptr = .null
  purple : ∀ n, s.color n = .purple → ∃ i ∈ todo, s.root i = n
  progress : ∀ n, s₀.color n = .purple → s.color n = .purple ∨ Visited heap s n

section Mark

variable {heap : Heap} {owed : Node → Nat} {s₀ s s' : GcState}
  {slots spare kept todo : List Nat} {i depth : Nat}

theorem GcReady.color (h : GcReady heap owed slots spare s) (n : Node) : s.color n = .black ∨
      s.color n = .purple ∧ ∃ i ∈ slots, s.root i = n := by
  by_cases hroot : ∃ i ∈ slots, s.root i = n
  · obtain ⟨i, hi, rfl⟩ := hroot
    rcases h.rootWord i hi with heq | heq
    · exact .inl (by rw [GcState.color, heq])
    · exact .inr ⟨by rw [GcState.color, heq], i, hi, rfl⟩
  · refine .inl ?_
    rw [GcState.color, h.restWord n fun i hi heq => hroot ⟨i, hi, heq⟩]

theorem GcReady.markInv (h : GcReady heap owed slots spare s) :
    MarkInv heap owed s [] slots { s with zvalToFree := .listEnd } := by
  have hcounted : ∀ n, counted s n = true := by
    intro n
    rcases h.color n with heq | ⟨heq, _⟩ <;> simp [counted, heq]
  have hnotGrey : ∀ n, s.color n ≠ .grey := by
    intro n
    rcases h.color n with heq | ⟨heq, _⟩ <;> simp [heq]
  refine
    { buffers := ⟨spare, h.buffers.congr rfl rfl rfl rfl⟩
      root := rfl
      rootMem := h.rootMem
      firstUnused := rfl
      zvalToFree := rfl
      pre := ⟨?_, fun n _ => hnotGrey n⟩
      balanced := ?_
      untracked := fun _ _ => rfl
      grey := fun n hn => absurd hn (hnotGrey n)
      closed := fun n hn => absurd hn (hnotGrey n)
      reach := fun n hn => absurd hn (hnotGrey n)
      ptr := ?_
      ptrNull := ?_
      purple := ?_
      progress := fun n hn => .inl hn }
  · intro n
    change s.color n ≠ .white
    rcases h.color n with heq | ⟨heq, _⟩ <;> simp [heq]
  · intro n hn
    have hcount := h.counts n hn
    have hfit := h.fits n hn
    have hedges : edgesFrom heap.succ heap.nodes (counted { s with zvalToFree := .listEnd }) n =
        edgesFrom heap.succ heap.nodes (fun _ => true) n :=
      edgesFrom_congr fun m _ => hcounted m
    rw [BalancedAt, hedges]
    rw [hcount, add_zero]
    exact ⟨hfit, rfl⟩
  · intro i hi
    rcases h.rootWord i hi with heq | heq
    · exact congrArg GcWord.ptr heq
    · exact congrArg GcWord.ptr heq
  · intro n hn
    exact congrArg GcWord.ptr (h.restWord n hn)
  · intro n hn
    rcases h.color n with heq | ⟨_, hroot⟩
    · change s.color n = .purple at hn
      rw [heq] at hn
      cases hn
    · exact hroot

theorem MarkInv.root_inj (h : MarkInv heap owed s₀ kept todo s) {j : Nat}
    (hi : i ∈ kept ++ todo) (hj : j ∈ kept ++ todo) (heq : s.root i = s.root j) : i = j := by
  have hptr := h.ptr i hi
  rw [heq, h.ptr j hj] at hptr
  exact (GcPtr.slot.inj hptr).symm

theorem MarkInv.mark (h : MarkInv heap owed s₀ kept (i :: todo) s)
    (hmarks : Marks heap [s.root i] [] s s') : MarkInv heap owed s₀ (kept ++ [i]) todo s' := by
  have hslots : kept ++ [i] ++ todo = kept ++ i :: todo := by simp
  have hroot : s'.root = s.root := by rw [hmarks.frame]
  have hvisited : Visited heap s' (s.root i) :=
    hmarks.done _ mem_cons_self
  refine
    { buffers := ?_
      root := hroot.trans h.root
      rootMem := by rw [hslots, hroot]; exact h.rootMem
      firstUnused := by rw [hmarks.frame]; exact h.firstUnused
      zvalToFree := by rw [hmarks.frame]; exact h.zvalToFree
      pre := hmarks.markPre h.pre
      balanced := hmarks.balanced owed (by simpa using h.balanced)
      untracked := fun n hn =>
        (hmarks.untracked n hn).trans (h.untracked n hn)
      grey := ?_
      closed := ?_
      reach := ?_
      ptr := ?_
      ptrNull := ?_
      purple := ?_
      progress := ?_ }
  · obtain ⟨spare, hbuffers⟩ := h.buffers
    refine ⟨spare, ?_⟩
    rw [hslots]
    exact hbuffers.congr (by rw [hmarks.frame]) (by rw [hmarks.frame])
      (by rw [hmarks.frame]) (by rw [hmarks.frame])
  · intro n hn
    rcases hmarks.step n with heq | ⟨_, _, hmem⟩ | ⟨heq, _⟩
    · exact h.grey n (heq ▸ hn)
    · exact hmem
    · rw [heq] at hn
      cases hn
  · intro n hn c hc
    by_cases hgrey : s.color n = .grey
    · exact hmarks.stays _ (h.closed n hgrey c hc)
    · exact hmarks.closed n hgrey hn c hc
  · intro n hn
    rw [hroot]
    by_cases hgrey : s.color n = .grey
    · obtain ⟨j, hj, hpath⟩ := h.reach n hgrey
      exact ⟨j, mem_append_left _ hj, hpath.mono hmarks.keeps⟩
    · obtain ⟨r, hr, hpath⟩ := hmarks.reach n hgrey hn
      rw [mem_singleton.mp hr] at hpath
      exact ⟨i, by simp, hpath⟩
  · intro j hj
    rw [hslots] at hj
    rw [hroot, hmarks.ptr, h.ptr j hj]
  · intro n hn
    rw [hslots, hroot] at hn
    rw [hmarks.ptr, h.ptrNull n hn]
  · intro n hn
    rw [hroot]
    have hpurple : s.color n = .purple := by
      rcases hmarks.step n with heq | ⟨heq, _⟩ | ⟨heq, _⟩
      · rw [← heq, hn]
      · simp [heq] at hn
      · simp [heq] at hn
    obtain ⟨j, hj, rfl⟩ := h.purple n hpurple
    rcases mem_cons.mp hj with rfl | hj
    · rcases hvisited with heq | ⟨_, heq⟩ <;> simp [heq] at hn
    · exact ⟨j, hj, rfl⟩
  · intro n hn
    rcases h.progress n hn with hpurple | hdone
    · rcases hmarks.step n with heq | ⟨heq, _⟩ | ⟨heq, htracked⟩
      · exact .inl (by rw [heq, hpurple])
      · exact .inr (.inl heq)
      · exact .inr (.inr ⟨htracked, heq⟩)
    · exact .inr (hmarks.stays n hdone)

theorem color_clearAddress (s : GcState) (n m : Node) : (s.clearAddress n).color m = s.color m := by
  by_cases h : m = n
  · subst h
    simp [GcState.clearAddress, GcState.color]
  · simp [GcState.clearAddress, GcState.color, h]

theorem ptr_clearAddress_self (s : GcState) (n : Node) :
    ((s.clearAddress n).word n).ptr = .null := by
  simp [GcState.clearAddress]

theorem word_clearAddress_of_ne (s : GcState) {n m : Node} (h : m ≠ n) :
    (s.clearAddress n).word m = s.word m := by
  simp [GcState.clearAddress, h]

/-- A root that is not purple loses its address and leaves the ring. -/
theorem MarkInv.drop (h : MarkInv heap owed s₀ kept (i :: todo) s)
    (hcolor : s.color (s.root i) ≠ .purple) : MarkInv heap owed s₀ kept todo
      (gcRemoveFromBuffer (s.clearAddress (s.root i)) (.slot i)) := by
  have hi : i ∈ kept ++ i :: todo := by simp
  have hsub : ∀ j ∈ kept ++ todo, j ∈ kept ++ i :: todo := by
    intro j hj
    rw [mem_append] at hj ⊢
    rcases hj with hj | hj
    · exact .inl hj
    · exact .inr (mem_cons_of_mem i hj)
  obtain ⟨spare, hbuffers⟩ := h.buffers
  have hcleared : Buffers (s.clearAddress (s.root i)) (kept ++ i :: todo)
      spare := hbuffers.congr rfl rfl rfl rfl
  have hfresh : ∀ j ∈ kept ++ todo, s.root j ≠ s.root i := by
    intro j hj heq
    rw [h.root_inj (hsub j hj) hi heq] at hj
    have hnodup := hbuffers.nodup
    rw [nodup_append, nodup_cons] at hnodup
    rcases mem_append.mp hj with hj | hj
    · exact hnodup.2.2 i hj i mem_cons_self rfl
    · exact hnodup.2.1.1 hj
  -- Neither removing the buffer nor clearing the address shows in a colour.
  have hsame : ∀ n, (gcRemoveFromBuffer (s.clearAddress (s.root i)) (.slot i)).color n =
        s.color n := color_clearAddress s (s.root i)
  have hvisited : ∀ n, Visited heap s n → Visited heap
      (gcRemoveFromBuffer (s.clearAddress (s.root i)) (.slot i)) n := by
    intro n hn
    rw [Visited, hsame]
    exact hn
  refine
    { buffers := ⟨_, hcleared.remove.1⟩
      root := h.root
      rootMem := fun j hj => h.rootMem j (hsub j hj)
      firstUnused := h.firstUnused
      zvalToFree := h.zvalToFree
      pre := ?_
      balanced := h.balanced.congr rfl fun m _ => counted_congr (hsame m)
      untracked := h.untracked
      grey := fun n hn => h.grey n (hsame n ▸ hn)
      closed := fun n hn c hc => hvisited c (h.closed n (hsame n ▸ hn) c hc)
      reach := ?_
      ptr := ?_
      ptrNull := ?_
      purple := ?_
      progress := ?_ }
  · constructor
    · intro n
      rw [hsame]
      exact h.pre.noWhite n
    · intro n
      rw [hsame]
      exact h.pre.noGrey n
  · intro n hn
    obtain ⟨j, hj, hpath⟩ := h.reach n (hsame n ▸ hn)
    exact ⟨j, hj, hpath.mono fun m hm => (hsame m).trans hm⟩
  · intro j hj
    change ((s.clearAddress (s.root i)).word (s.root j)).ptr = _
    rw [word_clearAddress_of_ne s (hfresh j hj)]
    exact h.ptr j (hsub j hj)
  · intro n hn
    change ((s.clearAddress (s.root i)).word n).ptr = _
    by_cases hni : n = s.root i
    · rw [hni, ptr_clearAddress_self]
    · rw [word_clearAddress_of_ne s hni]
      apply h.ptrNull
      intro j hj heq
      rw [mem_append, mem_cons] at hj
      rcases hj with hj | rfl | hj
      · exact hn j (mem_append_left _ hj) heq
      · exact hni heq.symm
      · exact hn j (mem_append_right _ hj) heq
  · intro n hn
    rw [hsame] at hn
    obtain ⟨j, hj, rfl⟩ := h.purple n hn
    rcases mem_cons.mp hj with rfl | hj
    · exact absurd hn hcolor
    · exact ⟨j, hj, rfl⟩
  · intro n hn
    rcases h.progress n hn with hpurple | hdone
    · exact .inl ((hsame n).trans hpurple)
    · exact .inr (hvisited n hdone)

theorem markRoot_inv (hdepth : heap.nodes.card < depth)
    (h : MarkInv heap owed s₀ kept (i :: todo) s) :
    ∃ s' kept', markRoot heap.toHeapData depth i s = some s' ∧ MarkInv heap owed s₀ kept' todo s' ∧
      s'.next (.slot i) = (todo.map .slot).headD .roots := by
  obtain ⟨spare, hbuffers⟩ := h.buffers
  by_cases hpurple : s.color (s.root i) = .purple
  · have hfuel : ungrey heap s < depth :=
      lt_of_le_of_lt (Finset.card_le_card (Finset.filter_subset _ _)) hdepth
    have hmem := h.rootMem i (by simp)
    have hrun : ∃ s', markRoot heap.toHeapData depth i s = some s' ∧
        Marks heap [s.root i] [] s s' := by
      rw [markRoot, if_pos hpurple]
      cases hroot : s.root i with
      | obj handle =>
        rw [hroot] at hmem
        exact zobjMarkGrey_marks (zvalMarkGrey_marks heap depth) h.pre hmem hfuel
      | zval z =>
        rw [hroot] at hmem
        exact zvalMarkGrey_marks heap depth z s h.pre hmem hfuel
    obtain ⟨s', hrun, hmarks⟩ := hrun
    refine ⟨s', kept ++ [i], hrun, h.mark hmarks, ?_⟩
    have hnext : s'.next = s.next := by rw [hmarks.frame]
    rw [hnext]
    exact hbuffers.next_slot
  · rw [markRoot, if_neg hpurple]
    have hcleared : Buffers (s.clearAddress (s.root i)) (kept ++ i :: todo)
        spare := hbuffers.congr rfl rfl rfl rfl
    refine ⟨_, kept, rfl, h.drop hpurple, ?_⟩
    rw [hcleared.remove.2]
    exact hbuffers.next_slot

/-- `gc_mark_roots` ends, and at its end every root is off the ring or
marked. -/
theorem gcMarkRoots_inv (hdepth : heap.nodes.card < depth) (h : GcReady heap owed slots spare s) :
    ∃ s₁ kept, gcMarkRoots heap.toHeapData depth { s with zvalToFree := .listEnd } = some s₁ ∧
      MarkInv heap owed s kept [] s₁ := by
  have hbuffers : Buffers { s with zvalToFree := .listEnd } slots spare :=
    h.buffers.congr rfl rfl rfl rfl
  rw [gcMarkRoots, hbuffers.next_roots]
  exact rootsLoop_rule (fun kept i todo s hinv => markRoot_inv hdepth hinv)
    [] slots _ hbuffers.length_lt h.markInv

end Mark

/-! The scan phase. -/

section Scan

variable {heap : Heap} {owed : Node → Nat} {s₀ s₁ s s' : GcState}
  {kept todo done : List Nat} {i depth : Nat}

theorem MarkInv.scanPre (h : MarkInv heap owed s₀ kept [] s₁) : ScanPre heap owed s₁ := by
  have hnoPurple : ∀ n, s₁.color n ≠ .purple := by
    intro n hn
    obtain ⟨i, hi, _⟩ := h.purple n hn
    simp at hi
  refine ⟨fun n _ c _ => hnoPurple c, ?_, h.balanced⟩
  intro n hn
  have hblack : s₁.color n = .black := by
    cases hcolor : s₁.color n with
    | black => rfl
    | white => exact absurd hcolor (h.pre.noWhite n)
    | grey => exact absurd hcolor (h.pre.noGrey n hn)
    | purple => exact absurd hcolor (hnoPurple n)
  simp [counted, hblack]

section

variable (hdepth : heap.nodes.card < depth) (hfits : Fits heap owed)
include hdepth hfits

theorem scanRoot_scans (hpre : ScanPre heap owed s) (hmem : s.root i ∈ heap.nodes) :
    ∃ s', scanRoot heap.toHeapData depth i s = some s' ∧ Scans heap owed [s.root i] s s' := by
  have hfuel : greyCount heap s < depth :=
    lt_of_le_of_lt (Finset.card_le_card (Finset.filter_subset _ _)) hdepth
  have hzval := zvalScan_scans hfits hdepth depth
  rw [scanRoot]
  cases hroot : s.root i with
  | obj handle =>
    rw [hroot] at hmem
    exact zobjScan_scans hfits hdepth hzval hpre hmem hfuel
  | zval z =>
    rw [hroot] at hmem
    exact hzval z s hpre hmem hfuel

/-- The roots in `done` were scanned, in one scan. -/
structure ScanInv (heap : Heap) (owed : Node → Nat) (s₁ : GcState)
    (kept done todo : List Nat) (s : GcState) : Prop where
  split : done ++ todo = kept
  scans : Scans heap owed (done.map s₁.root) s₁ s

theorem scanRoot_inv (h : MarkInv heap owed s₀ kept [] s₁)
    (hinv : ScanInv heap owed s₁ kept done (i :: todo) s) :
    ∃ s' done', scanRoot heap.toHeapData depth i s = some s' ∧
      ScanInv heap owed s₁ kept done' todo s' ∧
      s'.next (.slot i) = (todo.map .slot).headD .roots := by
  obtain ⟨hsplit, hscans⟩ := hinv
  have hroot : s.root = s₁.root := by rw [hscans.frame]
  have hi : s.root i ∈ heap.nodes := by
    rw [hroot]
    exact h.rootMem i (by rw [← hsplit]; simp)
  obtain ⟨s', hrun, hscans'⟩ := scanRoot_scans hdepth hfits hscans.pre hi
  have hall := hscans.trans hscans'
  refine ⟨s', done ++ [i], hrun, ⟨by simpa using hsplit, ?_⟩, ?_⟩
  · rw [map_append, map_singleton, ← hroot]
    rwa [← hroot] at hall
  · obtain ⟨spare, hbuffers⟩ := h.buffers
    rw [append_nil, ← hsplit] at hbuffers
    have hnext : s'.next = s₁.next := by rw [hall.frame]
    rw [hnext]
    exact hbuffers.next_slot

/-- `gc_scan_roots` ends, and is one scan from all the roots. -/
theorem gcScanRoots_scans (h : MarkInv heap owed s₀ kept [] s₁) :
    ∃ s₂, gcScanRoots heap.toHeapData depth s₁ = some s₂ ∧
      Scans heap owed (kept.map s₁.root) s₁ s₂ := by
  obtain ⟨spare, hbuffers⟩ := h.buffers
  rw [append_nil] at hbuffers
  have hstart : ScanInv heap owed s₁ kept [] kept s₁ :=
    ⟨rfl, Scans.refl h.scanPre⟩
  obtain ⟨s₂, done, hrun, hdone, hscans⟩ := rootsLoop_rule
    (fun done i todo s hinv => scanRoot_inv hdepth hfits h hinv)
    [] kept (s₁.firstUnused + 1) hbuffers.length_lt hstart
  rw [append_nil] at hdone
  subst hdone
  refine ⟨s₂, ?_, hscans⟩
  rw [gcScanRoots, hbuffers.next_roots]
  exact hrun

end

/-- What the scan leaves: nothing is grey, and what is white is referred to
by white nodes only. -/
structure Scanned (heap : Heap) (owed : Node → Nat) (s₀ : GcState)
    (kept : List Nat) (s₂ : GcState) : Prop where
  buffers : ∃ spare, Buffers s₂ kept spare
  root : s₂.root = s₀.root
  rootMem : ∀ i ∈ kept, s₂.root i ∈ heap.nodes
  firstUnused : s₂.firstUnused = s₀.firstUnused
  zvalToFree : s₂.zvalToFree = .listEnd
  balanced : Balanced heap s₂ owed fun _ => 0
  untracked : ∀ n, heap.tracked n = false → s₂.refcount n = s₀.refcount n
  ptr : ∀ i ∈ kept, (s₂.word (s₂.root i)).ptr = .slot i
  ptrNull : ∀ n, (∀ i ∈ kept, s₂.root i ≠ n) → (s₂.word n).ptr = .null
  counted : ∀ n, s₂.color n ≠ .white → counted s₂ n = true
  table : ∀ n, heap.tracked n = false → s₂.color n ≠ .white
  whiteMem : ∀ n, s₂.color n = .white → n ∈ heap.nodes
  whiteOwed : ∀ n, s₂.color n = .white → owed n = 0
  whitePred : ∀ m ∈ heap.nodes, ∀ n ∈ heap.succ m, s₂.color n = .white → s₂.color m = .white
  whiteReach : ∀ n, s₂.color n = .white → ∃ i ∈ kept,
    ReachVia heap.succ (fun m => m ∈ heap.nodes) (s₂.root i) n
  garbage : ∀ v, heap.tracked v = true →
    (∀ m, Reaches heap.succ m v → owed m = 0 ∧ ∃ r, s₀.color r = .purple ∧ Reaches heap.succ r m) →
    s₂.color v = .white

theorem MarkInv.visited_of_reaches (h : MarkInv heap owed s₀ kept [] s₁)
    {r n : Node} (hr : s₀.color r = .purple)
    (hpath : Reaches heap.succ r n) : Visited heap s₁ n := by
  have hstart : Visited heap s₁ r := by
    rcases h.progress r hr with hpurple | hdone
    · obtain ⟨i, hi, _⟩ := h.purple r hpurple
      simp at hi
    · exact hdone
  refine hpath.closed (Visited heap s₁) hstart ?_
  intro m c _ hm hc
  rcases hm with hgrey | ⟨htracked, _⟩
  · exact h.closed m hgrey c hc
  · rw [heap.succ_of_not_tracked htracked] at hc
    simp at hc

theorem Scans.scanned (hscans : Scans heap owed (kept.map s₁.root) s₁ s)
    (h : MarkInv heap owed s₀ kept [] s₁) : Scanned heap owed s₀ kept s := by
  have hroot : s.root = s₁.root := by rw [hscans.frame]
  -- A grey node is reached from a root along nodes that were grey.
  have hnoGrey : ∀ n, s.color n ≠ .grey := by
    intro n hn
    obtain ⟨i, hi, hpath⟩ := h.reach n (hscans.was_grey hn)
    have hstart : s.color (s₁.root i) ≠ .grey :=
      hscans.done _ (List.mem_map_of_mem hi)
    exact hpath.closed (fun m => s.color m ≠ .grey) hstart
      (fun m c hm hdone hc => hscans.closed m (not_not.mpr hm) hdone c hc) hn
  have hwhite : ∀ n, s.color n = .white → s₁.color n = .grey := by
    intro n hn
    rcases hscans.step n with heq | ⟨hgrey, _⟩ | ⟨heq, _⟩
    · rw [heq] at hn
      exact absurd hn (h.pre.noWhite n)
    · exact hgrey
    · rw [hn] at heq
      cases heq
  refine
    { buffers := ?_
      root := hroot.trans h.root
      rootMem := fun i hi => by
        rw [hroot]
        exact h.rootMem i (by simpa using hi)
      firstUnused := by rw [hscans.frame]; exact h.firstUnused
      zvalToFree := by rw [hscans.frame]; exact h.zvalToFree
      balanced := hscans.pre.balanced
      untracked := fun n hn =>
        (hscans.untracked n hn).trans (h.untracked n hn)
      ptr := fun i hi => by
        rw [hroot, hscans.ptr]
        exact h.ptr i (by simpa using hi)
      ptrNull := fun n hn => by
        rw [hscans.ptr]
        exact h.ptrNull n (by simpa [← hroot] using hn)
      counted := ?_
      table := ?_
      whiteMem := fun n hn => h.grey n (hwhite n hn)
      whiteOwed := fun n hn => (hscans.white n (hwhite n hn) hn).1
      whitePred := ?_
      whiteReach := ?_
      garbage := ?_ }
  · obtain ⟨spare, hbuffers⟩ := h.buffers
    rw [append_nil] at hbuffers
    exact ⟨spare, hbuffers.congr (by rw [hscans.frame])
      (by rw [hscans.frame]) (by rw [hscans.frame]) (by rw [hscans.frame])⟩
  · intro n hn
    cases hcolor : s.color n with
    | black => simp [PhpEngine.counted, hcolor]
    | white => exact absurd hcolor hn
    | grey => exact absurd hcolor (hnoGrey n)
    | purple => simp [PhpEngine.counted, hcolor]
  · intro n hn hcolor
    have hcounted := hscans.pre.untracked n hn
    simp [PhpEngine.counted, hcolor] at hcounted
  · intro m hm n hn hcolor
    cases hcounted : PhpEngine.counted s₁ m with
    | true =>
      exact absurd hn ((hscans.white n (hwhite n hcolor) hcolor).2 m hm hcounted)
    | false =>
      have hnotBlack : s₁.color m ≠ .black := by
        intro heq
        simp [PhpEngine.counted, heq] at hcounted
      rcases hscans.step m with heq | ⟨_, heq⟩ | ⟨heq, _⟩
      · cases hm₁ : s₁.color m with
        | black => exact absurd hm₁ hnotBlack
        | white => exact absurd hm₁ (h.pre.noWhite m)
        | grey => exact absurd (heq.trans hm₁) (hnoGrey m)
        | purple => simp [PhpEngine.counted, hm₁] at hcounted
      · exact heq
      · rw [hscans.black m hnotBlack heq n hn] at hcolor
        cases hcolor
  · intro n hn
    obtain ⟨i, hi, hpath⟩ := h.reach n (hwhite n hn)
    rw [hroot]
    exact ⟨i, hi, hpath.mono fun m hm => h.grey m hm⟩
  · intro v hv hgarbage
    -- Everything that reaches `v` is grey after the mark phase.
    have hgrey : ∀ m, Reaches heap.succ m v → s₁.color m = .grey := by
      intro m hm
      obtain ⟨_, r, hr, hpath⟩ := hgarbage m hm
      rcases h.visited_of_reaches hr hpath with hgrey | ⟨htracked, _⟩
      · exact hgrey
      · rcases Relation.ReflTransGen.cases_head hm with rfl | ⟨c, hc, _⟩
        · rw [hv] at htracked
          cases htracked
        · rw [heap.succ_of_not_tracked htracked] at hc
          simp at hc
    have hcounted := hscans.garbage (fun m => Reaches heap.succ m v)
      (fun m n hn hpath => ReachVia.head trivial hn hpath)
      (fun n hn => ⟨(hgarbage n hn).1, by simp [PhpEngine.counted, hgrey n hn]⟩)
      v Relation.ReflTransGen.refl
    cases hcolor : s.color v with
    | black => simp [PhpEngine.counted, hcolor] at hcounted
    | white => rfl
    | grey => exact absurd hcolor (hnoGrey v)
    | purple => simp [PhpEngine.counted, hcolor] at hcounted

end Scan

end PhpEngine

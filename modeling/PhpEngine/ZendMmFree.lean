/-
Blocks that are freed: a block joins the free blocks around it, the segment goes
when nothing else is in it, and the cache is flushed block by block.
-/
import PhpEngine.ZendMmInvariant

namespace PhpEngine.ZendMm

open List Function

/-- A free block behind is taken from its list. -/
def takeNext (heap : Heap) (next size : Nat) : Option (Heap × Nat) :=
  if heap.IsFreeBlock next then
    (zendMmRemoveFromFreeList heap next).map (·, size + heap.sizeOf next)
  else some (heap, size)

/-- A free block before is taken from its list. -/
def takePrev (heap : Heap) (b size : Nat) : Option (Heap × Nat × Nat) :=
  if heap.PrevBlockIsFree b then
    (zendMmRemoveFromFreeList heap (heap.prevBlock b)).map
      (·, heap.prevBlock b, size + heap.sizeOf (heap.prevBlock b))
  else some (heap, b, size)

theorem takeNext_bind {α : Type} (heap : Heap) (next size : Nat) (f : Heap × Nat → Option α) :
    (if heap.IsFreeBlock next then
      ((zendMmRemoveFromFreeList heap next).map (·, size + heap.sizeOf next)).bind f
    else (some (heap, size)).bind f) = (takeNext heap next size).bind f := by
  rw [takeNext]
  split <;> rfl

theorem takePrev_bind {α : Type} (heap : Heap) (b size : Nat) (f : Heap × Nat × Nat → Option α) :
    (if heap.PrevBlockIsFree b then
      ((zendMmRemoveFromFreeList heap (heap.prevBlock b)).map
        (·, heap.prevBlock b, size + heap.sizeOf (heap.prevBlock b))).bind f
    else (some (heap, b, size)).bind f) = (takePrev heap b size).bind f := by
  rw [takePrev]
  split <;> rfl

/-- The end of a round of the flush. -/
def flushTail (heap : Heap) (b : Nat) : Option Heap :=
  if heap.IsFirstBlock b ∧ heap.IsGuardBlock (b + heap.sizeOf b) then
    zendMmDelSegment heap (b - alignedSegmentSize)
  else some (zendMmAddToFreeList heap b)

/-- The end of `_zend_mm_free_int`. -/
def freeTail (heap : Heap) (b size : Nat) : Option Heap :=
  if heap.IsFirstBlock b ∧ heap.IsGuardBlock (b + size) then
    zendMmDelSegment heap (b - alignedSegmentSize)
  else some (zendMmAddToFreeList (heap.setBlock b .free size) b)

theorem freeCachedBlock_eq (heap : Heap) (b : Nat) : freeCachedBlock heap b =
      (takePrev { heap with cached := heap.cached - heap.sizeOf b } b (heap.sizeOf b)).bind fun x =>
      (takeNext x.1 (b + heap.sizeOf b) x.2.2).bind fun y =>
      flushTail (y.1.setBlock x.2.1 .free y.2) x.2.1 := by
  rw [freeCachedBlock, ← takePrev_bind]
  simp only [flushTail, setBlock_sizeOf_self, ← takeNext_bind]
  rfl

theorem zendMmFreeInt_eq (heap : Heap) (p : Nat)
    (hlarge : ¬(SmallSize (heap.sizeOf (headerOf p)) ∧ heap.cached < cacheSize)) :
    zendMmFreeInt heap p = (takeNext { heap with size := heap.size - heap.sizeOf (headerOf p) }
        (headerOf p + heap.sizeOf (headerOf p)) (heap.sizeOf (headerOf p))).bind fun x =>
      (takePrev x.1 (headerOf p) x.2).bind fun y => freeTail y.1 y.2.1 y.2.2 := by
  rw [zendMmFreeInt, ← takeNext_bind]
  simp only [if_neg hlarge, freeTail, ← takePrev_bind]
  rfl

section Free

variable {heap heap' : Heap} {c : Census} {a b e : Nat} {l : List Nat}

theorem BlockRun.append {B : Finset Nat} {l' : List Nat} (h : BlockRun heap B a l b)
    (h' : BlockRun heap B b l' e) : BlockRun heap B a (l ++ l') e := by
  induction h with
  | nil a => exact h'
  | cons ha _ ih => exact .cons ha (ih h')

theorem BlockRun.congr {B : Finset Nat} (h : BlockRun heap B a l e)
    (hsize : ∀ x, heap'.sizeOf x = heap.sizeOf x) : BlockRun heap' B a l e := by
  induction h with
  | nil a => exact .nil a
  | cons ha _ ih =>
    apply BlockRun.cons ha
    rw [hsize]
    exact ih

theorem SameBlocks.isFree {x : Nat} (h : SameBlocks heap heap') :
    heap'.IsFreeBlock x ↔ heap.IsFreeBlock x := by
  rw [h]
  exact Iff.rfl

theorem SameBlocks.infoSize (h : SameBlocks heap heap') : heap'.infoSize = heap.infoSize := by
  rw [h]

theorem SameBlocks.infoPrev (h : SameBlocks heap heap') : heap'.infoPrev = heap.infoPrev := by
  rw [h]

/-- What is left as it is by the free lists and the headers. -/
def SameRest (heap heap' : Heap) : Prop :=
  heap'.cache = heap.cache ∧ heap'.reserve = heap.reserve ∧
    heap'.blockSize = heap.blockSize ∧ heap'.limit = heap.limit

theorem SameRest.trans {heap₁ : Heap} (h : SameRest heap heap₁)
    (h' : SameRest heap₁ heap') : SameRest heap heap' :=
  ⟨h'.1.trans h.1, h'.2.1.trans h.2.1, h'.2.2.1.trans h.2.2.1, h'.2.2.2.trans h.2.2.2⟩

theorem SameBlocks.rest (h : SameBlocks heap heap') : SameRest heap heap' := by
  rw [h]
  exact ⟨rfl, rfl, rfl, rfl⟩

theorem HeapInv.takeNext (h : HeapInv heap c) (hb : b ∈ c.blocks)
    (hnot : b + heap.sizeOf b ∉ c.unlisted) (size : Nat) :
    ∃ heap₁ e l, takeNext heap (b + heap.sizeOf b) size =
        some (heap₁, size + (e - (b + heap.sizeOf b))) ∧
      HeapInv heap₁ { c with unlisted := c.unlisted ∪ l.toFinset } ∧
      SameBlocks heap heap₁ ∧ BlockRun heap c.blocks (b + heap.sizeOf b) l e ∧
      ¬heap.IsFreeBlock e ∧ ∀ x ∈ l, heap.IsFreeBlock x ∧ x ∉ c.unlisted := by
  rw [PhpEngine.ZendMm.takeNext]
  by_cases hfree : heap.IsFreeBlock (b + heap.sizeOf b)
  · have hin := h.toTiled.next_of_free hb hfree
    obtain ⟨heap₁, hrun, h₁, hsame⟩ := h.unlist hin hfree hnot
    refine ⟨heap₁, _, [b + heap.sizeOf b], ?_, ?_, hsame, .cons hin (.nil _),
      h.settled _ hin hfree, ?_⟩
    · rw [if_pos hfree, hrun, Option.map_some, Nat.add_sub_cancel_left]
    · have heq : c.unlisted ∪ [b + heap.sizeOf b].toFinset =
          insert (b + heap.sizeOf b) c.unlisted := by
        ext x
        simp [or_comm]
      rw [heq]
      exact h₁
    · intro x hx
      rw [mem_singleton.mp hx]
      exact ⟨hfree, hnot⟩
  · refine ⟨heap, b + heap.sizeOf b, [], ?_, ?_, .refl heap, .nil _, hfree, by simp⟩
    · rw [if_neg hfree, Nat.sub_self, add_zero]
    · rw [toFinset_nil, Finset.union_empty]
      exact h

theorem HeapInv.takePrev (h : HeapInv heap c) (hb : b ∈ c.blocks)
    (hnot : ∀ x ∈ c.unlisted, x + heap.sizeOf x ≠ b) (size : Nat) :
    ∃ heap₁ a l, takePrev heap b size = some (heap₁, a, size + (b - a)) ∧
      HeapInv heap₁ { c with unlisted := c.unlisted ∪ l.toFinset } ∧
      SameBlocks heap heap₁ ∧ BlockRun heap c.blocks a l b ∧
      ¬heap.PrevBlockIsFree a ∧ ∀ x ∈ l, heap.IsFreeBlock x ∧ x ∉ c.unlisted := by
  rw [PhpEngine.ZendMm.takePrev]
  by_cases hfree : heap.PrevBlockIsFree b
  · obtain ⟨hin, hfree', hend⟩ := h.toTiled.prev_of_free hb hfree
    have hlisted : heap.prevBlock b ∉ c.unlisted := fun hin' => hnot _ hin' hend
    obtain ⟨heap₁, hrun, h₁, hsame⟩ := h.unlist hin hfree' hlisted
    rw [if_pos hfree]
    generalize heap.prevBlock b = a at *
    refine ⟨heap₁, a, [a], ?_, ?_, hsame, .cons hin ?_, ?_, ?_⟩
    · have heq : b - a = heap.sizeOf a := by
        rw [← hend]
        exact Nat.add_sub_cancel_left _ _
      rw [hrun, Option.map_some, heq]
    · have heq : c.unlisted ∪ [a].toFinset = insert a c.unlisted := by
        simp
      rw [heq]
      exact h₁
    · rw [hend]
      exact .nil b
    · intro hprev
      obtain ⟨hin₂, hfree₂, hend₂⟩ := h.toTiled.prev_of_free hin hprev
      have hsettled := h.settled _ hin₂ hfree₂
      rw [hend₂] at hsettled
      exact hsettled hfree'
    · intro x hx
      rw [mem_singleton.mp hx]
      exact ⟨hfree', hlisted⟩
  · refine ⟨heap, b, [], ?_, ?_, .refl heap, .nil _, hfree, by simp⟩
    · rw [if_neg hfree, Nat.sub_self, add_zero]
    · rw [toFinset_nil, Finset.union_empty]
      exact h

/-- A live block and the free blocks around it become one free block. -/
theorem HeapInv.joinFree {U : Finset Nat} (h : HeapInv heap { c with unlisted := U })
    (hrun : BlockRun heap c.blocks a l e) (hb : b ∈ c.live) (hbl : b ∈ l)
    (hothers : ∀ x ∈ l, x ≠ b → heap.IsFreeBlock x ∧ x ∉ c.unlisted)
    (hU : ∀ x, x ∈ U ↔ x ∈ c.unlisted ∨ x ∈ l ∧ x ≠ b)
    (hreserve : c.reserve ≠ some (dataOf b))
    (hend : ¬heap.IsFreeBlock e) (hstart : ¬heap.PrevBlockIsFree a) :
    HeapInv (heap.setBlock a .free (e - a)) { c with
        blocks := insert a (c.blocks \ l.toFinset)
        live := c.live.erase b
        unlisted := insert a c.unlisted
        drift := c.drift + heap.sizeOf b } := by
  have hlive : ∀ x ∈ l, x ∈ c.live → x = b := by
    intro x hx hlive
    by_contra hne
    exact h.not_free_of_live hlive (hothers x hx hne).1
  have hbfree := h.not_free_of_live hb
  have hbU : b ∉ U := fun hin => hbfree (h.unlisted b hin).2
  have hbc : b ∉ c.unlisted := fun hin => hbU ((hU b).mpr (.inl hin))
  have hreplaced := h.replace hrun (ne_nil_of_mem hbl) .free (by simp)
    (by
      intro x hx hfree
      have hne : x ≠ b := fun heq => hbfree (heq ▸ hfree)
      exact (hU x).mpr (.inr ⟨hx, hne⟩))
    (by
      intro x hx i hin
      by_cases hxb : x = b
      · exact (h.live b hb).2 i (hxb ▸ hin)
      · exact h.not_free_of_cached hin (hothers x hx hxb).1)
    (by
      intro x hx hres
      obtain ⟨r, hr, heq⟩ := h.reserved _ hres
      rw [dataOf, dataOf, Nat.add_right_cancel_iff] at heq
      exact absurd ((hlive x hx (heq ▸ hr)) ▸ hres) hreserve)
    fun _ => ⟨hend, hstart⟩
  have hset₁ : c.live \ l.toFinset = c.live.erase b := by
    ext x
    rw [Finset.mem_sdiff, List.mem_toFinset, Finset.mem_erase]
    constructor
    · rintro ⟨hx, hxl⟩
      exact ⟨fun heq => hxl (heq ▸ hbl), hx⟩
    · rintro ⟨hne, hx⟩
      exact ⟨hx, fun hxl => hne (hlive x hxl hx)⟩
  have hset₂ : U \ l.toFinset = c.unlisted := by
    ext x
    rw [Finset.mem_sdiff, List.mem_toFinset, hU]
    constructor
    · rintro ⟨hx | hx, hxl⟩
      · exact hx
      · exact absurd hx.1 hxl
    · intro hx
      refine ⟨.inl hx, fun hxl => ?_⟩
      have hne : x ≠ b := fun heq => hbc (heq ▸ hx)
      exact (hothers x hxl hne).2 hx
  have hset₃ : c.live ∩ l.toFinset = {b} := by
    ext x
    rw [Finset.mem_inter, List.mem_toFinset, Finset.mem_singleton]
    constructor
    · rintro ⟨hx, hxl⟩
      exact hlive x hxl hx
    · rintro rfl
      exact ⟨hb, hbl⟩
  have hsum : totalSize heap {b} = heap.sizeOf b := Finset.sum_singleton _ _
  simp only [Census.replaced, hset₁, hset₂, hset₃, hsum, reduceCtorEq, if_false, if_true,
    Nat.cast_zero, sub_zero] at hreplaced
  exact hreplaced

theorem Tiled.eq_of_addr {B : Finset Nat} (h : Tiled heap B) {s t : Segment}
    (hs : s ∈ heap.segmentsList) (ht : t ∈ heap.segmentsList) (haddr : s.addr = t.addr) :
    s = t := by
  have hfirst : s.first = t.first := by rw [Segment.first, Segment.first, haddr]
  have := (h.segments s hs).bounds
  have := (h.segments t ht).bounds
  exact h.holds_unique hs ht ⟨le_refl _, by omega⟩ ⟨le_refl _, by omega⟩ hfirst

theorem Tiled.find_segment {B : Finset Nat} (h : Tiled heap B) {t : Segment}
    (ht : t ∈ heap.segmentsList) :
    heap.segmentsList.find? (·.addr = t.first - alignedSegmentSize) = some t := by
  have haddr : t.first - alignedSegmentSize = t.addr := Nat.add_sub_cancel_left _ _
  cases hfind : heap.segmentsList.find? (·.addr = t.first - alignedSegmentSize) with
  | none =>
    rw [find?_eq_none] at hfind
    exact absurd (by simp [haddr]) (hfind t ht)
  | some s =>
    have hs := mem_of_find?_eq_some hfind
    have heq := find?_some hfind
    rw [decide_eq_true_iff, haddr] at heq
    rw [h.eq_of_addr hs ht heq]

/-- The segment of a block that takes all of it is freed. -/
theorem HeapInv.delSegment {size : Nat} (h : HeapInv (heap.setBlock a .free size) c)
    (ha : a ∈ c.unlisted) (hfirst : heap.IsFirstBlock a) (hguard : heap.IsGuardBlock (a + size)) :
    ∃ heap', zendMmDelSegment heap (a - alignedSegmentSize) = some heap' ∧ HeapInv heap'
        { c with blocks := c.blocks.erase a, unlisted := c.unlisted.erase a } ∧
      heap'.infoSize = heap.infoSize ∧ SameRest heap heap' := by
  obtain ⟨hin, hfree⟩ := h.unlisted a ha
  have hsize := setBlock_sizeOf_self heap a .free size
  have hmin := h.toTiled.size_ge hin
  obtain ⟨t, ht, hholds, -⟩ := h.toTiled.holds hin
  have hstart : a = t.first := by
    apply (h.toTiled.isFirst_iff ht hin hholds).mp
    rw [Heap.IsFirstBlock, setBlock_infoPrev_ne _ _ _ (by omega)]
    exact hfirst
  have hend : a + size = t.guard := by
    have hiff := h.toTiled.isGuard_iff ht hin hholds
    rw [hsize] at hiff
    apply hiff.mp
    rw [Heap.IsGuardBlock, setBlock_infoSize_ne _ _ _ (by omega)]
    exact hguard
  have hfind : heap.segmentsList.find? (·.addr = a - alignedSegmentSize) = some t := by
    rw [hstart]
    exact h.toTiled.find_segment ht
  refine ⟨{ heap with
      segmentsList := heap.segmentsList.erase t
      realSize := heap.realSize - t.size }, ?_, ?_, ?_, ?_⟩
  · rw [zendMmDelSegment, hfind]
    rfl
  · have hrun : BlockRun (heap.setBlock a .free size) c.blocks t.first [a] t.guard := by
      rw [← hstart, ← hend]
      refine .cons hin ?_
      rw [hsize]
      exact .nil _
    have hdrop := h.dropSegment { heap with
        segmentsList := heap.segmentsList.erase t
        realSize := heap.realSize - t.size } ht hrun
      (fun x hx _ => mem_singleton.mp hx ▸ ha)
      (fun x hx i hcached =>
        h.not_free_of_cached hcached (mem_singleton.mp hx ▸ hfree))
      (fun x hx hres => by
        obtain ⟨r, hr, heq⟩ := h.reserved _ hres
        rw [dataOf, dataOf, Nat.add_right_cancel_iff] at heq
        subst heq
        exact h.not_free_of_live hr (mem_singleton.mp hx ▸ hfree))
      (fun x hx => by
        constructor
        · rw [setBlock_infoSize_ne]
          omega
        · rw [setBlock_infoPrev_ne]
          omega) rfl rfl rfl
    have hnot : a ∉ c.live := fun hlive => h.not_free_of_live hlive hfree
    have hset : c.live \ [a].toFinset = c.live ∧ c.live ∩ [a].toFinset = ∅ := by
      constructor
      · ext x
        simp only [toFinset_cons, toFinset_nil, insert_empty_eq, Finset.mem_sdiff,
          Finset.mem_singleton, and_iff_left_iff_imp]
        exact fun hx heq => hnot (heq ▸ hx)
      · ext x
        simp only [toFinset_cons, toFinset_nil, insert_empty_eq, Finset.mem_inter,
          Finset.mem_singleton, Finset.notMem_empty, iff_false, not_and]
        exact fun hx heq => hnot (heq ▸ hx)
    have hblocks : ∀ S : Finset Nat, S \ [a].toFinset = S.erase a := by
      intro S
      ext x
      simp [and_comm]
    simp only [hset.1, hset.2, hblocks] at hdrop
    simpa [totalSize] using hdrop
  · rfl
  · exact ⟨rfl, rfl, rfl, rfl⟩

theorem SameRest.add (heap : Heap) (b : Nat) : SameRest heap (zendMmAddToFreeList heap b) :=
  (zendMmAddToFreeList_sameBlocks heap b).rest

theorem HeapInv.freeTail {size : Nat} (h : HeapInv (heap.setBlock a .free size) c)
    (ha : a ∈ c.unlisted) : ∃ heap' blocks, freeTail heap a size = some heap' ∧
      HeapInv heap' { c with blocks := blocks, unlisted := c.unlisted.erase a } ∧
      (∀ x, x ≠ a → heap'.infoSize x = heap.infoSize x) ∧ SameRest heap heap' := by
  rw [PhpEngine.ZendMm.freeTail]
  split
  · rename_i hwhole
    obtain ⟨heap', hrun, h', hinfo, hrest⟩ := h.delSegment ha hwhole.1 hwhole.2
    exact ⟨heap', _, hrun, h', fun x _ => by rw [hinfo], hrest⟩
  · refine ⟨_, c.blocks, rfl, h.relist ha, ?_, ?_⟩
    · intro x hx
      rw [(zendMmAddToFreeList_sameBlocks _ a).infoSize, setBlock_infoSize_ne _ _ _ hx]
    · exact SameRest.add (heap.setBlock a .free size) a

theorem setBlock_idem (heap : Heap) (b : Nat) (type : BlockType) (size : Nat) :
    (heap.setBlock b type size).setBlock b type size = heap.setBlock b type size := by
  simp only [Heap.setBlock, update_idem]

theorem HeapInv.flushTail {size : Nat} (h : HeapInv (heap.setBlock a .free size) c)
    (ha : a ∈ c.unlisted) : ∃ heap' blocks, flushTail (heap.setBlock a .free size) a = some heap' ∧
      HeapInv heap' { c with blocks := blocks, unlisted := c.unlisted.erase a } ∧
      (∀ x, x ≠ a → heap'.infoSize x = heap.infoSize x) ∧ SameRest heap heap' := by
  rw [← setBlock_idem] at h
  obtain ⟨heap', blocks, hrun, h', hinfo, hrest⟩ := h.freeTail ha
  refine ⟨heap', blocks, ?_, h', ?_, ?_⟩
  · rw [← hrun, PhpEngine.ZendMm.freeTail, PhpEngine.ZendMm.flushTail,
      setBlock_sizeOf_self, setBlock_idem]
  · intro x hx
    rw [hinfo x hx, setBlock_infoSize_ne _ _ _ hx]
  · exact hrest

/-- The blocks that a call leaves alone, except the one it is about. -/
def Census.Held (c : Census) (x : Nat) : Prop :=
  x ∈ c.live ∨ (∃ i, x ∈ c.cache i) ∨ x ∈ c.unlisted

/-- No neighbour of the block is free without being on a list. -/
def Census.Clear (c : Census) (heap : Heap) (b : Nat) : Prop :=
  ∀ x ∈ c.unlisted, x ≠ b + heap.sizeOf b ∧ x + heap.sizeOf x ≠ b

theorem HeapInv.reserved_live (h : HeapInv heap c) (hres : c.reserve = some (dataOf b)) :
    b ∈ c.live := by
  obtain ⟨r, hr, heq⟩ := h.reserved _ hres
  rw [dataOf, dataOf, Nat.add_right_cancel_iff] at heq
  rw [heq]
  exact hr

/-- What the two free neighbours of a live block leave: one block that is free and on
no list yet. -/
theorem HeapInv.joined {U : Finset Nat} (h : HeapInv heap { c with unlisted := U })
    (lp ln : List Nat)
    (hU : ∀ x, x ∈ U ↔ x ∈ c.unlisted ∨ x ∈ lp ∨ x ∈ ln) (hb : b ∈ c.live)
    (hprev : BlockRun heap c.blocks a lp b)
    (hnext : BlockRun heap c.blocks (b + heap.sizeOf b) ln e)
    (hpfree : ∀ x ∈ lp, heap.IsFreeBlock x ∧ x ∉ c.unlisted)
    (hnfree : ∀ x ∈ ln, heap.IsFreeBlock x ∧ x ∉ c.unlisted)
    (hreserve : c.reserve ≠ some (dataOf b))
    (hend : ¬heap.IsFreeBlock e) (hstart : ¬heap.PrevBlockIsFree a) :
    (∃ blocks, HeapInv (heap.setBlock a .free (e - a)) { c with
        blocks := blocks
        live := c.live.erase b
        unlisted := insert a c.unlisted
        drift := c.drift + heap.sizeOf b }) ∧
      a ∉ c.unlisted ∧ ∀ x, c.Held x → x ≠ b → x ≠ a := by
  have hbfree := h.not_free_of_live hb
  have hnot : ∀ x ∈ lp ++ b :: ln, x ≠ b → heap.IsFreeBlock x ∧ x ∉ c.unlisted := by
    intro x hx hne
    rw [mem_append, mem_cons] at hx
    rcases hx with hx | hx | hx
    · exact hpfree x hx
    · exact absurd hx hne
    · exact hnfree x hx
  have hbl : b ∈ lp ++ b :: ln := by simp
  have hal : a ∈ lp ++ b :: ln := by
    cases hprev with
    | nil => exact hbl
    | cons _ _ => exact mem_cons_self
  have hbc : b ∉ c.unlisted := fun hin =>
    hbfree (h.unlisted b ((hU b).mpr (.inl hin))).2
  refine ⟨⟨_, h.joinFree (hprev.append (.cons (h.live b hb).1 hnext)) hb hbl hnot ?_
    hreserve hend hstart⟩, ?_, ?_⟩
  · intro x
    rw [hU, mem_append, mem_cons]
    by_cases hxb : x = b
    · subst hxb
      have hlp : x ∉ lp := fun hin => hbfree (hpfree x hin).1
      have hln : x ∉ ln := fun hin => hbfree (hnfree x hin).1
      simp [hlp, hln]
    · simp [hxb]
  · by_cases hab : a = b
    · rw [hab]
      exact hbc
    · exact (hnot a hal hab).2
  · intro x hx hne heq
    subst heq
    obtain ⟨hfree, hunlisted⟩ := hnot x hal hne
    rcases hx with hx | ⟨i, hx⟩ | hx
    · exact h.not_free_of_live hx hfree
    · exact h.not_free_of_cached hx hfree
    · exact hunlisted hx

theorem HeapInv.freeCachedBlock (h : HeapInv heap c) {i : Nat} {list : List Nat}
    (hlist : c.cache i = b :: list) (hclear : c.Clear heap b) :
    ∃ heap' blocks, freeCachedBlock heap b = some heap' ∧ HeapInv heap' { c with
          blocks := blocks
          cache := update c.cache i list
          drift := c.drift + heap.sizeOf b } ∧
      (∀ x, c.Held x → x ≠ b → heap'.infoSize x = heap.infoSize x) ∧
      SameRest heap heap' := by
  have hb : b ∈ c.cache i := by
    rw [hlist]
    exact mem_cons_self
  have hin := (h.cached i b hb).1
  have hnot : b ∉ c.live := fun hlive => (h.live b hlive).2 i hb
  have h₀ := h.uncacheBlock hlist
  obtain ⟨heap₁, a, lp, hrun₁, h₁, hsame₁, hprev, hstart, hpfree⟩ :=
    h₀.takePrev hin (fun x hx => (hclear x hx).2) (heap.sizeOf b)
  have hsize₁ : ∀ x, heap₁.sizeOf x = heap.sizeOf x := hsame₁.sizeOf
  obtain ⟨heap₂, e, ln, hrun₂, h₂, hsame₂, hnext, hend, hnfree⟩ :=
    h₁.takeNext hin (by
      rw [hsize₁, Finset.mem_union, List.mem_toFinset, not_or]
      refine ⟨fun hx => (hclear _ hx).1 rfl, fun hx => ?_⟩
      have := (hprev.mem_iff h₀.toTiled _).mp hx
      omega) (heap.sizeOf b + (b - a))
  have hsame := hsame₁.trans hsame₂
  have hsize₂ : ∀ x, heap₂.sizeOf x = heap.sizeOf x := hsame.sizeOf
  rw [hsize₁] at hrun₂ hnext
  obtain ⟨⟨blocks, hjoined⟩, ha, hheld⟩ := HeapInv.joined (e := e) (c := { c with
      live := insert b c.live
      cache := update c.cache i list }) h₂ lp ln
    (by
      intro x
      simp only [Finset.mem_union, List.mem_toFinset, or_assoc]) (Finset.mem_insert_self b _)
    (hprev.congr hsame.sizeOf)
    (by
      rw [hsize₂]
      exact hnext.congr hsame₂.sizeOf)
    (fun x hx => ⟨hsame.isFree.mpr (hpfree x hx).1, (hpfree x hx).2⟩)
    (fun x hx => ⟨hsame₂.isFree.mpr (hnfree x hx).1, fun hin' =>
      (hnfree x hx).2 (Finset.mem_union_left _ hin')⟩)
    (fun hres => hnot (h.reserved_live hres))
    (fun hfree => hend (hsame₂.isFree.mp hfree))
    (by
      rw [Heap.PrevBlockIsFree, hsame.infoPrev]
      exact hstart)
  obtain ⟨heap', blocks', hrun₃, h₃, hinfo, hrest⟩ :=
    hjoined.flushTail (Finset.mem_insert_self a _)
  have hle := hprev.le
  have hle' := hnext.le
  refine ⟨heap', blocks', ?_, ?_, ?_, ?_⟩
  · have htotal : heap.sizeOf b + (b - a) + (e - (b + heap.sizeOf b)) = e - a := by
      omega
    rw [freeCachedBlock_eq]
    simp only [hrun₁, hrun₂, Option.bind_some, htotal]
    exact hrun₃
  · rw [hsize₂] at h₃
    simp only [Finset.erase_insert ha, Finset.erase_insert hnot] at h₃
    exact h₃
  · intro x hx hne
    rw [hinfo x (hheld x ?_ hne), hsame.infoSize]
    rcases hx with hx | ⟨j, hx⟩ | hx
    · exact .inl (Finset.mem_insert_of_mem hx)
    · refine .inr (.inl ⟨j, ?_⟩)
      change x ∈ update c.cache i list j
      by_cases hj : j = i
      · subst hj
        rw [update_self]
        rw [hlist, mem_cons] at hx
        exact hx.resolve_left hne
      · rw [update_of_ne hj]
        exact hx
    · exact .inr (.inr hx)
  · exact SameRest.trans hsame.rest hrest

theorem Census.Clear.congr (hclear : c.Clear heap b) (hb : heap'.infoSize b = heap.infoSize b)
    (hx : ∀ x ∈ c.unlisted, heap'.infoSize x = heap.infoSize x) {c' : Census}
    (hunlisted : c'.unlisted = c.unlisted) : c'.Clear heap' b := by
  intro x hin
  rw [hunlisted] at hin
  rw [Heap.sizeOf, Heap.sizeOf, hb, hx x hin]
  exact hclear x hin

theorem sum_sizeOf_congr (hinfo : ∀ x ∈ l, heap'.infoSize x = heap.infoSize x) :
    (l.map heap'.sizeOf).sum = (l.map heap.sizeOf).sum :=
  congrArg List.sum (map_congr_left fun x hx => congrArg Tag.size (hinfo x hx))

theorem HeapInv.freeList (h : HeapInv heap c) {i : Nat} (hlist : c.cache i = l)
    (hclear : ∀ b ∈ l, c.Clear heap b) :
    ∃ heap' blocks, l.foldlM PhpEngine.ZendMm.freeCachedBlock heap = some heap' ∧ HeapInv heap'
        { c with
          blocks := blocks
          cache := update c.cache i []
          drift := c.drift + (l.map heap.sizeOf).sum } ∧
      (∀ x, c.Held x → x ∉ l → heap'.infoSize x = heap.infoSize x) ∧
      SameRest heap heap' := by
  induction l generalizing heap c with
  | nil =>
    refine ⟨heap, c.blocks, rfl, ?_, fun _ _ _ => rfl, rfl, rfl, rfl, rfl⟩
    have hcache : update c.cache i [] = c.cache := by
      rw [← hlist, update_eq_self]
    rw [hcache, map_nil, sum_nil, Nat.cast_zero, add_zero]
    exact h
  | cons b l ih =>
    obtain ⟨heap₁, blocks₁, hrun₁, h₁, hinfo₁, hrest₁⟩ :=
      h.freeCachedBlock hlist (hclear b mem_cons_self)
    have hmem : ∀ x ∈ b :: l, x ∈ c.cache i := fun x hx => hlist ▸ hx
    have hnodup := h.cacheNodup i
    rw [hlist, nodup_cons] at hnodup
    have hunlisted : ∀ x ∈ c.unlisted, heap₁.infoSize x = heap.infoSize x := by
      intro x hx
      apply hinfo₁ x (.inr (.inr hx))
      rintro rfl
      exact h.not_free_of_cached (hmem x mem_cons_self) (h.unlisted x hx).2
    have hcached : ∀ x ∈ l, heap₁.infoSize x = heap.infoSize x := by
      intro x hx
      apply hinfo₁ x (.inr (.inl ⟨i, hmem x (mem_cons_of_mem _ hx)⟩))
      rintro rfl
      exact hnodup.1 hx
    obtain ⟨heap', blocks, hrun, h', hinfo, hrest⟩ := ih h₁ (by
      change update c.cache i l i = l
      rw [update_self]) (by
      intro x hx
      exact (hclear x (mem_cons_of_mem _ hx)).congr (hcached x hx) hunlisted rfl)
    refine ⟨heap', blocks, ?_, ?_, ?_, hrest₁.trans hrest⟩
    · rw [foldlM_cons, hrun₁]
      exact hrun
    · rw [sum_sizeOf_congr hcached] at h'
      simp only [update_idem] at h'
      rw [map_cons, sum_cons, Nat.cast_add, ← Int.add_assoc]
      exact h'
    · intro x hx hnot
      rw [mem_cons, not_or] at hnot
      rw [hinfo x ?_ hnot.2, hinfo₁ x hx hnot.1]
      rcases hx with hx | ⟨j, hx⟩ | hx
      · exact .inl hx
      · refine .inr (.inl ⟨j, ?_⟩)
        change x ∈ update c.cache i l j
        by_cases hj : j = i
        · subst hj
          rw [hlist, mem_cons] at hx
          exact absurd (hx.resolve_left hnot.1) hnot.2
        · rw [update_of_ne hj]
          exact hx
      · exact .inr (.inr hx)

section

variable (h : HeapInv heap c) (hcache : c.cache = heap.cache)
  (hclear : ∀ i, ∀ b ∈ c.cache i, c.Clear heap b)
include h hcache hclear

theorem HeapInv.freeCacheLists (n : Nat) :
    ∃ heap' blocks, (List.range n).foldlM freeCacheList heap = some heap' ∧ HeapInv heap' { c with
          blocks := blocks
          cache := heap'.cache
          drift := c.drift + (∑ i ∈ Finset.range n, ((c.cache i).map heap.sizeOf).sum : Nat) } ∧
      (heap'.cache = fun i => if i < n then [] else c.cache i) ∧
      heap'.reserve = heap.reserve ∧
      ∀ x, c.Held x → (∀ i < n, x ∉ c.cache i) → heap'.infoSize x = heap.infoSize x := by
  induction n with
  | zero =>
    refine ⟨heap, c.blocks, rfl, ?_, ?_, rfl, fun _ _ _ => rfl⟩
    · rw [Finset.range_zero, Finset.sum_empty, Nat.cast_zero, add_zero, ← hcache]
      exact h
    · simp [hcache]
  | succ n ih =>
    obtain ⟨heap₁, blocks₁, hrun₁, h₁, hcache₁, hres₁, hinfo₁⟩ := ih
    have hlist : heap₁.cache n = c.cache n := by simp [hcache₁]
    -- A block is on one list only.
    have hother : ∀ i j x, x ∈ c.cache i → x ∈ c.cache j → i = j := fun i j x hi hj =>
      (h.cached i x hi).2.2.symm.trans (h.cached j x hj).2.2
    have hcached : ∀ x ∈ c.cache n, heap₁.infoSize x = heap.infoSize x := fun x hx =>
      hinfo₁ x (.inr (.inl ⟨n, hx⟩)) fun i hi hin => by
        have := hother i n x hin hx
        omega
    have hunlisted : ∀ x ∈ c.unlisted, heap₁.infoSize x = heap.infoSize x := fun x hx =>
      hinfo₁ x (.inr (.inr hx)) fun i _ hin => h.not_free_of_cached hin (h.unlisted x hx).2
    obtain ⟨heap₂, blocks, hrun₂, h₂, hinfo₂, hrest₂⟩ :=
      h₁.freeList (l := c.cache n) hlist fun x hx =>
        (hclear n x hx).congr (hcached x hx) hunlisted rfl
    have hnew : ∀ i, update heap₂.cache n [] i = if i < n + 1 then [] else c.cache i := by
      intro i
      by_cases hi : i = n
      · subst hi
        simp
      · rw [update_of_ne hi, hrest₂.1, hcache₁]
        change (if i < n then [] else c.cache i) = _
        by_cases hlt : i < n
        · rw [if_pos hlt, if_pos (by omega)]
        · rw [if_neg hlt, if_neg (by omega)]
    refine ⟨{ heap₂ with cache := update heap₂.cache n [] }, blocks, ?_, ?_,
      funext hnew, hrest₂.2.1.trans hres₁, ?_⟩
    · rw [range_succ, foldlM_append, hrun₁]
      simp only [Option.bind_eq_bind, Option.bind_some, foldlM_cons, freeCacheList,
        hlist, hrun₂, foldlM_nil]
      rfl
    · have h₃ := h₂.setFields (update heap₂.cache n []) heap₂.reserve
      rw [Finset.sum_range_succ, Nat.cast_add, ← Int.add_assoc]
      rw [sum_sizeOf_congr hcached] at h₃
      simp only [← hrest₂.1] at h₃
      exact h₃
    · intro x hx hnot
      rw [hinfo₂ x ?_ (hnot n (by omega)), hinfo₁ x hx fun i hi => hnot i (by omega)]
      rcases hx with hx | ⟨j, hx⟩ | hx
      · exact .inl hx
      · refine .inr (.inl ⟨j, ?_⟩)
        have hj : ¬j < n := fun hlt => hnot j (by omega) hx
        rw [hcache₁]
        change x ∈ if j < n then [] else c.cache j
        rw [if_neg hj]
        exact hx
      · exact .inr (.inr hx)

/-- `zend_mm_free_cache` leaves `heap->size` as it is, so that what was cached is now
counted too much. -/
theorem HeapInv.zendMmFreeCache :
    ∃ heap' blocks, zendMmFreeCache heap = some heap' ∧ HeapInv heap' { c with
          blocks := blocks
          cache := fun _ => []
          drift := c.drift + cachedSize heap c.cache } ∧
      (heap'.cache = fun _ => []) ∧ heap'.reserve = heap.reserve ∧
      ∀ x, x ∈ c.live ∨ x ∈ c.unlisted → heap'.infoSize x = heap.infoSize x := by
  obtain ⟨heap', blocks, hrun, h', hempty, hres, hinfo⟩ :=
    h.freeCacheLists hcache hclear numBuckets
  have hall : heap'.cache = fun _ => [] := by
    rw [hempty]
    funext i
    split
    · rfl
    · rename_i hi
      cases hlist : c.cache i with
      | nil => rfl
      | cons b l =>
        have hin : b ∈ c.cache i := by
          rw [hlist]
          exact mem_cons_self
        obtain ⟨-, hsmall, heq⟩ := h.cached i b hin
        exact absurd (heq ▸ bucketIndex_lt hsmall) hi
  refine ⟨heap', blocks, hrun, ?_, hall, hres, ?_⟩
  · rw [hall] at h'
    exact h'
  · rintro x (hx | hx)
    · exact hinfo x (.inl hx) fun i _ => (h.live x hx).2 i
    · exact hinfo x (.inr (.inr hx)) fun i _ hin =>
        h.not_free_of_cached hin (h.unlisted x hx).2

end

theorem headerOf_dataOf (b : Nat) : headerOf (dataOf b) = b := Nat.add_sub_cancel b _

theorem HeapInv.live_le (h : HeapInv heap c) (hb : b ∈ c.live) (hdrift : 0 ≤ c.drift) :
    heap.sizeOf b ≤ heap.size := by
  have hcount := h.sizeCount
  have herase := totalSize_erase heap hb
  omega

/-- `_zend_mm_free_int` of a live block: it is cached, or joins its neighbours. -/
theorem HeapInv.zendMmFreeInt (h : HeapInv heap c) (hcache : c.cache = heap.cache)
    (hdrift : 0 ≤ c.drift) (hb : b ∈ c.live) (hreserve : c.reserve ≠ some (dataOf b))
    (hclear : c.Clear heap b) : ∃ heap' blocks, zendMmFreeInt heap (dataOf b) = some heap' ∧
      HeapInv heap' { c with
          blocks := blocks
          live := c.live.erase b
          cache := heap'.cache } ∧
      heap'.reserve = heap.reserve ∧
      (∀ x, c.Held x → x ≠ b → heap'.infoSize x = heap.infoSize x) := by
  obtain ⟨hin, huncached⟩ := h.live b hb
  by_cases hcaching : SmallSize (heap.sizeOf b) ∧ heap.cached < cacheSize
  · refine ⟨{ heap with
        cache := update heap.cache (bucketIndex (heap.sizeOf b))
          (b :: heap.cache (bucketIndex (heap.sizeOf b)))
        cached := heap.cached + heap.sizeOf b }, c.blocks, ?_, ?_, rfl, fun _ _ _ => rfl⟩
    · rw [PhpEngine.ZendMm.zendMmFreeInt, headerOf_dataOf]
      exact if_pos hcaching
    · have h' := h.cacheBlock hb hcaching.1 hreserve
      rw [hcache] at h'
      exact h'.setFields _ heap.reserve
  · have hbfree := h.not_free_of_live hb
    have hsize := h.live_le hb hdrift
    have h₀ := h.setSize (heap.size - heap.sizeOf b)
    obtain ⟨heap₁, e, ln, hrun₁, h₁, hsame₁, hnext, hend, hnfree⟩ :=
      h₀.takeNext hin (fun hx => (hclear _ hx).1 rfl) (heap.sizeOf b)
    have hsize₁ : ∀ x, heap₁.sizeOf x = heap.sizeOf x := hsame₁.sizeOf
    obtain ⟨heap₂, a, lp, hrun₂, h₂, hsame₂, hprev, hstart, hpfree⟩ :=
      h₁.takePrev hin (by
        intro x hx
        rw [Finset.mem_union, List.mem_toFinset] at hx
        rw [hsize₁]
        rcases hx with hx | hx
        · exact (hclear x hx).2
        · have hx : x ∈ c.blocks ∧ b + heap.sizeOf b ≤ x ∧ x < e :=
            (hnext.mem_iff h₀.toTiled x).mp hx
          have := h.toTiled.size_ge hin
          omega) (heap.sizeOf b + (e - (b + heap.sizeOf b)))
    have hsame := hsame₁.trans hsame₂
    have hsize₂ : ∀ x, heap₂.sizeOf x = heap.sizeOf x := hsame.sizeOf
    obtain ⟨⟨blocks, hjoined⟩, ha, hheld⟩ := HeapInv.joined (e := e) (c := { c with
        drift := c.drift + (heap.size - heap.sizeOf b : Nat) - heap.size }) h₂ lp ln
      (by
        intro x
        simp only [Finset.mem_union, List.mem_toFinset, or_assoc]
        exact or_congr_right or_comm) hb
      (hprev.congr hsame₂.sizeOf)
      (by
        rw [hsize₂]
        exact hnext.congr hsame.sizeOf)
      (fun x hx => ⟨hsame₂.isFree.mpr (hpfree x hx).1, fun hin' =>
        (hpfree x hx).2 (Finset.mem_union_left _ hin')⟩)
      (fun x hx => ⟨hsame.isFree.mpr (hnfree x hx).1, (hnfree x hx).2⟩)
      hreserve
      (fun hfree => hend (hsame.isFree.mp hfree))
      (by
        rw [Heap.PrevBlockIsFree, hsame₂.infoPrev]
        exact hstart)
    obtain ⟨heap', blocks', hrun₃, h₃, hinfo, hrest⟩ :=
      hjoined.freeTail (Finset.mem_insert_self a _)
    have hle := hprev.le
    have hle' := hnext.le
    have hrest' : SameRest heap heap' := SameRest.trans hsame.rest hrest
    refine ⟨heap', blocks', ?_, ?_, hrest'.2.1, ?_⟩
    · have htotal : heap.sizeOf b + (e - (b + heap.sizeOf b)) + (b - a) = e - a := by
        change b + heap.sizeOf b ≤ e at hle'
        omega
      rw [zendMmFreeInt_eq _ _ (by rw [headerOf_dataOf]; exact hcaching), headerOf_dataOf]
      simp only [Heap.sizeOf] at hrun₁ hrun₂ hrun₃ htotal ⊢
      simp only [hrun₁, hrun₂, Option.bind_some, htotal]
      exact hrun₃
    · have hd : c.drift + (heap.size - heap.sizeOf b : Nat) - heap.size + heap.sizeOf b =
          c.drift := by omega
      rw [hsize₂] at h₃
      simp only [Finset.erase_insert ha, hd] at h₃
      rw [hrest'.1, ← hcache]
      exact h₃
    · intro x hx hne
      rw [hinfo x (hheld x hx hne), hsame.infoSize]

/-- `zend_mm_safe_error`: the reserve is freed. -/
theorem HeapInv.zendMmSafeError (h : HeapInv heap c) (hcache : c.cache = heap.cache)
    (hres : c.reserve = heap.reserve) (hdrift : 0 ≤ c.drift)
    (hclear : ∀ b, c.reserve = some (dataOf b) → c.Clear heap b) :
    ∃ heap' blocks live, zendMmSafeError heap = some heap' ∧ HeapInv heap' { c with
          blocks := blocks
          live := live
          cache := heap'.cache
          reserve := none } ∧
      heap'.reserve = none ∧
      (∀ x, x ∈ live ↔ x ∈ c.live ∧ c.reserve ≠ some (dataOf x)) ∧
      ∀ x, c.Held x → c.reserve ≠ some (dataOf x) → heap'.infoSize x = heap.infoSize x := by
  cases hsome : heap.reserve with
  | none =>
    have hnone : c.reserve = none := hres.trans hsome
    refine ⟨heap, c.blocks, c.live, ?_, ?_, hsome, ?_, fun _ _ _ => rfl⟩
    · rw [PhpEngine.ZendMm.zendMmSafeError, hsome]
    · rw [← hcache, ← hnone]
      exact h
    · intro x
      simp [hnone]
  | some p =>
    have hp : c.reserve = some p := hres.trans hsome
    obtain ⟨b, hb, rfl⟩ := h.reserved p hp
    -- The reserve is an ordinary block from here on.
    have h₀ := h.setReserve none (by simp)
    obtain ⟨heap', blocks, hrun, h', -, hinfo⟩ :=
      h₀.zendMmFreeInt hcache hdrift hb (by simp) (hclear b hp)
    have hiff : ∀ x, c.reserve ≠ some (dataOf x) ↔ x ≠ b := by
      intro x
      rw [hp, ne_eq, Option.some.injEq, dataOf, dataOf, Nat.add_right_cancel_iff, eq_comm]
    refine ⟨{ heap' with reserve := none }, blocks, c.live.erase b, ?_, ?_, rfl, ?_, ?_⟩
    · rw [PhpEngine.ZendMm.zendMmSafeError, hsome]
      change (PhpEngine.ZendMm.zendMmFreeInt heap (dataOf b)).map _ = _
      rw [hrun]
      rfl
    · exact h'.setFields heap'.cache none
    · intro x
      rw [hiff, Finset.mem_erase, and_comm]
    · intro x hx hne
      exact hinfo x hx ((hiff x).mp hne)

end Free

end PhpEngine.ZendMm

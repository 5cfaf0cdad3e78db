/-
Blocks that change their size: in place, with the free block behind, with the whole
segment, or by a move to another block.
-/
import PhpEngine.ZendMmAlloc

namespace PhpEngine.ZendMm

open List Option

variable {heap₁ : Heap} {trueSize : Nat} {storage : Storage} {segments : List Segment} {t : Segment}

section Realloc

variable {heap heap' : Heap} {c c' : Census} {b e : Nat} {l : List Nat}

/-- The only live block of a run of free blocks behind it. -/
theorem HeapInv.live_run (h : HeapInv heap c) (hfree : ∀ x ∈ l, heap.IsFreeBlock x) :
    ∀ x ∈ b :: l, x ∈ c.live → x = b := by
  intro x hx hlive
  rcases mem_cons.mp hx with hx | hx
  · exact hx
  · exact absurd (hfree x hx) (h.not_free_of_live hlive)

theorem live_inter_run (hb : b ∈ c.live) (hlive : ∀ x ∈ b :: l, x ∈ c.live → x = b) :
    c.live ∩ (b :: l).toFinset = {b} := by
  ext x
  rw [Finset.mem_inter, List.mem_toFinset, Finset.mem_singleton]
  constructor
  · rintro ⟨hx, hxl⟩
    exact hlive x hxl hx
  · rintro rfl
    exact ⟨hb, mem_cons_self⟩

theorem HeapInv.regrow {U : Finset Nat} (h : HeapInv heap { c with unlisted := U })
    (hb : b ∈ c.live) (hrun : BlockRun heap c.blocks (b + heap.sizeOf b) l e)
    (hfree : ∀ x ∈ l, heap.IsFreeBlock x) (hU : ∀ x, x ∈ U ↔ x ∈ c.unlisted ∨ x ∈ l)
    (hnot : ∀ x ∈ l, x ∉ c.unlisted) :
    HeapInv (heap.setBlock b .used (e - b)) { c with
        blocks := insert b (c.blocks \ (b :: l).toFinset)
        drift := c.drift + heap.sizeOf b - (e - b : Nat) } := by
  obtain ⟨hin, huncached⟩ := h.live b hb
  have hbfree := h.not_free_of_live hb
  have hlive : ∀ x ∈ b :: l, x ∈ c.live → x = b := h.live_run hfree
  have hbU : b ∉ c.unlisted := fun hbU =>
    hbfree (h.unlisted b ((hU b).mpr (.inl hbU))).2
  have hreplaced := h.replace (.cons hin hrun) (cons_ne_nil _ _) .used (by simp)
    (by
      intro x hx hxfree
      rcases mem_cons.mp hx with rfl | hx
      · exact absurd hxfree hbfree
      · exact (hU x).mpr (.inr hx))
    (by
      intro x hx i hi
      rcases mem_cons.mp hx with rfl | hx
      · exact huncached i hi
      · exact h.not_free_of_cached hi (hfree x hx))
    (fun x hx hres => ⟨rfl, hlive x hx (h.reserved_live hres)⟩) (by simp)
  have hset₁ : insert b (c.live \ (b :: l).toFinset) = c.live := by
    ext x
    rw [Finset.mem_insert, Finset.mem_sdiff, List.mem_toFinset]
    constructor
    · rintro (rfl | ⟨hx, -⟩)
      · exact hb
      · exact hx
    · intro hx
      by_cases hxl : x ∈ b :: l
      · exact .inl (hlive x hxl hx)
      · exact .inr ⟨hx, hxl⟩
  have hset₂ := live_inter_run hb hlive
  have hset₃ : U \ (b :: l).toFinset = c.unlisted := by
    ext x
    rw [Finset.mem_sdiff, List.mem_toFinset, hU, mem_cons, not_or]
    constructor
    · rintro ⟨hx | hx, -, hxl⟩
      · exact hx
      · exact absurd hx hxl
    · intro hx
      exact ⟨.inl hx, fun heq => hbU (heq ▸ hx), fun hxl => hnot x hxl hx⟩
  have hsum : totalSize heap {b} = heap.sizeOf b := Finset.sum_singleton _ _
  simp only [Census.replaced, hset₁, hset₂, hset₃, hsum, reduceCtorEq, if_true,
    if_false] at hreplaced
  exact hreplaced

theorem live_outside (h : HeapInv heap c) {x : Nat} (hx : x ∈ c.live) (hne : x ≠ b)
    (hfree : ∀ y ∈ l, heap.IsFreeBlock y) : x ∈ insert b (c.blocks \ (b :: l).toFinset) := by
  rw [Finset.mem_insert, Finset.mem_sdiff, List.mem_toFinset, mem_cons, not_or]
  exact .inr ⟨(h.live x hx).1, hne, fun hxl => h.not_free_of_live hx (hfree x hxl)⟩

theorem insert_erase_live (hb : b ∈ c.live) : c.live = insert b (c.live.erase b) :=
  (Finset.insert_erase hb).symm

section

variable (h : Ready heap c)
include h

/-- The block and the free blocks behind it become a block of the new size and what
remains. -/
theorem Ready.refit (hclear : c.unlisted = ∅) (hb : b ∈ c.live)
    (h₁ : HeapInv heap₁ { c with unlisted := c.unlisted ∪ l.toFinset })
    (hsame₁ : SameBlocks heap heap₁) (hrun : BlockRun heap c.blocks (b + heap.sizeOf b) l e)
    (hend : ¬heap.IsFreeBlock e) (hfree : ∀ x ∈ l, heap.IsFreeBlock x) (hmin : 32 ≤ trueSize)
    (hdvd : 8 ∣ trueSize) (hle : trueSize ≤ e - b) (toRest : Prop) [Decidable toRest] :
    ∃ heap' c', fitBlock heap₁ b (e - b) trueSize (heap.sizeOf b) toRest =
        some (heap', .returned (dataOf b)) ∧
      Served heap c heap' c' (c.live.erase b) b trueSize := by
  have hbsize := h.live_le hb h.counted
  have hsize₁ := hsame₁.sizeOf b
  have hfields : heap₁.size = heap.size := by rw [hsame₁]
  have h₂ := h₁.regrow (e := e) hb (hsize₁ ▸ hrun.congr hsame₁.sizeOf)
    (fun x hx => hsame₁.isFree.mpr (hfree x hx)) (by simp) (by simp [hclear])
  have heq : b + (e - b) = e := by omega
  obtain ⟨heap', blocks, hfit, h', hroom, hinfo, hrest⟩ := h₂.fitBlock hb hmin hdvd hle (by
      rw [heq]
      exact fun hf => hend (hsame₁.isFree.mp hf))
    (hfields ▸ hbsize) toRest
  refine ⟨heap', _, hfit, ⟨h', ?_, ?_, ?_⟩, Finset.notMem_erase b _, insert_erase_live hb,
    hroom, rfl, rfl, ?_, ?_⟩
  · exact h.cacheEq.trans (hsame₁.rest.trans hrest).1.symm
  · exact h.reserveEq.trans (hsame₁.rest.trans hrest).2.1.symm
  · have := h.counted
    dsimp only
    omega
  · dsimp only
    omega
  · intro x hx
    rw [Finset.mem_erase] at hx
    rw [hinfo x (live_outside h.toHeapInv hx.2 hx.1 hfree) hx.1, hsame₁.infoSize]

theorem Served.self (hb : b ∈ c.live) (hle : trueSize ≤ heap.sizeOf b) :
    Served heap c heap c (c.live.erase b) b trueSize :=
  ⟨h, Finset.notMem_erase b _, insert_erase_live hb, hle, rfl, rfl, rfl, fun _ _ => rfl⟩

theorem Ready.reallocShrink (hclear : c.unlisted = ∅) (hb : b ∈ c.live) (hmin : 32 ≤ trueSize)
    (hdvd : 8 ∣ trueSize) (hle : trueSize ≤ heap.sizeOf b) :
    ∃ heap' c', reallocShrink heap (dataOf b) b (heap.sizeOf b) trueSize =
        some (heap', .returned (dataOf b)) ∧
      Served heap c heap' c' (c.live.erase b) b trueSize := by
  rw [PhpEngine.ZendMm.reallocShrink, alignedMinHeaderSize]
  by_cases hrest : heap.sizeOf b - trueSize ≥ 32
  · obtain ⟨heap₁, e, l, hrun₁, h₁, hsame₁, hnext, hend, hfree⟩ :=
      h.takeNext (h.live b hb).1 (by simp [hclear]) (heap.sizeOf b - trueSize)
    have hle' := hnext.le
    obtain ⟨heap', c', hfit, hserved⟩ := h.refit hclear hb h₁ hsame₁ hnext hend
      (fun x hx => (hfree x hx).1) hmin hdvd (by omega) False
    refine ⟨heap', c', ?_, hserved⟩
    have hremain : heap.sizeOf b - trueSize + (e - (b + heap.sizeOf b)) =
        e - b - trueSize := by omega
    have hlarge : ¬e - b - trueSize < 32 := by omega
    rw [if_pos hrest, ← hfit, fitBlock, if_neg hlarge, if_neg not_false, ← hremain]
    have hbind : ∀ f : Heap × Nat → Option (Heap × Exit),
        (takeNext heap (b + heap.sizeOf b) (heap.sizeOf b - trueSize)).bind f =
          f (heap₁, heap.sizeOf b - trueSize + (e - (b + heap.sizeOf b))) := by
      intro f
      rw [hrun₁, bind_some]
    simp only [← takeNext_bind] at hbind
    exact hbind fun x => some ({ zendMmAddToFreeList
      ((x.1.setBlock b .used trueSize).setBlock (b + trueSize) .free x.2) (b + trueSize) with
        size := (zendMmAddToFreeList ((x.1.setBlock b .used trueSize).setBlock (b + trueSize)
          .free x.2) (b + trueSize)).size + trueSize - heap.sizeOf b }, .returned (dataOf b))
  · rw [if_neg hrest]
    exact ⟨heap, c, rfl, .self h hb hle⟩

theorem Ready.reallocGrow (hclear : c.unlisted = ∅) (hb : b ∈ c.live)
    (hfree : heap.IsFreeBlock (b + heap.sizeOf b)) (hmin : 32 ≤ trueSize) (hdvd : 8 ∣ trueSize)
    (hle : trueSize ≤ heap.sizeOf b + heap.sizeOf (b + heap.sizeOf b)) :
    ∃ heap' c', reallocGrow heap (dataOf b) b (heap.sizeOf b) trueSize =
        some (heap', .returned (dataOf b)) ∧
      Served heap c heap' c' (c.live.erase b) b trueSize := by
  have hin := h.toTiled.next_of_free (h.live b hb).1 hfree
  obtain ⟨heap₁, hrun₁, h₁, hsame₁⟩ := h.unlist hin hfree (by simp [hclear])
  have hset : insert (b + heap.sizeOf b) c.unlisted =
      c.unlisted ∪ [b + heap.sizeOf b].toFinset := by
    ext x
    simp [or_comm]
  rw [hset] at h₁
  have hsizes : b + heap.sizeOf b + heap.sizeOf (b + heap.sizeOf b) - b =
      heap.sizeOf b + heap.sizeOf (b + heap.sizeOf b) := by omega
  have hcell : ∀ x ∈ [b + heap.sizeOf b], heap.IsFreeBlock x := by
    intro x hx
    rw [mem_singleton.mp hx]
    exact hfree
  obtain ⟨heap', c', hfit, hserved⟩ := h.refit hclear hb h₁ hsame₁
    (.cons hin (.nil _)) (h.settled _ hin hfree) hcell hmin hdvd (hsizes ▸ hle)
    (((heap₁.setBlock b .used trueSize).setBlock (b + trueSize) .free
        (heap.sizeOf b + heap.sizeOf (b + heap.sizeOf b) - trueSize)).IsFirstBlock b ∧
      ((heap₁.setBlock b .used trueSize).setBlock (b + trueSize) .free
        (heap.sizeOf b + heap.sizeOf (b + heap.sizeOf b) - trueSize)).IsGuardBlock
          (b + trueSize + (heap.sizeOf b + heap.sizeOf (b + heap.sizeOf b) - trueSize)))
  refine ⟨heap', c', ?_, hserved⟩
  rw [← hfit, hsizes, PhpEngine.ZendMm.reallocGrow, fitBlock, hrun₁, alignedMinHeaderSize]
  simp only [bind_eq_bind, bind_some]
  split
  · rfl
  · split
    · cases zendMmAddToRestList ((heap₁.setBlock b .used trueSize).setBlock (b + trueSize)
        .free (heap.sizeOf b + heap.sizeOf (b + heap.sizeOf b) - trueSize)) (b + trueSize) <;> rfl
    · rfl

theorem Ready.reallocCached (hb : b ∈ c.live) (hreserve : c.reserve ≠ some (dataOf b))
    (hmin : 32 ≤ trueSize) (hdvd : 8 ∣ trueSize) (hsmall : SmallSize trueSize)
    (hlt : heap.sizeOf b < trueSize) (hcache : heap.cache (bucketIndex trueSize) ≠ []) :
    ∃ heap' c' b', reallocCached heap b (heap.sizeOf b) trueSize =
        some (heap', .returned (dataOf b')) ∧
      Served heap c heap' c' (c.live.erase b) b' trueSize := by
  obtain ⟨best, list, hlist⟩ := exists_cons_of_ne_nil hcache
  have hlist' : c.cache (bucketIndex trueSize) = best :: list := by
    rw [h.cacheEq, hlist]
  have hbest : best ∈ c.cache (bucketIndex trueSize) := by
    rw [hlist']
    exact mem_cons_self
  have hsize : heap.sizeOf best = trueSize := by
    obtain ⟨hin, -, hindex⟩ := h.cached _ best hbest
    obtain ⟨hbmin, hbdvd⟩ := h.blocks best hin
    simp only [bucketIndex, alignedMinHeaderSize] at hindex hbmin
    omega
  have hnot : best ∉ c.live := fun hlive => (h.live best hlive).2 _ hbest
  have hne : best ≠ b := fun heq => hnot (heq ▸ hb)
  have hle : trueSize ≤ heap.cached := by
    have hsum := cachedSize_update heap c.cache (i := bucketIndex trueSize)
      (bucketIndex_lt hsmall) list
    rw [hlist', sum_map_sizeOf_cons] at hsum
    have := h.cachedCount
    omega
  have h₁ := h.toHeapInv.uncacheBlock hlist'
  have h₂ := h₁.cacheBlock (b := b) (Finset.mem_insert_of_mem hb) (by
      change SmallSize (heap.sizeOf b)
      rw [SmallSize] at hsmall ⊢
      omega) hreserve
  have hlive : (insert best c.live).erase b = insert best (c.live.erase b) :=
    Finset.erase_insert_of_ne hne
  have hcached : heap.cached - heap.sizeOf best + heap.sizeOf b =
      heap.cached - (trueSize - heap.sizeOf b) := by omega
  refine ⟨{ heap with
      cached := heap.cached - heap.sizeOf best + heap.sizeOf b
      cache := Function.update (Function.update heap.cache (bucketIndex trueSize) list)
        (bucketIndex (heap.sizeOf b)) (b :: Function.update heap.cache
          (bucketIndex trueSize) list (bucketIndex (heap.sizeOf b))) }, _, best, ?_,
    ⟨⟨h₂.setFields _ heap.reserve, ?_, h.reserveEq, h.counted⟩, ?_, hlive, hsize.ge, rfl,
      rfl, rfl, fun _ _ => rfl⟩⟩
  · rw [PhpEngine.ZendMm.reallocCached, hlist, hcached]
    rfl
  · rw [← h.cacheEq]
    rfl
  · exact fun hin => hnot (Finset.mem_of_mem_erase hin)

theorem Ready.reallocMove (hclear : c.unlisted = ∅) (hfresh : storage.Fresh heap) (hb : b ∈ c.live)
    (hreserve : c.reserve ≠ some (dataOf b)) (size : Nat) :
    ∃ heap' c' exit, reallocMove storage heap (dataOf b) size = some (heap', exit) ∧
      ((∃ b', exit = .returned (dataOf b') ∧ ¬AllocFlushes storage heap size ∧
          Served heap c heap' c' (c.live.erase b) b' (zendMmTrueSize size)) ∨
        (∀ p, exit ≠ .returned p) ∧ ∃ flushed, Failed heap c heap' c' flushed ∧
          (AllocFlushes storage heap size ∧ flushed = heap.cached ∨
            ¬AllocFlushes storage heap size ∧ flushed = 0)) := by
  obtain ⟨heap₁, c₁, exit, hrun, hend⟩ := h.alloc hclear hfresh size
  rw [PhpEngine.ZendMm.reallocMove, hrun]
  rcases hend with ⟨b', rfl, hflush, hserved⟩ | ⟨hexit, hfailed⟩
  · have hlive : c₁.live = insert b' c.live := hserved.live
    have hb₁ : b ∈ c₁.live := hlive ▸ Finset.mem_insert_of_mem hb
    have hne : b' ≠ b := fun heq => hserved.fresh (heq ▸ hb)
    have hclear₁ : c₁.unlisted = ∅ := hserved.unlisted.trans hclear
    obtain ⟨heap', blocks, hrun', h', hres', hinfo⟩ :=
      hserved.ready.toHeapInv.zendMmFreeInt hserved.ready.cacheEq hserved.ready.counted hb₁
        (hserved.reserve ▸ hreserve) (by
          intro x hx
          rw [hclear₁] at hx
          exact absurd hx (Finset.notMem_empty x))
    refine ⟨heap', { c₁ with
        blocks := blocks
        live := c₁.live.erase b
        cache := heap'.cache }, .returned (dataOf b'), ?_, .inl ⟨b', rfl, hflush, ⟨?_, ?_, ?_, ?_⟩,
      ?_, ?_, ?_, ?_, ?_, ?_, ?_⟩⟩
    · simp only [bind_eq_bind, bind_some, hrun']
      rfl
    · exact h'
    · rfl
    · exact hserved.ready.reserveEq.trans hres'.symm
    · exact hserved.ready.counted
    · exact fun hin => hserved.fresh (Finset.mem_of_mem_erase hin)
    · rw [hlive, Finset.erase_insert_of_ne hne]
    · have hroom := hserved.room
      rw [Heap.sizeOf] at hroom ⊢
      rw [hinfo b' (.inl (hlive ▸ Finset.mem_insert_self b' _)) hne]
      exact hroom
    · exact hserved.unlisted
    · exact hserved.reserve
    · exact hserved.drift
    · intro x hx
      rw [Finset.mem_erase] at hx
      rw [hinfo x (.inl (hlive ▸ Finset.mem_insert_of_mem hx.2)) hx.1, hserved.keeps x hx.2]
  · refine ⟨heap₁, c₁, exit, ?_, .inr ⟨hexit, hfailed⟩⟩
    cases exit with
    | returned p => exact absurd rfl (hexit p)
    | memoryLimit | outOfMemory => rfl

end

/-! The whole segment. -/

/-- The size of the segment whose first block it is. -/
def segmentSizeOf (heap : Heap) (b : Nat) : Nat :=
  ((heap.segmentsList.find? (·.addr = b - alignedSegmentSize)).map (·.size)).getD 0

/-- The limit does not grant the segment of the new size. -/
def SegmentLimited (heap : Heap) (b trueSize : Nat) : Prop :=
  segmentSizeFor heap trueSize < trueSize ∨
    (heap.realSize + segmentSizeFor heap trueSize - segmentSizeOf heap b) % sizeMod > heap.limit

/-- The storage does not grant the segment of the new size. -/
def SegmentDenied (storage : Storage) (heap : Heap) (b trueSize : Nat) : Prop :=
  storage.realloc (b - alignedSegmentSize) (segmentSizeFor heap trueSize) = none

theorem Failed.congr {flushed : Nat} (h : Failed heap c heap' c' flushed) {heap₀ : Heap}
    (hsame : SameBlocks heap₀ heap) : Failed heap₀ c heap' c' flushed :=
  ⟨h.ready, h.live, h.unlisted, h.reserve, h.drift, fun x hx => by
    rw [h.keeps x hx, hsame.infoSize]⟩

theorem SameBlocks.cached (h : SameBlocks heap heap') : heap'.cached = heap.cached := by
  rw [h]

theorem mem_map_replace {s : Segment} (ht : t ∈ segments)
    (new : Segment) : s ∈ segments.map (fun x => if x = t then new else x) ↔
      s = new ∨ s ∈ segments ∧ s ≠ t := by
  rw [List.mem_map]
  constructor
  · rintro ⟨x, hx, rfl⟩
    by_cases hxt : x = t
    · rw [if_pos hxt]
      exact .inl rfl
    · rw [if_neg hxt]
      exact .inr ⟨hx, hxt⟩
  · rintro (rfl | ⟨hs, hne⟩)
    · exact ⟨t, ht, if_pos rfl⟩
    · exact ⟨s, hs, if_neg hne⟩

theorem nodup_map_replace (hnodup : segments.Nodup)
    {new : Segment} (hnew : ∀ x ∈ segments, x ≠ t → x ≠ new) :
    (segments.map fun x => if x = t then new else x).Nodup := by
  apply hnodup.map_on
  intro x hx y hy heq
  split at heq <;> split at heq <;> rename_i hxt hyt
  · rw [hxt, hyt]
  · exact absurd heq.symm (hnew y hy hyt)
  · exact absurd heq (hnew x hx hxt)
  · exact heq

theorem sum_map_replace (hnodup : segments.Nodup) (ht : t ∈ segments) (new : Segment) :
    ((segments.map fun x => if x = t then new else x).map (·.size)).sum + t.size =
      (segments.map (·.size)).sum + new.size := by
  induction segments with
  | nil => cases ht
  | cons s segments ih =>
    rw [nodup_cons] at hnodup
    simp only [map_cons, sum_cons]
    by_cases hst : s = t
    · subst hst
      have hsame : segments.map (fun x => if x = s then new else x) = segments := by
        rw [map_congr_left (g := id), List.map_id]
        intro x hx
        have hne : x ≠ s := fun heq => hnodup.1 (heq ▸ hx)
        rw [if_neg hne, id]
      rw [if_pos rfl, hsame]
      omega
    · have := ih hnodup.2 ((mem_cons.mp ht).resolve_left (Ne.symm hst))
      rw [if_neg hst]
      omega

/-- The state behind `realloc_segment`: a block that takes its segment with at most a
free block behind it, and that is on no list. -/
structure Resizing (heap heap₁ : Heap) (c : Census) (b e : Nat) (l : List Nat)
    (t : Segment) : Prop where
  ready : Ready heap c
  listed : c.unlisted = ∅
  live : b ∈ c.live
  reserve : c.reserve ≠ some (dataOf b)
  inv : HeapInv heap₁ { c with unlisted := l.toFinset }
  same : SameBlocks heap heap₁
  run : BlockRun heap c.blocks (b + heap.sizeOf b) l e
  free : ∀ x ∈ l, heap.IsFreeBlock x
  next : l = [] ∧ ¬heap.IsFreeBlock (b + heap.sizeOf b) ∨
    l = [b + heap.sizeOf b] ∧ heap.IsFreeBlock (b + heap.sizeOf b)
  segment : t ∈ heap.segmentsList
  first : b = t.first
  last : e = t.guard

section

variable (h : Resizing heap heap₁ c b e l t)
include h

/-- The exit by the limit: the free block is listed again. -/
theorem Resizing.limited :
    ∃ heap₃ heap' c', zendMmFreeCache (if heap₁.IsFreeBlock (b + heap.sizeOf b) then
          zendMmAddToFreeList heap₁ (b + heap.sizeOf b) else heap₁) = some heap₃ ∧
      zendMmSafeError heap₃ = some heap' ∧ Failed heap c heap' c' heap.cached := by
  obtain ⟨heap₂, hheap₂, h₂, hsame₂⟩ : ∃ heap₂, (if heap₁.IsFreeBlock (b + heap.sizeOf b) then
      zendMmAddToFreeList heap₁ (b + heap.sizeOf b) else heap₁) = heap₂ ∧
      HeapInv heap₂ c ∧ SameBlocks heap heap₂ := by
    rcases h.next with ⟨rfl, hnot⟩ | ⟨rfl, hfree⟩
    · have hset : ([] : List Nat).toFinset = c.unlisted := by simp [h.listed]
      have hinv := h.inv
      rw [hset] at hinv
      exact ⟨heap₁, if_neg fun hf => hnot (h.same.isFree.mp hf), hinv, h.same⟩
    · have hset : [b + heap.sizeOf b].toFinset = insert (b + heap.sizeOf b) c.unlisted := by
        simp [h.listed]
      have hinv := h.inv
      rw [hset] at hinv
      exact ⟨_, if_pos (h.same.isFree.mpr hfree), hinv.listed (by simp [h.listed]),
        h.same.trans (zendMmAddToFreeList_sameBlocks _ _)⟩
  have hready : Ready heap₂ c := ⟨h₂, h.ready.cacheEq.trans hsame₂.rest.1.symm,
    h.ready.reserveEq.trans hsame₂.rest.2.1.symm, h.ready.counted⟩
  obtain ⟨heap₃, heap', c', hrun₃, hrun, hfailed⟩ :=
    hready.refuse (Census.allClear h.listed heap₂)
  rw [hheap₂]
  refine ⟨heap₃, heap', c', hrun₃, hrun, ?_⟩
  rw [← hsame₂.cached]
  exact hfailed.congr hsame₂

/-- The exit by the storage: the free block stays on no list. -/
theorem Resizing.denied :
    ∃ heap₃ heap' c', zendMmFreeCache heap₁ = some heap₃ ∧ zendMmSafeError heap₃ = some heap' ∧
      Failed heap { c with unlisted := l.toFinset } heap' c' heap.cached := by
  have hready : Ready heap₁ { c with unlisted := l.toFinset } :=
    ⟨h.inv, h.ready.cacheEq.trans h.same.rest.1.symm,
      h.ready.reserveEq.trans h.same.rest.2.1.symm, h.ready.counted⟩
  obtain ⟨hin, huncached⟩ := h.ready.live b h.live
  -- Besides the block itself nothing is next to the block that was free.
  have hclear : ∀ y ∈ c.blocks, y ≠ b → Census.Clear { c with unlisted := l.toFinset } heap₁ y := by
    intro y hy hne x hx
    rw [List.mem_toFinset] at hx
    rw [h.same.sizeOf, h.same.sizeOf]
    rcases h.next with ⟨rfl, -⟩ | ⟨rfl, -⟩
    · cases hx
    · rw [mem_singleton] at hx
      subst hx
      have := h.ready.toTiled.size_ge hin
      have hsize := h.ready.toTiled.size_ge hy
      constructor
      · intro heq
        rcases Nat.lt_or_gt_of_ne hne with hlt | hgt
        · have := h.ready.apart y hy b hin hlt
          omega
        · have := h.ready.apart b hin y hy hgt
          omega
      · intro heq
        cases h.run with
        | cons _ hrun =>
          cases hrun with
          | nil =>
            have hlast := h.ready.last t h.segment
            rw [← h.last, heq] at hlast
            exact h.ready.kind y hy hlast
  obtain ⟨heap₃, heap', c', hrun₃, hrun, hfailed⟩ := hready.refuse ⟨fun i y hy =>
      hclear y (h.ready.cached i y hy).1 fun heq => huncached i (heq ▸ hy),
    fun y hy => hclear y (h.ready.live y (h.ready.reserved_live hy)).1
      fun heq => h.reserve (heq ▸ hy)⟩
  refine ⟨heap₃, heap', c', hrun₃, hrun, ?_⟩
  rw [← h.same.cached]
  exact hfailed.congr h.same

theorem Resizing.moved {addr : Addr} {size : Nat} (ht : (Segment.mk addr size).Valid)
    (hapart : ∀ s ∈ heap.segmentsList, s ≠ t → s.Apart ⟨addr, size⟩) (hmin : 32 ≤ trueSize)
    (hdvd : 8 ∣ trueSize) (hroom : trueSize + 32 ≤ size) :
    ∃ heap' c' b', fitBlock ((({ heap₁ with
          realSize := heap₁.realSize + size - t.size
          segmentsList := heap₁.segmentsList.map fun s =>
            if s = t then ⟨addr, size⟩ else s }).markFirstBlock
          (addr + alignedSegmentSize)).lastBlock (addr + alignedSegmentSize +
            (size - alignedSegmentSize - alignedHeaderSize))) (addr + alignedSegmentSize)
        (size - alignedSegmentSize - alignedHeaderSize) trueSize (heap.sizeOf b) True =
          some (heap', .returned (dataOf b')) ∧ b' = addr + alignedSegmentSize ∧
      Served heap c heap' c' (c.live.erase b) b' trueSize := by
  obtain ⟨hfirst, hguard⟩ := segment_guard ht
  have hsegs : heap₁.segmentsList = heap.segmentsList := by rw [h.same]
  have hrealEq : heap₁.realSize = heap.realSize := by rw [h.same]
  have hsizeEq : heap₁.size = heap.size := by rw [h.same]
  obtain ⟨hin, huncached⟩ := h.ready.live b h.live
  have hbfree := h.ready.not_free_of_live h.live
  have hlive := h.ready.live_run (b := b) h.free
  have hrun : BlockRun heap₁ c.blocks t.first (b :: l) t.guard := by
    rw [← h.first, ← h.last]
    exact (BlockRun.cons hin h.run).congr h.same.sizeOf
  have hsum := sum_map_replace h.ready.nodup h.segment (Segment.mk addr size)
  have hcount := h.ready.realCount
  -- The old segment goes with its blocks.
  have hdrop := h.inv.dropSegment { heap₁ with
      segmentsList := heap₁.segmentsList.erase t
      realSize := heap₁.realSize - t.size } (hsegs ▸ h.segment) hrun
    (by
      intro x hx hxfree
      rcases mem_cons.mp hx with rfl | hx
      · exact absurd (h.same.isFree.mp hxfree) hbfree
      · exact List.mem_toFinset.mpr hx)
    (by
      intro x hx i hi
      rcases mem_cons.mp hx with rfl | hx
      · exact huncached i hi
      · exact h.ready.not_free_of_cached hi (h.free x hx))
    (by
      intro x hx hres
      have hxb := hlive x hx (h.ready.reserved_live hres)
      exact h.reserve (hxb ▸ hres))
    (fun _ _ => ⟨rfl, rfl⟩) rfl rfl rfl
  have hset₁ : c.live \ (b :: l).toFinset = c.live.erase b := by
    ext x
    rw [Finset.mem_sdiff, List.mem_toFinset, Finset.mem_erase]
    constructor
    · rintro ⟨hx, hxl⟩
      exact ⟨fun heq => hxl (heq ▸ mem_cons_self), hx⟩
    · rintro ⟨hne, hx⟩
      exact ⟨hx, fun hxl => hne (hlive x hxl hx)⟩
  have hset₂ := live_inter_run h.live hlive
  have hset₃ : l.toFinset \ (b :: l).toFinset = c.unlisted := by
    rw [h.listed, Finset.sdiff_eq_empty_iff_subset]
    intro x hx
    rw [List.mem_toFinset] at hx ⊢
    exact mem_cons_of_mem b hx
  have hsumB : totalSize heap₁ {b} = heap.sizeOf b :=
    (Finset.sum_singleton _ _).trans (h.same.sizeOf b)
  simp only [hset₁, hset₂, hset₃, hsumB] at hdrop
  have herase : ∀ s, s ∈ heap₁.segmentsList.erase t ↔ s ∈ heap.segmentsList ∧ s ≠ t := by
    intro s
    rw [hsegs, h.ready.nodup.mem_erase_iff, and_comm]
  -- The new one comes with the block in it.
  have hopen := hdrop.openSegment ht
    (fun s hs => hapart s ((herase s).mp hs).1 ((herase s).mp hs).2)
    (heap₁.segmentsList.map fun s => if s = t then ⟨addr, size⟩ else s)
    (heap₁.realSize + size - t.size)
    (by
      rw [hsegs]
      apply nodup_map_replace h.ready.nodup
      intro s hs hne heq
      exact (hapart s hs hne).ne (h.ready.segments s hs) ht heq)
    (by
      intro s
      rw [mem_map_replace (hsegs ▸ h.segment)]
      apply or_congr_right
      exact (Iff.of_eq (by rw [hsegs])).trans (herase s).symm)
    (by
      rw [hsegs, hrealEq, hcount]
      change _ = (heap.segmentsList.map (·.size)).sum + size at hsum
      omega)
  have hnew : ∀ x ∈ c.blocks, x ∉ b :: l → x ≠ (Segment.mk addr size).first ∧
      x ≠ (Segment.mk addr size).guard := by
    intro x hx hxl
    obtain ⟨s, hs, hholds, -⟩ := h.ready.toTiled.holds hx
    have hst : s ≠ t := by
      rintro rfl
      apply hxl
      rw [hrun.mem_iff (h.ready.toTiled.congr h.same.infoSize h.same.infoPrev hsegs)]
      exact ⟨hx, hholds⟩
    have := (hapart s hs hst).outside (h.ready.segments s hs) ht ⟨hholds.1, hholds.2.le⟩
    omega
  have hstay : ∀ x ∈ c.live.erase b, x ∈ c.blocks ∧ x ∉ b :: l := by
    intro x hx
    rw [Finset.mem_erase] at hx
    exact ⟨(h.ready.live x hx.2).1, fun hxl => hx.1 (hlive x hxl hx.2)⟩
  have hfresh : (Segment.mk addr size).first ∉ c.live.erase b := fun hin =>
    (hnew _ (hstay _ hin).1 (hstay _ hin).2).1 rfl
  have hbsize := h.ready.live_le h.live h.ready.counted
  obtain ⟨heap', blocks, hfit, h', hroom', hinfo, hrest⟩ := hopen.fitBlock
    (b := addr + alignedSegmentSize) (by
      rw [hfirst]
      exact Finset.mem_insert_self _ _) hmin hdvd
    (by
      rw [alignedSegmentSize, alignedHeaderSize]
      omega)
    (by
      have hlast := lastBlock_isGuardBlock (({ heap₁ with
          segmentsList := heap₁.segmentsList.map fun s =>
            if s = t then ⟨addr, size⟩ else s }).markFirstBlock
          (addr + alignedSegmentSize)) (addr + alignedSegmentSize +
            (size - alignedSegmentSize - alignedHeaderSize))
      intro hf
      exact absurd (hlast.symm.trans hf) (by simp))
    (hsizeEq ▸ hbsize) True
  refine ⟨heap', _, _, hfit, rfl, ⟨h', ?_, ?_, ?_⟩, ?_, ?_, hroom', rfl, rfl, ?_, ?_⟩
  · exact h.ready.cacheEq.trans (h.same.rest.trans hrest).1.symm
  · exact h.ready.reserveEq.trans (h.same.rest.trans hrest).2.1.symm
  · have := h.ready.counted
    dsimp only
    omega
  · rw [hfirst]
    exact hfresh
  · rw [hfirst]
  · dsimp only
    omega
  · intro x hx
    obtain ⟨hxB, hxl⟩ := hstay x hx
    obtain ⟨hne₁, hne₂⟩ := hnew x hxB hxl
    have hxnot : x ∈ c.blocks \ (b :: l).toFinset := by
      rw [Finset.mem_sdiff, List.mem_toFinset]
      exact ⟨hxB, hxl⟩
    rw [hinfo x (Finset.mem_insert_of_mem hxnot) (hfirst ▸ hne₁),
      lastBlock_infoSize_ne _ (by rw [hfirst, hguard]; exact hne₂)]
    exact congrFun h.same.infoSize x

end

theorem SameBlocks.segmentSizeFor (h : SameBlocks heap heap') (trueSize : Nat) :
    segmentSizeFor heap' trueSize = segmentSizeFor heap trueSize := by
  rw [PhpEngine.ZendMm.segmentSizeFor, PhpEngine.ZendMm.segmentSizeFor, h.rest.2.2.1]

/-- How `realloc_segment` ends. -/
theorem Resizing.reallocSegment (h : Resizing heap heap₁ c b e l t) (hfresh : storage.Fresh heap)
    (hmin : 32 ≤ trueSize) (hdvd : 8 ∣ trueSize) (hlt : trueSize < sizeMod) :
    ∃ heap' c' exit, reallocSegment storage heap₁ b (heap.sizeOf b) trueSize = some (heap', exit) ∧
      (¬SegmentLimited heap b trueSize ∧ ¬SegmentDenied storage heap b trueSize ∧
          (∃ b', exit = .returned (dataOf b') ∧
            Served heap c heap' c' (c.live.erase b) b' trueSize) ∨
        SegmentLimited heap b trueSize ∧ (∀ p, exit ≠ .returned p) ∧
          Failed heap c heap' c' heap.cached ∨
        ¬SegmentLimited heap b trueSize ∧ SegmentDenied storage heap b trueSize ∧
          (∀ p, exit ≠ .returned p) ∧
          Failed heap { c with unlisted := l.toFinset } heap' c' heap.cached) := by
  have hfind : heap₁.segmentsList.find? (·.addr = b - alignedSegmentSize) = some t := by
    have hsegs : heap₁.segmentsList = heap.segmentsList := by rw [h.same]
    rw [hsegs, h.first]
    exact h.ready.toTiled.find_segment h.segment
  have hcopy : segmentSizeOf heap b = t.size := by
    rw [segmentSizeOf, h.first, h.ready.toTiled.find_segment h.segment]
    rfl
  have haddr : b - alignedSegmentSize = t.addr := by
    rw [h.first, Segment.first, Nat.add_sub_cancel_left]
  have hreal : heap₁.realSize = heap.realSize := by rw [h.same]
  rw [haddr] at hfind
  rw [PhpEngine.ZendMm.reallocSegment, SegmentLimited, SegmentDenied, hcopy, haddr, hfind]
  simp only [h.same.segmentSizeFor, hreal, h.same.rest.2.2.2, bind_eq_bind, bind_some]
  by_cases hlimit : segmentSizeFor heap trueSize < trueSize ∨
      (heap.realSize + segmentSizeFor heap trueSize - t.size) % sizeMod > heap.limit
  · obtain ⟨heap₃, heap', c', hrun₃, hrun, hfailed⟩ := h.limited
    refine ⟨heap', c', .memoryLimit, ?_, .inr (.inl ⟨hlimit, by simp, hfailed⟩)⟩
    rw [if_pos hlimit, hrun₃, bind_some, hrun]
    rfl
  · rw [if_neg hlimit]
    cases hanswer : storage.realloc t.addr (segmentSizeFor heap trueSize) with
    | none =>
      obtain ⟨heap₃, heap', c', hrun₃, hrun, hfailed⟩ := h.denied
      refine ⟨heap', c', .outOfMemory, ?_, .inr (.inr ⟨hlimit, rfl, by simp, hfailed⟩)⟩
      simp only [hrun₃, bind_some, hrun]
      rfl
    | some addr =>
      obtain ⟨hvalid, hroom⟩ := segmentSizeFor_valid h.ready.pageSize hmin hlt
        (not_or.mp hlimit).1 addr
      obtain ⟨heap', c', b', hfit, rfl, hserved⟩ := h.moved hvalid
        (hfresh.realloc t h.segment _ _ hanswer) hmin hdvd hroom
      refine ⟨heap', c', _, ?_, .inl ⟨hlimit, by simp, _, rfl, hserved⟩⟩
      rw [← hfit, fitBlock, if_pos trivial]
      simp only [alignedMinHeaderSize, hreal, h.same.rest.2.2.2]
      by_cases hremain : segmentSizeFor heap trueSize - alignedSegmentSize -
          alignedHeaderSize - trueSize < 32
      · simp only [hremain, if_true]
        rfl
      · simp only [hremain, if_false]
        cases zendMmAddToRestList _ _ <;> rfl

/-! The whole function. -/

/-- The block has to be larger, and no cached block is as large. -/
def NeedsGrowth (heap : Heap) (b size : Nat) : Prop :=
  ¬zendMmTrueSize size < size ∧ heap.sizeOf b < zendMmTrueSize size ∧
    ¬(SmallSize (zendMmTrueSize size) ∧ heap.cache (bucketIndex (zendMmTrueSize size)) ≠ [])

/-- With the free block behind it, if there is one, the block takes its segment. -/
def TakesSegment (heap : Heap) (b : Nat) : Prop :=
  heap.IsFirstBlock b ∧ if heap.IsFreeBlock (b + heap.sizeOf b) then
      heap.IsGuardBlock (b + heap.sizeOf b + heap.sizeOf (b + heap.sizeOf b))
    else heap.IsGuardBlock (b + heap.sizeOf b)

/-- The free block behind it has room for the growth. -/
def GrowsInPlace (heap : Heap) (b size : Nat) : Prop :=
  heap.IsFreeBlock (b + heap.sizeOf b) ∧
    zendMmTrueSize size ≤ heap.sizeOf b + heap.sizeOf (b + heap.sizeOf b)

/-- A call of `_zend_mm_realloc_int` that goes to `realloc_segment`. -/
def ResizesSegment (heap : Heap) (b size : Nat) : Prop :=
  NeedsGrowth heap b size ∧ ¬GrowsInPlace heap b size ∧ TakesSegment heap b

/-- A call of `_zend_mm_realloc_int` that flushes the cache. -/
def ReallocFlushes (storage : Storage) (heap : Heap) (b size : Nat) : Prop :=
  ResizesSegment heap b size ∧ (SegmentLimited heap b (zendMmTrueSize size) ∨
      SegmentDenied storage heap b (zendMmTrueSize size)) ∨
    NeedsGrowth heap b size ∧ ¬GrowsInPlace heap b size ∧ ¬TakesSegment heap b ∧
      AllocFlushes storage heap size

/-- A call that the storage denies after the free block behind was taken from its list. -/
def LosesNext (storage : Storage) (heap : Heap) (b size : Nat) : Prop :=
  ResizesSegment heap b size ∧ ¬SegmentLimited heap b (zendMmTrueSize size) ∧
    SegmentDenied storage heap b (zendMmTrueSize size) ∧
    heap.IsFreeBlock (b + heap.sizeOf b)

instance (heap : Heap) (b size : Nat) : Decidable (NeedsGrowth heap b size) := by
  unfold NeedsGrowth
  infer_instance

instance (heap : Heap) (b : Nat) : Decidable (TakesSegment heap b) := by
  unfold TakesSegment
  infer_instance

instance (heap : Heap) (b size : Nat) : Decidable (GrowsInPlace heap b size) := by
  unfold GrowsInPlace
  infer_instance

instance (storage : Storage) (heap : Heap) (b size : Nat) :
    Decidable (LosesNext storage heap b size) := by
  unfold LosesNext ResizesSegment SegmentLimited SegmentDenied
  infer_instance

/-- How a call of `_zend_mm_realloc_int` ends. -/
def ReallocEnds (storage : Storage) (heap : Heap) (c : Census) (b size : Nat)
    (heap' : Heap) (c' : Census) (exit : Exit) : Prop :=
  (¬ReallocFlushes storage heap b size ∧ ¬LosesNext storage heap b size ∧
    ∃ b', exit = .returned (dataOf b') ∧
      Served heap c heap' c' (c.live.erase b) b' (zendMmTrueSize size)) ∨
  (∀ p, exit ≠ .returned p) ∧
    ((¬ReallocFlushes storage heap b size ∧ ¬LosesNext storage heap b size ∧
        Failed heap c heap' c' 0) ∨
      (ReallocFlushes storage heap b size ∧ ¬LosesNext storage heap b size ∧
        Failed heap c heap' c' heap.cached) ∨
      (ReallocFlushes storage heap b size ∧ LosesNext storage heap b size ∧
        Failed heap { c with unlisted := {b + heap.sizeOf b} } heap' c' heap.cached))

/-- A block that has to grow and does not in place takes its segment, or else moves. -/
theorem zendMmReallocInt_grown {size : Nat} (hneeds : NeedsGrowth heap b size)
    (hgrows : ¬GrowsInPlace heap b size) : zendMmReallocInt storage heap (dataOf b) size =
      if TakesSegment heap b then
        (if heap.IsFreeBlock (b + heap.sizeOf b) then
          zendMmRemoveFromFreeList heap (b + heap.sizeOf b) else some heap).bind fun heap₁ =>
            reallocSegment storage heap₁ b (heap.sizeOf b) (zendMmTrueSize size)
      else reallocMove storage heap (dataOf b) size := by
  obtain ⟨hover, hshrink, hcache⟩ := hneeds
  rw [zendMmReallocInt, headerOf_dataOf]
  simp only [if_neg hover, if_neg (Nat.not_le.mpr hshrink), if_neg hcache, TakesSegment]
  by_cases hfree : heap.IsFreeBlock (b + heap.sizeOf b)
  · simp only [if_pos hfree]
    exact if_neg fun hle => hgrows ⟨hfree, hle⟩
  · simp only [if_neg hfree]
    rfl

theorem Ready.resize (h : Ready heap c) (hclear : c.unlisted = ∅) (hb : b ∈ c.live)
    (hreserve : c.reserve ≠ some (dataOf b)) (htakes : TakesSegment heap b) :
    ∃ heap₁ e l t, (if heap.IsFreeBlock (b + heap.sizeOf b) then
        zendMmRemoveFromFreeList heap (b + heap.sizeOf b) else some heap) = some heap₁ ∧
      Resizing heap heap₁ c b e l t := by
  obtain ⟨hin, -⟩ := h.live b hb
  obtain ⟨t, ht, hholds, -⟩ := h.toTiled.holds hin
  obtain ⟨hfirst, hguard⟩ := htakes
  have hstart := (h.toTiled.isFirst_iff ht hin hholds).mp hfirst
  by_cases hfree : heap.IsFreeBlock (b + heap.sizeOf b)
  · rw [if_pos hfree] at hguard ⊢
    have hnext := h.toTiled.next_of_free hin hfree
    have hholds' : t.Holds (b + heap.sizeOf b) := by
      have := h.toTiled.end_le ht hin hholds
      refine ⟨by omega, Nat.lt_of_le_of_ne this fun heq => ?_⟩
      exact h.kind _ hnext (heq ▸ h.last t ht)
    have hend := (h.toTiled.isGuard_iff ht hnext hholds').mp hguard
    obtain ⟨heap₁, hrun₁, h₁, hsame₁⟩ := h.unlist hnext hfree (by simp [hclear])
    refine ⟨heap₁, _, [b + heap.sizeOf b], t, hrun₁, h, hclear, hb, hreserve, ?_, hsame₁,
      .cons hnext (.nil _), ?_, .inr ⟨rfl, hfree⟩, ht, hstart, hend⟩
    · have hset : [b + heap.sizeOf b].toFinset = insert (b + heap.sizeOf b) c.unlisted := by
        simp [hclear]
      rw [hset]
      exact h₁
    · intro x hx
      rw [mem_singleton.mp hx]
      exact hfree
  · rw [if_neg hfree] at hguard ⊢
    have hend := (h.toTiled.isGuard_iff ht hin hholds).mp hguard
    refine ⟨heap, _, [], t, rfl, h, hclear, hb, hreserve, ?_, .refl heap, .nil _, by simp,
      .inl ⟨rfl, hfree⟩, ht, hstart, hend⟩
    have hset : ([] : List Nat).toFinset = c.unlisted := by simp [hclear]
    rw [hset]
    exact h.toHeapInv

/-- The ends of a block that has to grow and does not in place. -/
theorem Ready.reallocGrown (h : Ready heap c) (hclear : c.unlisted = ∅)
    (hfresh : storage.Fresh heap) (hb : b ∈ c.live) (hreserve : c.reserve ≠ some (dataOf b))
    {size : Nat} (hneeds : NeedsGrowth heap b size) (hgrows : ¬GrowsInPlace heap b size) :
    ∃ heap' c' exit, zendMmReallocInt storage heap (dataOf b) size = some (heap', exit) ∧
      ReallocEnds storage heap c b size heap' c' exit := by
  rw [zendMmReallocInt_grown hneeds hgrows]
  by_cases htakes : TakesSegment heap b
  · have hresizes : ResizesSegment heap b size := ⟨hneeds, hgrows, htakes⟩
    obtain ⟨hmin, hdvd, hlt⟩ := zendMmTrueSize_valid fun hand => hneeds.1 hand.2
    obtain ⟨heap₁, e, l, t, hrun₁, hresizing⟩ := h.resize hclear hb hreserve htakes
    obtain ⟨heap', c', exit, hrun, hend⟩ := hresizing.reallocSegment hfresh hmin hdvd hlt
    rw [if_pos htakes, hrun₁]
    refine ⟨heap', c', exit, hrun, ?_⟩
    have hflush : ReallocFlushes storage heap b size ↔ SegmentLimited heap b (zendMmTrueSize size) ∨
          SegmentDenied storage heap b (zendMmTrueSize size) := by
      constructor
      · rintro (hflush | hflush)
        · exact hflush.2
        · exact absurd htakes hflush.2.2.1
      · exact fun hor => .inl ⟨hresizes, hor⟩
    rcases hend with ⟨hlimit, hdeny, hserved⟩ | ⟨hlimit, hexit, hfailed⟩ |
      ⟨hlimit, hdeny, hexit, hfailed⟩
    · refine .inl ⟨?_, fun hloses => hdeny hloses.2.2.1, hserved⟩
      rw [hflush]
      exact not_or.mpr ⟨hlimit, hdeny⟩
    · exact .inr ⟨hexit, .inr (.inl ⟨hflush.mpr (.inl hlimit),
        fun hloses => hloses.2.1 hlimit, hfailed⟩)⟩
    · rcases hresizing.next with ⟨rfl, hfree⟩ | ⟨rfl, hfree⟩
      · refine .inr ⟨hexit, .inr (.inl ⟨hflush.mpr (.inr hdeny),
          fun hloses => hfree hloses.2.2.2, ?_⟩)⟩
        have hset : ([] : List Nat).toFinset = c.unlisted := by simp [hclear]
        rw [hset] at hfailed
        exact hfailed
      · exact .inr ⟨hexit, .inr (.inr ⟨hflush.mpr (.inr hdeny),
          ⟨hresizes, hlimit, hdeny, hfree⟩, by simpa using hfailed⟩)⟩
  · obtain ⟨heap', c', exit, hrun, hend⟩ := h.reallocMove hclear hfresh hb hreserve size
    rw [if_neg htakes]
    refine ⟨heap', c', exit, hrun, ?_⟩
    have hloses : ¬LosesNext storage heap b size := fun hloses => htakes hloses.1.2.2
    have hflush : ReallocFlushes storage heap b size ↔ AllocFlushes storage heap size := by
      constructor
      · rintro (hflush | hflush)
        · exact absurd hflush.1.2.2 htakes
        · exact hflush.2.2.2
      · exact fun hflush => .inr ⟨hneeds, hgrows, htakes, hflush⟩
    rcases hend with ⟨b', hexit, hnot, hserved⟩ |
      ⟨hexit, flushed, hfailed, ⟨hflushes, rfl⟩ | ⟨hnot, rfl⟩⟩
    · exact .inl ⟨fun hf => hnot (hflush.mp hf), hloses, b', hexit, hserved⟩
    · exact .inr ⟨hexit, .inr (.inl ⟨hflush.mpr hflushes, hloses, hfailed⟩)⟩
    · exact .inr ⟨hexit, .inl ⟨fun hf => hnot (hflush.mp hf), hloses, hfailed⟩⟩

/-- `_zend_mm_realloc_int` of a live block, from a heap between two calls. -/
theorem Ready.realloc (h : Ready heap c) (hclear : c.unlisted = ∅)
    (hfresh : storage.Fresh heap) (hb : b ∈ c.live) (hreserve : c.reserve ≠ some (dataOf b))
    (size : Nat) :
    ∃ heap' c' exit, zendMmReallocInt storage heap (dataOf b) size = some (heap', exit) ∧
      ReallocEnds storage heap c b size heap' c' exit := by
  by_cases hgrown : NeedsGrowth heap b size ∧ ¬GrowsInPlace heap b size
  · exact h.reallocGrown hclear hfresh hb hreserve hgrown.1 hgrown.2
  rw [zendMmReallocInt, headerOf_dataOf]
  -- What a call does that needs no growth.
  have hsmall : ¬NeedsGrowth heap b size →
      ¬ReallocFlushes storage heap b size ∧ ¬LosesNext storage heap b size := by
    intro hnot
    refine ⟨?_, fun hloses => hnot hloses.1.1⟩
    rintro (hflush | hflush)
    · exact hnot hflush.1.1
    · exact hnot hflush.1
  by_cases hover : zendMmTrueSize size < size
  · obtain ⟨heap', c', hrun, hfailed⟩ := h.safeError (Census.allClear hclear heap).2
    obtain ⟨hflush, hloses⟩ := hsmall fun hneeds => hneeds.1 hover
    refine ⟨heap', c', .outOfMemory, ?_, .inr ⟨by simp, .inl ⟨hflush, hloses, hfailed⟩⟩⟩
    simp only [if_pos hover, hrun]
    rfl
  simp only [if_neg hover]
  obtain ⟨hmin, hdvd, hlt⟩ := zendMmTrueSize_valid fun hand => hover hand.2
  by_cases hshrink : zendMmTrueSize size ≤ heap.sizeOf b
  · obtain ⟨heap', c', hrun, hserved⟩ := h.reallocShrink hclear hb hmin hdvd hshrink
    obtain ⟨hflush, hloses⟩ := hsmall fun hneeds => by
      have := hneeds.2.1
      omega
    refine ⟨heap', c', _, ?_, .inl ⟨hflush, hloses, b, rfl, hserved⟩⟩
    simp only [if_pos hshrink, hrun]
  simp only [if_neg hshrink]
  rw [Nat.not_le] at hshrink
  by_cases hcache : SmallSize (zendMmTrueSize size) ∧
      heap.cache (bucketIndex (zendMmTrueSize size)) ≠ []
  · obtain ⟨heap', c', b', hrun, hserved⟩ :=
      h.reallocCached hb hreserve hmin hdvd hcache.1 hshrink hcache.2
    obtain ⟨hflush, hloses⟩ := hsmall fun hneeds => hneeds.2.2 hcache
    refine ⟨heap', c', _, ?_, .inl ⟨hflush, hloses, b', rfl, hserved⟩⟩
    rw [if_pos hcache, hrun]
  simp only [if_neg hcache]
  have hneeds : NeedsGrowth heap b size := ⟨hover, hshrink, hcache⟩
  have hgrows : GrowsInPlace heap b size := by_contra fun hnot => hgrown ⟨hneeds, hnot⟩
  obtain ⟨heap', c', hrun, hserved⟩ := h.reallocGrow hclear hb hgrows.1 hmin hdvd hgrows.2
  have hflush : ¬ReallocFlushes storage heap b size := by
    rintro (hflush | hflush)
    · exact hflush.1.2.1 hgrows
    · exact hflush.2.1 hgrows
  have hloses : ¬LosesNext storage heap b size := fun hloses => hloses.1.2.1 hgrows
  refine ⟨heap', c', _, ?_, .inl ⟨hflush, hloses, b, rfl, hserved⟩⟩
  rw [if_pos hgrows.1, if_pos hgrows.2, hrun]

end Realloc

end PhpEngine.ZendMm

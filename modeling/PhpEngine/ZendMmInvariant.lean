/-
What holds of a heap between two calls, and what a call does to it in between:
blocks are taken from the free lists, joined, cut and listed again, segments come
and go, and blocks are cached.
-/
import PhpEngine.ZendMmTiling
import Mathlib.Algebra.BigOperators.Group.Finset.Basic
import Mathlib.Algebra.BigOperators.Group.List.Basic
import Mathlib.Algebra.Group.Int.Defs
import Mathlib.Tactic.Ring

namespace PhpEngine.ZendMm

open List Function

variable {i : Nat} {S B : Finset Nat} {t : Segment}

/-- `ZEND_MM_IS_USED_BLOCK`, of a block that is not a guard block -/
def Heap.IsUsedBlock (heap : Heap) (b : Addr) : Prop := (heap.infoSize b).type = .used

instance (heap : Heap) (b : Addr) : Decidable (heap.IsUsedBlock b) :=
  inferInstanceAs (Decidable (_ = _))

/-- What the blocks of a heap are. -/
structure Census where
  blocks : Finset Nat
  /-- The blocks that are allocated and not cached. -/
  live : Finset Nat
  /-- Free blocks that are on no list. -/
  unlisted : Finset Nat
  cache : Nat → List Nat
  reserve : Option Addr
  /-- What `heap->size` counts too much. -/
  drift : ℤ

def totalSize (heap : Heap) (S : Finset Nat) : Nat := ∑ b ∈ S, heap.sizeOf b

def cachedSize (heap : Heap) (cache : Nat → List Nat) : Nat :=
  ∑ i ∈ Finset.range numBuckets, ((cache i).map heap.sizeOf).sum

structure HeapInv (heap : Heap) (c : Census) : Prop extends Tiled heap c.blocks where
  lists : FreeLists heap fun b => b ∈ c.blocks ∧ heap.IsFreeBlock b ∧ b ∉ c.unlisted
  unlisted : ∀ b ∈ c.unlisted, b ∈ c.blocks ∧ heap.IsFreeBlock b
  settled : ∀ b ∈ c.blocks, heap.IsFreeBlock b → ¬heap.IsFreeBlock (b + heap.sizeOf b)
  used : ∀ b ∈ c.blocks, heap.IsUsedBlock b ↔ b ∈ c.live ∨ ∃ i, b ∈ c.cache i
  live : ∀ b ∈ c.live, b ∈ c.blocks ∧ ∀ i, b ∉ c.cache i
  cacheNodup : ∀ i, (c.cache i).Nodup
  cached : ∀ i, ∀ b ∈ c.cache i, b ∈ c.blocks ∧ SmallSize (heap.sizeOf b) ∧
    bucketIndex (heap.sizeOf b) = i
  reserved : ∀ p, c.reserve = some p → ∃ b ∈ c.live, p = dataOf b
  pageSize : ∃ k, 5 ≤ k ∧ k < 64 ∧ heap.blockSize = 2 ^ k
  sizeCount : (heap.size : ℤ) = totalSize heap c.live + cachedSize heap c.cache + c.drift
  cachedCount : heap.cached = cachedSize heap c.cache
  realCount : heap.realSize = (heap.segmentsList.map (·.size)).sum

section Invariant

variable {heap heap' : Heap} {c c' : Census} {a b e : Nat} {l : List Nat}

theorem isUsedBlock_iff (h : Tiled heap c.blocks) (hb : b ∈ c.blocks) :
    heap.IsUsedBlock b ↔ ¬heap.IsFreeBlock b := by
  have := h.kind b hb
  rw [Heap.IsUsedBlock, Heap.IsFreeBlock]
  cases htype : (heap.infoSize b).type with
  | free | used => simp
  | guard => exact absurd htype this

theorem HeapInv.not_free_of_live (h : HeapInv heap c) (hb : b ∈ c.live) : ¬heap.IsFreeBlock b :=
  (isUsedBlock_iff h.toTiled (h.live b hb).1).mp ((h.used b (h.live b hb).1).mpr (.inl hb))

theorem HeapInv.not_free_of_cached (h : HeapInv heap c) (hb : b ∈ c.cache i) :
    ¬heap.IsFreeBlock b :=
  (isUsedBlock_iff h.toTiled (h.cached i b hb).1).mp
    ((h.used b (h.cached i b hb).1).mpr (.inr ⟨i, hb⟩))

theorem totalSize_congr (hsize : ∀ b ∈ S, heap'.sizeOf b = heap.sizeOf b) :
    totalSize heap' S = totalSize heap S := Finset.sum_congr rfl hsize

theorem cachedSize_congr {cache : Nat → List Nat}
    (hsize : ∀ i, ∀ b ∈ cache i, heap'.sizeOf b = heap.sizeOf b) :
    cachedSize heap' cache = cachedSize heap cache := by
  apply Finset.sum_congr rfl
  intro i _
  rw [map_congr_left (hsize i)]

theorem Tiled.validSize (h : Tiled heap B) (hb : b ∈ B) : ValidSize (heap.sizeOf b) := by
  obtain ⟨s, hs, hholds, hend⟩ := h.holds hb
  have := (h.segments s hs).bounds
  have := (h.segments s hs).2.2
  have := hholds.1
  exact ⟨(h.blocks b hb).1, (h.blocks b hb).2, by omega⟩

theorem Tiled.congr (h : Tiled heap B)
    (hsize : heap'.infoSize = heap.infoSize) (hprev : heap'.infoPrev = heap.infoPrev)
    (hsegments : heap'.segmentsList = heap.segmentsList) : Tiled heap' B := by
  obtain ⟨nodup, segments, apart, first, last, inside, kind, blocks, boundary, next, sep⟩ := h
  refine ⟨?_, ?_, ?_, ?_, ?_, ?_, ?_, ?_, ?_, ?_, ?_⟩ <;>
    simp only [Heap.IsFirstBlock, Heap.IsGuardBlock, Heap.sizeOf, hsize, hprev,
      hsegments] <;> assumption

section

variable (h : HeapInv heap c)
include h

theorem HeapInv.relisted (hsame : SameBlocks heap heap') {unlisted : Finset Nat}
    (hlists : FreeLists heap' fun b => b ∈ c.blocks ∧ heap.IsFreeBlock b ∧ b ∉ unlisted)
    (hunlisted : ∀ b ∈ unlisted, b ∈ c.blocks ∧ heap.IsFreeBlock b) :
    HeapInv heap' { c with unlisted := unlisted } := by
  have hsize : heap'.infoSize = heap.infoSize := by rw [hsame]
  refine ⟨h.toTiled.congr hsize (by rw [hsame]) (by rw [hsame]), ?_, ?_, ?_, ?_, ?_,
    h.cacheNodup, ?_, ?_, ?_, ?_, ?_, ?_⟩
  · simp only [Heap.IsFreeBlock, hsize]
    exact hlists
  · simp only [Heap.IsFreeBlock, hsize]
    exact hunlisted
  · simp only [Heap.IsFreeBlock, Heap.sizeOf, hsize]
    exact h.settled
  · simp only [Heap.IsUsedBlock, hsize]
    exact h.used
  · exact h.live
  · simp only [Heap.sizeOf, hsize]
    exact h.cached
  · exact h.reserved
  · rw [hsame]
    exact h.pageSize
  · rw [totalSize_congr fun b _ => hsame.sizeOf b,
      cachedSize_congr fun _ b _ => hsame.sizeOf b, hsame]
    exact h.sizeCount
  · rw [cachedSize_congr fun _ b _ => hsame.sizeOf b, hsame]
    exact h.cachedCount
  · rw [hsame]
    exact h.realCount

theorem HeapInv.unlist (hb : b ∈ c.blocks) (hfree : heap.IsFreeBlock b) (hlisted : b ∉ c.unlisted) :
    ∃ heap', zendMmRemoveFromFreeList heap b = some heap' ∧
      HeapInv heap' { c with unlisted := insert b c.unlisted } ∧ SameBlocks heap heap' := by
  obtain ⟨heap', hrun, hlists, hsame⟩ := h.lists.remove (b := b) ⟨hb, hfree, hlisted⟩
  refine ⟨heap', hrun, h.relisted hsame ?_ ?_, hsame⟩
  · apply hlists.congr _ rfl rfl rfl rfl rfl rfl fun _ _ => rfl
    simp only [Finset.mem_insert]
    tauto
  · intro x hx
    rw [Finset.mem_insert] at hx
    rcases hx with rfl | hx
    · exact ⟨hb, hfree⟩
    · exact h.unlisted x hx

theorem mem_erase_listed (hb : b ∈ c.unlisted) (x : Nat) :
    x ∈ c.blocks ∧ heap.IsFreeBlock x ∧ x ∉ c.unlisted.erase b ↔
      x ∈ c.blocks ∧ heap.IsFreeBlock x ∧ x ∉ c.unlisted ∨ x = b := by
  have hin := h.unlisted b hb
  by_cases hxb : x = b
  · subst hxb
    simp [hin]
  · simp [hxb]

theorem HeapInv.relist (hb : b ∈ c.unlisted) :
    HeapInv (zendMmAddToFreeList heap b) { c with unlisted := c.unlisted.erase b } := by
  obtain ⟨hin, hfree⟩ := h.unlisted b hb
  apply h.relisted (zendMmAddToFreeList_sameBlocks heap b)
  · apply (h.lists.add (fun hnot => hnot.2.2 hb) (h.toTiled.validSize hin)).congr _
      rfl rfl rfl rfl rfl rfl fun _ _ => rfl
    exact mem_erase_listed h hb
  · exact fun x hx => h.unlisted x (Finset.mem_of_mem_erase hx)

theorem HeapInv.relistRest (hb : b ∈ c.unlisted) :
    ∃ heap', zendMmAddToRestList heap b = some heap' ∧
      HeapInv heap' { c with unlisted := c.unlisted.erase b } ∧ SameBlocks heap heap' := by
  obtain ⟨hin, hfree⟩ := h.unlisted b hb
  obtain ⟨heap', hrun, hlists, hsame⟩ :=
    h.lists.addRest (fun hnot => hnot.2.2 hb) (h.toTiled.validSize hin)
  refine ⟨heap', hrun, h.relisted hsame ?_ ?_, hsame⟩
  · apply hlists.congr _ rfl rfl rfl rfl rfl rfl fun _ _ => rfl
    exact mem_erase_listed h hb
  · exact fun x hx => h.unlisted x (Finset.mem_of_mem_erase hx)

/-! Counters, reserve and cache. -/

/-- Another value of `heap->size`. -/
theorem HeapInv.setSize (n : Nat) :
    HeapInv { heap with size := n } { c with drift := c.drift + n - heap.size } := by
  refine ⟨h.toTiled.congr rfl rfl rfl, ?_, h.unlisted, h.settled, h.used, h.live,
    h.cacheNodup, h.cached, h.reserved, h.pageSize, ?_, h.cachedCount, h.realCount⟩
  · exact h.lists.congr (fun _ => Iff.rfl) rfl rfl rfl rfl rfl rfl fun _ _ => rfl
  · have hcount := h.sizeCount
    change (n : ℤ) = totalSize heap c.live + cachedSize heap c.cache + (c.drift + n - heap.size)
    omega

theorem HeapInv.setReserve (reserve : Option Addr)
    (hreserve : ∀ p, reserve = some p → ∃ b ∈ c.live, p = dataOf b) :
    HeapInv heap { c with reserve := reserve } :=
  ⟨h.toTiled, h.lists, h.unlisted, h.settled, h.used, h.live, h.cacheNodup, h.cached,
    hreserve, h.pageSize, h.sizeCount, h.cachedCount, h.realCount⟩

/-- No value of the invariant is read from `heap->cache` or `heap->reserve`. -/
theorem HeapInv.setFields (cache : Nat → List Addr) (reserve : Option Addr) :
    HeapInv { heap with cache := cache, reserve := reserve } c := by
  refine ⟨h.toTiled.congr rfl rfl rfl, ?_, h.unlisted, h.settled, h.used, h.live,
    h.cacheNodup, h.cached, h.reserved, h.pageSize, h.sizeCount, h.cachedCount, h.realCount⟩
  exact h.lists.congr (fun _ => Iff.rfl) rfl rfl rfl rfl rfl rfl fun _ _ => rfl

end

theorem sum_map_sizeOf_cons (heap : Heap) (b : Nat) (list : List Nat) :
    ((b :: list).map heap.sizeOf).sum = heap.sizeOf b + (list.map heap.sizeOf).sum := by
  rw [map_cons, sum_cons]

theorem cachedSize_update (heap : Heap) (cache : Nat → List Nat)
    (hi : i < numBuckets) (list : List Nat) :
    cachedSize heap (update cache i list) + ((cache i).map heap.sizeOf).sum =
      cachedSize heap cache + (list.map heap.sizeOf).sum := by
  rw [cachedSize, cachedSize]
  have hmem := Finset.mem_range.mpr hi
  rw [← Finset.add_sum_erase _ _ hmem, ← Finset.add_sum_erase (Finset.range numBuckets)
    (fun j => ((cache j).map heap.sizeOf).sum) hmem, update_self]
  have hrest : ∑ j ∈ (Finset.range numBuckets).erase i,
      ((update cache i list j).map heap.sizeOf).sum =
      ∑ j ∈ (Finset.range numBuckets).erase i, ((cache j).map heap.sizeOf).sum := by
    apply Finset.sum_congr rfl
    intro j hj
    rw [update_of_ne (Finset.ne_of_mem_erase hj)]
  omega

theorem totalSize_erase (heap : Heap) (hb : b ∈ S) :
    totalSize heap (S.erase b) + heap.sizeOf b = totalSize heap S := by
  exact Finset.sum_erase_add S heap.sizeOf hb

theorem totalSize_insert (heap : Heap) (hb : b ∉ S) :
    totalSize heap (insert b S) = heap.sizeOf b + totalSize heap S := by
  rw [totalSize, totalSize, Finset.sum_insert hb]

theorem HeapInv.cacheBlock (h : HeapInv heap c) (hb : b ∈ c.live)
    (hsmall : SmallSize (heap.sizeOf b)) (hreserve : c.reserve ≠ some (dataOf b)) :
    HeapInv { heap with cached := heap.cached + heap.sizeOf b } { c with
        live := c.live.erase b
        cache := update c.cache (bucketIndex (heap.sizeOf b))
          (b :: c.cache (bucketIndex (heap.sizeOf b))) } := by
  obtain ⟨hin, hnot⟩ := h.live b hb
  have hindex := bucketIndex_lt hsmall
  have hsum := cachedSize_update heap c.cache (i := bucketIndex (heap.sizeOf b)) hindex
    (b :: c.cache (bucketIndex (heap.sizeOf b)))
  rw [sum_map_sizeOf_cons] at hsum
  have hlive := totalSize_erase heap hb
  -- What is on the new list.
  have hmem : ∀ i x, x ∈ update c.cache (bucketIndex (heap.sizeOf b))
      (b :: c.cache (bucketIndex (heap.sizeOf b))) i ↔
      x = b ∧ i = bucketIndex (heap.sizeOf b) ∨ x ∈ c.cache i := by
    intro i x
    by_cases hi : i = bucketIndex (heap.sizeOf b)
    · subst hi
      simp
    · rw [update_of_ne hi]
      simp [hi]
  refine ⟨h.toTiled.congr rfl rfl rfl, ?_, h.unlisted, h.settled, ?_, ?_, ?_, ?_, ?_,
    h.pageSize, ?_, ?_, h.realCount⟩
  · exact h.lists.congr (fun _ => Iff.rfl) rfl rfl rfl rfl rfl rfl fun _ _ => rfl
  · intro x hx
    have hused := h.used x hx
    change heap.IsUsedBlock x ↔ _
    simp only [hmem, Finset.mem_erase]
    by_cases hxb : x = b
    · subst hxb
      simpa [hb] using hused
    · simpa [hxb] using hused
  · intro x hx
    rw [Finset.mem_erase] at hx
    refine ⟨(h.live x hx.2).1, fun i hmem' => ?_⟩
    rcases (hmem i x).mp hmem' with ⟨rfl, -⟩ | hmem'
    · exact hx.1 rfl
    · exact (h.live x hx.2).2 i hmem'
  · intro i
    change (update c.cache _ _ i).Nodup
    by_cases hi : i = bucketIndex (heap.sizeOf b)
    · subst hi
      rw [update_self, nodup_cons]
      exact ⟨hnot _, h.cacheNodup _⟩
    · rw [update_of_ne hi]
      exact h.cacheNodup i
  · intro i x hx
    rcases (hmem i x).mp hx with ⟨rfl, rfl⟩ | hx
    · exact ⟨hin, hsmall, rfl⟩
    · exact h.cached i x hx
  · intro p hp
    obtain ⟨r, hr, rfl⟩ := h.reserved p hp
    refine ⟨r, Finset.mem_erase.mpr ⟨?_, hr⟩, rfl⟩
    rintro rfl
    exact hreserve hp
  · have hcount := h.sizeCount
    change (heap.size : ℤ) = totalSize heap (c.live.erase b) +
      cachedSize heap (update c.cache _ _) + c.drift
    omega
  · have hcount := h.cachedCount
    change heap.cached + heap.sizeOf b = cachedSize heap (update c.cache _ _)
    omega

theorem HeapInv.uncacheBlock (h : HeapInv heap c) {list : List Nat}
    (hlist : c.cache i = b :: list) : HeapInv { heap with cached := heap.cached - heap.sizeOf b }
      { c with
        live := insert b c.live
        cache := update c.cache i list } := by
  have hb : b ∈ c.cache i := by
    rw [hlist]
    exact mem_cons_self
  obtain ⟨hin, hsmall, hi⟩ := h.cached i b hb
  have hindex : i < numBuckets := hi ▸ bucketIndex_lt hsmall
  have hnodup := h.cacheNodup i
  rw [hlist, nodup_cons] at hnodup
  have hnot : b ∉ c.live := fun hlive => (h.live b hlive).2 i hb
  have hsum := cachedSize_update heap c.cache hindex list
  rw [hlist, sum_map_sizeOf_cons] at hsum
  have hmem : ∀ j x, x ∈ update c.cache i list j ↔ x ∈ c.cache j ∧ x ≠ b := by
    intro j x
    by_cases hj : j = i
    · subst hj
      rw [update_self, hlist, mem_cons]
      constructor
      · intro hx
        exact ⟨.inr hx, fun heq => hnodup.1 (heq ▸ hx)⟩
      · rintro ⟨rfl | hx, hne⟩
        · exact absurd rfl hne
        · exact hx
    · rw [update_of_ne hj]
      refine ⟨fun hx => ⟨hx, ?_⟩, And.left⟩
      rintro rfl
      exact hj ((h.cached j x hx).2.2.symm.trans hi)
  refine ⟨h.toTiled.congr rfl rfl rfl, ?_, h.unlisted, h.settled, ?_, ?_, ?_, ?_, ?_,
    h.pageSize, ?_, ?_, h.realCount⟩
  · exact h.lists.congr (fun _ => Iff.rfl) rfl rfl rfl rfl rfl rfl fun _ _ => rfl
  · intro x hx
    have hused := h.used x hx
    change heap.IsUsedBlock x ↔ _
    simp only [hmem, Finset.mem_insert]
    by_cases hxb : x = b
    · subst hxb
      simp only [true_or, iff_true]
      exact hused.mpr (.inr ⟨i, hb⟩)
    · simpa [hxb] using hused
  · intro x hx
    rw [Finset.mem_insert] at hx
    rcases hx with rfl | hx
    · exact ⟨hin, fun j hj => ((hmem j x).mp hj).2 rfl⟩
    · exact ⟨(h.live x hx).1, fun j hj => (h.live x hx).2 j ((hmem j x).mp hj).1⟩
  · intro j
    change (update c.cache i list j).Nodup
    by_cases hj : j = i
    · subst hj
      rw [update_self]
      exact hnodup.2
    · rw [update_of_ne hj]
      exact h.cacheNodup j
  · intro j x hx
    exact h.cached j x ((hmem j x).mp hx).1
  · intro p hp
    obtain ⟨r, hr, rfl⟩ := h.reserved p hp
    exact ⟨r, Finset.mem_insert_of_mem hr, rfl⟩
  · have hcount := h.sizeCount
    have hinsert := totalSize_insert heap hnot
    change (heap.size : ℤ) = totalSize heap (insert b c.live) +
      cachedSize heap (update c.cache i list) + c.drift
    omega
  · have hcount := h.cachedCount
    change heap.cached - heap.sizeOf b = cachedSize heap (update c.cache i list)
    omega

/-! Blocks and segments. -/

/-- Only the tags and the segments differ. -/
def SameLists (heap heap' : Heap) : Prop :=
  heap' = { heap with
    infoSize := heap'.infoSize
    infoPrev := heap'.infoPrev
    segmentsList := heap'.segmentsList
    realSize := heap'.realSize }

/-- The blocks of `R` go, and those of `N` come. -/
structure Changes (heap heap' : Heap) (c c' : Census) (R N : Finset Nat) : Prop where
  lists : SameLists heap heap'
  info : ∀ x ∈ c.blocks, x ∉ R → heap'.infoSize x = heap.infoSize x
  new : ∀ x ∈ N, x ∈ c.blocks → x ∈ R
  blocks : ∀ x, x ∈ c'.blocks ↔ x ∈ N ∨ x ∈ c.blocks ∧ x ∉ R
  live : ∀ x, x ∈ c'.live ↔ x ∈ N ∧ heap'.IsUsedBlock x ∨ x ∈ c.live ∧ x ∉ R
  unlisted : ∀ x, x ∈ c'.unlisted ↔ x ∈ N ∧ heap'.IsFreeBlock x ∨ x ∈ c.unlisted ∧ x ∉ R
  cache : c'.cache = c.cache
  reserve : c'.reserve = c.reserve
  goneFree : ∀ x ∈ R, heap.IsFreeBlock x → x ∈ c.unlisted
  goneCached : ∀ x ∈ R, ∀ i, x ∉ c.cache i

theorem Changes.sizeOf {R N : Finset Nat} (hc : Changes heap heap' c c' R N) (hb : b ∈ c.blocks)
    (hR : b ∉ R) : heap'.sizeOf b = heap.sizeOf b := by
  rw [Heap.sizeOf, hc.info b hb hR, Heap.sizeOf]

theorem Changes.cachedSize {R N : Finset Nat} (h : HeapInv heap c)
    (hc : Changes heap heap' c c' R N) : cachedSize heap' c.cache = cachedSize heap c.cache :=
  cachedSize_congr fun i x hx => hc.sizeOf (h.cached i x hx).1 fun hR => hc.goneCached x hR i hx

theorem HeapInv.change {R N : Finset Nat} (h : HeapInv heap c)
    (hc : Changes heap heap' c c' R N) (htiled : Tiled heap' c'.blocks)
    (hsettled : ∀ x ∈ c'.blocks, heap'.IsFreeBlock x → ¬heap'.IsFreeBlock (x + heap'.sizeOf x))
    (hreserved : ∀ b ∈ c.live, b ∈ R → c.reserve = some (dataOf b) → b ∈ c'.live)
    (hcount : c'.drift + totalSize heap' c'.live = c.drift + totalSize heap c.live)
    (hreal : heap'.realSize = (heap'.segmentsList.map (·.size)).sum) : HeapInv heap' c' := by
  have hkept : ∀ x ∈ c.blocks, x ∉ R → x ∈ c'.blocks := fun x hx hR =>
    (hc.blocks x).mpr (.inr ⟨hx, hR⟩)
  have huncached : ∀ x ∈ N, ∀ i, x ∉ c.cache i := fun x hx i hin =>
    hc.goneCached x (hc.new x hx (h.cached i x hin).1) i hin
  have hcachedSize := hc.cachedSize h
  refine ⟨htiled, ?_, ?_, hsettled, ?_, ?_, hc.cache ▸ h.cacheNodup, ?_, ?_, ?_, ?_, ?_, hreal⟩
  · refine h.lists.congr ?_ (by rw [hc.lists]) (by rw [hc.lists]) (by rw [hc.lists])
      (by rw [hc.lists]) (by rw [hc.lists]) (by rw [hc.lists]) ?_
    · intro x
      rw [hc.blocks, hc.unlisted]
      constructor
      · rintro ⟨hN | ⟨hx, hR⟩, hfree, hin⟩
        · exact absurd (.inl ⟨hN, hfree⟩) hin
        · rw [Heap.IsFreeBlock, hc.info x hx hR] at hfree
          exact ⟨hx, hfree, fun hin' => hin (.inr ⟨hin', hR⟩)⟩
      · rintro ⟨hx, hfree, hin⟩
        have hR : x ∉ R := fun hR => hin (hc.goneFree x hR hfree)
        refine ⟨.inr ⟨hx, hR⟩, by rwa [Heap.IsFreeBlock, hc.info x hx hR], ?_⟩
        rintro (⟨hN, -⟩ | ⟨hin', -⟩)
        · exact hR (hc.new x hN hx)
        · exact hin hin'
    · rintro x ⟨hx, hfree, hin⟩
      exact hc.sizeOf hx fun hR => hin (hc.goneFree x hR hfree)
  · intro x hx
    rcases (hc.unlisted x).mp hx with ⟨hN, hfree⟩ | ⟨hin, hR⟩
    · exact ⟨(hc.blocks x).mpr (.inl hN), hfree⟩
    · obtain ⟨hx, hfree⟩ := h.unlisted x hin
      exact ⟨hkept x hx hR, by rwa [Heap.IsFreeBlock, hc.info x hx hR]⟩
  · intro x hx
    rw [hc.live, hc.cache]
    rcases (hc.blocks x).mp hx with hN | ⟨hx, hR⟩
    · refine ⟨fun hused => .inl (.inl ⟨hN, hused⟩), ?_⟩
      rintro ((⟨-, hused⟩ | ⟨hlive, hR⟩) | ⟨i, hin⟩)
      · exact hused
      · exact absurd (hc.new x hN (h.live x hlive).1) hR
      · exact absurd hin (huncached x hN i)
    · have hN : x ∉ N := fun hN => hR (hc.new x hN hx)
      have hused := h.used x hx
      rw [Heap.IsUsedBlock] at hused
      rw [Heap.IsUsedBlock, hc.info x hx hR, hused]
      simp [hN, hR]
  · intro x hx
    rw [hc.cache]
    rcases (hc.live x).mp hx with ⟨hN, -⟩ | ⟨hlive, hR⟩
    · exact ⟨(hc.blocks x).mpr (.inl hN), huncached x hN⟩
    · exact ⟨hkept x (h.live x hlive).1 hR, (h.live x hlive).2⟩
  · intro i x hx
    rw [hc.cache] at hx
    obtain ⟨hin, hprops⟩ := h.cached i x hx
    have hR : x ∉ R := fun hR => hc.goneCached x hR i hx
    rw [hc.sizeOf hin hR]
    exact ⟨hkept x hin hR, hprops⟩
  · intro p hp
    rw [hc.reserve] at hp
    obtain ⟨r, hr, rfl⟩ := h.reserved p hp
    refine ⟨r, ?_, rfl⟩
    by_cases hR : r ∈ R
    · exact hreserved r hr hR hp
    · exact (hc.live r).mpr (.inr ⟨hr, hR⟩)
  · rw [hc.lists]
    exact h.pageSize
  · have hcount' := h.sizeCount
    have hfield : heap'.size = heap.size := by rw [hc.lists]
    rw [hc.cache, hcachedSize, hfield]
    omega
  · have hfield : heap'.cached = heap.cached := by rw [hc.lists]
    rw [hc.cache, hcachedSize, hfield]
    exact h.cachedCount

/-- The blocks of `l` become one block at `a`. -/
def Census.replaced (c : Census) (heap : Heap) (l : List Nat) (a : Nat)
    (type : BlockType) (size : Nat) : Census :=
  { c with
    blocks := insert a (c.blocks \ l.toFinset)
    live := if type = .used then insert a (c.live \ l.toFinset) else c.live \ l.toFinset
    unlisted := if type = .free then insert a (c.unlisted \ l.toFinset)
      else c.unlisted \ l.toFinset
    drift := c.drift + totalSize heap (c.live ∩ l.toFinset) -
      if type = .used then size else 0 }

theorem totalSize_sdiff (heap : Heap) (S T : Finset Nat) :
    totalSize heap (S \ T) + totalSize heap (S ∩ T) = totalSize heap S := by
  rw [totalSize, totalSize, totalSize, ← Finset.sum_union]
  · rw [Finset.sdiff_union_inter]
  · exact Finset.disjoint_sdiff_inter S T

theorem Changes.totalSize_kept {R N : Finset Nat} (h : HeapInv heap c)
    (hc : Changes heap heap' c c' R N) :
    totalSize heap' (c.live \ R) + totalSize heap (c.live ∩ R) = totalSize heap c.live := by
  rw [← totalSize_sdiff heap c.live R, totalSize_congr fun x hx => ?_]
  rw [Finset.mem_sdiff] at hx
  exact hc.sizeOf (h.live x hx.1).1 hx.2

theorem HeapInv.replace (h : HeapInv heap c) (hrun : BlockRun heap c.blocks a l e)
    (hne : l ≠ []) (type : BlockType) (htype : type ≠ .guard)
    (hunlisted : ∀ x ∈ l, heap.IsFreeBlock x → x ∈ c.unlisted)
    (huncached : ∀ x ∈ l, ∀ i, x ∉ c.cache i)
    (hreserve : ∀ x ∈ l, c.reserve = some (dataOf x) → type = .used ∧ x = a)
    (hsettled : type = .free → ¬heap.IsFreeBlock e ∧ ¬heap.PrevBlockIsFree a) :
    HeapInv (heap.setBlock a type (e - a)) (c.replaced heap l a type (e - a)) := by
  have hmem := hrun.mem_iff h.toTiled
  have ha := hrun.head_mem hne
  have hlt : 32 ≤ e - a := (hrun.size h.toTiled).2 hne
  have hal : a ∈ l := (hmem a).mpr ⟨ha, le_refl a, by omega⟩
  have hblocks : ∀ x, x ∈ (c.replaced heap l a type (e - a)).blocks ↔
      x = a ∨ x ∈ c.blocks ∧ x ∉ l := by
    simp [Census.replaced]
  have htiled : Tiled (heap.setBlock a type (e - a)) (c.replaced heap l a type (e - a)).blocks := by
    apply h.toTiled.replace hrun hne htype
    intro x
    rw [hblocks, hmem]
    constructor
    · rintro (hxa | ⟨hx, hxl⟩)
      · exact .inl hxa
      · exact .inr ⟨hx, by by_contra hnot; exact hxl ⟨hx, by omega, by omega⟩⟩
    · rintro (hxa | ⟨hx, hxl⟩)
      · exact .inl hxa
      · exact .inr ⟨hx, fun hin => by omega⟩
  have hnew : (heap.setBlock a type (e - a)).infoSize a = ⟨type, e - a⟩ := by
    rw [setBlock_infoSize, if_pos rfl]
  have hc : Changes heap (heap.setBlock a type (e - a)) c (c.replaced heap l a type (e - a))
      l.toFinset {a} := by
    refine ⟨rfl, fun x _ hR => ?_, by simp [hal], by simp [Census.replaced], fun x => ?_,
      fun x => ?_, rfl, rfl, by simpa using hunlisted, by simpa using huncached⟩
    · exact setBlock_infoSize_ne _ _ _ fun heq => hR (by simp [heq, hal])
    · by_cases hxa : x = a
      · subst hxa
        rw [Heap.IsUsedBlock, hnew]
        by_cases hused : type = .used <;> simp [Census.replaced, hused, hal]
      · by_cases hused : type = .used <;> simp [Census.replaced, hused, hxa]
    · by_cases hxa : x = a
      · subst hxa
        rw [Heap.IsFreeBlock, hnew]
        by_cases hfree : type = .free <;> simp [Census.replaced, hfree, hal]
      · by_cases hfree : type = .free <;> simp [Census.replaced, hfree, hxa]
  refine h.change hc htiled ?_ ?_ ?_ h.realCount
  · intro x hx hfree
    rw [Heap.IsFreeBlock] at hfree ⊢
    rcases (hblocks x).mp hx with rfl | ⟨hx, hxl⟩
    · rw [hnew] at hfree
      rw [setBlock_sizeOf_self, setBlock_infoSize_ne _ _ _ (by omega),
        show x + (e - x) = e by omega]
      exact (hsettled hfree).1
    · have hR : x ∉ l.toFinset := by simpa using hxl
      rw [hc.info x hx hR] at hfree
      rw [hc.sizeOf hx hR]
      by_cases hto : x + heap.sizeOf x = a
      · rw [hto, hnew]
        intro htype
        apply (hsettled htype).2
        have hprev := h.boundary x hx
        rw [hto] at hprev
        rw [Heap.PrevBlockIsFree, hprev]
        exact hfree
      · rw [setBlock_infoSize_ne _ _ _ hto]
        exact h.settled x hx hfree
  · intro r hr hR hp
    obtain ⟨hused, rfl⟩ := hreserve r (by simpa using hR) hp
    simp [Census.replaced, hused]
  · have hkept := hc.totalSize_kept h
    by_cases hused : type = .used
    · have hinsert := totalSize_insert (b := a) (heap.setBlock a type (e - a))
        (S := c.live \ l.toFinset) (by simp [hal])
      rw [setBlock_sizeOf_self] at hinsert
      simp only [Census.replaced, if_pos hused, hinsert]
      omega
    · simp only [Census.replaced, if_neg hused]
      omega

/-- The second half of a used block becomes a free block that is on no list. -/
theorem HeapInv.split (h : HeapInv heap c) (hb : b ∈ c.live) {m r : Nat}
    (hcut : heap.sizeOf b = m + r) (hm : 32 ≤ m) (hdvd : 8 ∣ m) (hr : 32 ≤ r)
    (hsettled : ¬heap.IsFreeBlock (b + heap.sizeOf b)) :
    HeapInv ((heap.setBlock b .used m).setBlock (b + m) .free r) { c with
        blocks := insert (b + m) c.blocks
        unlisted := insert (b + m) c.unlisted
        drift := c.drift + r } := by
  obtain ⟨hin, huncached⟩ := h.live b hb
  have hnew : b + m ∉ c.blocks := fun hx => by
    have := h.apart b hin _ hx (by omega)
    omega
  have htiled := h.toTiled.split hin hcut hm hdvd hr .used .free (by simp) (by simp)
  have hself : ((heap.setBlock b .used m).setBlock (b + m) .free r).infoSize b = ⟨.used, m⟩ := by
    rw [setBlock_infoSize_ne _ _ _ (by omega), setBlock_infoSize, if_pos rfl]
  have hhalf : ((heap.setBlock b .used m).setBlock (b + m) .free r).infoSize (b + m) =
      ⟨.free, r⟩ := by
    rw [setBlock_infoSize, if_pos rfl]
  have hother : ∀ x, x ≠ b + m → x ≠ b →
      ((heap.setBlock b .used m).setBlock (b + m) .free r).infoSize x = heap.infoSize x := by
    intro x hhalf hne
    rw [setBlock_infoSize_ne _ _ _ hhalf, setBlock_infoSize_ne _ _ _ hne]
  have hfreeB := h.not_free_of_live hb
  have hlists : SameLists heap ((heap.setBlock b .used m).setBlock (b + m) .free r) := rfl
  have hreal : ((heap.setBlock b .used m).setBlock (b + m) .free r).realSize =
    (((heap.setBlock b .used m).setBlock (b + m) .free r).segmentsList.map (·.size)).sum :=
    h.realCount
  generalize (heap.setBlock b .used m).setBlock (b + m) .free r = heap₂ at *
  have hdiff : b + m ∉ c.live := fun hlive => hnew (h.live _ hlive).1
  have hlisted : b + m ∉ c.unlisted := fun hin' => hnew (h.unlisted _ hin').1
  have hpos : m ≠ 0 := by omega
  have hown : b ∉ c.unlisted := fun hin' => hfreeB (h.unlisted b hin').2
  have hc : Changes heap heap₂ c { c with
      blocks := insert (b + m) c.blocks
      unlisted := insert (b + m) c.unlisted
      drift := c.drift + r } {b} {b, b + m} := by
    refine ⟨hlists, fun x hx hR => hother x (fun heq => hnew (heq ▸ hx)) (by simpa using hR),
      by simp [hnew], fun x => ?_, fun x => ?_, fun x => ?_, rfl, rfl, by simp [hfreeB],
      by simpa⟩
    all_goals
      by_cases hxb : x = b
      · subst hxb
        simp [Heap.IsUsedBlock, Heap.IsFreeBlock, hself, hin, hb, hown, hpos]
      · by_cases hxm : x = b + m
        · subst hxm
          simp [Heap.IsUsedBlock, Heap.IsFreeBlock, hhalf, hdiff, hlisted]
        · simp [hxb, hxm]
  refine h.change hc htiled ?_ ?_ ?_ hreal
  · intro x hx hfree
    rw [Heap.IsFreeBlock] at hfree ⊢
    rw [Finset.mem_insert] at hx
    rcases hx with rfl | hx
    · rw [Heap.sizeOf, hhalf]
      rw [hother _ (by change b + m + r ≠ b + m; omega) (by change b + m + r ≠ b; omega)]
      rw [hcut, ← add_assoc] at hsettled
      exact hsettled
    · have hxb : x ≠ b := by
        rintro rfl
        rw [hself] at hfree
        cases hfree
      rw [hc.info x hx (by simpa)] at hfree
      rw [hc.sizeOf hx (by simpa)]
      by_cases hto : x + heap.sizeOf x = b
      · rw [hto, hself]
        simp
      · rw [hother _ ?_ hto]
        · exact h.settled x hx hfree
        · rcases Nat.lt_or_gt_of_ne hxb with hlt | hgt
          · have := h.apart x hx b hin hlt
            omega
          · have := h.apart b hin x hx hgt
            omega
  · exact fun x hx _ _ => hx
  · have herase := totalSize_erase heap hb
    have herase' := totalSize_erase heap₂ hb
    have hkept : totalSize heap₂ (c.live.erase b) = totalSize heap (c.live.erase b) := by
      apply totalSize_congr
      intro x hx
      rw [Finset.mem_erase] at hx
      exact hc.sizeOf (h.live x hx.2).1 (by simpa using hx.1)
    have hsizeB : heap₂.sizeOf b = m := by rw [Heap.sizeOf, hself]
    change c.drift + r + totalSize heap₂ c.live = _
    omega

theorem Tiled.outside_of_not_holds (h : Tiled heap B)
    (ht : t ∈ heap.segmentsList) {x : Nat} (hx : x ∈ B) (hnot : ¬t.Holds x) :
    x < t.first ∨ t.guard < x := by
  obtain ⟨s, hs, hholds, -⟩ := h.holds hx
  have hne : s ≠ t := fun heq => hnot (heq ▸ hholds)
  exact (h.segmentsApart s hs t ht hne).outside (h.segments s hs) (h.segments t ht)
    ⟨hholds.1, hholds.2.le⟩

theorem HeapInv.dropSegment (h : HeapInv heap c) (heap' : Heap)
    (ht : t ∈ heap.segmentsList) (hrun : BlockRun heap c.blocks t.first l t.guard)
    (hunlisted : ∀ x ∈ l, heap.IsFreeBlock x → x ∈ c.unlisted)
    (huncached : ∀ x ∈ l, ∀ i, x ∉ c.cache i) (hreserve : ∀ x ∈ l, c.reserve ≠ some (dataOf x))
    (hagree : AgreeOutside heap heap' t) (hlists : SameLists heap heap')
    (hsegments : heap'.segmentsList = heap.segmentsList.erase t)
    (hreal : heap'.realSize = heap.realSize - t.size) : HeapInv heap' { c with
        blocks := c.blocks \ l.toFinset
        live := c.live \ l.toFinset
        unlisted := c.unlisted \ l.toFinset
        drift := c.drift + totalSize heap (c.live ∩ l.toFinset) } := by
  have hmem : ∀ x ∈ c.blocks, x ∈ l ↔ t.Holds x := fun x hx =>
    (hrun.mem_iff h.toTiled x).trans ⟨And.right, And.intro hx⟩
  have hc : Changes heap heap' c { c with
      blocks := c.blocks \ l.toFinset
      live := c.live \ l.toFinset
      unlisted := c.unlisted \ l.toFinset
      drift := c.drift + totalSize heap (c.live ∩ l.toFinset) } l.toFinset ∅ := by
    refine ⟨hlists, fun x hx hR => ?_, by simp, by simp, by simp, by simp, rfl, rfl,
      by simpa using hunlisted, by simpa using huncached⟩
    refine (hagree x (h.toTiled.outside_of_not_holds ht hx fun hholds => hR ?_)).1
    exact List.mem_toFinset.mpr ((hmem x hx).mpr hholds)
  have htiled : Tiled heap' (c.blocks \ l.toFinset) := by
    apply h.toTiled.dropSegment ht _ _ hagree
    · intro x
      rw [Finset.mem_sdiff, List.mem_toFinset]
      exact and_congr_right fun hx => not_congr (hmem x hx)
    · rw [hsegments]
      exact h.nodup.erase t
    · intro s
      rw [hsegments, h.nodup.mem_erase_iff, and_comm]
  refine h.change hc htiled ?_ ?_ ?_ ?_
  · intro x hx hfree
    rw [Finset.mem_sdiff] at hx
    rw [Heap.IsFreeBlock, hc.info x hx.1 hx.2] at hfree
    rw [hc.sizeOf hx.1 hx.2, Heap.IsFreeBlock]
    obtain ⟨s, hs, hholds, hend⟩ := h.toTiled.holds hx.1
    have hne : s ≠ t := fun heq =>
      hx.2 (List.mem_toFinset.mpr ((hmem x hx.1).mpr (heq ▸ hholds)))
    have houtside := (h.segmentsApart s hs t ht hne).outside (h.segments s hs)
      (h.segments t ht) (x := x + heap.sizeOf x) ⟨by have := hholds.1; omega, hend⟩
    rw [(hagree _ houtside).1]
    exact h.settled x hx.1 hfree
  · exact fun x _ hR hp => absurd hp (hreserve x (List.mem_toFinset.mp hR))
  · have hkept := hc.totalSize_kept h
    change c.drift + totalSize heap (c.live ∩ l.toFinset) +
      totalSize heap' (c.live \ l.toFinset) = _
    omega
  · have hsum := sum_map_erase (·.size) ht
    have hcount := h.realCount
    rw [hreal, hsegments]
    omega

theorem HeapInv.addSegment (h : HeapInv heap c) (ht : t.Valid)
    (hapart : ∀ s ∈ heap.segmentsList, s.Apart t) (hnodup : heap'.segmentsList.Nodup)
    (hsegments : ∀ s, s ∈ heap'.segmentsList ↔ s = t ∨ s ∈ heap.segmentsList)
    (hagree : AgreeOutside heap heap' t) (hlists : SameLists heap heap')
    (hreal : heap'.realSize = (heap'.segmentsList.map (·.size)).sum)
    (hfirst : heap'.IsFirstBlock t.first) (hguard : heap'.IsGuardBlock t.guard)
    (hblock : heap'.infoSize t.first = ⟨.used, t.guard - t.first⟩)
    (hprev : heap'.infoPrev t.guard = ⟨.used, t.guard - t.first⟩) : HeapInv heap' { c with
        blocks := insert t.first c.blocks
        live := insert t.first c.live
        drift := c.drift - (t.guard - t.first : Nat) } := by
  have hbounds := ht.bounds
  have houtside : ∀ s ∈ heap.segmentsList, ∀ x, s.first ≤ x ∧ x ≤ s.guard →
      x < t.first ∨ t.guard < x := fun s hs x hx =>
    (hapart s hs).outside (h.segments s hs) ht hx
  have hout : ∀ x ∈ c.blocks, x < t.first ∨ t.guard < x := by
    intro x hx
    obtain ⟨s, hs, hholds, -⟩ := h.toTiled.holds hx
    exact houtside s hs x ⟨hholds.1, hholds.2.le⟩
  have hnew : t.first ∉ c.blocks := fun hin => by have := hout _ hin; omega
  have hfresh : t.first ∉ c.live := fun hin => hnew (h.live _ hin).1
  have hlisted : t.first ∉ c.unlisted := fun hin => hnew (h.unlisted _ hin).1
  have hc : Changes heap heap' c { c with
      blocks := insert t.first c.blocks
      live := insert t.first c.live
      drift := c.drift - (t.guard - t.first : Nat) } ∅ {t.first} := by
    refine ⟨hlists, fun x hx _ => (hagree x (hout x hx)).1, by simpa, by simp, fun x => ?_,
      fun x => ?_, rfl, rfl, by simp, by simp⟩
    all_goals
      by_cases hx : x = t.first
      · subst hx
        simp [Heap.IsUsedBlock, Heap.IsFreeBlock, hblock, hlisted]
      · simp [hx]
  have htiled : Tiled heap' (insert t.first c.blocks) :=
    h.toTiled.addSegment ht hapart hnodup hsegments hagree hfirst hguard (by simp) hblock hprev
  refine h.change hc htiled ?_ (by simp) ?_ hreal
  · intro x hx hfree
    rw [Heap.IsFreeBlock] at hfree
    rw [Finset.mem_insert] at hx
    rcases hx with rfl | hx
    · rw [hblock] at hfree
      cases hfree
    · rw [hc.info x hx (by simp)] at hfree
      obtain ⟨s, hs, hholds, hend⟩ := h.toTiled.holds hx
      have := hholds.1
      rw [hc.sizeOf hx (by simp), Heap.IsFreeBlock, (hagree _ (houtside s hs _ ⟨by omega, hend⟩)).1]
      exact h.settled x hx hfree
  · have hkept := hc.totalSize_kept h
    have hinsert := totalSize_insert heap' hfresh
    have hsizeT : heap'.sizeOf t.first = t.guard - t.first := by rw [Heap.sizeOf, hblock]
    rw [Finset.sdiff_empty, Finset.inter_empty, show totalSize heap ∅ = 0 from rfl] at hkept
    change c.drift - (t.guard - t.first : Nat) + totalSize heap' (insert t.first c.live) = _
    omega

end Invariant

end PhpEngine.ZendMm

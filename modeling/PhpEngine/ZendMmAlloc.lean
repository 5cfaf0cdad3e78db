/-
Blocks that are allocated: from a free list, or from a new segment, or not at all,
and then the cache is flushed and the reserve is freed.
-/
import PhpEngine.ZendMmFree

namespace PhpEngine.ZendMm

open List Function Option

variable {size trueSize a : Nat}

theorem zendMmTrueSize_valid
    (hfits : ¬(SmallSize (zendMmTrueSize size) ∧ zendMmTrueSize size < size)) :
    32 ≤ zendMmTrueSize size ∧ 8 ∣ zendMmTrueSize size ∧ zendMmTrueSize size < sizeMod := by
  rw [SmallSize, maxSmallSize, numBuckets, alignedMinHeaderSize] at hfits
  rw [zendMmTrueSize, minSize, alignedMinHeaderSize, alignedHeaderSize, alignedSize, sizeMod] at *
  split at hfits <;> rename_i hsize
  · rw [if_pos hsize]
    omega
  · rw [if_neg hsize]
    refine ⟨?_, ?_, ?_⟩ <;> omega

/-- The size of a segment leaves room for the block, or the request is refused. -/
theorem segmentSizeFor_valid {heap : Heap} (hpage : ∃ k, 5 ≤ k ∧ k < 64 ∧ heap.blockSize = 2 ^ k)
    (hmin : 32 ≤ trueSize) (hlt : trueSize < sizeMod)
    (hfits : ¬segmentSizeFor heap trueSize < trueSize) (addr : Addr) :
    (Segment.mk addr (segmentSizeFor heap trueSize)).Valid ∧
      trueSize + 32 ≤ segmentSizeFor heap trueSize := by
  obtain ⟨k, hk5, hk64, hk⟩ := hpage
  have h32 : 2 ^ 5 ≤ heap.blockSize := hk ▸ Nat.pow_le_pow_right (by norm_num) hk5
  have h63 : heap.blockSize ≤ 2 ^ 63 := hk ▸ Nat.pow_le_pow_right (by norm_num) (by omega)
  have h8 : 8 ∣ heap.blockSize := by
    rw [hk, show (8 : Nat) = 2 ^ 3 by norm_num]
    exact Nat.pow_dvd_pow 2 (by omega)
  rw [Segment.Valid, alignedSegmentSize, alignedMinHeaderSize, alignedHeaderSize]
  rw [segmentSizeFor, alignedSegmentSize, alignedHeaderSize] at *
  generalize heap.blockSize = page at *
  rw [sizeMod] at *
  split at hfits <;> rename_i hown
  · rw [if_pos hown]
    simp only [] at hfits ⊢
    generalize hy : ((trueSize + 16 + 16) % 2 ^ 64 + (page - 1)) % 2 ^ 64 = y at *
    have hle := Nat.div_mul_le_self y page
    have hgt := Nat.lt_div_mul_add (a := y) (b := page) (by omega)
    have hdvd : 8 ∣ y / page * page := h8.mul_left _
    generalize y / page * page = seg at *
    have hroom : trueSize + 32 ≤ seg := by
      by_cases hwrap : trueSize + 32 < 2 ^ 64
      · omega
      · -- The size has wrapped around: the segment is not larger than a page.
        omega
    exact ⟨⟨by omega, hdvd, by omega⟩, hroom⟩
  · rw [if_neg hown]
    dsimp only
    exact ⟨⟨by omega, h8, by omega⟩, by omega⟩

section Alloc

variable {heap heap' : Heap} {c c' : Census} {b : Nat}

section

variable (h : HeapInv heap { c with unlisted := insert a c.unlisted }) (ha : a ∉ c.unlisted)
include h ha

theorem HeapInv.listed :
    HeapInv (zendMmAddToFreeList heap a) c := by
  have h' := h.relist (Finset.mem_insert_self a _)
  simp only [Finset.erase_insert ha] at h'
  exact h'

theorem HeapInv.listedRest :
    ∃ heap', zendMmAddToRestList heap a = some heap' ∧ HeapInv heap' c ∧ SameBlocks heap heap' := by
  obtain ⟨heap', hrun, h', hsame⟩ := h.relistRest (Finset.mem_insert_self a _)
  simp only [Finset.erase_insert ha] at h'
  exact ⟨heap', hrun, h', hsame⟩

end

/-- Of a used block that is too large, the rest becomes a free block. -/
theorem HeapInv.cutBlock {blockSize : Nat}
    (h : HeapInv (heap.setBlock b .used blockSize) c) (hb : b ∈ c.live)
    (hmin : 32 ≤ trueSize) (hdvd : 8 ∣ trueSize) (hle : trueSize + 32 ≤ blockSize)
    (hnext : ¬heap.IsFreeBlock (b + blockSize)) :
    HeapInv ((heap.setBlock b .used trueSize).setBlock (b + trueSize) .free (blockSize - trueSize))
      { c with
        blocks := insert (b + trueSize) c.blocks
        unlisted := insert (b + trueSize) c.unlisted
        drift := c.drift + (blockSize - trueSize : Nat) } ∧
      b + trueSize ∉ c.blocks := by
  have hsize := setBlock_sizeOf_self heap b .used blockSize
  have hcut : blockSize = trueSize + (blockSize - trueSize) := by omega
  have hsplit := h.split hb (hsize.trans hcut) hmin hdvd (by omega) (by
    rw [hsize, Heap.IsFreeBlock, setBlock_infoSize_ne _ _ _ (by omega)]
    exact hnext)
  have hheap := setBlock_setBlock heap b .used .free trueSize (blockSize - trueSize)
  rw [← hcut] at hheap
  rw [hheap] at hsplit
  refine ⟨hsplit, fun hin => ?_⟩
  have := h.apart b (h.live b hb).1 _ hin (by omega)
  omega

/-- The end of an allocation or a reallocation: the block is used, what remains of it
is listed, and `heap->size` counts the block instead of `origSize` bytes. -/
def fitBlock (heap : Heap) (b blockSize trueSize origSize : Nat) (toRest : Prop)
    [Decidable toRest] : Option (Heap × Exit) :=
  if blockSize - trueSize < 32 then
    some ({ heap.setBlock b .used blockSize with
      size := heap.size + blockSize - origSize }, .returned (dataOf b))
  else
    (if toRest then
      zendMmAddToRestList ((heap.setBlock b .used trueSize).setBlock (b + trueSize) .free
        (blockSize - trueSize)) (b + trueSize)
    else some (zendMmAddToFreeList ((heap.setBlock b .used trueSize).setBlock (b + trueSize)
        .free (blockSize - trueSize)) (b + trueSize))).map fun heap =>
      ({ heap with size := heap.size + trueSize - origSize }, .returned (dataOf b))

theorem HeapInv.fitBlock {blockSize origSize : Nat}
    (h : HeapInv (heap.setBlock b .used blockSize) c) (hb : b ∈ c.live)
    (hmin : 32 ≤ trueSize) (hdvd : 8 ∣ trueSize) (hle : trueSize ≤ blockSize)
    (hnext : ¬heap.IsFreeBlock (b + blockSize)) (horig : origSize ≤ heap.size)
    (toRest : Prop) [Decidable toRest] :
    ∃ heap' blocks, fitBlock heap b blockSize trueSize origSize toRest =
        some (heap', .returned (dataOf b)) ∧
      HeapInv heap' { c with blocks := blocks, drift := c.drift + blockSize - origSize } ∧
      trueSize ≤ heap'.sizeOf b ∧
      (∀ x ∈ c.blocks, x ≠ b → heap'.infoSize x = heap.infoSize x) ∧
      SameRest heap heap' := by
  rw [PhpEngine.ZendMm.fitBlock]
  by_cases hrest : blockSize - trueSize < 32
  · refine ⟨{ heap.setBlock b .used blockSize with
      size := heap.size + blockSize - origSize }, c.blocks, if_pos hrest, ?_, ?_, ?_,
      rfl, rfl, rfl, rfl⟩
    · have h' := h.setSize (heap.size + blockSize - origSize)
      have hd : c.drift + ((heap.size + blockSize - origSize : Nat) : ℤ) -
          ((heap.setBlock b .used blockSize).size : ℤ) =
          c.drift + blockSize - origSize := by
        change c.drift + ((heap.size + blockSize - origSize : Nat) : ℤ) - (heap.size : ℤ) = _
        omega
      rw [hd] at h'
      exact h'
    · change trueSize ≤ (heap.setBlock b .used blockSize).sizeOf b
      rw [setBlock_sizeOf_self]
      exact hle
    · intro x _ hne
      exact setBlock_infoSize_ne _ _ _ hne
  · rw [if_neg hrest]
    obtain ⟨hsplit, hnew⟩ := h.cutBlock hb hmin hdvd (by omega) hnext
    have hnot : b + trueSize ∉ c.unlisted := fun hin => hnew (h.unlisted _ hin).1
    -- Either list takes the new block.
    obtain ⟨heap₁, hlist, h₁, hsame⟩ : ∃ heap₁, (if toRest then
        zendMmAddToRestList ((heap.setBlock b .used trueSize).setBlock (b + trueSize) .free
          (blockSize - trueSize)) (b + trueSize)
      else some (zendMmAddToFreeList ((heap.setBlock b .used trueSize).setBlock
          (b + trueSize) .free (blockSize - trueSize)) (b + trueSize))) = some heap₁ ∧
        HeapInv heap₁ { c with
          blocks := insert (b + trueSize) c.blocks
          drift := c.drift + (blockSize - trueSize : Nat) } ∧
        SameBlocks ((heap.setBlock b .used trueSize).setBlock (b + trueSize) .free
          (blockSize - trueSize)) heap₁ := by
      by_cases hto : toRest
      · rw [if_pos hto]
        exact hsplit.listedRest hnot
      · rw [if_neg hto]
        exact ⟨_, rfl, hsplit.listed hnot, zendMmAddToFreeList_sameBlocks _ _⟩
    have hfield : heap₁.size = heap.size := by
      rw [hsame]
      rfl
    refine ⟨{ heap₁ with size := heap₁.size + trueSize - origSize },
      insert (b + trueSize) c.blocks, ?_, ?_, ?_, ?_, ?_⟩
    · rw [hlist]
      rfl
    · have h' := h₁.setSize (heap₁.size + trueSize - origSize)
      have hd : c.drift + ((blockSize - trueSize : Nat) : ℤ) +
          ((heap₁.size + trueSize - origSize : Nat) : ℤ) - (heap₁.size : ℤ) =
          c.drift + blockSize - origSize := by
        omega
      simp only [hd] at h'
      exact h'
    · change trueSize ≤ heap₁.sizeOf b
      rw [hsame.sizeOf, setBlock_sizeOf_ne _ _ _ (by omega), setBlock_sizeOf_self]
    · intro x hx hne
      have hne' : x ≠ b + trueSize := fun heq => hnew (heq ▸ hx)
      rw [hsame.infoSize, setBlock_infoSize_ne _ _ _ hne', setBlock_infoSize_ne _ _ _ hne]
    · exact hsame.rest

theorem allocBlock_eq (heap : Heap) (b blockSize trueSize : Nat) (keepRest : Bool) :
    allocBlock heap b blockSize trueSize keepRest =
      fitBlock heap b blockSize trueSize 0 (keepRest = true) := by
  rw [allocBlock, fitBlock, alignedMinHeaderSize]
  simp only [Nat.sub_zero]
  split
  · rfl
  · cases keepRest with
    | false => rfl
    | true =>
      cases zendMmAddToRestList ((heap.setBlock b .used trueSize).setBlock (b + trueSize)
        .free (blockSize - trueSize)) (b + trueSize) <;> rfl

/-- A heap between two calls. -/
structure Ready (heap : Heap) (c : Census) : Prop extends HeapInv heap c where
  cacheEq : c.cache = heap.cache
  reserveEq : c.reserve = heap.reserve
  counted : 0 ≤ c.drift

/-- A call has returned the data of a live block that was none of the blocks of `S`,
which are the live ones besides it. -/
structure Served (heap : Heap) (c : Census) (heap' : Heap) (c' : Census)
    (S : Finset Nat) (b trueSize : Nat) : Prop where
  ready : Ready heap' c'
  fresh : b ∉ S
  live : c'.live = insert b S
  room : trueSize ≤ heap'.sizeOf b
  unlisted : c'.unlisted = c.unlisted
  reserve : c'.reserve = c.reserve
  drift : c'.drift = c.drift
  keeps : ∀ x ∈ S, heap'.infoSize x = heap.infoSize x

/-- A call has ended with an error: the reserve is gone, and `flushed` bytes are
counted too much. -/
structure Failed (heap : Heap) (c : Census) (heap' : Heap) (c' : Census)
    (flushed : Nat) : Prop where
  ready : Ready heap' c'
  live : ∀ x, x ∈ c'.live ↔ x ∈ c.live ∧ c.reserve ≠ some (dataOf x)
  unlisted : c'.unlisted = c.unlisted
  reserve : c'.reserve = none
  drift : c'.drift = c.drift + flushed
  keeps : ∀ x, x ∈ c'.live ∨ x ∈ c.unlisted → heap'.infoSize x = heap.infoSize x

/-- The blocks that the error exits free have no neighbour that is on no list. -/
def Census.AllClear (c : Census) (heap : Heap) : Prop :=
  (∀ i, ∀ b ∈ c.cache i, c.Clear heap b) ∧ ∀ b, c.reserve = some (dataOf b) → c.Clear heap b

theorem Census.allClear (h : c.unlisted = ∅) (heap : Heap) : c.AllClear heap := by
  constructor
  · intro i b _ x hx
    rw [h] at hx
    exact absurd hx (Finset.notMem_empty x)
  · intro b _ x hx
    rw [h] at hx
    exact absurd hx (Finset.notMem_empty x)

theorem Ready.safeError (h : Ready heap c)
    (hclear : ∀ b, c.reserve = some (dataOf b) → c.Clear heap b) :
    ∃ heap' c', zendMmSafeError heap = some heap' ∧ Failed heap c heap' c' 0 := by
  obtain ⟨heap', blocks, live, hrun, h', hres, hlive, hinfo⟩ :=
    h.toHeapInv.zendMmSafeError h.cacheEq h.reserveEq h.counted hclear
  refine ⟨heap', _, hrun, ⟨h', rfl, hres.symm, h.counted⟩, hlive, rfl, rfl, ?_, ?_⟩
  · exact (Int.add_zero _).symm
  · rintro x (hx | hx)
    · obtain ⟨hx, hne⟩ := (hlive x).mp hx
      exact hinfo x (.inl hx) hne
    · apply hinfo x (.inr (.inr hx))
      intro hreserved
      exact h.not_free_of_live (h.reserved_live hreserved) (h.unlisted x hx).2

/-- The error exits behind a refusal: the cache is flushed and the reserve freed. -/
theorem Ready.refuse (h : Ready heap c) (hclear : c.AllClear heap) :
    ∃ heap₁ heap' c', zendMmFreeCache heap = some heap₁ ∧
      zendMmSafeError heap₁ = some heap' ∧ Failed heap c heap' c' heap.cached := by
  obtain ⟨heap₁, blocks, hrun₁, h₁, hcache₁, hres₁, hinfo₁⟩ :=
    h.toHeapInv.zendMmFreeCache h.cacheEq hclear.1
  have hready : Ready heap₁ { c with
      blocks := blocks
      cache := fun _ => []
      drift := c.drift + cachedSize heap c.cache } := by
    refine ⟨h₁, hcache₁.symm, h.reserveEq.trans hres₁.symm, ?_⟩
    have := h.counted
    change 0 ≤ c.drift + (cachedSize heap c.cache : ℤ)
    omega
  obtain ⟨heap', c', hrun, hfailed⟩ := hready.safeError (by
    intro b hb
    exact (hclear.2 b hb).congr (hinfo₁ b (.inl (h.reserved_live hb)))
      (fun x hx => hinfo₁ x (.inr hx)) rfl)
  refine ⟨heap₁, heap', c', hrun₁, hrun, hfailed.ready, hfailed.live, hfailed.unlisted,
    hfailed.reserve, ?_, ?_⟩
  · rw [hfailed.drift, h.cachedCount]
    exact Int.add_zero _
  · intro x hx
    rw [hfailed.keeps x hx]
    exact hinfo₁ x (hx.imp (fun hx => ((hfailed.live x).mp hx).1) id)

theorem Ready.allocFound (h : Ready heap c) (hb : b ∈ c.blocks)
    (hfree : heap.IsFreeBlock b) (hlisted : b ∉ c.unlisted)
    (hmin : 32 ≤ trueSize) (hdvd : 8 ∣ trueSize) (hle : trueSize ≤ heap.sizeOf b) :
    ∃ heap' c', allocFound heap b trueSize = some (heap', .returned (dataOf b)) ∧
      Served heap c heap' c' c.live b trueSize := by
  obtain ⟨heap₁, hrun₁, h₁, hsame₁⟩ := h.unlist hb hfree hlisted
  have hnot : b ∉ c.live := fun hlive => h.not_free_of_live hlive hfree
  have hsize₁ := hsame₁.sizeOf b
  have hfree₁ := hsame₁.isFree.mpr hfree
  have hrun : BlockRun heap₁ c.blocks b [b] (b + heap₁.sizeOf b) := .cons hb (.nil _)
  have h₂ := h₁.replace hrun (cons_ne_nil _ _) .used (by simp)
    (fun x hx _ => by
      rw [mem_singleton.mp hx]
      exact Finset.mem_insert_self _ _)
    (fun x hx i hin => h₁.not_free_of_cached hin (mem_singleton.mp hx ▸ hfree₁))
    (fun x hx hres => by
      rw [mem_singleton.mp hx] at hres
      exact absurd (h₁.reserved_live hres) hnot) (by simp)
  have hset₁ : c.live \ [b].toFinset = c.live := by
    ext x
    simp only [toFinset_cons, toFinset_nil, insert_empty_eq, Finset.mem_sdiff,
      Finset.mem_singleton, and_iff_left_iff_imp]
    exact fun hx heq => hnot (heq ▸ hx)
  have hset₂ : c.live ∩ [b].toFinset = ∅ := by
    ext x
    simp only [toFinset_cons, toFinset_nil, insert_empty_eq, Finset.mem_inter,
      Finset.mem_singleton, Finset.notMem_empty, iff_false, not_and]
    exact fun hx heq => hnot (heq ▸ hx)
  have hset₃ : insert b c.unlisted \ [b].toFinset = c.unlisted := by
    ext x
    by_cases hxb : x = b
    · subst hxb
      simp [hlisted]
    · simp [hxb]
  rw [Nat.add_sub_cancel_left] at h₂
  simp only [Census.replaced, hset₁, hset₂, hset₃, reduceCtorEq, if_true, if_false] at h₂
  obtain ⟨heap', blocks, hrun', h', hroom, hinfo, hrest⟩ :=
    h₂.fitBlock (Finset.mem_insert_self b _) hmin hdvd (hsize₁ ▸ hle)
      (h₁.settled b hb hfree₁) (Nat.zero_le _) (false = true)
  refine ⟨heap', { c with
      blocks := blocks
      live := insert b c.live }, ?_, ⟨?_, ?_, ?_, ?_⟩, hnot, rfl, hroom, rfl, rfl, rfl, ?_⟩
  · rw [PhpEngine.ZendMm.allocFound, hrun₁]
    exact hrun'
  · have hd : c.drift + ((totalSize heap₁ ∅ : Nat) : ℤ) - ((heap₁.sizeOf b : Nat) : ℤ) +
        ((heap₁.sizeOf b : Nat) : ℤ) - ((0 : Nat) : ℤ) = c.drift := by
      rw [totalSize, Finset.sum_empty]
      omega
    simp only [hd] at h'
    exact h'
  · exact h.cacheEq.trans (hsame₁.rest.trans hrest).1.symm
  · exact h.reserveEq.trans (hsame₁.rest.trans hrest).2.1.symm
  · exact h.counted
  · intro x hx
    have hne : x ≠ b := fun heq => hnot (heq ▸ hx)
    rw [hinfo x (Finset.mem_insert_of_mem ?_) hne, hsame₁.infoSize]
    rw [Finset.mem_sdiff]
    exact ⟨(h.live x hx).1, by simpa using hne⟩

/-! The search for a free block. -/

/-- The large blocks, and near the limit the rest blocks. -/
def bestFitFor (heap : Heap) (trueSize : Nat) : Option (Option Addr) := do
  let found ← zendMmSearchLargeBlock heap trueSize
  return if found = none ∧ heap.realSize ≥ heap.limit - heap.blockSize then
      searchRest heap trueSize heap.restBuckets.reverse ⟨sizeMod - 1, none⟩
    else found

theorem searchRest_spec (heap : Heap) (trueSize : Nat) (rest : List Addr) (best : BestFit)
    {b : Addr} (hfound : searchRest heap trueSize rest best = some b) :
    best.block = some b ∨ b ∈ rest ∧ trueSize ≤ heap.sizeOf b := by
  induction rest generalizing best with
  | nil => exact .inl hfound
  | cons p rest ih =>
    rw [searchRest] at hfound
    split at hfound
    · rename_i hsame
      rw [← Option.some.inj hfound]
      exact .inr ⟨mem_cons_self, hsame.ge⟩
    · split at hfound
      · rename_i hbetter
        rcases ih _ hfound with heq | ⟨hb, hle⟩
        · rw [← Option.some.inj heq]
          exact .inr ⟨mem_cons_self, hbetter.1.le⟩
        · exact .inr ⟨mem_cons_of_mem p hb, hle⟩
      · rcases ih _ hfound with heq | ⟨hb, hle⟩
        · exact .inl heq
        · exact .inr ⟨mem_cons_of_mem p hb, hle⟩

theorem SearchOutcome.fits {n : Nat} {found : Option Addr} {x : Addr}
    (h : SearchOutcome heap n found) (hx : found = some x) :
    heap.InLarge x ∧ n ≤ heap.sizeOf x := by
  cases h with
  | none => cases hx
  | same _ hfinds =>
    cases hx
    exact ⟨⟨_, hfinds.1⟩, hfinds.2.1⟩
  | above _ _ _ _ hfinds =>
    cases hx
    exact ⟨⟨_, hfinds.1⟩, hfinds.2.1⟩

theorem HeapInv.bestFitFor (h : HeapInv heap c) (hmin : 32 ≤ trueSize) (hlt : trueSize < sizeMod) :
    ∃ found, bestFitFor heap trueSize = some found ∧ ∀ x, found = some x →
      (x ∈ c.blocks ∧ heap.IsFreeBlock x ∧ x ∉ c.unlisted) ∧ trueSize ≤ heap.sizeOf x := by
  obtain ⟨found, hsearch, houtcome⟩ := h.lists.toLargeTrees.search (n := trueSize) (by omega) hlt
  refine ⟨_, by rw [PhpEngine.ZendMm.bestFitFor, hsearch]; rfl, ?_⟩
  intro x hx
  split at hx
  · rcases searchRest_spec _ _ _ _ hx with hnone | ⟨hrest, hle⟩
    · cases hnone
    · rw [mem_reverse] at hrest
      exact ⟨(h.lists.mem x).mpr (.inr (.inr hrest)), hle⟩
  · obtain ⟨hlarge, hle⟩ := houtcome.fits hx
    exact ⟨(h.lists.mem x).mpr (.inr (.inl hlarge)), hle⟩

/-- A bit of the bitmap leads to a small block that is large enough. -/
theorem HeapInv.smallFit (h : HeapInv heap c) (hmin : 32 ≤ trueSize)
    (hdvd : 8 ∣ trueSize) (hbits : heap.freeBitmap >>> bucketIndex trueSize ≠ 0) :
    ∃ x, (heap.freeBuckets (bucketIndex trueSize +
        zendMmLowBit (heap.freeBitmap >>> bucketIndex trueSize))).getLast? = some x ∧
      (x ∈ c.blocks ∧ heap.IsFreeBlock x ∧ x ∉ c.unlisted) ∧ trueSize ≤ heap.sizeOf x := by
  obtain ⟨-, hbit, -⟩ := zendMmLowBit_spec hbits
  rw [BitVec.getLsbD_ushiftRight] at hbit
  have hne := h.lists.smallBits _ (BitVec.lt_of_getLsbD hbit) hbit
  have hlast := getLast?_eq_getLast_of_ne_nil hne
  have hin := getLast_mem hne
  obtain ⟨hsmall, hindex⟩ := h.lists.small _ _ hin
  have hfree := h.lists.mem_small hin
  refine ⟨_, hlast, hfree, ?_⟩
  obtain ⟨hsize, hdvd', -⟩ := h.lists.blockSizes _ hfree
  generalize heap.sizeOf _ = size at *
  rw [bucketIndex, bucketIndex.eq_1 trueSize, alignedMinHeaderSize] at hindex
  rw [alignedMinHeaderSize] at hsize
  omega

/-! A new segment. -/

/-- The storage answers with memory that no segment takes. -/
structure Storage.Fresh (storage : Storage) (heap : Heap) : Prop where
  alloc : ∀ size addr, storage.alloc size = some addr →
    ∀ s ∈ heap.segmentsList, s.Apart ⟨addr, size⟩
  realloc : ∀ s ∈ heap.segmentsList, ∀ size addr, storage.realloc s.addr size = some addr →
    ∀ t ∈ heap.segmentsList, t ≠ s → t.Apart ⟨addr, size⟩

/-- The limit or the storage does not grant a segment. -/
def SegmentRefused (heap : Heap) (trueSize released : Nat) (answer : Option Addr) : Prop :=
  (segmentSizeFor heap trueSize < trueSize ∨
    (heap.realSize + segmentSizeFor heap trueSize - released) % sizeMod > heap.limit) ∨
  answer = none

theorem segment_guard {addr : Addr} (h : (Segment.mk addr size).Valid) :
    addr + alignedSegmentSize = (Segment.mk addr size).first ∧
      (Segment.mk addr size).first + (size - alignedSegmentSize - alignedHeaderSize) =
        (Segment.mk addr size).guard := by
  have hbounds := h.bounds
  have hvalid := h.1
  rw [alignedSegmentSize, alignedMinHeaderSize, alignedHeaderSize] at *
  dsimp only at *
  constructor
  · rw [Segment.first, alignedSegmentSize, add_comm]
  · omega

theorem Segment.Apart.ne {s t : Segment} (hs : s.Valid) (ht : t.Valid) (hapart : s.Apart t) :
    s ≠ t := by
  rintro rfl
  have := hs.bounds
  rw [Segment.Apart] at hapart
  omega

theorem lastBlock_infoSize_ne (heap : Heap) {x : Nat} (hne : x ≠ a) :
    (heap.lastBlock a).infoSize x = heap.infoSize x := update_of_ne hne _ _

theorem lastBlock_isGuardBlock (heap : Heap) (a : Nat) : (heap.lastBlock a).IsGuardBlock a :=
  congrArg Tag.type (update_self a _ heap.infoSize)

theorem markFirstBlock_infoPrev_ne (heap : Heap) {x : Nat} (hne : x ≠ a) :
    (heap.markFirstBlock a).infoPrev x = heap.infoPrev x := update_of_ne hne _ _

theorem HeapInv.openSegment (h : HeapInv heap c) {addr : Addr}
    (ht : (Segment.mk addr size).Valid) (hapart : ∀ s ∈ heap.segmentsList, s.Apart ⟨addr, size⟩)
    (segments : List Segment) (realSize : Nat) (hnodup : segments.Nodup)
    (hsegments : ∀ s, s ∈ segments ↔ s = ⟨addr, size⟩ ∨ s ∈ heap.segmentsList)
    (hreal : realSize = (segments.map (·.size)).sum) :
    HeapInv (((({ heap with realSize := realSize, segmentsList := segments }).markFirstBlock
        (addr + alignedSegmentSize)).lastBlock (addr + alignedSegmentSize +
          (size - alignedSegmentSize - alignedHeaderSize))).setBlock
            (addr + alignedSegmentSize) .used (size - alignedSegmentSize - alignedHeaderSize))
      { c with
        blocks := insert (Segment.mk addr size).first c.blocks
        live := insert (Segment.mk addr size).first c.live
        drift := c.drift - (size - alignedSegmentSize - alignedHeaderSize : Nat) } := by
  obtain ⟨hfirst, hguard⟩ := segment_guard ht
  have hbounds := ht.bounds
  have hsize : size - alignedSegmentSize - alignedHeaderSize =
      (Segment.mk addr size).guard - (Segment.mk addr size).first := by omega
  rw [hfirst, hguard, hsize]
  generalize ht' : Segment.mk addr size = t at *
  have hend : t.first + (t.guard - t.first) = t.guard := by omega
  apply h.addSegment ht hapart
  · exact hnodup
  · exact hsegments
  · intro x hx
    constructor
    · rw [setBlock_infoSize_ne _ _ _ (by omega), lastBlock_infoSize_ne _ (by omega)]
      rfl
    · rw [setBlock_infoPrev_ne _ _ _ (by omega)]
      exact markFirstBlock_infoPrev_ne _ (by omega)
  · rfl
  · exact hreal
  · rw [Heap.IsFirstBlock, setBlock_infoPrev_ne _ _ _ (by omega)]
    exact update_self _ _ _
  · rw [Heap.IsGuardBlock, setBlock_infoSize_ne _ _ _ (by omega)]
    exact lastBlock_isGuardBlock _ _
  · rw [setBlock_infoSize, if_pos rfl]
  · rw [setBlock_infoPrev, if_pos hend.symm]

theorem openSegment_sameRest (heap : Heap) (segments : List Segment) (realSize a e : Nat) :
    SameRest heap ((({ heap with realSize := realSize, segmentsList := segments
      }).markFirstBlock a).lastBlock e) := ⟨rfl, rfl, rfl, rfl⟩

theorem Ready.allocSegment (h : Ready heap c) (hclear : c.AllClear heap)
    {storage : Storage} (hfresh : storage.Fresh heap)
    (hmin : 32 ≤ trueSize) (hdvd : 8 ∣ trueSize) (hlt : trueSize < sizeMod) :
    ∃ heap' c' exit, allocSegment storage heap trueSize = some (heap', exit) ∧
      ((SegmentRefused heap trueSize 0 (storage.alloc (segmentSizeFor heap trueSize)) ∧
          (∀ p, exit ≠ .returned p) ∧ Failed heap c heap' c' heap.cached) ∨
        (¬SegmentRefused heap trueSize 0 (storage.alloc (segmentSizeFor heap trueSize)) ∧
          ∃ b, exit = .returned (dataOf b) ∧ Served heap c heap' c' c.live b trueSize)) := by
  rw [PhpEngine.ZendMm.allocSegment, SegmentRefused, Nat.sub_zero]
  by_cases hlimit : segmentSizeFor heap trueSize < trueSize ∨
      (heap.realSize + segmentSizeFor heap trueSize) % sizeMod > heap.limit
  · obtain ⟨heap₁, heap', c', hrun₁, hrun, hfailed⟩ := h.refuse hclear
    refine ⟨heap', c', .memoryLimit, ?_, .inl ⟨.inl hlimit, by simp, hfailed⟩⟩
    simp only [if_pos hlimit, hrun₁, bind_eq_bind, bind_some, hrun]
    rfl
  · simp only [if_neg hlimit]
    rw [not_or] at hlimit
    obtain ⟨hvalid, hroom⟩ := segmentSizeFor_valid h.pageSize hmin hlt hlimit.1 0
    cases hanswer : storage.alloc (segmentSizeFor heap trueSize) with
    | none =>
      obtain ⟨heap₁, heap', c', hrun₁, hrun, hfailed⟩ := h.refuse hclear
      refine ⟨heap', c', .outOfMemory, ?_, .inl ⟨.inr rfl, by simp, hfailed⟩⟩
      simp only [hrun₁, bind_eq_bind, bind_some, hrun]
      rfl
    | some addr =>
      have ht : (Segment.mk addr (segmentSizeFor heap trueSize)).Valid := hvalid
      have hapart := hfresh.alloc _ _ hanswer
      obtain ⟨hfirst, hguard⟩ := segment_guard ht
      generalize segmentSizeFor heap trueSize = size at *
      have hnot : Segment.mk addr size ∉ heap.segmentsList := fun hin =>
        (hapart _ hin).ne ht ht rfl
      have hcount := h.realCount
      have h₁ := h.openSegment ht hapart (⟨addr, size⟩ :: heap.segmentsList) (heap.realSize + size)
        (nodup_cons.mpr ⟨hnot, h.nodup⟩) (fun s => mem_cons)
        (by rw [map_cons, sum_cons, hcount, add_comm])
      have hnew : (Segment.mk addr size).first ∉ c.blocks := by
        intro hin
        obtain ⟨s, hs, hholds, -⟩ := h.toTiled.holds hin
        have := (hapart s hs).outside (h.segments s hs) ht ⟨hholds.1, hholds.2.le⟩
        omega
      have hlive : (Segment.mk addr size).first ∉ c.live := fun hin =>
        hnew (h.live _ hin).1
      have hle : trueSize ≤ size - alignedSegmentSize - alignedHeaderSize := by
        rw [alignedSegmentSize, alignedHeaderSize]
        omega
      obtain ⟨heap', blocks, hrun, h', hsize, hinfo, hrest⟩ :=
        (h₁.fitBlock (b := addr + alignedSegmentSize)
          (by rw [hfirst]; exact Finset.mem_insert_self _ _) hmin hdvd hle
          (by
            rw [Heap.IsFreeBlock]
            have hlast := lastBlock_isGuardBlock (({ heap with
              realSize := heap.realSize + size
              segmentsList := ⟨addr, size⟩ :: heap.segmentsList }).markFirstBlock
                (addr + alignedSegmentSize)) (addr + alignedSegmentSize +
                  (size - alignedSegmentSize - alignedHeaderSize))
            rw [hlast]
            simp)
          (Nat.zero_le _) (keepRest heap trueSize = true))
      rw [← allocBlock_eq] at hrun
      have hrest' := (openSegment_sameRest heap _ _ _ _).trans hrest
      refine ⟨heap', { c with
          blocks := blocks
          live := insert (Segment.mk addr size).first c.live }, _, hrun,
        .inr ⟨?_, (Segment.mk addr size).first, ?_, ⟨?_, ?_, ?_, ?_⟩, hlive, rfl, ?_,
          rfl, rfl, rfl, ?_⟩⟩
      · simp [hlimit]
      · rw [hfirst]
      · have hd : ∀ n : Nat, c.drift - (n : ℤ) + (n : ℤ) - ((0 : Nat) : ℤ) = c.drift := by
          omega
        simp only [hd] at h'
        exact h'
      · exact h.cacheEq.trans hrest'.1.symm
      · exact h.reserveEq.trans hrest'.2.1.symm
      · exact h.counted
      · rw [← hfirst]
        exact hsize
      · intro x hx
        have hxB := (h.live x hx).1
        rw [hinfo x (Finset.mem_insert_of_mem hxB)]
        · exact lastBlock_infoSize_ne _ (by
            rw [hfirst, hguard]
            obtain ⟨s, hs, hholds, -⟩ := h.toTiled.holds hxB
            have := (hapart s hs).outside (h.segments s hs) ht ⟨hholds.1, hholds.2.le⟩
            omega)
        · rw [hfirst]
          exact fun heq => hlive (heq ▸ hx)

/-- Neither cache nor free lists have a block for the request. -/
def NeedsSegment (heap : Heap) (size : Nat) : Prop :=
  ¬(SmallSize (zendMmTrueSize size) ∧ (zendMmTrueSize size < size ∨
      heap.cache (bucketIndex (zendMmTrueSize size)) ≠ [] ∨
      heap.freeBitmap >>> bucketIndex (zendMmTrueSize size) ≠ 0)) ∧
    bestFitFor heap (zendMmTrueSize size) = some none

/-- A call of `_zend_mm_alloc_int` that flushes the cache. -/
def AllocFlushes (storage : Storage) (heap : Heap) (size : Nat) : Prop :=
  NeedsSegment heap size ∧ SegmentRefused heap (zendMmTrueSize size) 0
    (storage.alloc (segmentSizeFor heap (zendMmTrueSize size)))

/-- `_zend_mm_alloc_int` behind its caches: it takes the best fit, or a new segment. -/
theorem allocAfterSearch (storage : Storage) (heap : Heap) (trueSize : Nat) :
    ((zendMmSearchLargeBlock heap trueSize).bind fun found =>
      match if found = none ∧ heap.realSize ≥ heap.limit - heap.blockSize then
          searchRest heap trueSize heap.restBuckets.reverse ⟨sizeMod - 1, none⟩
        else found with
      | some b => allocFound heap b trueSize
      | none => allocSegment storage heap trueSize) =
    (bestFitFor heap trueSize).bind fun found => match found with
      | some b => allocFound heap b trueSize
      | none => allocSegment storage heap trueSize := by
  rw [bestFitFor]
  cases zendMmSearchLargeBlock heap trueSize <;> rfl

/-- `_zend_mm_alloc_int` from a heap between two calls. -/
theorem Ready.alloc (h : Ready heap c) (hclear : c.unlisted = ∅) {storage : Storage}
    (hfresh : storage.Fresh heap) (size : Nat) :
    ∃ heap' c' exit, zendMmAllocInt storage heap size = some (heap', exit) ∧
      ((∃ b, exit = .returned (dataOf b) ∧ ¬AllocFlushes storage heap size ∧
          Served heap c heap' c' c.live b (zendMmTrueSize size)) ∨
        (∀ p, exit ≠ .returned p) ∧ ∃ flushed, Failed heap c heap' c' flushed ∧
          (AllocFlushes storage heap size ∧ flushed = heap.cached ∨
            ¬AllocFlushes storage heap size ∧ flushed = 0)) := by
  have hall := Census.allClear hclear heap
  rw [zendMmAllocInt]
  by_cases hsmall : SmallSize (zendMmTrueSize size) ∧ zendMmTrueSize size < size
  · obtain ⟨heap', c', hrun, hfailed⟩ := h.safeError hall.2
    refine ⟨heap', c', .outOfMemory, ?_, .inr ⟨by simp, 0, hfailed, .inr ⟨?_, rfl⟩⟩⟩
    · simp only [if_pos hsmall, hrun]
      rfl
    · exact fun hflush => hflush.1.1 ⟨hsmall.1, .inl hsmall.2⟩
  simp only [if_neg hsmall]
  obtain ⟨hmin, hdvd, hlt⟩ := zendMmTrueSize_valid hsmall
  by_cases hcache : SmallSize (zendMmTrueSize size) ∧
      heap.cache (bucketIndex (zendMmTrueSize size)) ≠ []
  · obtain ⟨b, list, hlist⟩ := exists_cons_of_ne_nil hcache.2
    have hlist' : c.cache (bucketIndex (zendMmTrueSize size)) = b :: list := by
      rw [h.cacheEq, hlist]
    have hb : b ∈ c.cache (bucketIndex (zendMmTrueSize size)) := by
      rw [hlist']
      exact mem_cons_self
    -- A cached block has just the size of its list.
    have hsize : heap.sizeOf b = zendMmTrueSize size := by
      obtain ⟨hin, -, hindex⟩ := h.cached _ b hb
      obtain ⟨hbmin, hbdvd⟩ := h.blocks b hin
      simp only [bucketIndex, alignedMinHeaderSize] at hindex hbmin
      omega
    have hnot : b ∉ c.live := fun hlive => (h.live b hlive).2 _ hb
    refine ⟨{ heap with
        cache := update heap.cache (bucketIndex (zendMmTrueSize size)) list
        cached := heap.cached - zendMmTrueSize size }, { c with
        live := insert b c.live
        cache := update c.cache (bucketIndex (zendMmTrueSize size)) list }, _, ?_,
      .inl ⟨b, rfl, ?_, ⟨?_, ?_, h.reserveEq, h.counted⟩, hnot, rfl, hsize.ge, rfl, rfl,
        rfl, fun _ _ => rfl⟩⟩
    · rw [if_pos hcache, hlist]
      rfl
    · exact fun hflush => hflush.1.1 ⟨hcache.1, .inr (.inl hcache.2)⟩
    · have h' := h.toHeapInv.uncacheBlock hlist'
      rw [hsize] at h'
      exact h'.setFields _ heap.reserve
    · rw [h.cacheEq]
  simp only [if_neg hcache]
  by_cases hbits : SmallSize (zendMmTrueSize size) ∧
      heap.freeBitmap >>> bucketIndex (zendMmTrueSize size) ≠ 0
  · obtain ⟨b, hlast, ⟨hb, hfree, hlisted⟩, hle⟩ := h.smallFit hmin hdvd hbits.2
    obtain ⟨heap', c', hrun, hserved⟩ := h.allocFound hb hfree hlisted hmin hdvd hle
    refine ⟨heap', c', _, ?_, .inl ⟨b, rfl, ?_, hserved⟩⟩
    · simp only [if_pos hbits, hlast]
      exact hrun
    · exact fun hflush => hflush.1.1 ⟨hbits.1, .inr (.inr hbits.2)⟩
  simp only [if_neg hbits]
  obtain ⟨found, hfound, hfits⟩ := h.bestFitFor hmin hlt
  have hneeds : NeedsSegment heap size ↔ found = none := by
    rw [NeedsSegment, hfound, Option.some.injEq]
    apply and_iff_right
    rintro ⟨hs, hl | hl | hl⟩
    · exact hsmall ⟨hs, hl⟩
    · exact hcache ⟨hs, hl⟩
    · exact hbits ⟨hs, hl⟩
  have hrun := allocAfterSearch storage heap (zendMmTrueSize size)
  rw [hfound] at hrun
  cases found with
  | some b =>
    obtain ⟨⟨hb, hfree, hlisted⟩, hle⟩ := hfits b rfl
    obtain ⟨heap', c', hrun', hserved⟩ := h.allocFound hb hfree hlisted hmin hdvd hle
    refine ⟨heap', c', _, hrun.trans hrun', .inl ⟨b, rfl, ?_, hserved⟩⟩
    intro hflush
    cases hneeds.mp hflush.1
  | none =>
    obtain ⟨heap', c', exit, hrun', hend⟩ := h.allocSegment hall hfresh hmin hdvd hlt
    refine ⟨heap', c', exit, hrun.trans hrun', ?_⟩
    have hflush : AllocFlushes storage heap size ↔ SegmentRefused heap (zendMmTrueSize size)
        0 (storage.alloc (segmentSizeFor heap (zendMmTrueSize size))) :=
      and_iff_right (hneeds.mpr rfl)
    rcases hend with ⟨hrefused, hexit, hfailed⟩ | ⟨hgranted, b, hexit, hserved⟩
    · exact .inr ⟨hexit, _, hfailed, .inl ⟨hflush.mpr hrefused, rfl⟩⟩
    · exact .inl ⟨b, hexit, fun hf => hgranted (hflush.mp hf), hserved⟩

end Alloc

end PhpEngine.ZendMm

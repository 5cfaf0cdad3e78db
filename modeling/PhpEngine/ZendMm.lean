/-
The Zend memory manager: `Zend/zend_alloc.c` on a 64-bit build without debugging.
The tags of the blocks are in memory, by address.  The circular lists are lists
in the order of their `next_free_block` pointers and the large free blocks are in
digital trees; which list a block is on is what its pointers tell the source.
What a function does with a block that is on no list is not defined.
-/
import PhpEngine.DigitalTree
import Mathlib.Data.Nat.Log
import Mathlib.Logic.Function.Basic

namespace PhpEngine.ZendMm

open Function

/-- `size_t` has 64 bits. -/
def sizeMod : Nat := 2 ^ 64

/-- `ZEND_MM_ALIGNED_SIZE` -/
def alignedSize (size : Nat) : Nat := (size + 7) % sizeMod / 8 * 8

/-- `ZEND_MM_NUM_BUCKETS` -/
def numBuckets : Nat := 64

/-- `ZEND_MM_CACHE_SIZE` -/
def cacheSize : Nat := numBuckets * 4 * 1024

/-- `ZEND_MM_ALIGNED_HEADER_SIZE` -/
def alignedHeaderSize : Nat := 16

/-- `ZEND_MM_ALIGNED_SEGMENT_SIZE` -/
def alignedSegmentSize : Nat := 16

/-- `ZEND_MM_ALIGNED_MIN_HEADER_SIZE` -/
def alignedMinHeaderSize : Nat := 32

/-- `ZEND_MM_MIN_SIZE` -/
def minSize : Nat := alignedMinHeaderSize - alignedHeaderSize

/-- `ZEND_MM_MAX_SMALL_SIZE` -/
def maxSmallSize : Nat := numBuckets * 8 + alignedMinHeaderSize

/-- `ZEND_MM_MAX_REST_BLOCKS` -/
def maxRestBlocks : Nat := 16

/-- `ZEND_MM_TRUE_SIZE` -/
def zendMmTrueSize (size : Nat) : Nat :=
  if size < minSize then alignedMinHeaderSize
  else alignedSize ((size + alignedHeaderSize) % sizeMod)

/-- `ZEND_MM_BUCKET_INDEX` -/
def bucketIndex (trueSize : Nat) : Nat := trueSize / 8 - alignedMinHeaderSize / 8

/-- `ZEND_MM_SMALL_SIZE` -/
def SmallSize (trueSize : Nat) : Prop := trueSize < maxSmallSize

instance (trueSize : Nat) : Decidable (SmallSize trueSize) :=
  inferInstanceAs (Decidable (_ < _))

/-- `zend_mm_high_bit`, also `ZEND_MM_LARGE_BUCKET_INDEX` -/
def zendMmHighBit (size : Nat) : Nat := size.log2

/-- `zend_mm_low_bit` -/
def zendMmLowBit (bitmap : BitVec 64) : Nat :=
  ((List.range numBuckets).find? fun i => bitmap.getLsbD i).getD 0

/-- `ZEND_MM_FREE_BLOCK`, `ZEND_MM_USED_BLOCK` and `ZEND_MM_GUARD_BLOCK` -/
inductive BlockType where
  | free
  | used
  | guard
deriving Repr, DecidableEq

/-- The value `type | size` of `info._size` or `info._prev`.  The sizes are
multiples of 8 and the type is in the two bits below. -/
structure Tag where
  type : BlockType
  size : Nat
deriving Repr, DecidableEq

abbrev Addr := Nat

structure Segment where
  addr : Addr
  size : Nat
deriving Repr, DecidableEq

abbrev FreeTree := DigitalTree Addr

/-- `zend_mm_heap`, with the block headers in memory. -/
structure Heap where
  infoSize : Addr → Tag
  infoPrev : Addr → Tag
  freeBitmap : BitVec 64
  largeFreeBitmap : BitVec 64
  blockSize : Nat
  segmentsList : List Segment
  realSize : Nat
  limit : Nat
  size : Nat
  reserve : Option Addr
  cached : Nat
  cache : Nat → List Addr
  freeBuckets : Nat → List Addr
  largeFreeBuckets : Nat → FreeTree
  restBuckets : List Addr
  restCount : Nat

section Blocks

variable (heap : Heap)

/-- `ZEND_MM_BLOCK_SIZE` -/
def Heap.sizeOf (b : Addr) : Nat := (heap.infoSize b).size

/-- `ZEND_MM_IS_FREE_BLOCK` -/
def Heap.IsFreeBlock (b : Addr) : Prop := (heap.infoSize b).type = .free

/-- `ZEND_MM_IS_GUARD_BLOCK` -/
def Heap.IsGuardBlock (b : Addr) : Prop := (heap.infoSize b).type = .guard

/-- `ZEND_MM_PREV_BLOCK_IS_FREE` -/
def Heap.PrevBlockIsFree (b : Addr) : Prop := (heap.infoPrev b).type = .free

/-- What `ZEND_MM_MARK_FIRST_BLOCK` writes: the guard type alone. -/
def firstMark : Tag := ⟨.guard, 0⟩

/-- `ZEND_MM_IS_FIRST_BLOCK` -/
def Heap.IsFirstBlock (b : Addr) : Prop := heap.infoPrev b = firstMark

instance (b : Addr) : Decidable (heap.IsFreeBlock b) :=
  inferInstanceAs (Decidable (_ = _))

instance (b : Addr) : Decidable (heap.IsGuardBlock b) :=
  inferInstanceAs (Decidable (_ = _))

instance (b : Addr) : Decidable (heap.PrevBlockIsFree b) :=
  inferInstanceAs (Decidable (_ = _))

instance (b : Addr) : Decidable (heap.IsFirstBlock b) :=
  inferInstanceAs (Decidable (_ = _))

/-- `ZEND_MM_PREV_BLOCK` -/
def Heap.prevBlock (b : Addr) : Addr := b - (heap.infoPrev b).size

/-- `ZEND_MM_DATA_OF` -/
def dataOf (b : Addr) : Addr := b + alignedHeaderSize

/-- `ZEND_MM_HEADER_OF` -/
def headerOf (p : Addr) : Addr := p - alignedHeaderSize

/-- `ZEND_MM_BLOCK` -/
def Heap.setBlock (b : Addr) (type : BlockType) (size : Nat) : Heap :=
  { heap with
    infoSize := update heap.infoSize b ⟨type, size⟩
    infoPrev := update heap.infoPrev (b + size) ⟨type, size⟩ }

/-- `ZEND_MM_LAST_BLOCK` -/
def Heap.lastBlock (b : Addr) : Heap :=
  { heap with
    infoSize := update heap.infoSize b ⟨.guard, alignedHeaderSize⟩ }

/-- `ZEND_MM_MARK_FIRST_BLOCK` -/
def Heap.markFirstBlock (b : Addr) : Heap :=
  { heap with infoPrev := update heap.infoPrev b firstMark }

end Blocks

def setBit (bitmap : BitVec 64) (index : Nat) : BitVec 64 :=
  bitmap ||| (1#64 <<< index)

def clearBit (bitmap : BitVec 64) (index : Nat) : BitVec 64 :=
  bitmap &&& ~~~(1#64 <<< index)

/-! The trees of large free blocks. -/

section Trees

variable (size : Addr → Nat)

/-- The loop of `zend_mm_add_to_free_list`: down along the bits of the size in
`m`, to a block of the same size or to a free place. -/
def treeInsert (b : Addr) : FreeTree → BitVec 64 → FreeTree
  | .nil, _ => .node b [] .nil .nil
  | .node prev ring child₀ child₁, m =>
    if size prev ≠ size b then
      if m.msb then .node prev ring child₀ (treeInsert b child₁ (m <<< 1))
      else .node prev ring (treeInsert b child₀ (m <<< 1)) child₁
    else .node prev (b :: ring) child₀ child₁

/-- The loop of `zend_mm_remove_from_free_list` that goes down, to the right where
there is a way, and takes out the leaf it comes to. -/
def takeLeaf : FreeTree → Option ((Addr × List Addr) × FreeTree)
  | .nil => none
  | .node b ring child₀ child₁ =>
    match takeLeaf child₁ with
    | some (leaf, child₁) => some (leaf, .node b ring child₀ child₁)
    | none =>
      match takeLeaf child₀ with
      | some (leaf, child₀) => some (leaf, .node b ring child₀ child₁)
      | none => some ((b, ring), .nil)

/-- A node without further blocks goes: a leaf from below takes its place. -/
def substLeaf (child₀ child₁ : FreeTree) : FreeTree :=
  match takeLeaf child₁ with
  | some ((b, ring), child₁) => .node b ring child₀ child₁
  | none =>
    match takeLeaf child₀ with
    | some ((b, ring), child₀) => .node b ring child₀ child₁
    | none => .nil

/-- The tree without the block: another one of its size takes the place of a
node. -/
def treeRemove (b : Addr) : FreeTree → FreeTree
  | .nil => .nil
  | .node head ring child₀ child₁ =>
    if head = b then
      match ring.getLast? with
      | none => substLeaf child₀ child₁
      | some prev => .node prev ring.dropLast child₀ child₁
    else if b ∈ ring then .node head (ring.erase b) child₀ child₁
    else .node head ring (treeRemove b child₀) (treeRemove b child₁)

/-- `next_free_block` of a node. -/
def nextFreeBlock (head : Addr) (ring : List Addr) : Addr := ring.head?.getD head

/-- `best_size` and the block that `best_fit` leads to. -/
structure BestFit where
  size : Nat
  block : Option Addr

variable (trueSize : Nat)

/-- The first loop of `zend_mm_search_large_block`: down along the bits of the
size.  It returns with a block of that size, or ends with the best fit so far and
the last right child that was passed by. -/
def searchDown : FreeTree → BitVec 64 → BestFit → FreeTree → Except Addr (BestFit × FreeTree)
  | .nil, _, best, rst => .ok (best, rst)
  | .node p ring child₀ child₁, m, best, rst =>
    if size p = trueSize then .error (nextFreeBlock p ring)
    else
      let best := if size p ≥ trueSize ∧ size p < best.size then
        ⟨size p, some (nextFreeBlock p ring)⟩ else best
      if m.msb then searchDown child₁ (m <<< 1) best rst
      else
        searchDown child₀ (m <<< 1) best (if child₁ = .nil then rst else child₁)

/-- The second loop, from that right child on: `p->child[p->child[0] != NULL]`. -/
def searchRst : FreeTree → BestFit → Except Addr BestFit
  | .nil, best => .ok best
  | .node p ring child₀ child₁, best =>
    if size p = trueSize then .error (nextFreeBlock p ring)
    else
      let best := if size p > trueSize ∧ size p < best.size then
        ⟨size p, some (nextFreeBlock p ring)⟩ else best
      if child₀ = .nil then .ok best else searchRst child₁ best

/-- The last loop, over the tree of a higher bucket. -/
def searchSmallest : FreeTree → BestFit → BestFit
  | .nil, best => best
  | .node p ring child₀ child₁, best =>
    let best := if size p < best.size then
      ⟨size p, some (nextFreeBlock p ring)⟩ else best
    if child₀ = .nil then best else searchSmallest child₁ best

end Trees

/-- `zend_mm_search_large_block`.  Where a bit of the bitmap is set without a tree
the outcome is not defined. -/
def zendMmSearchLargeBlock (heap : Heap) (trueSize : Nat) : Option (Option Addr) :=
  let index := zendMmHighBit trueSize
  let bitmap := heap.largeFreeBitmap >>> index
  -- The first block of the first tree is the best fit to begin with.
  let smallest (bitmap : BitVec 64) (index : Nat) : Option (Option Addr) :=
    match heap.largeFreeBuckets (index + zendMmLowBit bitmap) with
    | .nil => none
    | .node p ring child₀ child₁ =>
      let best : BestFit := ⟨heap.sizeOf p, some (nextFreeBlock p ring)⟩
      some (if child₀ = .nil then best
        else searchSmallest heap.sizeOf child₁ best).block
  if bitmap = 0 then some none
  else if bitmap.getLsbD 0 then
    match heap.largeFreeBuckets index with
    | .nil => none
    | tree =>
      let m := BitVec.ofNat 64 trueSize <<< (numBuckets - index)
      match searchDown heap.sizeOf trueSize tree m ⟨sizeMod - 1, none⟩ .nil with
      | .error b => some (some b)
      | .ok (best, rst) =>
        match searchRst heap.sizeOf trueSize rst best with
        | .error b => some (some b)
        | .ok best =>
          match best.block with
          | some b => some (some b)
          | none =>
            let bitmap := bitmap >>> 1
            if bitmap = 0 then some none else smallest bitmap (index + 1)
  else smallest bitmap index

/-! The free lists. -/

/-- `zend_mm_add_to_free_list` -/
def zendMmAddToFreeList (heap : Heap) (b : Addr) : Heap :=
  let size := heap.sizeOf b
  if ¬SmallSize size then
    let index := zendMmHighBit size
    let tree := heap.largeFreeBuckets index
    let m := BitVec.ofNat 64 size <<< (numBuckets - index)
    { heap with
      largeFreeBuckets := update heap.largeFreeBuckets index (treeInsert heap.sizeOf b tree m)
      largeFreeBitmap := if tree = .nil then setBit heap.largeFreeBitmap index
        else heap.largeFreeBitmap }
  else
    let index := bucketIndex size
    { heap with
      freeBitmap := if heap.freeBuckets index = [] then setBit heap.freeBitmap index
        else heap.freeBitmap
      freeBuckets := update heap.freeBuckets index (b :: heap.freeBuckets index) }

/-- `zend_mm_remove_from_free_list`.  A small block is on the list of its size or
among the rest blocks, and in either case its pointers are equal when it is the
only one there. -/
def zendMmRemoveFromFreeList (heap : Heap) (b : Addr) : Option Heap :=
  let size := heap.sizeOf b
  if SmallSize size then
    let index := bucketIndex size
    let clear (alone : Bool) (heap : Heap) : Heap :=
      if alone ∧ (heap.freeBuckets index).length ≤ 1 then
        { heap with freeBitmap := clearBit heap.freeBitmap index }
      else heap
    if b ∈ heap.freeBuckets index then
      some (clear (heap.freeBuckets index = [b]) { heap with
          freeBuckets := update heap.freeBuckets index ((heap.freeBuckets index).erase b) })
    else if b ∈ heap.restBuckets then
      some (clear (heap.restBuckets = [b]) { heap with restBuckets := heap.restBuckets.erase b })
    else none
  else if b ∈ heap.restBuckets then
    some { heap with
        restBuckets := heap.restBuckets.erase b
        restCount := heap.restCount - 1 }
  else
    let index := zendMmHighBit size
    let tree := heap.largeFreeBuckets index
    if b ∈ tree.elems then
      some { heap with
          largeFreeBuckets := update heap.largeFreeBuckets index (treeRemove b tree)
          largeFreeBitmap := if treeRemove b tree = .nil then
            clearBit heap.largeFreeBitmap index else heap.largeFreeBitmap }
    else none

/-- The loop of `zend_mm_add_to_rest_list`: the oldest rest blocks go to the free
lists. -/
def flushRest : List Addr → Heap → Option Heap
  | [], heap => if heap.restCount ≥ maxRestBlocks then none else some heap
  | p :: rest, heap =>
    if heap.restCount ≥ maxRestBlocks then
      flushRest rest (zendMmAddToFreeList { heap with
          restBuckets := rest
          restCount := if SmallSize (heap.sizeOf p) then heap.restCount
            else heap.restCount - 1 } p)
    else some heap

/-- `zend_mm_add_to_rest_list` -/
def zendMmAddToRestList (heap : Heap) (b : Addr) : Option Heap := do
  let heap ← flushRest heap.restBuckets heap
  return { heap with
    restBuckets := heap.restBuckets ++ [b]
    restCount := if SmallSize (heap.sizeOf b) then heap.restCount
      else heap.restCount + 1 }

/-- `zend_mm_init` and the start values of `zend_mm_startup_ex` before the reserve
is allocated. -/
def zendMmStartup (blockSize limit : Nat) (infoSize infoPrev : Addr → Tag) : Heap :=
  { infoSize := infoSize
    infoPrev := infoPrev
    freeBitmap := 0
    largeFreeBitmap := 0
    blockSize := blockSize
    segmentsList := []
    realSize := 0
    limit := limit
    size := 0
    reserve := none
    cached := 0
    cache := fun _ => []
    freeBuckets := fun _ => []
    largeFreeBuckets := fun _ => .nil
    restBuckets := []
    restCount := 0 }

/-- `zend_mm_del_segment` -/
def zendMmDelSegment (heap : Heap) (segment : Addr) : Option Heap := do
  let s ← heap.segmentsList.find? (·.addr = segment)
  return { heap with
    segmentsList := heap.segmentsList.erase s
    realSize := heap.realSize - s.size }

/-- The body of the loop of `zend_mm_free_cache`. -/
def freeCachedBlock (heap : Heap) (b : Addr) : Option Heap := do
  let size := heap.sizeOf b
  let nextBlock := b + size
  let heap := { heap with cached := heap.cached - size }
  let (heap, b, size) ←
    if heap.PrevBlockIsFree b then
      let prev := heap.prevBlock b
      (zendMmRemoveFromFreeList heap prev).map (·, prev, size + heap.sizeOf prev)
    else some (heap, b, size)
  let (heap, size) ←
    if heap.IsFreeBlock nextBlock then
      (zendMmRemoveFromFreeList heap nextBlock).map (·, size + heap.sizeOf nextBlock)
    else some (heap, size)
  let heap := heap.setBlock b .free size
  if heap.IsFirstBlock b ∧ heap.IsGuardBlock (b + size) then
    zendMmDelSegment heap (b - alignedSegmentSize)
  else return zendMmAddToFreeList heap b

/-- One round of `zend_mm_free_cache`. -/
def freeCacheList (heap : Heap) (i : Nat) : Option Heap := do
  let heap ← (heap.cache i).foldlM freeCachedBlock heap
  return { heap with cache := update heap.cache i [] }

/-- `zend_mm_free_cache` -/
def zendMmFreeCache (heap : Heap) : Option Heap :=
  (List.range numBuckets).foldlM freeCacheList heap

/-- `_zend_mm_free_int` -/
def zendMmFreeInt (heap : Heap) (p : Addr) : Option Heap :=
  let b := headerOf p
  let size := heap.sizeOf b
  if SmallSize size ∧ heap.cached < cacheSize then
    let index := bucketIndex size
    some { heap with
        cache := update heap.cache index (b :: heap.cache index)
        cached := heap.cached + size }
  else do
    let heap := { heap with size := heap.size - size }
    let nextBlock := b + size
    let (heap, size) ←
      if heap.IsFreeBlock nextBlock then
        (zendMmRemoveFromFreeList heap nextBlock).map (·, size + heap.sizeOf nextBlock)
      else some (heap, size)
    let (heap, b, size) ←
      if heap.PrevBlockIsFree b then
        let prev := heap.prevBlock b
        (zendMmRemoveFromFreeList heap prev).map (·, prev, size + heap.sizeOf prev)
      else some (heap, b, size)
    if heap.IsFirstBlock b ∧ heap.IsGuardBlock (b + size) then
      zendMmDelSegment heap (b - alignedSegmentSize)
    else return zendMmAddToFreeList (heap.setBlock b .free size) b

/-- How a call ends: with a pointer, or with an error that does not return. -/
inductive Exit where
  | returned (p : Addr)
  | memoryLimit
  | outOfMemory
deriving Repr, DecidableEq

/-- `zend_mm_safe_error`, up to the error: the reserve is given back. -/
def zendMmSafeError (heap : Heap) : Option Heap :=
  match heap.reserve with
  | none => some heap
  | some p => (zendMmFreeInt heap p).map fun heap => { heap with reserve := none }

/-- What the storage answers to the requests of one call. -/
structure Storage where
  alloc : Nat → Option Addr
  realloc : Addr → Nat → Option Addr

/-- The size of the segment for a block of that size. -/
def segmentSizeFor (heap : Heap) (trueSize : Nat) : Nat :=
  if trueSize > heap.blockSize - (alignedSegmentSize + alignedHeaderSize) then
    let size := (trueSize + alignedSegmentSize + alignedHeaderSize) % sizeMod
    (size + (heap.blockSize - 1)) % sizeMod / heap.blockSize * heap.blockSize
  else heap.blockSize

/-- `keep_rest` is set for a segment of its own size. -/
def keepRest (heap : Heap) (trueSize : Nat) : Bool :=
  trueSize > heap.blockSize - (alignedSegmentSize + alignedHeaderSize)

/-- The search through the rest blocks, from the newest to the oldest. -/
def searchRest (heap : Heap) (trueSize : Nat) : List Addr → BestFit → Option Addr
  | [], best => best.block
  | p :: rest, best =>
    if heap.sizeOf p = trueSize then some p
    else if heap.sizeOf p > trueSize ∧ heap.sizeOf p < best.size then
      searchRest heap trueSize rest ⟨heap.sizeOf p, some p⟩
    else searchRest heap trueSize rest best

/-- The end of `_zend_mm_alloc_int`: the block is used, and what remains of it is
a new free block. -/
def allocBlock (heap : Heap) (b blockSize trueSize : Nat) (keepRest : Bool) :
    Option (Heap × Exit) := do
  let remaining := blockSize - trueSize
  if remaining < alignedMinHeaderSize then
    let heap := heap.setBlock b .used blockSize
    return ({ heap with size := heap.size + blockSize }, .returned (dataOf b))
  else
    let heap := heap.setBlock b .used trueSize
    let heap := heap.setBlock (b + trueSize) .free remaining
    let heap ← if keepRest then zendMmAddToRestList heap (b + trueSize)
      else some (zendMmAddToFreeList heap (b + trueSize))
    return ({ heap with size := heap.size + trueSize }, .returned (dataOf b))

/-- A free block that was found is taken from its list. -/
def allocFound (heap : Heap) (b trueSize : Nat) : Option (Heap × Exit) := do
  let heap ← zendMmRemoveFromFreeList heap b
  allocBlock heap b (heap.sizeOf b) trueSize false

/-- A block in a new segment. -/
def allocSegment (storage : Storage) (heap : Heap) (trueSize : Nat) : Option (Heap × Exit) := do
  let segmentSize := segmentSizeFor heap trueSize
  if segmentSize < trueSize ∨ (heap.realSize + segmentSize) % sizeMod > heap.limit then
    let heap ← zendMmFreeCache heap
    let heap ← zendMmSafeError heap
    return (heap, .memoryLimit)
  else
    match storage.alloc segmentSize with
    | none =>
      let heap ← zendMmFreeCache heap
      let heap ← zendMmSafeError heap
      return (heap, .outOfMemory)
    | some segment =>
      let keepRest := keepRest heap trueSize
      let heap := { heap with
        realSize := heap.realSize + segmentSize
        segmentsList := ⟨segment, segmentSize⟩ :: heap.segmentsList }
      let b := segment + alignedSegmentSize
      let heap := heap.markFirstBlock b
      let blockSize := segmentSize - alignedSegmentSize - alignedHeaderSize
      let heap := heap.lastBlock (b + blockSize)
      allocBlock heap b blockSize trueSize keepRest

/-- `_zend_mm_alloc_int` -/
def zendMmAllocInt (storage : Storage) (heap : Heap) (size : Nat) : Option (Heap × Exit) := do
  let trueSize := zendMmTrueSize size
  let index := bucketIndex trueSize
  if SmallSize trueSize ∧ trueSize < size then
    let heap ← zendMmSafeError heap
    return (heap, .outOfMemory)
  else if SmallSize trueSize ∧ heap.cache index ≠ [] then
    let b ← (heap.cache index).head?
    return ({ heap with
      cache := update heap.cache index (heap.cache index).tail
      cached := heap.cached - trueSize }, .returned (dataOf b))
  else if SmallSize trueSize ∧ heap.freeBitmap >>> index ≠ 0 then
    let b ← (heap.freeBuckets (index + zendMmLowBit (heap.freeBitmap >>> index))).getLast?
    allocFound heap b trueSize
  else
    let found ← zendMmSearchLargeBlock heap trueSize
    let bestFit :=
      if found = none ∧ heap.realSize ≥ heap.limit - heap.blockSize then
        searchRest heap trueSize heap.restBuckets.reverse ⟨sizeMod - 1, none⟩
      else found
    match bestFit with
    | some b => allocFound heap b trueSize
    | none => allocSegment storage heap trueSize

/-- The part of `_zend_mm_realloc_int` behind `realloc_segment`. -/
def reallocSegment (storage : Storage) (heap : Heap) (b origSize trueSize : Nat) :
    Option (Heap × Exit) := do
  let nextBlock := b + origSize
  let segmentSize := segmentSizeFor heap trueSize
  let segmentCopy ← heap.segmentsList.find? (·.addr = b - alignedSegmentSize)
  if segmentSize < trueSize ∨
      (heap.realSize + segmentSize - segmentCopy.size) % sizeMod > heap.limit then
    let heap := if heap.IsFreeBlock nextBlock then zendMmAddToFreeList heap nextBlock
      else heap
    let heap ← zendMmFreeCache heap
    let heap ← zendMmSafeError heap
    return (heap, .memoryLimit)
  else
    match storage.realloc segmentCopy.addr segmentSize with
    | none =>
      let heap ← zendMmFreeCache heap
      let heap ← zendMmSafeError heap
      return (heap, .outOfMemory)
    | some segment =>
      let heap := { heap with
        realSize := heap.realSize + segmentSize - segmentCopy.size
        segmentsList := heap.segmentsList.map fun s =>
          if s = segmentCopy then ⟨segment, segmentSize⟩ else s }
      let b := segment + alignedSegmentSize
      let heap := heap.markFirstBlock b
      let blockSize := segmentSize - alignedSegmentSize - alignedHeaderSize
      let remaining := blockSize - trueSize
      let heap := heap.lastBlock (b + blockSize)
      if remaining < alignedMinHeaderSize then
        let heap := heap.setBlock b .used blockSize
        return ({ heap with size := heap.size + blockSize - origSize }, .returned (dataOf b))
      else
        let heap := heap.setBlock b .used trueSize
        let heap := heap.setBlock (b + trueSize) .free remaining
        let heap ← zendMmAddToRestList heap (b + trueSize)
        return ({ heap with size := heap.size + trueSize - origSize }, .returned (dataOf b))

/-- A block that shrinks: what remains is a free block, with the one behind it. -/
def reallocShrink (heap : Heap) (p b origSize trueSize : Nat) : Option (Heap × Exit) := do
  let remaining := origSize - trueSize
  if remaining ≥ alignedMinHeaderSize then
    let nextBlock := b + origSize
    let (heap, remaining) ←
      if heap.IsFreeBlock nextBlock then
        (zendMmRemoveFromFreeList heap nextBlock).map (·, remaining + heap.sizeOf nextBlock)
      else some (heap, remaining)
    let heap := heap.setBlock b .used trueSize
    let heap := heap.setBlock (b + trueSize) .free remaining
    let heap := zendMmAddToFreeList heap (b + trueSize)
    return ({ heap with size := heap.size + trueSize - origSize }, .returned p)
  else return (heap, .returned p)

/-- A block that grows into the free block behind it. -/
def reallocGrow (heap : Heap) (p b origSize trueSize : Nat) : Option (Heap × Exit) := do
  let nextBlock := b + origSize
  let blockSize := origSize + heap.sizeOf nextBlock
  let remaining := blockSize - trueSize
  let heap ← zendMmRemoveFromFreeList heap nextBlock
  if remaining < alignedMinHeaderSize then
    let heap := heap.setBlock b .used blockSize
    return ({ heap with size := heap.size + blockSize - origSize }, .returned p)
  else
    let heap := heap.setBlock b .used trueSize
    let heap := heap.setBlock (b + trueSize) .free remaining
    let heap ←
      if heap.IsFirstBlock b ∧ heap.IsGuardBlock (b + trueSize + remaining) then
        zendMmAddToRestList heap (b + trueSize)
      else some (zendMmAddToFreeList heap (b + trueSize))
    return ({ heap with size := heap.size + trueSize - origSize }, .returned p)

/-- A cached block of the new size takes over, and the old block is cached. -/
def reallocCached (heap : Heap) (b origSize trueSize : Nat) : Option (Heap × Exit) := do
  let index := bucketIndex trueSize
  let best ← (heap.cache index).head?
  let cache := update heap.cache index (heap.cache index).tail
  let index := bucketIndex origSize
  return ({ heap with
    cached := heap.cached - (trueSize - origSize)
    cache := update cache index (b :: cache index) }, .returned (dataOf best))

/-- The last resort: a new block, and the old one is freed. -/
def reallocMove (storage : Storage) (heap : Heap) (p size : Nat) : Option (Heap × Exit) := do
  let (heap, exit) ← zendMmAllocInt storage heap size
  match exit with
  | .returned ptr =>
    let heap ← zendMmFreeInt heap p
    return (heap, .returned ptr)
  | exit => return (heap, exit)

/-- `_zend_mm_realloc_int` of a pointer that is not null -/
def zendMmReallocInt (storage : Storage) (heap : Heap) (p size : Nat) : Option (Heap × Exit) := do
  let b := headerOf p
  let trueSize := zendMmTrueSize size
  let origSize := heap.sizeOf b
  if trueSize < size then
    let heap ← zendMmSafeError heap
    return (heap, .outOfMemory)
  else if trueSize ≤ origSize then reallocShrink heap p b origSize trueSize
  else if SmallSize trueSize ∧ heap.cache (bucketIndex trueSize) ≠ [] then
    reallocCached heap b origSize trueSize
  else
    let nextBlock := b + origSize
    if heap.IsFreeBlock nextBlock then
      if origSize + heap.sizeOf nextBlock ≥ trueSize then
        reallocGrow heap p b origSize trueSize
      else if heap.IsFirstBlock b ∧ heap.IsGuardBlock (nextBlock + heap.sizeOf nextBlock) then
        let heap ← zendMmRemoveFromFreeList heap nextBlock
        reallocSegment storage heap b origSize trueSize
      else reallocMove storage heap p size
    else if heap.IsFirstBlock b ∧ heap.IsGuardBlock nextBlock then
      reallocSegment storage heap b origSize trueSize
    else reallocMove storage heap p size

end PhpEngine.ZendMm

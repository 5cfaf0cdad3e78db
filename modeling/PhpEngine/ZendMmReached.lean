/-
What holds of every heap that a run reaches: the tiling of the segments, the lists
of the free blocks and the counters.
-/
import PhpEngine.ZendMmRuns

namespace PhpEngine.ZendMm

open Option

/-! The free structures. -/

inductive FreeStructure where
  | small (index : Nat)
  | large (index : Nat)
  | rest
deriving Repr, DecidableEq

def Heap.members (heap : Heap) : FreeStructure → List Addr
  | .small index => heap.freeBuckets index
  | .large index => (heap.largeFreeBuckets index).elems
  | .rest => heap.restBuckets

/-- The blocks that lead from the first block of a segment to its guard block. -/
inductive Heap.IsBlock (heap : Heap) : Nat → Prop
  | first {s : Segment} (hs : s ∈ heap.segmentsList) : Heap.IsBlock heap s.first
  | next {b : Nat} (hb : Heap.IsBlock heap b) (hnext : ¬heap.IsGuardBlock (b + heap.sizeOf b)) :
      Heap.IsBlock heap (b + heap.sizeOf b)

/-- Every block marked free is a member of exactly one free structure. -/
def AllListed (heap : Heap) : Prop :=
  ∀ b, heap.IsBlock b → heap.IsFreeBlock b → ∃! f, b ∈ heap.members f

section Listed

variable {heap heap' : Heap} {c c' : Census} {b : Nat}

theorem Tiled.isBlock_iff {B : Finset Nat} (h : Tiled heap B) : heap.IsBlock b ↔ b ∈ B := by
  constructor
  · intro hb
    induction hb with
    | first hs => exact (h.first _ hs).1
    | next _ hnext ih =>
      obtain ⟨s, hs, hholds, -⟩ := h.holds ih
      exact (h.next s hs _ ih hholds).resolve_right fun heq => hnext (heq ▸ h.last s hs)
  · intro hb
    induction b using Nat.strong_induction_on with
    | _ b ih =>
      obtain ⟨s, hs, hholds, -⟩ := h.holds hb
      by_cases hfirst : b = s.first
      · rw [hfirst]
        exact .first hs
      · obtain ⟨a, ha, hend⟩ := h.before hs hb hholds hfirst
        have hsize := h.size_ge ha
        rw [← hend]
        apply Heap.IsBlock.next (ih a (by omega) ha)
        rw [hend]
        exact h.kind b hb

theorem FreeLists.listedOnce {F : Addr → Prop} (h : FreeLists heap F) (hb : F b) :
    ∃! f, b ∈ heap.members f ∧ (f = .small (bucketIndex (heap.sizeOf b)) ∨
      f = .large (zendMmHighBit (heap.sizeOf b)) ∨ f = .rest) := by
  have hlargeIndex : ∀ i, b ∈ (heap.largeFreeBuckets i).elems →
      i = zendMmHighBit (heap.sizeOf b) := fun i hi =>
    (h.toLargeTrees.index_eq hi).symm
  rcases (h.mem b).mp hb with hsmall | ⟨i, hlarge⟩ | hrest
  · refine ⟨.small (bucketIndex (heap.sizeOf b)), ⟨hsmall, .inl rfl⟩, ?_⟩
    rintro f ⟨hf, rfl | rfl | rfl⟩
    · rfl
    · exact absurd (h.small _ _ hsmall).1 (h.large b ⟨_, hf⟩)
    · exact absurd hsmall (h.restApart b hf).1
  · have hi := hlargeIndex i hlarge
    refine ⟨.large i, ⟨hlarge, .inr (.inl (by rw [hi]))⟩, ?_⟩
    rintro f ⟨hf, rfl | rfl | rfl⟩
    · exact absurd (h.small _ _ hf).1 (h.large b ⟨_, hlarge⟩)
    · rw [hi]
    · exact absurd ⟨i, hlarge⟩ (h.restApart b hf).2
  · refine ⟨.rest, ⟨hrest, .inr (.inr rfl)⟩, ?_⟩
    rintro f ⟨hf, rfl | rfl | rfl⟩
    · exact absurd hf (h.restApart b hrest).1
    · exact absurd ⟨_, hf⟩ (h.restApart b hrest).2
    · rfl

theorem FreeLists.members_place {F : Addr → Prop} (h : FreeLists heap F) {f : FreeStructure}
    (hb : b ∈ heap.members f) : F b ∧ (f = .small (bucketIndex (heap.sizeOf b)) ∨
      f = .large (zendMmHighBit (heap.sizeOf b)) ∨ f = .rest) := by
  cases f with
  | small i =>
    refine ⟨h.mem_small hb, .inl ?_⟩
    rw [(h.small i b hb).2]
  | large i =>
    refine ⟨(h.mem b).mpr (.inr (.inl ⟨i, hb⟩)), .inr (.inl ?_)⟩
    rw [h.toLargeTrees.index_eq hb]
  | rest => exact ⟨(h.mem b).mpr (.inr (.inr hb)), .inr (.inr rfl)⟩

theorem FreeLists.existsUnique {F : Addr → Prop} (h : FreeLists heap F) (hb : F b) :
    ∃! f, b ∈ heap.members f := by
  obtain ⟨f, ⟨hf, -⟩, hunique⟩ := h.listedOnce hb
  exact ⟨f, hf, fun f' hf' => hunique f' ⟨hf', (h.members_place hf').2⟩⟩

theorem HeapInv.allListed_iff (h : HeapInv heap c) : AllListed heap ↔ c.unlisted = ∅ := by
  constructor
  · intro hall
    rw [Finset.eq_empty_iff_forall_notMem]
    intro b hb
    obtain ⟨hin, hfree⟩ := h.unlisted b hb
    obtain ⟨f, hf, -⟩ := hall b (h.toTiled.isBlock_iff.mpr hin) hfree
    exact (h.lists.members_place hf).1.2.2 hb
  · intro hempty b hb hfree
    apply h.lists.existsUnique
    refine ⟨h.toTiled.isBlock_iff.mp hb, hfree, ?_⟩
    rw [hempty]
    exact Finset.notMem_empty b

end Listed

/-! The error exits of a reallocation. -/

section Errors

variable {heap heap' : Heap} {c : Census} {b size : Nat} {storage : Storage} {exit : Exit}

/-- After an error exit all free blocks are listed just when the storage has not been
denied with the block behind in hand. -/
theorem zendMmReallocInt_allListed_iff (h : Ready heap c) (hlisted : c.unlisted = ∅)
    (hfresh : storage.Fresh heap) (hb : b ∈ c.live) (hreserve : c.reserve ≠ some (dataOf b))
    (hrun : zendMmReallocInt storage heap (dataOf b) size = some (heap', exit))
    (hexit : ∀ p, exit ≠ .returned p) : AllListed heap' ↔ ¬LosesNext storage heap b size := by
  obtain ⟨heap₁, c', exit₁, hrun₁, hend⟩ := h.realloc hlisted hfresh hb hreserve size
  rw [hrun, Option.some.injEq, Prod.mk.injEq] at hrun₁
  obtain ⟨rfl, rfl⟩ := hrun₁
  rcases hend with ⟨-, -, b', hret, -⟩ |
    ⟨-, ⟨-, hloses, hfailed⟩ | ⟨-, hloses, hfailed⟩ | ⟨-, hloses, hfailed⟩⟩
  · exact absurd hret (hexit _)
  · rw [hfailed.ready.toHeapInv.allListed_iff]
    exact iff_of_true (hfailed.unlisted.trans hlisted) hloses
  · rw [hfailed.ready.toHeapInv.allListed_iff]
    exact iff_of_true (hfailed.unlisted.trans hlisted) hloses
  · rw [hfailed.ready.toHeapInv.allListed_iff, hfailed.unlisted]
    exact iff_of_false (Finset.singleton_ne_empty _) (not_not.mpr hloses)

end Errors

/-- One piece of memory. -/
def onePiece : Storage := ⟨fun _ => some 4096, fun _ _ => none⟩

/-- No memory at all. -/
def noMemory : Storage := ⟨fun _ => none, fun _ _ => none⟩

theorem noMemory_fresh (heap : Heap) : noMemory.Fresh heap :=
  ⟨fun _ _ h => absurd h (by simp [noMemory]), fun _ _ _ _ h => absurd h (by simp [noMemory])⟩

/-- An empty heap with pages of 256 bytes. -/
def smallPages : Heap := zendMmStartup 256 1024 (fun _ => ⟨.free, 0⟩) fun _ => ⟨.free, 0⟩

theorem smallPages_ready : Ready smallPages
    { blocks := ∅, live := ∅, unlisted := ∅, cache := fun _ => [], reserve := none,
      drift := 0 } := startup_ready _ _ _ ⟨8, by decide, by decide, by decide⟩

theorem onePiece_fresh : onePiece.Fresh smallPages :=
  ⟨fun _ _ _ _ hs => absurd hs List.not_mem_nil, fun _ hs => absurd hs List.not_mem_nil⟩

/-- The heap after the first allocation, of a block with a free block behind it. -/
theorem smallPages_alloc :
    ∃ heap c, zendMmAllocInt onePiece smallPages 64 = some (heap, .returned (dataOf 4112)) ∧
      Ready heap c ∧ c.unlisted = ∅ ∧ 4112 ∈ c.live ∧ c.reserve = none := by
  have hexit : (zendMmAllocInt onePiece smallPages 64).map (·.2) =
      some (.returned (dataOf 4112)) := by decide
  obtain ⟨heap, c, exit, hrun, hend⟩ := smallPages_ready.alloc rfl onePiece_fresh 64
  rw [hrun, map_some, Option.some.injEq] at hexit
  obtain rfl : exit = .returned (dataOf 4112) := hexit
  refine ⟨heap, c, hrun, ?_⟩
  rcases hend with ⟨b, hb, -, hserved⟩ | ⟨hnot, -⟩
  · have hb : b = 4112 := by
      have := Exit.returned.inj hb
      rw [dataOf, dataOf, Nat.add_right_cancel_iff] at this
      exact this.symm
    subst hb
    refine ⟨hserved.ready, hserved.unlisted, ?_, hserved.reserve⟩
    rw [hserved.live]
    exact Finset.mem_insert_self _ _
  · exact absurd rfl (hnot _)

theorem zendMmReallocInt_allListed_iff_smallPages :
    ∃ heap heap', zendMmAllocInt onePiece smallPages 64 = some (heap, .returned (dataOf 4112)) ∧
      zendMmReallocInt noMemory heap (dataOf 4112) 400 = some (heap', .outOfMemory) ∧
      (AllListed heap' ↔ ¬LosesNext noMemory heap 4112 400) := by
  have hexit : ((zendMmAllocInt onePiece smallPages 64).bind fun x =>
      (zendMmReallocInt noMemory x.1 (dataOf 4112) 400).map (·.2)) = some .outOfMemory := by decide
  obtain ⟨heap, c, hrun, hready, hlisted, hlive, hres⟩ := smallPages_alloc
  rw [hrun, bind_some, map_eq_some_iff] at hexit
  obtain ⟨⟨heap', exit⟩, hrun', rfl⟩ := hexit
  exact ⟨heap, heap', hrun, hrun', zendMmReallocInt_allListed_iff hready hlisted
    (noMemory_fresh heap) hlive (by simp [hres]) hrun' (by simp)⟩

/-- The storage has no memory for a larger segment: the free block behind the block is
on no list any more. -/
theorem smallPages_not_allListed :
    ∃ heap c heap', Ready heap c ∧ c.unlisted = ∅ ∧ noMemory.Fresh heap ∧ 4112 ∈ c.live ∧
      c.reserve = none ∧
      zendMmReallocInt noMemory heap (dataOf 4112) 400 = some (heap', .outOfMemory) ∧
      ¬AllListed heap' := by
  have hloses : (zendMmAllocInt onePiece smallPages 64).map
      (fun x => decide (LosesNext noMemory x.1 4112 400)) = some true := by decide
  have hexit : ((zendMmAllocInt onePiece smallPages 64).bind fun x =>
      (zendMmReallocInt noMemory x.1 (dataOf 4112) 400).map (·.2)) = some .outOfMemory := by decide
  obtain ⟨heap, c, hrun, hready, hlisted, hlive, hres⟩ := smallPages_alloc
  rw [hrun, map_some, Option.some.injEq, decide_eq_true_eq] at hloses
  rw [hrun, bind_some] at hexit
  obtain ⟨heap', c', exit, hrun', hend⟩ := hready.realloc hlisted (noMemory_fresh heap) hlive
    (by simp [hres]) 400
  rw [hrun', map_some, Option.some.injEq] at hexit
  obtain rfl : exit = .outOfMemory := hexit
  refine ⟨heap, c, heap', hready, hlisted, noMemory_fresh heap, hlive, hres, hrun', ?_⟩
  rcases hend with ⟨-, hnot, -⟩ | ⟨-, ⟨-, hnot, -⟩ | ⟨-, hnot, -⟩ | ⟨-, -, hfailed⟩⟩
  · exact absurd hloses hnot
  · exact absurd hloses hnot
  · exact absurd hloses hnot
  · rw [hfailed.ready.toHeapInv.allListed_iff, hfailed.unlisted]
    exact Finset.singleton_ne_empty _

/-! The tiling of the segments. -/

/-- Blocks from `a` up to `e`, each with its size in the header of the one behind. -/
inductive Heap.Chain (heap : Heap) : Nat → List Nat → Nat → Prop
  | nil (a : Nat) : Heap.Chain heap a [] a
  | cons {a e : Nat} {l : List Nat} (hkind : ¬heap.IsGuardBlock a) (hsize : 0 < heap.sizeOf a)
      (hprev : heap.infoPrev (a + heap.sizeOf a) = heap.infoSize a)
      (hrest : Heap.Chain heap (a + heap.sizeOf a) l e) : Heap.Chain heap a (a :: l) e

/-- What the blocks of the caller take of the memory. -/
def Allocation.Apart (heap : Heap) (a a' : Allocation) : Prop :=
  headerOf a.ptr + heap.sizeOf (headerOf a.ptr) ≤ headerOf a'.ptr ∨
    headerOf a'.ptr + heap.sizeOf (headerOf a'.ptr) ≤ headerOf a.ptr

/-- The blocks tile their segments, and each is where its kind says. -/
structure WellTiled (s : MmState) : Prop where
  segments : ∀ g ∈ s.heap.segmentsList, s.heap.IsFirstBlock g.first ∧
    s.heap.IsGuardBlock g.guard ∧ ∃ l, s.heap.Chain g.first l g.guard
  apart : s.allocations.Pairwise (Allocation.Apart s.heap)
  room : ∀ a ∈ s.allocations, zendMmTrueSize a.size ≤ s.heap.sizeOf (headerOf a.ptr)
  free : ∀ b, s.heap.IsBlock b → s.heap.IsFreeBlock b →
    ∃! f, b ∈ s.heap.members f ∧ (f = .small (bucketIndex (s.heap.sizeOf b)) ∨
      f = .large (zendMmHighBit (s.heap.sizeOf b)) ∨ f = .rest)
  cached : ∀ i, ∀ b ∈ s.heap.cache i, s.heap.IsUsedBlock b ∧ SmallSize (s.heap.sizeOf b) ∧
    bucketIndex (s.heap.sizeOf b) = i
  settled : ∀ b, s.heap.IsBlock b → s.heap.IsFreeBlock b → ¬s.heap.IsFreeBlock (b + s.heap.sizeOf b)

section Tiling

variable {heap : Heap} {s : MmState} {c : Census}

theorem Tiled.chain {B : Finset Nat} (h : Tiled heap B) {g : Segment}
    (hg : g ∈ heap.segmentsList) {n a : Nat} (hn : g.guard ≤ a + n) (ha : a ∈ B)
    (hholds : g.Holds a) : ∃ l, heap.Chain a l g.guard := by
  induction n generalizing a with
  | zero =>
    have := hholds.2
    omega
  | succ n ih =>
    have hsize := h.size_ge ha
    have hend := h.end_le hg ha hholds
    have hcons : ∀ {l}, heap.Chain (a + heap.sizeOf a) l g.guard → heap.Chain a (a :: l) g.guard :=
      fun hrest => .cons (h.kind a ha) (by omega) (h.boundary a ha) hrest
    rcases h.next g hg a ha hholds with hnext | hguard
    · have hne : a + heap.sizeOf a ≠ g.guard := fun heq =>
        h.kind _ hnext (heq ▸ h.last g hg)
      have hfirst := hholds.1
      obtain ⟨l, hl⟩ := ih (by omega) hnext ⟨by omega, by omega⟩
      exact ⟨_, hcons hl⟩
    · refine ⟨[a], hcons ?_⟩
      rw [hguard]
      exact .nil _

theorem Managed.wellTiled (h : Managed s c) (hlisted : c.unlisted = ∅) : WellTiled s := by
  have htiled := h.ready.toTiled
  refine ⟨?_, ?_, h.room, ?_, ?_, ?_⟩
  · intro g hg
    obtain ⟨hin, hmark⟩ := htiled.first g hg
    have hbounds := (htiled.segments g hg).bounds
    exact ⟨hmark, htiled.last g hg, htiled.chain hg (n := g.guard) (by omega) hin
      ⟨le_refl _, by omega⟩⟩
  · have hnodup := (List.nodup_append.mp h.nodup).2.1
    rw [List.Nodup, List.pairwise_map] at hnodup
    apply hnodup.imp_of_mem
    intro a a' ha ha' hne
    have hin := (h.ready.live _ (h.caller ha).1).1
    have hin' := (h.ready.live _ (h.caller ha').1).1
    rcases Nat.lt_or_gt_of_ne hne with hlt | hgt
    · exact .inl (htiled.apart _ hin _ hin' hlt)
    · exact .inr (htiled.apart _ hin' _ hin hgt)
  · intro b hb hfree
    apply h.ready.lists.listedOnce
    refine ⟨htiled.isBlock_iff.mp hb, hfree, ?_⟩
    rw [hlisted]
    exact Finset.notMem_empty b
  · intro i b hb
    rw [← h.ready.cacheEq] at hb
    obtain ⟨hin, hsmall, hindex⟩ := h.ready.cached i b hb
    exact ⟨(h.ready.used b hin).mpr (.inr ⟨i, hb⟩), hsmall, hindex⟩
  · intro b hb hfree
    exact h.ready.settled b (htiled.isBlock_iff.mp hb) hfree

/-- No call is denied by the storage with a free block in hand. -/
def KeepsFreeBlocks (storage : Storage) (s : MmState) (op : MmOp) : Prop :=
  ¬op.Loses storage s.heap

theorem Reaches.listed {start : MmState} (hstart : ∃ c, Managed start c ∧ c.unlisted = ∅)
    (h : Reaches start KeepsFreeBlocks s) : ∃ c, Managed s c ∧ c.unlisted = ∅ := by
  induction h with
  | start => exact hstart
  | step _ hadmits hkeeps hstep ih =>
    obtain ⟨c, hmanaged, hlisted⟩ := ih
    obtain ⟨s₁, c₁, hstep₁, hmanaged₁, -, hlisted₁⟩ := hmanaged.step hlisted hadmits
    rw [hstep, Option.some.injEq] at hstep₁
    subst hstep₁
    exact ⟨c₁, hmanaged₁, hlisted₁ hkeeps⟩

/-- Every state of a run is well tiled, and every call that is admitted there returns or
ends with an error. -/
theorem reaches_wellTiled {storage : Storage} {blockSize limit reserveSize : Nat}
    {infoSize infoPrev : Addr → Tag} {heap : Heap} (hpage : ∃ k, 5 ≤ k ∧ k < 64 ∧ blockSize = 2 ^ k)
    (hstart : zendMmStartupEx storage blockSize limit reserveSize infoSize infoPrev = some heap)
    (h : Reaches ⟨heap, []⟩ KeepsFreeBlocks s) :
    WellTiled s ∧ ∀ (storage : Storage) (op : MmOp), s.Admits storage op →
      ∃ s', s.step storage op = some s' := by
  obtain ⟨c, hmanaged, hlisted, -⟩ := zendMmStartupEx_managed hpage hstart
  obtain ⟨c', hmanaged', hlisted'⟩ := h.listed ⟨c, hmanaged, hlisted⟩
  refine ⟨hmanaged'.wellTiled hlisted', fun storage op hadmits => ?_⟩
  obtain ⟨s', -, hstep, -⟩ := hmanaged'.step hlisted' hadmits
  exact ⟨s', hstep⟩

end Tiling

/-! The counters. -/

/-- What the counters are to say. -/
structure Accounts (s : MmState) : Prop where
  cachedLe : s.heap.cached ≤ s.heap.size
  usage : zendMemoryUsage s.heap false = (s.liveBlocks.map s.heap.sizeOf).sum
  cached : s.heap.cached = ∑ i ∈ Finset.range numBuckets, ((s.heap.cache i).map s.heap.sizeOf).sum
  realUsage : zendMemoryUsage s.heap true = (s.heap.segmentsList.map (·.size)).sum

section Counters

variable {s s' : MmState} {c : Census}

theorem Managed.liveSize (h : Managed s c) :
    totalSize s.heap c.live = (s.liveBlocks.map s.heap.sizeOf).sum := by
  have hset : c.live = s.liveBlocks.toFinset := by
    ext x
    rw [List.mem_toFinset, h.live]
  rw [hset, totalSize, List.sum_toFinset _ h.nodup]

/-- The counters are right just when nothing is counted too much. -/
theorem Managed.accounts_iff (h : Managed s c) : Accounts s ↔ c.drift = 0 := by
  have hcount := h.ready.sizeCount
  have hcached := h.ready.cachedCount
  have hlive := h.liveSize
  have hnonneg := h.ready.counted
  constructor
  · intro haccounts
    have husage := haccounts.usage
    simp only [zendMemoryUsage, Bool.false_eq_true, if_false] at husage
    omega
  · intro hzero
    refine ⟨by omega, ?_, ?_, ?_⟩
    · simp only [zendMemoryUsage, Bool.false_eq_true, if_false]
      omega
    · rw [hcached, cachedSize, h.ready.cacheEq]
    · simp only [zendMemoryUsage, if_true]
      exact h.ready.realCount

/-- The free blocks are listed, and if the call flushes the cache it is empty. -/
def FlushesNothing (storage : Storage) (s : MmState) (op : MmOp) : Prop :=
  AllListed s.heap ∧ (op.Flushes storage s.heap → s.heap.cached = 0)

theorem Reaches.managed {ok : Storage → MmState → MmOp → Prop} {start : MmState}
    (hstart : ∃ c, Managed start c ∧ c.drift = 0)
    (hok : ∀ storage s op, ok storage s op → FlushesNothing storage s op)
    (h : Reaches start ok s) : ∃ c, Managed s c ∧ c.drift = 0 := by
  induction h with
  | start => exact hstart
  | step _ hadmits hmeets hstep ih =>
    obtain ⟨c, hmanaged, hdrift⟩ := ih
    obtain ⟨hall, hflush⟩ := hok _ _ _ hmeets
    obtain ⟨s₁, c₁, hstep₁, hmanaged₁, heffect, -⟩ := hmanaged.step
      (hmanaged.ready.toHeapInv.allListed_iff.mp hall) hadmits
    rw [hstep, Option.some.injEq] at hstep₁
    subst hstep₁
    refine ⟨c₁, hmanaged₁, ?_⟩
    rcases heffect with ⟨hflushes, hdrift₁⟩ | ⟨-, hdrift₁⟩
    · rw [hdrift₁, hdrift, hflush hflushes]
      rfl
    · exact hdrift₁.trans hdrift

/-- The counters are right in every state of a run that never flushes a cached
block. -/
theorem reaches_accounts {storage : Storage} {blockSize limit reserveSize : Nat}
    {infoSize infoPrev : Addr → Tag} {heap : Heap} (hpage : ∃ k, 5 ≤ k ∧ k < 64 ∧ blockSize = 2 ^ k)
    (hstart : zendMmStartupEx storage blockSize limit reserveSize infoSize infoPrev = some heap)
    (h : Reaches ⟨heap, []⟩ FlushesNothing s) : Accounts s := by
  obtain ⟨c, hmanaged, -, hdrift⟩ := zendMmStartupEx_managed hpage hstart
  obtain ⟨c', hmanaged', hdrift'⟩ := h.managed ⟨c, hmanaged, hdrift⟩ fun _ _ _ => id
  exact hmanaged'.accounts_iff.mpr hdrift'

end Counters

theorem smallPages_start : zendMmStartupEx onePiece 256 1024 0 (fun _ => ⟨.free, 0⟩)
    (fun _ => ⟨.free, 0⟩) = some smallPages := rfl

theorem reaches_wellTiled_alloc :
    ∃ s, MmState.step onePiece ⟨smallPages, []⟩ (.alloc 100) = some s ∧ WellTiled s := by
  obtain ⟨s, hstep⟩ := isSome_iff_exists.mp
    (show (MmState.step onePiece ⟨smallPages, []⟩ (.alloc 100)).isSome = true by decide)
  have hadmits : MmState.Admits ⟨smallPages, []⟩ onePiece (.alloc 100) := onePiece_fresh
  have hkeeps : KeepsFreeBlocks onePiece ⟨smallPages, []⟩ (.alloc 100) := id
  exact ⟨s, hstep, (reaches_wellTiled ⟨8, by decide, by decide, by decide⟩ smallPages_start
    (.step .start hadmits hkeeps hstep)).1⟩

theorem smallPages_allListed : AllListed smallPages :=
  smallPages_ready.toHeapInv.allListed_iff.mpr rfl

theorem reaches_accounts_alloc :
    ∃ s, MmState.step onePiece ⟨smallPages, []⟩ (.alloc 100) = some s ∧ Accounts s := by
  obtain ⟨s, hstep⟩ := isSome_iff_exists.mp
    (show (MmState.step onePiece ⟨smallPages, []⟩ (.alloc 100)).isSome = true by decide)
  have hadmits : MmState.Admits ⟨smallPages, []⟩ onePiece (.alloc 100) := onePiece_fresh
  exact ⟨s, hstep, reaches_accounts ⟨8, by decide, by decide, by decide⟩ smallPages_start
    (.step .start hadmits ⟨smallPages_allListed, fun _ => rfl⟩ hstep)⟩

/-- A block is allocated, freed to the cache, and flushed: its 120 bytes are still
counted. -/
theorem flushed_not_accounts :
    ∃ s₁ s₂ s₃, MmState.step onePiece ⟨smallPages, []⟩ (.alloc 100) = some s₁ ∧
      s₁.step noMemory (.free (dataOf 4112)) = some s₂ ∧ s₂.step noMemory .freeCache = some s₃ ∧
      Reaches ⟨smallPages, []⟩ (fun _ _ _ => True) s₃ ∧ ¬Accounts s₃ := by
  have hrun : ((MmState.step onePiece ⟨smallPages, []⟩ (.alloc 100)).bind fun s₁ =>
      (s₁.step noMemory (.free (dataOf 4112))).bind fun s₂ =>
      (s₂.step noMemory .freeCache).map fun s₃ =>
        (s₁.allocations, zendMemoryUsage s₃.heap false, s₃.liveBlocks)) =
      some ([⟨dataOf 4112, 100⟩], 120, []) := by decide
  simp only [bind_eq_some_iff, map_eq_some_iff, Prod.mk.injEq] at hrun
  obtain ⟨s₁, hstep₁, s₂, hstep₂, s₃, hstep₃, halloc, husage, hlive⟩ := hrun
  have hadmits : MmState.Admits ⟨smallPages, []⟩ onePiece (.alloc 100) := onePiece_fresh
  have hadmits₂ : s₁.Admits noMemory (.free (dataOf 4112)) := by
    refine ⟨⟨dataOf 4112, 100⟩, ?_, rfl⟩
    rw [halloc]
    exact List.mem_cons_self
  have hadmits₃ : s₂.Admits noMemory .freeCache := trivial
  refine ⟨s₁, s₂, s₃, hstep₁, hstep₂, hstep₃,
    .step (.step (.step .start hadmits trivial hstep₁) hadmits₂ trivial hstep₂) hadmits₃
      trivial hstep₃, fun haccounts => ?_⟩
  have husage' := haccounts.usage
  rw [husage, hlive] at husage'
  cases husage'

end PhpEngine.ZendMm

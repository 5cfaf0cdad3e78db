/-
Runs of a heap: a caller that allocates, frees and reallocates blocks, with the
pointers it has been given and not given back.
-/
import PhpEngine.ZendMmRealloc

namespace PhpEngine.ZendMm

open List

variable {a : Allocation} {size : Nat} {storage : Storage} {p : Addr}

/-- The heap of `zend_mm_startup_ex`, with its reserve. -/
def zendMmStartupEx (storage : Storage) (blockSize limit reserveSize : Nat)
    (infoSize infoPrev : Addr → Tag) : Option Heap :=
  let heap := zendMmStartup blockSize limit infoSize infoPrev
  if reserveSize > 0 then do
    let (heap, exit) ← zendMmAllocInt storage heap reserveSize
    match exit with
    | .returned p => some { heap with reserve := some p }
    | _ => none
  else some heap

/-- `zend_memory_usage` -/
def zendMemoryUsage (heap : Heap) (realUsage : Bool) : Nat :=
  if realUsage then heap.realSize else heap.size - heap.cached

/-- A pointer of the caller, with the size it has asked for. -/
structure Allocation where
  ptr : Addr
  size : Nat
deriving Repr, DecidableEq

structure MmState where
  heap : Heap
  allocations : List Allocation

inductive MmOp where
  | alloc (size : Nat)
  | free (p : Addr)
  | realloc (p : Addr) (size : Nat)
  | freeCache
deriving Repr, DecidableEq

/-- The allocations without that of a pointer. -/
def dropPtr (allocations : List Allocation) (p : Addr) : List Allocation :=
  allocations.filter fun a => decide (a.ptr ≠ p)

/-- One call, with what the storage answers to it. -/
def MmState.step (storage : Storage) (s : MmState) : MmOp → Option MmState
  | .alloc size => do
      let (heap, exit) ← zendMmAllocInt storage s.heap size
      match exit with
      | .returned p => some ⟨heap, ⟨p, size⟩ :: s.allocations⟩
      | _ => some ⟨heap, s.allocations⟩
  | .free p => do
      let heap ← zendMmFreeInt s.heap p
      some ⟨heap, dropPtr s.allocations p⟩
  | .realloc p size => do
      let (heap, exit) ← zendMmReallocInt storage s.heap p size
      match exit with
      | .returned ptr => some ⟨heap, ⟨ptr, size⟩ :: dropPtr s.allocations p⟩
      | _ => some ⟨heap, s.allocations⟩
  | .freeCache => do
      let heap ← zendMmFreeCache s.heap
      some ⟨heap, s.allocations⟩

/-- The caller frees and reallocates pointers it has, and the storage answers with
memory that is not in use. -/
def MmState.Admits (s : MmState) (storage : Storage) : MmOp → Prop
  | .alloc _ => storage.Fresh s.heap
  | .free p => ∃ a ∈ s.allocations, a.ptr = p
  | .realloc p _ => storage.Fresh s.heap ∧ ∃ a ∈ s.allocations, a.ptr = p
  | .freeCache => True

/-- The states of the runs from `start` whose steps all meet `ok`. -/
inductive Reaches (start : MmState) (ok : Storage → MmState → MmOp → Prop) :
    MmState → Prop
  | start : Reaches start ok start
  | step {s s' : MmState} {storage : Storage} {op : MmOp} (h : Reaches start ok s)
      (hadmits : s.Admits storage op) (hok : ok storage s op)
      (hstep : s.step storage op = some s') : Reaches start ok s'

/-- The blocks of the caller and of the reserve. -/
def MmState.liveBlocks (s : MmState) : List Nat :=
  s.heap.reserve.toList.map headerOf ++ s.allocations.map fun a => headerOf a.ptr

/-- The invariant of a run: the live blocks are those of the caller and of the reserve,
and large enough. -/
structure Managed (s : MmState) (c : Census) : Prop where
  ready : Ready s.heap c
  live : ∀ b, b ∈ c.live ↔ b ∈ s.liveBlocks
  nodup : s.liveBlocks.Nodup
  pointers : ∀ a ∈ s.allocations, dataOf (headerOf a.ptr) = a.ptr
  room : ∀ a ∈ s.allocations, zendMmTrueSize a.size ≤ s.heap.sizeOf (headerOf a.ptr)

section Managed

variable {heap heap' : Heap} {c c' : Census} {s s' : MmState} {b : Nat}

theorem reserve_blocks (h : Ready heap c) :
    ∀ x, x ∈ heap.reserve.toList.map headerOf ↔ c.reserve = some (dataOf x) := by
  intro x
  rw [h.reserveEq]
  cases hres : heap.reserve with
  | none => simp
  | some p =>
    obtain ⟨r, -, rfl⟩ := h.reserved p (h.reserveEq.trans hres)
    simp only [Option.toList_some, map_cons, map_nil, mem_singleton,
      headerOf_dataOf, Option.some.injEq]
    rw [dataOf, dataOf, Nat.add_right_cancel_iff]
    exact eq_comm

section

variable (h : Managed s c)
include h

theorem Managed.caller (ha : a ∈ s.allocations) :
    headerOf a.ptr ∈ c.live ∧ c.reserve ≠ some (dataOf (headerOf a.ptr)) := by
  have hmem : headerOf a.ptr ∈ s.allocations.map fun a => headerOf a.ptr :=
    List.mem_map.mpr ⟨a, ha, rfl⟩
  refine ⟨(h.live _).mpr (mem_append_right _ hmem), fun hres => ?_⟩
  have hdisjoint := (nodup_append.mp h.nodup).2.2
  exact hdisjoint _ ((reserve_blocks h.ready _).mpr hres) _ hmem rfl

theorem Managed.ptr_inj {a' : Allocation} (ha : a ∈ s.allocations) (ha' : a' ∈ s.allocations)
    (heq : headerOf a.ptr = headerOf a'.ptr) : a.ptr = a'.ptr := by
  rw [← h.pointers a ha, ← h.pointers a' ha', heq]

theorem dropPtr_blocks (ha : a ∈ s.allocations) (x : Nat) :
    x ∈ (dropPtr s.allocations a.ptr).map (fun a => headerOf a.ptr) ↔
      x ∈ s.allocations.map (fun a => headerOf a.ptr) ∧ x ≠ headerOf a.ptr := by
  simp only [List.mem_map, dropPtr, mem_filter, decide_eq_true_eq]
  constructor
  · rintro ⟨a', ⟨ha', hne⟩, rfl⟩
    exact ⟨⟨a', ha', rfl⟩, fun heq => hne (h.ptr_inj ha' ha heq)⟩
  · rintro ⟨⟨a', ha', rfl⟩, hne⟩
    exact ⟨a', ⟨ha', fun heq => hne (heq ▸ rfl)⟩, rfl⟩

theorem dropPtr_nodup (p : Addr) : (s.heap.reserve.toList.map headerOf ++
      (dropPtr s.allocations p).map fun a => headerOf a.ptr).Nodup := by
  refine List.Nodup.sublist ?_ h.nodup
  apply List.Sublist.append_left
  exact List.Sublist.map _ filter_sublist

/-- A call has given the caller a pointer in the place of the pointers that go. -/
theorem Managed.served {S : Finset Nat} {trueSize : Nat}
    (hserved : Served s.heap c heap' c' S b trueSize) (hsize : trueSize = zendMmTrueSize size)
    {allocations : List Allocation} (hsub : allocations.Sublist s.allocations)
    (hS : ∀ x, x ∈ S ↔ x ∈ s.heap.reserve.toList.map headerOf ++
      allocations.map fun a => headerOf a.ptr) :
    Managed ⟨heap', ⟨dataOf b, size⟩ :: allocations⟩ c' := by
  have hres : heap'.reserve = s.heap.reserve := by
    rw [← hserved.ready.reserveEq, hserved.reserve, h.ready.reserveEq]
  have hblocks : MmState.liveBlocks ⟨heap', ⟨dataOf b, size⟩ :: allocations⟩ =
      s.heap.reserve.toList.map headerOf ++ (b :: allocations.map fun a => headerOf a.ptr) := by
    rw [MmState.liveBlocks, hres, map_cons, headerOf_dataOf]
  refine ⟨hserved.ready, ?_, ?_, ?_, ?_⟩
  · intro x
    rw [hserved.live, Finset.mem_insert, hS, hblocks, mem_append, mem_append, mem_cons]
    tauto
  · rw [hblocks, perm_middle.nodup_iff, nodup_cons, ← hS]
    exact ⟨hserved.fresh, List.Nodup.sublist ((hsub.map _).append_left _) h.nodup⟩
  · intro a ha
    rcases mem_cons.mp ha with rfl | ha
    · rw [headerOf_dataOf]
    · exact h.pointers a (hsub.subset ha)
  · intro a ha
    rcases mem_cons.mp ha with rfl | ha
    · change zendMmTrueSize size ≤ heap'.sizeOf (headerOf (dataOf b))
      rw [headerOf_dataOf, ← hsize]
      exact hserved.room
    · have hroom := h.room a (hsub.subset ha)
      have hin : headerOf a.ptr ∈ S := (hS _).mpr
        (mem_append_right _ (List.mem_map.mpr ⟨a, ha, rfl⟩))
      rw [Heap.sizeOf, hserved.keeps _ hin]
      exact hroom

/-- A call has failed: the caller keeps its pointers. -/
theorem Managed.failed {U : Finset Nat} {flushed : Nat}
    (hfailed : Failed s.heap { c with unlisted := U } heap' c' flushed) :
    Managed ⟨heap', s.allocations⟩ c' := by
  have hres : heap'.reserve = none := hfailed.ready.reserveEq.symm.trans hfailed.reserve
  have hblocks : MmState.liveBlocks ⟨heap', s.allocations⟩ =
      s.allocations.map fun a => headerOf a.ptr := by
    rw [MmState.liveBlocks, hres]
    rfl
  obtain ⟨-, hnodup, hdisjoint⟩ := nodup_append.mp h.nodup
  have hlive : ∀ x, x ∈ c'.live ↔ x ∈ s.allocations.map fun a => headerOf a.ptr := by
    intro x
    rw [hfailed.live]
    rw [h.live, MmState.liveBlocks, mem_append, ne_eq, ← reserve_blocks h.ready]
    constructor
    · rintro ⟨hx | hx, hnot⟩
      · exact absurd hx hnot
      · exact hx
    · intro hx
      exact ⟨.inr hx, fun hreserved => hdisjoint _ hreserved _ hx rfl⟩
  refine ⟨hfailed.ready, ?_, ?_, h.pointers, ?_⟩
  · intro x
    rw [hblocks]
    exact hlive x
  · rw [hblocks]
    exact hnodup
  · intro a ha
    have hroom := h.room a ha
    have hin := (hlive _).mpr (List.mem_map.mpr ⟨a, ha, rfl⟩)
    rw [Heap.sizeOf, hfailed.keeps _ (.inl hin)]
    exact hroom

end

/-- A call that flushes the cache. -/
def MmOp.Flushes (storage : Storage) (heap : Heap) : MmOp → Prop
  | .alloc size => AllocFlushes storage heap size
  | .free _ => False
  | .realloc p size => ReallocFlushes storage heap (headerOf p) size
  | .freeCache => True

/-- A call that the storage denies after a free block was taken from its list. -/
def MmOp.Loses (storage : Storage) (heap : Heap) : MmOp → Prop
  | .realloc p size => LosesNext storage heap (headerOf p) size
  | _ => False

/-- What a step does to the counters and to the free blocks. -/
def StepEffect (storage : Storage) (s : MmState) (c : Census) (op : MmOp) (c' : Census) : Prop :=
  (op.Flushes storage s.heap ∧ c'.drift = c.drift + s.heap.cached ∨
      ¬op.Flushes storage s.heap ∧ c'.drift = c.drift) ∧
    (¬op.Loses storage s.heap → c'.unlisted = ∅)

theorem step_alloc_failed {exit : Exit}
    (hrun : zendMmAllocInt storage s.heap size = some (heap', exit))
    (hexit : ∀ p, exit ≠ .returned p) :
    s.step storage (.alloc size) = some ⟨heap', s.allocations⟩ := by
  rw [MmState.step, hrun]
  cases exit with
  | returned p => exact absurd rfl (hexit p)
  | memoryLimit | outOfMemory => rfl

theorem step_realloc_failed {exit : Exit}
    (hrun : zendMmReallocInt storage s.heap p size = some (heap', exit))
    (hexit : ∀ p, exit ≠ .returned p) :
    s.step storage (.realloc p size) = some ⟨heap', s.allocations⟩ := by
  rw [MmState.step, hrun]
  cases exit with
  | returned p => exact absurd rfl (hexit p)
  | memoryLimit | outOfMemory => rfl

section

variable (h : Managed s c) (hlisted : c.unlisted = ∅)
include h hlisted

theorem Managed.stepAlloc (hadmits : s.Admits storage (.alloc size)) :
    ∃ s' c', s.step storage (.alloc size) = some s' ∧ Managed s' c' ∧
      StepEffect storage s c (.alloc size) c' := by
  obtain ⟨heap', c', exit, hrun, hend⟩ := h.ready.alloc hlisted hadmits size
  rcases hend with ⟨b, rfl, hflush, hserved⟩ |
    ⟨hexit, flushed, hfailed, ⟨hflush, rfl⟩ | ⟨hflush, rfl⟩⟩
  · rw [MmState.step, hrun]
    exact ⟨_, c', rfl, h.served hserved rfl (List.Sublist.refl _) h.live,
      .inr ⟨hflush, hserved.drift⟩, fun _ => hserved.unlisted.trans hlisted⟩
  · exact ⟨_, c', step_alloc_failed hrun hexit, h.failed (U := c.unlisted) hfailed,
      .inl ⟨hflush, hfailed.drift⟩, fun _ => hfailed.unlisted.trans hlisted⟩
  · exact ⟨_, c', step_alloc_failed hrun hexit, h.failed (U := c.unlisted) hfailed,
      .inr ⟨hflush, hfailed.drift.trans (Int.add_zero _)⟩,
      fun _ => hfailed.unlisted.trans hlisted⟩

theorem Managed.stepFree (hadmits : s.Admits storage (.free p)) :
    ∃ s' c', s.step storage (.free p) = some s' ∧ Managed s' c' ∧
      StepEffect storage s c (.free p) c' := by
  obtain ⟨a, ha, rfl⟩ := hadmits
  obtain ⟨hlive, hres⟩ := h.caller ha
  obtain ⟨heap', blocks, hrun, h', hreserve, hinfo⟩ :=
    h.ready.toHeapInv.zendMmFreeInt h.ready.cacheEq h.ready.counted hlive hres (by
      intro x hx
      rw [hlisted] at hx
      exact absurd hx (Finset.notMem_empty x))
  rw [h.pointers a ha] at hrun
  rw [MmState.step, hrun]
  have hblocks : MmState.liveBlocks ⟨heap', dropPtr s.allocations a.ptr⟩ =
      s.heap.reserve.toList.map headerOf ++
        (dropPtr s.allocations a.ptr).map fun a => headerOf a.ptr := by
    rw [MmState.liveBlocks, hreserve]
  refine ⟨_, _, rfl, ⟨⟨h', rfl, h.ready.reserveEq.trans hreserve.symm, h.ready.counted⟩,
    ?_, ?_, ?_, ?_⟩, .inr ⟨id, rfl⟩, fun _ => hlisted⟩
  · intro x
    rw [hblocks, Finset.mem_erase, h.live, MmState.liveBlocks, mem_append,
      mem_append, dropPtr_blocks h ha, reserve_blocks h.ready]
    constructor
    · rintro ⟨hne, hx | hx⟩
      · exact .inl hx
      · exact .inr ⟨hx, hne⟩
    · rintro (hx | ⟨hx, hne⟩)
      · exact ⟨fun heq => hres (heq ▸ hx), .inl hx⟩
      · exact ⟨hne, .inr hx⟩
  · rw [hblocks]
    exact dropPtr_nodup h a.ptr
  · exact fun a' ha' => h.pointers a' (mem_of_mem_filter ha')
  · intro a' ha'
    have hin : a' ∈ s.allocations := mem_of_mem_filter ha'
    have hne : headerOf a'.ptr ≠ headerOf a.ptr := by
      intro heq
      have := of_mem_filter ha'
      rw [decide_eq_true_eq] at this
      exact this (h.ptr_inj hin ha heq)
    have hroom := h.room a' hin
    rw [Heap.sizeOf, hinfo _ (.inl (h.caller hin).1) hne]
    exact hroom

theorem Managed.stepRealloc (hadmits : s.Admits storage (.realloc p size)) :
    ∃ s' c', s.step storage (.realloc p size) = some s' ∧ Managed s' c' ∧
      StepEffect storage s c (.realloc p size) c' := by
  obtain ⟨hfresh, a, ha, rfl⟩ := hadmits
  obtain ⟨hlive, hres⟩ := h.caller ha
  obtain ⟨heap', c', exit, hrun, hend⟩ := h.ready.realloc hlisted hfresh hlive hres size
  rw [h.pointers a ha] at hrun
  rcases hend with ⟨hflush, hloses, b, rfl, hserved⟩ |
    ⟨hexit, ⟨hflush, hloses, hfailed⟩ | ⟨hflush, hloses, hfailed⟩ | ⟨hflush, hloses, hfailed⟩⟩
  · rw [MmState.step, hrun]
    refine ⟨_, c', rfl, h.served hserved rfl filter_sublist ?_,
      .inr ⟨hflush, hserved.drift⟩, fun _ => hserved.unlisted.trans hlisted⟩
    intro x
    rw [Finset.mem_erase, h.live, MmState.liveBlocks, mem_append, mem_append,
      dropPtr_blocks h ha, reserve_blocks h.ready]
    constructor
    · rintro ⟨hne, hx | hx⟩
      · exact .inl hx
      · exact .inr ⟨hx, hne⟩
    · rintro (hx | ⟨hx, hne⟩)
      · exact ⟨fun heq => hres (heq ▸ hx), .inl hx⟩
      · exact ⟨hne, .inr hx⟩
  · exact ⟨_, c', step_realloc_failed hrun hexit, h.failed (U := c.unlisted) hfailed,
      .inr ⟨hflush, hfailed.drift.trans (Int.add_zero _)⟩,
      fun _ => hfailed.unlisted.trans hlisted⟩
  · exact ⟨_, c', step_realloc_failed hrun hexit, h.failed (U := c.unlisted) hfailed,
      .inl ⟨hflush, hfailed.drift⟩, fun _ => hfailed.unlisted.trans hlisted⟩
  · exact ⟨_, c', step_realloc_failed hrun hexit, h.failed hfailed,
      .inl ⟨hflush, hfailed.drift⟩, fun hnot => absurd hloses hnot⟩

theorem Managed.stepFreeCache :
    ∃ s' c', s.step storage .freeCache = some s' ∧ Managed s' c' ∧
      StepEffect storage s c .freeCache c' := by
  obtain ⟨heap', blocks, hrun, h', hcache, hreserve, hinfo⟩ :=
    h.ready.toHeapInv.zendMmFreeCache h.ready.cacheEq (Census.allClear hlisted s.heap).1
  rw [MmState.step, hrun]
  have hblocks : MmState.liveBlocks ⟨heap', s.allocations⟩ = s.liveBlocks := by
    rw [MmState.liveBlocks, hreserve, MmState.liveBlocks]
  refine ⟨_, _, rfl, ⟨⟨h', hcache.symm, h.ready.reserveEq.trans hreserve.symm, ?_⟩,
    ?_, ?_, h.pointers, ?_⟩, .inl ⟨trivial, ?_⟩, fun _ => hlisted⟩
  · have := h.ready.counted
    dsimp only
    omega
  · intro x
    rw [hblocks]
    exact h.live x
  · rw [hblocks]
    exact h.nodup
  · intro a ha
    have hroom := h.room a ha
    rw [Heap.sizeOf, hinfo _ (.inl (h.caller ha).1)]
    exact hroom
  · rw [h.ready.cachedCount]

/-- Every step that is admitted can be taken, and the heap stays managed. -/
theorem Managed.step {op : MmOp} (hadmits : s.Admits storage op) :
    ∃ s' c', s.step storage op = some s' ∧ Managed s' c' ∧ StepEffect storage s c op c' := by
  cases op with
  | alloc size => exact h.stepAlloc hlisted hadmits
  | free p => exact h.stepFree hlisted hadmits
  | realloc p size => exact h.stepRealloc hlisted hadmits
  | freeCache => exact h.stepFreeCache hlisted

end

end Managed

/-! The start of a run. -/

section Start

variable {blockSize limit reserveSize : Nat} {infoSize infoPrev : Addr → Tag}

theorem startup_freeLists :
    FreeLists (zendMmStartup blockSize limit infoSize infoPrev) fun _ => False := by
  have hlarge : ∀ b, ¬(zendMmStartup blockSize limit infoSize infoPrev).InLarge b := by
    rintro b ⟨i, hb⟩
    cases hb
  have hzero : ∀ i, (0 : BitVec 64).getLsbD i = false := fun i => BitVec.getLsbD_zero
  refine ⟨⟨?_, ?_, ?_, ?_⟩, ?_, ?_, ?_, ?_, ?_, rfl, ?_, ?_, ?_⟩
  · exact fun i => trivial
  · exact fun i => nodup_nil
  · intro i b hb
    cases hb
  · intro i _
    simp [zendMmStartup]
  · exact fun i => nodup_nil
  · intro i b hb
    cases hb
  · exact fun b hb => absurd hb (hlarge b)
  · exact nodup_nil
  · intro b hb
    cases hb
  · intro i _ hbit
    change (0 : BitVec 64).getLsbD i = true at hbit
    rw [hzero] at hbit
    cases hbit
  · intro b
    simp [zendMmStartup, Heap.InLarge]
  · exact fun b hb => hb.elim

theorem startup_ready (limit : Nat) (infoSize infoPrev : Addr → Tag)
    (hpage : ∃ k, 5 ≤ k ∧ k < 64 ∧ blockSize = 2 ^ k) :
    Ready (zendMmStartup blockSize limit infoSize infoPrev)
      { blocks := ∅, live := ∅, unlisted := ∅, cache := fun _ => [], reserve := none,
        drift := 0 } := by
  refine ⟨⟨⟨nodup_nil, ?_, ?_, ?_, ?_, ?_, ?_, ?_, ?_, ?_, ?_⟩, ?_, ?_, ?_, ?_, ?_,
    ?_, ?_, ?_, hpage, ?_, ?_, rfl⟩, rfl, rfl, le_refl _⟩
  case refine_11 =>
    exact startup_freeLists.congr (by simp) rfl rfl rfl rfl rfl rfl fun _ _ => rfl
  all_goals simp [zendMmStartup, totalSize, cachedSize]

theorem zendMmStartupEx_managed (hpage : ∃ k, 5 ≤ k ∧ k < 64 ∧ blockSize = 2 ^ k) {heap : Heap}
    (hstart : zendMmStartupEx storage blockSize limit reserveSize infoSize infoPrev = some heap) :
    ∃ c, Managed ⟨heap, []⟩ c ∧ c.unlisted = ∅ ∧ c.drift = 0 := by
  have hready := startup_ready limit infoSize infoPrev hpage
  rw [zendMmStartupEx] at hstart
  split at hstart
  · have hfresh : storage.Fresh (zendMmStartup blockSize limit infoSize infoPrev) :=
      ⟨fun _ _ _ _ hs => absurd hs not_mem_nil, fun _ hs => absurd hs not_mem_nil⟩
    obtain ⟨heap', c', exit, hrun, hend⟩ := hready.alloc rfl hfresh reserveSize
    rw [hrun] at hstart
    rcases hend with ⟨b, rfl, -, hserved⟩ | ⟨hexit, -⟩
    · cases hstart
      have h' := hserved.ready.toHeapInv.setReserve (some (dataOf b)) (by
        intro p hp
        refine ⟨b, ?_, (Option.some.inj hp).symm⟩
        rw [hserved.live]
        exact Finset.mem_insert_self b _)
      refine ⟨{ c' with reserve := some (dataOf b) },
        ⟨⟨h'.setFields heap'.cache (some (dataOf b)), hserved.ready.cacheEq, rfl,
          hserved.ready.counted⟩, ?_, ?_, ?_, ?_⟩, hserved.unlisted, hserved.drift⟩
      · intro x
        rw [hserved.live]
        simp [MmState.liveBlocks, headerOf_dataOf]
      · simp [MmState.liveBlocks]
      · simp
      · simp
    · cases exit with
      | returned p => exact absurd rfl (hexit p)
      | memoryLimit | outOfMemory => cases hstart
  · cases hstart
    refine ⟨_, ⟨hready, ?_, ?_, ?_, ?_⟩, rfl, rfl⟩
    · simp [MmState.liveBlocks, zendMmStartup]
    · simp [MmState.liveBlocks, zendMmStartup]
    · simp
    · simp

end Start

end PhpEngine.ZendMm

/-
The free blocks of a heap: each is in the list of its size, in the tree of its
high bit, or among the rest blocks, and in one place only.
-/
import PhpEngine.ZendMmSearch

namespace PhpEngine.ZendMm

open DigitalTree List Function

/-- The blocks on the free lists are those of `F`. -/
structure FreeLists (heap : Heap) (F : Addr → Prop) : Prop extends LargeTrees heap where
  smallNodup : ∀ i, (heap.freeBuckets i).Nodup
  small : ∀ i, ∀ b ∈ heap.freeBuckets i, SmallSize (heap.sizeOf b) ∧ bucketIndex (heap.sizeOf b) = i
  large : ∀ b, heap.InLarge b → ¬SmallSize (heap.sizeOf b)
  restNodup : heap.restBuckets.Nodup
  restApart : ∀ b ∈ heap.restBuckets,
    b ∉ heap.freeBuckets (bucketIndex (heap.sizeOf b)) ∧ ¬heap.InLarge b
  restCount : heap.restCount = heap.restBuckets.countP fun b => decide ¬SmallSize (heap.sizeOf b)
  smallBits : ∀ i < numBuckets, heap.freeBitmap.getLsbD i = true → heap.freeBuckets i ≠ []
  mem : ∀ b, F b ↔ b ∈ heap.freeBuckets (bucketIndex (heap.sizeOf b)) ∨
    heap.InLarge b ∨ b ∈ heap.restBuckets
  blockSizes : ∀ b, F b →
    alignedMinHeaderSize ≤ heap.sizeOf b ∧ 8 ∣ heap.sizeOf b ∧ heap.sizeOf b < sizeMod

/-- Only the free lists differ. -/
def SameBlocks (heap heap' : Heap) : Prop :=
  heap' = { heap with
    freeBitmap := heap'.freeBitmap
    largeFreeBitmap := heap'.largeFreeBitmap
    freeBuckets := heap'.freeBuckets
    largeFreeBuckets := heap'.largeFreeBuckets
    restBuckets := heap'.restBuckets
    restCount := heap'.restCount }

theorem SameBlocks.refl (heap : Heap) : SameBlocks heap heap := rfl

theorem SameBlocks.trans {heap heap₁ heap₂ : Heap} (h : SameBlocks heap heap₁)
    (h' : SameBlocks heap₁ heap₂) : SameBlocks heap heap₂ := by
  rw [SameBlocks] at *
  rw [h', h]

theorem SameBlocks.sizeOf {heap heap' : Heap} (h : SameBlocks heap heap') (b : Addr) :
    heap'.sizeOf b = heap.sizeOf b := by
  rw [h]
  rfl

section Lists

variable {heap heap' : Heap} {F : Addr → Prop} {b : Addr}

theorem FreeLists.congr (h : FreeLists heap F) {F' : Addr → Prop} (hF : ∀ x, F' x ↔ F x)
    (hsmall : heap'.freeBuckets = heap.freeBuckets) (hbitmap : heap'.freeBitmap = heap.freeBitmap)
    (hlarge : heap'.largeFreeBuckets = heap.largeFreeBuckets)
    (hlargeBitmap : heap'.largeFreeBitmap = heap.largeFreeBitmap)
    (hrest : heap'.restBuckets = heap.restBuckets) (hcount : heap'.restCount = heap.restCount)
    (hsize : ∀ x, F x → heap'.sizeOf x = heap.sizeOf x) : FreeLists heap' F' := by
  have hin : ∀ x, heap'.InLarge x ↔ heap.InLarge x := by
    intro x
    rw [Heap.InLarge, Heap.InLarge, hlarge]
  have hlisted : ∀ i, ∀ x ∈ heap.freeBuckets i, F x := by
    intro i x hx
    rw [h.mem, (h.small i x hx).2]
    exact .inl hx
  have hinLarge : ∀ x, heap.InLarge x → F x := fun x hx => (h.mem x).mpr (.inr (.inl hx))
  have hinRest : ∀ x ∈ heap.restBuckets, F x := fun x hx =>
    (h.mem x).mpr (.inr (.inr hx))
  refine ⟨h.toLargeTrees.congr hlarge hlargeBitmap fun x hx => hsize x (hinLarge x hx),
    ?_, ?_, ?_, ?_, ?_, ?_, ?_, ?_, ?_⟩
  · rw [hsmall]
    exact h.smallNodup
  · intro i x hx
    rw [hsmall] at hx
    rw [hsize x (hlisted i x hx)]
    exact h.small i x hx
  · intro x hx
    rw [hin] at hx
    rw [hsize x (hinLarge x hx)]
    exact h.large x hx
  · rw [hrest]
    exact h.restNodup
  · intro x hx
    rw [hrest] at hx
    rw [hsize x (hinRest x hx), hsmall, hin]
    exact h.restApart x hx
  · rw [hcount, hrest, h.restCount]
    apply countP_congr
    intro x hx
    rw [hsize x (hinRest x hx)]
  · rw [hbitmap, hsmall]
    exact h.smallBits
  · intro x
    rw [hF, hsmall, hin, hrest]
    constructor
    · intro hx
      rw [hsize x hx]
      exact (h.mem x).mp hx
    · rintro (hx | hx | hx)
      · exact hlisted _ x hx
      · exact hinLarge x hx
      · exact hinRest x hx
  · intro x hx
    rw [hF] at hx
    rw [hsize x hx]
    exact h.blockSizes x hx

theorem bucketIndex_lt {size : Nat} (hsmall : SmallSize size) : bucketIndex size < 64 := by
  rw [SmallSize, maxSmallSize, numBuckets, alignedMinHeaderSize] at hsmall
  rw [bucketIndex, alignedMinHeaderSize]
  omega

theorem zendMmAddToFreeList_sameBlocks (heap : Heap) (b : Addr) :
    SameBlocks heap (zendMmAddToFreeList heap b) := by
  rw [zendMmAddToFreeList]
  split <;> rfl

/-- Valid sizes of a free block. -/
def ValidSize (size : Nat) : Prop :=
  alignedMinHeaderSize ≤ size ∧ 8 ∣ size ∧ size < sizeMod

theorem mem_update {γ : Type} {f : Nat → γ} {index i : Nat} {new : γ} {P : γ → Prop}
    (h : P (update f index new i)) : i = index ∧ P new ∨ i ≠ index ∧ P (f i) := by
  by_cases hi : i = index
  · subst hi
    rw [update_self] at h
    exact .inl ⟨rfl, h⟩
  · rw [update_of_ne hi] at h
    exact .inr ⟨hi, h⟩

theorem FreeLists.setSmall (h : FreeLists heap F) {index : Nat} {list : List Addr}
    {bitmap : BitVec 64} {F' : Addr → Prop} (hnodup : list.Nodup)
    (hlist : ∀ x ∈ list, SmallSize (heap.sizeOf x) ∧
      bucketIndex (heap.sizeOf x) = index ∧ ValidSize (heap.sizeOf x) ∧ x ∉ heap.restBuckets)
    (hbits : ∀ i < numBuckets, bitmap.getLsbD i = true →
      if i = index then list ≠ [] else heap.freeBitmap.getLsbD i = true)
    (hF : ∀ x, F' x ↔ F x ∧ x ∉ heap.freeBuckets index ∨ x ∈ list) : FreeLists { heap with
      freeBuckets := update heap.freeBuckets index list
      freeBitmap := bitmap } F' := by
  refine ⟨h.toLargeTrees.congr rfl rfl fun _ _ => rfl, ?_, ?_, h.large, h.restNodup, ?_,
    h.restCount, ?_, ?_, ?_⟩
  · intro i
    change (update heap.freeBuckets index list i).Nodup
    by_cases hi : i = index
    · rwa [hi, update_self]
    · rw [update_of_ne hi]
      exact h.smallNodup i
  · intro i x hx
    rcases mem_update (P := fun l => x ∈ l) hx with ⟨hi, hmem⟩ | ⟨-, hmem⟩
    · exact ⟨(hlist x hmem).1, hi ▸ (hlist x hmem).2.1⟩
    · exact h.small i x hmem
  · intro x hx
    refine ⟨?_, (h.restApart x hx).2⟩
    intro hmem
    rcases mem_update (P := fun l => x ∈ l) hmem with ⟨-, hmem⟩ | ⟨-, hmem⟩
    · exact (hlist x hmem).2.2.2 hx
    · exact (h.restApart x hx).1 hmem
  · intro i hi hset
    have hbit := hbits i hi hset
    change update heap.freeBuckets index list i ≠ []
    by_cases heq : i = index
    · rw [if_pos heq] at hbit
      rwa [heq, update_self]
    · rw [if_neg heq] at hbit
      rw [update_of_ne heq]
      exact h.smallBits i hi hbit
  · intro x
    rw [hF]
    constructor
    · rintro (⟨hx, hnot⟩ | hx)
      · rcases (h.mem x).mp hx with hx | hx
        · have hne : bucketIndex (heap.sizeOf x) ≠ index := fun heq => hnot (heq ▸ hx)
          refine .inl ?_
          change x ∈ update heap.freeBuckets index list (bucketIndex (heap.sizeOf x))
          rwa [update_of_ne hne]
        · exact .inr hx
      · refine .inl ?_
        change x ∈ update heap.freeBuckets index list (bucketIndex (heap.sizeOf x))
        rwa [(hlist x hx).2.1, update_self]
    · rintro (hx | hx | hx)
      · rcases mem_update (P := fun l => x ∈ l) hx with ⟨-, hx⟩ | ⟨hne, hx⟩
        · exact .inr hx
        · refine .inl ⟨(h.mem x).mpr (.inl hx), ?_⟩
          intro hmem
          exact hne (h.small index x hmem).2
      · refine .inl ⟨(h.mem x).mpr (.inr (.inl hx)), ?_⟩
        intro hmem
        exact h.large x hx (h.small index x hmem).1
      · refine .inl ⟨(h.mem x).mpr (.inr (.inr hx)), ?_⟩
        intro hmem
        apply (h.restApart x hx).1
        rwa [(h.small index x hmem).2]
  · intro x hx
    rcases (hF x).mp hx with ⟨hx, -⟩ | hx
    · exact h.blockSizes x hx
    · exact (hlist x hx).2.2.1

theorem FreeLists.setLarge (h : FreeLists heap F) {index : Nat} {tree : FreeTree}
    {bitmap : BitVec 64} {F' : Addr → Prop} (htrees : LargeTrees { heap with
      largeFreeBuckets := update heap.largeFreeBuckets index tree
      largeFreeBitmap := bitmap })
    (htree : ∀ x ∈ tree.elems, ¬SmallSize (heap.sizeOf x) ∧
      ValidSize (heap.sizeOf x) ∧ x ∉ heap.restBuckets)
    (hF : ∀ x, F' x ↔ F x ∧ x ∉ (heap.largeFreeBuckets index).elems ∨ x ∈ tree.elems) :
    FreeLists { heap with
      largeFreeBuckets := update heap.largeFreeBuckets index tree
      largeFreeBitmap := bitmap } F' := by
  have hin : ∀ {x}, { heap with
        largeFreeBuckets := update heap.largeFreeBuckets index tree
        largeFreeBitmap := bitmap : Heap }.InLarge x →
      x ∈ tree.elems ∨ ∃ i, i ≠ index ∧ x ∈ (heap.largeFreeBuckets i).elems := by
    rintro x ⟨i, hx⟩
    rcases mem_update (P := fun t => x ∈ DigitalTree.elems t) hx with ⟨-, hx⟩ | ⟨hne, hx⟩
    · exact .inl hx
    · exact .inr ⟨i, hne, hx⟩
  refine ⟨htrees, h.smallNodup, h.small, ?_, h.restNodup, ?_, h.restCount, h.smallBits, ?_, ?_⟩
  · intro x hx
    rcases hin hx with hx | ⟨i, -, hx⟩
    · exact (htree x hx).1
    · exact h.large x ⟨i, hx⟩
  · intro x hx
    refine ⟨(h.restApart x hx).1, ?_⟩
    intro hmem
    rcases hin hmem with hmem | ⟨i, -, hmem⟩
    · exact (htree x hmem).2.2 hx
    · exact (h.restApart x hx).2 ⟨i, hmem⟩
  · intro x
    rw [hF]
    constructor
    · rintro (⟨hx, hnot⟩ | hx)
      · rcases (h.mem x).mp hx with hx | ⟨i, hx⟩ | hx
        · exact .inl hx
        · have hne : i ≠ index := fun heq => hnot (heq ▸ hx)
          refine .inr (.inl ⟨i, ?_⟩)
          change x ∈ (update heap.largeFreeBuckets index tree i).elems
          rwa [update_of_ne hne]
        · exact .inr (.inr hx)
      · refine .inr (.inl ⟨index, ?_⟩)
        change x ∈ (update heap.largeFreeBuckets index tree index).elems
        rwa [update_self]
    · rintro (hx | hx | hx)
      · refine .inl ⟨(h.mem x).mpr (.inl hx), ?_⟩
        intro hmem
        exact h.large x ⟨index, hmem⟩ (h.small _ x hx).1
      · rcases hin hx with hx | ⟨i, hne, hx⟩
        · exact .inr hx
        · refine .inl ⟨(h.mem x).mpr (.inr (.inl ⟨i, hx⟩)), ?_⟩
          intro hmem
          exact hne ((h.index_eq hx).symm.trans (h.index_eq hmem))
      · refine .inl ⟨(h.mem x).mpr (.inr (.inr hx)), ?_⟩
        intro hmem
        exact (h.restApart x hx).2 ⟨index, hmem⟩
  · intro x hx
    rcases (hF x).mp hx with ⟨hx, -⟩ | hx
    · exact h.blockSizes x hx
    · exact (htree x hx).2.1

theorem FreeLists.setRest (h : FreeLists heap F) {rest : List Addr} {count : Nat}
    {F' : Addr → Prop} (hnodup : rest.Nodup)
    (hrest : ∀ x ∈ rest, ValidSize (heap.sizeOf x) ∧ (x ∈ heap.restBuckets ∨ ¬F x))
    (hcount : count = rest.countP fun b => decide ¬SmallSize (heap.sizeOf b))
    (hF : ∀ x, F' x ↔ F x ∧ x ∉ heap.restBuckets ∨ x ∈ rest) :
    FreeLists { heap with restBuckets := rest, restCount := count } F' := by
  refine ⟨h.toLargeTrees.congr rfl rfl fun _ _ => rfl, h.smallNodup, h.small, h.large,
    hnodup, ?_, hcount, h.smallBits, ?_, ?_⟩
  · intro x hx
    rcases (hrest x hx).2 with hold | hnew
    · exact h.restApart x hold
    · rw [h.mem, not_or, not_or] at hnew
      exact ⟨hnew.1, hnew.2.1⟩
  · intro x
    rw [hF]
    constructor
    · rintro (⟨hx, hnot⟩ | hx)
      · rcases (h.mem x).mp hx with hx | hx | hx
        · exact .inl hx
        · exact .inr (.inl hx)
        · exact absurd hx hnot
      · exact .inr (.inr hx)
    · rintro (hx | hx | hx)
      · refine .inl ⟨(h.mem x).mpr (.inl hx), ?_⟩
        exact fun hmem => (h.restApart x hmem).1 hx
      · refine .inl ⟨(h.mem x).mpr (.inr (.inl hx)), ?_⟩
        exact fun hmem => (h.restApart x hmem).2 hx
      · exact .inr hx
  · intro x hx
    rcases (hF x).mp hx with ⟨hx, -⟩ | hx
    · exact h.blockSizes x hx
    · exact (hrest x hx).1

theorem FreeLists.add (h : FreeLists heap F) (hb : ¬F b) (hsize : ValidSize (heap.sizeOf b)) :
    FreeLists (zendMmAddToFreeList heap b) fun x => F x ∨ x = b := by
  have hnot := hb
  rw [h.mem, not_or, not_or] at hnot
  have hlarge := h.toLargeTrees.add hnot.2.1 hsize.2.1 hsize.2.2
  rw [zendMmAddToFreeList] at hlarge ⊢
  by_cases hsmall : SmallSize (heap.sizeOf b)
  · have hindex := bucketIndex_lt hsmall
    simp only [hsmall, not_true_eq_false, if_false]
    apply h.setSmall (nodup_cons.mpr ⟨hnot.1, h.smallNodup _⟩)
    · intro x hx
      rcases mem_cons.mp hx with rfl | hx
      · exact ⟨hsmall, rfl, hsize, hnot.2.2⟩
      · obtain ⟨hxs, hxi⟩ := h.small _ x hx
        have hF : F x := (h.mem x).mpr (.inl (hxi ▸ hx))
        exact ⟨hxs, hxi, h.blockSizes x hF, fun hr =>
          (h.restApart x hr).1 (hxi ▸ hx)⟩
    · intro i hi hset
      split
      · simp
      · next hne =>
          split at hset
          · rw [getLsbD_setBit hindex] at hset
            simpa [hne] using hset
          · exact hset
    · intro x
      have hmem : x ∈ heap.freeBuckets (bucketIndex (heap.sizeOf b)) → F x := by
        intro hx
        rw [h.mem, (h.small _ x hx).2]
        exact .inl hx
      rw [mem_cons]
      tauto
  · simp only [hsmall, not_false_eq_true, if_true] at hlarge ⊢
    have hperm := treeInsert_perm heap.sizeOf b
      (heap.largeFreeBuckets (zendMmHighBit (heap.sizeOf b)))
      (BitVec.ofNat 64 (heap.sizeOf b) <<< (numBuckets - zendMmHighBit (heap.sizeOf b)))
    apply h.setLarge hlarge
    · intro x hx
      rcases mem_cons.mp (hperm.mem_iff.mp hx) with rfl | hx
      · exact ⟨hsmall, hsize, hnot.2.2⟩
      · have hin : heap.InLarge x := ⟨_, hx⟩
        exact ⟨h.large x hin, h.blockSizes x ((h.mem x).mpr (.inr (.inl hin))),
          fun hr => (h.restApart x hr).2 hin⟩
    · intro x
      have hmem : x ∈ (heap.largeFreeBuckets (zendMmHighBit (heap.sizeOf b))).elems →
          F x := fun hx => (h.mem x).mpr (.inr (.inl ⟨_, hx⟩))
      rw [hperm.mem_iff, mem_cons]
      tauto

theorem zendMmAddToFreeList_restBuckets (heap : Heap) (b : Addr) :
    (zendMmAddToFreeList heap b).restBuckets = heap.restBuckets := by
  rw [zendMmAddToFreeList]
  split <;> rfl

section

variable (h : FreeLists heap F)
include h

theorem FreeLists.mem_small {i : Nat} {x : Addr} (hx : x ∈ heap.freeBuckets i) : F x := by
  rw [h.mem, (h.small i x hx).2]
  exact .inl hx

theorem FreeLists.clearSmall {index : Nat} (hindex : index < numBuckets) :
    FreeLists { heap with freeBitmap := clearBit heap.freeBitmap index } F := by
  refine ⟨h.toLargeTrees.congr rfl rfl fun _ _ => rfl, h.smallNodup, h.small, h.large,
    h.restNodup, h.restApart, h.restCount, ?_, h.mem, h.blockSizes⟩
  intro i hi hset
  rw [getLsbD_clearBit hindex hi, Bool.and_eq_true] at hset
  exact h.smallBits i hi hset.1

theorem FreeLists.eraseSmall {index : Nat} (hindex : index < numBuckets)
    (hb : b ∈ heap.freeBuckets index) :
    FreeLists (if (decide (heap.freeBuckets index = [b]) = true ∧ (update heap.freeBuckets index
          ((heap.freeBuckets index).erase b) index).length ≤ 1) then
      { heap with
        freeBuckets := update heap.freeBuckets index ((heap.freeBuckets index).erase b)
        freeBitmap := clearBit heap.freeBitmap index }
      else
        { heap with
          freeBuckets := update heap.freeBuckets index
            ((heap.freeBuckets index).erase b) }) fun x => F x ∧ x ≠ b := by
  have hset : ∀ bitmap : BitVec 64, (∀ i < numBuckets, bitmap.getLsbD i = true →
        if i = index then (heap.freeBuckets index).erase b ≠ []
        else heap.freeBitmap.getLsbD i = true) →
      FreeLists { heap with
        freeBuckets := update heap.freeBuckets index ((heap.freeBuckets index).erase b)
        freeBitmap := bitmap } fun x => F x ∧ x ≠ b := by
    intro bitmap hbits
    apply h.setSmall ((h.smallNodup index).erase b) _ hbits
    · intro x
      rw [(h.smallNodup index).mem_erase_iff]
      constructor
      · rintro ⟨hx, hne⟩
        by_cases hin : x ∈ heap.freeBuckets index
        · exact .inr ⟨hne, hin⟩
        · exact .inl ⟨hx, hin⟩
      · rintro (⟨hx, hin⟩ | ⟨hne, hin⟩)
        · exact ⟨hx, fun heq => hin (heq ▸ hb)⟩
        · exact ⟨h.mem_small hin, hne⟩
    · intro x hx
      have hx := mem_of_mem_erase hx
      obtain ⟨hxs, hxi⟩ := h.small _ x hx
      exact ⟨hxs, hxi, h.blockSizes x (h.mem_small hx), fun hr =>
        (h.restApart x hr).1 (hxi ▸ hx)⟩
  split
  · apply hset
    intro i hi hbit
    rw [getLsbD_clearBit hindex hi, Bool.and_eq_true, decide_eq_true_eq] at hbit
    rw [if_neg hbit.2]
    exact hbit.1
  · next hcond =>
      apply hset
      intro i hi hbit
      split
      · intro hnil
        -- An empty list is left by a block that was alone on it.
        apply hcond
        have hone : heap.freeBuckets index = [b] := by
          have hlength := length_erase_of_mem hb
          rw [hnil, length_nil] at hlength
          have hpos := length_pos_of_mem hb
          obtain ⟨x, hx⟩ := length_eq_one_iff.mp (show (heap.freeBuckets index).length = 1 by omega)
          rw [hx] at hb ⊢
          rw [mem_singleton.mp hb]
        rw [hone]
        simp
      · exact hbit

theorem FreeLists.eraseRest (hb : b ∈ heap.restBuckets) {count : Nat}
    (hcount : count = if SmallSize (heap.sizeOf b) then heap.restCount else heap.restCount - 1) :
    FreeLists { heap with
      restBuckets := heap.restBuckets.erase b
      restCount := count } fun x => F x ∧ x ≠ b := by
  apply h.setRest (h.restNodup.erase b)
  · intro x hx
    have hx := mem_of_mem_erase hx
    exact ⟨h.blockSizes x ((h.mem x).mpr (.inr (.inr hx))), .inl hx⟩
  · have hperm := (perm_cons_erase hb).countP_eq
    rw [hcount, h.restCount, hperm]
    by_cases hsmall : SmallSize (heap.sizeOf b)
    · simp [hsmall]
    · simp [hsmall]
  · intro x
    rw [h.restNodup.mem_erase_iff]
    constructor
    · rintro ⟨hx, hne⟩
      by_cases hin : x ∈ heap.restBuckets
      · exact .inr ⟨hne, hin⟩
      · exact .inl ⟨hx, hin⟩
    · rintro (⟨hx, hin⟩ | ⟨hne, hin⟩)
      · exact ⟨hx, fun heq => hin (heq ▸ hb)⟩
      · exact ⟨(h.mem x).mpr (.inr (.inr hin)), hne⟩

theorem FreeLists.remove (hb : F b) :
    ∃ heap', zendMmRemoveFromFreeList heap b = some heap' ∧
      FreeLists heap' (fun x => F x ∧ x ≠ b) ∧ SameBlocks heap heap' := by
  have hrun : ∀ heap', zendMmRemoveFromFreeList heap b = some heap' →
      LargeTrees heap' := fun _ hrun => h.toLargeTrees.remove hrun
  rw [zendMmRemoveFromFreeList] at hrun ⊢
  by_cases hsmall : SmallSize (heap.sizeOf b)
  · have hindex := bucketIndex_lt hsmall
    have hnot : ¬heap.InLarge b := fun hin => h.large b hin hsmall
    have hwhere := (h.mem b).mp hb
    simp only [hsmall, if_true]
    generalize bucketIndex (heap.sizeOf b) = index at *
    by_cases hmem : b ∈ heap.freeBuckets index
    · rw [if_pos hmem]
      refine ⟨_, rfl, h.eraseSmall hindex hmem, ?_⟩
      split <;> rfl
    · have hrest : b ∈ heap.restBuckets := by tauto
      rw [if_neg hmem, if_pos hrest]
      have hcount : heap.restCount = if SmallSize (heap.sizeOf b) then heap.restCount
          else heap.restCount - 1 := by
        rw [if_pos hsmall]
      have herase := h.eraseRest hrest hcount
      refine ⟨_, rfl, ?_, ?_⟩
      · split
        · exact herase.clearSmall hindex
        · exact herase
      · split <;> rfl
  · simp only [hsmall, if_false] at hrun ⊢
    by_cases hrest : b ∈ heap.restBuckets
    · rw [if_pos hrest]
      exact ⟨_, rfl, h.eraseRest hrest (by rw [if_neg hsmall]), rfl⟩
    · have hin : heap.InLarge b := by
        rcases (h.mem b).mp hb with hx | hx | hx
        · exact absurd (h.small _ b hx).1 hsmall
        · exact hx
        · exact absurd hx hrest
      obtain ⟨i, hmem⟩ := hin
      rw [h.index_eq hmem] at hrun ⊢
      rw [if_neg hrest, if_pos hmem] at hrun ⊢
      have hperm := treeRemove_perm (h.nodup i) hmem
      have hnodup := h.nodup i
      rw [hperm.nodup_iff, nodup_cons] at hnodup
      refine ⟨_, rfl, h.setLarge (hrun _ rfl) ?_ ?_, rfl⟩
      · intro x hx
        have hx : heap.InLarge x := ⟨i, hperm.mem_iff.mpr (mem_cons_of_mem _ hx)⟩
        exact ⟨h.large x hx, h.blockSizes x ((h.mem x).mpr (.inr (.inl hx))),
          fun hr => (h.restApart x hr).2 hx⟩
      · intro x
        rw [hperm.mem_iff, mem_cons, not_or]
        constructor
        · rintro ⟨hx, hne⟩
          by_cases hx' : x ∈ (treeRemove b (heap.largeFreeBuckets i)).elems
          · exact .inr hx'
          · exact .inl ⟨hx, hne, hx'⟩
        · rintro (⟨hx, hne, -⟩ | hx)
          · exact ⟨hx, hne⟩
          · refine ⟨(h.mem x).mpr (.inr (.inl ⟨i, hperm.mem_iff.mpr (mem_cons_of_mem _ hx)⟩)), ?_⟩
            rintro rfl
            exact hnodup.1 hx

/-- The oldest rest blocks go to the free lists until there is room for one
more. -/
theorem FreeLists.flushRest :
    ∃ heap', flushRest heap.restBuckets heap = some heap' ∧ FreeLists heap' F ∧
      SameBlocks heap heap' := by
  generalize hrest : heap.restBuckets = rest
  induction rest generalizing heap with
  | nil =>
    refine ⟨heap, ?_, h, .refl heap⟩
    have hcount := h.restCount
    rw [hrest, countP_nil] at hcount
    rw [PhpEngine.ZendMm.flushRest, hcount]
    rfl
  | cons p rest ih =>
    rw [PhpEngine.ZendMm.flushRest]
    split
    · have hp : p ∈ heap.restBuckets := by simp [hrest]
      have herase := h.eraseRest hp rfl
      rw [hrest, erase_cons_head] at herase
      have hsize := h.blockSizes p ((h.mem p).mpr (.inr (.inr hp)))
      have hadd := herase.add (b := p) (by simp) hsize
      have hF : ∀ x, F x ↔ (F x ∧ x ≠ p) ∨ x = p := by
        intro x
        constructor
        · intro hx
          by_cases heq : x = p
          · exact .inr heq
          · exact .inl ⟨hx, heq⟩
        · rintro (⟨hx, -⟩ | rfl)
          · exact hx
          · exact (h.mem x).mpr (.inr (.inr hp))
      have hback := hadd.congr hF rfl rfl rfl rfl rfl rfl fun _ _ => rfl
      have hsame := zendMmAddToFreeList_sameBlocks { heap with
          restBuckets := rest
          restCount := if SmallSize (heap.sizeOf p) then heap.restCount
            else heap.restCount - 1 } p
      obtain ⟨heap', hrun, hlists, hsame'⟩ := ih hback (zendMmAddToFreeList_restBuckets _ p)
      refine ⟨heap', hrun, hlists, ?_⟩
      rw [SameBlocks] at hsame hsame' ⊢
      rw [hsame', hsame]
    · exact ⟨heap, rfl, h, .refl heap⟩

theorem FreeLists.addRest (hb : ¬F b) (hsize : ValidSize (heap.sizeOf b)) :
    ∃ heap', zendMmAddToRestList heap b = some heap' ∧
      FreeLists heap' (fun x => F x ∨ x = b) ∧ SameBlocks heap heap' := by
  obtain ⟨heap₁, hrun, h₁, hsame⟩ := h.flushRest
  rw [zendMmAddToRestList, hrun]
  refine ⟨_, rfl, ?_, ?_⟩
  · have hnot : b ∉ heap₁.restBuckets := fun hmem =>
      hb ((h₁.mem b).mpr (.inr (.inr hmem)))
    apply h₁.setRest
    · rw [nodup_append]
      refine ⟨h₁.restNodup, by simp, ?_⟩
      intro x hx y hy heq
      rw [mem_singleton.mp hy] at heq
      exact hnot (heq ▸ hx)
    · intro x hx
      rcases mem_append.mp hx with hx | hx
      · exact ⟨h₁.blockSizes x ((h₁.mem x).mpr (.inr (.inr hx))), .inl hx⟩
      · rw [mem_singleton.mp hx, hsame.sizeOf]
        exact ⟨hsize, .inr hb⟩
    · rw [countP_append, ← h₁.restCount, countP_singleton]
      by_cases hsmall : SmallSize (heap₁.sizeOf b)
      · simp [hsmall]
      · simp [hsmall]
    · intro x
      have hmem : x ∈ heap₁.restBuckets → F x := fun hx =>
        (h₁.mem x).mpr (.inr (.inr hx))
      rw [mem_append, mem_singleton]
      tauto
  · rw [SameBlocks] at hsame ⊢
    rw [hsame]

end

end Lists

end PhpEngine.ZendMm

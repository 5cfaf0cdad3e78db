/-
Deletion keeps the representation invariant.
-/
import PhpEngine.HashInvariant

namespace PhpEngine

open List Function

variable {δ : Type}

section Fields

variable {ht : HashTable δ} {p : Addr}

theorem unlinkFromChain_frame (ht : HashTable δ) (p : Addr) : unlinkFromChain ht p = { ht with
        arBuckets := (unlinkFromChain ht p).arBuckets
        pNext := (unlinkFromChain ht p).pNext
        pLast := (unlinkFromChain ht p).pLast } := by
  unfold unlinkFromChain setHead
  simp only
  repeat' split
  all_goals rfl

theorem unlinkFromList_frame (ht : HashTable δ) (p : Addr) : unlinkFromList ht p = { ht with
        pListHead := (unlinkFromList ht p).pListHead
        pListTail := (unlinkFromList ht p).pListTail
        pListNext := (unlinkFromList ht p).pListNext
        pListLast := (unlinkFromList ht p).pListLast } := by
  unfold unlinkFromList
  simp only
  repeat' split
  all_goals rfl

theorem unlinkFromList_listNext (hself : ht.pListLast p ≠ some p) : (unlinkFromList ht p).listNext =
      update ht.listNext (ht.pListLast p) (ht.pListNext p) := by
  funext x
  unfold unlinkFromList
  cases hlast : ht.pListLast p with
  | none =>
    cases hnext : ht.pListNext p <;> cases x <;> simp [HashTable.listNext, update, hnext]
  | some q =>
    have hqp : p ≠ q := by
      rintro rfl
      exact hself hlast
    cases hnext : ht.pListNext p <;> cases x <;> simp [HashTable.listNext, update, hqp, hnext]

theorem unlinkFromList_listLast (hself : ht.pListLast p ≠ some p) : (unlinkFromList ht p).listLast =
      update ht.listLast (ht.pListNext p) (ht.pListLast p) := by
  funext x
  unfold unlinkFromList
  cases hlast : ht.pListLast p with
  | none =>
    cases hnext : ht.pListNext p <;> cases x <;> simp [HashTable.listLast, update, hnext, hlast]
  | some q =>
    have hqp : p ≠ q := by
      rintro rfl
      exact hself hlast
    cases hnext : ht.pListNext p <;> cases x <;>
      simp [HashTable.listLast, update, hqp, hnext, hlast]

/-- In its own chain the bucket is bypassed in both directions. -/
theorem unlinkFromChain_chainNext (hself : ht.pLast p ≠ some p) :
    (unlinkFromChain ht p).chainNext (ht.h p &&& ht.nTableMask) =
      update (ht.chainNext (ht.h p &&& ht.nTableMask)) (ht.pLast p) (ht.pNext p) := by
  funext x
  unfold unlinkFromChain setHead
  cases hlast : ht.pLast p with
  | none =>
    cases hnext : ht.pNext p <;> cases x <;> simp [HashTable.chainNext, update, hnext]
  | some q =>
    have hqp : p ≠ q := by
      rintro rfl
      exact hself hlast
    cases hnext : ht.pNext p <;> cases x <;> simp [HashTable.chainNext, update, hqp, hnext]

theorem unlinkFromChain_chainLast (hself : ht.pLast p ≠ some p) (tail : Option Addr) :
    (unlinkFromChain ht p).chainLast (if ht.pNext p = none then ht.pLast p else tail) =
      update (ht.chainLast tail) (ht.pNext p) (ht.pLast p) := by
  funext x
  unfold unlinkFromChain setHead
  cases hlast : ht.pLast p with
  | none =>
    cases hnext : ht.pNext p <;> cases x <;> simp [HashTable.chainLast, update, hnext, hlast]
  | some q =>
    have hqp : p ≠ q := by
      rintro rfl
      exact hself hlast
    cases hnext : ht.pNext p <;> cases x <;> simp [HashTable.chainLast, update, hqp, hnext, hlast]

/-- Another chain keeps its head, and links of foreign buckets only change at
the two neighbours. -/
theorem unlinkFromChain_other {i : Nat} (hi : i ≠ ht.h p &&& ht.nTableMask) :
    (unlinkFromChain ht p).arBuckets i = ht.arBuckets i := by
  unfold unlinkFromChain setHead
  simp only
  repeat' split
  all_goals simp [update, hi]

theorem unlinkFromChain_pNext_of_ne (hself : ht.pLast p ≠ some p) {q : Addr}
    (hq : ht.pLast p ≠ some q) : (unlinkFromChain ht p).pNext q = ht.pNext q := by
  have hnext := congrFun (unlinkFromChain_chainNext hself) (some q)
  rwa [update_of_ne hq.symm] at hnext

theorem unlinkFromChain_pLast_of_ne (hself : ht.pLast p ≠ some p) {q : Addr}
    (hq : ht.pNext p ≠ some q) : (unlinkFromChain ht p).pLast q = ht.pLast q := by
  have hlast := congrFun (unlinkFromChain_chainLast hself none) (some q)
  rwa [update_of_ne hq.symm] at hlast

end Fields

section Invariant

variable {ht : HashTable δ} {order before after : List Addr} {p : Addr}

theorem Ring.prv_ne_self {β : Type} {nxt prv : β → β} {s a : β}
    {l₁ l₂ : List β} (h : Ring nxt prv s (l₁ ++ a :: l₂)) : prv a ≠ a := by
  rw [h.prv_node]
  have hmem := getLastD_mem_cons s l₁
  have hnodup := h.nodup
  simp only [nodup_cons, mem_append, mem_cons, nodup_append] at hnodup hmem
  grind

theorem ListInv.unlinkFromList (h : ListInv ht (before ++ p :: after)) :
    ListInv (unlinkFromList ht p) (before ++ after) := by
  rw [ListInv, map_append, map_cons] at h
  have hself : ht.pListLast p ≠ some p := h.prv_ne_self
  rw [ListInv, unlinkFromList_listNext hself, unlinkFromList_listLast hself, map_append]
  exact h.remove

/-- The chain of the deleted bucket loses it; every other chain is as
before. -/
theorem ChainInv.unlinkFromChain (hp : p ∈ order) (hnodup : order.Nodup)
    (h : ∀ i ≤ ht.nTableMask, ChainInv ht order i) : ∀ i ≤ ht.nTableMask,
      ChainInv (unlinkFromChain ht p) (order.erase p) i := by
  obtain ⟨tail, l, hring, hmem⟩ := h (ht.h p &&& ht.nTableMask) Nat.and_le_right
  obtain ⟨l₁, l₂, rfl⟩ := append_of_mem ((hmem p).mpr ⟨hp, rfl⟩)
  have hring' := hring
  rw [map_append, map_cons] at hring'
  have hself : ht.pLast p ≠ some p := hring'.prv_ne_self
  have hlnodup : (l₁ ++ p :: l₂).Nodup := List.Nodup.of_map some hring.nodup_nodes
  -- The neighbours of `p` hash to the same chain as `p`.
  have hneighbour : ∀ q, ht.pLast p = some q ∨ ht.pNext p = some q →
      ht.h q &&& ht.nTableMask = ht.h p &&& ht.nTableMask := by
    intro q hq
    have hlast : ht.pLast p = (l₁.map some).getLastD none := hring'.prv_node
    have hnext : ht.pNext p = (l₂.map some).headD none := hring'.nxt_node
    rw [map_some_getLastD] at hlast
    rw [map_some_headD] at hnext
    rcases hq with hq | hq
    · have hq₁ : q ∈ l₁ := mem_of_getLast? (hlast.symm.trans hq)
      exact ((hmem q).mp (mem_append_left _ hq₁)).2
    · have hq₂ : q ∈ l₂ := mem_of_head? (hnext.symm.trans hq)
      exact ((hmem q).mp (mem_append_right _ (mem_cons_of_mem p hq₂))).2
  have hh : (PhpEngine.unlinkFromChain ht p).h = ht.h := by
    rw [unlinkFromChain_frame]
  have hmask : (PhpEngine.unlinkFromChain ht p).nTableMask = ht.nTableMask := by
    rw [unlinkFromChain_frame]
  intro i hi
  by_cases hidx : i = ht.h p &&& ht.nTableMask
  · subst hidx
    refine ⟨if ht.pNext p = none then ht.pLast p else tail, l₁ ++ l₂, ?_, ?_⟩
    · rw [unlinkFromChain_chainNext hself, unlinkFromChain_chainLast hself, map_append]
      exact hring'.remove
    · intro q
      rw [hh, hmask, hnodup.mem_erase_iff]
      have hq := hmem q
      simp only [mem_append, mem_cons, nodup_append, nodup_cons] at hq hlnodup ⊢
      constructor
      · intro hmem'
        have hqp : q ≠ p := by grind
        exact ⟨⟨hqp, (hq.mp (by tauto)).1⟩, (hq.mp (by tauto)).2⟩
      · rintro ⟨⟨hqp, hqorder⟩, hqidx⟩
        have hq' := hq.mpr ⟨hqorder, hqidx⟩
        tauto
  · obtain ⟨tail', l', hring₂, hmem₂⟩ := h i hi
    refine ⟨tail', l', Ring.congr hring₂ ?_ ?_, ?_⟩
    · intro x hx
      cases x with
      | none => exact unlinkFromChain_other hidx
      | some q =>
        apply unlinkFromChain_pNext_of_ne hself
        intro hq
        have hqi := ((hmem₂ q).mp (by simpa using hx)).2
        exact hidx (hqi.symm.trans (hneighbour q (.inl hq)))
    · intro x hx
      cases x with
      | none => rfl
      | some q =>
        apply unlinkFromChain_pLast_of_ne hself
        intro hq
        have hqi := ((hmem₂ q).mp (by simpa using hx)).2
        exact hidx (hqi.symm.trans (hneighbour q (.inr hq)))
    · intro q
      rw [hh, hmask, hmem₂ q, hnodup.mem_erase_iff]
      constructor
      · rintro ⟨hq, hqi⟩
        refine ⟨⟨?_, hq⟩, hqi⟩
        rintro rfl
        exact hidx hqi.symm
      · rintro ⟨⟨_, hq⟩, hqi⟩
        exact ⟨hq, hqi⟩

theorem zendHashBucketDelete_frame (ht : HashTable δ) (p : Addr) : zendHashBucketDelete ht p =
      { ht with
        arBuckets := (zendHashBucketDelete ht p).arBuckets
        pNext := (zendHashBucketDelete ht p).pNext
        pLast := (zendHashBucketDelete ht p).pLast
        pListHead := (zendHashBucketDelete ht p).pListHead
        pListTail := (zendHashBucketDelete ht p).pListTail
        pListNext := (zendHashBucketDelete ht p).pListNext
        pListLast := (zendHashBucketDelete ht p).pListLast
        pInternalPointer := (zendHashBucketDelete ht p).pInternalPointer
        nNumOfElements := (ht.nNumOfElements + uintMod - 1) % uintMod } := by
  unfold zendHashBucketDelete
  rw [unlinkFromList_frame, unlinkFromChain_frame]

theorem zendHashBucketDelete_sameBucket (ht : HashTable δ) (p q : Addr) :
    SameBucket ht (zendHashBucketDelete ht p) q := by
  constructor <;> rw [zendHashBucketDelete_frame]

theorem zendHashBucketDelete_pInternalPointer (h : ListInv ht (before ++ p :: after)) :
    (zendHashBucketDelete ht p).pInternalPointer = if ht.pInternalPointer = some p then after.head?
      else ht.pInternalPointer := by
  have hchain : ListInv (PhpEngine.unlinkFromChain ht p) (before ++ p :: after) := by
    rw [unlinkFromChain_frame]
    exact h
  have hself : (PhpEngine.unlinkFromChain ht p).pListLast p ≠ some p := by
    rw [ListInv, map_append, map_cons] at hchain
    exact hchain.prv_ne_self
  have hnext := congrFun (unlinkFromList_listNext hself) (some p)
  rw [update_of_ne hself.symm] at hnext
  have hptr : (PhpEngine.unlinkFromList (PhpEngine.unlinkFromChain ht p) p).pInternalPointer =
        ht.pInternalPointer := by
    rw [unlinkFromList_frame, unlinkFromChain_frame]
  change (if _ = some p then _ else _) = _
  rw [hptr]
  congr 1
  exact hnext.trans hchain.next

theorem erase_middle (h : (before ++ p :: after).Nodup) :
    (before ++ p :: after).erase p = before ++ after := by
  have hp : p ∉ before := by
    grind
  rw [erase_append_right _ hp, erase_cons_head]

/-- Deletion takes exactly the deleted bucket out of the lists. -/
theorem HashShape.delete (hshape : HashShape ht (before ++ p :: after)) :
    HashShape (zendHashBucketDelete ht p) (before ++ after) := by
  have hnodup := hshape.list.nodup
  have herase := erase_middle hnodup
  have hsub : ∀ q ∈ before ++ after, q ∈ before ++ p :: after := by
    intro q hq
    rw [← herase] at hq
    exact mem_of_mem_erase hq
  have hchain := ChainInv.unlinkFromChain (p := p) (by simp) hnodup hshape.chain
  rw [herase] at hchain
  have hlist : ListInv (zendHashBucketDelete ht p) (before ++ after) := by
    have hstart : ListInv (PhpEngine.unlinkFromChain ht p) (before ++ p :: after) := by
      rw [unlinkFromChain_frame]
      exact hshape.list
    have hunlinked := hstart.unlinkFromList
    generalize hht : PhpEngine.unlinkFromList (PhpEngine.unlinkFromChain ht p) p = ht' at hunlinked
    unfold zendHashBucketDelete
    rw [hht]
    exact hunlinked.congr rfl rfl (fun _ _ => rfl) fun _ _ => rfl
  have hfields := zendHashBucketDelete_frame ht p
  refine
    { size := by rw [hfields]; exact hshape.size
      mask := by rw [hfields]; exact hshape.mask
      uninitialized := ?_
      list := hlist
      count := ?_
      internalPointer := ?_
      allocated := ?_
      applyCount := by rw [hfields]; exact hshape.applyCount
      chain := ?_ }
  · intro hmask
    rw [hfields] at hmask
    have hempty := hshape.uninitialized hmask
    simp at hempty
  · have hcount := hshape.count
    rw [hfields]
    simp only [length_append, length_cons, uintMod] at hcount ⊢
    omega
  · intro q hq
    rw [zendHashBucketDelete_pInternalPointer hshape.list] at hq
    by_cases hcur : ht.pInternalPointer = some p
    · rw [if_pos hcur] at hq
      exact mem_append_right before (mem_of_head? hq)
    · rw [if_neg hcur] at hq
      have hmem := hshape.internalPointer q hq
      have hqp : q ≠ p := by
        rintro rfl
        exact hcur hq
      simp only [mem_append, mem_cons] at hmem ⊢
      tauto
  · intro q hq
    rw [hfields]
    exact hshape.allocated q (hsub q hq)
  · intro i hi
    have hmask : (zendHashBucketDelete ht p).nTableMask = ht.nTableMask := by
      rw [hfields]
    rw [hmask] at hi
    have hi' := hchain i hi
    refine ChainInv.congr hi' ?_ ?_ ?_ ?_ ?_
    all_goals
      unfold zendHashBucketDelete
      rw [unlinkFromList_frame]
    all_goals
      intros
      rfl

/-- Deletion takes exactly the deleted bucket out of the order. -/
theorem HashInv.delete {intern : Nat → KeyBytes} (hinv : HashInv intern ht (before ++ p :: after)) :
    HashInv intern (zendHashBucketDelete ht p) (before ++ after) := by
  have hsub : (before ++ after).Sublist (before ++ p :: after) := by
    rw [← erase_middle hinv.list.nodup]
    exact erase_sublist
  have hsame := zendHashBucketDelete_sameBucket ht p
  apply hinv.hashShape.delete.inv
  · rw [SameBucket.map_bucketKey fun q _ => hsame q]
    exact hinv.keys.sublist (List.Sublist.map _ hsub)
  · intro q hq
    exact (hsame q).bucketOk (hinv.bucket q (hsub.subset hq))

end Invariant

end PhpEngine

/-
The operations that walk the global list: apply, copy, merge, the moves of
the internal pointer and the traversal.
-/
import PhpEngine.HashRefinement

namespace PhpEngine

open List Function Option

variable {δ : Type} {intern : Nat → KeyBytes}

section Apply

variable {ht : HashTable δ} {m : OrderedMap δ}

/-- The apply loop at a list position: the entries in front of it are done
with, and what is left of the list is still to be visited. -/
theorem applyLoop_refines (applyFunc : Nat → δ → ApplyResult)
    (done todo : List Addr) (fuel calls : Nat) (h : RepresentsAt intern ht m (done ++ todo))
    (hfuel : todo.length < fuel) : ∃ ht', applyLoop applyFunc fuel ht calls todo.head? = some ht' ∧
      Represents intern ht' (OrderedMap.applyFrom applyFunc calls
        (todo.map (bucketEntry intern ht)) m) := by
  induction todo generalizing ht m done fuel calls with
  | nil =>
    obtain ⟨n, rfl, -⟩ := exists_succ_of_lt hfuel
    exact ⟨ht, rfl, _, h⟩
  | cons p rest ih =>
    obtain ⟨n, rfl, hrest⟩ := exists_succ_of_lt hfuel
    have hnext : ht.pListNext p = rest.head? := h.inv.list.next
    simp only [head?_cons, applyLoop, map_cons, OrderedMap.applyFrom, hnext]
    by_cases hremove : (applyFunc calls (ht.pData p)).remove = true
    · have hdel := h.delete
      have hsame := zendHashBucketDelete_sameBucket ht p
      have hentry : rest.map (bucketEntry intern ht) =
          rest.map (bucketEntry intern (zendHashBucketDelete ht p)) := by
        apply map_congr_left
        intro q _
        rw [bucketEntry, bucketEntry, (hsame q).bucketKey, zendHashBucketDelete_frame]
      simp only [bucketEntry, hremove, if_true]
      split
      · exact ⟨_, rfl, _, hdel⟩
      · obtain ⟨ht', hrun, hrep⟩ := ih done n (calls + 1) hdel hrest
        refine ⟨ht', hrun, ?_⟩
        rw [← hentry] at hrep
        exact hrep
    · simp only [bucketEntry, hremove]
      split
      · exact ⟨_, rfl, _, h⟩
      · exact ih (done ++ [p]) n (calls + 1) (by simpa using h) hrest

theorem unlinkFromChain_applyCount (ht : HashTable δ) (p : Addr) (count : Nat) :
    unlinkFromChain { ht with nApplyCount := count } p =
      { unlinkFromChain ht p with nApplyCount := count } := by
  unfold unlinkFromChain setHead
  cases hlast : ht.pLast p with
  | none => cases hnext : ht.pNext p <;> simp [hnext]
  | some q =>
    cases hnext : update ht.pNext q (ht.pNext p) p <;> simp [hnext]

theorem unlinkFromList_applyCount (ht : HashTable δ) (p : Addr) (count : Nat) :
    unlinkFromList { ht with nApplyCount := count } p =
      { unlinkFromList ht p with nApplyCount := count } := by
  unfold unlinkFromList
  cases hlast : ht.pListLast p with
  | none => cases hnext : ht.pListNext p <;> simp [hnext]
  | some q =>
    cases hnext : update ht.pListNext q (ht.pListNext p) p <;> simp [hnext]

theorem applyLoop_applyCount (applyFunc : Nat → δ → ApplyResult)
    (fuel : Nat) (ht : HashTable δ) (calls : Nat) (p : Option Addr) (count : Nat) :
    applyLoop applyFunc fuel { ht with nApplyCount := count } calls p =
      (applyLoop applyFunc fuel ht calls p).map fun ht' => { ht' with nApplyCount := count } := by
  induction fuel generalizing ht calls p with
  | zero => rfl
  | succ fuel ih =>
    cases p with
    | none => rfl
    | some p =>
      have hdelete : zendHashBucketDelete { ht with nApplyCount := count } p =
          { zendHashBucketDelete ht p with nApplyCount := count } := by
        rw [zendHashBucketDelete, zendHashBucketDelete,
          unlinkFromChain_applyCount, unlinkFromList_applyCount]
      simp only [applyLoop]
      by_cases hremove : (applyFunc calls (ht.pData p)).remove = true
      · simp only [hremove, if_true, hdelete, ih]
        split <;> rfl
      · simp only [hremove, Bool.false_eq_true, if_false, ih]
        split <;> rfl

theorem zendHashApply_refines (h : Represents intern ht m) (applyFunc : Nat → δ → ApplyResult) :
    ∃ ht', zendHashApply ht applyFunc = some ht' ∧ Represents intern ht'
        (OrderedMap.applyFrom applyFunc 0 m.items m) := by
  obtain ⟨order, h⟩ := h
  have hcount := h.inv.applyCount
  have hlen : order.length < ht.brk + 1 := Nat.lt_succ_of_le
    (length_le_of_nodup_lt h.inv.list.nodup h.inv.allocated)
  obtain ⟨ht', hrun, order', hrep⟩ :=
    applyLoop_refines applyFunc [] order (ht.brk + 1) 0 h hlen
  rw [← h.items, ← h.inv.list.head] at *
  have hcount' := hrep.inv.applyCount
  refine ⟨ht', ?_, order', hrep⟩
  have hguarded := applyLoop_applyCount applyFunc (ht.brk + 1) ht 0
    ht.pListHead (ht.nApplyCount + 1)
  rw [hrun, map_some] at hguarded
  rw [zendHashApply]
  split
  · rw [if_neg (by omega), hguarded]
    change some { ht' with nApplyCount := ht.nApplyCount + 1 - 1 } = some ht'
    rw [Nat.add_sub_cancel, hcount, ← hcount']
  · exact hrun

end Apply

section Copy

variable {target source : HashTable δ} {m sm : OrderedMap δ}

theorem OrderedMap.keys_store_of_mem {m : OrderedMap δ} {key : HashKey}
    (hkey : key ∈ m.keys) (data : δ) : (m.store key data).keys = m.keys := by
  rw [OrderedMap.store, if_pos hkey, OrderedMap.keys, OrderedMap.keys, List.map_map]
  apply map_congr_left
  intro item _
  simp only [comp_apply]
  split <;> rfl

theorem OrderedMap.mem_keys_store (m : OrderedMap δ) (key : HashKey)
    (data : δ) : key ∈ (m.store key data).keys := by
  by_cases hkey : key ∈ m.keys
  · rwa [OrderedMap.keys_store_of_mem hkey]
  · rw [OrderedMap.store, if_neg hkey]
    simp [OrderedMap.keys]

theorem OrderedMap.store_store (m : OrderedMap δ) (key : HashKey) (data data' : δ) :
    (m.store key data).store key data' = m.store key data' := by
  rw [OrderedMap.store, if_pos (m.mem_keys_store key data)]
  by_cases hkey : key ∈ m.keys
  · simp only [OrderedMap.store, if_pos hkey, List.map_map]
    congr 1
    apply map_congr_left
    intro item _
    simp only [comp_apply]
    split
    · rename_i heq
      simp [heq]
    · simp
  · simp only [OrderedMap.store, if_neg hkey, map_append, map_cons, map_nil, if_true]
    congr 2
    conv_rhs => rw [← List.map_id m.items]
    apply map_congr_left
    intro item hitem
    rw [if_neg]
    · rfl
    · rintro rfl
      exact hkey (List.mem_map_of_mem hitem)

theorem OrderedMap.find_store_self (m : OrderedMap δ) (key : HashKey)
    (data : δ) : (m.store key data).find key = some data := by
  rw [OrderedMap.find]
  by_cases hkey : key ∈ m.keys
  · simp only [OrderedMap.store, if_pos hkey]
    obtain ⟨item, hitem, hitemkey⟩ := List.mem_map.mp hkey
    rw [find?_map, Option.map_map]
    cases hfind : m.items.find? ((fun item => decide (item.1 = key)) ∘
        fun item => if item.1 = key then (item.1, data) else item) with
    | none =>
      rw [find?_eq_none] at hfind
      exact absurd (by simp [hitemkey]) (hfind item hitem)
    | some found =>
      have hfound := find?_some hfind
      simp only [comp_apply, decide_eq_true_eq] at hfound
      have hkey' : found.1 = key := by
        by_contra hne
        rw [if_neg hne] at hfound
        exact hne hfound
      simp [hkey']
  · have hnone : m.items.find? (fun item => decide (item.1 = key)) = none := by
      rw [find?_eq_none]
      intro item hitem heq
      rw [decide_eq_true_eq] at heq
      exact hkey (heq ▸ List.mem_map_of_mem hitem)
    simp [OrderedMap.store, hkey, find?_append, hnone]

theorem Stored.applyCopyConstructor {key : HashKey} {data : δ}
    {out : HashTable δ × ZendResult × Option Addr}
    (h : Stored intern key out (m.store key data, .success)) (pCopyConstructor : δ → δ) :
    Represents intern (applyCopyConstructor pCopyConstructor out)
      (m.store key (pCopyConstructor data)) := by
  obtain ⟨ht, result, dest⟩ := out
  obtain ⟨hresult, order, hrep, hdest⟩ := h
  simp only at hresult
  subst hresult
  obtain ⟨p, rfl, hlookup⟩ := hdest rfl
  have hdata : ht.pData p = data := by
    have hfind := hrep.find_eq key
    rw [hlookup, OrderedMap.find_store_self] at hfind
    simpa using hfind
  refine ⟨order, ?_⟩
  rw [← m.store_store key data]
  change RepresentsAt intern (PhpEngine.setData ht p (pCopyConstructor (ht.pData p))) _ order
  rw [hdata]
  exact hrep.setData hlookup _

theorem Stored.failure {key : HashKey} {out : HashTable δ × ZendResult × Option Addr}
    (h : Stored intern key out (m, .failure)) (pCopyConstructor : δ → δ) :
    Represents intern (PhpEngine.applyCopyConstructor pCopyConstructor out) m := by
  obtain ⟨ht, result, dest⟩ := out
  obtain ⟨hresult, order, hrep, -⟩ := h
  subst hresult
  exact ⟨order, hrep⟩

theorem bucketKeyArg_read {p : Addr} (hok : BucketOk intern source p)
    (hlen : source.nKeyLength p ≠ 0) :
    (bucketKeyArg intern source p).read intern = bucketBytes intern source p ∧
      bucketKey intern source p = .string (bucketBytes intern source p) ∧
      bucketBytes intern source p ≠ [] ∧
      source.h p = zendHashFunc (bucketBytes intern source p) := by
  rw [BucketOk, if_neg hlen] at hok
  obtain ⟨_, hbytes, hhash⟩ := hok
  refine ⟨?_, ?_, ?_, hhash⟩
  · rw [bucketKeyArg]
    cases harKey : source.arKey p with
    | interned i => simp [KeyArg.read, bucketBytes, harKey]
    | null | own => simp [KeyArg.read, hbytes]
  · rw [bucketKey, if_pos hlen, hbytes, take_length]
  · intro hnil
    rw [hnil] at hbytes
    exact hlen hbytes

/-- One source bucket reaches the target under its own key. -/
theorem storeFrom_refines (h : Represents intern target m) {p : Addr}
    (hok : BucketOk intern source p) (flag : HashFlag) :
    ∃ out, storeFrom intern source p flag target = some out ∧
      Stored intern (bucketKey intern source p) out
        (m.addOrUpdate (bucketKey intern source p) (source.pData p)
          (decide (source.nKeyLength p ≠ 0 ∧ flag = .add))) := by
  obtain ⟨order, h⟩ := h
  rw [storeFrom]
  by_cases hlen : source.nKeyLength p = 0
  · rw [if_neg (by simpa using hlen)]
    have hkey : bucketKey intern source p = .long (source.h p) := by
      simp [bucketKey, hlen]
    obtain ⟨out, hrun, hstored⟩ := zendHashIndexUpdateOrNextInsert_refines h
      (source.h p) (source.pData p) .update
    refine ⟨out, hrun, ?_⟩
    rw [hkey]
    simpa [hlen] using hstored
  · rw [if_pos hlen]
    obtain ⟨hread, hkey, hne, hhash⟩ := bucketKeyArg_read hok hlen
    have hne' : (bucketKeyArg intern source p).read intern ≠ [] := by
      rwa [hread]
    obtain ⟨out, hrun, hstored⟩ := zendHashQuickAddOrUpdate_refines h hne' (source.pData p) flag
    rw [hread, ← hhash] at hrun
    refine ⟨out, hrun, ?_⟩
    rw [hread, ← hkey] at hstored
    simpa [hlen] using hstored

theorem Represents.setCur (h : Represents intern target m) :
    Represents intern { target with pInternalPointer := none } { m with cur := none } := by
  obtain ⟨order, h⟩ := h
  exact ⟨order, ⟨⟨h.inv.size, h.inv.mask, h.inv.uninitialized, h.inv.list,
    h.inv.count, by simp, h.inv.keys, h.inv.bucket, h.inv.allocated,
    h.inv.applyCount⟩, h.inv.chain⟩, h.items, rfl, h.nextFree⟩

theorem copyLoop_refines {sorder : List Addr} (hsource : RepresentsAt intern source sm sorder)
    (pCopyConstructor : δ → δ) (setTargetPointer : Bool)
    (done todo : List Addr) (fuel : Nat) (hsplit : sorder = done ++ todo)
    (hfuel : todo.length < fuel) (h : Represents intern target m) :
    ∃ target', copyLoop intern source pCopyConstructor setTargetPointer fuel
        target todo.head? = some target' ∧
      Represents intern target' (OrderedMap.copyFrom sm pCopyConstructor
        setTargetPointer (todo.map (bucketEntry intern source)) m) := by
  induction todo generalizing target m done fuel with
  | nil =>
    obtain ⟨n, rfl, -⟩ := exists_succ_of_lt hfuel
    exact ⟨target, rfl, h⟩
  | cons p rest ih =>
    obtain ⟨n, rfl, hrest⟩ := exists_succ_of_lt hfuel
    have hp : p ∈ sorder := by simp [hsplit]
    have hnext : source.pListNext p = rest.head? := by
      have hlist := hsource.inv.list
      rw [hsplit] at hlist
      exact hlist.next
    have hcur : source.pInternalPointer = some p ↔ sm.cur = some (bucketKey intern source p) := by
      rw [hsource.cur]
      constructor
      · intro heq
        rw [heq]
        rfl
      · intro heq
        obtain ⟨q, hq, hqkey⟩ := map_eq_some_iff.mp heq
        rw [hq, hsource.inv.key_unique (hsource.inv.internalPointer q hq) hp hqkey]
    simp only [head?_cons, copyLoop, map_cons, OrderedMap.copyFrom, hnext, hcur]
    -- The target's pointer is reset at the source's current bucket.
    have hstart : Represents intern (if setTargetPointer = true ∧
            sm.cur = some (bucketKey intern source p) then
          { target with pInternalPointer := none } else target)
        (if setTargetPointer = true ∧ sm.cur = some (bucketEntry intern source p).1 then
          { m with cur := none } else m) := by
      change Represents intern _ (if setTargetPointer = true ∧
        sm.cur = some (bucketKey intern source p) then _ else _)
      split
      · exact h.setCur
      · exact h
    obtain ⟨out, hrun, hstored⟩ :=
      storeFrom_refines hstart (hsource.inv.bucket p hp) .update
    rw [OrderedMap.addOrUpdate, if_neg (by simp)] at hstored
    obtain ⟨target', hloop, hrep⟩ := ih (done ++ [p]) n (by simp [hsplit])
      hrest (hstored.applyCopyConstructor pCopyConstructor)
    refine ⟨target', ?_, hrep⟩
    rw [hrun]
    exact hloop

theorem RepresentsAt.setPointer {ht : HashTable δ} {order : List Addr}
    (h : RepresentsAt intern ht m order) {pos : Option Addr}
    (hpos : ∀ p, pos = some p → p ∈ order) : RepresentsAt intern { ht with pInternalPointer := pos }
      { m with cur := pos.map (bucketKey intern ht) } order :=
  ⟨⟨⟨h.inv.size, h.inv.mask, h.inv.uninitialized, h.inv.list,
    h.inv.count, hpos, h.inv.keys, h.inv.bucket, h.inv.allocated,
    h.inv.applyCount⟩, h.inv.chain⟩, h.items, rfl, h.nextFree⟩

theorem RepresentsAt.head_key {ht : HashTable δ} {order : List Addr}
    (h : RepresentsAt intern ht m order) :
    ht.pListHead.map (bucketKey intern ht) = m.keys.head? := by
  rw [h.inv.list.head, h.keys, head?_map]

theorem RepresentsAt.reset {ht : HashTable δ} {order : List Addr}
    (h : RepresentsAt intern ht m order) :
    RepresentsAt intern { ht with pInternalPointer := ht.pListHead }
      { m with cur := m.keys.head? } order := by
  rw [← h.head_key]
  apply h.setPointer
  intro p hp
  rw [h.inv.list.head] at hp
  exact mem_of_head? hp

theorem zendHashCopy_refines (h : Represents intern target m)
    (hsource : Represents intern source sm) (pCopyConstructor : δ → δ) :
    ∃ target', zendHashCopy intern target source pCopyConstructor = some target' ∧
      Represents intern target' (m.copy sm pCopyConstructor) := by
  obtain ⟨sorder, hsource⟩ := hsource
  have hlen : sorder.length < source.brk + 1 := Nat.lt_succ_of_le
    (length_le_of_nodup_lt hsource.inv.list.nodup hsource.inv.allocated)
  have hcur : target.pInternalPointer.isNone = m.cur.isNone := by
    obtain ⟨order, h⟩ := h
    rw [h.cur, isNone_map]
  obtain ⟨target', hrun, order', hrep⟩ := copyLoop_refines hsource
    pCopyConstructor target.pInternalPointer.isNone [] sorder (source.brk + 1)
    rfl hlen h
  rw [← hsource.items, hcur] at hrep
  rw [← hsource.inv.list.head] at hrun
  rw [zendHashCopy, hrun, OrderedMap.copy]
  refine ⟨_, rfl, order', ?_⟩
  generalize OrderedMap.copyFrom sm pCopyConstructor m.cur.isNone sm.items m = m' at hrep
  cases hptr : target'.pInternalPointer with
  | none =>
    have hcur' : m'.cur = none := by rw [hrep.cur, hptr]; rfl
    have hkeep : (m'.cur <|> m'.keys.head?) = m'.keys.head? := by
      simp [hcur']
    simp only [isNone_none, if_true, hkeep]
    exact hrep.reset
  | some q =>
    have hcur' : m'.cur = some (bucketKey intern target' q) := by
      rw [hrep.cur, hptr]
      rfl
    have hkeep : (m'.cur <|> m'.keys.head?) = m'.cur := by simp [hcur']
    simp only [isNone_some, Bool.false_eq_true, if_false, hkeep]
    exact hrep

/-- The explicit test of the merge and the search behind it agree. -/
theorem zendHashIndexExists_eq (h : Represents intern target m) (idx : Nat) :
    zendHashIndexExists target idx = some (decide (HashKey.long idx ∈ m.keys)) := by
  obtain ⟨order, h⟩ := h
  rw [zendHashIndexExists, h.inv.findIndex_eq]
  change some (Option.isSome _) = _
  rw [some_inj, Bool.eq_iff_iff, decide_eq_true_iff, ← not_iff_not, ← h.lookup_eq_none_iff]
  simp

theorem mergeRound_refines (h : Represents intern target m) {p : Addr}
    (hp : BucketOk intern source p) (pCopyConstructor : δ → δ) (overwrite : Bool) :
    ∃ target', mergeRound intern source pCopyConstructor overwrite p target = some target' ∧
      Represents intern target' (if !overwrite ∧ bucketKey intern source p ∈ m.keys then m
          else m.store (bucketKey intern source p) (pCopyConstructor (source.pData p))) := by
  obtain ⟨out, hrun, hstored⟩ := storeFrom_refines h hp (if overwrite then .update else .add)
  cases overwrite with
  | true =>
    simp only [if_true] at hrun
    rw [OrderedMap.addOrUpdate, if_neg (by simp)] at hstored
    refine ⟨applyCopyConstructor pCopyConstructor out, ?_, ?_⟩
    · simp [mergeRound, hrun]
    · simpa using hstored.applyCopyConstructor pCopyConstructor
  | false =>
    simp only [Bool.false_eq_true, if_false] at hrun
    by_cases hlen : source.nKeyLength p = 0
    · have hkey : bucketKey intern source p = .long (source.h p) := by
        simp [bucketKey, hlen]
      have hexists := zendHashIndexExists_eq h (source.h p)
      rw [OrderedMap.addOrUpdate, if_neg (by simp [hlen]), hkey] at hstored
      rw [hkey]
      by_cases hmem : HashKey.long (source.h p) ∈ m.keys
      · exact ⟨target, by simp [mergeRound, hlen, hexists, hmem], by simpa [hmem] using h⟩
      · refine ⟨applyCopyConstructor pCopyConstructor out, ?_, ?_⟩
        · simp [mergeRound, hlen, hexists, hmem, hrun]
        · simpa [hmem] using hstored.applyCopyConstructor pCopyConstructor
    · refine ⟨applyCopyConstructor pCopyConstructor out, ?_, ?_⟩
      · simp [mergeRound, hlen, hrun]
      · by_cases hmem : bucketKey intern source p ∈ m.keys
        · rw [OrderedMap.addOrUpdate, if_pos ⟨by simpa using hlen, hmem⟩] at hstored
          simpa [hmem] using hstored.failure pCopyConstructor
        · rw [OrderedMap.addOrUpdate, if_neg (by simp [hmem])] at hstored
          simpa [hmem] using hstored.applyCopyConstructor pCopyConstructor

theorem mergeLoop_refines {sorder : List Addr} (hsource : RepresentsAt intern source sm sorder)
    (pCopyConstructor : δ → δ) (overwrite : Bool)
    (done todo : List Addr) (fuel : Nat) (hsplit : sorder = done ++ todo)
    (hfuel : todo.length < fuel) (h : Represents intern target m) :
    ∃ target', mergeLoop intern source pCopyConstructor overwrite fuel
        target todo.head? = some target' ∧
      Represents intern target' (OrderedMap.mergeFrom pCopyConstructor
        overwrite (todo.map (bucketEntry intern source)) m) := by
  induction todo generalizing target m done fuel with
  | nil =>
    obtain ⟨n, rfl, -⟩ := exists_succ_of_lt hfuel
    exact ⟨target, rfl, h⟩
  | cons p rest ih =>
    obtain ⟨n, rfl, hrest⟩ := exists_succ_of_lt hfuel
    have hp : p ∈ sorder := by simp [hsplit]
    have hnext : source.pListNext p = rest.head? := by
      have hlist := hsource.inv.list
      rw [hsplit] at hlist
      exact hlist.next
    obtain ⟨target', hstep, hrep⟩ := mergeRound_refines h
      (hsource.inv.bucket p hp) pCopyConstructor overwrite
    obtain ⟨final, hloop, hfinal⟩ := ih (done ++ [p]) n (by simp [hsplit]) hrest hrep
    refine ⟨final, ?_, hfinal⟩
    rw [head?_cons, mergeLoop, hstep, hnext]
    exact hloop

theorem zendHashMerge_refines (h : Represents intern target m)
    (hsource : Represents intern source sm) (pCopyConstructor : δ → δ) (overwrite : Bool) :
    ∃ target', zendHashMerge intern target source pCopyConstructor overwrite = some target' ∧
      Represents intern target' (m.merge sm pCopyConstructor overwrite) := by
  obtain ⟨sorder, hsource⟩ := hsource
  have hlen : sorder.length < source.brk + 1 := Nat.lt_succ_of_le
    (length_le_of_nodup_lt hsource.inv.list.nodup hsource.inv.allocated)
  obtain ⟨target', hrun, order', hrep⟩ := mergeLoop_refines hsource
    pCopyConstructor overwrite [] sorder (source.brk + 1) rfl hlen h
  rw [← hsource.items] at hrep
  rw [← hsource.inv.list.head] at hrun
  rw [zendHashMerge, hrun]
  exact ⟨_, rfl, order', hrep.reset⟩

end Copy

section Position

variable {ht : HashTable δ} {m : OrderedMap δ} {order : List Addr}

theorem RepresentsAt.toEnd (h : RepresentsAt intern ht m order) :
    RepresentsAt intern { ht with pInternalPointer := ht.pListTail }
      { m with cur := m.keys.getLast? } order := by
  have htail := h.inv.list.tail
  have hcur : m.keys.getLast? = ht.pListTail.map (bucketKey intern ht) := by
    rw [htail, h.keys, getLast?_map]
  rw [hcur]
  apply h.setPointer
  intro p hp
  rw [htail] at hp
  exact mem_of_getLast? hp

/-- A move from the current entry to its successor or predecessor; a null
pointer stays where it is. -/
theorem zendHashMoveForward_refines (h : RepresentsAt intern ht m order) :
    (zendHashMoveForward ht).2 = (if m.cur.isSome then .success else .failure) ∧
      RepresentsAt intern (zendHashMoveForward ht).1
        { m with cur := m.cur.bind m.successor } order := by
  cases hptr : ht.pInternalPointer with
  | none =>
    have hcur : m.cur = none := by rw [h.cur, hptr]; rfl
    simp only [zendHashMoveForward, moveForward, hptr, hcur]
    have hnone : ∀ q, (none : Option Addr) = some q → q ∈ order := by simp
    exact ⟨rfl, h.setPointer hnone⟩
  | some p =>
    have hcur : m.cur = some (bucketKey intern ht p) := by
      rw [h.cur, hptr]
      rfl
    obtain ⟨before, after, rfl⟩ :=
      append_of_mem (h.inv.internalPointer p hptr)
    have hnext := h.inv.list.next
    simp only [zendHashMoveForward, moveForward, hptr, hcur, bind_some, h.successor_eq, hnext]
    refine ⟨rfl, h.setPointer ?_⟩
    intro q hq
    exact mem_append_right before (mem_cons_of_mem p (mem_of_head? hq))

theorem zendHashMoveBackwards_refines (h : RepresentsAt intern ht m order) :
    (zendHashMoveBackwards ht).2 = (if m.cur.isSome then .success else .failure) ∧
      RepresentsAt intern (zendHashMoveBackwards ht).1
        { m with cur := m.cur.bind m.predecessor } order := by
  cases hptr : ht.pInternalPointer with
  | none =>
    have hcur : m.cur = none := by rw [h.cur, hptr]; rfl
    simp only [zendHashMoveBackwards, moveBackwards, hptr, hcur]
    have hnone : ∀ q, (none : Option Addr) = some q → q ∈ order := by simp
    exact ⟨rfl, h.setPointer hnone⟩
  | some p =>
    have hcur : m.cur = some (bucketKey intern ht p) := by
      rw [h.cur, hptr]
      rfl
    obtain ⟨before, after, rfl⟩ :=
      append_of_mem (h.inv.internalPointer p hptr)
    have hlast := h.inv.list.last
    simp only [zendHashMoveBackwards, moveBackwards, hptr, hcur, bind_some, h.predecessor_eq, hlast]
    refine ⟨rfl, h.setPointer ?_⟩
    intro q hq
    exact mem_append_left _ (mem_of_getLast? hq)

/-- The traversal from a list position yields the entries from there on. -/
theorem iterateLoop_eq (done todo : List Addr) (fuel : Nat)
    (hlist : ListInv ht (done ++ todo)) (hfuel : todo.length < fuel) :
    iterateLoop intern ht fuel todo.head? = some (todo.map (bucketEntry intern ht)) := by
  induction todo generalizing done fuel with
  | nil =>
    obtain ⟨n, rfl, -⟩ := exists_succ_of_lt hfuel
    rfl
  | cons p rest ih =>
    obtain ⟨n, rfl, hrest⟩ := exists_succ_of_lt hfuel
    have hnext := hlist.next
    simp only [head?_cons, iterateLoop, zendHashGetCurrentKey,
      zendHashGetCurrentData, map_some, moveForward, hnext]
    rw [ih (done ++ [p]) n (by simpa using hlist) hrest]
    rfl

theorem zendHashIterate_eq (h : RepresentsAt intern ht m order) :
    zendHashIterate intern ht = some m.items := by
  have hlen : order.length < ht.brk + 1 := Nat.lt_succ_of_le
    (length_le_of_nodup_lt h.inv.list.nodup h.inv.allocated)
  rw [zendHashIterate, h.inv.list.head,
    iterateLoop_eq [] order (ht.brk + 1) h.inv.list hlen, h.items]

/-- The data under the internal pointer is the data of the current key. -/
theorem currentData_eq (h : RepresentsAt intern ht m order) :
    zendHashGetCurrentData ht ht.pInternalPointer = m.cur.bind m.find := by
  rw [zendHashGetCurrentData, h.cur]
  cases hptr : ht.pInternalPointer with
  | none => rfl
  | some p =>
    have hmem := h.inv.internalPointer p hptr
    have hlookup : lookupKey intern ht order (bucketKey intern ht p) = some p := by
      cases hfind : lookupKey intern ht order (bucketKey intern ht p) with
      | none => exact absurd rfl (lookupKey_eq_none hfind p hmem)
      | some q =>
        obtain ⟨hq, hkey⟩ := lookupKey_eq_some hfind
        rw [h.inv.key_unique hq hmem hkey]
    have hfind := h.find_eq (bucketKey intern ht p)
    rw [hlookup] at hfind
    exact hfind

end Position

end PhpEngine

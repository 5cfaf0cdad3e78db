/-
The hash table refines the insertion-ordered association list, operation by
operation.
-/
import PhpEngine.HashInsert
import PhpEngine.OrderedMap

namespace PhpEngine

open List Function Option

variable {p : Addr} {before after : List Addr}

variable {δ : Type} {intern : Nat → KeyBytes}

/-- The entry a bucket holds. -/
def bucketEntry (intern : Nat → KeyBytes) (ht : HashTable δ) (p : Addr) : HashKey × δ :=
  (bucketKey intern ht p, ht.pData p)

/-- The table is well formed and its buckets, read in list order, are the
entries of `m`. -/
structure RepresentsAt (intern : Nat → KeyBytes) (ht : HashTable δ)
    (m : OrderedMap δ) (order : List Addr) : Prop where
  inv : HashInv intern ht order
  items : m.items = order.map (bucketEntry intern ht)
  cur : m.cur = ht.pInternalPointer.map (bucketKey intern ht)
  nextFree : m.nextFree = ht.nNextFreeElement

def Represents (intern : Nat → KeyBytes) (ht : HashTable δ) (m : OrderedMap δ) : Prop :=
  ∃ order, RepresentsAt intern ht m order

namespace RepresentsAt

variable {ht : HashTable δ} {m : OrderedMap δ} {order : List Addr}

section

variable (h : RepresentsAt intern ht m order)
include h

theorem keys : m.keys = order.map (bucketKey intern ht) := by
  rw [OrderedMap.keys, h.items, List.map_map]
  rfl

theorem lookup_eq_none_iff (key : HashKey) :
    lookupKey intern ht order key = none ↔ key ∉ m.keys := by
  rw [h.keys]
  simp [lookupKey]

theorem find_eq (key : HashKey) :
    (lookupKey intern ht order key).map ht.pData = m.find key := by
  rw [OrderedMap.find, h.items, find?_map, lookupKey, Option.map_map]
  rfl

theorem isSome_eq (key : HashKey) :
    (lookupKey intern ht order key).isSome = (m.find key).isSome := by
  rw [← h.find_eq key, isSome_map]

theorem setData {key : HashKey} (hp : lookupKey intern ht order key = some p) (data : δ) :
    RepresentsAt intern { ht with pData := update ht.pData p data } (m.store key data) order := by
  obtain ⟨hmem, hkey⟩ := lookupKey_eq_some hp
  have hpresent : key ∈ m.keys := by
    rw [h.keys, ← hkey]
    exact List.mem_map_of_mem hmem
  rw [OrderedMap.store, if_pos hpresent]
  refine ⟨?_, ?_, h.cur, h.nextFree⟩
  · exact ⟨⟨h.inv.size, h.inv.mask, h.inv.uninitialized, h.inv.list,
      h.inv.count, h.inv.internalPointer, h.inv.keys, h.inv.bucket,
      h.inv.allocated, h.inv.applyCount⟩, h.inv.chain⟩
  · change m.items.map _ = _
    rw [h.items, List.map_map]
    apply map_congr_left
    intro q hq
    change (if bucketKey intern ht q = key then (bucketKey intern ht q, data)
      else (bucketKey intern ht q, ht.pData q)) =
      (bucketKey intern ht q, update ht.pData p data q)
    by_cases hqp : q = p
    · subst hqp
      rw [if_pos hkey, update_self]
    · rw [if_neg, update_of_ne hqp]
      intro hqkey
      exact hqp (h.inv.key_unique hq hmem (hqkey.trans hkey.symm))

end

end RepresentsAt

/-- `ht'` is `ht` with one more bucket allocated, not linked anywhere. -/
structure FreshBucket (ht ht' : HashTable δ) : Prop where
  frame : ht' = { ht with
    brk := ht.brk + 1
    h := ht'.h
    nKeyLength := ht'.nKeyLength
    arKey := ht'.arKey
    keyStore := ht'.keyStore
    pData := ht'.pData
    nNextFreeElement := ht'.nNextFreeElement }
  same : ∀ q, q ≠ ht.brk → SameBucket ht ht' q
  data : ∀ q, q ≠ ht.brk → ht'.pData q = ht.pData q

section Fresh

variable {ht ht' : HashTable δ} {order : List Addr}

theorem TableShape.brk_not_mem (hshape : TableShape ht order) : ht.brk ∉ order :=
  fun hmem => Nat.lt_irrefl _ (hshape.allocated _ hmem)

theorem HashInv.brk_not_mem (hinv : HashInv intern ht order) : ht.brk ∉ order :=
  hinv.shape.brk_not_mem

theorem HashShape.fresh (hshape : HashShape ht order)
    (hfresh : FreshBucket ht ht') : HashShape ht' order := by
  have hframe := hfresh.frame
  have hmask : ht'.nTableMask = ht.nTableMask := by rw [hframe]
  refine ⟨?_, ?_⟩
  · refine
      { size := by rw [hframe]; exact hshape.size
        mask := by rw [hframe]; exact hshape.mask
        uninitialized := by rw [hframe]; exact hshape.uninitialized
        list := by rw [hframe]; exact hshape.list
        count := by rw [hframe]; exact hshape.count
        internalPointer := by rw [hframe]; exact hshape.internalPointer
        allocated := ?_
        applyCount := by rw [hframe]; exact hshape.applyCount }
    intro q hq
    rw [hframe]
    exact Nat.lt_succ_of_lt (hshape.allocated q hq)
  · intro i hi
    rw [hmask] at hi
    refine (hshape.chain i hi).congr ?_ hmask ?_ ?_ fun q hq =>
      (hfresh.same q fun heq => hshape.brk_not_mem (heq ▸ hq)).h
    all_goals rw [hframe]
    all_goals
      intros
      rfl

theorem HashInv.fresh (hinv : HashInv intern ht order)
    (hfresh : FreshBucket ht ht') : HashInv intern ht' order := by
  have hsame : ∀ q ∈ order, SameBucket ht ht' q := by
    intro q hq
    exact hfresh.same q fun heq => hinv.brk_not_mem (heq ▸ hq)
  apply (hinv.hashShape.fresh hfresh).inv
  · rw [SameBucket.map_bucketKey hsame]
    exact hinv.keys
  · exact fun q hq => (hsame q hq).bucketOk (hinv.bucket q hq)

theorem RepresentsAt.insert {m : OrderedMap δ}
    (h : RepresentsAt intern ht m order) (hmask : ht.nTableMask ≠ 0)
    (hfresh : FreshBucket ht ht') (hok : BucketOk intern ht' ht.brk)
    (hkey : bucketKey intern ht' ht.brk ∉ m.keys) :
    ∃ ht'', linkBucket ht' ht.brk (ht'.h ht.brk &&& ht'.nTableMask) = some ht'' ∧
      RepresentsAt intern ht'' ⟨m.items ++ [bucketEntry intern ht' ht.brk],
          m.cur <|> some (bucketKey intern ht' ht.brk), ht'.nNextFreeElement⟩ (order ++ [ht.brk]) ∧
      ht''.pData = ht'.pData ∧ lookupKey intern ht'' (order ++ [ht.brk])
        (bucketKey intern ht' ht.brk) = some ht.brk := by
  have hinv' := h.inv.fresh hfresh
  have hsame : ∀ q ∈ order, SameBucket ht ht' q := fun q hq =>
    hfresh.same q fun heq => h.inv.brk_not_mem (heq ▸ hq)
  have hmask' : ht'.nTableMask ≠ 0 := by
    rw [hfresh.frame]
    exact hmask
  have hptr : ht'.pInternalPointer = ht.pInternalPointer := by
    rw [hfresh.frame]
  have hbrk : ht.brk < ht'.brk := by
    rw [hfresh.frame]
    exact Nat.lt_succ_self _
  have hdistinct : ∀ q ∈ order, bucketKey intern ht' q ≠ bucketKey intern ht' ht.brk := by
    intro q hq heq
    apply hkey
    rw [h.keys, ← heq, (hsame q hq).bucketKey]
    exact List.mem_map_of_mem hq
  obtain ⟨ht'', hrun, hinv'', hcontents, hcur, -⟩ :=
    hinv'.linkBucket hmask' h.inv.brk_not_mem hbrk hok hdistinct
  refine ⟨ht'', hrun, ⟨hinv'', ?_, ?_, ?_⟩, hcontents.pData, ?_⟩
  · have hentry : ∀ q, bucketEntry intern ht'' q = bucketEntry intern ht' q := by
      intro q
      rw [bucketEntry, bucketEntry, (hcontents.sameBucket q).bucketKey, hcontents.pData]
    change m.items ++ _ = _
    rw [map_append, h.items]
    congr 1
    · apply map_congr_left
      intro q hq
      rw [hentry, bucketEntry, bucketEntry, (hsame q hq).bucketKey,
        hfresh.data q fun heq => h.inv.brk_not_mem (heq ▸ hq)]
    · simp [hentry]
  · change (m.cur <|> _) = _
    rw [hcur, hptr, h.cur]
    cases hnow : ht.pInternalPointer with
    | none =>
      change some _ = some _
      rw [(hcontents.sameBucket ht.brk).bucketKey]
    | some q =>
      change some _ = some _
      rw [(hcontents.sameBucket q).bucketKey, (hsame q (h.inv.internalPointer q hnow)).bucketKey]
  · exact hcontents.nNextFreeElement.symm
  · have hkey'' : ∀ q, bucketKey intern ht'' q = bucketKey intern ht' q :=
      fun q => (hcontents.sameBucket q).bucketKey intern
    rw [lookupKey, find?_append]
    have hnone : order.find? (fun q => decide (bucketKey intern ht'' q =
        bucketKey intern ht' ht.brk)) = none := by
      rw [find?_eq_none]
      intro q hq
      simpa [hkey''] using hdistinct q hq
    rw [hnone]
    simp [hkey'']

theorem HashInv.checkInit_represents {m : OrderedMap δ} (h : RepresentsAt intern ht m order) :
    RepresentsAt intern (PhpEngine.checkInit ht) m order ∧
      (PhpEngine.checkInit ht).nTableMask ≠ 0 := by
  obtain ⟨hinv, hmask, hsame⟩ := h.inv.checkInit
  refine ⟨⟨hinv, ?_, ?_, ?_⟩, hmask⟩
  · rw [hsame]
    exact h.items
  · rw [hsame]
    exact h.cur
  · rw [hsame]
    exact h.nextFree

end Fresh

/-! Storing under a string key or an index. -/

section Store

variable {ht : HashTable δ} {m : OrderedMap δ} {order : List Addr}

theorem newBucket_storeKey_fresh (ht : HashTable δ) (key : KeyArg) (h n : Nat) (data : δ) :
    FreshBucket ht (storeKey (newBucket ht h n data) ht.brk key) := by
  cases key with
  | interned i | plain b =>
    refine ⟨rfl, ?_, ?_⟩
    · intro q hq
      constructor <;> simp [storeKey, newBucket, hq]
    · intro q hq
      simp [storeKey, newBucket, hq]

theorem storeKey_bucketBytes (intern : Nat → KeyBytes) (ht : HashTable δ) (key : KeyArg) (h n : Nat)
    (data : δ) : bucketBytes intern (storeKey (newBucket ht h n data) ht.brk key) ht.brk =
      key.read intern := by
  cases key <;> simp [storeKey, newBucket, bucketBytes, KeyArg.read]

theorem storeKey_fields (ht : HashTable δ) (key : KeyArg) (h n : Nat) (data : δ) :
    (storeKey (newBucket ht h n data) ht.brk key).nKeyLength ht.brk = n ∧
    (storeKey (newBucket ht h n data) ht.brk key).h ht.brk = h ∧
    (storeKey (newBucket ht h n data) ht.brk key).pData ht.brk = data ∧
    (storeKey (newBucket ht h n data) ht.brk key).arKey ht.brk ≠ .null ∧
    (storeKey (newBucket ht h n data) ht.brk key).nTableMask = ht.nTableMask ∧
    (storeKey (newBucket ht h n data) ht.brk key).nNextFreeElement = ht.nNextFreeElement := by
  cases key <;> simp [storeKey, newBucket]

/-- What a storing function does with a key: with the add flag a present key
is refused, otherwise its data is replaced; a new key is appended. -/
def OrderedMap.addOrUpdate (m : OrderedMap δ) (key : HashKey) (data : δ)
    (add : Bool) : OrderedMap δ × ZendResult :=
  if add ∧ key ∈ m.keys then (m, .failure)
  else (m.store key data, .success)

/-- The outcome of a storing function: the new table, and on success the
bucket that now holds the key. -/
def Stored (intern : Nat → KeyBytes) (key : HashKey) (out : HashTable δ × ZendResult × Option Addr)
    (expected : OrderedMap δ × ZendResult) : Prop :=
  out.2.1 = expected.2 ∧ ∃ order, RepresentsAt intern out.1 expected.1 order ∧
    (out.2.1 = .success → ∃ p, out.2.2 = some p ∧ lookupKey intern out.1 order key = some p)

theorem zendHashQuickAddOrUpdate_refines (h : RepresentsAt intern ht m order) {key : KeyArg}
    (hkey : key.read intern ≠ []) (data : δ) (flag : HashFlag) :
    ∃ out, zendHashQuickAddOrUpdate intern ht key
        (zendHashFunc (key.read intern)) data flag = some out ∧
      Stored intern (.string (key.read intern)) out (m.addOrUpdate (.string (key.read intern)) data
          (decide (flag = .add))) := by
  obtain ⟨hinit, hmask⟩ := HashInv.checkInit_represents h
  rw [zendHashQuickAddOrUpdate]
  generalize checkInit ht = table at hinit hmask
  have hfind := hinit.inv.findKey_eq hkey
  rw [findKey] at hfind
  simp only [hfind, bind_eq_bind, bind_some]
  cases hlookup : lookupKey intern table order (.string (key.read intern)) with
  | some p =>
    have hpresent : .string (key.read intern) ∈ m.keys := by
      by_contra habsent
      rw [(hinit.lookup_eq_none_iff _).mpr habsent] at hlookup
      cases hlookup
    by_cases hflag : flag = .add
    · refine ⟨(table, .failure, none), by simp [hflag], ?_⟩
      rw [OrderedMap.addOrUpdate, if_pos ⟨by simpa using hflag, hpresent⟩]
      exact ⟨rfl, order, hinit, by simp⟩
    · refine ⟨({ table with pData := update table.pData p data },
        .success, some p), by simp [hflag], ?_⟩
      rw [OrderedMap.addOrUpdate, if_neg (by simp [hflag])]
      exact ⟨rfl, order, hinit.setData hlookup data, fun _ => ⟨p, rfl, hlookup⟩⟩
  | none =>
    have habsent := (hinit.lookup_eq_none_iff _).mp hlookup
    obtain ⟨hlen, hh, hdata, hnull, hmask', hnext⟩ :=
      storeKey_fields table key (zendHashFunc (key.read intern)) (key.read intern).length data
    have hbytes := storeKey_bucketBytes intern table key
      (zendHashFunc (key.read intern)) (key.read intern).length data
    have hfresh := newBucket_storeKey_fresh table key
      (zendHashFunc (key.read intern)) (key.read intern).length data
    generalize storeKey (newBucket table (zendHashFunc (key.read intern))
      (key.read intern).length data) table.brk key = fresh
      at hlen hh hdata hnull hmask' hnext hbytes hfresh
    have hpos : fresh.nKeyLength table.brk ≠ 0 := by
      rw [hlen]
      simpa using hkey
    have hbucketKey : bucketKey intern fresh table.brk = .string (key.read intern) := by
      rw [bucketKey, if_pos hpos, hbytes, hlen, take_length]
    have hok : BucketOk intern fresh table.brk := by
      rw [BucketOk, if_neg hpos, hbytes]
      exact ⟨hnull, hlen, hh⟩
    obtain ⟨final, hrun, hrep, -, hdest⟩ :=
      hinit.insert hmask hfresh hok (by rwa [hbucketKey])
    rw [hh, hmask'] at hrun
    refine ⟨(final, .success, some table.brk), by simp [hrun], ?_⟩
    rw [OrderedMap.addOrUpdate, if_neg (by simp [habsent])]
    refine ⟨rfl, order ++ [table.brk], ?_, ?_⟩
    · rw [OrderedMap.store, if_neg habsent]
      rw [bucketEntry, hbucketKey, hdata, hnext, ← hinit.nextFree] at hrep
      exact hrep
    · intro _
      rw [hbucketKey] at hdest
      exact ⟨table.brk, rfl, hdest⟩

/-- The index variants; the next-insert flag takes the index from
`nNextFreeElement`. -/
theorem zendHashIndexUpdateOrNextInsert_refines
    (h : RepresentsAt intern ht m order) (idx : Nat) (data : δ) (flag : HashFlag) :
    ∃ out, zendHashIndexUpdateOrNextInsert ht idx data flag = some out ∧
      Stored intern (.long (if flag = .nextInsert then m.nextFree else idx)) out (m.addOrUpdate
          (.long (if flag = .nextInsert then m.nextFree else idx)) data
          (decide (flag ≠ .update))) := by
  obtain ⟨hinit, hmask⟩ := HashInv.checkInit_represents h
  rw [zendHashIndexUpdateOrNextInsert, hinit.nextFree]
  generalize checkInit ht = table at hinit hmask
  generalize hidx : (if flag = .nextInsert then table.nNextFreeElement
    else idx) = index
  have hfind := hinit.inv.findIndex_eq index
  rw [findIndex] at hfind
  simp only [hfind, bind_eq_bind, bind_some]
  have hflags : flag = .nextInsert ∨ flag = .add ↔ flag ≠ .update := by
    cases flag <;> simp
  cases hlookup : lookupKey intern table order (.long index) with
  | some p =>
    have hpresent : .long index ∈ m.keys := by
      by_contra habsent
      rw [(hinit.lookup_eq_none_iff _).mpr habsent] at hlookup
      cases hlookup
    by_cases hflag : flag = .update
    · refine ⟨({ table with pData := update table.pData p data },
        .success, some p), by simp [hflag], ?_⟩
      rw [OrderedMap.addOrUpdate, if_neg (by simp [hflag])]
      exact ⟨rfl, order, hinit.setData hlookup data, fun _ => ⟨p, rfl, hlookup⟩⟩
    · refine ⟨(table, .failure, none), by simp [hflags.mpr hflag], ?_⟩
      rw [OrderedMap.addOrUpdate, if_pos ⟨by simpa using hflag, hpresent⟩]
      exact ⟨rfl, order, hinit, by simp⟩
  | none =>
    have habsent := (hinit.lookup_eq_none_iff _).mp hlookup
    have hfresh : FreshBucket table { newBucket table index 0 data with
          arKey := update table.arKey table.brk .null
          nNextFreeElement := nextFreeAfter table.nNextFreeElement index } := by
      refine ⟨rfl, ?_, ?_⟩
      · intro q hq
        constructor <;> simp [newBucket, hq]
      · intro q hq
        simp [newBucket, hq]
    have hbucketKey : bucketKey intern { newBucket table index 0 data with
          arKey := update table.arKey table.brk .null
          nNextFreeElement := nextFreeAfter table.nNextFreeElement index }
        table.brk = .long index := by
      simp [bucketKey, newBucket]
    have hok : BucketOk intern { newBucket table index 0 data with
          arKey := update table.arKey table.brk .null
          nNextFreeElement := nextFreeAfter table.nNextFreeElement index }
        table.brk := by
      simp [BucketOk, newBucket, isInterned]
    obtain ⟨final, hrun, hrep, -, hdest⟩ :=
      hinit.insert hmask hfresh hok (by rwa [hbucketKey])
    have hh : (newBucket table index 0 data).h table.brk = index := by
      simp [newBucket]
    rw [hh] at hrun
    have hrun' : linkBucket { newBucket table index 0 data with
          arKey := update (newBucket table index 0 data).arKey table.brk .null
          nNextFreeElement := nextFreeAfter (newBucket table index 0 data).nNextFreeElement index }
        table.brk (index &&& table.nTableMask) = some final := hrun
    refine ⟨(final, .success, some table.brk), by simp [hrun'], ?_⟩
    rw [OrderedMap.addOrUpdate, if_neg (by simp [habsent])]
    refine ⟨rfl, order ++ [table.brk], ?_, ?_⟩
    · rw [OrderedMap.store, if_neg habsent]
      rw [bucketEntry, hbucketKey] at hrep
      have hdata : (newBucket table index 0 data).pData table.brk = data := by
        simp [newBucket]
      rw [hdata] at hrep
      rw [OrderedMap.nextFreeFor, hinit.nextFree]
      exact hrep
    · intro _
      rw [hbucketKey] at hdest
      exact ⟨table.brk, rfl, hdest⟩

end Store

/-! Deleting. -/

section Delete

variable {ht : HashTable δ} {m : OrderedMap δ} {order : List Addr}

section

variable (h : RepresentsAt intern ht m (before ++ p :: after))
include h

theorem RepresentsAt.key_ne_of_mem :
    (∀ q ∈ before, bucketKey intern ht q ≠ bucketKey intern ht p) ∧
      ∀ q ∈ after, bucketKey intern ht q ≠ bucketKey intern ht p := by
  have hnodup := h.inv.keys
  rw [map_append, map_cons, nodup_append, nodup_cons] at hnodup
  constructor
  · intro q hq heq
    exact hnodup.2.2 _ (List.mem_map_of_mem hq) _ mem_cons_self heq
  · intro q hq heq
    exact hnodup.2.1.1 (heq ▸ List.mem_map_of_mem hq)

theorem RepresentsAt.successor_eq : m.successor (bucketKey intern ht p) =
      after.head?.map (bucketKey intern ht) := by
  rw [OrderedMap.successor, h.keys, map_append, map_cons, dropWhile_append_of_pos]
  · simp [head?_map]
  · simp only [List.mem_map, forall_exists_index, and_imp]
    rintro _ q hq rfl
    exact decide_eq_true (h.key_ne_of_mem.1 q hq)

theorem RepresentsAt.predecessor_eq : m.predecessor (bucketKey intern ht p) =
      before.getLast?.map (bucketKey intern ht) := by
  rw [OrderedMap.predecessor, h.keys, map_append, map_cons, takeWhile_append_of_pos]
  · simp [getLast?_map]
  · simp only [List.mem_map, forall_exists_index, and_imp]
    rintro _ q hq rfl
    exact decide_eq_true (h.key_ne_of_mem.1 q hq)

theorem RepresentsAt.delete :
    RepresentsAt intern (zendHashBucketDelete ht p)
      (m.remove (bucketKey intern ht p)) (before ++ after) := by
  obtain ⟨hbefore, hafter⟩ := h.key_ne_of_mem
  have hsame := zendHashBucketDelete_sameBucket ht p
  have hentry : ∀ q, bucketEntry intern (zendHashBucketDelete ht p) q =
      bucketEntry intern ht q := by
    intro q
    rw [bucketEntry, bucketEntry, (hsame q).bucketKey, zendHashBucketDelete_frame]
  refine ⟨h.inv.delete, ?_, ?_, ?_⟩
  · change m.items.filter _ = _
    rw [h.items, map_append, map_cons, filter_append,
      filter_cons, if_neg (by simp [bucketEntry]), map_append]
    congr 1
    · rw [filter_eq_self.mpr]
      · exact map_congr_left fun q _ => (hentry q).symm
      · simp only [List.mem_map, forall_exists_index, and_imp]
        rintro _ q hq rfl
        exact decide_eq_true (hbefore q hq)
    · rw [filter_eq_self.mpr]
      · exact map_congr_left fun q _ => (hentry q).symm
      · simp only [List.mem_map, forall_exists_index, and_imp]
        rintro _ q hq rfl
        exact decide_eq_true (hafter q hq)
  · have hkeyeq : bucketKey intern (zendHashBucketDelete ht p) =
        bucketKey intern ht := funext fun q => (hsame q).bucketKey intern
    change (if m.cur = _ then _ else _) = _
    rw [zendHashBucketDelete_pInternalPointer h.inv.list, hkeyeq, h.successor_eq, h.cur]
    by_cases hcur : ht.pInternalPointer = some p
    · rw [if_pos hcur, if_pos (by rw [hcur]; rfl)]
    · rw [if_neg hcur, if_neg]
      intro heq
      obtain ⟨q, hq, hqkey⟩ := map_eq_some_iff.mp heq
      have hqp := h.inv.key_unique (h.inv.internalPointer q hq)
        (mem_append_right before mem_cons_self) hqkey
      exact hcur (hqp ▸ hq)
  · rw [zendHashBucketDelete_frame]
    exact h.nextFree

end

/-- The key a deletion names. -/
def DelKey.toHashKey (intern : Nat → KeyBytes) : DelKey → HashKey
  | .key arKey => .string (arKey.read intern)
  | .quick arKey _ => .string (arKey.read intern)
  | .index h => .long h

/-- A key that is a non-empty string with its own hash, or an index. -/
def DelKey.Valid (intern : Nat → KeyBytes) : DelKey → Prop
  | .key arKey => arKey.read intern ≠ []
  | .quick arKey h =>
    arKey.read intern ≠ [] ∧ h = zendHashFunc (arKey.read intern)
  | .index _ => True

def OrderedMap.delete (m : OrderedMap δ) (key : HashKey) : OrderedMap δ × ZendResult :=
  if key ∈ m.keys then (m.remove key, .success) else (m, .failure)

theorem bucketKey_eq_string_iff (hok : BucketOk intern ht p)
    {bytes : KeyBytes} (hbytes : bytes ≠ []) : bucketKey intern ht p = .string bytes ↔
      ht.h p = zendHashFunc bytes ∧ ht.nKeyLength p = bytes.length ∧ (ht.nKeyLength p = 0 ∨
          (bucketBytes intern ht p).take bytes.length = bytes) := by
  have hlen : bytes.length ≠ 0 := by simpa using hbytes
  rw [BucketOk] at hok
  by_cases hzero : ht.nKeyLength p = 0
  · simp only [bucketKey, hzero, ne_eq, not_true_eq_false, if_false, reduceCtorEq, false_iff]
    rintro ⟨_, heq, _⟩
    exact hlen heq.symm
  · rw [if_neg hzero] at hok
    obtain ⟨_, hstored, hhash⟩ := hok
    rw [bucketKey, if_pos hzero, hstored, take_length]
    simp only [HashKey.string.injEq]
    constructor
    · rintro rfl
      exact ⟨hhash, rfl, .inr take_length⟩
    · rintro ⟨_, heq, hnil | htake⟩
      · exact absurd (hstored.trans hnil) hzero
      · rwa [← heq, take_length] at htake

theorem zendHashDelKeyOrIndex_refines (h : RepresentsAt intern ht m order)
    (key : DelKey) (hkey : key.Valid intern) :
    ∃ out, zendHashDelKeyOrIndex intern ht key = some out ∧
      out.2 = (m.delete (key.toHashKey intern)).2 ∧
      Represents intern out.1 (m.delete (key.toHashKey intern)).1 := by
  -- The search finds the bucket of the key, whichever way the key is given.
  have hsearch : ∀ (hash : Nat) (bytes : KeyBytes),
      (∀ p ∈ order, (ht.h p = hash ∧ ht.nKeyLength p = bytes.length ∧ (ht.nKeyLength p = 0 ∨
          (bucketBytes intern ht p).take bytes.length = bytes)) ↔
        bucketKey intern ht p = key.toHashKey intern) →
      findInChain ht (hash &&& ht.nTableMask) (fun p =>
        ht.h p == hash && ht.nKeyLength p == bytes.length && (ht.nKeyLength p == 0 ||
            (bucketBytes intern ht p).take bytes.length == bytes)) =
        some (lookupKey intern ht order (key.toHashKey intern)) := by
    intro hash bytes htest
    have htest' : ∀ p ∈ order, ((ht.h p == hash && ht.nKeyLength p == bytes.length &&
          (ht.nKeyLength p == 0 || (bucketBytes intern ht p).take bytes.length == bytes)) = true ↔
        bucketKey intern ht p = key.toHashKey intern) := by
      intro p hp
      rw [← htest p hp]
      simp [and_assoc]
    rw [h.inv.findInChain_eq (h.inv.and_mask_le _), lookupKey]
    · congr 1
      apply find?_congr_mem
      intro p hp
      rw [Bool.eq_iff_iff, htest' p hp, decide_eq_true_iff]
    · intro p hp hpass
      have heq := ((htest p hp).mpr ((htest' p hp).mp hpass)).1
      rw [heq]
    · intro p hp q hq hpass hqass
      exact h.inv.key_unique hp hq (((htest' p hp).mp hpass).trans ((htest' q hq).mp hqass).symm)
  have hfound : ∃ hash bytes, (∀ found, findInChain ht (hash &&& ht.nTableMask) (fun p =>
          ht.h p == hash && ht.nKeyLength p == bytes.length && (ht.nKeyLength p == 0 ||
              (bucketBytes intern ht p).take bytes.length == bytes)) =
            some found →
        zendHashDelKeyOrIndex intern ht key = some (found.elim (ht, .failure)
          (fun p => (zendHashBucketDelete ht p, .success)))) ∧
      ∀ p ∈ order, (ht.h p = hash ∧ ht.nKeyLength p = bytes.length ∧ (ht.nKeyLength p = 0 ∨
          (bucketBytes intern ht p).take bytes.length = bytes)) ↔
        bucketKey intern ht p = key.toHashKey intern := by
    cases key with
    | key arKey =>
      refine ⟨zendHashFunc (arKey.read intern), arKey.read intern, fun found hf => ?_, fun p hp =>
          (bucketKey_eq_string_iff (h.inv.bucket p hp) hkey).symm⟩
      simp only [zendHashDelKeyOrIndex, hf]
      cases found with
      | none | some p => rfl
    | quick arKey hash =>
      obtain ⟨hne, rfl⟩ := hkey
      refine ⟨_, arKey.read intern, fun found hf => ?_, fun p hp =>
        (bucketKey_eq_string_iff (h.inv.bucket p hp) hne).symm⟩
      simp only [zendHashDelKeyOrIndex, hf]
      cases found with
      | none | some p => rfl
    | index idx =>
      refine ⟨idx, [], fun found hf => ?_, fun p _ => ?_⟩
      · simp only [zendHashDelKeyOrIndex, hf]
        cases found with
        | none | some p => rfl
      · by_cases hzero : ht.nKeyLength p = 0 <;> simp [DelKey.toHashKey, bucketKey, hzero]
  obtain ⟨hash, bytes, hrun, htest⟩ := hfound
  rw [hrun _ (hsearch hash bytes htest)]
  cases hlookup : lookupKey intern ht order (key.toHashKey intern) with
  | some p =>
    obtain ⟨hmem, hpkey⟩ := lookupKey_eq_some hlookup
    have hpresent : key.toHashKey intern ∈ m.keys := by
      rw [h.keys, ← hpkey]
      exact List.mem_map_of_mem hmem
    refine ⟨_, rfl, ?_⟩
    rw [OrderedMap.delete, if_pos hpresent]
    obtain ⟨before, after, rfl⟩ := append_of_mem hmem
    refine ⟨rfl, before ++ after, ?_⟩
    rw [← hpkey]
    exact h.delete
  | none =>
    refine ⟨_, rfl, ?_⟩
    rw [OrderedMap.delete, if_neg ((h.lookup_eq_none_iff _).mp hlookup)]
    exact ⟨rfl, order, h⟩

end Delete

end PhpEngine

/-
What a splice makes of the elements of a table: the cut elements go to the other
table, the list takes their place, and in both tables the indices are counted
from 0 on.
-/
import PhpEngine.HashSplice

namespace PhpEngine

open List Function

variable {δ : Type} {intern : Nat → KeyBytes} {pCopyConstructor : δ → δ}

/-- The elements of the table in the order of its list. -/
def entriesOf (intern : Nat → KeyBytes) (ht : HashTable δ) (order : List Addr) :
    List (HashKey × δ) :=
  order.map (bucketEntry intern ht)

/-- The elements with their indices counted from 0 on. -/
def renumberEntries (entries : List (HashKey × δ)) : List (HashKey × δ) :=
  (reindexKeys true 0 (entries.map Prod.fst)).zip (entries.map Prod.snd)

/-- The elements of a spliced table, before they are renumbered. -/
def spliceEntries (pCopyConstructor : δ → δ) (offset length : Nat)
    (list : List δ) (entries : List (HashKey × δ)) : List (HashKey × δ) :=
  entries.take offset ++ list.map (fun data => (.long 0, pCopyConstructor data)) ++
    entries.drop (offset + length)

theorem reindexKeys_append (onlyIntegerKeys : Bool) (offset : Nat) (keys keys' : List HashKey) :
    reindexKeys onlyIntegerKeys offset (keys ++ keys') = reindexKeys onlyIntegerKeys offset keys ++
        reindexKeys onlyIntegerKeys (offset + keys.countP (renumbered onlyIntegerKeys)) keys' := by
  induction keys generalizing offset with
  | nil => rfl
  | cons key keys ih =>
    cases key with
    | long n =>
      rw [cons_append, reindexKeys, ih, reindexKeys, cons_append,
        countP_cons_of_pos rfl, Nat.add_right_comm, ← add_assoc]
    | string bytes =>
      cases onlyIntegerKeys with
      | true =>
        rw [cons_append, reindexKeys, if_pos rfl, ih, reindexKeys, if_pos rfl, cons_append,
          countP_cons_of_neg (by simp [renumbered])]
      | false =>
        rw [cons_append, reindexKeys, if_neg (by simp), ih,
          reindexKeys, if_neg (by simp), cons_append,
          countP_cons_of_pos rfl, Nat.add_right_comm, ← add_assoc]

theorem length_reindexKeys (onlyIntegerKeys : Bool) (offset : Nat) (keys : List HashKey) :
    (reindexKeys onlyIntegerKeys offset keys).length = keys.length := by
  induction keys generalizing offset with
  | nil => rfl
  | cons key keys ih =>
    cases key with
    | long n => rw [reindexKeys, length_cons, ih, length_cons]
    | string bytes =>
      rw [reindexKeys]
      split <;> rw [length_cons, ih, length_cons]

/-- A further element has the next number or its own key. -/
theorem renumberEntries_concat (entries : List (HashKey × δ)) (key : HashKey) (data : δ) :
    renumberEntries (entries ++ [(key, data)]) = renumberEntries entries ++ [(match key with
        | .long _ => .long ((entries.map Prod.fst).countP (renumbered true))
        | .string bytes => .string bytes, data)] := by
  have hlength : (reindexKeys true 0 (entries.map Prod.fst)).length =
      (entries.map Prod.snd).length := by
    rw [length_reindexKeys, length_map, length_map]
  rw [renumberEntries, renumberEntries, map_append, map_append,
    reindexKeys_append, zip_append hlength, zero_add]
  cases key with
  | long n | string bytes => rfl

section Collect

variable {ht : HashTable δ} {order : List Addr}

/-- The other table holds the elements that were cut so far. -/
def Collected (intern : Nat → KeyBytes) (pCopyConstructor : δ → δ)
    (ht : HashTable δ) (done : List Addr) (removed : Option (HashTable δ)) : Prop :=
  ∃ table m, removed = some table ∧ Represents intern table m ∧
    m.items = renumberEntries ((entriesOf intern ht done).map
      fun entry => (entry.1, pCopyConstructor entry.2)) ∧
    m.nextFree = (done.map (bucketKey intern ht)).countP (renumbered true)

theorem Collected.keys {done : List Addr} {m : OrderedMap δ}
    (h : m.items = renumberEntries ((entriesOf intern ht done).map
      fun entry => (entry.1, pCopyConstructor entry.2))) :
    m.keys = reindexKeys true 0 (done.map (bucketKey intern ht)) := by
  have hlength : (reindexKeys true 0 (done.map (bucketKey intern ht))).length ≤
      (done.map fun p => pCopyConstructor (ht.pData p)).length := by
    rw [length_reindexKeys, length_map, length_map]
  rw [OrderedMap.keys, h, renumberEntries, entriesOf]
  simp only [List.map_map, comp_def]
  exact map_fst_zip hlength

/-- The key of a cut element in the other table. -/
def collectedKey (m : OrderedMap δ) : HashKey → HashKey
  | .long _ => .long m.nextFree
  | .string bytes => .string bytes

/-- A cut element whose key is new to the other table goes to its end. -/
theorem Collected.concat {done : List Addr} {m : OrderedMap δ} {p : Addr}
    (hitems : m.items = renumberEntries ((entriesOf intern ht done).map
      fun entry => (entry.1, pCopyConstructor entry.2)))
    (hnext : m.nextFree = (done.map (bucketKey intern ht)).countP (renumbered true))
    (hroom : m.nextFree < longMax) {out : HashTable δ × ZendResult × Option Addr} {add : Bool}
    (hnew : collectedKey m (bucketKey intern ht p) ∉ m.keys)
    (h : Stored intern (collectedKey m (bucketKey intern ht p)) out
      (m.addOrUpdate (collectedKey m (bucketKey intern ht p)) (ht.pData p) add)) :
    Collected intern pCopyConstructor ht (done ++ [p])
      (some (applyCopyConstructor pCopyConstructor out)) := by
  rw [OrderedMap.addOrUpdate, if_neg (fun hadd => hnew hadd.2)] at h
  refine ⟨_, _, rfl, h.applyCopyConstructor pCopyConstructor, ?_, ?_⟩
  · rw [OrderedMap.store, if_neg hnew]
    have hmap : ((entriesOf intern ht (done ++ [p])).map
        fun entry => (entry.1, pCopyConstructor entry.2)) = (entriesOf intern ht done).map
            (fun entry => (entry.1, pCopyConstructor entry.2)) ++
            [(bucketKey intern ht p, pCopyConstructor (ht.pData p))] := by
      simp [entriesOf, bucketEntry]
    have hkeys : ((entriesOf intern ht done).map
        fun entry => (entry.1, pCopyConstructor entry.2)).map Prod.fst =
          done.map (bucketKey intern ht) := by
      simp [entriesOf, bucketEntry, comp_def]
    rw [hmap, renumberEntries_concat, hkeys, ← hnext, hitems]
    cases bucketKey intern ht p with
    | long n | string bytes => rfl
  · rw [OrderedMap.store, if_neg hnew]
    rw [map_append, countP_append, ← hnext]
    cases hkey : bucketKey intern ht p with
    | long n =>
      change nextFreeAfter m.nextFree m.nextFree = _
      simp [nextFreeAfter, hroom, hkey, renumbered]
    | string bytes =>
      simp [collectedKey, OrderedMap.nextFreeFor, hkey, renumbered]

theorem HashInv.collect (hinv : HashInv intern ht order) {offset : Nat}
    {done more : List Addr} {p : Addr} {removed : Option (HashTable δ)}
    (hcut : order.drop offset = done ++ p :: more) (hdone : done.length < uintMod)
    (h : Collected intern pCopyConstructor ht done removed) :
    ∃ removed', collectRemoved intern pCopyConstructor ht p removed = some removed' ∧
      Collected intern pCopyConstructor ht (done ++ [p]) removed' := by
  obtain ⟨table, m, rfl, ⟨torder, hrep⟩, hitems, hnext⟩ := h
  have hmkeys := Collected.keys hitems
  have hsub : (done ++ p :: more).Sublist order := by
    rw [← hcut]
    exact drop_sublist offset order
  have hp : p ∈ order := hsub.subset (by simp)
  have hroom : m.nextFree < longMax := by
    have hle : (done.map (bucketKey intern ht)).countP (renumbered true) ≤
        (done.map (bucketKey intern ht)).length := countP_le_length
    rw [length_map] at hle
    have hlt : uintMod < longMax := by decide
    omega
  rw [collectRemoved]
  by_cases hlen : ht.nKeyLength p = 0
  · have hkey : bucketKey intern ht p = .long (ht.h p) := by simp [bucketKey, hlen]
    have hnew : collectedKey m (bucketKey intern ht p) ∉ m.keys := by
      intro hmem
      rw [hkey, hmkeys] at hmem
      have hlt := lt_of_mem_reindexKeys hmem
      omega
    obtain ⟨out, hrun, hstored⟩ :=
      zendHashIndexUpdateOrNextInsert_refines hrep 0 (ht.pData p) .nextInsert
    refine ⟨_, by rw [if_pos hlen, hrun]; rfl, ?_⟩
    apply Collected.concat hitems hnext hroom hnew
    rw [hkey]
    exact hstored
  · obtain ⟨hread, hkey, hne, hhash⟩ := bucketKeyArg_read (hinv.bucket p hp) hlen
    have hnew : collectedKey m (bucketKey intern ht p) ∉ m.keys := by
      intro hmem
      rw [hkey, hmkeys] at hmem
      rcases mem_reindexKeys hmem with ⟨n, -, hlong⟩ | ⟨bytes, -, hdonekey⟩
      · cases hlong
      · have hnodup := hinv.keys.sublist (hsub.map (bucketKey intern ht))
        rw [map_append, map_cons, nodup_append] at hnodup
        exact hnodup.2.2 _ hdonekey _ mem_cons_self hkey.symm
    have hne' : (bucketKeyArg intern ht p).read intern ≠ [] := by rwa [hread]
    obtain ⟨out, hrun, hstored⟩ :=
      zendHashQuickAddOrUpdate_refines hrep hne' (ht.pData p) .update
    rw [hread, ← hhash] at hrun
    refine ⟨_, by rw [if_neg hlen, hrun]; rfl, ?_⟩
    apply Collected.concat hitems hnext hroom hnew
    rw [hkey]
    rw [hread] at hstored
    exact hstored

end Collect

section Splice

variable {ht ht' : HashTable δ} {before added after : List Addr} {list : Option (List δ)}

/-- The keys and the buckets of a spliced table are in order. -/
theorem Spliced.inv (h : Spliced intern pCopyConstructor ht ht' before added after list)
    {cut : List Addr} (hinv : HashInv intern ht (before ++ cut ++ after)) :
    HashInv intern ht' (before ++ added ++ after) := by
  have hsub : (before ++ after).Sublist (before ++ cut ++ after) :=
    (sublist_append_left before cut).append (List.Sublist.refl after)
  have hbucket : ∀ p ∈ before ++ after, BucketOk intern ht' p := by
    intro p hp
    have hok := hinv.bucket p (hsub.subset hp)
    obtain ⟨hptr, hstore⟩ := h.bytes p hp
    rcases h.kept p hp with ⟨hzero, hall | hlen⟩ | ⟨hlen, hh, hlen'⟩
    · cases hall
    · rw [BucketOk, if_pos hlen] at hok
      rw [BucketOk, if_pos hzero, hptr]
      exact hok
    · exact SameBucket.bucketOk ⟨hh, hlen', hptr, hstore⟩ hok
  apply h.shape.inv
  · rw [h.keys]
    apply reindexKeys_nodup_of_kept
    -- The new keys are all renumbered.
    have hstrings : (splicedKeys intern ht before after list).filter
        (fun key => !renumbered true key) = ((before ++ after).map (bucketKey intern ht)).filter
            (fun key => !renumbered true key) := by
      have hnone : ((list.getD []).map fun _ => HashKey.long 0).filter
          (fun key => !renumbered true key) = [] := by
        rw [filter_eq_nil_iff]
        intro key hkey
        obtain ⟨-, -, rfl⟩ := List.mem_map.mp hkey
        simp [renumbered]
      rw [splicedKeys, filter_append, filter_append, hnone, append_nil, ← filter_append, map_append]
    rw [hstrings]
    exact (hinv.keys.sublist (hsub.map _)).filter _
  · intro p hp
    have hcases : p ∈ added ∨ p ∈ before ++ after := by
      simp only [mem_append] at hp ⊢
      tauto
    rcases hcases with hp | hp
    · obtain ⟨hlen, hnull⟩ := h.numbers p hp
      rw [BucketOk, if_pos hlen, hnull]
      rfl
    · exact hbucket p hp

theorem zip_entriesOf (intern : Nat → KeyBytes) (ht : HashTable δ) (order : List Addr) :
    (order.map (bucketKey intern ht)).zip (order.map ht.pData) = entriesOf intern ht order :=
  zip_map' ..

theorem Spliced.entries (h : Spliced intern pCopyConstructor ht ht' before added after list) :
    entriesOf intern ht' (before ++ added ++ after) = renumberEntries (entriesOf intern ht before ++
        (list.getD []).map (fun data => (.long 0, pCopyConstructor data)) ++
          entriesOf intern ht after) := by
  have hdata : (before ++ added ++ after).map ht'.pData =
      before.map ht.pData ++ (list.getD []).map pCopyConstructor ++ after.map ht.pData := by
    have hbefore : before.map ht'.pData = before.map ht.pData :=
      map_congr_left fun p hp => h.old p (mem_append_left after hp)
    have hafter : after.map ht'.pData = after.map ht.pData :=
      map_congr_left fun p hp => h.old p (mem_append_right before hp)
    rw [map_append, map_append, hbefore, hafter, h.data]
  rw [← zip_entriesOf, h.keys, hdata, renumberEntries]
  simp only [splicedKeys, entriesOf, bucketEntry, map_append, List.map_map, comp_def]

/-- What a splice with a fresh table for the cut elements is to do: both tables
are well formed, the elements are renumbered, and the next free element is the
number of indices. -/
def SpliceCorrect [Inhabited δ] (intern : Nat → KeyBytes) (pCopyConstructor : δ → δ)
    (ht : HashTable δ) (order : List Addr) (offset length : Nat)
    (list : Option (List δ)) (nSize : Nat) : Prop :=
  let spliced := spliceEntries pCopyConstructor offset length (list.getD [])
    (entriesOf intern ht order)
  ∃ ht' removed order' cut, zendHashSplice intern pCopyConstructor ht offset length list
        (some (zendHashInit nSize)) = some (ht', some removed) ∧
      HashInv intern ht' order' ∧ HashInv intern removed cut ∧
      entriesOf intern ht' order' = renumberEntries spliced ∧
      ht'.nNextFreeElement = spliced.countP (fun entry => renumbered true entry.1) ∧
      entriesOf intern removed cut =
        renumberEntries ((((entriesOf intern ht order).drop offset).take length).map
          fun entry => (entry.1, pCopyConstructor entry.2))

theorem Collected.init [Inhabited δ] (nSize : Nat) :
    Collected intern pCopyConstructor ht [] (some (zendHashInit nSize)) :=
  ⟨_, .empty, rfl, ⟨[], zendHashInit_represents intern nSize⟩, rfl, rfl⟩

/-- A splice does what it is to do, unless the number of elements comes round to
zero. -/
theorem zendHashSplice_correct [Inhabited δ] {order : List Addr}
    (hinv : HashInv intern ht order) {offset length : Nat} (hlength : offset + length < uintMod)
    (hcount : (spliceEntries pCopyConstructor offset length (list.getD [])
        (entriesOf intern ht order)).length % uintMod = 0 →
      spliceEntries pCopyConstructor offset length (list.getD [])
        (entriesOf intern ht order) = []) (nSize : Nat) :
    SpliceCorrect intern pCopyConstructor ht order offset length list nSize := by
  have hinit : Collected intern pCopyConstructor ht [] (some (zendHashInit nSize)) :=
    Collected.init nSize
  obtain ⟨ht₁, added, removed, hrun, hready, table, m, rfl, ⟨cut, hrep⟩, hitems, -⟩ :=
    hinv.hashShape.splice _ (spliceLength_eq hlength) list hinit
      fun done p more removed hcut hdone h => hinv.collect hcut hdone h
  have hadded : added.length = (list.getD []).length := by
    simpa using congrArg List.length hready.data
  have hold : ∀ p ∈ order.take offset ++ order.drop (offset + length), p < ht.brk := by
    intro p hp
    apply hinv.allocated
    rcases mem_append.mp hp with hp | hp
    · exact mem_of_mem_take hp
    · exact mem_of_mem_drop hp
  have htotal : (spliceEntries pCopyConstructor offset length (list.getD [])
      (entriesOf intern ht order)).length =
        (order.take offset ++ added ++ order.drop (offset + length)).length := by
    simp [spliceEntries, entriesOf, hadded]
  have hzero : (order.take offset ++ added ++ order.drop (offset + length)).length % uintMod = 0 →
      order.take offset ++ added ++ order.drop (offset + length) = [] := by
    intro hround
    rw [← htotal] at hround
    rw [← length_eq_zero_iff, ← htotal, hcount hround, length_nil]
  obtain ⟨ht', hreindex, hspliced⟩ := hready.reindex intern hold hzero
  have hparts : order = order.take offset ++ (order.drop offset).take length ++
      order.drop (offset + length) := by
    rw [append_assoc, ← drop_drop, take_append_drop, take_append_drop]
  have hentries : spliceEntries pCopyConstructor offset length (list.getD [])
      (entriesOf intern ht order) = entriesOf intern ht (order.take offset) ++
        (list.getD []).map (fun data => (.long 0, pCopyConstructor data)) ++
          entriesOf intern ht (order.drop (offset + length)) := by
    simp only [spliceEntries, entriesOf, map_take, map_drop]
  refine ⟨ht', table, _, cut, by rw [hrun, hreindex]; rfl,
    hspliced.inv (hparts ▸ hinv), hrep.inv, ?_, ?_, ?_⟩
  · rw [hentries, hspliced.entries]
  · have hfst : ∀ entries : List (HashKey × δ),
        entries.countP (fun entry => renumbered true entry.1) =
          (entries.map Prod.fst).countP (renumbered true) := by
      intro entries
      rw [countP_map]
      rfl
    rw [hentries, hspliced.nextFree, hfst]
    simp only [splicedKeys, entriesOf, bucketEntry, map_append, List.map_map, comp_def]
  · rw [entriesOf, ← hrep.items, hitems]
    simp only [entriesOf, map_take, map_drop]

/-- When the number of elements comes round the keys are left as they are. -/
theorem not_spliceCorrect [Inhabited δ] {order : List Addr}
    (hinv : HashInv intern ht order) {offset length : Nat} (hlength : offset + length < uintMod)
    (hround : (spliceEntries pCopyConstructor offset length (list.getD [])
      (entriesOf intern ht order)).length % uintMod = 0) (hlist : list.getD [] ≠ []) (nSize : Nat) :
    ¬SpliceCorrect intern pCopyConstructor ht order offset length list nSize := by
  have hinit : Collected intern pCopyConstructor ht [] (some (zendHashInit nSize)) :=
    Collected.init nSize
  obtain ⟨ht₁, added, removed, hrun, hready, -⟩ :=
    hinv.hashShape.splice _ (spliceLength_eq hlength) list hinit
      fun done p more removed hcut hdone h => hinv.collect hcut hdone h
  have hadded : added.length = (list.getD []).length := by
    simpa using congrArg List.length hready.data
  have hzero : ht₁.nNumOfElements = 0 := by
    rw [hready.shape.count, ← hround]
    simp [spliceEntries, entriesOf, hadded]
  rintro ⟨ht', table, order', cut, hresult, -, -, -, hnext, -⟩
  rw [hrun, zendHashReindex, if_pos hzero] at hresult
  have hnone : ht'.nNextFreeElement = 0 := by
    cases hresult
    rfl
  obtain ⟨data, rest, hcons⟩ := exists_cons_of_ne_nil hlist
  have hmem : (HashKey.long 0, pCopyConstructor data) ∈
      spliceEntries pCopyConstructor offset length (list.getD []) (entriesOf intern ht order) := by
    simp [spliceEntries, hcons]
  have hpos : 0 < (spliceEntries pCopyConstructor offset length (list.getD [])
      (entriesOf intern ht order)).countP (fun entry => renumbered true entry.1) :=
    countP_pos_iff.mpr ⟨_, hmem, rfl⟩
  rw [← hnext, hnone] at hpos
  exact lt_irrefl 0 hpos

end Splice

/-- A table with one element. -/
def oneElement : HashTable Nat :=
  ((zendHashIndexUpdateOrNextInsert (zendHashInit 8) 0 7 .nextInsert).map
    (·.1)).getD (zendHashInit 8)

theorem oneElement_inv (intern : Nat → KeyBytes) : ∃ order, HashInv intern oneElement order ∧
      entriesOf intern oneElement order = [(.long 0, 7)] := by
  obtain ⟨out, hrun, hstored⟩ := zendHashIndexUpdateOrNextInsert_refines
    (zendHashInit_represents intern 8) 0 7 .nextInsert
  obtain ⟨-, order, hrep, -⟩ := hstored
  have hone : oneElement = out.1 := by
    rw [oneElement, hrun]
    rfl
  rw [← hone] at hrep
  exact ⟨order, hrep.inv, hrep.items.symm⟩

theorem zendHashSplice_correct_one : ∃ order, HashInv (fun _ => []) oneElement order ∧
      SpliceCorrect (fun _ => []) id oneElement order 0 1 (some [8, 9]) 8 := by
  obtain ⟨order, hinv, hentries⟩ := oneElement_inv fun _ => []
  refine ⟨order, hinv, zendHashSplice_correct hinv (by decide) ?_ 8⟩
  rw [hentries]
  decide

/-! Enough elements for the count to come round. -/

/-- Calls `zend_hash_next_index_insert` over and over. -/
def nextInserts (data : δ) : Nat → HashTable δ → Option (HashTable δ)
  | 0, ht => some ht
  | n + 1, ht =>
    (zendHashIndexUpdateOrNextInsert ht 0 data .nextInsert).bind fun out => nextInserts data n out.1

/-- The indices follow one another, as long as they last. -/
theorem nextInserts_represents (data : δ) (n : Nat) {a : Nat} {ht : HashTable δ}
    {m : OrderedMap δ} (hrep : Represents intern ht m)
    (hkeys : m.keys = (List.range a).map .long) (hnext : m.nextFree = a) (hroom : a + n ≤ longMax) :
    ∃ ht' m', nextInserts data n ht = some ht' ∧ Represents intern ht' m' ∧
      m'.keys = (List.range (a + n)).map .long := by
  induction n generalizing a ht m with
  | zero => exact ⟨ht, m, rfl, hrep, hkeys⟩
  | succ n ih =>
    obtain ⟨order, hrep⟩ := hrep
    obtain ⟨out, hrun, hstored⟩ :=
      zendHashIndexUpdateOrNextInsert_refines hrep 0 data .nextInsert
    have hnew : HashKey.long m.nextFree ∉ m.keys := by
      rw [hkeys, hnext]
      simp
    simp only [if_true] at hstored
    rw [OrderedMap.addOrUpdate, if_neg (by simp [hnew])] at hstored
    obtain ⟨-, order', hrep', -⟩ := hstored
    rw [OrderedMap.store, if_neg hnew] at hrep'
    obtain ⟨ht', m', hrest, hm', hkeys'⟩ := ih ⟨order', hrep'⟩ (a := a + 1) (by
        change (m.items ++ [_]).map Prod.fst = _
        rw [map_append, range_succ, map_append, ← hkeys, ← hnext]
        rfl)
      (by
        change nextFreeAfter m.nextFree m.nextFree = a + 1
        rw [nextFreeAfter, if_pos (Int.le_refl _), hnext, if_pos (by omega)])
      (by omega)
    refine ⟨ht', m', ?_, hm', by rw [hkeys', Nat.add_right_comm, add_assoc]⟩
    rw [nextInserts, hrun]
    exact hrest

/-- One more element than the `2 ^ 32 - 1` there are, and the count comes
round. -/
theorem nextInserts_not_spliceCorrect :
    ∃ ht order, nextInserts 0 (2 ^ 32 - 1) (zendHashInit 8) = some ht ∧
      HashInv (fun _ => []) ht order ∧
      ¬SpliceCorrect (fun _ => []) id ht order 0 0 (some [7]) 8 := by
  obtain ⟨ht, m, hrun, ⟨order, hrep⟩, hkeys⟩ := nextInserts_represents (a := 0) 0
    (2 ^ 32 - 1) ⟨[], zendHashInit_represents (fun _ => []) 8⟩ rfl rfl (by decide)
  have hlength : order.length = 2 ^ 32 - 1 := by
    have hkeys := congrArg List.length hkeys
    rw [OrderedMap.keys, hrep.items, length_map, length_map,
      length_map, length_range, zero_add] at hkeys
    exact hkeys
  refine ⟨ht, order, hrun, hrep.inv, not_spliceCorrect hrep.inv (by decide) ?_ ?_ 8⟩
  · simp only [spliceEntries, entriesOf, take_zero, nil_append,
      Option.getD_some, map_cons, map_nil, add_zero, drop_zero,
      length_append, length_map, length_singleton, hlength]
    decide
  · simp

end PhpEngine

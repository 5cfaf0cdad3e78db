/-
Splicing.  The new buckets are put on the global list only; the chains are
rebuilt by the reindexing at the end.
-/
import PhpEngine.HashRekey

namespace PhpEngine

open List

variable {δ : Type}

/-- The loop of `_zend_hash_splice` that skips `n` elements: how many there
were, and where it stops. -/
def spliceSkip (ht : HashTable δ) : Nat → Option Addr → Nat × Option Addr
  | 0, p => (0, p)
  | _ + 1, none => (0, none)
  | n + 1, some p =>
    let (pos, q) := spliceSkip ht n (ht.pListNext p)
    (pos + 1, q)

section Interned

variable (intern : Nat → KeyBytes) (pCopyConstructor : δ → δ)

/-- A removed element goes to the end of the other table, when there is one. -/
def collectRemoved (ht : HashTable δ) (p : Addr) :
    Option (HashTable δ) → Option (Option (HashTable δ))
  | none => some none
  | some removed =>
    (if ht.nKeyLength p = 0 then
      zendHashIndexUpdateOrNextInsert removed 0 (ht.pData p) .nextInsert else
      zendHashQuickAddOrUpdate intern removed (bucketKeyArg intern ht p)
        (ht.h p) (ht.pData p) .update).map
      fun stored => some (applyCopyConstructor pCopyConstructor stored)

/-- The loop that removes up to `n` elements from the position on. -/
def spliceRemove : Nat → HashTable δ → Option (HashTable δ) → Option Addr →
    Option (HashTable δ × Option (HashTable δ) × Option Addr)
  | 0, ht, removed, p => some (ht, removed, p)
  | _ + 1, ht, removed, none => some (ht, removed, none)
  | n + 1, ht, removed, some p =>
    match collectRemoved intern pCopyConstructor ht p removed with
    | none => none
    | some removed =>
      spliceRemove n (zendHashBucketDelete ht p) removed (ht.pListNext p)

/-- A new element goes before `p`, or to the end, with the key 0. -/
def spliceInsert (p : Option Addr) (ht : HashTable δ) (data : δ) : HashTable δ :=
  let q := ht.brk
  let ht := newBucket ht 0 0 data
  let ht := { ht with arKey := Function.update ht.arKey q .null }
  let last := match p with
    | some p => ht.pListLast p
    | none => ht.pListTail
  let ht := connectToGlobalDllistEx ht q last p
  let ht := { ht with nNumOfElements := (ht.nNumOfElements + 1) % uintMod }
  setData ht q (pCopyConstructor (ht.pData q))

/-- The new elements, and the one resize after them. -/
def spliceList (p : Option Addr) (ht : HashTable δ) : Option (List δ) → Option (HashTable δ)
  | none => some ht
  | some list =>
    zendHashIfFullDoResize (list.foldl (spliceInsert pCopyConstructor p) ht)

/-- `_zend_hash_splice` -/
def zendHashSplice (ht : HashTable δ) (offset length : Nat)
    (list : Option (List δ)) (removed : Option (HashTable δ)) :
    Option (HashTable δ × Option (HashTable δ)) := do
  let ht := checkInit ht
  let (pos, p) := spliceSkip ht offset ht.pListHead
  let (ht, removed, p) ← spliceRemove intern pCopyConstructor
    ((offset + length) % uintMod - pos) ht removed p
  let ht ← spliceList pCopyConstructor p ht list
  let ht ← zendHashReindex ht true
  return (ht, removed)

end Interned

section Shape

variable {intern : Nat → KeyBytes} {pCopyConstructor : δ → δ}
  {ht : HashTable δ} {before rest after : List Addr}

theorem spliceSkip_eq (n : Nat) (h : ListInv ht (before ++ rest)) :
    spliceSkip ht n rest.head? = (min n rest.length, (rest.drop n).head?) := by
  induction n generalizing before rest with
  | zero => simp [spliceSkip]
  | succ n ih =>
    cases rest with
    | nil => simp [spliceSkip]
    | cons p rest =>
      have hrest : ListInv ht (before ++ [p] ++ rest) := by simpa using h
      rw [head?_cons, spliceSkip, h.next, ih hrest]
      simp

/-- Everything but the lists, the chains, the count and the internal pointer is
as it was. -/
structure SameBuckets (ht ht' : HashTable δ) : Prop extends SameContents ht ht' where
  nTableSize : ht'.nTableSize = ht.nTableSize
  nTableMask : ht'.nTableMask = ht.nTableMask
  brk : ht'.brk = ht.brk

theorem SameBuckets.refl (ht : HashTable δ) : SameBuckets ht ht :=
  ⟨⟨rfl, rfl, rfl, rfl, rfl, rfl⟩, rfl, rfl, rfl⟩

theorem SameBuckets.trans {ht ht' ht'' : HashTable δ} (h : SameBuckets ht ht')
    (h' : SameBuckets ht' ht'') : SameBuckets ht ht'' :=
  ⟨⟨h'.nNextFreeElement.trans h.nNextFreeElement, h'.h.trans h.h,
      h'.nKeyLength.trans h.nKeyLength, h'.arKey.trans h.arKey,
      h'.keyStore.trans h.keyStore, h'.pData.trans h.pData⟩,
    h'.nTableSize.trans h.nTableSize, h'.nTableMask.trans h.nTableMask, h'.brk.trans h.brk⟩

theorem zendHashBucketDelete_sameBuckets (ht : HashTable δ) (p : Addr) :
    SameBuckets ht (zendHashBucketDelete ht p) := by
  refine ⟨⟨?_, ?_, ?_, ?_, ?_, ?_⟩, ?_, ?_, ?_⟩
  all_goals rw [zendHashBucketDelete_frame]

theorem SameContents.collectRemoved {ht' : HashTable δ} (h : SameContents ht ht')
    (p : Addr) (removed : Option (HashTable δ)) :
    collectRemoved intern pCopyConstructor ht' p removed =
      PhpEngine.collectRemoved intern pCopyConstructor ht p removed := by
  cases removed with
  | none => rfl
  | some removed =>
    simp only [PhpEngine.collectRemoved, bucketKeyArg, bucketBytes, h.h,
      h.nKeyLength, h.arKey, h.keyStore, h.pData]

/-- The removed buckets leave the table one by one, and `collected` says of the
other table what it holds of them. -/
theorem HashShape.spliceRemove {collected : List Addr → Option (HashTable δ) → Prop}
    (hshape : HashShape ht (before ++ rest)) (n : Nat) {whole done : List Addr}
    (hwhole : whole = done ++ rest) {room : Nat} (hroom : done.length + n ≤ room)
    {removed : Option (HashTable δ)} (hdone : collected done removed)
    (hcollect : ∀ done p more removed, whole = done ++ p :: more →
      done.length < room → collected done removed →
      ∃ removed', collectRemoved intern pCopyConstructor ht p removed =
        some removed' ∧ collected (done ++ [p]) removed') :
    ∃ ht' removed', PhpEngine.spliceRemove intern pCopyConstructor n ht removed
        rest.head? = some (ht', removed', (rest.drop n).head?) ∧
      HashShape ht' (before ++ rest.drop n) ∧ SameBuckets ht ht' ∧
      collected (done ++ rest.take n) removed' := by
  induction n generalizing ht rest done removed with
  | zero =>
    refine ⟨ht, removed, ?_, hshape, .refl ht, by simpa using hdone⟩
    rw [PhpEngine.spliceRemove, drop_zero]
  | succ n ih =>
    cases rest with
    | nil =>
      refine ⟨ht, removed, ?_, by simpa using hshape, .refl ht, by simpa using hdone⟩
      simp [PhpEngine.spliceRemove]
    | cons p rest =>
      obtain ⟨removed₁, hcollected, hdone₁⟩ :=
        hcollect done p rest removed hwhole (by omega) hdone
      have hsame := zendHashBucketDelete_sameBuckets ht p
      have hmore : (done ++ [p]).length + n ≤ room := by
        rw [length_append, length_singleton]
        omega
      obtain ⟨ht', removed', hrun, hshape', hsame', hdone'⟩ :=
        ih hshape.delete (by rw [hwhole, append_assoc]; rfl) hmore hdone₁
          (by
            intro done q more removed hq hlt hdone
            rw [hsame.collectRemoved]
            exact hcollect done q more removed hq hlt hdone)
      refine ⟨ht', removed', ?_, hshape', hsame.trans hsame', ?_⟩
      · rw [head?_cons, PhpEngine.spliceRemove, hcollected]
        rw [hshape.list.next]
        exact hrun
      · simpa using hdone'

/-- A new bucket stands between those before it and those behind it. -/
theorem TableShape.spliceInsert (hshape : TableShape ht (before ++ after))
    (hmask : ht.nTableMask ≠ 0) (data : δ) :
    TableShape (spliceInsert pCopyConstructor after.head? ht data) (before ++ ht.brk :: after) := by
  have hbrk : ht.brk ∉ before ++ after :=
    fun hmem => lt_irrefl _ (hshape.allocated _ hmem)
  have hlast : (match after.head? with
      | some p => ht.pListLast p
      | none => ht.pListTail) = before.getLast? := by
    cases after with
    | nil => simpa using hshape.list.tail
    | cons p after => exact hshape.list.last
  have hlist := hshape.list.connect hbrk
  rw [← hlast] at hlist
  refine
    { size := hshape.size
      mask := hshape.mask
      uninitialized := fun hzero => absurd hzero hmask
      list := hlist.congr rfl rfl (fun _ _ => rfl) fun _ _ => rfl
      count := ?_
      internalPointer := ?_
      allocated := ?_
      applyCount := hshape.applyCount }
  · change (ht.nNumOfElements + 1) % uintMod = _
    rw [hshape.count, Nat.mod_add_mod]
    congr 1
    simp only [length_append, length_cons]
    omega
  · intro p hp
    exact mem_middle_of_mem (hshape.internalPointer p hp)
  · intro p hp
    simp only [mem_append, mem_cons] at hp
    have hold : p = ht.brk ∨ p ∈ before ++ after := by
      simp only [mem_append]
      tauto
    rcases hold with rfl | hmem
    · exact Nat.lt_succ_self _
    · exact Nat.lt_succ_of_lt (hshape.allocated p hmem)

/-- The buckets below `n` have the same contents in both tables. -/
structure SameBelow (n : Addr) (ht ht' : HashTable δ) : Prop where
  bucket : ∀ p < n, SameBucket ht ht' p
  data : ∀ p < n, ht'.pData p = ht.pData p

theorem spliceInsert_sameBelow (pCopyConstructor : δ → δ) (p : Option Addr)
    (ht : HashTable δ) (data : δ) :
    SameBelow ht.brk ht (spliceInsert pCopyConstructor p ht data) := by
  refine ⟨?_, ?_⟩
  · intro q hq
    have hne : q ≠ ht.brk := ne_of_lt hq
    constructor <;> simp [PhpEngine.spliceInsert, newBucket, connectToGlobalDllistEx,
        PhpEngine.setData, hne]
  · intro q hq
    have hne : q ≠ ht.brk := ne_of_lt hq
    simp [PhpEngine.spliceInsert, newBucket, connectToGlobalDllistEx, PhpEngine.setData, hne]

/-- The new buckets stand one after the other in the place of the list. -/
theorem TableShape.spliceInserts (list : List δ)
    (hshape : TableShape ht (before ++ after)) (hmask : ht.nTableMask ≠ 0) : ∃ ht' added,
      list.foldl (PhpEngine.spliceInsert pCopyConstructor after.head?) ht = ht' ∧
      TableShape ht' (before ++ added ++ after) ∧ SameBelow ht.brk ht ht' ∧
      (∀ p ∈ added, ht.brk ≤ p ∧ ht'.nKeyLength p = 0 ∧ ht'.h p = 0 ∧ ht'.arKey p = .null) ∧
      added.map ht'.pData = list.map pCopyConstructor ∧
      ht'.nTableSize = ht.nTableSize ∧ ht'.nTableMask = ht.nTableMask := by
  induction list generalizing ht before with
  | nil =>
    refine ⟨ht, [], rfl, by simpa using hshape, ⟨?_, ?_⟩, by simp, rfl, rfl, rfl⟩
    · exact fun p _ => ⟨rfl, rfl, rfl, rfl⟩
    · exact fun p _ => rfl
  | cons data list ih =>
    have hsame₁ := spliceInsert_sameBelow pCopyConstructor after.head? ht data
    have hshape₁ : TableShape (PhpEngine.spliceInsert pCopyConstructor after.head? ht data)
        (before ++ [ht.brk] ++ after) := by
      simpa using hshape.spliceInsert hmask data
    have hnew : (PhpEngine.spliceInsert pCopyConstructor after.head? ht
          data).nKeyLength ht.brk = 0 ∧
        (PhpEngine.spliceInsert pCopyConstructor after.head? ht data).h ht.brk = 0 ∧
        (PhpEngine.spliceInsert pCopyConstructor after.head? ht data).arKey ht.brk = .null ∧
        (PhpEngine.spliceInsert pCopyConstructor after.head? ht data).pData
          ht.brk = pCopyConstructor data := by
      simp [PhpEngine.spliceInsert, newBucket, connectToGlobalDllistEx, PhpEngine.setData]
    obtain ⟨ht', added, hrun, hshape', hsame', hadded, hdata, hsize, hmask'⟩ :=
      ih hshape₁ hmask
    have hlt : ht.brk < (PhpEngine.spliceInsert pCopyConstructor after.head?
        ht data).brk := Nat.lt_succ_self _
    have hfirst := hsame'.bucket ht.brk hlt
    refine ⟨ht', ht.brk :: added, hrun, by simpa using hshape', ⟨?_, ?_⟩, ?_,
      ?_, hsize, hmask'⟩
    · intro p hp
      have h₁ := hsame₁.bucket p hp
      have h₂ := hsame'.bucket p (lt_trans hp hlt)
      exact ⟨h₂.h.trans h₁.h, h₂.nKeyLength.trans h₁.nKeyLength,
        h₂.arKey.trans h₁.arKey, h₂.keyStore.trans h₁.keyStore⟩
    · intro p hp
      rw [hsame'.data p (lt_trans hp hlt), hsame₁.data p hp]
    · intro p hp
      rcases mem_cons.mp hp with rfl | hp
      · exact ⟨le_rfl, hfirst.nKeyLength.trans hnew.1,
          hfirst.h.trans hnew.2.1, hfirst.arKey.trans hnew.2.2.1⟩
      · obtain ⟨hle, hrest⟩ := hadded p hp
        exact ⟨le_trans (le_of_lt hlt) hle, hrest⟩
    · rw [map_cons, map_cons, hdata, hsame'.data ht.brk hlt, hnew.2.2.2]

/-- The table with the new buckets on its list, before they have their keys. -/
structure SpliceReady (pCopyConstructor : δ → δ) (ht ht' : HashTable δ)
    (before added after : List Addr) (list : Option (List δ)) : Prop where
  shape : TableShape ht' (before ++ added ++ after)
  unchanged : added = [] → HashShape ht' (before ++ after)
  same : SameBelow ht.brk ht ht'
  fresh : ∀ p ∈ added, ht.brk ≤ p
  numbers : ∀ p ∈ added, ht'.nKeyLength p = 0 ∧ ht'.h p = 0 ∧ ht'.arKey p = .null
  data : added.map ht'.pData = (list.getD []).map pCopyConstructor
  size : ht'.nTableSize = 2 * ht.nTableSize ∨ ht'.nTableSize = ht.nTableSize ∧
    (list = none ∨ ht'.nNumOfElements ≤ ht.nTableSize ∨ ht.nTableSize = 2 ^ 31)

variable (pCopyConstructor) in
theorem HashShape.spliceList (hshape : HashShape ht (before ++ after))
    (hmask : ht.nTableMask ≠ 0) (list : Option (List δ)) : ∃ ht' added,
      PhpEngine.spliceList pCopyConstructor after.head? ht list = some ht' ∧
        SpliceReady pCopyConstructor ht ht' before added after list := by
  cases list with
  | none =>
    refine ⟨ht, [], rfl, ⟨?_, fun _ => hshape, ⟨?_, ?_⟩, by simp, by simp, rfl,
      .inr ⟨rfl, .inl rfl⟩⟩⟩
    · simpa using hshape.toTableShape
    · exact fun p _ => ⟨rfl, rfl, rfl, rfl⟩
    · exact fun p _ => rfl
  | some list =>
    obtain ⟨ht₁, added, hrun, hshape₁, hsame, hadded, hdata, hsize, hmask₁⟩ :=
      hshape.spliceInserts list hmask
    have hunchanged : added = [] → HashShape ht₁ (before ++ after) := by
      rintro rfl
      cases list with
      | nil =>
        rw [← hrun]
        exact hshape
      | cons data list => cases hdata
    rcases hshape₁.ifFullDoResize_cases with
      ⟨hresize, hfull⟩ | ⟨ht', hresize, hgeometry, hshape', hdouble⟩
    · refine ⟨ht₁, added, by rw [PhpEngine.spliceList, hrun, hresize], ⟨hshape₁,
        hunchanged, hsame, fun p hp => (hadded p hp).1,
        fun p hp => (hadded p hp).2, hdata, .inr ⟨hsize, .inr ?_⟩⟩⟩
      rwa [hsize] at hfull
    · refine ⟨ht', added, by rw [PhpEngine.spliceList, hrun, hresize], ?_⟩
      refine ⟨hshape'.toTableShape, ?_, ⟨?_, ?_⟩, fun p hp => (hadded p hp).1,
        ?_, ?_, .inl (by rw [hdouble, hsize])⟩
      · rintro rfl
        simpa using hshape'
      · intro p hp
        rw [hgeometry]
        obtain ⟨hh, hlen, hkey, hstore⟩ := hsame.bucket p hp
        exact ⟨hh, hlen, hkey, hstore⟩
      · rw [hgeometry]
        exact hsame.data
      · rw [hgeometry]
        exact fun p hp => (hadded p hp).2
      · rw [hgeometry]
        exact hdata

theorem spliceLength_eq {offset length : Nat} (hlength : offset + length < uintMod) :
    (offset + length) % uintMod - offset = length := by
  rw [Nat.mod_eq_of_lt hlength]
  omega

/-- Everything that a splice does before the keys are renumbered.  It cuts `cut`
elements, which is the length unless the end of the cut is not a `uint`. -/
theorem HashShape.splice {order : List Addr} {offset length cut : Nat} (hshape : HashShape ht order)
    (collected : List Addr → Option (HashTable δ) → Prop)
    (hlength : (offset + length) % uintMod - offset = cut)
    (list : Option (List δ)) {removed : Option (HashTable δ)} (hdone : collected [] removed)
    (hcollect : ∀ done p more removed, order.drop offset = done ++ p :: more →
      done.length < uintMod → collected done removed →
      ∃ removed', collectRemoved intern pCopyConstructor ht p removed =
        some removed' ∧ collected (done ++ [p]) removed') : ∃ ht' added removed',
      zendHashSplice intern pCopyConstructor ht offset length list removed =
          (zendHashReindex ht' true).map (·, removed') ∧
        SpliceReady pCopyConstructor ht ht' (order.take offset) added
          (order.drop (offset + cut)) list ∧ collected ((order.drop offset).take cut) removed' := by
  obtain ⟨hshape₀, hmask₀, hgeometry⟩ := hshape.checkInit
  have hsame₀ : SameContents ht (PhpEngine.checkInit ht) := by
    constructor <;> rw [hgeometry]
  have hsize₀ : (PhpEngine.checkInit ht).nTableSize = ht.nTableSize := by
    rw [PhpEngine.checkInit]
    split <;> rfl
  have hbrk₀ : (PhpEngine.checkInit ht).brk = ht.brk := by rw [hgeometry]
  rw [zendHashSplice]
  generalize PhpEngine.checkInit ht = ht₀ at *
  have hparts := take_append_drop offset order
  rw [← hparts] at hshape₀
  have hskip : spliceSkip ht₀ offset ht₀.pListHead =
      (min offset order.length, (order.drop offset).head?) := by
    rw [hshape₀.list.head, hparts]
    have hlist : ListInv ht₀ ([] ++ order) := by
      rw [nil_append, ← hparts]
      exact hshape₀.list
    exact spliceSkip_eq offset hlist
  have hroom : ([] : List Addr).length +
      ((offset + length) % uintMod - min offset order.length) ≤ uintMod := by
    have hlt : (offset + length) % uintMod < uintMod := Nat.mod_lt _ (by decide)
    rw [length_nil]
    omega
  obtain ⟨ht₁, removed', hremove, hshape₁, hsame₁, hcollected⟩ :=
    hshape₀.spliceRemove _ (nil_append _).symm hroom hdone (by
      intro done p more removed hp hlt hdone
      rw [hsame₀.collectRemoved]
      exact hcollect done p more removed hp hlt hdone)
  -- Behind the end of the list there is nothing to remove.
  have hcut : ∀ l : List Addr, l = order.drop offset →
      l.take ((offset + length) % uintMod - min offset order.length) = l.take cut ∧
        l.drop ((offset + length) % uintMod - min offset order.length) = l.drop cut := by
    rintro l rfl
    rcases Nat.le_total offset order.length with hle | hle
    · have hn : (offset + length) % uintMod - min offset order.length = cut := by
        rw [min_eq_left hle, hlength]
      rw [hn]
      exact ⟨rfl, rfl⟩
    · rw [drop_eq_nil_of_le hle]
      simp
  obtain ⟨htake, hdrop⟩ := hcut _ rfl
  rw [hdrop, drop_drop] at hshape₁ hremove
  rw [htake, nil_append] at hcollected
  obtain ⟨ht₂, added, hlist, hready⟩ :=
    hshape₁.spliceList pCopyConstructor (by rw [hsame₁.nTableMask]; exact hmask₀) list
  have hbrk : ht₁.brk = ht.brk := hsame₁.brk.trans hbrk₀
  have hsize : ht₁.nTableSize = ht.nTableSize := hsame₁.nTableSize.trans hsize₀
  refine ⟨ht₂, added, removed', ?_, ?_, hcollected⟩
  · simp only [hskip, hremove, hlist, Option.bind_eq_bind, Option.bind_some]
    cases zendHashReindex ht₂ true <;> rfl
  · have hfresh := hready.fresh
    have hgrown := hready.size
    rw [hbrk] at hfresh
    rw [hsize] at hgrown
    refine ⟨hready.shape, hready.unchanged, ⟨?_, ?_⟩, hfresh, hready.numbers, hready.data, hgrown⟩
    · intro p hp
      have h₁ := hready.same.bucket p (hbrk ▸ hp)
      have h₀ := hsame₁.sameBucket p
      have h := hsame₀.sameBucket p
      exact ⟨h₁.h.trans (h₀.h.trans h.h), h₁.nKeyLength.trans (h₀.nKeyLength.trans h.nKeyLength),
        h₁.arKey.trans (h₀.arKey.trans h.arKey),
        h₁.keyStore.trans (h₀.keyStore.trans h.keyStore)⟩
    · intro p hp
      rw [hready.same.data p (hbrk ▸ hp), hsame₁.pData, hsame₀.pData]

/-- The keys of a spliced table before they are renumbered. -/
def splicedKeys (intern : Nat → KeyBytes) (ht : HashTable δ)
    (before after : List Addr) (list : Option (List δ)) : List HashKey :=
  before.map (bucketKey intern ht) ++ (list.getD []).map (fun _ => .long 0) ++
    after.map (bucketKey intern ht)

/-- The outcome of a splice. -/
structure Spliced (intern : Nat → KeyBytes) (pCopyConstructor : δ → δ)
    (ht ht' : HashTable δ) (before added after : List Addr)
    (list : Option (List δ)) : Prop where
  shape : HashShape ht' (before ++ added ++ after)
  keys : (before ++ added ++ after).map (bucketKey intern ht') =
    reindexKeys true 0 (splicedKeys intern ht before after list)
  kept : ∀ p ∈ before ++ after, BucketKept true ht ht' p
  bytes : ∀ p ∈ before ++ after, ht'.arKey p = ht.arKey p ∧ ht'.keyStore p = ht.keyStore p
  old : ∀ p ∈ before ++ after, ht'.pData p = ht.pData p
  numbers : ∀ p ∈ added, ht'.nKeyLength p = 0 ∧ ht'.arKey p = .null
  data : added.map ht'.pData = (list.getD []).map pCopyConstructor
  nextFree : ht'.nNextFreeElement =
    (splicedKeys intern ht before after list).countP (renumbered true)
  size : ht'.nTableSize = 2 * ht.nTableSize ∨ ht'.nTableSize = ht.nTableSize ∧
    (list = none ∨ ht'.nNumOfElements ≤ ht.nTableSize ∨ ht.nTableSize = 2 ^ 31)

variable {ht' : HashTable δ} {added : List Addr} {list : Option (List δ)}

variable (intern) in
theorem SpliceReady.keys (hready : SpliceReady pCopyConstructor ht ht' before added after list)
    (hold : ∀ p ∈ before ++ after, p < ht.brk) :
    (before ++ added ++ after).map (bucketKey intern ht') =
      splicedKeys intern ht before after list := by
  have hsame : ∀ p ∈ before ++ after, SameBucket ht ht' p :=
    fun p hp => hready.same.bucket p (hold p hp)
  have hlength : added.length = (list.getD []).length := by
    simpa using congrArg List.length hready.data
  have hadded : added.map (bucketKey intern ht') = (list.getD []).map fun _ => .long 0 := by
    have hzero : ∀ p ∈ added, bucketKey intern ht' p = .long 0 := by
      intro p hp
      obtain ⟨hlen, hh, -⟩ := hready.numbers p hp
      simp [bucketKey, hlen, hh]
    rw [map_congr_left hzero, map_const', map_const', hlength]
  rw [splicedKeys, map_append, map_append, hadded,
    SameBucket.map_bucketKey fun p hp => hsame p (mem_append_left after hp),
    SameBucket.map_bucketKey fun p hp => hsame p (mem_append_right before hp)]

variable (intern) in
/-- With the keys renumbered the splice is complete, unless the number of
elements comes round to zero. -/
theorem SpliceReady.reindex (hready : SpliceReady pCopyConstructor ht ht' before added after list)
    (hold : ∀ p ∈ before ++ after, p < ht.brk)
    (hcount : (before ++ added ++ after).length % uintMod = 0 → before ++ added ++ after = []) :
    ∃ ht'', zendHashReindex ht' true = some ht'' ∧
      Spliced intern pCopyConstructor ht ht'' before added after list := by
  have hkeys := hready.keys intern hold
  have hnum := hready.shape.count
  have hsame : ∀ p ∈ before ++ after, SameBucket ht ht' p :=
    fun p hp => hready.same.bucket p (hold p hp)
  by_cases hzero : ht'.nNumOfElements = 0
  · have hnil : before ++ added ++ after = [] := hcount (hnum.symm.trans hzero)
    obtain ⟨rfl, rfl, rfl⟩ : before = [] ∧ added = [] ∧ after = [] := by
      simpa using hnil
    obtain ⟨hshape, hchain⟩ := hready.unchanged rfl
    have hnone : splicedKeys intern ht [] [] list = [] := hkeys.symm
    refine ⟨{ ht' with nNextFreeElement := 0 }, ?_, ⟨⟨⟨hshape.size, hshape.mask,
      hshape.uninitialized, hshape.list, hshape.count, hshape.internalPointer,
      hshape.allocated, hshape.applyCount⟩, hchain⟩, ?_, by simp, by simp, by simp,
      by simp, hready.data, ?_, hready.size⟩⟩
    · rw [zendHashReindex, if_pos hzero]
    · rw [hnone]
      rfl
    · rw [hnone]
      rfl
  · obtain ⟨ht'', offset, hrun, hshape, hnumbers, hkept, hkeys', hoffset⟩ :=
      hready.shape.reindex intern true hzero
    have hmem : ∀ p ∈ before ++ after, p ∈ before ++ added ++ after := by
      intro p hp
      simp only [mem_append] at hp ⊢
      tauto
    have hbytes : ht''.arKey = ht'.arKey ∧ ht''.keyStore = ht'.keyStore := by
      constructor <;> rw [hnumbers]
    have hdata : ht''.pData = ht'.pData := by rw [hnumbers]
    have hsize : ht''.nTableSize = ht'.nTableSize ∧ ht''.nNumOfElements = ht'.nNumOfElements := by
      constructor <;> rw [hnumbers]
    rw [hkeys] at hkeys' hoffset
    refine ⟨_, hrun, ⟨hshape, hkeys', ?_, ?_, ?_, ?_, ?_, hoffset, ?_⟩⟩
    · intro p hp
      have hp' := hkept p (hmem p hp)
      rw [BucketKept, (hsame p hp).h, (hsame p hp).nKeyLength] at hp'
      exact hp'
    · intro p hp
      change ht''.arKey p = _ ∧ ht''.keyStore p = _
      rw [hbytes.1, hbytes.2, (hsame p hp).arKey, (hsame p hp).keyStore]
      exact ⟨rfl, rfl⟩
    · intro p hp
      change ht''.pData p = _
      rw [hdata, hready.same.data p (hold p hp)]
    · intro p hp
      obtain ⟨hlen, -, hnull⟩ := hready.numbers p hp
      have hp' : p ∈ before ++ added ++ after := by simp [hp]
      refine ⟨?_, by rw [← hnull]; exact congrFun hbytes.1 p⟩
      rcases hkept p hp' with ⟨hzero, -⟩ | ⟨hne, -⟩
      · exact hzero
      · exact absurd hlen hne
    · change added.map ht''.pData = _
      rw [hdata, hready.data]
    · change ht''.nTableSize = _ ∨ ht''.nTableSize = _ ∧ (_ ∨ ht''.nNumOfElements ≤ _ ∨ _)
      rw [hsize.1, hsize.2]
      exact hready.size

end Shape

end PhpEngine

/-
The representation invariant of the hash table and what it says about the
search loops.  The global list and the collision chains live in separate
pointer fields, so each is an invariant of its own with its own frame rule.
-/
import PhpEngine.HashTable

namespace PhpEngine

open List

variable {order : List Addr} {p : Addr} {i : Nat}

variable {δ : Type}

/-- The global list runs through `order` from `pListHead` to `pListTail`. -/
def ListInv (ht : HashTable δ) (order : List Addr) : Prop :=
  Ring ht.listNext ht.listLast none (order.map some)

/-- Chain `i` runs through exactly the buckets of `order` whose hash selects
it. -/
def ChainInv (ht : HashTable δ) (order : List Addr) (i : Nat) : Prop :=
  ∃ (tail : Option Addr) (l : List Addr),
    Ring (ht.chainNext i) (ht.chainLast tail) none (l.map some) ∧
    ∀ p, p ∈ l ↔ p ∈ order ∧ ht.h p &&& ht.nTableMask = i

/-- What the representation invariant says of a table without its keys and its
chains; `order` lists the buckets in the order of the global list. -/
structure TableShape (ht : HashTable δ) (order : List Addr) : Prop where
  size : ∃ k, 3 ≤ k ∧ k ≤ 31 ∧ ht.nTableSize = 2 ^ k
  mask : ht.nTableMask = 0 ∨ ht.nTableMask = ht.nTableSize - 1
  uninitialized : ht.nTableMask = 0 → order = []
  list : ListInv ht order
  count : ht.nNumOfElements = order.length % uintMod
  internalPointer : ∀ p, ht.pInternalPointer = some p → p ∈ order
  allocated : ∀ p ∈ order, p < ht.brk
  applyCount : ht.nApplyCount = 0

/-- The lists and the chains of a table, whatever its keys are. -/
structure HashShape (ht : HashTable δ) (order : List Addr) : Prop extends TableShape ht order where
  chain : ∀ i ≤ ht.nTableMask, ChainInv ht order i

section Interned

variable (intern : Nat → KeyBytes)

/-- A string key has its length and hash stored beside it; an index keeps no
pointer to an interned string. -/
def BucketOk (ht : HashTable δ) (p : Addr) : Prop :=
  if ht.nKeyLength p = 0 then isInterned (ht.arKey p) = false
  else ht.arKey p ≠ .null ∧ ht.nKeyLength p = (bucketBytes intern ht p).length ∧
    ht.h p = zendHashFunc (bucketBytes intern ht p)

/-- Everything the representation invariant says except for the chains;
`order` lists the buckets in the order of the global list. -/
structure HashCore (ht : HashTable δ) (order : List Addr) : Prop where
  size : ∃ k, 3 ≤ k ∧ k ≤ 31 ∧ ht.nTableSize = 2 ^ k
  mask : ht.nTableMask = 0 ∨ ht.nTableMask = ht.nTableSize - 1
  uninitialized : ht.nTableMask = 0 → order = []
  list : ListInv ht order
  count : ht.nNumOfElements = order.length % uintMod
  internalPointer : ∀ p, ht.pInternalPointer = some p → p ∈ order
  keys : (order.map (bucketKey intern ht)).Nodup
  bucket : ∀ p ∈ order, BucketOk intern ht p
  allocated : ∀ p ∈ order, p < ht.brk
  applyCount : ht.nApplyCount = 0

/-- The representation invariant. -/
structure HashInv (ht : HashTable δ) (order : List Addr) : Prop
    extends HashCore intern ht order where
  chain : ∀ i ≤ ht.nTableMask, ChainInv ht order i

variable {intern} {ht : HashTable δ} {order : List Addr}

theorem HashCore.shape (h : HashCore intern ht order) : TableShape ht order :=
  ⟨h.size, h.mask, h.uninitialized, h.list, h.count, h.internalPointer, h.allocated, h.applyCount⟩

theorem TableShape.core (h : TableShape ht order) (hkeys : (order.map (bucketKey intern ht)).Nodup)
    (hbucket : ∀ p ∈ order, BucketOk intern ht p) : HashCore intern ht order :=
  ⟨h.size, h.mask, h.uninitialized, h.list, h.count, h.internalPointer, hkeys,
    hbucket, h.allocated, h.applyCount⟩

theorem HashInv.hashShape (h : HashInv intern ht order) : HashShape ht order :=
  ⟨h.shape, h.chain⟩

/-- The shape and the keys make the representation invariant. -/
theorem HashShape.inv (h : HashShape ht order) (hkeys : (order.map (bucketKey intern ht)).Nodup)
    (hbucket : ∀ p ∈ order, BucketOk intern ht p) : HashInv intern ht order :=
  ⟨h.core hkeys hbucket, h.chain⟩

end Interned

/-! The global list. -/

theorem map_some_getLastD (l : List Addr) : (l.map some).getLastD none = l.getLast? := by
  rw [getLastD_eq_getLast?, getLast?_map]
  cases l.getLast? <;> rfl

theorem map_some_headD (l : List Addr) : (l.map some).headD none = l.head? := by
  cases l <;> rfl

theorem ListInv.nodup {ht : HashTable δ} (h : ListInv ht order) : order.Nodup :=
  List.Nodup.of_map some h.nodup_nodes

theorem ListInv.head {ht : HashTable δ} (h : ListInv ht order) : ht.pListHead = order.head? := by
  have hsentinel := h.nxt_sentinel
  rwa [map_some_headD] at hsentinel

theorem ListInv.tail {ht : HashTable δ} (h : ListInv ht order) : ht.pListTail = order.getLast? := by
  have hsentinel := h.prv_sentinel
  rwa [map_some_getLastD] at hsentinel

theorem ListInv.next {ht : HashTable δ} {before after : List Addr}
    (h : ListInv ht (before ++ p :: after)) : ht.pListNext p = after.head? := by
  rw [ListInv, map_append, map_cons] at h
  have hnode := h.nxt_node
  rwa [map_some_headD] at hnode

theorem ListInv.last {ht : HashTable δ} {before after : List Addr}
    (h : ListInv ht (before ++ p :: after)) : ht.pListLast p = before.getLast? := by
  rw [ListInv, map_append, map_cons] at h
  have hnode := h.prv_node
  rwa [map_some_getLastD] at hnode

theorem ListInv.congr {ht ht' : HashTable δ}
    (h : ListInv ht order) (hhead : ht'.pListHead = ht.pListHead)
    (htail : ht'.pListTail = ht.pListTail) (hnext : ∀ p ∈ order, ht'.pListNext p = ht.pListNext p)
    (hlast : ∀ p ∈ order, ht'.pListLast p = ht.pListLast p) : ListInv ht' order := by
  refine Ring.congr h ?_ ?_
  · intro x hx
    cases x with
    | none => exact hhead
    | some p => exact hnext p (by simpa using hx)
  · intro x hx
    cases x with
    | none => exact htail
    | some p => exact hlast p (by simpa using hx)

/-- A chain only depends on the bucket array, the chain links and the hashes
of the listed buckets. -/
theorem ChainInv.congr {ht ht' : HashTable δ}
    (h : ChainInv ht order i) (hhead : ht'.arBuckets i = ht.arBuckets i)
    (hmask : ht'.nTableMask = ht.nTableMask) (hnext : ∀ p ∈ order, ht'.pNext p = ht.pNext p)
    (hlast : ∀ p ∈ order, ht'.pLast p = ht.pLast p)
    (hh : ∀ p ∈ order, ht'.h p = ht.h p) : ChainInv ht' order i := by
  obtain ⟨tail, l, hring, hmem⟩ := h
  refine ⟨tail, l, Ring.congr hring ?_ ?_, ?_⟩
  · intro x hx
    cases x with
    | none => exact hhead
    | some p => exact hnext p ((hmem p).mp (by simpa using hx)).1
  · intro x hx
    cases x with
    | none => rfl
    | some p => exact hlast p ((hmem p).mp (by simpa using hx)).1
  · intro p
    rw [hmem p, hmask]
    constructor
    · rintro ⟨hp, hidx⟩
      exact ⟨hp, by rw [hh p hp, hidx]⟩
    · rintro ⟨hp, hidx⟩
      exact ⟨hp, by rw [← hh p hp, hidx]⟩

/-- A chain depends on the order only through its members. -/
theorem ChainInv.of_mem_iff {ht : HashTable δ} {order' : List Addr} (h : ChainInv ht order i)
    (hmem : ∀ p, p ∈ order' ↔ p ∈ order) : ChainInv ht order' i := by
  obtain ⟨tail, l, hring, hl⟩ := h
  exact ⟨tail, l, hring, fun p => by rw [hl p, hmem p]⟩

/-- The contents of a bucket, links aside, are the same in two tables. -/
structure SameBucket (ht ht' : HashTable δ) (p : Addr) : Prop where
  h : ht'.h p = ht.h p
  nKeyLength : ht'.nKeyLength p = ht.nKeyLength p
  arKey : ht'.arKey p = ht.arKey p
  keyStore : ht'.keyStore p = ht.keyStore p

theorem SameBucket.bucketKey {ht ht' : HashTable δ}
    (h : SameBucket ht ht' p) (intern : Nat → KeyBytes) :
    bucketKey intern ht' p = bucketKey intern ht p := by
  simp only [PhpEngine.bucketKey, bucketBytes, h.h, h.nKeyLength, h.arKey, h.keyStore]

theorem SameBucket.bucketOk {ht ht' : HashTable δ}
    {intern : Nat → KeyBytes} (h : SameBucket ht ht' p)
    (hok : BucketOk intern ht p) : BucketOk intern ht' p := by
  simpa only [BucketOk, bucketBytes, h.h, h.nKeyLength, h.arKey, h.keyStore]

theorem SameBucket.map_bucketKey {ht ht' : HashTable δ}
    (h : ∀ p ∈ order, SameBucket ht ht' p) (intern : Nat → KeyBytes) :
    order.map (PhpEngine.bucketKey intern ht') = order.map (PhpEngine.bucketKey intern ht) :=
  map_congr_left fun p hp => (h p hp).bucketKey intern

/-! Searching a chain. -/

theorem find?_map_some (test : Addr → Bool) (l : List Addr) :
    ((l.map some).find? fun p => p.any test).getD none = l.find? test := by
  rw [find?_map]
  have hcomp : ((fun p : Option Addr => p.any test) ∘ some) = test := rfl
  rw [hcomp]
  cases l.find? test <;> rfl

/-- Two lists of the same elements give the same answer to a search that has
at most one answer. -/
theorem find?_eq_of_mem_iff {l m : List Addr} {test : Addr → Bool}
    (hsub : ∀ p, test p = true → (p ∈ l ↔ p ∈ m))
    (huniq : ∀ p ∈ m, ∀ q ∈ m, test p = true → test q = true → p = q) :
    l.find? test = m.find? test := by
  cases hm : m.find? test with
  | none =>
    rw [find?_eq_none] at hm ⊢
    intro p hp htest
    exact hm p ((hsub p htest).mp hp) htest
  | some q =>
    have hqtest := find?_some hm
    have hqmem := mem_of_find?_eq_some hm
    cases hl : l.find? test with
    | none =>
      rw [find?_eq_none] at hl
      exact absurd hqtest (hl q ((hsub q hqtest).mpr hqmem))
    | some p =>
      have hptest := find?_some hl
      have hpmem := mem_of_find?_eq_some hl
      rw [huniq p ((hsub p hptest).mp hpmem) q hqmem hptest hqtest]

section Interned

variable {intern : Nat → KeyBytes} {ht : HashTable δ} {order : List Addr}

/-- A chain search looks through the buckets of the chain, and terminates. -/
theorem HashShape.findInChain_chain (hshape : HashShape ht order)
    (hi : i ≤ ht.nTableMask) (test : Addr → Bool) :
    ∃ l : List Addr, findInChain ht i test = some (l.find? test) ∧
      ∀ p, p ∈ l ↔ p ∈ order ∧ ht.h p &&& ht.nTableMask = i := by
  obtain ⟨tail, l, hring, hmem⟩ := hshape.chain i hi
  have hnodup : l.Nodup := List.Nodup.of_map some hring.nodup_nodes
  have hlen : l.length ≤ ht.brk := by
    apply length_le_of_nodup_lt hnodup
    intro p hp
    exact hshape.allocated p ((hmem p).mp hp).1
  have hfuel : (l.map some).length < ht.brk + 1 := by
    rw [length_map]
    omega
  have hfind := ringFind_start hring (fun p => p.any test) hfuel
  rw [find?_map_some] at hfind
  exact ⟨l, hfind, hmem⟩

/-- A chain search whose test singles out one bucket, in that chain, finds
what a search through the whole table would find, and terminates. -/
theorem HashInv.findInChain_eq (hinv : HashInv intern ht order)
    (hi : i ≤ ht.nTableMask) {test : Addr → Bool}
    (hchain : ∀ p ∈ order, test p = true → ht.h p &&& ht.nTableMask = i)
    (huniq : ∀ p ∈ order, ∀ q ∈ order, test p = true → test q = true → p = q) :
    findInChain ht i test = some (order.find? test) := by
  obtain ⟨l, hfind, hmem⟩ := hinv.hashShape.findInChain_chain hi test
  rw [hfind]
  congr 1
  apply find?_eq_of_mem_iff _ huniq
  intro p htest
  rw [hmem p]
  exact ⟨fun hp => hp.1, fun hp => ⟨hp, hchain p hp htest⟩⟩

theorem HashInv.and_mask_le (_ : HashInv intern ht order) (h : Nat) :
    h &&& ht.nTableMask ≤ ht.nTableMask :=
  Nat.and_le_right

/-- Under the invariant the lookup test is equality with the wanted key. -/
theorem keyTest_iff (hok : BucketOk intern ht p) {key : KeyArg} (hkey : key.read intern ≠ []) :
    keyTest intern ht key (zendHashFunc (key.read intern)) p = true ↔
      bucketKey intern ht p = .string (key.read intern) := by
  rw [BucketOk] at hok
  simp only [keyTest, bucketKey, Bool.or_eq_true, Bool.and_eq_true, beq_iff_eq]
  by_cases hlen : ht.nKeyLength p = 0
  · rw [if_pos hlen] at hok
    have hpos : (key.read intern).length ≠ 0 := by simpa using hkey
    constructor
    · rintro (hptr | ⟨⟨_, hlen'⟩, _⟩)
      · cases harKey : ht.arKey p with
        | interned i => simp [harKey, isInterned] at hok
        | null | own => simp [harKey, samePointer] at hptr
      · omega
    · simp [hlen]
  · rw [if_neg hlen] at hok
    obtain ⟨_, hbytes, hhash⟩ := hok
    simp only [ne_eq, hlen, not_false_eq_true, if_true, HashKey.string.injEq]
    rw [hbytes, take_length]
    constructor
    · rintro (hptr | ⟨⟨_, hlen'⟩, htake⟩)
      · cases harKey : ht.arKey p with
        | interned i =>
          cases key with
          | interned j =>
            have hij : i = j := by simpa [harKey, samePointer] using hptr
            simp [bucketBytes, harKey, KeyArg.read, hij]
          | plain b => simp [harKey, samePointer] at hptr
        | null | own => simp [harKey, samePointer] at hptr
      · rwa [← hlen', take_length] at htake
    · intro heq
      refine .inr ⟨⟨by rw [hhash, heq], by rw [heq]⟩, ?_⟩
      rw [heq, take_length]

theorem indexTest_iff (intern : Nat → KeyBytes) {h : Nat} :
    indexTest ht h p = true ↔ bucketKey intern ht p = .long h := by
  by_cases hlen : ht.nKeyLength p = 0
  · simp [indexTest, bucketKey, hlen]
  · simp [indexTest, bucketKey, hlen]

theorem HashInv.key_unique (hinv : HashInv intern ht order) {q : Addr}
    (hp : p ∈ order) (hq : q ∈ order)
    (heq : bucketKey intern ht p = bucketKey intern ht q) : p = q :=
  inj_on_of_nodup_map hinv.keys hp hq heq

/-- The bucket of a key, by a search through the whole table. -/
def lookupKey (intern : Nat → KeyBytes) (ht : HashTable δ)
    (order : List Addr) (key : HashKey) : Option Addr :=
  order.find? fun p => decide (bucketKey intern ht p = key)

theorem find?_congr_mem {l : List Addr} {f g : Addr → Bool}
    (h : ∀ p ∈ l, f p = g p) : l.find? f = l.find? g := by
  induction l with
  | nil => rfl
  | cons head tail ih =>
    rw [find?_cons, find?_cons, h head mem_cons_self, ih fun p hp => h p (mem_cons_of_mem head hp)]

/-- Every lookup by a string key, quick or not, answers with the bucket of
that key. -/
theorem HashInv.findKey_eq (hinv : HashInv intern ht order) {key : KeyArg}
    (hkey : key.read intern ≠ []) : findKey intern ht key (zendHashFunc (key.read intern)) =
      some (lookupKey intern ht order (.string (key.read intern))) := by
  have htest : ∀ p ∈ order, keyTest intern ht key (zendHashFunc (key.read intern)) p = true ↔
        bucketKey intern ht p = .string (key.read intern) :=
    fun p hp => keyTest_iff (hinv.bucket p hp) hkey
  rw [findKey, hinv.findInChain_eq (hinv.and_mask_le _), lookupKey]
  · congr 1
    apply find?_congr_mem
    intro p hp
    rw [Bool.eq_iff_iff, htest p hp, decide_eq_true_iff]
  · intro p hp hpass
    have hbucket := (htest p hp).mp hpass
    have hok := hinv.bucket p hp
    by_cases hlen : ht.nKeyLength p = 0
    · simp [bucketKey, hlen] at hbucket
    · rw [BucketOk, if_neg hlen] at hok
      simp only [bucketKey, ne_eq, hlen, not_false_eq_true, if_true,
        HashKey.string.injEq] at hbucket
      rw [hok.2.1, take_length] at hbucket
      rw [hok.2.2, hbucket]
  · intro p hp q hq hpass hqass
    apply hinv.key_unique hp hq
    rw [(htest p hp).mp hpass, (htest q hq).mp hqass]

theorem HashInv.findIndex_eq (hinv : HashInv intern ht order) (h : Nat) :
    findIndex ht h = some (lookupKey intern ht order (.long h)) := by
  rw [findIndex, hinv.findInChain_eq (hinv.and_mask_le _), lookupKey]
  · congr 1
    apply find?_congr_mem
    intro p _
    rw [Bool.eq_iff_iff, indexTest_iff intern, decide_eq_true_iff]
  · intro p _ hpass
    have hh : ht.h p = h := by
      simp only [indexTest, Bool.and_eq_true, beq_iff_eq] at hpass
      exact hpass.2
    rw [hh]
  · intro p hp q hq hpass hqass
    apply hinv.key_unique hp hq
    rw [(indexTest_iff intern).mp hpass, (indexTest_iff intern).mp hqass]

theorem lookupKey_eq_some {key : HashKey} (h : lookupKey intern ht order key = some p) :
    p ∈ order ∧ bucketKey intern ht p = key :=
  ⟨mem_of_find?_eq_some h, by simpa using find?_some h⟩

theorem lookupKey_eq_none {key : HashKey} (h : lookupKey intern ht order key = none) :
    ∀ p ∈ order, bucketKey intern ht p ≠ key := by
  simpa [lookupKey] using h

end Interned

end PhpEngine

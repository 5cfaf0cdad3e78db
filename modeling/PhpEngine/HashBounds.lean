/-
Two bounds that hold in every table: no index reaches the next free element, and
there are not more elements than the table has room for.  They do not rest on the
keys being found, so tables in which a lookup by pointer goes wrong have them too.
-/
import PhpEngine.HashSplice

namespace PhpEngine

open List Option

variable {n idx : Nat} {p : Addr} {sorder : List Addr} {key : UpdateKey}

variable {δ : Type} {intern : Nat → KeyBytes} {ht ht' : HashTable δ} {order order' : List Addr}

/-- The index is below the next free element, or both are the last long. -/
def BelowNext (nNextFreeElement h : Nat) : Prop :=
  h < ulongMod ∧ (toLong h < nNextFreeElement ∨ h = longMax ∧ nNextFreeElement = longMax)

/-- A string bucket has the length of its key, an index is below the next free element. -/
def KeyBounded (intern : Nat → KeyBytes) (ht : HashTable δ) (p : Addr) : Prop :=
  (ht.nKeyLength p ≠ 0 → ht.nKeyLength p = (bucketBytes intern ht p).length) ∧
    (ht.nKeyLength p = 0 → BelowNext ht.nNextFreeElement (ht.h p))

/-- A table with the keys of its buckets in order. -/
structure Bounded (intern : Nat → KeyBytes) (ht : HashTable δ)
    (order : List Addr) : Prop extends HashShape ht order where
  nextFree : ht.nNextFreeElement ≤ longMax
  key : ∀ p ∈ order, KeyBounded intern ht p

/-- The elements have room, unless the table cannot grow any more. -/
def Loaded (ht : HashTable δ) (order : List Addr) : Prop :=
  ht.nTableSize = 2 ^ 31 ∨ order.length ≤ ht.nTableSize

/-- The table `ht'` comes from `ht` by an operation: it is bounded, and loaded if
the other one is. -/
def BoundedAfter (intern : Nat → KeyBytes) (ht : HashTable δ) (order : List Addr)
    (ht' : HashTable δ) : Prop :=
  ∃ order', Bounded intern ht' order' ∧ (Loaded ht order → Loaded ht' order')

theorem nextFreeAfter_le (hn : n ≤ longMax) : nextFreeAfter n idx ≤ longMax := by
  rw [nextFreeAfter]
  split
  · split <;> omega
  · exact hn

/-- A larger next free element is above the same indices. -/
theorem BelowNext.mono {n' : Nat} (hn : n ≤ n') (hn' : n' ≤ longMax)
    (hb : BelowNext n idx) : BelowNext n' idx := by
  refine ⟨hb.1, ?_⟩
  rcases hb.2 with hlt | ⟨heq, hmax⟩
  · exact .inl (by omega)
  · exact .inr ⟨heq, by omega⟩

theorem le_nextFreeAfter (hn : n ≤ longMax) : n ≤ nextFreeAfter n idx := by
  have hlong : toLong n = n := if_pos hn
  rw [nextFreeAfter, hlong]
  split
  · next hle =>
      split
      · next hlt =>
          rw [toLong, if_pos (le_of_lt hlt)] at hle
          omega
      · exact hn
  · exact le_refl n

theorem belowNext_nextFreeAfter (hn : n ≤ longMax) (hh : idx < ulongMod) :
    BelowNext (nextFreeAfter n idx) idx := by
  have hlong : toLong n = n := if_pos hn
  refine ⟨hh, ?_⟩
  rw [nextFreeAfter, hlong]
  split
  · next hle =>
      -- An index that is not negative is at most the last long.
      have hmax : idx ≤ longMax := by
        by_contra hlarge
        rw [toLong, if_neg hlarge] at hle
        omega
      rw [toLong, if_pos hmax]
      split
      · exact .inl (by omega)
      · exact .inr ⟨by omega, rfl⟩
  · next hlt => exact .inl (by omega)

/-- A bucket with the same key, when the next free element has not gone down. -/
theorem KeyBounded.congr (h : KeyBounded intern ht p) (hsame : SameBucket ht ht' p)
    (hle : ht.nNextFreeElement ≤ ht'.nNextFreeElement) (hmax : ht'.nNextFreeElement ≤ longMax) :
    KeyBounded intern ht' p := by
  rw [KeyBounded, bucketBytes, hsame.nKeyLength, hsame.h, hsame.arKey, hsame.keyStore]
  exact ⟨h.1, fun hlen => (h.2 hlen).mono hle hmax⟩

theorem SameContents.keyBounded (hsame : SameContents ht ht') :
    KeyBounded intern ht' p ↔ KeyBounded intern ht p := by
  rw [KeyBounded, bucketBytes, hsame.nKeyLength, hsame.h, hsame.arKey, hsame.keyStore,
    hsame.nNextFreeElement]
  rfl

theorem Bounded.congr (h : Bounded intern ht order) (hshape : HashShape ht' order)
    (hsame : ∀ p ∈ order, SameBucket ht ht' p)
    (hnext : ht'.nNextFreeElement = ht.nNextFreeElement) : Bounded intern ht' order :=
  ⟨hshape, hnext ▸ h.nextFree, fun p hp =>
    (h.key p hp).congr (hsame p hp) (le_of_eq hnext.symm) (hnext ▸ h.nextFree)⟩

theorem Loaded.congr (h : Loaded ht order) (hsize : ht'.nTableSize = ht.nTableSize)
    (hlength : order'.length ≤ order.length) : Loaded ht' order' := by
  rw [Loaded, hsize]
  rcases h with hmax | hle
  · exact .inl hmax
  · exact .inr (le_trans hlength hle)

theorem TableShape.nTableSize_le (hshape : TableShape ht order) :
    0 < ht.nTableSize ∧ ht.nTableSize ≤ 2 ^ 31 := by
  obtain ⟨k, -, hk, hsize⟩ := hshape.size
  rw [hsize]
  exact ⟨Nat.two_pow_pos k, Nat.pow_le_pow_right (by decide) hk⟩

/-- At most twice as many elements as there was room for have room after the
resize. -/
theorem loaded_grown (hshape : TableShape ht order) (hshape' : TableShape ht' order')
    (hsize : ht'.nTableSize = 2 * ht.nTableSize ∨
      ht'.nTableSize = ht.nTableSize ∧ (order'.length % uintMod ≤ ht.nTableSize ∨
        ht.nTableSize = 2 ^ 31))
    (hcount : ht.nTableSize ≠ 2 ^ 31 → order'.length ≤ 2 * ht.nTableSize) : Loaded ht' order' := by
  have hle := hshape.nTableSize_le
  have hle' := hshape'.nTableSize_le
  by_cases hmax : ht.nTableSize = 2 ^ 31
  · exact .inl (by omega)
  · have htwice := hcount hmax
    rcases hsize with hdouble | ⟨hsame, hroom | hmax'⟩
    · exact .inr (by omega)
    · have hmod : order'.length % uintMod = order'.length := by
        rw [uintMod]
        omega
      exact .inr (by omega)
    · exact absurd hmax' hmax

/-- A bucket that leaves the table takes its bounds with it. -/
theorem Bounded.delete {before after : List Addr} (h : Bounded intern ht (before ++ p :: after)) :
    Bounded intern (zendHashBucketDelete ht p) (before ++ after) ∧
      (Loaded ht (before ++ p :: after) →
        Loaded (zendHashBucketDelete ht p) (before ++ after)) := by
  have hsame := zendHashBucketDelete_sameBuckets ht p
  have hrest : ∀ q ∈ before ++ after, q ∈ before ++ p :: after :=
    fun q hq => mem_middle_of_mem hq
  refine ⟨⟨h.toHashShape.delete, ?_, ?_⟩, ?_⟩
  · rw [hsame.nNextFreeElement]
    exact h.nextFree
  · exact fun q hq => hsame.keyBounded.mpr (h.key q (hrest q hq))
  · intro hload
    apply hload.congr hsame.nTableSize
    simp only [length_append, length_cons]
    omega

/-- A fresh bucket with its key in order. -/
structure FreshBounded (intern : Nat → KeyBytes) (ht ht' : HashTable δ) : Prop
    extends FreshBucket ht ht' where
  key : KeyBounded intern ht' ht.brk
  le : ht.nNextFreeElement ≤ ht'.nNextFreeElement
  max : ht'.nNextFreeElement ≤ longMax

theorem Bounded.linkBucket (h : Bounded intern ht order)
    (hmask : ht.nTableMask ≠ 0) (hfresh : FreshBounded intern ht ht') :
    ∃ ht'', linkBucket ht' ht.brk (ht'.h ht.brk &&& ht'.nTableMask) = some ht'' ∧
      SameContents ht' ht'' ∧ Bounded intern ht'' (order ++ [ht.brk]) ∧
      (Loaded ht order → Loaded ht'' (order ++ [ht.brk])) := by
  have hframe := hfresh.frame
  have hmask' : ht'.nTableMask ≠ 0 := by
    rw [hframe]
    exact hmask
  have hbrk : ht.brk < ht'.brk := by
    rw [hframe]
    exact Nat.lt_succ_self _
  have hsize' : ht'.nTableSize = ht.nTableSize := by rw [hframe]
  obtain ⟨ht'', hrun, hshape, hcontents, -, -, -, hsize⟩ :=
    (h.toHashShape.fresh hfresh.toFreshBucket).linkBucket hmask' h.brk_not_mem hbrk
  refine ⟨ht'', hrun, hcontents, ⟨hshape, ?_, ?_⟩, ?_⟩
  · rw [hcontents.nNextFreeElement]
    exact hfresh.max
  · intro p hp
    rw [hcontents.keyBounded]
    rcases mem_append.mp hp with hp | hp
    · have hsame := hfresh.same p fun heq => h.brk_not_mem (heq ▸ hp)
      exact (h.key p hp).congr hsame hfresh.le hfresh.max
    · rw [mem_singleton.mp hp]
      exact hfresh.key
  · intro hload
    rw [hsize'] at hsize
    apply loaded_grown h.toTableShape hshape.toTableShape
    · rw [length_append, length_singleton]
      exact hsize
    · intro hmax
      have hle := h.nTableSize_le
      rw [length_append, length_singleton]
      rcases hload with hmax' | hroom
      · exact absurd hmax' hmax
      · omega

/-! Storing and deleting. -/

theorem BoundedAfter.trans {ht₁ ht₂ : HashTable δ} {order₁ : List Addr}
    (hload : Loaded ht order → Loaded ht₁ order₁)
    (h : BoundedAfter intern ht₁ order₁ ht₂) : BoundedAfter intern ht order ht₂ := by
  obtain ⟨order₂, hbounded, hload₂⟩ := h
  exact ⟨order₂, hbounded, fun hloaded => hload₂ (hload hloaded)⟩

section

variable (h : Bounded intern ht order)
include h

theorem BoundedAfter.refl : BoundedAfter intern ht order ht :=
  ⟨order, h, id⟩

theorem Bounded.checkInit : Bounded intern (checkInit ht) order ∧
      (PhpEngine.checkInit ht).nTableMask ≠ 0 ∧
      (Loaded ht order → Loaded (PhpEngine.checkInit ht) order) := by
  obtain ⟨hshape, hmask, hsame⟩ := h.toHashShape.checkInit
  have hsize : (PhpEngine.checkInit ht).nTableSize = ht.nTableSize := by
    rw [PhpEngine.checkInit]
    split <;> rfl
  refine ⟨h.congr hshape ?_ (by rw [hsame]), hmask, fun hload =>
    hload.congr hsize le_rfl⟩
  intro p _
  constructor <;> rw [hsame]

theorem Bounded.setData (p : Addr) (data : δ) :
    BoundedAfter intern ht order (setData ht p data) := by
  refine ⟨order, ⟨⟨⟨h.size, h.mask, h.uninitialized, h.list, h.count,
    h.internalPointer, h.allocated, h.applyCount⟩, h.chain⟩, h.nextFree, h.key⟩, ?_⟩
  exact fun hload => hload.congr rfl le_rfl

theorem Bounded.quickAddOrUpdate (key : KeyArg) (hkey : key.read intern ≠ []) (hash : Nat)
    (data : δ) (flag : HashFlag) :
    ∃ out, zendHashQuickAddOrUpdate intern ht key hash data flag = some out ∧
      BoundedAfter intern ht order out.1 := by
  obtain ⟨hinit, hmask, hload⟩ := h.checkInit
  rw [zendHashQuickAddOrUpdate]
  generalize PhpEngine.checkInit ht = table at hinit hmask hload
  obtain ⟨l, hfind, hmem⟩ := hinit.findInChain_chain
    (Nat.and_le_right : hash &&& table.nTableMask ≤ _)
    (keyTest intern table key hash)
  simp only [hfind, bind_eq_bind, bind_some]
  cases l.find? (keyTest intern table key hash) with
  | some p =>
    by_cases hadd : flag = .add
    · refine ⟨(table, .failure, none), by simp [hadd], ?_⟩
      exact .trans hload (.refl hinit)
    · exact ⟨(PhpEngine.setData table p data, .success, some p), by simp [hadd]; rfl,
        .trans hload (hinit.setData p data)⟩
  | none =>
    have hfresh : FreshBounded intern table
        (storeKey (newBucket table hash (key.read intern).length data) table.brk key) := by
      obtain ⟨hlen, -, -, -, -, hnext⟩ := storeKey_fields table key hash
        (key.read intern).length data
      have hbytes := storeKey_bucketBytes intern table key hash
      refine ⟨newBucket_storeKey_fresh table key hash _ data, ⟨?_, ?_⟩, ?_, ?_⟩
      · intro _
        rw [hlen, hbytes]
      · intro hzero
        rw [hlen, length_eq_zero_iff] at hzero
        exact absurd hzero hkey
      · exact le_of_eq hnext.symm
      · rw [hnext]
        exact hinit.nextFree
    obtain ⟨final, hrun, -, hfinal⟩ := hinit.linkBucket hmask hfresh
    obtain ⟨-, hh, -, -, hmask', -⟩ := storeKey_fields table key hash (key.read intern).length data
    rw [hh, hmask'] at hrun
    exact ⟨(final, .success, some table.brk), by simp [hrun], .trans hload ⟨_, hfinal⟩⟩

end

/-- The table with a bucket for the index that is not linked yet. -/
def indexBucket (ht : HashTable δ) (index : Nat) (data : δ) : HashTable δ :=
  { newBucket ht index 0 data with
    arKey := Function.update ht.arKey ht.brk .null
    nNextFreeElement := nextFreeAfter ht.nNextFreeElement index }

theorem indexBucket_fields (ht : HashTable δ) (index : Nat) (data : δ) :
    (indexBucket ht index data).h ht.brk = index ∧
      (indexBucket ht index data).nKeyLength ht.brk = 0 ∧
      (indexBucket ht index data).pData ht.brk = data := by
  simp [indexBucket, newBucket]

section

variable (h : Bounded intern ht order)
include h

theorem Bounded.linkIndex (hmask : ht.nTableMask ≠ 0) {index : Nat} (hindex : index < ulongMod)
    (data : δ) :
    ∃ ht', PhpEngine.linkBucket (indexBucket ht index data) ht.brk
        (index &&& ht.nTableMask) = some ht' ∧ SameContents (indexBucket ht index data) ht' ∧
      Bounded intern ht' (order ++ [ht.brk]) ∧
      (Loaded ht order → Loaded ht' (order ++ [ht.brk])) := by
  obtain ⟨hh, hlen, -⟩ := indexBucket_fields ht index data
  have hfresh : FreshBounded intern ht (indexBucket ht index data) := by
    refine ⟨⟨rfl, ?_, ?_⟩, ⟨?_, ?_⟩, le_nextFreeAfter h.nextFree, nextFreeAfter_le h.nextFree⟩
    · intro q hq
      constructor <;> simp [indexBucket, newBucket, hq]
    · intro q hq
      simp [indexBucket, newBucket, hq]
    · intro hne
      exact absurd hlen hne
    · intro _
      rw [hh]
      exact belowNext_nextFreeAfter h.nextFree hindex
  have hlink := h.linkBucket hmask hfresh
  rw [hh] at hlink
  exact hlink

/-- An index update, or an insertion at the next free element. -/
theorem Bounded.indexUpdateOrNextInsert {idx : Nat} (hidx : idx < ulongMod) (data : δ)
    (flag : HashFlag) :
    ∃ out, zendHashIndexUpdateOrNextInsert ht idx data flag = some out ∧
      BoundedAfter intern ht order out.1 := by
  obtain ⟨hinit, hmask, hload⟩ := h.checkInit
  rw [zendHashIndexUpdateOrNextInsert]
  generalize PhpEngine.checkInit ht = table at hinit hmask hload
  have hindex : (if flag = .nextInsert then table.nNextFreeElement else idx) < ulongMod := by
    split
    · exact lt_of_le_of_lt hinit.nextFree (by decide)
    · exact hidx
  generalize (if flag = .nextInsert then table.nNextFreeElement else idx) = index at hindex
  obtain ⟨l, hfind, hmem⟩ := hinit.findInChain_chain
    (Nat.and_le_right : index &&& table.nTableMask ≤ _) (indexTest table index)
  simp only [hfind, bind_eq_bind, bind_some]
  cases l.find? (indexTest table index) with
  | some p =>
    by_cases hadd : flag = .nextInsert ∨ flag = .add
    · refine ⟨(table, .failure, none), by simp [hadd], ?_⟩
      exact .trans hload (.refl hinit)
    · exact ⟨(PhpEngine.setData table p data, .success, some p), by simp [hadd]; rfl,
        .trans hload (hinit.setData p data)⟩
  | none =>
    obtain ⟨final, hrun, -, hfinal⟩ := hinit.linkIndex hmask hindex data
    refine ⟨(final, .success, some table.brk), ?_, .trans hload ⟨_, hfinal⟩⟩
    change (PhpEngine.linkBucket (indexBucket table index data) _ _).bind _ = _
    rw [hrun]
    rfl

theorem Bounded.deleteFound (hash : Nat) (test : Addr → Bool) :
    ∃ out, (do match ← findInChain ht (hash &&& ht.nTableMask) test with
        | some p => return (zendHashBucketDelete ht p, ZendResult.success)
        | none => return (ht, ZendResult.failure)) = some out ∧
      BoundedAfter intern ht order out.1 := by
  obtain ⟨l, hfind, hmem⟩ := h.findInChain_chain
    (Nat.and_le_right : hash &&& ht.nTableMask ≤ _) test
  rw [hfind]
  cases hfound : l.find? test with
  | none => exact ⟨_, rfl, .refl h⟩
  | some p =>
    refine ⟨_, rfl, ?_⟩
    have hp := ((hmem p).mp (mem_of_find?_eq_some hfound)).1
    obtain ⟨before, after, rfl⟩ := append_of_mem hp
    exact ⟨before ++ after, h.delete⟩

theorem Bounded.delKeyOrIndex (key : DelKey) :
    ∃ out, zendHashDelKeyOrIndex intern ht key = some out ∧ BoundedAfter intern ht order out.1 := by
  cases key with
  | key arKey | quick arKey hash | index hash => exact h.deleteFound _ _

theorem Bounded.clean :
    BoundedAfter intern ht order (zendHashClean ht) := by
  refine ⟨[], ⟨⟨⟨h.size, h.mask, fun _ => rfl, Ring.nil_iff.mpr ⟨rfl, rfl⟩, rfl,
    ?_, ?_, h.applyCount⟩, ?_⟩, Nat.zero_le _, ?_⟩, fun _ => .inr (Nat.zero_le _)⟩
  · intro p hp
    cases hp
  · intro p hp
    cases hp
  · intro i hi
    exact chainInv_nil (h.clean_arBuckets hi)
  · intro p hp
    cases hp

end

/-! Copying and merging. -/

theorem BoundedAfter.applyCopyConstructor {out : HashTable δ × ZendResult × Option Addr}
    (h : BoundedAfter intern ht order out.1) (pCopyConstructor : δ → δ) :
    BoundedAfter intern ht order (PhpEngine.applyCopyConstructor pCopyConstructor out) := by
  obtain ⟨table, result, dest⟩ := out
  obtain ⟨order₁, hbounded, hload⟩ := h
  cases result with
  | failure => exact ⟨order₁, hbounded, hload⟩
  | success =>
    cases dest with
    | none => exact ⟨order₁, hbounded, hload⟩
    | some p => exact .trans hload (hbounded.setData p _)

theorem Bounded.bucketKeyArg_ne_nil {source : HashTable δ}
    (hsource : Bounded intern source sorder) (hp : p ∈ sorder)
    (hlen : source.nKeyLength p ≠ 0) : (bucketKeyArg intern source p).read intern ≠ [] := by
  have hbytes := (hsource.key p hp).1 hlen
  have hne : bucketBytes intern source p ≠ [] := by
    intro hnil
    rw [hnil] at hbytes
    exact hlen hbytes
  rw [bucketKeyArg]
  cases harKey : source.arKey p with
  | interned i => simpa [KeyArg.read, bucketBytes, harKey] using hne
  | null | own => simpa [KeyArg.read, hbytes] using hne

theorem Bounded.storeFrom {source target : HashTable δ} {torder : List Addr}
    (htarget : Bounded intern target torder)
    (hsource : Bounded intern source sorder) (hp : p ∈ sorder) (flag : HashFlag) :
    ∃ out, storeFrom intern source p flag target = some out ∧
      BoundedAfter intern target torder out.1 := by
  rw [PhpEngine.storeFrom]
  by_cases hlen : source.nKeyLength p = 0
  · rw [if_neg (not_not.mpr hlen)]
    exact htarget.indexUpdateOrNextInsert ((hsource.key p hp).2 hlen).1 _ _
  · rw [if_pos hlen]
    exact htarget.quickAddOrUpdate _ (hsource.bucketKeyArg_ne_nil hp hlen) _ _ _

/-- The internal pointer of the table, moved to one of its buckets or nowhere. -/
theorem Bounded.setPointer (h : Bounded intern ht order) {cur : Option Addr}
    (hcur : ∀ p, cur = some p → p ∈ order) :
    Bounded intern { ht with pInternalPointer := cur } order :=
  ⟨⟨⟨h.size, h.mask, h.uninitialized, h.list, h.count, hcur, h.allocated,
    h.applyCount⟩, h.chain⟩, h.nextFree, h.key⟩

theorem BoundedAfter.reset {ht' : HashTable δ} (h : BoundedAfter intern ht order ht') :
    BoundedAfter intern ht order { ht' with pInternalPointer := ht'.pListHead } := by
  obtain ⟨order', hht', hload⟩ := h
  refine ⟨order', hht'.setPointer fun p hp => ?_, fun hloaded => (hload hloaded).congr rfl le_rfl⟩
  rw [hht'.list.head] at hp
  exact mem_of_head? hp

section Loops

variable {source target : HashTable δ} {torder done todo : List Addr}

theorem Bounded.copyLoop (htarget : Bounded intern target torder)
    (hsource : Bounded intern source (done ++ todo)) (pCopyConstructor : δ → δ)
    (setTargetPointer : Bool) {fuel : Nat} (hfuel : todo.length < fuel) :
    ∃ target', copyLoop intern source pCopyConstructor setTargetPointer fuel target
        todo.head? = some target' ∧ BoundedAfter intern target torder target' := by
  induction todo generalizing target torder done fuel with
  | nil =>
    obtain ⟨n, rfl, -⟩ := exists_succ_of_lt hfuel
    exact ⟨target, rfl, .refl htarget⟩
  | cons p todo ih =>
    obtain ⟨n, rfl, -⟩ := exists_succ_of_lt hfuel
    obtain ⟨target₁, hset, htarget₁, hload₁⟩ : ∃ target₁,
        (if setTargetPointer ∧ source.pInternalPointer = some p then
          { target with pInternalPointer := none } else target) = target₁ ∧
        Bounded intern target₁ torder ∧
        (Loaded target torder → Loaded target₁ torder) := by
      split
      · exact ⟨_, rfl, htarget.setPointer (by simp), fun hload =>
          hload.congr rfl le_rfl⟩
      · exact ⟨_, rfl, htarget, id⟩
    have hp : p ∈ done ++ p :: todo := by simp
    obtain ⟨out, hstore, hout⟩ := htarget₁.storeFrom hsource hp .update
    obtain ⟨torder₂, htarget₂, hload₂⟩ := hout.applyCopyConstructor pCopyConstructor
    have hsource' : Bounded intern source ((done ++ [p]) ++ todo) := by
      simpa using hsource
    have hfuel' : todo.length < n := by
      simp only [length_cons] at hfuel
      omega
    obtain ⟨target', hrun, htarget'⟩ := ih htarget₂ hsource' hfuel'
    refine ⟨target', ?_, .trans (fun hload => hload₂ (hload₁ hload)) htarget'⟩
    rw [head?_cons, PhpEngine.copyLoop, hset, hsource.list.next]
    simp only [hstore, bind_eq_bind, bind_some, hrun]

theorem Bounded.copy (htarget : Bounded intern target torder)
    (hsource : Bounded intern source sorder) (pCopyConstructor : δ → δ) :
    ∃ target', zendHashCopy intern target source pCopyConstructor = some target' ∧
      BoundedAfter intern target torder target' := by
  have hfuel : sorder.length < source.brk + 1 := Nat.lt_succ_of_le
    (length_le_of_nodup_lt hsource.list.nodup hsource.allocated)
  have hsource' : Bounded intern source ([] ++ sorder) := hsource
  obtain ⟨target₁, hrun, hafter⟩ := htarget.copyLoop hsource' pCopyConstructor
    target.pInternalPointer.isNone hfuel
  rw [zendHashCopy, hsource.list.head, hrun]
  refine ⟨_, rfl, ?_⟩
  split
  · exact hafter.reset
  · exact hafter

theorem Bounded.indexExists (h : Bounded intern ht order) (idx : Nat) :
    ∃ found, zendHashIndexExists ht idx = some found := by
  obtain ⟨l, hfind, -⟩ := h.findInChain_chain
    (Nat.and_le_right : idx &&& ht.nTableMask ≤ _) (indexTest ht idx)
  refine ⟨(l.find? (indexTest ht idx)).isSome, ?_⟩
  rw [zendHashIndexExists, findIndex, hfind]
  rfl

section

variable (htarget : Bounded intern target torder)
include htarget

theorem Bounded.mergeRound (hsource : Bounded intern source sorder) (hp : p ∈ sorder)
    (pCopyConstructor : δ → δ) (overwrite : Bool) :
    ∃ target', mergeRound intern source pCopyConstructor overwrite p target =
        some target' ∧ BoundedAfter intern target torder target' := by
  obtain ⟨found, hfound⟩ := htarget.indexExists (source.h p)
  obtain ⟨out, hstore, hout⟩ :=
    htarget.storeFrom hsource hp (if overwrite then .update else .add)
  have hstored := hout.applyCopyConstructor pCopyConstructor
  by_cases hcheck : source.nKeyLength p = 0 ∧ (!overwrite) = true
  · cases found with
    | true =>
      refine ⟨target, ?_, .refl htarget⟩
      rw [PhpEngine.mergeRound, if_pos hcheck]
      simp [hfound]
    | false =>
      refine ⟨_, ?_, hstored⟩
      rw [PhpEngine.mergeRound, if_pos hcheck]
      simp [hfound, hstore]
  · refine ⟨_, ?_, hstored⟩
    rw [PhpEngine.mergeRound, if_neg hcheck]
    simp [hstore]

theorem Bounded.mergeLoop (hsource : Bounded intern source (done ++ todo))
    (pCopyConstructor : δ → δ) (overwrite : Bool) {fuel : Nat} (hfuel : todo.length < fuel) :
    ∃ target', mergeLoop intern source pCopyConstructor overwrite fuel target
        todo.head? = some target' ∧ BoundedAfter intern target torder target' := by
  induction todo generalizing target torder done fuel with
  | nil =>
    obtain ⟨n, rfl, -⟩ := exists_succ_of_lt hfuel
    exact ⟨target, rfl, .refl htarget⟩
  | cons p todo ih =>
    obtain ⟨n, rfl, -⟩ := exists_succ_of_lt hfuel
    have hp : p ∈ done ++ p :: todo := by simp
    obtain ⟨target₁, hround, torder₁, htarget₁, hload₁⟩ :=
      htarget.mergeRound hsource hp pCopyConstructor overwrite
    have hsource' : Bounded intern source ((done ++ [p]) ++ todo) := by
      simpa using hsource
    have hfuel' : todo.length < n := by
      simp only [length_cons] at hfuel
      omega
    obtain ⟨target', hrun, htarget'⟩ := ih htarget₁ hsource' hfuel'
    refine ⟨target', ?_, .trans hload₁ htarget'⟩
    rw [head?_cons, PhpEngine.mergeLoop, hsource.list.next]
    simp only [hround, bind_eq_bind, bind_some, hrun]

theorem Bounded.merge (hsource : Bounded intern source sorder) (pCopyConstructor : δ → δ)
    (overwrite : Bool) :
    ∃ target', zendHashMerge intern target source pCopyConstructor overwrite =
        some target' ∧ BoundedAfter intern target torder target' := by
  have hfuel : sorder.length < source.brk + 1 := Nat.lt_succ_of_le
    (length_le_of_nodup_lt hsource.list.nodup hsource.allocated)
  have hsource' : Bounded intern source ([] ++ sorder) := hsource
  obtain ⟨target₁, hrun, hafter⟩ := htarget.mergeLoop hsource' pCopyConstructor overwrite hfuel
  rw [zendHashMerge, hsource.list.head, hrun]
  exact ⟨_, rfl, hafter.reset⟩

end

end Loops

/-! Renumbering. -/

/-- A number of elements that a reindexing takes for what it is: it does not come
round to zero in the count, and the indices up to it are longs. -/
def Renumbers (n : Nat) : Prop :=
  n ≤ longMax ∧ (n % uintMod = 0 → n = 0)

instance (n : Nat) : Decidable (Renumbers n) :=
  inferInstanceAs (Decidable (_ ∧ _))

/-- Every index of a reindexed table is below their number. -/
theorem belowNext_reindexKeys {onlyIntegerKeys : Bool} {keys : List HashKey}
    (hsmall : keys.length ≤ longMax) (hmem : .long idx ∈ reindexKeys onlyIntegerKeys 0 keys) :
    BelowNext (keys.countP (renumbered onlyIntegerKeys)) idx := by
  have hlt := lt_of_mem_reindexKeys hmem
  have hle : keys.countP (renumbered onlyIntegerKeys) ≤ keys.length :=
    countP_le_length
  have hmod : longMax < ulongMod := by decide
  have hlong : toLong idx = idx := if_pos (by omega)
  refine ⟨by omega, .inl ?_⟩
  omega

theorem bounded_renumbered {onlyIntegerKeys : Bool} {keys : List HashKey}
    (hshape : HashShape ht order) (hsmall : keys.length ≤ longMax)
    (hstrings : ∀ p ∈ order, ht.nKeyLength p ≠ 0 →
      ht.nKeyLength p = (bucketBytes intern ht p).length)
    (hkeys : order.map (bucketKey intern ht) = reindexKeys onlyIntegerKeys 0 keys)
    (hnext : ht.nNextFreeElement = keys.countP (renumbered onlyIntegerKeys)) :
    Bounded intern ht order := by
  refine ⟨hshape, ?_, fun p hp => ⟨hstrings p hp, fun hlen => ?_⟩⟩
  · rw [hnext]
    exact le_trans countP_le_length hsmall
  · have hkey : HashKey.long (ht.h p) ∈ reindexKeys onlyIntegerKeys 0 keys := by
      rw [← hkeys]
      apply List.mem_map.mpr
      exact ⟨p, hp, by simp [bucketKey, hlen]⟩
    rw [hnext]
    exact belowNext_reindexKeys hsmall hkey

theorem Bounded.reindex (h : Bounded intern ht order) (onlyIntegerKeys : Bool)
    (hsmall : Renumbers order.length) : ∃ ht', zendHashReindex ht onlyIntegerKeys = some ht' ∧
      BoundedAfter intern ht order ht' := by
  by_cases hzero : ht.nNumOfElements = 0
  · rw [zendHashReindex, if_pos hzero]
    have hnil : order = [] :=
      length_eq_zero_iff.mp (hsmall.2 (h.count.symm.trans hzero))
    subst hnil
    refine ⟨_, rfl, [], ⟨⟨⟨h.size, h.mask, h.uninitialized, h.list, h.count,
      h.internalPointer, h.allocated, h.applyCount⟩, h.chain⟩, Nat.zero_le _,
      by simp⟩, ?_⟩
    exact fun hload => hload.congr rfl le_rfl
  · obtain ⟨ht', offset, hrun, hshape, hsame, hkept, hkeys, hoffset⟩ :=
      h.toTableShape.reindex intern onlyIntegerKeys hzero
    have hlength : (order.map (bucketKey intern ht)).length ≤ longMax := by
      rw [length_map]
      exact hsmall.1
    refine ⟨_, hrun, order, bounded_renumbered hshape hlength ?_ hkeys hoffset, ?_⟩
    · intro p hp hlen
      have hbytes : bucketBytes intern ht' p = bucketBytes intern ht p := by
        rw [bucketBytes, bucketBytes, hsame]
      rcases hkept p hp with ⟨hzero, -⟩ | ⟨hne, -, hkeep⟩
      · exact absurd hzero hlen
      · change ht'.nKeyLength p = (bucketBytes intern ht' p).length
        rw [hkeep, hbytes]
        exact (h.key p hp).1 hne
    · intro hload
      exact hload.congr (by rw [hsame]) le_rfl

/-! Splicing. -/

section Splice

variable {pCopyConstructor : δ → δ} {start removed : Option (HashTable δ)} {rorder : List Addr}

/-- What became of the other table of a splice, if there is one. -/
def RemovedAfter (intern : Nat → KeyBytes) (rorder : List Addr)
    (start removed : Option (HashTable δ)) : Prop :=
  Option.Rel (fun ht ht' => BoundedAfter intern ht rorder ht') start removed

theorem Bounded.collectRemoved (h : Bounded intern ht order)
    (hp : p ∈ order) (hremoved : RemovedAfter intern rorder start removed)
    (pCopyConstructor : δ → δ) :
    ∃ removed', collectRemoved intern pCopyConstructor ht p removed = some removed' ∧
      RemovedAfter intern rorder start removed' := by
  cases hremoved with
  | none => exact ⟨none, rfl, .none⟩
  | @some table table₁ hafter =>
    obtain ⟨order₁, hbounded, hload⟩ := hafter
    obtain ⟨out, hrun, hout⟩ : ∃ out, (if ht.nKeyLength p = 0 then
        zendHashIndexUpdateOrNextInsert table₁ 0 (ht.pData p) .nextInsert
      else
        zendHashQuickAddOrUpdate intern table₁ (bucketKeyArg intern ht p)
          (ht.h p) (ht.pData p) .update) = some out ∧
        BoundedAfter intern table₁ order₁ out.1 := by
      split
      · exact hbounded.indexUpdateOrNextInsert (by decide) _ _
      · next hlen =>
          exact hbounded.quickAddOrUpdate _ (h.bucketKeyArg_ne_nil hp hlen) _ _ _
    refine ⟨_, by rw [PhpEngine.collectRemoved, hrun]; rfl, .some ?_⟩
    exact .trans hload (hout.applyCopyConstructor pCopyConstructor)

/-- The number of elements that a splice leaves. -/
def spliceCount (n offset length : Nat) (list : Option (List δ)) : Nat :=
  min offset n + (list.getD []).length + (n - (offset + ((offset + length) % uintMod - offset)))

/-- The strings of a spliced table have their keys as before. -/
theorem Spliced.strings {before added after : List Addr} {list : Option (List δ)}
    (h : Spliced intern pCopyConstructor ht ht' before added after list)
    (hstrings : ∀ p ∈ before ++ after, ht.nKeyLength p ≠ 0 →
      ht.nKeyLength p = (bucketBytes intern ht p).length) :
    ∀ p ∈ before ++ added ++ after, ht'.nKeyLength p ≠ 0 →
      ht'.nKeyLength p = (bucketBytes intern ht' p).length := by
  intro p hp hlen
  by_cases hadded : p ∈ added
  · exact absurd (h.numbers p hadded).1 hlen
  · have hold : p ∈ before ++ after := by
      simp only [mem_append] at hp ⊢
      tauto
    obtain ⟨harKey, hstore⟩ := h.bytes p hold
    rcases h.kept p hold with ⟨hzero, -⟩ | ⟨hne, -, hkeep⟩
    · exact absurd hzero hlen
    · rw [hkeep, bucketBytes, harKey, hstore]
      exact hstrings p hold hne

variable (pCopyConstructor) in
/-- A splice keeps the bounds if the elements it leaves can be counted, and the
load if they are not more than twice as many as there was room for. -/
theorem Bounded.splice (h : Bounded intern ht order) {offset length : Nat}
    (list : Option (List δ)) (hremoved : ∀ r, removed = some r → Bounded intern r rorder)
    (hsmall : Renumbers (spliceCount order.length offset length list)) :
    ∃ ht' removed', zendHashSplice intern pCopyConstructor ht offset length list
        removed = some (ht', removed') ∧ RemovedAfter intern rorder removed removed' ∧
      ∃ order', Bounded intern ht' order' ∧ ((ht.nTableSize = 2 ^ 31 ∨
            spliceCount order.length offset length list ≤ 2 * ht.nTableSize) →
          Loaded ht order → Loaded ht' order') := by
  have hstart : RemovedAfter intern rorder removed removed := by
    cases removed with
    | none => exact .none
    | some r => exact .some (.refl (hremoved r rfl))
  obtain ⟨ht₁, added, removed', hrun, hready, hremoved'⟩ :=
    h.toHashShape.splice (fun _ => RemovedAfter intern rorder removed) rfl list hstart (by
        intro done p more removed₁ hcut _ hafter
        have hp : p ∈ order.drop offset := by
          rw [hcut]
          simp
        exact h.collectRemoved (mem_of_mem_drop hp) hafter pCopyConstructor)
  generalize hcut : (offset + length) % uintMod - offset = cut at hready
  have hadded : added.length = (list.getD []).length := by
    simpa using congrArg List.length hready.data
  have hmem : ∀ p ∈ order.take offset ++ order.drop (offset + cut), p ∈ order := by
    intro p hp
    rcases mem_append.mp hp with hp | hp
    · exact mem_of_mem_take hp
    · exact mem_of_mem_drop hp
  have htotal : (order.take offset ++ added ++ order.drop (offset + cut)).length =
      spliceCount order.length offset length list := by
    simp only [spliceCount, length_append, length_take, length_drop, hadded, hcut]
  obtain ⟨ht', hreindex, hspliced⟩ := hready.reindex intern
    (fun p hp => h.allocated p (hmem p hp)) (by
      intro hround
      rw [htotal] at hround
      rw [← length_eq_zero_iff, htotal]
      exact hsmall.2 hround)
  have hlength : (splicedKeys intern ht (order.take offset)
      (order.drop (offset + cut)) list).length ≤ longMax := by
    rw [← hready.keys intern fun p hp => h.allocated p (hmem p hp), length_map, htotal]
    exact hsmall.1
  refine ⟨ht', removed', by rw [hrun, hreindex]; rfl, hremoved', _,
    bounded_renumbered hspliced.shape hlength
      (hspliced.strings fun p hp => (h.key p (hmem p hp)).1) hspliced.keys
      hspliced.nextFree, ?_⟩
  intro hroom hload
  have hsize := hspliced.size
  by_cases hnone : list = none
  · have hle : (order.take offset ++ added ++ order.drop (offset + cut)).length ≤ order.length := by
      rw [htotal, spliceCount, hnone]
      simp only [getD_none, length_nil]
      omega
    have hgrown : ht.nTableSize ≤ ht'.nTableSize := by omega
    have hmax := hspliced.shape.nTableSize_le
    rcases hload with hfull | hfits
    · exact .inl (by omega)
    · exact .inr (by omega)
  · apply loaded_grown h.toTableShape hspliced.shape.toTableShape
    · rw [← hspliced.shape.count]
      rcases hsize with hdouble | ⟨hsame, hnone' | hfits⟩
      · exact .inl hdouble
      · exact absurd hnone' hnone
      · exact .inr ⟨hsame, hfits⟩
    · intro hne
      rw [htotal]
      exact hroom.resolve_left hne

end Splice

/-! Another key for a bucket. -/

section Rekey

variable {before after : List Addr} {p : Addr}

/-- A bounded table of which the bucket `p` is in no chain. -/
structure DetachedBounded (intern : Nat → KeyBytes) (ht : HashTable δ)
    (before : List Addr) (p : Addr) (after : List Addr) : Prop
    extends DetachedShape ht before p after where
  nextFree : ht.nNextFreeElement ≤ longMax
  key : ∀ q ∈ before ++ after, KeyBounded intern ht q

theorem DetachedBounded.congr {p' : Addr} (h : DetachedBounded intern ht before p after)
    (hshape : DetachedShape ht' before p' after)
    (hsame : ∀ q ∈ before ++ after, SameBucket ht ht' q)
    (hle : ht.nNextFreeElement ≤ ht'.nNextFreeElement) (hmax : ht'.nNextFreeElement ≤ longMax) :
    DetachedBounded intern ht' before p' after :=
  ⟨hshape, hmax, fun q hq => (h.key q hq).congr (hsame q hq) hle hmax⟩

theorem DetachedBounded.attach (h : DetachedBounded intern ht before p after)
    (hkey : KeyBounded intern ht p) : Bounded intern
      (setHead (connectToBucketDllist ht p (ht.h p &&& ht.nTableMask))
        (ht.h p &&& ht.nTableMask) (some p)) (before ++ p :: after) := by
  refine ⟨h.toDetachedShape.attach, h.nextFree, fun q hq => ?_⟩
  obtain rfl | hq : q = p ∨ q ∈ before ++ after := by
    simp only [mem_append, mem_cons] at hq ⊢
    tauto
  · exact hkey
  · exact h.key q hq

theorem Bounded.detach (h : Bounded intern ht (before ++ p :: after)) :
    DetachedBounded intern (unlinkFromChain ht p) before p after := by
  have hframe := unlinkFromChain_frame ht p
  refine ⟨h.toHashShape.detach, ?_, ?_⟩
  · rw [hframe]
    exact h.nextFree
  · rw [hframe]
    exact fun q hq => h.key q (mem_middle_of_mem hq)

/-- An index that is a machine word. -/
def UpdateKey.IsWord : UpdateKey → Prop
  | .long numIndex => numIndex < ulongMod
  | .string _ => True

/-- The key is written into the detached bucket, which enters its chain.  An index
goes into a bucket without a string key. -/
theorem DetachedBounded.write (h : DetachedBounded intern ht before p after)
    (hvalid : key.Valid intern) (hword : key.IsWord)
    (hlong : ∀ numIndex, key = .long numIndex → ht.nKeyLength p = 0) : Bounded intern (setHead
        (connectToBucketDllist (key.write intern ht p) p
          ((key.write intern ht p).h p &&& (key.write intern ht p).nTableMask))
        ((key.write intern ht p).h p &&& (key.write intern ht p).nTableMask)
        (some p)) (before ++ p :: after) := by
  have hne : ∀ q ∈ before ++ after, q ≠ p := by
    rintro q hq rfl
    exact not_mem_of_nodup_middle h.shape.list.nodup hq
  have hshape : DetachedShape (key.write intern ht p) before p after :=
    h.toDetachedShape.congr (UpdateKey.write_frame key ht p)
      fun q hq => (UpdateKey.write_sameBucket key ht hq).h
  have hsame : ∀ q ∈ before ++ after, SameBucket ht (key.write intern ht p) q :=
    fun q hq => UpdateKey.write_sameBucket key ht (hne q hq)
  cases key with
  | long numIndex =>
    have hzero := hlong numIndex rfl
    refine (h.congr hshape hsame (le_nextFreeAfter h.nextFree)
      (nextFreeAfter_le h.nextFree)).attach ⟨?_, ?_⟩
    · intro hlen
      exact absurd hzero hlen
    · intro _
      have hh : ((UpdateKey.long numIndex).write intern ht p).h p = numIndex := by
        simp [UpdateKey.write]
      rw [hh]
      exact belowNext_nextFreeAfter h.nextFree hword
  | string key =>
    have hlen : ((UpdateKey.string key).write intern ht p).nKeyLength p =
        (key.read intern).length := by
      cases key <;> simp [UpdateKey.write, storeKey]
    have hbytes : bucketBytes intern ((UpdateKey.string key).write intern ht p) p =
        key.read intern := by
      cases key <;> simp [UpdateKey.write, storeKey, bucketBytes, KeyArg.read]
    have hnext : ((UpdateKey.string key).write intern ht p).nNextFreeElement =
        ht.nNextFreeElement := by
      cases key <;> rfl
    refine (h.congr hshape hsame (le_of_eq hnext.symm) (hnext.trans_le h.nextFree)).attach ⟨?_, ?_⟩
    · intro _
      rw [hlen, hbytes]
    · intro hzero
      rw [hlen, length_eq_zero_iff] at hzero
      exact absurd hzero hvalid

theorem Bounded.rekey (h : Bounded intern ht (before ++ p :: after))
    (hvalid : key.Valid intern) (hword : key.IsWord) (garbage : KeyPtr) :
    ∃ ht' q, rekeyBucket intern ht p key garbage = (ht', q) ∧
      Bounded intern ht' (before ++ q :: after) ∧ ht'.nTableSize = ht.nTableSize := by
  have hdetached := h.detach
  have hsize : (unlinkFromChain ht p).nTableSize = ht.nTableSize := by
    rw [unlinkFromChain_frame]
  rw [rekeyBucket]
  generalize unlinkFromChain ht p = ht₁ at hdetached hsize
  by_cases hreplace : (isInterned (ht₁.arKey p) != key.interned || (!isInterned (ht₁.arKey p) &&
        ht₁.nKeyLength p != key.strLength intern)) = true
  · have hsame : ∀ r ∈ before ++ after, SameBucket ht₁
        (replaceBucket ht₁ p (key.strLength intern) garbage) r := fun r hr =>
      replaceBucket_sameBucket ht₁ p _ garbage fun heq => hdetached.brk_not_mem (heq ▸ hr)
    have hreplaced : DetachedBounded intern
        (replaceBucket ht₁ p (key.strLength intern) garbage) before ht₁.brk after :=
      hdetached.congr (hdetached.replace _ garbage) hsame le_rfl hdetached.nextFree
    have hlong : ∀ numIndex, key = .long numIndex →
        (replaceBucket ht₁ p (key.strLength intern) garbage).nKeyLength ht₁.brk = 0 := by
      rintro numIndex rfl
      simp [replaceBucket, connectToGlobalDllistEx, UpdateKey.strLength]
    simp only [hreplace, if_true]
    refine ⟨_, _, rfl, hreplaced.write hvalid hword hlong, ?_⟩
    rw [UpdateKey.write_frame]
    exact hsize
  · have hkeep := hreplace
    simp only [Bool.or_eq_true, bne_iff_ne, Bool.and_eq_true, not_or,
      Bool.not_eq_true', not_and, not_not] at hkeep
    have hlong : ∀ numIndex, key = .long numIndex → ht₁.nKeyLength p = 0 := by
      rintro numIndex rfl
      exact hkeep.2 hkeep.1
    simp only [hreplace]
    refine ⟨_, _, rfl, hdetached.write hvalid hword hlong, ?_⟩
    rw [UpdateKey.write_frame]
    exact hsize

/-- Deleting another bucket leaves the current one on the list. -/
theorem Bounded.delete_other (h : Bounded intern ht (before ++ p :: after))
    {other : Addr} (hother : other ∈ before ++ after) : ∃ before' after',
      Bounded intern (zendHashBucketDelete ht other) (before' ++ p :: after') ∧
        (Loaded ht (before ++ p :: after) →
          Loaded (zendHashBucketDelete ht other) (before' ++ p :: after')) := by
  rcases mem_append.mp hother with hmem | hmem
  · obtain ⟨l₁, l₂, rfl⟩ := append_of_mem hmem
    rw [append_assoc, cons_append] at h ⊢
    exact ⟨l₁ ++ l₂, after, by simpa using h.delete⟩
  · obtain ⟨l₁, l₂, rfl⟩ := append_of_mem hmem
    have h' : Bounded intern ht ((before ++ p :: l₁) ++ other :: l₂) := by
      simpa using h
    exact ⟨before, l₁ ++ l₂, by simpa using h'.delete⟩

theorem Bounded.search (h : Bounded intern ht order) (key : UpdateKey) :
    ∃ found, key.search intern ht = some found ∧
      ∀ q, found = some q → q ∈ order ∧ key.test intern ht q = true := by
  have hfind : ∀ hash (test : Addr → Bool), ∃ found,
      findInChain ht (hash &&& ht.nTableMask) test = some found ∧
        ∀ q, found = some q → q ∈ order ∧ test q = true := by
    intro hash test
    obtain ⟨l, hfind, hmem⟩ := h.findInChain_chain
      (Nat.and_le_right : hash &&& ht.nTableMask ≤ _) test
    refine ⟨l.find? test, hfind, ?_⟩
    intro q hq
    exact ⟨((hmem q).mp (mem_of_find?_eq_some hq)).1, find?_some hq⟩
  cases key with
  | long numIndex | string key => exact hfind _ _

theorem Bounded.updateCurrentKey (h : Bounded intern ht order)
    (hvalid : key.Valid intern) (hword : key.IsWord) (mode : UpdateMode)
    {pos : Option Addr} (hpos : ∀ p, pos = some p → p ∈ order) (garbage : KeyPtr) :
    ∃ out, zendHashUpdateCurrentKeyEx intern ht key mode pos garbage = some out ∧
      BoundedAfter intern ht order out.1 := by
  cases pos with
  | none => exact ⟨_, rfl, .refl h⟩
  | some p =>
    obtain ⟨before, after, rfl⟩ := append_of_mem (hpos p rfl)
    simp only [zendHashUpdateCurrentKeyEx]
    by_cases htest : key.test intern ht p = true
    · rw [if_pos htest]
      exact ⟨_, rfl, .refl h⟩
    obtain ⟨found, hsearch, hfound⟩ := h.search key
    rw [if_neg htest, hsearch]
    cases found with
    | none =>
      obtain ⟨ht', q, hrun, hbounded, hsize⟩ := h.rekey hvalid hword garbage
      refine ⟨(ht', .success, some q), ?_, _, hbounded, fun hload =>
        hload.congr hsize (by simp)⟩
      change some ((rekeyBucket intern ht p key garbage).1, _,
        some (rekeyBucket intern ht p key garbage).2) = _
      rw [hrun]
    | some other =>
      obtain ⟨hmem, hokay⟩ := hfound other rfl
      have hother : other ∈ before ++ after := by
        have hne : other ≠ p := fun heq => htest (heq ▸ hokay)
        simp only [mem_append, mem_cons] at hmem ⊢
        tauto
      have hfuel : before.length < ht.brk + 1 := by
        have hlen := length_le_of_nodup_lt h.list.nodup h.allocated
        rw [length_append] at hlen
        exact Nat.lt_succ_of_le (le_trans (Nat.le_add_right _ _) hlen)
      have hwalk := precedes_eq (q := other) (ht.brk + 1) hfuel h.list
      rw [← h.list.last] at hwalk
      simp only [bind_eq_bind, bind_some, hwalk]
      split
      · exact ⟨_, rfl, _, h.delete⟩
      · obtain ⟨before', after', hdeleted, hload⟩ := h.delete_other hother
        obtain ⟨ht', q, hrun, hbounded, hsize⟩ := hdeleted.rekey hvalid hword garbage
        refine ⟨(ht', .success, some q), ?_, _, hbounded, fun hloaded =>
          (hload hloaded).congr hsize (by simp)⟩
        change some ((rekeyBucket intern (zendHashBucketDelete ht other)
          p key garbage).1, _, some (rekeyBucket intern
            (zendHashBucketDelete ht other) p key garbage).2) = _
        rw [hrun]

end Rekey

end PhpEngine

/-
Giving a bucket another key.  While it changes its key the bucket is on the
global list but in no chain; that state has an invariant of its own.
-/
import PhpEngine.HashReorder
import Mathlib.Data.List.Induction

namespace PhpEngine

open List Function

variable {δ : Type}

/-- The new key of `zend_hash_update_current_key_ex`.  With an index the
callers pass a null `str_index`. -/
inductive UpdateKey where
  | long (numIndex : Nat)
  | string (strIndex : KeyArg)

/-- `HASH_UPDATE_KEY_IF_NONE`, `_IF_BEFORE`, `_IF_AFTER` and `_ANYWAY`. -/
inductive UpdateMode where
  | ifNone
  | ifBefore
  | ifAfter
  | anyway
deriving Repr, DecidableEq

/-- `mode & found`, where `found` is `IF_AFTER` or `IF_BEFORE`. -/
def UpdateMode.accepts : UpdateMode → Bool → Bool
  | .ifNone, _ => false
  | .ifBefore, after => !after
  | .ifAfter, after => after
  | .anyway, _ => true

/-- Walks back from `r` in search of `q`. -/
def precedes (ht : HashTable δ) (q : Addr) : Nat → Option Addr → Option Bool
  | 0, _ => none
  | _ + 1, none => some false
  | fuel + 1, some r =>
    if r = q then some true else precedes ht q fuel (ht.pListLast r)

/-- The replacement of the bucket `p` by a newly allocated one.  Its `arKey`
is not written here: it is whatever the allocated memory held. -/
def replaceBucket (ht : HashTable δ) (p : Addr) (nKeyLength : Nat)
    (garbage : KeyPtr) : HashTable δ :=
  let q := ht.brk
  let ht := { ht with
    brk := q + 1
    nKeyLength := update ht.nKeyLength q nKeyLength
    arKey := update ht.arKey q garbage
    pData := update ht.pData q (ht.pData p) }
  let ht := connectToGlobalDllistEx ht q (ht.pListLast p) (ht.pListNext p)
  { ht with
    pInternalPointer :=
      if ht.pInternalPointer = some p then some q else ht.pInternalPointer }

section Interned

variable (intern : Nat → KeyBytes)

def UpdateKey.interned : UpdateKey → Bool
  | .string (.interned _) => true
  | _ => false

def UpdateKey.strLength : UpdateKey → Nat
  | .long _ => 0
  | .string key => (key.read intern).length

/-- The test on the current bucket and the search for another one with the
new key share their comparison. -/
def UpdateKey.test (ht : HashTable δ) : UpdateKey → Addr → Bool
  | .long numIndex => indexTest ht numIndex
  | .string key => keyTest intern ht key (zendHashFunc (key.read intern))

def UpdateKey.search (ht : HashTable δ) : UpdateKey → Option (Option Addr)
  | .long numIndex => findIndex ht numIndex
  | .string key => findKey intern ht key (zendHashFunc (key.read intern))

/-- The key is written into the bucket.  For an index only `h` is. -/
def UpdateKey.write (ht : HashTable δ) (p : Addr) : UpdateKey → HashTable δ
  | .long numIndex =>
    { ht with
      h := update ht.h p numIndex
      nNextFreeElement := nextFreeAfter ht.nNextFreeElement numIndex }
  | .string key =>
    storeKey { ht with
        h := update ht.h p (zendHashFunc (key.read intern))
        nKeyLength :=
          update ht.nKeyLength p (key.read intern).length } p key

/-- The second half of `zend_hash_update_current_key_ex`: the bucket leaves
its chain, is replaced when the key does not fit, takes the key and enters
its new chain. -/
def rekeyBucket (ht : HashTable δ) (p : Addr) (key : UpdateKey)
    (garbage : KeyPtr) : HashTable δ × Addr :=
  let ht := unlinkFromChain ht p
  let replace := isInterned (ht.arKey p) != key.interned ||
    (!isInterned (ht.arKey p) && ht.nKeyLength p != key.strLength intern)
  let q := if replace then ht.brk else p
  let ht := if replace then
    replaceBucket ht p (key.strLength intern) garbage else ht
  let ht := key.write intern ht q
  let nIndex := ht.h q &&& ht.nTableMask
  (setHead (connectToBucketDllist ht q nIndex) nIndex (some q), q)

/-- `zend_hash_update_current_key_ex` at the bucket `pos`; the address it
returns is the position after it. -/
def zendHashUpdateCurrentKeyEx (ht : HashTable δ) (key : UpdateKey)
    (mode : UpdateMode) (pos : Option Addr) (garbage : KeyPtr) :
    Option (HashTable δ × ZendResult × Option Addr) :=
  match pos with
  | none => some (ht, .failure, none)
  | some p =>
    if key.test intern ht p then some (ht, .success, some p)
    else do
      match ← key.search intern ht with
      | none =>
        let (ht, q) := rekeyBucket intern ht p key garbage
        return (ht, .success, some q)
      | some other =>
        let after ← precedes ht other (ht.brk + 1) (ht.pListLast p)
        if mode ≠ .anyway ∧ mode.accepts after then
          return (zendHashBucketDelete ht p, .failure, some p)
        else
          let ht := zendHashBucketDelete ht other
          let (ht, q) := rekeyBucket intern ht p key garbage
          return (ht, .success, some q)

end Interned

/-- The table is well formed except that the bucket `p`, between `before` and
`after` on the global list, is in no chain and has an arbitrary key. -/
structure Detached (intern : Nat → KeyBytes) (ht : HashTable δ)
    (before : List Addr) (p : Addr) (after : List Addr) : Prop where
  size : ∃ k, 3 ≤ k ∧ k ≤ 31 ∧ ht.nTableSize = 2 ^ k
  mask : ht.nTableMask = ht.nTableSize - 1
  list : ListInv ht (before ++ p :: after)
  count : ht.nNumOfElements = (before ++ p :: after).length % uintMod
  internalPointer : ∀ q, ht.pInternalPointer = some q → q ∈ before ++ p :: after
  keys : ((before ++ after).map (bucketKey intern ht)).Nodup
  bucket : ∀ q ∈ before ++ after, BucketOk intern ht q
  allocated : ∀ q ∈ before ++ p :: after, q < ht.brk
  applyCount : ht.nApplyCount = 0
  chain : ∀ i ≤ ht.nTableMask, ChainInv ht (before ++ after) i

/-- The lists and chains of such a table, whatever its keys are. -/
structure DetachedShape (ht : HashTable δ) (before : List Addr) (p : Addr)
    (after : List Addr) : Prop where
  shape : TableShape ht (before ++ p :: after)
  chain : ∀ i ≤ ht.nTableMask, ChainInv ht (before ++ after) i

section Rekey

variable {intern : Nat → KeyBytes} {ht : HashTable δ} {p : Addr} {before after : List Addr}

theorem DetachedShape.nTableMask_ne_zero (h : DetachedShape ht before p after) :
    ht.nTableMask ≠ 0 := by
  intro hzero
  simpa using h.shape.uninitialized hzero

theorem Detached.shape (h : Detached intern ht before p after) :
    DetachedShape ht before p after := by
  have hmask : ht.nTableMask ≠ 0 := by
    obtain ⟨k, hk, _, hsize⟩ := h.size
    have hpow : 2 ^ 3 ≤ 2 ^ k := Nat.pow_le_pow_right (by decide) hk
    rw [h.mask, hsize]
    omega
  exact ⟨⟨h.size, .inr h.mask, fun hzero => absurd hzero hmask, h.list, h.count,
    h.internalPointer, h.allocated, h.applyCount⟩, h.chain⟩

theorem DetachedShape.detached (h : DetachedShape ht before p after)
    (hkeys : ((before ++ after).map (bucketKey intern ht)).Nodup)
    (hbucket : ∀ q ∈ before ++ after, BucketOk intern ht q) : Detached intern ht before p after :=
  ⟨h.shape.size, h.shape.mask.resolve_left h.nTableMask_ne_zero, h.shape.list,
    h.shape.count, h.shape.internalPointer, hkeys, hbucket, h.shape.allocated,
    h.shape.applyCount, h.chain⟩

theorem not_mem_of_nodup_middle (h : (before ++ p :: after).Nodup) : p ∉ before ++ after := by
  grind

theorem mem_middle_of_mem {q : Addr} (h : q ∈ before ++ after) : q ∈ before ++ p :: after := by
  simp only [mem_append, mem_cons] at h ⊢
  tauto

theorem HashShape.detach (hshape : HashShape ht (before ++ p :: after)) :
    DetachedShape (unlinkFromChain ht p) before p after := by
  have hnodup := hshape.list.nodup
  have hframe := unlinkFromChain_frame ht p
  have hchain := ChainInv.unlinkFromChain (p := p) (by simp) hnodup hshape.chain
  rw [erase_middle hnodup] at hchain
  refine ⟨?_, ?_⟩
  · exact
      { size := by rw [hframe]; exact hshape.size
        mask := by rw [hframe]; exact hshape.mask
        uninitialized := by rw [hframe]; exact hshape.uninitialized
        list := by rw [hframe]; exact hshape.list
        count := by rw [hframe]; exact hshape.count
        internalPointer := by rw [hframe]; exact hshape.internalPointer
        allocated := by rw [hframe]; exact hshape.allocated
        applyCount := by rw [hframe]; exact hshape.applyCount }
  · intro i hi
    have hmask' : (unlinkFromChain ht p).nTableMask = ht.nTableMask := by
      rw [hframe]
    rw [hmask'] at hi
    exact hchain i hi

theorem HashInv.detach (hinv : HashInv intern ht (before ++ p :: after)) :
    Detached intern (unlinkFromChain ht p) before p after := by
  have hframe := unlinkFromChain_frame ht p
  apply hinv.hashShape.detach.detached
  · rw [hframe, ← erase_middle hinv.list.nodup]
    exact hinv.keys.sublist (List.Sublist.map _ erase_sublist)
  · rw [hframe]
    exact fun q hq => hinv.bucket q (mem_middle_of_mem hq)

theorem DetachedShape.attach (h : DetachedShape ht before p after) : HashShape
      (setHead (connectToBucketDllist ht p (ht.h p &&& ht.nTableMask))
        (ht.h p &&& ht.nTableMask) (some p)) (before ++ p :: after) := by
  have hp := not_mem_of_nodup_middle h.shape.list.nodup
  have hmem : ∀ q, q ∈ before ++ p :: after ↔ q ∈ before ++ after ++ [p] := by
    simp only [mem_append, mem_cons, not_mem_nil, or_false]
    tauto
  refine ⟨h.shape.sameButChains (pushChain_sameButChains ht p _), ?_⟩
  intro i hi
  exact (ChainInv.push hp h.chain i hi).of_mem_iff hmem

/-- The bucket with its key written enters the chain of its hash. -/
theorem Detached.attach (h : Detached intern ht before p after) (hok : BucketOk intern ht p)
    (hkey : ∀ q ∈ before ++ after, bucketKey intern ht q ≠ bucketKey intern ht p) : HashInv intern
      (setHead (connectToBucketDllist ht p (ht.h p &&& ht.nTableMask))
        (ht.h p &&& ht.nTableMask) (some p)) (before ++ p :: after) := by
  apply h.shape.attach.inv
  · change ((before ++ p :: after).map (bucketKey intern ht)).Nodup
    have hperm : (before ++ p :: after).Perm (p :: (before ++ after)) :=
      perm_middle
    rw [(hperm.map _).nodup_iff, map_cons, nodup_cons]
    refine ⟨?_, h.keys⟩
    intro hkeymem
    obtain ⟨q, hq, heq⟩ := List.mem_map.mp hkeymem
    exact hkey q hq heq
  · intro q hq
    have hcases : q = p ∨ q ∈ before ++ after := by
      simp only [mem_append, mem_cons] at hq ⊢
      tauto
    rcases hcases with rfl | hq
    · exact hok
    · exact h.bucket q hq

/-- A table that differs only in the detached bucket and in fields that the
invariant does not read. -/
theorem DetachedShape.congr {ht' : HashTable δ} (h : DetachedShape ht before p after)
    (hframe : ht' = { ht with
      h := ht'.h
      nKeyLength := ht'.nKeyLength
      arKey := ht'.arKey
      keyStore := ht'.keyStore
      pData := ht'.pData
      nNextFreeElement := ht'.nNextFreeElement })
    (hsame : ∀ q, q ≠ p → ht'.h q = ht.h q) :
    DetachedShape ht' before p after := by
  refine ⟨?_, ?_⟩
  · exact
      { size := by rw [hframe]; exact h.shape.size
        mask := by rw [hframe]; exact h.shape.mask
        uninitialized := by rw [hframe]; exact h.shape.uninitialized
        list := by rw [hframe]; exact h.shape.list
        count := by rw [hframe]; exact h.shape.count
        internalPointer := by rw [hframe]; exact h.shape.internalPointer
        allocated := by rw [hframe]; exact h.shape.allocated
        applyCount := by rw [hframe]; exact h.shape.applyCount }
  · intro i hi
    have hmask : ht'.nTableMask = ht.nTableMask := by rw [hframe]
    refine (h.chain i (hmask ▸ hi)).congr ?_ hmask ?_ ?_ ?_
    · rw [hframe]
    · intro q _
      rw [hframe]
    · intro q _
      rw [hframe]
    · intro q hq
      apply hsame
      rintro rfl
      exact not_mem_of_nodup_middle h.shape.list.nodup hq

theorem Detached.congr {ht' : HashTable δ} (h : Detached intern ht before p after)
    (hframe : ht' = { ht with
      h := ht'.h
      nKeyLength := ht'.nKeyLength
      arKey := ht'.arKey
      keyStore := ht'.keyStore
      pData := ht'.pData
      nNextFreeElement := ht'.nNextFreeElement })
    (hsame : ∀ q, q ≠ p → SameBucket ht ht' q) :
    Detached intern ht' before p after := by
  have hne : ∀ q ∈ before ++ after, q ≠ p := by
    rintro q hq rfl
    exact not_mem_of_nodup_middle h.list.nodup hq
  apply (h.shape.congr hframe fun q hq => (hsame q hq).h).detached
  · rw [SameBucket.map_bucketKey fun q hq => hsame q (hne q hq)]
    exact h.keys
  · exact fun q hq => (hsame q (hne q hq)).bucketOk (h.bucket q hq)

/-- A second store through the same pointer hides the first. -/
theorem update_update_update {β γ : Type} [DecidableEq β] (f : β → γ) (x y : β) (a b c : γ) :
    update (update (update f x a) y b) x c = update (update f y b) x c := by
  funext z
  by_cases hx : z = x
  · simp [hx]
  · by_cases hy : z = y <;> simp [update, hx, hy]

/-- The new bucket takes the place of the old one on the global list. -/
theorem ListInv.replace (h : ListInv ht (before ++ p :: after)) {q : Addr}
    (hq : q ∉ before ++ after) :
    ListInv (connectToGlobalDllistEx ht q (ht.pListLast p) (ht.pListNext p))
      (before ++ q :: after) := by
  have hconnected := h.unlinkFromList.connect hq
  have hself : ht.pListLast p ≠ some p := by
    rw [ListInv, map_append, map_cons] at h
    exact h.prv_ne_self
  have hlast := h.last
  have hnext := h.next
  rw [ListInv, connectToGlobalDllistEx_listNext,
    connectToGlobalDllistEx_listLast, unlinkFromList_listNext hself,
    unlinkFromList_listLast hself, hlast, hnext, update_update_update,
    update_update_update] at hconnected
  rw [ListInv, connectToGlobalDllistEx_listNext, connectToGlobalDllistEx_listLast, hlast, hnext]
  exact hconnected

theorem replaceBucket_sameBucket {q : Addr} (ht : HashTable δ) (p : Addr)
    (nKeyLength : Nat) (garbage : KeyPtr) (hq : q ≠ ht.brk) :
    SameBucket ht (replaceBucket ht p nKeyLength garbage) q := by
  constructor <;> simp [replaceBucket, connectToGlobalDllistEx, hq]

theorem DetachedShape.brk_not_mem (h : DetachedShape ht before p after) :
    ht.brk ∉ before ++ after :=
  fun hmem => Nat.lt_irrefl _ (h.shape.allocated _ (mem_middle_of_mem hmem))

theorem DetachedShape.replace (h : DetachedShape ht before p after)
    (nKeyLength : Nat) (garbage : KeyPtr) :
    DetachedShape (replaceBucket ht p nKeyLength garbage) before ht.brk after := by
  have hfresh := h.brk_not_mem
  have hlist := h.shape.list.replace hfresh
  refine ⟨?_, ?_⟩
  · refine
      { size := h.shape.size
        mask := h.shape.mask
        uninitialized := fun hzero => absurd hzero h.nTableMask_ne_zero
        list := hlist.congr rfl rfl (fun _ _ => rfl) fun _ _ => rfl
        count := ?_
        internalPointer := ?_
        allocated := ?_
        applyCount := h.shape.applyCount }
    · have hcount := h.shape.count
      rw [length_append, length_cons] at hcount ⊢
      exact hcount
    · intro q hq
      change (if ht.pInternalPointer = some p then some ht.brk
        else ht.pInternalPointer) = some q at hq
      by_cases hcur : ht.pInternalPointer = some p
      · rw [if_pos hcur, Option.some_inj] at hq
        simp [hq]
      · rw [if_neg hcur] at hq
        have hmem := h.shape.internalPointer q hq
        have hqp : q ≠ p := by
          rintro rfl
          exact hcur hq
        simp only [mem_append, mem_cons] at hmem ⊢
        tauto
    · intro q hq
      have hcases : q = ht.brk ∨ q ∈ before ++ after := by
        simp only [mem_append, mem_cons] at hq ⊢
        tauto
      rcases hcases with rfl | hmem
      · exact Nat.lt_succ_self _
      · exact Nat.lt_succ_of_lt (h.shape.allocated q (mem_middle_of_mem hmem))
  · intro i hi
    exact (h.chain i hi).congr rfl rfl (fun _ _ => rfl) (fun _ _ => rfl)
      fun q hq => (replaceBucket_sameBucket ht p nKeyLength garbage fun heq => hfresh (heq ▸ hq)).h

theorem Detached.replace (h : Detached intern ht before p after)
    (nKeyLength : Nat) (garbage : KeyPtr) :
    Detached intern (replaceBucket ht p nKeyLength garbage) before ht.brk after := by
  have hsame : ∀ q ∈ before ++ after,
      SameBucket ht (replaceBucket ht p nKeyLength garbage) q := fun q hq =>
    replaceBucket_sameBucket ht p nKeyLength garbage fun heq => h.shape.brk_not_mem (heq ▸ hq)
  apply (h.shape.replace nKeyLength garbage).detached
  · rw [SameBucket.map_bucketKey hsame]
    exact h.keys
  · exact fun q hq => (hsame q hq).bucketOk (h.bucket q hq)

def UpdateKey.toHashKey (intern : Nat → KeyBytes) : UpdateKey → HashKey
  | .long numIndex => .long numIndex
  | .string key => .string (key.read intern)

/-- A string key is not empty. -/
def UpdateKey.Valid (intern : Nat → KeyBytes) : UpdateKey → Prop
  | .long _ => True
  | .string key => key.read intern ≠ []

theorem UpdateKey.write_frame (key : UpdateKey) (ht : HashTable δ) (p : Addr) :
    key.write intern ht p = { ht with
      h := (key.write intern ht p).h
      nKeyLength := (key.write intern ht p).nKeyLength
      arKey := (key.write intern ht p).arKey
      keyStore := (key.write intern ht p).keyStore
      pData := (key.write intern ht p).pData
      nNextFreeElement := (key.write intern ht p).nNextFreeElement } := by
  cases key with
  | long numIndex => rfl
  | string key => cases key <;> rfl

theorem UpdateKey.write_sameBucket (key : UpdateKey) (ht : HashTable δ)
    {p q : Addr} (hq : q ≠ p) : SameBucket ht (key.write intern ht p) q := by
  cases key with
  | long numIndex => constructor <;> simp [UpdateKey.write, hq]
  | string key =>
    cases key <;> constructor <;> simp [UpdateKey.write, storeKey, hq]

/-- The bucket a key is written into carries that key afterwards, provided an
index goes into an index bucket without an interned `arKey`. -/
theorem UpdateKey.write_ok {key : UpdateKey} (hvalid : key.Valid intern)
    (hlong : ∀ numIndex, key = .long numIndex →
      ht.nKeyLength p = 0 ∧ isInterned (ht.arKey p) = false) :
    BucketOk intern (key.write intern ht p) p ∧
      bucketKey intern (key.write intern ht p) p = key.toHashKey intern := by
  cases key with
  | long numIndex =>
    obtain ⟨hlen, hptr⟩ := hlong numIndex rfl
    constructor
    · simpa [BucketOk, UpdateKey.write, hlen] using hptr
    · simp [bucketKey, UpdateKey.write, hlen, UpdateKey.toHashKey]
  | string key =>
    have hlen : (key.read intern).length ≠ 0 :=
      fun heq => hvalid (length_eq_zero_iff.mp heq)
    have hbytes : bucketBytes intern
        ((UpdateKey.string key).write intern ht p) p = key.read intern := by
      cases key <;> simp [UpdateKey.write, storeKey, bucketBytes, KeyArg.read]
    have hfields : ((UpdateKey.string key).write intern ht p).nKeyLength p =
          (key.read intern).length ∧
        ((UpdateKey.string key).write intern ht p).h p = zendHashFunc (key.read intern) ∧
        ((UpdateKey.string key).write intern ht p).arKey p ≠ .null := by
      cases key <;> simp [UpdateKey.write, storeKey]
    constructor
    · rw [BucketOk, hbytes, if_neg (by rw [hfields.1]; exact hlen)]
      exact ⟨hfields.2.2, hfields.1, hfields.2.1⟩
    · rw [bucketKey, hbytes, if_pos (by rw [hfields.1]; exact hlen), hfields.1, take_length]
      rfl

/-- Memory that the allocator hands out may hold anything, but an index may
only go into a new bucket whose `arKey` does not look interned. -/
def GarbageOk (ht : HashTable δ) (p : Addr) (key : UpdateKey) (garbage : KeyPtr) : Prop :=
  match key with
  | .long _ => ht.nKeyLength p ≠ 0 → isInterned garbage = false
  | .string _ => True

theorem HashInv.rekey (hinv : HashInv intern ht (before ++ p :: after))
    {key : UpdateKey} (hvalid : key.Valid intern) {garbage : KeyPtr}
    (hgarbage : GarbageOk ht p key garbage) (hnew : ∀ q ∈ before ++ after,
      bucketKey intern ht q ≠ key.toHashKey intern) :
    ∃ ht' q, rekeyBucket intern ht p key garbage = (ht', q) ∧
      HashInv intern ht' (before ++ q :: after) ∧
      bucketKey intern ht' q = key.toHashKey intern := by
  have hdetached := hinv.detach
  have hframe := unlinkFromChain_frame ht p
  have hok := hinv.bucket p (by simp)
  have hnew₁ : ∀ q ∈ before ++ after,
      bucketKey intern (unlinkFromChain ht p) q ≠ key.toHashKey intern := by
    rw [hframe]
    exact hnew
  have hfields : (unlinkFromChain ht p).nKeyLength p = ht.nKeyLength p ∧
      (unlinkFromChain ht p).arKey p = ht.arKey p := by
    rw [hframe]
    exact ⟨rfl, rfl⟩
  rw [rekeyBucket]
  generalize unlinkFromChain ht p = ht₁ at hdetached hnew₁ hfields
  -- What follows once the bucket for the key is chosen.
  have hfinish : ∀ (ht₂ : HashTable δ) (q : Addr), Detached intern ht₂ before q after →
      (∀ r ∈ before ++ after, SameBucket ht₁ ht₂ r) →
      (∀ numIndex, key = .long numIndex → ht₂.nKeyLength q = 0 ∧ isInterned (ht₂.arKey q) = false) →
      HashInv intern (setHead (connectToBucketDllist (key.write intern ht₂ q) q
            ((key.write intern ht₂ q).h q &&& (key.write intern ht₂ q).nTableMask))
          ((key.write intern ht₂ q).h q &&& (key.write intern ht₂ q).nTableMask) (some q))
        (before ++ q :: after) ∧
      bucketKey intern (key.write intern ht₂ q) q = key.toHashKey intern := by
    intro ht₂ q hdet hsame hlong
    obtain ⟨hqok, hqkey⟩ := UpdateKey.write_ok hvalid hlong
    have hwritten : Detached intern (key.write intern ht₂ q) before q after :=
      hdet.congr (UpdateKey.write_frame key ht₂ q) fun r hr => UpdateKey.write_sameBucket key ht₂ hr
    refine ⟨hwritten.attach hqok ?_, hqkey⟩
    intro r hr
    have hrq : r ≠ q := by
      rintro rfl
      exact not_mem_of_nodup_middle hdet.list.nodup hr
    rw [(UpdateKey.write_sameBucket key ht₂ hrq).bucketKey, (hsame r hr).bucketKey, hqkey]
    exact hnew₁ r hr
  by_cases hreplace : (isInterned (ht₁.arKey p) != key.interned || (!isInterned (ht₁.arKey p) &&
        ht₁.nKeyLength p != key.strLength intern)) = true
  · have hsame : ∀ r ∈ before ++ after, SameBucket ht₁
        (replaceBucket ht₁ p (key.strLength intern) garbage) r := fun r hr =>
      replaceBucket_sameBucket ht₁ p _ garbage fun heq => hdetached.shape.brk_not_mem (heq ▸ hr)
    have hlong : ∀ numIndex, key = .long numIndex →
        (replaceBucket ht₁ p (key.strLength intern) garbage).nKeyLength ht₁.brk = 0 ∧
          isInterned ((replaceBucket ht₁ p (key.strLength intern)
            garbage).arKey ht₁.brk) = false := by
      rintro numIndex rfl
      have hstring : ht.nKeyLength p ≠ 0 := by
        intro hzero
        rw [BucketOk, if_pos hzero] at hok
        simp [hfields.1, hfields.2, hok, hzero, UpdateKey.interned, UpdateKey.strLength] at hreplace
      constructor
      · simp [replaceBucket, connectToGlobalDllistEx, UpdateKey.strLength]
      · simpa [replaceBucket, connectToGlobalDllistEx] using hgarbage hstring
    obtain ⟨hfinal, hkey⟩ :=
      hfinish _ _ (hdetached.replace (key.strLength intern) garbage) hsame hlong
    simp only [hreplace, if_true]
    exact ⟨_, _, rfl, hfinal, hkey⟩
  · have hkeep := hreplace
    simp only [Bool.or_eq_true, bne_iff_ne, Bool.and_eq_true, not_or,
      Bool.not_eq_true', not_and, not_not] at hkeep
    have hlong : ∀ numIndex, key = .long numIndex →
        ht₁.nKeyLength p = 0 ∧ isInterned (ht₁.arKey p) = false := by
      rintro numIndex rfl
      exact ⟨hkeep.2 hkeep.1, hkeep.1⟩
    obtain ⟨hfinal, hkey⟩ := hfinish _ _ hdetached (fun r _ => ⟨rfl, rfl, rfl, rfl⟩) hlong
    simp only [hreplace]
    exact ⟨_, _, rfl, hfinal, hkey⟩

theorem precedes_eq {q : Addr} (fuel : Nat) (hfuel : before.length < fuel)
    (hlist : ListInv ht (before ++ p :: after)) :
    precedes ht q fuel before.getLast? = some (decide (q ∈ before)) := by
  induction before using List.reverseRecOn generalizing p after fuel with
  | nil =>
    obtain ⟨n, rfl, -⟩ := exists_succ_of_lt hfuel
    rfl
  | append_singleton rest r ih =>
    obtain ⟨n, rfl, -⟩ := exists_succ_of_lt hfuel
    have hrest : ListInv ht (rest ++ r :: (p :: after)) := by
      simpa using hlist
    rw [getLast?_append_of_ne_nil rest (by simp)]
    change (if r = q then some true
      else precedes ht q n (ht.pListLast r)) = _
    rw [hrest.last]
    by_cases hrq : r = q
    · simp [hrq]
    · rw [if_neg hrq, ih n (by simp at hfuel; omega) hrest]
      have hqr : q ≠ r := fun heq => hrq heq.symm
      simp [hqr]

theorem UpdateKey.test_iff {q : Addr} {key : UpdateKey}
    (hvalid : key.Valid intern) (hok : BucketOk intern ht q) : key.test intern ht q = true ↔
      bucketKey intern ht q = key.toHashKey intern := by
  cases key with
  | long numIndex => exact indexTest_iff intern
  | string key => exact keyTest_iff hok hvalid

theorem UpdateKey.search_eq {order : List Addr} {key : UpdateKey}
    (hvalid : key.Valid intern) (hinv : HashInv intern ht order) : key.search intern ht =
      some (lookupKey intern ht order (key.toHashKey intern)) := by
  cases key with
  | long numIndex => exact hinv.findIndex_eq numIndex
  | string key => exact hinv.findKey_eq hvalid

/-- Deleting another bucket leaves the current one on the list. -/
theorem HashInv.delete_other (hinv : HashInv intern ht (before ++ p :: after)) {other : Addr}
    (hother : other ∈ before ++ after) : ∃ before' after',
      HashInv intern (zendHashBucketDelete ht other) (before' ++ p :: after') ∧
      ∀ r ∈ before' ++ after', r ∈ before ++ after ∧ r ≠ other := by
  have hnodup : (before ++ after).Nodup := by
    have hsub : (before ++ after).Sublist (before ++ p :: after) :=
      List.Sublist.append_left (sublist_cons_self p after) before
    exact hinv.list.nodup.sublist hsub
  rcases mem_append.mp hother with hmem | hmem
  · obtain ⟨l₁, l₂, rfl⟩ := append_of_mem hmem
    rw [append_assoc, cons_append] at hinv hnodup
    refine ⟨l₁ ++ l₂, after, by simpa using hinv.delete, ?_⟩
    intro r hr
    rw [append_assoc] at hr
    refine ⟨?_, ?_⟩
    · simp only [mem_append, mem_cons] at hr ⊢
      tauto
    · rintro rfl
      exact not_mem_of_nodup_middle hnodup hr
  · obtain ⟨l₁, l₂, rfl⟩ := append_of_mem hmem
    have hinv' : HashInv intern ht ((before ++ p :: l₁) ++ other :: l₂) := by
      simpa using hinv
    have hnodup' : ((before ++ l₁) ++ other :: l₂).Nodup := by
      simpa using hnodup
    refine ⟨before, l₁ ++ l₂, by simpa using hinv'.delete, ?_⟩
    intro r hr
    rw [← append_assoc] at hr
    refine ⟨?_, ?_⟩
    · simp only [mem_append, mem_cons] at hr ⊢
      tauto
    · rintro rfl
      exact not_mem_of_nodup_middle hnodup' hr

/-- Every outcome of `zend_hash_update_current_key_ex` is a well-formed
table; after a success the bucket at the position carries the new key. -/
theorem HashInv.updateCurrentKey {order : List Addr}
    (hinv : HashInv intern ht order) {key : UpdateKey}
    (hvalid : key.Valid intern) (mode : UpdateMode) {pos : Option Addr}
    (hpos : ∀ p, pos = some p → p ∈ order) {garbage : KeyPtr}
    (hgarbage : ∀ p, pos = some p → GarbageOk ht p key garbage) :
    ∃ ht' result pos' order', zendHashUpdateCurrentKeyEx intern ht key mode
        pos garbage = some (ht', result, pos') ∧ HashInv intern ht' order' ∧
      (result = .success → ∃ q ∈ order', pos' = some q ∧
        bucketKey intern ht' q = key.toHashKey intern) := by
  cases pos with
  | none => exact ⟨ht, .failure, none, order, rfl, hinv, by simp⟩
  | some p =>
    have hp := hpos p rfl
    have hgarbage := hgarbage p rfl
    simp only [zendHashUpdateCurrentKeyEx]
    by_cases htest : key.test intern ht p = true
    · rw [if_pos htest]
      exact ⟨ht, .success, some p, order, rfl, hinv, fun _ =>
        ⟨p, hp, rfl, (UpdateKey.test_iff hvalid (hinv.bucket p hp)).mp htest⟩⟩
    · rw [if_neg htest, UpdateKey.search_eq hvalid hinv]
      have hpkey : bucketKey intern ht p ≠ key.toHashKey intern := fun heq =>
        htest ((UpdateKey.test_iff hvalid (hinv.bucket p hp)).mpr heq)
      obtain ⟨before, after, rfl⟩ := append_of_mem hp
      cases hlookup : lookupKey intern ht (before ++ p :: after) (key.toHashKey intern) with
      | none =>
        obtain ⟨ht', q, hrun, hinv', hkey⟩ := hinv.rekey hvalid hgarbage
          fun r hr => lookupKey_eq_none hlookup r (mem_middle_of_mem hr)
        refine ⟨ht', .success, some q, before ++ q :: after, ?_, hinv',
          fun _ => ⟨q, by simp, rfl, hkey⟩⟩
        change some ((rekeyBucket intern ht p key garbage).1, _,
          some (rekeyBucket intern ht p key garbage).2) = _
        rw [hrun]
      | some other =>
        obtain ⟨hmem, hokey⟩ := lookupKey_eq_some hlookup
        have hother : other ∈ before ++ after := by
          have hne : other ≠ p := fun heq => hpkey (heq ▸ hokey)
          simp only [mem_append, mem_cons] at hmem ⊢
          tauto
        have hfuel : before.length < ht.brk + 1 := by
          have hlen := length_le_of_nodup_lt hinv.list.nodup hinv.allocated
          rw [length_append] at hlen
          exact Nat.lt_succ_of_le (le_trans (Nat.le_add_right _ _) hlen)
        have hwalk := precedes_eq (ht.brk + 1) hfuel hinv.list (q := other)
        rw [← hinv.list.last] at hwalk
        simp only [Option.bind_eq_bind, Option.bind_some, hwalk]
        by_cases hmode : mode ≠ .anyway ∧ mode.accepts (decide (other ∈ before)) = true
        · rw [if_pos hmode]
          exact ⟨_, _, _, before ++ after, rfl, hinv.delete, by simp⟩
        · rw [if_neg hmode]
          obtain ⟨before', after', hinv₁, hrest⟩ :=
            hinv.delete_other hother
          have hsame := zendHashBucketDelete_sameBucket ht other
          have hgarbage₁ : GarbageOk (zendHashBucketDelete ht other) p key garbage := by
            simpa only [GarbageOk, (hsame p).nKeyLength] using hgarbage
          have hnew : ∀ r ∈ before' ++ after', bucketKey intern (zendHashBucketDelete ht other) r ≠
                key.toHashKey intern := by
            intro r hr
            obtain ⟨hr, hne⟩ := hrest r hr
            rw [(hsame r).bucketKey, ← hokey]
            exact fun heq => hne (hinv.key_unique (mem_middle_of_mem hr) hmem heq)
          obtain ⟨ht', q, hrun, hinv', hkey⟩ :=
            hinv₁.rekey hvalid hgarbage₁ hnew
          refine ⟨ht', .success, some q, before' ++ q :: after', ?_, hinv',
            fun _ => ⟨q, by simp, rfl, hkey⟩⟩
          change some ((rekeyBucket intern (zendHashBucketDelete ht other)
            p key garbage).1, _, some (rekeyBucket intern
              (zendHashBucketDelete ht other) p key garbage).2) = _
          rw [hrun]

end Rekey

end PhpEngine

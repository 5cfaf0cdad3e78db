/-
Sorting and reindexing.  Both turn a string bucket into an index bucket by
clearing `nKeyLength` only, so that its `arKey` survives; whether that is
harmless depends on what it points to.
-/
import PhpEngine.HashRun

namespace PhpEngine

open List Function

variable {δ : Type}

def intMax : Nat := 2 ^ 31 - 1

/-- The loop of `zend_hash_reindex`. -/
def reindexLoop (onlyIntegerKeys : Bool) :
    Nat → HashTable δ → Nat → Option Addr → Option (HashTable δ × Nat)
  | 0, _, _, _ => none
  | _ + 1, ht, offset, none => some (ht, offset)
  | fuel + 1, ht, offset, some p =>
    let renumber := !onlyIntegerKeys || ht.nKeyLength p == 0
    let ht := if renumber then
      { ht with
        h := update ht.h p offset
        nKeyLength := update ht.nKeyLength p 0 }
      else ht
    let offset := if renumber then offset + 1 else offset
    let nIndex := ht.h p &&& ht.nTableMask
    let ht := setHead (connectToBucketDllist ht p nIndex) nIndex (some p)
    reindexLoop onlyIntegerKeys fuel ht offset (ht.pListNext p)

def zendHashReindex (ht : HashTable δ) (onlyIntegerKeys : Bool) : Option (HashTable δ) :=
  if ht.nNumOfElements = 0 then some { ht with nNextFreeElement := 0 }
  else do
    let (ht, offset) ← reindexLoop onlyIntegerKeys (ht.brk + 1)
      { ht with arBuckets := fun _ => none } 0 ht.pListHead
    return { ht with nNextFreeElement := offset }

/-- The loop of `zend_hash_sort` that fills `arTmp`. -/
def collectBuckets (ht : HashTable δ) : Nat → Option Addr → Option (List Addr)
  | 0, _ => none
  | _ + 1, none => some []
  | fuel + 1, some p => do
      let rest ← collectBuckets ht fuel (ht.pListNext p)
      return p :: rest

/-- The loop of `zend_hash_sort` that links the buckets of `arTmp`; `last` is
the bucket linked before. -/
def relinkLoop : Option Addr → List Addr → HashTable δ → HashTable δ
  | last, [], ht => { ht with pListTail := last }
  | last, p :: rest, ht =>
    relinkLoop (some p) rest { ht with
        pListLast := update ht.pListLast p last
        pListNext := update ht.pListNext p rest.head? }

/-- `zend_hash_sort`.  What `sort_func` and the comparison do to the array is
an argument.  The buckets are counted in an `int`; there is no result when
that count overflows. -/
def zendHashSort (ht : HashTable δ) (sortFunc : List Addr → List Addr)
    (renumber : Bool) : Option (HashTable δ) :=
  if ¬ 1 < ht.nNumOfElements ∧ ¬ (renumber ∧ 0 < ht.nNumOfElements) then
    some ht
  else do
    let arTmp ← collectBuckets ht (ht.brk + 1) ht.pListHead
    if intMax < arTmp.length then none
    else
      let arTmp := sortFunc arTmp
      let ht := relinkLoop none arTmp ht
      let ht := { ht with
        pListHead := arTmp.head?
        pInternalPointer := arTmp.head? }
      if renumber then zendHashReindex ht false else some ht

/-- The buckets of the global list. -/
def listedBuckets (ht : HashTable δ) : List Addr :=
  (collectBuckets ht (ht.brk + 1) ht.pListHead).getD []

section Sorting

variable {intern : Nat → KeyBytes} {ht : HashTable δ} {order : List Addr}

theorem collectBuckets_eq (done todo : List Addr) (fuel : Nat)
    (hlist : ListInv ht (done ++ todo)) (hfuel : todo.length < fuel) :
    collectBuckets ht fuel todo.head? = some todo := by
  induction todo generalizing done fuel with
  | nil =>
    obtain ⟨n, rfl, -⟩ := exists_succ_of_lt hfuel
    rfl
  | cons p rest ih =>
    obtain ⟨n, rfl, hrest⟩ := exists_succ_of_lt hfuel
    rw [head?_cons, collectBuckets, hlist.next, ih (done ++ [p]) n (by simpa using hlist) hrest]
    rfl

theorem TableShape.collectBuckets_eq (hshape : TableShape ht order) :
    collectBuckets ht (ht.brk + 1) ht.pListHead = some order := by
  have hlen : order.length < ht.brk + 1 := Nat.lt_succ_of_le
    (length_le_of_nodup_lt hshape.list.nodup hshape.allocated)
  rw [hshape.list.head]
  exact PhpEngine.collectBuckets_eq [] order (ht.brk + 1) hshape.list hlen

theorem TableShape.listedBuckets_eq (hshape : TableShape ht order) : listedBuckets ht = order := by
  rw [listedBuckets, hshape.collectBuckets_eq]
  rfl

theorem HashCore.listedBuckets_eq (hcore : HashCore intern ht order) : listedBuckets ht = order :=
  hcore.shape.listedBuckets_eq

theorem relinkLoop_frame (last : Option Addr) (l : List Addr) (ht : HashTable δ) :
    relinkLoop last l ht = { ht with
        pListTail := (relinkLoop last l ht).pListTail
        pListNext := (relinkLoop last l ht).pListNext
        pListLast := (relinkLoop last l ht).pListLast } := by
  induction l generalizing last ht with
  | nil => rfl
  | cons p rest ih =>
    rw [relinkLoop, ih]

theorem relinkLoop_pListTail (last : Option Addr) (l : List Addr) (ht : HashTable δ) :
    (relinkLoop last l ht).pListTail = (l.getLast?).or last := by
  induction l generalizing last ht with
  | nil => rfl
  | cons p rest ih =>
    rw [relinkLoop, ih, getLast?_cons]
    cases rest.getLast? <;> rfl

theorem relinkLoop_of_not_mem (last : Option Addr) {l : List Addr} {p : Addr}
    (hp : p ∉ l) (ht : HashTable δ) : (relinkLoop last l ht).pListNext p = ht.pListNext p ∧
      (relinkLoop last l ht).pListLast p = ht.pListLast p := by
  induction l generalizing last ht with
  | nil => exact ⟨rfl, rfl⟩
  | cons q rest ih =>
    rw [mem_cons, not_or] at hp
    obtain ⟨hnext, hlast⟩ := ih (some q) hp.2 { ht with
        pListLast := update ht.pListLast q last
        pListNext := update ht.pListNext q rest.head? }
    rw [relinkLoop, hnext, hlast]
    simp [hp.1]

/-- Each bucket is linked to its neighbours in the array. -/
theorem relinkLoop_links (last : Option Addr) {l₁ l₂ : List Addr} {p : Addr}
    (hnodup : (l₁ ++ p :: l₂).Nodup) (ht : HashTable δ) :
    (relinkLoop last (l₁ ++ p :: l₂) ht).pListNext p = l₂.head? ∧
      (relinkLoop last (l₁ ++ p :: l₂) ht).pListLast p = (l₁.getLast?).or last := by
  induction l₁ generalizing last ht with
  | nil =>
    rw [nil_append, nodup_cons] at hnodup
    obtain ⟨hnext, hlast⟩ := relinkLoop_of_not_mem (some p) hnodup.1 { ht with
        pListLast := update ht.pListLast p last
        pListNext := update ht.pListNext p l₂.head? }
    rw [nil_append, relinkLoop, hnext, hlast]
    simp
  | cons q rest ih =>
    rw [cons_append, nodup_cons] at hnodup
    obtain ⟨hnext, hlast⟩ := ih (some q) hnodup.2 { ht with
        pListLast := update ht.pListLast q last
        pListNext := update ht.pListNext q (rest ++ p :: l₂).head? }
    refine ⟨hnext, hlast.trans ?_⟩
    rw [getLast?_cons]
    cases rest.getLast? <;> rfl

theorem ListInv.of_links (hnodup : order.Nodup) (hhead : ht.pListHead = order.head?)
    (htail : ht.pListTail = order.getLast?) (hlinks : ∀ l₁ p l₂, order = l₁ ++ p :: l₂ →
      ht.pListNext p = l₂.head? ∧ ht.pListLast p = l₁.getLast?) : ListInv ht order := by
  refine ⟨?_, ?_⟩
  · simpa using hnodup.map fun _ _ heq => Option.some.inj heq
  · intro m₁ m₂ hm
    obtain ⟨l₁, l₂, rfl, rfl, rfl⟩ := map_eq_append_iff.mp hm
    rw [map_some_getLastD, map_some_headD]
    constructor
    · rcases eq_nil_or_concat l₁ with rfl | ⟨l, p, rfl⟩
      · exact hhead
      · rw [concat_eq_append, getLast?_append_of_ne_nil l (by simp)]
        exact (hlinks l p l₂ (by simp)).1
    · cases l₂ with
      | nil =>
        rw [append_nil] at htail
        exact htail
      | cons p rest => exact (hlinks l₁ p rest rfl).2

/-- Relinking in another order keeps the invariant: the chains do not know
about the order of the global list. -/
theorem HashInv.relink (hinv : HashInv intern ht order) {arTmp : List Addr}
    (hperm : arTmp.Perm order) : HashInv intern { relinkLoop none arTmp ht with
        pListHead := arTmp.head?
        pInternalPointer := arTmp.head? } arTmp := by
  have hframe := relinkLoop_frame none arTmp ht
  have hnodup : arTmp.Nodup := hperm.nodup_iff.mpr hinv.list.nodup
  have hmem : ∀ p, p ∈ arTmp ↔ p ∈ order := fun p => hperm.mem_iff
  refine ⟨?_, ?_⟩
  · refine
      { size := by rw [hframe]; exact hinv.size
        mask := by rw [hframe]; exact hinv.mask
        uninitialized := ?_
        list := ?_
        count := by rw [hframe, hperm.length_eq]; exact hinv.count
        internalPointer := fun p hp => mem_of_head? hp
        keys := ?_
        bucket := ?_
        allocated := by
          rw [hframe]
          exact fun p hp => hinv.allocated p ((hmem p).mp hp)
        applyCount := by rw [hframe]; exact hinv.applyCount }
    · intro hmask
      rw [hframe] at hmask
      have hempty := hinv.uninitialized hmask
      rw [hempty] at hperm
      exact hperm.eq_nil
    · refine ListInv.of_links hnodup rfl ?_ ?_
      · have htail := relinkLoop_pListTail none arTmp ht
        rwa [Option.or_none] at htail
      · rintro l₁ p l₂ rfl
        have hlinks := relinkLoop_links none hnodup ht
        rwa [Option.or_none] at hlinks
    · rw [hframe]
      exact (hperm.map _).nodup_iff.mpr hinv.keys
    · rw [hframe]
      exact fun p hp => hinv.bucket p ((hmem p).mp hp)
  · intro i hi
    rw [hframe] at hi ⊢
    exact ((hinv.chain i hi).of_mem_iff hmem).congr rfl rfl
      (fun _ _ => rfl) (fun _ _ => rfl) fun _ _ => rfl

end Sorting

section Reindex

variable {intern : Nat → KeyBytes} {ht : HashTable δ} {order : List Addr}

/-- The keys that `zend_hash_reindex` leaves behind, in list order. -/
def reindexKeys (onlyIntegerKeys : Bool) : Nat → List HashKey → List HashKey
  | _, [] => []
  | offset, .long _ :: rest =>
    .long offset :: reindexKeys onlyIntegerKeys (offset + 1) rest
  | offset, .string bytes :: rest =>
    if onlyIntegerKeys then
      .string bytes :: reindexKeys onlyIntegerKeys offset rest
    else .long offset :: reindexKeys onlyIntegerKeys (offset + 1) rest

/-- The keys that are renumbered. -/
def renumbered (onlyIntegerKeys : Bool) : HashKey → Bool
  | .long _ => true
  | .string _ => !onlyIntegerKeys

theorem lt_of_mem_reindexKeys {onlyIntegerKeys : Bool} {offset n : Nat} {keys : List HashKey}
    (h : .long n ∈ reindexKeys onlyIntegerKeys offset keys) :
    n < offset + keys.countP (renumbered onlyIntegerKeys) := by
  induction keys generalizing offset with
  | nil => simp [reindexKeys] at h
  | cons head tail ih =>
    have hlong : .long n ∈ HashKey.long offset :: reindexKeys onlyIntegerKeys (offset + 1) tail →
        renumbered onlyIntegerKeys head = true →
        n < offset + (head :: tail).countP (renumbered onlyIntegerKeys) := by
      intro hmem hhead
      rw [countP_cons_of_pos hhead]
      rcases mem_cons.mp hmem with heq | hmem
      · rw [HashKey.long.inj heq]
        omega
      · have hlt := ih hmem
        omega
    cases head with
    | long m => exact hlong h rfl
    | string bytes =>
      rw [reindexKeys] at h
      split at h
      · next hkept =>
          rcases mem_cons.mp h with heq | hmem
          · cases heq
          · rw [countP_cons_of_neg (by simp [renumbered, hkept])]
            exact ih hmem
      · next hall => exact hlong h (by simpa [renumbered] using hall)

theorem mem_reindexKeys {onlyIntegerKeys : Bool} {offset : Nat}
    {keys : List HashKey} {key : HashKey} (h : key ∈ reindexKeys onlyIntegerKeys offset keys) :
    (∃ n, offset ≤ n ∧ key = .long n) ∨ ∃ bytes, key = .string bytes ∧ key ∈ keys := by
  induction keys generalizing offset with
  | nil => simp [reindexKeys] at h
  | cons head tail ih =>
    have hlong : key ∈ HashKey.long offset :: reindexKeys onlyIntegerKeys (offset + 1) tail →
        (∃ n, offset ≤ n ∧ key = .long n) ∨ ∃ bytes, key = .string bytes ∧ key ∈ head :: tail := by
      intro hmem
      rcases mem_cons.mp hmem with rfl | hmem
      · exact .inl ⟨offset, le_rfl, rfl⟩
      · rcases ih hmem with ⟨n, hn, rfl⟩ | ⟨bytes, heq, hmem⟩
        · exact .inl ⟨n, Nat.le_of_succ_le hn, rfl⟩
        · exact .inr ⟨bytes, heq, mem_cons_of_mem head hmem⟩
    cases head with
    | long n => exact hlong h
    | string bytes =>
      rw [reindexKeys] at h
      split at h
      · rcases mem_cons.mp h with rfl | hmem
        · exact .inr ⟨bytes, rfl, mem_cons_self⟩
        · rcases ih hmem with hn | ⟨bytes', heq, hmem⟩
          · exact .inl hn
          · exact .inr ⟨bytes', heq, mem_cons_of_mem _ hmem⟩
      · exact hlong h

theorem reindexKeys_nodup_of_kept (onlyIntegerKeys : Bool) (offset : Nat) {keys : List HashKey}
    (hkept : (keys.filter fun key => !renumbered onlyIntegerKeys key).Nodup) :
    (reindexKeys onlyIntegerKeys offset keys).Nodup := by
  induction keys generalizing offset with
  | nil => simp [reindexKeys]
  | cons head tail ih =>
    have htail : (tail.filter fun key => !renumbered onlyIntegerKeys key).Nodup :=
      hkept.sublist ((sublist_cons_self head tail).filter _)
    have hlong : (HashKey.long offset :: reindexKeys onlyIntegerKeys (offset + 1) tail).Nodup := by
      rw [nodup_cons]
      refine ⟨?_, ih (offset + 1) htail⟩
      intro hmem
      rcases mem_reindexKeys hmem with ⟨n, hn, heq⟩ | ⟨bytes, heq, _⟩
      · rw [HashKey.long.injEq] at heq
        omega
      · simp at heq
    cases head with
    | long n => exact hlong
    | string bytes =>
      rw [reindexKeys]
      split
      · next honly =>
          rw [filter_cons_of_pos (by simp [renumbered, honly]), nodup_cons] at hkept
          rw [nodup_cons]
          refine ⟨?_, ih offset htail⟩
          intro hmem
          rcases mem_reindexKeys hmem with ⟨n, _, heq⟩ | ⟨_, _, hmem⟩
          · simp at heq
          · apply hkept.1
            simp [hmem, renumbered, honly]
      · exact hlong

theorem reindexKeys_nodup (onlyIntegerKeys : Bool) (offset : Nat)
    {keys : List HashKey} (hnodup : keys.Nodup) : (reindexKeys onlyIntegerKeys offset keys).Nodup :=
  reindexKeys_nodup_of_kept onlyIntegerKeys offset (hnodup.filter _)

/-- With every key renumbered, the indices count up from the offset. -/
theorem reindexKeys_false (offset : Nat) (keys : List HashKey) : reindexKeys false offset keys =
      (List.range' offset keys.length).map .long := by
  induction keys generalizing offset with
  | nil => rfl
  | cons head tail ih =>
    rw [length_cons, range'_succ, map_cons, ← ih]
    cases head <;> rfl

/-- Only the chains, the hashes and the key lengths differ. -/
def SameButNumbers (ht ht' : HashTable δ) : Prop :=
  ht' = { ht with
    arBuckets := ht'.arBuckets
    pNext := ht'.pNext
    pLast := ht'.pLast
    h := ht'.h
    nKeyLength := ht'.nKeyLength }

theorem SameButNumbers.trans {ht ht' ht'' : HashTable δ}
    (h : SameButNumbers ht ht') (h' : SameButNumbers ht' ht'') : SameButNumbers ht ht'' := by
  rw [SameButNumbers] at h h' ⊢
  rw [h', h]

/-- What renumbering does to one bucket: it becomes an index, or it is a
string bucket that is left alone. -/
def BucketKept (onlyIntegerKeys : Bool) (ht ht' : HashTable δ) (p : Addr) : Prop :=
  ht'.nKeyLength p = 0 ∧ (onlyIntegerKeys = false ∨ ht.nKeyLength p = 0) ∨
    ht.nKeyLength p ≠ 0 ∧ ht'.h p = ht.h p ∧ ht'.nKeyLength p = ht.nKeyLength p

/-- One round of the loop: `offset'` is the offset after it. -/
theorem reindexRound (intern : Nat → KeyBytes) (onlyIntegerKeys : Bool)
    (ht : HashTable δ) (offset : Nat) (p : Addr) :
    ∃ ht₁ offset', (if !onlyIntegerKeys || ht.nKeyLength p == 0 then
        { ht with
          h := update ht.h p offset
          nKeyLength := update ht.nKeyLength p 0 } else ht) = ht₁ ∧
      (if !onlyIntegerKeys || ht.nKeyLength p == 0 then offset + 1 else offset) = offset' ∧
      SameButNumbers ht ht₁ ∧
      (ht₁.pNext = ht.pNext ∧ ht₁.pLast = ht.pLast ∧ ht₁.arBuckets = ht.arBuckets) ∧
      (∀ q, q ≠ p → ht₁.h q = ht.h q ∧ ht₁.nKeyLength q = ht.nKeyLength q) ∧
      BucketKept onlyIntegerKeys ht ht₁ p ∧
      (∀ keys, reindexKeys onlyIntegerKeys offset (bucketKey intern ht p :: keys) =
        bucketKey intern ht₁ p :: reindexKeys onlyIntegerKeys offset' keys) ∧
      offset' = offset + [bucketKey intern ht p].countP (renumbered onlyIntegerKeys) := by
  by_cases hrenumber : (!onlyIntegerKeys || ht.nKeyLength p == 0) = true
  · refine ⟨_, _, rfl, rfl, ?_⟩
    rw [if_pos hrenumber, if_pos hrenumber]
    refine ⟨rfl, ⟨rfl, rfl, rfl⟩, ?_, .inl ⟨by simp, ?_⟩, ?_, ?_⟩
    · intro q hq
      simp [hq]
    · simpa using hrenumber
    · intro keys
      by_cases hlen : ht.nKeyLength p = 0
      · simp [bucketKey, hlen, reindexKeys]
      · have hall : onlyIntegerKeys = false := by simpa [hlen] using hrenumber
        simp [bucketKey, hlen, reindexKeys, hall]
    · by_cases hlen : ht.nKeyLength p = 0
      · simp [bucketKey, hlen, renumbered]
      · have hall : onlyIntegerKeys = false := by simpa [hlen] using hrenumber
        simp [bucketKey, hlen, renumbered, hall]
  · refine ⟨_, _, rfl, rfl, ?_⟩
    rw [if_neg hrenumber, if_neg hrenumber]
    have hkeep : onlyIntegerKeys = true ∧ ht.nKeyLength p ≠ 0 := by
      simpa using hrenumber
    refine ⟨rfl, ⟨rfl, rfl, rfl⟩, fun _ _ => ⟨rfl, rfl⟩, .inr ⟨hkeep.2, rfl, rfl⟩, ?_, ?_⟩
    · intro keys
      simp [bucketKey, hkeep.1, hkeep.2, reindexKeys]
    · simp [bucketKey, hkeep.1, hkeep.2, renumbered]

theorem reindexLoop_eq (intern : Nat → KeyBytes) (onlyIntegerKeys : Bool)
    (ht : HashTable δ) (done todo : List Addr) (fuel offset : Nat)
    (hlist : ListInv ht (done ++ todo)) (hfuel : todo.length < fuel)
    (hchain : ∀ i ≤ ht.nTableMask, ChainInv ht done i) :
    ∃ ht' offset', reindexLoop onlyIntegerKeys fuel ht offset todo.head? =
        some (ht', offset') ∧ SameButNumbers ht ht' ∧ (∀ p, p ∉ todo →
        ht'.h p = ht.h p ∧ ht'.nKeyLength p = ht.nKeyLength p) ∧
      (∀ p ∈ todo, BucketKept onlyIntegerKeys ht ht' p) ∧
      todo.map (bucketKey intern ht') = reindexKeys onlyIntegerKeys offset
        (todo.map (bucketKey intern ht)) ∧ (∀ i ≤ ht.nTableMask, ChainInv ht' (done ++ todo) i) ∧
      offset' = offset + (todo.map (bucketKey intern ht)).countP (renumbered onlyIntegerKeys) := by
  induction todo generalizing ht done fuel offset with
  | nil =>
    obtain ⟨n, rfl, -⟩ := exists_succ_of_lt hfuel
    exact ⟨ht, offset, rfl, rfl, fun _ _ => ⟨rfl, rfl⟩, by simp, rfl, by simpa using hchain, rfl⟩
  | cons p rest ih =>
    obtain ⟨n, rfl, -⟩ := exists_succ_of_lt hfuel
    have hnodup := hlist.nodup
    have hp : p ∉ done := by
      grind
    have hprest : p ∉ rest := by
      have hright := (nodup_append.mp hnodup).2.1
      exact (nodup_cons.mp hright).1
    obtain ⟨ht₁, offset', hset, hoffset, hsame₁, hlinks, hother, hkept,
      hkeys, hnumber⟩ := reindexRound intern onlyIntegerKeys ht offset p
    have hmask₁ : ht₁.nTableMask = ht.nTableMask := by rw [hsame₁]
    have hchain₁ : ∀ i ≤ ht₁.nTableMask, ChainInv ht₁ done i := by
      intro i hi
      refine (hchain i (hmask₁ ▸ hi)).congr (by rw [hlinks.2.2]) hmask₁
        (fun _ _ => by rw [hlinks.1]) (fun _ _ => by rw [hlinks.2.1]) ?_
      intro q hq
      exact (hother q fun heq => hp (heq ▸ hq)).1
    have hpush := ChainInv.push hp hchain₁
    have hsame₂ := pushChain_sameButChains ht₁ p (ht₁.h p &&& ht₁.nTableMask)
    generalize hht₂ : setHead (connectToBucketDllist ht₁ p (ht₁.h p &&& ht₁.nTableMask))
      (ht₁.h p &&& ht₁.nTableMask) (some p) = ht₂ at hpush hsame₂
    have hmask₂ : ht₂.nTableMask = ht₁.nTableMask := by rw [hsame₂]
    have hnumbers₂ : ht₂.h = ht₁.h ∧ ht₂.nKeyLength = ht₁.nKeyLength := by
      constructor <;> rw [hsame₂]
    have hsame : SameButNumbers ht ht₂ := by
      rw [SameButNumbers, hsame₂, hsame₁]
    have hlist₂ : ListInv ht₂ ((done ++ [p]) ++ rest) := by
      rw [hsame, append_assoc]
      exact hlist.congr rfl rfl (fun _ _ => rfl) fun _ _ => rfl
    have hnext : ht₂.pListNext p = rest.head? := by
      rw [hsame]
      exact hlist.next
    obtain ⟨ht', final, hrun, hsame', hfixed, hkept', hkeys', hchain', hfinal⟩ :=
      ih ht₂ (done ++ [p]) n offset' hlist₂ (by simp only [length_cons] at hfuel; omega)
        (by rw [hmask₂]; exact hpush)
    -- The bucket of this round keeps its numbers to the end.
    have hpfixed : ht'.h p = ht₁.h p ∧ ht'.nKeyLength p = ht₁.nKeyLength p := by
      obtain ⟨hh, hlen⟩ := hfixed p hprest
      rw [hh, hlen, hnumbers₂.1, hnumbers₂.2]
      exact ⟨rfl, rfl⟩
    have hbefore : ∀ q, q ≠ p → ht₂.h q = ht.h q ∧ ht₂.nKeyLength q = ht.nKeyLength q := by
      intro q hq
      rw [hnumbers₂.1, hnumbers₂.2]
      exact hother q hq
    have hbytes : ht'.arKey = ht.arKey ∧ ht'.keyStore = ht.keyStore := by
      constructor <;> rw [hsame', hsame]
    have hbytes₁ : ht₁.arKey = ht.arKey ∧ ht₁.keyStore = ht.keyStore := by
      constructor <;> rw [hsame₁]
    have hbytes₂ : ht₂.arKey = ht.arKey ∧ ht₂.keyStore = ht.keyStore := by
      constructor <;> rw [hsame]
    have htail : rest.map (bucketKey intern ht₂) = rest.map (bucketKey intern ht) := by
      apply map_congr_left
      intro q hq
      have hqp : q ≠ p := fun heq => hprest (heq ▸ hq)
      simp only [bucketKey, bucketBytes, (hbefore q hqp).1, (hbefore q hqp).2, hbytes₂.1, hbytes₂.2]
    refine ⟨ht', final, ?_, hsame.trans hsame', ?_, ?_, ?_, ?_, ?_⟩
    · rw [head?_cons, reindexLoop]
      simp only [hset, hoffset, hht₂, hnext, hrun]
    · intro q hq
      rw [mem_cons, not_or] at hq
      obtain ⟨hh, hlen⟩ := hfixed q hq.2
      obtain ⟨hh₂, hlen₂⟩ := hbefore q hq.1
      exact ⟨hh.trans hh₂, hlen.trans hlen₂⟩
    · intro q hq
      rcases mem_cons.mp hq with rfl | hq
      · rw [BucketKept, hpfixed.1, hpfixed.2]
        exact hkept
      · have hqp : q ≠ p := fun heq => hprest (heq ▸ hq)
        have hq' := hkept' q hq
        rw [BucketKept, (hbefore q hqp).1, (hbefore q hqp).2] at hq'
        exact hq'
    · have hhead : bucketKey intern ht' p = bucketKey intern ht₁ p := by
        simp only [bucketKey, bucketBytes, hpfixed.1, hpfixed.2, hbytes.1,
          hbytes.2, hbytes₁.1, hbytes₁.2]
      rw [map_cons, map_cons, hkeys, hhead, hkeys', htail]
    · rw [hmask₂, hmask₁] at hchain'
      simpa using hchain'
    · have hcount : (bucketKey intern ht p ::
          rest.map (bucketKey intern ht)).countP (renumbered onlyIntegerKeys) =
          [bucketKey intern ht p].countP (renumbered onlyIntegerKeys) +
            (rest.map (bucketKey intern ht)).countP (renumbered onlyIntegerKeys) := by
        rw [← singleton_append, countP_append]
      rw [hfinal, htail, hnumber, map_cons, hcount, add_assoc]

/-- The string buckets of the table own their key bytes: none of them shares
an interned string. -/
def NoInternedKey (ht : HashTable δ) : Prop :=
  ∀ p ∈ listedBuckets ht, ht.nKeyLength p ≠ 0 → isInterned (ht.arKey p) = false

instance (ht : HashTable δ) : Decidable (NoInternedKey ht) :=
  inferInstanceAs (Decidable (∀ p ∈ listedBuckets ht, _))

variable (intern) in
/-- Reindexing rebuilds the chains of a table that is not empty. -/
theorem TableShape.reindex (hshape : TableShape ht order)
    (onlyIntegerKeys : Bool) (hcount : ht.nNumOfElements ≠ 0) :
    ∃ ht' offset, zendHashReindex ht onlyIntegerKeys =
        some { ht' with nNextFreeElement := offset } ∧
      HashShape { ht' with nNextFreeElement := offset } order ∧
      SameButNumbers ht ht' ∧
      (∀ p ∈ order, BucketKept onlyIntegerKeys ht ht' p) ∧
      order.map (bucketKey intern ht') =
        reindexKeys onlyIntegerKeys 0 (order.map (bucketKey intern ht)) ∧
      offset = (order.map (bucketKey intern ht)).countP (renumbered onlyIntegerKeys) := by
  have hlen : order.length < ht.brk + 1 := Nat.lt_succ_of_le
    (length_le_of_nodup_lt hshape.list.nodup hshape.allocated)
  obtain ⟨ht', offset, hrun, hsame, -, hkept, hkeys, hchain, hoffset⟩ :=
    reindexLoop_eq intern onlyIntegerKeys
      { ht with arBuckets := fun _ => none } [] order (ht.brk + 1) 0
      hshape.list hlen fun i _ => chainInv_nil rfl
  have hmask : ht'.nTableMask = ht.nTableMask := by rw [hsame]
  rw [← hshape.list.head] at hrun
  refine ⟨ht', offset, ?_, ⟨?_, ?_⟩, hsame, hkept, hkeys, ?_⟩
  · rw [zendHashReindex, if_neg hcount, hrun]
    rfl
  · refine
      { size := by rw [hsame]; exact hshape.size
        mask := by rw [hsame]; exact hshape.mask
        uninitialized := by rw [hsame]; exact hshape.uninitialized
        list := ?_
        count := by rw [hsame]; exact hshape.count
        internalPointer := by rw [hsame]; exact hshape.internalPointer
        allocated := by rw [hsame]; exact hshape.allocated
        applyCount := by rw [hsame]; exact hshape.applyCount }
    rw [hsame]
    exact hshape.list.congr rfl rfl (fun _ _ => rfl) fun _ _ => rfl
  · intro i hi
    exact (hchain i (hmask ▸ hi)).congr rfl rfl (fun _ _ => rfl) (fun _ _ => rfl) fun _ _ => rfl
  · rw [hoffset, Nat.zero_add]
    rfl

/-- Reindexing keeps the invariant when no string bucket that it turns into an
index bucket holds an interned key. -/
theorem HashInv.reindex (hinv : HashInv intern ht order) (onlyIntegerKeys : Bool)
    (hkeys : onlyIntegerKeys = false → ht.nNumOfElements ≠ 0 → NoInternedKey ht) :
    ∃ ht', zendHashReindex ht onlyIntegerKeys = some ht' ∧ HashInv intern ht' order ∧
      (ht.nNumOfElements ≠ 0 → order.map (bucketKey intern ht') =
        reindexKeys onlyIntegerKeys 0 (order.map (bucketKey intern ht))) := by
  by_cases hcount : ht.nNumOfElements = 0
  · rw [zendHashReindex, if_pos hcount]
    refine ⟨_, rfl, ?_, fun hne => absurd hcount hne⟩
    exact ⟨⟨hinv.size, hinv.mask, hinv.uninitialized, hinv.list, hinv.count,
      hinv.internalPointer, hinv.keys, hinv.bucket, hinv.allocated,
      hinv.applyCount⟩, hinv.chain⟩
  · obtain ⟨ht', offset, hrun, hshape, hsame, hkept, hrenumbered, -⟩ :=
      hinv.shape.reindex intern onlyIntegerKeys hcount
    refine ⟨_, hrun, ?_, fun _ => hrenumbered⟩
    apply hshape.inv
    · change (order.map (bucketKey intern ht')).Nodup
      rw [hrenumbered]
      exact reindexKeys_nodup onlyIntegerKeys 0 hinv.keys
    · intro p hp
      have hbytes : ht'.arKey = ht.arKey ∧ ht'.keyStore = ht.keyStore := by
        constructor <;> rw [hsame]
      have hok := hinv.bucket p hp
      rcases hkept p hp with ⟨hzero, hchanged⟩ | ⟨hlen, hh, hlen'⟩
      · rw [BucketOk, if_pos hzero, hbytes.1]
        rcases hchanged with hall | hlen
        · by_cases hlen : ht.nKeyLength p = 0
          · rwa [BucketOk, if_pos hlen] at hok
          · have hp' : p ∈ listedBuckets ht := by
              rw [hinv.listedBuckets_eq]
              exact hp
            exact hkeys hall hcount p hp' hlen
        · rwa [BucketOk, if_pos hlen] at hok
      · exact SameBucket.bucketOk ⟨hh, hlen', congrFun hbytes.1 p, congrFun hbytes.2 p⟩ hok

/-- Sorting yields a well-formed table with the same buckets in another
order; with `renumber` their keys are the indices from 0 on. -/
theorem HashInv.sort (hinv : HashInv intern ht order)
    {sortFunc : List Addr → List Addr} (hsort : ∀ l, (sortFunc l).Perm l)
    (renumber : Bool) (hint : order.length ≤ intMax) (hkeys : renumber = true → NoInternedKey ht) :
    ∃ ht' order', zendHashSort ht sortFunc renumber = some ht' ∧
      order'.Perm order ∧ HashInv intern ht' order' ∧
      (renumber = true → order'.map (bucketKey intern ht') =
        (List.range order.length).map .long) := by
  have hcount : ht.nNumOfElements = order.length := by
    rw [hinv.count, Nat.mod_eq_of_lt]
    simp only [intMax, uintMod] at hint ⊢
    omega
  rw [zendHashSort]
  by_cases hfew : ¬ 1 < ht.nNumOfElements ∧ ¬ (renumber ∧ 0 < ht.nNumOfElements)
  · rw [if_pos hfew]
    refine ⟨ht, order, rfl, List.Perm.refl _, hinv, ?_⟩
    intro hrenumber
    have hzero : order.length = 0 := by
      have hnot := hfew.2
      rw [hcount] at hnot
      simp only [hrenumber, true_and, Nat.not_lt, Nat.le_zero] at hnot
      exact hnot
    rw [length_eq_zero_iff.mp hzero]
    rfl
  · rw [if_neg hfew, hinv.shape.collectBuckets_eq]
    change ∃ ht' order', (if intMax < order.length then none else _) = _ ∧ _
    rw [if_neg (Nat.not_lt.mpr hint)]
    have hperm := hsort order
    have hrelinked := hinv.relink hperm
    have hframe := relinkLoop_frame none (sortFunc order) ht
    generalize hht₁ : ({ relinkLoop none (sortFunc order) ht with
        pListHead := (sortFunc order).head?
        pInternalPointer := (sortFunc order).head? } : HashTable δ) = ht₁
      at hrelinked
    have hsame : ht₁.nKeyLength = ht.nKeyLength ∧ ht₁.arKey = ht.arKey := by
      rw [← hht₁, hframe]
      exact ⟨rfl, rfl⟩
    cases hrenumber : renumber with
    | false => exact ⟨ht₁, sortFunc order, rfl, hperm, hrelinked, by simp⟩
    | true =>
      have hnone : NoInternedKey ht₁ := by
        intro p hp
        rw [hrelinked.listedBuckets_eq, hperm.mem_iff, ← hinv.listedBuckets_eq] at hp
        rw [hsame.1, hsame.2]
        exact hkeys hrenumber p hp
      obtain ⟨ht', hrun, hinv', hkeys'⟩ :=
        hrelinked.reindex false fun _ _ => hnone
      refine ⟨ht', sortFunc order, hrun, hperm, hinv', ?_⟩
      intro _
      have hpos : ht₁.nNumOfElements ≠ 0 := by
        have hcount₁ : ht₁.nNumOfElements = ht.nNumOfElements := by
          rw [← hht₁, hframe]
        intro hzero
        exact hfew ⟨by omega, by omega⟩
      rw [hkeys' hpos, reindexKeys_false, length_map, hperm.length_eq, range_eq_range']

end Reindex

end PhpEngine

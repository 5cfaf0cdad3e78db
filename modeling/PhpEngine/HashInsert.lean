/-
Insertion, growth and rehashing keep the representation invariant.
-/
import PhpEngine.HashDelete

namespace PhpEngine

open List Function

variable {δ : Type}

section Links

variable {ht : HashTable δ} {order : List Addr} {p : Addr}

theorem connectToGlobalDllistEx_listNext (ht : HashTable δ) (p : Addr) (last next : Option Addr) :
    (connectToGlobalDllistEx ht p last next).listNext =
      update (update ht.listNext (some p) next) last (some p) := by
  funext x
  cases last <;> cases x <;> simp [connectToGlobalDllistEx, HashTable.listNext, update]

theorem connectToGlobalDllistEx_listLast (ht : HashTable δ) (p : Addr) (last next : Option Addr) :
    (connectToGlobalDllistEx ht p last next).listLast =
      update (update ht.listLast (some p) last) next (some p) := by
  funext x
  cases next <;> cases x <;> simp [connectToGlobalDllistEx, HashTable.listLast, update]

/-- A new bucket goes between two neighbours of the global list. -/
theorem ListInv.connect {before after : List Addr}
    (h : ListInv ht (before ++ after)) (hp : p ∉ before ++ after) :
    ListInv (connectToGlobalDllistEx ht p before.getLast? after.head?) (before ++ p :: after) := by
  rw [ListInv, map_append] at h
  rw [ListInv, connectToGlobalDllistEx_listNext,
    connectToGlobalDllistEx_listLast, map_append, map_cons,
    ← map_some_getLastD, ← map_some_headD]
  apply h.insert
  simpa using hp

/-- `arBuckets[i]` now leads to `p`, and from there to the former head. -/
theorem pushChain_chainNext (ht : HashTable δ) (p : Addr) (i : Nat) :
    (setHead (connectToBucketDllist ht p i) i (some p)).chainNext i = update
        (update (ht.chainNext i) (some p) (ht.arBuckets i)) none (some p) := by
  funext x
  cases x <;> simp [connectToBucketDllist, setHead, HashTable.chainNext, update]

theorem pushChain_chainLast (ht : HashTable δ) (p : Addr) (i : Nat) (tail : Option Addr) :
    (setHead (connectToBucketDllist ht p i) i (some p)).chainLast
        (if ht.arBuckets i = none then some p else tail) =
      update (update (ht.chainLast tail) (some p) none) (ht.arBuckets i) (some p) := by
  funext x
  cases hhead : ht.arBuckets i <;> cases x <;>
    simp [connectToBucketDllist, setHead, HashTable.chainLast, update, hhead]

/-- A bucket that is in no chain yet enters the chain of its hash at the
front. -/
theorem ChainInv.push (hp : p ∉ order) (h : ∀ i ≤ ht.nTableMask, ChainInv ht order i) :
    ∀ i ≤ ht.nTableMask, ChainInv (setHead (connectToBucketDllist ht p (ht.h p &&& ht.nTableMask))
          (ht.h p &&& ht.nTableMask) (some p)) (order ++ [p]) i := by
  obtain ⟨tail, l, hring, hmem⟩ :=
    h (ht.h p &&& ht.nTableMask) Nat.and_le_right
  have hhead : ht.arBuckets (ht.h p &&& ht.nTableMask) = l.head? := by
    have hsentinel := hring.nxt_sentinel
    rwa [map_some_headD] at hsentinel
  intro i hi
  by_cases hidx : i = ht.h p &&& ht.nTableMask
  · subst hidx
    refine ⟨if ht.arBuckets (ht.h p &&& ht.nTableMask) = none then some p
      else tail, p :: l, ?_, ?_⟩
    · rw [pushChain_chainNext, pushChain_chainLast, hhead]
      have hnew : some p ∉ none :: ([] ++ l.map some) := by
        simp only [nil_append, mem_cons, reduceCtorEq, List.mem_map,
          Option.some.injEq, exists_eq_right, false_or]
        intro hl
        exact hp ((hmem p).mp hl).1
      have hgap : Ring (ht.chainNext (ht.h p &&& ht.nTableMask))
          (ht.chainLast tail) none ([] ++ l.map some) := hring
      have hinsert := hgap.insert hnew
      rw [map_some_headD] at hinsert
      exact hinsert
    · intro q
      simp only [mem_cons, mem_append, not_mem_nil, or_false, hmem q]
      constructor
      · rintro (rfl | ⟨hq, hqi⟩)
        · exact ⟨.inr rfl, rfl⟩
        · exact ⟨.inl hq, hqi⟩
      · rintro ⟨hq | rfl, hqi⟩
        · exact .inr ⟨hq, hqi⟩
        · exact .inl rfl
  · obtain ⟨tail', l', hring₂, hmem₂⟩ := h i hi
    refine ⟨tail', l', Ring.congr hring₂ ?_ ?_, ?_⟩
    · intro x hx
      cases x with
      | none => simp [setHead, connectToBucketDllist, HashTable.chainNext, hidx]
      | some q =>
        have hq := (hmem₂ q).mp (by simpa using hx)
        have hqp : q ≠ p := fun heq => hp (heq ▸ hq.1)
        simp [setHead, connectToBucketDllist, HashTable.chainNext, hqp]
    · intro x hx
      cases x with
      | none => rfl
      | some q =>
        have hq := (hmem₂ q).mp (by simpa using hx)
        have hqp : q ≠ p := fun heq => hp (heq ▸ hq.1)
        cases hfirst : ht.arBuckets (ht.h p &&& ht.nTableMask) with
        | none =>
          simp [setHead, connectToBucketDllist, HashTable.chainLast, hqp, hfirst]
        | some first =>
          -- The former head sits in another chain than `q`.
          have hfirstmem : first ∈ l :=
            mem_of_head? (hhead.symm.trans hfirst)
          have hqfirst : q ≠ first := by
            rintro rfl
            exact hidx (hq.2.symm.trans ((hmem q).mp hfirstmem).2)
          simp [setHead, connectToBucketDllist, HashTable.chainLast, hqp, hfirst, hqfirst]
    · intro q
      rw [hmem₂ q]
      simp only [mem_append, mem_cons, not_mem_nil, or_false]
      constructor
      · rintro ⟨hq, hqi⟩
        exact ⟨.inl hq, hqi⟩
      · rintro ⟨hq | rfl, hqi⟩
        · exact ⟨hq, hqi⟩
        · exact absurd hqi.symm hidx

end Links

section Rehash

variable {intern : Nat → KeyBytes} {ht : HashTable δ} {order : List Addr}

/-- Only the bucket array and the chain links differ. -/
def SameButChains (ht ht' : HashTable δ) : Prop :=
  ht' = { ht with
    arBuckets := ht'.arBuckets
    pNext := ht'.pNext
    pLast := ht'.pLast }

theorem SameButChains.trans {ht ht' ht'' : HashTable δ}
    (h : SameButChains ht ht') (h' : SameButChains ht' ht'') : SameButChains ht ht'' := by
  rw [SameButChains] at h h' ⊢
  rw [h'] at ⊢
  rw [h]

theorem HashCore.sameButChains (hcore : HashCore intern ht order)
    {ht' : HashTable δ} (hsame : SameButChains ht ht') : HashCore intern ht' order := by
  rw [hsame]
  exact ⟨hcore.size, hcore.mask, hcore.uninitialized, hcore.list, hcore.count,
    hcore.internalPointer, hcore.keys, hcore.bucket, hcore.allocated,
    hcore.applyCount⟩

theorem TableShape.sameButChains (hshape : TableShape ht order)
    {ht' : HashTable δ} (hsame : SameButChains ht ht') : TableShape ht' order := by
  rw [hsame]
  exact ⟨hshape.size, hshape.mask, hshape.uninitialized, hshape.list,
    hshape.count, hshape.internalPointer, hshape.allocated, hshape.applyCount⟩

theorem pushChain_sameButChains (ht : HashTable δ) (p : Addr) (i : Nat) :
    SameButChains ht (setHead (connectToBucketDllist ht p i) i (some p)) :=
  rfl

/-- The rehash loop from a list position on: the buckets before it are in
their chains already, the others follow one by one. -/
theorem rehashLoop_eq (ht : HashTable δ) (done todo : List Addr) (fuel : Nat)
    (hlist : ListInv ht (done ++ todo)) (hfuel : todo.length < fuel)
    (hchain : ∀ i ≤ ht.nTableMask, ChainInv ht done i) :
    ∃ ht', rehashLoop fuel ht todo.head? = some ht' ∧ SameButChains ht ht' ∧
      ∀ i ≤ ht.nTableMask, ChainInv ht' (done ++ todo) i := by
  induction todo generalizing ht done fuel with
  | nil =>
    obtain ⟨n, rfl, -⟩ := exists_succ_of_lt hfuel
    exact ⟨ht, rfl, rfl, by simpa using hchain⟩
  | cons p rest ih =>
    obtain ⟨n, rfl, -⟩ := exists_succ_of_lt hfuel
    have hp : p ∉ done := by
      have hnodup := hlist.nodup
      grind
    have hpush := ChainInv.push hp hchain
    have hsame := pushChain_sameButChains ht p (ht.h p &&& ht.nTableMask)
    generalize hht' : setHead (connectToBucketDllist ht p (ht.h p &&& ht.nTableMask))
      (ht.h p &&& ht.nTableMask) (some p) = ht' at hpush hsame
    have hmask : ht'.nTableMask = ht.nTableMask := by rw [hsame]
    have hlist' : ListInv ht' ((done ++ [p]) ++ rest) := by
      rw [hsame, append_assoc]
      exact hlist
    have hnext : ht'.pListNext p = rest.head? := by
      rw [hsame]
      exact hlist.next
    obtain ⟨ht'', hrun, hsame', hchain'⟩ :=
      ih ht' (done ++ [p]) n hlist' (by simp only [length_cons] at hfuel; omega)
        (by rw [hmask]; exact hpush)
    refine ⟨ht'', ?_, hsame.trans hsame', ?_⟩
    · change rehashLoop n _ (HashTable.pListNext _ p) = _
      rw [hht', hnext, hrun]
    · rw [hmask] at hchain'
      simpa using hchain'

theorem chainInv_nil {ht : HashTable δ} {i : Nat} (h : ht.arBuckets i = none) : ChainInv ht [] i :=
  ⟨none, [], Ring.nil_iff.mpr ⟨h, rfl⟩, by simp⟩

/-- Rebuilding the chains from the global list makes the shape whole. -/
theorem TableShape.rehash (hshape : TableShape ht order) (hcount : ht.nNumOfElements ≠ 0) :
    ∃ ht', zendHashRehash ht = some ht' ∧ SameButChains ht ht' ∧ HashShape ht' order := by
  have hlen : order.length < ht.brk + 1 :=
    Nat.lt_succ_of_le (length_le_of_nodup_lt hshape.list.nodup hshape.allocated)
  obtain ⟨ht', hrun, hsame, hchain⟩ :=
    rehashLoop_eq { ht with arBuckets := fun _ => none } [] order
      (ht.brk + 1) hshape.list hlen fun i _ => chainInv_nil rfl
  have hsame' : SameButChains ht ht' := hsame
  refine ⟨ht', ?_, hsame', ?_⟩
  · rw [← hshape.list.head] at hrun
    rw [zendHashRehash, if_neg hcount]
    exact hrun
  · refine ⟨hshape.sameButChains hsame', ?_⟩
    have hmask : ht'.nTableMask = ht.nTableMask := by rw [hsame']
    rw [hmask]
    exact hchain

theorem HashCore.rehash (hcore : HashCore intern ht order) (hcount : ht.nNumOfElements ≠ 0) :
    ∃ ht', zendHashRehash ht = some ht' ∧ SameButChains ht ht' ∧ HashInv intern ht' order := by
  obtain ⟨ht', hrun, hsame, hshape⟩ := hcore.shape.rehash hcount
  have hcore' := hcore.sameButChains hsame
  exact ⟨ht', hrun, hsame, hshape.inv hcore'.keys hcore'.bucket⟩

theorem HashInv.rehash (hinv : HashInv intern ht order) :
    ∃ ht', zendHashRehash ht = some ht' ∧ SameButChains ht ht' ∧ HashInv intern ht' order := by
  by_cases hcount : ht.nNumOfElements = 0
  · exact ⟨ht, by rw [zendHashRehash, if_pos hcount], rfl, hinv⟩
  · exact hinv.toHashCore.rehash hcount

/-- Only the table geometry and the chains differ. -/
def SameButGeometry (ht ht' : HashTable δ) : Prop :=
  ht' = { ht with
    nTableSize := ht'.nTableSize
    nTableMask := ht'.nTableMask
    arBuckets := ht'.arBuckets
    pNext := ht'.pNext
    pLast := ht'.pLast }

/-- A table that doubles its size has its chains rebuilt. -/
theorem TableShape.doubled (hshape : TableShape ht order)
    (hcount : ht.nNumOfElements ≠ 0) {k : Nat} (hk : 3 ≤ k) (hk' : k < 31) :
    ∃ ht', zendHashRehash { ht with
          nTableSize := 2 ^ (k + 1), nTableMask := 2 ^ (k + 1) - 1 } = some ht' ∧
      SameButGeometry ht ht' ∧ HashShape ht' order ∧
      ht'.nTableSize = 2 ^ (k + 1) := by
  have hbig : 8 ≤ 2 ^ (k + 1) :=
    Nat.pow_le_pow_right (show 0 < 2 by decide) (show 3 ≤ k + 1 by omega)
  have hdoubled : TableShape { ht with nTableSize := 2 ^ (k + 1), nTableMask := 2 ^ (k + 1) - 1 }
      order :=
    { size := ⟨k + 1, by omega, by omega, rfl⟩
      mask := .inr rfl
      uninitialized := fun h => absurd h (by
        change 2 ^ (k + 1) - 1 ≠ 0
        omega)
      list := hshape.list
      count := hshape.count
      internalPointer := hshape.internalPointer
      allocated := hshape.allocated
      applyCount := hshape.applyCount }
  obtain ⟨ht', hrun, hsame, hshape'⟩ := hdoubled.rehash hcount
  refine ⟨ht', hrun, ?_, hshape', ?_⟩
  · rw [SameButGeometry]
    rw [hsame]
  · rw [hsame]

/-- What `ZEND_HASH_IF_FULL_DO_RESIZE` does: a full table doubles its size,
unless that would overflow. -/
theorem TableShape.ifFullDoResize_cases (hshape : TableShape ht order) :
    (zendHashIfFullDoResize ht = some ht ∧
        (ht.nNumOfElements ≤ ht.nTableSize ∨ ht.nTableSize = 2 ^ 31)) ∨
      ∃ ht', zendHashIfFullDoResize ht = some ht' ∧ SameButGeometry ht ht' ∧
        HashShape ht' order ∧ ht'.nTableSize = 2 * ht.nTableSize := by
  rw [zendHashIfFullDoResize]
  by_cases hfull : ht.nTableSize < ht.nNumOfElements
  · rw [if_pos hfull, zendHashDoResize]
    obtain ⟨k, hk3, hk31, hsize⟩ := hshape.size
    by_cases hk : k = 31
    · have hdouble : ¬0 < ht.nTableSize <<< 1 % uintMod := by
        rw [hsize, hk]
        decide
      rw [if_neg hdouble]
      exact .inl ⟨rfl, .inr (hk ▸ hsize)⟩
    · have hdoubled : ht.nTableSize <<< 1 % uintMod = 2 ^ (k + 1) := by
        rw [hsize, Nat.shiftLeft_eq, ← pow_succ]
        exact Nat.mod_eq_of_lt (Nat.pow_lt_pow_right (by decide) (by omega))
      obtain ⟨ht', hrun, hsame, hshape', hsize'⟩ :=
        hshape.doubled (by omega) hk3 (by omega)
      refine .inr ⟨ht', ?_, hsame, hshape', ?_⟩
      · rw [hdoubled, if_pos (Nat.two_pow_pos _)]
        exact hrun
      · rw [hsize', hsize, pow_succ, mul_comm]
  · rw [if_neg hfull]
    exact .inl ⟨rfl, .inl (Nat.le_of_not_lt hfull)⟩

end Rehash

section Insert

variable {intern : Nat → KeyBytes} {ht : HashTable δ} {order : List Addr}

theorem HashShape.checkInit (hshape : HashShape ht order) :
    HashShape (checkInit ht) order ∧ (PhpEngine.checkInit ht).nTableMask ≠ 0 ∧
      SameButGeometry ht (PhpEngine.checkInit ht) := by
  obtain ⟨k, hk3, hk31, hsize⟩ := hshape.size
  have hbig : 8 ≤ ht.nTableSize := by
    rw [hsize]
    exact Nat.pow_le_pow_right (show 0 < 2 by decide) hk3
  rw [PhpEngine.checkInit]
  by_cases hmask : ht.nTableMask = 0
  · rw [if_pos hmask]
    have hempty := hshape.uninitialized hmask
    subst hempty
    refine ⟨⟨?_, ?_⟩, ?_, rfl⟩
    · exact
        { size := hshape.size
          mask := .inr rfl
          uninitialized := fun _ => rfl
          list := hshape.list
          count := hshape.count
          internalPointer := hshape.internalPointer
          allocated := hshape.allocated
          applyCount := hshape.applyCount }
    · intro i _
      exact chainInv_nil rfl
    · change ht.nTableSize - 1 ≠ 0
      omega
  · rw [if_neg hmask]
    exact ⟨hshape, hmask, rfl⟩

theorem SameButGeometry.inv {ht' : HashTable δ} (hinv : HashInv intern ht order)
    (hsame : SameButGeometry ht ht') (hshape : HashShape ht' order) : HashInv intern ht' order := by
  apply hshape.inv
  · rw [hsame]
    exact hinv.keys
  · rw [hsame]
    exact hinv.bucket

theorem HashInv.checkInit (hinv : HashInv intern ht order) :
    HashInv intern (checkInit ht) order ∧ (PhpEngine.checkInit ht).nTableMask ≠ 0 ∧
      SameButGeometry ht (PhpEngine.checkInit ht) := by
  obtain ⟨hshape, hmask, hsame⟩ := hinv.hashShape.checkInit
  exact ⟨hsame.inv hinv hshape, hmask, hsame⟩

/-- The fields that insertion of a bucket leaves alone, links and geometry
aside. -/
structure SameContents (ht ht' : HashTable δ) : Prop where
  nNextFreeElement : ht'.nNextFreeElement = ht.nNextFreeElement
  h : ht'.h = ht.h
  nKeyLength : ht'.nKeyLength = ht.nKeyLength
  arKey : ht'.arKey = ht.arKey
  keyStore : ht'.keyStore = ht.keyStore
  pData : ht'.pData = ht.pData

theorem SameContents.sameBucket {ht ht' : HashTable δ}
    (h : SameContents ht ht') (p : Addr) : SameBucket ht ht' p :=
  ⟨congrFun h.h p, congrFun h.nKeyLength p, congrFun h.arKey p, congrFun h.keyStore p⟩

/-- Linking a fresh bucket appends it to the lists.  The table grows when it is
full. -/
theorem HashShape.linkBucket (hshape : HashShape ht order)
    (hmask : ht.nTableMask ≠ 0) {p : Addr} (hp : p ∉ order) (hbrk : p < ht.brk) :
    ∃ ht', linkBucket ht p (ht.h p &&& ht.nTableMask) = some ht' ∧
      HashShape ht' (order ++ [p]) ∧ SameContents ht ht' ∧
      ht'.pInternalPointer = (ht.pInternalPointer <|> some p) ∧
      ht'.bApplyProtection = ht.bApplyProtection ∧ ht'.brk = ht.brk ∧
      (ht'.nTableSize = 2 * ht.nTableSize ∨ ht'.nTableSize = ht.nTableSize ∧
        ((order.length + 1) % uintMod ≤ ht.nTableSize ∨ ht.nTableSize = 2 ^ 31)) := by
  have htail : ht.pListTail = order.getLast? := hshape.list.tail
  have hlist : ListInv (connectToGlobalDllistEx ht p order.getLast? none) (order ++ [p]) := by
    have hend : ListInv ht (order ++ []) := by simpa using hshape.list
    exact hend.connect (by simpa using hp)
  have hchain := ChainInv.push hp hshape.chain
  generalize hlinked : ({ setHead (connectToGlobalDllist
      (connectToBucketDllist ht p (ht.h p &&& ht.nTableMask)) p)
      (ht.h p &&& ht.nTableMask) (some p) with
      nNumOfElements := (ht.nNumOfElements + 1) % uintMod } : HashTable δ) =
    linked
  have hcount : linked.nNumOfElements = (order.length + 1) % uintMod := by
    subst hlinked
    rw [hshape.count, Nat.mod_add_mod]
  have hshape' : HashShape linked (order ++ [p]) := by
    subst hlinked
    refine ⟨?_, ?_⟩
    · refine
        { size := hshape.size
          mask := hshape.mask
          uninitialized := fun h => absurd h hmask
          list := ?_
          count := ?_
          internalPointer := ?_
          allocated := ?_
          applyCount := hshape.applyCount }
      · rw [← htail] at hlist
        exact hlist.congr rfl rfl (fun _ _ => rfl) fun _ _ => rfl
      · rw [hcount, length_append, length_singleton]
      · intro q hq
        change (ht.pInternalPointer <|> some p) = some q at hq
        cases hcur : ht.pInternalPointer with
        | none =>
          have hqp : p = q := by simpa [hcur] using hq
          simp [hqp]
        | some cur =>
          have hqcur : cur = q := by simpa [hcur] using hq
          exact mem_append_left [p] (hshape.internalPointer q (by rw [hcur, hqcur]))
      · intro q hq
        rcases mem_append.mp hq with hq | hq
        · exact hshape.allocated q hq
        · have hqp : q = p := by simpa using hq
          rw [hqp]
          exact hbrk
    · intro i hi
      exact (hchain i hi).congr rfl rfl (fun _ _ => rfl) (fun _ _ => rfl) fun _ _ => rfl
  have hsize : linked.nTableSize = ht.nTableSize := by
    subst hlinked
    rfl
  rcases hshape'.ifFullDoResize_cases with
    ⟨hrun, hfull⟩ | ⟨ht', hrun, hsame, hfinal, hdouble⟩
  · rw [hcount, hsize] at hfull
    subst hlinked
    exact ⟨_, hrun, hshape', ⟨rfl, rfl, rfl, rfl, rfl, rfl⟩, rfl, rfl, rfl, .inr ⟨rfl, hfull⟩⟩
  · rw [hsize] at hdouble
    subst hlinked
    refine ⟨ht', hrun, hfinal, ?_, ?_, ?_, ?_, .inl hdouble⟩
    · constructor <;> rw [hsame] <;> rfl
    all_goals rw [hsame]; rfl

theorem HashInv.linkBucket (hinv : HashInv intern ht order)
    (hmask : ht.nTableMask ≠ 0) {p : Addr} (hp : p ∉ order)
    (hbrk : p < ht.brk) (hok : BucketOk intern ht p)
    (hkey : ∀ q ∈ order, bucketKey intern ht q ≠ bucketKey intern ht p) :
    ∃ ht', linkBucket ht p (ht.h p &&& ht.nTableMask) = some ht' ∧
      HashInv intern ht' (order ++ [p]) ∧ SameContents ht ht' ∧
      ht'.pInternalPointer = (ht.pInternalPointer <|> some p) ∧
      ht'.bApplyProtection = ht.bApplyProtection := by
  obtain ⟨ht', hrun, hshape, hsame, hcur, hprotection, -, -⟩ :=
    hinv.hashShape.linkBucket hmask hp hbrk
  refine ⟨ht', hrun, ?_, hsame, hcur, hprotection⟩
  apply hshape.inv
  · rw [SameBucket.map_bucketKey fun q _ => hsame.sameBucket q, map_append, nodup_append]
    refine ⟨hinv.keys, by simp, ?_⟩
    intro key hkeymem key' hkey'
    obtain ⟨q, hq, rfl⟩ := List.mem_map.mp hkeymem
    have hlast : key' = bucketKey intern ht p := by simpa using hkey'
    rw [hlast]
    exact hkey q hq
  · intro q hq
    apply (hsame.sameBucket q).bucketOk
    rcases mem_append.mp hq with hq | hq
    · exact hinv.bucket q hq
    · rw [mem_singleton.mp hq]
      exact hok

end Insert

end PhpEngine

/-
Whole runs of hash table operations.  Every operation answers something; a run
over a family of tables yields the final tables and the answers, and both are
compared with the same run over insertion-ordered association lists.
-/
import PhpEngine.HashLoops

namespace PhpEngine

open List Function

variable {δ : Type}

/-- A string key that a caller may pass: `ZEND_ASSERT(nKeyLength != 0)`. -/
abbrev StringKey (intern : Nat → KeyBytes) :=
  { key : KeyArg // key.read intern ≠ [] }

/-- The operations on one table. -/
inductive TableOp (intern : Nat → KeyBytes) (δ : Type) where
  | init (nSize : UInt32)
  | addOrUpdate (key : StringKey intern) (data : δ) (flag : HashFlag)
  | quickAddOrUpdate (key : StringKey intern) (data : δ) (flag : HashFlag)
  | indexUpdate (h : UInt64) (data : δ)
  | nextIndexInsert (data : δ)
  | del (key : StringKey intern)
  | quickDel (key : StringKey intern)
  | indexDel (h : UInt64)
  | apply (applyFunc : Nat → δ → ApplyResult)
  | rehash
  | clean
  | internalPointerReset
  | internalPointerEnd
  | moveForward
  | moveBackwards
  | find (key : StringKey intern)
  | quickFind (key : StringKey intern)
  | exists (key : StringKey intern)
  | quickExists (key : StringKey intern)
  | indexFind (h : UInt64)
  | indexExists (h : UInt64)
  | numElements
  | currentKey
  | currentData
  | iterate

/-- What an operation reports to its caller. -/
inductive TableAnswer (δ : Type) where
  | done
  | result (result : ZendResult)
  | data (data : Option δ)
  | flag (present : Bool)
  | count (n : Int)
  | key (key : Option HashKey)
  | entries (entries : List (HashKey × δ))

section Exec

variable [Inhabited δ] {intern : Nat → KeyBytes}

def StringKey.hash (key : StringKey intern) : Nat :=
  zendHashFunc (key.1.read intern)

def StringKey.toHashKey (key : StringKey intern) : HashKey :=
  .string (key.1.read intern)

def storeAnswer (out : HashTable δ × ZendResult × Option Addr) : HashTable δ × TableAnswer δ :=
  (out.1, .result out.2.1)

def delAnswer (out : HashTable δ × ZendResult) : HashTable δ × TableAnswer δ :=
  (out.1, .result out.2)

/-- One operation on a table. -/
def TableOp.exec (ht : HashTable δ) : TableOp intern δ → Option (HashTable δ × TableAnswer δ)
  | .init nSize => some (zendHashInit nSize.toNat, .done)
  | .addOrUpdate key data flag =>
    (zendHashAddOrUpdate intern ht key.1 data flag).map storeAnswer
  | .quickAddOrUpdate key data flag =>
    (zendHashQuickAddOrUpdate intern ht key.1 key.hash data flag).map storeAnswer
  | .indexUpdate h data =>
    (zendHashIndexUpdateOrNextInsert ht h.toNat data .update).map storeAnswer
  | .nextIndexInsert data =>
    (zendHashIndexUpdateOrNextInsert ht 0 data .nextInsert).map storeAnswer
  | .del key => (zendHashDelKeyOrIndex intern ht (.key key.1)).map delAnswer
  | .quickDel key =>
    (zendHashDelKeyOrIndex intern ht (.quick key.1 key.hash)).map delAnswer
  | .indexDel h =>
    (zendHashDelKeyOrIndex intern ht (.index h.toNat)).map delAnswer
  | .apply applyFunc => (zendHashApply ht applyFunc).map (·, .done)
  | .rehash => (zendHashRehash ht).map (·, .done)
  | .clean => some (zendHashClean ht, .done)
  | .internalPointerReset => some (zendHashInternalPointerReset ht, .done)
  | .internalPointerEnd => some (zendHashInternalPointerEnd ht, .done)
  | .moveForward => some (delAnswer (zendHashMoveForward ht))
  | .moveBackwards => some (delAnswer (zendHashMoveBackwards ht))
  | .find key => (zendHashFind intern ht key.1).map fun d => (ht, .data d)
  | .quickFind key =>
    (zendHashQuickFind intern ht key.1 key.hash).map fun d => (ht, .data d)
  | .exists key => (zendHashExists intern ht key.1).map fun b => (ht, .flag b)
  | .quickExists key =>
    (zendHashQuickExists intern ht key.1 key.hash).map fun b => (ht, .flag b)
  | .indexFind h => (zendHashIndexFind ht h.toNat).map fun d => (ht, .data d)
  | .indexExists h =>
    (zendHashIndexExists ht h.toNat).map fun b => (ht, .flag b)
  | .numElements => some (ht, .count (zendHashNumElements ht))
  | .currentKey =>
    some (ht, .key (zendHashGetCurrentKey intern ht ht.pInternalPointer))
  | .currentData =>
    some (ht, .data (zendHashGetCurrentData ht ht.pInternalPointer))
  | .iterate => (zendHashIterate intern ht).map fun l => (ht, .entries l)

end Exec

section Spec

variable {intern : Nat → KeyBytes}

def mapAnswer (out : OrderedMap δ × ZendResult) : OrderedMap δ × TableAnswer δ :=
  (out.1, .result out.2)

/-- The answer to a pointer move. -/
def OrderedMap.moveTo (m : OrderedMap δ) (cur : Option HashKey) : OrderedMap δ × TableAnswer δ :=
  ({ m with cur := cur }, .result (if m.cur.isSome then .success else .failure))

/-- The same operation on an association list.  The number of elements is
reported through a `uint` that is read back as an `int`. -/
def TableOp.spec (m : OrderedMap δ) : TableOp intern δ → OrderedMap δ × TableAnswer δ
  | .init _ => (.empty, .done)
  | .addOrUpdate key data flag | .quickAddOrUpdate key data flag =>
    mapAnswer (m.addOrUpdate key.toHashKey data (decide (flag = .add)))
  | .indexUpdate h data =>
    mapAnswer (m.addOrUpdate (.long h.toNat) data false)
  | .nextIndexInsert data =>
    mapAnswer (m.addOrUpdate (.long m.nextFree) data true)
  | .del key | .quickDel key => mapAnswer (m.delete key.toHashKey)
  | .indexDel h => mapAnswer (m.delete (.long h.toNat))
  | .apply applyFunc => (m.applyFrom applyFunc 0 m.items, .done)
  | .rehash => (m, .done)
  | .clean => (.empty, .done)
  | .internalPointerReset => ({ m with cur := m.keys.head? }, .done)
  | .internalPointerEnd => ({ m with cur := m.keys.getLast? }, .done)
  | .moveForward => m.moveTo (m.cur.bind m.successor)
  | .moveBackwards => m.moveTo (m.cur.bind m.predecessor)
  | .find key | .quickFind key => (m, .data (m.find key.toHashKey))
  | .exists key | .quickExists key =>
    (m, .flag (m.find key.toHashKey).isSome)
  | .indexFind h => (m, .data (m.find (.long h.toNat)))
  | .indexExists h => (m, .flag (m.find (.long h.toNat)).isSome)
  | .numElements => (m, .count (toInt (m.items.length % uintMod)))
  | .currentKey => (m, .key m.cur)
  | .currentData => (m, .data (m.cur.bind m.find))
  | .iterate => (m, .entries m.items)

end Spec

/-- The operations of a run, each on tables named by a number. -/
inductive HashOp (intern : Nat → KeyBytes) (δ : Type) where
  | table (t : Nat) (op : TableOp intern δ)
  | copy (target source : Nat) (pCopyConstructor : δ → δ)
  | merge (target source : Nat) (pCopyConstructor : δ → δ) (overwrite : Bool)

section Run

variable [Inhabited δ] {intern : Nat → KeyBytes}

/-- One operation of a run.  A round of a copy only writes to the bucket of
the key it reads, so a table may also be copied onto itself. -/
def HashOp.exec (tables : Nat → HashTable δ) :
    HashOp intern δ → Option ((Nat → HashTable δ) × TableAnswer δ)
  | .table t op =>
    (op.exec (tables t)).map fun out =>
      (update tables t out.1, out.2)
  | .copy target source pCopyConstructor =>
    (zendHashCopy intern (tables target) (tables source) pCopyConstructor).map fun ht =>
        (update tables target ht, .done)
  | .merge target source pCopyConstructor overwrite =>
    (zendHashMerge intern (tables target) (tables source) pCopyConstructor overwrite).map fun ht =>
        (update tables target ht, .done)

def HashOp.spec (maps : Nat → OrderedMap δ) : HashOp intern δ → (Nat → OrderedMap δ) × TableAnswer δ
  | .table t op =>
    let out := op.spec (maps t)
    (update maps t out.1, out.2)
  | .copy target source pCopyConstructor =>
    (update maps target ((maps target).copy (maps source) pCopyConstructor), .done)
  | .merge target source pCopyConstructor overwrite =>
    (update maps target ((maps target).merge (maps source) pCopyConstructor overwrite), .done)

/-- A run: the tables at its end and the answers in order. -/
def hashRun : List (HashOp intern δ) → (Nat → HashTable δ) →
    Option ((Nat → HashTable δ) × List (TableAnswer δ))
  | [], tables => some (tables, [])
  | op :: ops, tables => do
      let out ← op.exec tables
      let rest ← hashRun ops out.1
      return (rest.1, out.2 :: rest.2)

def mapRun : List (HashOp intern δ) → (Nat → OrderedMap δ) →
    (Nat → OrderedMap δ) × List (TableAnswer δ)
  | [], maps => (maps, [])
  | op :: ops, maps =>
    let out := op.spec maps
    let rest := mapRun ops out.1
    (rest.1, out.2 :: rest.2)

end Run

section Init

variable (intern : Nat → KeyBytes)

theorem initTableSize_eq (nSize : Nat) : ∃ k, 3 ≤ k ∧ k ≤ 31 ∧ initTableSize nSize = 2 ^ k := by
  rw [initTableSize]
  split
  · exact ⟨31, by decide, by decide, rfl⟩
  · split
    next i hi =>
      have hlt := mem_range.mp (mem_of_find?_eq_some hi)
      exact ⟨i + 3, by omega, by omega, rfl⟩
    next => exact ⟨31, by decide, by decide, rfl⟩

/-- A table without buckets is well formed once its chains and its list are
empty. -/
theorem representsAt_empty {ht : HashTable δ} (hsize : ∃ k, 3 ≤ k ∧ k ≤ 31 ∧ ht.nTableSize = 2 ^ k)
    (hmask : ht.nTableMask = 0 ∨ ht.nTableMask = ht.nTableSize - 1)
    (hhead : ht.pListHead = none) (htail : ht.pListTail = none)
    (hcount : ht.nNumOfElements = 0) (hptr : ht.pInternalPointer = none)
    (hfree : ht.nNextFreeElement = 0) (happly : ht.nApplyCount = 0)
    (hchain : ∀ i ≤ ht.nTableMask, ht.arBuckets i = none) : RepresentsAt intern ht .empty [] := by
  refine ⟨⟨?_, ?_⟩, rfl, by rw [hptr]; rfl, hfree.symm⟩
  · exact
      { size := hsize
        mask := hmask
        uninitialized := fun _ => rfl
        list := Ring.nil_iff.mpr ⟨hhead, htail⟩
        count := by rw [hcount]; rfl
        internalPointer := by simp [hptr]
        keys := by simp
        bucket := by simp
        allocated := by simp
        applyCount := happly }
  · intro i hi
    exact ⟨none, [], Ring.nil_iff.mpr ⟨hchain i hi, rfl⟩, by simp⟩

theorem zendHashInit_represents [Inhabited δ] (nSize : Nat) :
    RepresentsAt intern (zendHashInit nSize : HashTable δ) .empty [] :=
  representsAt_empty intern (initTableSize_eq nSize) (Or.inl rfl) rfl rfl rfl
    rfl rfl rfl fun _ _ => rfl

end Init

section Refinement

variable {intern : Nat → KeyBytes} {ht : HashTable δ} {m : OrderedMap δ} {order : List Addr}

theorem HashShape.clean_arBuckets (h : HashShape ht order) {i : Nat}
    (hi : i ≤ ht.nTableMask) : (zendHashClean ht).arBuckets i = none := by
  change (if ht.nTableMask = 0 then ht.arBuckets else fun _ => none) i = none
  split
  next hmask =>
    -- An uninitialised table has no buckets, so its only chain is empty.
    obtain ⟨tail, l, hring, hmem⟩ := h.chain i hi
    have hl : l = [] := by
      rw [eq_nil_iff_forall_not_mem]
      intro p hp
      simpa [h.uninitialized hmask] using ((hmem p).mp hp).1
    rw [hl] at hring
    exact hring.nxt_sentinel
  next => rfl

section

variable (h : RepresentsAt intern ht m order)
include h

theorem zendHashClean_represents :
    RepresentsAt intern (zendHashClean ht) .empty [] :=
  representsAt_empty intern h.inv.size h.inv.mask rfl rfl rfl rfl rfl
    h.inv.applyCount fun _ hi => h.inv.hashShape.clean_arBuckets hi

theorem zendHashRehash_represents :
    ∃ ht', zendHashRehash ht = some ht' ∧ RepresentsAt intern ht' m order := by
  obtain ⟨ht', hrun, hsame, hinv⟩ := h.inv.rehash
  refine ⟨ht', hrun, hinv, ?_, ?_, ?_⟩
  · rw [hsame]
    exact h.items
  · rw [hsame]
    exact h.cur
  · rw [hsame]
    exact h.nextFree

/-- Both searches by a string key answer as the association list does. -/
theorem StringKey.find_eq (key : StringKey intern) :
    zendHashQuickFind intern ht key.1 key.hash = some (m.find key.toHashKey) := by
  rw [zendHashQuickFind, StringKey.hash, h.inv.findKey_eq key.2]
  exact congrArg some (h.find_eq _)

theorem StringKey.exists_eq (key : StringKey intern) :
    zendHashQuickExists intern ht key.1 key.hash = some (m.find key.toHashKey).isSome := by
  rw [zendHashQuickExists, StringKey.hash, h.inv.findKey_eq key.2]
  exact congrArg some (h.isSome_eq _)

theorem zendHashNumElements_eq :
    zendHashNumElements ht = toInt (m.items.length % uintMod) := by
  rw [zendHashNumElements, h.inv.count, h.items, length_map]

end

/-- The outcome of a storing function is what a caller sees of it. -/
theorem Stored.answer {key : HashKey} {out : HashTable δ × ZendResult × Option Addr}
    {expected : OrderedMap δ × ZendResult} (h : Stored intern key out expected) :
    Represents intern (storeAnswer out).1 (mapAnswer expected).1 ∧
      (storeAnswer out).2 = (mapAnswer expected).2 := by
  obtain ⟨hresult, order, hrep, _⟩ := h
  exact ⟨⟨order, hrep⟩, congrArg TableAnswer.result hresult⟩

/-- One operation on a table does to it, and answers, what the same operation
does to the association list. -/
theorem TableOp.exec_refines [Inhabited δ] (h : Represents intern ht m) (op : TableOp intern δ) :
    ∃ out, op.exec ht = some out ∧ Represents intern out.1 (op.spec m).1 ∧
      out.2 = (op.spec m).2 := by
  have hrep := h
  obtain ⟨order, h⟩ := h
  cases op with
  | init nSize =>
    exact ⟨_, rfl, ⟨[], zendHashInit_represents intern nSize.toNat⟩, rfl⟩
  | addOrUpdate key data flag =>
    obtain ⟨out, hrun, hstored⟩ :=
      zendHashQuickAddOrUpdate_refines h key.2 data flag
    exact ⟨storeAnswer out, by rw [exec, zendHashAddOrUpdate, hrun]; rfl, hstored.answer⟩
  | quickAddOrUpdate key data flag =>
    obtain ⟨out, hrun, hstored⟩ :=
      zendHashQuickAddOrUpdate_refines h key.2 data flag
    exact ⟨storeAnswer out, by rw [exec, StringKey.hash, hrun]; rfl, hstored.answer⟩
  | indexUpdate idx data =>
    obtain ⟨out, hrun, hstored⟩ :=
      zendHashIndexUpdateOrNextInsert_refines h idx.toNat data .update
    exact ⟨storeAnswer out, by rw [exec, hrun]; rfl, hstored.answer⟩
  | nextIndexInsert data =>
    obtain ⟨out, hrun, hstored⟩ :=
      zendHashIndexUpdateOrNextInsert_refines h 0 data .nextInsert
    exact ⟨storeAnswer out, by rw [exec, hrun]; rfl, hstored.answer⟩
  | del key =>
    obtain ⟨out, hrun, hresult, hout⟩ :=
      zendHashDelKeyOrIndex_refines h (.key key.1) key.2
    exact ⟨delAnswer out, by rw [exec, hrun]; rfl, hout, congrArg TableAnswer.result hresult⟩
  | quickDel key =>
    obtain ⟨out, hrun, hresult, hout⟩ :=
      zendHashDelKeyOrIndex_refines h (.quick key.1 key.hash) ⟨key.2, rfl⟩
    exact ⟨delAnswer out, by rw [exec, hrun]; rfl, hout, congrArg TableAnswer.result hresult⟩
  | indexDel idx =>
    obtain ⟨out, hrun, hresult, hout⟩ :=
      zendHashDelKeyOrIndex_refines h (.index idx.toNat) trivial
    exact ⟨delAnswer out, by rw [exec, hrun]; rfl, hout, congrArg TableAnswer.result hresult⟩
  | apply applyFunc =>
    obtain ⟨ht', hrun, hout⟩ := zendHashApply_refines hrep applyFunc
    exact ⟨(ht', .done), by rw [exec, hrun]; rfl, hout, rfl⟩
  | rehash =>
    obtain ⟨ht', hrun, hout⟩ := zendHashRehash_represents h
    exact ⟨(ht', .done), by rw [exec, hrun]; rfl, ⟨order, hout⟩, rfl⟩
  | clean => exact ⟨_, rfl, ⟨[], zendHashClean_represents h⟩, rfl⟩
  | internalPointerReset => exact ⟨_, rfl, ⟨order, h.reset⟩, rfl⟩
  | internalPointerEnd => exact ⟨_, rfl, ⟨order, h.toEnd⟩, rfl⟩
  | moveForward =>
    obtain ⟨hresult, hout⟩ := zendHashMoveForward_refines h
    exact ⟨_, rfl, ⟨order, hout⟩, congrArg TableAnswer.result hresult⟩
  | moveBackwards =>
    obtain ⟨hresult, hout⟩ := zendHashMoveBackwards_refines h
    exact ⟨_, rfl, ⟨order, hout⟩, congrArg TableAnswer.result hresult⟩
  | find key | quickFind key =>
    have hfind := key.find_eq h
    refine ⟨(ht, .data (m.find key.toHashKey)), ?_, hrep, rfl⟩
    simp only [exec, zendHashFind]
    exact congrArg (Option.map _) hfind
  | «exists» key | quickExists key =>
    have hfind := key.exists_eq h
    refine ⟨(ht, .flag (m.find key.toHashKey).isSome), ?_, hrep, rfl⟩
    simp only [exec, zendHashExists]
    exact congrArg (Option.map _) hfind
  | indexFind idx =>
    refine ⟨(ht, .data (m.find (.long idx.toNat))), ?_, hrep, rfl⟩
    rw [exec, zendHashIndexFind, h.inv.findIndex_eq, ← h.find_eq]
    rfl
  | indexExists idx =>
    refine ⟨(ht, .flag (m.find (.long idx.toNat)).isSome), ?_, hrep, rfl⟩
    rw [exec, zendHashIndexExists, h.inv.findIndex_eq, ← h.isSome_eq]
    rfl
  | numElements =>
    exact ⟨_, rfl, hrep, congrArg TableAnswer.count (zendHashNumElements_eq h)⟩
  | currentKey =>
    exact ⟨_, rfl, hrep, congrArg TableAnswer.key h.cur.symm⟩
  | currentData =>
    exact ⟨_, rfl, hrep, congrArg TableAnswer.data (currentData_eq h)⟩
  | iterate =>
    exact ⟨(ht, .entries m.items), by rw [exec, zendHashIterate_eq h]; rfl, hrep, rfl⟩

theorem represents_update {tables : Nat → HashTable δ}
    {maps : Nat → OrderedMap δ} (h : ∀ t, Represents intern (tables t) (maps t))
    (t : Nat) (hnew : Represents intern ht m) (s : Nat) :
    Represents intern (update tables t ht s) (update maps t m s) := by
  by_cases hs : s = t
  · subst hs
    rw [update_self, update_self]
    exact hnew
  · rw [update_of_ne hs, update_of_ne hs]
    exact h s

/-- The step lemma of a run. -/
theorem HashOp.exec_refines [Inhabited δ] {tables : Nat → HashTable δ}
    {maps : Nat → OrderedMap δ} (h : ∀ t, Represents intern (tables t) (maps t))
    (op : HashOp intern δ) : ∃ out, op.exec tables = some out ∧
      (∀ t, Represents intern (out.1 t) ((op.spec maps).1 t)) ∧ out.2 = (op.spec maps).2 := by
  cases op with
  | table t op =>
    obtain ⟨out, hrun, hrep, hanswer⟩ := op.exec_refines (h t)
    exact ⟨(update tables t out.1, out.2),
      by rw [exec, hrun]; rfl, represents_update h t hrep, hanswer⟩
  | copy target source pCopyConstructor =>
    obtain ⟨ht', hrun, hrep⟩ :=
      zendHashCopy_refines (h target) (h source) pCopyConstructor
    exact ⟨(update tables target ht', .done),
      by rw [exec, hrun]; rfl, represents_update h target hrep, rfl⟩
  | merge target source pCopyConstructor overwrite =>
    obtain ⟨ht', hrun, hrep⟩ := zendHashMerge_refines (h target) (h source)
      pCopyConstructor overwrite
    exact ⟨(update tables target ht', .done),
      by rw [exec, hrun]; rfl, represents_update h target hrep, rfl⟩

/-- The run lemma. -/
theorem hashRun_refines [Inhabited δ] (ops : List (HashOp intern δ))
    {tables : Nat → HashTable δ} {maps : Nat → OrderedMap δ}
    (h : ∀ t, Represents intern (tables t) (maps t)) : ∃ out, hashRun ops tables = some out ∧
      (∀ t, Represents intern (out.1 t) ((mapRun ops maps).1 t)) ∧ out.2 = (mapRun ops maps).2 := by
  induction ops generalizing tables maps with
  | nil => exact ⟨_, rfl, h, rfl⟩
  | cons op ops ih =>
    obtain ⟨out, hrun, hrep, hanswer⟩ := op.exec_refines h
    obtain ⟨rest, hrest, hreprest, hanswers⟩ := ih hrep
    refine ⟨(rest.1, out.2 :: rest.2), ?_, hreprest, ?_⟩
    · rw [hashRun, hrun]
      change (hashRun ops out.1 >>= _) = _
      rw [hrest]
      rfl
    · rw [hanswer, hanswers]
      rfl

/-- Whatever the operations are, the run goes through, every table is well
formed after it, and the tables and the answers are those of insertion-ordered
association lists.  The element count is kept modulo `2 ^ 32`. -/
theorem hashRun_wellFormed [Inhabited δ] (intern : Nat → KeyBytes)
    (sizes : Nat → UInt32) (ops : List (HashOp intern δ)) :
    ∃ (tables : Nat → HashTable δ) (answers : List (TableAnswer δ)),
      hashRun ops (fun t => zendHashInit (sizes t).toNat) = some (tables, answers) ∧
      answers = (mapRun ops fun _ => .empty).2 ∧ ∀ t, ∃ order, HashInv intern (tables t) order ∧
        (order.length < uintMod → (tables t).nNumOfElements = order.length) ∧
        order.map (bucketEntry intern (tables t)) = ((mapRun ops fun _ => .empty).1 t).items := by
  have hinit : ∀ t, Represents intern (zendHashInit (sizes t).toNat : HashTable δ) .empty :=
    fun t => ⟨[], zendHashInit_represents intern (sizes t).toNat⟩
  obtain ⟨⟨tables, answers⟩, hrun, hrep, hanswers⟩ := hashRun_refines ops hinit
  refine ⟨tables, answers, hrun, hanswers, ?_⟩
  intro t
  obtain ⟨order, h⟩ := hrep t
  refine ⟨order, h.inv, ?_, h.items.symm⟩
  intro hlt
  rw [h.inv.count, Nat.mod_eq_of_lt hlt]

end Refinement

/-! The count is a `uint`: it comes round after `2 ^ 32` insertions. -/

/-- Appending at the next free index adds one entry at a time, as long as the
indices last. -/
theorem mapRun_nextIndexInsert (intern : Nat → KeyBytes) [Inhabited δ]
    (data : δ) (n : Nat) (maps : Nat → OrderedMap δ)
    (hkeys : ∀ key ∈ (maps 0).keys, ∃ h, key = .long h ∧ h < (maps 0).nextFree)
    (hroom : (maps 0).nextFree + n ≤ longMax) : ((mapRun (List.replicate n (HashOp.table 0
      (TableOp.nextIndexInsert data : TableOp intern δ))) maps).1 0).items.length =
      (maps 0).items.length + n := by
  induction n generalizing maps with
  | zero => rfl
  | succ n ih =>
    generalize hm : maps 0 = m at hkeys hroom
    have hnew : HashKey.long m.nextFree ∉ m.keys := by
      intro hmem
      obtain ⟨h, heq, hlt⟩ := hkeys _ hmem
      rw [HashKey.long.injEq] at heq
      exact lt_irrefl h (heq ▸ hlt)
    have hnext : nextFreeAfter m.nextFree m.nextFree = m.nextFree + 1 := by
      rw [nextFreeAfter, if_pos (Int.le_refl _), if_pos (by omega)]
    have hstore : (m.addOrUpdate (.long m.nextFree) data true).1 =
        ⟨m.items ++ [(.long m.nextFree, data)],
          m.cur <|> some (.long m.nextFree), m.nextFree + 1⟩ := by
      rw [OrderedMap.addOrUpdate, if_neg (by simp [hnew]), OrderedMap.store,
        if_neg hnew, OrderedMap.nextFreeFor, hnext]
    rw [replicate_succ, mapRun]
    simp only [HashOp.spec, TableOp.spec, mapAnswer, hm, hstore]
    rw [ih]
    · simp only [update_self, length_append, length_singleton]
      omega
    · intro key hkey
      simp only [update_self, OrderedMap.keys, map_append, mem_append] at hkey ⊢
      rcases hkey with hold | hlast
      · obtain ⟨h, heq, hlt⟩ := hkeys key hold
        exact ⟨h, heq, Nat.lt_succ_of_lt hlt⟩
      · exact ⟨m.nextFree, by simpa using hlast, Nat.lt_succ_self _⟩
    · rw [update_self]
      change m.nextFree + 1 + n ≤ longMax
      omega

theorem nNumOfElements_wraps : ∃ (tables : Nat → HashTable Unit) (answers : List (TableAnswer Unit))
      (order : List Addr), hashRun (List.replicate (2 ^ 32) (HashOp.table 0
          (TableOp.nextIndexInsert () : TableOp (fun _ => []) Unit)))
        (fun _ => zendHashInit 8) = some (tables, answers) ∧
      ListInv (tables 0) order ∧ order.length = 2 ^ 32 ∧
      (tables 0).nNumOfElements = 0 ∧ zendHashNumElements (tables 0) = 0 := by
  have hinit : ∀ _ : Nat, Represents (fun _ => []) (zendHashInit 8 : HashTable Unit) .empty :=
    fun _ => ⟨[], zendHashInit_represents _ 8⟩
  obtain ⟨⟨tables, answers⟩, hrun, hrep, -⟩ := hashRun_refines
    (List.replicate (2 ^ 32) (HashOp.table 0 (TableOp.nextIndexInsert ()))) hinit
  obtain ⟨order, h⟩ := hrep 0
  have hlength : order.length = 2 ^ 32 := by
    have hitems := mapRun_nextIndexInsert (fun _ => []) () (2 ^ 32)
      (fun _ => .empty) (by simp [OrderedMap.empty, OrderedMap.keys])
      (by decide)
    rw [h.items, length_map] at hitems
    simpa [OrderedMap.empty] using hitems
  have hcount : (tables 0).nNumOfElements = 0 := by
    rw [h.inv.count, hlength]
    rfl
  refine ⟨tables, answers, order, hrun, h.inv.list, hlength, hcount, ?_⟩
  rw [zendHashNumElements, hcount]
  rfl

end PhpEngine

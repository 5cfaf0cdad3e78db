/-
The copy of an array.  `zval_copy_ctor` gives the copy a table of its own; the
buckets land in other chains of a table of another size, and every further
operation answers as it does on the original.
-/
import PhpEngine.HashRun

namespace PhpEngine

open List Option

variable {δ : Type} {intern : Nat → KeyBytes}

/-- The `IS_ARRAY` case of `_zval_copy_ctor_func`.  The global symbol table is
not copied; the elements of any other table are shared with the copy, so that
`zval_add_ref` changes no pointer. -/
def zvalCopyCtorArray [Inhabited δ] (intern : Nat → KeyBytes) (isSymbolTable : Bool)
    (originalHt : HashTable δ) : Option (HashTable δ) := do
  if isSymbolTable then return originalHt
  let nSize := (zendHashNumElements originalHt % uintMod).toNat
  let tmpHt ← zendHashCopy intern (zendHashInit nSize) originalHt id
  return { tmpHt with nNextFreeElement := originalHt.nNextFreeElement }

/-! The recursion counter.  Only `zend_hash_apply` reads it, so every other
function does the same to a table that is being iterated over. -/

section ApplyCount

variable (ht : HashTable δ) (count : Nat)

theorem checkInit_applyCount : checkInit { ht with nApplyCount := count } =
      { checkInit ht with nApplyCount := count } := by
  unfold checkInit
  split <;> rfl

theorem rehashLoop_applyCount (fuel : Nat) (p : Option Addr) :
    rehashLoop fuel { ht with nApplyCount := count } p =
      (rehashLoop fuel ht p).map fun ht' => { ht' with nApplyCount := count } := by
  induction fuel generalizing ht p with
  | zero => rfl
  | succ fuel ih =>
    cases p with
    | none => rfl
    | some p => exact ih (setHead (connectToBucketDllist ht p (ht.h p &&& ht.nTableMask))
        (ht.h p &&& ht.nTableMask) (some p)) _

theorem zendHashRehash_applyCount : zendHashRehash { ht with nApplyCount := count } =
      (zendHashRehash ht).map fun ht' => { ht' with nApplyCount := count } := by
  unfold zendHashRehash
  split
  · rfl
  · exact rehashLoop_applyCount { ht with arBuckets := fun _ => none } count _ _

theorem zendHashIfFullDoResize_applyCount :
    zendHashIfFullDoResize { ht with nApplyCount := count } =
      (zendHashIfFullDoResize ht).map fun ht' => { ht' with nApplyCount := count } := by
  unfold zendHashIfFullDoResize zendHashDoResize
  simp only
  split
  · split
    · exact zendHashRehash_applyCount { ht with
        nTableSize := (ht.nTableSize <<< 1) % uintMod
        nTableMask := (ht.nTableSize <<< 1) % uintMod - 1 } count
    · rfl
  · rfl

theorem linkBucket_applyCount (p : Addr) (nIndex : Nat) :
    linkBucket { ht with nApplyCount := count } p nIndex =
      (linkBucket ht p nIndex).map fun ht' => { ht' with nApplyCount := count } :=
  zendHashIfFullDoResize_applyCount
    { setHead (connectToGlobalDllist (connectToBucketDllist ht p nIndex) p) nIndex (some p) with
      nNumOfElements := (ht.nNumOfElements + 1) % uintMod } count

theorem storeKey_applyCount (p : Addr) (key : KeyArg) :
    storeKey { ht with nApplyCount := count } p key =
      { storeKey ht p key with nApplyCount := count } := by
  cases key with
  | interned i | plain bytes => rfl

theorem zendHashQuickAddOrUpdate_applyCount (arKey : KeyArg) (h : Nat) (data : δ)
    (flag : HashFlag) :
    zendHashQuickAddOrUpdate intern { ht with nApplyCount := count } arKey h data flag =
      (zendHashQuickAddOrUpdate intern ht arKey h data flag).map
        fun out => ({ out.1 with nApplyCount := count }, out.2) := by
  rw [zendHashQuickAddOrUpdate, zendHashQuickAddOrUpdate, checkInit_applyCount]
  generalize checkInit ht = table
  have hfind : findInChain { table with nApplyCount := count } (h &&& table.nTableMask)
      (keyTest intern { table with nApplyCount := count } arKey h) =
      findInChain table (h &&& table.nTableMask) (keyTest intern table arKey h) := rfl
  simp only [hfind]
  cases findInChain table (h &&& table.nTableMask) (keyTest intern table arKey h) with
  | none => rfl
  | some found =>
    cases found with
    | some p =>
      split <;> rfl
    | none =>
      have hlink := linkBucket_applyCount
        (storeKey (newBucket table h (arKey.read intern).length data) table.brk arKey) count
      rw [← storeKey_applyCount] at hlink
      simp only [bind_eq_bind, bind_some]
      change (linkBucket (storeKey { newBucket table h (arKey.read intern).length data with
        nApplyCount := count } table.brk arKey) _ _).bind _ = _
      rw [hlink, bind_map, Option.map_bind]
      rfl

theorem zendHashIndexUpdateOrNextInsert_applyCount (h : Nat) (data : δ) (flag : HashFlag) :
    zendHashIndexUpdateOrNextInsert { ht with nApplyCount := count } h data flag =
      (zendHashIndexUpdateOrNextInsert ht h data flag).map
        fun out => ({ out.1 with nApplyCount := count }, out.2) := by
  rw [zendHashIndexUpdateOrNextInsert, zendHashIndexUpdateOrNextInsert, checkInit_applyCount]
  generalize checkInit ht = table
  generalize (if flag = .nextInsert then table.nNextFreeElement else h) = index
  have hfind : findInChain { table with nApplyCount := count } (index &&& table.nTableMask)
      (indexTest { table with nApplyCount := count } index) =
      findInChain table (index &&& table.nTableMask) (indexTest table index) := rfl
  simp only [hfind]
  cases findInChain table (index &&& table.nTableMask) (indexTest table index) with
  | none => rfl
  | some found =>
    cases found with
    | some p =>
      split <;> rfl
    | none =>
      have hlink := linkBucket_applyCount { newBucket table index 0 data with
          arKey := Function.update table.arKey table.brk .null
          nNextFreeElement := nextFreeAfter table.nNextFreeElement index } count
      simp only [bind_eq_bind, bind_some]
      change (linkBucket { newBucket table index 0 data with
          arKey := Function.update table.arKey table.brk .null
          nNextFreeElement := nextFreeAfter table.nNextFreeElement index
          nApplyCount := count } _ _).bind _ = _
      rw [hlink, bind_map, Option.map_bind]
      rfl

theorem zendHashBucketDelete_applyCount (p : Addr) :
    zendHashBucketDelete { ht with nApplyCount := count } p =
      { zendHashBucketDelete ht p with nApplyCount := count } := by
  rw [zendHashBucketDelete, zendHashBucketDelete, unlinkFromChain_applyCount,
    unlinkFromList_applyCount]

theorem deleteFound_applyCount (found : Option (Option Addr)) :
    (found.bind fun found => match found with
      | some p => some (zendHashBucketDelete { ht with nApplyCount := count } p, ZendResult.success)
      | none => some ({ ht with nApplyCount := count }, .failure)) =
    (found.bind fun found => match found with
      | some p => some (zendHashBucketDelete ht p, ZendResult.success)
      | none => some (ht, .failure)).map
        fun out => ({ out.1 with nApplyCount := count }, out.2) := by
  cases found with
  | none => rfl
  | some found =>
    cases found with
    | none => rfl
    | some p =>
      simp only [bind_some, zendHashBucketDelete_applyCount]
      rfl

theorem zendHashDelKeyOrIndex_applyCount (key : DelKey) :
    zendHashDelKeyOrIndex intern { ht with nApplyCount := count } key =
      (zendHashDelKeyOrIndex intern ht key).map
        fun out => ({ out.1 with nApplyCount := count }, out.2) := by
  cases key with
  | key arKey | quick arKey h | index h => exact deleteFound_applyCount _ _ _

theorem iterateLoop_applyCount (fuel : Nat) (pos : Option Addr) :
    iterateLoop intern { ht with nApplyCount := count } fuel pos =
      iterateLoop intern ht fuel pos := by
  induction fuel generalizing pos with
  | zero => rfl
  | succ fuel ih =>
    cases pos with
    | none => rfl
    | some p =>
      simp only [iterateLoop, ih]
      rfl

/-- An apply that the recursion guard lets through leaves the counter as it was. -/
theorem zendHashApply_applyCount (hzero : ht.nApplyCount = 0) (hcount : count < 3)
    (applyFunc : Nat → δ → ApplyResult) : zendHashApply { ht with nApplyCount := count } applyFunc =
      (zendHashApply ht applyFunc).map fun ht' => { ht' with nApplyCount := count } := by
  rw [zendHashApply, zendHashApply, hzero]
  simp only [if_neg (show ¬ 3 ≤ count by omega), if_neg (show ¬ 3 ≤ 0 by omega),
    applyLoop_applyCount]
  cases applyLoop applyFunc (ht.brk + 1) ht 0 ht.pListHead with
  | none | some ht' => split <;> rfl

end ApplyCount

/-- The operations a caller goes on with on an array of that recursion counter. -/
def TableOp.Continues (count : Nat) : TableOp intern δ → Prop
  | .init _ => False
  | .apply _ => count < 3
  | _ => True

theorem TableOp.exec_applyCount [Inhabited δ] (ht : HashTable δ) {count : Nat}
    (hzero : ht.nApplyCount = 0) {op : TableOp intern δ} (hop : op.Continues count) :
    op.exec { ht with nApplyCount := count } =
      (op.exec ht).map fun out => ({ out.1 with nApplyCount := count }, out.2) := by
  cases op with
  | init nSize => exact hop.elim
  | addOrUpdate key data flag =>
    simp only [exec, zendHashAddOrUpdate, zendHashQuickAddOrUpdate_applyCount, Option.map_map]
    rfl
  | quickAddOrUpdate key data flag =>
    simp only [exec, zendHashQuickAddOrUpdate_applyCount, Option.map_map]
    rfl
  | indexUpdate h data | nextIndexInsert data =>
    simp only [exec, zendHashIndexUpdateOrNextInsert_applyCount, Option.map_map]
    rfl
  | del key | quickDel key | indexDel h =>
    simp only [exec, zendHashDelKeyOrIndex_applyCount, Option.map_map]
    rfl
  | apply applyFunc =>
    simp only [exec, zendHashApply_applyCount ht count hzero hop, Option.map_map]
    rfl
  | rehash =>
    simp only [exec, zendHashRehash_applyCount, Option.map_map]
    rfl
  | iterate =>
    simp only [exec, zendHashIterate, iterateLoop_applyCount, Option.map_map]
    rfl
  | find key => simp only [exec, Option.map_map]; rfl
  | quickFind key => simp only [exec, Option.map_map]; rfl
  | «exists» key => simp only [exec, Option.map_map]; rfl
  | quickExists key | indexFind h | indexExists h => simp only [exec, Option.map_map]; rfl
  | clean | internalPointerReset | internalPointerEnd | moveForward | moveBackwards |
    numElements | currentKey | currentData => rfl

/-! The copied association list. -/

/-- Storing entries under new keys appends them, and the source's current key becomes current
when its entry is stored. -/
theorem OrderedMap.copyFrom_fresh (source : OrderedMap δ) (rest : List (HashKey × δ))
    (m : OrderedMap δ) (hfresh : (m.keys ++ rest.map Prod.fst).Nodup) :
    (copyFrom source id true rest m).items = m.items ++ rest ∧
    (copyFrom source id true rest m).cur =
      if source.cur ∈ rest.map (fun item => some item.1) then source.cur
      else m.cur <|> (rest.map Prod.fst).head? := by
  induction rest generalizing m with
  | nil =>
    cases hcur : m.cur <;> simp [copyFrom, hcur]
  | cons item rest ih =>
    have hnew : item.1 ∉ m.keys := by
      intro hmem
      exact (nodup_append.mp hfresh).2.2 _ hmem _ mem_cons_self rfl
    have hstore : ∀ cur, OrderedMap.store { m with cur := cur } item.1 item.2 =
        ⟨m.items ++ [item], cur <|> some item.1, m.nextFreeFor item.1⟩ :=
      fun cur => if_neg hnew
    have hrest : ∀ cur, ((OrderedMap.mk (m.items ++ [item]) cur
        (m.nextFreeFor item.1)).keys ++ rest.map Prod.fst).Nodup := by
      simpa [OrderedMap.keys] using hfresh
    by_cases hcur : source.cur = some item.1
    · obtain ⟨hitems, hkey⟩ := ih ⟨m.items ++ [item], some item.1, m.nextFreeFor item.1⟩ (hrest _)
      have hcopy : copyFrom source id true (item :: rest) m = copyFrom source id true rest
          ⟨m.items ++ [item], some item.1, m.nextFreeFor item.1⟩ := by
        rw [copyFrom, if_pos ⟨rfl, hcur⟩]
        exact congrArg (copyFrom source id true rest) (hstore none)
      rw [hcopy, hitems, hkey]
      refine ⟨by simp, ?_⟩
      have hmem : source.cur ∈ (item :: rest).map (fun item => some item.1) := by
        rw [hcur]
        exact mem_cons_self
      rw [if_pos hmem, hcur]
      split <;> rfl
    · obtain ⟨hitems, hkey⟩ := ih ⟨m.items ++ [item], m.cur <|> some item.1,
        m.nextFreeFor item.1⟩ (hrest _)
      have hcopy : copyFrom source id true (item :: rest) m = copyFrom source id true rest
          ⟨m.items ++ [item], m.cur <|> some item.1, m.nextFreeFor item.1⟩ := by
        rw [copyFrom, if_neg (fun h => hcur h.2)]
        exact congrArg (copyFrom source id true rest) (hstore m.cur)
      rw [hcopy, hitems, hkey]
      have hmem : source.cur ∈ (item :: rest).map (fun item => some item.1) ↔
          source.cur ∈ rest.map (fun item => some item.1) := by
        rw [map_cons, mem_cons, or_iff_right hcur]
      rw [if_congr hmem rfl rfl]
      cases m.cur <;> simp

/-- The copy into an empty map: the entries in their order, and as current key the source's
one or the first. -/
theorem OrderedMap.copy_empty (source : OrderedMap δ) (hkeys : source.keys.Nodup)
    (hcur : ∀ key, source.cur = some key → key ∈ source.keys) :
    (OrderedMap.empty.copy source id).items = source.items ∧
    (OrderedMap.empty.copy source id).cur = (source.cur <|> source.keys.head?) := by
  obtain ⟨hitems, hkey⟩ := copyFrom_fresh source source.items .empty hkeys
  refine ⟨hitems, ?_⟩
  have hhead : (copyFrom source id true source.items .empty).keys = source.keys :=
    congrArg (List.map Prod.fst) hitems
  change ((copyFrom source id true source.items .empty).cur <|>
    (copyFrom source id true source.items .empty).keys.head?) = _
  rw [hkey, hhead]
  cases hnow : source.cur with
  | none =>
    rw [if_neg (by simp)]
    change (source.keys.head? <|> source.keys.head?) = source.keys.head?
    cases source.keys.head? <;> rfl
  | some key =>
    have hmem : some key ∈ source.items.map (fun item => some item.1) := by
      obtain ⟨item, hitem, rfl⟩ := List.mem_map.mp (hcur key hnow)
      exact List.mem_map_of_mem (f := fun item => some item.1) hitem
    rw [if_pos hmem]

/-! The copied table. -/

section CopiedTable

variable {ht : HashTable δ} {m : OrderedMap δ} {order : List Addr}

theorem copyLoop_applyCount (source : HashTable δ) (count : Nat) (f : δ → δ) (b : Bool)
    (fuel : Nat) (target : HashTable δ) (p : Option Addr) :
    copyLoop intern { source with nApplyCount := count } f b fuel target p =
      copyLoop intern source f b fuel target p := by
  induction fuel generalizing target p with
  | zero => rfl
  | succ fuel ih =>
    cases p with
    | none => rfl
    | some p =>
      simp only [copyLoop, ih]
      rfl

theorem RepresentsAt.quiet (h : RepresentsAt intern ht m order) :
    RepresentsAt intern { ht with nApplyCount := 0 } m order := by
  rw [← show ht.nApplyCount = 0 from h.inv.applyCount]
  exact h

theorem RepresentsAt.withNextFree (h : RepresentsAt intern ht m order) (next : Nat) :
    RepresentsAt intern { ht with nNextFreeElement := next } { m with nextFree := next } order :=
  ⟨⟨⟨h.inv.size, h.inv.mask, h.inv.uninitialized, h.inv.list, h.inv.count,
      h.inv.internalPointer, h.inv.keys, h.inv.bucket, h.inv.allocated, h.inv.applyCount⟩,
    h.inv.chain⟩, h.items, h.cur, rfl⟩

/-- The copy stands for the same entries and the same next free index, and its pointer for the
same key or, past the end, for the first one. -/
theorem zvalCopyCtorArray_represents [Inhabited δ]
    (h : RepresentsAt intern { ht with nApplyCount := 0 } m order) :
    ∃ copied order', zvalCopyCtorArray intern false ht = some copied ∧
      RepresentsAt intern copied ⟨m.items, m.cur <|> m.keys.head?, m.nextFree⟩ order' := by
  obtain ⟨target, hrun, order', htarget⟩ := zendHashCopy_refines
    ⟨[], zendHashInit_represents intern (zendHashNumElements ht % uintMod).toNat⟩ ⟨order, h⟩ id
  have hkeys : m.keys.Nodup := by
    rw [h.keys]
    exact h.inv.keys
  have hcur : ∀ key, m.cur = some key → key ∈ m.keys := by
    intro key hkey
    rw [h.cur] at hkey
    obtain ⟨p, hp, rfl⟩ := map_eq_some_iff.mp hkey
    rw [h.keys]
    exact List.mem_map_of_mem (h.inv.internalPointer p hp)
  obtain ⟨hitems, hnow⟩ := OrderedMap.copy_empty m hkeys hcur
  have hcopy : zendHashCopy intern (zendHashInit (zendHashNumElements ht % uintMod).toNat) ht
      id = some target := by
    rw [← hrun, zendHashCopy, zendHashCopy, copyLoop_applyCount ht 0]
  refine ⟨{ target with nNextFreeElement := ht.nNextFreeElement }, order', ?_, ?_⟩
  · rw [zvalCopyCtorArray]
    simp only [Bool.false_eq_true, if_false, hcopy]
    rfl
  · have hnext := htarget.withNextFree ht.nNextFreeElement
    rw [← hnow, ← hitems, h.nextFree]
    exact hnext

end CopiedTable

/-! Runs of operations on one array. -/

section ArrayRun

/-- The operations that answer from where the internal pointer stands. -/
def TableOp.readsPointer : TableOp intern δ → Bool
  | .moveForward | .moveBackwards | .currentKey | .currentData => true
  | _ => false

/-- The operations after which the internal pointer stands in one place, wherever it stood. -/
def TableOp.setsPointer : TableOp intern δ → Bool
  | .clean | .internalPointerReset | .internalPointerEnd => true
  | _ => false

def arrayRun [Inhabited δ] : List (TableOp intern δ) → HashTable δ → Option (List (TableAnswer δ))
  | [], _ => some []
  | op :: ops, ht => do
      let out ← op.exec ht
      let rest ← arrayRun ops out.1
      return out.2 :: rest

/-- Two lists of answers to the same operations.  Unless the internal pointers agree, which
they do from a `settled` start or once an operation has set them, the answers read from them
may differ. -/
def SameAnswers : Bool → List (TableOp intern δ) → List (TableAnswer δ) →
    List (TableAnswer δ) → Prop
  | _, [], answers, answers' => answers = [] ∧ answers' = []
  | settled, op :: ops, answer :: answers, answer' :: answers' =>
    (settled ∨ op.readsPointer = false → answer = answer') ∧
      SameAnswers (settled || op.setsPointer) ops answers answers'
  | _, _ :: _, _, _ => False

/-- Association lists of one content whose current keys agree if `settled`. -/
structure OrderedMap.Agree (settled : Bool) (m m' : OrderedMap δ) : Prop where
  items : m.items = m'.items
  nextFree : m.nextFree = m'.nextFree
  cur : settled = true → m.cur = m'.cur

variable {m m' : OrderedMap δ} {settled : Bool}

theorem OrderedMap.Agree.addOrUpdate (h : Agree settled m m') (key : HashKey) (data : δ)
    (add : Bool) : Agree settled (m.addOrUpdate key data add).1 (m'.addOrUpdate key data add).1 ∧
      (m.addOrUpdate key data add).2 = (m'.addOrUpdate key data add).2 := by
  have hkeys : m.keys = m'.keys := congrArg (List.map Prod.fst) h.items
  have hnext : m.nextFreeFor key = m'.nextFreeFor key := by
    cases key <;> simp [nextFreeFor, h.nextFree]
  rw [OrderedMap.addOrUpdate, OrderedMap.addOrUpdate, hkeys]
  split
  · exact ⟨h, rfl⟩
  · refine ⟨?_, rfl⟩
    rw [store, store, hkeys]
    split
    · exact ⟨by rw [h.items], h.nextFree, h.cur⟩
    · exact ⟨by rw [h.items], hnext, fun hs => by rw [h.cur hs]⟩

theorem OrderedMap.Agree.remove (h : Agree settled m m') (key : HashKey) :
    Agree settled (m.remove key) (m'.remove key) := by
  have hkeys : m.keys = m'.keys := congrArg (List.map Prod.fst) h.items
  refine ⟨?_, h.nextFree, fun hs => ?_⟩
  · change m.items.filter _ = m'.items.filter _
    rw [h.items]
  · change (if m.cur = some key then m.successor key else m.cur) =
      if m'.cur = some key then m'.successor key else m'.cur
    rw [h.cur hs, successor, successor, hkeys]

theorem OrderedMap.Agree.delete (h : Agree settled m m') (key : HashKey) :
    Agree settled (m.delete key).1 (m'.delete key).1 ∧ (m.delete key).2 = (m'.delete key).2 := by
  have hkeys : m.keys = m'.keys := congrArg (List.map Prod.fst) h.items
  rw [OrderedMap.delete, OrderedMap.delete, hkeys]
  split
  · exact ⟨h.remove key, rfl⟩
  · exact ⟨h, rfl⟩

theorem OrderedMap.Agree.applyFrom (applyFunc : Nat → δ → ApplyResult) (calls : Nat)
    (items : List (HashKey × δ)) (h : Agree settled m m') :
    Agree settled (OrderedMap.applyFrom applyFunc calls items m)
      (OrderedMap.applyFrom applyFunc calls items m') := by
  induction items generalizing m m' calls with
  | nil => exact h
  | cons item items ih =>
    have hround : Agree settled (if (applyFunc calls item.2).remove then m.remove item.1 else m)
        (if (applyFunc calls item.2).remove then m'.remove item.1 else m') := by
      split
      · exact h.remove item.1
      · exact h
    simp only [OrderedMap.applyFrom]
    split
    · exact hround
    · exact ih (calls + 1) hround

/-- The step lemma of two runs. -/
theorem OrderedMap.Agree.spec {count : Nat} (h : Agree settled m m') {op : TableOp intern δ}
    (hop : op.Continues count) : Agree (settled || op.setsPointer) (op.spec m).1 (op.spec m').1 ∧
      (settled = true ∨ op.readsPointer = false → (op.spec m).2 = (op.spec m').2) := by
  have hkeys : m.keys = m'.keys := congrArg (List.map Prod.fst) h.items
  have hfind : m.find = m'.find := by
    funext key
    rw [find, find, h.items]
  have hmove : ∀ cur : OrderedMap δ → Option HashKey, (m.cur = m'.cur → cur m = cur m') →
      Agree (settled || false) (m.moveTo (cur m)).1 (m'.moveTo (cur m')).1 ∧
        (settled = true ∨ true = false → (m.moveTo (cur m)).2 = (m'.moveTo (cur m')).2) := by
    intro cur hcur
    refine ⟨⟨h.items, h.nextFree, fun hs => hcur (h.cur (by simpa using hs))⟩, fun hs => ?_⟩
    rw [moveTo, moveTo, h.cur (by simpa using hs)]
  have hstore : ∀ key data add, Agree (settled || false) (mapAnswer
        (m.addOrUpdate key data add)).1 (mapAnswer (m'.addOrUpdate key data add)).1 ∧
      (settled = true ∨ false = false → (mapAnswer (m.addOrUpdate key data add)).2 =
        (mapAnswer (m'.addOrUpdate key data add)).2) := by
    intro key data add
    obtain ⟨hmap, hresult⟩ := h.addOrUpdate key data add
    rw [Bool.or_false]
    exact ⟨hmap, fun _ => congrArg TableAnswer.result hresult⟩
  have hdelete : ∀ key, Agree (settled || false) (mapAnswer (m.delete key)).1
        (mapAnswer (m'.delete key)).1 ∧
      (settled = true ∨ false = false → (mapAnswer (m.delete key)).2 =
        (mapAnswer (m'.delete key)).2) := by
    intro key
    obtain ⟨hmap, hresult⟩ := h.delete key
    rw [Bool.or_false]
    exact ⟨hmap, fun _ => congrArg TableAnswer.result hresult⟩
  have hsame : Agree (settled || false) m m' := by simpa using h
  cases op with
  | init nSize => exact hop.elim
  | addOrUpdate key data flag | quickAddOrUpdate key data flag => exact hstore _ _ _
  | indexUpdate index data => exact hstore _ _ _
  | nextIndexInsert data =>
    simp only [TableOp.spec, h.nextFree]
    exact hstore _ _ _
  | del key | quickDel key | indexDel index => exact hdelete _
  | apply applyFunc =>
    refine ⟨?_, fun _ => rfl⟩
    simp only [TableOp.spec, h.items]
    exact hsame.applyFrom applyFunc 0 m'.items
  | rehash => exact ⟨hsame, fun _ => rfl⟩
  | clean => exact ⟨⟨rfl, rfl, fun _ => rfl⟩, fun _ => rfl⟩
  | internalPointerReset | internalPointerEnd =>
    exact ⟨⟨h.items, h.nextFree, fun _ => by simp [TableOp.spec, hkeys]⟩, fun _ => rfl⟩
  | moveForward =>
    refine hmove (fun m => m.cur.bind m.successor) fun hcur => ?_
    have hsucc : m.successor = m'.successor := by
      funext key
      rw [successor, successor, hkeys]
    rw [hcur, hsucc]
  | moveBackwards =>
    refine hmove (fun m => m.cur.bind m.predecessor) fun hcur => ?_
    have hpred : m.predecessor = m'.predecessor := by
      funext key
      rw [predecessor, predecessor, hkeys]
    rw [hcur, hpred]
  | find key | quickFind key => exact ⟨hsame, fun _ => by simp only [TableOp.spec, hfind]⟩
  | «exists» key | quickExists key =>
    exact ⟨hsame, fun _ => by simp only [TableOp.spec, hfind]⟩
  | indexFind index => exact ⟨hsame, fun _ => by simp only [TableOp.spec, hfind]⟩
  | indexExists index => exact ⟨hsame, fun _ => by simp only [TableOp.spec, hfind]⟩
  | numElements => exact ⟨hsame, fun _ => by simp only [TableOp.spec, h.items]⟩
  | currentKey =>
    refine ⟨hsame, fun hs => ?_⟩
    simp only [TableOp.spec, h.cur (by simpa [TableOp.readsPointer] using hs)]
  | currentData =>
    refine ⟨hsame, fun hs => ?_⟩
    simp only [TableOp.spec, h.cur (by simpa [TableOp.readsPointer] using hs), hfind]
  | iterate => exact ⟨hsame, fun _ => by simp only [TableOp.spec, h.items]⟩

theorem TableOp.exec_continues [Inhabited δ] {ht : HashTable δ}
    (h : Represents intern { ht with nApplyCount := 0 } m) {op : TableOp intern δ}
    (hop : op.Continues ht.nApplyCount) :
    ∃ out, op.exec ht = some out ∧ Represents intern { out.1 with nApplyCount := 0 } (op.spec m).1 ∧
      out.1.nApplyCount = ht.nApplyCount ∧ out.2 = (op.spec m).2 := by
  obtain ⟨⟨quiet, answer⟩, hrun, hrep, hanswer⟩ := op.exec_refines h
  have hcount := TableOp.exec_applyCount { ht with nApplyCount := 0 } rfl hop
  rw [hrun] at hcount
  obtain ⟨order, hquiet⟩ := hrep
  exact ⟨({ quiet with nApplyCount := ht.nApplyCount }, answer), hcount,
    ⟨order, hquiet.quiet⟩, rfl, hanswer⟩

/-- The run lemma: two tables of one content answer alike. -/
theorem arrayRun_agree [Inhabited δ] {ht ht' : HashTable δ} {count : Nat}
    (ops : List (TableOp intern δ)) (hops : ∀ op ∈ ops, op.Continues count)
    (hagree : m.Agree settled m') (h : Represents intern { ht with nApplyCount := 0 } m)
    (h' : Represents intern { ht' with nApplyCount := 0 } m')
    (hcount : ht.nApplyCount = count) (hcount' : ht'.nApplyCount ≤ count) :
    ∃ answers answers', arrayRun ops ht = some answers ∧ arrayRun ops ht' = some answers' ∧
      SameAnswers settled ops answers answers' := by
  induction ops generalizing ht ht' m m' settled with
  | nil => exact ⟨[], [], rfl, rfl, rfl, rfl⟩
  | cons op ops ih =>
    have hop : op.Continues count := hops op mem_cons_self
    have hop' : op.Continues ht'.nApplyCount := by
      cases op with
      | init nSize => exact hop
      | apply applyFunc => exact lt_of_le_of_lt hcount' hop
      | _ => trivial
    have hfirst : op.Continues ht.nApplyCount := by
      rw [hcount]
      exact hop
    obtain ⟨out, hrun, hrep, hsame, hanswer⟩ := TableOp.exec_continues h hfirst
    obtain ⟨out', hrun', hrep', hsame', hanswer'⟩ := TableOp.exec_continues h' hop'
    obtain ⟨hnext, hequal⟩ := hagree.spec hop
    obtain ⟨answers, answers', hrest, hrest', hanswers⟩ :=
      ih (fun op hmem => hops op (mem_cons_of_mem _ hmem)) hnext hrep hrep'
        (hsame.trans hcount) (by rw [hsame']; exact hcount')
    refine ⟨out.2 :: answers, out'.2 :: answers', ?_, ?_, ?_, hanswers⟩
    · rw [arrayRun, hrun]
      change (arrayRun ops out.1 >>= _) = _
      rw [hrest]
      rfl
    · rw [arrayRun, hrun']
      change (arrayRun ops out'.1 >>= _) = _
      rw [hrest']
      rfl
    · intro hs
      rw [hanswer, hanswer']
      exact hequal hs

end ArrayRun

section Copy

variable [Inhabited δ]

end Copy

end PhpEngine

/-
The engine's hash table.  Bucket memory is kept one map per field, so that a
store through one pointer field leaves every other field alone; a null
pointer is `none`.
-/
import PhpEngine.Ring
import PhpEngine.MachineInt

namespace PhpEngine

/-- The address of a bucket. -/
abbrev Addr := Nat

/-- The bytes of a key, the terminating NUL of the caller included. -/
abbrev KeyBytes := List UInt8

/-- What `arKey` of a bucket points to: nothing, an interned string, or the
key bytes stored behind the bucket itself. -/
inductive KeyPtr where
  | null
  | interned (i : Nat)
  | own
deriving Repr, DecidableEq

def isInterned : KeyPtr → Bool
  | .interned _ => true
  | _ => false

/-- A key as a caller passes it: the pointer of an interned string, or a
pointer to memory that no bucket owns. -/
inductive KeyArg where
  | interned (i : Nat)
  | plain (key : KeyBytes)
deriving Repr, DecidableEq

inductive HashFlag where
  | update
  | add
  | nextInsert
deriving Repr, DecidableEq

inductive ZendResult where
  | success
  | failure
deriving Repr, DecidableEq

/-- `char` is signed, so a byte from 128 on is added as a negative number. -/
def signedByte (b : UInt8) : Nat :=
  if b.toNat < 128 then b.toNat else ulongMod - (256 - b.toNat)

/-- `zend_inline_hash_func`: the eight-fold unrolled loop and its trailing
switch perform one multiply-and-add for each byte. -/
def zendInlineHashFunc (key : KeyBytes) : Nat :=
  key.foldl (fun hash b => (hash * 33 + signedByte b) % ulongMod) 5381

def zendHashFunc (key : KeyBytes) : Nat :=
  zendInlineHashFunc key

/-- A `HashTable` with the memory of the buckets it owns.  `brk` is the
address that the next `pemalloc` of a bucket returns; `keyStore` is the
memory directly behind a bucket, where a key that is not interned is kept. -/
structure HashTable (δ : Type) where
  nTableSize : Nat
  nTableMask : Nat
  nNumOfElements : Nat
  nNextFreeElement : Nat
  pInternalPointer : Option Addr
  pListHead : Option Addr
  pListTail : Option Addr
  arBuckets : Nat → Option Addr
  nApplyCount : Nat
  bApplyProtection : Bool
  h : Addr → Nat
  nKeyLength : Addr → Nat
  arKey : Addr → KeyPtr
  keyStore : Addr → List UInt8
  pData : Addr → δ
  pListNext : Addr → Option Addr
  pListLast : Addr → Option Addr
  pNext : Addr → Option Addr
  pLast : Addr → Option Addr
  brk : Addr

variable {δ : Type}

namespace HashTable

/-- Forward links of the global list; the null pointer stands for the table,
whose forward link is `pListHead`. -/
def listNext (ht : HashTable δ) : Option Addr → Option Addr
  | none => ht.pListHead
  | some p => ht.pListNext p

def listLast (ht : HashTable δ) : Option Addr → Option Addr
  | none => ht.pListTail
  | some p => ht.pListLast p

/-- Forward links of the collision chain `i`. -/
def chainNext (ht : HashTable δ) (i : Nat) : Option Addr → Option Addr
  | none => ht.arBuckets i
  | some p => ht.pNext p

/-- Backward links of a collision chain.  The table keeps no pointer to the
end of a chain, so that link is an argument. -/
def chainLast (ht : HashTable δ) (tail : Option Addr) : Option Addr → Option Addr
  | none => tail
  | some p => ht.pLast p

end HashTable

/-- `_zend_hash_init`.  The loop `while ((1U << i) < nSize) i++` looks for the
first power of two from 8 on that is not below `nSize`. -/
def initTableSize (nSize : Nat) : Nat :=
  if 0x80000000 ≤ nSize then 0x80000000
  else
    match (List.range 29).find? (fun i => decide (nSize ≤ 2 ^ (i + 3))) with
    | some i => 2 ^ (i + 3)
    | none => 0x80000000

def zendHashInit [Inhabited δ] (nSize : Nat) : HashTable δ where
  nTableSize := initTableSize nSize
  nTableMask := 0
  nNumOfElements := 0
  nNextFreeElement := 0
  pInternalPointer := none
  pListHead := none
  pListTail := none
  arBuckets := fun _ => none
  nApplyCount := 0
  bApplyProtection := true
  h := fun _ => 0
  nKeyLength := fun _ => 0
  arKey := fun _ => .null
  keyStore := fun _ => []
  pData := fun _ => default
  pListNext := fun _ => none
  pListLast := fun _ => none
  pNext := fun _ => none
  pLast := fun _ => none
  brk := 0

/-- `CHECK_INIT`: the bucket array is allocated, zeroed, on first use. -/
def checkInit (ht : HashTable δ) : HashTable δ :=
  if ht.nTableMask = 0 then
    { ht with arBuckets := fun _ => none, nTableMask := ht.nTableSize - 1 }
  else ht

/-- `CONNECT_TO_BUCKET_DLLIST(p, ht->arBuckets[nIndex])`. -/
def connectToBucketDllist (ht : HashTable δ) (p : Addr) (nIndex : Nat) : HashTable δ :=
  let head := ht.arBuckets nIndex
  let pLast := Function.update ht.pLast p none
  { ht with
    pNext := Function.update ht.pNext p head
    pLast := match head with
      | none => pLast
      | some q => Function.update pLast q (some p) }

/-- `CONNECT_TO_GLOBAL_DLLIST_EX`. -/
def connectToGlobalDllistEx (ht : HashTable δ) (p : Addr) (last next : Option Addr) : HashTable δ :=
  let pListNext := Function.update ht.pListNext p next
  let pListLast := Function.update ht.pListLast p last
  { ht with
    pListNext := match last with
      | none => pListNext
      | some q => Function.update pListNext q (some p)
    pListHead := match last with
      | none => some p
      | some _ => ht.pListHead
    pListLast := match next with
      | none => pListLast
      | some q => Function.update pListLast q (some p)
    pListTail := match next with
      | none => some p
      | some _ => ht.pListTail }

/-- `CONNECT_TO_GLOBAL_DLLIST`: the new bucket goes to the end of the list
and becomes current when no bucket was. -/
def connectToGlobalDllist (ht : HashTable δ) (p : Addr) : HashTable δ :=
  let ht := connectToGlobalDllistEx ht p ht.pListTail none
  { ht with pInternalPointer := ht.pInternalPointer <|> some p }

def setHead (ht : HashTable δ) (nIndex : Nat) (p : Option Addr) : HashTable δ :=
  { ht with arBuckets := Function.update ht.arBuckets nIndex p }

/-- The bucket leaves its collision chain. -/
def unlinkFromChain (ht : HashTable δ) (p : Addr) : HashTable δ :=
  let ht := match ht.pLast p with
    | some q => { ht with pNext := Function.update ht.pNext q (ht.pNext p) }
    | none => setHead ht (ht.h p &&& ht.nTableMask) (ht.pNext p)
  match ht.pNext p with
  | some q => { ht with pLast := Function.update ht.pLast q (ht.pLast p) }
  | none => ht

/-- The bucket leaves the global list. -/
def unlinkFromList (ht : HashTable δ) (p : Addr) : HashTable δ :=
  let ht := match ht.pListLast p with
    | some q =>
      { ht with pListNext := Function.update ht.pListNext q (ht.pListNext p) }
    | none => { ht with pListHead := ht.pListNext p }
  match ht.pListNext p with
  | some q =>
    { ht with pListLast := Function.update ht.pListLast q (ht.pListLast p) }
  | none => { ht with pListTail := ht.pListLast p }

/-- `i_zend_hash_bucket_delete`: the bucket leaves its chain and the global
list, and the internal pointer moves on when it stood on it. -/
def zendHashBucketDelete (ht : HashTable δ) (p : Addr) : HashTable δ :=
  let ht := unlinkFromList (unlinkFromChain ht p) p
  { ht with
    pInternalPointer :=
      if ht.pInternalPointer = some p then ht.pListNext p
      else ht.pInternalPointer
    nNumOfElements := (ht.nNumOfElements + uintMod - 1) % uintMod }

/-- The loop of `zend_hash_rehash`: each bucket of the global list goes to the
front of its chain. -/
def rehashLoop : Nat → HashTable δ → Option Addr → Option (HashTable δ)
  | 0, _, _ => none
  | _ + 1, ht, none => some ht
  | fuel + 1, ht, some p =>
    let nIndex := ht.h p &&& ht.nTableMask
    let ht := setHead (connectToBucketDllist ht p nIndex) nIndex (some p)
    rehashLoop fuel ht (ht.pListNext p)

def zendHashRehash (ht : HashTable δ) : Option (HashTable δ) :=
  if ht.nNumOfElements = 0 then some ht
  else rehashLoop (ht.brk + 1) { ht with arBuckets := fun _ => none } ht.pListHead

/-- `zend_hash_do_resize`: at `0x80000000` the doubled size is 0 and the table
stays as it is. -/
def zendHashDoResize (ht : HashTable δ) : Option (HashTable δ) :=
  let doubled := (ht.nTableSize <<< 1) % uintMod
  if 0 < doubled then
    zendHashRehash { ht with nTableSize := doubled, nTableMask := doubled - 1 }
  else some ht

/-- `ZEND_HASH_IF_FULL_DO_RESIZE`. -/
def zendHashIfFullDoResize (ht : HashTable δ) : Option (HashTable δ) :=
  if ht.nTableSize < ht.nNumOfElements then zendHashDoResize ht else some ht

/-- The search loop over a collision chain. -/
def findInChain (ht : HashTable δ) (nIndex : Nat) (test : Addr → Bool) : Option (Option Addr) :=
  ringFind (ht.chainNext nIndex) none (fun p => p.any test) (ht.brk + 1) (ht.arBuckets nIndex)

section Interned

-- The interned strings, by pointer.
variable (intern : Nat → KeyBytes)

def KeyArg.read : KeyArg → KeyBytes
  | .interned i => intern i
  | .plain key => key

/-- The bytes that `arKey` of a bucket points to. -/
def bucketBytes (ht : HashTable δ) (p : Addr) : List UInt8 :=
  match ht.arKey p with
  | .null => []
  | .interned i => intern i
  | .own => ht.keyStore p

/-- `p->arKey == arKey`. -/
def samePointer : KeyPtr → KeyArg → Bool
  | .interned i, .interned j => i == j
  | _, _ => false

/-- The test of every lookup by a string key:
`p->arKey == arKey || (p->h == h && p->nKeyLength == nKeyLength &&
!memcmp(p->arKey, arKey, nKeyLength))`. -/
def keyTest (ht : HashTable δ) (key : KeyArg) (h : Nat) (p : Addr) : Bool :=
  let nKeyLength := (key.read intern).length
  samePointer (ht.arKey p) key || (ht.h p == h && ht.nKeyLength p == nKeyLength &&
      (bucketBytes intern ht p).take nKeyLength == key.read intern)

/-- The test of every lookup by an index. -/
def indexTest (ht : HashTable δ) (h : Nat) (p : Addr) : Bool :=
  ht.nKeyLength p == 0 && ht.h p == h

/-- The key pointer and the key memory of a new bucket: an interned key is
shared, any other is copied behind the bucket. -/
def storeKey (ht : HashTable δ) (p : Addr) (key : KeyArg) : HashTable δ :=
  match key with
  | .interned i => { ht with arKey := Function.update ht.arKey p (.interned i) }
  | .plain key =>
    { ht with
      arKey := Function.update ht.arKey p .own
      keyStore := Function.update ht.keyStore p key }

/-- `pemalloc` of a bucket with its `h`, `nKeyLength` and data. -/
def newBucket (ht : HashTable δ) (h nKeyLength : Nat) (data : δ) : HashTable δ :=
  let p := ht.brk
  { ht with
    brk := p + 1
    h := Function.update ht.h p h
    nKeyLength := Function.update ht.nKeyLength p nKeyLength
    pData := Function.update ht.pData p data }

/-- Both list insertions, the count and the resize that end every insertion
of the bucket `p`. -/
def linkBucket (ht : HashTable δ) (p : Addr) (nIndex : Nat) : Option (HashTable δ) :=
  let ht := connectToBucketDllist ht p nIndex
  let ht := connectToGlobalDllist ht p
  let ht := setHead ht nIndex (some p)
  zendHashIfFullDoResize { ht with nNumOfElements := (ht.nNumOfElements + 1) % uintMod }

/-- `_zend_hash_quick_add_or_update`; the address is `*pDest`. -/
def zendHashQuickAddOrUpdate (ht : HashTable δ) (arKey : KeyArg) (h : Nat)
    (data : δ) (flag : HashFlag) : Option (HashTable δ × ZendResult × Option Addr) := do
  let ht := checkInit ht
  let nIndex := h &&& ht.nTableMask
  match ← findInChain ht nIndex (keyTest intern ht arKey h) with
  | some p =>
    if flag = .add then return (ht, .failure, none)
    else
      return ({ ht with pData := Function.update ht.pData p data }, .success, some p)
  | none =>
    let p := ht.brk
    let ht := newBucket ht h (arKey.read intern).length data
    let ht ← linkBucket (storeKey ht p arKey) p nIndex
    return (ht, .success, some p)

/-- `_zend_hash_add_or_update` computes the hash and goes on as the quick
variant does. -/
def zendHashAddOrUpdate (ht : HashTable δ) (arKey : KeyArg) (data : δ)
    (flag : HashFlag) : Option (HashTable δ × ZendResult × Option Addr) :=
  zendHashQuickAddOrUpdate intern ht arKey (zendHashFunc (arKey.read intern)) data flag

/-- `nNextFreeElement` after the insertion of the index `h`. -/
def nextFreeAfter (nNextFreeElement h : Nat) : Nat :=
  if toLong nNextFreeElement ≤ toLong h then
    if h < longMax then h + 1 else longMax
  else nNextFreeElement

/-- `_zend_hash_index_update_or_next_insert`. -/
def zendHashIndexUpdateOrNextInsert (ht : HashTable δ) (h : Nat) (data : δ)
    (flag : HashFlag) : Option (HashTable δ × ZendResult × Option Addr) := do
  let ht := checkInit ht
  let h := if flag = .nextInsert then ht.nNextFreeElement else h
  let nIndex := h &&& ht.nTableMask
  match ← findInChain ht nIndex (indexTest ht h) with
  | some p =>
    if flag = .nextInsert ∨ flag = .add then return (ht, .failure, none)
    else
      return ({ ht with pData := Function.update ht.pData p data }, .success, some p)
  | none =>
    let p := ht.brk
    let ht := newBucket ht h 0 data
    let ht := { ht with
      arKey := Function.update ht.arKey p .null
      nNextFreeElement := nextFreeAfter ht.nNextFreeElement h }
    let ht ← linkBucket ht p nIndex
    return (ht, .success, some p)

/-- The key argument of `zend_hash_del_key_or_index`: `HASH_DEL_KEY` and
`HASH_DEL_KEY_QUICK` name a string, `HASH_DEL_INDEX` an index. -/
inductive DelKey where
  | key (arKey : KeyArg)
  | quick (arKey : KeyArg) (h : Nat)
  | index (h : Nat)

/-- `zend_hash_del_key_or_index`.  This search compares bytes only; it does
not take the pointer shortcut. -/
def zendHashDelKeyOrIndex (ht : HashTable δ) (key : DelKey) :
    Option (HashTable δ × ZendResult) := do
  let (h, bytes) := match key with
    | .key arKey =>
      (zendHashFunc (arKey.read intern), arKey.read intern)
    | .quick arKey h => (h, arKey.read intern)
    | .index h => (h, [])
  let nIndex := h &&& ht.nTableMask
  let test := fun p =>
    ht.h p == h && ht.nKeyLength p == bytes.length && (ht.nKeyLength p == 0 ||
        (bucketBytes intern ht p).take bytes.length == bytes)
  match ← findInChain ht nIndex test with
  | some p => return (zendHashBucketDelete ht p, .success)
  | none => return (ht, .failure)

/-- The common search of `zend_hash_find`, `zend_hash_quick_find`,
`zend_hash_exists` and `zend_hash_quick_exists`. -/
def findKey (ht : HashTable δ) (arKey : KeyArg) (h : Nat) : Option (Option Addr) :=
  findInChain ht (h &&& ht.nTableMask) (keyTest intern ht arKey h)

def zendHashQuickFind (ht : HashTable δ) (arKey : KeyArg) (h : Nat) : Option (Option δ) := do
  return (← findKey intern ht arKey h).map ht.pData

def zendHashFind (ht : HashTable δ) (arKey : KeyArg) : Option (Option δ) :=
  zendHashQuickFind intern ht arKey (zendHashFunc (arKey.read intern))

def zendHashQuickExists (ht : HashTable δ) (arKey : KeyArg) (h : Nat) : Option Bool := do
  return (← findKey intern ht arKey h).isSome

def zendHashExists (ht : HashTable δ) (arKey : KeyArg) : Option Bool :=
  zendHashQuickExists intern ht arKey (zendHashFunc (arKey.read intern))

end Interned

/-- The common search of `zend_hash_index_find` and
`zend_hash_index_exists`. -/
def findIndex (ht : HashTable δ) (h : Nat) : Option (Option Addr) :=
  findInChain ht (h &&& ht.nTableMask) (indexTest ht h)

def zendHashIndexFind (ht : HashTable δ) (h : Nat) : Option (Option δ) := do
  return (← findIndex ht h).map ht.pData

def zendHashIndexExists (ht : HashTable δ) (h : Nat) : Option Bool := do
  return (← findIndex ht h).isSome

/-- `zend_hash_num_elements` returns the `uint` count as an `int`. -/
def zendHashNumElements (ht : HashTable δ) : Int :=
  toInt ht.nNumOfElements

/-- `zend_hash_clean`. -/
def zendHashClean (ht : HashTable δ) : HashTable δ :=
  { ht with
    arBuckets := if ht.nTableMask = 0 then ht.arBuckets else fun _ => none
    pListHead := none
    pListTail := none
    nNumOfElements := 0
    nNextFreeElement := 0
    pInternalPointer := none }

/-- The two bits of an `apply_func_t` answer. -/
structure ApplyResult where
  remove : Bool
  stop : Bool
deriving Repr, DecidableEq

/-- The loop of `zend_hash_apply`.  The callback may keep a state of its own,
so its answer also depends on how many calls came before. -/
def applyLoop (applyFunc : Nat → δ → ApplyResult) :
    Nat → HashTable δ → Nat → Option Addr → Option (HashTable δ)
  | 0, _, _, _ => none
  | _ + 1, ht, _, none => some ht
  | fuel + 1, ht, calls, some p =>
    let result := applyFunc calls (ht.pData p)
    let pNext := ht.pListNext p
    let ht := if result.remove then zendHashBucketDelete ht p else ht
    if result.stop then some ht
    else applyLoop applyFunc fuel ht (calls + 1) pNext

/-- `zend_hash_apply`; the recursion guard ends the request at the fourth
nested call. -/
def zendHashApply (ht : HashTable δ) (applyFunc : Nat → δ → ApplyResult) : Option (HashTable δ) :=
  if ht.bApplyProtection then
    if 3 ≤ ht.nApplyCount then none
    else do
      let ht ← applyLoop applyFunc (ht.brk + 1)
        { ht with nApplyCount := ht.nApplyCount + 1 } 0 ht.pListHead
      return { ht with nApplyCount := ht.nApplyCount - 1 }
  else applyLoop applyFunc (ht.brk + 1) ht 0 ht.pListHead

section Interned

variable (intern : Nat → KeyBytes)

/-- The key of a source bucket as `zend_hash_copy` hands it on: the pointer
itself when it is interned, otherwise `nKeyLength` bytes of the source
bucket's own memory. -/
def bucketKeyArg (ht : HashTable δ) (p : Addr) : KeyArg :=
  match ht.arKey p with
  | .interned i => .interned i
  | _ => .plain ((bucketBytes intern ht p).take (ht.nKeyLength p))

def setData (ht : HashTable δ) (p : Addr) (data : δ) : HashTable δ :=
  { ht with pData := Function.update ht.pData p data }

/-- Stores one source bucket in the target, the way `zend_hash_copy` and
`_zend_hash_merge` share: through the quick update for a string key, through
the index update otherwise. -/
def storeFrom (source : HashTable δ) (p : Addr) (flag : HashFlag) (target : HashTable δ) :
    Option (HashTable δ × ZendResult × Option Addr) :=
  if source.nKeyLength p ≠ 0 then
    zendHashQuickAddOrUpdate intern target (bucketKeyArg intern source p)
      (source.h p) (source.pData p) flag
  else
    zendHashIndexUpdateOrNextInsert target (source.h p) (source.pData p) .update

/-- `pCopyConstructor(new_entry)`. -/
def applyCopyConstructor (pCopyConstructor : δ → δ)
    (stored : HashTable δ × ZendResult × Option Addr) : HashTable δ :=
  match stored with
  | (ht, .success, some dest) =>
    setData ht dest (pCopyConstructor (ht.pData dest))
  | (ht, _, _) => ht

/-- The loop of `zend_hash_copy`. -/
def copyLoop (source : HashTable δ) (pCopyConstructor : δ → δ) (setTargetPointer : Bool) :
    Nat → HashTable δ → Option Addr → Option (HashTable δ)
  | 0, _, _ => none
  | _ + 1, target, none => some target
  | fuel + 1, target, some p => do
      let target :=
        if setTargetPointer ∧ source.pInternalPointer = some p then
          { target with pInternalPointer := none }
        else target
      let stored ← storeFrom intern source p .update target
      copyLoop source pCopyConstructor setTargetPointer fuel
        (applyCopyConstructor pCopyConstructor stored) (source.pListNext p)

/-- `zend_hash_copy`. -/
def zendHashCopy (target source : HashTable δ) (pCopyConstructor : δ → δ) :
    Option (HashTable δ) := do
  let target ← copyLoop intern source pCopyConstructor
    target.pInternalPointer.isNone (source.brk + 1) target source.pListHead
  return if target.pInternalPointer.isNone then
    { target with pInternalPointer := target.pListHead } else target

/-- One round of `_zend_hash_merge`.  Without `overwrite` an index that the
target has is skipped by an explicit test, a string key by the add flag. -/
def mergeRound (source : HashTable δ) (pCopyConstructor : δ → δ)
    (overwrite : Bool) (p : Addr) (target : HashTable δ) : Option (HashTable δ) := do
  let skip ←
    if source.nKeyLength p = 0 ∧ !overwrite then
      zendHashIndexExists target (source.h p)
    else some false
  if skip then return target
  else
    let stored ← storeFrom intern source p (if overwrite then .update else .add) target
    return applyCopyConstructor pCopyConstructor stored

/-- The loop of `_zend_hash_merge`. -/
def mergeLoop (source : HashTable δ) (pCopyConstructor : δ → δ) (overwrite : Bool) :
    Nat → HashTable δ → Option Addr → Option (HashTable δ)
  | 0, _, _ => none
  | _ + 1, target, none => some target
  | fuel + 1, target, some p => do
      let target ← mergeRound intern source pCopyConstructor overwrite p target
      mergeLoop source pCopyConstructor overwrite fuel target (source.pListNext p)

/-- `_zend_hash_merge`. -/
def zendHashMerge (target source : HashTable δ) (pCopyConstructor : δ → δ)
    (overwrite : Bool) : Option (HashTable δ) := do
  let target ← mergeLoop intern source pCopyConstructor overwrite
    (source.brk + 1) target source.pListHead
  return { target with pInternalPointer := target.pListHead }

end Interned

/-! Positions.  Each function works on a caller's `HashPosition` when one is
passed and on the internal pointer otherwise. -/

def zendHashInternalPointerReset (ht : HashTable δ) : HashTable δ :=
  { ht with pInternalPointer := ht.pListHead }

def zendHashInternalPointerEnd (ht : HashTable δ) : HashTable δ :=
  { ht with pInternalPointer := ht.pListTail }

/-- `zend_hash_move_forward_ex` on the position `pos`. -/
def moveForward (ht : HashTable δ) (pos : Option Addr) : Option Addr × ZendResult :=
  match pos with
  | some p => (ht.pListNext p, .success)
  | none => (none, .failure)

def moveBackwards (ht : HashTable δ) (pos : Option Addr) : Option Addr × ZendResult :=
  match pos with
  | some p => (ht.pListLast p, .success)
  | none => (none, .failure)

def zendHashMoveForward (ht : HashTable δ) : HashTable δ × ZendResult :=
  let (pos, result) := moveForward ht ht.pInternalPointer
  ({ ht with pInternalPointer := pos }, result)

def zendHashMoveBackwards (ht : HashTable δ) : HashTable δ × ZendResult :=
  let (pos, result) := moveBackwards ht ht.pInternalPointer
  ({ ht with pInternalPointer := pos }, result)

/-- What `zend_hash_get_current_key_ex` reports, an index or a string; at the
null position it reports `HASH_KEY_NON_EXISTENT`. -/
inductive HashKey where
  | long (h : Nat)
  | string (bytes : KeyBytes)
deriving Repr, DecidableEq

section Interned

variable (intern : Nat → KeyBytes)

def bucketKey (ht : HashTable δ) (p : Addr) : HashKey :=
  if ht.nKeyLength p ≠ 0 then
    .string ((bucketBytes intern ht p).take (ht.nKeyLength p))
  else .long (ht.h p)

def zendHashGetCurrentKey (ht : HashTable δ) (pos : Option Addr) : Option HashKey :=
  pos.map (bucketKey intern ht)

def zendHashGetCurrentData (ht : HashTable δ) (pos : Option Addr) : Option δ :=
  pos.map ht.pData

/-- The traversal idiom of every caller: reset a position, then read key and
data and move forward until the position is null. -/
def iterateLoop (ht : HashTable δ) : Nat → Option Addr → Option (List (HashKey × δ))
  | 0, _ => none
  | fuel + 1, pos =>
    match zendHashGetCurrentKey intern ht pos, zendHashGetCurrentData ht pos with
    | some key, some data => do
        let rest ← iterateLoop ht fuel (moveForward ht pos).1
        return (key, data) :: rest
    | _, _ => some []

def zendHashIterate (ht : HashTable δ) : Option (List (HashKey × δ)) :=
  iterateLoop intern ht (ht.brk + 1) ht.pListHead

end Interned

end PhpEngine

/-
Literal compaction, `Optimizer/compact_literals.c`.  The pass marks how each
literal is used, merges equal literals while it moves the table together in
place, hands out the run-time cache slots anew, and at the end renumbers the
constant operands of the oplines.
-/
import PhpEngine.OpArray
import PhpEngine.HashTable
import PhpEngine.Decimal

namespace PhpEngine

variable {α : Type}

/-- The constant of a `zend_literal`.  `other` stands for an array, a constant
expression or the name of an unqualified constant, whose type has a further
bit; the pass moves these without a look inside. -/
inductive LiteralZval (α : Type) where
  | null
  | bool (b : Bool)
  | long (n : Int64)
  | double (bits : UInt64)
  | string (text : KeyBytes)
  | constant (name : KeyBytes)
  | other (contents : α)
deriving Repr, DecidableEq

namespace LiteralZval

/-- `Z_STRVAL` up to `Z_STRLEN`. -/
def text : LiteralZval α → KeyBytes
  | .string text => text
  | .constant name => name
  | _ => []

/-- `Z_TYPE(zv) == IS_STRING`. -/
def isString : LiteralZval α → Bool
  | .string _ => true
  | _ => false

/-- The test of two types, which the pass makes only where the first literal
is a string or a constant's name. -/
def sameType : LiteralZval α → LiteralZval α → Bool
  | .string _, .string _ => true
  | .constant _, .constant _ => true
  | _, _ => false

end LiteralZval

/-- The value -1 of `cache_slot`. -/
def noCacheSlot : Nat :=
  uintMod - 1

structure ZendLiteral (α : Type) where
  constant : LiteralZval α
  hashValue : Nat := 0
  cacheSlot : Nat := noCacheSlot
deriving Repr, DecidableEq

/-- The fields of `zend_op_array` that the pass reads or writes. -/
structure CompiledCode (α : Type) where
  opcodes : List ZendOp
  literals : List (ZendLiteral α)
  thisVar : Int := -1
  lastCacheSlot : Nat := 0
deriving Repr, DecidableEq

/-- `op_array->literals[n]`. -/
def literalAt (literals : List (ZendLiteral α)) (n : Nat) : ZendLiteral α :=
  literals.getD n ⟨.null, 0, noCacheSlot⟩

/-- `LITERAL_VALUE` to `LITERAL_PROPERTY`. -/
inductive LiteralKind where
  | value
  | func
  | cls
  | const
  | classConst
  | staticMethod
  | staticProperty
  | method
  | property
deriving Repr, DecidableEq

/-- The bits under `LITERAL_KIND_MASK`. -/
def LiteralKind.code : LiteralKind → Nat
  | .value => 0x0100
  | .func => 0x0200
  | .cls => 0x0300
  | .const => 0x0400
  | .classConst => 0x0500
  | .staticMethod => 0x0600
  | .staticProperty => 0x0700
  | .method => 0x0800
  | .property => 0x0900

/-- The bit fields of `flags`, where the number of slots and the number of
related literals have four bits each. -/
@[ext]
structure LiteralFlags where
  kind : LiteralKind
  mayMerge : Bool
  exObj : Bool
  exClass : Bool
  slots : Fin 16
  related : Fin 16
deriving Repr, DecidableEq

/-- `flags` as a number. -/
def LiteralFlags.word (flags : LiteralFlags) : Nat :=
  (if flags.exClass then 0x4000 else 0) + (if flags.exObj then 0x2000 else 0) +
    (if flags.mayMerge then 0x1000 else 0) + flags.kind.code +
    flags.slots.val * 16 + flags.related.val

/-- The four bits that the two counts have hold every small number. -/
instance literalBits : NeZero 16 := ⟨by decide⟩

/-- `literal_info`; `num` is read only under one of the two `EX` flags. -/
structure LiteralInfo where
  flags : LiteralFlags
  num : Int
deriving Repr, DecidableEq

def literalInfo (kind : LiteralKind) (merge : Bool) (slots related : Fin 16) : LiteralInfo :=
  ⟨⟨kind, merge, false, false, slots, related⟩, 0⟩

def literalInfoClass (kind : LiteralKind) (merge : Bool)
    (slots related : Fin 16) (num : Int) : LiteralInfo :=
  ⟨⟨kind, merge, false, true, slots, related⟩, num⟩

def literalInfoObj (kind : LiteralKind) (merge : Bool)
    (slots related : Fin 16) (num : Int) : LiteralInfo :=
  ⟨⟨kind, merge, true, false, slots, related⟩, num⟩

/-- Members of `$this` may be merged, those of any other object may not. -/
def optimizerLiteralObjInfo (code : CompiledCode α) (opType : OperandType)
    (constant : Nat) (kind : LiteralKind) (slots related : Fin 16) : LiteralInfo :=
  if (literalAt code.literals constant).constant.isString ∧ opType = .unused then
    literalInfoObj kind true slots related code.thisVar
  else
    literalInfo kind false slots related

def optimizerLiteralClassInfo (op : Operand) (kind : LiteralKind)
    (slots related : Fin 16) : LiteralInfo :=
  if op.type = .const then
    literalInfoClass kind true slots related op.num
  else
    literalInfo kind false slots related

/-- The groups of case labels of a switch over the ways in which an opcode
uses its literals. -/
inductive LiteralSwitch where
  | doFcall
  | initFcallByName
  | initNsFcallByName
  | initMethodCall
  | initStaticMethodCall
  | catchClass
  | fetchConstant
  | fetchVar
  | fetchClass
  | property
  | compoundAssign
  | other
deriving Repr, DecidableEq

/-- The case labels of the marking switch. -/
def Opcode.markLabel : Opcode → LiteralSwitch
  | .doFcall => .doFcall
  | .initFcallByName => .initFcallByName
  | .initNsFcallByName => .initNsFcallByName
  | .initMethodCall => .initMethodCall
  | .initStaticMethodCall => .initStaticMethodCall
  | .catchOp => .catchClass
  | .fetchConstant => .fetchConstant
  | .fetchR | .fetchW | .fetchRw | .fetchIs | .fetchUnset | .fetchFuncArg
  | .unsetVar | .issetIsemptyVar => .fetchVar
  | .fetchClass | .addInterface | .addTrait => .fetchClass
  | .assignObj | .fetchObjR | .fetchObjW | .fetchObjRw | .fetchObjIs
  | .fetchObjUnset | .fetchObjFuncArg | .unsetObj | .preIncObj | .preDecObj
  | .postIncObj | .postDecObj | .issetIsemptyPropObj => .property
  | .assignAdd | .assignSub | .assignMul | .assignDiv | .assignMod
  | .assignSl | .assignSr | .assignConcat | .assignBwOr | .assignBwAnd
  | .assignBwXor => .compoundAssign
  | _ => .other

/-- `IS_CONSTANT_IN_NAMESPACE|IS_CONSTANT_UNQUALIFIED`. -/
def inNamespaceUnqualified : Nat :=
  0x100 ||| 0x010

/-- `ZEND_ASSIGN_OBJ` as an extended value. -/
def zendAssignObj : Nat :=
  136

/-- What the marking switch writes for one opline, in its order. -/
def markOpline (code : CompiledCode α) (opline : ZendOp) : List (Nat × LiteralInfo) :=
  let value := literalInfo .value true 0 1
  let op1 := opline.op1
  let op2 := opline.op2
  match opline.opcode.markLabel with
  | .doFcall => [(op1.num, literalInfo .func true 1 1)]
  | .initFcallByName =>
    if op2.type = .const then [(op2.num, literalInfo .func true 1 2)] else []
  | .initNsFcallByName => [(op2.num, literalInfo .func true 1 3)]
  | .initMethodCall =>
    if op2.type = .const then
      [(op2.num, optimizerLiteralObjInfo code op1.type op2.num .method 2 2)]
    else []
  | .initStaticMethodCall =>
    (if op1.type = .const then [(op1.num, literalInfo .cls true 1 2)]
      else []) ++
    (if op2.type = .const then
      [(op2.num, optimizerLiteralClassInfo op1 .staticMethod
        (if op1.type = .const then 1 else 2) 2)]
      else [])
  | .catchClass => [(op1.num, literalInfo .cls true 1 2)]
  | .fetchConstant =>
    if op1.type = .unused then
      if opline.extendedValue &&& inNamespaceUnqualified = inNamespaceUnqualified then
        [(op2.num, literalInfo .const true 1 5)]
      else
        [(op2.num, literalInfo .const true 1 3)]
    else
      (if op1.type = .const then [(op1.num, literalInfo .cls true 1 2)]
        else []) ++
      [(op2.num, optimizerLiteralClassInfo op1 .classConst (if op1.type = .const then 1 else 2) 1)]
  | .fetchVar =>
    if op2.type = .unused then
      if op1.type = .const then [(op1.num, value)] else []
    else
      (if op2.type = .const then [(op2.num, literalInfo .cls true 1 2)]
        else []) ++
      (if op1.type = .const then
        [(op1.num, optimizerLiteralClassInfo op2 .staticProperty 2 1)]
        else [])
  | .fetchClass =>
    if op2.type = .const then [(op2.num, literalInfo .cls true 1 2)] else []
  | .property =>
    if op2.type = .const then
      [(op2.num, optimizerLiteralObjInfo code op1.type op2.num .property 2 1)]
    else []
  | .compoundAssign =>
    if op2.type = .const then
      if opline.extendedValue = zendAssignObj then
        [(op2.num, optimizerLiteralObjInfo code op1.type op2.num .property 2 1)]
      else
        [(op2.num, value)]
    else []
  | .other =>
    (if op1.type = .const then [(op1.num, value)] else []) ++
    (if op2.type = .const then [(op2.num, value)] else [])

/-- `info`, where `none` is an entry that `ecalloc` left zero. -/
abbrev InfoTable :=
  List (Option LiteralInfo)

def infoAt (info : InfoTable) (n : Nat) : Option LiteralInfo :=
  info[n]?.join

/-- The first pass over the oplines.  A later mark replaces an earlier one. -/
def markLiterals (code : CompiledCode α) : InfoTable :=
  (code.opcodes.flatMap (markOpline code)).foldl (fun info mark => info.set mark.1 (some mark.2))
    (List.replicate code.literals.length none)

/-- What the merging loop looks a literal up under. -/
inductive LiteralKey where
  | null
  | bool (b : Bool)
  | long (n : Int64)
  | double (bits : UInt64)
  | text (flags : LiteralFlags) (arKey : KeyBytes)
deriving Repr, DecidableEq

/-- A bucket is found by its hash value and the bytes of its key, which an
index does not have. -/
abbrev BucketKey :=
  Nat × KeyBytes

/-- The memory of a double. -/
def doubleBytes (bits : UInt64) : KeyBytes :=
  (List.range 8).map fun k => UInt8.ofNat (bits.toNat / 256 ^ k)

def longBucket (n : Int64) : BucketKey :=
  (n.toUInt64.toNat, [])

def doubleBucket (bits : UInt64) : BucketKey :=
  (zendHashFunc (doubleBytes bits), doubleBytes bits)

/-- `h = zend_hash_func(key, key_len); h += info[i].flags`. -/
def textBucket (flags : LiteralFlags) (arKey : KeyBytes) : BucketKey :=
  ((zendHashFunc arKey + flags.word) % ulongMod, arKey)

/-- The locals of the merging loop.  An `int` that is -1 until it is set is an
option. -/
structure MergeState (α : Type) where
  literals : List (ZendLiteral α)
  info : InfoTable
  map : List Nat
  hash : List (BucketKey × Nat) := []
  j : Nat := 0
  cacheSlots : Nat := 0
  lNull : Option Nat := none
  lFalse : Option Nat := none
  lTrue : Option Nat := none
deriving Repr, DecidableEq

/-- `zend_hash_quick_add`, `zend_hash_add`, and `zend_hash_index_update` where
the index is new. -/
def hashAdd (hash : List (BucketKey × Nat)) (key : BucketKey) (pos : Nat) :
    List (BucketKey × Nat) :=
  if (hash.lookup key).isSome then hash else (key, pos) :: hash

namespace MergeState

def find (s : MergeState α) : LiteralKey → Option Nat
  | .null => s.lNull
  | .bool true => s.lTrue
  | .bool false => s.lFalse
  | .long n => s.hash.lookup (longBucket n)
  | .double bits => s.hash.lookup (doubleBucket bits)
  | .text flags arKey => s.hash.lookup (textBucket flags arKey)

/-- The next literal of the new table is entered under its key. -/
def enter (s : MergeState α) : LiteralKey → MergeState α
  | .null => { s with lNull := some s.j }
  | .bool true => { s with lTrue := some s.j }
  | .bool false => { s with lFalse := some s.j }
  | .long n => { s with hash := hashAdd s.hash (longBucket n) s.j }
  | .double bits => { s with hash := hashAdd s.hash (doubleBucket bits) s.j }
  | .text flags arKey =>
    { s with hash := hashAdd s.hash (textBucket flags arKey) s.j }

/-- `map[i] = pos`. -/
def point (s : MergeState α) (i pos : Nat) : MergeState α :=
  { s with map := s.map.set i pos }

/-- `literals[j] = literals[i]; info[j] = info[i]`.  For `i == j` this changes
nothing. -/
def move (s : MergeState α) (i : Nat) : MergeState α :=
  { s with
    literals := s.literals.set s.j (literalAt s.literals i)
    info := s.info.set s.j (infoAt s.info i) }

/-- A literal without related ones goes to the end of the new table. -/
def keepLiteral (s : MergeState α) (i : Nat) : MergeState α :=
  let s := (s.point i s.j).move i
  { s with j := s.j + 1 }

/-- The branches of the types that are merged by their value alone. -/
def mergeScalar (s : MergeState α) (i : Nat) (key : LiteralKey) : MergeState α :=
  match s.find key with
  | some pos => s.point i pos
  | none => (s.enter key).keepLiteral i

end MergeState

/-- A string literal gets the hash of its text if it has none yet. -/
def ZendLiteral.fillHash (literal : ZendLiteral α) : ZendLiteral α :=
  if literal.hashValue = 0 then
    { literal with hashValue := zendHashFunc (literal.constant.text ++ [0]) }
  else
    literal

/-- The loop over the related literals of a kept name.  It returns the last
`i`. -/
def copyRelated : Nat → MergeState α → Nat → MergeState α × Nat
  | 0, s, i => (s, i)
  | n + 1, s, i =>
    let literal := (literalAt s.literals (i + 1)).fillHash
    copyRelated n { s with literals := s.literals.set s.j literal, j := s.j + 1 } (i + 1)

/-- A name goes to the end of the new table with its related literals, and the
next cache slots are its own. -/
def keepName (s : MergeState α) (i : Nat) (flags : LiteralFlags) : MergeState α × Nat :=
  let s := (s.point i s.j).move i
  let literal := (literalAt s.literals s.j).fillHash
  let literal := if flags.slots.val = 0 then literal
    else { literal with cacheSlot := s.cacheSlots }
  copyRelated (flags.related.val - 1) { s with
      literals := s.literals.set s.j literal
      cacheSlots := s.cacheSlots + flags.slots.val
      j := s.j + 1 } i

/-- What `%s` prints of a text. -/
def cString (text : KeyBytes) : KeyBytes :=
  text.takeWhile (· ≠ 0)

/-- `"%d->%s"`.  The buffer holds every number and the whole text. -/
def objKey (num : Int) (text : KeyBytes) : KeyBytes :=
  printLong num ++ [byte '-', byte '>'] ++ cString text

def classKey (className text : KeyBytes) : KeyBytes :=
  className ++ [byte ':', byte ':'] ++ text ++ [0]

/-- `key` up to `key_len`.  The name of the class may have been moved. -/
def MergeState.arKey (s : MergeState α) (i : Nat) (info : LiteralInfo) : KeyBytes :=
  let text := (literalAt s.literals i).constant.text
  if info.flags.exObj then
    objKey info.num text
  else if info.flags.exClass then
    let num := info.num.toNat
    let className := if num < i then s.map.getD num 0 else num
    classKey (literalAt s.literals className).constant.text text
  else
    text ++ [0]

/-- The branch of `IS_STRING` and `IS_CONSTANT`.  The related literals of a
merged name are dropped. -/
def mergeName (s : MergeState α) (i : Nat) (info : LiteralInfo) : MergeState α × Nat :=
  if info.flags.mayMerge then
    let key := LiteralKey.text info.flags (s.arKey i info)
    match s.find key with
    | some pos =>
      if (literalAt s.literals i).constant.sameType (literalAt s.literals pos).constant ∧
          some info.flags = (infoAt s.info pos).map LiteralInfo.flags then
        (s.point i pos, i + (info.flags.related.val - 1))
      else
        keepName (s.enter key) i info.flags
    | none => keepName (s.enter key) i info.flags
  else
    keepName s i info.flags

/-- One turn of the merging loop, with the `i` it ends on. -/
def mergeLiteral (s : MergeState α) (i : Nat) : MergeState α × Nat :=
  match infoAt s.info i with
  | none => (s, i)
  | some info =>
    match (literalAt s.literals i).constant with
    | .null => (s.mergeScalar i .null, i)
    | .bool b => (s.mergeScalar i (.bool b), i)
    | .long n => (s.mergeScalar i (.long n), i)
    | .double bits => (s.mergeScalar i (.double bits), i)
    | .string _ => mergeName s i info
    | .constant _ => mergeName s i info
    | .other _ => (s.keepLiteral i, i)

/-- The loop up to `last_literal`; `i` grows with each turn. -/
def mergeLiterals (lastLiteral : Nat) : Nat → MergeState α → Nat → MergeState α
  | 0, s, _ => s
  | fuel + 1, s, i =>
    if i < lastLiteral then
      let turn := mergeLiteral s i
      mergeLiterals lastLiteral fuel turn.1 (turn.2 + 1)
    else s

/-- The state behind the merging loop. -/
def mergedState (code : CompiledCode α) : MergeState α :=
  let lastLiteral := code.literals.length
  mergeLiterals lastLiteral lastLiteral
    { literals := code.literals
      info := markLiterals code
      map := List.replicate lastLiteral 0 } 0

/-- A constant operand under its new number. -/
def Operand.renumber (map : List Nat) (op : Operand) : Operand :=
  if op.type = .const then { op with num := map.getD op.num 0 } else op

def ZendOp.renumber (map : List Nat) (opline : ZendOp) : ZendOp :=
  { opline with
    op1 := opline.op1.renumber map
    op2 := opline.op2.renumber map }

def optimizerCompactLiterals (code : CompiledCode α) : CompiledCode α :=
  if code.literals.isEmpty then code
  else
    let s := mergedState code
    { code with
      opcodes := code.opcodes.map (·.renumber s.map)
      literals := s.literals.take s.j
      lastCacheSlot := s.cacheSlots }

end PhpEngine

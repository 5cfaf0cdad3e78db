/-
Compiled code: an op_array with its oplines, literals and tables of loops and
`try` statements.  Where an operand stands for an opline number, it is the
number before `pass_two` turned it into an address, as in the optimizer.
-/
import PhpEngine.MachineInt

namespace PhpEngine

/-- The opcodes of `zend_vm_opcodes.h`, and `ZEND_OP_DATA` of
`zend_compile.h`. -/
inductive Opcode where
  | nop | add | sub | mul | div | mod | sl | sr | concat | bwOr | bwAnd
  | bwXor | bwNot | boolNot | boolXor | isIdentical | isNotIdentical
  | isEqual | isNotEqual | isSmaller | isSmallerOrEqual | cast | qmAssign
  | assignAdd | assignSub | assignMul | assignDiv | assignMod | assignSl
  | assignSr | assignConcat | assignBwOr | assignBwAnd | assignBwXor | preInc
  | preDec | postInc | postDec | assign | assignRef | echo | print | jmp
  | jmpz | jmpnz | jmpznz | jmpzEx | jmpnzEx | caseOp | switchFree | brk
  | cont | bool | initString | addChar | addString | addVar | beginSilence
  | endSilence | initFcallByName | doFcall | doFcallByName | returnOp | recv
  | recvInit | sendVal | sendVar | sendRef | newOp | initNsFcallByName
  | freeOp | initArray | addArrayElement | includeOrEval | unsetVar
  | unsetDim | unsetObj | feReset | feFetch | exitOp | fetchR | fetchDimR
  | fetchObjR | fetchW | fetchDimW | fetchObjW | fetchRw | fetchDimRw
  | fetchObjRw | fetchIs | fetchDimIs | fetchObjIs | fetchFuncArg
  | fetchDimFuncArg | fetchObjFuncArg | fetchUnset | fetchDimUnset
  | fetchObjUnset | fetchDimTmpVar | fetchConstant | goto | extStmt
  | extFcallBegin | extFcallEnd | extNop | ticks | sendVarNoRef | catchOp
  | throwOp | fetchClass | cloneOp | returnByRef | initMethodCall
  | initStaticMethodCall | issetIsemptyVar | issetIsemptyDimObj | preIncObj
  | preDecObj | postIncObj | postDecObj | assignObj | opData | instanceOf
  | declareClass | declareInheritedClass | declareFunction
  | raiseAbstractError | declareConst | addInterface
  | declareInheritedClassDelayed | verifyAbstractClass | assignDim
  | issetIsemptyPropObj | handleException | userOpcode | jmpSet
  | declareLambdaFunction | addTrait | bindTraits | separate | qmAssignVar
  | jmpSetVar | discardException | yield | generatorReturn | fastCall
  | fastRet | recvVariadic | sendUnpack | pow | assignPow
deriving Repr, DecidableEq

inductive OperandType where
  | const
  | tmpVar
  | var
  | unused
  | cv
deriving Repr, DecidableEq

/-- A `znode_op` with its type.  `extUnused` is `EXT_TYPE_UNUSED`, which only
the type of a result has. -/
structure Operand where
  type : OperandType
  num : Nat
  extUnused : Bool := false
deriving Repr, DecidableEq

/-- What `SET_UNUSED` and `MAKE_NOP` leave behind. -/
def Operand.none : Operand :=
  ⟨.unused, 0, false⟩

/-- `zend_op`, without its handler and its line. -/
structure ZendOp where
  opcode : Opcode
  op1 : Operand
  op2 : Operand
  result : Operand
  extendedValue : Nat
deriving Repr, DecidableEq

/-- `MAKE_NOP`: the extended value stays. -/
def ZendOp.makeNop (op : ZendOp) : ZendOp :=
  ⟨.nop, .none, .none, .none, op.extendedValue⟩

/-- The constant of a `zend_literal`; a double is known by its bits. -/
inductive Literal where
  | null
  | bool (b : Bool)
  | long (n : Int)
  | double (bits : UInt64)
  | string (text : List UInt8)
  | constant (name : List UInt8)
  | constantAst
deriving Repr, DecidableEq

/-- `start` is -1 for a loop without a loop variable, and `parent` for an
outermost loop. -/
structure BrkContElement where
  start : Int
  cont : Nat
  brk : Nat
  parent : Int
deriving Repr, DecidableEq

/-- `catch_op` and `finally_op` are 0 where the statement has none. -/
structure TryCatchElement where
  tryOp : Nat
  catchOp : Nat
  finallyOp : Nat
  finallyEnd : Nat
deriving Repr, DecidableEq

/-- The value -1 of an opline number. -/
def noOpline : Nat :=
  uintMod - 1

/-- The fields of `zend_op_array` that the passes read or write. -/
structure OpArray where
  opcodes : List ZendOp
  literals : List Literal := []
  brkContArray : List BrkContElement := []
  tryCatchArray : List TryCatchElement := []
  hasFinallyBlock : Bool := false
  earlyBinding : Nat := noOpline
deriving Repr, DecidableEq

/-- An opline behind the end, which no pass acts on. -/
def ZendOp.outside : ZendOp :=
  ⟨.nop, .none, .none, .none, 0⟩

/-- `op_array->opcodes[n]`. -/
def opAt (opcodes : List ZendOp) (n : Nat) : ZendOp :=
  opcodes.getD n .outside

theorem opAt_of_getElem? {opcodes : List ZendOp} {n : Nat} {op : ZendOp}
    (h : opcodes[n]? = some op) : opAt opcodes n = op := by
  rw [opAt, List.getD_eq_getElem?_getD, h]
  rfl

theorem opAt_set (opcodes : List ZendOp) (i j : Nat) (op : ZendOp) : opAt (opcodes.set i op) j =
      if i = j ∧ j < opcodes.length then op else opAt opcodes j := by
  simp only [opAt, List.getD_eq_getElem?_getD, List.getElem?_set]
  by_cases hij : i = j
  · subst hij
    by_cases hlt : i < opcodes.length
    · simp [hlt]
    · simp [hlt]
  · simp [hij]

theorem opAt_set_eq {opcodes : List ZendOp} {n : Nat} {op : ZendOp}
    (h : n < opcodes.length) : opAt (opcodes.set n op) n = op := by
  simp [opAt, h]

theorem opAt_set_ne {opcodes : List ZendOp} {n p : Nat} {op : ZendOp}
    (h : p ≠ n) : opAt (opcodes.set n op) p = opAt opcodes p := by
  simp [opAt, Ne.symm h]

theorem opAt_outside {opcodes : List ZendOp} {n : Nat}
    (h : opcodes.length ≤ n) : opAt opcodes n = .outside := by
  simp [opAt, h]

end PhpEngine

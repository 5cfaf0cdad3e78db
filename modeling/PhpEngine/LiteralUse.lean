/-
How the handlers of `zend_vm_def.h` use the literals of an opline, and what
the compiler promises of the table it builds for them: each constant operand
has its literals to itself, one behind the other, and the literals behind a
name are computed from the name.
-/
import PhpEngine.CompactLiterals

namespace PhpEngine

variable {α : Type}

/-- What a handler takes a constant operand for.  The flag of a member says
whether its class is a constant operand too, or whether its object is
`$this`. -/
inductive LiteralUse where
  | value
  | func
  | funcByName
  | nsFuncByName
  | className
  | constName (inNamespace : Bool)
  | classConst (ofConstClass : Bool)
  | staticMethod (ofConstClass : Bool)
  | staticProperty (ofConstClass : Bool)
  | method (ofThis : Bool)
  | property (ofThis : Bool)
deriving Repr, DecidableEq

namespace LiteralUse

/-- The literals the handler reads from the operand on: after a name come the
name in lower case, the name without its namespace, and so on. -/
def related : LiteralUse → Nat
  | .value | .func | .classConst _ | .staticProperty _ | .property _ => 1
  | .funcByName | .className | .staticMethod _ | .method _ => 2
  | .nsFuncByName => 3
  | .constName inNamespace => if inNamespace then 5 else 3

/-- The cells of the run-time cache the handler uses: one for `CACHED_PTR`,
two for `CACHED_POLYMORPHIC_PTR`. -/
def slots : LiteralUse → Nat
  | .value => 0
  | .func | .funcByName | .nsFuncByName | .className | .constName _ => 1
  | .classConst ofConstClass | .staticMethod ofConstClass =>
    if ofConstClass then 1 else 2
  | .staticProperty _ | .method _ | .property _ => 2

/-- The handler reads the text of the literal without a look at its type. -/
def isName : LiteralUse → Bool
  | .value | .property _ => false
  | _ => true

theorem related_pos (use : LiteralUse) : 0 < use.related := by
  cases use with
  | constName inNamespace => cases inNamespace <;> decide
  | _ => exact Nat.succ_pos _

end LiteralUse

/-- The opcodes by the literals their handlers use.  All compound assignments
share one helper. -/
def Opcode.handlerLabel : Opcode → LiteralSwitch
  | .doFcall => .doFcall
  | .initFcallByName => .initFcallByName
  | .initNsFcallByName => .initNsFcallByName
  | .initMethodCall => .initMethodCall
  | .initStaticMethodCall => .initStaticMethodCall
  | .catchOp => .catchClass
  | .fetchConstant => .fetchConstant
  | .fetchR | .fetchW | .fetchRw | .fetchFuncArg | .fetchUnset | .fetchIs
  | .unsetVar | .issetIsemptyVar => .fetchVar
  | .fetchClass | .addInterface | .addTrait => .fetchClass
  | .preIncObj | .preDecObj | .postIncObj | .postDecObj | .fetchObjR
  | .fetchObjW | .fetchObjRw | .fetchObjIs | .fetchObjFuncArg
  | .fetchObjUnset | .assignObj | .unsetObj | .issetIsemptyPropObj => .property
  | .assignAdd | .assignSub | .assignMul | .assignDiv | .assignMod
  | .assignSl | .assignSr | .assignConcat | .assignBwOr | .assignBwAnd
  | .assignBwXor | .assignPow => .compoundAssign
  | _ => .other

inductive OperandSide where
  | op1
  | op2
deriving Repr, DecidableEq

def ZendOp.operand (opline : ZendOp) : OperandSide → Operand
  | .op1 => opline.op1
  | .op2 => opline.op2

/-- The use of an operand under a label. -/
def LiteralSwitch.use (label : LiteralSwitch) (opline : ZendOp) : OperandSide → LiteralUse
  | .op1 =>
    match label with
    | .doFcall => .func
    | .initStaticMethodCall | .catchClass | .fetchConstant => .className
    | .fetchVar =>
      if opline.op2.type = .unused then .value
      else .staticProperty (opline.op2.type = .const)
    | _ => .value
  | .op2 =>
    match label with
    | .initFcallByName => .funcByName
    | .initNsFcallByName => .nsFuncByName
    | .initMethodCall => .method (opline.op1.type = .unused)
    | .initStaticMethodCall => .staticMethod (opline.op1.type = .const)
    | .fetchConstant =>
      if opline.op1.type = .unused then
        .constName (opline.extendedValue &&& inNamespaceUnqualified = inNamespaceUnqualified)
      else .classConst (opline.op1.type = .const)
    | .fetchVar | .fetchClass => .className
    | .property => .property (opline.op1.type = .unused)
    | .compoundAssign =>
      if opline.extendedValue = zendAssignObj then
        .property (opline.op1.type = .unused)
      else .value
    | _ => .value

def ZendOp.use (opline : ZendOp) : OperandSide → LiteralUse :=
  opline.opcode.handlerLabel.use opline

/-- The operand types under which the handlers exist and the compiler emits
their oplines. -/
def LiteralSwitch.Accepts (opline : ZendOp) : LiteralSwitch → Prop
  | .doFcall => opline.op1.type = .const ∧ opline.op2.type ≠ .const
  | .initFcallByName => opline.op1.type ≠ .const
  | .initNsFcallByName => opline.op1.type ≠ .const ∧ opline.op2.type = .const
  | .initMethodCall => opline.op1.type ≠ .const
  | .initStaticMethodCall => True
  | .catchClass => opline.op1.type = .const ∧ opline.op2.type ≠ .const
  | .fetchConstant => opline.op2.type = .const
  | .fetchVar => True
  | .fetchClass => opline.op1.type ≠ .const
  | .property => opline.op1.type ≠ .const
  | .compoundAssign => opline.op1.type ≠ .const
  | .other => True

instance (opline : ZendOp) (label : LiteralSwitch) : Decidable (label.Accepts opline) :=
  match label with
  | .doFcall | .initNsFcallByName | .catchClass =>
    inferInstanceAs (Decidable (_ ∧ _))
  | .initFcallByName | .initMethodCall | .fetchClass | .property
  | .compoundAssign => inferInstanceAs (Decidable (_ ≠ _))
  | .fetchConstant => inferInstanceAs (Decidable (_ = _))
  | .initStaticMethodCall | .fetchVar | .other => .isTrue trivial

def ZendOp.Accepted (opline : ZendOp) : Prop :=
  opline.opcode.handlerLabel.Accepts opline

instance (opline : ZendOp) : Decidable opline.Accepted :=
  inferInstanceAs (Decidable (opline.opcode.handlerLabel.Accepts opline))

/-- A constant operand: the number of its opline, the opline and the side. -/
structure ConstOperand where
  line : Nat
  opline : ZendOp
  side : OperandSide
deriving Repr, DecidableEq

namespace ConstOperand

def num (x : ConstOperand) : Nat :=
  (x.opline.operand x.side).num

def use (x : ConstOperand) : LiteralUse :=
  x.opline.use x.side

end ConstOperand

/-- The constant operands of an opline. -/
def constOperandsOf (line : Nat) (opline : ZendOp) : List ConstOperand :=
  [OperandSide.op1, OperandSide.op2].filterMap fun side =>
    if (opline.operand side).type = .const then some ⟨line, opline, side⟩
    else none

def constOperands (opcodes : List ZendOp) : List ConstOperand :=
  opcodes.zipIdx.flatMap fun entry => constOperandsOf entry.2 entry.1

theorem mem_constOperands {opcodes : List ZendOp} {x : ConstOperand} : x ∈ constOperands opcodes ↔
      opcodes[x.line]? = some x.opline ∧ (x.opline.operand x.side).type = .const := by
  obtain ⟨line, opline, side⟩ := x
  simp only [constOperands, constOperandsOf, List.mem_flatMap, Prod.exists,
    List.mem_zipIdx_iff_getElem?, List.mem_filterMap]
  constructor
  · rintro ⟨op, k, hk, side', -, hsome⟩
    split at hsome
    · case isTrue htype =>
        cases hsome
        exact ⟨hk, htype⟩
    · cases hsome
  · rintro ⟨hline, htype⟩
    refine ⟨opline, line, hline, side, ?_, if_pos htype⟩
    cases side <;> simp

/-- The constant of a literal, if the table has it. -/
def constantAt (literals : List (ZendLiteral α)) (n : Nat) : Option (LiteralZval α) :=
  literals[n]?.map ZendLiteral.constant

/-- The type is `IS_STRING` or `IS_CONSTANT`. -/
def LiteralZval.isText : LiteralZval α → Bool
  | .string _ => true
  | .constant _ => true
  | _ => false

/-- What the compiler promises of the operands and the literals of its code. -/
structure CompiledCode.WellFormed (code : CompiledCode α) : Prop where
  accepted : ∀ opline ∈ code.opcodes, opline.Accepted
  inTable : ∀ x ∈ constOperands code.opcodes, x.num + x.use.related ≤ code.literals.length
  names : ∀ x ∈ constOperands code.opcodes, x.use.isName = true →
    (literalAt code.literals x.num).constant.isString = true
  notConstant : ∀ x ∈ constOperands code.opcodes, x.use ≠ .value →
    (literalAt code.literals x.num).constant.isText = true →
    (literalAt code.literals x.num).constant.isString = true
  ownLiteral : ∀ x ∈ constOperands code.opcodes, ∀ y ∈ constOperands code.opcodes, x.num = y.num →
      x = y ∨ x.use = .value ∧ y.use = .value
  apart : ∀ x ∈ constOperands code.opcodes, ∀ y ∈ constOperands code.opcodes, x.num < y.num →
      x.num + x.use.related ≤ y.num
  ofName : ∀ x ∈ constOperands code.opcodes, ∀ y ∈ constOperands code.opcodes, x.use = y.use →
      constantAt code.literals x.num = constantAt code.literals y.num →
      ∀ t < x.use.related, constantAt code.literals (x.num + t) =
        constantAt code.literals (y.num + t)

end PhpEngine

/-
Pass 3 of the optimizer: `$i = $i + expr` becomes `$i += expr`, series of
jumps are shortened, and `$i++` becomes `++$i` where its value is not used.
-/
import PhpEngine.OpArray

namespace PhpEngine

/-- `SAME_VAR`: both are VARs or both TMP_VARs. -/
def sameVar (o o' : Operand) : Bool :=
  ((o.type = .var && o'.type = .var) || (o.type = .tmpVar && o'.type = .tmpVar)) && o.num = o'.num

/-- The opcode + 3 of JMPZ and JMPNZ. -/
def jmpEx : Opcode → Opcode
  | .jmpz => .jmpzEx
  | _ => .jmpnzEx

def invCond (opcode : Opcode) : Opcode :=
  if opcode = .jmpz then .jmpnz else .jmpz

def invExCond (opcode : Opcode) : Opcode :=
  if opcode = .jmpzEx then .jmpnz else .jmpz

def invCondEx (opcode : Opcode) : Opcode :=
  if opcode = .jmpz then .jmpnzEx else .jmpzEx

def invExCondEx (opcode : Opcode) : Opcode :=
  if opcode = .jmpzEx then .jmpnzEx else .jmpzEx

def sameOpcodeEx (oc1 oc2 : Opcode) : Bool :=
  oc1 = oc2 || (oc1 = .jmpzEx && oc2 = .jmpz) || (oc1 = .jmpnzEx && oc2 = .jmpnz)

def ZendOp.setOp1 (op : ZendOp) (n : Nat) : ZendOp :=
  { op with op1 := { op.op1 with num := n } }

def ZendOp.setOp2 (op : ZendOp) (n : Nat) : ZendOp :=
  { op with op2 := { op.op2 with num := n } }

def ZendOp.setExt (op : ZendOp) (n : Nat) : ZendOp :=
  { op with extendedValue := n }

/-! Assignments. -/

/-- The compound assignment of an operator. -/
def assignOpcode : Opcode → Option Opcode
  | .add => some .assignAdd
  | .sub => some .assignSub
  | .mul => some .assignMul
  | .div => some .assignDiv
  | .mod => some .assignMod
  | .pow => some .assignPow
  | .concat => some .assignConcat
  | .sl => some .assignSl
  | .sr => some .assignSr
  | .bwOr => some .assignBwOr
  | .bwAnd => some .assignBwAnd
  | .bwXor => some .assignBwXor
  | _ => none

def Operand.isVariable (o : Operand) : Bool :=
  o.type = .var || o.type = .cv

def swappable (opcode : Opcode) : Bool :=
  opcode = .add || opcode = .mul || opcode = .bwOr || opcode = .bwAnd || opcode = .bwXor

/-- `$i = expr + $i` becomes `$i = $i + expr`, but not where it could be a
sum of arrays. -/
def swapOperands (op next : ZendOp) : ZendOp :=
  if op.op2.isVariable ∧ op.op2.num = next.op1.num ∧ swappable op.opcode ∧
      (op.opcode ≠ .add ∨ op.op1.type = .const) then
    { op with op1 := op.op2, op2 := op.op1 }
  else op

/-- The first opline from `m` on that is no NOP, among `n` oplines. -/
def skipNops (opcodes : List ZendOp) : Nat → Nat → Nat
  | 0, m => m
  | n + 1, m =>
    if (opAt opcodes m).opcode = .nop then skipNops opcodes n (m + 1) else m

def nextOpline (opcodes : List ZendOp) (n : Nat) : Nat :=
  skipNops opcodes (opcodes.length - (n + 1)) (n + 1)

/-- What a rewriting puts in the place of an opline, and the opline that it
turns into a NOP. -/
structure Rewriting where
  op : ZendOp
  gone : Option Nat

/-- An operator (with the compound assignment `assigned`) at `n`. -/
def rewriteAssign (opcodes : List ZendOp) (n : Nat) (assigned : Opcode) : Rewriting :=
  let op := opAt opcodes n
  let m := nextOpline opcodes n
  let next := opAt opcodes m
  if m < opcodes.length ∧ next.opcode = .assign then
    let op := swapOperands op next
    if op.op1.isVariable ∧ op.op1.num = next.op1.num ∧ op.op1.type = next.op1.type then
      ⟨{ op with opcode := assigned, result := next.result }, some m⟩
    else ⟨op, none⟩
  else ⟨op, none⟩

/-- POST_INC and FREE become PRE_INC (and likewise POST_DEC). -/
def rewritePostInc (opcodes : List ZendOp) (n : Nat) (pre : Opcode) : Rewriting :=
  let op := opAt opcodes n
  let next := opAt opcodes (n + 1)
  if n + 1 < opcodes.length ∧ next.opcode = .freeOp ∧ next.op1.num = op.result.num then
    ⟨{ op with opcode := pre, result := ⟨.var, op.result.num, true⟩ }, some (n + 1)⟩
  else ⟨op, none⟩

def Rewriting.apply (r : Rewriting) (opcodes : List ZendOp) (n : Nat) : List ZendOp :=
  match r.gone with
  | none => opcodes.set n r.op
  | some m => (opcodes.set n r.op).set m (opAt opcodes m).makeNop

/-! Jumps.  A loop gives `none` when it has not come to an end within `fuel`
turns. -/

section Jumps

variable (n : Nat)

/-- The target that `get` reads from the opline `n` and `set` writes to it
goes through plain JMPs.  The hit list is kept for a second loop. -/
def threadJmps (get : ZendOp → Nat) (set : ZendOp → Nat → ZendOp) :
    Nat → List ZendOp → List Nat → Option (List ZendOp × List Nat)
  | 0, _, _ => none
  | fuel + 1, opcodes, hitlist =>
    let op := opAt opcodes n
    let target := opAt opcodes (get op)
    if get op < opcodes.length ∧ target.opcode = .jmp then
      if target.op1.num ∈ hitlist then some (opcodes, hitlist)
      else
        threadJmps get set fuel (opcodes.set n (set op target.op1.num))
          (hitlist ++ [target.op1.num])
    else some (opcodes, hitlist)

/-- The loop for JMP_SET, which keeps no hit list. -/
def threadJmpSet : Nat → List ZendOp → Option (List ZendOp)
  | 0, _ => none
  | fuel + 1, opcodes =>
    let op := opAt opcodes n
    let target := opAt opcodes op.op2.num
    if op.op2.num < opcodes.length ∧ target.opcode = .jmp then
      threadJmpSet fuel (opcodes.set n (op.setOp2 target.op1.num))
    else some opcodes

/-- The loop for JMPZ and JMPNZ. -/
def threadJmpz : Nat → List ZendOp → List Nat → Option (List ZendOp)
  | 0, _, _ => none
  | fuel + 1, opcodes, hitlist =>
    let op := opAt opcodes n
    let target := opAt opcodes op.op2.num
    if op.op2.num < opcodes.length then
      if target.opcode = .jmp then
        if target.op1.num ∈ hitlist then some opcodes
        else
          threadJmpz fuel (opcodes.set n (op.setOp2 target.op1.num)) (hitlist ++ [target.op1.num])
      else if target.opcode = op.opcode ∧ sameVar op.op1 target.op1 then
        if target.op2.num ∈ hitlist then some opcodes
        else
          threadJmpz fuel (opcodes.set n (op.setOp2 target.op2.num)) (hitlist ++ [target.op2.num])
      else if target.opcode = jmpEx op.opcode ∧ sameVar op.op1 target.op1 then
        some (opcodes.set n { op.setOp2 target.op2.num with
          opcode := jmpEx op.opcode, result := target.result })
      else if target.opcode = invCond op.opcode ∧ sameVar op.op1 target.op1 then
        some (opcodes.set n (op.setOp2 (op.op2.num + 1)))
      else if target.opcode = invCondEx op.opcode ∧ sameVar op.op1 target.op1 then
        some (opcodes.set n { op.setOp2 (op.op2.num + 1) with
          opcode := jmpEx op.opcode, result := target.result })
      else some opcodes
    else some opcodes

/-- The loop for JMPZ_EX and JMPNZ_EX; `t` is the result it compares with. -/
def threadJmpzEx : Nat → List ZendOp → Operand → List Nat → Option (List ZendOp)
  | 0, _, _, _ => none
  | fuel + 1, opcodes, t, hitlist =>
    let op := opAt opcodes n
    let target := opAt opcodes op.op2.num
    if op.op2.num < opcodes.length then
      if sameOpcodeEx op.opcode target.opcode ∧ sameVar target.op1 t then
        let t := if target.opcode = op.opcode then target.result else t
        if target.op2.num ∈ hitlist then some opcodes
        else
          threadJmpzEx fuel (opcodes.set n (op.setOp2 target.op2.num)) t
            (hitlist ++ [target.op2.num])
      else if target.opcode = .jmpznz ∧ sameVar target.op1 t then
        if target.op2.num ∈ hitlist then some opcodes
        else
          threadJmpzEx fuel (opcodes.set n (op.setOp2 (if op.opcode = .jmpzEx then
              target.op2.num else target.extendedValue))) t
            (hitlist ++ [target.op2.num])
      else if (target.opcode = invExCondEx op.opcode ∨ target.opcode = invExCond op.opcode) ∧
          sameVar op.op1 target.op1 then
        some (opcodes.set n (op.setOp2 (op.op2.num + 1)))
      else some opcodes
    else some opcodes

def jmpCase (fuel : Nat) (opcodes : List ZendOp) : Option (List ZendOp) :=
  let op := opAt opcodes n
  if op.op1.num = n + 1 then some (opcodes.set n op.makeNop)
  else
    (threadJmps n (fun op => op.op1.num) ZendOp.setOp1 fuel opcodes []).map Prod.fst

def jmpzCase (fuel : Nat) (opcodes : List ZendOp) : Option (List ZendOp) :=
  let op := opAt opcodes n
  if op.op2.num = n + 1 then some (opcodes.set n op.makeNop)
  else threadJmpz n fuel opcodes []

def jmpzExCase (fuel : Nat) (opcodes : List ZendOp) : Option (List ZendOp) :=
  let op := opAt opcodes n
  if op.op2.num = n + 1 then
    if op.op1.num = op.result.num then some (opcodes.set n op.makeNop)
    else
      some (opcodes.set n { op with opcode := .bool, op2 := { op.op2 with type := .unused } })
  else threadJmpzEx n fuel opcodes op.result []

def jmpznzCase (fuel : Nat) (opcodes : List ZendOp) : Option (List ZendOp) :=
  (threadJmps n (fun op => op.op2.num) ZendOp.setOp2 fuel opcodes []).bind fun r =>
      (threadJmps n (fun op => op.extendedValue) ZendOp.setExt fuel r.1 r.2).map Prod.fst

/-- One turn of the pass at `n`: the oplines, and where the next turn is.  A
rewritten assignment leaves out the opline behind it. -/
def pass3Turn (fuel : Nat) (hasFinallyBlock : Bool) (opcodes : List ZendOp) :
    Option (List ZendOp × Nat) :=
  let op := opAt opcodes n
  match assignOpcode op.opcode with
  | some assigned =>
    let r := rewriteAssign opcodes n assigned
    some (r.apply opcodes n, if r.gone.isSome then n + 2 else n + 1)
  | none =>
    match op.opcode with
    | .postInc =>
      some ((rewritePostInc opcodes n .preInc).apply opcodes n, n + 1)
    | .postDec =>
      some ((rewritePostInc opcodes n .preDec).apply opcodes n, n + 1)
    | .jmp =>
      if hasFinallyBlock then some (opcodes, n + 1)
      else (jmpCase n fuel opcodes).map (·, n + 1)
    | .jmpSet | .jmpSetVar =>
      if hasFinallyBlock then some (opcodes, n + 1)
      else (threadJmpSet n fuel opcodes).map (·, n + 1)
    | .jmpz | .jmpnz =>
      if hasFinallyBlock then some (opcodes, n + 1)
      else (jmpzCase n fuel opcodes).map (·, n + 1)
    | .jmpzEx | .jmpnzEx =>
      if hasFinallyBlock then some (opcodes, n + 1)
      else (jmpzExCase n fuel opcodes).map (·, n + 1)
    | .jmpznz =>
      if hasFinallyBlock then some (opcodes, n + 1)
      else (jmpznzCase n fuel opcodes).map (·, n + 1)
    | _ => some (opcodes, n + 1)

end Jumps

/-- The loop over the oplines, for at most `turns` of them. -/
def pass3Loop (fuel : Nat) (hasFinallyBlock : Bool) : Nat → Nat → List ZendOp → Option (List ZendOp)
  | 0, _, opcodes => some opcodes
  | turns + 1, n, opcodes =>
    if n < opcodes.length then
      (pass3Turn n fuel hasFinallyBlock opcodes).bind fun r =>
        pass3Loop fuel hasFinallyBlock turns r.2 r.1
    else some opcodes

/-- Pass 3.  Every turn goes on by at least one opline. -/
def pass3 (fuel : Nat) (a : OpArray) : Option OpArray :=
  (pass3Loop fuel a.hasFinallyBlock a.opcodes.length 0 a.opcodes).map
    fun opcodes => { a with opcodes := opcodes }

end PhpEngine

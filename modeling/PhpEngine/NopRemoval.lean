/-
Pass 10 of the optimizer.  NOPs are taken out while the oplines are moved
down in place; the numbers that stand for oplines are then relocated.
-/
import PhpEngine.OpArray
import PhpEngine.Compaction

namespace PhpEngine

/-- Subtraction of two `zend_uint`s. -/
def uintSub (m n : Nat) : Nat :=
  (m + uintMod - n % uintMod) % uintMod

/-- `int -= zend_uint`. -/
def intSub (m : Int) (n : Nat) : Int :=
  toInt (uintSub (m % uintMod).toNat n)

/-- `ulong -= zend_uint`. -/
def ulongSub (m n : Nat) : Nat :=
  (m + ulongMod - n % ulongMod) % ulongMod

def Literal.isLong : Literal → Bool
  | .long _ => true
  | _ => false

/-- The local variables of the scan. -/
structure NopScan where
  opcodes : List ZendOp
  newCount : Nat
  shift : Nat
  shiftlist : List Nat

/-- `target--` over NOPs. -/
def skipNopsDown (opcodes : List ZendOp) : Nat → Nat
  | 0 => 0
  | target + 1 =>
    if (opAt opcodes (target + 1)).opcode = .nop then
      skipNopsDown opcodes target
    else target + 1

/-- A JMP over NOPs becomes a NOP. -/
def killJmp (opcodes : List ZendOp) (i : Nat) : ZendOp :=
  let op := opAt opcodes i
  if op.opcode = .jmp ∧ i < op.op1.num ∧ skipNopsDown opcodes (op.op1.num - 1) = i then
    { op with opcode := .nop }
  else op

/-- One opline of the scan; `none` is the early return at a GOTO whose target
is not resolved. -/
def nopScanStep (literals : List Literal) (i : Nat) (s : NopScan) : Option NopScan :=
  if (opAt s.opcodes i).opcode = .goto ∧
      ¬ (literals.getD (opAt s.opcodes i).op2.num .null).isLong then none
  else
    let op := killJmp s.opcodes i
    let opcodes := s.opcodes.set i op
    if op.opcode = .nop then
      some ⟨opcodes, s.newCount, s.shift + 1, s.shiftlist ++ [s.shift]⟩
    else
      some ⟨if s.shift ≠ 0 then opcodes.set s.newCount op else opcodes,
        s.newCount + 1, s.shift, s.shiftlist ++ [s.shift]⟩

/-- The scan of `n` oplines from `i` on, and whether it came to the end. -/
def nopScan (literals : List Literal) : Nat → Nat → NopScan → NopScan × Bool
  | 0, _, s => (s, true)
  | n + 1, i, s =>
    match nopScanStep literals i s with
    | some s => nopScan literals n (i + 1) s
    | none => (s, false)

/-- `shiftlist[n]`.  Outside of the list it reads what is next to it in
memory. -/
def shiftAt (memory : Int → Nat) (shiftlist : List Nat) (n : Int) : Nat :=
  if 0 ≤ n ∧ n < shiftlist.length then shiftlist.getD n.toNat 0
  else memory n

/-- The `switch` that updates the oplines: `num` is the relocation of an
operand and `ext` that of an extended value. -/
def relocateOp (num ext : Nat → Nat) (op : ZendOp) : ZendOp :=
  match op.opcode with
  | .jmp | .goto | .fastCall =>
    { op with op1 := { op.op1 with num := num op.op1.num } }
  | .jmpz | .jmpnz | .jmpzEx | .jmpnzEx | .feFetch | .feReset | .newOp
  | .jmpSet | .jmpSetVar =>
    { op with op2 := { op.op2 with num := num op.op2.num } }
  | .jmpznz =>
    { op with
      op2 := { op.op2 with num := num op.op2.num }
      extendedValue := ext op.extendedValue }
  | .catchOp => { op with extendedValue := ext op.extendedValue }
  | _ => op

def relocateBrkCont (num : Nat → Nat) (start : Int → Int) (e : BrkContElement) : BrkContElement :=
  { e with
    brk := num e.brk
    cont := num e.cont
    start := start e.start }

def relocateTryCatch (num : Nat → Nat) (e : TryCatchElement) : TryCatchElement :=
  { tryOp := num e.tryOp
    catchOp := num e.catchOp
    finallyOp := if e.finallyOp ≠ 0 then num e.finallyOp else e.finallyOp
    finallyEnd := if e.finallyOp ≠ 0 then num e.finallyEnd else e.finallyEnd }

section Relocate

variable (shift : Int → Nat)

def relocateNum (n : Nat) : Nat :=
  uintSub n (shift n)

def relocateExt (n : Nat) : Nat :=
  ulongSub n (shift n)

def relocateStart (n : Int) : Int :=
  intSub n (shift n)

/-- The list of early bindings behind the opline `n`.  The loop ends only at
a link of -1; `fuel` bounds its turns. -/
def relocateChain : Nat → List ZendOp → Nat → Option (List ZendOp)
  | 0, _, _ => none
  | fuel + 1, opcodes, n =>
    let op := opAt opcodes n
    if op.result.num = noOpline then some opcodes
    else
      let next := relocateNum shift op.result.num
      relocateChain fuel (opcodes.set n { op with result := { op.result with num := next } }) next

end Relocate

/-- `nop_removal`. -/
def nopRemoval (memory : Int → Nat) (fuel : Nat) (a : OpArray) : Option OpArray :=
  let scan := nopScan a.literals a.opcodes.length 0 ⟨a.opcodes, 0, 0, []⟩
  if scan.2 ∧ scan.1.shift ≠ 0 then
    let shift := shiftAt memory scan.1.shiftlist
    let a :=
      { a with
        opcodes := (scan.1.opcodes.take scan.1.newCount).map
          (relocateOp (relocateNum shift) (relocateExt shift))
        brkContArray := a.brkContArray.map
          (relocateBrkCont (relocateNum shift) (relocateStart shift))
        tryCatchArray := a.tryCatchArray.map (relocateTryCatch (relocateNum shift)) }
    if a.earlyBinding ≠ noOpline then
      let first := relocateNum shift a.earlyBinding
      (relocateChain shift fuel a.opcodes first).map fun opcodes =>
        { a with opcodes := opcodes, earlyBinding := first }
    else some a
  else some { a with opcodes := scan.1.opcodes }

end PhpEngine

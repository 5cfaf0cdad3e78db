/-
`zend_t_usage` (ext/opcache/Optimizer/block_pass.c), which finds the temporaries that are used
outside of their blocks and takes away results that are never used.
-/
import PhpEngine.CodeBlocks
import PhpEngine.TempVars

namespace PhpEngine

namespace TUsage

open TempVars List Function

/-- The arrays of flags of the source, indexed by temporaries. -/
abbrev Usage :=
  Nat → Bool

def mark (usage : Usage) (t : Nat) (flag : Bool) : Usage :=
  update usage t flag

/-- `RESULT_USED` -/
def resultUsed (op : ZendOp) : Bool :=
  isTemp op.result && !op.result.extUnused

/-- The opcodes that use their result as an argument. -/
def ownResult (opcode : Opcode) : Bool :=
  opcode = .recv || opcode = .recvInit || opcode = .recvVariadic || opcode = .addArrayElement

/-- The opcodes for which the first phase takes the result as used: also OP_DATA, whose result is
only written, by the FE_FETCH in front of it. -/
def usesResult (op : ZendOp) : Bool :=
  ownResult op.opcode || (op.opcode = .opData && op.result.type = .tmpVar)

/-- `T_USAGE` -/
def tUsage (definedHere usedExt : Usage) (o : Operand) : Usage :=
  if isTemp o && !definedHere o.num && !usedExt o.num then mark usedExt o.num true else usedExt

/-- An opline in the first phase: `defined_here` and `used_ext` -/
def tUsageOpline (s : Usage × Usage) (op : ZendOp) : Usage × Usage :=
  let usedExt := tUsage s.1 (tUsage s.1 s.2 op.op1) op.op2
  if resultUsed op then
    (mark s.1 op.result.num true,
      if !s.1 op.result.num && !usedExt op.result.num && usesResult op then
        mark usedExt op.result.num true
      else usedExt)
  else (s.1, usedExt)

def tUsageBlock (usedExt : Usage) (block : CodeBlock) : Usage :=
  if block.access then (block.opcodes.foldl tUsageOpline (fun _ => false, usedExt)).2
  else usedExt

/-- `RES_NEVER_USED` -/
def resNeverUsed (usage : Usage) (op : ZendOp) : Bool :=
  (op.result.type = .unused && !op.result.extUnused) || (isTemp op.result && !usage op.result.num)

/-- The opcodes whose result is only marked as unused. -/
def marksResult : Opcode → Bool
  | .assignAdd | .assignSub | .assignMul | .assignDiv | .assignMod | .assignSl | .assignSr
  | .assignConcat | .assignBwOr | .assignBwAnd | .assignBwXor | .preInc | .preDec | .postInc
  | .postDec | .assign | .assignRef | .doFcall | .doFcallByName => true
  | _ => false

/-- What becomes of an opline whose result is never used. -/
def withoutResult (op : ZendOp) : ZendOp :=
  if marksResult op.opcode then
    if op.result.type = .var && !op.result.extUnused then
      { op with result := { op.result with extUnused := true } }
    else op
  else match op.opcode with
  | .qmAssign | .bool | .boolNot => op.makeNop
  | .print =>
    { op with opcode := .echo, result := { op.result with type := .unused, extUnused := false } }
  | .jmpzEx => { op with opcode := .jmpz, result := .none }
  | .jmpnzEx => { op with opcode := .jmpnz, result := .none }
  | _ => op

def useOperand (usage : Usage) (o : Operand) : Usage :=
  if isTemp o then mark usage o.num true else usage

/-- The result in the backward phase: it is not used in front of its definition, but where the
opcode uses it as an argument. -/
def passResult (usage : Usage) (op : ZendOp) : Usage :=
  if ownResult op.opcode then
    if isTemp op.op1 then mark usage op.result.num true else usage
  else if resultUsed op then mark usage op.result.num false
  else usage

/-- A result marked as unused is used after all. -/
def restoreResult (usage : Usage) (op : ZendOp) : ZendOp :=
  if op.result.type = .var && op.result.extUnused && usage op.result.num then
    { op with result := { op.result with extUnused := false } }
  else op

/-- An opline in the backward phase; `usage` is that behind it. -/
def scanOpline (usage : Usage) (op : ZendOp) : ZendOp × Usage :=
  let op := if resNeverUsed usage op then withoutResult op else op
  let usage := useOperand (useOperand (passResult usage op) op.op1) op.op2
  (restoreResult usage op, usage)

def scanBlock (usedExt : Usage) : List ZendOp → List ZendOp × Usage
  | [] => ([], usedExt)
  | op :: rest =>
    let (rest, usage) := scanBlock usedExt rest
    let (op, usage) := scanOpline usage op
    (op :: rest, usage)

/-- `zend_t_usage`, with an empty `used_ext` as `zend_block_optimization` calls it; `T` is
`op_array->T`. -/
def zendTUsage (cfg : Cfg) (T : Nat) : Cfg × Usage :=
  if T = 0 then (cfg, fun _ => false)
  else
    let usedExt := cfg.tail.foldl tUsageBlock fun _ => false
    (cfg.map fun block =>
      if block.access then { block with opcodes := (scanBlock usedExt block.opcodes).1 }
      else block, usedExt)

/-! Reads and definitions. -/

def operand (op : ZendOp) (t : Nat) : Bool :=
  (isTemp op.op1 && op.op1.num == t) || (isTemp op.op2 && op.op2.num == t)

def defines (op : ZendOp) (t : Nat) : Bool :=
  resultUsed op && op.result.num == t

/-- What an opline reads: its operands, its own result where the opcode uses it as an argument,
and the class that an inherited class is declared with. -/
def reads (op : ZendOp) (t : Nat) : Bool :=
  operand op t || (ownResult op.opcode && defines op t) || (extIsTemp op && op.extendedValue == t)

/-- `t` is used in a block in front of any definition there. -/
def exposes : List ZendOp → Nat → Bool
  | [], _ => false
  | op :: rest, t =>
    operand op t || (usesResult op && defines op t) || (!defines op t && exposes rest t)

/-- A block other than the first one exposes `t`. -/
def usedOutside (cfg : Cfg) : Usage :=
  fun t => cfg.tail.any fun block => block.access && exposes block.opcodes t

section FirstPhase

variable {definedHere usedExt : Usage} {t : Nat}

theorem tUsage_eq (definedHere usedExt : Usage) (o : Operand) (t : Nat) :
    tUsage definedHere usedExt o t =
      (usedExt t || (!definedHere t && (isTemp o && o.num == t))) := by
  rw [tUsage]
  by_cases ht : o.num = t
  · subst ht
    by_cases hif : (isTemp o && !definedHere o.num && !usedExt o.num) = true
    · rw [if_pos hif, mark, update_self]
      simp only [Bool.and_eq_true, Bool.not_eq_true'] at hif
      rw [hif.1.1, hif.1.2, hif.2]
      simp
    · rw [if_neg hif]
      cases htemp : isTemp o <;> cases hdef : definedHere o.num <;>
        cases hused : usedExt o.num <;> simp_all
  · have hne : (o.num == t) = false := beq_eq_false_iff_ne.mpr ht
    rw [hne]
    split
    · rw [mark, update_of_ne (Ne.symm ht)]
      simp
    · simp

theorem tUsageOpline_defined (s : Usage × Usage) (op : ZendOp) (t : Nat) :
    (tUsageOpline s op).1 t = (s.1 t || defines op t) := by
  rw [tUsageOpline, defines]
  by_cases hused : resultUsed op = true
  · rw [if_pos hused, hused, Bool.true_and]
    dsimp only
    by_cases ht : op.result.num = t
    · rw [mark, ht, update_self]
      simp
    · rw [mark, update_of_ne (Ne.symm ht), beq_eq_false_iff_ne.mpr ht, Bool.or_false]
  · rw [if_neg hused, Bool.eq_false_iff.mpr hused]
    simp

theorem tUsageOpline_used (s : Usage × Usage) (op : ZendOp) (t : Nat) : (tUsageOpline s op).2 t =
      (s.2 t || (!s.1 t && (operand op t || (usesResult op && defines op t)))) := by
  have hoperand : tUsage s.1 (tUsage s.1 s.2 op.op1) op.op2 t =
      (s.2 t || (!s.1 t && operand op t)) := by
    rw [tUsage_eq, tUsage_eq, operand]
    cases s.2 t <;> cases s.1 t <;> simp
  rw [tUsageOpline, defines]
  by_cases hused : resultUsed op = true
  · rw [if_pos hused, hused, Bool.true_and]
    dsimp only
    by_cases ht : op.result.num = t
    · subst ht
      rw [hoperand, beq_self_eq_true, Bool.and_true]
      split
      case isTrue hif =>
        rw [mark, update_self]
        simp only [Bool.and_eq_true, Bool.not_eq_true'] at hif
        rw [hif.1.1, hif.2]
        simp
      case isFalse hif =>
        rw [hoperand]
        revert hif
        cases s.2 op.result.num <;> cases s.1 op.result.num <;>
          cases operand op op.result.num <;> cases usesResult op <;> simp
    · rw [beq_eq_false_iff_ne.mpr ht, Bool.and_false, Bool.or_false, ← hoperand]
      split
      · rw [mark, update_of_ne (Ne.symm ht)]
      · rfl
  · rw [if_neg hused, Bool.eq_false_iff.mpr hused]
    dsimp only
    rw [hoperand]
    simp

/-- Behind what is defined already, the oplines add what they expose. -/
theorem foldl_tUsageOpline (ops : List ZendOp) (s : Usage × Usage) (t : Nat) :
    (ops.foldl tUsageOpline s).2 t = (s.2 t || (!s.1 t && exposes ops t)) := by
  induction ops generalizing s with
  | nil => simp [exposes]
  | cons op rest ih =>
    rw [foldl_cons, ih, tUsageOpline_used, tUsageOpline_defined, exposes]
    cases s.2 t <;> cases s.1 t <;> cases operand op t <;> cases defines op t <;>
      cases usesResult op <;> rfl

theorem foldl_tUsageBlock (blocks : List CodeBlock) (usedExt : Usage) (t : Nat) :
    blocks.foldl tUsageBlock usedExt t =
      (usedExt t || blocks.any fun block => block.access && exposes block.opcodes t) := by
  induction blocks generalizing usedExt with
  | nil => simp
  | cons block rest ih =>
    rw [foldl_cons, ih, any_cons, tUsageBlock]
    cases haccess : block.access with
    | false => simp
    | true =>
      rw [if_pos rfl, foldl_tUsageOpline]
      simp [Bool.or_assoc]

/-- The first phase finds what the blocks behind the first one expose. -/
theorem usedExt_eq (cfg : Cfg) : cfg.tail.foldl tUsageBlock (fun _ => false) = usedOutside cfg := by
  funext t
  rw [foldl_tUsageBlock, Bool.false_or]
  rfl

end FirstPhase

/-! The backward phase. -/

/-- The opline is a NOP where its result is not needed. -/
def vanishes (op : ZendOp) : Bool :=
  op.opcode = .qmAssign || op.opcode = .bool || op.opcode = .boolNot

/-- `t` is needed in front of the oplines: one of them that does not vanish itself uses it, or
it is needed behind them and none defines it. -/
def live (out : Usage) : List ZendOp → Nat → Bool
  | [], t => out t
  | op :: rest, t =>
    (!(vanishes op && resNeverUsed (live out rest) op) &&
      (operand op t || (ownResult op.opcode && isTemp op.op1 && op.result.num == t))) ||
    (live out rest t && !(!ownResult op.opcode && defines op t))

section BackwardPhase

variable {usage : Usage} {op : ZendOp} {t : Nat}

theorem useOperand_eq (usage : Usage) (o : Operand) (t : Nat) :
    useOperand usage o t = (usage t || (isTemp o && o.num == t)) := by
  rw [useOperand]
  by_cases htemp : isTemp o = true
  · rw [if_pos htemp, htemp, Bool.true_and]
    by_cases ht : o.num = t
    · rw [mark, ht, update_self]
      simp
    · rw [mark, update_of_ne (Ne.symm ht), beq_eq_false_iff_ne.mpr ht, Bool.or_false]
  · rw [if_neg htemp, Bool.eq_false_iff.mpr htemp]
    simp

theorem withoutResult_vanishes (h : vanishes op = true) : withoutResult op = op.makeNop := by
  simp only [vanishes, Bool.or_eq_true, decide_eq_true_eq] at h
  rcases h with (h | h) | h <;> rw [withoutResult, h] <;> rfl

theorem ownResult_marksResult {opcode : Opcode} (h : marksResult opcode = true) :
    ownResult opcode = false := by
  cases opcode <;> first | rfl | cases h

/-- An opline that does not vanish keeps all but its result, or all. -/
structure KeepsOperands (op op' : ZendOp) : Prop where
  op1 : op'.op1 = op.op1
  op2 : op'.op2 = op.op2
  extendedValue : op'.extendedValue = op.extendedValue
  own : ownResult op'.opcode = ownResult op.opcode
  extTemp : extIsTemp op' = extIsTemp op
  result : op' = op ∨ resultUsed op' = false ∧ ownResult op.opcode = false

theorem withoutResult_keeps (h : vanishes op = false) : KeepsOperands op (withoutResult op) := by
  have hsame : KeepsOperands op op := ⟨rfl, rfl, rfl, rfl, rfl, .inl rfl⟩
  rw [withoutResult]
  by_cases hmarks : marksResult op.opcode = true
  · rw [if_pos hmarks]
    split
    · exact ⟨rfl, rfl, rfl, rfl, rfl, .inr ⟨by simp [resultUsed], ownResult_marksResult hmarks⟩⟩
    · exact hsame
  · rw [if_neg hmarks]
    split
    case _ hop | _ hop | _ hop =>
      rw [vanishes, hop] at h
      cases h
    case _ hop | _ hop | _ hop =>
      exact ⟨rfl, rfl, rfl, by rw [hop]; rfl, by rw [extIsTemp, extIsTemp, hop]; rfl,
        .inr ⟨by simp [resultUsed, isTemp, Operand.none], by rw [hop]; rfl⟩⟩
    case _ => exact hsame

theorem defines_of_neverUsed (h : resNeverUsed usage op = true) (hdef : defines op t = true) :
    usage t = false := by
  simp only [defines, resultUsed, Bool.and_eq_true, Bool.not_eq_true', beq_iff_eq] at hdef
  obtain ⟨⟨htemp, -⟩, rfl⟩ := hdef
  simp only [resNeverUsed, Bool.or_eq_true, Bool.and_eq_true, decide_eq_true_eq,
    Bool.not_eq_true'] at h
  rcases h with ⟨h, -⟩ | ⟨-, h⟩
  · rw [isTemp, h] at htemp
    cases htemp
  · exact h

theorem passResult_eq (usage : Usage) (op : ZendOp) (t : Nat) : passResult usage op t =
      ((ownResult op.opcode && isTemp op.op1 && op.result.num == t) ||
        (usage t && !(!ownResult op.opcode && defines op t))) := by
  rw [passResult, defines]
  cases hown : ownResult op.opcode with
  | true =>
    rw [if_pos rfl]
    cases htemp : isTemp op.op1 with
    | false => simp
    | true =>
      rw [if_pos rfl]
      by_cases ht : op.result.num = t
      · rw [mark, ht, update_self]
        simp
      · rw [mark, update_of_ne (Ne.symm ht), beq_eq_false_iff_ne.mpr ht]
        simp
  | false =>
    rw [if_neg Bool.false_ne_true]
    cases hused : resultUsed op with
    | false => simp
    | true =>
      rw [if_pos rfl]
      by_cases ht : op.result.num = t
      · rw [mark, ht, update_self]
        simp
      · rw [mark, update_of_ne (Ne.symm ht), beq_eq_false_iff_ne.mpr ht]
        simp

/-- What is needed in front of an opline that stays as it is. -/
theorem scan_same (usage : Usage) (op : ZendOp) (t : Nat) :
    useOperand (useOperand (passResult usage op) op.op1) op.op2 t =
      ((operand op t || (ownResult op.opcode && isTemp op.op1 && op.result.num == t)) ||
        (usage t && !(!ownResult op.opcode && defines op t))) := by
  rw [useOperand_eq, useOperand_eq, passResult_eq, operand]
  cases ownResult op.opcode && isTemp op.op1 && op.result.num == t <;>
    cases usage t && !(!ownResult op.opcode && defines op t) <;>
    cases isTemp op.op1 && op.op1.num == t <;> cases isTemp op.op2 && op.op2.num == t <;> rfl

theorem scanOpline_usage (usage : Usage) (op : ZendOp) (t : Nat) : (scanOpline usage op).2 t =
      ((!(vanishes op && resNeverUsed usage op) &&
          (operand op t || (ownResult op.opcode && isTemp op.op1 && op.result.num == t))) ||
        (usage t && !(!ownResult op.opcode && defines op t))) := by
  rw [scanOpline]
  dsimp only
  cases hnever : resNeverUsed usage op with
  | false =>
    rw [if_neg Bool.false_ne_true, scan_same, Bool.and_false, Bool.not_false, Bool.true_and]
  | true =>
    rw [if_pos rfl]
    have hkill : (usage t && !(!ownResult op.opcode && defines op t)) = usage t := by
      cases hdef : defines op t with
      | false => simp
      | true => rw [defines_of_neverUsed hnever hdef, Bool.false_and]
    cases hvanish : vanishes op with
    | true =>
      rw [withoutResult_vanishes hvanish, scan_same, hkill]
      simp [ZendOp.makeNop, Operand.none, operand, isTemp, ownResult, defines, resultUsed]
    | false =>
      have hkeeps := withoutResult_keeps hvanish
      rcases hkeeps.result with hsame | ⟨hunused, hown⟩
      · rw [hsame, scan_same]
        rfl
      · -- The result that is taken away was not needed before.
        rw [scan_same, hkill, operand, operand, defines, hunused, hkeeps.op1, hkeeps.op2,
          hkeeps.own, hown]
        simp

theorem scanBlock_usage (out : Usage) (ops : List ZendOp) :
    (scanBlock out ops).2 = live out ops := by
  induction ops with
  | nil => rfl
  | cons op rest ih =>
    funext t
    rw [scanBlock, live]
    rw [scanOpline_usage, ih]

theorem scanBlock_length (out : Usage) (ops : List ZendOp) :
    (scanBlock out ops).1.length = ops.length := by
  induction ops with
  | nil => rfl
  | cons op rest ih =>
    rw [scanBlock, length_cons, length_cons, ih]

/-- Each opline is scanned with what is needed behind it. -/
theorem opAt_scanBlock (out : Usage) (ops : List ZendOp) {i : Nat} (hi : i < ops.length) :
    opAt (scanBlock out ops).1 i = (scanOpline (live out (ops.drop (i + 1))) (opAt ops i)).1 := by
  induction ops generalizing i with
  | nil => exact absurd hi (Nat.not_lt_zero i)
  | cons op rest ih =>
    rw [scanBlock]
    dsimp only
    cases i with
    | zero => rw [scanBlock_usage]; rfl
    | succ i => exact ih (Nat.lt_of_succ_lt_succ hi)

theorem scanOpline_fst (usage : Usage) (op : ZendOp) :
    (scanOpline usage op).1 = restoreResult (scanOpline usage op).2
      (if resNeverUsed usage op then withoutResult op else op) :=
  rfl

theorem restoreResult_of_used (usage : Usage) (h : op.result.extUnused = false) :
    restoreResult usage op = op := by
  rw [restoreResult, h, Bool.and_false, Bool.false_and, if_neg Bool.false_ne_true]

theorem restoreResult_opcode (usage : Usage) (op : ZendOp) :
    (restoreResult usage op).opcode = op.opcode := by
  rw [restoreResult]
  split <;> rfl

end BackwardPhase

/-! What the pass takes away. -/

/-- The opline loses its result, or becomes a NOP with it. -/
def TakesAway (op op' : ZendOp) : Prop :=
  vanishes op = true ∧ op'.opcode = .nop ∨
    (op.opcode = .jmpzEx ∧ op'.opcode = .jmpz ∨ op.opcode = .jmpnzEx ∧ op'.opcode = .jmpnz) ∨
    (op.result.type = .var ∧ op.result.extUnused = false) ∧
      op'.result.type = .var ∧ op'.result.extUnused = true

/-- An opline that loses a result that nothing needs. -/
def losesResult (op : ZendOp) : Bool :=
  vanishes op || op.opcode = .jmpzEx || op.opcode = .jmpnzEx ||
    (marksResult op.opcode && op.result.type = .var && !op.result.extUnused &&
      !operand op op.result.num)

section Taken

variable {usage : Usage} {op : ZendOp}

theorem not_takesAway_same (usage : Usage) (op : ZendOp) :
    ¬TakesAway op (restoreResult usage op) := by
  rintro (⟨hvanish, hop⟩ | (⟨hop, hop'⟩ | ⟨hop, hop'⟩) | ⟨⟨-, hused⟩, -, hunused⟩)
  · rw [restoreResult_opcode] at hop
    rw [vanishes, hop] at hvanish
    cases hvanish
  · rw [restoreResult_opcode, hop] at hop'
    cases hop'
  · rw [restoreResult_opcode, hop] at hop'
    cases hop'
  · rw [restoreResult_of_used usage hused, hused] at hunused
    cases hunused

/-- A result that is marked as unused stays so where the opline does not use it itself. -/
theorem takesAway_iff_marks (hmarks : marksResult op.opcode = true)
    (hused : usage op.result.num = false) :
    TakesAway op (restoreResult (scanOpline usage op).2 (withoutResult op)) ↔
      losesResult op = true := by
  have hvanish : vanishes op = false := by
    rw [vanishes]
    cases hop : op.opcode <;> first | rfl | exact absurd (hop ▸ hmarks) (by decide)
  have hjmp : (decide (op.opcode = .jmpzEx) || decide (op.opcode = .jmpnzEx)) = false := by
    cases hop : op.opcode <;> first | rfl | exact absurd (hop ▸ hmarks) (by decide)
  have husage : (scanOpline usage op).2 op.result.num = operand op op.result.num := by
    rw [scanOpline_usage, hvanish, hused, ownResult_marksResult hmarks]
    simp
  have hloses : losesResult op = (decide (op.result.type = .var) && !op.result.extUnused &&
      !operand op op.result.num) := by
    rw [losesResult, hvanish, Bool.false_or, hjmp, hmarks, Bool.false_or, Bool.true_and]
  rw [hloses, withoutResult, if_pos hmarks]
  cases hvar : decide (op.result.type = .var) && !op.result.extUnused with
  | false =>
    exact ⟨fun h => absurd h (not_takesAway_same _ op), fun h => absurd h (by simp)⟩
  | true =>
    simp only [Bool.and_eq_true, decide_eq_true_eq, Bool.not_eq_true'] at hvar
    rw [if_pos rfl, Bool.true_and, restoreResult]
    rw [husage]
    cases hoperand : operand op op.result.num with
    | true =>
      rw [if_pos (by simp [hvar.1])]
      refine ⟨?_, fun h => absurd h (by decide)⟩
      rintro (⟨h, -⟩ | (⟨h, -⟩ | ⟨h, -⟩) | ⟨-, -, h⟩)
      · rw [hvanish] at h
        cases h
      · rw [h] at hmarks
        cases hmarks
      · rw [h] at hmarks
        cases hmarks
      · cases h
    | false =>
      rw [if_neg (by simp)]
      exact ⟨fun _ => rfl, fun _ => .inr (.inr ⟨hvar, hvar.1, rfl⟩)⟩

theorem takesAway_iff (htemp : isTemp op.result = true) : TakesAway op (scanOpline usage op).1 ↔
      losesResult op = true ∧ usage op.result.num = false := by
  have hnever : resNeverUsed usage op = !usage op.result.num := by
    rw [resNeverUsed, htemp, Bool.true_and]
    cases htype : op.result.type <;> simp [isTemp, htype] at htemp ⊢
  rw [scanOpline_fst, hnever]
  cases hused : usage op.result.num with
  | true =>
    exact ⟨fun h => absurd h (not_takesAway_same _ op), fun h => absurd h.2 (by decide)⟩
  | false =>
    rw [Bool.not_false, if_pos rfl]
    by_cases hmarks : marksResult op.opcode = true
    · rw [takesAway_iff_marks hmarks hused]
      exact ⟨fun h => ⟨h, rfl⟩, And.left⟩
    by_cases hlost : (vanishes op || op.opcode = .jmpzEx || op.opcode = .jmpnzEx) = true
    · refine ⟨fun _ => ⟨by rw [losesResult, hlost]; rfl, rfl⟩, fun _ => ?_⟩
      simp only [Bool.or_eq_true, decide_eq_true_eq] at hlost
      rcases hlost with (hvanish | hop) | hop
      · refine .inl ⟨hvanish, ?_⟩
        rw [restoreResult_opcode, withoutResult_vanishes hvanish]
        rfl
      · refine .inr (.inl (.inl ⟨hop, ?_⟩))
        rw [restoreResult_opcode, withoutResult, if_neg hmarks, hop]
      · refine .inr (.inl (.inr ⟨hop, ?_⟩))
        rw [restoreResult_opcode, withoutResult, if_neg hmarks, hop]
    · have hloses : losesResult op = false := by
        rw [losesResult, Bool.eq_false_iff.mpr hlost, Bool.eq_false_iff.mpr hmarks]
        rfl
      rw [hloses]
      refine ⟨?_, fun h => absurd h.1 (by decide)⟩
      simp only [Bool.or_eq_true, decide_eq_true_eq, not_or] at hlost
      rintro (⟨h, -⟩ | (⟨h, -⟩ | ⟨h, -⟩) | ⟨⟨hvar, hflag⟩, htype, hunused⟩)
      · exact absurd h hlost.1.1
      · exact absurd h hlost.1.2
      · exact absurd h hlost.2
      · -- Only PRINT loses its result otherwise, which is no variable then.
        have hresult : (withoutResult op).result = op.result ∨
            (withoutResult op).result.type = .unused := by
          rw [withoutResult, if_neg hmarks]
          split
          case _ | _ | _ => exact .inr rfl
          case _ | _ | _ => exact .inr rfl
          case _ => exact .inl rfl
        rcases hresult with hresult | hresult
        · rw [restoreResult_of_used _ (by rw [hresult]; exact hflag), hresult, hflag] at hunused
          cases hunused
        · rw [restoreResult, hresult, if_neg (by simp), hresult] at htype
          cases htype

end Taken

/-! Execution paths. -/

section Paths

variable (cfg : Cfg)

/-- The opline `p.2` of the block `p.1`. -/
def oplineAt (p : Nat × Nat) : ZendOp :=
  opAt (blockAt cfg p.1).opcodes p.2

/-- Control goes on in a block, or along an edge at its end. -/
inductive Step : Nat × Nat → Nat × Nat → Prop
  | next {b i : Nat} (h : i + 1 < (blockAt cfg b).opcodes.length) : Step (b, i) (b, i + 1)
  | leave {b i b' : Nat} (hend : (blockAt cfg b).opcodes.length ≤ i + 1)
      (h : b' ∈ (blockAt cfg b).targets) : Step (b, i) (b', 0)

/-- A path on which `t` is not defined in front of its end. -/
inductive Keeps (t : Nat) : Nat × Nat → Nat × Nat → Prop
  | refl (p : Nat × Nat) : Keeps t p p
  | step {p p' q : Nat × Nat} (hkeep : defines (oplineAt cfg p) t = false) (h : Step cfg p p')
      (htail : Keeps t p' q) : Keeps t p q

/-- Where the pass takes a result away, no path leads from there to an opline that still reads
it, unless it is defined again before. -/
def Sound (T : Nat) : Prop :=
  ∀ b i, (blockAt cfg b).access = true → i < (blockAt cfg b).opcodes.length →
    isTemp (oplineAt cfg (b, i)).result = true →
    TakesAway (oplineAt cfg (b, i)) (oplineAt (zendTUsage cfg T).1 (b, i)) →
    ∀ p q, Step cfg (b, i) p → Keeps cfg (oplineAt cfg (b, i)).result.num p q →
      reads (oplineAt (zendTUsage cfg T).1 q) (oplineAt cfg (b, i)).result.num = false

/-- A read that the backward phase does not count: of the result by an opline whose first operand
is no temporary, or of the class that an inherited class is declared with. -/
def overlooks (op : ZendOp) (t : Nat) : Bool :=
  (ownResult op.opcode && !isTemp op.op1 && defines op t) || (extIsTemp op && op.extendedValue == t)

/-- No path leads from an opline whose result is not needed to a read of it that is not counted. -/
def Counted : Prop :=
  ∀ b i, (blockAt cfg b).access = true → i < (blockAt cfg b).opcodes.length →
    isTemp (oplineAt cfg (b, i)).result = true → losesResult (oplineAt cfg (b, i)) = true →
    live (usedOutside cfg) ((blockAt cfg b).opcodes.drop (i + 1))
      (oplineAt cfg (b, i)).result.num = false →
    ∀ p q, Step cfg (b, i) p → Keeps cfg (oplineAt cfg (b, i)).result.num p q →
      overlooks (oplineAt cfg q) (oplineAt cfg (b, i)).result.num = false

/-- The blocks are those of `zend_rebuild_access_path`: what an edge leads to from a block that is
accessed is so, and no edge leads to the first block.  Temporaries are below `T`, and an opline
that uses its result as an argument of a temporary has one. -/
structure WellFormed (T : Nat) : Prop where
  closed : ∀ b b', (blockAt cfg b).access = true → b' ∈ (blockAt cfg b).targets →
    (blockAt cfg b').access = true ∧ b' ≠ 0
  bounded : ∀ b i, isTemp (oplineAt cfg (b, i)).result = true → (oplineAt cfg (b, i)).result.num < T
  own : ∀ b i, ownResult (oplineAt cfg (b, i)).opcode = true →
    isTemp (oplineAt cfg (b, i)).op1 = true → resultUsed (oplineAt cfg (b, i)) = true

variable {cfg} {T t b i : Nat}

theorem live_of_not_exposes {out : Usage} {ops : List ZendOp} (hout : out t = false)
    (hown : ∀ op ∈ ops, ownResult op.opcode = true → isTemp op.op1 = true →
      resultUsed op = true) (h : exposes ops t = false) : live out ops t = false := by
  induction ops with
  | nil => exact hout
  | cons op rest ih =>
    simp only [exposes, Bool.or_eq_false_iff, Bool.and_eq_false_iff] at h
    obtain ⟨⟨hoperand, huses⟩, hrest⟩ := h
    have hself : (ownResult op.opcode && isTemp op.op1 && op.result.num == t) = false := by
      by_contra hself
      simp only [Bool.not_eq_false, Bool.and_eq_true] at hself
      have hused := hown op mem_cons_self hself.1.1 hself.1.2
      rw [usesResult, hself.1.1, defines, hused, hself.2] at huses
      exact absurd huses (by simp)
    rw [live, hoperand, hself, Bool.or_false, Bool.and_false, Bool.false_or]
    rcases hrest with hdefines | hrest
    · have hno : ownResult op.opcode = false := by
        rcases huses with huses | huses
        · rw [usesResult, Bool.or_eq_false_iff] at huses
          exact huses.1
        · rw [huses] at hdefines
          cases hdefines
      rw [hno, Bool.not_false, Bool.true_and, hdefines, Bool.and_false]
    · rw [ih (fun op hop => hown op (mem_cons_of_mem _ hop)) hrest, Bool.false_and]

theorem defines_restoreResult {usage : Usage} {op : ZendOp} (h : usage t = false) :
    defines (restoreResult usage op) t = defines op t := by
  rw [restoreResult]
  split
  case isTrue hif =>
    simp only [Bool.and_eq_true, decide_eq_true_eq] at hif
    have hne : op.result.num ≠ t := by
      rintro rfl
      rw [h] at hif
      exact absurd hif.2 (by decide)
    rw [defines, defines, beq_eq_false_iff_ne.mpr hne, Bool.and_false, Bool.and_false]
  case isFalse => rfl

/-- In front of an opline where `t` is not needed, what the pass leaves of the opline reads it
only if the read is overlooked. -/
theorem reads_scanOpline {usage : Usage} {op : ZendOp} (h : (scanOpline usage op).2 t = false) :
    reads (scanOpline usage op).1 t = overlooks op t := by
  have hscan := h
  rw [scanOpline_usage, Bool.or_eq_false_iff] at hscan
  rw [scanOpline_fst]
  by_cases hgone : (vanishes op && resNeverUsed usage op) = true
  · simp only [Bool.and_eq_true] at hgone
    have hop := hgone.1
    simp only [vanishes, Bool.or_eq_true, decide_eq_true_eq] at hop
    have hover : overlooks op t = false := by
      rcases hop with (hop | hop) | hop <;> simp [overlooks, ownResult, extIsTemp, hop]
    rw [if_pos hgone.2, withoutResult_vanishes hgone.1, hover, restoreResult_of_used _ (by rfl)]
    rfl
  · have hkeeps : KeepsOperands op (if resNeverUsed usage op then withoutResult op else op) := by
      split
      case isTrue hnever =>
        refine withoutResult_keeps ?_
        rw [hnever, Bool.and_true] at hgone
        exact Bool.eq_false_iff.mpr hgone
      case isFalse => exact ⟨rfl, rfl, rfl, rfl, rfl, .inl rfl⟩
    generalize (if resNeverUsed usage op then withoutResult op else op) = op' at hkeeps ⊢
    rw [Bool.eq_false_iff.mpr hgone, Bool.not_false, Bool.true_and, Bool.or_eq_false_iff] at hscan
    obtain ⟨⟨hoperand, hself⟩, -⟩ := hscan
    have hrest : operand (restoreResult (scanOpline usage op).2 op') t = operand op t ∧
        ownResult (restoreResult (scanOpline usage op).2 op').opcode = ownResult op.opcode ∧
        extIsTemp (restoreResult (scanOpline usage op).2 op') = extIsTemp op ∧
        (restoreResult (scanOpline usage op).2 op').extendedValue = op.extendedValue := by
      rw [restoreResult_opcode, hkeeps.own, operand, operand, ← hkeeps.op1, ← hkeeps.op2,
        ← hkeeps.extTemp, ← hkeeps.extendedValue, extIsTemp, restoreResult_opcode, restoreResult]
      split <;> exact ⟨rfl, rfl, rfl, rfl⟩
    rw [reads, overlooks, hrest.1, hrest.2.1, hrest.2.2.1, hrest.2.2.2,
      defines_restoreResult h, hoperand, Bool.false_or]
    cases hown : ownResult op.opcode with
    | false => rfl
    | true =>
      rcases hkeeps.result with rfl | ⟨-, hno⟩
      · rw [hown, Bool.true_and] at hself
        cases hdef : defines op' t with
        | false => simp
        | true =>
          rw [defines, Bool.and_eq_true] at hdef
          rw [hdef.2, Bool.and_true] at hself
          rw [hself]
          rfl
      · rw [hown] at hno
        cases hno

/-- `t` is not needed at `p`. -/
def Quiet (cfg : Cfg) (t : Nat) (p : Nat × Nat) : Prop :=
  (blockAt cfg p.1).access = true ∧
    live (usedOutside cfg) ((blockAt cfg p.1).opcodes.drop p.2) t = false

theorem drop_eq (hi : i < (blockAt cfg b).opcodes.length) : (blockAt cfg b).opcodes.drop i =
      oplineAt cfg (b, i) :: (blockAt cfg b).opcodes.drop (i + 1) := by
  rw [drop_eq_getElem_cons hi, oplineAt, opAt, getD_eq_getElem?_getD, getElem?_eq_getElem hi]
  rfl

theorem Quiet.behind (h : Quiet cfg t (b, i)) (hkeep : defines (oplineAt cfg (b, i)) t = false) :
    live (usedOutside cfg) ((blockAt cfg b).opcodes.drop (i + 1)) t = false := by
  by_cases hi : i < (blockAt cfg b).opcodes.length
  · have hlive := h.2
    rw [drop_eq hi, live, Bool.or_eq_false_iff, hkeep, Bool.and_false, Bool.not_false,
      Bool.and_true] at hlive
    exact hlive.2
  · have hlive := h.2
    rw [drop_eq_nil_of_le (Nat.le_of_not_lt hi)] at hlive
    rw [drop_eq_nil_of_le (Nat.le_succ_of_le (Nat.le_of_not_lt hi))]
    exact hlive

/-- What is not needed outside of its block is not needed where a block begins. -/
theorem WellFormed.quiet_start (h : WellFormed cfg T) {b' : Nat}
    (haccess : (blockAt cfg b').access = true) (hb' : b' ≠ 0)
    (hout : usedOutside cfg t = false) : Quiet cfg t (b', 0) := by
  refine ⟨haccess, ?_⟩
  rw [drop_zero]
  refine live_of_not_exposes hout (fun op hop howns htemp => ?_) ?_
  · obtain ⟨i, hi, rfl⟩ := getElem_of_mem hop
    have hat : oplineAt cfg (b', i) = (blockAt cfg b').opcodes[i] := by
      rw [oplineAt, opAt, getD_eq_getElem?_getD, getElem?_eq_getElem hi]
      rfl
    rw [← hat] at howns htemp ⊢
    exact h.own b' i howns htemp
  · have hlt := lt_of_access haccess
    have hmem : blockAt cfg b' ∈ cfg.tail := by
      obtain ⟨n, rfl⟩ := Nat.exists_eq_succ_of_ne_zero hb'
      rw [blockAt, getD_eq_getElem?_getD, getElem?_eq_getElem hlt, Option.getD_some]
      cases cfg with
      | nil => exact absurd hlt (Nat.not_lt_zero _)
      | cons block rest => exact getElem_mem (Nat.lt_of_succ_lt_succ hlt)
    have hnone := List.any_eq_false.mp hout _ hmem
    rw [haccess, Bool.true_and] at hnone
    exact Bool.eq_false_iff.mpr hnone

/-- A step from an opline behind which `t` is not needed. -/
theorem WellFormed.quiet_step (h : WellFormed cfg T) {p : Nat × Nat}
    (haccess : (blockAt cfg b).access = true)
    (hlive : live (usedOutside cfg) ((blockAt cfg b).opcodes.drop (i + 1)) t = false)
    (hstep : Step cfg (b, i) p) : Quiet cfg t p := by
  cases hstep with
  | next hi => exact ⟨haccess, hlive⟩
  | leave hend hmem =>
    rw [drop_eq_nil_of_le hend] at hlive
    obtain ⟨haccess', hne⟩ := h.closed b _ haccess hmem
    exact h.quiet_start haccess' hne hlive

theorem WellFormed.quiet_keeps (h : WellFormed cfg T) {p q : Nat × Nat}
    (hpath : Keeps cfg t p q) (hquiet : Quiet cfg t p) : Quiet cfg t q := by
  induction hpath with
  | refl p => exact hquiet
  | step hkeep hstep _ ih => exact ih (h.quiet_step hquiet.1 (hquiet.behind hkeep) hstep)

theorem blockAt_zendTUsage (hT : T ≠ 0) (haccess : (blockAt cfg b).access = true) :
    blockAt (zendTUsage cfg T).1 b = { blockAt cfg b with
      opcodes := (scanBlock (usedOutside cfg) (blockAt cfg b).opcodes).1 } := by
  have hlt := lt_of_access haccess
  have hat : blockAt cfg b = cfg[b] := by
    rw [blockAt, getD_eq_getElem?_getD, getElem?_eq_getElem hlt]
    rfl
  rw [zendTUsage, if_neg hT, usedExt_eq]
  rw [blockAt, getD_eq_getElem?_getD, getElem?_map, getElem?_eq_getElem hlt,
    Option.map_some, Option.getD_some, ← hat, if_pos haccess]

theorem oplineAt_zendTUsage (hT : T ≠ 0) (haccess : (blockAt cfg b).access = true)
    (hi : i < (blockAt cfg b).opcodes.length) : oplineAt (zendTUsage cfg T).1 (b, i) =
      (scanOpline (live (usedOutside cfg) ((blockAt cfg b).opcodes.drop (i + 1)))
        (oplineAt cfg (b, i))).1 := by
  rw [oplineAt, blockAt_zendTUsage hT haccess]
  exact opAt_scanBlock _ _ hi

/-- Where `t` is not needed, an opline that still reads it has been overlooked. -/
theorem Quiet.reads_eq (hT : T ≠ 0) {q : Nat × Nat} (h : Quiet cfg t q) :
    reads (oplineAt (zendTUsage cfg T).1 q) t = overlooks (oplineAt cfg q) t := by
  obtain ⟨b, i⟩ := q
  by_cases hi : i < (blockAt cfg b).opcodes.length
  · rw [oplineAt_zendTUsage hT h.1 hi]
    refine reads_scanOpline ?_
    have hlive := h.2
    rw [drop_eq hi, live] at hlive
    rw [scanOpline_usage]
    exact hlive
  · have hle := Nat.le_of_not_lt hi
    rw [oplineAt, oplineAt, blockAt_zendTUsage hT h.1, opAt_outside hle,
      opAt_outside (by rw [scanBlock_length]; exact hle)]
    rfl

/-- The pass is sound exactly where it overlooks no read: for every CFG. -/
theorem zendTUsage_sound_iff (cfg : Cfg) (T : Nat) (h : WellFormed cfg T) :
    Sound cfg T ↔ Counted cfg := by
  have hT : ∀ {b i}, isTemp (oplineAt cfg (b, i)).result = true → T ≠ 0 := by
    rintro b i htemp rfl
    exact absurd (h.bounded b i htemp) (Nat.not_lt_zero _)
  constructor
  · intro hsound b i haccess hi htemp hloses hlive p q hstep hpath
    have hquiet := h.quiet_keeps hpath (h.quiet_step haccess hlive hstep)
    rw [← hquiet.reads_eq (hT htemp)]
    refine hsound b i haccess hi htemp ?_ p q hstep hpath
    rw [oplineAt_zendTUsage (hT htemp) haccess hi, takesAway_iff htemp]
    exact ⟨hloses, hlive⟩
  · intro hcounted b i haccess hi htemp htaken p q hstep hpath
    rw [oplineAt_zendTUsage (hT htemp) haccess hi, takesAway_iff htemp] at htaken
    have hquiet := h.quiet_keeps hpath (h.quiet_step haccess htaken.2 hstep)
    rw [hquiet.reads_eq (hT htemp)]
    exact hcounted b i haccess hi htemp htaken.1 htaken.2 p q hstep hpath

theorem oplineAt_mem (cfg : Cfg) (p : Nat × Nat) :
    oplineAt cfg p = .outside ∨ ∃ block ∈ cfg, oplineAt cfg p ∈ block.opcodes := by
  by_cases hb : p.1 < cfg.length
  · by_cases hi : p.2 < (blockAt cfg p.1).opcodes.length
    · refine .inr ⟨_, blockAt_mem hb, ?_⟩
      rw [oplineAt, opAt, getD_eq_getElem?_getD, getElem?_eq_getElem hi]
      exact getElem_mem hi
    · exact .inl (opAt_outside (Nat.le_of_not_lt hi))
  · refine .inl ?_
    rw [oplineAt, blockAt_outside (Nat.le_of_not_lt hb)]
    exact opAt_outside (Nat.zero_le _)

theorem WellFormed.of_forall (hclosed : ∀ block ∈ cfg, block.access = true → ∀ b' ∈ block.targets,
      (blockAt cfg b').access = true ∧ b' ≠ 0)
    (hbounded : ∀ block ∈ cfg, ∀ op ∈ block.opcodes, isTemp op.result = true → op.result.num < T)
    (hown : ∀ block ∈ cfg, ∀ op ∈ block.opcodes, ownResult op.opcode = true →
      isTemp op.op1 = true → resultUsed op = true) : WellFormed cfg T where
  closed b b' haccess hmem :=
    hclosed _ (blockAt_mem (lt_of_access haccess)) haccess b' hmem
  bounded b i htemp := by
    rcases oplineAt_mem cfg (b, i) with hout | ⟨block, hblock, hop⟩
    · rw [hout] at htemp
      cases htemp
    · exact hbounded block hblock _ hop htemp
  own b i howns htemp := by
    rcases oplineAt_mem cfg (b, i) with hout | ⟨block, hblock, hop⟩
    · rw [hout] at howns
      cases howns
    · exact hown block hblock _ hop howns htemp

/-- A jump whose result the other block uses, behind an assignment that nothing needs. -/
def neededCfg : Cfg :=
  [{ access := true, opcodes :=
      [⟨.qmAssign, ⟨.const, 0, false⟩, .none, ⟨.tmpVar, 0, false⟩, 0⟩,
        ⟨.jmpzEx, ⟨.cv, 0, false⟩, ⟨.unused, 2, false⟩, ⟨.tmpVar, 1, false⟩, 0⟩],
      op2To := some 2, followTo := some 1 }, { access := true, opcodes :=
      [⟨.bool, ⟨.cv, 1, false⟩, .none, ⟨.tmpVar, 1, false⟩, 0⟩], followTo := some 2 },
    { access := true, opcodes := [⟨.returnOp, ⟨.tmpVar, 1, false⟩, .none, .none, 0⟩] }]

theorem zendTUsage_sound_needed :
    Sound neededCfg 2 ∧ (oplineAt (zendTUsage neededCfg 2).1 (0, 0)).opcode = .nop := by
  refine ⟨(zendTUsage_sound_iff neededCfg 2
    (.of_forall (by decide) (by decide) (by decide))).mpr ?_, by decide⟩
  intro b i _ _ _ _ _ p q _ _
  have hnone : ∀ block ∈ neededCfg, ∀ op ∈ block.opcodes,
      ownResult op.opcode = false ∧ extIsTemp op = false := by decide
  have hq : ownResult (oplineAt neededCfg q).opcode = false ∧
      extIsTemp (oplineAt neededCfg q) = false := by
    rcases oplineAt_mem neededCfg q with hout | ⟨block, hblock, hop⟩
    · rw [hout]
      decide
    · exact hnone block hblock _ hop
  rw [overlooks, hq.1, hq.2]
  rfl

/-- An element is added to an array that nothing else uses. -/
def elementCfg : Cfg :=
  [{ access := true, opcodes :=
      [⟨.qmAssign, ⟨.const, 0, false⟩, .none, ⟨.tmpVar, 0, false⟩, 0⟩,
        ⟨.addArrayElement, ⟨.const, 1, false⟩, .none, ⟨.tmpVar, 0, false⟩, 0⟩,
        ⟨.returnOp, ⟨.const, 2, false⟩, .none, .none, 0⟩] }]

/-- The array is not there any more when the element is added, although it is defined in front
on every path. -/
theorem zendTUsage_element : WellFormed elementCfg 1 ∧
      (∀ t q, Keeps elementCfg t (0, 0) q → reads (oplineAt elementCfg q) t = false) ∧
      ¬Sound elementCfg 1 := by
  have hreads : ∀ q t, reads (oplineAt elementCfg q) t = true → t = 0 := by
    intro q t h
    rcases oplineAt_mem elementCfg q with hout | ⟨block, hblock, hop⟩
    · rw [hout] at h
      exact absurd (show false = true from h) (by decide)
    · simp only [elementCfg, mem_singleton] at hblock
      rw [hblock] at hop
      simp only [mem_cons, not_mem_nil, or_false] at hop
      rcases hop with hop | hop | hop <;> rw [hop] at h
      · exact absurd (show false = true from h) (by decide)
      · have h : ((0 == t) || false) = true := h
        rw [Bool.or_false, beq_iff_eq] at h
        exact h.symm
      · exact absurd (show false = true from h) (by decide)
  refine ⟨.of_forall (by decide) (by decide) (by decide), fun t q hpath => ?_, fun hsound => ?_⟩
  · cases hpath with
    | refl => rfl
    | step hkeep _ _ =>
      by_contra hread
      rw [hreads q t (by simpa using hread)] at hkeep
      cases hkeep
  · have h := hsound 0 0 (by decide) (by decide) (by decide) (.inl ⟨by decide, by decide⟩)
      (0, 1) (0, 1) (.next (by decide)) (.refl _)
    cases h

end Paths

end TUsage

end PhpEngine

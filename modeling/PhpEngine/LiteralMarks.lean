/-
What the marking pass writes: each constant operand marks its literal by the
use that the switch takes it for.  In well-formed code the marks agree, and no
mark lies between a name and the end of its related literals.
-/
import PhpEngine.LiteralUse

namespace PhpEngine

open List

variable {opline : ZendOp} {x : ConstOperand}

variable {α : Type}

def OperandSide.other : OperandSide → OperandSide
  | .op1 => .op2
  | .op2 => .op1

/-- The mark that a use gets.  `thisVar` and `className` are the number that a
member of `$this` or of a class carries with it. -/
def LiteralUse.info (isString : Bool) (thisVar className : Int) : LiteralUse → LiteralInfo
  | .value => literalInfo .value true 0 1
  | .func => literalInfo .func true 1 1
  | .funcByName => literalInfo .func true 1 2
  | .nsFuncByName => literalInfo .func true 1 3
  | .className => literalInfo .cls true 1 2
  | .constName inNamespace =>
    literalInfo .const true 1 (if inNamespace then 5 else 3)
  | .classConst ofConstClass =>
    if ofConstClass then literalInfoClass .classConst true 1 1 className
    else literalInfo .classConst false 2 1
  | .staticMethod ofConstClass =>
    if ofConstClass then literalInfoClass .staticMethod true 1 2 className
    else literalInfo .staticMethod false 2 2
  | .staticProperty ofConstClass =>
    if ofConstClass then literalInfoClass .staticProperty true 2 1 className
    else literalInfo .staticProperty false 2 1
  | .method ofThis =>
    if isString ∧ ofThis then literalInfoObj .method true 2 2 thisVar
    else literalInfo .method false 2 2
  | .property ofThis =>
    if isString ∧ ofThis then literalInfoObj .property true 2 1 thisVar
    else literalInfo .property false 2 1

namespace ConstOperand

/-- The use that the marking switch takes an operand for. -/
def markedUse (x : ConstOperand) : LiteralUse :=
  x.opline.opcode.markLabel.use x.opline x.side

/-- The number of the other operand, which names the class of a member. -/
def otherNum (x : ConstOperand) : Nat :=
  (x.opline.operand x.side.other).num

def mark (code : CompiledCode α) (x : ConstOperand) : LiteralInfo :=
  x.markedUse.info (literalAt code.literals x.num).constant.isString code.thisVar x.otherNum

end ConstOperand

/-- The marking switch misses one opcode whose handler uses its literal as a
name. -/
theorem Opcode.handlerLabel_cases (opcode : Opcode) :
    opcode = .assignPow ∨ opcode.handlerLabel = opcode.markLabel := by
  cases opcode <;> first | exact .inr rfl | exact .inl rfl

theorem mem_constOperandsOf {line : Nat} : x ∈ constOperandsOf line opline ↔ ∃ side,
      (opline.operand side).type = .const ∧ x = ⟨line, opline, side⟩ := by
  simp only [constOperandsOf, mem_filterMap]
  constructor
  · rintro ⟨side, -, hsome⟩
    split at hsome
    · case isTrue htype =>
        cases hsome
        exact ⟨side, htype, rfl⟩
    · cases hsome
  · rintro ⟨side, htype, rfl⟩
    exact ⟨side, by cases side <;> simp, if_pos htype⟩

theorem exists_mem_constOperandsOf {line : Nat} {p : ConstOperand → Prop} :
    (∃ x ∈ constOperandsOf line opline, p x) ↔ (opline.op1.type = .const ∧ p ⟨line, opline, .op1⟩) ∨
        (opline.op2.type = .const ∧ p ⟨line, opline, .op2⟩) := by
  constructor
  · rintro ⟨x, hx, hp⟩
    obtain ⟨side, htype, rfl⟩ := mem_constOperandsOf.mp hx
    cases side with
    | op1 => exact .inl ⟨htype, hp⟩
    | op2 => exact .inr ⟨htype, hp⟩
  · rintro (⟨htype, hp⟩ | ⟨htype, hp⟩)
    · exact ⟨_, mem_constOperandsOf.mpr ⟨.op1, htype, rfl⟩, hp⟩
    · exact ⟨_, mem_constOperandsOf.mpr ⟨.op2, htype, rfl⟩, hp⟩

theorem ZendOp.Accepted.markLabel (haccepted : opline.Accepted) :
    opline.opcode.markLabel.Accepts opline := by
  rcases opline.opcode.handlerLabel_cases with hpow | hlabel
  · rw [hpow]
    trivial
  · rw [← hlabel]
    exact haccepted

/-- The switch marks the constant operands of an opline and nothing else. -/
theorem mem_markOpline (code : CompiledCode α)
    (haccepted : opline.Accepted) (line n : Nat) (info : LiteralInfo) :
    (n, info) ∈ markOpline code opline ↔
      ∃ x ∈ constOperandsOf line opline, x.num = n ∧ x.mark code = info := by
  rw [exists_mem_constOperandsOf]
  have htypes := haccepted.markLabel
  simp only [ConstOperand.num, ConstOperand.mark, ConstOperand.markedUse,
    ConstOperand.otherNum, ZendOp.operand, OperandSide.other]
  unfold markOpline
  -- one case for each label, under the operand types it leaves open
  cases hmark : opline.opcode.markLabel <;>
    simp_all [LiteralSwitch.Accepts, LiteralSwitch.use, LiteralUse.info,
      optimizerLiteralClassInfo, optimizerLiteralObjInfo] <;>
    grind

/-! The table of marks. -/

theorem infoAt_set (info : InfoTable) (k n : Nat) (mark : Option LiteralInfo) :
    infoAt (info.set k mark) n = if k = n ∧ n < info.length then mark else infoAt info n := by
  simp only [infoAt, getElem?_set]
  by_cases hkn : k = n
  · subst hkn
    by_cases hlt : k < info.length
    · simp [hlt]
    · simp [hlt]
  · simp [hkn]

/-- The marks one after the other. -/
def setMarks (info : InfoTable) (marks : List (Nat × LiteralInfo)) : InfoTable :=
  marks.foldl (fun info mark => info.set mark.1 (some mark.2)) info

theorem setMarks_length (info : InfoTable) (marks : List (Nat × LiteralInfo)) :
    (setMarks info marks).length = info.length := by
  unfold setMarks
  induction marks generalizing info with
  | nil => rfl
  | cons mark marks ih =>
    rw [foldl_cons, ih, length_set]

theorem infoAt_setMarks (info : InfoTable) (marks : List (Nat × LiteralInfo)) (n : Nat) :
    (∃ mark, (n, mark) ∈ marks ∧ infoAt (setMarks info marks) n = some mark) ∨
      infoAt (setMarks info marks) n = infoAt info n ∧
        (n < info.length → ∀ mark, (n, mark) ∉ marks) := by
  unfold setMarks
  induction marks generalizing info with
  | nil => simp
  | cons head marks ih =>
    rcases ih (info.set head.1 (some head.2)) with
      ⟨mark, hmem, hmark⟩ | ⟨hsame, hnone⟩
    · exact .inl ⟨mark, mem_cons_of_mem head hmem, hmark⟩
    · rw [infoAt_set] at hsame
      rw [length_set] at hnone
      by_cases hhead : head.1 = n ∧ n < info.length
      · rw [if_pos hhead] at hsame
        refine .inl ⟨head.2, ?_, hsame⟩
        rw [← hhead.1]
        exact mem_cons_self
      · rw [if_neg hhead] at hsame
        refine .inr ⟨hsame, fun hlt mark hmem => ?_⟩
        rcases mem_cons.mp hmem with heq | hmem
        · exact hhead ⟨by rw [← heq], hlt⟩
        · exact hnone hlt mark hmem

namespace ConstOperand

theorem markedUse_cases (x : ConstOperand) : x.markedUse = x.use ∨
      x.opline.opcode = .assignPow ∧ x.markedUse = .value := by
  unfold markedUse use ZendOp.use
  rcases x.opline.opcode.handlerLabel_cases with hpow | hlabel
  · refine .inr ⟨hpow, ?_⟩
    rw [hpow]
    cases x.side <;> rfl
  · rw [hlabel]
    exact .inl rfl

theorem use_of_assignPow (hpow : x.opline.opcode = .assignPow) :
    x.use = .value ∨ x.side = .op2 ∧ x.opline.extendedValue = zendAssignObj ∧
      x.use = .property (x.opline.op1.type = .unused) := by
  unfold use ZendOp.use
  rw [hpow]
  cases x.side with
  | op1 => exact .inl rfl
  | op2 =>
    by_cases hobj : x.opline.extendedValue = zendAssignObj
    · exact .inr ⟨rfl, hobj, if_pos hobj⟩
    · exact .inl (if_neg hobj)

theorem markedUse_of_value (h : x.use = .value) : x.markedUse = .value := by
  rcases x.markedUse_cases with hsame | ⟨-, hvalue⟩
  · rw [hsame, h]
  · exact hvalue

/-- The switch takes as many related literals as the handler uses, also for
the opcode it misses. -/
theorem related_markedUse (x : ConstOperand) : x.markedUse.related = x.use.related := by
  rcases x.markedUse_cases with hsame | ⟨hpow, hvalue⟩
  · rw [hsame]
  · rw [hvalue]
    rcases use_of_assignPow hpow with huse | ⟨-, -, huse⟩
    · rw [huse]
    · rw [huse]
      rfl

end ConstOperand

namespace LiteralUse

theorem info_related (use : LiteralUse) (isString : Bool) (thisVar className : Int) :
    (use.info isString thisVar className).flags.related.val = use.related := by
  cases use with
  | constName flag | classConst flag | staticMethod flag | staticProperty flag =>
    cases flag <;> rfl
  | method flag | property flag =>
    cases flag <;> cases isString <;> rfl
  | _ => rfl

theorem info_slots (use : LiteralUse) (isString : Bool) (thisVar className : Int) :
    (use.info isString thisVar className).flags.slots.val = use.slots := by
  cases use with
  | constName flag | classConst flag | staticMethod flag | staticProperty flag =>
    cases flag <;> rfl
  | method flag | property flag =>
    cases flag <;> cases isString <;> rfl
  | _ => rfl

end LiteralUse

namespace CompiledCode.WellFormed

variable {code : CompiledCode α}

section

variable (hwf : code.WellFormed)
include hwf

theorem num_lt (hx : x ∈ constOperands code.opcodes) : x.num < code.literals.length := by
  have hle := hwf.inTable x hx
  have hpos := x.use.related_pos
  omega

theorem mem_marks (n : Nat) (info : LiteralInfo) :
    (n, info) ∈ code.opcodes.flatMap (markOpline code) ↔
      ∃ x ∈ constOperands code.opcodes, x.num = n ∧ x.mark code = info := by
  constructor
  · intro hmem
    obtain ⟨opline, hopline, hmark⟩ := mem_flatMap.mp hmem
    obtain ⟨line, hline⟩ := getElem?_of_mem hopline
    obtain ⟨x, hx, hfacts⟩ :=
      (mem_markOpline code (hwf.accepted opline hopline) line n info).mp hmark
    obtain ⟨side, htype, rfl⟩ := mem_constOperandsOf.mp hx
    exact ⟨_, mem_constOperands.mpr ⟨hline, htype⟩, hfacts⟩
  · rintro ⟨x, hx, hfacts⟩
    obtain ⟨hline, htype⟩ := mem_constOperands.mp hx
    have hopline := mem_of_getElem? hline
    refine mem_flatMap.mpr ⟨x.opline, hopline, ?_⟩
    refine (mem_markOpline code (hwf.accepted _ hopline) x.line n info).mpr ⟨x, ?_, hfacts⟩
    exact mem_constOperandsOf.mpr ⟨x.side, htype, rfl⟩

/-- Operands that share a literal mark it in the same way. -/
theorem mark_eq {y : ConstOperand} (hx : x ∈ constOperands code.opcodes)
    (hy : y ∈ constOperands code.opcodes) (hnum : x.num = y.num) : x.mark code = y.mark code := by
  rcases hwf.ownLiteral x hx y hy hnum with rfl | ⟨hxuse, hyuse⟩
  · rfl
  · unfold ConstOperand.mark
    rw [ConstOperand.markedUse_of_value hxuse, ConstOperand.markedUse_of_value hyuse]
    rfl

theorem infoAt_num (hx : x ∈ constOperands code.opcodes) :
    infoAt (markLiterals code) x.num = some (x.mark code) := by
  have hmem := (hwf.mem_marks x.num (x.mark code)).mpr ⟨x, hx, rfl, rfl⟩
  rcases infoAt_setMarks (List.replicate code.literals.length none)
    (code.opcodes.flatMap (markOpline code)) x.num with
    ⟨info, hinfo, hat⟩ | ⟨-, hnone⟩
  · obtain ⟨y, hy, hnum, hmark⟩ := (hwf.mem_marks x.num info).mp hinfo
    rw [hwf.mark_eq hx hy hnum.symm, hmark]
    exact hat
  · rw [length_replicate] at hnone
    exact absurd hmem (hnone (hwf.num_lt hx) _)

theorem exists_operand {n : Nat} {info : LiteralInfo}
    (h : infoAt (markLiterals code) n = some info) :
    ∃ x ∈ constOperands code.opcodes, x.num = n ∧ x.mark code = info := by
  rcases infoAt_setMarks (List.replicate code.literals.length none)
    (code.opcodes.flatMap (markOpline code)) n with
    ⟨mark, hmem, hat⟩ | ⟨hsame, -⟩
  · have heq : mark = info := Option.some.inj (hat.symm.trans h)
    exact (hwf.mem_marks n info).mp (heq ▸ hmem)
  · have hnone : infoAt (List.replicate code.literals.length none) n =
        (none : Option LiteralInfo) := by
      simp only [infoAt, getElem?_replicate]
      split <;> rfl
    rw [hnone] at hsame
    exact absurd (hsame.symm.trans h) (by simp)

end

end CompiledCode.WellFormed

end PhpEngine

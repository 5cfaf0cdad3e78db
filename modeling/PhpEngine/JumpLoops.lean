/-
The turns of the loops of pass 3: what the opline at `n` becomes when a loop ends, and with
which target and which hit list it goes on.
-/
import PhpEngine.FuelLoop
import PhpEngine.Pass3

namespace PhpEngine

open FuelLoop

section Turns

variable (n : Nat)

/-- A turn through a plain JMP. -/
def JmpsTurn (get : ZendOp → Nat) (set : ZendOp → Nat → ZendOp)
    (s s' : List ZendOp × List Nat) : Prop :=
  get (opAt s.1 n) < s.1.length ∧ (opAt s.1 (get (opAt s.1 n))).opcode = .jmp ∧
    (opAt s.1 (get (opAt s.1 n))).op1.num ∉ s.2 ∧
    s' = (s.1.set n (set (opAt s.1 n) (opAt s.1 (get (opAt s.1 n))).op1.num),
      s.2 ++ [(opAt s.1 (get (opAt s.1 n))).op1.num])

theorem threadJmps_isLoop (get : ZendOp → Nat) (set : ZendOp → Nat → ZendOp) :
    IsLoop (fun fuel s => threadJmps n get set fuel s.1 s.2) (fun s r => r = s)
      (JmpsTurn n get set) := by
  refine ⟨fun _ => rfl, fun s => ?_⟩
  simp only [threadJmps]
  by_cases hjmp : get (opAt s.1 n) < s.1.length ∧ (opAt s.1 (get (opAt s.1 n))).opcode = .jmp
  · simp only [if_pos hjmp]
    by_cases hmem : (opAt s.1 (get (opAt s.1 n))).op1.num ∈ s.2
    · exact .inl ⟨s, rfl, fun _ => if_pos hmem⟩
    · exact .inr ⟨_, ⟨hjmp.1, hjmp.2, hmem, rfl⟩, fun _ => if_neg hmem⟩
  · exact .inl ⟨s, rfl, fun _ => if_neg hjmp⟩

/-- A turn for JMP_SET. -/
def JmpSetTurn (A A' : List ZendOp) : Prop :=
  (opAt A n).op2.num < A.length ∧ (opAt A (opAt A n).op2.num).opcode = .jmp ∧
    A' = A.set n ((opAt A n).setOp2 (opAt A (opAt A n).op2.num).op1.num)

/-- No JMP is at the target of the opline. -/
def JmpSetStop (A A' : List ZendOp) : Prop :=
  A' = A ∧ ¬((opAt A n).op2.num < A.length ∧ (opAt A (opAt A n).op2.num).opcode = .jmp)

theorem threadJmpSet_isLoop : IsLoop (threadJmpSet n) (JmpSetStop n) (JmpSetTurn n) := by
  refine ⟨fun _ => rfl, fun A => ?_⟩
  by_cases hjmp : (opAt A n).op2.num < A.length ∧ (opAt A (opAt A n).op2.num).opcode = .jmp
  · exact .inr ⟨_, ⟨hjmp.1, hjmp.2, rfl⟩, fun _ => if_pos hjmp⟩
  · exact .inl ⟨A, ⟨rfl, hjmp⟩, fun _ => if_neg hjmp⟩

/-- The new target of a JMPZ or JMPNZ whose old one has the opline `target`. -/
def JmpzTarget (op target : ZendOp) (t : Nat) : Prop :=
  target.opcode = .jmp ∧ t = target.op1.num ∨
    target.opcode ≠ .jmp ∧ target.opcode = op.opcode ∧ sameVar op.op1 target.op1 = true ∧
      t = target.op2.num

/-- A turn for JMPZ and JMPNZ. -/
def JmpzTurn (s s' : List ZendOp × List Nat) : Prop :=
  (opAt s.1 n).op2.num < s.1.length ∧
    ∃ t, JmpzTarget (opAt s.1 n) (opAt s.1 (opAt s.1 n).op2.num) t ∧ t ∉ s.2 ∧
      s' = (s.1.set n ((opAt s.1 n).setOp2 t), s.2 ++ [t])

/-- What the opline becomes in the last turn, if not itself. -/
def JmpzLast (op target op' : ZendOp) : Prop :=
  sameVar op.op1 target.op1 = true ∧
    (target.opcode = jmpEx op.opcode ∧ op' = { op.setOp2 target.op2.num with
          opcode := jmpEx op.opcode, result := target.result } ∨
      target.opcode = invCond op.opcode ∧ op' = op.setOp2 (op.op2.num + 1) ∨
      target.opcode = invCondEx op.opcode ∧ op' = { op.setOp2 (op.op2.num + 1) with
          opcode := jmpEx op.opcode, result := target.result })

/-- The last turn for JMPZ and JMPNZ. -/
def JmpzStop (s : List ZendOp × List Nat) (A' : List ZendOp) : Prop :=
  A' = s.1 ∨ (opAt s.1 n).op2.num < s.1.length ∧
    ∃ op', JmpzLast (opAt s.1 n) (opAt s.1 (opAt s.1 n).op2.num) op' ∧ A' = s.1.set n op'

theorem threadJmpz_isLoop :
    IsLoop (fun fuel s => threadJmpz n fuel s.1 s.2) (JmpzStop n) (JmpzTurn n) := by
  refine ⟨fun _ => rfl, fun s => ?_⟩
  simp only [threadJmpz]
  by_cases hlt : (opAt s.1 n).op2.num < s.1.length
  · simp only [if_pos hlt]
    have hagain : ∀ {t} {stop : List ZendOp},
        JmpzTarget (opAt s.1 n) (opAt s.1 (opAt s.1 n).op2.num) t → JmpzStop n s stop →
        (∃ r, JmpzStop n s r ∧ ∀ fuel, (if t ∈ s.2 then some stop
          else threadJmpz n fuel (s.1.set n ((opAt s.1 n).setOp2 t)) (s.2 ++ [t])) = some r) ∨
        ∃ s', JmpzTurn n s s' ∧ ∀ fuel, (if t ∈ s.2 then some stop
          else threadJmpz n fuel (s.1.set n ((opAt s.1 n).setOp2 t)) (s.2 ++ [t])) =
            threadJmpz n fuel s'.1 s'.2 := by
      intro t stop ht hstop
      by_cases hmem : t ∈ s.2
      · exact .inl ⟨stop, hstop, fun _ => if_pos hmem⟩
      · exact .inr ⟨_, ⟨hlt, t, ht, hmem, rfl⟩, fun _ => if_neg hmem⟩
    have hlast : ∀ {op'}, JmpzLast (opAt s.1 n) (opAt s.1 (opAt s.1 n).op2.num) op' →
        JmpzStop n s (s.1.set n op') := fun h => .inr ⟨hlt, _, h, rfl⟩
    split
    case isTrue hjmp => exact hagain (.inl ⟨hjmp, rfl⟩) (.inl rfl)
    case isFalse hjmp =>
      split
      case isTrue hsame => exact hagain (.inr ⟨hjmp, hsame.1, hsame.2, rfl⟩) (.inl rfl)
      case isFalse =>
        split
        case isTrue hex => exact .inl ⟨_, hlast ⟨hex.2, .inl ⟨hex.1, rfl⟩⟩, fun _ => rfl⟩
        case isFalse =>
          split
          case isTrue hinv =>
            exact .inl ⟨_, hlast ⟨hinv.2, .inr (.inl ⟨hinv.1, rfl⟩)⟩, fun _ => rfl⟩
          case isFalse =>
            split
            case isTrue hinv =>
              exact .inl ⟨_, hlast ⟨hinv.2, .inr (.inr ⟨hinv.1, rfl⟩)⟩, fun _ => rfl⟩
            case isFalse => exact .inl ⟨_, .inl rfl, fun _ => rfl⟩
  · exact .inl ⟨s.1, .inl rfl, fun _ => if_neg hlt⟩

/-- A turn for JMPZ_EX and JMPNZ_EX. -/
def JmpzExTurn (s s' : List ZendOp × Operand × List Nat) : Prop :=
  (opAt s.1 n).op2.num < s.1.length ∧ (opAt s.1 (opAt s.1 n).op2.num).op2.num ∉ s.2.2 ∧
    ∃ u t, s' = (s.1.set n ((opAt s.1 n).setOp2 u), t,
      s.2.2 ++ [(opAt s.1 (opAt s.1 n).op2.num).op2.num])

/-- The last turn for JMPZ_EX and JMPNZ_EX. -/
def JmpzExStop (s : List ZendOp × Operand × List Nat) (A' : List ZendOp) : Prop :=
  A' = s.1 ∨ ∃ u, A' = s.1.set n ((opAt s.1 n).setOp2 u)

theorem threadJmpzEx_isLoop :
    IsLoop (fun fuel s => threadJmpzEx n fuel s.1 s.2.1 s.2.2) (JmpzExStop n) (JmpzExTurn n) := by
  refine ⟨fun _ => rfl, fun s => ?_⟩
  simp only [threadJmpzEx]
  by_cases hlt : (opAt s.1 n).op2.num < s.1.length
  · simp only [if_pos hlt]
    have hagain : ∀ u t, (∃ r, JmpzExStop n s r ∧ ∀ fuel,
          (if (opAt s.1 (opAt s.1 n).op2.num).op2.num ∈ s.2.2 then some s.1
          else threadJmpzEx n fuel (s.1.set n ((opAt s.1 n).setOp2 u)) t
            (s.2.2 ++ [(opAt s.1 (opAt s.1 n).op2.num).op2.num])) = some r) ∨
        ∃ s', JmpzExTurn n s s' ∧ ∀ fuel,
          (if (opAt s.1 (opAt s.1 n).op2.num).op2.num ∈ s.2.2 then some s.1
          else threadJmpzEx n fuel (s.1.set n ((opAt s.1 n).setOp2 u)) t
            (s.2.2 ++ [(opAt s.1 (opAt s.1 n).op2.num).op2.num])) =
            threadJmpzEx n fuel s'.1 s'.2.1 s'.2.2 := by
      intro u t
      by_cases hmem : (opAt s.1 (opAt s.1 n).op2.num).op2.num ∈ s.2.2
      · exact .inl ⟨s.1, .inl rfl, fun _ => if_pos hmem⟩
      · exact .inr ⟨_, ⟨hlt, hmem, u, t, rfl⟩, fun _ => if_neg hmem⟩
    split
    case isTrue => exact hagain _ _
    case isFalse =>
      split
      case isTrue => exact hagain _ _
      case isFalse =>
        split
        case isTrue => exact .inl ⟨_, .inr ⟨_, rfl⟩, fun _ => rfl⟩
        case isFalse => exact .inl ⟨_, .inl rfl, fun _ => rfl⟩
  · exact .inl ⟨s.1, .inl rfl, fun _ => if_neg hlt⟩

end Turns

end PhpEngine

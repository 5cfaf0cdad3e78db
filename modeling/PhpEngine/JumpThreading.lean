/-
What pass 3 does to the flow of control: its jumps are shortcuts of the jumps
that were there.
-/
import PhpEngine.JumpTermination
import PhpEngine.Shortcut

namespace PhpEngine

open List

variable {op : ZendOp} {fuel : Nat} {r : Rewriting} {assigned : Opcode}

/-- Truth values of the operands. -/
abbrev Truth :=
  OperandType → Nat → Bool

def Operand.truth (o : Operand) (v : Truth) : Bool :=
  v o.type o.num

/-- Where a NOP or a jump at `n` goes; `none` for other oplines. -/
def stepOf (op : ZendOp) (v : Truth) (n : Nat) : Option Nat :=
  match op.opcode with
  | .nop => some (n + 1)
  | .jmp => some op.op1.num
  | .jmpz => some (if op.op1.truth v then n + 1 else op.op2.num)
  | .jmpnz => some (if op.op1.truth v then op.op2.num else n + 1)
  | .jmpznz => some (if op.op1.truth v then op.extendedValue else op.op2.num)
  | _ => none

def jumpStep (opcodes : List ZendOp) (v : Truth) (n : Nat) : Option Nat :=
  if n < opcodes.length then stepOf (opAt opcodes n) v n else none

/-- The executor.  `truth` gives the truth values in a state and `exec` what
an opline that is no jump does: where it goes on and in which state, or
`none` when it leaves the op_array. -/
def codeMachine {σ : Type} (truth : σ → Truth)
    (exec : Nat → ZendOp → σ → Option (σ × Nat)) (opcodes : List ZendOp) :
    SilentMachine σ Nat (Nat × ZendOp) where
  silent s n := jumpStep opcodes (truth s) n
  act s n :=
    if n < opcodes.length then
      some ((n, opAt opcodes n), exec n (opAt opcodes n) s)
    else none

/-- The targets of an opline. -/
def jumpTargets (op : ZendOp) : List Nat :=
  match op.opcode with
  | .jmp => [op.op1.num]
  | .jmpz | .jmpnz => [op.op2.num]
  | .jmpznz => [op.op2.num, op.extendedValue]
  | _ => []

/-- No jump of another kind that the pass acts on. -/
def PlainJump (op : ZendOp) : Prop :=
  op.opcode ≠ .jmpzEx ∧ op.opcode ≠ .jmpnzEx ∧ op.opcode ≠ .jmpSet ∧ op.opcode ≠ .jmpSetVar

theorem jumpStep_set {opcodes : List ZendOp} {n : Nat}
    (h : n < opcodes.length) (v : Truth) (p : Nat) : jumpStep (opcodes.set n op) v p =
      if p = n then stepOf op v n else jumpStep opcodes v p := by
  rw [jumpStep, jumpStep, length_set]
  by_cases hp : p = n
  · subst hp
    rw [if_pos h, if_pos rfl, opAt_set_eq h]
  · rw [if_neg hp, opAt_set_ne hp]

/-- The oplines `A` are the oplines `B` with some jumps before `n`
shortened. -/
structure Threaded (B A : List ZendOp) (n : Nat) : Prop where
  length : A.length = B.length
  shortcut : ∀ v, ShortcutOf (jumpStep B v) (jumpStep A v)
  same : ∀ v p, jumpStep A v p = none → opAt A p = opAt B p
  agree : ∀ p, n ≤ p → opAt A p = opAt B p
  plain : ∀ p, PlainJump (opAt A p)
  bounded : ∀ p, ∀ t ∈ jumpTargets (opAt A p), t ≤ A.length

open JumpTermination

section Threading

variable {B A : List ZendOp} {n : Nat}

theorem Threaded.mono (h : Threaded B A n) {m : Nat} (hm : n ≤ m) : Threaded B A m :=
  ⟨h.length, h.shortcut, h.same, fun p hp => h.agree p (Nat.le_trans hm hp), h.plain, h.bounded⟩

theorem Threaded.refl (hplain : ∀ p, PlainJump (opAt A p))
    (hbounded : ∀ p, ∀ t ∈ jumpTargets (opAt A p), t ≤ A.length) : Threaded A A n :=
  ⟨rfl, fun _ => ShortcutOf.refl _, fun _ _ _ => rfl, fun _ _ => rfl, hplain, hbounded⟩

/-- A jump at `n` may go where it goes already, or where it comes to in two
steps. -/
theorem Threaded.thread (h : Threaded B A (n + 1)) (hn : n < A.length)
    (hplain : PlainJump op) (hbounded : ∀ t ∈ jumpTargets op, t ≤ A.length)
    (hedit : ∀ v, ∃ q, stepOf op v n = some q ∧ (jumpStep A v n = some q ∨
      ∃ t, jumpStep A v n = some t ∧ jumpStep A v t = some q)) :
    Threaded B (A.set n op) (n + 1) := by
  refine ⟨?_, ?_, ?_, ?_, ?_, ?_⟩
  · rw [length_set, h.length]
  · intro v
    refine ⟨?_, ?_⟩
    · intro p hp
      rw [jumpStep_set hn] at hp
      by_cases hpn : p = n
      · obtain ⟨q, hq, -⟩ := hedit v
        rw [if_pos hpn, hq] at hp
        cases hp
      · rw [if_neg hpn] at hp
        exact (h.shortcut v).stop p hp
    · intro p q hp
      rw [jumpStep_set hn] at hp
      by_cases hpn : p = n
      · subst hpn
        obtain ⟨q', hq', hcase⟩ := hedit v
        rw [if_pos rfl, hq'] at hp
        cases hp
        rcases hcase with hone | ⟨t, hfirst, hsecond⟩
        · exact (h.shortcut v).step p q hone
        · obtain ⟨k, hk⟩ := (h.shortcut v).step p t hfirst
          obtain ⟨k', hk'⟩ := (h.shortcut v).step t q hsecond
          refine ⟨k + (k' + 1), ?_⟩
          have hsum : k + (k' + 1) + 1 = (k + 1) + (k' + 1) := by omega
          rw [hsum, steps_add, hk]
          exact hk'
      · rw [if_neg hpn] at hp
        exact (h.shortcut v).step p q hp
  · intro v p hp
    rw [jumpStep_set hn] at hp
    by_cases hpn : p = n
    · obtain ⟨q, hq, -⟩ := hedit v
      rw [if_pos hpn, hq] at hp
      cases hp
    · rw [if_neg hpn] at hp
      rw [opAt_set_ne hpn]
      exact h.same v p hp
  · intro p hp
    rw [opAt_set_ne (by omega)]
    exact h.agree p hp
  · intro p
    by_cases hpn : p = n
    · rw [hpn, opAt_set_eq hn]
      exact hplain
    · rw [opAt_set_ne hpn]
      exact h.plain p
  · intro p
    rw [length_set]
    by_cases hpn : p = n
    · rw [hpn, opAt_set_eq hn]
      exact hbounded
    · rw [opAt_set_ne hpn]
      exact h.bounded p

theorem jumpStep_of_lt (h : n < A.length) (v : Truth) : jumpStep A v n = stepOf (opAt A n) v n :=
  if_pos h

/-- A field of an opline that holds a target: where the opline goes there,
it goes wherever the field says. -/
structure TargetField (kind : Opcode) (get : ZendOp → Nat)
    (set : ZendOp → Nat → ZendOp) : Prop where
  opcode_set : ∀ op t, op.opcode = kind → (set op t).opcode = kind
  targets : ∀ op t, op.opcode = kind → ∀ u ∈ jumpTargets (set op t), u = t ∨ u ∈ jumpTargets op
  step : ∀ op t v n, op.opcode = kind →
    (∃ q, stepOf op v n = some q ∧ stepOf (set op t) v n = some q) ∨
      stepOf op v n = some (get op) ∧ stepOf (set op t) v n = some t

theorem targetField_jmp : TargetField .jmp (fun op => op.op1.num) ZendOp.setOp1 where
  opcode_set op t h := h
  targets op t h := by
    simp [jumpTargets, ZendOp.setOp1, h]
  step op t v n h := by
    simp [stepOf, ZendOp.setOp1, h]

theorem targetField_jmpznz_op2 : TargetField .jmpznz (fun op => op.op2.num) ZendOp.setOp2 where
  opcode_set op t h := h
  targets op t h := by
    simp [jumpTargets, ZendOp.setOp2, h]
  step op t v n h := by
    cases htruth : op.op1.truth v with
    | false => right; simp [stepOf, ZendOp.setOp2, h, htruth]
    | true => left; simp [stepOf, ZendOp.setOp2, h, htruth]

theorem targetField_jmpznz_ext :
    TargetField .jmpznz (fun op => op.extendedValue) ZendOp.setExt where
  opcode_set op t h := h
  targets op t h := by
    simp [jumpTargets, ZendOp.setExt, h]
  step op t v n h := by
    cases htruth : op.op1.truth v with
    | false => left; simp [stepOf, ZendOp.setExt, h, htruth]
    | true => right; simp [stepOf, ZendOp.setExt, h, htruth]

theorem plainJump_of (h : op.opcode = .jmp ∨ op.opcode = .jmpz ∨
    op.opcode = .jmpnz ∨ op.opcode = .jmpznz ∨ op.opcode = .nop) : PlainJump op := by
  rcases h with h | h | h | h | h <;> simp [PlainJump, h]

theorem Threaded.thread_field {kind : Opcode} {get : ZendOp → Nat}
    {set : ZendOp → Nat → ZendOp} (hfield : TargetField kind get set)
    (hkind : kind = .jmp ∨ kind = .jmpznz) (h : Threaded B A (n + 1)) (hn : n < A.length)
    (hop : (opAt A n).opcode = kind) (ht : get (opAt A n) < A.length)
    (hjmp : (opAt A (get (opAt A n))).opcode = .jmp) : Threaded B (A.set n (set (opAt A n)
      (opAt A (get (opAt A n))).op1.num)) (n + 1) := by
  have htarget : (opAt A (get (opAt A n))).op1.num ≤ A.length := by
    refine h.bounded (get (opAt A n)) _ ?_
    rw [jumpTargets, hjmp]
    exact mem_singleton.mpr rfl
  have hnext : ∀ v, jumpStep A v (get (opAt A n)) = some (opAt A (get (opAt A n))).op1.num := by
    intro v
    rw [jumpStep_of_lt ht, stepOf, hjmp]
  generalize (opAt A (get (opAt A n))).op1.num = t at htarget hnext
  have hset := hfield.opcode_set (opAt A n) t hop
  refine h.thread hn (plainJump_of (by rw [hset]; tauto)) ?_ ?_
  · intro u hu
    rcases hfield.targets (opAt A n) t hop u hu with rfl | hold
    · exact htarget
    · exact h.bounded n u hold
  · intro v
    rcases hfield.step (opAt A n) t v n hop with ⟨q, hold, hnew⟩ | ⟨hold, hnew⟩
    · exact ⟨q, hnew, .inl (by rw [jumpStep_of_lt hn, hold])⟩
    · exact ⟨t, hnew, .inr ⟨_, by rw [jumpStep_of_lt hn, hold], hnext v⟩⟩

theorem threadJmps_threads {kind : Opcode} {get : ZendOp → Nat}
    {set : ZendOp → Nat → ZendOp} (hfield : TargetField kind get set)
    (hkind : kind = .jmp ∨ kind = .jmpznz)
    {hitlist : List Nat} {r : List ZendOp × List Nat} (h : Threaded B A (n + 1)) (hn : n < A.length)
    (hop : (opAt A n).opcode = kind) (hrun : threadJmps n get set fuel A hitlist = some r) :
    Threaded B r.1 (n + 1) ∧ (opAt r.1 n).opcode = kind := by
  refine (threadJmps_isLoop n get set).result (s := (A, hitlist))
    (Q := fun s r => Threaded B s.1 (n + 1) → n < s.1.length → (opAt s.1 n).opcode = kind →
      Threaded B r.1 (n + 1) ∧ (opAt r.1 n).opcode = kind) ?_ ?_ hrun h hn hop
  · rintro s r rfl h - hop
    exact ⟨h, hop⟩
  · rintro s _ r ⟨hlt, hjmp, -, rfl⟩ ih h hn hop
    refine ih (h.thread_field hfield hkind hn hop hlt hjmp) (by rwa [length_set]) ?_
    rw [opAt_set_eq hn]
    exact hfield.opcode_set _ _ hop

/-! Conditional jumps. -/

/-- The truth value on which a conditional jump is taken. -/
def jumpsOn (opcode : Opcode) : Bool :=
  opcode = .jmpnz

theorem stepOf_cond (hop : op.opcode = .jmpz ∨ op.opcode = .jmpnz) (v : Truth) (n : Nat) :
    stepOf op v n = some (if op.op1.truth v = jumpsOn op.opcode then
      op.op2.num else n + 1) := by
  rcases hop with hop | hop <;> cases htruth : op.op1.truth v <;>
    simp [stepOf, hop, htruth, jumpsOn]

theorem sameVar_truth {o o' : Operand} (h : sameVar o o' = true) (v : Truth) :
    o.truth v = o'.truth v := by
  simp only [sameVar, Bool.and_eq_true, Bool.or_eq_true, decide_eq_true_eq] at h
  obtain ⟨⟨htype, htype'⟩ | ⟨htype, htype'⟩, hnum⟩ := h <;>
    rw [Operand.truth, Operand.truth, htype, htype', hnum]

section

variable (h : Threaded B A (n + 1)) (hn : n < A.length)
  (hop : (opAt A n).opcode = .jmpz ∨ (opAt A n).opcode = .jmpnz)
include h hn hop

/-- A conditional jump may be taken to where its target goes on whenever the
jump is taken. -/
theorem Threaded.thread_op2 {t : Nat} (ht : t ≤ A.length)
    (hnext : ∀ v, (opAt A n).op1.truth v = jumpsOn (opAt A n).opcode →
      jumpStep A v (opAt A n).op2.num = some t) :
    Threaded B (A.set n ((opAt A n).setOp2 t)) (n + 1) := by
  have hset : ((opAt A n).setOp2 t).opcode = (opAt A n).opcode := rfl
  refine h.thread hn (plainJump_of (by rw [hset]; tauto)) ?_ ?_
  · intro u hu
    have hu' : u = t := by
      rcases hop with hop | hop <;> simpa [jumpTargets, ZendOp.setOp2, hop] using hu
    rw [hu']
    exact ht
  · intro v
    rw [stepOf_cond (by rw [hset]; exact hop), jumpStep_of_lt hn, stepOf_cond hop]
    by_cases htaken : (opAt A n).op1.truth v = jumpsOn (opAt A n).opcode
    · refine ⟨t, congrArg some (if_pos htaken), .inr ⟨_, rfl, ?_⟩⟩
      rw [if_pos htaken]
      exact hnext v htaken
    · refine ⟨n + 1, congrArg some (if_neg htaken), .inl ?_⟩
      rw [if_neg htaken]

theorem Threaded.thread_jmpz {t : Nat} (hlt : (opAt A n).op2.num < A.length)
    (ht : JmpzTarget (opAt A n) (opAt A (opAt A n).op2.num) t) :
    Threaded B (A.set n ((opAt A n).setOp2 t)) (n + 1) := by
  have hbounded := h.bounded (opAt A n).op2.num
  rcases ht with ⟨hjmp, rfl⟩ | ⟨-, hsame, hvar, rfl⟩
  · refine h.thread_op2 hn hop (hbounded _ (by simp [jumpTargets, hjmp])) ?_
    intro v _
    rw [jumpStep_of_lt hlt, stepOf, hjmp]
  · have hcond : (opAt A (opAt A n).op2.num).opcode = .jmpz ∨
        (opAt A (opAt A n).op2.num).opcode = .jmpnz := by
      rw [hsame]
      exact hop
    refine h.thread_op2 hn hop (hbounded _ ?_) ?_
    · rcases hcond with hcond | hcond <;> simp [jumpTargets, hcond]
    · intro v htaken
      rw [jumpStep_of_lt hlt, stepOf_cond hcond, ← sameVar_truth hvar, hsame, if_pos htaken]

theorem Threaded.thread_last {op' : ZendOp} (hlt : (opAt A n).op2.num < A.length)
    (hlast : JmpzLast (opAt A n) (opAt A (opAt A n).op2.num) op') :
    Threaded B (A.set n op') (n + 1) := by
  have hplain := h.plain (opAt A n).op2.num
  obtain ⟨hvar, ⟨hex, -⟩ | ⟨hinv, rfl⟩ | ⟨hinvEx, -⟩⟩ := hlast
  · rcases hop with hop | hop
    · exact absurd (by rw [hex, hop]; rfl) hplain.1
    · exact absurd (by rw [hex, hop]; rfl) hplain.2.1
  · refine h.thread_op2 hn hop hlt ?_
    intro v htaken
    have hcond : (opAt A (opAt A n).op2.num).opcode = .jmpz ∨
        (opAt A (opAt A n).op2.num).opcode = .jmpnz := by
      rw [hinv, invCond]
      split <;> tauto
    have hother : jumpsOn (opAt A (opAt A n).op2.num).opcode ≠ jumpsOn (opAt A n).opcode := by
      rw [hinv]
      rcases hop with hop | hop <;> simp [invCond, jumpsOn, hop]
    rw [jumpStep_of_lt hlt, stepOf_cond hcond, ← sameVar_truth hvar,
      if_neg (by rw [htaken]; exact hother.symm)]
  · rcases hop with hop | hop
    · exact absurd (by rw [hinvEx, hop]; rfl) hplain.2.1
    · exact absurd (by rw [hinvEx, hop]; rfl) hplain.1

theorem threadJmpz_threads {hitlist : List Nat} {A' : List ZendOp}
    (hrun : threadJmpz n fuel A hitlist = some A') : Threaded B A' (n + 1) := by
  refine (threadJmpz_isLoop n).result (s := (A, hitlist))
    (Q := fun s A' => Threaded B s.1 (n + 1) → n < s.1.length →
      ((opAt s.1 n).opcode = .jmpz ∨ (opAt s.1 n).opcode = .jmpnz) →
      Threaded B A' (n + 1)) ?_ ?_ hrun h hn hop
  · rintro s A' (rfl | ⟨hlt, op', hlast, rfl⟩) h hn hop
    · exact h
    · exact h.thread_last hn hop hlt hlast
  · rintro s _ A' ⟨hlt, t, ht, -, rfl⟩ ih h hn hop
    refine ih (h.thread_jmpz hn hop hlt ht) (by rwa [length_set]) ?_
    rw [opAt_set_eq hn]
    exact hop

end

/-- An opline that goes to the next one in any case becomes a NOP. -/
theorem Threaded.thread_nop (h : Threaded B A (n + 1)) (hn : n < A.length)
    (hstep : ∀ v, stepOf (opAt A n) v n = some (n + 1)) :
    Threaded B (A.set n (opAt A n).makeNop) (n + 1) := by
  refine h.thread hn (plainJump_of (by simp [ZendOp.makeNop])) ?_ ?_
  · simp [jumpTargets, ZendOp.makeNop]
  · intro v
    exact ⟨n + 1, rfl, .inl (by rw [jumpStep_of_lt hn, hstep])⟩

/-- The loop of a jump has only shortened it. -/

theorem Threaded.jump {run : Nat → Option (List ZendOp)}
    (h : Threaded B A (n + 1)) (hn : n < A.length) (hjump : JumpRun n A run)
    {A' : List ZendOp} (hrun : run fuel = some A') : Threaded B A' (n + 1) := by
  have hplain := h.plain n
  cases hjump with
  | jmp hop =>
    simp only [jmpCase] at hrun
    split at hrun
    · rename_i hnext
      rw [← Option.some.inj hrun]
      refine h.thread_nop hn ?_
      intro v
      rw [stepOf, hop]
      exact congrArg some hnext
    · obtain ⟨r, hloop, rfl⟩ := Option.map_eq_some_iff.mp hrun
      exact (threadJmps_threads targetField_jmp (.inl rfl) h hn hop hloop).1
  | jmpSet hop =>
    rcases hop with hop | hop
    · exact absurd hop hplain.2.2.1
    · exact absurd hop hplain.2.2.2
  | jmpz hop =>
    simp only [jmpzCase] at hrun
    split at hrun
    · rename_i hnext
      rw [← Option.some.inj hrun]
      refine h.thread_nop hn ?_
      intro v
      rw [stepOf_cond hop, hnext, ite_self]
    · exact threadJmpz_threads h hn hop hrun
  | jmpzEx hop =>
    rcases hop with hop | hop
    · exact absurd hop hplain.1
    · exact absurd hop hplain.2.1
  | jmpznz hop =>
    obtain ⟨r, hfirst, hsecond⟩ := Option.bind_eq_some_iff.mp hrun
    obtain ⟨r', hloop, rfl⟩ := Option.map_eq_some_iff.mp hsecond
    obtain ⟨hA₁, hop₁⟩ := threadJmps_threads targetField_jmpznz_op2 (.inr rfl) h hn hop hfirst
    have hn₁ : n < r.1.length := by rwa [hA₁.length, ← h.length]
    exact (threadJmps_threads targetField_jmpznz_ext (.inr rfl) hA₁ hn₁ hop₁ hloop).1

/-! Rewritten assignments. -/

/-- An opline that is neither a NOP nor a jump. -/
def Visible (op : ZendOp) : Prop :=
  ∀ v n, stepOf op v n = none

theorem Visible.targets (h : Visible op) : jumpTargets op = [] := by
  have hstep := h (fun _ _ => true) 0
  rw [stepOf] at hstep
  rw [jumpTargets]
  split <;> simp_all

theorem skipNops_congr {count m : Nat} (h : ∀ p, m ≤ p → opAt A p = opAt B p) :
    skipNops A count m = skipNops B count m := by
  induction count generalizing m with
  | zero => rfl
  | succ count ih =>
    rw [skipNops, skipNops, h m (le_refl m), ih fun p hp => h p (Nat.le_of_succ_le hp)]

theorem le_skipNops (A : List ZendOp) (count m : Nat) : m ≤ skipNops A count m := by
  induction count generalizing m with
  | zero => exact le_refl m
  | succ count ih =>
    rw [skipNops]
    split
    · exact le_trans (Nat.le_succ m) (ih (m + 1))
    · exact le_refl m

theorem lt_nextOpline (A : List ZendOp) (n : Nat) : n < nextOpline A n :=
  le_skipNops A _ (n + 1)

theorem rewriteAssign_congr (hlength : A.length = B.length)
    (h : ∀ p, n ≤ p → opAt A p = opAt B p) (assigned : Opcode) :
    rewriteAssign A n assigned = rewriteAssign B n assigned := by
  have hnext : nextOpline A n = nextOpline B n := by
    rw [nextOpline, nextOpline, hlength]
    exact skipNops_congr fun p hp => h p (Nat.le_of_succ_le hp)
  have hlt := lt_nextOpline B n
  rw [rewriteAssign, rewriteAssign, hnext, hlength, h n (le_refl n),
    h (nextOpline B n) (le_of_lt hlt)]

theorem rewritePostInc_congr (hlength : A.length = B.length)
    (h : ∀ p, n ≤ p → opAt A p = opAt B p) (pre : Opcode) :
    rewritePostInc A n pre = rewritePostInc B n pre := by
  rw [rewritePostInc, rewritePostInc, hlength, h n (le_refl n), h (n + 1) (Nat.le_succ n)]

/-- A rewriting of an opline at `n` that is no jump: the result is none, and
what becomes a NOP is another such opline behind it. -/
structure Rewriting.Valid (r : Rewriting) (A : List ZendOp) (n : Nat) :
    Prop where
  before : Visible (opAt A n)
  op : Visible r.op
  plain : PlainJump r.op
  gone : ∀ m, r.gone = some m → n < m ∧ m < A.length ∧ Visible (opAt A m)

theorem Rewriting.length_apply (r : Rewriting) (A : List ZendOp) (n : Nat) :
    (r.apply A n).length = A.length := by
  rw [Rewriting.apply]
  split <;> simp

theorem Rewriting.opAt_apply (hr : r.Valid A n) (hn : n < A.length) (p : Nat) :
    opAt (r.apply A n) p = if p = n then r.op else if r.gone = some p then (opAt A p).makeNop
      else opAt A p := by
  rw [Rewriting.apply]
  by_cases hp : p = n
  · rw [if_pos hp, hp]
    cases hgone : r.gone with
    | none => exact opAt_set_eq hn
    | some m =>
      have hm := (hr.gone m hgone).1
      rw [opAt_set_ne (ne_of_lt hm)]
      exact opAt_set_eq hn
  · rw [if_neg hp]
    cases hgone : r.gone with
    | none => simp [opAt_set_ne hp]
    | some m =>
      by_cases hpm : p = m
      · rw [hpm, if_pos rfl, opAt_set_eq]
        rw [length_set]
        exact (hr.gone m hgone).2.1
      · rw [opAt_set_ne hpm, opAt_set_ne hp, if_neg fun h => hpm (Option.some.inj h).symm]

theorem Rewriting.jumpStep_apply (hr : r.Valid A n)
    (hn : n < A.length) (v : Truth) (p : Nat) : jumpStep (r.apply A n) v p =
      if r.gone = some p then some (p + 1) else jumpStep A v p := by
  rw [jumpStep, jumpStep, Rewriting.length_apply, Rewriting.opAt_apply hr hn]
  by_cases hp : p = n
  · rw [if_pos hp, hp, if_pos hn, hr.op, hr.before, if_neg]
    · simp
    · intro hgone
      exact lt_irrefl n (hr.gone n hgone).1
  · rw [if_neg hp]
    by_cases hgone : r.gone = some p
    · rw [if_pos hgone, if_pos hgone, if_pos (hr.gone p hgone).2.1]
      rfl
    · rw [if_neg hgone, if_neg hgone]

theorem Rewriting.valid_congr (hlength : A.length = B.length)
    (h : ∀ p, n ≤ p → opAt A p = opAt B p) (hr : r.Valid A n) : r.Valid B n := by
  refine ⟨?_, hr.op, hr.plain, ?_⟩
  · rw [← h n (le_refl n)]
    exact hr.before
  · intro m hm
    obtain ⟨hlt, hlen, hvisible⟩ := hr.gone m hm
    rw [← hlength, ← h m (le_of_lt hlt)]
    exact ⟨hlt, hlen, hvisible⟩

theorem Threaded.rewrite (h : Threaded B A n) (hn : n < A.length)
    (hr : r.Valid A n) : Threaded (r.apply B n) (r.apply A n) (n + 1) := by
  have hrB := Rewriting.valid_congr h.length h.agree hr
  have hnB : n < B.length := by rwa [← h.length]
  -- Steps that were there still are.
  have hkeeps : ∀ v p q, jumpStep B v p = some q → jumpStep (r.apply B n) v p = some q := by
    intro v p q hstep
    rw [Rewriting.jumpStep_apply hrB hnB, if_neg, hstep]
    intro hgone
    obtain ⟨-, hlt, hvisible⟩ := hrB.gone p hgone
    rw [jumpStep_of_lt hlt, hvisible] at hstep
    cases hstep
  refine ⟨?_, ?_, ?_, ?_, ?_, ?_⟩
  · rw [Rewriting.length_apply, Rewriting.length_apply, h.length]
  · intro v
    refine ⟨?_, ?_⟩
    · intro p hp
      rw [Rewriting.jumpStep_apply hr hn] at hp
      rw [Rewriting.jumpStep_apply hrB hnB]
      by_cases hgone : r.gone = some p
      · rw [if_pos hgone] at hp
        cases hp
      · rw [if_neg hgone] at hp ⊢
        exact (h.shortcut v).stop p hp
    · intro p q hp
      rw [Rewriting.jumpStep_apply hr hn] at hp
      by_cases hgone : r.gone = some p
      · refine ⟨0, ?_⟩
        rw [if_pos hgone] at hp
        rw [steps, Rewriting.jumpStep_apply hrB hnB, if_pos hgone, hp]
        rfl
      · rw [if_neg hgone] at hp
        obtain ⟨k, hk⟩ := (h.shortcut v).step p q hp
        exact ⟨k, steps_mono (hkeeps v) hk⟩
  · intro v p hp
    rw [Rewriting.jumpStep_apply hr hn] at hp
    rw [Rewriting.opAt_apply hr hn, Rewriting.opAt_apply hrB hnB]
    by_cases hgone : r.gone = some p
    · rw [if_pos hgone] at hp
      cases hp
    · rw [if_neg hgone] at hp
      rw [h.same v p hp]
  · intro p hp
    rw [Rewriting.opAt_apply hr hn, Rewriting.opAt_apply hrB hnB, h.agree p (Nat.le_of_succ_le hp)]
  · intro p
    rw [Rewriting.opAt_apply hr hn]
    split
    · exact hr.plain
    split
    · exact plainJump_of (by simp [ZendOp.makeNop])
    · exact h.plain p
  · intro p
    rw [Rewriting.opAt_apply hr hn, Rewriting.length_apply]
    split
    · rw [hr.op.targets]
      simp
    split
    · simp [jumpTargets, ZendOp.makeNop]
    · exact h.bounded p

theorem visible_of_assignOpcode (h : assignOpcode op.opcode = some assigned) :
    Visible op ∧ PlainJump op ∧ ∀ op' : ZendOp, op'.opcode = assigned →
      Visible op' ∧ PlainJump op' := by
  unfold assignOpcode at h
  split at h <;> cases h <;> simp_all [Visible, PlainJump, stepOf]

theorem rewriteAssign_valid (h : assignOpcode (opAt A n).opcode = some assigned) :
    (rewriteAssign A n assigned).Valid A n := by
  obtain ⟨hvisible, hplain, hassigned⟩ := visible_of_assignOpcode h
  have hswap : ∀ next, Visible (swapOperands (opAt A n) next) ∧
      PlainJump (swapOperands (opAt A n) next) := by
    intro next
    have hop : (swapOperands (opAt A n) next).opcode = (opAt A n).opcode := by
      rw [swapOperands]
      split <;> rfl
    refine ⟨?_, by rwa [PlainJump, hop]⟩
    exact (visible_of_assignOpcode (by rw [hop]; exact h)).1
  rw [rewriteAssign]
  dsimp only
  by_cases hnext : nextOpline A n < A.length ∧ (opAt A (nextOpline A n)).opcode = .assign
  · rw [if_pos hnext]
    split
    · refine ⟨hvisible, (hassigned _ rfl).1, (hassigned _ rfl).2, ?_⟩
      intro m hm
      cases hm
      refine ⟨lt_nextOpline A n, hnext.1, ?_⟩
      intro v p
      rw [stepOf, hnext.2]
    · exact ⟨hvisible, (hswap _).1, (hswap _).2, by simp⟩
  · rw [if_neg hnext]
    exact ⟨hvisible, hvisible, hplain, by simp⟩

theorem rewritePostInc_valid {pre : Opcode}
    (h : (opAt A n).opcode = .postInc ∨ (opAt A n).opcode = .postDec)
    (hpre : pre = .preInc ∨ pre = .preDec) : (rewritePostInc A n pre).Valid A n := by
  have hvisible : Visible (opAt A n) := by
    intro v p
    rcases h with h | h <;> rw [stepOf, h]
  have hplain : PlainJump (opAt A n) := by
    rcases h with h | h <;> simp [PlainJump, h]
  rw [rewritePostInc]
  split
  · rename_i hcase
    refine ⟨hvisible, ?_, ?_, ?_⟩
    · intro v p
      rcases hpre with rfl | rfl <;> rfl
    · rcases hpre with rfl | rfl <;> simp [PlainJump]
    · intro m hm
      cases hm
      refine ⟨Nat.lt_succ_self n, hcase.1, ?_⟩
      intro v p
      rw [stepOf, hcase.2.1]
  · exact ⟨hvisible, hvisible, hplain, by simp⟩

/-! The whole pass, beside the pass that only rewrites assignments (as for
an op_array that has a `finally`). -/

theorem pass3Turn_threads (h : Threaded B A n) (hn : n < A.length) (hfuel : A.length + 2 ≤ fuel) :
    ∃ A' B' n', pass3Turn n fuel false A = some (A', n') ∧
      pass3Turn n fuel true B = some (B', n') ∧ Threaded B' A' n' ∧
      A'.length = A.length ∧ n < n' := by
  have hagree := h.agree n (le_refl n)
  have hnext : Threaded B A (n + 1) := h.mono (Nat.le_succ n)
  have hjumps : ∀ {run}, JumpRun n A run →
      ¬ ((opAt A n).opcode = .jmpSet ∨ (opAt A n).opcode = .jmpSetVar) →
      ∃ A' B' n', (run fuel).map (·, n + 1) = some (A', n') ∧
        some (B, n + 1) = some (B', n') ∧ Threaded B' A' n' ∧
        A'.length = A.length ∧ n < n' := by
    intro run hjump hset
    obtain ⟨A', hrun⟩ := hjump.ends hn hset (Nat.lt_of_succ_lt hfuel)
    have hA' := hnext.jump hn hjump hrun
    exact ⟨A', B, n + 1, by rw [hrun]; rfl, rfl, hA',
      hA'.length.trans h.length.symm, Nat.lt_succ_self n⟩
  rw [pass3Turn, pass3Turn, ← hagree]
  cases hassign : assignOpcode (opAt A n).opcode with
  | some assigned =>
    have hr := rewriteAssign_valid hassign
    dsimp only
    rw [← rewriteAssign_congr h.length h.agree assigned]
    refine ⟨_, _, _, rfl, rfl, (h.rewrite hn hr).mono ?_, Rewriting.length_apply _ _ _, ?_⟩
    · split <;> omega
    · split <;> omega
  | none =>
    cases hop : (opAt A n).opcode with
    | postInc =>
      rw [← rewritePostInc_congr h.length h.agree]
      exact ⟨_, _, _, rfl, rfl, h.rewrite hn (rewritePostInc_valid
        (.inl hop) (.inl rfl)), Rewriting.length_apply _ _ _,
        Nat.lt_succ_self n⟩
    | postDec =>
      dsimp only
      rw [← rewritePostInc_congr h.length h.agree]
      exact ⟨_, _, _, rfl, rfl, h.rewrite hn (rewritePostInc_valid
        (.inr hop) (.inr rfl)), Rewriting.length_apply _ _ _,
        Nat.lt_succ_self n⟩
    | jmp => exact hjumps (.jmp hop) (by simp [hop])
    | jmpz => exact hjumps (.jmpz (.inl hop)) (by simp [hop])
    | jmpnz => exact hjumps (.jmpz (.inr hop)) (by simp [hop])
    | jmpznz => exact hjumps (.jmpznz hop) (by simp [hop])
    | jmpzEx => exact absurd hop (h.plain n).1
    | jmpnzEx => exact absurd hop (h.plain n).2.1
    | jmpSet => exact absurd hop (h.plain n).2.2.1
    | jmpSetVar => exact absurd hop (h.plain n).2.2.2
    | _ => exact ⟨A, B, n + 1, rfl, rfl, hnext, rfl, Nat.lt_succ_self n⟩

theorem pass3Loop_threads (turns : Nat) (h : Threaded B A n)
    (hfuel : A.length + 2 ≤ fuel) : ∃ A' B', pass3Loop fuel false turns n A = some A' ∧
      pass3Loop fuel true turns n B = some B' ∧ ∃ m, Threaded B' A' m := by
  induction turns generalizing n A B with
  | zero => exact ⟨A, B, rfl, rfl, n, h⟩
  | succ turns ih =>
    rw [pass3Loop, pass3Loop, ← h.length]
    by_cases hn : n < A.length
    · obtain ⟨A₁, B₁, n', hA₁, hB₁, h₁, hlen, -⟩ :=
        pass3Turn_threads h hn hfuel
      rw [if_pos hn, if_pos hn, hA₁, hB₁]
      exact ih h₁ (by rwa [hlen])
    · rw [if_neg hn, if_neg hn]
      exact ⟨A, B, rfl, rfl, n, h⟩

theorem Threaded.performs_iff {σ : Type} (h : Threaded B A n)
    (truth : σ → Truth) (exec : Nat → ZendOp → σ → Option (σ × Nat))
    (s : σ) (p : Nat) (l : List (Nat × ZendOp)) : (codeMachine truth exec A).Performs s p l ↔
      (codeMachine truth exec B).Performs s p l := by
  refine SilentMachine.performs_iff (fun s => h.shortcut (truth s)) ?_ s p l
  intro s q hstop
  have hstop' := ((h.shortcut (truth s)).stop_iff q).mpr hstop
  simp only [codeMachine]
  rw [h.same _ q hstop', h.length]

end Threading

/-- An operator is followed by an assignment to one of its operands, so that
the pass may rewrite it. -/
def AssignPair (opcodes : List ZendOp) (n : Nat) : Prop :=
  let op := opAt opcodes n
  let next := opAt opcodes (nextOpline opcodes n)
  (assignOpcode op.opcode).isSome ∧ nextOpline opcodes n < opcodes.length ∧
    next.opcode = .assign ∧
    (op.op1.isVariable ∧ op.op1.num = next.op1.num ∨
      op.op2.isVariable ∧ op.op2.num = next.op1.num ∧ swappable op.opcode)

/-- The value of a POST_INC or POST_DEC is freed at once. -/
def PostIncPair (opcodes : List ZendOp) (n : Nat) : Prop :=
  let op := opAt opcodes n
  let next := opAt opcodes (n + 1)
  (op.opcode = .postInc ∨ op.opcode = .postDec) ∧ n + 1 < opcodes.length ∧
    next.opcode = .freeOp ∧ next.op1.num = op.result.num

def NoPairs (opcodes : List ZendOp) : Prop :=
  ∀ n, n < opcodes.length → ¬ AssignPair opcodes n ∧ ¬ PostIncPair opcodes n

section Pass

variable {A : List ZendOp} {n : Nat}

theorem rewriteAssign_of_not_pair
    (hop : (assignOpcode (opAt A n).opcode).isSome) (h : ¬ AssignPair A n) :
    rewriteAssign A n assigned = ⟨opAt A n, none⟩ := by
  rw [rewriteAssign]
  dsimp only
  by_cases hnext : nextOpline A n < A.length ∧ (opAt A (nextOpline A n)).opcode = .assign
  · have hop1 : ¬ ((opAt A n).op1.isVariable = true ∧
        (opAt A n).op1.num = (opAt A (nextOpline A n)).op1.num) := by
      intro hcase
      exact h ⟨hop, hnext.1, hnext.2, .inl hcase⟩
    have hop2 : ¬ ((opAt A n).op2.isVariable = true ∧
        (opAt A n).op2.num = (opAt A (nextOpline A n)).op1.num ∧
        swappable (opAt A n).opcode = true) := by
      intro hcase
      exact h ⟨hop, hnext.1, hnext.2, .inr hcase⟩
    have hswap : swapOperands (opAt A n) (opAt A (nextOpline A n)) = opAt A n := if_neg (by tauto)
    rw [if_pos hnext, hswap, if_neg (by tauto)]
  · rw [if_neg hnext]

theorem Rewriting.apply_self (A : List ZendOp) (n : Nat) :
    (⟨opAt A n, none⟩ : Rewriting).apply A n = A := by
  apply ext_getElem
  · simp [Rewriting.apply]
  · intro i h₁ h₂
    by_cases hi : i = n
    · subst hi
      simp [Rewriting.apply, opAt, h₂]
    · simp [Rewriting.apply, Ne.symm hi]

/-- Without such pairs the pass leaves an op_array with a `finally` alone. -/
theorem pass3Turn_finally (hassign : ¬ AssignPair A n) (hpost : ¬ PostIncPair A n) :
    pass3Turn n fuel true A = some (A, n + 1) := by
  have hrewrite : ∀ pre, (opAt A n).opcode = .postInc ∨ (opAt A n).opcode = .postDec →
      rewritePostInc A n pre = ⟨opAt A n, none⟩ := by
    intro pre hop
    rw [rewritePostInc, if_neg]
    intro hcase
    exact hpost ⟨hop, hcase⟩
  rw [pass3Turn]
  cases hop : assignOpcode (opAt A n).opcode with
  | some assigned =>
    dsimp only
    rw [rewriteAssign_of_not_pair (by rw [hop]; rfl) hassign, Rewriting.apply_self]
    rfl
  | none =>
    cases hop' : (opAt A n).opcode with
    | postInc =>
      rw [hrewrite _ (.inl hop'), Rewriting.apply_self]
    | postDec =>
      dsimp only
      rw [hrewrite _ (.inr hop'), Rewriting.apply_self]
    | _ => rfl

theorem pass3Loop_finally {turns : Nat} (h : NoPairs A) :
    pass3Loop fuel true turns n A = some A := by
  induction turns generalizing n with
  | zero => rfl
  | succ turns ih =>
    rw [pass3Loop]
    by_cases hn : n < A.length
    · rw [if_pos hn, pass3Turn_finally (h n hn).1 (h n hn).2]
      exact ih
    · rw [if_neg hn]

end Pass

/-- Pass 3 on an op_array without `finally`: every run performs the same
oplines as on the op_array in which only assignments were rewritten, which is
the op_array itself when it has none to rewrite. -/
theorem pass3_performs (a : OpArray) (fuel : Nat) (hfinally : a.hasFinallyBlock = false)
    (hplain : ∀ op ∈ a.opcodes, PlainJump op)
    (hrange : ∀ op ∈ a.opcodes, ∀ t ∈ jumpTargets op, t < a.opcodes.length)
    (hfuel : a.opcodes.length + 2 ≤ fuel) :
    ∃ b c, pass3 fuel { a with hasFinallyBlock := true } = some b ∧ pass3 fuel a = some c ∧
      (NoPairs a.opcodes → b.opcodes = a.opcodes) ∧
      ∀ (σ : Type) (truth : σ → Truth)
        (exec : Nat → ZendOp → σ → Option (σ × Nat)) (s : σ) (p : Nat)
        (l : List (Nat × ZendOp)),
        (codeMachine truth exec c.opcodes).Performs s p l ↔
          (codeMachine truth exec b.opcodes).Performs s p l := by
  have hmem : ∀ p, p < a.opcodes.length → opAt a.opcodes p ∈ a.opcodes := by
    intro p hp
    simp [opAt, hp]
  have hstart : Threaded a.opcodes a.opcodes 0 := by
    refine Threaded.refl ?_ ?_
    · intro p
      rcases Nat.lt_or_ge p a.opcodes.length with hp | hp
      · exact hplain _ (hmem p hp)
      · rw [opAt_outside hp]
        simp [PlainJump, ZendOp.outside]
    · intro p t ht
      rcases Nat.lt_or_ge p a.opcodes.length with hp | hp
      · exact le_of_lt (hrange _ (hmem p hp) t ht)
      · rw [opAt_outside hp] at ht
        simp [jumpTargets, ZendOp.outside] at ht
  obtain ⟨A, B, hA, hB, m, hthreaded⟩ :=
    pass3Loop_threads a.opcodes.length hstart hfuel
  refine ⟨{ a with hasFinallyBlock := true, opcodes := B }, { a with opcodes := A }, ?_, ?_, ?_, ?_⟩
  · rw [pass3, hB]
    rfl
  · rw [pass3, hfinally, hA]
    rfl
  · intro hpairs
    rw [pass3Loop_finally hpairs] at hB
    exact (Option.some.inj hB).symm
  · intro σ truth exec s p l
    exact hthreaded.performs_iff truth exec s p l

/-- `L0: JMPZ T0, L2; ECHO; L2: JMP L4; ECHO; L4: RETURN`. -/
def jumpToJump : OpArray where
  opcodes :=
    [⟨.jmpz, ⟨.tmpVar, 0, false⟩, ⟨.unused, 2, false⟩, .none, 0⟩,
      ⟨.echo, ⟨.const, 0, false⟩, .none, .none, 0⟩, ⟨.jmp, ⟨.unused, 4, false⟩, .none, .none, 0⟩,
      ⟨.echo, ⟨.const, 1, false⟩, .none, .none, 0⟩,
      ⟨.returnOp, ⟨.const, 2, false⟩, .none, .none, 0⟩]
  literals := [.long 1, .long 2, .null]

theorem pass3_performs_jumpToJump :
    ∃ b c, pass3 7 { jumpToJump with hasFinallyBlock := true } = some b ∧
      pass3 7 jumpToJump = some c ∧
      (NoPairs jumpToJump.opcodes → b.opcodes = jumpToJump.opcodes) ∧
      ∀ (σ : Type) (truth : σ → Truth)
        (exec : Nat → ZendOp → σ → Option (σ × Nat)) (s : σ) (p : Nat)
        (l : List (Nat × ZendOp)),
        (codeMachine truth exec c.opcodes).Performs s p l ↔
          (codeMachine truth exec b.opcodes).Performs s p l :=
  pass3_performs jumpToJump 7 rfl (by unfold PlainJump; decide) (by decide) (by decide)

/-- `$i = $i + 1; return;`. -/
def addAssign : OpArray where
  opcodes :=
    [⟨.add, ⟨.cv, 0, false⟩, ⟨.const, 0, false⟩, ⟨.tmpVar, 0, false⟩, 0⟩,
      ⟨.assign, ⟨.cv, 0, false⟩, ⟨.tmpVar, 0, false⟩, ⟨.var, 1, true⟩, 0⟩,
      ⟨.returnOp, ⟨.const, 1, false⟩, .none, .none, 0⟩]
  literals := [.long 1, .null]

/-- The pass also rewrites assignments: an ADD is performed before it, and an
ASSIGN_ADD after it. -/
theorem pass3_rewrites_add : ∃ c, pass3 5 addAssign = some c ∧ ¬ ∀ (σ : Type) (truth : σ → Truth)
        (exec : Nat → ZendOp → σ → Option (σ × Nat)) (s : σ) (p : Nat) (l : List (Nat × ZendOp)),
        (codeMachine truth exec c.opcodes).Performs s p l ↔
          (codeMachine truth exec addAssign.opcodes).Performs s p l := by
  refine ⟨_, rfl, ?_⟩
  intro h
  have hbefore : (codeMachine (fun _ _ _ => true) (fun n _ _ => some ((), n + 1))
      addAssign.opcodes).Performs () 0 [(0, opAt addAssign.opcodes 0)] :=
    .cons (RunsTo.refl 0) rfl rfl (.nil () 1)
  have hafter := (h Unit _ _ () 0 _).mpr hbefore
  have heq := hafter.head rfl rfl
  cases heq

end PhpEngine

/-
What pass 3 does to values: when `$i = $i + expr` may become `$i += expr`.
-/
import Mathlib.Logic.Function.Basic
import PhpEngine.JumpThreading

namespace PhpEngine

open List Function

/-- The compiled variables and the temporaries. -/
structure Store (V : Type) where
  cv : Nat → V
  tmp : Nat → V

/-- A meaning of the oplines.  `other` stands for the oplines that the pass
does not look at: from the values of their operands and the variables they
give new variables and a result. -/
structure Meaning (V : Type) where
  literal : Nat → V
  nothing : V
  binary : Opcode → V → V → V
  step : Opcode → V → V
  other : ZendOp → V → V → (Nat → V) → (Nat → V) × V
  comm : ∀ o x y, swappable o = true → binary o x y = binary o y x

/-- The operator of a compound assignment. -/
def compoundOperator : Opcode → Option Opcode
  | .assignAdd => some .add
  | .assignSub => some .sub
  | .assignMul => some .mul
  | .assignDiv => some .div
  | .assignMod => some .mod
  | .assignPow => some .pow
  | .assignConcat => some .concat
  | .assignSl => some .sl
  | .assignSr => some .sr
  | .assignBwOr => some .bwOr
  | .assignBwAnd => some .bwAnd
  | .assignBwXor => some .bwXor
  | _ => none

def Operand.isTmp (o : Operand) : Bool :=
  o.type = .tmpVar || o.type = .var

section Exec

variable {V : Type} (M : Meaning V)

def Meaning.read (s : Store V) (o : Operand) : V :=
  match o.type with
  | .const => M.literal o.num
  | .tmpVar | .var => s.tmp o.num
  | .cv => s.cv o.num
  | .unused => M.nothing

def Store.put (s : Store V) (o : Operand) (x : V) : Store V :=
  match o.type with
  | .tmpVar | .var => { s with tmp := update s.tmp o.num x }
  | .cv => { s with cv := update s.cv o.num x }
  | _ => s

/-- The result of an opline, where it is used. -/
def resultPut (op : ZendOp) (x : V) : List (Operand × V) :=
  if op.result.extUnused then [] else [(op.result, x)]

/-- What an opline does: new variables, and then values that are put
somewhere. -/
def effects (op : ZendOp) (s : Store V) : (Nat → V) × List (Operand × V) :=
  let x := M.read s op.op1
  let y := M.read s op.op2
  match assignOpcode op.opcode, compoundOperator op.opcode with
  | some _, _ => (s.cv, resultPut op (M.binary op.opcode x y))
  | none, some o =>
    (s.cv, (op.op1, M.binary o x y) :: resultPut op (M.binary o x y))
  | none, none =>
    match op.opcode with
    | .nop | .freeOp => (s.cv, [])
    | .assign => (s.cv, (op.op1, y) :: resultPut op y)
    | .preInc | .preDec =>
      (s.cv, (op.op1, M.step op.opcode x) :: resultPut op (M.step op.opcode x))
    | .postInc => (s.cv, resultPut op x ++ [(op.op1, M.step .preInc x)])
    | .postDec => (s.cv, resultPut op x ++ [(op.op1, M.step .preDec x)])
    | _ => ((M.other op x y s.cv).1, resultPut op (M.other op x y s.cv).2)

def Store.putAll (s : Store V) (puts : List (Operand × V)) : Store V :=
  puts.foldl (fun s w => s.put w.1 w.2) s

def exec (op : ZendOp) (s : Store V) : Store V :=
  Store.putAll { s with cv := (effects M op s).1 } (effects M op s).2

def runOps (l : List ZendOp) (s : Store V) : Store V :=
  l.foldl (fun s op => exec M op s) s

end Exec

/-- The operands that an opline reads. -/
def readOperands (op : ZendOp) : List Operand :=
  match op.opcode with
  | .nop | .freeOp => []
  | .assign => [op.op2]
  | .preInc | .preDec | .postInc | .postDec => [op.op1]
  | _ => [op.op1, op.op2]

def writtenResult (op : ZendOp) : List Operand :=
  if op.result.extUnused then [] else [op.result]

/-- The operands that an opline writes. -/
def writtenOperands (op : ZendOp) : List Operand :=
  match assignOpcode op.opcode, compoundOperator op.opcode with
  | some _, _ => writtenResult op
  | none, some _ => op.op1 :: writtenResult op
  | none, none =>
    match op.opcode with
    | .nop | .freeOp => []
    | .assign | .preInc | .preDec => op.op1 :: writtenResult op
    | .postInc | .postDec => writtenResult op ++ [op.op1]
    | _ => writtenResult op

def Tmp (l : List Operand) (t : Nat) : Prop :=
  ∃ o ∈ l, o.isTmp = true ∧ o.num = t

/-- A temporary that is read before it is written. -/
def Live : List ZendOp → Nat → Prop
  | [], _ => False
  | op :: l, t => Tmp (readOperands op) t ∨ ¬ Tmp (writtenOperands op) t ∧ Live l t

/-- The same variables, and the same values of some temporaries. -/
def Agree {V : Type} (live : Nat → Prop) (s s' : Store V) : Prop :=
  s.cv = s'.cv ∧ ∀ t, live t → s.tmp t = s'.tmp t

section Agreement

variable {V : Type} {M : Meaning V} {s s' : Store V} {op : ZendOp} {live : Nat → Prop}

theorem Store.put_cv (s : Store V) (o : Operand) (x : V) : (s.put o x).cv =
      if o.type = .cv then update s.cv o.num x else s.cv := by
  obtain ⟨type, num, ext⟩ := o
  cases type <;> rfl

theorem Store.put_tmp (s : Store V) (o : Operand) (x : V) (t : Nat) :
    (s.put o x).tmp t = if o.isTmp = true ∧ o.num = t then x else s.tmp t := by
  obtain ⟨type, num, ext⟩ := o
  by_cases ht : num = t
  · subst ht
    cases type <;> simp [Store.put, Operand.isTmp]
  · cases type <;> simp [Store.put, Operand.isTmp, ht, Ne.symm ht]

theorem Agree.putAll (puts : List (Operand × V)) (hcv : s.cv = s'.cv)
    (htmp : ∀ t, live t → Tmp (puts.map Prod.fst) t ∨ s.tmp t = s'.tmp t) :
    Agree live (s.putAll puts) (s'.putAll puts) := by
  induction puts generalizing s s' with
  | nil =>
    refine ⟨hcv, fun t ht => ?_⟩
    rcases htmp t ht with ⟨o, ho, -⟩ | hsame
    · cases ho
    · exact hsame
  | cons w puts ih =>
    refine ih ?_ ?_
    · rw [Store.put_cv, Store.put_cv, hcv]
    · intro t ht
      rw [Store.put_tmp, Store.put_tmp]
      by_cases hw : w.1.isTmp = true ∧ w.1.num = t
      · exact .inr (by rw [if_pos hw, if_pos hw])
      · rw [if_neg hw, if_neg hw]
        rcases htmp t ht with ⟨o, ho, hput⟩ | hsame
        · rw [map_cons] at ho
          rcases mem_cons.mp ho with rfl | ho
          · exact absurd hput hw
          · exact .inl ⟨o, ho, hput⟩
        · exact .inr hsame

theorem read_agree {o : Operand} (hcv : s.cv = s'.cv)
    (htmp : o.isTmp = true → s.tmp o.num = s'.tmp o.num) : M.read s o = M.read s' o := by
  obtain ⟨type, num, ext⟩ := o
  cases type with
  | tmpVar | var => exact htmp rfl
  | cv => exact congrFun hcv num
  | const | unused => rfl

theorem map_resultPut (op : ZendOp) (x : V) : (resultPut op x).map Prod.fst = writtenResult op := by
  rw [resultPut, writtenResult]
  split <;> rfl

theorem effects_written (M : Meaning V) (op : ZendOp) (s : Store V) :
    (effects M op s).2.map Prod.fst = writtenOperands op := by
  rw [effects, writtenOperands]
  split
  · exact map_resultPut _ _
  · rw [map_cons, map_resultPut]
  · split <;> simp [map_resultPut]

theorem effects_agree (hcv : s.cv = s'.cv)
    (htmp : ∀ t, Tmp (readOperands op) t → s.tmp t = s'.tmp t) :
    effects M op s = effects M op s' := by
  have hread : ∀ o ∈ readOperands op, M.read s o = M.read s' o := by
    intro o ho
    exact read_agree hcv fun htype => htmp o.num ⟨o, ho, htype, rfl⟩
  obtain ⟨opcode, op1, op2, result, ext⟩ := op
  cases opcode with
  | nop | freeOp => simp [effects, assignOpcode, compoundOperator, hcv]
  | assign =>
    have hop2 := hread op2 (by simp [readOperands])
    simp [effects, assignOpcode, compoundOperator, hcv, hop2]
  | preInc | preDec | postInc | postDec =>
    have hop1 := hread op1 (by simp [readOperands])
    simp [effects, assignOpcode, compoundOperator, hcv, hop1]
  | _ =>
    have hop1 := hread op1 (by simp [readOperands])
    have hop2 := hread op2 (by simp [readOperands])
    simp [effects, assignOpcode, compoundOperator, hcv, hop1, hop2]

theorem exec_agree {l : List ZendOp} (h : Agree (Live (op :: l)) s s') :
    Agree (Live l) (exec M op s) (exec M op s') := by
  have heffects : effects M op s = effects M op s' :=
    effects_agree h.1 fun t ht => h.2 t (.inl ht)
  rw [exec, exec, heffects]
  refine Agree.putAll _ rfl ?_
  intro t ht
  rw [← heffects, effects_written]
  by_cases hw : Tmp (writtenOperands op) t
  · exact .inl hw
  · exact .inr (h.2 t (.inr ⟨hw, ht⟩))

/-- An operand is put where it stands by type and number. -/
theorem Store.put_congr {o o' : Operand} (htype : o.type = o'.type)
    (hnum : o.num = o'.num) (s : Store V) (x : V) : s.put o x = s.put o' x := by
  rw [Store.put, Store.put, htype, hnum]

theorem effects_binary {assigned : Opcode}
    (h : assignOpcode op.opcode = some assigned) (s : Store V) :
    effects M op s = (s.cv, resultPut op
      (M.binary op.opcode (M.read s op.op1) (M.read s op.op2))) := by
  rw [effects, h]

theorem effects_compound {assigned o : Opcode}
    (h : assignOpcode o = some assigned) (hop : op.opcode = assigned) (s : Store V) :
    effects M op s = (s.cv, (op.op1, M.binary o (M.read s op.op1) (M.read s op.op2)) ::
        resultPut op (M.binary o (M.read s op.op1) (M.read s op.op2))) := by
  unfold assignOpcode at h
  split at h <;> cases h <;> rw [effects, hop] <;> rfl

theorem effects_assign (h : op.opcode = .assign) (s : Store V) :
    effects M op s = (s.cv, (op.op1, M.read s op.op2) :: resultPut op (M.read s op.op2)) := by
  rw [effects, h]
  rfl

theorem exec_nop (h : op.opcode = .nop) (s : Store V) : exec M op s = s := by
  rw [exec, effects, h]
  rfl

/-- Exchanging the operands of an operator that is swappable. -/
theorem swapOperands_read (op next : ZendOp) (s : Store V) :
    M.binary op.opcode (M.read s (swapOperands op next).op1) (M.read s (swapOperands op next).op2) =
      M.binary op.opcode (M.read s op.op1) (M.read s op.op2) := by
  rw [swapOperands]
  split
  · rename_i h
    exact M.comm _ _ _ h.2.2.1
  · rfl

theorem swapOperands_result (op next : ZendOp) : (swapOperands op next).result = op.result ∧
      (swapOperands op next).opcode = op.opcode := by
  rw [swapOperands]
  split <;> exact ⟨rfl, rfl⟩

theorem exec_swapOperands {assigned : Opcode}
    (h : assignOpcode op.opcode = some assigned) (next : ZendOp)
    (s : Store V) : exec M (swapOperands op next) s = exec M op s := by
  obtain ⟨hresult, hop⟩ := swapOperands_result op next
  rw [exec, exec, effects_binary h, effects_binary (by rw [hop]; exact h),
    resultPut, resultPut, hresult, hop, swapOperands_read]

end Agreement

/-! Pairs of oplines that become one. -/

/-- The opline that the pass merges into the opline `n`. -/
def mergesWith (opcodes : List ZendOp) (n : Nat) : Option Nat :=
  match assignOpcode (opAt opcodes n).opcode with
  | some assigned => (rewriteAssign opcodes n assigned).gone
  | none =>
    match (opAt opcodes n).opcode with
    | .postInc => (rewritePostInc opcodes n .preInc).gone
    | .postDec => (rewritePostInc opcodes n .preDec).gone
    | _ => none

/-- The value that is assigned is the result of the operator. -/
def AssignsResult (op next : ZendOp) : Prop :=
  op.result.isTmp = true ∧ op.result.extUnused = false ∧
    next.op2.isTmp = true ∧ next.op2.num = op.result.num

/-- A pair that may be merged: an operator whose result is what is assigned,
and in any case a result that is not read again. -/
def MayMerge (opcodes : List ZendOp) (n m : Nat) : Prop :=
  ((assignOpcode (opAt opcodes n).opcode).isSome →
    AssignsResult (opAt opcodes n) (opAt opcodes m)) ∧
  (Live (opcodes.drop (m + 1)) (opAt opcodes n).result.num →
    Tmp (writtenOperands (opAt opcodes m)) (opAt opcodes n).result.num)

section Pairs

variable {V : Type} {M : Meaning V} {s s' : Store V} {op next : ZendOp} {l : List ZendOp}

theorem resultPut_tmp {x : V} (h : op.result.extUnused = false) :
    resultPut op x = [(op.result, x)] := by
  rw [resultPut, h]
  rfl

theorem assignPair_agree {assigned : Opcode} (hop : assignOpcode op.opcode = some assigned)
    (hnext : next.opcode = .assign) (hvar : (swapOperands op next).op1.num = next.op1.num ∧
      (swapOperands op next).op1.type = next.op1.type) (hresult : AssignsResult op next)
    (hdead : Live l op.result.num → Tmp (writtenOperands next) op.result.num)
    (h : Agree (Live (op :: next :: l)) s s') : Agree (Live l) (exec M next (exec M op s))
      (exec M { swapOperands op next with
        opcode := assigned, result := next.result } s') := by
  obtain ⟨htmp, hused, hop2, hnum⟩ := hresult
  obtain ⟨x, hx⟩ : ∃ x, M.binary op.opcode (M.read s op.op1) (M.read s op.op2) = x := ⟨_, rfl⟩
  have hx' : M.binary op.opcode (M.read s' (swapOperands op next).op1)
      (M.read s' (swapOperands op next).op2) = x := by
    have hreads : readOperands op = [op.op1, op.op2] := by
      unfold assignOpcode at hop
      split at hop <;> simp_all [readOperands]
    have hread : ∀ o ∈ readOperands op, M.read s o = M.read s' o := by
      intro o ho
      exact read_agree h.1 fun htype => h.2 o.num (.inl ⟨o, ho, htype, rfl⟩)
    rw [hreads] at hread
    rw [swapOperands_read, ← hx, hread op.op1 (by simp), hread op.op2 (by simp)]
  have hfirst : exec M op s = s.put op.result x := by
    rw [exec, effects_binary hop, hx, resultPut_tmp hused]
    rfl
  have hvalue : M.read (s.put op.result x) next.op2 = x := by
    have hat : M.read (s.put op.result x) next.op2 = (s.put op.result x).tmp next.op2.num := by
      rw [Operand.isTmp] at hop2
      rw [Meaning.read]
      split <;> simp_all
    rw [hat, Store.put_tmp, if_pos ⟨htmp, hnum.symm⟩]
  have hputs : exec M next (exec M op s) = (s.put op.result x).putAll
      ((next.op1, x) :: resultPut next x) := by
    rw [hfirst, exec, effects_assign hnext, hvalue]
  have hputs' : exec M { swapOperands op next with
      opcode := assigned, result := next.result } s' =
      s'.putAll ((next.op1, x) :: resultPut next x) := by
    rw [exec, effects_compound hop rfl, hx']
    simp only [Store.putAll, foldl_cons]
    rw [Store.put_congr hvar.2 hvar.1]
    rfl
  have hwritten : ((next.op1, x) :: resultPut next x).map Prod.fst = writtenOperands next := by
    rw [← effects_written M next (s.put op.result x), effects_assign hnext, hvalue]
  rw [hputs, hputs']
  refine Agree.putAll _ ?_ ?_
  · rw [Store.put_cv, if_neg, h.1]
    intro hcv
    rw [Operand.isTmp, hcv] at htmp
    cases htmp
  · intro t ht
    rw [hwritten, Store.put_tmp]
    by_cases hw : Tmp (writtenOperands next) t
    · exact .inl hw
    · right
      have hne : ¬ (op.result.isTmp = true ∧ op.result.num = t) := by
        rintro ⟨-, rfl⟩
        exact hw (hdead ht)
      rw [if_neg hne]
      refine h.2 t (.inr ⟨?_, .inr ⟨hw, ht⟩⟩)
      rintro ⟨o, ho, htype, honum⟩
      rw [writtenOperands, hop] at ho
      rw [writtenResult, hused] at ho
      obtain rfl := mem_singleton.mp ho
      exact hne ⟨htype, honum⟩

theorem postIncPair_agree {pre : Opcode} (hop : op.opcode = .postInc ∧ pre = .preInc ∨
      op.opcode = .postDec ∧ pre = .preDec)
    (hnext : next.opcode = .freeOp) (hresult : op.result.type ≠ .cv) (hdead : Live l op.result.num →
      Tmp (writtenOperands next) op.result.num) (h : Agree (Live (op :: next :: l)) s s') :
    Agree (Live l) (exec M next (exec M op s)) (exec M { op with
        opcode := pre, result := ⟨.var, op.result.num, true⟩ } s') := by
  have hfree : ∀ s : Store V, exec M next s = s := by
    intro s
    rw [exec, effects, hnext]
    rfl
  have hnone : ¬ Live l op.result.num := by
    intro hlive
    obtain ⟨o, ho, -⟩ := hdead hlive
    rw [writtenOperands, hnext] at ho
    cases ho
  have hread : M.read s op.op1 = M.read s' op.op1 := by
    refine read_agree h.1 fun htype => h.2 _ (.inl ⟨op.op1, ?_, htype, rfl⟩)
    rcases hop with ⟨hop, -⟩ | ⟨hop, -⟩ <;> simp [readOperands, hop]
  generalize hx : M.read s op.op1 = x at hread
  have hfirst : exec M op s = (s.putAll (resultPut op x)).putAll [(op.op1, M.step pre x)] := by
    rcases hop with ⟨hop, rfl⟩ | ⟨hop, rfl⟩ <;>
      simp [exec, effects, hop, assignOpcode, compoundOperator, hx, Store.putAll]
  have hafter : exec M { op with
      opcode := pre, result := ⟨.var, op.result.num, true⟩ } s' =
      s'.putAll [(op.op1, M.step pre x)] := by
    rcases hop with ⟨-, rfl⟩ | ⟨-, rfl⟩ <;>
      simp [exec, effects, assignOpcode, compoundOperator, ← hread, Store.putAll, resultPut]
  have hwritten : ∀ t, Tmp (writtenOperands op) t →
      t = op.result.num ∨ op.op1.isTmp = true ∧ op.op1.num = t := by
    rintro t ⟨o, ho, htype, hnum⟩
    have hmem : o ∈ writtenResult op ++ [op.op1] := by
      rcases hop with ⟨hop, -⟩ | ⟨hop, -⟩ <;>
        simpa [writtenOperands, hop, assignOpcode, compoundOperator] using ho
    rcases mem_append.mp hmem with ho | ho
    · rw [writtenResult] at ho
      split at ho
      · cases ho
      · obtain rfl := mem_singleton.mp ho
        exact .inl hnum.symm
    · obtain rfl := mem_singleton.mp ho
      exact .inr ⟨htype, hnum⟩
  rw [hfree, hfirst, hafter]
  refine Agree.putAll _ ?_ ?_
  · rw [← h.1, resultPut]
    split
    · rfl
    · simp [Store.putAll, Store.put_cv, hresult]
  · intro t ht
    have hne : t ≠ op.result.num := by
      rintro rfl
      exact hnone ht
    by_cases hop1 : op.op1.isTmp = true ∧ op.op1.num = t
    · exact .inl ⟨op.op1, by simp, hop1⟩
    · right
      have hsame : (s.putAll (resultPut op x)).tmp t = s.tmp t := by
        rw [resultPut]
        split
        · rfl
        · simp [Store.putAll, Store.put_tmp, Ne.symm hne]
      rw [hsame]
      refine h.2 t (.inr ⟨?_, .inr ⟨?_, ht⟩⟩)
      · intro hw
        rcases hwritten t hw with rfl | hop1'
        · exact hne rfl
        · exact hop1 hop1'
      · rintro ⟨o, ho, -⟩
        rw [writtenOperands, hnext] at ho
        cases ho

end Pairs

/-! Points in the oplines. -/

section Points

variable {V : Type} {M : Meaning V} {O A : List ZendOp} {n m : Nat}

theorem take_succ_opAt (h : n < O.length) : O.take (n + 1) = O.take n ++ [opAt O n] := by
  simp [opAt, h]

theorem drop_opAt (h : n < O.length) : O.drop n = opAt O n :: O.drop (n + 1) := by
  simp [opAt, h]

theorem runOps_append (l l' : List ZendOp) (s : Store V) :
    runOps M (l ++ l') s = runOps M l' (runOps M l s) := by
  rw [runOps, runOps, runOps, foldl_append]

theorem runOps_take_succ (h : n < O.length) (s : Store V) :
    runOps M (O.take (n + 1)) s = exec M (opAt O n) (runOps M (O.take n) s) := by
  rw [take_succ_opAt h, runOps_append]
  rfl

section

variable (hnm : n ≤ m) (hm : m ≤ O.length) (hnops : ∀ p, n ≤ p → p < m → (opAt O p).opcode = .nop)
include hnm hm hnops

theorem runOps_nops (s : Store V) :
    runOps M (O.take m) s = runOps M (O.take n) s := by
  induction m, hnm using Nat.le_induction with
  | base => rfl
  | succ m hnm ih =>
    rw [runOps_take_succ hm, exec_nop (hnops m hnm (Nat.lt_succ_self m))]
    exact ih (Nat.le_of_succ_le hm) fun p hp hlt => hnops p hp (Nat.lt_succ_of_lt hlt)

theorem live_nops (t : Nat) :
    Live (O.drop n) t ↔ Live (O.drop m) t := by
  induction m, hnm using Nat.le_induction with
  | base => rfl
  | succ m hnm ih =>
    have hnop := hnops m hnm (Nat.lt_succ_self m)
    rw [ih (Nat.le_of_succ_le hm)
      fun p hp hlt => hnops p hp (Nat.lt_succ_of_lt hlt), drop_opAt hm, Live]
    have hreads : ¬ Tmp (readOperands (opAt O m)) t := by
      rintro ⟨o, ho, -⟩
      rw [readOperands, hnop] at ho
      cases ho
    have hwrites : ¬ Tmp (writtenOperands (opAt O m)) t := by
      rintro ⟨o, ho, -⟩
      rw [writtenOperands, hnop] at ho
      cases ho
    tauto

end

theorem nop_of_skipNops {count p : Nat} (hmp : m ≤ p)
    (hp : p < skipNops O count m) : (opAt O p).opcode = .nop := by
  induction count generalizing m with
  | zero => exact absurd hp (Nat.not_lt.mpr hmp)
  | succ count ih =>
    rw [skipNops] at hp
    by_cases hnop : (opAt O m).opcode = .nop
    · rw [if_pos hnop] at hp
      rcases Nat.eq_or_lt_of_le hmp with rfl | hlt
      · exact hnop
      · exact ih hlt hp
    · rw [if_neg hnop] at hp
      exact absurd hp (Nat.not_lt.mpr hmp)

theorem nop_of_nextOpline {p : Nat} (hnp : n < p) (hp : p < nextOpline O n) :
    (opAt O p).opcode = .nop :=
  nop_of_skipNops hnp hp

/-- A point that is not inside a pair that is merged. -/
def Outside (O : List ZendOp) (k : Nat) : Prop :=
  ∀ i j, mergesWith O i = some j → k ≤ i ∨ j < k

/-- The pass at `n`: the oplines before `m` have been looked at, and up to
there both programs have come to agreeing states. -/
structure Simulated (M : Meaning V) (O A : List ZendOp) (n m : Nat) :
    Prop where
  length : A.length = O.length
  le : n ≤ m
  nops : ∀ p, n ≤ p → p < m → (opAt A p).opcode = .nop
  rest : ∀ p, m ≤ p → opAt A p = opAt O p
  reached : ∀ s, Agree (Live (O.drop m)) (runOps M (O.take m) s) (runOps M (A.take m) s)
  points : ∀ k, k < m → Outside O k → ∀ s, Agree (Live (O.drop k))
    (runOps M (O.take k) s) (runOps M (A.take k) s)

theorem Simulated.start (M : Meaning V) (O : List ZendOp) : Simulated M O O 0 0 :=
  ⟨rfl, Nat.le_refl 0, fun p _ hp => absurd hp (Nat.not_lt_zero p),
    fun _ _ => rfl, fun _ => ⟨rfl, fun _ _ => rfl⟩, fun k hk => absurd hk (Nat.not_lt_zero k)⟩

/-- Points up to `n`. -/
theorem Simulated.point (h : Simulated M O A n n) {k : Nat} (hk : k ≤ n)
    (hout : Outside O k) (s : Store V) : Agree (Live (O.drop k)) (runOps M (O.take k) s)
      (runOps M (A.take k) s) := by
  rcases Nat.lt_or_eq_of_le hk with hk | rfl
  · exact h.points k hk hout s
  · exact h.reached s

/-- An opline in whose place one of the same meaning is put. -/
theorem Simulated.keep (h : Simulated M O A n n) (hn : n < O.length)
    {op : ZendOp} (hexec : ∀ s, exec M op s = exec M (opAt O n) s) :
    Simulated M O (A.set n op) (n + 1) (n + 1) := by
  have hnA : n < A.length := by rwa [h.length]
  refine ⟨by rw [length_set, h.length], le_rfl, ?_, ?_, ?_, ?_⟩
  · intro p hp hlt
    omega
  · intro p hp
    rw [opAt_set_ne (by omega)]
    exact h.rest p (by omega)
  · intro s
    have hreached := h.reached s
    rw [drop_opAt hn] at hreached
    rw [runOps_take_succ hn, runOps_take_succ (by rwa [length_set]),
      opAt_set_eq hnA, take_set_of_le (le_refl n), hexec]
    exact exec_agree hreached
  · intro k hk hout s
    rw [take_set_of_le (by omega)]
    exact h.point (by omega) hout s

theorem Simulated.merge (h : Simulated M O A n n) {j n' : Nat} {op : ZendOp}
    (hnj : n < j) (hj : j < O.length) (hn' : n' ≤ j + 1)
    (hnext : n < n') (hmerges : mergesWith O n = some j)
    (hnops : ∀ p, n < p → p < j → (opAt O p).opcode = .nop) (hpair : ∀ s s',
      Agree (Live (opAt O n :: opAt O j :: O.drop (j + 1))) s s' →
      Agree (Live (O.drop (j + 1))) (exec M (opAt O j) (exec M (opAt O n) s)) (exec M op s')) :
    Simulated M O ((A.set n op).set j (opAt A j).makeNop) n' (j + 1) := by
  have hnO : n < O.length := lt_trans hnj hj
  have hnA : n < A.length := by rwa [h.length]
  have hjA : j < (A.set n op).length := by rwa [length_set, h.length]
  have hlength : ((A.set n op).set j (opAt A j).makeNop).length = O.length := by
    rw [length_set, length_set, h.length]
  have hnopA : ∀ p, n < p → p < j + 1 →
      (opAt ((A.set n op).set j (opAt A j).makeNop) p).opcode = .nop := by
    intro p hp hlt
    by_cases hpj : p = j
    · rw [hpj, opAt_set_eq hjA]
      rfl
    · rw [opAt_set_ne hpj, opAt_set_ne (by omega), h.rest p (by omega)]
      exact hnops p hp (by omega)
  have htake : ∀ k, k ≤ n → ((A.set n op).set j (opAt A j).makeNop).take k = A.take k := by
    intro k hk
    rw [take_set_of_le (by omega), take_set_of_le hk]
  refine ⟨hlength, hn', ?_, ?_, ?_, ?_⟩
  · intro p hp hlt
    exact hnopA p (by omega) hlt
  · intro p hp
    rw [opAt_set_ne (by omega), opAt_set_ne (by omega)]
    exact h.rest p (by omega)
  · intro s
    have hbefore : runOps M (O.take (j + 1)) s =
        exec M (opAt O j) (exec M (opAt O n) (runOps M (O.take n) s)) := by
      rw [runOps_take_succ hj, runOps_nops (n := n + 1) hnj (le_of_lt hj)
        (fun p hp hlt => hnops p hp hlt), runOps_take_succ hnO]
    have hafter : runOps M (((A.set n op).set j (opAt A j).makeNop).take (j + 1)) s =
        exec M op (runOps M (A.take n) s) := by
      rw [runOps_nops (n := n + 1) (by omega) (by rw [hlength]; exact hj)
        (fun p hp hlt => hnopA p hp hlt),
        runOps_take_succ (by rw [hlength]; exact hnO), htake n (le_refl n),
        opAt_set_ne (ne_of_lt hnj), opAt_set_eq hnA]
    rw [hbefore, hafter]
    refine hpair _ _ ⟨(h.reached s).1, ?_⟩
    intro t ht
    refine (h.reached s).2 t ?_
    have hlive := live_nops (n := n + 1) (m := j) hnj (le_of_lt hj)
      (fun p hp hlt => hnops p hp hlt) t
    rw [drop_opAt hnO, Live, hlive, drop_opAt hj]
    exact ht
  · intro k hk hout s
    have hkn : k ≤ n := by
      rcases hout n j hmerges with hle | hlt
      · exact hle
      · omega
    rw [htake k hkn]
    exact h.point hkn hout s

end Points

/-- Oplines without jumps, whose results are temporaries. -/
structure StraightLine (O : List ZendOp) : Prop where
  jumps : ∀ op ∈ O, op.opcode ≠ .jmp ∧ op.opcode ≠ .jmpz ∧
    op.opcode ≠ .jmpnz ∧ op.opcode ≠ .jmpznz ∧ PlainJump op
  result : ∀ op ∈ O, op.result.type ≠ .cv

section Turns

variable {V : Type} {M : Meaning V} {O A : List ZendOp} {n m : Nat}

theorem rewriteAssign_cases (O : List ZendOp) (n : Nat) (assigned : Opcode) :
    (∃ next, rewriteAssign O n assigned = ⟨swapOperands (opAt O n) next, none⟩) ∨
      rewriteAssign O n assigned = ⟨opAt O n, none⟩ ∨ (nextOpline O n < O.length ∧
        (opAt O (nextOpline O n)).opcode = .assign ∧
        ((swapOperands (opAt O n) (opAt O (nextOpline O n))).op1.num =
            (opAt O (nextOpline O n)).op1.num ∧
          (swapOperands (opAt O n) (opAt O (nextOpline O n))).op1.type =
            (opAt O (nextOpline O n)).op1.type) ∧ rewriteAssign O n assigned =
          ⟨{ swapOperands (opAt O n) (opAt O (nextOpline O n)) with
            opcode := assigned, result := (opAt O (nextOpline O n)).result },
            some (nextOpline O n)⟩) := by
  rw [rewriteAssign]
  dsimp only
  split
  · rename_i hnext
    split
    · rename_i hvar
      exact .inr (.inr ⟨hnext.1, hnext.2, hvar.2, rfl⟩)
    · exact .inl ⟨_, rfl⟩
  · exact .inr (.inl rfl)

theorem rewritePostInc_cases (O : List ZendOp) (n : Nat) (pre : Opcode) :
    rewritePostInc O n pre = ⟨opAt O n, none⟩ ∨
      (n + 1 < O.length ∧ (opAt O (n + 1)).opcode = .freeOp ∧
        rewritePostInc O n pre = ⟨{ opAt O n with
          opcode := pre, result := ⟨.var, (opAt O n).result.num, true⟩ },
          some (n + 1)⟩) := by
  rw [rewritePostInc]
  split
  · rename_i hnext
    exact .inr ⟨hnext.1, hnext.2.1, rfl⟩
  · exact .inl rfl

theorem Simulated.turn_assign (h : Simulated M O A n n) (hn : n < O.length)
    {assigned : Opcode} (hop : assignOpcode (opAt O n).opcode = some assigned)
    (hmay : ∀ j, mergesWith O n = some j → MayMerge O n j) : ∃ n' m', Simulated M O
        ((rewriteAssign O n assigned).apply A n) n' m' ∧ n < n' ∧
      n' = if (rewriteAssign O n assigned).gone.isSome then n + 2 else n + 1 := by
  rcases rewriteAssign_cases O n assigned with ⟨next, hr⟩ | hr | ⟨hlt, hassign, hvar, hr⟩
  · rw [hr]
    exact ⟨n + 1, n + 1, h.keep hn (exec_swapOperands hop next), Nat.lt_succ_self n, rfl⟩
  · rw [hr]
    exact ⟨n + 1, n + 1, h.keep hn fun _ => rfl, Nat.lt_succ_self n, rfl⟩
  · have hmerges : mergesWith O n = some (nextOpline O n) := by
      rw [mergesWith, hop]
      dsimp only
      rw [hr]
    have hnext := lt_nextOpline O n
    obtain ⟨hresult, hdead⟩ := hmay _ hmerges
    rw [hr]
    refine ⟨n + 2, nextOpline O n + 1, h.merge hnext hlt (by omega) (by omega)
      hmerges (fun p hp hlt => nop_of_nextOpline hp hlt) ?_, by omega, rfl⟩
    intro s s' hagree
    exact assignPair_agree hop hassign hvar (hresult (by rw [hop]; rfl)) hdead hagree

theorem Simulated.turn_postInc (h : Simulated M O A n n) (hn : n < O.length)
    {pre : Opcode} (hop : (opAt O n).opcode = .postInc ∧ pre = .preInc ∨
      (opAt O n).opcode = .postDec ∧ pre = .preDec) (hresult : (opAt O n).result.type ≠ .cv)
    (hmay : ∀ j, mergesWith O n = some j → MayMerge O n j) :
    ∃ m', Simulated M O ((rewritePostInc O n pre).apply A n) (n + 1) m' := by
  rcases rewritePostInc_cases O n pre with hr | ⟨hlt, hfree, hr⟩
  · rw [hr]
    exact ⟨n + 1, h.keep hn fun _ => rfl⟩
  · have hmerges : mergesWith O n = some (n + 1) := by
      rcases hop with ⟨hop, rfl⟩ | ⟨hop, rfl⟩ <;> simp [mergesWith, hop, assignOpcode, hr]
    obtain ⟨-, hdead⟩ := hmay _ hmerges
    rw [hr]
    refine ⟨n + 1 + 1, h.merge (Nat.lt_succ_self n) hlt (by omega)
      (Nat.lt_succ_self n) hmerges (fun p hp hlt => by omega) ?_⟩
    intro s s' hagree
    exact postIncPair_agree hop hfree hresult hdead hagree

theorem pass3Turn_simulates (fuel : Nat) (hasFinallyBlock : Bool)
    (h : Simulated M O A n m) (hn : n < O.length) (hO : StraightLine O)
    (hmay : ∀ j, mergesWith O n = some j → MayMerge O n j) :
    ∃ A' n' m', pass3Turn n fuel hasFinallyBlock A = some (A', n') ∧
      Simulated M O A' n' m' ∧ n < n' := by
  rcases Nat.eq_or_lt_of_le h.le with rfl | hnm
  · have hmem : opAt O n ∈ O := by simp [opAt, hn]
    obtain ⟨hjmp, hjmpz, hjmpnz, hjmpznz, hplain⟩ := hO.jumps _ hmem
    have hagree := h.rest n (le_refl n)
    have hstay : Simulated M O A (n + 1) (n + 1) := by
      have hkeep : Simulated M O (A.set n (opAt A n)) (n + 1) (n + 1) :=
        h.keep hn fun s => by rw [hagree]
      have hself : A.set n (opAt A n) = A := Rewriting.apply_self A n
      rwa [hself] at hkeep
    rw [pass3Turn, hagree]
    cases hop : assignOpcode (opAt O n).opcode with
    | some assigned =>
      obtain ⟨n', m', hturn, hlt, hn'⟩ := h.turn_assign hn hop hmay
      dsimp only
      rw [rewriteAssign_congr h.length h.rest]
      exact ⟨_, n', m', by rw [hn'], hturn, hlt⟩
    | none =>
      cases hop' : (opAt O n).opcode with
      | postInc =>
        obtain ⟨m', hturn⟩ := h.turn_postInc hn (.inl ⟨hop', rfl⟩) (hO.result _ hmem) hmay
        rw [rewritePostInc_congr h.length h.rest]
        exact ⟨_, _, m', rfl, hturn, Nat.lt_succ_self n⟩
      | postDec =>
        obtain ⟨m', hturn⟩ := h.turn_postInc hn (.inr ⟨hop', rfl⟩) (hO.result _ hmem) hmay
        dsimp only
        rw [rewritePostInc_congr h.length h.rest]
        exact ⟨_, _, m', rfl, hturn, Nat.lt_succ_self n⟩
      | jmp => exact absurd hop' hjmp
      | jmpz => exact absurd hop' hjmpz
      | jmpnz => exact absurd hop' hjmpnz
      | jmpznz => exact absurd hop' hjmpznz
      | jmpzEx => exact absurd hop' hplain.1
      | jmpnzEx => exact absurd hop' hplain.2.1
      | jmpSet => exact absurd hop' hplain.2.2.1
      | jmpSetVar => exact absurd hop' hplain.2.2.2
      | _ => exact ⟨A, n + 1, n + 1, rfl, hstay, Nat.lt_succ_self n⟩
  · have hnop := h.nops n (le_refl n) hnm
    refine ⟨A, n + 1, m, ?_, ⟨h.length, hnm, ?_, h.rest, h.reached, h.points⟩, Nat.lt_succ_self n⟩
    · rw [pass3Turn, hnop]
      rfl
    · intro p hp hlt
      exact h.nops p (Nat.le_of_succ_le hp) hlt

theorem pass3Loop_simulates (fuel : Nat) (hasFinallyBlock : Bool)
    {turns : Nat} (h : Simulated M O A n m) (hturns : O.length ≤ n + turns) (hO : StraightLine O)
    (hmay : ∀ i j, mergesWith O i = some j → MayMerge O i j) :
    ∃ A' n' m', pass3Loop fuel hasFinallyBlock turns n A = some A' ∧
      Simulated M O A' n' m' ∧ O.length ≤ n' := by
  induction turns generalizing n m A with
  | zero => exact ⟨A, n, m, rfl, h, hturns⟩
  | succ turns ih =>
    rw [pass3Loop, h.length]
    by_cases hn : n < O.length
    · obtain ⟨A₁, n₁, m₁, hrun, h₁, hlt⟩ := pass3Turn_simulates
        fuel hasFinallyBlock h hn hO (hmay n)
      rw [if_pos hn, hrun]
      exact ih h₁ (by omega)
    · rw [if_neg hn]
      exact ⟨A, n, m, rfl, h, Nat.not_lt.mp hn⟩

end Turns

/-! A pair that may not be merged: the two programs part right behind it. -/

section Apart

/-- Every operator gives 1, and all else is 0. -/
def onesMeaning : Meaning Int where
  literal _ := 0
  nothing := 0
  binary _ _ _ := 1
  step _ x := x
  other _ _ _ cv := (cv, 0)
  comm _ _ _ _ := rfl

def zeroStore : Store Int :=
  ⟨fun _ => 0, fun _ => 0⟩

variable {op next : ZendOp} {l : List ZendOp}

theorem read_of_not_assignsResult (hcv : op.result.type ≠ .cv) (h : ¬ AssignsResult op next) :
    onesMeaning.read (zeroStore.putAll (resultPut op 1)) next.op2 = 0 := by
  rw [resultPut]
  cases hused : op.result.extUnused with
  | true =>
    rw [if_pos rfl, Meaning.read]
    split <;> rfl
  | false =>
    have htmp : ∀ t, next.op2.isTmp = true → next.op2.num = t →
        (zeroStore.put op.result 1).tmp t = 0 := by
      rintro t htype rfl
      rw [Store.put_tmp, if_neg]
      · rfl
      · rintro ⟨hresult, hnum⟩
        exact h ⟨hresult, hused, htype, hnum.symm⟩
    change (match next.op2.type with
      | .const => _
      | .tmpVar | .var => (zeroStore.put op.result 1).tmp next.op2.num
      | .cv => (zeroStore.put op.result 1).cv next.op2.num
      | .unused => _) = _
    split
    · rfl
    · exact htmp _ (by simp [Operand.isTmp, *]) rfl
    · exact htmp _ (by simp [Operand.isTmp, *]) rfl
    · rw [Store.put_cv, if_neg hcv]
      rfl
    · rfl

theorem putAll_result_cv {s : Store Int} (hcv : op.result.type ≠ .cv)
    (x : Int) : (s.putAll (resultPut op x)).cv = s.cv := by
  rw [resultPut]
  split
  · rfl
  · exact (Store.put_cv _ _ _).trans (if_neg hcv)

theorem assignPair_apart {assigned : Opcode} (hop : assignOpcode op.opcode = some assigned)
    (hnext : next.opcode = .assign) (htarget : next.op1.type = .cv)
    (hvar : (swapOperands op next).op1.num = next.op1.num ∧
      (swapOperands op next).op1.type = next.op1.type)
    (hcv : op.result.type ≠ .cv) (hcv' : next.result.type ≠ .cv)
    (h : ¬ (AssignsResult op next ∧ (Live l op.result.num →
      Tmp (writtenOperands next) op.result.num))) : ¬ Agree (Live l)
      (exec onesMeaning next (exec onesMeaning op zeroStore))
      (exec onesMeaning { swapOperands op next with
        opcode := assigned, result := next.result } zeroStore) := by
  have hfirst : exec onesMeaning op zeroStore = zeroStore.putAll (resultPut op 1) := by
    rw [exec, effects_binary hop]
    rfl
  have hsecond : ∀ s : Store Int, exec onesMeaning next s =
      (s.put next.op1 (onesMeaning.read s next.op2)).putAll
        (resultPut next (onesMeaning.read s next.op2)) := by
    intro s
    rw [exec, effects_assign hnext]
    rfl
  have hmerged : exec onesMeaning { swapOperands op next with
      opcode := assigned, result := next.result } zeroStore =
      (zeroStore.put next.op1 1).putAll (resultPut next 1) := by
    rw [exec, effects_compound hop rfl]
    simp only [Store.putAll, foldl_cons]
    rw [Store.put_congr hvar.2 hvar.1]
    rfl
  rw [hfirst, hsecond, hmerged]
  intro hagree
  by_cases hresult : AssignsResult op next
  · obtain ⟨hlive, hnot⟩ : Live l op.result.num ∧
        ¬ Tmp (writtenOperands next) op.result.num := by tauto
    have hkeeps : ∀ (s : Store Int) (x : Int),
        ((s.put next.op1 x).putAll (resultPut next x)).tmp op.result.num = s.tmp op.result.num := by
      intro s x
      have hwritten : writtenOperands next = next.op1 :: writtenResult next := by
        rw [writtenOperands, hnext]
        rfl
      rw [hwritten, writtenResult] at hnot
      rw [resultPut]
      have hop1 : ¬ (next.op1.isTmp = true ∧ next.op1.num = op.result.num) := fun hw =>
        hnot ⟨_, mem_cons_self, hw⟩
      split
      · exact (Store.put_tmp _ _ _ _).trans (if_neg hop1)
      · rename_i hused
        rw [if_neg hused] at hnot
        have hres : ¬ (next.result.isTmp = true ∧ next.result.num = op.result.num) := fun hw =>
          hnot ⟨_, mem_cons_of_mem _ mem_cons_self, hw⟩
        change ((s.put next.op1 x).put next.result x).tmp _ = _
        rw [Store.put_tmp, if_neg hres, Store.put_tmp, if_neg hop1]
    have hsame := hagree.2 _ hlive
    rw [hkeeps, hkeeps, resultPut, hresult.2.1] at hsame
    change (zeroStore.put op.result 1).tmp _ = _ at hsame
    rw [Store.put_tmp, if_pos ⟨hresult.1, rfl⟩] at hsame
    cases hsame
  · have hsame := congrFun hagree.1 next.op1.num
    rw [read_of_not_assignsResult hcv hresult, putAll_result_cv hcv',
      putAll_result_cv hcv', Store.put_cv, Store.put_cv, if_pos htarget,
      if_pos htarget, update_self, update_self] at hsame
    cases hsame

end Apart

/-- Straight-line code in which the pass merges only pairs that may be merged
keeps its variables, at the end and at every point between, and the
temporaries that are read later.  Where it merges another pair with a
variable as target, the oplines do different things. -/
theorem pass3_assignments (a : OpArray) (fuel : Nat) (hO : StraightLine a.opcodes) :
    ((∀ i j, mergesWith a.opcodes i = some j → MayMerge a.opcodes i j) →
      ∃ c, pass3 fuel a = some c ∧ ∀ (V : Type) (M : Meaning V) (s : Store V),
        (runOps M c.opcodes s).cv = (runOps M a.opcodes s).cv ∧ ∀ k, Outside a.opcodes k →
          Agree (Live (a.opcodes.drop k)) (runOps M (a.opcodes.take k) s)
            (runOps M (c.opcodes.take k) s)) ∧
    ∀ i j assigned, assignOpcode (opAt a.opcodes i).opcode = some assigned →
      mergesWith a.opcodes i = some j →
      (opAt a.opcodes j).op1.type = .cv → ¬ MayMerge a.opcodes i j →
      ∃ (M : Meaning Int) (s : Store Int), ¬ Agree (Live (a.opcodes.drop (j + 1)))
          (exec M (opAt a.opcodes j) (exec M (opAt a.opcodes i) s))
          (exec M (rewriteAssign a.opcodes i assigned).op s) := by
  constructor
  · intro hmay
    obtain ⟨A, -, -, hA, -⟩ := pass3Loop_simulates fuel a.hasFinallyBlock
      (Simulated.start onesMeaning a.opcodes) (Nat.le_add_left _ _) hO hmay
    refine ⟨{ a with opcodes := A }, by rw [pass3, hA]; rfl, ?_⟩
    intro V M s
    obtain ⟨A', n, m, hA', hsim, hlength⟩ := pass3Loop_simulates fuel
      a.hasFinallyBlock (Simulated.start M a.opcodes) (Nat.le_add_left _ _) hO
      hmay
    obtain rfl : A = A' := Option.some.inj (hA.symm.trans hA')
    have hm : a.opcodes.length ≤ m := le_trans hlength hsim.le
    have hend : ∀ k, m ≤ k → a.opcodes.take k = a.opcodes ∧ A.take k = A := by
      intro k hk
      exact ⟨take_of_length_le (le_trans hm hk), take_of_length_le (by
          rw [hsim.length]
          exact le_trans hm hk)⟩
    have hreached := hsim.reached s
    rw [(hend m (le_refl m)).1, (hend m (le_refl m)).2] at hreached
    refine ⟨hreached.1.symm, ?_⟩
    intro k hout
    rcases Nat.lt_or_ge k m with hk | hk
    · exact hsim.points k hk hout s
    · rw [(hend k hk).1, (hend k hk).2, drop_of_length_le (le_trans hm hk)]
      exact ⟨hreached.1, fun t ht => ht.elim⟩
  · intro i j assigned hop hmerges htarget hnot
    have hresult : ∀ p, (opAt a.opcodes p).opcode ≠ .nop →
        (opAt a.opcodes p).result.type ≠ .cv := by
      intro p hp
      rcases Nat.lt_or_ge p a.opcodes.length with hlt | hge
      · exact hO.result _ (by simp [opAt, hlt])
      · rw [opAt_outside hge] at hp
        exact absurd rfl hp
    have hgone : (rewriteAssign a.opcodes i assigned).gone = some j := by
      rw [mergesWith, hop] at hmerges
      exact hmerges
    rcases rewriteAssign_cases a.opcodes i assigned with ⟨next, hr⟩ | hr | ⟨hlt, hassign, hvar, hr⟩
    · rw [hr] at hgone
      cases hgone
    · rw [hr] at hgone
      cases hgone
    · rw [hr] at hgone ⊢
      obtain rfl : nextOpline a.opcodes i = j := Option.some.inj hgone
      refine ⟨onesMeaning, zeroStore, assignPair_apart hop hassign htarget hvar
        (hresult i ?_) (hresult _ ?_) ?_⟩
      · intro hnop
        rw [hnop] at hop
        cases hop
      · rw [hassign]
        simp
      · rintro ⟨hassigns, hdead⟩
        exact hnot ⟨fun _ => hassigns, hdead⟩

/-- Arithmetic on longs, as far as it does not overflow; `rest` stands for
the other operators. -/
def longMeaning (literals : List Literal) (rest : Opcode → Int → Int → Int) : Meaning Int where
  literal n :=
    match literals.getD n .null with
    | .long x => x
    | _ => 0
  nothing := 0
  binary o x y :=
    match o with
    | .add => x + y
    | .sub => x - y
    | .mul => x * y
    | .bwOr => (BitVec.ofInt 64 x ||| BitVec.ofInt 64 y).toInt
    | .bwAnd => (BitVec.ofInt 64 x &&& BitVec.ofInt 64 y).toInt
    | .bwXor => (BitVec.ofInt 64 x ^^^ BitVec.ofInt 64 y).toInt
    | o => rest o x y
  step o x := if o = .preInc then x + 1 else x - 1
  other _ _ _ cv := (cv, 0)
  comm o x y h := by
    simp only [swappable, Bool.or_eq_true, decide_eq_true_eq] at h
    rcases h with (((rfl | rfl) | rfl) | rfl) | rfl
    · exact Int.add_comm x y
    · exact Int.mul_comm x y
    · simp only [BitVec.or_comm]
    · simp only [BitVec.and_comm]
    · simp only [BitVec.xor_comm]

theorem addAssign_mayMerge (i j : Nat) (h : mergesWith addAssign.opcodes i = some j) :
    MayMerge addAssign.opcodes i j := by
  match i with
  | 0 =>
    obtain rfl : 1 = j := Option.some.inj h
    refine ⟨fun _ => by unfold AssignsResult; decide, ?_⟩
    intro hlive
    simp [addAssign, Live, Tmp, readOperands, Operand.isTmp, Operand.none] at hlive
  | 1 => cases h
  | 2 => cases h
  | i + 3 =>
    cases h

theorem addAssign_straightLine : StraightLine addAssign.opcodes :=
  ⟨by unfold PlainJump; decide, by decide⟩

theorem pass3_assignments_add : StraightLine addAssign.opcodes ∧ ∃ c, pass3 0 addAssign = some c ∧
        ∀ s, (runOps (longMeaning addAssign.literals fun _ _ _ => 0) c.opcodes s).cv =
          (runOps (longMeaning addAssign.literals fun _ _ _ => 0) addAssign.opcodes s).cv := by
  refine ⟨addAssign_straightLine, ?_⟩
  obtain ⟨c, hc, hsame⟩ := (pass3_assignments addAssign 0
    addAssign_straightLine).1 addAssign_mayMerge
  exact ⟨c, hc, fun s => (hsame Int _ s).1⟩

/-- `($i + 1) - ($i = 5);`. -/
def addThenAssign : OpArray where
  opcodes :=
    [⟨.add, ⟨.cv, 0, false⟩, ⟨.const, 0, false⟩, ⟨.tmpVar, 0, false⟩, 0⟩,
      ⟨.assign, ⟨.cv, 0, false⟩, ⟨.const, 1, false⟩, ⟨.var, 1, false⟩, 0⟩,
      ⟨.sub, ⟨.tmpVar, 0, false⟩, ⟨.var, 1, false⟩, ⟨.tmpVar, 2, false⟩, 0⟩,
      ⟨.freeOp, ⟨.tmpVar, 2, false⟩, .none, .none, 0⟩,
      ⟨.returnOp, ⟨.const, 2, false⟩, .none, .none, 0⟩]
  literals := [.long 1, .long 5, .null]

/-- `$i` ends as 5 before the pass, and as 1 after it. -/
theorem addThenAssign_changes_variable : StraightLine addThenAssign.opcodes ∧
      ∃ c, pass3 0 addThenAssign = some c ∧
        (runOps (longMeaning addThenAssign.literals fun _ _ _ => 0)
          addThenAssign.opcodes zeroStore).cv 0 = 5 ∧
        (runOps (longMeaning addThenAssign.literals fun _ _ _ => 0)
          c.opcodes zeroStore).cv 0 = 1 := by
  exact ⟨⟨by unfold PlainJump; decide, by decide⟩, _, rfl, by decide, by decide⟩

end PhpEngine

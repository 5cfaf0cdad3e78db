/-
`zend_jmp_optimization` (ext/opcache/Optimizer/block_pass.c), which shortens the jumps between
blocks, deletes the sources that are gone and so joins blocks.
-/
import PhpEngine.BlockSources
import PhpEngine.Pass3

namespace PhpEngine

open Option

namespace BlockPass

/-! The rules. -/

/-- Where a call stands: at its begin, in the loop over the blocks that follow a conditional jump,
or at its end. -/
inductive Phase where
  | start
  | follow
  | done
deriving DecidableEq, Repr

/-- What a turn does to its block.  The new edge `e` of `become` is the old one `moves e`; the
opline that is given is the last one from then on. -/
inductive Action where
  | stay
  | toNext
  | copyTarget (op : ZendOp)
  | become (op : ZendOp) (drop : Option Edge) (moves : Edge → Option Edge)
  | retarget (op : ZendOp) (target : Nat) (e : Edge)
  | passBlock
  | joinJmp (op : ZendOp)

variable {op : ZendOp} {action : Action} {isTrue : Nat → Bool} {phase : Phase}

/-- The edge whose source is deleted. -/
def Action.drops : Action → Option Edge
  | .copyTarget _ => some .op1
  | .become _ drop _ => drop
  | .retarget .. => some .op2
  | .passBlock | .joinJmp _ => some .follow
  | _ => none

/-- The first accessed block behind `b`. -/
def nextAccess (cfg : Cfg) (b : Nat) : Option Nat :=
  (List.range cfg.length).find? fun c => b < c && (blockAt cfg c).access

/-- The first opline that is not a NOP. -/
def firstOp (block : CodeBlock) : Option ZendOp :=
  block.opcodes.find? fun op => op.opcode ≠ .nop

/-- The search `next_target`: the block with the first opline that is no NOP, from `t` on. -/
def nextTarget (cfg : Cfg) : Nat → Nat → Option (Nat × ZendOp)
  | 0, _ => none
  | n + 1, t =>
    if (blockAt cfg t).moved then none
    else match firstOp (blockAt cfg t) with
      | some op => some (t, op)
      | none => (blockAt cfg t).followTo.bind (nextTarget cfg n)

/-- `IS_TMP_VAR|IS_CV` -/
def isTmpOrCv (o : Operand) : Bool :=
  o.type = .tmpVar || o.type = .cv

/-- Both jumps depend on one variable; `bits` is the width of `same_var`. -/
def sameCond (bits : Nat) (op target : ZendOp) : Bool :=
  isTmpOrCv target.op1 && op.op1.type = target.op1.type && op.op1.num % 2 ^ bits = target.op1.num

/-- A bit of `same_t` for `o` and of the type of `o'`. -/
def sharesType (o o' : Operand) : Bool :=
  o.num = o'.num && (o.type = o'.type || (o.extUnused && o'.extUnused))

/-- The operand is the condition or the result of the jump. -/
def inSameT (op : ZendOp) (o : Operand) : Bool :=
  sharesType op.op1 o || sharesType op.result o

def jmpzRule (op target : ZendOp) (block : CodeBlock) : Option (ZendOp × Edge) :=
  if target.opcode = invCond op.opcode && sameCond 32 op target && block.followTo.isSome &&
      !block.isProtected then
    -- JMPZ(X, L), L: JMPNZ(X, L2) -> JMPZ(X, L+1)
    some (op, .follow)
  else if target.opcode = invCondEx op.opcode && sameCond 32 op target && block.followTo.isSome &&
      !block.isProtected then
    -- JMPZ(X, L), L: X = JMPNZ_EX(X, L2) -> JMPZ(X, L+1)
    some ({ op with opcode := jmpEx op.opcode, result := target.result }, .follow)
  else if block.op2To.isSome && target.opcode = op.opcode && sameCond 32 op target &&
      !block.isProtected then
    -- JMPZ(X, L), L: JMPZ(X, L2) -> JMPZ(X, L2)
    some (op, .op2)
  else if block.op1To.isSome && target.opcode = .jmp && !block.isProtected then
    -- JMPZ(X, L), L: JMP(L2) -> JMPZ(X, L2)
    some (op, .op1)
  else if block.op2To.isSome && block.extTo.isSome && target.opcode = .jmpznz &&
      sameCond 32 op target && !block.isProtected then
    -- JMPZ(X, L), L: JMPZNZ(X, L2, L3) -> JMPZ(X, L2)
    some (op, if op.opcode = .jmpz then .op2 else .ext)
  else none

def jmpzExRule (op target : ZendOp) (block : CodeBlock) : Option (ZendOp × Edge) :=
  let sameT := isTmpOrCv target.op1 && inSameT op target.op1
  let sameResult := inSameT op target.result
  if block.op2To.isSome && target.opcode = (if op.opcode = .jmpzEx then .jmpz else .jmpnz) &&
      sameT && !block.isProtected then
    -- T = JMPZ_EX(X, L1), L1: JMPZ({X|T}, L2) -> T = JMPZ_EX(X, L2)
    some (op, .op2)
  else if block.op2To.isSome && target.opcode = invExCond op.opcode && sameT &&
      !block.isProtected then
    -- T = JMPZ_EX(X, L1), L1: JMPNZ({X|T1}, L2) -> T = JMPZ_EX(X, L1+1)
    some (op, .follow)
  else if block.op2To.isSome && target.opcode = invExCondEx op.opcode && sameT && sameResult &&
      !block.isProtected then
    -- T = JMPZ_EX(X, L1), L1: T = JMPNZ_EX(T, L2) -> T = JMPZ_EX(X, L1+1)
    some (op, .follow)
  else if block.op2To.isSome && target.opcode = op.opcode && sameT && sameResult &&
      !block.isProtected then
    -- T = JMPZ_EX(X, L1), L1: T = JMPZ({X|T}, L2) -> T = JMPZ_EX(X, L2)
    some (op, .op2)
  else if block.op1To.isSome && target.opcode = .jmp && !block.isProtected then
    -- T = JMPZ_EX(X, L), L: JMP(L2) -> T = JMPZ(X, L2)
    some (op, .op1)
  else if block.op2To.isSome && block.extTo.isSome && target.opcode = .jmpznz && sameT &&
      !block.isProtected then
    -- T = JMPZ_EX(X, L), L: JMPZNZ({X|T}, L2, L3) -> T = JMPZ_EX(X, L2)
    some (op, if op.opcode = .jmpzEx then .op2 else .ext)
  else none

/-- Here `same_var` is a `zend_uchar`. -/
def jmpznzRule (op target : ZendOp) (block : CodeBlock) : Option (ZendOp × Edge) :=
  if block.op2To.isSome && (target.opcode = .jmpz || target.opcode = .jmpznz) &&
      sameCond 8 op target && !block.isProtected then
    -- JMPZNZ(X, L1, L2), L1: JMPZ(X, L3) -> JMPZNZ(X, L3, L2)
    some (op, .op2)
  else if target.opcode = .jmpnz && sameCond 8 op target && block.followTo.isSome &&
      !block.isProtected then
    -- JMPZNZ(X, L1, L2), L1: X = JMPNZ(X, L3) -> JMPZNZ(X, L1+1, L2)
    some (op, .follow)
  else if block.op1To.isSome && target.opcode = .jmp && !block.isProtected then
    -- JMPZNZ(X, L1, L2), L1: JMP(L3) -> JMPZNZ(X, L3, L2)
    some (op, .op1)
  else none

/-- The edge `op2_to` is moved by a rule. -/
def planTarget (rule : ZendOp → ZendOp → CodeBlock → Option (ZendOp × Edge)) (cfg : Cfg) (b : Nat)
    (op : ZendOp) : Option (Action × ZendOp) :=
  match (blockAt cfg b).op2To with
  | none => some (.stay, op)
  | some t => do
      let (t, target) ← nextTarget cfg (cfg.length + 1) t
      match rule op target (blockAt cfg t) with
      | some (op, e) => return (.retarget op t e, op)
      | none => return (.stay, op)

def planJmp (cfg : Cfg) (b : Nat) : Option Action := do
  let l ← (blockAt cfg b).op1To
  if nextAccess cfg b = some l then
    -- JMP(next) -> NOP
    return .toNext
  else if (blockAt cfg l).moved then none
  else
    let target := opAt (blockAt cfg l).opcodes 0
    if ((target.opcode = .jmp && (blockAt cfg l).op1To ≠ some l) || target.opcode = .jmpznz) &&
        !(blockAt cfg l).isProtected then
      return .copyTarget target
    else if target.opcode = .returnOp || target.opcode = .returnByRef ||
        target.opcode = .fastRet || target.opcode = .exitOp then
      -- JMP L, L: RETURN to immediate RETURN
      return .become target (some .op1) fun e => if e = .op1 then none else some e
    else return .stay

/-- `isTrue` is `zend_is_true` of a literal. -/
def planJmpz (isTrue : Nat → Bool) (cfg : Cfg) (b : Nat) (op : ZendOp) : Option (Action × Phase) :=
  if op.op1.type = .const then
    if isTrue op.op1.num != (op.opcode = .jmpz : Bool) then
      -- JMPNZ(true) -> JMP
      some (.become { op with opcode := .jmp, op1 := op.op2 } (some .follow) fun
        | .op1 => some .op2
        | .ext => some .ext
        | _ => none, .done)
    else
      -- JMPNZ(false) -> NOP
      some (.become op.makeNop (some .op2) fun e => if e = .op2 then none else some e, .done)
  else do
    let (action, op) ← planTarget jmpzRule cfg b op
    return (action,
      if (blockAt cfg b).followTo.isSome && (op.opcode = .jmpz || op.opcode = .jmpnz) then .follow
      else .done)

/-- A turn of the loop over the blocks that follow JMPZ or JMPNZ. -/
def planFollow (cfg : Cfg) (b : Nat) (op : ZendOp) : Option (Action × Phase) := do
  let f ← (blockAt cfg b).followTo
  if (blockAt cfg f).moved then none
  else match firstOp (blockAt cfg f) with
    | none => return if (blockAt cfg f).isProtected then (.stay, .done) else (.passBlock, .follow)
    | some target =>
      return if target.opcode = .jmp && (blockAt cfg f).op1To.isSome &&
          !(blockAt cfg f).isProtected then
        -- JMPZ(X,L1), JMP(L2) -> JMPZNZ(X,L1,L2)
        (.joinJmp op, .done)
      else (.stay, .done)

def planJmpzEx (isTrue : Nat → Bool) (cfg : Cfg) (b : Nat) (op : ZendOp) : Option Action :=
  if op.op1.type = .const then
    if isTrue op.op1.num != (op.opcode = .jmpzEx : Bool) then some .stay
    else
      -- T = JMPZ_EX(true,L) -> T = QM_ASSIGN(true)
      some (.become { op with opcode := .qmAssign, op2 := .none } (some .op2) fun e =>
        if e = .op2 then none else some e)
  else (planTarget jmpzExRule cfg b op).map (·.1)

def planJmpznz (isTrue : Nat → Bool) (cfg : Cfg) (b : Nat) (op : ZendOp) : Option Action :=
  let block := blockAt cfg b
  let jmp : ZendOp := { op with opcode := .jmp, op1 := .none, op2 := .none }
  if op.op1.type = .const then
    if isTrue op.op1.num then
      -- JMPZNZ(true,L1,L2) -> JMP(L2)
      some (.become jmp (some .op2) fun
        | .op1 => some .ext
        | .follow => some .follow
        | _ => none)
    else
      -- JMPZNZ(false,L1,L2) -> JMP(L1)
      some (.become jmp (some .ext) fun
        | .op1 => some .op2
        | .follow => some .follow
        | _ => none)
  else if block.op2To = block.extTo then
    if op.op1.type = .var || op.op1.type = .tmpVar then
      (planTarget jmpznzRule cfg b op).map (·.1)
    else
      -- JMPZNZ(?,L,L) -> JMP(L)
      some (.become jmp none fun
        | .op1 => some .op2
        | .follow => some .follow
        | _ => none)
  else if block.op2To = nextAccess cfg b then
    -- JMPZNZ(X,L1,L2) L1: -> JMPNZ(X,L2)
    some (.become { op with opcode := .jmpnz } none fun
      | .op1 => some .op1
      | .op2 => some .ext
      | .ext => none
      | .follow => some .op2)
  else if block.extTo = nextAccess cfg b then
    -- JMPZNZ(X,L1,L2) L2: -> JMPZ(X,L1)
    some (.become { op with opcode := .jmpz } none fun
      | .op1 => some .op1
      | .op2 => some .op2
      | .ext => none
      | .follow => some .ext)
  else (planTarget jmpznzRule cfg b op).map (·.1)

/-- The decision of a turn, and where the call stands behind it. -/
def plan (isTrue : Nat → Bool) (cfg : Cfg) (b : Nat) : Phase → Option (Action × Phase)
  | .start =>
    match (blockAt cfg b).opcodes.getLast? with
    | none => some (.stay, .done)
    | some op =>
      match op.opcode with
      | .jmp => (planJmp cfg b).map (·, .done)
      | .jmpz | .jmpnz => planJmpz isTrue cfg b op
      | .jmpzEx | .jmpnzEx => (planJmpzEx isTrue cfg b op).map (·, .done)
      | .jmpznz => (planJmpznz isTrue cfg b op).map (·, .done)
      | _ => some (.stay, .done)
  | .follow => (blockAt cfg b).opcodes.getLast?.bind (planFollow cfg b)
  | .done => none

/-! What the rules do. -/

def setLast (op : ZendOp) (block : CodeBlock) : CodeBlock :=
  { block with opcodes := block.opcodes.dropLast ++ [op] }

def rearrange (moves : Edge → Option Edge) (block : CodeBlock) : CodeBlock :=
  { block with
    op1To := (moves .op1).bind (edgeTo block), op2To := (moves .op2).bind (edgeTo block),
    extTo := (moves .ext).bind (edgeTo block), followTo := (moves .follow).bind (edgeTo block) }

def addSources (cfg : Cfg) (b : Nat) (targets : List Nat) : Cfg :=
  targets.foldl (addSource · b) cfg

/-- The source of an edge of `b` is deleted, if one is. -/
def dropSource (cfg : Cfg) (b : Nat) : Option Edge → Option Cfg
  | none => some cfg
  | some e => (edgeTo (blockAt cfg b) e).bind (delSource cfg b)

/-- The effect of a turn.  `del_source` does not look at the block itself, which changes behind
it here. -/
def perform (cfg : Cfg) (b : Nat) (action : Action) : Option Cfg := do
  let old := blockAt cfg b
  let cfg ← dropSource cfg b action.drops
  match action with
  | .stay => return cfg
  | .toNext =>
    let cfg := modifyBlock cfg b fun block =>
      { block with
        opcodes := block.opcodes.dropLast, followTo := block.op1To, op1To := none }
    return if (blockAt cfg b).opcodes = [] then deleteCodeBlock cfg b else cfg
  | .copyTarget op =>
    let target := blockAt cfg (← old.op1To)
    let cfg := modifyBlock cfg b fun block =>
      { setLast op block with
        op1To := target.op1To, op2To := target.op2To.or block.op2To,
        extTo := target.extTo.or block.extTo }
    return addSources cfg b (target.op2To.toList ++ target.extTo.toList ++ target.op1To.toList)
  | .become op _ moves =>
    return modifyBlock cfg b fun block => rearrange moves (setLast op block)
  | .retarget op t e =>
    let z ← edgeTo (blockAt cfg t) e
    return addSources (modifyBlock cfg b fun block => { setLast op block with op2To := some z })
      b [z]
  | .passBlock =>
    let z ← (blockAt cfg (← old.followTo)).followTo
    return addSources (modifyBlock cfg b fun block => { block with followTo := some z }) b [z]
  | .joinJmp op =>
    let z ← (blockAt cfg (← old.followTo)).op1To
    let block := { op with opcode := .jmpznz }
    return addSources (modifyBlock cfg b fun old =>
      if op.opcode = .jmpz then { setLast block old with extTo := some z, followTo := none }
      else { setLast block old with extTo := old.op2To, op2To := some z, followTo := none })
      b [z]

def turn (isTrue : Nat → Bool) (cfg : Cfg) (b : Nat) (phase : Phase) : Option (Cfg × Phase) := do
  let (action, phase) ← plan isTrue cfg b phase
  let cfg ← perform cfg b action
  return (cfg, phase)

/-- `zend_jmp_optimization`, in at most `n` turns -/
def zendJmpOptimization (isTrue : Nat → Bool) (b : Nat) : Nat → Phase → Cfg → Option Cfg
  | _, .done, cfg => some cfg
  | 0, _, _ => none
  | n + 1, phase, cfg => do
      let (cfg, phase) ← turn isTrue cfg b phase
      zendJmpOptimization isTrue b n phase cfg

/-! What a turn keeps. -/

section Turns

variable {cfg cfg' : Cfg} {b : Nat}

theorem Inv.weaken (h : Inv (fun _ => False) cfg) (b : Nat) : Inv (· = b) cfg :=
  ⟨⟨fun x hx _ => h.links.linked x hx not_false, h.links.nodup⟩, h.forward, h.inPlace⟩

theorem addSources_sourcesOnly (cfg : Cfg) (b : Nat) (targets : List Nat) :
    SourcesOnly cfg (addSources cfg b targets) := by
  induction targets generalizing cfg with
  | nil => exact .refl cfg
  | cons z rest ih => exact (addSource_sourcesOnly cfg b z).trans (ih (addSource cfg b z))

theorem Linked.addSources {x y : Nat} (h : Linked cfg x y) (b : Nat) (targets : List Nat) :
    Linked (addSources cfg b targets) x y := by
  induction targets generalizing cfg with
  | nil => exact h
  | cons z rest ih => exact ih h.addSource

theorem linked_addSources {targets : List Nat} {z : Nat} (hz : z ∈ targets)
    (haccess : (blockAt cfg z).access = true) : Linked (addSources cfg b targets) b z := by
  induction targets generalizing cfg with
  | nil => exact absurd hz List.not_mem_nil
  | cons y rest ih =>
    rcases List.mem_cons.mp hz with rfl | hz
    · exact (linked_addSource haccess).addSources b rest
    · exact ih hz (((addSource_sourcesOnly cfg b y).access z).trans haccess)

theorem nodup_addSources (targets : List Nat) (h : ∀ c, (blockAt cfg c).sources.Nodup) (c : Nat) :
    (blockAt (addSources cfg b targets) c).sources.Nodup := by
  induction targets generalizing cfg with
  | nil => exact h c
  | cons y rest ih => exact ih (nodup_addSource h)

/-- A block is changed, and it is added to the sources of what its new edges lead to. -/
theorem Inv.finish (h : Inv (· = b) cfg) (hb : (blockAt cfg b).access = true)
    {f : CodeBlock → CodeBlock} (haccess : (f (blockAt cfg b)).access = (blockAt cfg b).access)
    (hsources : (f (blockAt cfg b)).sources = (blockAt cfg b).sources)
    (hmoved : (f (blockAt cfg b)).moved = (blockAt cfg b).moved)
    (hforward : ∀ z, (f (blockAt cfg b)).followTo = some z → b < z) (targets : List Nat)
    (hlinked : ∀ z ∈ (f (blockAt cfg b)).targets,
      Linked cfg b z ∨ z ∈ targets ∧ (blockAt cfg z).access = true) :
    Inv (fun _ => False) (addSources (modifyBlock cfg b f) b targets) ∧
      (blockAt (addSources (modifyBlock cfg b f) b targets) b).access = true := by
  have hat := blockAt_modifyBlock (lt_of_access hb) f
  have hacc : ∀ c, (blockAt (modifyBlock cfg b f) c).access = (blockAt cfg c).access := by
    intro c
    rw [hat]
    split
    case isTrue hc => rw [haccess, hc]
    case isFalse => rfl
  have hsrc : ∀ c, (blockAt (modifyBlock cfg b f) c).sources = (blockAt cfg c).sources := by
    intro c
    rw [hat]
    split
    case isTrue hc => rw [hsources, hc]
    case isFalse => rfl
  have hlink : ∀ x y, Linked cfg x y → Linked (modifyBlock cfg b f) x y := by
    intro x y hxy
    rw [Linked, hacc, hsrc]
    exact hxy
  have hsame := addSources_sourcesOnly (modifyBlock cfg b f) b targets
  refine ⟨⟨⟨fun x hx _ y hy => ?_, fun c => ?_⟩, fun x y hxy => ?_, fun x hx => ?_⟩, ?_⟩
  · rw [hsame.access, hacc] at hx
    rw [hsame.targets, hat] at hy
    split at hy
    case isTrue hxb =>
      rw [hxb]
      rcases hlinked y hy with hby | ⟨hmem, hy⟩
      · exact (hlink b y hby).addSources b targets
      · exact linked_addSources hmem ((hacc y).trans hy)
    case isFalse hxb =>
      exact (hlink x y (h.links.linked x hx hxb y hy)).addSources b targets
  · refine nodup_addSources targets (fun c => ?_) c
    rw [hsrc]
    exact h.links.nodup c
  · have hxy := (congrFun (hsame.edgeTo x) .follow).symm.trans hxy
    rw [hat] at hxy
    split at hxy
    case isTrue hxb =>
      rw [hxb]
      exact hforward y hxy
    case isFalse => exact h.forward x y hxy
  · rw [hsame.access, hacc] at hx
    rw [hsame.moved, hat]
    split
    case isTrue hxb =>
      rw [hmoved]
      exact h.inPlace b hb
    case isFalse => exact h.inPlace x hx
  · rw [hsame.access, hacc, hb]

/-- What a turn may decide. -/
inductive Planned (cfg : Cfg) (b : Nat) : Action → Phase → Prop
  | stay (phase : Phase) : Planned cfg b .stay phase
  | toNext {l : Nat} (hop1 : (blockAt cfg b).op1To = some l) (hnext : nextAccess cfg b = some l) :
      Planned cfg b .toNext .done
  | copyTarget (op : ZendOp) : Planned cfg b (.copyTarget op) .done
  | become {op : ZendOp} {drop : Option Edge} {moves : Edge → Option Edge}
      (hmoves : ∀ e e', moves e = some e' → drop ≠ some e')
      (hfollow : ∀ e, moves .follow = some e →
        e = .follow ∨ edgeTo (blockAt cfg b) e = nextAccess cfg b) :
      Planned cfg b (.become op drop moves) .done
  | retarget {op target : ZendOp} {t₀ t n : Nat} {e : Edge} (phase : Phase)
      (hop2 : (blockAt cfg b).op2To = some t₀)
      (htarget : nextTarget cfg n t₀ = some (t, target)) :
      Planned cfg b (.retarget op t e) phase
  | passBlock : Planned cfg b .passBlock .follow
  | joinJmp (op : ZendOp) : Planned cfg b (.joinJmp op) .done

theorem planTarget_planned {rule : ZendOp → ZendOp → CodeBlock → Option (ZendOp × Edge)}
    {op' : ZendOp} (h : planTarget rule cfg b op = some (action, op'))
    (phase : Phase) : Planned cfg b action phase := by
  rw [planTarget] at h
  split at h
  case _ =>
    obtain ⟨rfl, -⟩ := Prod.mk.inj (Option.some.inj h)
    exact .stay phase
  case _ t hop2 =>
    obtain ⟨⟨t', target⟩, htarget, h⟩ := bind_eq_some_iff.mp h
    dsimp only at h
    split at h
    case _ =>
      obtain ⟨rfl, -⟩ := Prod.mk.inj (Option.some.inj h)
      exact .retarget phase hop2 htarget
    case _ =>
      obtain ⟨rfl, -⟩ := Prod.mk.inj (Option.some.inj h)
      exact .stay phase

theorem planJmp_planned (h : planJmp cfg b = some action) : Planned cfg b action .done := by
  obtain ⟨l, hl, h⟩ := bind_eq_some_iff.mp h
  split at h
  case isTrue hnext =>
    cases h
    exact .toNext hl hnext
  case isFalse =>
    split at h
    case isTrue => cases h
    case isFalse =>
      dsimp only at h
      split at h
      case isTrue =>
        cases h
        exact .copyTarget _
      case isFalse =>
        split at h
        case isTrue =>
          cases h
          refine .become (fun e e' he heq => ?_) fun e he => ?_
          · split at he
            case isTrue => cases he
            case isFalse hne =>
              rw [Option.some.inj he] at hne
              exact hne (Option.some.inj heq).symm
          · exact .inl (Option.some.inj he).symm
        case isFalse =>
          cases h
          exact .stay _

theorem planned_without {e : Edge} (he : e ≠ .follow) :
    Planned cfg b (.become op (some e) fun e' => if e' = e then none else some e') .done := by
  refine .become (fun e₁ e₂ h heq => ?_) fun e₁ h => ?_
  · split at h
    case isTrue => cases h
    case isFalse hne =>
      rw [Option.some.inj h] at hne
      exact hne (Option.some.inj heq).symm
  · rw [if_neg (Ne.symm he)] at h
    exact .inl (Option.some.inj h).symm

theorem planJmpz_planned
    (h : planJmpz isTrue cfg b op = some (action, phase)) : Planned cfg b action phase := by
  rw [planJmpz] at h
  split at h
  case isTrue =>
    split at h
    case isTrue =>
      cases h
      refine .become (fun e e' he heq => ?_) fun e he => absurd he (by simp)
      cases heq
      cases e <;> simp at he
    case isFalse =>
      cases h
      exact planned_without (by decide)
  case isFalse =>
    obtain ⟨⟨action', op'⟩, htarget, h⟩ := bind_eq_some_iff.mp h
    cases h
    exact planTarget_planned htarget _

theorem planFollow_planned
    (h : planFollow cfg b op = some (action, phase)) : Planned cfg b action phase := by
  obtain ⟨f, hf, h⟩ := bind_eq_some_iff.mp h
  split at h
  case isTrue => cases h
  case isFalse =>
    split at h
    case _ =>
      split at h
      case isTrue =>
        cases h
        exact .stay _
      case isFalse =>
        cases h
        exact .passBlock
    case _ =>
      split at h
      case isTrue =>
        cases h
        exact .joinJmp op
      case isFalse =>
        cases h
        exact .stay _

theorem planJmpzEx_planned
    (h : planJmpzEx isTrue cfg b op = some action) : Planned cfg b action .done := by
  rw [planJmpzEx] at h
  split at h
  case isTrue =>
    split at h
    case isTrue =>
      cases h
      exact .stay _
    case isFalse =>
      cases h
      exact planned_without (by decide)
  case isFalse =>
    obtain ⟨⟨action', op'⟩, htarget, rfl⟩ := map_eq_some_iff.mp h
    exact planTarget_planned htarget _

theorem planJmpznz_planned
    (h : planJmpznz isTrue cfg b op = some action) : Planned cfg b action .done := by
  rw [planJmpznz] at h
  split at h
  case isTrue =>
    split at h
    case isTrue =>
      cases h
      refine .become (fun e e' he heq => ?_) fun e he => .inl (Option.some.inj he).symm
      cases heq
      cases e <;> simp at he
    case isFalse =>
      cases h
      refine .become (fun e e' he heq => ?_) fun e he => .inl (Option.some.inj he).symm
      cases heq
      cases e <;> simp at he
  case isFalse =>
    split at h
    case isTrue =>
      split at h
      case isTrue =>
        obtain ⟨⟨action', op'⟩, htarget, rfl⟩ := map_eq_some_iff.mp h
        exact planTarget_planned htarget _
      case isFalse =>
        cases h
        exact .become (fun _ _ _ heq => absurd heq (by simp))
          fun e he => .inl (Option.some.inj he).symm
    case isFalse =>
      split at h
      case isTrue hnext =>
        cases h
        refine .become (fun _ _ _ heq => absurd heq (by simp)) fun e he => .inr ?_
        cases he
        exact hnext
      case isFalse =>
        split at h
        case isTrue hnext =>
          cases h
          refine .become (fun _ _ _ heq => absurd heq (by simp)) fun e he => .inr ?_
          cases he
          exact hnext
        case isFalse =>
          obtain ⟨⟨action', op'⟩, htarget, rfl⟩ := map_eq_some_iff.mp h
          exact planTarget_planned htarget _

theorem plan_planned {phase' : Phase}
    (h : plan isTrue cfg b phase = some (action, phase')) : Planned cfg b action phase' := by
  cases phase with
  | start =>
    rw [plan] at h
    split at h
    case _ =>
      cases h
      exact .stay _
    case _ op hop =>
      split at h
      case _ =>
        obtain ⟨action', hplan, heq⟩ := map_eq_some_iff.mp h
        obtain ⟨rfl, rfl⟩ := Prod.mk.inj heq
        exact planJmp_planned hplan
      case _ | _ => exact planJmpz_planned h
      case _ | _ =>
        obtain ⟨action', hplan, heq⟩ := map_eq_some_iff.mp h
        obtain ⟨rfl, rfl⟩ := Prod.mk.inj heq
        exact planJmpzEx_planned hplan
      case _ =>
        obtain ⟨action', hplan, heq⟩ := map_eq_some_iff.mp h
        obtain ⟨rfl, rfl⟩ := Prod.mk.inj heq
        exact planJmpznz_planned hplan
      case _ =>
        cases h
        exact .stay _
  | follow =>
    obtain ⟨op, hop, h⟩ := bind_eq_some_iff.mp h
    exact planFollow_planned h
  | done => exact absurd h (by simp [plan])

end Turns

end BlockPass

end PhpEngine

/-
The back references of the control flow graph (ext/opcache/Optimizer/block_pass.c): ADD_SOURCE,
`replace_source`, `del_source`, which joins blocks, `delete_code_block` and
`zend_rebuild_access_path`.  A NULL pointer that is followed has no result.
-/
import PhpEngine.CodeBlocks
import Mathlib.Data.List.Nodup
import Mathlib.Data.Finset.Card
import Mathlib.Data.Finset.Range

namespace PhpEngine

open List Option

namespace BlockPass

/-- The edges of a block. -/
inductive Edge where
  | op1
  | op2
  | ext
  | follow
deriving DecidableEq, Repr

/-- Where an edge leads, if it is there. -/
def edgeTo (block : CodeBlock) : Edge → Option Nat
  | .op1 => block.op1To
  | .op2 => block.op2To
  | .ext => block.extTo
  | .follow => block.followTo

def modifyBlock (cfg : Cfg) (b : Nat) (f : CodeBlock → CodeBlock) : Cfg :=
  cfg.set b (f (blockAt cfg b))

/-- `ADD_SOURCE` -/
def addSource (cfg : Cfg) (fromb tob : Nat) : Cfg :=
  if fromb ∈ (blockAt cfg tob).sources then cfg
  else modifyBlock cfg tob fun block => { block with sources := fromb :: block.sources }

/-- `replace_source`; `found` is whether `new` stands in front.  Behind a source that is deleted
the next one is not compared with both, and there has to be one. -/
def replaceSource (old new : Nat) : Bool → List Nat → Option (List Nat)
  | _, [] => some []
  | found, source :: rest =>
    if source = new && found then
      match rest with
      | [] => none
      | source :: rest =>
        if source = old then
          match rest with
          | [] => none
          | source :: rest => (source :: ·) <$> replaceSource old new true rest
        else (source :: ·) <$> replaceSource old new true rest
    else if source = old then
      if found || source = new then
        match rest with
        | [] => none
        | source :: rest => (source :: ·) <$> replaceSource old new true rest
      else (new :: ·) <$> replaceSource old new true rest
    else (source :: ·) <$> replaceSource old new (found || source = new) rest

/-- The edge `to->op1_to`, `op2_to`, `ext_to` or `follow_to` goes over to `fromb`. -/
def inheritEdge (tob fromb : Nat) (cfg : Cfg) : Option Nat → Option Cfg
  | none => some cfg
  | some b => do
      let sources ← replaceSource tob fromb false (blockAt cfg b).sources
      return modifyBlock cfg b fun block => { block with sources := sources }

/-- Whether `to` can be joined with its only predecessor. -/
def canJoin (cfg : Cfg) (fromb tob : Nat) : Bool :=
  !(blockAt cfg tob).isProtected && (blockAt cfg fromb).access &&
    (blockAt cfg fromb).followTo = some tob && (blockAt cfg fromb).op1To = none &&
    (blockAt cfg fromb).op2To = none && (blockAt cfg fromb).extTo = none

/-- The oplines of `to` are moved behind those of its predecessor, which takes over its edges. -/
def moveBlock (cfg : Cfg) (fromb tob : Nat) : Cfg :=
  let last := blockAt cfg tob
  let cfg := modifyBlock cfg fromb fun b => { b with opcodes := b.opcodes ++ last.opcodes }
  let cfg := modifyBlock cfg tob fun b => { b with moved := true, access := false, sources := [] }
  modifyBlock cfg fromb fun b =>
    { b with
      followTo := last.followTo, op1To := last.op1To.or b.op1To,
      op2To := last.op2To.or b.op2To, extTo := last.extTo.or b.extTo }

/-- `to` is joined with its predecessor. -/
def joinBlocks (cfg : Cfg) (fromb tob : Nat) : Option Cfg := do
  let last := blockAt cfg tob
  let cfg ← inheritEdge tob fromb (moveBlock cfg fromb tob) last.op1To
  let cfg ← inheritEdge tob fromb cfg last.op2To
  let cfg ← inheritEdge tob fromb cfg last.extTo
  inheritEdge tob fromb cfg last.followTo

/-- `del_source` -/
def delSource (cfg : Cfg) (fromb tob : Nat) : Option Cfg :=
  if (blockAt cfg tob).sources = [] then
    some (modifyBlock cfg tob fun block => { block with access := false })
  else if fromb = tob then some cfg
  else
    let cfg := modifyBlock cfg tob fun block => { block with sources := block.sources.erase fromb }
    match (blockAt cfg tob).sources with
    | [] => some (modifyBlock cfg tob fun block => { block with access := false })
    | [p] => if canJoin cfg p tob then joinBlocks cfg p tob else some cfg
    | _ => some cfg

/-- The edges of `fromb` to `b` lead to `tob` now. -/
def redirect (b tob : Nat) (cfg : Cfg) (fromb : Nat) : Cfg :=
  let move := fun edge : Option Nat => if edge = some b then some tob else edge
  if b ∈ (blockAt cfg fromb).targets then
    addSource (modifyBlock cfg fromb fun block =>
      { block with
        op1To := move block.op1To, op2To := move block.op2To, extTo := move block.extTo,
        followTo := move block.followTo }) fromb tob
  else cfg

/-- `delete_code_block` -/
def deleteCodeBlock (cfg : Cfg) (b : Nat) : Cfg :=
  let block := blockAt cfg b
  if block.isProtected then cfg
  else
    let cfg := match block.followTo with
      | none => cfg
      | some tob => block.sources.foldl (redirect b tob) cfg
    modifyBlock cfg b fun block => { block with access := false }

/-- `zend_access_path`, with a bound on its depth -/
def zendAccessPath : Nat → Cfg → Nat → Option Cfg
  | 0, _, _ => none
  | n + 1, cfg, b =>
    if (blockAt cfg b).access then some cfg
    else
      (blockAt cfg b).targets.foldlM (fun cfg tob => do
        let cfg ← zendAccessPath n cfg tob
        return addSource cfg b tob) (modifyBlock cfg b fun block => { block with access := true })

/-- All blocks are marked as unaccessible, and the back references are destroyed. -/
def unlinked (cfg : Cfg) : Cfg :=
  cfg.map fun block => { block with access := false, sources := [] }

/-- `zend_rebuild_access_path`; `roots` are the blocks of loops and the `catch` blocks. -/
def zendRebuildAccessPath (cfg : Cfg) (roots : List Nat) (findStart : Bool) : Option Cfg :=
  let start := if findStart then cfg.findIdx (·.access) else 0
  (start :: roots).foldlM (zendAccessPath (cfg.length + 1)) (unlinked cfg)

/-! Blocks that change. -/

section Blocks

variable {cfg : Cfg} {b c : Nat}

@[simp] theorem length_modifyBlock (cfg : Cfg) (b : Nat) (f : CodeBlock → CodeBlock) :
    (modifyBlock cfg b f).length = cfg.length :=
  length_set

theorem blockAt_modifyBlock (hb : b < cfg.length) (f : CodeBlock → CodeBlock) (c : Nat) :
    blockAt (modifyBlock cfg b f) c = if c = b then f (blockAt cfg b) else blockAt cfg c := by
  rw [modifyBlock, blockAt, getD_eq_getElem?_getD, getElem?_set]
  by_cases hc : c = b
  · rw [if_pos hc, if_pos hc.symm, if_pos hb]
    rfl
  · rw [if_neg hc, if_neg (Ne.symm hc)]
    rfl

theorem modifyBlock_cases {P : CodeBlock → Prop} {f : CodeBlock → CodeBlock}
    (h : P (blockAt cfg c)) (hf : c = b → P (blockAt cfg b) → P (f (blockAt cfg b))) :
    P (blockAt (modifyBlock cfg b f) c) := by
  by_cases hb : b < cfg.length
  · rw [blockAt_modifyBlock hb]
    split
    case isTrue hc => exact hf hc (hc ▸ h)
    case isFalse => exact h
  · rwa [modifyBlock, set_eq_of_length_le (Nat.le_of_not_lt hb)]

/-- What `f` keeps of a block. -/
theorem modifyBlock_keeps {α : Type} {f : CodeBlock → CodeBlock} (g : CodeBlock → α)
    (hf : ∀ block, g (f block) = g block := by intro; rfl) (c : Nat) :
    g (blockAt (modifyBlock cfg b f) c) = g (blockAt cfg c) :=
  modifyBlock_cases (P := fun block => g block = g (blockAt cfg c)) rfl fun _ h => (hf _).trans h

/-- `x` is a source of `y`, which is accessed. -/
def Linked (cfg : Cfg) (x y : Nat) : Prop :=
  (blockAt cfg y).access = true ∧ x ∈ (blockAt cfg y).sources

theorem mem_targets {block : CodeBlock} {y : Nat} :
    y ∈ block.targets ↔ ∃ e, edgeTo block e = some y := by
  simp only [CodeBlock.targets, mem_append, mem_toList]
  constructor
  · rintro (((h | h) | h) | h)
    · exact ⟨.op1, h⟩
    · exact ⟨.op2, h⟩
    · exact ⟨.ext, h⟩
    · exact ⟨.follow, h⟩
  · rintro ⟨e, h⟩
    cases e with
    | op1 => exact .inl (.inl (.inl h))
    | op2 => exact .inl (.inl (.inr h))
    | ext => exact .inl (.inr h)
    | follow => exact .inr h

end Blocks

/-! `replace_source`. -/

section ReplaceSource

variable {old new : Nat} {found : Bool} {sources sources' : List Nat}

section

variable (h : replaceSource old new found sources = some sources')
include h

theorem mem_replaceSource {x : Nat} (hx : x ∈ sources) (hold : x ≠ old) (hnew : x ≠ new) :
    x ∈ sources' := by
  fun_induction replaceSource old new found sources generalizing sources' with
  | case1 => exact absurd hx not_mem_nil
  | case2 | case3 | case6 => cases h
  | case4 found source hif source' rest ih =>
    obtain ⟨tail, htail, rfl⟩ := map_eq_some_iff.mp h
    simp only [Bool.and_eq_true, decide_eq_true_eq] at hif
    rcases mem_cons.mp hx with rfl | hx
    · exact absurd hif.1 hnew
    · rcases mem_cons.mp hx with rfl | hx
      · exact absurd rfl hold
      · exact mem_cons.mpr ((mem_cons.mp hx).imp_right fun hx => ih htail hx)
  | case5 found source hif source' rest hne ih =>
    obtain ⟨tail, htail, rfl⟩ := map_eq_some_iff.mp h
    simp only [Bool.and_eq_true, decide_eq_true_eq] at hif
    rcases mem_cons.mp hx with rfl | hx
    · exact absurd hif.1 hnew
    · exact mem_cons.mpr ((mem_cons.mp hx).imp_right fun hx => ih htail hx)
  | case7 found source rest hif hfound ih =>
    obtain ⟨tail, htail, rfl⟩ := map_eq_some_iff.mp h
    rcases mem_cons.mp hx with rfl | hx
    · exact absurd rfl hold
    · exact mem_cons.mpr ((mem_cons.mp hx).imp_right fun hx => ih htail hx)
  | case8 found rest hif hfound ih =>
    obtain ⟨tail, htail, rfl⟩ := map_eq_some_iff.mp h
    rcases mem_cons.mp hx with rfl | hx
    · exact absurd rfl hold
    · exact mem_cons_of_mem new (ih htail hx)
  | case9 found source rest hif hne ih =>
    obtain ⟨tail, htail, rfl⟩ := map_eq_some_iff.mp h
    exact mem_cons.mpr ((mem_cons.mp hx).imp_right fun hx => ih htail hx)

/-- One of the two is there behind it as `new`. -/
theorem new_mem_replaceSource (hne : old ≠ new) (hmem : old ∈ sources ∨ new ∈ sources) :
    found = true ∨ new ∈ sources' := by
  fun_induction replaceSource old new found sources generalizing sources' with
  | case1 => exact absurd hmem (by simp)
  | case2 | case3 | case6 => cases h
  | case4 found source hif | case5 found source hif =>
    simp only [Bool.and_eq_true] at hif
    exact .inl hif.2
  | case7 found source rest hif hfound ih =>
    rw [decide_eq_false hne, Bool.or_false] at hfound
    exact .inl hfound
  | case8 found rest hif hfound ih =>
    obtain ⟨tail, htail, rfl⟩ := map_eq_some_iff.mp h
    exact .inr mem_cons_self
  | case9 found source rest hif hsource ih =>
    obtain ⟨tail, htail, rfl⟩ := map_eq_some_iff.mp h
    by_cases hnew : source = new
    · exact .inr (hnew ▸ mem_cons_self)
    · have hmem : old ∈ rest ∨ new ∈ rest := by
        rcases hmem with hmem | hmem
        · exact .inl ((mem_cons.mp hmem).resolve_left (Ne.symm hsource))
        · exact .inr ((mem_cons.mp hmem).resolve_left (Ne.symm hnew))
      rcases ih htail hmem with hfound | hmem
      · rw [decide_eq_false hnew, Bool.or_false] at hfound
        exact .inl hfound
      · exact .inr (mem_cons_of_mem source hmem)

theorem nodup_replaceSource (hne : old ≠ new) (hnodup : sources.Nodup)
    (hfound : found = true → new ∉ sources ∨ old ∉ sources) :
    sources'.Nodup ∧ (∀ x ∈ sources', x ∈ sources ∨ x = new) ∧ (found = true → new ∉ sources') := by
  fun_induction replaceSource old new found sources generalizing sources' with
  | case1 =>
    cases h
    exact ⟨nodup_nil, fun x hx => .inl hx, fun _ => not_mem_nil⟩
  | case2 | case3 | case6 => cases h
  | case4 found source hif source' rest ih =>
    simp only [Bool.and_eq_true, decide_eq_true_eq] at hif
    exact absurd (hfound hif.2) (by simp [hif.1])
  | case5 found source hif source' rest hsource ih =>
    obtain ⟨tail, htail, rfl⟩ := map_eq_some_iff.mp h
    simp only [Bool.and_eq_true, decide_eq_true_eq] at hif
    obtain ⟨rfl, -⟩ := hif
    rw [nodup_cons, nodup_cons, mem_cons, not_or] at hnodup
    obtain ⟨⟨hne', hnot⟩, hnot', hrest⟩ := hnodup
    obtain ⟨htnodup, htmem, htnew⟩ := ih htail hrest fun _ => .inl hnot
    have htail' : source' ∉ tail := fun hmem => by
      rcases htmem source' hmem with hmem | rfl
      · exact hnot' hmem
      · exact hne' rfl
    refine ⟨nodup_cons.mpr ⟨htail', htnodup⟩, fun x hx => ?_, fun _ hmem => ?_⟩
    · rcases mem_cons.mp hx with rfl | hx
      · exact .inl (by simp)
      · exact (htmem x hx).imp_left fun hx => by simp [hx]
    · rcases mem_cons.mp hmem with heq | hmem
      · exact hne' heq
      · exact htnew rfl hmem
  | case7 found source rest hif hor ih =>
    obtain ⟨tail, htail, rfl⟩ := map_eq_some_iff.mp h
    rw [decide_eq_false hne, Bool.or_false] at hor
    have hnew := (hfound hor).resolve_right fun h => h mem_cons_self
    simp only [mem_cons, not_or] at hnew
    rw [nodup_cons, nodup_cons] at hnodup
    obtain ⟨htnodup, htmem, htnew⟩ := ih htail hnodup.2.2 fun _ => .inl hnew.2.2
    refine ⟨nodup_cons.mpr ⟨fun hmem => ?_, htnodup⟩, fun x hx => ?_, fun _ hmem => ?_⟩
    · rcases htmem source hmem with hmem | heq
      · exact hnodup.2.1 hmem
      · exact hnew.2.1 heq.symm
    · rcases mem_cons.mp hx with rfl | hx
      · exact .inl (by simp)
      · exact (htmem x hx).imp_left fun hx => by simp [hx]
    · rcases mem_cons.mp hmem with heq | hmem
      · exact hnew.2.1 heq
      · exact htnew rfl hmem
  | case8 found rest hif hor ih =>
    obtain ⟨tail, htail, rfl⟩ := map_eq_some_iff.mp h
    rw [nodup_cons] at hnodup
    obtain ⟨htnodup, htmem, htnew⟩ := ih htail hnodup.2 fun _ => .inr hnodup.1
    refine ⟨nodup_cons.mpr ⟨htnew rfl, htnodup⟩, fun x hx => ?_, fun htrue => ?_⟩
    · rcases mem_cons.mp hx with rfl | hx
      · exact .inr rfl
      · exact (htmem x hx).imp_left fun hx => mem_cons_of_mem _ hx
    · exact absurd (by rw [htrue]; rfl) hor
  | case9 found source rest hif hsource ih =>
    obtain ⟨tail, htail, rfl⟩ := map_eq_some_iff.mp h
    rw [nodup_cons] at hnodup
    have hrest : (found || decide (source = new)) = true → new ∉ rest ∨ old ∉ rest := by
      intro hor
      simp only [Bool.or_eq_true, decide_eq_true_eq] at hor
      rcases hor with hor | rfl
      · exact (hfound hor).imp (fun h hmem => h (mem_cons_of_mem _ hmem))
          fun h hmem => h (mem_cons_of_mem _ hmem)
      · exact .inl hnodup.1
    obtain ⟨htnodup, htmem, htnew⟩ := ih htail hnodup.2 hrest
    refine ⟨nodup_cons.mpr ⟨fun hmem => ?_, htnodup⟩, fun x hx => ?_, fun htrue hmem => ?_⟩
    · rcases htmem source hmem with hmem' | rfl
      · exact hnodup.1 hmem'
      · exact htnew (by simp) hmem
    · rcases mem_cons.mp hx with rfl | hx
      · exact .inl mem_cons_self
      · exact (htmem x hx).imp_left fun hx => mem_cons_of_mem _ hx
    · rcases mem_cons.mp hmem with heq | hmem
      · exact hif (by rw [htrue, ← heq]; simp)
      · exact htnew (by rw [htrue]; rfl) hmem

end

end ReplaceSource

/-! Joining blocks. -/

section Joining

/-- Only the sources differ. -/
structure SourcesOnly (cfg cfg' : Cfg) : Prop where
  length : cfg'.length = cfg.length
  block : ∀ c, { blockAt cfg' c with sources := [] } = { blockAt cfg c with sources := [] }

variable {cfg cfg' cfg'' : Cfg} {fromb tob b c : Nat}

theorem SourcesOnly.refl (cfg : Cfg) : SourcesOnly cfg cfg :=
  ⟨rfl, fun _ => rfl⟩

section

variable (h : SourcesOnly cfg cfg')
include h

theorem SourcesOnly.trans (h' : SourcesOnly cfg' cfg'') :
    SourcesOnly cfg cfg'' :=
  ⟨h'.length.trans h.length, fun c => (h'.block c).trans (h.block c)⟩

theorem SourcesOnly.access (c : Nat) :
    (blockAt cfg' c).access = (blockAt cfg c).access :=
  (congrArg CodeBlock.access (h.block c) :)

theorem SourcesOnly.moved (c : Nat) :
    (blockAt cfg' c).moved = (blockAt cfg c).moved :=
  (congrArg CodeBlock.moved (h.block c) :)

theorem SourcesOnly.edgeTo (c : Nat) :
    BlockPass.edgeTo (blockAt cfg' c) = BlockPass.edgeTo (blockAt cfg c) := by
  funext e
  have h := congrArg (fun block => BlockPass.edgeTo block e) (h.block c)
  cases e <;> exact h

theorem SourcesOnly.targets (c : Nat) :
    (blockAt cfg' c).targets = (blockAt cfg c).targets :=
  (congrArg CodeBlock.targets (h.block c) :)

end

theorem sourcesOnly_modifyBlock (cfg : Cfg) (b : Nat) (f : List Nat → List Nat) :
    SourcesOnly cfg (modifyBlock cfg b fun block =>
      { block with sources := f block.sources }) :=
  ⟨length_modifyBlock .., modifyBlock_keeps (fun block => { block with sources := [] })⟩

/-- What becomes of the sources of the blocks when an edge goes over. -/
structure Inherits (tob fromb : Nat) (edge : Option Nat) (cfg cfg' : Cfg) : Prop where
  same : SourcesOnly cfg cfg'
  nodup : (∀ c, (blockAt cfg c).sources.Nodup) → ∀ c, (blockAt cfg' c).sources.Nodup
  kept : ∀ c x, x ≠ tob → x ∈ (blockAt cfg c).sources → x ∈ (blockAt cfg' c).sources
  either : ∀ c, tob ∈ (blockAt cfg c).sources ∨ fromb ∈ (blockAt cfg c).sources →
    tob ∈ (blockAt cfg' c).sources ∨ fromb ∈ (blockAt cfg' c).sources
  edge : ∀ b, edge = some b → tob ∈ (blockAt cfg b).sources ∨ fromb ∈ (blockAt cfg b).sources →
    fromb ∈ (blockAt cfg' b).sources

theorem lt_of_source {x : Nat} (h : x ∈ (blockAt cfg b).sources) : b < cfg.length := by
  by_contra hle
  rw [blockAt_outside (Nat.le_of_not_lt hle)] at h
  exact absurd h not_mem_nil

theorem inheritEdge_inherits (hne : tob ≠ fromb) {edge : Option Nat}
    (h : inheritEdge tob fromb cfg edge = some cfg') : Inherits tob fromb edge cfg cfg' := by
  cases edge with
  | none =>
    cases h
    exact ⟨.refl _, fun h => h, fun _ _ _ h => h, fun _ h => h, fun b hb => by simp at hb⟩
  | some b =>
    obtain ⟨sources, hreplace, h⟩ := bind_eq_some_iff.mp h
    cases h
    have hat : ∀ c, (blockAt (modifyBlock cfg b fun block =>
        { block with sources := sources }) c).sources = sources ∧ c = b ∨
        (blockAt (modifyBlock cfg b fun block => { block with sources := sources }) c).sources =
          (blockAt cfg c).sources ∧ (c = b → ¬b < cfg.length) := by
      intro c
      by_cases hb : b < cfg.length
      · rw [blockAt_modifyBlock hb]
        by_cases hc : c = b
        · exact .inl ⟨by rw [if_pos hc], hc⟩
        · exact .inr ⟨by rw [if_neg hc], fun h => absurd h hc⟩
      · rw [modifyBlock, set_eq_of_length_le (Nat.le_of_not_lt hb)]
        exact .inr ⟨rfl, fun _ => hb⟩
    refine ⟨sourcesOnly_modifyBlock cfg b fun _ => sources, fun hnodup c => ?_,
      fun c x hx hmem => ?_,
      fun c hor => ?_, fun b' hb' hor => ?_⟩
    · rcases hat c with ⟨hc, rfl⟩ | ⟨hc, -⟩
      · rw [hc]
        exact (nodup_replaceSource hreplace hne (hnodup c) (by simp)).1
      · rw [hc]
        exact hnodup c
    · rcases hat c with ⟨hc, rfl⟩ | ⟨hc, -⟩
      · rw [hc]
        by_cases hnew : x = fromb
        · subst hnew
          exact (new_mem_replaceSource hreplace hne (.inr hmem)).resolve_left (by simp)
        · exact mem_replaceSource hreplace hmem hx hnew
      · rw [hc]
        exact hmem
    · rcases hat c with ⟨hc, rfl⟩ | ⟨hc, -⟩
      · rw [hc]
        exact .inr ((new_mem_replaceSource hreplace hne hor).resolve_left (by simp))
      · rw [hc]
        exact hor
    · cases hb'
      rcases hat b with ⟨hc, -⟩ | ⟨-, hout⟩
      · rw [hc]
        exact (new_mem_replaceSource hreplace hne hor).resolve_left (by simp)
      · exact absurd (hor.elim lt_of_source lt_of_source) (hout rfl)

/-- What joining `y` with its predecessor `p` does. -/
structure Joined (p y : Nat) (cfg cfg' : Cfg) : Prop where
  length : cfg'.length = cfg.length
  other : ∀ c, c ≠ p → c ≠ y →
    { blockAt cfg' c with sources := [] } = { blockAt cfg c with sources := [] }
  access_p : (blockAt cfg' p).access = (blockAt cfg p).access
  moved_p : (blockAt cfg' p).moved = (blockAt cfg p).moved
  edge_p : edgeTo (blockAt cfg' p) = edgeTo (blockAt cfg y)
  access_y : (blockAt cfg' y).access = false
  edge_y : edgeTo (blockAt cfg' y) = edgeTo (blockAt cfg y)
  nodup : (∀ c, (blockAt cfg c).sources.Nodup) → ∀ c, (blockAt cfg' c).sources.Nodup
  kept : ∀ c x, c ≠ y → x ≠ y → x ∈ (blockAt cfg c).sources → x ∈ (blockAt cfg' c).sources
  inherits : ∀ z, z ∈ (blockAt cfg y).targets → z ≠ y → y ∈ (blockAt cfg z).sources →
    p ∈ (blockAt cfg' z).sources

theorem blockAt_moveBlock {p y : Nat} (hpy : y ≠ p) (hp : p < cfg.length) (hy : y < cfg.length)
    (c : Nat) : blockAt (moveBlock cfg p y) c = if c = p then
        { blockAt cfg p with
          opcodes := (blockAt cfg p).opcodes ++ (blockAt cfg y).opcodes,
          followTo := (blockAt cfg y).followTo,
          op1To := (blockAt cfg y).op1To.or (blockAt cfg p).op1To,
          op2To := (blockAt cfg y).op2To.or (blockAt cfg p).op2To,
          extTo := (blockAt cfg y).extTo.or (blockAt cfg p).extTo }
      else if c = y then { blockAt cfg y with moved := true, access := false, sources := [] }
      else blockAt cfg c := by
  have hp' : ∀ f g, p < (modifyBlock (modifyBlock cfg p f) y g).length := fun f g => by
    rw [length_modifyBlock, length_modifyBlock]
    exact hp
  have hy' : ∀ f, y < (modifyBlock cfg p f).length := fun f => by
    rw [length_modifyBlock]
    exact hy
  rw [moveBlock]
  rw [blockAt_modifyBlock (hp' _ _)]
  by_cases hcp : c = p
  · rw [if_pos hcp, if_pos hcp, blockAt_modifyBlock (hy' _), if_neg (Ne.symm hpy),
      blockAt_modifyBlock hp, if_pos rfl]
  · rw [if_neg hcp, if_neg hcp, blockAt_modifyBlock (hy' _)]
    by_cases hcy : c = y
    · rw [if_pos hcy, if_pos hcy, blockAt_modifyBlock hp, if_neg hpy]
    · rw [if_neg hcy, if_neg hcy, blockAt_modifyBlock hp, if_neg hcp]

theorem joinBlocks_joined {p y : Nat} (hpy : y ≠ p) (hp : p < cfg.length) (hy : y < cfg.length)
    (hjoin : canJoin cfg p y = true) (h : joinBlocks cfg p y = some cfg') :
    Joined p y cfg cfg' := by
  obtain ⟨cfg₁, h₁, h⟩ := bind_eq_some_iff.mp h
  obtain ⟨cfg₂, h₂, h⟩ := bind_eq_some_iff.mp h
  obtain ⟨cfg₃, h₃, h₄⟩ := bind_eq_some_iff.mp h
  have hi₁ := inheritEdge_inherits hpy h₁
  have hi₂ := inheritEdge_inherits hpy h₂
  have hi₃ := inheritEdge_inherits hpy h₃
  have hi₄ := inheritEdge_inherits hpy h₄
  have hsame := ((hi₁.same.trans hi₂.same).trans hi₃.same).trans hi₄.same
  simp only [canJoin, Bool.and_eq_true, Bool.not_eq_true', decide_eq_true_eq] at hjoin
  obtain ⟨⟨⟨⟨⟨-, hacc⟩, hfollow⟩, hop1⟩, hop2⟩, hext⟩ := hjoin
  have hat := blockAt_moveBlock hpy hp hy
  have hatp := hat p
  have haty := hat y
  rw [if_pos rfl] at hatp
  rw [if_neg hpy, if_pos rfl] at haty
  have hkept : ∀ c x, x ≠ y → x ∈ (blockAt (moveBlock cfg p y) c).sources →
      x ∈ (blockAt cfg' c).sources := fun c x hx hmem =>
    hi₄.kept c x hx (hi₃.kept c x hx (hi₂.kept c x hx (hi₁.kept c x hx hmem)))
  have hsources : ∀ c, c ≠ y →
      (blockAt (moveBlock cfg p y) c).sources = (blockAt cfg c).sources := by
    intro c hc
    rw [hat]
    by_cases hcp : c = p
    · rw [if_pos hcp, hcp]
    · rw [if_neg hcp, if_neg hc]
  refine ⟨?_, ?_, ?_, ?_, ?_, ?_, ?_, ?_, ?_, ?_⟩
  · rw [hsame.length, moveBlock, length_modifyBlock, length_modifyBlock, length_modifyBlock]
  · intro c hcp hcy
    rw [hsame.block, hat, if_neg hcp, if_neg hcy]
  · rw [hsame.access, hatp]
  · rw [hsame.moved, hatp]
  · rw [hsame.edgeTo, hatp]
    funext e
    cases e with
    | op1 => rw [edgeTo, hop1, or_none]; rfl
    | op2 => rw [edgeTo, hop2, or_none]; rfl
    | ext => rw [edgeTo, hext, or_none]; rfl
    | follow => rfl
  · rw [hsame.access, haty]
  · rw [hsame.edgeTo, haty]
    funext e
    cases e <;> rfl
  · intro hnodup
    refine hi₄.nodup (hi₃.nodup (hi₂.nodup (hi₁.nodup fun c => ?_)))
    by_cases hc : c = y
    · rw [hc, haty]
      exact nodup_nil
    · rw [hsources c hc]
      exact hnodup c
  · intro c x hc hx hmem
    rw [← hsources c hc] at hmem
    exact hkept c x hx hmem
  · intro z hz hzy hmem
    have hor : y ∈ (blockAt (moveBlock cfg p y) z).sources ∨
        p ∈ (blockAt (moveBlock cfg p y) z).sources := .inl (by rw [hsources z hzy]; exact hmem)
    have hp' : p ≠ y := Ne.symm hpy
    obtain ⟨e, he⟩ := mem_targets.mp hz
    cases e with
    | op1 =>
      have h := hi₁.edge z he hor
      exact hi₄.kept z p hp' (hi₃.kept z p hp' (hi₂.kept z p hp' h))
    | op2 =>
      have h := hi₂.edge z he (hi₁.either z hor)
      exact hi₄.kept z p hp' (hi₃.kept z p hp' h)
    | ext =>
      have h := hi₃.edge z he (hi₂.either z (hi₁.either z hor))
      exact hi₄.kept z p hp' h
    | follow => exact hi₄.edge z he (hi₃.either z (hi₂.either z (hi₁.either z hor)))

end Joining

/-! The sources are those of the edges. -/

section Deleting

/-- The edges of the blocks that are accessed and not `busy` lead to blocks that are accessed and
have them as sources, and no source is there twice. -/
structure Links (busy : Nat → Prop) (cfg : Cfg) : Prop where
  linked : ∀ x, (blockAt cfg x).access = true → ¬busy x → ∀ y ∈ (blockAt cfg x).targets,
    Linked cfg x y
  nodup : ∀ y, (blockAt cfg y).sources.Nodup

/-- A block is followed by a later one, and the oplines of a block that is accessed are there. -/
structure Inv (busy : Nat → Prop) (cfg : Cfg) : Prop where
  links : Links busy cfg
  forward : ∀ x y, (blockAt cfg x).followTo = some y → x < y
  inPlace : ∀ x, (blockAt cfg x).access = true → (blockAt cfg x).moved = false

/-- Whether `y` is not accessed any more when its source `A` is deleted. -/
def loses (cfg : Cfg) (A y : Nat) : Bool :=
  match (blockAt cfg y).sources.erase A with
  | [] => true
  | [p] => canJoin cfg p y
  | _ => false

/-- What deleting the source `A` of `y` does. -/
structure Deleted (A y : Nat) (cfg cfg' : Cfg) : Prop where
  length : cfg'.length = cfg.length
  inv : Inv (· = A) cfg'
  own : { blockAt cfg' A with sources := [] } = { blockAt cfg A with sources := [] }
  linked : ∀ z, z ≠ y → Linked cfg A z → Linked cfg' A z
  behind : ∀ t e z, t ≠ A → (blockAt cfg t).access = true →
    edgeTo (blockAt cfg' t) e = some z → (blockAt cfg' z).access = true
  still : A = y ∨ loses cfg A y = false → (blockAt cfg' y).access = true

variable {cfg cfg' : Cfg} {A y : Nat}

theorem canJoin_sourcesOnly (h : SourcesOnly cfg cfg') (p y : Nat) :
    canJoin cfg' p y = canJoin cfg p y := by
  have hprotected : (blockAt cfg' y).isProtected = (blockAt cfg y).isProtected :=
    (congrArg CodeBlock.isProtected (h.block y) :)
  have hedge : ∀ e, edgeTo (blockAt cfg' p) e = edgeTo (blockAt cfg p) e :=
    congrFun (h.edgeTo p)
  have hop1 : (blockAt cfg' p).op1To = (blockAt cfg p).op1To := hedge .op1
  have hop2 : (blockAt cfg' p).op2To = (blockAt cfg p).op2To := hedge .op2
  have hext : (blockAt cfg' p).extTo = (blockAt cfg p).extTo := hedge .ext
  have hfollow : (blockAt cfg' p).followTo = (blockAt cfg p).followTo := hedge .follow
  rw [canJoin, canJoin, hprotected, h.access, hop1, hop2, hext, hfollow]

theorem Inv.access_behind (h : Inv (· = A) cfg) {t z : Nat} {e : Edge} (ht : t ≠ A)
    (haccess : (blockAt cfg t).access = true) (he : edgeTo (blockAt cfg t) e = some z) :
    (blockAt cfg z).access = true :=
  (h.links.linked t haccess ht z (mem_targets.mpr ⟨e, he⟩)).1

theorem deleted_erased (h : Inv (· = A) cfg) (hy : Linked cfg A y) :
    Deleted A y cfg (modifyBlock cfg y fun block =>
      { block with sources := block.sources.erase A }) := by
  have hlt := lt_of_access hy.1
  have hsame := sourcesOnly_modifyBlock cfg y fun sources => sources.erase A
  have hat := blockAt_modifyBlock hlt fun block : CodeBlock =>
    { block with sources := block.sources.erase A }
  have hlinked : ∀ x z, (z = y → x ≠ A) → Linked cfg x z → Linked (modifyBlock cfg y fun block =>
      { block with sources := block.sources.erase A }) x z := by
    intro x z hx hxz
    rw [Linked, hat]
    by_cases hz : z = y
    · rw [if_pos hz]
      rw [hz] at hxz
      exact ⟨hxz.1, (mem_erase_of_ne (hx hz)).mpr hxz.2⟩
    · rw [if_neg hz]
      exact hxz
  refine ⟨length_modifyBlock .., ⟨⟨fun x haccess hx z hz => ?_, fun z => ?_⟩, fun x z hfollow => ?_,
    fun x haccess => ?_⟩, hsame.block A, fun z hz hAz => hlinked A z (fun h => absurd h hz) hAz,
    fun t e z ht haccess he => ?_, fun _ => ?_⟩
  · rw [hsame.access] at haccess
    rw [hsame.targets] at hz
    exact hlinked x z (fun _ => hx) (h.links.linked x haccess hx z hz)
  · exact modifyBlock_cases (P := (·.sources.Nodup)) (h.links.nodup z) fun _ h => h.erase A
  · have he := congrFun (hsame.edgeTo x) .follow
    exact h.forward x z (he.symm.trans hfollow)
  · rw [hsame.access] at haccess
    rw [hsame.moved]
    exact h.inPlace x haccess
  · rw [hsame.edgeTo] at he
    rw [hsame.access]
    exact h.access_behind ht haccess he
  · rw [hsame.access]
    exact hy.1

/-- `y` has no more sources. -/
theorem deleted_cleared (h : Inv (· = A) cfg) (hy : Linked cfg A y) (hA : A ≠ y)
    (hnone : (blockAt cfg y).sources.erase A = []) (hcfg' : ∀ c, blockAt cfg' c =
      if c = y then { blockAt cfg y with sources := [], access := false } else blockAt cfg c)
    (hlength : cfg'.length = cfg.length) : Deleted A y cfg cfg' := by
  have hedge : ∀ c, edgeTo (blockAt cfg' c) = edgeTo (blockAt cfg c) := by
    intro c
    rw [hcfg']
    split
    case isTrue hc =>
      rw [hc]
      funext e
      cases e <;> rfl
    case isFalse => rfl
  have haccess : ∀ c, (blockAt cfg' c).access = true → c ≠ y ∧ (blockAt cfg c).access = true := by
    intro c hc
    rw [hcfg'] at hc
    split at hc
    case isTrue => cases hc
    case isFalse hne => exact ⟨hne, hc⟩
  -- No edge of another block leads to it.
  have hother : ∀ x z, x ≠ A → Linked cfg x z → z ≠ y := by
    rintro x z hx hxz rfl
    have hmem := (mem_erase_of_ne hx).mpr hxz.2
    rw [hnone] at hmem
    exact absurd hmem not_mem_nil
  have hlinked : ∀ x z, z ≠ y → Linked cfg x z → Linked cfg' x z := by
    intro x z hz hxz
    rw [Linked, hcfg', if_neg hz]
    exact hxz
  refine ⟨hlength, ⟨⟨fun x hx hxA z hz => ?_, fun z => ?_⟩, fun x z hfollow => ?_,
    fun x hx => ?_⟩, ?_, fun z hz hAz => hlinked A z hz hAz, fun t e z ht hta he => ?_,
    fun hstill => ?_⟩
  · obtain ⟨e, he⟩ := mem_targets.mp hz
    rw [hedge] at he
    have hxz := h.links.linked x (haccess x hx).2 hxA z (mem_targets.mpr ⟨e, he⟩)
    exact hlinked x z (hother x z hxA hxz) hxz
  · rw [hcfg']
    split
    · exact nodup_nil
    · exact h.links.nodup z
  · exact h.forward x z ((congrFun (hedge x) .follow).symm.trans hfollow)
  · rw [hcfg', if_neg (haccess x hx).1]
    exact h.inPlace x (haccess x hx).2
  · rw [hcfg', if_neg hA]
  · rw [hedge] at he
    have htz := h.links.linked t hta ht z (mem_targets.mpr ⟨e, he⟩)
    exact (hlinked t z (hother t z ht htz) htz).1
  · rcases hstill with hstill | hstill
    · exact absurd hstill hA
    · rw [loses, hnone] at hstill
      exact absurd (show true = false from hstill) (by decide)

/-- `y` is joined with its only other source. -/
theorem deleted_joined {cfg₁ : Cfg} {p : Nat} (hd : Deleted A y cfg cfg₁)
    (hsame : SourcesOnly cfg cfg₁) (hA : A ≠ y) (hpA : p ≠ A)
    (haccess : (blockAt cfg y).access = true)
    (hsource : (blockAt cfg₁ y).sources = [p]) (hfollow : (blockAt cfg₁ p).followTo = some y)
    (hloses : loses cfg A y = true) (hj : Joined p y cfg₁ cfg') : Deleted A y cfg cfg' := by
  have hpy : y ≠ p := ne_of_gt (hd.inv.forward p y hfollow)
  have hacc : ∀ c, c ≠ y → (blockAt cfg' c).access = (blockAt cfg₁ c).access := by
    intro c hc
    by_cases hcp : c = p
    · rw [hcp, hj.access_p]
    · exact (congrArg CodeBlock.access (hj.other c hcp hc) :)
  have hne : ∀ c, (blockAt cfg' c).access = true → c ≠ y := by
    rintro c hc rfl
    rw [hj.access_y] at hc
    cases hc
  have haccy : (blockAt cfg₁ y).access = true := by rw [hsame.access, haccess]
  -- Only `p` had an edge to `y`.
  have honly : ∀ x z, x ≠ p → Linked cfg₁ x z → z ≠ y := by
    rintro x z hx hxz rfl
    have hmem := hxz.2
    rw [hsource, mem_singleton] at hmem
    exact hx hmem
  have hlinked : ∀ x z, x ≠ y → z ≠ y → Linked cfg₁ x z → Linked cfg' x z := by
    intro x z hx hz hxz
    refine ⟨?_, hj.kept z x hz hx hxz.2⟩
    rw [hacc z hz]
    exact hxz.1
  have hbehind : ∀ z, z ∈ (blockAt cfg₁ y).targets → z ≠ y ∧ Linked cfg' p z := by
    intro z hz
    have hyz := hd.inv.links.linked y haccy (Ne.symm hA) z hz
    have hzy := honly y z hpy hyz
    refine ⟨hzy, ?_, hj.inherits z hz hzy hyz.2⟩
    rw [hacc z hzy]
    exact hyz.1
  have hedge : ∀ c, c ≠ p → edgeTo (blockAt cfg' c) = edgeTo (blockAt cfg₁ c) := by
    intro c hcp
    by_cases hcy : c = y
    · rw [hcy, hj.edge_y]
    · funext e
      have h := congrArg (fun block => edgeTo block e) (hj.other c hcp hcy)
      cases e <;> exact h
  have hlinks : ∀ x, (blockAt cfg' x).access = true → x ≠ A → ∀ z ∈ (blockAt cfg' x).targets,
      Linked cfg' x z := by
    intro x hx hxA z hz
    obtain ⟨e, he⟩ := mem_targets.mp hz
    have hxy := hne x hx
    rw [hacc x hxy] at hx
    by_cases hxp : x = p
    · rw [hxp, hj.edge_p] at he
      rw [hxp]
      exact (hbehind z (mem_targets.mpr ⟨e, he⟩)).2
    · rw [hedge x hxp] at he
      have hxz := hd.inv.links.linked x hx hxA z (mem_targets.mpr ⟨e, he⟩)
      exact hlinked x z hxy (honly x z hxp hxz) hxz
  refine ⟨hj.length.trans hd.length, ⟨⟨hlinks, hj.nodup hd.inv.links.nodup⟩,
    fun x z hxz => ?_, fun x hx => ?_⟩, (hj.other A (Ne.symm hpA) hA).trans hd.own,
    fun z hz hAz => hlinked A z hA hz (hd.linked z hz hAz), fun t e z ht hta he => ?_,
    fun hstill => ?_⟩
  · by_cases hxp : x = p
    · have hpz := congrFun hj.edge_p .follow
      rw [hxp] at hxz ⊢
      exact lt_trans (hd.inv.forward p y hfollow) (hd.inv.forward y z (hpz.symm.trans hxz))
    · exact hd.inv.forward x z ((congrFun (hedge x hxp) .follow).symm.trans hxz)
  · have hxy := hne x hx
    rw [hacc x hxy] at hx
    by_cases hxp : x = p
    · rw [hxp, hj.moved_p]
      exact hd.inv.inPlace p (hxp ▸ hx)
    · have hmoved := congrArg CodeBlock.moved (hj.other x hxp hxy)
      exact hmoved.trans (hd.inv.inPlace x hx)
  · by_cases hty : t = y
    · rw [hty, hj.edge_y] at he
      exact (hbehind z (mem_targets.mpr ⟨e, he⟩)).2.1
    · refine (hlinks t ?_ ht z (mem_targets.mpr ⟨e, he⟩)).1
      rw [hacc t hty, hsame.access, hta]
  · rcases hstill with hstill | hstill
    · exact absurd hstill hA
    · rw [hloses] at hstill
      cases hstill

/-- `del_source` keeps what the other edges need. -/
theorem delSource_deleted (h : Inv (· = A) cfg) (hy : Linked cfg A y)
    (hdel : delSource cfg A y = some cfg') : Deleted A y cfg cfg' := by
  have hnil : (blockAt cfg y).sources ≠ [] := ne_nil_of_mem hy.2
  rw [delSource, if_neg hnil] at hdel
  by_cases hA : A = y
  · rw [if_pos hA] at hdel
    cases hdel
    exact ⟨rfl, h, rfl, fun _ _ hz => hz, fun t e z ht hta he => h.access_behind ht hta he,
      fun _ => hy.1⟩
  · rw [if_neg hA] at hdel
    have hlt := lt_of_access hy.1
    have hd := deleted_erased h hy
    have hsame := sourcesOnly_modifyBlock cfg y fun sources => sources.erase A
    have hat : (blockAt (modifyBlock cfg y fun block =>
        { block with sources := block.sources.erase A }) y).sources =
        (blockAt cfg y).sources.erase A := by
      rw [blockAt_modifyBlock hlt, if_pos rfl]
    dsimp only at hdel
    rw [hat] at hdel
    cases hsources : (blockAt cfg y).sources.erase A with
    | nil =>
      rw [hsources] at hdel
      cases hdel
      refine deleted_cleared h hy hA hsources (fun c => ?_) ?_
      · rw [blockAt_modifyBlock (by rw [length_modifyBlock]; exact hlt),
          blockAt_modifyBlock hlt, blockAt_modifyBlock hlt, if_pos rfl]
        by_cases hc : c = y
        · rw [if_pos hc, if_pos hc, hsources]
        · rw [if_neg hc, if_neg hc, if_neg hc]
      · rw [length_modifyBlock, length_modifyBlock]
    | cons p rest =>
      rw [hsources] at hdel
      cases rest with
      | nil =>
        dsimp only at hdel
        by_cases hjoin : canJoin (modifyBlock cfg y fun block =>
            { block with sources := block.sources.erase A }) p y = true
        · rw [if_pos hjoin] at hdel
          have hjoin' := hjoin
          simp only [canJoin, Bool.and_eq_true, decide_eq_true_eq] at hjoin'
          obtain ⟨⟨⟨⟨⟨-, hacc⟩, hfollow⟩, -⟩, -⟩, -⟩ := hjoin'
          have hpA : p ≠ A := by
            rintro rfl
            have hmem : p ∈ (blockAt cfg y).sources.erase p := by
              rw [hsources]
              exact mem_cons_self
            exact (h.links.nodup y).not_mem_erase hmem
          have hloses : loses cfg A y = true := by
            rw [loses, hsources]
            exact (canJoin_sourcesOnly hsame p y).symm.trans hjoin
          have hne : y ≠ p := ne_of_gt (hd.inv.forward p y hfollow)
          exact deleted_joined hd hsame hA hpA hy.1 (hat.trans hsources) hfollow hloses
            (joinBlocks_joined hne (lt_of_access hacc)
              (by rw [length_modifyBlock]; exact hlt) hjoin hdel)
        · rw [if_neg hjoin] at hdel
          cases hdel
          exact hd
      | cons p' rest =>
        cases hdel
        exact hd

end Deleting

/-! Adding sources. -/

section Adding

variable {cfg cfg' : Cfg} {x y u v : Nat}

theorem addSource_sourcesOnly (cfg : Cfg) (x y : Nat) : SourcesOnly cfg (addSource cfg x y) := by
  rw [addSource]
  split
  · exact .refl cfg
  · exact sourcesOnly_modifyBlock cfg y fun sources => x :: sources

theorem mem_addSource (h : u ∈ (blockAt cfg v).sources) :
    u ∈ (blockAt (addSource cfg x y) v).sources := by
  rw [addSource]
  split
  · exact h
  · exact modifyBlock_cases (P := (u ∈ ·.sources)) h fun _ h => mem_cons_of_mem x h

theorem Linked.addSource (h : Linked cfg u v) : Linked (addSource cfg x y) u v :=
  ⟨((addSource_sourcesOnly cfg x y).access v).trans h.1, mem_addSource h.2⟩

theorem linked_addSource (hy : (blockAt cfg y).access = true) : Linked (addSource cfg x y) x y := by
  refine ⟨((addSource_sourcesOnly cfg x y).access y).trans hy, ?_⟩
  rw [BlockPass.addSource]
  split
  case isTrue hmem => exact hmem
  case isFalse =>
    rw [blockAt_modifyBlock (lt_of_access hy), if_pos rfl]
    exact mem_cons_self

theorem nodup_addSource (h : ∀ c, (blockAt cfg c).sources.Nodup) (c : Nat) :
    (blockAt (addSource cfg x y) c).sources.Nodup := by
  rw [addSource]
  split
  case isTrue => exact h c
  case isFalse hmem =>
    exact modifyBlock_cases (P := (·.sources.Nodup)) (h c) fun _ h => nodup_cons.mpr ⟨hmem, h⟩

theorem Links.addSource {busy : Nat → Prop} (h : Links busy cfg) (x y : Nat) :
    Links busy (addSource cfg x y) where
  linked u hu hbusy v hv := by
    rw [(addSource_sourcesOnly cfg x y).access] at hu
    rw [(addSource_sourcesOnly cfg x y).targets] at hv
    exact (h.linked u hu hbusy v hv).addSource
  nodup := nodup_addSource h.nodup

end Adding

/-! Blocks that are deleted. -/

section Redirecting

/-- The sources `todo` of `b` have not been looked at yet; the others lead to `z` instead. -/
structure Redirecting (b z : Nat) (todo : List Nat) (cfg cfg' : Cfg) : Prop where
  length : cfg'.length = cfg.length
  access : ∀ c, (blockAt cfg' c).access = (blockAt cfg c).access
  moved : ∀ c, (blockAt cfg' c).moved = (blockAt cfg c).moved
  linked : ∀ x, (blockAt cfg' x).access = true → ∀ y ∈ (blockAt cfg' x).targets,
    y ≠ b ∧ Linked cfg' x y ∨ y = b ∧ x ∈ todo
  nodup : ∀ y, (blockAt cfg' y).sources.Nodup
  forward : ∀ x y, (blockAt cfg' x).followTo = some y → x < y

variable {cfg cfg' : Cfg} {b z : Nat}

theorem redirect_target {edge : Option Nat} {y : Nat}
    (h : (if edge = some b then some z else edge) = some y) : y = z ∨ edge = some y ∧ y ≠ b := by
  split at h
  case isTrue => exact .inl (Option.some.inj h).symm
  case isFalse hne =>
    refine .inr ⟨h, ?_⟩
    rintro rfl
    exact hne h

theorem Redirecting.redirect {x : Nat} {todo : List Nat} (hz : (blockAt cfg z).access = true)
    (hbz : b < z) (h : Redirecting b z (x :: todo) cfg cfg') :
    Redirecting b z todo cfg (redirect b z cfg' x) := by
  rw [BlockPass.redirect]
  by_cases hmem : b ∈ (blockAt cfg' x).targets
  · rw [if_pos hmem]
    have hlt : x < cfg'.length := by
      by_contra hle
      rw [blockAt_outside (Nat.le_of_not_lt hle)] at hmem
      exact absurd (show b ∈ [] from hmem) not_mem_nil
    have hat := blockAt_modifyBlock hlt fun block : CodeBlock =>
      { block with
        op1To := if block.op1To = some b then some z else block.op1To,
        op2To := if block.op2To = some b then some z else block.op2To,
        extTo := if block.extTo = some b then some z else block.extTo,
        followTo := if block.followTo = some b then some z else block.followTo }
    generalize hcfg₁ : (modifyBlock cfg' x fun block =>
      { block with
        op1To := if block.op1To = some b then some z else block.op1To,
        op2To := if block.op2To = some b then some z else block.op2To,
        extTo := if block.extTo = some b then some z else block.extTo,
        followTo := if block.followTo = some b then some z else block.followTo }) = cfg₁ at hat
    have hlength : cfg₁.length = cfg'.length := by rw [← hcfg₁, length_modifyBlock]
    have hacc : ∀ c, (blockAt cfg₁ c).access = (blockAt cfg' c).access :=
      hcfg₁ ▸ modifyBlock_keeps (·.access)
    have hmoved : ∀ c, (blockAt cfg₁ c).moved = (blockAt cfg' c).moved :=
      hcfg₁ ▸ modifyBlock_keeps (·.moved)
    have hsources : ∀ c, (blockAt cfg₁ c).sources = (blockAt cfg' c).sources :=
      hcfg₁ ▸ modifyBlock_keeps (·.sources)
    have hlinked : ∀ u v, Linked cfg' u v → Linked cfg₁ u v := by
      intro u v huv
      rw [Linked, hacc, hsources]
      exact huv
    have hsame := addSource_sourcesOnly cfg₁ x z
    -- An edge of `x` leads to `z`, or to where it led before, which is not `b`.
    have hown : ∀ y ∈ (blockAt cfg₁ x).targets, y = z ∨ y ∈ (blockAt cfg' x).targets ∧ y ≠ b := by
      intro y hy
      obtain ⟨e, he⟩ := mem_targets.mp hy
      have hedge : (if edgeTo (blockAt cfg' x) e = some b then some z
          else edgeTo (blockAt cfg' x) e) = some y := by
        rw [← he, hat, if_pos rfl]
        cases e <;> rfl
      exact (redirect_target hedge).imp_right fun h => ⟨mem_targets.mpr ⟨e, h.1⟩, h.2⟩
    refine ⟨hsame.length.trans (hlength.trans h.length), fun c => ?_, fun c => ?_,
      fun u hu y hy => ?_, nodup_addSource fun c => ?_, fun u y hu => ?_⟩
    · rw [hsame.access, hacc, h.access]
    · rw [hsame.moved, hmoved, h.moved]
    · rw [hsame.access, hacc] at hu
      rw [hsame.targets] at hy
      by_cases hux : u = x
      · subst hux
        rcases hown y hy with rfl | ⟨hy, hyb⟩
        · refine .inl ⟨ne_of_gt hbz, linked_addSource ?_⟩
          rw [hacc, h.access]
          exact hz
        · rcases h.linked u hu y hy with ⟨-, hlink⟩ | ⟨heq, -⟩
          · exact .inl ⟨hyb, (hlinked u y hlink).addSource⟩
          · exact absurd heq hyb
      · rw [hat, if_neg hux] at hy
        rcases h.linked u hu y hy with ⟨hyb, hlink⟩ | ⟨heq, htodo⟩
        · exact .inl ⟨hyb, (hlinked u y hlink).addSource⟩
        · exact .inr ⟨heq, (mem_cons.mp htodo).resolve_left hux⟩
    · rw [hsources]
      exact h.nodup c
    · have hu : (blockAt cfg₁ u).followTo = some y :=
        (congrFun (hsame.edgeTo u) .follow).symm.trans hu
      rw [hat] at hu
      split at hu
      case isTrue hux =>
        rw [hux]
        by_cases hb : (blockAt cfg' x).followTo = some b
        · dsimp only at hu
          rw [if_pos hb] at hu
          exact Option.some.inj hu ▸ lt_trans (h.forward x b hb) hbz
        · dsimp only at hu
          rw [if_neg hb] at hu
          exact h.forward x y hu
      case isFalse => exact h.forward u y hu
  · rw [if_neg hmem]
    refine ⟨h.length, h.access, h.moved, fun u hu y hy => ?_, h.nodup, h.forward⟩
    rcases h.linked u hu y hy with hlink | ⟨heq, htodo⟩
    · exact .inl hlink
    · refine .inr ⟨heq, (mem_cons.mp htodo).resolve_left ?_⟩
      rintro rfl
      rw [heq] at hy
      exact hmem hy

theorem Redirecting.foldl {todo : List Nat} (hz : (blockAt cfg z).access = true) (hbz : b < z)
    (h : Redirecting b z todo cfg cfg') :
    Redirecting b z [] cfg (todo.foldl (BlockPass.redirect b z) cfg') := by
  induction todo generalizing cfg' with
  | nil => exact h
  | cons x rest ih => exact ih (h.redirect hz hbz)

theorem Inv.deleteCodeBlock (h : Inv (fun _ => False) cfg)
    (haccess : (blockAt cfg b).access = true) (hfollow : (blockAt cfg b).followTo = some z) :
    Inv (fun _ => False) (deleteCodeBlock cfg b) := by
  rw [BlockPass.deleteCodeBlock]
  by_cases hprotected : (blockAt cfg b).isProtected = true
  · rw [if_pos hprotected]
    exact h
  rw [if_neg hprotected, hfollow]
  dsimp only
  have hz : (blockAt cfg z).access = true :=
    (h.links.linked b haccess not_false z (mem_targets.mpr ⟨.follow, hfollow⟩)).1
  have hstart : Redirecting b z (blockAt cfg b).sources cfg cfg := by
    refine ⟨rfl, fun _ => rfl, fun _ => rfl, fun x hx y hy => ?_, h.links.nodup, h.forward⟩
    have hlink := h.links.linked x hx not_false y hy
    by_cases hyb : y = b
    · exact .inr ⟨hyb, hyb ▸ hlink.2⟩
    · exact .inl ⟨hyb, hlink⟩
  have hend := hstart.foldl hz (h.forward b z hfollow)
  generalize (blockAt cfg b).sources.foldl (redirect b z) cfg = cfg₁ at hend
  have hlt : b < cfg₁.length := by
    rw [hend.length]
    exact lt_of_access haccess
  have hat := blockAt_modifyBlock hlt fun block : CodeBlock => { block with access := false }
  have hacc : ∀ c, (blockAt (modifyBlock cfg₁ b fun block =>
      { block with access := false }) c).access = true →
      c ≠ b ∧ (blockAt cfg₁ c).access = true := by
    intro c hc
    rw [hat] at hc
    split at hc
    case isTrue => cases hc
    case isFalse hne => exact ⟨hne, hc⟩
  refine ⟨⟨fun x hx _ y hy => ?_, fun y => ?_⟩, fun x y hxy => ?_, fun x hx => ?_⟩
  · obtain ⟨hxb, hx⟩ := hacc x hx
    rw [hat, if_neg hxb] at hy
    rcases hend.linked x hx y hy with ⟨hyb, hlink⟩ | ⟨-, hnone⟩
    · rw [Linked, hat, if_neg hyb]
      exact hlink
    · exact absurd hnone not_mem_nil
  · rw [modifyBlock_keeps (·.sources)]
    exact hend.nodup y
  · rw [modifyBlock_keeps (·.followTo)] at hxy
    exact hend.forward x y hxy
  · obtain ⟨hxb, hx⟩ := hacc x hx
    rw [hat, if_neg hxb, hend.moved]
    rw [hend.access] at hx
    exact h.inPlace x hx

end Redirecting

/-! Paths through the blocks. -/

section Access

/-- What a walk leaves as it is, and what it adds. -/
structure Visited (cfg cfg' : Cfg) : Prop where
  length : cfg'.length = cfg.length
  block : ∀ c, { blockAt cfg' c with sources := [], access := false } =
    { blockAt cfg c with sources := [], access := false }
  access : ∀ c, (blockAt cfg c).access = true → (blockAt cfg' c).access = true
  sources : ∀ c x, x ∈ (blockAt cfg c).sources → x ∈ (blockAt cfg' c).sources

variable {cfg cfg' cfg'' : Cfg} {b c : Nat}

theorem Visited.refl (cfg : Cfg) : Visited cfg cfg :=
  ⟨rfl, fun _ => rfl, fun _ h => h, fun _ _ h => h⟩

theorem Visited.trans (h : Visited cfg cfg') (h' : Visited cfg' cfg'') : Visited cfg cfg'' :=
  ⟨h'.length.trans h.length, fun c => (h'.block c).trans (h.block c),
    fun c hc => h'.access c (h.access c hc), fun c x hx => h'.sources c x (h.sources c x hx)⟩

theorem Visited.targets (h : Visited cfg cfg') (c : Nat) :
    (blockAt cfg' c).targets = (blockAt cfg c).targets :=
  (congrArg CodeBlock.targets (h.block c) :)

/-- The edges lead to blocks. -/
def InRange (cfg : Cfg) : Prop :=
  ∀ x y, y ∈ (blockAt cfg x).targets → y < cfg.length

theorem Visited.inRange (h : Visited cfg cfg') (hrange : InRange cfg) : InRange cfg' := by
  intro x y hy
  rw [h.targets] at hy
  rw [h.length]
  exact hrange x y hy

theorem Visited.linked (h : Visited cfg cfg') {x y : Nat} (hxy : Linked cfg x y) :
    Linked cfg' x y :=
  ⟨h.access y hxy.1, h.sources y x hxy.2⟩

theorem visited_addSource (cfg : Cfg) (x y : Nat) : Visited cfg (addSource cfg x y) := by
  have hsame := addSource_sourcesOnly cfg x y
  refine ⟨hsame.length, fun c => ?_, fun c hc => (hsame.access c).trans hc,
    fun c u hu => mem_addSource hu⟩
  exact (congrArg (fun block : CodeBlock => { block with sources := [], access := false })
    (hsame.block c) :)

/-- The blocks that no walk has come to. -/
def unvisited (cfg : Cfg) : Finset Nat :=
  (Finset.range cfg.length).filter fun c => (blockAt cfg c).access = false

theorem unvisited_subset (h : Visited cfg cfg') : unvisited cfg' ⊆ unvisited cfg := by
  intro c hc
  rw [unvisited, Finset.mem_filter, h.length] at hc
  rw [unvisited, Finset.mem_filter]
  refine ⟨hc.1, ?_⟩
  cases hacc : (blockAt cfg c).access with
  | false => rfl
  | true =>
    rw [h.access c hacc] at hc
    exact absurd hc.2 (by decide)

/-- A walk along the edges of `b`. -/
theorem walk_edges {n : Nat} {busy : Nat → Prop}
    (ih : ∀ (cfg : Cfg) (c : Nat), InRange cfg → c < cfg.length → Links busy cfg →
      (unvisited cfg).card < n →
      ∃ cfg', zendAccessPath n cfg c = some cfg' ∧ Visited cfg cfg' ∧ Links busy cfg' ∧
        (blockAt cfg' c).access = true)
    (todo : List Nat) (cfg : Cfg) (hrange : InRange cfg)
    (htodo : ∀ c ∈ todo, c < cfg.length) (hlinks : Links busy cfg)
    (hcard : (unvisited cfg).card < n) : ∃ cfg', todo.foldlM (fun cfg tob => do
        let cfg ← zendAccessPath n cfg tob return addSource cfg b tob) cfg = some cfg' ∧
      Visited cfg cfg' ∧ Links busy cfg' ∧ ∀ c ∈ todo, Linked cfg' b c := by
  induction todo generalizing cfg with
  | nil => exact ⟨cfg, rfl, .refl cfg, hlinks, fun c hc => absurd hc not_mem_nil⟩
  | cons c rest ihrest =>
    obtain ⟨cfg₁, hpath, hvisited₁, hlinks₁, haccess⟩ :=
      ih cfg c hrange (htodo c mem_cons_self) hlinks hcard
    have hvisited₂ := hvisited₁.trans (visited_addSource cfg₁ b c)
    obtain ⟨cfg', hrest, hvisited', hlinks', hlinked⟩ :=
      ihrest (addSource cfg₁ b c) (hvisited₂.inRange hrange) (fun d hd => by
          rw [hvisited₂.length]
          exact htodo d (mem_cons_of_mem c hd))
        (hlinks₁.addSource b c)
        (lt_of_le_of_lt (Finset.card_le_card (unvisited_subset hvisited₂)) hcard)
    refine ⟨cfg', ?_, hvisited₂.trans hvisited', hlinks', fun d hd => ?_⟩
    · rw [foldlM_cons, hpath]
      exact hrest
    · rcases mem_cons.mp hd with rfl | hd
      · exact hvisited'.linked (linked_addSource haccess)
      · exact hlinked d hd

theorem visited_modifyBlock (cfg : Cfg) (b : Nat) :
    Visited cfg (modifyBlock cfg b fun block => { block with access := true }) where
  length := length_modifyBlock ..
  block := modifyBlock_keeps (fun block => { block with sources := [], access := false })
  access _ hc := modifyBlock_cases (P := (·.access = true)) hc fun _ _ => rfl
  sources _ x hx := modifyBlock_cases (P := (x ∈ ·.sources)) hx fun _ h => h

/-- A walk comes to an end, and behind it the edges of the blocks it came to have their
sources. -/
theorem zendAccessPath_spec (n : Nat) (busy : Nat → Prop) (cfg : Cfg) (b : Nat)
    (hrange : InRange cfg) (hb : b < cfg.length) (hlinks : Links busy cfg)
    (hcard : (unvisited cfg).card < n) :
    ∃ cfg', zendAccessPath n cfg b = some cfg' ∧ Visited cfg cfg' ∧ Links busy cfg' ∧
      (blockAt cfg' b).access = true := by
  induction n generalizing busy cfg b with
  | zero => exact absurd hcard (Nat.not_lt_zero _)
  | succ n ih =>
    rw [zendAccessPath]
    by_cases haccess : (blockAt cfg b).access = true
    · rw [if_pos haccess]
      exact ⟨cfg, rfl, .refl cfg, hlinks, haccess⟩
    · rw [if_neg haccess]
      have hv := visited_modifyBlock cfg b
      have hat := blockAt_modifyBlock hb fun block : CodeBlock => { block with access := true }
      generalize hcfg₁ : (modifyBlock cfg b fun block => { block with access := true }) = cfg₁
        at hv hat
      have hlinks₁ : Links (fun x => busy x ∨ x = b) cfg₁ := by
        refine ⟨fun x hx hbusy y hy => ?_, fun y => ?_⟩
        · rw [hv.targets] at hy
          rw [hat, if_neg fun h => hbusy (.inr h)] at hx
          exact hv.linked (hlinks.linked x hx (fun h => hbusy (.inl h)) y hy)
        · rw [← hcfg₁, modifyBlock_keeps (·.sources)]
          exact hlinks.nodup y
      have hcard₁ : (unvisited cfg₁).card < n := by
        have hless : (unvisited cfg₁).card < (unvisited cfg).card := by
          refine Finset.card_lt_card (Finset.ssubset_iff_subset_ne.mpr
            ⟨unvisited_subset hv, fun heq => ?_⟩)
          have hmem : b ∈ unvisited cfg := by
            rw [unvisited, Finset.mem_filter, Finset.mem_range]
            exact ⟨hb, Bool.eq_false_iff.mpr haccess⟩
          rw [← heq, unvisited, Finset.mem_filter, hat, if_pos rfl] at hmem
          exact absurd hmem.2 (by simp)
        omega
      obtain ⟨cfg', hwalk, hvisited, hlinks', hlinked⟩ :=
        walk_edges (b := b) (ih _) (blockAt cfg b).targets cfg₁ (hv.inRange hrange)
          (fun c hc => by
            rw [hv.length]
            exact hrange b c hc) hlinks₁ hcard₁
      refine ⟨cfg', hwalk, hv.trans hvisited, ⟨fun x hx hbusy y hy => ?_, hlinks'.nodup⟩, ?_⟩
      · by_cases hxb : x = b
        · rw [hxb, hvisited.targets, hv.targets] at hy
          rw [hxb]
          exact hlinked y hy
        · exact hlinks'.linked x hx (fun h => h.elim hbusy hxb) y hy
      · refine hvisited.access b ?_
        rw [hat, if_pos rfl]

theorem blockAt_unlinked (cfg : Cfg) (c : Nat) :
    blockAt (unlinked cfg) c = { blockAt cfg c with access := false, sources := [] } := by
  rw [unlinked, blockAt, getD_eq_getElem?_getD, getElem?_map, blockAt, getD_eq_getElem?_getD]
  cases cfg[c]? with
  | none | some block => rfl

theorem foldlM_zendAccessPath (roots : List Nat) (n : Nat) (cfg : Cfg)
    (hrange : InRange cfg) (hroots : ∀ c ∈ roots, c < cfg.length)
    (hlinks : Links (fun _ => False) cfg) (hcard : (unvisited cfg).card < n) :
    ∃ cfg', roots.foldlM (zendAccessPath n) cfg = some cfg' ∧ Visited cfg cfg' ∧
      Links (fun _ => False) cfg' := by
  induction roots generalizing cfg with
  | nil => exact ⟨cfg, rfl, .refl cfg, hlinks⟩
  | cons root rest ih =>
    obtain ⟨cfg₁, hpath, hv, hlinks₁, -⟩ :=
      zendAccessPath_spec n _ cfg root hrange (hroots root mem_cons_self) hlinks hcard
    obtain ⟨cfg', hrest, hv', hlinks'⟩ := ih cfg₁ (hv.inRange hrange) (fun c hc => by
        rw [hv.length]
        exact hroots c (mem_cons_of_mem root hc)) hlinks₁
      (lt_of_le_of_lt (Finset.card_le_card (unvisited_subset hv)) hcard)
    refine ⟨cfg', ?_, hv.trans hv', hlinks'⟩
    rw [foldlM_cons, hpath]
    exact hrest

/-- `zend_rebuild_access_path` comes to an end and computes the sources. -/
theorem zendRebuildAccessPath_spec (cfg : Cfg) (roots : List Nat) (findStart : Bool)
    (hrange : InRange cfg) (hroots : ∀ c ∈ roots, c < cfg.length)
    (hstart : (if findStart then cfg.findIdx (·.access) else 0) < cfg.length) :
    ∃ cfg', zendRebuildAccessPath cfg roots findStart = some cfg' ∧
      Visited (unlinked cfg) cfg' ∧ Links (fun _ => False) cfg' := by
  have hlength : (unlinked cfg).length = cfg.length := length_map ..
  refine foldlM_zendAccessPath _ (cfg.length + 1) (unlinked cfg) (fun x y hy => ?_)
    (fun c hc => ?_) ⟨fun x hx => ?_, fun y => ?_⟩ ?_
  · rw [blockAt_unlinked] at hy
    rw [hlength]
    exact hrange x y hy
  · rw [hlength]
    rcases mem_cons.mp hc with rfl | hc
    · exact hstart
    · exact hroots c hc
  · rw [blockAt_unlinked] at hx
    cases hx
  · rw [blockAt_unlinked]
    exact nodup_nil
  · refine Nat.lt_succ_of_le (Finset.card_filter_le _ _ |>.trans ?_)
    rw [Finset.card_range, hlength]

end Access

end BlockPass

end PhpEngine

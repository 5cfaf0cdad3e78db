/-
The sources of the blocks behind the turns of `zend_jmp_optimization`: the edges of the accessed
blocks lead to accessed blocks whose oplines are in place, unless a source is deleted that
another edge of the block needs.
-/
import PhpEngine.JmpOptimization

namespace PhpEngine

open Option

namespace BlockPass

/-! Edges that share a source. -/

/-- Another edge of the block leads where `e` leads. -/
def twin (block : CodeBlock) (e : Edge) : Bool :=
  [Edge.op1, .op2, .ext, .follow].any fun e' =>
    e' ≠ e && (edgeTo block e').isSome && edgeTo block e' = edgeTo block e

/-- Whether the action deletes a source that is still needed: another edge leads to the same
block, or `op2_to` comes back to a block that has lost its access. -/
def splits (cfg : Cfg) (b : Nat) (action : Action) : Bool :=
  (match action.drops with
    | none => false
    | some e => twin (blockAt cfg b) e) ||
  match action, (blockAt cfg b).op2To with
  | .retarget _ t .op2, some y => t = b && y ≠ b && loses cfg b y
  | _, _ => false

section Performing

variable {cfg cfg' : Cfg} {b y z t : Nat} {e e' : Edge} {action : Action} {phase : Phase}

theorem twin_of_edgeTo {block : CodeBlock} (hne : e' ≠ e) (he : edgeTo block e = some y)
    (he' : edgeTo block e' = some y) : twin block e = true := by
  refine List.any_eq_true.mpr ⟨e', by cases e' <;> simp, ?_⟩
  simp [hne, he, he']

theorem twin_of_splits (h : splits cfg b action = false) (hdrop : action.drops = some e) :
    twin (blockAt cfg b) e = false := by
  unfold splits at h
  rw [hdrop, Bool.or_eq_false_iff] at h
  exact h.1

theorem loses_of_splits {op : ZendOp} (h : splits cfg b (.retarget op b .op2) = false)
    (hop2 : (blockAt cfg b).op2To = some y) : b = y ∨ loses cfg b y = false := by
  unfold splits at h
  rw [hop2, Bool.or_eq_false_iff] at h
  by_cases hy : b = y
  · exact .inl hy
  · refine .inr ?_
    simpa [Ne.symm hy] using h.2

theorem nextAccess_spec (h : nextAccess cfg b = some z) :
    b < z ∧ (blockAt cfg z).access = true := by
  have hfound := List.find?_some h
  simp only [Bool.and_eq_true, decide_eq_true_eq] at hfound
  exact hfound

theorem nextTarget_access (h : Inv (fun _ => False) cfg) {n : Nat} {target : ZendOp}
    (hy : (blockAt cfg y).access = true) (htarget : nextTarget cfg n y = some (t, target)) :
    (blockAt cfg t).access = true := by
  induction n generalizing y with
  | zero => exact absurd htarget (by simp [nextTarget])
  | succ n ih =>
    rw [nextTarget] at htarget
    split at htarget
    case isTrue => cases htarget
    case isFalse =>
      split at htarget
      case _ =>
        obtain ⟨rfl, -⟩ := Prod.mk.inj (Option.some.inj htarget)
        exact hy
      case _ =>
        obtain ⟨f, hf, htarget⟩ := bind_eq_some_iff.mp htarget
        exact ih (h.links.linked y hy not_false f (mem_targets.mpr ⟨.follow, hf⟩)).1 htarget

/-- The edges of `b` are as before. -/
theorem Deleted.edge (hd : Deleted b y cfg cfg') (e : Edge) :
    edgeTo (blockAt cfg' b) e = edgeTo (blockAt cfg b) e := by
  have h := congrArg (fun block => edgeTo block e) hd.own
  cases e <;> exact h

theorem Deleted.access (hd : Deleted b y cfg cfg') :
    (blockAt cfg' b).access = (blockAt cfg b).access :=
  (congrArg CodeBlock.access hd.own :)

/-- The source of an edge of an accessed block is deleted. -/
theorem Inv.dropSource (h : Inv (fun _ => False) cfg) (hb : (blockAt cfg b).access = true)
    (hdrop : dropSource cfg b (some e) = some cfg') :
    ∃ y, edgeTo (blockAt cfg b) e = some y ∧ Deleted b y cfg cfg' := by
  obtain ⟨y, he, hdel⟩ := bind_eq_some_iff.mp hdrop
  exact ⟨y, he, delSource_deleted (h.weaken b)
    (h.links.linked b hb not_false y (mem_targets.mpr ⟨e, he⟩)) hdel⟩

/-- The edges of `b` that lead elsewhere keep their sources. -/
theorem Deleted.linked_own (hd : Deleted b y cfg cfg') (h : Inv (fun _ => False) cfg)
    (hb : (blockAt cfg b).access = true) (he : edgeTo (blockAt cfg b) e = some y)
    (htwin : twin (blockAt cfg b) e = false) (hne : e' ≠ e)
    (he' : edgeTo (blockAt cfg b) e' = some z) : Linked cfg' b z := by
  refine hd.linked z ?_ (h.links.linked b hb not_false z (mem_targets.mpr ⟨e', he'⟩))
  rintro rfl
  rw [twin_of_edgeTo hne he he'] at htwin
  cases htwin

/-- What an edge of an accessed block leads to is accessed. -/
theorem Deleted.access_edge (hd : Deleted b y cfg cfg') (h : Inv (fun _ => False) cfg)
    (hy : t = b → edgeTo (blockAt cfg b) e = some y → b = y ∨ loses cfg b y = false)
    (ht : (blockAt cfg t).access = true) (he : edgeTo (blockAt cfg' t) e = some z) :
    (blockAt cfg' z).access = true := by
  by_cases htb : t = b
  · subst htb
    rw [hd.edge] at he
    by_cases hz : z = y
    · subst hz
      exact hd.still (hy rfl he)
    · exact (hd.linked z hz (h.links.linked t ht not_false z (mem_targets.mpr ⟨e, he⟩))).1
  · exact hd.behind t e z htb ht he

end Performing

/-! What a turn keeps. -/

section Turning

variable {cfg cfg' : Cfg} {b : Nat} {op : ZendOp}

section

variable (h : Inv (fun _ => False) cfg) (hb : (blockAt cfg b).access = true)
include h hb

theorem perform_toNext {l : Nat} (hop1 : (blockAt cfg b).op1To = some l)
    (hnext : nextAccess cfg b = some l) (hp : perform cfg b .toNext = some cfg') :
    Inv (fun _ => False) cfg' := by
  cases hp
  have hlt := lt_of_access hb
  have hlink : ∀ e z, edgeTo (blockAt cfg b) e = some z → Linked cfg b z := fun e z he =>
    h.links.linked b hb not_false z (mem_targets.mpr ⟨e, he⟩)
  have hfinish := (h.weaken b).finish hb (f := fun block =>
    { block with opcodes := block.opcodes.dropLast, followTo := block.op1To, op1To := none })
    rfl rfl rfl (fun z hz => by
      obtain rfl := Option.some.inj (hop1.symm.trans hz)
      exact (nextAccess_spec hnext).1) [] fun z hz => by
      obtain ⟨e, he⟩ := mem_targets.mp hz
      cases e with
      | op1 => exact absurd he (by simp [edgeTo])
      | op2 => exact .inl (hlink .op2 z he)
      | ext => exact .inl (hlink .ext z he)
      | follow => exact .inl (hlink .op1 z he)
  split
  case isTrue =>
    refine hfinish.1.deleteCodeBlock hfinish.2 (z := l) ?_
    exact (congrArg CodeBlock.followTo ((blockAt_modifyBlock hlt _ b).trans (if_pos rfl))).trans
      hop1
  case isFalse => exact hfinish.1

theorem perform_become {drop : Option Edge} {moves : Edge → Option Edge}
    (hmoves : ∀ e e', moves e = some e' → drop ≠ some e') (hfollow : ∀ e, moves .follow = some e →
      e = .follow ∨ edgeTo (blockAt cfg b) e = nextAccess cfg b)
    (hsafe : splits cfg b (.become op drop moves) = false)
    (hp : perform cfg b (.become op drop moves) = some cfg') : Inv (fun _ => False) cfg' := by
  obtain ⟨cfg₁, hdrop, hp⟩ := bind_eq_some_iff.mp hp
  cases hp
  have hkept : Inv (· = b) cfg₁ ∧
      { blockAt cfg₁ b with sources := [] } = { blockAt cfg b with sources := [] } ∧
      ∀ e z, drop ≠ some e → edgeTo (blockAt cfg b) e = some z → Linked cfg₁ b z := by
    cases drop with
    | none =>
      cases hdrop
      exact ⟨h.weaken b, rfl, fun e z _ he =>
        h.links.linked b hb not_false z (mem_targets.mpr ⟨e, he⟩)⟩
    | some e =>
      obtain ⟨y, he, hd⟩ := h.dropSource hb hdrop
      exact ⟨hd.inv, hd.own, fun e' z hne he' =>
        hd.linked_own h hb he (twin_of_splits hsafe rfl)
          (fun heq => hne (congrArg some heq.symm)) he'⟩
  obtain ⟨hinv, hown, hlinked⟩ := hkept
  have hedge : ∀ e, edgeTo (blockAt cfg₁ b) e = edgeTo (blockAt cfg b) e := by
    intro e
    have heq := congrArg (fun block => edgeTo block e) hown
    cases e <;> exact heq
  have hmoved : ∀ e z, (moves e).bind (edgeTo (blockAt cfg₁ b)) = some z →
      ∃ e', moves e = some e' ∧ edgeTo (blockAt cfg b) e' = some z := by
    intro e z hz
    obtain ⟨e', he', hz⟩ := bind_eq_some_iff.mp hz
    exact ⟨e', he', (hedge e').symm.trans hz⟩
  refine (hinv.finish ((congrArg CodeBlock.access hown).trans hb)
    (f := fun block => rearrange moves (setLast op block)) rfl rfl rfl (fun z hz => ?_) []
    fun z hz => .inl ?_).1
  · obtain ⟨e, he, hz⟩ := hmoved .follow z hz
    rcases hfollow e he with rfl | hnext
    · exact h.forward b z hz
    · exact (nextAccess_spec (hnext.symm.trans hz)).1
  · obtain ⟨e, he⟩ := mem_targets.mp hz
    have hz : (moves e).bind (edgeTo (blockAt cfg₁ b)) = some z := by
      cases e <;> exact he
    obtain ⟨e', he', hz⟩ := hmoved e z hz
    exact hlinked e' z (hmoves e e' he') hz

theorem perform_copyTarget (hsafe : splits cfg b (.copyTarget op) = false)
    (hp : perform cfg b (.copyTarget op) = some cfg') : Inv (fun _ => False) cfg' := by
  obtain ⟨cfg₁, hdrop, hp⟩ := bind_eq_some_iff.mp hp
  obtain ⟨l, hop1, hp⟩ := bind_eq_some_iff.mp hp
  cases hp
  obtain ⟨y, he, hd⟩ := h.dropSource hb hdrop
  obtain rfl : l = y := Option.some.inj (hop1.symm.trans he)
  have htwin := twin_of_splits hsafe rfl
  have hl : (blockAt cfg l).access = true :=
    (h.links.linked b hb not_false l (mem_targets.mpr ⟨.op1, hop1⟩)).1
  have htarget : ∀ e z, edgeTo (blockAt cfg₁ l) e = some z → (blockAt cfg₁ z).access = true :=
    fun e z hz => hd.access_edge h (fun hlb _ => .inl hlb.symm) hl hz
  have hown : ∀ e z, e ≠ .op1 → edgeTo (blockAt cfg₁ b) e = some z → Linked cfg₁ b z :=
    fun e z hne hz => hd.linked_own h hb he htwin hne ((hd.edge e).symm.trans hz)
  refine (hd.inv.finish (hd.access.trans hb) (f := fun block =>
    { setLast op block with
      op1To := (blockAt cfg₁ l).op1To, op2To := (blockAt cfg₁ l).op2To.or block.op2To,
      extTo := (blockAt cfg₁ l).extTo.or block.extTo }) rfl rfl rfl
    (fun z hz => hd.inv.forward b z hz) _ fun z hz => ?_).1
  obtain ⟨e, he⟩ := mem_targets.mp hz
  cases e with
  | op1 =>
    have he : (blockAt cfg₁ l).op1To = some z := he
    exact .inr ⟨by simp [he], htarget .op1 z he⟩
  | op2 =>
    rcases or_eq_some_iff.mp he with he | ⟨-, he⟩
    · exact .inr ⟨by simp [he], htarget .op2 z he⟩
    · exact .inl (hown .op2 z (by decide) he)
  | ext =>
    rcases or_eq_some_iff.mp he with he | ⟨-, he⟩
    · exact .inr ⟨by simp [he], htarget .ext z he⟩
    · exact .inl (hown .ext z (by decide) he)
  | follow => exact .inl (hown .follow z (by decide) he)

theorem perform_retarget {t₀ t n : Nat} {e : Edge} {target : ZendOp}
    (hop2 : (blockAt cfg b).op2To = some t₀) (htarget : nextTarget cfg n t₀ = some (t, target))
    (hsafe : splits cfg b (.retarget op t e) = false)
    (hp : perform cfg b (.retarget op t e) = some cfg') :
    Inv (fun _ => False) cfg' ∧ (blockAt cfg' b).access = true := by
  obtain ⟨cfg₁, hdrop, hp⟩ := bind_eq_some_iff.mp hp
  obtain ⟨z, hz, hp⟩ := bind_eq_some_iff.mp hp
  cases hp
  obtain ⟨y, he, hd⟩ := h.dropSource hb hdrop
  obtain rfl : t₀ = y := Option.some.inj (hop2.symm.trans he)
  have htwin := twin_of_splits hsafe rfl
  have ht : (blockAt cfg t).access = true := nextTarget_access h
    (h.links.linked b hb not_false t₀ (mem_targets.mpr ⟨.op2, hop2⟩)).1 htarget
  have hzaccess : (blockAt cfg₁ z).access = true := by
    refine hd.access_edge h (fun htb het => ?_) ht hz
    have he₂ : e = .op2 := by
      by_contra hne
      rw [twin_of_edgeTo hne hop2 het] at htwin
      cases htwin
    rw [he₂, htb] at hsafe
    exact loses_of_splits hsafe hop2
  refine hd.inv.finish (hd.access.trans hb) (f := fun block =>
    { setLast op block with op2To := some z }) rfl rfl rfl
    (fun z hz => hd.inv.forward b z hz) [z] fun w hw => ?_
  obtain ⟨e', he'⟩ := mem_targets.mp hw
  have hown : ∀ e z, e ≠ .op2 → edgeTo (blockAt cfg₁ b) e = some z → Linked cfg₁ b z :=
    fun e z hne hz => hd.linked_own h hb he htwin hne ((hd.edge e).symm.trans hz)
  cases e' with
  | op1 => exact .inl (hown .op1 w (by decide) he')
  | op2 =>
    cases he'
    exact .inr ⟨List.mem_singleton_self z, hzaccess⟩
  | ext => exact .inl (hown .ext w (by decide) he')
  | follow => exact .inl (hown .follow w (by decide) he')

theorem perform_passBlock (hsafe : splits cfg b .passBlock = false)
    (hp : perform cfg b .passBlock = some cfg') :
    Inv (fun _ => False) cfg' ∧ (blockAt cfg' b).access = true := by
  obtain ⟨cfg₁, hdrop, hp⟩ := bind_eq_some_iff.mp hp
  obtain ⟨f, hfollow, hp⟩ := bind_eq_some_iff.mp hp
  obtain ⟨z, hz, hp⟩ := bind_eq_some_iff.mp hp
  cases hp
  obtain ⟨y, he, hd⟩ := h.dropSource hb hdrop
  have htwin := twin_of_splits hsafe rfl
  have hbf := h.forward b f hfollow
  have hf : (blockAt cfg f).access = true :=
    (h.links.linked b hb not_false f (mem_targets.mpr ⟨.follow, hfollow⟩)).1
  have hzaccess : (blockAt cfg₁ z).access = true :=
    hd.behind f .follow z (ne_of_gt hbf) hf hz
  refine hd.inv.finish (hd.access.trans hb) (f := fun block => { block with followTo := some z })
    rfl rfl rfl (fun w hw => ?_) [z] fun w hw => ?_
  · cases hw
    exact lt_trans hbf (hd.inv.forward f z hz)
  · obtain ⟨e', he'⟩ := mem_targets.mp hw
    have hown : ∀ e z, e ≠ .follow → edgeTo (blockAt cfg₁ b) e = some z → Linked cfg₁ b z :=
      fun e z hne hz => hd.linked_own h hb he htwin hne ((hd.edge e).symm.trans hz)
    cases e' with
    | op1 => exact .inl (hown .op1 w (by decide) he')
    | op2 => exact .inl (hown .op2 w (by decide) he')
    | ext => exact .inl (hown .ext w (by decide) he')
    | follow =>
      cases he'
      exact .inr ⟨List.mem_singleton_self z, hzaccess⟩

theorem perform_joinJmp (hsafe : splits cfg b (.joinJmp op) = false)
    (hp : perform cfg b (.joinJmp op) = some cfg') :
    Inv (fun _ => False) cfg' := by
  obtain ⟨cfg₁, hdrop, hp⟩ := bind_eq_some_iff.mp hp
  obtain ⟨f, hfollow, hp⟩ := bind_eq_some_iff.mp hp
  obtain ⟨z, hz, hp⟩ := bind_eq_some_iff.mp hp
  cases hp
  obtain ⟨y, he, hd⟩ := h.dropSource hb hdrop
  have htwin := twin_of_splits hsafe rfl
  have hf : (blockAt cfg f).access = true :=
    (h.links.linked b hb not_false f (mem_targets.mpr ⟨.follow, hfollow⟩)).1
  have hzaccess : (blockAt cfg₁ z).access = true :=
    hd.behind f .op1 z (ne_of_gt (h.forward b f hfollow)) hf hz
  have hown : ∀ e z, e ≠ .follow → edgeTo (blockAt cfg₁ b) e = some z → Linked cfg₁ b z :=
    fun e z hne hz => hd.linked_own h hb he htwin hne ((hd.edge e).symm.trans hz)
  by_cases hop : op.opcode = .jmpz
  · simp only [if_pos hop]
    refine (hd.inv.finish (hd.access.trans hb) (f := fun old =>
      { setLast { op with opcode := .jmpznz } old with extTo := some z, followTo := none })
      rfl rfl rfl (fun w hw => absurd hw (by simp)) [z] fun w hw => ?_).1
    obtain ⟨e', he'⟩ := mem_targets.mp hw
    cases e' with
    | op1 => exact .inl (hown .op1 w (by decide) he')
    | op2 => exact .inl (hown .op2 w (by decide) he')
    | ext =>
      cases he'
      exact .inr ⟨List.mem_singleton_self z, hzaccess⟩
    | follow => exact absurd he' (by simp [edgeTo])
  · simp only [if_neg hop]
    refine (hd.inv.finish (hd.access.trans hb) (f := fun old =>
      { setLast { op with opcode := .jmpznz } old with
        extTo := old.op2To, op2To := some z, followTo := none })
      rfl rfl rfl (fun w hw => absurd hw (by simp)) [z] fun w hw => ?_).1
    obtain ⟨e', he'⟩ := mem_targets.mp hw
    cases e' with
    | op1 => exact .inl (hown .op1 w (by decide) he')
    | op2 =>
      cases he'
      exact .inr ⟨List.mem_singleton_self z, hzaccess⟩
    | ext => exact .inl (hown .op2 w (by decide) he')
    | follow => exact absurd he' (by simp [edgeTo])

/-- A turn that deletes no source that is still needed keeps the links. -/
theorem perform_inv {action : Action} {phase : Phase} (hplanned : Planned cfg b action phase)
    (hsafe : splits cfg b action = false) (hp : perform cfg b action = some cfg') :
    Inv (fun _ => False) cfg' ∧ (phase ≠ .done → (blockAt cfg' b).access = true) := by
  cases hplanned with
  | stay =>
    cases hp
    exact ⟨h, fun _ => hb⟩
  | toNext hop1 hnext => exact ⟨perform_toNext h hb hop1 hnext hp, fun hne => absurd rfl hne⟩
  | copyTarget => exact ⟨perform_copyTarget h hb hsafe hp, fun hne => absurd rfl hne⟩
  | become hmoves hfollow =>
    exact ⟨perform_become h hb hmoves hfollow hsafe hp, fun hne => absurd rfl hne⟩
  | retarget _ hop2 htarget =>
    obtain ⟨hinv, hb'⟩ := perform_retarget h hb hop2 htarget hsafe hp
    exact ⟨hinv, fun _ => hb'⟩
  | passBlock =>
    obtain ⟨hinv, hb'⟩ := perform_passBlock h hb hsafe hp
    exact ⟨hinv, fun _ => hb'⟩
  | joinJmp => exact ⟨perform_joinJmp h hb hsafe hp, fun hne => absurd rfl hne⟩

end

end Turning

/-! Runs. -/

/-- The edges of the blocks that are accessed and not `busy` lead to blocks that are accessed and
have their oplines. -/
def EdgesSound (busy : Nat → Prop) (cfg : Cfg) : Prop :=
  ∀ x, (blockAt cfg x).access = true → ¬busy x → ∀ y ∈ (blockAt cfg x).targets,
    (blockAt cfg y).access = true ∧ (blockAt cfg y).moved = false

/-- The blocks and the call that runs, behind calls for accessed blocks in any order whose turns
are all `allowed`. -/
inductive Reached (isTrue : Nat → Bool) (allowed : Cfg → Nat → Action → Prop) (cfg₁ : Cfg) :
    Cfg → Option (Nat × Phase) → Prop
  | start : Reached isTrue allowed cfg₁ cfg₁ none
  | call {cfg : Cfg} {b : Nat} (h : Reached isTrue allowed cfg₁ cfg none)
      (haccess : (blockAt cfg b).access = true) :
      Reached isTrue allowed cfg₁ cfg (some (b, .start))
  | turn {cfg cfg' : Cfg} {b : Nat} {phase phase' : Phase} {action : Action}
      (h : Reached isTrue allowed cfg₁ cfg (some (b, phase)))
      (hplan : plan isTrue cfg b phase = some (action, phase')) (hallowed : allowed cfg b action)
      (hperform : perform cfg b action = some cfg') :
      Reached isTrue allowed cfg₁ cfg' (some (b, phase'))
  | back {cfg : Cfg} {b : Nat} (h : Reached isTrue allowed cfg₁ cfg (some (b, .done))) :
      Reached isTrue allowed cfg₁ cfg none

/-- The blocks as `find_code_blocks` leaves them: the pointers lead to blocks, and a block is
followed by a later one. -/
structure WellFormed (cfg : Cfg) (roots : List Nat) (findStart : Bool) : Prop where
  inRange : ∀ x y, y ∈ (blockAt cfg x).targets → y < cfg.length
  forward : ∀ x y, (blockAt cfg x).followTo = some y → x < y
  roots : ∀ c ∈ roots, c < cfg.length
  start : (if findStart then cfg.findIdx (·.access) else 0) < cfg.length

section Running

variable {isTrue : Nat → Bool} {allowed : Cfg → Nat → Action → Prop} {cfg cfg' cfg₀ cfg₁ : Cfg}
  {b : Nat} {roots : List Nat} {findStart : Bool} {call : Option (Nat × Phase)}

theorem Inv.edgesSound {busy : Nat → Prop} (h : Inv busy cfg) : EdgesSound busy cfg := by
  intro x hx hbusy y hy
  have hlink := h.links.linked x hx hbusy y hy
  exact ⟨hlink.1, h.inPlace y hlink.1⟩

/-- The sources that `zend_rebuild_access_path` computes are those of the edges. -/
theorem inv_zendRebuildAccessPath (hwf : WellFormed cfg₀ roots findStart)
    (hrebuild : zendRebuildAccessPath cfg₀ roots findStart = some cfg₁)
    (hplace : ∀ x, (blockAt cfg₁ x).access = true → (blockAt cfg₁ x).moved = false) :
    Inv (fun _ => False) cfg₁ := by
  obtain ⟨cfg', hspec, hvisited, hlinks⟩ :=
    zendRebuildAccessPath_spec cfg₀ roots findStart hwf.inRange hwf.roots hwf.start
  obtain rfl := Option.some.inj (hrebuild.symm.trans hspec)
  refine ⟨hlinks, fun x y hxy => hwf.forward x y ?_, hplace⟩
  have hblock := congrArg CodeBlock.followTo (hvisited.block x)
  rw [blockAt_unlinked] at hblock
  exact hblock.symm.trans hxy

/-- The call that runs is for an accessed block up to its end. -/
theorem Reached.inv (h : Reached isTrue (fun cfg b action => splits cfg b action = false) cfg₁ cfg
      call) (hstart : Inv (fun _ => False) cfg₁) :
    Inv (fun _ => False) cfg ∧ ∀ b phase, call = some (b, phase) → phase ≠ .done →
      (blockAt cfg b).access = true := by
  induction h with
  | start => exact ⟨hstart, fun b phase hcall => absurd hcall (by simp)⟩
  | call _ haccess ih =>
    refine ⟨ih.1, fun b phase hcall _ => ?_⟩
    cases hcall
    exact haccess
  | @turn cfg cfg' b phase phase' action _ hplan hsafe hperform ih =>
    have hphase : phase ≠ .done := by
      rintro rfl
      exact absurd hplan (by simp [plan])
    obtain ⟨hinv, haccess⟩ :=
      perform_inv ih.1 (ih.2 b phase rfl hphase) (plan_planned hplan) hsafe hperform
    refine ⟨hinv, fun b' phase'' hcall hne => ?_⟩
    cases hcall
    exact haccess hne
  | back _ ih => exact ⟨ih.1, fun b phase hcall => absurd hcall (by simp)⟩

/-- A call of `zend_jmp_optimization` is a run of turns. -/
theorem Reached.zendJmpOptimization {n : Nat} {phase : Phase}
    (h : Reached isTrue (fun _ _ _ => True) cfg₁ cfg (some (b, phase)))
    (hrun : zendJmpOptimization isTrue b n phase cfg = some cfg') :
    Reached isTrue (fun _ _ _ => True) cfg₁ cfg' none := by
  induction n generalizing cfg phase with
  | zero =>
    cases phase with
    | done =>
      cases hrun
      exact h.back
    | start | follow => exact absurd hrun (by simp [BlockPass.zendJmpOptimization])
  | succ n ih =>
    have hstep : (BlockPass.turn isTrue cfg b phase).bind (fun out =>
          BlockPass.zendJmpOptimization isTrue b n out.2 out.1) = some cfg' →
        Reached isTrue (fun _ _ _ => True) cfg₁ cfg' none := by
      intro hrun
      obtain ⟨⟨cfg₂, phase₂⟩, hturn, hrun⟩ := bind_eq_some_iff.mp hrun
      obtain ⟨⟨action, phase'⟩, hplan, hturn⟩ := bind_eq_some_iff.mp hturn
      obtain ⟨cfg'', hperform, hturn⟩ := bind_eq_some_iff.mp hturn
      cases hturn
      exact ih (h.turn hplan trivial hperform) hrun
    cases phase with
    | done =>
      cases hrun
      exact h.back
    | start | follow => exact hstep hrun

theorem WellFormed.of_forall
    (hblocks : ∀ x < cfg.length, (∀ y ∈ (blockAt cfg x).targets, y < cfg.length) ∧
      ∀ y ∈ (blockAt cfg x).followTo, x < y) (hroots : ∀ c ∈ roots, c < cfg.length)
    (hstart : (if findStart then cfg.findIdx (·.access) else 0) < cfg.length) :
    WellFormed cfg roots findStart := by
  refine ⟨fun x y hy => ?_, fun x y hy => ?_, hroots, hstart⟩
  · by_cases hx : x < cfg.length
    · exact (hblocks x hx).1 y hy
    · rw [blockAt_outside (Nat.le_of_not_lt hx)] at hy
      exact absurd (show y ∈ [] from hy) List.not_mem_nil
  · by_cases hx : x < cfg.length
    · exact (hblocks x hx).2 y hy
    · rw [blockAt_outside (Nat.le_of_not_lt hx)] at hy
      exact absurd hy (by simp [CodeBlock.outside])

theorem moved_of_forall (h : ∀ x < cfg.length, (blockAt cfg x).moved = false) (x : Nat) :
    (blockAt cfg x).moved = false := by
  by_cases hx : x < cfg.length
  · exact h x hx
  · rw [blockAt_outside (Nat.le_of_not_lt hx)]
    rfl

/-- In a run that deletes no source another edge needs, no edge ever leads to a block that is not
accessed or has lost its oplines, and behind `del_source` this already holds of the other
blocks. -/
theorem reached_edgesSound (hwf : WellFormed cfg₀ roots findStart)
    (hrebuild : zendRebuildAccessPath cfg₀ roots findStart = some cfg₁)
    (hplace : ∀ x, (blockAt cfg₁ x).access = true → (blockAt cfg₁ x).moved = false)
    (h : Reached isTrue (fun cfg b action => splits cfg b action = false) cfg₁ cfg call) :
    EdgesSound (fun _ => False) cfg ∧ ∀ b phase action phase' cfg', call = some (b, phase) →
        plan isTrue cfg b phase = some (action, phase') →
        dropSource cfg b action.drops = some cfg' → EdgesSound (· = b) cfg' := by
  obtain ⟨hinv, haccess⟩ := h.inv (inv_zendRebuildAccessPath hwf hrebuild hplace)
  refine ⟨hinv.edgesSound, fun b phase action phase' cfg' hcall hplan hdrop => ?_⟩
  have hphase : phase ≠ .done := by
    rintro rfl
    exact absurd hplan (by simp [plan])
  cases hdrops : action.drops with
  | none =>
    rw [hdrops] at hdrop
    cases hdrop
    exact (hinv.weaken b).edgesSound
  | some e =>
    rw [hdrops] at hdrop
    obtain ⟨y, -, hd⟩ := hinv.dropSource (haccess b phase hcall hphase) hdrop
    exact hd.inv.edgesSound

end Running

/-- `JMPZ true, 2`; `ECHO`; `RETURN`, with the sources of the last two -/
def joinedCfg (sources₁ sources₂ : List Nat) : Cfg :=
  [{ access := true, opcodes := [⟨.jmpz, ⟨.const, 0, false⟩, .none, .none, 0⟩], op2To := some 2,
     followTo := some 1 },
    { access := true, opcodes := [⟨.echo, ⟨.const, 1, false⟩, .none, .none, 0⟩],
      followTo := some 2, sources := sources₁ },
    { access := true, opcodes := [⟨.returnOp, ⟨.const, 2, false⟩, .none, .none, 0⟩],
      sources := sources₂ }]

/-- The jump is never made: the last two blocks are joined. -/
theorem reached_edgesSound_joined :
    ∃ action cfg, plan (fun _ => true) (joinedCfg [0] [1, 0]) 0 .start = some (action, .done) ∧
      perform (joinedCfg [0] [1, 0]) 0 action = some cfg ∧ (blockAt cfg 2).moved = true ∧
      EdgesSound (fun _ => False) cfg := by
  refine ⟨_, _, rfl, rfl, by decide, ?_⟩
  have hplace : ∀ x, (blockAt (joinedCfg [0] [1, 0]) x).moved = false :=
    moved_of_forall (by decide)
  have hwf : WellFormed (joinedCfg [] []) [] false :=
    .of_forall (by decide) (by decide) (by decide)
  have hturn : Reached (fun _ => true) (fun cfg b action => splits cfg b action = false)
      (joinedCfg [0] [1, 0]) _ _ := (Reached.start.call (b := 0) rfl).turn rfl rfl rfl
  exact (reached_edgesSound hwf (by decide) (fun x _ => hplace x) hturn).1

/-- `JMPZ $a, 2`; `JMPZNZ true, 3, 3`; `ECHO`; `RETURN`, with the sources of the last three -/
def parallelCfg (sources₁ sources₂ sources₃ : List Nat) : Cfg :=
  [{ access := true, opcodes := [⟨.jmpz, ⟨.cv, 0, false⟩, .none, .none, 0⟩], op2To := some 2,
     followTo := some 1 },
    { access := true, opcodes := [⟨.jmpznz, ⟨.const, 0, false⟩, .none, .none, 0⟩],
      op2To := some 3, extTo := some 3, sources := sources₁ },
    { access := true, opcodes := [⟨.echo, ⟨.const, 1, false⟩, .none, .none, 0⟩],
      followTo := some 3, sources := sources₂ },
    { access := true, opcodes := [⟨.returnOp, ⟨.const, 2, false⟩, .none, .none, 0⟩],
      sources := sources₃ }]

/-- The source of both edges of the second block is deleted with one of them, and the block that
the other one leads to is joined with the third. -/
theorem zendJmpOptimization_parallel : WellFormed (parallelCfg [] [] []) [] false ∧
      zendRebuildAccessPath (parallelCfg [] [] []) [] false = some (parallelCfg [0] [0] [1, 2]) ∧
      (∀ x, (blockAt (parallelCfg [0] [0] [1, 2]) x).moved = false) ∧
      ∃ cfg, Reached (fun _ => true) (fun _ _ _ => True) (parallelCfg [0] [0] [1, 2]) cfg none ∧
        (blockAt cfg 1).access = true ∧ (blockAt cfg 1).op1To = some 3 ∧
        (blockAt cfg 3).moved = true :=
  ⟨.of_forall (by decide) (by decide) (by decide), by decide, moved_of_forall (by decide), _,
    (((Reached.start.call (b := 0) rfl).zendJmpOptimization (n := 3) rfl).call
      (b := 1) rfl).zendJmpOptimization (n := 2) rfl,
    by decide, by decide, by decide⟩

end BlockPass

end PhpEngine

/-
Machines with silent steps.  A machine that takes some of them at once
performs the same actions.
-/
import Mathlib.Tactic.ByContra
import Mathlib.Data.Nat.Init

namespace PhpEngine

section Steps

variable {α : Type}

def steps (f : α → Option α) : Nat → α → Option α
  | 0, p => some p
  | n + 1, p => (f p).bind (steps f n)

def RunsTo (f : α → Option α) (p q : α) : Prop :=
  ∃ n, steps f n p = some q

variable {f g : α → Option α} {p q r : α}

theorem RunsTo.refl (p : α) : RunsTo f p p :=
  ⟨0, rfl⟩

theorem steps_add (m n : Nat) (p : α) : steps f (m + n) p = (steps f m p).bind (steps f n) := by
  induction m generalizing p with
  | zero => rw [Nat.zero_add]; rfl
  | succ m ih =>
    rw [Nat.succ_add, steps, steps]
    cases f p with
    | none => rfl
    | some q => exact ih q

theorem RunsTo.trans (h : RunsTo f p q) (h' : RunsTo f q r) : RunsTo f p r := by
  obtain ⟨m, hm⟩ := h
  obtain ⟨n, hn⟩ := h'
  refine ⟨m + n, ?_⟩
  rw [steps_add, hm]
  exact hn

/-- Steps that `g` has as well. -/
theorem steps_mono (h : ∀ p q, f p = some q → g p = some q) {n : Nat}
    (hsteps : steps f n p = some q) : steps g n p = some q := by
  induction n generalizing p with
  | zero => exact hsteps
  | succ n ih =>
    obtain ⟨r, hr, hrest⟩ := Option.bind_eq_some_iff.mp hsteps
    rw [steps, h p r hr]
    exact ih hrest

/-- Every step of `g` is one or more of `f`, and `g` stops only where `f`
does. -/
structure ShortcutOf (f g : α → Option α) : Prop where
  stop : ∀ p, g p = none → f p = none
  step : ∀ p q, g p = some q → ∃ n, steps f (n + 1) p = some q

theorem ShortcutOf.refl (f : α → Option α) : ShortcutOf f f where
  stop _ h := h
  step p q h := ⟨0, by rw [steps, h]; rfl⟩

theorem ShortcutOf.stop_iff (h : ShortcutOf f g) (p : α) : g p = none ↔ f p = none := by
  refine ⟨h.stop p, ?_⟩
  intro hf
  by_contra hg
  obtain ⟨q, hq⟩ := Option.ne_none_iff_exists'.mp hg
  obtain ⟨n, hn⟩ := h.step p q hq
  rw [steps, hf] at hn
  cases hn

theorem ShortcutOf.runsTo (h : ShortcutOf f g) (hg : RunsTo g p q) : RunsTo f p q := by
  obtain ⟨n, hn⟩ := hg
  induction n generalizing p with
  | zero => exact ⟨0, hn⟩
  | succ n ih =>
    obtain ⟨r, hr, hrest⟩ := Option.bind_eq_some_iff.mp hn
    obtain ⟨k, hk⟩ := h.step p r hr
    exact RunsTo.trans ⟨k + 1, hk⟩ (ih hrest)

/-- A run to a place where it stops passes every place that it reaches. -/
theorem steps_sub {m n : Nat} (hm : steps f m p = some q)
    (hq : f q = none) (hn : steps f n p = some r) : n ≤ m ∧ steps f (m - n) r = some q := by
  induction n generalizing m p with
  | zero =>
    cases hn
    exact ⟨Nat.zero_le m, hm⟩
  | succ n ih =>
    obtain ⟨p', hp', hrest⟩ := Option.bind_eq_some_iff.mp hn
    cases m with
    | zero =>
      cases hm
      rw [hq] at hp'
      cases hp'
    | succ m =>
      rw [steps, hp'] at hm
      obtain ⟨hle, hrun⟩ := ih hm hrest
      exact ⟨Nat.succ_le_succ hle, by rwa [Nat.succ_sub_succ]⟩

theorem ShortcutOf.runsTo_iff (h : ShortcutOf f g) (hq : f q = none) :
    RunsTo g p q ↔ RunsTo f p q := by
  refine ⟨h.runsTo, ?_⟩
  rintro ⟨m, hm⟩
  induction m using Nat.strong_induction_on generalizing p with
  | h m ih =>
    cases hg : g p with
    | none =>
      have hp := h.stop p hg
      cases m with
      | zero => exact ⟨0, hm⟩
      | succ m =>
        rw [steps, hp] at hm
        cases hm
    | some r =>
      obtain ⟨k, hk⟩ := h.step p r hg
      obtain ⟨hle, hrun⟩ := steps_sub hm hq hk
      obtain ⟨n, hn⟩ := ih (m - (k + 1)) (by omega) hrun
      exact ⟨n + 1, by rw [steps, hg]; exact hn⟩

end Steps

/-- A machine at a place of type `α` in a state of type `σ`: it goes on
silently, or performs an action, after which it goes on or leaves. -/
structure SilentMachine (σ α ε : Type) where
  silent : σ → α → Option α
  act : σ → α → Option (ε × Option (σ × α))

namespace SilentMachine

variable {σ α ε : Type}

/-- The first actions that are performed from a place. -/
inductive Performs (M : SilentMachine σ α ε) : σ → α → List ε → Prop
  | nil (s : σ) (p : α) : Performs M s p []
  | leave {s : σ} {p q : α} {e : ε} (hreach : RunsTo (M.silent s) p q)
      (hstop : M.silent s q = none) (hact : M.act s q = some (e, none)) :
      Performs M s p [e]
  | cons {s s' : σ} {p p' q : α} {e : ε} {l : List ε}
      (hreach : RunsTo (M.silent s) p q) (hstop : M.silent s q = none)
      (hact : M.act s q = some (e, some (s', p')))
      (hrest : Performs M s' p' l) : Performs M s p (e :: l)

theorem Performs.head {M : SilentMachine σ α ε} {s : σ} {p : α} {e e' : ε}
    {l : List ε} {next : Option (σ × α)} (h : M.Performs s p (e :: l))
    (hstop : M.silent s p = none) (hact : M.act s p = some (e', next)) : e = e' := by
  have hsame : ∀ {q}, RunsTo (M.silent s) p q → q = p := by
    rintro q ⟨n, hn⟩
    cases n with
    | zero => exact (Option.some.inj hn).symm
    | succ n =>
      rw [steps, hstop] at hn
      cases hn
  cases h with
  | leave hreach _ hact' =>
    rw [hsame hreach, hact] at hact'
    exact (Prod.mk.inj (Option.some.inj hact')).1.symm
  | cons hreach _ hact' _ =>
    rw [hsame hreach, hact] at hact'
    exact (Prod.mk.inj (Option.some.inj hact')).1.symm

/-- Two machines that act alike, one of which takes shortcuts. -/
theorem performs_iff {M N : SilentMachine σ α ε}
    (hsilent : ∀ s, ShortcutOf (M.silent s) (N.silent s))
    (hact : ∀ s q, M.silent s q = none → N.act s q = M.act s q)
    (s : σ) (p : α) (l : List ε) : N.Performs s p l ↔ M.Performs s p l := by
  constructor
  · intro h
    induction h with
    | nil s p => exact .nil s p
    | leave hreach hstop hdo =>
      have hstop' := (hsilent _).stop _ hstop
      exact .leave ((hsilent _).runsTo hreach) hstop' ((hact _ _ hstop').symm.trans hdo)
    | cons hreach hstop hdo _ ih =>
      have hstop' := (hsilent _).stop _ hstop
      exact .cons ((hsilent _).runsTo hreach) hstop' ((hact _ _ hstop').symm.trans hdo) ih
  · intro h
    induction h with
    | nil s p => exact .nil s p
    | leave hreach hstop hdo =>
      exact .leave (((hsilent _).runsTo_iff hstop).mpr hreach)
        (((hsilent _).stop_iff _).mpr hstop) ((hact _ _ hstop).trans hdo)
    | cons hreach hstop hdo _ ih =>
      exact .cons (((hsilent _).runsTo_iff hstop).mpr hreach)
        (((hsilent _).stop_iff _).mpr hstop) ((hact _ _ hstop).trans hdo) ih

end SilentMachine

end PhpEngine

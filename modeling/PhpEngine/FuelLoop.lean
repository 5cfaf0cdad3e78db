/-
Loops with fuel: a turn ends the loop or goes on from another state, and which of the two it does
is independent of the fuel that is left.
-/
import Mathlib.Order.Basic

namespace PhpEngine

namespace FuelLoop

variable {σ ρ : Type}

/-- Without fuel there is no result; a turn ends with a result that `Stops` tells, or goes on from
a state that `GoesOn` tells. -/
structure IsLoop (run : Nat → σ → Option ρ) (Stops : σ → ρ → Prop) (GoesOn : σ → σ → Prop) :
    Prop where
  zero : ∀ s, run 0 s = none
  turn : ∀ s, (∃ r, Stops s r ∧ ∀ fuel, run (fuel + 1) s = some r) ∨
    ∃ s', GoesOn s s' ∧ ∀ fuel, run (fuel + 1) s = run fuel s'

variable {run : Nat → σ → Option ρ} {Stops : σ → ρ → Prop} {GoesOn : σ → σ → Prop} {fuel : Nat}
  {s : σ} {r : ρ}

theorem IsLoop.succ (h : IsLoop run Stops GoesOn) (hrun : run fuel s = some r) :
    run (fuel + 1) s = some r := by
  induction fuel generalizing s with
  | zero =>
    rw [h.zero] at hrun
    cases hrun
  | succ fuel ih =>
    rcases h.turn s with ⟨r', -, hstop⟩ | ⟨s', -, hon⟩
    · rw [hstop] at hrun ⊢
      exact hrun
    · rw [hon] at hrun ⊢
      exact ih hrun

/-- What is true of the last turn and is carried back over the others is true of the loop. -/
theorem IsLoop.result {Q : σ → ρ → Prop} (h : IsLoop run Stops GoesOn)
    (hstop : ∀ s r, Stops s r → Q s r) (hon : ∀ s s' r, GoesOn s s' → Q s' r → Q s r)
    (hrun : run fuel s = some r) : Q s r := by
  induction fuel generalizing s with
  | zero =>
    rw [h.zero] at hrun
    cases hrun
  | succ fuel ih =>
    rcases h.turn s with ⟨r', hs, hend⟩ | ⟨s', hs, hend⟩
    · rw [hend] at hrun
      exact Option.some.inj hrun ▸ hstop s r' hs
    · rw [hend] at hrun
      exact hon s s' r hs (ih hrun)

/-- A loop ends whose states grow, as `g` measures them, up to a bound. -/
theorem IsLoop.ends {I : σ → Prop} {g : σ → Nat} {bound : Nat} (h : IsLoop run Stops GoesOn)
    (hsize : ∀ s, I s → g s ≤ bound)
    (hon : ∀ s s', I s → GoesOn s s' → I s' ∧ g s < g s') (hs : I s)
    (hfuel : bound < fuel + g s) : ∃ r, run fuel s = some r := by
  induction fuel generalizing s with
  | zero =>
    have hle := hsize s hs
    omega
  | succ fuel ih =>
    rcases h.turn s with ⟨r, -, hend⟩ | ⟨s', hnext, hend⟩
    · exact ⟨r, hend fuel⟩
    · obtain ⟨hs', hlt⟩ := hon s s' hs hnext
      rw [hend]
      exact ih hs' (by omega)

end FuelLoop

end PhpEngine

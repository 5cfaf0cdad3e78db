/-
Converters that are called on a portion of the input with a buffer of a given
size, and again with what they left if the buffer was too small.  A converter
that acts as one reading of the whole input, from its state on, does so for
all portions and all sizes of the buffers.
-/
import Mathlib.Data.List.Basic

namespace PhpEngine

inductive ConvStatus where
  | success
  | tooBig
  | failed
deriving Repr, DecidableEq

/-- What a call leaves of its portion, and what it wrote. -/
structure ConvResult (σ α β : Type) where
  status : ConvStatus
  state : σ
  left : List α
  written : List β
deriving Repr, DecidableEq

section Converter

variable {σ α β : Type}

structure Converter (σ α β : Type) where
  convert : σ → List α → Nat → ConvResult σ α β
  flush : σ → Nat → ConvResult σ α β

/-- One call: it was the last one, or there is more to do. -/
inductive Turn (σ α β : Type) where
  | finished (written : List β) (ok : Bool)
  | on (written : List β) (s : σ) (portions : List (List α))

/-- A call with a buffer of size `room`: on the first portion that is left, or
the flush behind the last one. -/
def Converter.turn (c : Converter σ α β) (room : Nat) (s : σ) : List (List α) → Turn σ α β
  | [] =>
    let r := c.flush s room
    match r.status with
    | .success => .finished r.written true
    | .failed => .finished r.written false
    | .tooBig => .on r.written r.state []
  | portion :: portions =>
    let r := c.convert s portion room
    match r.status with
    | .success => .on r.written r.state portions
    | .failed => .finished r.written false
    | .tooBig => .on r.written r.state (r.left :: portions)

/-- Calls with buffers of the given sizes.  The result is all that was written
and whether no call failed; `none` if there are more calls than sizes. -/
def Converter.drive (c : Converter σ α β) : List Nat → σ → List (List α) → Option (List β × Bool)
  | [], _, _ => none
  | room :: rooms, s, portions =>
    match c.turn room s portions with
    | .finished written ok => some (written, ok)
    | .on written s portions => (c.drive rooms s portions).map fun o =>
      (written ++ o.1, o.2)

/-- What a call and the calls behind it write, if from a state on they write
what `whole` says. -/
def ConvResult.total (r : ConvResult σ α β)
    (whole : σ → List α → List β × Bool) (future : List α) : List β × Bool :=
  match r.status with
  | .failed => (r.written, false)
  | _ => (r.written ++ (whole r.state (r.left ++ future)).1, (whole r.state (r.left ++ future)).2)

/-- In the states `Valid`, calls act as `whole` does on all the input that is
still to come; in the states `Rest`, which the calls leave that are done with
their portion, the flush does.  A buffer of size `need` is enough to go on:
`load` decreases. -/
structure Converter.Reads (c : Converter σ α β) (Valid Rest : σ → Prop)
    (whole : σ → List α → List β × Bool) (load : σ → List α → Nat)
    (need : Nat) : Prop where
  rest_valid : ∀ s, Rest s → Valid s
  convert_total : ∀ s portion room future, Valid s → (c.convert s portion room).total whole future =
      whole s (portion ++ future)
  convert_done : ∀ s portion room, Valid s → (c.convert s portion room).status = .success →
    (c.convert s portion room).left = [] ∧ Rest (c.convert s portion room).state
  convert_more : ∀ s portion room, Valid s → (c.convert s portion room).status = .tooBig →
    Valid (c.convert s portion room).state ∧
    load (c.convert s portion room).state (c.convert s portion room).left ≤ load s portion ∧
      (need ≤ room → load (c.convert s portion room).state
        (c.convert s portion room).left < load s portion)
  flush_done : ∀ s room, Rest s → (c.flush s room).status ≠ .tooBig →
    whole s [] = ((c.flush s room).written, decide ((c.flush s room).status = .success))
  flush_more : ∀ s room, Rest s → (c.flush s room).status = .tooBig →
    whole s [] = ((c.flush s room).written ++ (whole (c.flush s room).state []).1,
      (whole (c.flush s room).state []).2) ∧
    Rest (c.flush s room).state ∧
    load (c.flush s room).state [] ≤ load s [] ∧
    (need ≤ room → load (c.flush s room).state [] < load s [])

/-- A state in which the portions that are left can be read. -/
def Fit (Valid Rest : σ → Prop) (s : σ) (portions : List (List α)) : Prop :=
  Valid s ∧ (portions = [] → Rest s)

namespace Converter.Reads

variable {c : Converter σ α β} {Valid Rest : σ → Prop}
  {whole : σ → List α → List β × Bool} {load : σ → List α → Nat} {need : Nat}

section

variable (h : c.Reads Valid Rest whole load need)
include h

theorem fit {s : σ} (hs : Rest s) (portions : List (List α)) : Fit Valid Rest s portions :=
  ⟨h.rest_valid s hs, fun _ => hs⟩

theorem turn_over {room : Nat} {s : σ} {portions : List (List α)} {written : List β} {ok : Bool}
    (hs : Fit Valid Rest s portions) (hturn : c.turn room s portions = .finished written ok) :
    whole s portions.flatten = (written, ok) := by
  cases portions with
  | nil =>
    rw [turn] at hturn
    have hdone := h.flush_done s room (hs.2 rfl)
    cases hst : (c.flush s room).status with
    | success | failed =>
      simp only [hst] at hturn hdone
      cases hturn
      exact hdone (by decide)
    | tooBig =>
      simp only [hst] at hturn
      nomatch hturn
  | cons portion portions =>
    rw [turn] at hturn
    have htotal := h.convert_total s portion room portions.flatten hs.1
    rw [ConvResult.total] at htotal
    cases hst : (c.convert s portion room).status with
    | success =>
      simp only [hst] at hturn
      nomatch hturn
    | failed =>
      simp only [hst] at hturn htotal
      cases hturn
      rw [List.flatten_cons, ← htotal]
    | tooBig =>
      simp only [hst] at hturn
      nomatch hturn

/-- Any other call leaves the rest to the calls behind it: of fewer portions,
or of a smaller load. -/
theorem turn_on {room : Nat} {s s' : σ} {portions portions' : List (List α)} {written : List β}
    (hs : Fit Valid Rest s portions) (hturn : c.turn room s portions = .on written s' portions') :
    whole s portions.flatten = (written ++ (whole s' portions'.flatten).1,
        (whole s' portions'.flatten).2) ∧ Fit Valid Rest s' portions' ∧
      (portions'.length < portions.length ∨ portions'.length = portions.length ∧
          load s' (portions'.headD []) ≤ load s (portions.headD []) ∧ (need ≤ room →
            load s' (portions'.headD []) < load s (portions.headD []))) := by
  cases portions with
  | nil =>
    rw [turn] at hturn
    cases hst : (c.flush s room).status with
    | success | failed =>
      simp only [hst] at hturn
      nomatch hturn
    | tooBig =>
      simp only [hst] at hturn
      cases hturn
      obtain ⟨heq, hrest, hload⟩ := h.flush_more s room (hs.2 rfl) hst
      exact ⟨heq, h.fit hrest [], .inr ⟨rfl, hload⟩⟩
  | cons portion portions =>
    rw [turn] at hturn
    have htotal := h.convert_total s portion room portions.flatten hs.1
    rw [ConvResult.total] at htotal
    cases hst : (c.convert s portion room).status with
    | success =>
      simp only [hst] at hturn htotal
      cases hturn
      obtain ⟨hleft, hrest⟩ := h.convert_done s portion room hs.1 hst
      rw [hleft, List.nil_append] at htotal
      exact ⟨htotal.symm, h.fit hrest _, .inl (Nat.lt_succ_self _)⟩
    | failed =>
      simp only [hst] at hturn
      nomatch hturn
    | tooBig =>
      simp only [hst] at hturn htotal
      cases hturn
      obtain ⟨hvalid, hload⟩ := h.convert_more s portion room hs.1 hst
      exact ⟨htotal.symm, ⟨hvalid, nofun⟩, .inr ⟨rfl, hload⟩⟩

theorem drive_eq {rooms : List Nat} {s : σ} {portions : List (List α)} {o : List β × Bool}
    (hs : Fit Valid Rest s portions) (hrun : c.drive rooms s portions = some o) :
    o = whole s portions.flatten := by
  induction rooms generalizing s portions o with
  | nil => nomatch hrun
  | cons room rooms ih =>
    rw [drive] at hrun
    cases hturn : c.turn room s portions with
    | finished written ok =>
      simp only [hturn] at hrun
      cases hrun
      exact (h.turn_over hs hturn).symm
    | on written s' portions' =>
      simp only [hturn] at hrun
      obtain ⟨o', hrest, rfl⟩ := Option.map_eq_some_iff.mp hrun
      obtain ⟨heq, hfit, -⟩ := h.turn_on hs hturn
      rw [heq, ← ih hfit hrest]

end

end Converter.Reads

/-- Sizes among which large enough ones come again and again. -/
def Ample (need : Nat) (rooms : Nat → Nat) : Prop :=
  ∀ k, ∃ j, k ≤ j ∧ need ≤ rooms j

theorem Ample.tail {need : Nat} {rooms : Nat → Nat}
    (h : Ample need rooms) : Ample need fun k => rooms (k + 1) := by
  intro k
  obtain ⟨j, hj, hroom⟩ := h (k + 1)
  obtain ⟨i, rfl⟩ : ∃ i, j = i + 1 :=
    Nat.exists_eq_succ_of_ne_zero (by omega)
  exact ⟨i, by omega, hroom⟩

/-- The run with the first sizes of a sequence ends. -/
def Converter.Ends (c : Converter σ α β) (rooms : Nat → Nat) (s : σ)
    (portions : List (List α)) : Prop :=
  ∃ n o, c.drive ((List.range n).map rooms) s portions = some o

/-- A run ends if its first call is the last one, or the others end. -/
theorem Converter.Ends.of_turn {c : Converter σ α β} {rooms : Nat → Nat}
    {s : σ} {portions : List (List α)} (h : ∀ written s' portions',
      c.turn (rooms 0) s portions = .on written s' portions' →
        c.Ends (fun k => rooms (k + 1)) s' portions') : c.Ends rooms s portions := by
  have hrange : ∀ n, (List.range (n + 1)).map rooms =
      rooms 0 :: (List.range n).map fun k => rooms (k + 1) := by
    intro n
    rw [List.range_succ_eq_map, List.map_cons, List.map_map]
    rfl
  cases hturn : c.turn (rooms 0) s portions with
  | finished written ok =>
    refine ⟨1, (written, ok), ?_⟩
    rw [hrange, drive]
    simp only [hturn]
  | on written s' portions' =>
    obtain ⟨n, o, hrun⟩ := h written s' portions' hturn
    refine ⟨n + 1, (written ++ o.1, o.2), ?_⟩
    rw [hrange, drive]
    simp only [hturn, hrun, Option.map_some]

namespace Converter.Reads

variable {c : Converter σ α β} {Valid Rest : σ → Prop}
  {whole : σ → List α → List β × Bool} {load : σ → List α → Nat} {need : Nat}

theorem ends (h : c.Reads Valid Rest whole load need) {rooms : Nat → Nat}
    (hample : Ample need rooms) {s : σ} (portions : List (List α))
    (hs : Fit Valid Rest s portions) : c.Ends rooms s portions := by
  -- over the number of portions, the load and the calls to the next large size
  generalize hk : portions.length = k
  induction k using Nat.strongRecOn generalizing s portions rooms with
  | ind k ihk =>
  generalize hm : load s (portions.headD []) = m
  induction m using Nat.strongRecOn generalizing s portions rooms with
  | ind m ihm =>
  obtain ⟨j, -, hj⟩ := hample 0
  induction j generalizing s portions rooms m with
  | zero =>
    refine .of_turn fun written s' portions' hturn => ?_
    obtain ⟨-, hfit, hless | ⟨hsame, -, hlt⟩⟩ := h.turn_on hs hturn
    · exact ihk _ (by omega) hample.tail portions' hfit rfl
    · exact ihm _ (by rw [← hm]; exact hlt hj) hample.tail portions' hfit (hsame.trans hk) rfl
  | succ j ihj =>
    refine .of_turn fun written s' portions' hturn => ?_
    obtain ⟨-, hfit, hless | ⟨hsame, hle, -⟩⟩ := h.turn_on hs hturn
    · exact ihk _ (by omega) hample.tail portions' hfit rfl
    · exact ihj _ (fun m' hm' => ihm m' (by omega)) hample.tail portions'
        hfit (hsame.trans hk) rfl hj

theorem drive_ends (h : c.Reads Valid Rest whole load need)
    {rooms : Nat → Nat} (hample : Ample need rooms) {s : σ}
    (portions : List (List α)) (hs : Fit Valid Rest s portions) :
    ∃ n, c.drive ((List.range n).map rooms) s portions = some (whole s portions.flatten) := by
  obtain ⟨n, o, hrun⟩ := h.ends hample portions hs
  refine ⟨n, ?_⟩
  rw [hrun, h.drive_eq hs hrun]

end Converter.Reads

end Converter

end PhpEngine

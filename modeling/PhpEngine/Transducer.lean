/-
Machines that read a sequence item by item and write as they go.
-/

namespace PhpEngine

section Transducer

variable {σ α β : Type}

/-- The state behind the input, and all that was written. -/
def feed (step : σ → α → σ × List β) : σ → List α → σ × List β
  | s, [] => (s, [])
  | s, a :: rest =>
    let r := feed step (step s a).1 rest
    (r.1, (step s a).2 ++ r.2)

variable {step : σ → α → σ × List β}

theorem feed_append (s : σ) (l l' : List α) : feed step s (l ++ l') =
      ((feed step (feed step s l).1 l').1,
        (feed step s l).2 ++ (feed step (feed step s l).1 l').2) := by
  induction l generalizing s with
  | nil => rfl
  | cons a rest ih =>
    rw [List.cons_append, feed, ih, feed]
    simp only [List.append_assoc]

/-- Calls on successive pieces of the input. -/
def inPieces (call : σ → List α → σ × List β) : σ → List (List α) → σ × List β
  | s, [] => (s, [])
  | s, piece :: rest =>
    let r := inPieces call (call s piece).1 rest
    (r.1, (call s piece).2 ++ r.2)

/-- Calls that act on a view of the state as the machine does make no
difference between the pieces and the whole. -/
theorem inPieces_eq {τ : Type} (view : τ → σ) {call : τ → List α → τ × List β}
    (hcall : ∀ t l, (view (call t l).1, (call t l).2) = feed step (view t) l)
    (t : τ) (pieces : List (List α)) :
    (view (inPieces call t pieces).1, (inPieces call t pieces).2) =
      feed step (view t) pieces.flatten := by
  induction pieces generalizing t with
  | nil => rfl
  | cons piece rest ih =>
    rw [List.flatten_cons, feed_append, ← hcall t piece, ← ih]
    rfl

end Transducer

end PhpEngine

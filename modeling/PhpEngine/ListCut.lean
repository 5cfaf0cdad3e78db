/-
Lists cut into pieces: up to an item, up to the first occurrence of another
list, and piece by piece to the end.
-/
import Mathlib.Data.List.Basic
import Mathlib.Data.List.Infix

namespace PhpEngine

open List Option

section UpTo

variable {α : Type} [DecidableEq α]

/-- The items up to the first `stop`, that one included. -/
def upTo (stop : α) : List α → List α
  | [] => []
  | a :: rest => if a = stop then [a] else a :: upTo stop rest

theorem upTo_isPrefix (stop : α) (l : List α) : upTo stop l <+: l := by
  induction l with
  | nil => exact prefix_refl []
  | cons a rest ih =>
    rw [upTo]
    split
    · exact ⟨rest, rfl⟩
    · exact (prefix_cons_inj a).mpr ih

theorem upTo_ne_nil (stop : α) {l : List α} (h : l ≠ []) : upTo stop l ≠ [] := by
  cases l with
  | nil => exact absurd rfl h
  | cons a rest =>
    rw [upTo]
    split <;> exact cons_ne_nil _ _

theorem upTo_append_of_mem {stop : α} {l : List α} (h : stop ∈ l)
    (l' : List α) : upTo stop (l ++ l') = upTo stop l := by
  induction l with
  | nil => exact absurd h not_mem_nil
  | cons a rest ih =>
    rw [cons_append, upTo, upTo]
    split
    · rfl
    · next hne =>
        rcases mem_cons.mp h with rfl | hmem
        · exact absurd rfl hne
        · rw [ih hmem]

theorem upTo_append_of_not_mem {stop : α} {l : List α} (h : stop ∉ l)
    (l' : List α) : upTo stop (l ++ l') = l ++ upTo stop l' := by
  induction l with
  | nil => rfl
  | cons a rest ih =>
    rw [cons_append, upTo, if_neg (ne_of_not_mem_cons h).symm,
      ih (not_mem_of_not_mem_cons h), cons_append]

theorem upTo_of_not_mem {stop : α} {l : List α} (h : stop ∉ l) : upTo stop l = l := by
  simpa [upTo] using upTo_append_of_not_mem h []

/-- The length of the piece is the place of its last item plus one. -/
theorem length_upTo {stop : α} {l : List α} (h : stop ∈ l) :
    (upTo stop l).length = l.idxOf stop + 1 := by
  induction l with
  | nil => exact absurd h not_mem_nil
  | cons a rest ih =>
    rw [upTo]
    split
    · next heq => rw [heq, idxOf_cons_self]; rfl
    · next hne =>
        rw [length_cons, ih (mem_of_ne_of_mem (Ne.symm hne) h), idxOf_cons_ne _ hne]

end UpTo

section Search

variable {α : Type} [DecidableEq α]

def firstOccurrence (needle : List α) : List α → Option Nat
  | [] => if needle = [] then some 0 else none
  | a :: rest =>
    if needle <+: a :: rest then some 0
    else (firstOccurrence needle rest).map (· + 1)

/-- `needle` stands at place `i` of `l`, and at no place before. -/
def FirstAt (needle l : List α) (i : Nat) : Prop :=
  needle <+: l.drop i ∧ ∀ j < i, ¬ needle <+: l.drop j

variable {needle l : List α}

omit [DecidableEq α] in
theorem FirstAt.unique {i j : Nat} (hi : FirstAt needle l i) (hj : FirstAt needle l j) : i = j := by
  rcases Nat.lt_trichotomy i j with h | h | h
  · exact absurd hi.1 (hj.2 i h)
  · exact h
  · exact absurd hj.1 (hi.2 j h)

theorem firstOccurrence_firstAt {i : Nat}
    (h : firstOccurrence needle l = some i) : FirstAt needle l i := by
  induction l generalizing i with
  | nil =>
    rw [firstOccurrence] at h
    split at h
    · next hnil =>
        cases h
        rw [hnil]
        exact ⟨ nil_prefix, fun j hj => absurd hj (Nat.not_lt_zero j)⟩
    · nomatch h
  | cons a rest ih =>
    rw [firstOccurrence] at h
    split at h
    · next hpre =>
        cases h
        exact ⟨hpre, fun j hj => absurd hj (Nat.not_lt_zero j)⟩
    · next hpre =>
        obtain ⟨k, hk, rfl⟩ := map_eq_some_iff.mp h
        obtain ⟨hat, hbefore⟩ := ih hk
        refine ⟨hat, fun j hj => ?_⟩
        cases j with
        | zero => exact hpre
        | succ j => exact hbefore j (Nat.lt_of_succ_lt_succ hj)

theorem firstOccurrence_eq_none (h : firstOccurrence needle l = none)
    (i : Nat) : ¬ needle <+: l.drop i := by
  induction l generalizing i with
  | nil =>
    rw [firstOccurrence] at h
    split at h
    · nomatch h
    · next hne =>
        rw [drop_nil]
        exact fun hpre => hne (prefix_nil.mp hpre)
  | cons a rest ih =>
    rw [firstOccurrence] at h
    split at h
    · nomatch h
    · next hpre =>
        cases i with
        | zero => exact hpre
        | succ i => exact ih (map_eq_none_iff.mp h) i

theorem firstOccurrence_eq_some_iff {i : Nat} :
    firstOccurrence needle l = some i ↔ FirstAt needle l i := by
  refine ⟨firstOccurrence_firstAt, fun hfirst => ?_⟩
  cases h : firstOccurrence needle l with
  | none => exact absurd hfirst.1 (firstOccurrence_eq_none h i)
  | some j => rw [(firstOccurrence_firstAt h).unique hfirst]

theorem firstOccurrence_eq_none_iff :
    firstOccurrence needle l = none ↔ ∀ i, ¬ needle <+: l.drop i := by
  refine ⟨firstOccurrence_eq_none, fun hno => ?_⟩
  cases h : firstOccurrence needle l with
  | none => rfl
  | some j => exact absurd (firstOccurrence_firstAt h).1 (hno j)

omit [DecidableEq α] in
/-- Occurrences in the first `n` items are those that end there. -/
theorem prefix_drop_take {n i : Nat} (hne : needle ≠ []) : needle <+: (l.take n).drop i ↔
      needle <+: l.drop i ∧ i + needle.length ≤ n := by
  have hpos := length_pos_of_ne_nil hne
  rw [drop_take, prefix_take_iff]
  refine and_congr_right fun _ => ?_
  omega

/-- The first occurrence in the first `n` items. -/
theorem firstOccurrence_take {n : Nat} (hne : needle ≠ []) : firstOccurrence needle (l.take n) =
      (firstOccurrence needle l).filter fun i => i + needle.length ≤ n := by
  cases h : firstOccurrence needle l with
  | none =>
    rw [filter_none, firstOccurrence_eq_none_iff]
    intro i hpre
    exact firstOccurrence_eq_none h i ((prefix_drop_take hne).mp hpre).1
  | some i =>
    obtain ⟨hat, hbefore⟩ := firstOccurrence_firstAt h
    by_cases hle : i + needle.length ≤ n
    · rw [filter_some_pos (by simpa using hle), firstOccurrence_eq_some_iff]
      exact ⟨(prefix_drop_take hne).mpr ⟨hat, hle⟩, fun j hj hpre =>
        hbefore j hj ((prefix_drop_take hne).mp hpre).1⟩
    · rw [filter_some_neg (by simpa using hle), firstOccurrence_eq_none_iff]
      intro j hpre
      obtain ⟨hpre, hj⟩ := (prefix_drop_take hne).mp hpre
      exact hbefore j (by omega) hpre

/-- Places at which nothing starts can be left out of the search. -/
theorem firstOccurrence_drop {k : Nat} (hno : ∀ i < k, ¬ needle <+: l.drop i) :
    (firstOccurrence needle (l.drop k)).map (· + k) = firstOccurrence needle l := by
  cases h : firstOccurrence needle (l.drop k) with
  | none =>
    refine (firstOccurrence_eq_none_iff.mpr fun i => ?_).symm
    by_cases hi : i < k
    · exact hno i hi
    · have hnone := firstOccurrence_eq_none h (i - k)
      rw [drop_drop] at hnone
      rwa [Nat.add_sub_cancel' (Nat.le_of_not_lt hi)] at hnone
  | some j =>
    obtain ⟨hat, hbefore⟩ := firstOccurrence_firstAt h
    suffices hfirst : FirstAt needle l (j + k) from
      (firstOccurrence_eq_some_iff.mpr hfirst).symm
    refine ⟨?_, fun i hi => ?_⟩
    · rw [drop_drop] at hat
      rwa [Nat.add_comm]
    · by_cases hik : i < k
      · exact hno i hik
      · have hnone := hbefore (i - k) (by omega)
        rw [drop_drop] at hnone
        rwa [Nat.add_sub_cancel' (Nat.le_of_not_lt hik)] at hnone

end Search

section Pieces

variable {α β : Type}

def pieceLoop (piece : List α → β) (behind : List α → List α) : Nat → List α → List β
  | 0, _ => []
  | _ + 1, [] => []
  | n + 1, a :: rest =>
    piece (a :: rest) :: pieceLoop piece behind n (behind (a :: rest))

/-- The pieces of `l`, where `piece` is taken from the front and leaves
`behind`. -/
def pieces (piece : List α → β) (behind : List α → List α) (l : List α) : List β :=
  pieceLoop piece behind l.length l

variable {piece : List α → β} {behind : List α → List α}

theorem pieceLoop_enough (hlt : ∀ l, l ≠ [] → (behind l).length < l.length) {n m : Nat}
    {l : List α} (hn : l.length ≤ n) (hm : l.length ≤ m) :
    pieceLoop piece behind n l = pieceLoop piece behind m l := by
  induction n generalizing l m with
  | zero =>
    have hl : l = [] := length_eq_zero_iff.mp (Nat.le_zero.mp hn)
    rw [hl]
    cases m <;> rfl
  | succ n ih =>
    cases l with
    | nil => cases m <;> rfl
    | cons a rest =>
      have hbehind := hlt (a :: rest) (cons_ne_nil a rest)
      obtain ⟨k, rfl⟩ : ∃ k, m = k + 1 :=
        Nat.exists_eq_succ_of_ne_zero (by
          omega)
      rw [pieceLoop, pieceLoop, ih (m := k) (by omega) (by omega)]

theorem pieces_cons (hlt : ∀ l, l ≠ [] → (behind l).length < l.length) {l : List α} (hl : l ≠ []) :
    pieces piece behind l = piece l :: pieces piece behind (behind l) := by
  cases l with
  | nil => exact absurd rfl hl
  | cons a rest =>
    have hbehind := hlt (a :: rest) hl
    rw [length_cons] at hbehind
    rw [pieces, length_cons, pieceLoop, pieceLoop_enough hlt (by omega) le_rfl]
    rfl

theorem pieces_flatten (hlt : ∀ l, l ≠ [] → (behind l).length < l.length)
    (items : β → List α) (hitems : ∀ l, items (piece l) ++ behind l = l)
    (l : List α) : ((pieces piece behind l).map items).flatten = l := by
  induction hk : l.length using Nat.strong_induction_on generalizing l with
  | h k ih =>
    by_cases hl : l = []
    · rw [hl]
      rfl
    · have hbehind := hlt l hl
      rw [pieces_cons hlt hl, map_cons, flatten_cons, ih _ (by omega) _ rfl, hitems]

end Pieces

end PhpEngine

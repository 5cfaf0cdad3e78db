/-
Cells with a link to each side.  A list of addresses lies in memory as a chain
if every cell points at its neighbours; a cell is put between two parts of a
chain, or taken out, by changing the links next to it.
-/
import Mathlib.Data.List.Basic
import Mathlib.Logic.Function.Basic

namespace PhpEngine.DoublyLinked

open List Function Option

variable {α : Type}

/-- The links of a cell. -/
structure Links (α : Type) where
  prev : Option α
  next : Option α

/-- The cells of `as`, of which the first points back at `before` and the last
points at `behind`. -/
def Chain (links : α → Option (Links α)) : Option α → List α → Option α → Prop
  | _, [], _ => True
  | before, a :: as, behind =>
    links a = some ⟨before, as.head?.or behind⟩ ∧ Chain links (some a) as behind

section Chains

variable {links links' : α → Option (Links α)} {before behind : Option α} {as bs : List α}

theorem chain_append : Chain links before (as ++ bs) behind ↔
    Chain links before as (bs.head?.or behind) ∧ Chain links (as.getLast?.or before) bs behind := by
  induction as generalizing before with
  | nil => simp [Chain]
  | cons a as ih =>
    have hlast : (a :: as).getLast?.or before = as.getLast?.or (some a) := by
      rw [getLast?_cons]
      cases as.getLast? <;> rfl
    rw [cons_append, Chain, Chain, ih, hlast, head?_append, Option.or_assoc, and_assoc]

theorem chain_concat {a : α} : Chain links before (as ++ [a]) behind ↔
    Chain links before as (some a) ∧ links a = some ⟨as.getLast?.or before, behind⟩ := by
  rw [chain_append]
  simp [Chain]

theorem Chain.congr (h : Chain links before as behind)
    (hsame : ∀ a ∈ as, links' a = links a) : Chain links' before as behind := by
  induction as generalizing before with
  | nil => trivial
  | cons a as ih =>
    obtain ⟨hfirst, hrest⟩ := h
    obtain ⟨ha, has⟩ := forall_mem_cons.mp hsame
    exact ⟨ha.trans hfirst, ih hrest has⟩

/-- The links of every cell exchanged. -/
def swap (links : α → Option (Links α)) (a : α) : Option (Links α) :=
  (links a).map fun l => ⟨l.next, l.prev⟩

theorem Chain.reverse (h : Chain links before as behind) :
    Chain (swap links) behind as.reverse before := by
  induction as generalizing before with
  | nil => trivial
  | cons a as ih =>
    obtain ⟨hfirst, hrest⟩ := h
    rw [reverse_cons, chain_concat]
    refine ⟨ih hrest, ?_⟩
    rw [swap, hfirst, getLast?_reverse]
    rfl

/-- `n` steps along `next`. -/
def walk (links : α → Option (Links α)) : Nat → Option α → Option α
  | 0, p => p
  | n + 1, p => walk links n (p.bind fun a => (links a).bind Links.next)

theorem walk_none (links : α → Option (Links α)) (n : Nat) : walk links n none = none := by
  induction n with
  | zero => rfl
  | succ n ih => exact ih

theorem Chain.walk_eq (h : Chain links before as none) (n : Nat) :
    walk links n as.head? = as[n]? := by
  induction n generalizing before as with
  | zero => cases as <;> rfl
  | succ n ih =>
    cases as with
    | nil => exact walk_none links n
    | cons a as =>
      obtain ⟨hfirst, hrest⟩ := h
      have hnext : walk links (n + 1) (a :: as).head? = walk links n as.head? := by
        rw [walk, head?_cons, bind_some, hfirst, or_none]
        rfl
      rw [hnext, getElem?_cons_succ]
      exact ih hrest

end Chains

section Changes

variable [DecidableEq α]

/-- Set the links of a cell. -/
def put (links : α → Option (Links α)) (a : α) (l : Links α) : α → Option (Links α) :=
  update links a (some l)

/-- Set the link to the next cell, if there is a cell. -/
def setNext (links : α → Option (Links α)) (p next : Option α) : α → Option (Links α) :=
  fun a => if p = some a then (links a).map fun l => { l with next := next }
    else links a

/-- Set the link to the cell before, if there is a cell. -/
def setPrev (links : α → Option (Links α)) (p prev : Option α) : α → Option (Links α) :=
  fun a => if p = some a then (links a).map fun l => { l with prev := prev }
    else links a

variable {links : α → Option (Links α)} {before behind : Option α} {as l r : List α} {a : α}

@[simp] theorem setNext_none (next : Option α) : setNext links none next = links := by
  funext a
  exact if_neg (by simp)

@[simp] theorem setPrev_none (prev : Option α) : setPrev links none prev = links := by
  funext a
  exact if_neg (by simp)

theorem setNext_of_ne {p next : Option α} (h : p ≠ some a) : setNext links p next a = links a :=
  if_neg h

theorem setPrev_of_ne {p prev : Option α} (h : p ≠ some a) : setPrev links p prev a = links a :=
  if_neg h

theorem Chain.setNext_last (h : Chain links before as behind)
    (hnodup : as.Nodup) (next : Option α) :
    Chain (setNext links as.getLast? next) before as next := by
  rcases eq_nil_or_concat as with rfl | ⟨l, a, rfl⟩
  · trivial
  · rw [concat_eq_append] at h hnodup ⊢
    obtain ⟨hl, ha⟩ := chain_concat.mp h
    have hnot : a ∉ l := by
      intro hmem
      exact (nodup_append.mp hnodup).2.2 a hmem a (by simp) rfl
    rw [getLast?_concat, chain_concat]
    constructor
    · apply hl.congr
      intro b hb
      apply setNext_of_ne
      rintro ⟨⟩
      exact hnot hb
    · rw [setNext, if_pos rfl, ha]
      rfl

/-- The first cell of a chain points back at another cell. -/
theorem Chain.setPrev_head (h : Chain links before as behind)
    (hnodup : as.Nodup) (prev : Option α) : Chain (setPrev links as.head? prev) prev as behind := by
  cases as with
  | nil => trivial
  | cons a as =>
    obtain ⟨ha, has⟩ := h
    have hnot := (nodup_cons.mp hnodup).1
    constructor
    · rw [setPrev, head?_cons, if_pos rfl, ha]
      rfl
    · apply has.congr
      intro b hb
      apply setPrev_of_ne
      rintro ⟨⟩
      exact hnot hb

/-- The links after a new cell was put between `l` and `r`. -/
def insert (links : α → Option (Links α)) (l r : List α) (a : α) : α → Option (Links α) :=
  setPrev (setNext (put links a ⟨l.getLast?, r.head?⟩) l.getLast? (some a)) r.head? (some a)

/-- The links after the cell between `l` and `r` was taken out. -/
def remove (links : α → Option (Links α)) (l r : List α) : α → Option (Links α) :=
  setPrev (setNext links l.getLast? r.head?) r.head? l.getLast?

theorem Chain.insert (h : Chain links none (l ++ r) none)
    (hnodup : (l ++ r).Nodup) (hnew : a ∉ l ++ r) :
    Chain (insert links l r a) none (l ++ a :: r) none := by
  obtain ⟨hl, hr, hdisj⟩ := nodup_append.mp hnodup
  rw [mem_append, not_or] at hnew
  have hput (b : α) (hb : b ≠ a) (p : Links α) : put links a p b = links b :=
    update_of_ne hb _ _
  rw [chain_append, or_none, or_none] at h
  rw [chain_append, or_none, or_none, Chain, head?_cons, or_none]
  refine ⟨?_, ?_, ?_⟩
  · -- the cells in front
    have hkept : Chain (put links a ⟨l.getLast?, r.head?⟩) none l r.head? := by
      apply h.1.congr
      intro b hb
      apply hput
      rintro rfl
      exact hnew.1 hb
    apply (hkept.setNext_last hl (some a)).congr
    intro b hb
    apply setPrev_of_ne
    intro hhead
    exact hdisj b hb b (mem_of_head? hhead) rfl
  · rw [DoublyLinked.insert, setPrev_of_ne, setNext_of_ne, put, update_self]
    · intro hlast
      exact hnew.1 (mem_of_getLast? hlast)
    · intro hhead
      exact hnew.2 (mem_of_head? hhead)
  · -- the cells behind
    have hkept : Chain (setNext (put links a ⟨l.getLast?, r.head?⟩) l.getLast?
        (some a)) l.getLast? r none := by
      apply h.2.congr
      intro b hb
      rw [setNext_of_ne, hput]
      · rintro rfl
        exact hnew.2 hb
      · intro hlast
        exact hdisj b (mem_of_getLast? hlast) b hb rfl
    exact hkept.setPrev_head hr (some a)

theorem Chain.remove (h : Chain links none (l ++ a :: r) none) (hnodup : (l ++ a :: r).Nodup) :
    Chain (remove links l r) none (l ++ r) none := by
  obtain ⟨hl, hr, hdisj⟩ := nodup_append.mp hnodup
  obtain ⟨-, hr⟩ := nodup_cons.mp hr
  have hdisj' (b : α) (hb : b ∈ l) (hb' : b ∈ r) : False :=
    hdisj b hb b (mem_cons_of_mem a hb') rfl
  rw [chain_append, or_none, Chain, head?_cons] at h
  obtain ⟨hfront, -, hback⟩ := h
  rw [chain_append, or_none, or_none]
  constructor
  · apply (hfront.setNext_last hl r.head?).congr
    intro b hb
    apply setPrev_of_ne
    intro hhead
    exact hdisj' b hb (mem_of_head? hhead)
  · have hkept : Chain (setNext links l.getLast? r.head?) (some a) r none := by
      apply hback.congr
      intro b hb
      apply setNext_of_ne
      intro hlast
      exact hdisj' b (mem_of_getLast? hlast) hb
    exact hkept.setPrev_head hr l.getLast?

theorem insert_of_not_mem {b : α} (hb : b ∉ l ++ r) (hne : b ≠ a) :
    DoublyLinked.insert links l r a b = links b := by
  rw [mem_append, not_or] at hb
  rw [DoublyLinked.insert, setPrev_of_ne, setNext_of_ne, put, update_of_ne hne]
  · intro hlast
    exact hb.1 (mem_of_getLast? hlast)
  · intro hhead
    exact hb.2 (mem_of_head? hhead)

theorem remove_of_not_mem {b : α} (hb : b ∉ l ++ r) :
    DoublyLinked.remove links l r b = links b := by
  rw [mem_append, not_or] at hb
  rw [DoublyLinked.remove, setPrev_of_ne, setNext_of_ne]
  · intro hlast
    exact hb.1 (mem_of_getLast? hlast)
  · intro hhead
    exact hb.2 (mem_of_head? hhead)

end Changes

end PhpEngine.DoublyLinked

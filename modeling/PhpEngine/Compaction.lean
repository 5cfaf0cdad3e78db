/-
Positions that stay when some of the numbers below a bound are taken out: the
new number of a position is how many of the kept ones are before it.
-/
import Mathlib.Data.List.Range
import Mathlib.Data.List.Nodup

namespace PhpEngine

open List

section Compaction

variable (gone : Nat → Bool)

/-- The numbers below `n` that stay, in order. -/
def keptBelow (n : Nat) : List Nat :=
  (List.range n).filter fun i => !gone i

/-- How many numbers below `n` are taken out. -/
def goneBelow (n : Nat) : Nat :=
  (List.range n).countP gone

theorem keptBelow_succ (n : Nat) : keptBelow gone (n + 1) =
      keptBelow gone n ++ if gone n then [] else [n] := by
  rw [keptBelow, range_succ, filter_append]
  cases h : gone n <;> simp [keptBelow, h]

theorem goneBelow_succ (n : Nat) :
    goneBelow gone (n + 1) = goneBelow gone n + if gone n then 1 else 0 := by
  rw [goneBelow, range_succ, countP_append]
  cases h : gone n <;> simp [goneBelow, h]

theorem length_keptBelow_add (n : Nat) : (keptBelow gone n).length + goneBelow gone n = n := by
  induction n with
  | zero => rfl
  | succ n ih =>
    rw [keptBelow_succ, goneBelow_succ]
    cases gone n <;> simp <;> omega

theorem length_keptBelow (n : Nat) : (keptBelow gone n).length = n - goneBelow gone n := by
  have h := length_keptBelow_add gone n
  omega

theorem goneBelow_le (n : Nat) : goneBelow gone n ≤ n := by
  have h := length_keptBelow_add gone n
  omega

theorem goneBelow_eq_zero_iff (n : Nat) : goneBelow gone n = 0 ↔ ∀ i, i < n → gone i = false := by
  simp [goneBelow, countP_eq_zero]

theorem mem_keptBelow {n i : Nat} : i ∈ keptBelow gone n ↔ i < n ∧ gone i = false := by
  simp [keptBelow]

theorem keptBelow_nodup (n : Nat) : (keptBelow gone n).Nodup :=
  nodup_range.filter _

/-- The kept numbers are those below `t` and then those from `t` on. -/
theorem keptBelow_split {n t : Nat} (h : t ≤ n) : keptBelow gone n = keptBelow gone t ++
      (List.range' t (n - t)).filter fun i => !gone i := by
  have hrange : List.range n = List.range t ++ List.range' t (n - t) := by
    rw [range_eq_range', range_eq_range']
    have happend := range'_append_1 (s := 0) (m := t) (n := n - t)
    rw [Nat.zero_add, Nat.add_sub_cancel' h] at happend
    exact happend.symm
  rw [keptBelow, hrange, filter_append]
  rfl

/-- What stands at the new number of `t` is the first kept number from `t`
on. -/
theorem keptBelow_getElem? {n t : Nat} (h : t ≤ n) : (keptBelow gone n)[t - goneBelow gone t]? =
      (keptBelow gone n).find? fun i => decide (t ≤ i) := by
  have hsmall : (keptBelow gone t).find? (fun i => decide (t ≤ i)) = none := by
    rw [find?_eq_none]
    intro i hi
    have hlt := ((mem_keptBelow gone).mp hi).1
    simpa using hlt
  rw [keptBelow_split gone h, ← length_keptBelow, find?_append, hsmall,
    getElem?_append_right le_rfl, Nat.sub_self]
  generalize hl : (List.range' t (n - t)).filter (fun i => !gone i) = l
  have hlarge : ∀ i ∈ l, t ≤ i := by
    intro i hi
    rw [← hl, mem_filter, mem_range'_1] at hi
    exact hi.1.1
  cases l with
  | nil => rfl
  | cons i l => simp [hlarge i mem_cons_self]

theorem keptBelow_getElem?_of_kept {n t : Nat} (h : t < n) (hkept : gone t = false) :
    (keptBelow gone n)[t - goneBelow gone t]? = some t := by
  have hlt : (keptBelow gone t).length < (keptBelow gone (t + 1)).length := by
    rw [keptBelow_succ, hkept]
    simp
  rw [keptBelow_split gone (Nat.succ_le_of_lt h),
    getElem?_append_left (by rw [← length_keptBelow]; exact hlt),
    keptBelow_succ, hkept, ← length_keptBelow,
    getElem?_append_right le_rfl, Nat.sub_self]
  rfl

/-- An old number that is used as a new one is right when nothing before it
was taken out, or nothing from it on is kept. -/
theorem keptBelow_getElem?_same_iff {n t : Nat} (h : t < n) : (keptBelow gone n)[t]? =
        ((keptBelow gone n).find? fun i => decide (t ≤ i)) ↔ (∀ i, i < t → gone i = false) ∨
        ∀ i, t ≤ i → i < n → gone i = true := by
  have hat := keptBelow_getElem? gone (le_of_lt h)
  rw [← goneBelow_eq_zero_iff]
  constructor
  · intro hsame
    cases hfind : (keptBelow gone n).find? fun i => decide (t ≤ i) with
    | none =>
      right
      intro i hti hin
      by_contra hgone
      have hmem := (mem_keptBelow gone).mpr ⟨hin, by simpa using hgone⟩
      have hnot := (find?_eq_none.mp hfind) i hmem
      exact hnot (by simpa using hti)
    | some i =>
      rw [hfind] at hat hsame
      obtain ⟨hlt, -⟩ := List.getElem?_eq_some_iff.mp hsame
      have heq := (getElem?_inj hlt (keptBelow_nodup gone n)).mp (hsame.trans hat.symm)
      have hle := goneBelow_le gone t
      omega
  · rintro (hzero | hall)
    · rw [hzero, Nat.sub_zero] at hat
      exact hat
    · have hnone : ((keptBelow gone n).find? fun i => decide (t ≤ i)) = none := by
        rw [find?_eq_none]
        intro i hi hti
        obtain ⟨hin, hgone⟩ := (mem_keptBelow gone).mp hi
        have hti' : t ≤ i := by simpa using hti
        rw [hall i hti' hin] at hgone
        cases hgone
      rw [hnone] at hat ⊢
      rw [List.getElem?_eq_none_iff] at hat ⊢
      omega

end Compaction

end PhpEngine

/-
Sorting by segments: slots that are not yet in order with each other lie in a common
segment, and a segment is parted at a pivot into two smaller ones.
-/
import PhpEngine.Rearrangement
import Mathlib.Tactic.Linarith
import Mathlib.Tactic.Ring

namespace SegmentSort

open Rearrangement List

/-- The slots from the first to the second bound; there may be none. -/
abbrev Segment : Type :=
  Int × Int

def size (t : Segment) : Nat :=
  (t.2 - t.1 + 1).toNat

def Apart (t u : Segment) : Prop :=
  ∀ x, ¬(t.1 ≤ x ∧ x ≤ t.2 ∧ u.1 ≤ x ∧ x ≤ u.2)

def Within (t u : Segment) : Prop :=
  u.1 ≤ t.1 ∧ t.2 ≤ u.2

/-- A segment with `k` others behind it has at most the `2 ^ k`-th part of the slots. -/
def Halved (n : Nat) : List Segment → Prop
  | [] => True
  | t :: ts => size t * 2 ^ ts.length ≤ n ∧ Halved n ts

/-- The segments that are left to sort. -/
structure Segments (n : Nat) (ts : List Segment) : Prop where
  bounds : ∀ t ∈ ts, 0 ≤ t.1 ∧ t.2 < n
  apart : ts.Pairwise Apart
  halved : Halved n ts

/-- What is left to do, counted with the segments themselves. -/
def weight (ts : List Segment) : Nat :=
  (ts.map fun t => size t + 1).sum

/-- Slots that are out of order lie in a common segment. -/
def Separated {α : Type*} (le : α → α → Prop) (n : Nat) (f : Nat → α) (ts : List Segment) : Prop :=
  ∀ x y : Nat, x < y → y < n → le (f x) (f y) ∨ ∃ t ∈ ts, t.1 ≤ x ∧ y ≤ t.2

variable {n : Nat} {t u v : Segment} {ts us : List Segment}

theorem weight_cons (t : Segment) (ts : List Segment) :
    weight (t :: ts) = size t + 1 + weight ts := by
  rfl

theorem size_le (h : Within t u) : size t ≤ size u := by
  rw [size, size]
  have := h.1
  have := h.2
  omega

theorem Apart.of_within {t' u' : Segment} (h : Apart t u) (ht : Within t' t)
    (hu : Within u' u) : Apart t' u' := by
  intro x hx
  obtain ⟨ht1, ht2⟩ := ht
  obtain ⟨hu1, hu2⟩ := hu
  exact h x ⟨by omega, by omega, by omega, by omega⟩

section

variable (h : Segments n (t :: ts))
include h

theorem Segments.tail : Segments n ts where
  bounds u hu := h.bounds u (mem_cons_of_mem t hu)
  apart := (pairwise_cons.mp h.apart).2
  halved := h.halved.2

theorem Segments.shrink (hu : Within u t) : Segments n (u :: ts) where
  bounds v hv := by
    rcases mem_cons.mp hv with rfl | hv
    · obtain ⟨hlow, hhigh⟩ := h.bounds t mem_cons_self
      obtain ⟨hlow', hhigh'⟩ := hu
      exact ⟨by omega, by omega⟩
    · exact h.bounds v (mem_cons_of_mem t hv)
  apart := by
    obtain ⟨hhead, htail⟩ := pairwise_cons.mp h.apart
    refine pairwise_cons.mpr ⟨fun v hv => ?_, htail⟩
    exact (hhead v hv).of_within hu ⟨le_refl _, le_refl _⟩
  halved := ⟨(Nat.mul_le_mul_right _ (size_le hu)).trans h.halved.1, h.halved.2⟩

/-- The first segment gives way to two parts of it, the smaller one in front. -/
theorem Segments.split (hu : Within u t) (hv : Within v t) (huv : Apart u v)
    (hhalf : 2 * size u ≤ size t) : Segments n (u :: v :: ts) := by
  have hpushed := h.shrink hv
  have hkept := h.shrink hu
  refine ⟨fun w hw => ?_, ?_, ?_, hpushed.halved⟩
  · rcases mem_cons.mp hw with rfl | hw
    · exact hkept.bounds w mem_cons_self
    · exact hpushed.bounds w hw
  · refine pairwise_cons.mpr ⟨fun w hw => ?_, hpushed.apart⟩
    rcases mem_cons.mp hw with rfl | hw
    · exact huv
    · exact (pairwise_cons.mp hkept.apart).1 w hw
  · have hle := h.halved.1
    calc size u * 2 ^ (v :: ts).length = 2 * size u * 2 ^ ts.length := by
          rw [length_cons, pow_succ]
          ring
      _ ≤ size t * 2 ^ ts.length := Nat.mul_le_mul_right _ hhalf
      _ ≤ n := hle

theorem Segments.length_lt {k : Nat} (hn : n < 2 ^ k) (hsize : 0 < size t) : ts.length < k := by
  have hle := h.halved.1
  have hpow : 2 ^ ts.length < 2 ^ k := by
    calc 2 ^ ts.length ≤ size t * 2 ^ ts.length := Nat.le_mul_of_pos_left _ hsize
      _ ≤ n := hle
      _ < 2 ^ k := hn
  exact (Nat.pow_lt_pow_iff_right (by decide)).mp hpow

end

section Order

variable {α : Type*} {le : α → α → Prop} {f g : Nat → α}

/-- A segment of a single slot does not separate anything. -/
theorem Separated.drop (h : Separated le n f ts) (hsub : ∀ t ∈ ts, t ∈ us ∨ t.2 ≤ t.1) :
    Separated le n f us := by
  intro x y hxy hy
  rcases h x y hxy hy with hle | ⟨t, ht, htx, hty⟩
  · exact .inl hle
  · rcases hsub t ht with hin | hsmall
    · exact .inr ⟨t, hin, htx, hty⟩
    · omega

/-- Parting a segment at the slot `p`. -/
theorem Separated.part {b p e : Nat} (h : Separated le n f (((b : Int), (e : Int)) :: ts))
    (hsegments : Segments n (((b : Int), (e : Int)) :: ts))
    (htrans : ∀ a b c, le a b → le b c → le a c)
    (hfg : Rearranges b e f g) (hbelow : ∀ x, b ≤ x → x < p → le (g x) (g p))
    (habove : ∀ x, p < x → x ≤ e → le (g p) (g x)) :
    Separated le n g (((b : Int), (p : Int) - 1) :: ((p : Int) + 1, (e : Int)) :: ts) := by
  have hen : (e : Int) < n := (hsegments.bounds _ mem_cons_self).2
  have hapart := (pairwise_cons.mp hsegments.apart).1
  -- A slot within the segment is in order with one outside of it.
  have hcross : ∀ x y : Nat, x < y → y < n → (b ≤ x ∧ x ≤ e ∧ e < y ∨ x < b ∧ b ≤ y ∧ y ≤ e) →
      le (f x) (f y) := by
    intro x y hxy hy hcase
    rcases h x y hxy hy with hle | ⟨t, ht, htx, hty⟩
    · exact hle
    · rcases mem_cons.mp ht with rfl | ht
      · simp only at htx hty
        omega
      · rcases hcase with ⟨hbx, hxe, _⟩ | ⟨_, hby, hye⟩
        · exact absurd ⟨by simpa using hbx, by simpa using hxe, htx, by omega⟩ (hapart t ht x)
        · exact absurd ⟨by simpa using hby, by simpa using hye, by omega, hty⟩ (hapart t ht y)
  intro x y hxy hy
  by_cases hx : b ≤ x ∧ x ≤ e
  · by_cases hye : y ≤ e
    · rcases Nat.lt_trichotomy y p with hyp | rfl | hpy
      · exact .inr ⟨_, mem_cons_self, by simpa using hx.1, by simp only; omega⟩
      · exact .inl (hbelow x hx.1 hxy)
      · rcases Nat.lt_trichotomy x p with hxp | rfl | hpx
        · exact .inl (htrans _ _ _ (hbelow x hx.1 hxp) (habove y hpy hye))
        · exact .inl (habove y hpy hye)
        · exact .inr ⟨_, mem_cons_of_mem _ mem_cons_self, by simp only; omega, by simpa using hye⟩
    · left
      obtain ⟨m, hbm, hme, hm⟩ := hfg.inside hx
      rw [hm, hfg.outside (.inr (by omega))]
      exact hcross m y (by omega) hy (.inl ⟨hbm, hme, by omega⟩)
  · by_cases hyin : b ≤ y ∧ y ≤ e
    · left
      obtain ⟨m, hbm, hme, hm⟩ := hfg.inside hyin
      rw [hm, hfg.outside (.inl (by omega))]
      exact hcross x m (by omega) (by omega) (.inr ⟨by omega, hbm, hme⟩)
    · rw [hfg.outside (show x < b ∨ e < x by omega), hfg.outside (show y < b ∨ e < y by omega)]
      rcases h x y hxy hy with hle | ⟨t, ht, htx, hty⟩
      · exact .inl hle
      · rcases mem_cons.mp ht with rfl | ht
        · simp only at htx hty
          omega
        · exact .inr ⟨t, mem_cons_of_mem _ (mem_cons_of_mem _ ht), htx, hty⟩

theorem Separated.sorted (h : Separated le n f []) {x y : Nat} (hxy : x < y) (hy : y < n) :
    le (f x) (f y) :=
  (h x y hxy hy).resolve_right fun ⟨_, ht, _⟩ => absurd ht not_mem_nil

end Order

end SegmentSort

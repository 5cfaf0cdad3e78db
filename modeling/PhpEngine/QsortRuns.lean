/-
Runs of `zend_qsort_r`.  The loops end, the stack does not overflow and the slots are
rearranged whatever the comparator answers; with the answers of an order they are sorted.
-/
import PhpEngine.QsortPartition
import PhpEngine.SegmentSort

namespace PhpEngine.ZendQsort

open Memory Rearrangement SegmentSort List

namespace Qsort

variable {σ : Type} {q : Qsort σ}

/-- The pointers to the first and the last slot of a segment. -/
def ends (q : Qsort σ) (t : Segment) : Int × Int :=
  (q.ptr t.1, q.ptr t.2)

theorem push_ends (hn : q.nmemb < 2 ^ 64) {t u : Segment} {ts : List Segment}
    (h : Segments q.nmemb (t :: ts)) (hsize : 0 < size t) :
    push (q.ends u) (ts.map q.ends) = some ((u :: ts).map q.ends) := by
  have hroom := h.length_lt hn hsize
  rw [push, if_pos (by rw [length_map]; exact hroom)]
  rfl

variable (hsiz : 0 < q.siz)

include hsiz

theorem segmentLoop_spec (hn : q.nmemb < 2 ^ 64) {steps : Nat} (hsteps : q.nmemb < steps)
    (fuel : Nat) {t : Segment} {ts : List Segment} (h : Segments q.nmemb (t :: ts))
    (hfuel : size t < fuel) (s : QsortState σ) :
    ∃ us s', q.segmentLoop steps fuel (q.ptr t.1) (q.ptr t.2) (ts.map q.ends) s =
        some (us.map q.ends, s') ∧
      q.SameBehind s s' ∧ Rearranges 0 (q.nmemb - 1) (q.slot s) (q.slot s') ∧
      Segments q.nmemb us ∧ weight us ≤ weight ts + size t ∧
      ∀ le, q.Orders le → Separated le q.nmemb (q.slot s) (t :: ts) →
        Separated le q.nmemb (q.slot s') us := by
  induction fuel generalizing t ts s with
  | zero => exact absurd hfuel (Nat.not_lt_zero _)
  | succ fuel ih =>
    obtain ⟨b, e⟩ := t
    rw [segmentLoop]
    by_cases hbe : b < e
    · obtain ⟨hb0, hen⟩ := h.bounds _ mem_cons_self
      lift b to Nat using hb0
      lift e to Nat using (by omega)
      rw [if_pos ((ptr_lt hsiz).mpr hbe)]
      obtain ⟨p, s₁, hrun, hbehind, hbp, hpe, hrearranged, horder⟩ :=
        partition_spec hsiz (b := b) (e := e) (by omega) (by omega) hsteps s
      have hwhole := hrearranged.mono (Nat.zero_le b) (show e ≤ q.nmemb - 1 by omega)
      have hsize : size ((b : Int), (e : Int)) = e - b + 1 := by
        rw [size]
        omega
      have hleft : size ((b : Int), (p : Int) - 1) = p - b := by
        rw [size]
        omega
      have hright : size ((p : Int) + 1, (e : Int)) = e - p := by
        rw [size]
        omega
      have hwithinLeft : SegmentSort.Within ((b : Int), (p : Int) - 1) ((b : Int), (e : Int)) :=
        ⟨le_refl _, by simp only; omega⟩
      have hwithinRight : SegmentSort.Within ((p : Int) + 1, (e : Int)) ((b : Int), (e : Int)) :=
        ⟨by simp only; omega, le_refl _⟩
      have hpart : ∀ le, q.Orders le →
          Separated le q.nmemb (q.slot s) (((b : Int), (e : Int)) :: ts) →
          Separated le q.nmemb (q.slot s₁)
            (((b : Int), (p : Int) - 1) :: ((p : Int) + 1, (e : Int)) :: ts) := by
        intro le hle hseparated
        obtain ⟨hbelow, habove⟩ := horder le hle
        exact hseparated.part h hle.trans hrearranged hbelow habove
      have hpos : 0 < size ((b : Int), (e : Int)) := by omega
      simp only [hrun, ptr_add, ptr_sub]
      by_cases hsmaller : q.ptr p - q.ptr b ≤ q.ptr e - q.ptr p
      · have hhalf : (p : Int) - b ≤ e - p := by
          rw [ptr, ptr, ptr, ← Int.sub_mul, ← Int.sub_mul] at hsmaller
          exact (ptr_le hsiz).mp hsmaller
        rw [if_pos hsmaller]
        by_cases hpush : (p : Int) + 1 < e
        · have hsegments := h.split hwithinLeft hwithinRight
            (fun x hx => by simp only at hx; omega) (by omega)
          obtain ⟨us, s', hrun', hbehind', hrearranged', hus, hweight, horder'⟩ :=
            ih hsegments (by omega) s₁
          refine ⟨us, s', ?_, hbehind.trans hbehind', hwhole.trans hrearranged', hus, ?_,
            fun le hle hseparated => horder' le hle (hpart le hle hseparated)⟩
          · rw [if_pos ((ptr_lt hsiz).mpr hpush)]
            have hpushed := push_ends (u := ((p : Int) + 1, (e : Int))) hn h hpos
            rw [ends] at hpushed
            simp only [hpushed]
            exact hrun'
          · rw [weight_cons, hleft, hright] at hweight
            omega
        · obtain ⟨us, s', hrun', hbehind', hrearranged', hus, hweight, horder'⟩ :=
            ih (h.shrink hwithinLeft) (by omega) s₁
          refine ⟨us, s', ?_, hbehind.trans hbehind', hwhole.trans hrearranged', hus, by omega,
            fun le hle hseparated => horder' le hle ?_⟩
          · rw [if_neg (by rw [ptr_lt hsiz]; exact hpush)]
            exact hrun'
          · apply (hpart le hle hseparated).drop
            intro u hu
            simp only [mem_cons] at hu ⊢
            rcases hu with rfl | rfl | hu
            · exact .inl (.inl rfl)
            · exact .inr (by simp only; omega)
            · exact .inl (.inr hu)
      · have hhalf : (e : Int) - p < p - b := by
          rw [ptr, ptr, ptr, ← Int.sub_mul, ← Int.sub_mul] at hsmaller
          exact (ptr_lt hsiz).mp (not_le.mp hsmaller)
        rw [if_neg hsmaller]
        by_cases hpush : (b : Int) < p - 1
        · have hsegments := h.split hwithinRight hwithinLeft
            (fun x hx => by simp only at hx; omega) (by omega)
          obtain ⟨us, s', hrun', hbehind', hrearranged', hus, hweight, horder'⟩ :=
            ih hsegments (by omega) s₁
          refine ⟨us, s', ?_, hbehind.trans hbehind', hwhole.trans hrearranged', hus, ?_,
            fun le hle hseparated => horder' le hle ((hpart le hle hseparated).drop ?_)⟩
          · rw [if_pos ((ptr_lt hsiz).mpr hpush)]
            have hpushed := push_ends (u := ((b : Int), (p : Int) - 1)) hn h hpos
            rw [ends] at hpushed
            simp only [hpushed]
            exact hrun'
          · rw [weight_cons, hleft, hright] at hweight
            omega
          · intro u hu
            simp only [mem_cons] at hu ⊢
            rcases hu with rfl | rfl | hu
            · exact .inl (.inr (.inl rfl))
            · exact .inl (.inl rfl)
            · exact .inl (.inr (.inr hu))
        · obtain ⟨us, s', hrun', hbehind', hrearranged', hus, hweight, horder'⟩ :=
            ih (h.shrink hwithinRight) (by omega) s₁
          refine ⟨us, s', ?_, hbehind.trans hbehind', hwhole.trans hrearranged', hus, by omega,
            fun le hle hseparated => horder' le hle ((hpart le hle hseparated).drop ?_)⟩
          · rw [if_neg (by rw [gt_iff_lt, ptr_lt hsiz]; exact hpush)]
            exact hrun'
          · intro u hu
            simp only [mem_cons] at hu ⊢
            rcases hu with rfl | rfl | hu
            · exact .inr (by simp only; omega)
            · exact .inl (.inl rfl)
            · exact .inl (.inr hu)
    · rw [if_neg (by rw [ptr_lt hsiz]; exact hbe)]
      refine ⟨ts, s, rfl, fun _ _ => rfl, .refl _ _ _, h.tail, Nat.le_add_right _ _,
        fun le hle hseparated => hseparated.drop fun u hu => ?_⟩
      rcases mem_cons.mp hu with rfl | hu
      · exact .inr (by simp only; omega)
      · exact .inl hu

theorem stackLoop_spec (hn : q.nmemb < 2 ^ 64) {steps : Nat} (hsteps : q.nmemb < steps)
    (fuel : Nat) {ts : List Segment} (h : Segments q.nmemb ts) (hfuel : weight ts < fuel)
    (s : QsortState σ) :
    ∃ s', q.stackLoop steps fuel (ts.map q.ends) s = some s' ∧ q.SameBehind s s' ∧
      Rearranges 0 (q.nmemb - 1) (q.slot s) (q.slot s') ∧
      ∀ le, q.Orders le → Separated le q.nmemb (q.slot s) ts →
        Separated le q.nmemb (q.slot s') [] := by
  induction fuel generalizing ts s with
  | zero => exact absurd hfuel (Nat.not_lt_zero _)
  | succ fuel ih =>
    match ts, h, hfuel with
    | [], _, _ =>
      exact ⟨s, by rw [map_nil, stackLoop], fun _ _ => rfl, .refl _ _ _,
        fun _ _ hseparated => hseparated⟩
    | t :: ts, h, hfuel =>
      rw [weight_cons] at hfuel
      have hsize : size t ≤ q.nmemb := by
        calc size t ≤ size t * 2 ^ ts.length := Nat.le_mul_of_pos_right _ (by positivity)
          _ ≤ q.nmemb := h.halved.1
      obtain ⟨us, s₁, hrun, hbehind, hrearranged, hus, hweight, horder⟩ :=
        segmentLoop_spec hsiz hn hsteps steps h (by omega) s
      obtain ⟨s', hrun', hbehind', hrearranged', horder'⟩ := ih hus (by omega) s₁
      refine ⟨s', ?_, hbehind.trans hbehind', hrearranged.trans hrearranged',
        fun le hle hseparated => horder' le hle (horder le hle hseparated)⟩
      rw [map_cons, ends, stackLoop, hrun]
      exact hrun'

/-- The slots of the array, in order. -/
def slots (q : Qsort σ) (s : QsortState σ) : List (List UInt8) :=
  (List.range q.nmemb).map (q.slot s)

omit hsiz in
theorem slots_perm {s s' : QsortState σ} (hpos : 0 < q.nmemb)
    (h : Rearranges 0 (q.nmemb - 1) (q.slot s) (q.slot s')) : (q.slots s').Perm (q.slots s) :=
  Multiset.coe_eq_coe.mp (h.contents_eq (show q.nmemb - 1 < q.nmemb by omega))

omit hsiz in
theorem slots_pairwise {s : QsortState σ} {le : List UInt8 → List UInt8 → Prop}
    (h : Separated le q.nmemb (q.slot s) []) : (q.slots s).Pairwise le := by
  rw [slots, pairwise_map]
  refine List.Pairwise.imp_of_mem ?_ pairwise_lt_range
  intro x y _ hy hxy
  exact h.sorted hxy (mem_range.mp hy)

theorem zendQsortR_run (hn : q.nmemb < 2 ^ 64) {fuel : Nat} (hfuel : q.nmemb + 2 ≤ fuel)
    (s : QsortState σ) : ∃ s', q.zendQsortR fuel s = some s' ∧ q.SameBehind s s' ∧
      (q.slots s').Perm (q.slots s) ∧ ∀ le, q.Orders le → (q.slots s').Pairwise le := by
  have hsize : size (0, (q.nmemb : Int) - 1) = q.nmemb := by
    rw [size]
    omega
  have hsegments : Segments q.nmemb [(0, (q.nmemb : Int) - 1)] := by
    refine ⟨fun t ht => ?_, pairwise_singleton _ _, ?_, trivial⟩
    · rw [mem_singleton.mp ht]
      exact ⟨le_refl _, by simp only; omega⟩
    · rw [hsize, length_nil, pow_zero, Nat.mul_one]
  have hweight : weight [(0, (q.nmemb : Int) - 1)] < fuel := by
    rw [weight_cons, hsize, weight, map_nil, sum_nil]
    omega
  obtain ⟨s', hrun, hbehind, hrearranged, horder⟩ :=
    stackLoop_spec hsiz hn (show q.nmemb < fuel by omega) fuel hsegments hweight s
  refine ⟨s', ?_, hbehind, ?_, fun le hle => slots_pairwise (horder le hle ?_)⟩
  · rw [zendQsortR]
    rw [map_cons, ends, ptr, Int.zero_mul] at hrun
    exact hrun
  · rcases Nat.eq_zero_or_pos q.nmemb with hzero | hpos
    · rw [slots, slots, hzero]
      exact .refl _
    · exact slots_perm hpos hrearranged
  · intro x y _ hy
    exact .inr ⟨_, mem_singleton_self _, by simp, by simp only; omega⟩

/-- With room for `nmemb + 2` turns in each loop the call returns.  It has not left the
array or its stack, and the slots are rearranged; they are sorted if the comparator is a
total preorder. -/
theorem zendQsortR_spec (hn : q.nmemb < 2 ^ 64) {fuel : Nat} (hfuel : q.nmemb + 2 ≤ fuel)
    (s : QsortState σ) : ∃ s', q.zendQsortR fuel s = some s' ∧ (q.slots s').Perm (q.slots s) ∧
      (∀ x, q.nmemb * q.siz ≤ x → s'.mem x = s.mem x) ∧
      ∀ le, q.Orders le → (q.slots s').Pairwise le := by
  obtain ⟨s', hrun, hbehind, hperm, hsorted⟩ := zendQsortR_run hsiz hn hfuel s
  exact ⟨s', hrun, hperm, hbehind, hsorted⟩

end Qsort

/-- Three slots of one byte and a comparator that never takes two slots for equal. -/
def threeBytes : Qsort Unit where
  nmemb := 3
  siz := 1
  compare a b u := (if a.headD 0 < b.headD 0 then -1 else 1, u)

theorem zendQsortR_threeBytes :
    ∃ s', threeBytes.zendQsortR 5 ⟨fun i => 3 - UInt8.ofNat i, ()⟩ = some s' ∧
      (threeBytes.slots s').Perm [[3], [2], [1]] := by
  obtain ⟨s', hrun, hperm, -⟩ := Qsort.zendQsortR_spec (q := threeBytes) (by decide) (by decide)
    (show threeBytes.nmemb + 2 ≤ 5 by decide) ⟨fun i => 3 - UInt8.ofNat i, ()⟩
  exact ⟨s', hrun, hperm⟩

end PhpEngine.ZendQsort

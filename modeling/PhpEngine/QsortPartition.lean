/-
One partition of `zend_qsort_r`: it stays within its segment whatever the comparator
answers, and parts the slots at the pivot if the answers are those of an order.
-/
import PhpEngine.ZendQsort

namespace PhpEngine.ZendQsort

open Memory Rearrangement Function

namespace Qsort

variable {σ : Type} (q : Qsort σ)

/-- The pointer to the slot `i`. -/
def ptr (i : Int) : Int :=
  i * q.siz

/-- The contents of the slot `k`. -/
def slot (s : QsortState σ) (k : Nat) : List UInt8 :=
  slice s.mem (k * q.siz) q.siz

/-- The comparator answers as a total preorder does. -/
structure Orders (le : List UInt8 → List UInt8 → Prop) : Prop where
  total : ∀ a b, le a b ∨ le b a
  trans : ∀ a b c, le a b → le b c → le a c
  above : ∀ a b u, 0 < (q.compare a b u).1 ↔ ¬le a b

section Pointers

theorem ptr_add (i : Int) : q.ptr i + q.siz = q.ptr (i + 1) := by
  rw [ptr, ptr]
  ring

theorem ptr_sub (i : Int) : q.ptr i - q.siz = q.ptr (i - 1) := by
  rw [ptr, ptr]
  ring

variable {q} (hsiz : 0 < q.siz)

include hsiz

theorem ptr_lt {i j : Int} : q.ptr i < q.ptr j ↔ i < j :=
  Int.mul_lt_mul_right (Int.natCast_pos.mpr hsiz)

theorem ptr_le {i j : Int} : q.ptr i ≤ q.ptr j ↔ i ≤ j :=
  Int.mul_le_mul_right (Int.natCast_pos.mpr hsiz)

theorem isSlot_ptr {i : Nat} (hi : i < q.nmemb) : q.IsSlot (q.ptr i) := by
  refine ⟨Int.mul_nonneg (Int.natCast_nonneg i) (Int.natCast_nonneg _), ?_, ⟨i, ?_⟩⟩
  · rw [ptr_add]
    exact (ptr_le hsiz).mpr (by omega)
  · rw [ptr, Int.mul_comm]

omit hsiz in
theorem toNat_ptr (i : Nat) : (q.ptr i).toNat = i * q.siz := by
  rw [ptr, ← Int.natCast_mul, Int.toNat_natCast]

theorem compareAt_ptr {i j : Nat} (hi : i < q.nmemb) (hj : j < q.nmemb) (s : QsortState σ) :
    q.compareAt (q.ptr i) (q.ptr j) s = some ((q.compare (q.slot s i) (q.slot s j) s.user).1,
        { s with user := (q.compare (q.slot s i) (q.slot s j) s.user).2 }) := by
  rw [compareAt, if_pos ⟨isSlot_ptr hsiz hi, isSlot_ptr hsiz hj⟩, toNat_ptr, toNat_ptr]
  rfl

omit hsiz in
theorem apart_slots (i j : Nat) : Apart (i * q.siz) (j * q.siz) q.siz := by
  rcases Nat.lt_trichotomy i j with h | rfl | h
  · right
    left
    calc i * q.siz + q.siz = (i + 1) * q.siz := by ring
      _ ≤ j * q.siz := Nat.mul_le_mul_right _ h
  · exact Or.inl rfl
  · right
    right
    calc j * q.siz + q.siz = (j + 1) * q.siz := by ring
      _ ≤ i * q.siz := Nat.mul_le_mul_right _ h

omit hsiz in
theorem slot_exchanged (s : QsortState σ) (i j k : Nat) :
    q.slot { s with mem := exchanged s.mem (i * q.siz) (j * q.siz) q.siz } k =
      (q.slot s ∘ Equiv.swap i j) k := by
  have hdisjoint : ∀ m : Nat, k ≠ m → ∀ x < q.siz,
      ¬(m * q.siz ≤ k * q.siz + x ∧ k * q.siz + x < m * q.siz + q.siz) := by
    intro m hkm x hx hin
    rcases apart_slots (q := q) k m with h | h | h
    · have := Nat.eq_of_mul_eq_mul_right (by omega) h
      exact hkm this
    · omega
    · omega
  rw [comp_apply, slot, slot, slice, slice]
  apply List.map_congr_left
  intro x hx
  have hx := List.mem_range.mp hx
  change exchanged s.mem (i * q.siz) (j * q.siz) q.siz (k * q.siz + x) =
    s.mem (Equiv.swap i j k * q.siz + x)
  by_cases hki : k = i
  · subst hki
    rw [exchanged, if_pos (by omega), Equiv.swap_apply_left]
    congr 1
    omega
  · rw [exchanged, if_neg (hdisjoint i hki x hx)]
    by_cases hkj : k = j
    · subst hkj
      rw [if_pos (by omega), Equiv.swap_apply_right]
      congr 1
      omega
    · rw [if_neg (hdisjoint j hkj x hx), Equiv.swap_apply_of_ne_of_ne hki hkj]

/-- The bytes behind the array. -/
def SameBehind (q : Qsort σ) (s s' : QsortState σ) : Prop :=
  ∀ x, q.nmemb * q.siz ≤ x → s'.mem x = s.mem x

theorem swapAt_ptr {i j : Nat} (hi : i < q.nmemb) (hj : j < q.nmemb) (s : QsortState σ) :
    ∃ s', q.swapAt (q.ptr i) (q.ptr j) s = some s' ∧ q.SameBehind s s' ∧
      q.slot s' = q.slot s ∘ Equiv.swap i j := by
  refine ⟨{ s with mem := exchanged s.mem (i * q.siz) (j * q.siz) q.siz }, ?_, ?_, ?_⟩
  · rw [swapAt, if_pos ⟨isSlot_ptr hsiz hi, isSlot_ptr hsiz hj⟩, toNat_ptr, toNat_ptr,
      zendQsortSwap_eq (apart_slots i j)]
  · intro x hx
    have hiend : i * q.siz + q.siz ≤ q.nmemb * q.siz := by
      calc i * q.siz + q.siz = (i + 1) * q.siz := by ring
        _ ≤ q.nmemb * q.siz := Nat.mul_le_mul_right _ hi
    have hjend : j * q.siz + q.siz ≤ q.nmemb * q.siz := by
      calc j * q.siz + q.siz = (j + 1) * q.siz := by ring
        _ ≤ q.nmemb * q.siz := Nat.mul_le_mul_right _ hj
    simp only [exchanged]
    rw [if_neg (by omega), if_neg (by omega)]
  · funext k
    exact slot_exchanged s i j k

end Pointers

section Scans

variable {q} (hsiz : 0 < q.siz)

include hsiz

theorem scanUp_spec {b j : Nat} (hb : b < q.nmemb) (hj : j < q.nmemb) (fuel : Nat)
    {i : Nat} (hfuel : j - i < fuel) (s : QsortState σ) :
    ∃ k s', q.scanUp (q.ptr b) fuel (q.ptr i) (q.ptr j) s = some (q.ptr (k : Nat), s') ∧
      s'.mem = s.mem ∧ i ≤ k ∧ k ≤ max i j ∧
      ∀ le, q.Orders le → (∀ x, i ≤ x → x < k → le (q.slot s x) (q.slot s b)) ∧
        (k < j → le (q.slot s b) (q.slot s k)) := by
  induction fuel generalizing i s with
  | zero => exact absurd hfuel (Nat.not_lt_zero _)
  | succ fuel ih =>
    rw [scanUp]
    by_cases hij : i < j
    · rw [if_pos ((ptr_lt hsiz).mpr (by omega)), compareAt_ptr hsiz hb (by omega)]
      by_cases hanswer : (q.compare (q.slot s b) (q.slot s i) s.user).1 > 0
      · obtain ⟨k, s', hrun, hmem, hk, hkj, horder⟩ := ih (i := i + 1) (by omega)
          { s with user := (q.compare (q.slot s b) (q.slot s i) s.user).2 }
        refine ⟨k, s', ?_, hmem, by omega, by omega, fun le hle => ?_⟩
        · simp only [if_pos hanswer, ptr_add]
          exact_mod_cast hrun
        · obtain ⟨hbelow, habove⟩ := horder le hle
          refine ⟨fun x hx hxk => ?_, habove⟩
          by_cases hxi : x = i
          · subst hxi
            exact (hle.total _ _).resolve_left ((hle.above _ _ _).mp hanswer)
          · exact hbelow x (by omega) hxk
      · refine ⟨i, { s with user := (q.compare (q.slot s b) (q.slot s i) s.user).2 },
          by simp only [if_neg hanswer], rfl, le_refl i, by omega,
          fun le hle => ⟨fun x hx hxi => absurd hxi (by omega), fun _ => ?_⟩⟩
        by_contra hnot
        exact hanswer ((hle.above _ _ _).mpr hnot)
    · rw [if_neg (by rw [ptr_lt hsiz]; omega)]
      exact ⟨i, s, rfl, rfl, le_refl i, by omega,
        fun le _ => ⟨fun x hx hxi => absurd hxi (by omega), fun h => absurd h hij⟩⟩

theorem scanDown_spec {b i : Nat} (hb : b < q.nmemb) (hi : 0 < i) (fuel : Nat) {j : Nat}
    (hj : j < q.nmemb) (hij : i ≤ j + 1) (hfuel : j + 1 - i < fuel) (s : QsortState σ) :
    ∃ k s', q.scanDown (q.ptr b) fuel (q.ptr i) (q.ptr j) s = some (q.ptr (k : Nat), s') ∧
      s'.mem = s.mem ∧ k ≤ j ∧ i ≤ k + 1 ∧
      ∀ le, q.Orders le → (∀ x, k < x → x ≤ j → le (q.slot s b) (q.slot s x)) ∧
        (i ≤ k → le (q.slot s k) (q.slot s b)) := by
  induction fuel generalizing j s with
  | zero => exact absurd hfuel (Nat.not_lt_zero _)
  | succ fuel ih =>
    rw [scanDown]
    by_cases hle : i ≤ j
    · rw [if_pos ((ptr_le hsiz).mpr (by omega)), compareAt_ptr hsiz hj hb]
      by_cases hanswer : (q.compare (q.slot s j) (q.slot s b) s.user).1 > 0
      · obtain ⟨k, s', hrun, hmem, hkj, hik, horder⟩ := ih (j := j - 1) (by omega) (by omega)
          (by omega) { s with user := (q.compare (q.slot s j) (q.slot s b) s.user).2 }
        have hprev : ((j - 1 : Nat) : Int) = (j : Int) - 1 := by omega
        rw [hprev] at hrun
        refine ⟨k, s', ?_, hmem, by omega, hik, fun le hle' => ?_⟩
        · simp only [if_pos hanswer, ptr_sub]
          exact hrun
        · obtain ⟨habove, hbelow⟩ := horder le hle'
          refine ⟨fun x hx hxj => ?_, hbelow⟩
          by_cases hxj' : x = j
          · subst hxj'
            exact (hle'.total _ _).resolve_left ((hle'.above _ _ _).mp hanswer)
          · exact habove x hx (by omega)
      · refine ⟨j, { s with user := (q.compare (q.slot s j) (q.slot s b) s.user).2 },
          by simp only [if_neg hanswer], rfl, le_refl j, by omega,
          fun le hle' => ⟨fun x hx hxj => absurd hxj (by omega), fun _ => ?_⟩⟩
        by_contra hnot
        exact hanswer ((hle'.above _ _ _).mpr hnot)
    · rw [if_neg (by rw [ge_iff_le, ptr_le hsiz]; omega)]
      exact ⟨j, s, rfl, rfl, le_refl j, by omega,
        fun le _ => ⟨fun x hx hxj => absurd hxj (by omega), fun h => absurd h hle⟩⟩

end Scans

section Partition

variable {q} {s s' s'' : QsortState σ}

theorem SameBehind.trans (h : q.SameBehind s s') (h' : q.SameBehind s' s'') : q.SameBehind s s'' :=
  fun x hx => (h' x hx).trans (h x hx)

theorem SameBehind.of_mem (h : s'.mem = s.mem) : q.SameBehind s s' :=
  fun x _ => congrFun h x

theorem slot_of_mem (h : s'.mem = s.mem) : q.slot s' = q.slot s := by
  funext k
  rw [slot, slot, h]

/-- The slots from `b + 1` to `e` are parted at `p` by the slot `b`. -/
def PartedAt (le : List UInt8 → List UInt8 → Prop) (f : Nat → List UInt8) (b p e : Nat) : Prop :=
  (∀ x, b < x → x ≤ p → le (f x) (f b)) ∧ ∀ x, p < x → x ≤ e → le (f b) (f x)

variable (hsiz : 0 < q.siz)

include hsiz

theorem partitionLoop_spec {b e steps : Nat} (he : e < q.nmemb) (hsteps : q.nmemb < steps)
    (fuel : Nat) {i j : Nat} (hi : b < i) (hij : i ≤ j + 1) (hje : j ≤ e) (hfuel : j + 1 - i < fuel)
    (s : QsortState σ) : ∃ p s', q.partitionLoop (q.ptr b) steps fuel (q.ptr i) (q.ptr j) s =
        some (q.ptr (p : Nat), s') ∧
      q.SameBehind s s' ∧ b ≤ p ∧ p ≤ j ∧ Rearranges (b + 1) e (q.slot s) (q.slot s') ∧
      ∀ le, q.Orders le → (∀ x, b < x → x < i → le (q.slot s x) (q.slot s b)) →
        (∀ x, j < x → x ≤ e → le (q.slot s b) (q.slot s x)) → PartedAt le (q.slot s') b p e := by
  induction fuel generalizing i j s with
  | zero => exact absurd hfuel (Nat.not_lt_zero _)
  | succ fuel ih =>
    obtain ⟨k, s₁, hup, hmem₁, hik, hkj, hupOrder⟩ :=
      scanUp_spec hsiz (b := b) (j := j) (by omega) (by omega) steps (i := i) (by omega) s
    obtain ⟨m, s₂, hdown, hmem₂, hmj, hkm, hdownOrder⟩ :=
      scanDown_spec hsiz (b := b) (i := k) (by omega) (by omega) steps (j := j)
        (by omega) (by omega) (by omega) s₁
    have hslot₂ : q.slot s₂ = q.slot s := slot_of_mem (hmem₂.trans hmem₁)
    rw [slot_of_mem hmem₁] at hdownOrder
    rw [partitionLoop]
    simp only [hup, hdown]
    by_cases hend : m ≤ k
    · rw [if_pos ((ptr_le hsiz).mpr (by omega))]
      refine ⟨m, s₂, rfl, .of_mem (hmem₂.trans hmem₁), by omega, hmj, ?_, ?_⟩
      · rw [hslot₂]
        exact .refl _ _ _
      · intro le hle hbelow habove
        obtain ⟨hupBelow, -⟩ := hupOrder le hle
        obtain ⟨hdownAbove, hdownLast⟩ := hdownOrder le hle
        rw [hslot₂]
        constructor
        · intro x hbx hxm
          by_cases hxi : x < i
          · exact hbelow x hbx hxi
          · by_cases hxk : x < k
            · exact hupBelow x (by omega) hxk
            · obtain rfl : x = m := by omega
              exact hdownLast (by omega)
        · intro x hmx hxe
          by_cases hxj : x ≤ j
          · exact hdownAbove x hmx hxj
          · exact habove x (by omega) hxe
    · obtain ⟨s₃, hswap, hbehind₃, hslot₃⟩ :=
        swapAt_ptr hsiz (i := k) (j := m) (by omega) (by omega) s₂
      rw [hslot₂] at hslot₃
      obtain ⟨p, s', hrun, hbehind, hbp, hpj, hrearranged, horder⟩ :=
        ih (i := k + 1) (j := m - 1) (by omega) (by omega) (by omega) (by omega) s₃
      have hnext : ((k + 1 : Nat) : Int) = (k : Int) + 1 := by omega
      have hprev : ((m - 1 : Nat) : Int) = (m : Int) - 1 := by omega
      rw [hnext, hprev] at hrun
      rw [if_neg (by rw [ge_iff_le, ptr_le hsiz]; omega)]
      simp only [hswap, ptr_add, ptr_sub]
      refine ⟨p, s', hrun, ?_, hbp, by omega, ?_, ?_⟩
      · exact (SameBehind.of_mem (hmem₂.trans hmem₁)).trans (hbehind₃.trans hbehind)
      · have hexchange : Rearranges (b + 1) e (q.slot s) (q.slot s₃) := by
          rw [hslot₃]
          exact .swap (by omega) (by omega) _
        exact hexchange.trans hrearranged
      · intro le hle hbelow habove
        obtain ⟨hupBelow, hupLast⟩ := hupOrder le hle
        obtain ⟨hdownAbove, hdownLast⟩ := hdownOrder le hle
        have hpivot : q.slot s₃ b = q.slot s b := by
          rw [hslot₃, comp_apply, Equiv.swap_apply_of_ne_of_ne (by omega) (by omega)]
        have hleft : q.slot s₃ k = q.slot s m := by
          rw [hslot₃, comp_apply, Equiv.swap_apply_left]
        have hright : q.slot s₃ m = q.slot s k := by
          rw [hslot₃, comp_apply, Equiv.swap_apply_right]
        have hother : ∀ x, x ≠ k → x ≠ m → q.slot s₃ x = q.slot s x := by
          intro x hxk hxm
          rw [hslot₃, comp_apply, Equiv.swap_apply_of_ne_of_ne hxk hxm]
        apply horder le hle
        · intro x hbx hxk
          rw [hpivot]
          by_cases hx : x = k
          · rw [hx, hleft]
            exact hdownLast (by omega)
          · rw [hother x hx (by omega)]
            by_cases hxi : x < i
            · exact hbelow x hbx hxi
            · exact hupBelow x (by omega) (by omega)
        · intro x hmx hxe
          rw [hpivot]
          by_cases hx : x = m
          · rw [hx, hright]
            exact hupLast (by omega)
          · rw [hother x (by omega) hx]
            by_cases hxj : x ≤ j
            · exact hdownAbove x (by omega) hxj
            · exact habove x (by omega) hxe

omit hsiz in
theorem pivot_ptr {b e : Nat} (hbe : b < e) : ∃ m : Nat, b ≤ m ∧ m ≤ e ∧
      q.ptr b + ((((q.ptr e - q.ptr b) / 2).toNat % 2 ^ 32 -
        ((q.ptr e - q.ptr b) / 2).toNat % 2 ^ 32 % q.siz : Nat) : Int) = q.ptr m := by
  have hdiff : q.ptr e - q.ptr b = (((e - b) * q.siz : Nat) : Int) := by
    rw [ptr, ptr, Nat.cast_mul, Nat.cast_sub (by omega)]
    ring
  rw [hdiff]
  have hhalf : ((((e - b) * q.siz : Nat) : Int) / 2).toNat = (e - b) * q.siz / 2 := by omega
  rw [hhalf]
  generalize hoffset : (e - b) * q.siz / 2 % 2 ^ 32 = offset
  have hle : offset ≤ (e - b) * q.siz := by
    rw [← hoffset]
    exact (Nat.mod_le _ _).trans (Nat.div_le_self _ _)
  refine ⟨b + offset / q.siz, Nat.le_add_right _ _, ?_, ?_⟩
  · rw [Nat.mul_comm] at hle
    have hdiv : offset / q.siz ≤ e - b := Nat.div_le_of_le_mul hle
    omega
  · have hmul : offset - offset % q.siz = offset / q.siz * q.siz := by
      have := Nat.div_add_mod' offset q.siz
      omega
    rw [hmul, ptr, ptr]
    push_cast
    ring

theorem partition_spec {b e steps : Nat} (hbe : b < e) (he : e < q.nmemb)
    (hsteps : q.nmemb < steps) (s : QsortState σ) :
    ∃ p s', q.partition steps (q.ptr b) (q.ptr e) s = some (q.ptr (p : Nat), s') ∧
      q.SameBehind s s' ∧ b ≤ p ∧ p ≤ e ∧ Rearranges b e (q.slot s) (q.slot s') ∧
      ∀ le, q.Orders le → (∀ x, b ≤ x → x < p → le (q.slot s' x) (q.slot s' p)) ∧
        ∀ x, p < x → x ≤ e → le (q.slot s' p) (q.slot s' x) := by
  obtain ⟨m, hbm, hme, hptr⟩ := pivot_ptr (q := q) hbe
  obtain ⟨s₁, hswap₁, hbehind₁, hslot₁⟩ :=
    swapAt_ptr hsiz (i := b) (j := m) (by omega) (by omega) s
  obtain ⟨p, s₂, hrun, hbehind₂, hbp, hpe, hrearranged, horder⟩ :=
    partitionLoop_spec hsiz (b := b) (e := e) he hsteps steps
      (i := b + 1) (j := e) (by omega) (by omega) (le_refl e) (by omega) s₁
  obtain ⟨s₃, hswap₃, hbehind₃, hslot₃⟩ :=
    swapAt_ptr hsiz (i := b) (j := p) (by omega) (by omega) s₂
  have hnext : ((b + 1 : Nat) : Int) = (b : Int) + 1 := by omega
  rw [hnext] at hrun
  refine ⟨p, s₃, ?_, hbehind₁.trans (hbehind₂.trans hbehind₃), hbp, hpe, ?_, ?_⟩
  · rw [partition]
    simp only [hptr, hswap₁, ptr_add, hrun, hswap₃]
  · have hfirst : Rearranges b e (q.slot s) (q.slot s₁) := by
      rw [hslot₁]
      exact .swap (by omega) (by omega) _
    have hlast : Rearranges b e (q.slot s₂) (q.slot s₃) := by
      rw [hslot₃]
      exact .swap (by omega) (by omega) _
    exact hfirst.trans ((hrearranged.mono (by omega) (le_refl e)).trans hlast)
  · intro le hle
    obtain ⟨hbelow, habove⟩ := horder le hle
      (fun x hbx hxb => absurd hxb (by omega)) (fun x hex hxe => absurd hxe (by omega))
    have hpivot : q.slot s₃ p = q.slot s₂ b := by
      rw [hslot₃, comp_apply, Equiv.swap_apply_right]
    have hfirst : q.slot s₃ b = q.slot s₂ p := by
      rw [hslot₃, comp_apply, Equiv.swap_apply_left]
    have hother : ∀ x, x ≠ b → x ≠ p → q.slot s₃ x = q.slot s₂ x := by
      intro x hxb hxp
      rw [hslot₃, comp_apply, Equiv.swap_apply_of_ne_of_ne hxb hxp]
    constructor
    · intro x hbx hxp
      rw [hpivot]
      by_cases hx : x = b
      · rw [hx, hfirst]
        exact hbelow p (by omega) (le_refl p)
      · rw [hother x hx (by omega)]
        exact hbelow x (by omega) (by omega)
    · intro x hpx hxe
      rw [hpivot, hother x (by omega) (by omega)]
      exact habove x hpx hxe

end Partition

end Qsort

end PhpEngine.ZendQsort

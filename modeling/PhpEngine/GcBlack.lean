/-
Turning black again.  When the second phase of the collector meets a grey
node that is referenced from elsewhere, that node and everything behind it
turns black, and its edges count again.
-/
import PhpEngine.GcGraph

namespace PhpEngine

open List

theorem zobjScanBlack_eq (heap : HeapData) (fuel handle : Nat) (s : GcState) :
    zobjScanBlack heap fuel handle s = bucketLoop (fun c s =>
        if (zvalAddRef heap c s).color (.zval c) ≠ .black then
          zvalScanBlack heap fuel c (zvalAddRef heap c s) else some (zvalAddRef heap c s))
        (heap.children handle) (s.setColor (.obj handle) .black) := by
  rw [zobjScanBlack, HeapData.children]
  cases heap.getGc handle with
  | none => rfl
  | some gc => exact getGcLoop_eq _ gc _

theorem zvalScanBlack_succ (heap : HeapData) (fuel z : Nat) (s : GcState) :
    zvalScanBlack heap (fuel + 1) z s = match heap.kind z with
      | .object handle =>
        if ((s.setColor (.zval z) .black).addRef (.obj handle)).color (.obj handle) ≠ .black then
          zobjScanBlack heap fuel handle ((s.setColor (.zval z) .black).addRef (.obj handle))
        else some ((s.setColor (.zval z) .black).addRef (.obj handle))
      | .array elements =>
        bucketLoop (fun c s =>
          if (zvalAddRef heap c s).color (.zval c) ≠ .black then
            zvalScanBlack heap fuel c (zvalAddRef heap c s) else some (zvalAddRef heap c s))
          elements (s.setColor (.zval z) .black)
      | .symbolTable => some (s.setColor (.zval z) .black)
      | .scalar => some (s.setColor (.zval z) .black) := by
  rw [zvalScanBlack]
  cases heap.kind z with
  | object handle =>
    simp only [zobjScanBlack_eq, HeapData.children]
    cases heap.getGc handle with
    | none => rfl
    | some gc => simp only [getGcLoop_eq, GetGc.trimmed_children]
  | array elements | symbolTable | scalar => rfl

/-- A traversal from `starts` that turns black what it reaches and pays the
increments due to `debt`. -/
structure Blacks (heap : Heap) (starts debt : List Node) (s s' : GcState) : Prop extends
    Spreads heap (· = .black) (fun _ c => c = .black) starts s s' where
  step : ∀ n, s'.color n = s.color n ∨ s'.color n = .black ∧ counted s n = false
  balanced : ∀ owed due, Balanced heap s owed (fun x => due x + debt.count x) →
      Balanced heap s' owed due

section BlackSpec

variable {heap : Heap} {s s' s'' : GcState} {starts starts' debt debt' : List Node}

theorem counted_false_of_ne {n : Node} (hblack : s.color n ≠ .black)
    (hpurple : s.color n ≠ .purple) : counted s n = false := by
  cases h : s.color n <;> simp_all [counted]

theorem counted_of_black {n : Node} (h : s.color n = .black) : counted s n = true := by
  simp [counted, h]

namespace Blacks

section

variable (h : Blacks heap starts debt s s')
include h

theorem not_purple {n : Node} (hn : s.color n ≠ .purple) : s'.color n ≠ .purple := by
  rcases h.step n with heq | ⟨heq, _⟩
  · rwa [heq]
  · simp [heq]

theorem counted_mono {n : Node} (hn : counted s n = true) : counted s' n = true := by
  rcases h.step n with heq | ⟨heq, _⟩
  · rwa [counted_congr heq]
  · exact counted_of_black heq

theorem trans (h' : Blacks heap starts' debt' s' s'') :
    Blacks heap (starts ++ starts') (debt ++ debt') s s'' where
  toSpreads := h.toSpreads.trans h'.toSpreads
  step n := by
    rcases h'.step n with heq | ⟨heq, hcounted⟩
    · rw [heq]
      exact h.step n
    · refine .inr ⟨heq, ?_⟩
      by_contra hne
      rw [Bool.not_eq_false] at hne
      rw [h.counted_mono hne] at hcounted
      cases hcounted
  balanced owed due hbalanced := by
    apply h'.balanced
    apply h.balanced
    rwa [← add_count_append]

end

theorem refl (heap : Heap) (s : GcState) : Blacks heap [] [] s s where
  toSpreads := .refl heap s
  step _ := .inl rfl
  balanced owed due h := by simpa using h

theorem of_black {n : Node} (hn : s.color n = .black) : Blacks heap [n] [] s s where
  toSpreads := .of_done hn
  step := (refl heap s).step
  balanced := (refl heap s).balanced

theorem addRef (s : GcState) {n : Node} (htracked : heap.tracked n = true) :
    Blacks heap [] [n] s (s.addRef n) where
  toSpreads := .addRef s htracked
  step _ := .inl rfl
  balanced owed due h := by
    have hpaid := h.addRef
    simpa using hpaid

theorem zvalAddRef (heap : Heap) (s : GcState) (z : Nat) :
    Blacks heap [] [.zval z] s (PhpEngine.zvalAddRef heap.toHeapData z s) where
  toSpreads := .zvalAddRef s z
  step n := .inl (by rw [PhpEngine.zvalAddRef]; split <;> rfl)
  balanced owed due h := by
    have hpaid := h.zvalAddRef
    simpa using hpaid

/-- A node turns black, and the traversal goes on from its successors. -/
theorem enter {n : Node} (hn : n ∈ heap.nodes) (hcounted : counted s n = false)
    (h : Blacks heap (heap.succ n) (heap.succ n) (s.setColor n .black) s') :
    Blacks heap [n] [] s s' where
  toSpreads := h.toSpreads.enter rfl rfl
  step m := by
    by_cases hm : m = n
    · subst hm
      exact .inr ⟨h.keeps m (color_setColor_self s m .black), hcounted⟩
    · have hstep := h.step m
      rwa [color_setColor_of_ne s hm, counted_congr (color_setColor_of_ne s hm _)] at hstep
  balanced owed due hbalanced := by
    apply h.balanced
    have hstart : Balanced heap s owed due := by simpa using hbalanced
    exact hstart.count hn hcounted

end Blacks

/-- No edge leads from a node that does not count to a purple one. -/
def NoPurpleBehind (heap : Heap) (s : GcState) : Prop :=
  ∀ n, counted s n = false → ∀ c ∈ heap.succ n, s.color c ≠ .purple

theorem Blacks.noPurpleBehind (h : Blacks heap starts debt s s')
    (hpre : NoPurpleBehind heap s) : NoPurpleBehind heap s' := by
  intro n hn c hc
  apply h.not_purple
  refine hpre n ?_ c hc
  by_contra hne
  rw [Bool.not_eq_false] at hne
  rw [h.counted_mono hne] at hn
  cases hn

theorem NoPurpleBehind.setColor {n : Node} (hpre : NoPurpleBehind heap s) :
    NoPurpleBehind heap (s.setColor n .black) := by
  intro m hm c hc
  have hmn : m ≠ n := by
    rintro rfl
    rw [counted_of_black (color_setColor_self s m .black)] at hm
    cases hm
  rw [counted_congr (color_setColor_of_ne s hmn _)] at hm
  by_cases hcn : c = n
  · simp [hcn]
  · rw [color_setColor_of_ne s hcn]
    exact hpre m hm c hc

/-- The nodes that are not black yet bound the depth of the recursion. -/
def unblack (heap : Heap) (s : GcState) : Nat :=
  (heap.nodes.filter fun n => s.color n ≠ .black).card

theorem unblack_le_card (heap : Heap) (s : GcState) : unblack heap s ≤ heap.nodes.card :=
  Finset.card_le_card (Finset.filter_subset _ _)

theorem Blacks.unblack_le (h : Blacks heap starts debt s s') :
    unblack heap s' ≤ unblack heap s := by
  apply Finset.card_le_card
  intro n hn
  rw [Finset.mem_filter] at hn ⊢
  exact ⟨hn.1, fun hblack => hn.2 (h.keeps n hblack)⟩

theorem unblack_setColor {n : Node} (hn : n ∈ heap.nodes) (hblack : s.color n ≠ .black) :
    unblack heap (s.setColor n .black) < unblack heap s :=
  card_filter_setColor_lt (P := (· ≠ .black)) hn hblack (not_not.mpr rfl)

theorem ne_black_of_not_counted {n : Node} (h : counted s n = false) : s.color n ≠ .black := by
  intro hblack
  rw [counted_of_black hblack] at h
  cases h

/-- What the calls of `zval_scan_black` with this much fuel do. -/
def ZvalBlacks (heap : Heap) (fuel : Nat) : Prop :=
  ∀ z s, NoPurpleBehind heap s → .zval z ∈ heap.nodes →
    counted s (.zval z) = false → unblack heap s < fuel →
    ∃ s', zvalScanBlack heap.toHeapData fuel z s = some s' ∧ Blacks heap [.zval z] [] s s'

theorem blackLoop_blacks {fuel : Nat} (hzval : ZvalBlacks heap fuel)
    {l : List Nat} (hl : ∀ c ∈ l, Node.zval c ∈ heap.nodes) (hpre : NoPurpleBehind heap s)
    (hpurple : ∀ c ∈ l, s.color (.zval c) ≠ .purple) (hfuel : unblack heap s < fuel) :
    ∃ s', bucketLoop (fun c s =>
        if (zvalAddRef heap.toHeapData c s).color (.zval c) ≠ .black then
          zvalScanBlack heap.toHeapData fuel c (zvalAddRef heap.toHeapData c s)
        else some (zvalAddRef heap.toHeapData c s)) l s = some s' ∧
      Blacks heap (l.map .zval) (l.map .zval) s s' := by
  refine bucketLoop_spec (R := fun l => Blacks heap l l)
    (P := fun s => NoPurpleBehind heap s ∧ (∀ c ∈ l, s.color (.zval c) ≠ .purple) ∧
      unblack heap s < fuel) (fun s _ => Blacks.refl heap s) Blacks.trans
    (fun c hc s ⟨hpre, hpurple, hfuel⟩ => ?_) ⟨hpre, hpurple, hfuel⟩
  have hadd := Blacks.zvalAddRef heap s c
  have hvisit : ∃ s', (if (zvalAddRef heap.toHeapData c s).color (.zval c) ≠ .black then
        zvalScanBlack heap.toHeapData fuel c (zvalAddRef heap.toHeapData c s)
      else some (zvalAddRef heap.toHeapData c s)) = some s' ∧
      Blacks heap [.zval c] [] (zvalAddRef heap.toHeapData c s) s' := by
    split
    next hblack =>
      exact hzval c _ (hadd.noPurpleBehind hpre) (hl c hc)
        (counted_false_of_ne hblack (hadd.not_purple (hpurple c hc)))
        (lt_of_le_of_lt hadd.unblack_le hfuel)
    next hblack => exact ⟨_, rfl, Blacks.of_black (not_not.mp hblack)⟩
  obtain ⟨s', hrun, hblacks⟩ := hvisit
  have hboth := hadd.trans hblacks
  exact ⟨s', hrun, hboth, hboth.noPurpleBehind hpre, fun d hd => hboth.not_purple (hpurple d hd),
    lt_of_le_of_lt hboth.unblack_le hfuel⟩

theorem zobjScanBlack_blacks {fuel handle : Nat}
    (hzval : ZvalBlacks heap fuel) (hpre : NoPurpleBehind heap s)
    (hn : Node.obj handle ∈ heap.nodes) (hcounted : counted s (.obj handle) = false)
    (hfuel : unblack heap s < fuel) : ∃ s', zobjScanBlack heap.toHeapData fuel handle s = some s' ∧
      Blacks heap [.obj handle] [] s s' := by
  rw [zobjScanBlack_eq]
  obtain ⟨s', hrun, hblacks⟩ := blackLoop_blacks hzval (heap.children_mem hn)
    (hpre.setColor (n := .obj handle)) (fun c hc => hpre _ hcounted _ (mem_map_of_mem hc))
    (lt_trans (unblack_setColor hn (ne_black_of_not_counted hcounted)) hfuel)
  exact ⟨s', hrun, hblacks.enter hn hcounted⟩

theorem zvalScanBlack_blacks (heap : Heap) (fuel : Nat) : ZvalBlacks heap fuel := by
  induction fuel with
  | zero =>
    intro z s _ _ _ hfuel
    exact absurd hfuel (Nat.not_lt_zero _)
  | succ fuel ih =>
    intro z s hpre hn hcounted hfuel
    rw [zvalScanBlack_succ]
    have hless : unblack heap (s.setColor (.zval z) .black) < fuel :=
      lt_of_lt_of_le (unblack_setColor hn (ne_black_of_not_counted hcounted))
        (Nat.le_of_lt_succ hfuel)
    cases hkind : heap.kind z with
    | scalar | symbolTable =>
      have hsucc : heap.succ (.zval z) = [] := by
        simp [HeapData.succ, hkind]
      refine ⟨_, rfl, Blacks.enter hn hcounted ?_⟩
      rw [hsucc]
      exact Blacks.refl heap _
    | array elements =>
      have hsucc := HeapData.succ_array hkind
      have hpurple : ∀ c ∈ elements, (s.setColor (.zval z) .black).color (.zval c) ≠ .purple := by
        intro c hc
        by_cases hcz : Node.zval c = .zval z
        · simp [hcz]
        · rw [color_setColor_of_ne s hcz]
          exact hpre _ hcounted _ (hsucc ▸ List.mem_map_of_mem hc)
      obtain ⟨s', hrun, hblacks⟩ := blackLoop_blacks ih (heap.elements_mem hn hkind)
        hpre.setColor hpurple hless
      rw [← hsucc] at hblacks
      exact ⟨s', hrun, hblacks.enter hn hcounted⟩
    | object handle =>
      have hsucc := HeapData.succ_object hkind
      have hadd : Blacks heap [] [.obj handle] (s.setColor (.zval z) .black)
          ((s.setColor (.zval z) .black).addRef (.obj handle)) :=
        Blacks.addRef _ rfl
      have hvisit : ∃ s', (if ((s.setColor (.zval z) .black).addRef
            (.obj handle)).color (.obj handle) ≠ .black then
            zobjScanBlack heap.toHeapData fuel handle
              ((s.setColor (.zval z) .black).addRef (.obj handle))
          else some ((s.setColor (.zval z) .black).addRef (.obj handle))) = some s' ∧
          Blacks heap [.obj handle] [] ((s.setColor (.zval z) .black).addRef (.obj handle)) s' := by
        split
        next hblack =>
          exact zobjScanBlack_blacks ih (hadd.noPurpleBehind hpre.setColor) (heap.obj_mem hn hkind)
            (counted_false_of_ne hblack (hpre _ hcounted (.obj handle) (by simp [hsucc])))
            (lt_of_le_of_lt hadd.unblack_le hless)
        next hblack => exact ⟨_, rfl, Blacks.of_black (not_not.mp hblack)⟩
      obtain ⟨s', hrun, hblacks⟩ := hvisit
      refine ⟨s', hrun, Blacks.enter hn hcounted ?_⟩
      rw [hsucc]
      exact hadd.trans hblacks

end BlackSpec

end PhpEngine

/-
The first phase of the collector.  A traversal turns grey what it reaches and
takes the edges of every grey node out of the counts.
-/
import PhpEngine.GcGraph

namespace PhpEngine

open List

theorem zobjMarkGrey_eq (heap : HeapData) (fuel handle : Nat) (s : GcState) :
    zobjMarkGrey heap fuel handle s = if s.color (.obj handle) = .grey then some s
      else bucketLoop (fun c s => zvalMarkGrey heap fuel c (zvalDelRef heap c s))
        (heap.children handle) (s.setColor (.obj handle) .grey) := by
  rw [zobjMarkGrey, HeapData.children]
  split
  · rfl
  · cases heap.getGc handle with
    | none => rfl
    | some gc => exact getGcLoop_eq _ gc _

/-- The inlined treatment of an object in `zval_mark_grey` is
`zobj_mark_grey` after the count went down. -/
theorem zvalMarkGrey_succ (heap : HeapData) (fuel z : Nat) (s : GcState) :
    zvalMarkGrey heap (fuel + 1) z s = if s.color (.zval z) = .grey then some s
      else match heap.kind z with
        | .object handle =>
          zobjMarkGrey heap fuel handle ((s.setColor (.zval z) .grey).delRef (.obj handle))
        | .symbolTable =>
          some ((s.setColor (.zval z) .grey).setColor (.zval z) .black)
        | .array elements =>
          bucketLoop (fun c s => zvalMarkGrey heap fuel c
            (zvalDelRef heap c s)) elements (s.setColor (.zval z) .grey)
        | .scalar => some (s.setColor (.zval z) .grey) := by
  rw [zvalMarkGrey]
  split
  · rfl
  · cases heap.kind z with
    | object handle =>
      simp only [zobjMarkGrey_eq, HeapData.children]
      cases heap.getGc handle with
      | none => rfl
      | some gc => simp only [getGcLoop_eq, GetGc.trimmed_children]
    | symbolTable | array elements | scalar => rfl

/-- A node that the mark phase has dealt with: grey, or black because it
holds the symbol table. -/
def Visited (heap : Heap) (s : GcState) (n : Node) : Prop :=
  s.color n = .grey ∨ heap.tracked n = false ∧ s.color n = .black

/-- Before and during the mark phase nothing is white, and no holder of the
symbol table is grey. -/
structure MarkPre (heap : Heap) (s : GcState) : Prop where
  noWhite : ∀ n, s.color n ≠ .white
  noGrey : ∀ n, heap.tracked n = false → s.color n ≠ .grey

/-- A traversal from the nodes `starts` that first takes the edges to `debt`
out of the counts. -/
structure Marks (heap : Heap) (starts debt : List Node) (s s' : GcState) : Prop extends
    Spreads heap (· = .grey) (fun n c => c = .grey ∨ heap.tracked n = false ∧ c = .black)
      starts s s' where
  step : ∀ n, s'.color n = s.color n ∨ s'.color n = .grey ∧ heap.tracked n = true ∧ n ∈ heap.nodes ∨
    s'.color n = .black ∧ heap.tracked n = false
  balanced : ∀ owed, Balanced heap s (fun x => owed x + debt.count x)
    (fun _ => 0) → Balanced heap s' owed fun _ => 0

section Spec

variable {heap : Heap} {s s' s'' : GcState} {starts debt : List Node}

namespace Marks

theorem markPre (h : Marks heap starts debt s s') (hpre : MarkPre heap s) : MarkPre heap s' := by
  constructor
  · intro n
    rcases h.step n with heq | ⟨heq, _⟩ | ⟨heq, _⟩
    · rw [heq]
      exact hpre.noWhite n
    · simp [heq]
    · simp [heq]
  · intro n hn
    rcases h.step n with heq | ⟨_, htracked, _⟩ | ⟨heq, _⟩
    · rw [heq]
      exact hpre.noGrey n hn
    · rw [hn] at htracked
      cases htracked
    · simp [heq]

theorem refl (heap : Heap) (s : GcState) : Marks heap [] [] s s where
  toSpreads := .refl heap s
  step _ := .inl rfl
  balanced owed h := by simpa using h

theorem of_visited {n : Node} (hn : Visited heap s n) : Marks heap [n] [] s s where
  toSpreads := .of_done hn
  step := (refl heap s).step
  balanced := (refl heap s).balanced

theorem trans {starts' debt' : List Node} (h : Marks heap starts debt s s')
    (h' : Marks heap starts' debt' s' s'') :
    Marks heap (starts ++ starts') (debt ++ debt') s s'' where
  toSpreads := h.toSpreads.trans h'.toSpreads
  step n := by
    rcases h'.step n with heq | hnew
    · rw [heq]
      exact h.step n
    · exact .inr hnew
  balanced owed hbalanced := by
    apply h'.balanced
    apply h.balanced
    rwa [← add_count_append]

theorem delRef (s : GcState) {n : Node} (htracked : heap.tracked n = true) :
    Marks heap [] [n] s (s.delRef n) where
  toSpreads := .delRef s htracked
  step _ := .inl rfl
  balanced owed h := by
    have hpaid := h.delRef
    simpa using hpaid

theorem zvalDelRef (heap : Heap) (s : GcState) (z : Nat) :
    Marks heap [] [.zval z] s (PhpEngine.zvalDelRef heap.toHeapData z s) where
  toSpreads := .zvalDelRef s z
  step n := .inl (by rw [PhpEngine.zvalDelRef]; split <;> rfl)
  balanced owed h := by
    have hpaid := h.zvalDelRef
    simpa using hpaid

/-- A node turns grey, and the traversal goes on from its successors. -/
theorem enter {n : Node} (hpre : MarkPre heap s) (hn : n ∈ heap.nodes)
    (htracked : heap.tracked n = true) (hgrey : s.color n ≠ .grey)
    (h : Marks heap (heap.succ n) (heap.succ n) (s.setColor n .grey) s') :
    Marks heap [n] [] s s' where
  toSpreads := h.toSpreads.enter rfl (Or.inl rfl)
  step m := by
    by_cases hm : m = n
    · subst hm
      exact .inr (.inl ⟨h.keeps m (color_setColor_self s m .grey), htracked, hn⟩)
    · have hstep := h.step m
      rwa [color_setColor_of_ne s hm] at hstep
  balanced owed hbalanced := by
    apply h.balanced
    have hcounted : counted s n = true := by
      have hwhite := hpre.noWhite n
      cases hcolor : s.color n <;> simp_all [counted]
    have hentered := hbalanced.uncount hn hcounted
    simpa using hentered

end Marks

/-- The nodes that are not grey yet bound the depth of the recursion. -/
def ungrey (heap : Heap) (s : GcState) : Nat :=
  (heap.nodes.filter fun n => s.color n ≠ .grey).card

theorem Marks.ungrey_le (h : Marks heap starts debt s s') : ungrey heap s' ≤ ungrey heap s := by
  apply Finset.card_le_card
  intro n hn
  rw [Finset.mem_filter] at hn ⊢
  exact ⟨hn.1, fun hgrey => hn.2 (h.keeps n hgrey)⟩

theorem ungrey_setColor {n : Node} (hn : n ∈ heap.nodes) (hgrey : s.color n ≠ .grey) :
    ungrey heap (s.setColor n .grey) < ungrey heap s :=
  card_filter_setColor_lt (P := (· ≠ .grey)) hn hgrey (not_not.mpr rfl)

theorem MarkPre.setColor {n : Node} (hpre : MarkPre heap s) (htracked : heap.tracked n = true) :
    MarkPre heap (s.setColor n .grey) := by
  constructor
  · intro m
    by_cases hm : m = n
    · simp [hm]
    · rw [color_setColor_of_ne s hm]
      exact hpre.noWhite m
  · intro m hm
    have hmn := HeapData.ne_of_tracked htracked hm
    rw [color_setColor_of_ne s hmn]
    exact hpre.noGrey m hm

/-- What the calls of `zval_mark_grey` with this much fuel do. -/
def ZvalMarks (heap : Heap) (fuel : Nat) : Prop :=
  ∀ z s, MarkPre heap s → .zval z ∈ heap.nodes → ungrey heap s < fuel →
    ∃ s', zvalMarkGrey heap.toHeapData fuel z s = some s' ∧ Marks heap [.zval z] [] s s'

theorem markLoop_marks {fuel : Nat} (hzval : ZvalMarks heap fuel)
    {l : List Nat} (hl : ∀ c ∈ l, Node.zval c ∈ heap.nodes) (hpre : MarkPre heap s)
    (hfuel : ungrey heap s < fuel) :
    ∃ s', bucketLoop (fun c s => zvalMarkGrey heap.toHeapData fuel c
        (zvalDelRef heap.toHeapData c s)) l s = some s' ∧
      Marks heap (l.map .zval) (l.map .zval) s s' := by
  refine bucketLoop_spec (R := fun l => Marks heap l l)
    (P := fun s => MarkPre heap s ∧ ungrey heap s < fuel) (fun s _ => Marks.refl heap s)
    Marks.trans (fun c hc s ⟨hpre, hfuel⟩ => ?_) ⟨hpre, hfuel⟩
  have hdel := Marks.zvalDelRef heap s c
  obtain ⟨s', hrun, hmarks⟩ := hzval c _ (hdel.markPre hpre) (hl c hc)
    (lt_of_le_of_lt hdel.ungrey_le hfuel)
  have hboth := hdel.trans hmarks
  exact ⟨s', hrun, hboth, hboth.markPre hpre, lt_of_le_of_lt hboth.ungrey_le hfuel⟩

theorem zobjMarkGrey_marks {fuel handle : Nat} (hzval : ZvalMarks heap fuel)
    (hpre : MarkPre heap s) (hn : Node.obj handle ∈ heap.nodes) (hfuel : ungrey heap s < fuel) :
    ∃ s', zobjMarkGrey heap.toHeapData fuel handle s = some s' ∧
      Marks heap [.obj handle] [] s s' := by
  rw [zobjMarkGrey_eq]
  by_cases hgrey : s.color (.obj handle) = .grey
  · rw [if_pos hgrey]
    exact ⟨s, rfl, Marks.of_visited (.inl hgrey)⟩
  · rw [if_neg hgrey]
    obtain ⟨s', hrun, hmarks⟩ := markLoop_marks hzval (heap.children_mem hn) (hpre.setColor rfl)
      (lt_trans (ungrey_setColor hn hgrey) hfuel)
    exact ⟨s', hrun, hmarks.enter hpre hn rfl hgrey⟩

theorem zvalMarkGrey_marks (heap : Heap) (fuel : Nat) : ZvalMarks heap fuel := by
  induction fuel with
  | zero =>
    intro z s _ _ hfuel
    exact absurd hfuel (Nat.not_lt_zero _)
  | succ fuel ih =>
    intro z s hpre hn hfuel
    rw [zvalMarkGrey_succ]
    by_cases hgrey : s.color (.zval z) = .grey
    · rw [if_pos hgrey]
      exact ⟨s, rfl, Marks.of_visited (.inl hgrey)⟩
    · rw [if_neg hgrey]
      have hless : ungrey heap (s.setColor (.zval z) .grey) < fuel :=
        lt_of_lt_of_le (ungrey_setColor hn hgrey) (Nat.le_of_lt_succ hfuel)
      have htracked (hkind : heap.kind z ≠ .symbolTable) : heap.tracked (.zval z) = true := by
        rw [HeapData.tracked, HeapData.isSymbolTable]
        cases h : heap.kind z <;> simp_all
      cases hkind : heap.kind z with
      | scalar =>
        refine ⟨_, rfl, Marks.enter hpre hn (htracked (by simp [hkind])) hgrey ?_⟩
        rw [HeapData.succ_scalar hkind]
        exact Marks.refl heap _
      | array elements =>
        have htracked := htracked (by simp [hkind])
        obtain ⟨s', hrun, hmarks⟩ := markLoop_marks ih (heap.elements_mem hn hkind)
          (hpre.setColor htracked) hless
        rw [← HeapData.succ_array hkind] at hmarks
        exact ⟨s', hrun, hmarks.enter hpre hn htracked hgrey⟩
      | object handle =>
        have htracked := htracked (by simp [hkind])
        have hdel : Marks heap [] [.obj handle] (s.setColor (.zval z) .grey)
            ((s.setColor (.zval z) .grey).delRef (.obj handle)) :=
          Marks.delRef _ rfl
        obtain ⟨s', hrun, hmarks⟩ := zobjMarkGrey_marks ih (hdel.markPre (hpre.setColor htracked))
          (heap.obj_mem hn hkind) (lt_of_le_of_lt hdel.ungrey_le hless)
        refine ⟨s', hrun, Marks.enter hpre hn htracked hgrey ?_⟩
        rw [HeapData.succ_object hkind]
        exact hdel.trans hmarks
      | symbolTable =>
        -- The colour goes to grey and at once to black.
        have htracked : heap.tracked (.zval z) = false := by
          simp [HeapData.tracked, HeapData.isSymbolTable, hkind]
        have hblack : (s.setColor (.zval z) .grey).setColor (.zval z) .black =
            s.setColor (.zval z) .black := by
          simp [GcState.setColor]
        rw [hblack]
        have hstep : ∀ m, (s.setColor (.zval z) .black).color m = s.color m ∨
            m = .zval z ∧ (s.setColor (.zval z) .black).color m = .black := by
          intro m
          by_cases hm : m = .zval z
          · exact .inr ⟨hm, by rw [hm, color_setColor_self]⟩
          · exact .inl (color_setColor_of_ne s hm _)
        have hnew : ∀ m, (s.setColor (.zval z) .black).color m = .grey ↔ s.color m = .grey := by
          intro m
          rcases hstep m with heq | ⟨rfl, heq⟩
          · rw [heq]
          · simp [heq, hgrey]
        refine ⟨_, rfl,
          { frame := rfl
            ptr := word_setColor_ptr _ _ _
            untracked := fun _ _ => rfl
            keeps := fun m hm => (hnew m).mpr hm
            stays := fun m hm => ?_
            done := fun m hm => ?_
            closed := fun m hm hm' => absurd ((hnew m).mp hm') hm
            reach := fun m hm hm' => absurd ((hnew m).mp hm') hm
            step := fun m => ?_
            balanced := fun owed hbalanced => ?_ }⟩
        · rcases hstep m with heq | ⟨rfl, heq⟩
          · rwa [heq]
          · exact .inr ⟨htracked, heq⟩
        · rw [mem_singleton.mp hm]
          exact .inr ⟨htracked, color_setColor_self _ _ _⟩
        · rcases hstep m with heq | ⟨rfl, heq⟩
          · exact .inl heq
          · exact .inr (.inr ⟨heq, htracked⟩)
        · have hwhite := hpre.noWhite (.zval z)
          have hstart : Balanced heap s owed fun _ => 0 := by
            simpa using hbalanced
          refine hstart.congr rfl fun m _ => ?_
          rcases hstep m with heq | ⟨rfl, heq⟩
          · exact counted_congr heq
          · rw [counted, counted, heq]
            cases hc : s.color (.zval z) <;> simp_all

end Spec

end PhpEngine

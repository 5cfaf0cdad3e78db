/-
The second phase of the collector.  A grey node whose count is not zero turns
black with everything behind it; the other grey nodes turn white.
-/
import PhpEngine.GcBlack

namespace PhpEngine

variable {n : Node} {blackFuel : Nat}

theorem zobjScan_eq (heap : HeapData) (blackFuel fuel handle : Nat) (s : GcState) :
    zobjScan heap blackFuel fuel handle s = if s.color (.obj handle) = .grey then
        if 0 < s.refcount (.obj handle) then
          zobjScanBlack heap blackFuel handle s
        else bucketLoop (zvalScan heap blackFuel fuel) (heap.children handle)
          (s.setColor (.obj handle) .white) else some s := by
  rw [zobjScan, HeapData.children]
  cases heap.getGc handle with
  | none => rfl
  | some gc => simp only [getGcLoop_eq]

/-- The inlined treatment of an object in `zval_scan` is `zobj_scan`. -/
theorem zvalScan_succ (heap : HeapData) (blackFuel fuel z : Nat) (s : GcState) :
    zvalScan heap blackFuel (fuel + 1) z s = if s.color (.zval z) = .grey then
        if 0 < s.refcount (.zval z) then zvalScanBlack heap blackFuel z s
        else match heap.kind z with
          | .object handle =>
            zobjScan heap blackFuel fuel handle (s.setColor (.zval z) .white)
          | .symbolTable =>
            some ((s.setColor (.zval z) .white).setColor (.zval z) .black)
          | .array elements =>
            bucketLoop (zvalScan heap blackFuel fuel) elements (s.setColor (.zval z) .white)
          | .scalar => some (s.setColor (.zval z) .white)
      else some s := by
  rw [zvalScan]
  cases heap.kind z with
  | object handle =>
    simp only [zobjScan_eq, HeapData.children]
    cases heap.getGc handle with
    | none => rfl
    | some gc => simp only [getGcLoop_eq, GetGc.trimmed_children]
  | array elements | symbolTable | scalar => rfl

/-- A set of nodes that nothing outside it refers to. -/
def PredClosed (heap : Heap) (garbage : Node → Prop) : Prop :=
  ∀ m n, n ∈ heap.succ m → garbage n → garbage m

/-- What holds of the states between two steps of the scan; `owed` is the
number of references from outside. -/
structure ScanPre (heap : Heap) (owed : Node → Nat) (s : GcState) : Prop where
  purple : NoPurpleBehind heap s
  untracked : ∀ n, heap.tracked n = false → counted s n = true
  balanced : Balanced heap s owed fun _ => 0

/-- The sum of all edges into a node and its outside references is a count
that the machine can hold. -/
def Fits (heap : Heap) (owed : Node → Nat) : Prop :=
  ∀ x, heap.tracked x = true → edgesFrom heap.succ heap.nodes (fun _ => true) x + owed x < uintMod

/-- A scan from the nodes `starts`. -/
structure Scans (heap : Heap) (owed : Node → Nat) (starts : List Node)
    (s s' : GcState) : Prop extends
    Spreads heap (· ≠ .grey) (fun _ c => c ≠ .grey) starts s s' where
  step : ∀ n, s'.color n = s.color n ∨ s.color n = .grey ∧ s'.color n = .white ∨
    s'.color n = .black ∧ counted s n = false
  black : ∀ n, s.color n ≠ .black → s'.color n = .black → ∀ c ∈ heap.succ n, s'.color c = .black
  white : ∀ n, s.color n = .grey → s'.color n = .white →
    owed n = 0 ∧ ∀ m ∈ heap.nodes, counted s m = true → n ∉ heap.succ m
  garbage : ∀ garbage : Node → Prop, PredClosed heap garbage →
    (∀ n, garbage n → owed n = 0 ∧ counted s n = false) → ∀ n, garbage n → counted s' n = false
  pre : ScanPre heap owed s'

section ScanSpec

variable {heap : Heap} {owed : Node → Nat} {s s' s'' : GcState} {starts starts' : List Node}

namespace Scans

theorem refl (hpre : ScanPre heap owed s) : Scans heap owed [] s s where
  toSpreads := .refl heap s
  step _ := .inl rfl
  black _ hn hn' := absurd hn' hn
  white _ hn hn' := by simp [hn] at hn'
  garbage _ _ h n hn := (h n hn).2
  pre := hpre

theorem of_not_grey (hpre : ScanPre heap owed s) (hn : s.color n ≠ .grey) :
    Scans heap owed [n] s s :=
  { refl hpre with toSpreads := .of_done hn }

section

variable (h : Scans heap owed starts s s')
include h

theorem keeps_black (hn : s.color n = .black) : s'.color n = .black := by
  rcases h.step n with heq | ⟨hgrey, _⟩ | ⟨heq, _⟩
  · rw [heq, hn]
  · simp [hn] at hgrey
  · exact heq

theorem counted_mono (hn : counted s n = true) : counted s' n = true := by
  rcases h.step n with heq | ⟨hgrey, _⟩ | ⟨heq, _⟩
  · rwa [counted_congr heq]
  · simp [counted, hgrey] at hn
  · exact counted_of_black heq

/-- A node that ends up grey was so all along. -/
theorem was_grey (hn : s'.color n = .grey) : s.color n = .grey := by
  by_contra hne
  exact h.keeps n hne hn

theorem trans (h' : Scans heap owed starts' s' s'') : Scans heap owed (starts ++ starts') s s'' where
  toSpreads := h.toSpreads.trans h'.toSpreads
  step n := by
    rcases h'.step n with heq | ⟨hn, heq⟩ | ⟨heq, hcounted⟩
    · rw [heq]
      exact h.step n
    · exact .inr (.inl ⟨h.was_grey hn, heq⟩)
    · refine .inr (.inr ⟨heq, ?_⟩)
      by_contra hne
      rw [Bool.not_eq_false] at hne
      rw [h.counted_mono hne] at hcounted
      cases hcounted
  black n hn hn'' c hc := by
    by_cases hn' : s'.color n = .black
    · exact h'.keeps_black (h.black n hn hn' c hc)
    · exact h'.black n hn' hn'' c hc
  white n hn hn'' := by
    by_cases hn' : s'.color n = .grey
    · obtain ⟨howed, hedges⟩ := h'.white n hn' hn''
      exact ⟨howed, fun m hm hcounted => hedges m hm (h.counted_mono hcounted)⟩
    · rcases h'.step n with heq | ⟨hgrey', _⟩ | ⟨heq, _⟩
      · exact h.white n hn (by rw [← heq, hn''])
      · exact absurd hgrey' hn'
      · simp [heq] at hn''
  garbage garbage hclosed hstart :=
    h'.garbage garbage hclosed fun m hm =>
      ⟨(hstart m hm).1, h.garbage garbage hclosed hstart m hm⟩
  pre := h'.pre

end

end Scans

section

variable (hpre : ScanPre heap owed s) (hfits : Fits heap owed) (hn : heap.tracked n = true)
include hpre hfits hn

theorem ScanPre.refcount_eq : s.refcount n =
      edgesFrom heap.succ heap.nodes (counted s) n + owed n := by
  apply hpre.balanced.refcount_eq hn
  have hle : edgesFrom heap.succ heap.nodes (counted s) n ≤
      edgesFrom heap.succ heap.nodes (fun _ => true) n :=
    edgesFrom_mono fun _ _ => rfl
  have hfit := hfits n hn
  omega

/-- A count of zero: no counted node refers to it, and nothing outside. -/
theorem ScanPre.refcount_eq_zero (hzero : s.refcount n = 0) :
    owed n = 0 ∧ ∀ m ∈ heap.nodes, counted s m = true → n ∉ heap.succ m := by
  rw [hpre.refcount_eq hfits hn] at hzero
  obtain ⟨hedges, howed⟩ := Nat.add_eq_zero_iff.mp hzero
  exact ⟨howed, fun m hm hcounted =>
    not_mem_of_edgesFrom_eq_zero hedges hm hcounted⟩

/-- A positive count keeps a node out of every garbage set. -/
theorem ScanPre.not_garbage (hpos : 0 < s.refcount n) {garbage : Node → Prop}
    (hclosed : PredClosed heap garbage)
    (hstart : ∀ n, garbage n → owed n = 0 ∧ counted s n = false) :
    ¬ garbage n := by
  intro hgarbage
  have hedges : edgesFrom heap.succ heap.nodes (counted s) n = 0 := by
    apply edgesFrom_eq_zero
    intro m _ hcounted hmem
    rw [(hstart m (hclosed m n hmem hgarbage)).2] at hcounted
    cases hcounted
  rw [hpre.refcount_eq hfits hn, hedges, (hstart n hgarbage).1] at hpos
  exact lt_irrefl 0 hpos

end

theorem ScanPre.tracked_of_not_counted (hpre : ScanPre heap owed s)
    (hn : counted s n = false) : heap.tracked n = true := by
  by_contra hne
  rw [Bool.not_eq_true] at hne
  rw [hpre.untracked n hne] at hn
  cases hn

theorem Blacks.scans (h : Blacks heap [n] [] s s')
    (hpre : ScanPre heap owed s) (hfits : Fits heap owed)
    (hcounted : counted s n = false) (hpos : 0 < s.refcount n) : Scans heap owed [n] s s' := by
  have hgrey : ∀ m, s'.color m = .black → s'.color m ≠ .grey := by
    intro m hm
    simp [hm]
  have hnew : ∀ m, ¬ s.color m ≠ .grey → s'.color m ≠ .grey →
      s.color m ≠ .black ∧ s'.color m = .black := by
    intro m hm hm'
    rw [not_not] at hm
    refine ⟨by simp [hm], ?_⟩
    rcases h.step m with heq | ⟨heq, _⟩
    · rw [heq, hm] at hm'
      exact absurd rfl hm'
    · exact heq
  have hkeeps : ∀ m, s.color m ≠ .grey → s'.color m ≠ .grey := by
    intro m hm
    rcases h.step m with heq | ⟨heq, _⟩
    · rwa [heq]
    · exact hgrey m heq
  exact
    { frame := h.frame
      ptr := h.ptr
      untracked := h.untracked
      keeps := hkeeps
      stays := hkeeps
      done := fun m hm => hgrey m (h.done m hm)
      closed := fun m hm hm' c hc =>
        hgrey c (h.closed m (hnew m hm hm').1 (hnew m hm hm').2 c hc)
      reach := fun m hm hm' => by
        obtain ⟨r, hr, hpath⟩ := h.reach m (hnew m hm hm').1 (hnew m hm hm').2
        exact ⟨r, hr, hpath.mono hgrey⟩
      step := fun m => (h.step m).imp_right Or.inr
      black := h.closed
      white := fun m hm hm' => by
        rw [(hnew m (not_not.mpr hm) (by simp [hm'])).2] at hm'
        cases hm'
      garbage := fun garbage hclosed hstart m hm => by
        have hnot : ¬ garbage n := hpre.not_garbage hfits
          (hpre.tracked_of_not_counted hcounted) hpos hclosed hstart
        rcases h.step m with heq | ⟨heq, hfalse⟩
        · rw [counted_congr heq]
          exact (hstart m hm).2
        · obtain ⟨r, hr, hpath⟩ := h.reach m (ne_black_of_not_counted hfalse) heq
          rw [List.mem_singleton.mp hr] at hpath
          exact absurd (hpath.closed_back hm hclosed) hnot
      pre := ⟨h.noPurpleBehind hpre.purple,
        fun m hm => h.counted_mono (hpre.untracked m hm),
        h.balanced owed (fun _ => 0) (by simpa using hpre.balanced)⟩ }

theorem counted_setColor_white (hn : counted s n = false) :
    ∀ m, counted (s.setColor n .white) m = counted s m := by
  intro m
  rw [counted_setColor]
  by_cases hm : m = n
  · subst hm
    rw [Function.update_self, hn]
    rfl
  · rw [Function.update_of_ne hm]

theorem ScanPre.setColor_white (hpre : ScanPre heap owed s)
    (hn : counted s n = false) : ScanPre heap owed (s.setColor n .white) := by
  have hsame := counted_setColor_white hn
  refine ⟨?_, ?_, hpre.balanced.congr rfl fun m _ => hsame m⟩
  · intro m hm c hc
    rw [hsame m] at hm
    by_cases hcn : c = n
    · simp [hcn]
    · rw [color_setColor_of_ne s hcn]
      exact hpre.purple m hm c hc
  · intro m hm
    rw [hsame m]
    exact hpre.untracked m hm

/-- A grey node with count zero turns white, and the scan goes on from its
successors. -/
theorem Scans.enter (hpre : ScanPre heap owed s)
    (hfits : Fits heap owed) (hgrey : s.color n = .grey) (hzero : s.refcount n = 0)
    (h : Scans heap owed (heap.succ n) (s.setColor n .white) s') : Scans heap owed [n] s s' := by
  have hcounted : counted s n = false := by simp [counted, hgrey]
  have hsame := counted_setColor_white hcounted
  have hother {m : Node} (hm : m ≠ n) : (s.setColor n .white).color m = s.color m :=
    color_setColor_of_ne s hm _
  exact
    { toSpreads := h.toSpreads.enter (by decide) (by decide)
      step := fun m => by
        by_cases hm : m = n
        · subst hm
          rcases h.step m with heq | ⟨heq, _⟩ | ⟨heq, _⟩
          · exact .inr (.inl ⟨hgrey, by rw [heq, color_setColor_self]⟩)
          · simp at heq
          · exact .inr (.inr ⟨heq, hcounted⟩)
        · have hstep := h.step m
          rwa [hother hm, hsame m] at hstep
      black := fun m hm hm' c hc => by
        refine h.black m ?_ hm' c hc
        by_cases hmn : m = n
        · simp [hmn]
        · rwa [hother hmn]
      white := fun m hm hm' => by
        by_cases hmn : m = n
        · subst hmn
          exact hpre.refcount_eq_zero hfits (hpre.tracked_of_not_counted hcounted) hzero
        · obtain ⟨howed, hedges⟩ := h.white m (by rwa [hother hmn]) hm'
          exact ⟨howed, fun k hk hc => hedges k hk (by rw [hsame k, hc])⟩
      garbage := fun garbage hclosed hstart =>
        h.garbage garbage hclosed fun m hm => by
          rw [hsame m]
          exact hstart m hm
      pre := h.pre }

/-- The grey nodes bound the depth of the recursion. -/
def greyCount (heap : Heap) (s : GcState) : Nat :=
  (heap.nodes.filter fun n => s.color n = .grey).card

theorem Scans.greyCount_le (h : Scans heap owed starts s s') :
    greyCount heap s' ≤ greyCount heap s := by
  apply Finset.card_le_card
  intro n hn
  rw [Finset.mem_filter] at hn ⊢
  exact ⟨hn.1, h.was_grey hn.2⟩

theorem greyCount_setColor (hn : n ∈ heap.nodes) (hgrey : s.color n = .grey) :
    greyCount heap (s.setColor n .white) < greyCount heap s :=
  card_filter_setColor_lt (P := (· = .grey)) hn hgrey (by decide)

/-- What the calls of `zval_scan` with this much fuel do. -/
def ZvalScans (heap : Heap) (owed : Node → Nat) (blackFuel fuel : Nat) : Prop :=
  ∀ z s, ScanPre heap owed s → .zval z ∈ heap.nodes → greyCount heap s < fuel →
    ∃ s', zvalScan heap.toHeapData blackFuel fuel z s = some s' ∧ Scans heap owed [.zval z] s s'

theorem scanLoop_scans {fuel : Nat} (hzval : ZvalScans heap owed blackFuel fuel) {l : List Nat}
    (hl : ∀ c ∈ l, Node.zval c ∈ heap.nodes) (hpre : ScanPre heap owed s)
    (hfuel : greyCount heap s < fuel) :
    ∃ s', bucketLoop (zvalScan heap.toHeapData blackFuel fuel) l s =
        some s' ∧ Scans heap owed (l.map .zval) s s' := by
  refine bucketLoop_spec (P := fun s => ScanPre heap owed s ∧ greyCount heap s < fuel)
    (fun s hpre => Scans.refl hpre.1) Scans.trans (fun c hc s ⟨hpre, hfuel⟩ => ?_) ⟨hpre, hfuel⟩
  obtain ⟨s', hrun, hscans⟩ := hzval c s hpre (hl c hc) hfuel
  exact ⟨s', hrun, hscans, hscans.pre, lt_of_le_of_lt hscans.greyCount_le hfuel⟩

theorem zobjScan_scans {fuel handle : Nat}
    (hfits : Fits heap owed) (hblack : heap.nodes.card < blackFuel)
    (hzval : ZvalScans heap owed blackFuel fuel)
    (hpre : ScanPre heap owed s) (hn : Node.obj handle ∈ heap.nodes)
    (hfuel : greyCount heap s < fuel) :
    ∃ s', zobjScan heap.toHeapData blackFuel fuel handle s = some s' ∧
      Scans heap owed [.obj handle] s s' := by
  rw [zobjScan_eq]
  by_cases hgrey : s.color (.obj handle) = .grey
  · have hcounted : counted s (.obj handle) = false := by
      simp [counted, hgrey]
    rw [if_pos hgrey]
    by_cases hpos : 0 < s.refcount (.obj handle)
    · rw [if_pos hpos]
      obtain ⟨s', hrun, hblacks⟩ := zobjScanBlack_blacks
        (zvalScanBlack_blacks heap blackFuel) hpre.purple hn hcounted
        (lt_of_le_of_lt (unblack_le_card heap s) hblack)
      exact ⟨s', hrun, hblacks.scans hpre hfits hcounted hpos⟩
    · rw [if_neg hpos]
      obtain ⟨s', hrun, hscans⟩ := scanLoop_scans hzval (heap.children_mem hn)
        (hpre.setColor_white hcounted) (lt_trans (greyCount_setColor hn hgrey) hfuel)
      exact ⟨s', hrun, Scans.enter hpre hfits hgrey (Nat.eq_zero_of_not_pos hpos) hscans⟩
  · rw [if_neg hgrey]
    exact ⟨s, rfl, Scans.of_not_grey hpre hgrey⟩

theorem zvalScan_scans (hfits : Fits heap owed)
    (hblack : heap.nodes.card < blackFuel) (fuel : Nat) : ZvalScans heap owed blackFuel fuel := by
  induction fuel with
  | zero =>
    intro z s _ _ hfuel
    exact absurd hfuel (Nat.not_lt_zero _)
  | succ fuel ih =>
    intro z s hpre hn hfuel
    rw [zvalScan_succ]
    by_cases hgrey : s.color (.zval z) = .grey
    · have hcounted : counted s (.zval z) = false := by
        simp [counted, hgrey]
      rw [if_pos hgrey]
      by_cases hpos : 0 < s.refcount (.zval z)
      · rw [if_pos hpos]
        obtain ⟨s', hrun, hblacks⟩ := zvalScanBlack_blacks heap blackFuel z s
          hpre.purple hn hcounted
          (lt_of_le_of_lt (unblack_le_card heap s) hblack)
        exact ⟨s', hrun, hblacks.scans hpre hfits hcounted hpos⟩
      · rw [if_neg hpos]
        have hzero := Nat.eq_zero_of_not_pos hpos
        have hpre₁ := hpre.setColor_white hcounted
        have hless : greyCount heap (s.setColor (.zval z) .white) < fuel :=
          lt_of_lt_of_le (greyCount_setColor hn hgrey) (Nat.le_of_lt_succ hfuel)
        cases hkind : heap.kind z with
        | scalar =>
          have hsucc := HeapData.succ_scalar hkind
          refine ⟨_, rfl, Scans.enter hpre hfits hgrey hzero ?_⟩
          rw [hsucc]
          exact Scans.refl hpre₁
        | symbolTable =>
          -- A holder of the symbol table is never grey here.
          have htracked := hpre.tracked_of_not_counted hcounted
          simp [HeapData.tracked, HeapData.isSymbolTable, hkind] at htracked
        | array elements =>
          obtain ⟨s', hrun, hscans⟩ := scanLoop_scans ih (heap.elements_mem hn hkind) hpre₁ hless
          rw [← HeapData.succ_array hkind] at hscans
          exact ⟨s', hrun, Scans.enter hpre hfits hgrey hzero hscans⟩
        | object handle =>
          have hsucc := HeapData.succ_object hkind
          have hobj := heap.obj_mem hn hkind
          obtain ⟨s', hrun, hscans⟩ :=
            zobjScan_scans hfits hblack ih hpre₁ hobj hless
          rw [← hsucc] at hscans
          exact ⟨s', hrun, Scans.enter hpre hfits hgrey hzero hscans⟩
    · rw [if_neg hgrey]
      exact ⟨s, rfl, Scans.of_not_grey hpre hgrey⟩

end ScanSpec

end PhpEngine

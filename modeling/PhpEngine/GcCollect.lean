/-
The third phase of the collector.  White nodes that are not pending roots are
taken up: their edges count again, and the zvals among them go on the list of
zvals to free with one more reference.
-/
import PhpEngine.GcGraph

namespace PhpEngine

open List

variable {z fuel : Nat} {n : Node} {pending : List Node} {new : List Nat}

theorem zobjCollectWhite_eq (heap : HeapData) (fuel handle : Nat) (s : GcState) :
    zobjCollectWhite heap fuel handle s = if s.isWhite (.obj handle) then
        bucketLoop (fun c s => zvalCollectWhite heap fuel c
          (zvalAddRef heap c s)) (heap.children handle) (s.setColor (.obj handle) .purple)
      else some s := by
  rw [zobjCollectWhite, HeapData.children]
  cases heap.getGc handle with
  | none => rfl
  | some gc => simp only [getGcLoop_eq]

/-- The list from a pointer on, linked through the words of its zvals. -/
def FreeList (s : GcState) : GcPtr → List Nat → Prop
  | ptr, [] => ptr = .listEnd
  | ptr, z :: rest => ptr = .zval z ∧
      ∃ next, s.word (.zval z) = ⟨next, .black⟩ ∧ FreeList s next rest

theorem FreeList.congr {s s' : GcState} {ptr : GcPtr} {l : List Nat} (h : FreeList s ptr l)
    (hword : ∀ z ∈ l, s'.word (.zval z) = s.word (.zval z)) : FreeList s' ptr l := by
  induction l generalizing ptr with
  | nil => exact h
  | cons z rest ih =>
    obtain ⟨hptr, next, hz, hrest⟩ := h
    refine ⟨hptr, next, by rw [hword z mem_cons_self, hz], ?_⟩
    exact ih hrest fun c hc => hword c (mem_cons_of_mem z hc)

theorem FreeList.color {s : GcState} {ptr : GcPtr} {l : List Nat}
    (h : FreeList s ptr l) (hz : z ∈ l) : s.color (.zval z) = .black := by
  induction l generalizing ptr with
  | nil => simp at hz
  | cons c rest ih =>
    obtain ⟨-, next, hc, hrest⟩ := h
    rcases mem_cons.mp hz with rfl | hz
    · rw [GcState.color, hc]
    · exact ih hrest hz

section White

variable {s : GcState} {n : Node}

theorem color_of_isWhite (h : s.isWhite n = true) : s.color n = .white := by
  have hword : s.word n = ⟨.null, .white⟩ := by
    simpa [GcState.isWhite] using h
  rw [GcState.color, hword]

theorem isWhite_eq_false (h : counted s n = true) : s.isWhite n = false := by
  by_contra hne
  rw [Bool.not_eq_false] at hne
  simp [counted, color_of_isWhite hne] at h

theorem not_counted_of_isWhite (h : s.isWhite n = true) : counted s n = false := by
  simp [counted, color_of_isWhite h]

theorem isWhite_congr {s' : GcState} {m : Node}
    (h : s'.word m = s.word m) : s'.isWhite m = s.isWhite m := by
  rw [GcState.isWhite, GcState.isWhite, h]

@[simp] theorem isWhite_addRef (s : GcState) (n m : Node) :
    (s.addRef n).isWhite m = s.isWhite m := rfl

theorem word_setColor_of_ne (s : GcState) {m : Node} (h : m ≠ n)
    (c : Color) : (s.setColor n c).word m = s.word m := by
  simp [GcState.setColor, h]

end White

/-- A part of the collection.  Successors of the `pending` nodes are still to
be visited, the `unpushed` zvals still to be put on the list; `new` are those
that were put on it. -/
structure Collects (heap : Heap) (starts pending : List Node)
    (unpushed new : List Nat) (s s' : GcState) : Prop where
  frame : s' = { s with
    refcount := s'.refcount
    word := s'.word
    zvalToFree := s'.zvalToFree }
  objCount : ∀ handle, s'.refcount (.obj handle) = s.refcount (.obj handle)
  untracked : ∀ n, heap.tracked n = false → s'.refcount n = s.refcount n
  step : ∀ n, s'.word n = s.word n ∨ s.isWhite n = true ∧ counted s' n = true
  done : ∀ n ∈ starts, s'.isWhite n = false
  closed : ∀ n, n ∉ pending → s.isWhite n = true → s'.isWhite n = false →
    ∀ c ∈ heap.succ n, s'.isWhite c = false
  collected : ∀ z, s.isWhite (.zval z) = true ∧ s'.isWhite (.zval z) = false ↔
    z ∈ new ∨ z ∈ unpushed
  nodup : (unpushed ++ new).Nodup
  list : ∀ l, FreeList s s.zvalToFree l → FreeList s' s'.zvalToFree (new ++ l)

/-- The ledger of the zvals.  The counts of the objects are not touched in
this phase. -/
def ZvalBalanced (heap : Heap) (s : GcState) (owed due : Node → Nat) : Prop :=
  ∀ z, heap.tracked (.zval z) = true → BalancedAt heap s owed due (.zval z)

section Steps

variable {heap : Heap} {s s' s'' : GcState} {starts pending : List Node} {unpushed new : List Nat}

namespace Collects

theorem refl (heap : Heap) (s : GcState) : Collects heap [] [] [] [] s s where
  frame := rfl
  objCount := fun _ => rfl
  untracked := fun _ _ => rfl
  step := fun _ => Or.inl rfl
  done := by simp
  closed := fun n _ hn hn' => by simp [hn] at hn'
  collected := fun z => by simp
  nodup := by simp
  list := fun l h => h

theorem of_not_white (hn : s.isWhite n = false) : Collects heap [n] [] [] [] s s :=
  { Collects.refl heap s with
    done := fun m hm => by rw [mem_singleton.mp hm, hn] }

section

variable (h : Collects heap starts pending unpushed new s s')
include h

theorem not_white (hn : s.isWhite n = false) : s'.isWhite n = false := by
  rcases h.step n with heq | ⟨hwhite, _⟩
  · rw [isWhite_congr heq, hn]
  · rw [hn] at hwhite
    cases hwhite

theorem was_white (hn : s'.isWhite n = true) : s.isWhite n = true := by
  by_contra hne
  rw [Bool.not_eq_true] at hne
  rw [h.not_white hne] at hn
  cases hn

theorem counted_mono (hn : counted s n = true) : counted s' n = true := by
  rcases h.step n with heq | ⟨_, hcounted⟩
  · rwa [counted, GcState.color, heq]
  · exact hcounted

theorem trans {starts' pending' : List Node} {new' : List Nat}
    (h' : Collects heap starts' pending' [] new' s' s'') :
    Collects heap (starts ++ starts') (pending ++ pending') unpushed (new' ++ new) s s'' := by
  refine
    { frame := by rw [h'.frame, h.frame]
      objCount := fun handle => (h'.objCount handle).trans (h.objCount handle)
      untracked := fun n hn => (h'.untracked n hn).trans (h.untracked n hn)
      step := ?_
      done := ?_
      closed := ?_
      collected := ?_
      nodup := ?_
      list := ?_ }
  · intro n
    rcases h'.step n with heq | ⟨hwhite, hcounted⟩
    · rcases h.step n with heq' | ⟨hwhite, hcounted⟩
      · exact .inl (heq.trans heq')
      · exact .inr ⟨hwhite, h'.counted_mono hcounted⟩
    · exact .inr ⟨h.was_white hwhite, hcounted⟩
  · intro n hn
    rcases mem_append.mp hn with hn | hn
    · exact h'.not_white (h.done n hn)
    · exact h'.done n hn
  · intro n hpending hn hn'' c hc
    rw [mem_append, not_or] at hpending
    cases hn' : s'.isWhite n with
    | false => exact h'.not_white (h.closed n hpending.1 hn hn' c hc)
    | true => exact h'.closed n hpending.2 hn' hn'' c hc
  · intro z
    have hfirst := h.collected z
    have hsecond := h'.collected z
    rw [mem_append]
    constructor
    · rintro ⟨hwhite, hdone⟩
      cases hz : s'.isWhite (.zval z) with
      | false =>
        rcases hfirst.mp ⟨hwhite, hz⟩ with hmem | hmem
        · exact .inl (.inr hmem)
        · exact .inr hmem
      | true =>
        have hmem := hsecond.mp ⟨hz, hdone⟩
        exact .inl (.inl (by simpa using hmem))
    · intro hmem
      have hcases : z ∈ new' ∨ z ∈ new ∨ z ∈ unpushed := by tauto
      rcases hcases with hmem | hmem
      · obtain ⟨hz, hdone⟩ := hsecond.mpr (.inl hmem)
        exact ⟨h.was_white hz, hdone⟩
      · obtain ⟨hz, hdone⟩ := hfirst.mpr hmem
        exact ⟨hz, h'.not_white hdone⟩
  · have hleft := nodup_append.mp h.nodup
    have hnew' : new'.Nodup := by simpa using h'.nodup
    -- What the second part collects was still white after the first.
    have hdisjoint : ∀ z ∈ new', z ∉ new ∧ z ∉ unpushed := by
      intro z hz
      have hwhite := ((h'.collected z).mpr (.inl hz)).1
      constructor
      · intro hmem
        rw [((h.collected z).mpr (.inl hmem)).2] at hwhite
        cases hwhite
      · intro hmem
        rw [((h.collected z).mpr (.inr hmem)).2] at hwhite
        cases hwhite
    rw [nodup_append]
    refine ⟨hleft.1, nodup_append.mpr ⟨hnew', hleft.2.1, ?_⟩, ?_⟩
    · rintro a ha b hb rfl
      exact (hdisjoint a ha).1 hb
    · rintro a ha b hb rfl
      rcases mem_append.mp hb with hb | hb
      · exact (hdisjoint a hb).2 ha
      · exact hleft.2.2 a ha a hb rfl
  · intro l hl
    rw [append_assoc]
    exact h'.list _ (h.list l hl)

end

theorem addRef (s : GcState) (htracked : heap.tracked (.zval z) = true) :
    Collects heap [] [] [] [] s (s.addRef (.zval z)) where
  frame := rfl
  objCount := fun handle => by simp [GcState.addRef]
  untracked := fun m hm => by
    have hmz := HeapData.ne_of_tracked htracked hm
    simp [GcState.addRef, hmz]
  step := fun _ => Or.inl rfl
  done := by simp
  closed := fun n _ hn hn' => by
    rw [isWhite_addRef, hn] at hn'
    cases hn'
  collected := fun w => by simp
  nodup := by simp
  list := fun l h => h.congr fun _ _ => rfl

theorem zvalAddRef (heap : Heap) (s : GcState) (z : Nat) : Collects heap [] [] [] [] s
      (PhpEngine.zvalAddRef heap.toHeapData z s) := by
  rw [PhpEngine.zvalAddRef]
  split
  next => exact Collects.refl heap s
  next hsymbol =>
    exact Collects.addRef s (by simpa [HeapData.tracked] using hsymbol)

/-- A white node is recoloured; a zval has to be put on the list later. -/
theorem recolor (hn : s.isWhite n = true) {c : Color}
    (hc : c = .black ∨ c = .purple) (unpushed : List Nat)
    (hunpushed : ∀ z, z ∈ unpushed ↔ n = .zval z) (hnodup : unpushed.Nodup) :
    Collects heap [] [n] unpushed [] s (s.setColor n c) := by
  have hcounted : counted (s.setColor n c) n = true := by
    rcases hc with rfl | rfl <;> simp [counted]
  have hself := isWhite_eq_false hcounted
  have hother : ∀ m, m ≠ n → (s.setColor n c).isWhite m = s.isWhite m :=
    fun m hm => isWhite_congr (word_setColor_of_ne s hm c)
  refine
    { frame := rfl
      objCount := fun _ => rfl
      untracked := fun _ _ => rfl
      step := ?_
      done := by simp
      closed := ?_
      collected := ?_
      nodup := by simpa using hnodup
      list := ?_ }
  · intro m
    by_cases hm : m = n
    · subst hm
      exact .inr ⟨hn, hcounted⟩
    · exact .inl (word_setColor_of_ne s hm c)
  · intro m hm hwhite hdone
    rw [mem_singleton] at hm
    rw [hother m hm, hwhite] at hdone
    cases hdone
  · intro z
    rw [hunpushed z]
    constructor
    · rintro ⟨hwhite, hdone⟩
      right
      by_contra hne
      rw [hother (.zval z) fun heq => hne heq.symm, hwhite] at hdone
      cases hdone
    · rintro (hmem | rfl)
      · simp at hmem
      · exact ⟨hn, hself⟩
  · intro l hl
    apply hl.congr
    intro z hz
    apply word_setColor_of_ne
    rintro rfl
    have hblack := hl.color hz
    rw [color_of_isWhite hn] at hblack
    cases hblack

theorem push (h : Collects heap starts pending [z] new s s')
    (htracked : heap.tracked (.zval z) = true) : Collects heap starts pending [] (z :: new) s
      ((s'.addRef (.zval z)).pushFree z) := by
  obtain ⟨hz, hdone⟩ := (h.collected z).mpr (.inr mem_cons_self)
  have hword : ∀ n, n ≠ .zval z → ((s'.addRef (.zval z)).pushFree z).word n = s'.word n := by
    intro n hn
    simp [GcState.pushFree, GcState.addRef, hn]
  have hcounted : counted ((s'.addRef (.zval z)).pushFree z) (.zval z) = true := by
    simp [counted, GcState.color, GcState.pushFree]
  have hwhite : ∀ n, ((s'.addRef (.zval z)).pushFree z).isWhite n = s'.isWhite n := by
    intro n
    by_cases hn : n = .zval z
    · rw [hn, isWhite_eq_false hcounted, hdone]
    · exact isWhite_congr (hword n hn)
  have hnodup := h.nodup
  rw [singleton_append, nodup_cons] at hnodup
  refine
    { frame := ?_
      objCount := ?_
      untracked := ?_
      step := ?_
      done := fun n hn => by rw [hwhite, h.done n hn]
      closed := ?_
      collected := ?_
      nodup := by simpa using hnodup
      list := ?_ }
  · rw [GcState.pushFree, GcState.addRef, h.frame]
  · intro handle
    rw [← h.objCount handle]
    simp [GcState.pushFree, GcState.addRef]
  · intro n hn
    have hnz := HeapData.ne_of_tracked htracked hn
    rw [← h.untracked n hn]
    simp [GcState.pushFree, GcState.addRef, hnz]
  · intro n
    by_cases hn : n = .zval z
    · rw [hn]
      exact .inr ⟨hz, hcounted⟩
    · rcases h.step n with heq | ⟨hw, hc⟩
      · exact .inl ((hword n hn).trans heq)
      · refine .inr ⟨hw, ?_⟩
        rwa [counted, GcState.color, hword n hn]
  · intro n hpending hn hn' c hc
    rw [hwhite] at hn' ⊢
    exact h.closed n hpending hn hn' c hc
  · intro w
    rw [hwhite, h.collected w]
    simp only [mem_cons, not_mem_nil, or_false]
    tauto
  · intro l hl
    have hlist := h.list l hl
    refine ⟨rfl, s'.zvalToFree, by simp [GcState.pushFree, GcState.addRef], ?_⟩
    apply hlist.congr
    intro w hw
    apply hword
    intro heq
    have hwz : w = z := by simpa using heq
    rw [hwz] at hw
    rcases mem_append.mp hw with hmem | hmem
    · exact hnodup.1 hmem
    · have hblack := hl.color hmem
      rw [color_of_isWhite hz] at hblack
      cases hblack

/-- Once the successors of the pending nodes are dealt with, nothing is
pending. -/
theorem settle (h : Collects heap starts pending unpushed new s s')
    (hpending : ∀ n ∈ pending, ∀ c ∈ heap.succ n, s'.isWhite c = false)
    {starts' : List Node} (hstarts : ∀ n ∈ starts', s'.isWhite n = false) :
    Collects heap starts' [] unpushed new s s' :=
  { h with
    done := hstarts
    closed := by
      intro n _ hn hn' c hc
      by_cases hmem : n ∈ pending
      · exact hpending n hmem c hc
      · exact h.closed n hmem hn hn' c hc }

end Collects

end Steps

section Spec

variable {heap : Heap} {s s' : GcState}

/-- The white nodes bound the depth of the recursion. -/
def whiteCount (heap : Heap) (s : GcState) : Nat :=
  (heap.nodes.filter fun n => s.isWhite n = true).card

theorem Collects.whiteCount_le {starts : List Node} {unpushed : List Nat}
    (h : Collects heap starts pending unpushed new s s') :
    whiteCount heap s' ≤ whiteCount heap s := by
  apply Finset.card_le_card
  intro n hn
  rw [Finset.mem_filter] at hn ⊢
  exact ⟨hn.1, h.was_white hn.2⟩

theorem whiteCount_setColor (hn : n ∈ heap.nodes)
    (hwhite : s.isWhite n = true) {c : Color} (hc : c = .black ∨ c = .purple) :
    whiteCount heap (s.setColor n c) < whiteCount heap s := by
  have hself : (s.setColor n c).isWhite n = false := by
    apply isWhite_eq_false
    rcases hc with rfl | rfl <;> simp [counted]
  apply Finset.card_lt_card
  rw [Finset.ssubset_iff_of_subset]
  · refine ⟨n, Finset.mem_filter.mpr ⟨hn, hwhite⟩, ?_⟩
    simp [Finset.mem_filter, hself]
  · intro m hm
    rw [Finset.mem_filter] at hm ⊢
    refine ⟨hm.1, ?_⟩
    by_cases hmn : m = n
    · rw [hmn, hwhite]
    · rw [← hm.2, isWhite_congr (word_setColor_of_ne s hmn c)]

/-- Holders of the symbol table are not white. -/
def NoWhiteTable (heap : Heap) (s : GcState) : Prop :=
  ∀ n, heap.tracked n = false → s.isWhite n = false

theorem Collects.noWhiteTable {starts : List Node} {unpushed : List Nat}
    (h : Collects heap starts pending unpushed new s s')
    (hpre : NoWhiteTable heap s) : NoWhiteTable heap s' :=
  fun n hn => h.not_white (hpre n hn)

/-- A complete part of the collection with its effect on the ledger: the
increments due to `debt` are paid, and each new zval on the list has one more
reference. -/
def Pays (heap : Heap) (debt : List Node) (new : List Nat) (s s' : GcState) : Prop :=
  ∀ owed due, ZvalBalanced heap s owed (fun x => due x + debt.count x) →
    ZvalBalanced heap s' (fun x => owed x + (new.map Node.zval).count x) due

theorem Pays.trans {s'' : GcState} {debt debt' : List Node}
    {new' : List Nat} (h : Pays heap debt new s s') (h' : Pays heap debt' new' s' s'') :
    Pays heap (debt ++ debt') (new' ++ new) s s'' := by
  intro owed due hbalanced
  rw [map_append, add_count_append]
  apply h'
  apply h
  rwa [← add_count_append]

theorem Pays.refl (heap : Heap) (s : GcState) : Pays heap [] [] s s := by
  intro owed due h
  simpa using h

theorem Pays.zvalAddRef (heap : Heap) (s : GcState) (z : Nat) :
    Pays heap [.zval z] [] s (PhpEngine.zvalAddRef heap.toHeapData z s) := by
  intro owed due h w hw
  have hpaid := (h w hw).zvalAddRef hw
  simpa using hpaid

theorem Pays.push (heap : Heap) (s : GcState) (z : Nat) (hz : counted s (.zval z) = true) :
    Pays heap [] [z] s ((s.addRef (.zval z)).pushFree z) := by
  intro owed due h w hw
  have hstart : BalancedAt heap s (fun x => owed x + ([] : List Node).count x) due (.zval w) := by
    simpa using h w hw
  have hpaid := hstart.addRef_owed (n := .zval z)
  refine hpaid.congr rfl ?_
  intro m _
  by_cases hm : m = .zval z
  · subst hm
    have hsame : counted (s.addRef (.zval z)) (.zval z) = counted s (.zval z) := counted_congr rfl
    rw [hsame, hz]
    simp [counted, GcState.color, GcState.pushFree]
  · simp [counted, GcState.color, GcState.pushFree, GcState.addRef, hm]

/-- What the calls of `zval_collect_white` with this much fuel do. -/
def ZvalCollects (heap : Heap) (fuel : Nat) : Prop :=
  ∀ z s, NoWhiteTable heap s → .zval z ∈ heap.nodes → whiteCount heap s < fuel →
    ∃ s' new, zvalCollectWhite heap.toHeapData fuel z s = some s' ∧
      Collects heap [.zval z] [] [] new s s' ∧ Pays heap [] new s s'

theorem collectLoop_collects (hzval : ZvalCollects heap fuel)
    (l : List Nat) (hpre : NoWhiteTable heap s) (hl : ∀ c ∈ l, Node.zval c ∈ heap.nodes)
    (hfuel : whiteCount heap s < fuel) :
    ∃ s' new, bucketLoop (fun c s => zvalCollectWhite heap.toHeapData fuel c
        (zvalAddRef heap.toHeapData c s)) l s = some s' ∧
      Collects heap (l.map .zval) [] [] new s s' ∧ Pays heap (l.map .zval) new s s' := by
  obtain ⟨s', hrun, new, heffect⟩ := bucketLoop_spec
    (R := fun l s s' => ∃ new, Collects heap l [] [] new s s' ∧ Pays heap l new s s')
    (P := fun s => NoWhiteTable heap s ∧ whiteCount heap s < fuel)
    (fun s _ => ⟨[], Collects.refl heap s, Pays.refl heap s⟩)
    (fun ⟨_, h, hpays⟩ ⟨_, h', hpays'⟩ => ⟨_, h.trans h', hpays.trans hpays'⟩)
    (fun c hc s ⟨hpre, hfuel⟩ => by
      have hadd := Collects.zvalAddRef heap s c
      obtain ⟨s', new, hrun, hcollects, hpays⟩ := hzval c _ (hadd.noWhiteTable hpre) (hl c hc)
        (lt_of_le_of_lt hadd.whiteCount_le hfuel)
      have hboth := hadd.trans hcollects
      exact ⟨s', hrun, ⟨_, hboth, (Pays.zvalAddRef heap s c).trans hpays⟩,
        hboth.noWhiteTable hpre, lt_of_le_of_lt hboth.whiteCount_le hfuel⟩) ⟨hpre, hfuel⟩
  exact ⟨s', new, hrun, heffect⟩

/-- A zval that was recoloured is put on the list between the visits to two
groups of children. -/
theorem collectAround (hzval : ZvalCollects heap fuel) {s₁ : GcState}
    (hstart : Collects heap [] pending [z] [] s s₁) (l₁ l₂ : List Nat) (hpre : NoWhiteTable heap s)
    (hl₁ : ∀ c ∈ l₁, Node.zval c ∈ heap.nodes) (hl₂ : ∀ c ∈ l₂, Node.zval c ∈ heap.nodes)
    (hfuel : whiteCount heap s₁ < fuel) :
    ∃ s' new, (bucketLoop (fun c s => zvalCollectWhite heap.toHeapData fuel c
          (zvalAddRef heap.toHeapData c s)) l₁ s₁).bind (fun s =>
        bucketLoop (fun c s => zvalCollectWhite heap.toHeapData fuel c
          (zvalAddRef heap.toHeapData c s)) l₂ ((s.addRef (.zval z)).pushFree z)) = some s' ∧
      Collects heap ((l₁ ++ l₂).map .zval) pending [] new s s' ∧
      Pays heap ((l₁ ++ l₂).map .zval) new s₁ s' ∧
      ∀ n, s₁.isWhite n = false → s'.isWhite n = false := by
  have hpre₁ := hstart.noWhiteTable hpre
  obtain ⟨s₂, new₂, hrun₂, hcollects₂, hpays₂⟩ :=
    collectLoop_collects hzval l₁ hpre₁ hl₁ hfuel
  have hbefore := hstart.trans hcollects₂
  have hdone := (hbefore.collected z).mpr (.inr mem_cons_self)
  have htracked : heap.tracked (.zval z) = true := by
    by_contra hne
    rw [Bool.not_eq_true] at hne
    rw [hpre _ hne] at hdone
    exact absurd hdone.1 (by decide)
  have hpushed := hbefore.push htracked
  have hcounted : counted s₂ (.zval z) = true := by
    rcases hbefore.step (.zval z) with heq | ⟨_, hcounted⟩
    · rw [isWhite_congr heq, hdone.1] at hdone
      exact absurd hdone.2 (by decide)
    · exact hcounted
  have hpays₃ := hpays₂.trans (Pays.push heap s₂ z hcounted)
  have hsame : ∀ n, ((s₂.addRef (.zval z)).pushFree z).isWhite n = s₂.isWhite n := by
    intro n
    by_cases hnz : n = .zval z
    · subst hnz
      have hblack : counted ((s₂.addRef (.zval z)).pushFree z) (.zval z) = true := by
        simp [counted, GcState.color, GcState.pushFree]
      rw [isWhite_eq_false hblack, isWhite_eq_false hcounted]
    · apply isWhite_congr
      simp [GcState.pushFree, GcState.addRef, hnz]
  have hfuel₃ : whiteCount heap ((s₂.addRef (.zval z)).pushFree z) < fuel := by
    simp only [whiteCount, hsame]
    exact lt_of_le_of_lt hcollects₂.whiteCount_le hfuel
  obtain ⟨s', new', hrun, hcollects, hpays⟩ := collectLoop_collects hzval l₂
    (hpushed.noWhiteTable hpre) hl₂ hfuel₃
  refine ⟨s', new' ++ ([z] ++ new₂), ?_, ?_, ?_, ?_⟩
  · rw [hrun₂]
    exact hrun
  · have hall := hpushed.trans hcollects
    simpa using hall
  · have hall := hpays₃.trans hpays
    simpa using hall
  · intro n hn
    apply hcollects.not_white
    rw [hsame]
    exact hcollects₂.not_white hn

theorem zobjCollectWhite_collects {handle : Nat}
    (hzval : ZvalCollects heap fuel) (hpre : NoWhiteTable heap s)
    (hn : Node.obj handle ∈ heap.nodes) (hfuel : whiteCount heap s < fuel) :
    ∃ s' new, zobjCollectWhite heap.toHeapData fuel handle s = some s' ∧
      Collects heap [.obj handle] [] [] new s s' ∧ Pays heap [] new s s' := by
  rw [zobjCollectWhite_eq]
  cases hwhite : s.isWhite (.obj handle) with
  | false =>
    exact ⟨s, [], rfl, Collects.of_not_white hwhite, Pays.refl heap s⟩
  | true =>
    have hstart : Collects heap [] [.obj handle] [] [] s (s.setColor (.obj handle) .purple) :=
      Collects.recolor hwhite (.inr rfl) [] (by simp) (by simp)
    have hchildren := heap.children_mem hn
    obtain ⟨s', new, hrun, hcollects, hpays⟩ := collectLoop_collects hzval
      (heap.children handle) (hstart.noWhiteTable hpre) hchildren
      (lt_of_le_of_lt hstart.whiteCount_le hfuel)
    have hall := hstart.trans hcollects
    refine ⟨s', new ++ [], hrun, ?_, ?_⟩
    · refine hall.settle ?_ ?_
      · intro n hmem c hc
        have hnobj : n = .obj handle := by simpa using hmem
        subst hnobj
        exact hcollects.done c hc
      · intro n hmem
        rw [mem_singleton.mp hmem]
        apply hcollects.not_white
        apply isWhite_eq_false
        simp [counted]
    · intro owed due hbalanced
      rw [append_nil]
      apply hpays
      intro z hz
      have hstarted : BalancedAt heap s owed due (.zval z) := by
        simpa using hbalanced z hz
      exact hstarted.count hn (not_counted_of_isWhite hwhite) (.inr rfl)

/-- The function by the kind of the zval: the groups of children before and
after the zval goes on the list. -/
theorem zvalCollectWhite_succ (heap : HeapData) (fuel z : Nat) (s : GcState) :
    zvalCollectWhite heap (fuel + 1) z s = if s.isWhite (.zval z) then
        let around := fun (l₁ l₂ : List Nat) (s : GcState) =>
          (bucketLoop (fun c s => zvalCollectWhite heap fuel c
            (zvalAddRef heap c s)) l₁ s).bind fun s =>
              bucketLoop (fun c s => zvalCollectWhite heap fuel c
                (zvalAddRef heap c s)) l₂ ((s.addRef (.zval z)).pushFree z)
        let s := s.setColor (.zval z) .black
        match heap.kind z with
        | .object handle =>
          if s.isWhite (.obj handle) then
            match heap.getGc handle with
            | none => around [] [] (s.setColor (.obj handle) .purple)
            | some gc =>
              match gc.props with
              | none => around [] (gc.table.filterMap id) (s.setColor (.obj handle) .purple)
              | some props => around (gc.table.filterMap id) props
                  (s.setColor (.obj handle) .purple)
          else around [] [] s
        | .array elements => around [] elements s
        | .symbolTable => around [] heap.symbolTable s
        | .scalar => around [] [] s
      else some s := by
  rw [zvalCollectWhite]
  cases heap.kind z with
  | object handle =>
    dsimp only
    cases heap.getGc handle with
    | none => rfl
    | some gc =>
      simp only [tableLoop_eq, filterMap_trimNulls]
      cases gc.props <;> rfl
  | array elements | symbolTable | scalar => rfl

section

variable (hzval : ZvalCollects heap fuel) (hpre : NoWhiteTable heap s)
  (hn : Node.zval z ∈ heap.nodes) (hwhite : s.isWhite (.zval z) = true)
include hzval hpre hn hwhite

/-- From the recolouring of a zval to the end of its call, when the children
that are visited are its successors. -/
theorem collectZval (hfuel : whiteCount heap s < fuel + 1) (l : List Nat)
    (hl : ∀ c ∈ l, Node.zval c ∈ heap.nodes)
    (hsucc : ∀ c ∈ heap.succ (.zval z), c ∈ l.map Node.zval ∨ s.isWhite c = false)
    (hcount : ∀ w, (heap.succ (.zval z)).count (.zval w) = (l.map Node.zval).count (.zval w)) :
    ∃ s' new, (bucketLoop (fun c s => zvalCollectWhite heap.toHeapData fuel c
          (zvalAddRef heap.toHeapData c s)) [] (s.setColor (.zval z) .black)).bind (fun s =>
        bucketLoop (fun c s => zvalCollectWhite heap.toHeapData fuel c
          (zvalAddRef heap.toHeapData c s)) l ((s.addRef (.zval z)).pushFree z)) = some s' ∧
      Collects heap [.zval z] [] [] new s s' ∧ Pays heap [] new s s' := by
  have hstart : Collects heap [] [.zval z] [z] [] s (s.setColor (.zval z) .black) :=
    Collects.recolor hwhite (.inl rfl) [z] (by simp [eq_comm]) (by simp)
  have hless : whiteCount heap (s.setColor (.zval z) .black) < fuel :=
    lt_of_lt_of_le (whiteCount_setColor hn hwhite (.inl rfl)) (Nat.le_of_lt_succ hfuel)
  obtain ⟨s', new, hrun, hcollects, hpays, hkeep⟩ :=
    collectAround hzval hstart [] l hpre (by simp) hl hless
  refine ⟨s', new, hrun, ?_, ?_⟩
  · refine hcollects.settle ?_ ?_
    · intro n hmem c hc
      rw [mem_singleton.mp hmem] at hc
      rcases hsucc c hc with hdone | hdone
      · exact hcollects.done c (by simpa using hdone)
      · exact hkeep c (hstart.not_white hdone)
    · intro n hmem
      rw [mem_singleton.mp hmem]
      apply hkeep
      apply isWhite_eq_false
      simp [counted]
  · intro owed due hbalanced
    apply hpays
    intro w hw
    have hstarted : BalancedAt heap s owed due (.zval w) := by
      simpa using hbalanced w hw
    have hpaid := hstarted.count hn (not_counted_of_isWhite hwhite) (.inl rfl)
    simpa only [BalancedAt, hcount w, nil_append] using hpaid

/-- The same for a zval whose object is white as well: both are recoloured,
and the object's children are visited around the zval's entry on the list. -/
theorem collectObject {handle : Nat} (hobjwhite : s.isWhite (.obj handle) = true)
    (hsucc : heap.succ (.zval z) = [.obj handle]) (hfuel : whiteCount heap s < fuel + 1)
    (l₁ l₂ : List Nat) (hchildren : heap.children handle = l₁ ++ l₂) :
    ∃ s' new, (bucketLoop (fun c s => zvalCollectWhite heap.toHeapData fuel c
          (zvalAddRef heap.toHeapData c s)) l₁ ((s.setColor (.zval z) .black).setColor (.obj handle)
            .purple)).bind (fun s =>
        bucketLoop (fun c s => zvalCollectWhite heap.toHeapData fuel c
          (zvalAddRef heap.toHeapData c s)) l₂ ((s.addRef (.zval z)).pushFree z)) = some s' ∧
      Collects heap [.zval z] [] [] new s s' ∧ Pays heap [] new s s' := by
  have hobj : Node.obj handle ∈ heap.nodes := by
    apply heap.closed _ hn
    simp [hsucc]
  have hmem : ∀ c ∈ l₁ ++ l₂, Node.zval c ∈ heap.nodes := by
    intro c hc
    rw [← hchildren] at hc
    exact heap.closed _ hobj _ (List.mem_map_of_mem hc)
  have hfirst : Collects heap [] [.zval z] [z] [] s (s.setColor (.zval z) .black) :=
    Collects.recolor hwhite (.inl rfl) [z] (by simp [eq_comm]) (by simp)
  have hobjwhite₁ : (s.setColor (.zval z) .black).isWhite (.obj handle) = true := by
    rw [isWhite_congr (word_setColor_of_ne s (by simp) _), hobjwhite]
  have hsecond : Collects heap [] [.obj handle] [] [] (s.setColor (.zval z) .black)
      ((s.setColor (.zval z) .black).setColor (.obj handle) .purple) :=
    Collects.recolor hobjwhite₁ (.inr rfl) [] (by simp) (by simp)
  have hstart := hfirst.trans hsecond
  have hless : whiteCount heap ((s.setColor (.zval z) .black).setColor
      (.obj handle) .purple) < fuel :=
    lt_of_le_of_lt hsecond.whiteCount_le
      (lt_of_lt_of_le (whiteCount_setColor hn hwhite (.inl rfl)) (Nat.le_of_lt_succ hfuel))
  obtain ⟨s', new, hrun, hcollects, hpays, hkeep⟩ :=
    collectAround hzval hstart l₁ l₂ hpre (fun c hc => hmem c (mem_append_left l₂ hc))
      (fun c hc => hmem c (mem_append_right l₁ hc)) hless
  have hobjdone : s'.isWhite (.obj handle) = false := by
    apply hkeep
    apply isWhite_eq_false
    simp [counted]
  refine ⟨s', new, hrun, ?_, ?_⟩
  · refine hcollects.settle ?_ ?_
    · intro n hpending c hc
      have hcases : n = .zval z ∨ n = .obj handle := by simpa using hpending
      rcases hcases with rfl | rfl
      · rw [hsucc, mem_singleton] at hc
        rw [hc, hobjdone]
      · apply hcollects.done
        rw [← hchildren]
        exact hc
    · intro n hpending
      rw [mem_singleton.mp hpending]
      apply hkeep
      apply hsecond.not_white
      apply isWhite_eq_false
      simp [counted]
  · intro owed due hbalanced w hw
    have hcount : ∀ v, (heap.succ (.zval z)).count (.zval v) = 0 := by
      simp [hsucc]
    have hbefore : ZvalBalanced heap
        ((s.setColor (.zval z) .black).setColor (.obj handle) .purple) owed
        (fun x => due x + ((l₁ ++ l₂).map Node.zval).count x) := by
      intro v hv
      have hv₀ : BalancedAt heap s owed due (.zval v) := by
        simpa using hbalanced v hv
      have hv₁ := hv₀.count hn (not_counted_of_isWhite hwhite) (.inl rfl)
      have hv₂ := hv₁.count hobj (not_counted_of_isWhite hobjwhite₁) (.inr rfl)
      have hobjsucc : heap.succ (.obj handle) = (l₁ ++ l₂).map Node.zval := by
        rw [← hchildren]
        rfl
      simpa only [BalancedAt, hcount v, hobjsucc, add_zero] using hv₂
    exact hpays owed due hbefore w hw

end

theorem zvalCollectWhite_collects (heap : Heap) (fuel : Nat) : ZvalCollects heap fuel := by
  induction fuel with
  | zero =>
    intro z s _ _ hfuel
    exact absurd hfuel (Nat.not_lt_zero _)
  | succ fuel ih =>
    intro z s hpre hn hfuel
    rw [zvalCollectWhite_succ]
    cases hwhite : s.isWhite (.zval z) with
    | false =>
      exact ⟨s, [], rfl, Collects.of_not_white hwhite, Pays.refl heap s⟩
    | true =>
      cases hkind : heap.kind z with
      | scalar =>
        have hsucc := HeapData.succ_scalar hkind
        exact collectZval ih hpre hn hwhite hfuel [] (by simp) (by simp [hsucc]) (by simp [hsucc])
      | symbolTable =>
        have htracked : heap.tracked (.zval z) = false := by
          simp [HeapData.tracked, HeapData.isSymbolTable, hkind]
        rw [hpre _ htracked] at hwhite
        cases hwhite
      | array elements =>
        have hsucc := HeapData.succ_array hkind
        have helements := heap.elements_mem hn hkind
        exact collectZval ih hpre hn hwhite hfuel elements helements
          (fun c hc => .inl (hsucc ▸ hc)) (by simp [hsucc])
      | object handle =>
        have hsucc := HeapData.succ_object hkind
        have hobj := heap.obj_mem hn hkind
        have hword : (s.setColor (.zval z) .black).isWhite (.obj handle) =
            s.isWhite (.obj handle) :=
          isWhite_congr (word_setColor_of_ne s (by simp) _)
        simp only [hword]
        cases hobjwhite : s.isWhite (.obj handle) with
        | false =>
          have hdone : ∀ c ∈ heap.succ (.zval z), c ∈ ([] : List Nat).map Node.zval ∨
                s.isWhite c = false := by
            intro c hc
            rw [hsucc, mem_singleton] at hc
            exact .inr (hc ▸ hobjwhite)
          exact collectZval ih hpre hn hwhite hfuel [] (by simp) hdone (by simp [hsucc])
        | true =>
          have hcall := fun l₁ l₂ => collectObject ih hpre hn hwhite hobjwhite hsucc hfuel l₁ l₂
          cases hgc : heap.getGc handle with
          | none => exact hcall [] [] (by simp [HeapData.children, hgc])
          | some gc =>
            cases hprops : gc.props with
            | none =>
              simp only [hprops]
              exact hcall [] (gc.table.filterMap id) (by
                simp [HeapData.children, hgc, GetGc.children, hprops])
            | some props =>
              simp only [hprops]
              exact hcall (gc.table.filterMap id) props (by
                simp [HeapData.children, hgc, GetGc.children, hprops])

end Spec

end PhpEngine

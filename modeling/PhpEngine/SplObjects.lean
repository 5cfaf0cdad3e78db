/-
All objects of SplDoublyLinkedList together.  The chains of two objects have no
element in common, and an element has one reference for its chain and one for
every object that has stopped at it.
-/
import PhpEngine.SplSequence
import Mathlib.Algebra.GroupWithZero.Nat

namespace PhpEngine

open DoublyLinked List Option

variable {V : Type}

/-- The references to an element: one for every chain it is in, and one for
every object that has stopped at it. -/
def holders (objects : List SplDllistObject) (chains : List (List Nat)) (a : Nat) : Nat :=
  ((objects.zip chains).map fun p => p.1.holds p.2 a).sum

/-- All objects are sequences: `chains` are the addresses of their elements. -/
structure SplInv (s : SplState V) (chains : List (List Nat)) : Prop where
  length_eq : chains.length = s.objects.length
  holds : ∀ p ∈ s.objects.zip chains, Holds s.heap p.1.llist p.2
  nodup : chains.flatten.Nodup
  refs : ∀ a, s.heap.refs a = holders s.objects chains a
  alive : s.heap.Alive
  valued : ∀ a ∈ chains.flatten, ∃ rc v, s.heap.payload a = some (rc, some v)
  fresh : ∀ a, s.heap.brk ≤ a → s.heap.element a = none

/-- The sequences that the objects stand for. -/
def SplState.seqs (s : SplState V) (chains : List (List Nat)) : List (SplSeq V) :=
  (s.objects.zip chains).map fun p => Ready.seqOf s.heap p.1 p.2

namespace SplInv

variable {h : SplHeap V} {os os' : List SplDllistObject} {o : SplDllistObject}
  {cs cs' : List (List Nat)} {as : List Nat}

theorem holders_split (hlen : os.length = cs.length) (a : Nat) :
    holders (os ++ o :: os') (cs ++ as :: cs') a =
      holders os cs a + (o.holds as a + holders os' cs' a) := by
  rw [holders, zip_append hlen, zip_cons_cons, map_append, map_cons, sum_append, sum_cons]
  rfl

theorem zip_split (hlen : os.length = cs.length) : (os ++ o :: os').zip (cs ++ as :: cs') =
      os.zip cs ++ (o, as) :: os'.zip cs' := by
  rw [zip_append hlen, zip_cons_cons]

section

variable (hinv : SplInv ⟨h, os ++ o :: os'⟩ (cs ++ as :: cs'))
include hinv

theorem ready (hlen : os.length = cs.length) : Ready h o as where
  holds := by
    apply hinv.holds (o, as)
    rw [zip_split hlen]
    exact mem_append_right _ mem_cons_self
  nodup := by
    have hnodup := hinv.nodup
    rw [flatten_append, flatten_cons] at hnodup
    exact (nodup_append.mp (nodup_append.mp hnodup).2.1).1
  held a := by
    have hrefs := hinv.refs a
    rw [holders_split hlen] at hrefs
    simp only at hrefs
    omega
  alive := hinv.alive
  valued a ha := by
    apply hinv.valued a
    rw [flatten_append, flatten_cons]
    exact mem_append_right _ (mem_append_left _ ha)
  fresh := hinv.fresh

theorem others {a : Nat} (ha : a ∈ cs.flatten ++ cs'.flatten) : a ∉ as ∧ a < h.brk := by
  have hnodup := hinv.nodup
  rw [flatten_append, flatten_cons] at hnodup
  obtain ⟨-, hright, hfront⟩ := nodup_append.mp hnodup
  obtain ⟨-, -, hback⟩ := nodup_append.mp hright
  have hvalued := hinv.valued a
  rw [flatten_append, flatten_cons] at hvalued
  constructor
  · intro hmem
    rcases mem_append.mp ha with hcs | hcs'
    · exact hfront a hcs a (mem_append_left _ hmem) rfl
    · exact hback a hmem a hcs' rfl
  · have hin : a ∈ cs.flatten ++ (as ++ cs'.flatten) := by
      rcases mem_append.mp ha with hcs | hcs'
      · exact mem_append_left _ hcs
      · exact mem_append_right _ (mem_append_right _ hcs')
    obtain ⟨rc, v, hpayload⟩ := hvalued hin
    by_contra hge
    have hnone : h.element a = none := hinv.fresh a (Nat.le_of_not_lt hge)
    have hsome : h.payload a = some (rc, some v) := hpayload
    rw [SplHeap.payload, hnone] at hsome
    cases hsome

/-- A call of one of the objects leaves the others as they are. -/
theorem call {h' : SplHeap V} {o' : SplDllistObject} {as' : List Nat} (hlen : os.length = cs.length)
    (hcall : Call h o as h' o' as') :
    SplInv ⟨h', os ++ o' :: os'⟩ (cs ++ as' :: cs') ∧
      SplState.seqs ⟨h', os ++ o' :: os'⟩ (cs ++ as' :: cs') =
        (os.zip cs).map (fun p => Ready.seqOf h p.1 p.2) ++ Ready.seqOf h' o' as' ::
            (os'.zip cs').map fun p => Ready.seqOf h p.1 p.2 := by
  have hother (a : Nat) (ha : a ∈ cs.flatten ++ cs'.flatten) : h'.element a = h.element a := by
    obtain ⟨hnot, hlt⟩ := hinv.others ha
    exact hcall.frame a hnot (Nat.ne_of_lt hlt)
  have hchain (p : SplDllistObject × List Nat)
      (hp : p ∈ os.zip cs ++ os'.zip cs') (a : Nat) (ha : a ∈ p.2) :
      h'.element a = h.element a := by
    apply hother
    rcases mem_append.mp hp with hp | hp
    · exact mem_append_left _ (mem_flatten.mpr ⟨p.2, (of_mem_zip hp).2, ha⟩)
    · exact mem_append_right _ (mem_flatten.mpr ⟨p.2, (of_mem_zip hp).2, ha⟩)
  have hpayload (a : Nat) (ha : a ∈ cs.flatten ++ cs'.flatten) : h'.payload a = h.payload a := by
    rw [SplHeap.payload, hother a ha, SplHeap.payload]
  have hold := hinv.nodup
  rw [flatten_append, flatten_cons] at hold
  have hmem (a : Nat) (ha : a ∈ as') (hin : a ∈ cs.flatten ++ cs'.flatten) :
      False := by
    obtain ⟨hnot, hlt⟩ := hinv.others hin
    rcases hcall.mem a ha with hmem | rfl
    · exact hnot hmem
    · exact Nat.lt_irrefl _ hlt
  constructor
  · constructor
    · have hlength := hinv.length_eq
      simp only [length_append, length_cons] at hlength ⊢
      exact hlength
    · intro p hp
      rw [zip_split hlen] at hp
      have hcases : p ∈ os.zip cs ++ os'.zip cs' ∨ p = (o', as') := by
        simp only [mem_append, mem_cons] at hp ⊢
        tauto
      rcases hcases with hp | rfl
      · have hholds : Holds h p.1.llist p.2 := by
          apply hinv.holds p
          rw [zip_split hlen]
          simp only [mem_append, mem_cons] at hp ⊢
          tauto
        refine ⟨?_, hholds.head, hholds.tail, hholds.count⟩
        apply hholds.chain.congr
        intro a ha
        simp only [SplHeap.links, hchain p hp a ha]
      · exact hcall.holds
    · rw [flatten_append, flatten_cons]
      obtain ⟨hfront, hright, hdisj⟩ := nodup_append.mp hold
      obtain ⟨-, hback, -⟩ := nodup_append.mp hright
      refine nodup_append.mpr ⟨hfront, nodup_append.mpr ⟨hcall.nodup, hback, ?_⟩, ?_⟩
      · rintro a ha b hb rfl
        exact hmem a ha (mem_append_right _ hb)
      · rintro a ha b hb rfl
        rcases mem_append.mp hb with hb | hb
        · exact hmem a hb (mem_append_left _ ha)
        · exact hdisj a ha a (mem_append_right _ hb) rfl
    · intro a
      have hrefs := hinv.refs a
      have hchange := hcall.refs a
      rw [holders_split hlen] at hrefs ⊢
      simp only at hrefs ⊢
      omega
    · exact hcall.alive
    · intro a ha
      rw [flatten_append, flatten_cons] at ha
      by_cases hnew : a ∈ as'
      · exact hcall.valued a hnew
      · have hin : a ∈ cs.flatten ++ cs'.flatten := by
          simp only [mem_append] at ha ⊢
          tauto
        simp only [hpayload a hin]
        apply hinv.valued a
        rw [flatten_append, flatten_cons]
        simp only [mem_append] at hin ⊢
        tauto
    · exact hcall.fresh
  · have hvalues (p : SplDllistObject × List Nat) (hp : p ∈ os.zip cs ++ os'.zip cs') :
        Ready.seqOf h' p.1 p.2 = Ready.seqOf h p.1 p.2 := by
      apply Ready.seqOf_congr
      apply Ready.values_congr
      intro a ha
      rw [SplHeap.payload, hchain p hp a ha, SplHeap.payload]
    rw [SplState.seqs, zip_split hlen, map_append, map_cons]
    congr 1
    · apply map_congr_left
      intro p hp
      exact hvalues p (mem_append_left _ hp)
    · congr 1
      apply map_congr_left
      intro p hp
      exact hvalues p (mem_append_right _ hp)

end

theorem init_inv : SplInv (SplState.init : SplState V) [] where
  length_eq := rfl
  holds p hp := by cases hp
  nodup := nodup_nil
  refs _ := rfl
  alive a rc data ha := by cases ha
  valued a ha := by cases ha
  fresh _ _ := rfl

theorem new (hinv : SplInv ⟨h, os⟩ cs) (hllist : o.llist = .init)
    (htraverse : o.traversePointer = none) : SplInv ⟨h, os ++ [o]⟩ (cs ++ [[]]) := by
  have hlen : os.length = cs.length := hinv.length_eq.symm
  have hflat : (cs ++ [[]]).flatten = cs.flatten := by simp
  constructor
  · simp only [length_append, length_singleton, hlen]
  · intro p hp
    rw [zip_split hlen] at hp
    rcases mem_append.mp hp with hp | hp
    · exact hinv.holds p hp
    · rw [mem_singleton.mp hp]
      refine ⟨trivial, ?_, ?_, ?_⟩ <;> rw [hllist] <;> rfl
  · rw [hflat]
    exact hinv.nodup
  · intro a
    have hzero : o.holds [] a = 0 := by
      simp [SplDllistObject.holds, htraverse]
    rw [holders_split hlen, hzero]
    exact hinv.refs a
  · exact hinv.alive
  · rw [hflat]
    exact hinv.valued
  · exact hinv.fresh

section Copy

variable {n : SplDllistObject}

/-- The elements at `rest` are copied behind those at `done`. -/
theorem copyLoop {rest done : List Nat} {before : Option Nat} {fuel : Nat} {dest : SplPtrLlist}
    (hinv : SplInv ⟨h, os ++ [{ n with llist := dest }]⟩ (cs ++ [done]))
    (hlen : os.length = cs.length) (hchain : Chain h.links before rest none)
    (hrest : ∀ a ∈ rest, a ∈ cs.flatten) (hfuel : rest.length < fuel) :
    ∃ done', SplInv ⟨(SplPtrLlist.copyLoop fuel h rest.head? dest).1, os ++ [{ n with
          llist := (SplPtrLlist.copyLoop fuel h rest.head? dest).2 }]⟩
        (cs ++ [done']) ∧
      (SplPtrLlist.copyLoop fuel h rest.head? dest).1.values done' =
        h.values done ++ h.values rest ∧
      (os.zip cs).map (fun p => Ready.seqOf
          (SplPtrLlist.copyLoop fuel h rest.head? dest).1 p.1 p.2) =
        (os.zip cs).map fun p => Ready.seqOf h p.1 p.2 := by
  induction rest generalizing h done before fuel dest with
  | nil =>
    refine ⟨done, ?_⟩
    cases fuel with
    | zero => cases hfuel
    | succ fuel =>
      refine ⟨hinv, ?_, rfl⟩
      exact (append_nil _).symm
  | cons a rest ih =>
    cases fuel with
    | zero => cases hfuel
    | succ fuel =>
      obtain ⟨hfirst, hchain'⟩ := hchain
      obtain ⟨ha, hrest'⟩ := forall_mem_cons.mp hrest
      obtain ⟨e, helem, hlinks⟩ := map_eq_some_iff.mp hfirst
      have hnext : e.next = rest.head? :=
        (congrArg Links.next hlinks).trans (or_none)
      obtain ⟨rc, v, hpayload⟩ := hinv.valued a (by
        rw [flatten_append]
        exact mem_append_left _ ha)
      have hdata : e.data = some v := by
        have hsome : h.payload a = some (rc, some v) := hpayload
        rw [SplHeap.payload, helem] at hsome
        exact congrArg Prod.snd (Option.some.inj hsome)
      have hready := hinv.ready hlen
      obtain ⟨hcall, hvalues⟩ := hready.push v
      obtain ⟨hinv', hseqs⟩ := hinv.call hlen hcall
      have hloop : SplPtrLlist.copyLoop (fuel + 1) h (a :: rest).head? dest =
          SplPtrLlist.copyLoop fuel (dest.push h (some v)).1 rest.head?
            (dest.push h (some v)).2 := by
        rw [head?_cons, SplPtrLlist.copyLoop, helem]
        simp only [hdata, hnext]
      have hkept (b : Nat) (hb : b ∈ rest) : (dest.push h (some v)).1.element b = h.element b := by
        obtain ⟨hnot, hlt⟩ := hinv.others (mem_append_left _ (hrest' b hb))
        exact hcall.frame b hnot (Nat.ne_of_lt hlt)
      have hchain'' : Chain (dest.push h (some v)).1.links (some a) rest none := by
        apply hchain'.congr
        intro b hb
        rw [SplHeap.links, hkept b hb, SplHeap.links]
      obtain ⟨done', hdone, hvalues', hseqs'⟩ :=
        ih hinv' hchain'' hrest' (Nat.lt_of_succ_lt_succ hfuel)
      rw [hloop]
      refine ⟨done', hdone, ?_, ?_⟩
      · have hsame : (dest.push h (some v)).1.values rest = h.values rest := by
          apply Ready.values_congr
          intro b hb
          rw [SplHeap.payload, hkept b hb, SplHeap.payload]
        have hcons : h.values (a :: rest) = v :: h.values rest := by
          have hsome : h.payload a = some (rc, some v) := hpayload
          simp [SplHeap.values, hsome]
        rw [hvalues', hsame, hcons]
        rw [hvalues, append_assoc]
        rfl
      · rw [hseqs']
        rw [SplState.seqs, zip_split hlen, map_append, map_cons] at hseqs
        exact (append_inj hseqs (by simp)).1

theorem addref_call {as : List Nat} (hr : Ready h n as) (htraverse : n.traversePointer = none) :
    Call h n as (h.addref as.head?) { n with traversePointer := as.head? } as ∧
      (h.addref as.head?).values as = h.values as := by
  cases as with
  | nil =>
    refine ⟨{ hr.unchanged with refs := ?_ }, rfl⟩
    simp [SplDllistObject.holds, SplHeap.addref, htraverse]
  | cons a r =>
    rw [head?_cons]
    obtain ⟨rc, v, hpayload⟩ := hr.valued a mem_cons_self
    have hmod : h.addref (some a) = h.modify a fun e => { e with rc := e.rc + 1 } := rfl
    have hnew : (h.addref (some a)).payload a = some (rc + 1, some v) := by
      obtain ⟨e, helem, heq⟩ := map_eq_some_iff.mp hpayload
      rw [Prod.mk.injEq] at heq
      simp only [hmod, SplHeap.payload, SplHeap.modify, Function.update_self,
        helem, map_some, heq.1, heq.2]
    have hother (b : Nat) (hb : b ≠ a) : (h.addref (some a)).element b = h.element b := by
      exact Function.update_of_ne hb _ _
    have hlinks : (h.addref (some a)).links = h.links := by
      apply SplHeap.links_modify
      intro e
      exact ⟨rfl, rfl⟩
    have hpayload' (b : Nat) (hb : b ≠ a) : (h.addref (some a)).payload b = h.payload b := by
      rw [SplHeap.payload, hother b hb, SplHeap.payload]
    constructor
    · constructor
      · refine ⟨?_, hr.holds.head, hr.holds.tail, hr.holds.count⟩
        rw [hlinks]
        exact hr.holds.chain
      · exact hr.nodup
      · intro b hb
        exact .inl hb
      · intro b hb _
        apply hother
        rintro rfl
        exact hb mem_cons_self
      · intro b
        by_cases hb : b = a
        · subst hb
          simp only [SplHeap.refs, hnew, hpayload, SplDllistObject.holds,
            htraverse, elim_some, if_true, reduceCtorEq, if_false]
          omega
        · rw [SplHeap.refs, hpayload' b hb, SplHeap.refs]
          simp [SplDllistObject.holds, htraverse, Ne.symm hb]
      · intro b rc' data hb
        by_cases hba : b = a
        · subst hba
          rw [hnew] at hb
          cases hb
          exact Nat.succ_pos rc
        · rw [hpayload' b hba] at hb
          exact hr.alive b rc' data hb
      · intro b hb
        by_cases hba : b = a
        · subst hba
          exact ⟨rc + 1, v, hnew⟩
        · rw [hpayload' b hba]
          exact hr.valued b hb
      · exact Nat.le_refl _
      · intro b hb
        have hba : b ≠ a := by
          rintro rfl
          exact absurd (hr.lt_brk mem_cons_self) (Nat.not_lt_of_le hb)
        rw [hother b hba]
        exact hr.fresh b hb
    · have hrest : (h.addref (some a)).values r = h.values r := by
        apply Ready.values_congr
        intro b hb
        apply hpayload'
        rintro rfl
        exact (nodup_cons.mp hr.nodup).1 hb
      have hcons : h.values (a :: r) = v :: h.values r := by
        simp [SplHeap.values, hpayload]
      have hcons' : (h.addref (some a)).values (a :: r) = v :: (h.addref (some a)).values r := by
        simp [SplHeap.values, hnew]
      rw [hcons, hcons', hrest]

theorem split {s : SplState V} {chains : List (List Nat)}
    (hinv : SplInv s chains) {k : Nat} (hk : s.objects[k]? = some o) :
    ∃ os os' cs as cs', s.objects = os ++ o :: os' ∧
      chains = cs ++ as :: cs' ∧ os.length = k ∧ cs.length = k := by
  obtain ⟨hlt, -⟩ := List.getElem?_eq_some_iff.mp hk
  obtain ⟨os, o', os', hos, hlen, ho'⟩ := Ready.split_at hlt
  obtain ⟨cs, as, cs', hcs, hlen', -⟩ := Ready.split_at (hinv.length_eq ▸ hlt)
  rw [hk] at ho'
  cases ho'
  exact ⟨os, os', cs, as, cs', hos, hcs, hlen, hlen'⟩

theorem seqs_split (hlen : os.length = cs.length) :
    SplState.seqs ⟨h, os ++ o :: os'⟩ (cs ++ as :: cs') =
      (os.zip cs).map (fun p => Ready.seqOf h p.1 p.2) ++ Ready.seqOf h o as ::
          (os'.zip cs').map fun p => Ready.seqOf h p.1 p.2 := by
  rw [SplState.seqs, zip_split hlen, map_append, map_cons]

/-- The copy of an object is a new object with the same values. -/
theorem clone {objects : List SplDllistObject} {chains : List (List Nat)}
    (hinv : SplInv ⟨h, objects⟩ chains) {other : SplDllistObject}
    (hobj : (other, as) ∈ objects.zip chains) :
    ∃ chains', SplInv (SplState.clone ⟨h, objects⟩ other) chains' ∧
      (SplState.clone ⟨h, objects⟩ other).seqs chains' =
        SplState.seqs ⟨h, objects⟩ chains ++ [Ready.seqOf h other as] := by
  have hlen : objects.length = chains.length := hinv.length_eq.symm
  have hholds : Holds h other.llist as := hinv.holds _ hobj
  have hnew := hinv.new (o := { other with llist := .init, traversePointer := none }) rfl rfl
  have hmem (a : Nat) (ha : a ∈ as) : a ∈ chains.flatten :=
    mem_flatten.mpr ⟨as, (of_mem_zip hobj).2, ha⟩
  obtain ⟨done, hcopy, hvalues, hseqs⟩ := hnew.copyLoop
    (n := { other with llist := .init, traversePointer := none }) hlen
    hholds.chain hmem (Nat.lt_succ_self as.length)
  rw [← hholds.head, ← hholds.count] at hcopy hvalues hseqs
  have hready := hcopy.ready hlen
  obtain ⟨hcall, hkept⟩ := addref_call hready rfl
  obtain ⟨hinv', hseqs'⟩ := hcopy.call hlen hcall
  rw [← hready.holds.head] at hinv' hseqs' hkept
  refine ⟨chains ++ [done], hinv', hseqs'.trans ?_⟩
  have hitems : Ready.seqOf ((other.llist.copy h .init).1.addref
      (other.llist.copy h .init).2.head) { other with
        traversePointer := (other.llist.copy h .init).2.head } done =
      Ready.seqOf h other as := by
    apply Ready.seqOf_congr
    exact hkept.trans hvalues
  rw [hseqs]
  exact congrArg (fun q => SplState.seqs ⟨h, objects⟩ chains ++ [q]) hitems

end Copy

theorem seqs_none {s : SplState V} {chains : List (List Nat)}
    (hinv : SplInv s chains) {k : Nat} (hk : s.objects[k]? = none) :
    (s.seqs chains)[k]? = none := by
  rw [List.getElem?_eq_none_iff] at hk ⊢
  rw [SplState.seqs, length_map, length_zip, hinv.length_eq, Nat.min_self]
  exact hk

theorem seqs_some (hlen : os.length = cs.length) :
    (SplState.seqs ⟨h, os ++ o :: os'⟩ (cs ++ as :: cs'))[os.length]? =
      some (Ready.seqOf h o as) := by
  have hzip : os.length = ((os.zip cs).map fun p =>
      Ready.seqOf h p.1 p.2).length := by
    rw [length_map, length_zip, ← hlen, Nat.min_self]
  rw [seqs_split hlen, getElem?_append_right (Nat.le_of_eq hzip.symm),
    ← hzip, Nat.sub_self, getElem?_cons_zero]

/-- A step keeps all objects sequences, and does to them what the operations on
lists do. -/
theorem step {s : SplState V} {chains : List (List Nat)} (hinv : SplInv s chains) (op : SplOp V) :
    ∃ chains', SplInv (s.step op).2 chains' ∧ ((s.step op).1, (s.step op).2.seqs chains') =
        SplSeq.step (s.seqs chains) op := by
  have hlen : s.objects.length = chains.length := hinv.length_eq.symm
  cases op with
  | new lifo fixed =>
    refine ⟨chains ++ [[]], hinv.new rfl rfl, ?_⟩
    rw [SplState.step, SplSeq.step, seqs_split hlen]
    rfl
  | clone k =>
    cases hk : s.objects[k]? with
    | none =>
      refine ⟨chains, ?_, ?_⟩
      · rw [SplState.step, hk]
        exact hinv
      · rw [SplState.step, SplSeq.step, hk, hinv.seqs_none hk]
    | some other =>
      obtain ⟨os, os', cs, as, cs', hobjects, rfl, rfl, hcs⟩ :=
        hinv.split hk
      obtain ⟨h, objects⟩ := s
      subst hobjects
      have hmem : (other, as) ∈ (os ++ other :: os').zip (cs ++ as :: cs') := by
        rw [zip_split hcs.symm]
        exact mem_append_right _ mem_cons_self
      obtain ⟨chains', hinv', hseqs⟩ := hinv.clone hmem
      refine ⟨chains', ?_, ?_⟩
      · rw [SplState.step, hk]
        exact hinv'
      · rw [SplState.step, SplSeq.step, hk, seqs_some hcs.symm]
        exact congrArg (Prod.mk SplResult.done) hseqs
  | call k method =>
    cases hk : s.objects[k]? with
    | none =>
      refine ⟨chains, ?_, ?_⟩
      · rw [SplState.step, hk]
        exact hinv
      · rw [SplState.step, SplSeq.step, hk, hinv.seqs_none hk]
    | some o =>
      obtain ⟨os, os', cs, as, cs', hobjects, rfl, rfl, hcs⟩ :=
        hinv.split hk
      obtain ⟨h, objects⟩ := s
      subst hobjects
      obtain ⟨hresult, as', hcall, hseq⟩ :=
        (hinv.ready hcs.symm).call_refines method
      obtain ⟨hinv', hseqs⟩ := hinv.call hcs.symm hcall
      have hset : (os ++ o :: os').set os.length (o.call h method).2.2 =
          os ++ (o.call h method).2.2 :: os' := by
        simp
      have hstep : SplState.step ⟨h, os ++ o :: os'⟩ (.call os.length method) =
          ((o.call h method).1, ⟨(o.call h method).2.1, os ++ (o.call h method).2.2 :: os'⟩) := by
        rw [SplState.step, hk]
        simp only [hset]
      refine ⟨cs ++ as' :: cs', ?_, ?_⟩
      · rw [hstep]
        exact hinv'
      · rw [hstep, SplSeq.step, seqs_some hcs.symm]
        simp only [hseqs, hseq, hresult]
        have hzip : ((os.zip cs).map fun p =>
            Ready.seqOf h p.1 p.2).length = os.length := by
          rw [length_map, length_zip, hcs, Nat.min_self]
        rw [seqs_split hcs.symm, ← hzip]
        simp

end SplInv

theorem SplInv.run {s : SplState V} {chains : List (List Nat)}
    (hinv : SplInv s chains) (ops : List (SplOp V)) : ∃ chains', SplInv (s.run ops).2 chains' ∧
      ((s.run ops).1, (s.run ops).2.seqs chains') = SplSeq.run (s.seqs chains) ops := by
  induction ops generalizing s chains with
  | nil => exact ⟨chains, hinv, rfl⟩
  | cons op ops ih =>
    obtain ⟨chains', hinv', hstep⟩ := hinv.step op
    obtain ⟨chains'', hinv'', hrun⟩ := ih hinv'
    refine ⟨chains'', hinv'', ?_⟩
    rw [SplSeq.run, ← hstep]
    simp only [← hrun]
    rfl

end PhpEngine

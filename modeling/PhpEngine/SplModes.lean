/-
The modes of iteration.  SplStack and SplQueue are created with a direction that
`setIteratorMode` is to keep, and indices count in the direction of the object.
-/
import Mathlib.Data.BitVec
import PhpEngine.SplObjects

namespace PhpEngine

open List

variable {V : Type}

def splDllistItDelete : BitVec 64 := 0x00000001

def splDllistItLifo : BitVec 64 := 0x00000002

def splDllistItMask : BitVec 64 := 0x00000003

def splDllistItFix : BitVec 64 := 0x00000004

def hasFlag (flags mask : BitVec 64) : Bool :=
  flags &&& mask ≠ 0

/-- `SplDoublyLinkedList::setIteratorMode` on the flags; `none` if it throws. -/
def setIteratorMode (flags value : BitVec 64) : Option (BitVec 64) :=
  if hasFlag flags splDllistItFix ∧ flags &&& splDllistItLifo ≠ value &&& splDllistItLifo then none
  else some (value &&& splDllistItMask)

/-- The direction, and whether it is fixed. -/
def modeOf (flags : BitVec 64) : Bool × Bool :=
  (hasFlag flags splDllistItLifo, hasFlag flags splDllistItFix)

/-- What a call of `setIteratorMode` makes of the two bits, which an object has
as `lifo` and `fixed`. -/
def setMode (mode : Bool × Bool) (lifo : Bool) : Bool × Bool :=
  if mode.2 ∧ mode.1 ≠ lifo then mode else (lifo, false)

theorem lifo_eq_iff (flags value : BitVec 64) :
    flags &&& splDllistItLifo = value &&& splDllistItLifo ↔
      hasFlag flags splDllistItLifo = hasFlag value splDllistItLifo := by
  have hbit (w : BitVec 64) :
      w &&& splDllistItLifo = if w.getLsbD 1 then BitVec.twoPow 64 1 else 0#64 :=
    BitVec.and_twoPow w 1
  simp only [hasFlag, hbit]
  cases flags.getLsbD 1 <;> cases value.getLsbD 1 <;> decide

/-- The mask does not hold the bit that fixes the direction. -/
theorem modeOf_setIteratorMode (flags value : BitVec 64) :
    modeOf ((setIteratorMode flags value).getD flags) =
      setMode (modeOf flags) (hasFlag value splDllistItLifo) := by
  have hmask : modeOf (value &&& splDllistItMask) = (hasFlag value splDllistItLifo, false) := by
    have hfix : splDllistItMask &&& splDllistItFix = 0 := by decide
    simp only [modeOf, hasFlag, BitVec.and_assoc, hfix]
    simp [show splDllistItMask &&& splDllistItLifo = splDllistItLifo by decide]
  have hiff := lifo_eq_iff flags value
  by_cases hfrozen : hasFlag flags splDllistItFix ∧
      hasFlag flags splDllistItLifo ≠ hasFlag value splDllistItLifo
  · have hnone : setIteratorMode flags value = none :=
      if_pos ⟨hfrozen.1, fun heq => hfrozen.2 (hiff.mp heq)⟩
    rw [hnone]
    exact (if_pos hfrozen).symm
  · have hsome : setIteratorMode flags value = some (value &&& splDllistItMask) :=
      if_neg fun h => hfrozen ⟨h.1, fun heq => h.2 (hiff.mpr heq)⟩
    rw [hsome]
    exact hmask.trans (if_neg hfrozen).symm

section Direction

/-- The directions that are asked of object `k`. -/
def modesOf (k : Nat) (ops : List (SplOp V)) : List Bool :=
  ops.filterMap fun
    | .call j (.setIteratorMode lifo) => if j = k then some lifo else none
    | _ => none

def SplDllistObject.mode (o : SplDllistObject) : Bool × Bool :=
  (o.lifo, o.fixed)

variable {s : SplState V} {o : SplDllistObject} {k : Nat}

theorem call_mode (h : SplHeap V) (o : SplDllistObject) (method : SplMethod V) :
    (o.call h method).2.2.mode = match method with
      | .setIteratorMode lifo => setMode o.mode lifo
      | _ => o.mode := by
  have htaken (message : String) (r : Option V × SplHeap V × SplPtrLlist) :
      (o.taken message r).2.2.mode = o.mode := by
    obtain ⟨_ | v, h', llist⟩ := r <;> rfl
  cases method with
  | push v | unshift v => rfl
  | pop => exact htaken _ _
  | shift => exact htaken _ _
  | offsetSet index v =>
    cases index with
    | none => rfl
    | some index =>
      simp only [SplDllistObject.call, SplDllistObject.offsetSet]
      repeat' split
      all_goals rfl
  | offsetUnset index =>
    simp only [SplDllistObject.call, SplDllistObject.offsetUnset]
    repeat' split
    all_goals rfl
  | add index v =>
    simp only [SplDllistObject.call, SplDllistObject.add]
    repeat' split
    all_goals rfl
  | setIteratorMode lifo =>
    rw [SplDllistObject.call]
    by_cases hfrozen : o.fixed ∧ o.lifo ≠ lifo
    · rw [if_pos hfrozen]
      exact (if_pos hfrozen).symm
    · rw [if_neg hfrozen]
      exact (if_neg hfrozen).symm

/-- A step keeps the modes of an object but for its own `setIteratorMode`. -/
theorem step_mode (hk : s.objects[k]? = some o) (op : SplOp V) :
    ∃ o', (s.step op).2.objects[k]? = some o' ∧
      o'.mode = (modesOf k [op]).foldl setMode o.mode := by
  have hlt : k < s.objects.length := (List.getElem?_eq_some_iff.mp hk).1
  have happend (n : SplDllistObject) : (s.objects ++ [n])[k]? = some o := by
    rw [getElem?_append_left hlt, hk]
  cases op with
  | new lifo fixed => exact ⟨o, happend _, rfl⟩
  | clone j =>
    rw [SplState.step]
    cases s.objects[j]? with
    | none => exact ⟨o, hk, rfl⟩
    | some other => exact ⟨o, happend _, rfl⟩
  | call j method =>
    by_cases hj : j = k
    · subst hj
      rw [SplState.step, hk]
      refine ⟨(o.call s.heap method).2.2, getElem?_set_self hlt, (call_mode _ o method).trans ?_⟩
      cases method <;> simp [modesOf]
    · have hmodes : modesOf k [SplOp.call j method] = [] := by
        cases method <;> simp [modesOf, hj]
      rw [hmodes, SplState.step]
      cases s.objects[j]? with
      | none => exact ⟨o, hk, rfl⟩
      | some other => exact ⟨o, (getElem?_set_ne hj).trans hk, rfl⟩

theorem run_mode (hk : s.objects[k]? = some o) (ops : List (SplOp V)) :
    ∃ o', (s.run ops).2.objects[k]? = some o' ∧ o'.mode = (modesOf k ops).foldl setMode o.mode := by
  induction ops generalizing s o with
  | nil => exact ⟨o, hk, rfl⟩
  | cons op ops ih =>
    obtain ⟨o₁, hk₁, hmode₁⟩ := step_mode hk op
    obtain ⟨o₂, hk₂, hmode₂⟩ := ih hk₁
    refine ⟨o₂, hk₂, ?_⟩
    rw [hmode₂, hmode₁, ← foldl_append, modesOf, modesOf, ← filterMap_append]
    rfl

/-- The direction is kept exactly if no other one is asked for behind a call
that asks for it: an accepted call clears the bit that fixes it. -/
theorem foldl_setMode_iff (lifo : Bool) (modes : List Bool) :
    (∀ front, front <+: modes → (front.foldl setMode (lifo, true)).1 = lifo) ↔
      modes.Pairwise fun a b => a = lifo → b = lifo := by
  have hlast (l : List Bool) (b : Bool) : ((l ++ [b]).foldl setMode (lifo, false)).1 = b := by
    have hfree : (l.foldl setMode (lifo, false)).2 = false := by
      generalize lifo = x
      induction l generalizing x with
      | nil => rfl
      | cons c l ih => exact ih c
    rw [foldl_append, foldl_cons, foldl_nil, setMode, if_neg (fun h => by simp [hfree] at h)]
  have hkept (modes : List Bool) (h : ∀ b ∈ modes, b = lifo) :
      (modes.foldl setMode (lifo, false)).1 = lifo := by
    induction modes with
    | nil => rfl
    | cons b modes ih =>
      obtain ⟨rfl, hrest⟩ := forall_mem_cons.mp h
      exact ih hrest
  induction modes with
  | nil =>
    refine iff_of_true (fun front hfront => ?_) .nil
    rw [prefix_nil.mp hfront]
    rfl
  | cons a modes ih =>
    rw [pairwise_cons]
    by_cases ha : a = lifo
    · subst ha
      have hstart : setMode (a, true) a = (a, false) := by simp [setMode]
      constructor
      · intro h
        have hall (b : Bool) (hb : b ∈ modes) : b = a := by
          obtain ⟨l, r, rfl⟩ := append_of_mem hb
          have hfront := h (a :: (l ++ [b])) ⟨r, by simp⟩
          rw [foldl_cons, hstart, hlast] at hfront
          exact hfront
        exact ⟨fun b hb _ => hall b hb, pairwise_of_forall_mem_list fun b _ c hc _ => hall c hc⟩
      · rintro ⟨hall, -⟩ front hfront
        cases front with
        | nil => rfl
        | cons c front =>
          obtain ⟨rfl, hrest⟩ := cons_prefix_cons.mp hfront
          rw [foldl_cons, hstart]
          exact hkept front fun b hb => hall b (hrest.subset hb) rfl
    · have hstart : setMode (lifo, true) a = (lifo, true) := by simp [setMode, Ne.symm ha]
      refine ⟨fun h => ⟨fun b _ heq => absurd heq ha, ih.mp fun front hfront => ?_⟩, ?_⟩
      · have hcons := h (a :: front) (cons_prefix_cons.mpr ⟨rfl, hfront⟩)
        rwa [foldl_cons, hstart] at hcons
      · rintro ⟨-, hrest⟩ front hfront
        cases front with
        | nil => rfl
        | cons c front =>
          obtain ⟨rfl, hprefix⟩ := cons_prefix_cons.mp hfront
          rw [foldl_cons, hstart]
          exact ih.mpr hrest front hprefix

/-- The direction of an object with the fixing bit never changes in a run exactly
if no call asks for the other direction behind one that asks for its own. -/
theorem splRun_keepsDirection_iff (hk : s.objects[k]? = some o) (hfixed : o.fixed = true)
    (ops : List (SplOp V)) :
    (∀ front, front <+: ops → (s.run front).2.objects[k]?.map SplDllistObject.lifo = some o.lifo) ↔
      (modesOf k ops).Pairwise fun a b => a = o.lifo → b = o.lifo := by
  rw [← foldl_setMode_iff]
  have hmode (front : List (SplOp V)) : (s.run front).2.objects[k]?.map SplDllistObject.lifo =
        some ((modesOf k front).foldl setMode (o.lifo, true)).1 := by
    obtain ⟨o', hk', hmode⟩ := run_mode hk front
    rw [hk', Option.map_some]
    rw [SplDllistObject.mode, SplDllistObject.mode, hfixed] at hmode
    rw [← hmode]
  simp only [hmode, Option.some.injEq]
  constructor
  · intro h modes hprefix
    obtain ⟨front, hfront, rfl⟩ := prefix_filterMap_iff.mp hprefix
    exact h front hfront
  · intro h front hfront
    exact h _ (hfront.filterMap _)

/-- A stack whose direction is first confirmed and then changed. -/
def unfrozenStack : List (SplOp Nat) :=
  [.call 0 (.setIteratorMode true), .call 0 (.setIteratorMode false)]

/-- A fixed stack alone. -/
def frozenStack : SplState Nat :=
  ⟨SplState.init.heap, [⟨.init, none, true, true⟩]⟩

theorem splRun_keepsDirection_frozen : frozenStack.objects[0]? = some ⟨.init, none, true, true⟩ ∧
    ∀ front, front <+: ([.call 0 (.setIteratorMode false), .call 0 (.push 7),
        .call 0 (.setIteratorMode true)] : List (SplOp Nat)) →
      (frozenStack.run front).2.objects[0]?.map SplDllistObject.lifo = some true :=
  ⟨rfl, (splRun_keepsDirection_iff (s := frozenStack) (o := ⟨.init, none, true, true⟩) (k := 0)
    rfl rfl _).mpr (by decide)⟩

/-- The first call leaves the direction as it is but not the bit that fixes it. -/
theorem splRun_unfrozenStack :
    ¬ ∀ front, front <+: unfrozenStack →
      ((SplState.init : SplState Nat).run (.new true true :: front)).2.objects[0]?.map
        SplDllistObject.lifo = some true := by
  intro h
  have hlast := h unfrozenStack (prefix_refl _)
  cases hlast

end Direction

section Indices

namespace SplDllistObject

variable (h : SplHeap V) (intern : SplDllistObject)

/-- `SplDoublyLinkedList::offsetGet` -/
def offsetGet (index : Int) : SplResult V :=
  if index < 0 ∨ (intern.llist.count : Int) ≤ index then
    .throws (.outOfRange "Offset invalid or out of range")
  else
    match (intern.llist.offset h index intern.lifo).bind h.element with
    | none => .throws (.outOfRange "Offset invalid")
    | some element => element.data.elim .done .value

/-- After `add`, the indices from the given one on have moved up by one. -/
structure AddAgrees (index : Int) (value : V) : Prop where
  added : (intern.add h index value).2.2.offsetGet (intern.add h index value).2.1 index =
    .value value
  before : ∀ j, 0 ≤ j → j < index →
    (intern.add h index value).2.2.offsetGet (intern.add h index value).2.1 j = intern.offsetGet h j
  behind : ∀ j, index ≤ j → j < intern.llist.count →
    (intern.add h index value).2.2.offsetGet (intern.add h index value).2.1 (j + 1) =
      intern.offsetGet h j

end SplDllistObject

variable {h : SplHeap V} {o : SplDllistObject} {as : List Nat}

theorem Call.ready {h' : SplHeap V} {o' : SplDllistObject} {as' : List Nat}
    (hr : Ready h o as) (hcall : Call h o as h' o' as') : Ready h' o' as' where
  holds := hcall.holds
  nodup := hcall.nodup
  held a := by
    have hheld := hr.held a
    have hrefs := hcall.refs a
    omega
  alive := hcall.alive
  valued := hcall.valued
  fresh := hcall.fresh

/-- The values of an object in its direction. -/
def Ready.inOrder (h : SplHeap V) (o : SplDllistObject) (as : List Nat) : List V :=
  if o.lifo then (h.values as).reverse else h.values as

namespace Ready

section

variable (hr : Ready h o as)
include hr

theorem length_inOrder : (inOrder h o as).length = o.llist.count := by
  rw [hr.holds.count, ← length_values hr.valued, inOrder]
  split
  · exact length_reverse
  · rfl

theorem offsetGet_eq {j : Nat} {v : V} (hv : (inOrder h o as)[j]? = some v) :
    o.offsetGet h j = .value v := by
  have hcount := hr.length_inOrder
  have hj := (List.getElem?_eq_some_iff.mp hv).1
  have hlength := hr.holds.count
  rw [SplDllistObject.offsetGet, if_neg (by omega), hr.offset_eq (by omega) (by omega)]
  obtain ⟨l, a, r, rfl, hl, hget⟩ :=
    split_at (placeOf_lt o.lifo (Int.natCast_nonneg j) (by omega : (j : Int) < as.length))
  obtain ⟨e, w, helem, -, -, hdata, hpayload⟩ := hr.element_eq
  have hvalue : (h.values (l ++ a :: r))[l.length]? = some w := by
    have hvalues : h.values (l ++ a :: r) = h.values l ++ w :: h.values r := by
      simp [SplHeap.values, hpayload]
    have hfront : (h.values l).length = l.length :=
      length_values fun b hb => hr.valued b (mem_append_left _ hb)
    rw [hvalues, getElem?_append_right (Nat.le_of_eq hfront), hfront, Nat.sub_self]
    rfl
  have hw : w = v := by
    have hsize := length_values hr.valued
    rw [inOrder] at hv
    rw [hl, placeOf] at hvalue
    split at hv
    · rw [getElem?_reverse (by omega), hsize, ← Int.toNat_natCast j] at hv
      rw [if_pos ‹_›, hv] at hvalue
      exact (Option.some.inj hvalue).symm
    · rw [if_neg ‹_›, Int.toNat_natCast, hv] at hvalue
      exact (Option.some.inj hvalue).symm
  rw [hget]
  simp only [Option.bind_some, helem, hdata, Option.elim_some, hw]

theorem offsetGet_iff {j : Nat} (hj : j < o.llist.count) {v : V} :
    o.offsetGet h j = .value v ↔ (inOrder h o as)[j]? = some v := by
  refine ⟨fun hget => ?_, hr.offsetGet_eq⟩
  rw [← hr.length_inOrder] at hj
  have hsome := List.getElem?_eq_getElem hj
  rw [hr.offsetGet_eq hsome, SplResult.value.injEq] at hget
  rw [hsome, hget]

/-- What `add` does in the direction of the object. -/
theorem inOrder_add {i : Nat} (hi : i ≤ o.llist.count) (v : V) :
    ∃ as' front back, Ready (o.add h i v).2.1 (o.add h i v).2.2 as' ∧
      inOrder h o as = front ++ back ∧
      inOrder (o.add h i v).2.1 (o.add h i v).2.2 as' = front ++ v :: back ∧
      front.length = if o.lifo then if i = o.llist.count then 0 else i + 1 else i := by
  obtain ⟨-, as', hcall, hseq⟩ := hr.add_refines i v
  have hsize : (h.values as).length = o.llist.count := by
    rw [length_values hr.valued, hr.holds.count]
  have hlifo : (o.add h i v).2.2.lifo = o.lifo :=
    congrArg Prod.fst (call_mode h o (.add i v))
  have hvalues : ∃ front back, h.values as = front ++ back ∧
      (o.add h i v).2.1.values as' = front ++ v :: back ∧
      front.length = if i = o.llist.count then i else placeOf o.lifo o.llist.count i := by
    have hitems := congrArg SplSeq.items hseq
    have hrange : ¬ ((i : Int) < 0 ∨ (o.llist.count : Int) < i) := by omega
    simp only [seqOf, SplSeq.call, hsize, if_neg hrange, Nat.cast_inj] at hitems
    by_cases hend : i = o.llist.count
    · rw [if_pos hend] at hitems ⊢
      exact ⟨h.values as, [], (append_nil _).symm, hitems, hsize.trans hend.symm⟩
    · rw [if_neg hend] at hitems ⊢
      have hplace : placeOf o.lifo o.llist.count i < (h.values as).length := by
        rw [hsize]
        exact placeOf_lt o.lifo (Int.natCast_nonneg i) (by omega)
      obtain ⟨front, w, back, hsplit, hfront, -⟩ := split_at hplace
      refine ⟨front, w :: back, hsplit, hitems.trans ?_, hfront⟩
      have hsame : (⟨h.values as, o.lifo, o.fixed⟩ : SplSeq V).place i = front.length := by
        rw [hfront, ← hsize]
        rfl
      rw [hsame, hsplit, insertIdx_length_append]
  obtain ⟨front, back, hold, hnew, hfront⟩ := hvalues
  have hready := hcall.ready hr
  simp only [inOrder, hlifo, hold]
  cases hmode : o.lifo with
  | false =>
    refine ⟨as', front, back, hready, rfl, hnew, ?_⟩
    rw [hfront, hmode, placeOf]
    simp
  | true =>
    refine ⟨as', back.reverse, front.reverse, hready, by simp, by simp [hnew], ?_⟩
    have hsum := congrArg List.length hold
    rw [length_append, hsize, hfront, hmode, placeOf] at hsum
    simp only [if_true, Int.toNat_natCast] at hsum
    rw [length_reverse, if_pos rfl]
    split at hsum
    next hend => rw [if_pos hend]; omega
    next hend => rw [if_neg hend]; omega

theorem addAgrees_of_split {i : Nat} {v : V} {as' : List Nat}
    (hr' : Ready (o.add h i v).2.1 (o.add h i v).2.2 as') {front back : List V}
    (hold : inOrder h o as = front ++ back)
    (hnew : inOrder (o.add h i v).2.1 (o.add h i v).2.2 as' = front ++ v :: back)
    (hfront : front.length = i) : o.AddAgrees h i v := by
  subst hfront
  refine ⟨hr'.offsetGet_eq ?_, ?_, ?_⟩
  · rw [hnew, getElem?_append_right (Nat.le_refl _), Nat.sub_self]
    rfl
  · intro j hlow hlt
    obtain ⟨j, rfl⟩ := Int.eq_ofNat_of_zero_le hlow
    have hj : j < front.length := by omega
    rw [hr.offsetGet_eq (v := front[j]) (by rw [hold, getElem?_append_left hj]; simp)]
    exact hr'.offsetGet_eq (by rw [hnew, getElem?_append_left hj]; simp)
  · intro j hle hlt
    obtain ⟨k, rfl⟩ := Int.le.dest hle
    have hcount := hr.length_inOrder
    rw [hold, length_append] at hcount
    have hk : k < back.length := by omega
    have hget := hr.offsetGet_eq (j := front.length + k) (v := back[k]) (by
      rw [hold, getElem?_append_right (Nat.le_add_right _ _), Nat.add_sub_cancel_left]
      simp)
    rw [Nat.cast_add] at hget
    rw [hget]
    refine hr'.offsetGet_eq (j := front.length + k + 1) ?_
    rw [hnew, getElem?_append_right (by omega), Nat.add_assoc, Nat.add_sub_cancel_left]
    simp

end

end Ready

variable {s : SplState V} {k : Nat}

/-- An object with two values. -/
def twoValues (lifo : Bool) : SplState Nat :=
  ((SplState.init : SplState Nat).run [.new lifo false, .call 0 (.push 1), .call 0 (.push 2)]).2

end Indices

end PhpEngine

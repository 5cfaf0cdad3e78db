/-
SplDoublyLinkedList as a sequence.  The addresses of an object's elements are a
chain between its head and its tail; every method changes the chain as an
operation on lists changes the list of its values.
-/
import Mathlib.Data.List.Nodup
import PhpEngine.DoublyLinked
import PhpEngine.SplDllist

namespace PhpEngine

open DoublyLinked Option

variable {V : Type}

/-- What an object stands for. -/
structure SplSeq (V : Type) where
  items : List V
  lifo : Bool
  fixed : Bool
deriving Repr, DecidableEq

namespace SplSeq

variable (q : SplSeq V)

/-- The place that an index names. -/
def place (index : Int) : Nat :=
  if q.lifo then q.items.length - 1 - index.toNat else index.toNat

/-- The methods as operations on a list. -/
def call : SplMethod V → SplResult V × SplSeq V
  | .push value => (.done, { q with items := q.items ++ [value] })
  | .unshift value => (.done, { q with items := value :: q.items })
  | .pop =>
    match q.items.getLast? with
    | none => (.throws (.runtime "Can't pop from an empty datastructure"), q)
    | some value => (.value value, { q with items := q.items.dropLast })
  | .shift =>
    match q.items.head? with
    | none => (.throws (.runtime "Can't shift from an empty datastructure"), q)
    | some value => (.value value, { q with items := q.items.tail })
  | .offsetSet none value => (.done, { q with items := q.items ++ [value] })
  | .offsetSet (some index) value =>
    if index < 0 ∨ (q.items.length : Int) ≤ index then
      (.throws (.outOfRange "Offset invalid or out of range"), q)
    else (.done, { q with items := q.items.set (q.place index) value })
  | .offsetUnset index =>
    if index < 0 ∨ (q.items.length : Int) ≤ index then
      (.throws (.outOfRange "Offset out of range"), q)
    else (.done, { q with items := q.items.eraseIdx (q.place index) })
  | .add index value =>
    if index < 0 ∨ (q.items.length : Int) < index then
      (.throws (.outOfRange "Offset invalid or out of range"), q)
    else if index = q.items.length then
      (.done, { q with items := q.items ++ [value] })
    else (.done, { q with items := q.items.insertIdx (q.place index) value })
  | .setIteratorMode lifo =>
    if q.fixed ∧ q.lifo ≠ lifo then
      (.throws (.runtime "Iterators' LIFO/FIFO modes for SplStack/SplQueue objects are frozen"), q)
    else (.done, { q with lifo := lifo, fixed := false })

def step (qs : List (SplSeq V)) : SplOp V → SplResult V × List (SplSeq V)
  | .new lifo fixed => (.done, qs ++ [⟨[], lifo, fixed⟩])
  | .clone k =>
    match qs[k]? with
    | none => (.done, qs)
    | some q => (.done, qs ++ [q])
  | .call k method =>
    match qs[k]? with
    | none => (.done, qs)
    | some q =>
      let (result, q) := q.call method
      (result, qs.set k q)

def run (qs : List (SplSeq V)) : List (SplOp V) → List (SplResult V) × List (SplSeq V)
  | [] => ([], qs)
  | op :: ops =>
    let (result, qs) := step qs op
    let (results, qs) := run qs ops
    (result :: results, qs)

end SplSeq

namespace SplHeap

variable (h : SplHeap V)

/-- The links of the elements. -/
def links (a : Nat) : Option (Links Nat) :=
  (h.element a).map fun e => ⟨e.prev, e.next⟩

/-- The rest of the elements. -/
def payload (a : Nat) : Option (Nat × Option V) :=
  (h.element a).map fun e => (e.rc, e.data)

/-- The number of references to an element. -/
def refs (a : Nat) : Nat :=
  (h.payload a).elim 0 Prod.fst

/-- The values of a chain. -/
def values (as : List Nat) : List V :=
  as.filterMap fun a => (h.payload a).bind Prod.snd

variable {h}

theorem element_ext {h' : SplHeap V} {a : Nat} (hlinks : h'.links a = h.links a)
    (hpayload : h'.payload a = h.payload a) : h'.element a = h.element a := by
  rw [links, links] at hlinks
  rw [payload, payload] at hpayload
  cases helem : h.element a with
  | none =>
    rw [helem] at hlinks
    exact map_eq_none_iff.mp hlinks
  | some e =>
    rw [helem] at hlinks hpayload
    obtain ⟨e', helem', heq⟩ := map_eq_some_iff.mp hlinks
    cases e'
    simp_all

@[simp] theorem links_setNext (p next : Option Nat) :
    (h.setNext p next).links = DoublyLinked.setNext h.links p next := by
  cases p with
  | none => rw [DoublyLinked.setNext_none]; rfl
  | some a =>
    funext b
    by_cases hb : b = a
    · subst hb
      simp [links, setNext, modify, DoublyLinked.setNext, map_map]
      rfl
    · simp [links, setNext, modify, DoublyLinked.setNext, hb, Ne.symm hb]

@[simp] theorem links_setPrev (p prev : Option Nat) :
    (h.setPrev p prev).links = DoublyLinked.setPrev h.links p prev := by
  cases p with
  | none => rw [DoublyLinked.setPrev_none]; rfl
  | some a =>
    funext b
    by_cases hb : b = a
    · subst hb
      simp [links, setPrev, modify, DoublyLinked.setPrev, map_map]
      rfl
    · simp [links, setPrev, modify, DoublyLinked.setPrev, hb, Ne.symm hb]

theorem links_modify {f : SplPtrLlistElement V → SplPtrLlistElement V}
    (hf : ∀ e, (f e).prev = e.prev ∧ (f e).next = e.next) (a : Nat) :
    (h.modify a f).links = h.links := by
  funext b
  by_cases hb : b = a
  · subst hb
    simp [links, modify, map_map, Function.comp_def, hf]
  · simp [links, modify, hb]

theorem payload_modify {f : SplPtrLlistElement V → SplPtrLlistElement V}
    (hf : ∀ e, (f e).rc = e.rc ∧ (f e).data = e.data) (a : Nat) :
    (h.modify a f).payload = h.payload := by
  funext b
  by_cases hb : b = a
  · subst hb
    simp [payload, modify, map_map, Function.comp_def, hf]
  · simp [payload, modify, hb]

@[simp] theorem payload_setNext (p next : Option Nat) : (h.setNext p next).payload = h.payload := by
  cases p with
  | none => rfl
  | some a =>
    apply payload_modify
    intro e
    exact ⟨rfl, rfl⟩

@[simp] theorem payload_setPrev (p prev : Option Nat) : (h.setPrev p prev).payload = h.payload := by
  cases p with
  | none => rfl
  | some a =>
    apply payload_modify
    intro e
    exact ⟨rfl, rfl⟩

@[simp] theorem links_setData (a : Nat) (data : Option V) : (h.setData a data).links = h.links := by
  apply links_modify
  intro e
  exact ⟨rfl, rfl⟩

@[simp] theorem links_emalloc (e : SplPtrLlistElement V) :
    (h.emalloc e).2.links = put h.links h.brk ⟨e.prev, e.next⟩ := by
  funext b
  by_cases hb : b = h.brk
  · subst hb
    simp [links, emalloc, put]
  · simp [links, emalloc, put, hb]

@[simp] theorem payload_emalloc (e : SplPtrLlistElement V) : (h.emalloc e).2.payload =
      Function.update h.payload h.brk (some (e.rc, e.data)) := by
  funext b
  by_cases hb : b = h.brk
  · subst hb
    simp [payload, emalloc]
  · simp [payload, emalloc, hb]

@[simp] theorem payload_setData (a : Nat) (data : Option V) :
    (h.setData a data).payload = Function.update h.payload a
      ((h.payload a).map fun p => (p.1, data)) := by
  funext b
  by_cases hb : b = a
  · subst hb
    simp [payload, setData, modify, map_map, Function.comp_def]
  · simp [payload, setData, modify, hb]

/-- Every element that is not freed has a reference. -/
def Alive (h : SplHeap V) : Prop :=
  ∀ a rc data, h.payload a = some (rc, data) → 0 < rc

theorem element_delref_of_ne {a b : Nat} (hb : b ≠ a) : (h.delref a).element b = h.element b := by
  rw [delref]
  split
  · rfl
  · split
    · exact Function.update_of_ne hb _ _
    · exact Function.update_of_ne hb _ _

theorem payload_delref (a : Nat) : (h.delref a).payload a = (h.payload a).bind fun p =>
      if p.1 - 1 = 0 then none else some (p.1 - 1, p.2) := by
  rw [delref]
  cases helem : h.element a with
  | none => simp [payload, helem]
  | some e =>
    dsimp only
    split
    · simp_all [payload, efree]
    · simp_all [payload, modify]

theorem refs_delref (a : Nat) : (h.delref a).refs a = h.refs a - 1 := by
  rw [refs, payload_delref, refs]
  cases h.payload a with
  | none => rfl
  | some p =>
    rw [bind_some, elim_some]
    split
    · rename_i hzero
      rw [hzero]
      rfl
    · rfl

theorem payload_delref_of_ne {a b : Nat} (hb : b ≠ a) : (h.delref a).payload b = h.payload b := by
  rw [payload, element_delref_of_ne hb, payload]

theorem Alive.delref (halive : h.Alive) (a : Nat) : (h.delref a).Alive := by
  intro b rc data hb
  by_cases hba : b = a
  · subst hba
    rw [payload_delref] at hb
    obtain ⟨p, -, hp⟩ := bind_eq_some_iff.mp hb
    split at hp
    · cases hp
    · cases hp
      omega
  · rw [payload_delref_of_ne hba] at hb
    exact halive b rc data hb

theorem Alive.setData (halive : h.Alive) (a : Nat) (data : Option V) :
    (h.setData a data).Alive := by
  intro b rc data' hb
  rw [payload_setData] at hb
  by_cases hba : b = a
  · subst hba
    rw [Function.update_self] at hb
    obtain ⟨p, hp, heq⟩ := map_eq_some_iff.mp hb
    cases heq
    exact halive b p.1 p.2 hp
  · rw [Function.update_of_ne hba] at hb
    exact halive b rc data' hb

theorem refs_setData (a b : Nat) (data : Option V) : (h.setData a data).refs b = h.refs b := by
  rw [refs, payload_setData, refs]
  by_cases hba : b = a
  · subst hba
    rw [Function.update_self]
    cases h.payload b <;> rfl
  · rw [Function.update_of_ne hba]

end SplHeap

/-- The elements of a list lie at `as`. -/
structure Holds (h : SplHeap V) (llist : SplPtrLlist) (as : List Nat) :
    Prop where
  chain : Chain h.links none as none
  head : llist.head = as.head?
  tail : llist.tail = as.getLast?
  count : llist.count = as.length

/-- The references to an element that an object has. -/
def SplDllistObject.holds (o : SplDllistObject) (as : List Nat) (a : Nat) : Nat :=
  as.count a + if o.traversePointer = some a then 1 else 0

/-- What a call may rely on. -/
structure Ready (h : SplHeap V) (o : SplDllistObject) (as : List Nat) :
    Prop where
  holds : Holds h o.llist as
  nodup : as.Nodup
  held : ∀ a, o.holds as a ≤ h.refs a
  alive : h.Alive
  valued : ∀ a ∈ as, ∃ rc v, h.payload a = some (rc, some v)
  fresh : ∀ a, h.brk ≤ a → h.element a = none

/-- What a call does to the heap: `as` and `as'` are the elements of the object
before and after it. -/
structure Call (h : SplHeap V) (o : SplDllistObject) (as : List Nat)
    (h' : SplHeap V) (o' : SplDllistObject) (as' : List Nat) : Prop where
  holds : Holds h' o'.llist as'
  nodup : as'.Nodup
  mem : ∀ a ∈ as', a ∈ as ∨ a = h.brk
  frame : ∀ a, a ∉ as → a ≠ h.brk → h'.element a = h.element a
  refs : ∀ a, h'.refs a + o.holds as a = h.refs a + o'.holds as' a
  alive : h'.Alive
  valued : ∀ a ∈ as', ∃ rc v, h'.payload a = some (rc, some v)
  brk_le : h.brk ≤ h'.brk
  fresh : ∀ a, h'.brk ≤ a → h'.element a = none

namespace Ready

variable {h h' : SplHeap V} {o : SplDllistObject} {as l r : List Nat}

theorem lt_brk (hr : Ready h o as) {a : Nat} (ha : a ∈ as) : a < h.brk := by
  obtain ⟨rc, v, hpayload⟩ := hr.valued a ha
  by_contra hge
  have hnone := hr.fresh a (Nat.le_of_not_lt hge)
  rw [SplHeap.payload, hnone] at hpayload
  cases hpayload

theorem brk_not_mem (hr : Ready h o as) : h.brk ∉ as :=
  fun hmem => Nat.lt_irrefl _ (hr.lt_brk hmem)

theorem refs_brk (hr : Ready h o as) : h.refs h.brk = 0 := by
  rw [SplHeap.refs, SplHeap.payload, hr.fresh _ (Nat.le_refl _)]
  rfl

theorem traverse_ne_brk (hr : Ready h o as) : o.traversePointer ≠ some h.brk := by
  intro htraverse
  have hheld := hr.held h.brk
  rw [SplDllistObject.holds, if_pos htraverse, hr.refs_brk] at hheld
  omega

theorem values_congr (hsame : ∀ a ∈ as, h'.payload a = h.payload a) :
    h'.values as = h.values as := by
  apply List.filterMap_congr
  intro a ha
  rw [hsame a ha]

theorem values_middle {a : Nat} {rc : Nat} {v : V} (hnot : a ∉ l ++ r)
    (hother : ∀ b, b ≠ a → h'.payload b = h.payload b) (hnew : h'.payload a = some (rc, some v)) :
    h'.values (l ++ a :: r) = h.values l ++ v :: h.values r := by
  have hsame (b : Nat) (hb : b ∈ l ++ r) : h'.payload b = h.payload b :=
    hother b fun heq => hnot (heq ▸ hb)
  rw [← values_congr fun b hb => hsame b (List.mem_append_left r hb),
    ← values_congr fun b hb => hsame b (List.mem_append_right l hb)]
  simp only [SplHeap.values, List.filterMap_append, List.filterMap_cons, hnew, bind_some]

/-- A new element between `l` and `r`. -/
theorem inserted (hr : Ready h o (l ++ r)) (v : V) (h' : SplHeap V) (llist : SplPtrLlist)
    (hlinks : h'.links = DoublyLinked.insert h.links l r h.brk) (hpayload : h'.payload =
      Function.update h.payload h.brk (some (1, some v))) (hbrk : h'.brk = h.brk + 1)
    (hhead : llist.head = (l ++ h.brk :: r).head?) (htail : llist.tail = (l ++ h.brk :: r).getLast?)
    (hcount : llist.count = o.llist.count + 1) :
    Call h o (l ++ r) h' { o with llist := llist } (l ++ h.brk :: r) ∧
      h'.values (l ++ h.brk :: r) = h.values l ++ v :: h.values r := by
  have hnot := hr.brk_not_mem
  have hother (a : Nat) (ha : a ≠ h.brk) : h'.payload a = h.payload a := by
    rw [hpayload, Function.update_of_ne ha]
  have hnew : h'.payload h.brk = some (1, some v) := by
    rw [hpayload, Function.update_self]
  have hkept (a : Nat) (ha : a ∉ l ++ r) (hne : a ≠ h.brk) : h'.element a = h.element a := by
    apply SplHeap.element_ext
    · rw [hlinks, insert_of_not_mem ha hne]
    · exact hother a hne
  constructor
  · constructor
    · refine ⟨?_, hhead, htail, ?_⟩
      · rw [hlinks]
        exact hr.holds.chain.insert hr.nodup hnot
      · have hlength := hr.holds.count
        rw [hcount, hlength, List.length_append, List.length_append, List.length_cons]
        rfl
    · rw [List.nodup_middle, List.nodup_cons]
      exact ⟨hnot, hr.nodup⟩
    · intro a ha
      have hcases : a ∈ l ∨ a = h.brk ∨ a ∈ r := by
        simpa using ha
      rcases hcases with hl | rfl | hr
      · exact .inl (List.mem_append_left r hl)
      · exact .inr rfl
      · exact .inl (List.mem_append_right l hr)
    · exact hkept
    · intro a
      by_cases ha : a = h.brk
      · subst ha
        simp only [SplDllistObject.holds, SplHeap.refs, hnew,
          if_neg hr.traverse_ne_brk, List.count_append, List.count_cons_self]
        have hrefs := hr.refs_brk
        rw [SplHeap.refs] at hrefs
        simp only [elim_some]
        omega
      · rw [SplHeap.refs, hother a ha, SplHeap.refs]
        simp only [SplDllistObject.holds, List.count_append, List.count_cons_of_ne (Ne.symm ha)]
    · intro a rc data ha
      by_cases hne : a = h.brk
      · subst hne
        rw [hnew] at ha
        cases ha
        exact Nat.one_pos
      · rw [hother a hne] at ha
        exact hr.alive a rc data ha
    · intro a ha
      by_cases hne : a = h.brk
      · subst hne
        exact ⟨1, v, hnew⟩
      · rw [hother a hne]
        apply hr.valued a
        simpa [hne] using ha
    · omega
    · intro a ha
      have hge : h.brk ≤ a := by omega
      have hmem : a ∉ l ++ r := fun hmem => absurd (hr.lt_brk hmem) (by omega)
      rw [hkept a hmem (by omega)]
      exact hr.fresh a hge
  · exact values_middle hnot hother hnew

/-- The element between `l` and `r` is taken out. -/
theorem removed {a : Nat} (hr : Ready h o (l ++ a :: r)) (traverse : Option Nat)
    {llist : SplPtrLlist} (hlinks : ∀ b, b ≠ a → h'.links b = remove h.links l r b)
    (hpayload : ∀ b, b ≠ a → h'.payload b = h.payload b)
    (hrefs : h'.refs a + (1 + if o.traversePointer = some a then 1 else 0) =
      h.refs a + if traverse = some a then 1 else 0) (htraverse : ∀ b, b ≠ a →
      (traverse = some b ↔ o.traversePointer = some b)) (halive : h'.Alive) (hbrk : h'.brk = h.brk)
    (hhead : llist.head = (l ++ r).head?) (htail : llist.tail = (l ++ r).getLast?)
    (hcount : llist.count = o.llist.count - 1) : Call h o (l ++ a :: r) h'
        { o with llist := llist, traversePointer := traverse } (l ++ r) ∧
      h'.values (l ++ r) = h.values l ++ h.values r := by
  have hnodup := hr.nodup
  rw [List.nodup_middle, List.nodup_cons] at hnodup
  have hne (b : Nat) (hb : b ∈ l ++ r) : b ≠ a := by
    rintro rfl
    exact hnodup.1 hb
  have hmem (b : Nat) (hb : b ∈ l ++ r) : b ∈ l ++ a :: r := by
    rw [List.mem_append] at hb ⊢
    exact hb.imp_right (List.mem_cons_of_mem a)
  constructor
  · constructor
    · refine ⟨?_, hhead, htail, ?_⟩
      · apply (hr.holds.chain.remove hr.nodup).congr
        intro b hb
        exact hlinks b (hne b hb)
      · rw [hcount, hr.holds.count, List.length_append, List.length_append, List.length_cons]
        omega
    · exact hnodup.2
    · intro b hb
      exact .inl (hmem b hb)
    · intro b hb _
      have hba : b ≠ a := by
        rintro rfl
        exact hb (List.mem_append_right l List.mem_cons_self)
      apply SplHeap.element_ext
      · rw [hlinks b hba, remove_of_not_mem fun hmem' => hb (hmem b hmem')]
      · exact hpayload b hba
    · intro b
      by_cases hba : b = a
      · subst hba
        simp only [SplDllistObject.holds, List.count_append, List.count_cons_self]
        omega
      · have hsame : (if traverse = some b then 1 else 0) =
            if o.traversePointer = some b then 1 else 0 := by
          simp only [htraverse b hba]
        rw [SplHeap.refs, hpayload b hba, SplHeap.refs]
        simp only [SplDllistObject.holds, List.count_append, hsame,
          List.count_cons_of_ne (Ne.symm hba)]
    · exact halive
    · intro b hb
      rw [hpayload b (hne b hb)]
      exact hr.valued b (hmem b hb)
    · exact Nat.le_of_eq hbrk.symm
    · intro b hb
      rw [hbrk] at hb
      have hba : b ∉ l ++ a :: r := fun hmem' =>
        absurd (hr.lt_brk hmem') (Nat.not_lt_of_le hb)
      have hba' : b ≠ a := by
        rintro rfl
        exact hba (List.mem_append_right l List.mem_cons_self)
      rw [← hr.fresh b hb]
      apply SplHeap.element_ext
      · rw [hlinks b hba', remove_of_not_mem fun hmem' => hba (hmem b hmem')]
      · exact hpayload b hba'
  · rw [SplHeap.values, List.filterMap_append]
    congr 1
    · apply values_congr
      intro b hb
      exact hpayload b (hne b (List.mem_append_left r hb))
    · apply values_congr
      intro b hb
      exact hpayload b (hne b (List.mem_append_right l hb))

@[simp] theorem brk_setNext (p next : Option Nat) : (h.setNext p next).brk = h.brk := by
  cases p <;> rfl

@[simp] theorem brk_setPrev (p prev : Option Nat) : (h.setPrev p prev).brk = h.brk := by
  cases p <;> rfl

@[simp] theorem brk_delref (a : Nat) : (h.delref a).brk = h.brk := by
  rw [SplHeap.delref]
  split
  · rfl
  · split <;> rfl

theorem push (hr : Ready h o as) (v : V) : Call h o as (o.llist.push h (some v)).1
        { o with llist := (o.llist.push h (some v)).2 } (as ++ [h.brk]) ∧
      (o.llist.push h (some v)).1.values (as ++ [h.brk]) = h.values as ++ [v] := by
  have hr' : Ready h o (as ++ []) := by rwa [List.append_nil]
  have hins := hr'.inserted v (o.llist.push h (some v)).1
    (o.llist.push h (some v)).2 ?_ ?_ ?_ ?_ ?_ rfl
  · rwa [List.append_nil] at hins
  · simp [SplPtrLlist.push, DoublyLinked.insert, hr.holds.tail]
    rfl
  · simp [SplPtrLlist.push]
  · simp [SplPtrLlist.push]
    rfl
  · simp only [SplPtrLlist.push, SplHeap.emalloc, hr.holds.tail, hr.holds.head]
    cases as <;> simp
  · simp [SplPtrLlist.push, SplHeap.emalloc]

theorem unshift (hr : Ready h o as) (v : V) : Call h o as (o.llist.unshift h (some v)).1
        { o with llist := (o.llist.unshift h (some v)).2 } (h.brk :: as) ∧
      (o.llist.unshift h (some v)).1.values (h.brk :: as) = v :: h.values as := by
  have hr' : Ready h o ([] ++ as) := hr
  have hins := hr'.inserted v (o.llist.unshift h (some v)).1
    (o.llist.unshift h (some v)).2 ?_ ?_ ?_ ?_ ?_ rfl
  · exact hins
  · simp [SplPtrLlist.unshift, DoublyLinked.insert, hr.holds.head]
    rfl
  · simp [SplPtrLlist.unshift]
  · simp [SplPtrLlist.unshift]
    rfl
  · rfl
  · simp only [SplPtrLlist.unshift, SplHeap.emalloc, hr.holds.tail, hr.holds.head]
    cases as <;> simp

theorem element_eq {a : Nat} (hr : Ready h o (l ++ a :: r)) :
    ∃ e v, h.element a = some e ∧ e.prev = l.getLast? ∧ e.next = r.head? ∧
      e.data = some v ∧ h.payload a = some (e.rc, some v) := by
  have hchain := hr.holds.chain
  simp only [chain_append, Chain, or_none] at hchain
  obtain ⟨rc, v, hpayload⟩ := hr.valued a (List.mem_append_right l List.mem_cons_self)
  obtain ⟨e, helem, hlinks⟩ := map_eq_some_iff.mp hchain.2.1
  rw [SplHeap.payload, helem, map_some, Option.some.injEq, Prod.mk.injEq] at hpayload
  refine ⟨e, v, helem, congrArg Links.prev hlinks, congrArg Links.next hlinks, hpayload.2, ?_⟩
  rw [SplHeap.payload, helem, map_some, hpayload.2]

theorem element_setData_of_ne {a b : Nat} (hb : b ≠ a) (data : Option V) :
    (h.setData a data).element b = h.element b :=
  Function.update_of_ne hb _ _

/-- `h'` is `h` with other links where an element was taken out. -/
structure Unlinked (h h' : SplHeap V) (l r : List Nat) : Prop where
  links : h'.links = remove h.links l r
  payload : h'.payload = h.payload
  brk : h'.brk = h.brk

theorem Unlinked.refs (hu : Unlinked h h' l r) (a : Nat) : h'.refs a = h.refs a := by
  rw [SplHeap.refs, hu.payload, SplHeap.refs]

theorem Unlinked.alive (hu : Unlinked h h' l r) (halive : h.Alive) : h'.Alive := by
  intro a rc data ha
  rw [hu.payload] at ha
  exact halive a rc data ha

/-- The element is taken out and its reference given back. -/
theorem released {a : Nat} (hr : Ready h o (l ++ a :: r))
    (hu : Unlinked h h' l r) (llist : SplPtrLlist) (hhead : llist.head = (l ++ r).head?)
    (htail : llist.tail = (l ++ r).getLast?) (hcount : llist.count = o.llist.count - 1) :
    Call h o (l ++ a :: r) ((h'.setData a none).delref a) { o with llist := llist } (l ++ r) ∧
      ((h'.setData a none).delref a).values (l ++ r) = h.values l ++ h.values r := by
  have hother (b : Nat) (hb : b ≠ a) : ((h'.setData a none).delref a).element b = h'.element b := by
    rw [SplHeap.element_delref_of_ne hb, element_setData_of_ne hb]
  apply hr.removed o.traversePointer
  · intro b hb
    rw [SplHeap.links, hother b hb, ← hu.links]
    rfl
  · intro b hb
    rw [SplHeap.payload, hother b hb, ← hu.payload]
    rfl
  · have hheld := hr.held a
    rw [SplDllistObject.holds, List.count_append, List.count_cons_self] at hheld
    rw [SplHeap.refs_delref, SplHeap.refs_setData, hu.refs]
    omega
  · intro b _
    exact Iff.rfl
  · exact ((hu.alive hr.alive).setData a none).delref a
  · rw [brk_delref]
    exact hu.brk
  · exact hhead
  · exact htail
  · exact hcount

/-- The same for the element that the object has stopped at. -/
theorem released_traversed {a : Nat} (hr : Ready h o (l ++ a :: r))
    (hu : Unlinked h h' l r) (htraverse : o.traversePointer = some a)
    (llist : SplPtrLlist) (hhead : llist.head = (l ++ r).head?)
    (htail : llist.tail = (l ++ r).getLast?) (hcount : llist.count = o.llist.count - 1) :
    Call h o (l ++ a :: r) (((h'.delref a).setData a none).delref a)
        { o with llist := llist, traversePointer := none } (l ++ r) ∧
      (((h'.delref a).setData a none).delref a).values (l ++ r) = h.values l ++ h.values r := by
  have hother (b : Nat) (hb : b ≠ a) :
      (((h'.delref a).setData a none).delref a).element b = h'.element b := by
    rw [SplHeap.element_delref_of_ne hb, element_setData_of_ne hb, SplHeap.element_delref_of_ne hb]
  apply hr.removed none
  · intro b hb
    rw [SplHeap.links, hother b hb, ← hu.links]
    rfl
  · intro b hb
    rw [SplHeap.payload, hother b hb, ← hu.payload]
    rfl
  · have hheld := hr.held a
    rw [SplDllistObject.holds, List.count_append, List.count_cons_self, if_pos htraverse] at hheld
    rw [SplHeap.refs_delref, SplHeap.refs_setData, SplHeap.refs_delref, hu.refs,
      if_pos htraverse, if_neg (by simp)]
    omega
  · intro b hb
    rw [htraverse, Option.some.injEq]
    constructor
    · rintro ⟨⟩
    · intro hab
      exact absurd hab.symm hb
  · exact (((hu.alive hr.alive).delref a).setData a none).delref a
  · rw [brk_delref]
    exact (brk_delref a).trans hu.brk
  · exact hhead
  · exact htail
  · exact hcount

theorem pop {a : Nat} (hr : Ready h o (l ++ [a])) :
    ∃ v, (o.llist.pop h).1 = some v ∧ h.values (l ++ [a]) = h.values l ++ [v] ∧
      Call h o (l ++ [a]) (o.llist.pop h).2.1 { o with llist := (o.llist.pop h).2.2 } l ∧
      (o.llist.pop h).2.1.values l = h.values l := by
  obtain ⟨e, v, helem, hprev, hnext, hdata, hpayload⟩ := hr.element_eq
  have htail : o.llist.tail = some a := by
    rw [hr.holds.tail, List.getLast?_concat]
  have hpop : o.llist.pop h = (some v, ((h.setNext l.getLast? none).setData a none).delref a,
      ⟨if l.getLast?.isSome then o.llist.head else none, l.getLast?, o.llist.count - 1⟩) := by
    rw [SplPtrLlist.pop, htail]
    simp only [helem, hprev, hdata]
  have hu : Unlinked h (h.setNext l.getLast? none) l [] := by
    constructor
    · simp [remove]
    · simp
    · simp
  have hrel := hr.released hu (o.llist.pop h).2.2 ?_ ?_ ?_
  · rw [List.append_nil] at hrel
    have hvalue : h.values (l ++ [a]) = h.values l ++ [v] := by
      simp [SplHeap.values, hpayload]
    refine ⟨v, by rw [hpop], hvalue, ?_⟩
    rw [hpop] at hrel ⊢
    refine ⟨hrel.1, ?_⟩
    rw [hrel.2]
    simp [SplHeap.values]
  · rw [hpop, List.append_nil, hr.holds.head]
    rcases List.eq_nil_or_concat l with rfl | ⟨l', b, rfl⟩ <;> simp
  · rw [hpop, List.append_nil]
  · rw [hpop]

theorem shift {a : Nat} (hr : Ready h o (a :: r)) :
    ∃ v, (o.llist.shift h).1 = some v ∧ h.values (a :: r) = v :: h.values r ∧
      Call h o (a :: r) (o.llist.shift h).2.1 { o with llist := (o.llist.shift h).2.2 } r ∧
      (o.llist.shift h).2.1.values r = h.values r := by
  have hr' : Ready h o ([] ++ a :: r) := hr
  obtain ⟨e, v, helem, hprev, hnext, hdata, hpayload⟩ := hr'.element_eq
  have hhead : o.llist.head = some a := hr.holds.head
  have hshift : o.llist.shift h = (some v, ((h.setPrev r.head? none).setData a none).delref a,
      ⟨r.head?, if r.head?.isSome then o.llist.tail else none, o.llist.count - 1⟩) := by
    rw [SplPtrLlist.shift, hhead]
    simp only [helem, hnext, hdata]
  have hu : Unlinked h (h.setPrev r.head? none) [] r := by
    constructor
    · simp [remove]
    · simp
    · simp
  have hrel := hr'.released hu (o.llist.shift h).2.2 ?_ ?_ ?_
  · have hvalue : h.values (a :: r) = v :: h.values r := by
      simp [SplHeap.values, hpayload]
    refine ⟨v, by rw [hshift], hvalue, ?_⟩
    rw [hshift] at hrel ⊢
    exact hrel
  · rw [hshift]
    rfl
  · rw [hshift, hr.holds.tail]
    cases r <;> simp
  · rw [hshift]

theorem offsetLoop_forward (n : Nat) (p : Option Nat) :
    SplPtrLlist.offsetLoop h false n p = walk h.links n p := by
  induction n generalizing p with
  | zero => rfl
  | succ n ih =>
    cases p with
    | none => exact (walk_none h.links n).symm
    | some a =>
      rw [SplPtrLlist.offsetLoop, ih, walk, bind_some, SplHeap.links]
      cases h.element a <;> rfl

theorem offsetLoop_backward (n : Nat) (p : Option Nat) :
    SplPtrLlist.offsetLoop h true n p = walk (swap h.links) n p := by
  induction n generalizing p with
  | zero => rfl
  | succ n ih =>
    cases p with
    | none => exact (walk_none (swap h.links) n).symm
    | some a =>
      rw [SplPtrLlist.offsetLoop, ih, walk, bind_some, swap, SplHeap.links]
      cases h.element a <;> rfl

/-- The place that an index names in a list of `n` elements. -/
def placeOf (lifo : Bool) (n : Nat) (index : Int) : Nat :=
  if lifo then n - 1 - index.toNat else index.toNat

theorem placeOf_lt (lifo : Bool) {n : Nat} {index : Int} (hlow : 0 ≤ index)
    (hhigh : index < n) : placeOf lifo n index < n := by
  rw [placeOf]
  split <;> omega

/-- `spl_ptr_llist_offset` finds the element at the place. -/
theorem offset_eq (hr : Ready h o as) {index : Int} (hlow : 0 ≤ index) (hhigh : index < as.length) :
    o.llist.offset h index o.lifo = as[placeOf o.lifo as.length index]? := by
  rw [SplPtrLlist.offset, placeOf]
  cases o.lifo with
  | false =>
    rw [offsetLoop_forward, if_neg Bool.false_ne_true, hr.holds.head, hr.holds.chain.walk_eq]
    rfl
  | true =>
    have hwalk := hr.holds.chain.reverse.walk_eq index.toNat
    rw [List.head?_reverse] at hwalk
    rw [offsetLoop_backward, if_pos rfl, hr.holds.tail, hwalk, if_pos rfl,
      List.getElem?_reverse (by omega)]

theorem split_at {α : Type} {as : List α} {n : Nat} (hn : n < as.length) :
    ∃ l a r, as = l ++ a :: r ∧ l.length = n ∧ as[n]? = some a := by
  refine ⟨as.take n, as[n], as.drop (n + 1), ?_,
    List.length_take_of_le (Nat.le_of_lt hn), List.getElem?_eq_getElem hn⟩
  rw [List.getElem_cons_drop, List.take_append_drop]

theorem length_values (hvalued : ∀ a ∈ as, ∃ rc v, h.payload a = some (rc, some v)) :
    (h.values as).length = as.length := by
  induction as with
  | nil => rfl
  | cons a as ih =>
    obtain ⟨⟨rc, v, hpayload⟩, hrest⟩ := List.forall_mem_cons.mp hvalued
    have hcons : h.values (a :: as) = v :: h.values as := by
      simp [SplHeap.values, hpayload]
    rw [hcons, List.length_cons, List.length_cons, ih hrest]

theorem setData {a : Nat} (hr : Ready h o (l ++ a :: r)) (v : V) :
    Call h o (l ++ a :: r) (h.setData a (some v)) o (l ++ a :: r) ∧
      (h.setData a (some v)).values (l ++ a :: r) = h.values l ++ v :: h.values r := by
  have hmem : a ∈ l ++ a :: r := List.mem_append_right l List.mem_cons_self
  obtain ⟨rc, v', hpayload⟩ := hr.valued a hmem
  have hnew : (h.setData a (some v)).payload a = some (rc, some v) := by
    rw [SplHeap.payload_setData, Function.update_self, hpayload]
    rfl
  have hother (b : Nat) (hb : b ≠ a) : (h.setData a (some v)).payload b = h.payload b := by
    rw [SplHeap.payload_setData, Function.update_of_ne hb]
  have hnodup := hr.nodup
  rw [List.nodup_middle, List.nodup_cons] at hnodup
  constructor
  · constructor
    · refine ⟨?_, hr.holds.head, hr.holds.tail, hr.holds.count⟩
      rw [SplHeap.links_setData]
      exact hr.holds.chain
    · exact hr.nodup
    · intro b hb
      exact .inl hb
    · intro b hb _
      apply element_setData_of_ne
      rintro rfl
      exact hb hmem
    · intro b
      rw [SplHeap.refs_setData]
    · exact hr.alive.setData a (some v)
    · intro b hb
      by_cases hba : b = a
      · subst hba
        exact ⟨rc, v, hnew⟩
      · rw [hother b hba]
        exact hr.valued b hb
    · exact Nat.le_refl _
    · intro b hb
      have hba : b ≠ a := by
        rintro rfl
        exact absurd (hr.lt_brk hmem) (Nat.not_lt_of_le hb)
      rw [element_setData_of_ne hba]
      exact hr.fresh b hb
  · exact values_middle hnodup.1 hother hnew

/-- The object as a sequence. -/
def seqOf (h : SplHeap V) (o : SplDllistObject) (as : List Nat) : SplSeq V :=
  ⟨h.values as, o.lifo, o.fixed⟩

theorem seqOf_congr {o' : SplDllistObject} {as' : List Nat} {items : List V}
    (h : h'.values as' = items) : seqOf h' o' as' = ⟨items, o'.lifo, o'.fixed⟩ := by
  rw [seqOf, h]

/-- The element that an index names. -/
theorem located (hr : Ready h o as) (index : Int) (hlow : 0 ≤ index) (hhigh : index < as.length) :
    ∃ l a r v, as = l ++ a :: r ∧ o.llist.offset h index o.lifo = some a ∧
      (seqOf h o as).items = h.values l ++ v :: h.values r ∧
      (seqOf h o as).place index = (h.values l).length := by
  obtain ⟨l, a, r, rfl, hl, hget⟩ := split_at (placeOf_lt o.lifo hlow hhigh)
  obtain ⟨rc, v, hpayload⟩ := hr.valued a (List.mem_append_right l List.mem_cons_self)
  refine ⟨l, a, r, v, rfl, (hr.offset_eq hlow hhigh).trans hget, ?_, ?_⟩
  · simp [seqOf, SplHeap.values, hpayload]
  · rw [SplSeq.place, seqOf, length_values hr.valued,
      length_values fun b hb => hr.valued b (List.mem_append_left _ hb)]
    exact hl.symm

/-- A call and the operation on the list that it stands for. -/
structure Refines (h : SplHeap V) (o : SplDllistObject) (as : List Nat)
    (result : SplResult V × SplHeap V × SplDllistObject)
    (spec : SplResult V × SplSeq V) : Prop where
  result_eq : result.1 = spec.1
  call : ∃ as', Call h o as result.2.1 result.2.2 as' ∧ seqOf result.2.1 result.2.2 as' = spec.2

theorem unchanged (hr : Ready h o as) : Call h o as h o as where
  holds := hr.holds
  nodup := hr.nodup
  mem _ ha := .inl ha
  frame _ _ _ := rfl
  refs _ := rfl
  alive := hr.alive
  valued := hr.valued
  brk_le := Nat.le_refl _
  fresh := hr.fresh

theorem offsetSet_refines (hr : Ready h o as) (index : Option Int) (v : V) :
    Refines h o as (o.offsetSet h index v) ((seqOf h o as).call (.offsetSet index v)) := by
  have hlength : (seqOf h o as).items.length = as.length :=
    length_values hr.valued
  cases index with
  | none =>
    obtain ⟨hcall, hvalues⟩ := hr.push v
    exact ⟨rfl, _, hcall, seqOf_congr hvalues⟩
  | some index =>
    rw [SplDllistObject.offsetSet, SplSeq.call, hlength, hr.holds.count]
    by_cases hrange : index < 0 ∨ (as.length : Int) ≤ index
    · rw [if_pos hrange, if_pos hrange]
      exact ⟨rfl, as, hr.unchanged, rfl⟩
    · rw [if_neg hrange, if_neg hrange]
      obtain ⟨l, a, r, w, rfl, hget, hitems, hplace⟩ := hr.located index (by omega) (by omega)
      rw [hget]
      obtain ⟨hcall, hvalues⟩ := hr.setData v
      refine ⟨rfl, _, hcall, (seqOf_congr hvalues).trans ?_⟩
      rw [hplace, hitems, List.set_append_right _ _ (Nat.le_refl _), Nat.sub_self]
      rfl

theorem offsetUnset_refines (hr : Ready h o as) (index : Int) :
    Refines h o as (o.offsetUnset h index) ((seqOf h o as).call (.offsetUnset index)) := by
  have hlength : (seqOf h o as).items.length = as.length :=
    length_values hr.valued
  rw [SplDllistObject.offsetUnset, SplSeq.call, hlength, hr.holds.count]
  by_cases hrange : index < 0 ∨ (as.length : Int) ≤ index
  · rw [if_pos hrange, if_pos hrange]
    exact ⟨rfl, as, hr.unchanged, rfl⟩
  rw [if_neg hrange, if_neg hrange]
  obtain ⟨l, a, r, w, rfl, hget, hall, hplace⟩ := hr.located index (by omega) (by omega)
  rw [hget]
  obtain ⟨e, v, helem, hprev, hnext, -, -⟩ := hr.element_eq
  have hnodup := hr.nodup
  rw [List.nodup_middle, List.nodup_cons] at hnodup
  have hu : Unlinked h ((h.setNext l.getLast? r.head?).setPrev r.head? l.getLast?) l r := by
    constructor
    · simp [remove]
    · simp
    · simp
  have hitems : (seqOf h o (l ++ a :: r)).items.eraseIdx
      (h.values l).length = h.values l ++ h.values r := by
    rw [hall, List.eraseIdx_append_of_length_le (Nat.le_refl _),
      Nat.sub_self, List.eraseIdx_cons_zero]
  -- the list without the element
  have hhead : (if o.llist.head = some a then r.head? else o.llist.head) = (l ++ r).head? := by
    rw [hr.holds.head]
    cases l with
    | nil => simp
    | cons b l =>
      have hba : b ≠ a := by
        rintro rfl
        exact hnodup.1 List.mem_cons_self
      simp [hba]
  have htail : (if o.llist.tail = some a then l.getLast? else o.llist.tail) =
      (l ++ r).getLast? := by
    rw [hr.holds.tail]
    rcases List.eq_nil_or_concat r with rfl | ⟨r, b, rfl⟩
    · simp
    · rw [List.concat_eq_append] at hnodup ⊢
      have hba : b ≠ a := by
        rintro rfl
        exact hnodup.1 (by simp)
      have hlast : (l ++ a :: (r ++ [b])).getLast? = some b := by
        rw [← List.cons_append, ← List.append_assoc, List.getLast?_concat]
      rw [hlast, if_neg (by simpa using hba), ← List.append_assoc, List.getLast?_concat]
  simp only [helem, hprev, hnext, hplace, hitems]
  by_cases htraverse : o.traversePointer = some a
  · rw [if_pos htraverse]
    obtain ⟨hcall, hvalues⟩ := hr.released_traversed hu htraverse
      ⟨_, _, o.llist.count - 1⟩ hhead htail rfl
    rw [hr.holds.count] at hcall
    exact ⟨rfl, _, hcall, seqOf_congr hvalues⟩
  · rw [if_neg htraverse]
    obtain ⟨hcall, hvalues⟩ := hr.released hu ⟨_, _, o.llist.count - 1⟩ hhead htail rfl
    rw [hr.holds.count] at hcall
    exact ⟨rfl, _, hcall, seqOf_congr hvalues⟩

theorem insertIdx_length_append {α : Type} (l r : List α) (x : α) :
    (l ++ r).insertIdx l.length x = l ++ x :: r := by
  induction l with
  | nil => rfl
  | cons y l ih =>
    rw [List.cons_append, List.length_cons, List.insertIdx_succ_cons, ih]
    rfl

theorem add_refines (hr : Ready h o as) (index : Int) (v : V) :
    Refines h o as (o.add h index v) ((seqOf h o as).call (.add index v)) := by
  have hlength : (seqOf h o as).items.length = as.length :=
    length_values hr.valued
  rw [SplDllistObject.add, SplSeq.call, hlength, hr.holds.count]
  by_cases hrange : index < 0 ∨ (as.length : Int) < index
  · rw [if_pos hrange, if_pos hrange]
    exact ⟨rfl, as, hr.unchanged, rfl⟩
  rw [if_neg hrange, if_neg hrange]
  by_cases hend : index = as.length
  · rw [if_pos hend, if_pos hend]
    obtain ⟨hcall, hvalues⟩ := hr.push v
    exact ⟨rfl, _, hcall, seqOf_congr hvalues⟩
  rw [if_neg hend, if_neg hend]
  obtain ⟨l, a, r, w, rfl, hget, -, hplace⟩ := hr.located index (by omega) (by omega)
  rw [hget]
  obtain ⟨e, v', helem, hprev, hnext, -, -⟩ := hr.element_eq
  simp only [helem, hprev, hplace]
  obtain ⟨hcall, hvalues⟩ := hr.inserted v
    (((h.emalloc ⟨l.getLast?, some a, 1, some v⟩).2.setNext l.getLast?
      (some h.brk)).setPrev (some a) (some h.brk))
    ⟨if l.getLast? = none then some h.brk else o.llist.head, o.llist.tail, o.llist.count + 1⟩
    (by simp [DoublyLinked.insert]) (by simp) (by simp [SplHeap.emalloc])
    (by
      rw [hr.holds.head]
      cases l <;> simp [List.getLast?_cons])
    (by
      rw [hr.holds.tail]
      simp [List.getLast?_append, List.getLast?_cons])
    rfl
  rw [hr.holds.count] at hcall
  refine ⟨rfl, _, hcall, (seqOf_congr hvalues).trans ?_⟩
  have hitems : (seqOf h o (l ++ a :: r)).items = h.values l ++ h.values (a :: r) := by
    simp [seqOf, SplHeap.values]
  rw [hitems, insertIdx_length_append]
  rfl

theorem taken_some {result : Option V × SplHeap V × SplPtrLlist} {v : V}
    (hv : result.1 = some v) (message : String) : o.taken message result =
      (.value v, result.2.1, { o with llist := result.2.2 }) := by
  obtain ⟨value, h, llist⟩ := result
  cases hv
  rfl

theorem call_refines (hr : Ready h o as) (method : SplMethod V) :
    Refines h o as (o.call h method) ((seqOf h o as).call method) := by
  cases method with
  | push v =>
    obtain ⟨hcall, hvalues⟩ := hr.push v
    exact ⟨rfl, _, hcall, seqOf_congr hvalues⟩
  | unshift v =>
    obtain ⟨hcall, hvalues⟩ := hr.unshift v
    exact ⟨rfl, _, hcall, seqOf_congr hvalues⟩
  | pop =>
    rcases List.eq_nil_or_concat as with rfl | ⟨l, a, rfl⟩
    · have htail : o.llist.tail = none := hr.holds.tail
      have hpop : o.llist.pop h = (none, h, o.llist) := by
        rw [SplPtrLlist.pop, htail]
      rw [SplDllistObject.call, hpop]
      exact ⟨rfl, [], hr.unchanged, rfl⟩
    · rw [List.concat_eq_append] at hr ⊢
      obtain ⟨v, hv, hvalues, hcall, hkept⟩ := hr.pop
      have hspec : (seqOf h o (l ++ [a])).call .pop =
          (.value v, ⟨h.values l, o.lifo, o.fixed⟩) := by
        rw [seqOf, hvalues, SplSeq.call]
        simp
      rw [hspec, SplDllistObject.call, taken_some hv]
      exact ⟨rfl, l, hcall, seqOf_congr hkept⟩
  | shift =>
    cases as with
    | nil =>
      have hhead : o.llist.head = none := hr.holds.head
      have hshift : o.llist.shift h = (none, h, o.llist) := by
        rw [SplPtrLlist.shift, hhead]
      rw [SplDllistObject.call, hshift]
      exact ⟨rfl, [], hr.unchanged, rfl⟩
    | cons a r =>
      obtain ⟨v, hv, hvalues, hcall, hkept⟩ := hr.shift
      have hspec : (seqOf h o (a :: r)).call .shift =
          (.value v, ⟨h.values r, o.lifo, o.fixed⟩) := by
        rw [seqOf, hvalues]
        rfl
      rw [hspec, SplDllistObject.call, taken_some hv]
      exact ⟨rfl, r, hcall, seqOf_congr hkept⟩
  | offsetSet index v => exact hr.offsetSet_refines index v
  | offsetUnset index => exact hr.offsetUnset_refines index
  | add index v => exact hr.add_refines index v
  | setIteratorMode lifo =>
    rw [SplDllistObject.call, SplSeq.call, seqOf]
    by_cases hfixed : o.fixed ∧ o.lifo ≠ lifo
    · rw [if_pos hfixed, if_pos hfixed]
      exact ⟨rfl, as, hr.unchanged, rfl⟩
    · rw [if_neg hfixed, if_neg hfixed]
      exact ⟨rfl, as, { hr.unchanged with }, rfl⟩

end Ready

end PhpEngine

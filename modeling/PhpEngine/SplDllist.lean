/-
SplDoublyLinkedList (ext/spl/spl_dllist.c).  The elements of all objects lie in
one heap; an element is freed when its last reference goes.  The reference
counts of the values and the code that their destructors run are left out.
-/
import Mathlib.Data.List.Basic
import Mathlib.Logic.Function.Basic

namespace PhpEngine

/-- `spl_ptr_llist_element` -/
structure SplPtrLlistElement (V : Type) where
  prev : Option Nat
  next : Option Nat
  rc : Nat
  data : Option V

/-- `spl_ptr_llist` -/
structure SplPtrLlist where
  head : Option Nat
  tail : Option Nat
  count : Nat
deriving DecidableEq

/-- The elements by their addresses.  From `brk` on no address was given out
yet. -/
structure SplHeap (V : Type) where
  element : Nat → Option (SplPtrLlistElement V)
  brk : Nat

variable {V : Type}

namespace SplHeap

variable (h : SplHeap V)

def emalloc (e : SplPtrLlistElement V) : Nat × SplHeap V :=
  (h.brk, ⟨Function.update h.element h.brk (some e), h.brk + 1⟩)

def efree (a : Nat) : SplHeap V :=
  { h with element := Function.update h.element a none }

def modify (a : Nat) (f : SplPtrLlistElement V → SplPtrLlistElement V) : SplHeap V :=
  { h with element := Function.update h.element a ((h.element a).map f) }

/-- `p->next = next`, unless `p` is `NULL`. -/
def setNext (p next : Option Nat) : SplHeap V :=
  match p with
  | none => h
  | some a => h.modify a fun e => { e with next := next }

/-- `p->prev = prev`, unless `p` is `NULL`. -/
def setPrev (p prev : Option Nat) : SplHeap V :=
  match p with
  | none => h
  | some a => h.modify a fun e => { e with prev := prev }

def setData (a : Nat) (data : Option V) : SplHeap V :=
  h.modify a fun e => { e with data := data }

/-- `SPL_LLIST_DELREF` -/
def delref (a : Nat) : SplHeap V :=
  match h.element a with
  | none => h
  | some e =>
    if e.rc - 1 = 0 then h.efree a
    else h.modify a fun e => { e with rc := e.rc - 1 }

/-- `SPL_LLIST_CHECK_ADDREF` -/
def addref (p : Option Nat) : SplHeap V :=
  match p with
  | none => h
  | some a => h.modify a fun e => { e with rc := e.rc + 1 }

end SplHeap

namespace SplPtrLlist

/-- `spl_ptr_llist_init` -/
def init : SplPtrLlist :=
  ⟨none, none, 0⟩

variable (h : SplHeap V) (llist : SplPtrLlist)

def offsetLoop (backward : Bool) : Nat → Option Nat → Option Nat
  | 0, current => current
  | _ + 1, none => none
  | n + 1, some a =>
    offsetLoop backward n ((h.element a).bind fun e =>
      if backward then e.prev else e.next)

/-- `spl_ptr_llist_offset` -/
def offset (offset : Int) (backward : Bool) : Option Nat :=
  offsetLoop h backward offset.toNat (if backward then llist.tail else llist.head)

/-- `spl_ptr_llist_unshift` -/
def unshift (data : Option V) : SplHeap V × SplPtrLlist :=
  let (elem, h) := h.emalloc ⟨none, llist.head, 1, data⟩
  let h := h.setPrev llist.head (some elem)
  let tail := if llist.head.isSome then llist.tail else some elem
  (h, ⟨some elem, tail, llist.count + 1⟩)

/-- `spl_ptr_llist_push` -/
def push (data : Option V) : SplHeap V × SplPtrLlist :=
  let (elem, h) := h.emalloc ⟨llist.tail, none, 1, data⟩
  let h := h.setNext llist.tail (some elem)
  let head := if llist.tail.isSome then llist.head else some elem
  (h, ⟨head, some elem, llist.count + 1⟩)

/-- `spl_ptr_llist_pop` -/
def pop : Option V × SplHeap V × SplPtrLlist :=
  match llist.tail with
  | none => (none, h, llist)
  | some tail =>
    match h.element tail with
    | none => (none, h, llist)
    | some e =>
      let h := h.setNext e.prev none
      let head := if e.prev.isSome then llist.head else none
      (e.data, (h.setData tail none).delref tail, ⟨head, e.prev, llist.count - 1⟩)

/-- `spl_ptr_llist_shift` -/
def shift : Option V × SplHeap V × SplPtrLlist :=
  match llist.head with
  | none => (none, h, llist)
  | some head =>
    match h.element head with
    | none => (none, h, llist)
    | some e =>
      let h := h.setPrev e.next none
      let tail := if e.next.isSome then llist.tail else none
      (e.data, (h.setData head none).delref head, ⟨e.next, tail, llist.count - 1⟩)

/-- The loop of `spl_ptr_llist_copy`. -/
def copyLoop : Nat → SplHeap V → Option Nat → SplPtrLlist → SplHeap V × SplPtrLlist
  | 0, h, _, dest => (h, dest)
  | _ + 1, h, none, dest => (h, dest)
  | fuel + 1, h, some current, dest =>
    match h.element current with
    | none => (h, dest)
    | some e =>
      let (h, dest) := push h dest e.data
      copyLoop fuel h e.next dest

/-- `spl_ptr_llist_copy`; there are `count` elements to copy. -/
def copy (dest : SplPtrLlist) : SplHeap V × SplPtrLlist :=
  copyLoop (llist.count + 1) h llist.head dest

end SplPtrLlist

/-- `spl_dllist_object`; `lifo` is the bit `SPL_DLLIST_IT_LIFO` of the flags,
and `fixed` the bit `SPL_DLLIST_IT_FIX`. -/
structure SplDllistObject where
  llist : SplPtrLlist
  traversePointer : Option Nat
  lifo : Bool
  fixed : Bool
deriving DecidableEq

inductive SplException where
  | runtime (message : String)
  | outOfRange (message : String)
deriving Repr, DecidableEq

/-- What a method comes back with. -/
inductive SplResult (V : Type) where
  | done
  | value (v : V)
  | throws (e : SplException)
deriving Repr, DecidableEq

/-- All objects and the heap they share. -/
structure SplState (V : Type) where
  heap : SplHeap V
  objects : List SplDllistObject

/-- The methods of an object.  The index of `offsetSet` is missing for
`$obj[] = ...`. -/
inductive SplMethod (V : Type) where
  | push (value : V)
  | unshift (value : V)
  | pop
  | shift
  | offsetSet (index : Option Int) (value : V)
  | offsetUnset (index : Int)
  | add (index : Int) (value : V)
  | setIteratorMode (lifo : Bool)
deriving Repr, DecidableEq

namespace SplDllistObject

variable (h : SplHeap V) (intern : SplDllistObject)

/-- `SplDoublyLinkedList::offsetSet` -/
def offsetSet (index : Option Int) (value : V) : SplResult V × SplHeap V × SplDllistObject :=
  match index with
  | none =>
    let (h, llist) := intern.llist.push h (some value)
    (.done, h, { intern with llist := llist })
  | some index =>
    if index < 0 ∨ (intern.llist.count : Int) ≤ index then
      (.throws (.outOfRange "Offset invalid or out of range"), h, intern)
    else
      match intern.llist.offset h index intern.lifo with
      | none => (.throws (.outOfRange "Offset invalid"), h, intern)
      | some element => (.done, h.setData element (some value), intern)

/-- `SplDoublyLinkedList::offsetUnset` -/
def offsetUnset (index : Int) : SplResult V × SplHeap V × SplDllistObject :=
  if index < 0 ∨ (intern.llist.count : Int) ≤ index then
    (.throws (.outOfRange "Offset out of range"), h, intern)
  else
    match intern.llist.offset h index intern.lifo with
    | none => (.throws (.outOfRange "Offset invalid"), h, intern)
    | some element =>
      match h.element element with
      | none => (.throws (.outOfRange "Offset invalid"), h, intern)
      | some e =>
        let h := (h.setNext e.prev e.next).setPrev e.next e.prev
        let llist : SplPtrLlist :=
          ⟨if intern.llist.head = some element then e.next
            else intern.llist.head,
          if intern.llist.tail = some element then e.prev
            else intern.llist.tail,
          intern.llist.count - 1⟩
        if intern.traversePointer = some element then
          let h := ((h.delref element).setData element none).delref element
          (.done, h, { intern with llist := llist, traversePointer := none })
        else
          let h := (h.setData element none).delref element
          (.done, h, { intern with llist := llist })

/-- `SplDoublyLinkedList::add` -/
def add (index : Int) (value : V) : SplResult V × SplHeap V × SplDllistObject :=
  if index < 0 ∨ (intern.llist.count : Int) < index then
    (.throws (.outOfRange "Offset invalid or out of range"), h, intern)
  else if index = intern.llist.count then
    let (h, llist) := intern.llist.push h (some value)
    (.done, h, { intern with llist := llist })
  else
    match intern.llist.offset h index intern.lifo with
    | none => (.done, h, intern)
    | some element =>
      match h.element element with
      | none => (.done, h, intern)
      | some e =>
        let (elem, h) := h.emalloc ⟨e.prev, some element, 1, some value⟩
        let head := if e.prev = none then some elem else intern.llist.head
        let h := (h.setNext e.prev (some elem)).setPrev (some element) (some elem)
        (.done, h, { intern with
          llist := ⟨head, intern.llist.tail, intern.llist.count + 1⟩ })

/-- A method that takes a value out of the list. -/
def taken (intern : SplDllistObject) (message : String)
    (result : Option V × SplHeap V × SplPtrLlist) : SplResult V × SplHeap V × SplDllistObject :=
  let (value, h, llist) := result
  let intern := { intern with llist := llist }
  match value with
  | none => (.throws (.runtime message), h, intern)
  | some value => (.value value, h, intern)

def call : SplMethod V → SplResult V × SplHeap V × SplDllistObject
  | .push value =>
    let (h, llist) := intern.llist.push h (some value)
    (.done, h, { intern with llist := llist })
  | .unshift value =>
    let (h, llist) := intern.llist.unshift h (some value)
    (.done, h, { intern with llist := llist })
  | .pop =>
    intern.taken "Can't pop from an empty datastructure" (intern.llist.pop h)
  | .shift =>
    intern.taken "Can't shift from an empty datastructure" (intern.llist.shift h)
  | .offsetSet index value => intern.offsetSet h index value
  | .offsetUnset index => intern.offsetUnset h index
  | .add index value => intern.add h index value
  | .setIteratorMode lifo =>
    if intern.fixed ∧ intern.lifo ≠ lifo then
      (.throws (.runtime "Iterators' LIFO/FIFO modes for SplStack/SplQueue objects are frozen"),
        h, intern)
    else (.done, h, { intern with lifo := lifo, fixed := false })

end SplDllistObject

/-- A step of the program: a new object, a copy of one, or a method. -/
inductive SplOp (V : Type) where
  | new (lifo fixed : Bool)
  | clone (k : Nat)
  | call (k : Nat) (method : SplMethod V)
deriving Repr, DecidableEq

namespace SplState

def init : SplState V :=
  ⟨⟨fun _ => none, 0⟩, []⟩

/-- `spl_dllist_object_new_ex` with `clone_orig`; the new object keeps a
reference to its first element. -/
def clone (s : SplState V) (other : SplDllistObject) : SplState V :=
  let (h, llist) := other.llist.copy s.heap SplPtrLlist.init
  ⟨h.addref llist.head, s.objects ++ [{ other with llist := llist, traversePointer := llist.head }]⟩

/-- A step; objects are numbered in the order of their creation. -/
def step (s : SplState V) : SplOp V → SplResult V × SplState V
  | .new lifo fixed =>
    (.done, { s with objects := s.objects ++ [⟨.init, none, lifo, fixed⟩] })
  | .clone k =>
    match s.objects[k]? with
    | none => (.done, s)
    | some other => (.done, s.clone other)
  | .call k method =>
    match s.objects[k]? with
    | none => (.done, s)
    | some intern =>
      let (result, h, intern) := intern.call s.heap method
      (result, ⟨h, s.objects.set k intern⟩)

def run (s : SplState V) : List (SplOp V) → List (SplResult V) × SplState V
  | [] => ([], s)
  | op :: ops =>
    let (result, s) := s.step op
    let (results, s) := s.run ops
    (result :: results, s)

end SplState

end PhpEngine

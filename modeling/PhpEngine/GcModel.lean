/-
The cycle collector.  Its nodes are the zvals and the entries of the object
store; each carries a reference count and a word that holds two colour bits
and a pointer.  What the traversals read besides these (the type of a zval,
its elements, the `get_gc` answer of an object) does not change while the
three phases run and is kept apart as the heap.
-/
import PhpEngine.EdgeCount
import PhpEngine.MachineInt
import Mathlib.Data.Finset.Card

namespace PhpEngine

open Function

inductive Color where
  | black
  | white
  | grey
  | purple
deriving Repr, DecidableEq

/-- A zval, or the object store entry of a handle. -/
inductive Node where
  | zval (z : Nat)
  | obj (handle : Nat)
deriving Repr, DecidableEq

/-- The pointer bits of `u.buffered`: null, a root buffer, or, since
`u.next` is the same word, another zval or `FREE_LIST_END`. -/
inductive GcPtr where
  | null
  | slot (i : Nat)
  | zval (z : Nat)
  | listEnd
deriving Repr, DecidableEq

@[ext]
structure GcWord where
  ptr : GcPtr
  color : Color
deriving Repr, DecidableEq

/-- What a zval holds.  An array zval may hold the global symbol table. -/
inductive ZvalKind where
  | scalar
  | array (elements : List Nat)
  | symbolTable
  | object (handle : Nat)
deriving Repr, DecidableEq

/-- The answer of a `get_gc` handler: a table with null entries and perhaps a
property table. -/
structure GetGc where
  table : List (Option Nat)
  props : Option (List Nat)

structure StoreEntry where
  valid : Bool
  getGc : Option GetGc

structure HeapData where
  kind : Nat → ZvalKind
  store : Nat → StoreEntry
  symbolTable : List Nat

namespace HeapData

/-- The `get_gc` answer of an object that is valid and has a handler. -/
def getGc (heap : HeapData) (handle : Nat) : Option GetGc :=
  if (heap.store handle).valid then (heap.store handle).getGc else none

def isSymbolTable (heap : HeapData) (z : Nat) : Bool :=
  match heap.kind z with
  | .symbolTable => true
  | _ => false

end HeapData

/-- A pointer to a root buffer: null, the sentinel `GC_G(roots)`, or one of
the preallocated buffers. -/
inductive RootPtr where
  | null
  | roots
  | slot (i : Nat)
deriving Repr, DecidableEq

/-- The collector's state.  `root i` is what the buffer `i` records, a zval
or a handle. -/
structure GcState where
  refcount : Node → Nat
  word : Node → GcWord
  root : Nat → Node
  next : RootPtr → RootPtr
  prev : RootPtr → RootPtr
  unused : RootPtr
  firstUnused : Nat
  zvalToFree : GcPtr

namespace GcState

def color (s : GcState) (n : Node) : Color :=
  (s.word n).color

/-- `GC_SET_COLOR`, `GC_SET_BLACK` and `GC_SET_PURPLE`. -/
def setColor (s : GcState) (n : Node) (c : Color) : GcState :=
  { s with word := update s.word n { s.word n with color := c } }

/-- `GC_SET_ADDRESS(v, NULL)`. -/
def clearAddress (s : GcState) (n : Node) : GcState :=
  { s with word := update s.word n { s.word n with ptr := .null } }

def addRef (s : GcState) (n : Node) : GcState :=
  { s with
    refcount := update s.refcount n ((s.refcount n + 1) % uintMod) }

def delRef (s : GcState) (n : Node) : GcState :=
  { s with
    refcount := update s.refcount n ((s.refcount n + (uintMod - 1)) % uintMod) }

/-- `buffered == (gc_root_buffer*)GC_WHITE`: white without an address. -/
def isWhite (s : GcState) (n : Node) : Bool :=
  s.word n == ⟨.null, .white⟩

/-- The zval is linked in front of `zval_to_free`.  The link overwrites the
word that held its colour. -/
def pushFree (s : GcState) (z : Nat) : GcState :=
  { s with
    word := update s.word (.zval z) ⟨s.zvalToFree, .black⟩
    zvalToFree := .zval z }

end GcState

/-- Visits the entries of a `get_gc` table that are not null. -/
def tableLoop (visit : Nat → GcState → Option GcState) :
    List (Option Nat) → GcState → Option GcState
  | [], s => some s
  | none :: rest, s => tableLoop visit rest s
  | some z :: rest, s => do
      let s ← visit z s
      tableLoop visit rest s

/-- Visits the zvals of a hash table in list order. -/
def bucketLoop (visit : Nat → GcState → Option GcState) : List Nat → GcState → Option GcState
  | [], s => some s
  | z :: rest, s => do
      let s ← visit z s
      bucketLoop visit rest s

/-- The table of the handler first, then the properties if there are any. -/
def getGcLoop (visit : Nat → GcState → Option GcState) (gc : GetGc)
    (s : GcState) : Option GcState := do
  let s ← tableLoop visit gc.table s
  match gc.props with
  | none => return s
  | some props => bucketLoop visit props s

/-- `while (n > 0 && !table[n-1]) n--`. -/
def trimNulls (table : List (Option Nat)) : List (Option Nat) :=
  (table.reverse.dropWhile Option.isNone).reverse

def GetGc.trimmed (gc : GetGc) : GetGc :=
  { gc with table := trimNulls gc.table }

section Traversal

variable (heap : HeapData)

/-- `pz->refcount__gc++` unless the zval holds the global symbol table. -/
def zvalAddRef (z : Nat) (s : GcState) : GcState :=
  if heap.isSymbolTable z then s else s.addRef (.zval z)

def zvalDelRef (z : Nat) (s : GcState) : GcState :=
  if heap.isSymbolTable z then s else s.delRef (.zval z)

/-- `zval_mark_grey`.  Here and below a jump to `tail_call` on the last child
is the recursive call on it. -/
def zvalMarkGrey : Nat → Nat → GcState → Option GcState
  | 0, _, _ => none
  | fuel + 1, z, s =>
    if s.color (.zval z) = .grey then some s
    else
      let s := s.setColor (.zval z) .grey
      let visit := fun c s => zvalMarkGrey fuel c (zvalDelRef heap c s)
      match heap.kind z with
      | .object handle =>
        let s := s.delRef (.obj handle)
        if s.color (.obj handle) = .grey then some s
        else
          let s := s.setColor (.obj handle) .grey
          match heap.getGc handle with
          | none => some s
          | some gc => getGcLoop visit gc.trimmed s
      | .symbolTable => some (s.setColor (.zval z) .black)
      | .array elements => bucketLoop visit elements s
      | .scalar => some s

/-- `zobj_mark_grey`. -/
def zobjMarkGrey (fuel : Nat) (handle : Nat) (s : GcState) : Option GcState :=
  if s.color (.obj handle) = .grey then some s
  else
    let s := s.setColor (.obj handle) .grey
    match heap.getGc handle with
    | none => some s
    | some gc =>
      getGcLoop (fun c s => zvalMarkGrey heap fuel c (zvalDelRef heap c s)) gc s

/-- `zval_scan_black`. -/
def zvalScanBlack : Nat → Nat → GcState → Option GcState
  | 0, _, _ => none
  | fuel + 1, z, s =>
    let s := s.setColor (.zval z) .black
    let visit := fun c s =>
      let s := zvalAddRef heap c s
      if s.color (.zval c) ≠ .black then zvalScanBlack fuel c s else some s
    match heap.kind z with
    | .object handle =>
      let s := s.addRef (.obj handle)
      if s.color (.obj handle) ≠ .black then
        let s := s.setColor (.obj handle) .black
        match heap.getGc handle with
        | none => some s
        | some gc => getGcLoop visit gc.trimmed s
      else some s
    | .array elements => bucketLoop visit elements s
    | .symbolTable => some s
    | .scalar => some s

/-- `zobj_scan_black`. -/
def zobjScanBlack (fuel : Nat) (handle : Nat) (s : GcState) : Option GcState :=
  let s := s.setColor (.obj handle) .black
  match heap.getGc handle with
  | none => some s
  | some gc =>
    getGcLoop (fun c s =>
      let s := zvalAddRef heap c s
      if s.color (.zval c) ≠ .black then zvalScanBlack heap fuel c s
      else some s) gc s

/-- `zval_scan`; `blackFuel` bounds the depth of the calls that turn black
again what is referenced from outside. -/
def zvalScan (blackFuel : Nat) : Nat → Nat → GcState → Option GcState
  | 0, _, _ => none
  | fuel + 1, z, s =>
    if s.color (.zval z) = .grey then
      if 0 < s.refcount (.zval z) then zvalScanBlack heap blackFuel z s
      else
        let s := s.setColor (.zval z) .white
        let visit := zvalScan blackFuel fuel
        match heap.kind z with
        | .object handle =>
          if s.color (.obj handle) = .grey then
            if 0 < s.refcount (.obj handle) then
              zobjScanBlack heap blackFuel handle s
            else
              let s := s.setColor (.obj handle) .white
              match heap.getGc handle with
              | none => some s
              | some gc => getGcLoop visit gc.trimmed s
          else some s
        | .symbolTable => some (s.setColor (.zval z) .black)
        | .array elements => bucketLoop visit elements s
        | .scalar => some s
    else some s

/-- `zobj_scan`. -/
def zobjScan (blackFuel fuel : Nat) (handle : Nat) (s : GcState) : Option GcState :=
  if s.color (.obj handle) = .grey then
    if 0 < s.refcount (.obj handle) then zobjScanBlack heap blackFuel handle s
    else
      let s := s.setColor (.obj handle) .white
      match heap.getGc handle with
      | none => some s
      | some gc => getGcLoop (zvalScan heap blackFuel fuel) gc s
  else some s

/-- `zval_collect_white`.  An object zval goes on the list before its
object's table is visited when there are no properties, and between the table
and the properties otherwise. -/
def zvalCollectWhite : Nat → Nat → GcState → Option GcState
  | 0, _, _ => none
  | fuel + 1, z, s =>
    if s.isWhite (.zval z) then
      let s := s.setColor (.zval z) .black
      let visit := fun c s => zvalCollectWhite fuel c (zvalAddRef heap c s)
      let collect := fun (s : GcState) => (s.addRef (.zval z)).pushFree z
      match heap.kind z with
      | .object handle =>
        if s.isWhite (.obj handle) then
          let s := s.setColor (.obj handle) .purple
          match heap.getGc handle with
          | none => some (collect s)
          | some gc =>
            match gc.props with
            | none => tableLoop visit (trimNulls gc.table) (collect s)
            | some props => do
                let s ← tableLoop visit (trimNulls gc.table) s
                bucketLoop visit props (collect s)
        else some (collect s)
      | .array elements => bucketLoop visit elements (collect s)
      | .symbolTable => bucketLoop visit heap.symbolTable (collect s)
      | .scalar => some (collect s)
    else some s

/-- `zobj_collect_white`. -/
def zobjCollectWhite (fuel : Nat) (handle : Nat) (s : GcState) : Option GcState :=
  if s.isWhite (.obj handle) then
    let s := s.setColor (.obj handle) .purple
    match heap.getGc handle with
    | none => some s
    | some gc =>
      getGcLoop (fun c s => zvalCollectWhite heap fuel c (zvalAddRef heap c s)) gc s
  else some s

end Traversal

/-- `gc_remove_from_buffer`. -/
def gcRemoveFromBuffer (s : GcState) (root : RootPtr) : GcState :=
  let s := { s with
    prev := update s.prev (s.next root) (s.prev root) }
  let s := { s with
    next := update s.next (s.prev root) (s.next root) }
  { s with
    prev := update s.prev root s.unused
    unused := root }

section Roots

variable (heap : HeapData) (depth : Nat)

/-- The body of the loop of `gc_mark_roots`. -/
def markRoot (i : Nat) (s : GcState) : Option GcState :=
  if s.color (s.root i) = .purple then
    match s.root i with
    | .obj handle => zobjMarkGrey heap depth handle s
    | .zval z => zvalMarkGrey heap depth z s
  else some (gcRemoveFromBuffer (s.clearAddress (s.root i)) (.slot i))

/-- The body of the loop of `gc_scan_roots`. -/
def scanRoot (i : Nat) (s : GcState) : Option GcState :=
  match s.root i with
  | .obj handle => zobjScan heap depth depth handle s
  | .zval z => zvalScan heap depth depth z s

/-- The body of the loop of `gc_collect_roots`. -/
def collectRoot (i : Nat) (s : GcState) : Option GcState := do
  let s := s.clearAddress (s.root i)
  let s ← match s.root i with
    | .obj handle => zobjCollectWhite heap depth handle s
    | .zval z => zvalCollectWhite heap depth z s
  return gcRemoveFromBuffer s (.slot i)

/-- `while (current != &GC_G(roots)) { ...; current = current->next; }`. -/
def rootsLoop (body : Nat → GcState → Option GcState) : Nat → RootPtr → GcState → Option GcState
  | 0, _, _ => none
  | _ + 1, .roots, s => some s
  | _ + 1, .null, _ => none
  | fuel + 1, .slot i, s => do
      let s ← body i s
      rootsLoop body fuel (s.next (.slot i)) s

def gcMarkRoots (s : GcState) : Option GcState :=
  rootsLoop (markRoot heap depth) (s.firstUnused + 1) (s.next .roots) s

def gcScanRoots (s : GcState) : Option GcState :=
  rootsLoop (scanRoot heap depth) (s.firstUnused + 1) (s.next .roots) s

def gcCollectRoots (s : GcState) : Option GcState :=
  rootsLoop (collectRoot heap depth) (s.firstUnused + 1) (s.next .roots) s

/-- The three phases of `gc_collect_cycles`, in order. -/
def gcPhases (s : GcState) : Option GcState := do
  let s ← gcMarkRoots heap depth { s with zvalToFree := .listEnd }
  let s ← gcScanRoots heap depth s
  gcCollectRoots heap depth s

end Roots

end PhpEngine

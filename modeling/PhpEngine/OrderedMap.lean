/-
What the hash table is for: an insertion-ordered association list with a
current key and a next free index.  Nothing here knows about buckets.
-/
import PhpEngine.HashTable

namespace PhpEngine

variable {δ : Type}

/-- An insertion-ordered association list.  `cur` is the key the internal
pointer stands on. -/
structure OrderedMap (δ : Type) where
  items : List (HashKey × δ)
  cur : Option HashKey
  nextFree : Nat

namespace OrderedMap

def empty : OrderedMap δ := ⟨[], none, 0⟩

def keys (m : OrderedMap δ) : List HashKey :=
  m.items.map Prod.fst

def find (m : OrderedMap δ) (key : HashKey) : Option δ :=
  (m.items.find? fun item => decide (item.1 = key)).map Prod.snd

def nextFreeFor (m : OrderedMap δ) : HashKey → Nat
  | .long h => nextFreeAfter m.nextFree h
  | .string _ => m.nextFree

/-- A present key keeps its position, a new one goes to the end. -/
def store (m : OrderedMap δ) (key : HashKey) (data : δ) : OrderedMap δ :=
  if key ∈ m.keys then
    { m with
      items := m.items.map fun item =>
        if item.1 = key then (item.1, data) else item }
  else
    ⟨m.items ++ [(key, data)], m.cur <|> some key, m.nextFreeFor key⟩

/-- The key behind `key`. -/
def successor (m : OrderedMap δ) (key : HashKey) : Option HashKey :=
  (m.keys.dropWhile fun k => decide (k ≠ key)).tail.head?

/-- The key before `key`. -/
def predecessor (m : OrderedMap δ) (key : HashKey) : Option HashKey :=
  (m.keys.takeWhile fun k => decide (k ≠ key)).getLast?

/-- Deleting the current key makes its successor current. -/
def remove (m : OrderedMap δ) (key : HashKey) : OrderedMap δ :=
  { m with
    items := m.items.filter fun item => decide (item.1 ≠ key)
    cur := if m.cur = some key then m.successor key else m.cur }

/-- One callback for each entry present at the start, in order. -/
def applyFrom (applyFunc : Nat → δ → ApplyResult) :
    Nat → List (HashKey × δ) → OrderedMap δ → OrderedMap δ
  | _, [], m => m
  | calls, item :: rest, m =>
    let result := applyFunc calls item.2
    let m := if result.remove then m.remove item.1 else m
    if result.stop then m else applyFrom applyFunc (calls + 1) rest m

def copyFrom (source : OrderedMap δ) (pCopyConstructor : δ → δ) (setTargetPointer : Bool) :
    List (HashKey × δ) → OrderedMap δ → OrderedMap δ
  | [], m => m
  | item :: rest, m =>
    let m := if setTargetPointer ∧ source.cur = some item.1 then
      { m with cur := none } else m
    copyFrom source pCopyConstructor setTargetPointer rest
      (m.store item.1 (pCopyConstructor item.2))

/-- Every entry of the source is stored in the target.  A target without a
current key takes over the source's, or else the first key. -/
def copy (m source : OrderedMap δ) (pCopyConstructor : δ → δ) : OrderedMap δ :=
  let m := copyFrom source pCopyConstructor m.cur.isNone source.items m
  { m with cur := m.cur <|> m.keys.head? }

def mergeFrom (pCopyConstructor : δ → δ) (overwrite : Bool) :
    List (HashKey × δ) → OrderedMap δ → OrderedMap δ
  | [], m => m
  | item :: rest, m =>
    mergeFrom pCopyConstructor overwrite rest
      (if !overwrite ∧ item.1 ∈ m.keys then m else m.store item.1 (pCopyConstructor item.2))

def merge (m source : OrderedMap δ) (pCopyConstructor : δ → δ) (overwrite : Bool) : OrderedMap δ :=
  let m := mergeFrom pCopyConstructor overwrite source.items m
  { m with cur := m.keys.head? }

end OrderedMap

end PhpEngine

/-
Runs that also sort, reindex and rename keys.  A lookup by a string key takes
two equal key pointers for equal keys.  That is right as long as every bucket
with an interned `arKey` is a string bucket, which renumbering can break.
-/
import PhpEngine.HashRekey

namespace PhpEngine

open Function

variable {δ : Type}

/-- The operations of a run.  What the sort function does is arbitrary apart
from being a permutation; a position is the internal pointer or the bucket at
some place of the global list; `garbage` is what a newly allocated bucket
holds in `arKey`. -/
inductive KeyOp (intern : Nat → KeyBytes) (δ : Type) where
  | hash (op : HashOp intern δ)
  | sort (t : Nat) (sortFunc : { f : List Addr → List Addr // ∀ l, (f l).Perm l }) (renumber : Bool)
  | reindex (t : Nat) (onlyIntegerKeys : Bool)
  | updateCurrentKey (t : Nat) (key : { key : UpdateKey // key.Valid intern }) (mode : UpdateMode)
      (pos : Option Nat) (garbage : KeyPtr)

/-- The bucket a position stands for. -/
def positionOf (ht : HashTable δ) : Option Nat → Option Addr
  | none => ht.pInternalPointer
  | some n => (listedBuckets ht)[n]?

section Run

variable [Inhabited δ] {intern : Nat → KeyBytes}

def KeyOp.exec (tables : Nat → HashTable δ) : KeyOp intern δ → Option (Nat → HashTable δ)
  | .hash op => (op.exec tables).map Prod.fst
  | .sort t sortFunc renumber =>
    (zendHashSort (tables t) sortFunc.1 renumber).map (update tables t)
  | .reindex t onlyIntegerKeys =>
    (zendHashReindex (tables t) onlyIntegerKeys).map (update tables t)
  | .updateCurrentKey t key mode pos garbage =>
    (zendHashUpdateCurrentKeyEx intern (tables t) key.1 mode
      (positionOf (tables t) pos) garbage).map fun out => update tables t out.1

def keyRun : List (KeyOp intern δ) → (Nat → HashTable δ) → Option (Nat → HashTable δ)
  | [], tables => some tables
  | op :: ops, tables => do
      let tables ← op.exec tables
      keyRun ops tables

/-- Where the pointer comparison of the lookups stays sound: a bucket with an
interned `arKey` does not lose its string key, and none is created without
one.  The count of a sorted table has to fit an `int`. -/
def KeyOp.StepOk (tables : Nat → HashTable δ) : KeyOp intern δ → Prop
  | .hash _ => True
  | .sort t _ renumber =>
    (listedBuckets (tables t)).length ≤ intMax ∧ (renumber = true → NoInternedKey (tables t))
  | .reindex t onlyIntegerKeys =>
    onlyIntegerKeys = false → (tables t).nNumOfElements ≠ 0 → NoInternedKey (tables t)
  | .updateCurrentKey t key _ pos garbage =>
    ∀ p, positionOf (tables t) pos = some p → GarbageOk (tables t) p key.1 garbage

/-- Every step of the run meets its condition in the state it starts from. -/
def RunOk : List (KeyOp intern δ) → (Nat → HashTable δ) → Prop
  | [], _ => True
  | op :: ops, tables =>
    op.StepOk tables ∧ ∀ out, op.exec tables = some out → RunOk ops out

end Run

section Invariant

variable {intern : Nat → KeyBytes} {tables : Nat → HashTable δ}

/-- Every table of the family is well formed. -/
def AllWellFormed (intern : Nat → KeyBytes) (tables : Nat → HashTable δ) : Prop :=
  ∀ t, ∃ order, HashInv intern (tables t) order

theorem AllWellFormed.update (h : AllWellFormed intern tables) (t : Nat)
    {ht : HashTable δ} {order : List Addr} (hinv : HashInv intern ht order) :
    AllWellFormed intern (update tables t ht) := by
  intro s
  by_cases hs : s = t
  · subst hs
    rw [update_self]
    exact ⟨order, hinv⟩
  · rw [update_of_ne hs]
    exact h s

/-- A well-formed table represents the association list it holds. -/
theorem HashInv.represents {ht : HashTable δ} {order : List Addr} (h : HashInv intern ht order) :
    RepresentsAt intern ht ⟨order.map (bucketEntry intern ht),
        ht.pInternalPointer.map (bucketKey intern ht), ht.nNextFreeElement⟩ order :=
  ⟨h, rfl, rfl, rfl⟩

theorem positionOf_mem {ht : HashTable δ} {order : List Addr}
    (h : HashInv intern ht order) {pos : Option Nat} {p : Addr}
    (hp : positionOf ht pos = some p) : p ∈ order := by
  cases pos with
  | none => exact h.internalPointer p hp
  | some n =>
    rw [positionOf, h.listedBuckets_eq] at hp
    exact List.mem_of_getElem? hp

/-- The step lemma. -/
theorem KeyOp.exec_wellFormed [Inhabited δ] (h : AllWellFormed intern tables)
    {op : KeyOp intern δ} (hok : op.StepOk tables) :
    ∃ out, op.exec tables = some out ∧ AllWellFormed intern out := by
  cases op with
  | hash op =>
    choose order hinv using h
    obtain ⟨out, hrun, hrep, -⟩ := op.exec_refines fun t =>
      ⟨order t, (hinv t).represents⟩
    refine ⟨out.1, by rw [exec, hrun]; rfl, ?_⟩
    intro t
    obtain ⟨order', h⟩ := hrep t
    exact ⟨order', h.inv⟩
  | sort t sortFunc renumber =>
    obtain ⟨order, hinv⟩ := h t
    have hint : order.length ≤ intMax := by
      rw [← hinv.listedBuckets_eq]
      exact hok.1
    obtain ⟨ht', order', hrun, -, hinv', -⟩ :=
      hinv.sort sortFunc.2 renumber hint hok.2
    exact ⟨_, by rw [exec, hrun]; rfl, h.update t hinv'⟩
  | reindex t onlyIntegerKeys =>
    obtain ⟨order, hinv⟩ := h t
    obtain ⟨ht', hrun, hinv', -⟩ := hinv.reindex onlyIntegerKeys hok
    exact ⟨_, by rw [exec, hrun]; rfl, h.update t hinv'⟩
  | updateCurrentKey t key mode pos garbage =>
    obtain ⟨order, hinv⟩ := h t
    obtain ⟨ht', result, pos', order', hrun, hinv', -⟩ :=
      hinv.updateCurrentKey key.2 mode (fun p hp => positionOf_mem hinv hp) hok
    exact ⟨_, by rw [exec, hrun]; rfl, h.update t hinv'⟩

/-- The run lemma. -/
theorem keyRun_wellFormed [Inhabited δ] (ops : List (KeyOp intern δ))
    (h : AllWellFormed intern tables) (hok : RunOk ops tables) :
    ∃ out, keyRun ops tables = some out ∧ AllWellFormed intern out := by
  induction ops generalizing tables with
  | nil => exact ⟨tables, rfl, h⟩
  | cons op ops ih =>
    obtain ⟨next, hrun, hnext⟩ := KeyOp.exec_wellFormed h hok.1
    obtain ⟨out, hrest, hout⟩ := ih hnext (hok.2 next hrun)
    exact ⟨out, by rw [keyRun, hrun]; exact hrest, hout⟩

/-- The bucket is a string bucket with exactly these key bytes. -/
def HasStringKey (intern : Nat → KeyBytes) (ht : HashTable δ) (p : Addr)
    (bytes : KeyBytes) : Prop :=
  ht.nKeyLength p ≠ 0 ∧ (bucketBytes intern ht p).take (ht.nKeyLength p) = bytes

/-- A search by a string key ends, and a bucket it finds has that key. -/
def LookupSound (intern : Nat → KeyBytes) (ht : HashTable δ) : Prop :=
  ∀ key : StringKey intern, ∃ found, findKey intern ht key.1 key.hash = some found ∧
      ∀ p, found = some p → HasStringKey intern ht p (key.1.read intern)

theorem HashInv.lookupSound {ht : HashTable δ} {order : List Addr}
    (h : HashInv intern ht order) : LookupSound intern ht := by
  intro key
  refine ⟨_, h.findKey_eq key.2, ?_⟩
  intro p hp
  obtain ⟨-, hkey⟩ := lookupKey_eq_some hp
  rw [bucketKey] at hkey
  split at hkey
  next hlen => exact ⟨hlen, by simpa using hkey⟩
  next => simp at hkey

/-- After a renumbering sort the indices below the count are the keys. -/
theorem HashInv.sort_renumber {ht : HashTable δ} {order : List Addr}
    (h : HashInv intern ht order) {sortFunc : List Addr → List Addr}
    (hsort : ∀ l, (sortFunc l).Perm l) (hint : order.length ≤ intMax) (hkeys : NoInternedKey ht) :
    ∃ ht', zendHashSort ht sortFunc true = some ht' ∧ (∀ key : StringKey intern,
        findKey intern ht' key.1 key.hash = some none) ∧ ∀ idx, zendHashIndexExists ht' idx =
        some (decide (idx < order.length)) := by
  obtain ⟨ht', order', hrun, -, hinv, hnumbers⟩ :=
    h.sort hsort true hint fun _ => hkeys
  have hnumbers := hnumbers rfl
  have hnone : ∀ key : HashKey, lookupKey intern ht' order' key = none ↔
        key ∉ (List.range order.length).map .long := by
    intro key
    rw [hinv.represents.lookup_eq_none_iff, hinv.represents.keys, hnumbers]
  refine ⟨ht', hrun, ?_, ?_⟩
  · intro key
    have hfind := hinv.findKey_eq key.2
    rw [(hnone _).mpr (by simp)] at hfind
    exact hfind
  · intro idx
    rw [zendHashIndexExists, hinv.findIndex_eq]
    change some (Option.isSome _) = _
    rw [Option.some_inj, Bool.eq_iff_iff, decide_eq_true_iff, ← not_iff_not,
      Bool.not_eq_true, Option.isSome_eq_false_iff, Option.isNone_iff_eq_none,
      hnone]
    simp

end Invariant

/-- Stores a key and sorts with renumbering. -/
def storeThenRenumber (intern : Nat → KeyBytes) (key : StringKey intern) :
    List (KeyOp intern Unit) :=
  [.hash (.table 0 (.addOrUpdate key () .update)), .sort 0 ⟨id, fun _ => List.Perm.refl _⟩ true]

end PhpEngine

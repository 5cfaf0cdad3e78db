/-
Runs of every operation that writes the next free element or the number of
elements, and what the two bounds come to for a caller.
-/
import PhpEngine.HashBounds
import PhpEngine.HashKeyRun
import PhpEngine.HashSpliced

namespace PhpEngine

open List Function Option

variable {δ : Type}

/-- The operations of a run, each on tables named by a number.  `hash` is what the
caller of a quick function passes; the cut elements of a splice go to another
table. -/
inductive BoundOp (intern : Nat → KeyBytes) (δ : Type) where
  | addOrUpdate (t : Nat) (key : StringKey intern) (hash : UInt64) (data : δ) (flag : HashFlag)
  | indexUpdateOrNextInsert (t : Nat) (h : UInt64) (data : δ) (flag : HashFlag)
  | del (t : Nat) (key : DelKey)
  | clean (t : Nat)
  | copy (target source : Nat) (pCopyConstructor : δ → δ)
  | merge (target source : Nat) (pCopyConstructor : δ → δ) (overwrite : Bool)
  | splice (t : Nat) (pCopyConstructor : δ → δ) (offset length : UInt32)
      (list : Option (List δ)) (removed : Option { r : Nat // r ≠ t })
  | reindex (t : Nat) (onlyIntegerKeys : Bool)
  | updateCurrentKey (t : Nat) (key : { key : UpdateKey // key.Valid intern ∧ key.IsWord })
      (mode : UpdateMode) (pos : Option Nat) (garbage : KeyPtr)

section Run

variable {intern : Nat → KeyBytes}

/-- Both tables of a splice. -/
def spliceTables (tables : Nat → HashTable δ) (t : Nat) (removed : Option { r : Nat // r ≠ t })
    (out : HashTable δ × Option (HashTable δ)) : Nat → HashTable δ :=
  match removed, out.2 with
  | some r, some table => update (update tables t out.1) r.1 table
  | _, _ => update tables t out.1

def BoundOp.exec (tables : Nat → HashTable δ) : BoundOp intern δ → Option (Nat → HashTable δ)
  | .addOrUpdate t key hash data flag =>
    (zendHashQuickAddOrUpdate intern (tables t) key.1 hash.toNat data flag).map
      fun out => update tables t out.1
  | .indexUpdateOrNextInsert t h data flag =>
    (zendHashIndexUpdateOrNextInsert (tables t) h.toNat data flag).map
      fun out => update tables t out.1
  | .del t key =>
    (zendHashDelKeyOrIndex intern (tables t) key).map fun out => update tables t out.1
  | .clean t => some (update tables t (zendHashClean (tables t)))
  | .copy target source pCopyConstructor =>
    (zendHashCopy intern (tables target) (tables source) pCopyConstructor).map
      (update tables target)
  | .merge target source pCopyConstructor overwrite =>
    (zendHashMerge intern (tables target) (tables source) pCopyConstructor
      overwrite).map (update tables target)
  | .splice t pCopyConstructor offset length list removed =>
    (zendHashSplice intern pCopyConstructor (tables t) offset.toNat length.toNat
      list (removed.map fun r => tables r.1)).map (spliceTables tables t removed)
  | .reindex t onlyIntegerKeys =>
    (zendHashReindex (tables t) onlyIntegerKeys).map (update tables t)
  | .updateCurrentKey t key mode pos garbage =>
    (zendHashUpdateCurrentKeyEx intern (tables t) key.1 mode
      (positionOf (tables t) pos) garbage).map fun out => update tables t out.1

def boundRun : List (BoundOp intern δ) → (Nat → HashTable δ) → Option (Nat → HashTable δ)
  | [], tables => some tables
  | op :: ops, tables => do
      let tables ← op.exec tables
      boundRun ops tables

/-- How many elements are on the list of a table. -/
def listedCount (ht : HashTable δ) : Nat :=
  (listedBuckets ht).length

/-- A table is only renumbered while the number of its elements has not come
round to zero. -/
def BoundOp.Countable (tables : Nat → HashTable δ) : BoundOp intern δ → Prop
  | .splice t _ offset length list _ =>
    Renumbers (spliceCount (listedCount (tables t)) offset.toNat length.toNat list)
  | .reindex t _ => Renumbers (listedCount (tables t))
  | _ => True

/-- A splice leaves at most twice as many elements as the table has room for,
unless it cannot grow any more. -/
def BoundOp.HasRoom (tables : Nat → HashTable δ) : BoundOp intern δ → Prop
  | .splice t _ offset length list _ =>
    (tables t).nTableSize = 2 ^ 31 ∨
      spliceCount (listedCount (tables t)) offset.toNat length.toNat list ≤
        2 * (tables t).nTableSize
  | _ => True

/-- Every step of the run meets the condition in the state it starts from. -/
def StepsMeet (ok : (Nat → HashTable δ) → BoundOp intern δ → Prop) :
    List (BoundOp intern δ) → (Nat → HashTable δ) → Prop
  | [], _ => True
  | op :: ops, tables =>
    ok tables op ∧ ∀ out, op.exec tables = some out → StepsMeet ok ops out

end Run

section Invariant

variable {intern : Nat → KeyBytes} {tables : Nat → HashTable δ}

/-- Every table of the family is bounded, and loaded if `loaded` is to hold. -/
def AllBounded (intern : Nat → KeyBytes) (loaded : Prop) (tables : Nat → HashTable δ) : Prop :=
  ∀ t, ∃ order, Bounded intern (tables t) order ∧ (loaded → Loaded (tables t) order)

variable {loaded : Prop}

theorem AllBounded.update (h : AllBounded intern loaded tables) (t : Nat)
    {ht : HashTable δ} {order : List Addr} (hbounded : Bounded intern ht order)
    (hload : loaded → Loaded ht order) :
    AllBounded intern loaded (update tables t ht) := by
  intro s
  by_cases hs : s = t
  · subst hs
    rw [update_self]
    exact ⟨order, hbounded, hload⟩
  · rw [update_of_ne hs]
    exact h s

theorem AllBounded.after (h : AllBounded intern loaded tables) (t : Nat)
    {ht ht' : HashTable δ} {order : List Addr} (hload : loaded → Loaded ht order)
    (hafter : BoundedAfter intern ht order ht') :
    AllBounded intern loaded (Function.update tables t ht') := by
  obtain ⟨order', hbounded, hload'⟩ := hafter
  exact h.update t hbounded fun hloaded => hload' (hload hloaded)

theorem Bounded.positionOf_mem {ht : HashTable δ} {order : List Addr}
    (h : Bounded intern ht order) {pos : Option Nat} {p : Addr}
    (hp : positionOf ht pos = some p) : p ∈ order := by
  cases pos with
  | none => exact h.internalPointer p hp
  | some n =>
    rw [positionOf, h.toTableShape.listedBuckets_eq] at hp
    exact mem_of_getElem? hp

/-- The step lemma. -/
theorem BoundOp.exec_bounded (h : AllBounded intern loaded tables)
    {op : BoundOp intern δ} (hok : op.Countable tables) (hroom : loaded → op.HasRoom tables) :
    ∃ out, op.exec tables = some out ∧ AllBounded intern loaded out := by
  have hstart := h
  choose order hbounded hload using h
  cases op with
  | addOrUpdate t key hash data flag =>
    obtain ⟨out, hrun, hafter⟩ :=
      (hbounded t).quickAddOrUpdate key.1 key.2 hash.toNat data flag
    exact ⟨_, by rw [exec, hrun]; rfl, hstart.after t (hload t) hafter⟩
  | indexUpdateOrNextInsert t idx data flag =>
    obtain ⟨out, hrun, hafter⟩ :=
      (hbounded t).indexUpdateOrNextInsert idx.toNat_lt data flag
    exact ⟨_, by rw [exec, hrun]; rfl, hstart.after t (hload t) hafter⟩
  | del t key =>
    obtain ⟨out, hrun, hafter⟩ := (hbounded t).delKeyOrIndex key
    exact ⟨_, by rw [exec, hrun]; rfl, hstart.after t (hload t) hafter⟩
  | clean t => exact ⟨_, rfl, hstart.after t (hload t) (hbounded t).clean⟩
  | copy target source pCopyConstructor =>
    obtain ⟨out, hrun, hafter⟩ :=
      (hbounded target).copy (hbounded source) pCopyConstructor
    exact ⟨_, by rw [exec, hrun]; rfl, hstart.after target (hload target) hafter⟩
  | merge target source pCopyConstructor overwrite =>
    obtain ⟨out, hrun, hafter⟩ :=
      (hbounded target).merge (hbounded source) pCopyConstructor overwrite
    exact ⟨_, by rw [exec, hrun]; rfl, hstart.after target (hload target) hafter⟩
  | splice t pCopyConstructor offset length list removed =>
    have hcount : listedCount (tables t) = (order t).length := by
      rw [listedCount, (hbounded t).toTableShape.listedBuckets_eq]
    rw [Countable, hcount] at hok
    rw [HasRoom, hcount] at hroom
    obtain ⟨rorder, hother⟩ : ∃ rorder, ∀ table, removed.map (fun r => tables r.1) = some table →
          Bounded intern table rorder ∧ (loaded → Loaded table rorder) := by
      cases removed with
      | none => exact ⟨[], by simp⟩
      | some r =>
        refine ⟨order r.1, ?_⟩
        intro table htable
        rw [map_some, some_inj] at htable
        exact htable ▸ ⟨hbounded r.1, hload r.1⟩
    obtain ⟨ht', removed', hrun, hremoved, order', hbounded', hload'⟩ :=
      (hbounded t).splice pCopyConstructor list (fun table htable => (hother table htable).1) hok
    have hspliced := hstart.update t hbounded' fun hloaded =>
      hload' (hroom hloaded) (hload t hloaded)
    cases removed with
    | none =>
      cases hremoved
      exact ⟨_, by rw [exec, hrun]; rfl, hspliced⟩
    | some r =>
      cases hremoved with
      | some hafter =>
        exact ⟨_, by rw [exec, hrun]; rfl, hspliced.after r.1 (hother (tables r.1) rfl).2 hafter⟩
  | reindex t onlyIntegerKeys =>
    have hcount : listedCount (tables t) = (order t).length := by
      rw [listedCount, (hbounded t).toTableShape.listedBuckets_eq]
    rw [Countable, hcount] at hok
    obtain ⟨out, hrun, hafter⟩ := (hbounded t).reindex onlyIntegerKeys hok
    exact ⟨_, by rw [exec, hrun]; rfl, hstart.after t (hload t) hafter⟩
  | updateCurrentKey t key mode pos garbage =>
    obtain ⟨out, hrun, hafter⟩ := (hbounded t).updateCurrentKey key.2.1 key.2.2
      mode (fun p hp => (hbounded t).positionOf_mem hp) garbage
    exact ⟨_, by rw [exec, hrun]; rfl, hstart.after t (hload t) hafter⟩

/-- The run lemma. -/
theorem boundRun_bounded (ops : List (BoundOp intern δ)) (h : AllBounded intern loaded tables)
    (hok : StepsMeet BoundOp.Countable ops tables)
    (hroom : loaded → StepsMeet BoundOp.HasRoom ops tables) :
    ∃ out, boundRun ops tables = some out ∧ AllBounded intern loaded out := by
  induction ops generalizing tables with
  | nil => exact ⟨tables, rfl, h⟩
  | cons op ops ih =>
    obtain ⟨out, hrun, hout⟩ :=
      BoundOp.exec_bounded h hok.1 fun hloaded => (hroom hloaded).1
    obtain ⟨final, hfinal, hbounded⟩ := ih hout (hok.2 out hrun)
      fun hloaded => (hroom hloaded).2 out hrun
    refine ⟨final, ?_, hbounded⟩
    rw [boundRun, hrun]
    exact hfinal

theorem allBounded_init [Inhabited δ] (intern : Nat → KeyBytes) (loaded : Prop)
    (sizes : Nat → UInt32) : AllBounded intern loaded
      (fun t => (zendHashInit (sizes t).toNat : HashTable δ)) := by
  intro t
  have hrep : RepresentsAt intern (zendHashInit (sizes t).toNat : HashTable δ) .empty
      [] := zendHashInit_represents intern (sizes t).toNat
  exact ⟨[], ⟨hrep.inv.hashShape, Nat.zero_le _, by simp⟩, fun _ => .inr (Nat.zero_le _)⟩

end Invariant

section NextInsert

variable {intern : Nat → KeyBytes} {ht : HashTable δ} {order : List Addr}

/-- The elements of a table in the order of its list. -/
def listedEntries (intern : Nat → KeyBytes) (ht : HashTable δ) : List (HashKey × δ) :=
  entriesOf intern ht (listedBuckets ht)

/-- No index of the table reaches the next free element, except that both can be
the last long. -/
def NextFreeAbove (intern : Nat → KeyBytes) (ht : HashTable δ) : Prop :=
  ht.nNextFreeElement ≤ longMax ∧ ∀ k, .long k ∈ (listedEntries intern ht).map Prod.fst →
      BelowNext ht.nNextFreeElement k

/-- What `zend_hash_next_index_insert` makes of a table: a new last element whose
key is not less than any index, or nothing, and then the last long is taken. -/
def AppendsNext (intern : Nat → KeyBytes) (ht : HashTable δ) (data : δ) : Prop :=
  ∃ ht' result dest, zendHashIndexUpdateOrNextInsert ht 0 data .nextInsert =
        some (ht', result, dest) ∧
      match result with
      | .success =>
        ∃ k, listedEntries intern ht' = listedEntries intern ht ++ [(.long k, data)] ∧
          .long k ∉ (listedEntries intern ht).map Prod.fst ∧
          ∀ i, .long i ∈ (listedEntries intern ht).map Prod.fst → toLong i ≤ toLong k
      | .failure =>
        listedEntries intern ht' = listedEntries intern ht ∧
          .long longMax ∈ (listedEntries intern ht).map Prod.fst

theorem TableShape.listedEntries_eq (h : TableShape ht order) :
    listedEntries intern ht = entriesOf intern ht order := by
  rw [listedEntries, h.listedBuckets_eq]

theorem map_fst_entriesOf (intern : Nat → KeyBytes) (ht : HashTable δ) (order : List Addr) :
    (entriesOf intern ht order).map Prod.fst = order.map (bucketKey intern ht) := by
  rw [entriesOf, List.map_map]
  rfl

theorem mem_bucketKey_long {k : Nat} : .long k ∈ order.map (bucketKey intern ht) ↔
      ∃ p ∈ order, ht.nKeyLength p = 0 ∧ ht.h p = k := by
  rw [List.mem_map]
  apply exists_congr
  intro p
  rw [← indexTest_iff, indexTest, Bool.and_eq_true, beq_iff_eq, beq_iff_eq]

theorem Bounded.nextFreeAbove (h : Bounded intern ht order) : NextFreeAbove intern ht := by
  refine ⟨h.nextFree, ?_⟩
  intro k hk
  rw [h.toTableShape.listedEntries_eq, map_fst_entriesOf, mem_bucketKey_long] at hk
  obtain ⟨p, hp, hlen, rfl⟩ := hk
  exact (h.key p hp).2 hlen

theorem SameContents.entriesOf {ht' : HashTable δ} (h : SameContents ht ht')
    (order : List Addr) : entriesOf intern ht' order = entriesOf intern ht order := by
  apply map_congr_left
  intro p _
  rw [bucketEntry, bucketEntry, (h.sameBucket p).bucketKey, h.pData]

theorem BelowNext.eq_longMax {n : Nat} (h : BelowNext n n) (hn : n ≤ longMax) : n = longMax := by
  rcases h.2 with hlt | ⟨heq, -⟩
  · rw [toLong, if_pos hn] at hlt
    exact absurd hlt (Int.lt_irrefl _)
  · exact heq

theorem BelowNext.toLong_le {n k : Nat} (h : BelowNext n k) (hn : n ≤ longMax) :
    toLong k ≤ toLong n := by
  have hlong : toLong n = n := if_pos hn
  rcases h.2 with hlt | ⟨rfl, rfl⟩
  · rw [hlong]
    exact Int.le_of_lt hlt
  · exact Int.le_refl _

/-- The element of the new bucket stands behind the others. -/
theorem Bounded.entriesOf_indexBucket (h : Bounded intern ht order) (index : Nat) (data : δ) :
    entriesOf intern (indexBucket ht index data) (order ++ [ht.brk]) =
      entriesOf intern ht order ++ [(.long index, data)] := by
  obtain ⟨hh, hlen, hdata⟩ := indexBucket_fields ht index data
  have hold : entriesOf intern (indexBucket ht index data) order = entriesOf intern ht order := by
    apply map_congr_left
    intro p hp
    have hne : p ≠ ht.brk := fun heq => h.brk_not_mem (heq ▸ hp)
    have hsame : SameBucket ht (indexBucket ht index data) p := by
      constructor <;> simp [indexBucket, newBucket, hne]
    rw [bucketEntry, bucketEntry, hsame.bucketKey]
    simp [indexBucket, newBucket, hne]
  have hnew : bucketEntry intern (indexBucket ht index data) ht.brk = (.long index, data) := by
    simp [bucketEntry, bucketKey, hh, hlen, hdata]
  rw [entriesOf, map_append, map_singleton, hnew]
  exact congrArg (· ++ _) hold

theorem Bounded.appendsNext (h : Bounded intern ht order) (data : δ) :
    AppendsNext intern ht data := by
  obtain ⟨hinit, hmask, -⟩ := h.checkInit
  obtain ⟨-, -, hgeometry⟩ := h.toHashShape.checkInit
  have hsame : SameContents ht (PhpEngine.checkInit ht) := by
    constructor <;> rw [hgeometry]
  rw [AppendsNext, zendHashIndexUpdateOrNextInsert, h.toTableShape.listedEntries_eq,
    ← hsame.entriesOf order, map_fst_entriesOf]
  generalize PhpEngine.checkInit ht = table at hinit hmask hsame
  obtain ⟨l, hfind, hmem⟩ := hinit.findInChain_chain
    (Nat.and_le_right : table.nNextFreeElement &&& table.nTableMask ≤ _)
    (indexTest table table.nNextFreeElement)
  simp only [if_true, hfind, bind_eq_bind, bind_some]
  cases hfound : l.find? (indexTest table table.nNextFreeElement) with
  | some p =>
    refine ⟨table, .failure, none, rfl, ?_, ?_⟩
    · exact hinit.toTableShape.listedEntries_eq
    · have hp := ((hmem p).mp (mem_of_find?_eq_some hfound)).1
      have htest := find?_some hfound
      rw [indexTest, Bool.and_eq_true, beq_iff_eq, beq_iff_eq] at htest
      have hbelow := (hinit.key p hp).2 htest.1
      rw [htest.2] at hbelow
      refine mem_bucketKey_long.mpr ⟨p, hp, htest.1, ?_⟩
      rw [htest.2]
      exact hbelow.eq_longMax hinit.nextFree
  | none =>
    have hlt : table.nNextFreeElement < ulongMod :=
      lt_of_le_of_lt hinit.nextFree (by decide)
    obtain ⟨final, hrun, hcontents, hfinal, -⟩ := hinit.linkIndex hmask hlt data
    refine ⟨final, .success, some table.brk, ?_, table.nNextFreeElement, ?_, ?_, ?_⟩
    · change (PhpEngine.linkBucket (indexBucket table _ data) _ _).bind _ = _
      rw [hrun]
      rfl
    · rw [hfinal.toTableShape.listedEntries_eq, hcontents.entriesOf, hinit.entriesOf_indexBucket]
    · rintro hkey
      obtain ⟨p, hp, hlen, hh⟩ := mem_bucketKey_long.mp hkey
      have hl : p ∈ l := (hmem p).mpr ⟨hp, by rw [hh]⟩
      have htest := find?_eq_none.mp hfound p hl
      simp [indexTest, hlen, hh] at htest
    · intro i hi
      obtain ⟨p, hp, hlen, rfl⟩ := mem_bucketKey_long.mp hi
      exact ((hinit.key p hp).2 hlen).toLong_le hinit.nextFree

end NextInsert

section Reachable

variable [Inhabited δ] {intern : Nat → KeyBytes}

/-- New tables. -/
def initTables (sizes : Nat → UInt32) : Nat → HashTable δ :=
  fun t => zendHashInit (sizes t).toNat

/-- After every run whose renumbered tables can be counted, no index reaches the
next free element, and an insertion there appends or finds the last long taken. -/
theorem boundRun_nextFreeAbove (sizes : Nat → UInt32) (ops : List (BoundOp intern δ))
    (hok : StepsMeet BoundOp.Countable ops (initTables sizes)) :
    ∃ tables, boundRun ops (initTables sizes) = some tables ∧ ∀ t, NextFreeAbove intern (tables t) ∧
        ∀ data, AppendsNext intern (tables t) data := by
  obtain ⟨tables, hrun, hbounded⟩ := boundRun_bounded ops
    (allBounded_init intern False sizes) hok False.elim
  refine ⟨tables, hrun, ?_⟩
  intro t
  obtain ⟨order, h, -⟩ := hbounded t
  exact ⟨h.nextFreeAbove, fun data => h.appendsNext data⟩

/-- Indices are stored, renumbered and spliced. -/
def mixedRun : List (BoundOp (fun _ => []) Nat) :=
  [.indexUpdateOrNextInsert 0 5 3 .update, .reindex 0 false,
    .splice 0 id 1 0 (some [7, 8]) (some ⟨1, by decide⟩)]

theorem mixedRun_countable : StepsMeet BoundOp.Countable mixedRun (initTables fun _ => 8) := by
  refine ⟨trivial, ?_⟩
  intro tables htables
  cases htables
  refine ⟨show Renumbers _ by decide, ?_⟩
  intro tables htables
  cases htables
  exact ⟨show Renumbers _ by decide, fun _ _ => trivial⟩

theorem boundRun_nextFreeAbove_mixed :
    ∃ tables, boundRun mixedRun (initTables fun _ => 8) = some tables ∧
      ∀ t, NextFreeAbove (fun _ => []) (tables t) ∧
        ∀ data, AppendsNext (fun _ => []) (tables t) data :=
  boundRun_nextFreeAbove (fun _ => 8) mixedRun mixedRun_countable

/-- After every run whose splices have room, so has every table. -/
theorem boundRun_loaded (sizes : Nat → UInt32) (ops : List (BoundOp intern δ))
    (hok : StepsMeet BoundOp.Countable ops (initTables sizes))
    (hroom : StepsMeet BoundOp.HasRoom ops (initTables sizes)) :
    ∃ tables, boundRun ops (initTables sizes) = some tables ∧
      ∀ t, (tables t).nNumOfElements ≤ (tables t).nTableSize ∨ (tables t).nTableSize = 2 ^ 31 := by
  obtain ⟨tables, hrun, hbounded⟩ := boundRun_bounded ops
    (allBounded_init intern True sizes) hok fun _ => hroom
  refine ⟨tables, hrun, ?_⟩
  intro t
  obtain ⟨order, h, hload⟩ := hbounded t
  rcases hload trivial with hmax | hle
  · exact .inr hmax
  · refine .inl (le_trans ?_ hle)
    rw [h.count]
    exact Nat.mod_le _ _

end Reachable

theorem mixedRun_hasRoom : StepsMeet BoundOp.HasRoom mixedRun (initTables fun _ => 8) := by
  refine ⟨trivial, ?_⟩
  intro tables htables
  cases htables
  refine ⟨trivial, ?_⟩
  intro tables htables
  cases htables
  refine ⟨.inr ?_, fun _ _ => trivial⟩
  decide

theorem boundRun_loaded_mixed : ∃ tables, boundRun mixedRun (initTables fun _ => 8) = some tables ∧
      ∀ t, (tables t).nNumOfElements ≤ (tables t).nTableSize ∨ (tables t).nTableSize = 2 ^ 31 :=
  boundRun_loaded (fun _ => 8) mixedRun mixedRun_countable mixedRun_hasRoom

/-- A splice of 17 elements into a new table resizes it once, to 16. -/
def crowdedRun : List (BoundOp (fun _ => []) Unit) :=
  [.splice 0 id 0 0 (some (List.replicate 17 ())) none]

theorem boundRun_not_loaded : ∃ tables, boundRun crowdedRun (initTables fun _ => 8) = some tables ∧
      ¬((tables 0).nNumOfElements ≤ (tables 0).nTableSize ∨ (tables 0).nTableSize = 2 ^ 31) := by
  have hrun : (boundRun crowdedRun (initTables fun _ => 8)).map
      (fun tables => ((tables 0).nNumOfElements, (tables 0).nTableSize)) = some (17, 16) := by
    decide
  obtain ⟨tables, htables, hcounts⟩ := map_eq_some_iff.mp hrun
  rw [Prod.mk.injEq] at hcounts
  refine ⟨tables, htables, ?_⟩
  rw [hcounts.1, hcounts.2]
  decide

section Wrap

variable {intern : Nat → KeyBytes}

theorem boundRun_append (ops rest : List (BoundOp intern δ)) (tables : Nat → HashTable δ) :
    boundRun (ops ++ rest) tables = (boundRun ops tables).bind (boundRun rest) := by
  induction ops generalizing tables with
  | nil => rfl
  | cons op ops ih =>
    rw [cons_append, boundRun, boundRun]
    cases op.exec tables with
    | none => rfl
    | some out => exact ih out

theorem boundRun_nextInserts (data : δ) (n : Nat) (tables : Nat → HashTable δ) :
    boundRun (List.replicate n (BoundOp.indexUpdateOrNextInsert 0 0 data .nextInsert :
        BoundOp intern δ)) tables =
      (nextInserts data n (tables 0)).map (update tables 0) := by
  induction n generalizing tables with
  | zero =>
    change some tables = some (update tables 0 (tables 0))
    rw [update_eq_self]
  | succ n ih =>
    rw [replicate_succ, boundRun, nextInserts, BoundOp.exec]
    cases hrun : zendHashIndexUpdateOrNextInsert (tables 0) 0 data .nextInsert with
    | none =>
      change Option.bind ((zendHashIndexUpdateOrNextInsert (tables 0) 0 data
        .nextInsert).map _) _ = _
      rw [hrun]
      rfl
    | some out =>
      change Option.bind ((zendHashIndexUpdateOrNextInsert (tables 0) 0 data
        .nextInsert).map _) _ = _
      rw [hrun]
      change boundRun _ (update tables 0 out.1) = _
      rw [ih, update_self, bind_some]
      congr 1
      funext table
      exact update_idem _ _ _

/-- With `2 ^ 32` elements the count is zero, so that a reindexing only sets the
next free element to 0. -/
def wrappingRun : List (BoundOp (fun _ => []) Unit) :=
  List.replicate (2 ^ 32) (.indexUpdateOrNextInsert 0 0 () .nextInsert) ++ [.reindex 0 true]

theorem boundRun_not_nextFreeAbove :
    ∃ tables, boundRun wrappingRun (initTables fun _ => 8) = some tables ∧
      ¬NextFreeAbove (fun _ => []) (tables 0) := by
  obtain ⟨ht, m, hrun, ⟨order, hrep⟩, hkeys⟩ := nextInserts_represents (a := 0) ()
    (2 ^ 32) ⟨[], zendHashInit_represents (fun _ => []) 8⟩ rfl rfl (by decide)
  rw [zero_add] at hkeys
  have hfirst : HashKey.long 0 ∈ m.keys := by
    rw [hkeys]
    exact List.mem_map.mpr ⟨0, mem_range.mpr (by decide), rfl⟩
  have hzero : ht.nNumOfElements = 0 := by
    have hlength := congrArg List.length hkeys
    rw [OrderedMap.keys, hrep.items, length_map, length_map, length_map, length_range] at hlength
    rw [hrep.inv.count, hlength]
    rfl
  refine ⟨update (update (initTables fun _ => 8) 0 ht) 0 { ht with nNextFreeElement := 0 }, ?_, ?_⟩
  · rw [wrappingRun, boundRun_append, boundRun_nextInserts]
    change (Option.map _ (nextInserts () (2 ^ 32) (zendHashInit 8))).bind _ = _
    rw [hrun, map_some, bind_some, boundRun, BoundOp.exec,
      update_self, zendHashReindex, if_pos hzero]
    rfl
  · rw [update_self]
    intro habove
    have hinv := hrep.inv
    have hshape : TableShape { ht with nNextFreeElement := 0 } order :=
      ⟨hinv.size, hinv.mask, hinv.uninitialized, hinv.list, hinv.count,
        hinv.internalPointer, hinv.allocated, hinv.applyCount⟩
    have hkey : HashKey.long 0 ∈ (listedEntries (fun _ => [])
        { ht with nNextFreeElement := 0 }).map Prod.fst := by
      rw [hshape.listedEntries_eq]
      change _ ∈ (order.map (bucketEntry (fun _ => []) ht)).map Prod.fst
      rw [← hrep.items]
      exact hfirst
    have hbelow : BelowNext 0 0 := habove.2 0 hkey
    exact absurd (hbelow.eq_longMax (Nat.zero_le _)) (by decide)

end Wrap

end PhpEngine

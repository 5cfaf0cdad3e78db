/-
The graphs that are serialized without user code, and what it means for two
graphs to be the same: equal scalars, keys and order, the same objects in the
same places, and the same sets of references.
-/
import PhpEngine.SerializeTokens
import Mathlib.Algebra.BigOperators.Group.Finset.Basic
import Mathlib.Algebra.Order.BigOperators.Group.Finset

namespace PhpEngine

open List Function

variable {call : Nat → SerState → Option SerState} {t : Nat}

/-! Two graphs. -/

/-- Which zvals and which objects of two graphs correspond. -/
structure Pairing where
  zs : List (Nat × Nat)
  os : List (Nat × Nat)

/-- The same keys in the same order, with corresponding zvals. -/
def SameItems (pr : Pairing) (l l' : List (HashKey × Nat)) : Prop :=
  List.Forall₂ (fun x y => x.1 = y.1 ∧ (x.2, y.2) ∈ pr.zs) l l'

def SameValue (g g' : Graph) (pr : Pairing) : UValue → UValue → Prop
  | .array t, .array t' =>
    SameItems pr (g.tables t).items (g'.tables t').items
  | .object h, .object k => (h, k) ∈ pr.os
  | v, v' => v = v'

def SameObject (g g' : Graph) (pr : Pairing) (h k : Nat) : Prop :=
  (g.objects h).ce = (g'.objects k).ce ∧ SameItems pr (g.tables (g.objects h).properties).items
      (g'.tables (g'.objects k).properties).items

/-- Where a zval is held: as the whole value, or in a table. -/
inductive Place where
  | root
  | element (table index : Nat)
deriving Repr, DecidableEq

/-- The zval at an index of a table. -/
def Graph.entry (g : Graph) (t i : Nat) : Option Nat :=
  (g.tables t).items[i]?.map Prod.snd

/-- A table of the second graph that belongs to a paired array or object. -/
def InPairing (g' : Graph) (pr : Pairing) (t : Nat) : Prop :=
  (∃ p ∈ pr.zs, (g'.zvals p.2).value = .array t) ∨ ∃ q ∈ pr.os, (g'.objects q.2).properties = t

def Graph.HeldAt (g' : Graph) (pr : Pairing) (root' : Nat) (b : Nat) : Place → Prop
  | .root => b = root'
  | .element t i => InPairing g' pr t ∧ g'.entry t i = some b

/-- The graphs from `root` and `root'` are the same.  References correspond
one to one, and a zval that stands for one and is held in two places is
one. -/
structure Isomorphic (g g' : Graph) (root root' : Nat) (pr : Pairing) :
    Prop where
  root : (root, root') ∈ pr.zs
  value : ∀ p ∈ pr.zs, SameValue g g' pr (g.zvals p.1).value (g'.zvals p.2).value
  object : ∀ q ∈ pr.os, SameObject g g' pr q.1 q.2
  identity : ∀ q ∈ pr.os, ∀ q' ∈ pr.os, q.1 = q'.1 ↔ q.2 = q'.2
  refTo : ∀ p ∈ pr.zs, ∀ p' ∈ pr.zs, p.1 = p'.1 → (g.zvals p.1).isRef = true → p.2 = p'.2
  refFrom : ∀ p ∈ pr.zs, ∀ p' ∈ pr.zs, p.2 = p'.2 →
    (g'.zvals p.2).isRef = true → p.1 = p'.1 ∧ (g.zvals p.1).isRef = true
  shared : ∀ p ∈ pr.zs, (g.zvals p.1).isRef = true → ∀ x y, x ≠ y →
    g'.HeldAt pr root' p.2 x → g'.HeldAt pr root' p.2 y →
    (g'.zvals p.2).isRef = true

/-! Plain graphs. -/

/-- A key that `zend_symtable_update` keeps as it is. -/
def ArrayKey : HashKey → Prop
  | .long h => h < ulongMod
  | .string key => ∃ b : List UInt8, key = b ++ [0] ∧ b.length < 2 ^ 31 ∧ handleNumeric b = none

def PropertyKey : HashKey → Prop
  | .long _ => False
  | .string key => ∃ b : List UInt8, key = b ++ [0] ∧ b.length < 2 ^ 31

def defaultKeys (ce : ClassEntry) : List HashKey :=
  ce.defaults.map fun d => .string (d.1 ++ [0])

/-- A class that is found under its name, has neither handlers nor
`__wakeup`, and whose default values are older than `base`. -/
structure PlainClass (classes : UserCode) (base : Nat) (ce : ClassEntry) :
    Prop where
  name : 0 < ce.name.length ∧ ce.name.length < 2 ^ 31
  bytes : ∀ b ∈ ce.name, isNameByte b = true
  found : ∀ position, classes.lookupClass position ce.name = .found ce
  serialize : ce.serialize = false
  wakeup : ce.wakeup = false
  abstract : ce.abstract = false
  complete : ce ≠ incompleteClass
  defaults : ∀ d ∈ ce.defaults, d.2 < base

structure PlainItems (nodes : Finset Nat) (isKey : HashKey → Prop)
    (items : List (HashKey × Nat)) : Prop where
  length : items.length < 2 ^ 31
  nodup : (items.map Prod.fst).Nodup
  key : ∀ x ∈ items, isKey x.1
  node : ∀ x ∈ items, x.2 ∈ nodes

section Plain

variable (g : Graph) (handlers : SerializeUser) (classes : UserCode)
  (base : Nat) (nodes : Finset Nat)

/-- An object is held by zvals that are no references, and still has the
declared properties of its class, in order. -/
def PlainValue (isRef : Bool) : UValue → Prop
  | .null => True
  | .bool _ => True
  | .long n => IsLong n
  | .double text => DoubleText text
  | .string str => str.length < 2 ^ 31
  | .array t => PlainItems nodes ArrayKey (g.tables t).items
  | .object h => isRef = false ∧ handlers.handles h = false ∧
      PlainClass classes base (g.objects h).ce ∧
      PlainItems nodes PropertyKey (g.tables (g.objects h).properties).items ∧
      ∃ rest, (g.tables (g.objects h).properties).items.map Prod.fst =
        defaultKeys (g.objects h).ce ++ rest

/-- A finite graph of null, booleans, longs, doubles as they print, strings,
arrays with canonical keys and plain objects. -/
def PlainGraph : Prop :=
  ∀ z ∈ nodes, PlainValue g handlers classes base nodes (g.zvals z).isRef (g.zvals z).value

end Plain

/-! What the serializer's state keeps. -/

/-- A run of the serializer: text is appended, the count does not fall, and
an array once left out is not forgotten. -/
structure Grows (st st' : SerState) (new : List UInt8) : Prop where
  buf : st'.buf = st.buf ++ new
  count : st.count ≤ st'.count
  cut : st'.cut = false → st.cut = false

namespace Grows

theorem refl (st : SerState) : Grows st st [] :=
  ⟨by simp, Nat.le_refl _, id⟩

theorem trans {st st' st'' : SerState} {new new' : List UInt8}
    (h : Grows st st' new) (h' : Grows st' st'' new') : Grows st st'' (new ++ new') :=
  ⟨by rw [h'.buf, h.buf, append_assoc], Nat.le_trans h.count h'.count,
    fun hcut => h.cut (h'.cut hcut)⟩

theorem append (st : SerState) (text : List UInt8) : Grows st (st.append text) text :=
  ⟨rfl, Nat.le_refl _, id⟩

end Grows

theorem phpAddVarHash_grows (g : Graph) (z : Nat) (st : SerState) :
    Grows st (phpAddVarHash g z st).2 [] := by
  rw [phpAddVarHash]
  split
  · dsimp only
    split
    · exact Grows.refl st
    · exact ⟨by simp, Nat.le_succ _, id⟩
  · exact ⟨by simp, Nat.le_succ _, id⟩

/-- A run that writes a byte at least for every number that it gives out. -/
def Outgrows (st st' : SerState) : Prop :=
  ∃ new, Grows st st' new ∧ st'.count ≤ st.count + new.length

namespace Outgrows

variable {st st' st'' : SerState}

theorem refl (st : SerState) : Outgrows st st :=
  ⟨[], Grows.refl st, le_rfl⟩

theorem trans (h : Outgrows st st') (h' : Outgrows st' st'') : Outgrows st st'' := by
  obtain ⟨new, hgrows, hcount⟩ := h
  obtain ⟨new', hgrows', hcount'⟩ := h'
  refine ⟨_, hgrows.trans hgrows', ?_⟩
  rw [length_append]
  omega

theorem append (st : SerState) (text : List UInt8) : Outgrows st (st.append text) :=
  ⟨text, Grows.append st text, Nat.le_add_right _ _⟩

/-- A value that is numbered and begins with some text. -/
theorem enter (g : Graph) (z : Nat) (st : SerState) {text : List UInt8} (htext : 0 < text.length) :
    Outgrows st ((phpAddVarHash g z st).2.append text) := by
  refine ⟨text, (phpAddVarHash_grows g z st).trans (Grows.append _ text), ?_⟩
  have hcount : (phpAddVarHash g z st).2.count ≤ st.count + 1 := by
    rw [phpAddVarHash]
    split
    · dsimp only
      split
      · exact Nat.le_succ _
      · exact le_rfl
    · exact le_rfl
  exact hcount.trans (Nat.add_le_add_left htext _)

end Outgrows

/-! The cases of `php_var_serialize_intern`. -/

section Cases

variable {g : Graph} {handlers : SerializeUser} {fuel z : Nat} {st : SerState} {no : Int}

/-- A zval met before that is a reference or an object. -/
def metBefore (g : Graph) (z : Nat) (st : SerState) : Option Int :=
  match st.varHash (varId g z), (g.zvals z).isRef, (g.zvals z).value with
  | some no, true, _ => some no
  | some no, false, .object _ => some no
  | _, _, _ => none

/-- The text for a zval met before. -/
def backText (g : Graph) (z : Nat) (no : Int) : List UInt8 :=
  if (g.zvals z).isRef then refText no else copyText no

theorem backText_pos (g : Graph) (z : Nat) (no : Int) : 0 < (backText g z no).length := by
  rw [backText]
  split
  · exact Nat.succ_pos _
  · exact Nat.succ_pos _

theorem phpAddVarHash_fst (g : Graph) (z : Nat) (st : SerState) :
    (phpAddVarHash g z st).1 = st.varHash (varId g z) := by
  rw [phpAddVarHash]
  split <;> simp [*]

theorem intern_met (h : metBefore g z st = some no) :
    phpVarSerializeIntern g handlers (fuel + 1) z st =
      some ((phpAddVarHash g z st).2.append (backText g z no)) := by
  rw [phpVarSerializeIntern]
  simp only [phpAddVarHash_fst]
  rw [metBefore] at h
  split at h
  next hseen href =>
    cases h
    rw [hseen, href, backText, if_pos href]
    simp only [SerState.appendLong, appendText_eq, append_append]
    rw [refText, append_assoc]
  next hseen href hvalue =>
    cases h
    rw [hseen, href, backText, if_neg (by simp [href])]
    simp only [hvalue, SerState.appendLong, appendText_eq, append_append]
    rw [copyText, append_assoc]
  next => cases h

theorem intern_value (h : metBefore g z st = none) :
    phpVarSerializeIntern g handlers (fuel + 1) z st = match (g.zvals z).value with
      | .null => some ((phpAddVarHash g z st).2.append (bytesOf "N;"))
      | .bool b => some ((phpAddVarHash g z st).2.append (boolText b))
      | .long n => some ((phpAddVarHash g z st).2.append (longText n))
      | .double text => some ((phpAddVarHash g z st).2.append
          (bytesOf "d:" ++ (text ++ bytesOf ";")))
      | .string str => some ((phpAddVarHash g z st).2.append (stringText str))
      | .object handle =>
        if handlers.handles handle then
          some { handlers.run handle (phpAddVarHash g z st).2 with
            cut := (phpAddVarHash g z st).2.cut }
        else serializeTable g (phpVarSerializeIntern g handlers fuel)
          (classAttributes g handle).2 (g.objects handle).properties
          (phpVarSerializeClassName (classAttributes g handle).1 (phpAddVarHash g z st).2)
      | .array t =>
        serializeTable g (phpVarSerializeIntern g handlers fuel) false t
          ((phpAddVarHash g z st).2.append (bytesOf "a:")) := by
  rw [phpVarSerializeIntern]
  simp only [phpAddVarHash_fst]
  rw [metBefore] at h
  cases hvalue : (g.zvals z).value with
  | null =>
    cases hseen : st.varHash (varId g z) <;>
      cases href : (g.zvals z).isRef <;> simp [hseen, href] at h ⊢ <;> rfl
  | bool b =>
    cases hseen : st.varHash (varId g z) <;> cases href : (g.zvals z).isRef <;>
      simp [hseen, href, SerState.appendLong, appendText_eq, append_append, boolText] at h ⊢
  | long n =>
    cases hseen : st.varHash (varId g z) <;> cases href : (g.zvals z).isRef <;>
      simp [hseen, href, phpVarSerializeLong_eq] at h ⊢
  | double text =>
    cases hseen : st.varHash (varId g z) <;> cases href : (g.zvals z).isRef <;>
      simp [hseen, href, appendText_eq, append_append] at h ⊢
  | string str =>
    cases hseen : st.varHash (varId g z) <;> cases href : (g.zvals z).isRef <;>
      simp [hseen, href, phpVarSerializeString_eq] at h ⊢
  | object handle =>
    cases hseen : st.varHash (varId g z) <;>
      cases href : (g.zvals z).isRef <;> simp [hseen, href, hvalue] at h ⊢
  | array t =>
    cases hseen : st.varHash (varId g z) <;>
      cases href : (g.zvals z).isRef <;> simp [hseen, href] at h ⊢ <;> rfl

theorem serializeTable_eq (call : Nat → SerState → Option SerState)
    (t : Nat) (hlength : (g.tables t).items.length < 2 ^ 31) : serializeTable g call false t st =
      (serializeElements g call false (g.tables t).items
        (st.append (printLong (g.tables t).items.length ++
          bytesOf ":\x7b"))).map fun st => st.append (bytesOf "\x7d") := by
  simp only [serializeTable, intOf_of_lt hlength, Bool.false_eq_true,
    and_false, if_false, SerState.appendLong, appendText_eq, append_append]
  cases hitems : (g.tables t).items with
  | nil => rfl
  | cons item rest =>
    rw [if_pos (by simp)]
    generalize serializeElements g call false (item :: rest) _ = result
    cases result <;> rfl

theorem serializeElements_cons (call : Nat → SerState → Option SerState)
    (item : HashKey × Nat) (rest : List (HashKey × Nat)) :
    serializeElements g call false (item :: rest) st =
      (serializeElement g call item.2 (serializeKey item.1 st)).bind
        (serializeElements g call false rest) := by
  rfl

end Cases

section Run

variable {g : Graph} {handlers : SerializeUser} {classes : UserCode}
  {base : Nat} {nodes : Finset Nat} {z : Nat} {st st' : SerState}

theorem serializeKey_grows (key : HashKey) (st : SerState) : Outgrows st (serializeKey key st) := by
  cases key with
  | long h =>
    rw [serializeKey, phpVarSerializeLong_eq]
    exact Outgrows.append st _
  | string key =>
    rw [serializeKey, phpVarSerializeString_eq]
    exact Outgrows.append st _

/-- Calls on the nodes of the graph grow the state. -/
def CallGrows (nodes : Finset Nat) (call : Nat → SerState → Option SerState) : Prop :=
  ∀ z ∈ nodes, ∀ st st', call z st = some st' → Outgrows st st'

theorem serializeElement_grows (hcall : CallGrows nodes call) (hz : z ∈ nodes)
    (h : serializeElement g call z st = some st') : Outgrows st st' := by
  rw [serializeElement] at h
  split at h
  · exact hcall z hz st st' h
  · split at h
    · cases h
      exact ⟨_, ⟨rfl, le_rfl, by simp⟩, Nat.le_add_right _ _⟩
    · obtain ⟨st₁, hrun, h⟩ := Option.bind_eq_some_iff.mp h
      cases h
      obtain ⟨new, hgrows, hcount⟩ := hcall z hz _ _ hrun
      exact ⟨new, ⟨hgrows.buf, hgrows.count, hgrows.cut⟩, hcount⟩

theorem serializeElements_grows (hcall : CallGrows nodes call) {items : List (HashKey × Nat)}
    (hitems : ∀ x ∈ items, x.2 ∈ nodes) (h : serializeElements g call false items st = some st') :
    Outgrows st st' := by
  induction items generalizing st with
  | nil =>
    cases h
    exact Outgrows.refl _
  | cons item rest ih =>
    obtain ⟨st₁, helement, h⟩ := Option.bind_eq_some_iff.mp h
    have hfirst := serializeElement_grows hcall (hitems item mem_cons_self) helement
    exact ((serializeKey_grows item.1 st).trans hfirst).trans
      (ih (fun x hx => hitems x (mem_cons_of_mem item hx)) h)

theorem serializeTable_grows (hcall : CallGrows nodes call) {isKey : HashKey → Prop}
    (hitems : PlainItems nodes isKey (g.tables t).items)
    (h : serializeTable g call false t st = some st') : Outgrows st st' := by
  rw [serializeTable_eq call t hitems.length] at h
  obtain ⟨st₁, hrun, rfl⟩ := Option.map_eq_some_iff.mp h
  have hloop := serializeElements_grows hcall hitems.node hrun
  exact ((Outgrows.append st _).trans hloop).trans (Outgrows.append st₁ _)

theorem classAttributes_plain {h : Nat} (hplain : (g.objects h).ce ≠ incompleteClass) :
    classAttributes g h = ((g.objects h).ce.name, false) :=
  if_neg hplain

theorem phpVarSerializeIntern_grows
    (hplain : PlainGraph g handlers classes base nodes) (fuel : Nat) :
    CallGrows nodes (phpVarSerializeIntern g handlers fuel) := by
  induction fuel with
  | zero =>
    intro z hz st st' h
    cases h
  | succ fuel ih =>
    intro z hz st st' h
    cases hmet : metBefore g z st with
    | some no =>
      rw [intern_met hmet] at h
      cases h
      exact Outgrows.enter g z st (backText_pos g z no)
    | none =>
      rw [intern_value hmet] at h
      have hvalue := hplain z hz
      cases hkind : (g.zvals z).value with
      | null | bool b | long n | double text | string str =>
        rw [hkind] at h
        cases h
        exact Outgrows.enter g z st (Nat.succ_pos _)
      | object handle =>
        rw [hkind] at h hvalue
        obtain ⟨_, hhandles, hclass, hitems, _⟩ := hvalue
        simp only [hhandles, Bool.false_eq_true, if_false, classAttributes_plain hclass.complete,
          phpVarSerializeClassName, SerState.appendLong, appendText_eq, append_append] at h
        refine (Outgrows.enter g z st ?_).trans (serializeTable_grows ih hitems h)
        exact Nat.succ_pos _
      | array t =>
        rw [hkind] at h hvalue
        refine (Outgrows.enter g z st ?_).trans (serializeTable_grows ih hvalue h)
        exact Nat.succ_pos _

end Run

/-! The serializer ends: each level of nesting takes up an object that was
not met, or one of the two times that an array is serialized as an element. -/

/-- The levels of nesting that a zval can still give rise to. -/
def levels (g : Graph) (st : SerState) (z : Nat) : Nat :=
  match (g.zvals z).value with
  | .array t => 2 - st.applyCount t
  | .object h => if (st.varHash (.object h)).isSome then 0 else 1
  | _ => 0

def budget (g : Graph) (nodes : Finset Nat) (st : SerState) : Nat :=
  ∑ z ∈ nodes, levels g st z

/-- A complete run: the apply counts are back, and what was met stays met. -/
structure Settles (st st' : SerState) : Prop where
  apply : st'.applyCount = st.applyCount
  met : ∀ id, (st.varHash id).isSome → (st'.varHash id).isSome

section Ends

variable {g : Graph} {handlers : SerializeUser} {classes : UserCode}
  {base : Nat} {nodes : Finset Nat} {z : Nat} {st st' : SerState}

theorem Settles.refl (st : SerState) : Settles st st :=
  ⟨rfl, fun _ h => h⟩

theorem Settles.trans {st'' : SerState} (h : Settles st st')
    (h' : Settles st' st'') : Settles st st'' :=
  ⟨h'.apply.trans h.apply, fun id hid => h'.met id (h.met id hid)⟩

theorem Settles.append (st : SerState) (text : List UInt8) : Settles st (st.append text) :=
  ⟨rfl, fun _ h => h⟩

theorem levels_le (happly : ∀ t, st.applyCount t ≤ st'.applyCount t)
    (hmet : ∀ id, (st.varHash id).isSome → (st'.varHash id).isSome)
    (z : Nat) : levels g st' z ≤ levels g st z := by
  rw [levels, levels]
  split
  · exact Nat.sub_le_sub_left (happly _) 2
  next h _ =>
    cases hseen : (st.varHash (.object h)).isSome with
    | true => rw [if_pos (hmet _ hseen), if_pos rfl]
    | false =>
      simp only [Bool.false_eq_true, if_false]
      split <;> omega
  · exact le_refl 0

theorem Settles.budget_le (h : Settles st st') : budget g nodes st' ≤ budget g nodes st :=
  Finset.sum_le_sum fun z _ =>
    levels_le (fun t => by rw [h.apply]) h.met z

theorem budget_apply (hz : z ∈ nodes)
    (hvalue : (g.zvals z).value = .array t) (hroom : st.applyCount t ≤ 1) : budget g nodes { st with
      applyCount := update st.applyCount t (st.applyCount t + 1) } <
      budget g nodes st := by
  apply Finset.sum_lt_sum
  · intro x _
    apply levels_le
    · intro u
      by_cases hu : u = t
      · rw [hu]
        simp
      · simp [hu]
    · exact fun _ h => h
  · refine ⟨z, hz, ?_⟩
    simp only [levels, hvalue, update_self]
    omega

theorem phpAddVarHash_settles (g : Graph) (z : Nat) (st : SerState) :
    Settles st (phpAddVarHash g z st).2 := by
  rw [phpAddVarHash]
  split
  · dsimp only
    split
    · exact Settles.refl st
    · exact ⟨rfl, fun _ h => h⟩
  · refine ⟨rfl, fun id hid => ?_⟩
    by_cases hne : id = varId g z
    · rw [hne]
      simp
    · simpa [hne] using hid

theorem budget_object {h : Nat} (hz : z ∈ nodes) (hvalue : (g.zvals z).value = .object h)
    (hnew : st.varHash (varId g z) = none) :
    budget g nodes (phpAddVarHash g z st).2 < budget g nodes st := by
  have hid : varId g z = .object h := by rw [varId, hvalue]
  have hsettles := phpAddVarHash_settles g z st
  apply Finset.sum_lt_sum
  · intro x _
    exact levels_le (fun t => by rw [hsettles.apply]) hsettles.met x
  · refine ⟨z, hz, ?_⟩
    have hmet : ((phpAddVarHash g z st).2.varHash (.object h)).isSome := by
      rw [phpAddVarHash, hnew, hid]
      simp
    rw [levels, levels, hvalue]
    rw [hid] at hnew
    simp [hmet, hnew]

/-- A zval that is written without nested calls. -/
def isLeaf (g : Graph) (z : Nat) (st : SerState) : Bool :=
  (metBefore g z st).isSome || match (g.zvals z).value with
    | .array _ => false
    | .object _ => false
    | _ => true

/-- The calls on the nodes of the graph end when they have the fuel for the
levels that are left. -/
def CallEnds (g : Graph) (nodes : Finset Nat) (fuel : Nat)
    (call : Nat → SerState → Option SerState) : Prop :=
  ∀ z ∈ nodes, ∀ st, 0 < fuel → (isLeaf g z st = true ∨
    budget g nodes (phpAddVarHash g z st).2 + 1 < fuel) →
    ∃ st', call z st = some st' ∧ Settles st st'

theorem serializeElement_ends {fuel : Nat}
    (hcall : CallEnds g nodes fuel call) (hz : z ∈ nodes) (hfuel : budget g nodes st < fuel) :
    ∃ st', serializeElement g call z st = some st' ∧ Settles st st' := by
  have hpos : 0 < fuel := lt_of_le_of_lt (Nat.zero_le _) hfuel
  rw [serializeElement, arrayTable]
  cases hvalue : (g.zvals z).value with
  | array t =>
    dsimp only
    by_cases hguard : 1 < st.applyCount t
    · rw [if_pos hguard]
      exact ⟨_, rfl, rfl, fun _ h => h⟩
    · rw [if_neg hguard]
      have happly := budget_apply hz hvalue (Nat.le_of_not_lt hguard)
      have hhash := phpAddVarHash_settles g z { st with
        applyCount := update st.applyCount t (st.applyCount t + 1) }
      have hle : budget g nodes (phpAddVarHash g z _).2 ≤ _ :=
        hhash.budget_le
      obtain ⟨st', hrun, hsettles⟩ := hcall z hz _ hpos
        (.inr (lt_of_le_of_lt (Nat.succ_le_of_lt (lt_of_le_of_lt hle happly)) hfuel))
      refine ⟨{ st' with
        applyCount := update st'.applyCount t (st'.applyCount t - 1) }, ?_, ?_, hsettles.met⟩
      · change Option.bind _ _ = _
        rw [hrun]
        rfl
      · simp [hsettles.apply]
  | object h =>
    cases hmet : metBefore g z st with
    | some no => exact hcall z hz st hpos (.inl (by simp [isLeaf, hmet]))
    | none =>
      refine hcall z hz st hpos (.inr ?_)
      have hnew : st.varHash (varId g z) = none := by
        rw [metBefore, hvalue] at hmet
        cases hseen : st.varHash (varId g z) with
        | none => rfl
        | some no => cases href : (g.zvals z).isRef <;> simp [hseen, href] at hmet
      exact lt_of_le_of_lt (budget_object hz hvalue hnew) hfuel
  | null => exact hcall z hz st hpos (.inl (by simp [isLeaf, hvalue]))
  | bool b => exact hcall z hz st hpos (.inl (by simp [isLeaf, hvalue]))
  | long n | double d | string s => exact hcall z hz st hpos (.inl (by simp [isLeaf, hvalue]))

theorem serializeKey_settles (key : HashKey) (st : SerState) :
    Settles st (serializeKey key st) := by
  cases key with
  | long h =>
    rw [serializeKey, phpVarSerializeLong_eq]
    exact Settles.append st _
  | string key =>
    rw [serializeKey, phpVarSerializeString_eq]
    exact Settles.append st _

theorem serializeTable_ends {fuel : Nat}
    (hcall : CallEnds g nodes fuel call) {isKey : HashKey → Prop}
    (hitems : PlainItems nodes isKey (g.tables t).items) (hfuel : budget g nodes st < fuel) :
    ∃ st', serializeTable g call false t st = some st' ∧ Settles st st' := by
  have hloop : ∀ (items : List (HashKey × Nat)) (st : SerState),
      (∀ x ∈ items, x.2 ∈ nodes) → budget g nodes st < fuel →
      ∃ st', serializeElements g call false items st = some st' ∧ Settles st st' := by
    intro items
    induction items with
    | nil => exact fun st _ _ => ⟨st, rfl, Settles.refl st⟩
    | cons item rest ih =>
      intro st hnodes hfuel
      have hkey := serializeKey_settles item.1 st
      obtain ⟨st₁, helement, hsettles⟩ := serializeElement_ends hcall (hnodes item mem_cons_self)
        (lt_of_le_of_lt hkey.budget_le hfuel)
      have hfirst := hkey.trans hsettles
      obtain ⟨st', hrest, hsettles'⟩ := ih st₁ (fun x hx => hnodes x (mem_cons_of_mem item hx))
        (lt_of_le_of_lt hfirst.budget_le hfuel)
      refine ⟨st', ?_, hfirst.trans hsettles'⟩
      rw [serializeElements_cons, helement]
      exact hrest
  rw [serializeTable_eq call t hitems.length]
  have hopen := Settles.append st (printLong (g.tables t).items.length ++ bytesOf ":\x7b")
  obtain ⟨st₁, hrun, hsettles⟩ := hloop (g.tables t).items _ hitems.node
    (lt_of_le_of_lt hopen.budget_le hfuel)
  rw [hrun]
  exact ⟨_, rfl, (hopen.trans hsettles).trans (Settles.append st₁ _)⟩

theorem phpVarSerializeIntern_ends
    (hplain : PlainGraph g handlers classes base nodes) (fuel : Nat) :
    CallEnds g nodes fuel (phpVarSerializeIntern g handlers fuel) := by
  induction fuel with
  | zero =>
    intro z hz st hfuel _
    exact absurd hfuel (lt_irrefl 0)
  | succ fuel ih =>
    intro z hz st _ hcase
    have hhash := phpAddVarHash_settles g z st
    cases hmet : metBefore g z st with
    | some no =>
      rw [intern_met hmet]
      exact ⟨_, rfl, hhash.trans (Settles.append _ _)⟩
    | none =>
      rw [intern_value hmet]
      have hvalue := hplain z hz
      simp only [isLeaf, hmet, Option.isSome_none, Bool.false_or] at hcase
      cases hkind : (g.zvals z).value with
      | null => exact ⟨_, rfl, hhash.trans (Settles.append _ _)⟩
      | bool b | long n | double d | string s => exact ⟨_, rfl, hhash.trans (Settles.append _ _)⟩
      | object handle =>
        rw [hkind] at hvalue hcase
        obtain ⟨_, hhandles, hclass, hitems, _⟩ := hvalue
        simp only [hhandles, Bool.false_eq_true, if_false, classAttributes_plain hclass.complete]
        have hname : Settles (phpAddVarHash g z st).2
            (phpVarSerializeClassName (g.objects handle).ce.name (phpAddVarHash g z st).2) := by
          simp only [phpVarSerializeClassName, SerState.appendLong, appendText_eq, append_append]
          exact Settles.append _ _
        have hfuel : budget g nodes (phpAddVarHash g z st).2 < fuel := by
          simpa using hcase
        obtain ⟨st', hrun, hsettles⟩ := serializeTable_ends ih hitems
          (lt_of_le_of_lt hname.budget_le hfuel)
        exact ⟨st', hrun, (hhash.trans hname).trans hsettles⟩
      | array t =>
        rw [hkind] at hvalue hcase
        have hopen := Settles.append (phpAddVarHash g z st).2 (bytesOf "a:")
        have hfuel : budget g nodes (phpAddVarHash g z st).2 < fuel := by
          simpa using hcase
        obtain ⟨st', hrun, hsettles⟩ := serializeTable_ends ih hvalue
          (lt_of_le_of_lt hopen.budget_le hfuel)
        exact ⟨st', hrun, (hhash.trans hopen).trans hsettles⟩

end Ends

end PhpEngine

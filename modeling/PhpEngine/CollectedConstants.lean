/-
Constants in pass 1 of the optimizer: the values of `define()` calls and of `const` declarations
are collected, and put where the script reads a constant of such a name.
-/
import PhpEngine.Decimal
import Mathlib.Data.List.Infix
import Mathlib.Data.List.TakeWhile
import Mathlib.Logic.Function.Basic

namespace PhpEngine

namespace CollectedConstants

open Function

variable {V : Type}

/-- `zend_constant`, and whether its flags have `CONST_CS`. -/
structure ZendConstant (V : Type) where
  value : V
  caseSensitive : Bool

/-- `EG(zend_constants)` -/
abbrev ZendConstants (V : Type) := List UInt8 → Option (ZendConstant V)

def zendTolower (b : UInt8) : UInt8 :=
  if byte 'A' ≤ b ∧ b ≤ byte 'Z' then b + 32 else b

/-- `zend_str_tolower` -/
def zendStrTolower (name : List UInt8) (len : Nat) : List UInt8 :=
  (name.take len).map zendTolower ++ name.drop len

/-- The length of the namespace, with the `\` behind it. -/
def namespaceLen (name : List UInt8) : Nat :=
  name.length - (name.reverse.takeWhile (· ≠ byte '\\')).length

def haltOffset : List UInt8 :=
  "__COMPILER_HALT_OFFSET__".toList.map byte

/-- The name under which `zend_register_constant` stores a constant with `CONST_CS`; `strrchr` goes
up to a NUL. -/
def registeredName (name : List UInt8) : List UInt8 :=
  zendStrTolower name (namespaceLen (name.takeWhile (· ≠ 0)))

/-- `zend_register_constant` for a constant with `CONST_CS` -/
def zendRegisterConstant (table : ZendConstants V) (name : List UInt8) (value : V) :
    ZendConstants V :=
  let key := registeredName name
  if key = haltOffset ∨ (table key).isSome then table else update table key (some ⟨value, true⟩)

/-- A name that a script reads by `ZEND_FETCH_CONSTANT`; `__COMPILER_HALT_OFFSET__` and class
constants are read otherwise. -/
structure ReadName where
  bytes : List UInt8
  noColon : byte ':' ∉ bytes
  noNul : 0 ∉ bytes
  unrooted : bytes.head? ≠ some (byte '\\')
  ordinary : registeredName bytes ≠ haltOffset

/-- The flags in `extended_value`: none, `IS_CONSTANT_UNQUALIFIED`, and this with
`IS_CONSTANT_IN_NAMESPACE`. -/
inductive FetchFlags
  | qualified
  | unqualified
  | inNamespace

/-- `zend_quick_get_constant`, by the literals of `zend_add_const_name_literal` -/
def zendQuickGetConstant (table : ZendConstants V) (name : ReadName) (flags : FetchFlags) :
    Option V :=
  let len := namespaceLen name.bytes
  let short := name.bytes.drop len
  let anyCase := fun lower => (table lower).filter (!·.caseSensitive)
  let full := (table (zendStrTolower name.bytes len)).or
    (anyCase (zendStrTolower name.bytes name.bytes.length))
  let c := match flags with
    | .inNamespace => full.or ((table short).or (anyCase (zendStrTolower short short.length)))
    | _ => full
  c.map (·.value)

/-- `ZEND_FETCH_CONSTANT`, where `str` makes a string: nothing if the script ends with an error. -/
def fetchConstant (str : List UInt8 → V) (table : ZendConstants V) (name : ReadName)
    (flags : FetchFlags) : Option V :=
  match zendQuickGetConstant table name flags, flags with
  | some v, _ => some v
  | none, .qualified => none
  | none, _ => some (str (name.bytes.drop (namespaceLen name.bytes)))

/-- The steps of a script: `define()` with two literals, `const`, a read, and what a read is
replaced by. -/
inductive ConstOp (V : Type)
  | define (name : List UInt8) (value : V)
  | declare (name : List UInt8) (value : V)
  | fetch (name : ReadName) (flags : FetchFlags)
  | literal (value : V)

/-- `define` refuses the names of class constants. -/
def isClassName (name : List UInt8) : Bool :=
  [byte ':', byte ':'] <:+: name

/-- What the reads yield, up to the end of the script or to an error. -/
def execute (str : List UInt8 → V) : List (ConstOp V) → ZendConstants V → List (Option V)
  | [], _ => []
  | .define name value :: ops, table =>
    execute str ops (if isClassName name then table else zendRegisterConstant table name value)
  | .declare name value :: ops, table => execute str ops (zendRegisterConstant table name value)
  | .fetch name flags :: ops, table =>
    match fetchConstant str table name flags with
    | some v => some v :: execute str ops table
    | none => [none]
  | .literal v :: ops, table => some v :: execute str ops table

/-- `zend_optimizer_collect_constant` -/
def zendOptimizerCollectConstant (constants : List UInt8 → Option V) (name : List UInt8)
    (value : V) : List UInt8 → Option V :=
  if (constants name).isSome then constants else update constants name (some value)

/-- Pass 1 on the steps; the reads that `zend_get_persistent_constant` answers are left alone. -/
def pass1 (persistent : List UInt8 → Bool) :
    List (ConstOp V) → (List UInt8 → Option V) → List (ConstOp V)
  | [], _ => []
  | .define name value :: ops, constants =>
    .define name value :: pass1 persistent ops (zendOptimizerCollectConstant constants name value)
  | .declare name value :: ops, constants =>
    .declare name value :: pass1 persistent ops (zendOptimizerCollectConstant constants name value)
  | .fetch name flags :: ops, constants =>
    (match constants name.bytes with
      | some v => if persistent name.bytes then .fetch name flags else .literal v
      | none => .fetch name flags) :: pass1 persistent ops constants
  | .literal v :: ops, constants => .literal v :: pass1 persistent ops constants

/-- The value of the first definition of a name. -/
def firstValue (defs : List (List UInt8 × V)) (name : List UInt8) : Option V :=
  (defs.find? (·.1 = name)).map Prod.snd

/-- The constants behind definitions: what was there at the start, then the first ones. -/
def known (start : ZendConstants V) (defs : List (List UInt8 × V)) : ZendConstants V := fun key =>
  (start key).or ((defs.find? fun d => registeredName d.1 = key ∧ key ≠ haltOffset).map fun d =>
    ⟨d.2, true⟩)

/-- Wherever the script reads a name that it has defined, the constant with the registered name of
it, at the start or in the script, has the value of that definition. -/
def DefinedFirst (str : List UInt8 → V) (persistent : List UInt8 → Bool)
    (start : ZendConstants V) : List (ConstOp V) → List (List UInt8 × V) → Prop
  | [], _ => True
  | .define name value :: ops, defs => DefinedFirst str persistent start ops
      (if isClassName name then defs else defs ++ [(name, value)])
  | .declare name value :: ops, defs =>
    DefinedFirst str persistent start ops (defs ++ [(name, value)])
  | .fetch name flags :: ops, defs =>
    (persistent name.bytes = false → ∀ v, firstValue defs name.bytes = some v →
      (known start defs (registeredName name.bytes)).map (·.value) = some v) ∧
    ((fetchConstant str (known start defs) name flags).isSome →
      DefinedFirst str persistent start ops defs)
  | .literal _ :: ops, defs => DefinedFirst str persistent start ops defs

section Proofs

variable {str : List UInt8 → V} {persistent : List UInt8 → Bool} {start : ZendConstants V}
  {defs : List (List UInt8 × V)} {constants : List UInt8 → Option V}

theorem known_snoc (start : ZendConstants V) (defs : List (List UInt8 × V)) (name : List UInt8)
    (value : V) : known start (defs ++ [(name, value)]) =
      zendRegisterConstant (known start defs) name value := by
  funext key
  have hknown : known start (defs ++ [(name, value)]) key = (known start defs key).or
      (if registeredName name = key ∧ key ≠ haltOffset then some ⟨value, true⟩ else none) := by
    rw [known, List.find?_append, Option.map_or, ← Option.or_assoc, known]
    congr 1
    split <;> simp [*]
  rw [hknown, zendRegisterConstant]
  by_cases hkey : registeredName name = key
  · subst hkey
    by_cases hhalt : registeredName name = haltOffset
    · simp [hhalt]
    · cases hc : known start defs (registeredName name) <;> simp [hhalt, hc]
  · rw [if_neg fun h => hkey h.1, Option.or_none]
    split
    · rfl
    · exact (update_of_ne (Ne.symm hkey) _ _).symm

theorem firstValue_snoc (defs : List (List UInt8 × V)) (name n : List UInt8) (value : V) :
    firstValue (defs ++ [(name, value)]) n =
      (firstValue defs n).or (if name = n then some value else none) := by
  rw [firstValue, List.find?_append, Option.map_or, firstValue]
  congr 1
  split <;> simp [*]

/-- What has been collected for the names that can be read. -/
def Collected (constants : List UInt8 → Option V) (defs : List (List UInt8 × V)) : Prop :=
  ∀ n : ReadName, constants n.bytes = firstValue defs n.bytes

theorem Collected.snoc (h : Collected constants defs) (name : List UInt8) (value : V) :
    Collected (zendOptimizerCollectConstant constants name value) (defs ++ [(name, value)]) := by
  intro n
  rw [firstValue_snoc, ← h n, zendOptimizerCollectConstant]
  by_cases hn : name = n.bytes
  · subst hn
    cases hc : constants n.bytes <;> simp [hc]
  · rw [if_neg hn, Option.or_none]
    split
    · rfl
    · exact update_of_ne (Ne.symm hn) _ _

theorem Collected.classConstant (h : Collected constants defs) {name : List UInt8}
    (hname : isClassName name = true) (value : V) :
    Collected (zendOptimizerCollectConstant constants name value) defs := by
  intro n
  have hn : n.bytes ≠ name := by
    rintro rfl
    exact n.noColon ((of_decide_eq_true hname).subset List.mem_cons_self)
  rw [zendOptimizerCollectConstant]
  split
  · exact h n
  · rw [update_of_ne hn, h n]

variable (str start) in
/-- A name that was defined is there under its registered name, which is the first one that a read
looks up. -/
theorem fetchConstant_of_firstValue (name : ReadName) (flags : FetchFlags) {v : V}
    (hv : firstValue defs name.bytes = some v) : ∃ w,
      known start defs (registeredName name.bytes) = some w ∧
        fetchConstant str (known start defs) name flags = some w.value := by
  obtain ⟨w, hw⟩ : ∃ w, known start defs (registeredName name.bytes) = some w := by
    obtain ⟨d, hd, -⟩ := Option.map_eq_some_iff.mp hv
    have hsome : (defs.find? fun d => registeredName d.1 = registeredName name.bytes ∧
        registeredName name.bytes ≠ haltOffset).isSome := by
      have hname := List.find?_some hd
      exact List.find?_isSome.mpr ⟨d, List.mem_of_find?_eq_some hd, by
        simp [of_decide_eq_true hname, name.ordinary]⟩
    refine Option.isSome_iff_exists.mp ?_
    rw [known, Option.isSome_or, Option.isSome_map, hsome, Bool.or_true]
  have hkey : zendStrTolower name.bytes (namespaceLen name.bytes) = registeredName name.bytes := by
    have hnul : name.bytes.takeWhile (· ≠ 0) = name.bytes :=
      List.takeWhile_eq_self_iff.mpr fun b hb => decide_eq_true fun h => name.noNul (h ▸ hb)
    rw [registeredName, hnul]
  refine ⟨w, hw, ?_⟩
  simp only [fetchConstant, zendQuickGetConstant, hkey, hw]
  cases flags <;> rfl

theorem execute_pass1_iff (ops : List (ConstOp V)) (h : Collected constants defs) :
    execute str (pass1 persistent ops constants) (known start defs) =
      execute str ops (known start defs) ↔ DefinedFirst str persistent start ops defs := by
  induction ops generalizing constants defs with
  | nil => exact iff_of_true rfl trivial
  | cons op ops ih =>
    cases op with
    | define name value =>
      simp only [pass1, execute, DefinedFirst]
      cases hname : isClassName name with
      | true => exact ih (h.classConstant hname value)
      | false =>
        simp only [Bool.false_eq_true, if_false, ← known_snoc]
        exact ih (h.snoc name value)
    | declare name value =>
      simp only [pass1, execute, DefinedFirst, ← known_snoc]
      exact ih (h.snoc name value)
    | literal v =>
      simp only [pass1, execute, DefinedFirst, List.cons.injEq, true_and]
      exact ih h
    | fetch name flags =>
      -- a read that stays yields the same in both scripts
      have hsame (hstays : persistent name.bytes = false → firstValue defs name.bytes = none) :
          execute str (.fetch name flags :: pass1 persistent ops constants) (known start defs) =
            execute str (.fetch name flags :: ops) (known start defs) ↔
          DefinedFirst str persistent start (.fetch name flags :: ops) defs := by
        simp only [execute, DefinedFirst]
        rw [and_iff_right fun hp v hv => absurd (hv.symm.trans (hstays hp)) (by simp)]
        cases fetchConstant str (known start defs) name flags with
        | none => simp
        | some v => simpa using ih h
      cases hvalue : firstValue defs name.bytes with
      | none =>
        rw [pass1, h name, hvalue]
        exact hsame fun _ => hvalue
      | some v =>
        rw [pass1, h name, hvalue]
        cases hp : persistent name.bytes with
        | true => exact hsame fun hfalse => by simp [hp] at hfalse
        | false =>
          obtain ⟨w, hw, hfetch⟩ := fetchConstant_of_firstValue str start name flags hvalue
          simp only [execute, DefinedFirst, hfetch, hw, hp, hvalue, List.cons.injEq,
            Option.some.injEq, Option.map_some, forall_eq', Option.isSome_some, true_implies,
            Bool.false_eq_true, if_false]
          rw [ih h, eq_comm]

end Proofs

/-- The constant `A` -/
def nameA : ReadName where
  bytes := [byte 'A']
  noColon := by decide
  noNul := by decide
  unrooted := by decide
  ordinary := by decide

end CollectedConstants

end PhpEngine

/-
The serializer.  `var_hash` numbers the zvals and objects it has met; a
number counts the calls before the first meeting, but for those that only
wrote a reference.
-/
import PhpEngine.Unserializer

namespace PhpEngine

/-- The key of `php_add_var_hash`: the address of an object, or of any other
zval. -/
inductive VarId where
  | zval (z : Nat)
  | object (handle : Nat)
deriving Repr, DecidableEq

/-- `buf` is what was written; `varHash` and `count` are the table of the
numbers and its number of elements; `applyCount` is `nApplyCount` of the hash
tables; `cut` records that an array was left out. -/
structure SerState where
  buf : List UInt8
  varHash : VarId → Option Int
  count : Nat
  applyCount : Nat → Nat
  cut : Bool

/-- User code: what the `serialize` handler or `__sleep` of an object does to
the buffer and the numbers. -/
structure SerializeUser where
  handles : Nat → Bool
  run : Nat → SerState → SerState

/-- A length as an `int`. -/
def intOf (n : Nat) : Int :=
  toInt (n % uintMod)

namespace SerState

def append (st : SerState) (bytes : List UInt8) : SerState :=
  { st with buf := st.buf ++ bytes }

def appendText (st : SerState) (text : String) : SerState :=
  st.append (text.toList.map byte)

def appendLong (st : SerState) (n : Int) : SerState :=
  st.append (printLong n)

end SerState

def varId (g : Graph) (z : Nat) : VarId :=
  match (g.zvals z).value with
  | .object handle => .object handle
  | _ => .zval z

/-- `php_add_var_hash`: the number that the zval had already, if any. -/
def phpAddVarHash (g : Graph) (z : Nat) (st : SerState) : Option Int × SerState :=
  match st.varHash (varId g z) with
  | some no =>
    (some no, if (g.zvals z).isRef then st
      else { st with count := st.count + 1 })
  | none =>
    (none, { st with
      varHash := Function.update st.varHash (varId g z) (some (intOf st.count + 1))
      count := st.count + 1 })

/-- `php_var_serialize_long`. -/
def phpVarSerializeLong (n : Int) (st : SerState) : SerState :=
  ((st.appendText "i:").appendLong n).appendText ";"

/-- `php_var_serialize_string`. -/
def phpVarSerializeString (str : List UInt8) (st : SerState) : SerState :=
  ((((st.appendText "s:").appendLong (intOf str.length)).appendText
    ":\"").append str).appendText "\";"

def magicMember : List UInt8 :=
  "__PHP_Incomplete_Class_Name".toList.map byte

/-- `PHP_SET_CLASS_ATTRIBUTES`: the name, and whether the class is the
incomplete one. -/
def classAttributes (g : Graph) (handle : Nat) : List UInt8 × Bool :=
  let o := g.objects handle
  if o.ce = incompleteClass then
    match (g.tables o.properties).find (.string (magicMember ++ [0])) with
    | some z =>
      match (g.zvals z).value with
      | .string name => (name, true)
      | _ => (incompleteClass.name, true)
    | none => (incompleteClass.name, true)
  else (o.ce.name, false)

/-- `php_var_serialize_class_name`. -/
def phpVarSerializeClassName (name : List UInt8) (st : SerState) : SerState :=
  ((((st.appendText "O:").appendLong (intOf name.length)).appendText
    ":\"").append name).appendText "\":"

def serializeKey : HashKey → SerState → SerState
  | .long h, st => phpVarSerializeLong (toLong h) st
  | .string key, st => phpVarSerializeString (key.take (key.length - 1)) st

/-- The table of an array zval. -/
def arrayTable (g : Graph) (z : Nat) : Option Nat :=
  match (g.zvals z).value with
  | .array t => some t
  | _ => none

/-- An element.  An array that is being serialized as an element twice
already is written as null. -/
def serializeElement (g : Graph)
    (call : Nat → SerState → Option SerState) (z : Nat) (st : SerState) : Option SerState :=
  match arrayTable g z with
  | none => call z st
  | some t =>
    if 1 < st.applyCount t then
      some { st.appendText "N;" with cut := true }
    else do
      let st ← call z { st with
        applyCount := Function.update st.applyCount t (st.applyCount t + 1) }
      return { st with
        applyCount := Function.update st.applyCount t (st.applyCount t - 1) }

/-- The loop over a table; the magic member of an incomplete object is
skipped. -/
def serializeElements (g : Graph) (call : Nat → SerState → Option SerState) (incomplete : Bool) :
    List (HashKey × Nat) → SerState → Option SerState
  | [], st => some st
  | item :: rest, st =>
    if incomplete ∧ item.1 = .string (magicMember ++ [0]) then
      serializeElements g call incomplete rest st
    else do
      let st ← serializeElement g call item.2 (serializeKey item.1 st)
      serializeElements g call incomplete rest st

/-- The count, the elements and the braces. -/
def serializeTable (g : Graph) (call : Nat → SerState → Option SerState)
    (incomplete : Bool) (t : Nat) (st : SerState) : Option SerState := do
  let items := (g.tables t).items
  let n := intOf items.length
  let i := if 0 < n ∧ incomplete then n - 1 else n
  let st := (st.appendLong i).appendText ":\x7b"
  let st ← if 0 < i then serializeElements g call incomplete items st
    else some st
  return st.appendText "\x7d"

section Serialize

variable (g : Graph) (user : SerializeUser)

/-- `php_var_serialize_intern`; `fuel` bounds the depth of the nesting. -/
def phpVarSerializeIntern : Nat → Nat → SerState → Option SerState
  | 0, _, _ => none
  | fuel + 1, z, st =>
    let seen := (phpAddVarHash g z st).1
    let st := (phpAddVarHash g z st).2
    match seen, (g.zvals z).isRef, (g.zvals z).value with
    | some no, true, _ =>
      some (((st.appendText "R:").appendLong no).appendText ";")
    | some no, false, .object _ =>
      some (((st.appendText "r:").appendLong no).appendText ";")
    | _, _, .bool b =>
      some (((st.appendText "b:").appendLong (if b then 1 else 0)).appendText ";")
    | _, _, .null => some (st.appendText "N;")
    | _, _, .long n => some (phpVarSerializeLong n st)
    | _, _, .double text =>
      some (((st.appendText "d:").append text).appendText ";")
    | _, _, .string str => some (phpVarSerializeString str st)
    | _, _, .object handle =>
      if user.handles handle then
        some { user.run handle st with cut := st.cut }
      else
        let name := classAttributes g handle
        serializeTable g (phpVarSerializeIntern fuel) name.2 (g.objects handle).properties
          (phpVarSerializeClassName name.1 st)
    | _, _, .array t =>
      serializeTable g (phpVarSerializeIntern fuel) false t (st.appendText "a:")

end Serialize

def serializeStart : SerState :=
  ⟨[], fun _ => none, 0, fun _ => 0, false⟩

end PhpEngine

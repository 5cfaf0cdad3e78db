/-
The unserializer.  It reads a buffer that is followed by a NUL byte; what
stands behind that is not known, so the memory is a function on all
positions.  Zvals, hash tables and objects have identities, since slots and
references share them.
-/
import PhpEngine.Decimal
import PhpEngine.OrderedMap

namespace PhpEngine

open Function

/-! The slot table, in chunks of `VAR_ENTRIES_MAX` entries. -/

def varEntriesMax : Nat := 1024

def varPush : List (List Nat) → Nat → List (List Nat)
  | [], z => [[z]]
  | [last], z =>
    if last.length = varEntriesMax then [last, [z]] else [last ++ [z]]
  | chunk :: next :: rest, z => chunk :: varPush (next :: rest) z

def varAccess : List (List Nat) → Int → Option Nat
  | [], _ => none
  | chunk :: rest, id =>
    if (varEntriesMax : Int) ≤ id ∧ chunk.length = varEntriesMax then
      varAccess rest (id - varEntriesMax)
    else if id < 0 ∨ (chunk.length : Int) ≤ id then none
    else chunk[id.toNat]?

/-! The values that are built. -/

/-- The value of a zval.  A double is given by the text it was read from. -/
inductive UValue where
  | null
  | bool (b : Bool)
  | long (n : Int)
  | double (text : List UInt8)
  | string (bytes : List UInt8)
  | array (table : Nat)
  | object (handle : Nat)
deriving Repr, DecidableEq

structure UZval where
  value : UValue
  isRef : Bool
deriving Repr, DecidableEq

/-- What the unserializer asks of a class: whether it has the two handlers,
`__wakeup`, can be instantiated, and its default properties. -/
structure ClassEntry where
  name : List UInt8
  serialize : Bool
  unserialize : Bool
  wakeup : Bool
  abstract : Bool
  defaults : List (List UInt8 × Nat)
deriving Repr, DecidableEq

structure UObject where
  ce : ClassEntry
  properties : Nat

/-- A record of the run: a call of `php_var_unserialize` at a position, with
or without `var_hash`; its successful return; and a byte that is looked at
behind an element. -/
inductive Event where
  | called (start : Nat) (hash : Bool)
  | returned (start stop : Nat)
  | looked (position : Nat)
deriving Repr, DecidableEq

/-- A graph of values. -/
structure Graph where
  zvals : Nat → UZval
  tables : Nat → OrderedMap Nat
  objects : Nat → UObject

/-- `p` is `*p`; `next` is the next identity to be given out; `trace` is the
history of the run. -/
structure UState extends Graph where
  p : Nat
  slots : List (List Nat)
  next : Nat
  trace : List Event

inductive Lookup where
  | exception
  | found (ce : ClassEntry)
  | incomplete

/-- User code that runs during the parse: the class lookup with its autoloader
and `unserialize_callback_func`, the `unserialize` handlers and `__wakeup`.
What it does is given for the position of the token that makes it run; the
parse comes to a position once. -/
structure UserCode where
  lookupClass : Nat → List UInt8 → Lookup
  unserialize : Nat → UState → Option UState
  wakeup : Nat → UState → UState
  wakeupThrows : Nat → Bool

namespace UState

def note (s : UState) (e : Event) : UState :=
  { s with trace := e :: s.trace }

def pushSlot (s : UState) (z : Nat) : UState :=
  { s with slots := varPush s.slots z }

def setZval (s : UState) (z : Nat) (v : UZval) : UState :=
  { s with zvals := update s.zvals z v }

def setTable (s : UState) (t : Nat) (m : OrderedMap Nat) : UState :=
  { s with tables := update s.tables t m }

/-- `ALLOC_INIT_ZVAL`; the new zval is `s.next`. -/
def allocZval (s : UState) : UState :=
  { s with
    zvals := update s.zvals s.next ⟨.null, false⟩
    next := s.next + 1 }

/-- `INIT_PZVAL` and `array_init_size`. -/
def arrayInit (s : UState) (z : Nat) : UState :=
  { s with
    zvals := update s.zvals z ⟨.array s.next, false⟩
    tables := update s.tables s.next OrderedMap.empty
    next := s.next + 1 }

/-- The property table of a new object: the defaults of its class. -/
def defaultProperties (ce : ClassEntry) : OrderedMap Nat :=
  ce.defaults.foldl (fun m d => m.store (.string (d.1 ++ [0])) d.2) OrderedMap.empty

/-- `object_init_ex`; the object and its property table are new. -/
def objectInit (s : UState) (z : Nat) (ce : ClassEntry) : UState :=
  { s with
    zvals := update s.zvals z ⟨.object s.next, false⟩
    objects := update s.objects s.next ⟨ce, s.next⟩
    tables := update s.tables s.next (defaultProperties ce)
    next := s.next + 1 }

/-- User code has no access to the cursor. -/
def afterUser (s s' : UState) : UState :=
  { s' with p := s.p, trace := s.trace }

end UState

/-- What a call leaves: its answer, `*rval` and the state. -/
structure Ret where
  ok : Bool
  rval : Nat
  s : UState

/-! The scanner.  Every pattern ends in a byte that is no digit, so the
longest match is the only one. -/

section Scanner

variable (mem : Nat → UInt8) (max : Nat)

/-- `[+-]?`. -/
def skipSign (c : Nat) : Nat :=
  if mem c = byte '-' ∨ mem c = byte '+' then c + 1 else c

/-- `[+]?`. -/
def skipPlus (c : Nat) : Nat :=
  if mem c = byte '+' then c + 1 else c

/-- Behind the digits that start at `c`. -/
def digitsEnd (c : Nat) : Nat :=
  (scanDigits mem ulongMod (max - c) c 0).2

/-- `parse_iv2`: the value, and the position behind the number. -/
def parseIv2 (c : Nat) : Int × Nat :=
  let r := scanDigits mem ulongMod (max - skipSign mem c) (skipSign mem c) 0
  (toLong (if mem c = byte '-' then (ulongMod - r.1) % ulongMod else r.1), r.2)

def parseIv (c : Nat) : Int :=
  (parseIv2 mem max c).1

def parseUiv (c : Nat) : Nat :=
  (scanDigits mem ulongMod (max - skipPlus mem c) (skipPlus mem c) 0).1

/-- `[0-9]+` at `c`. -/
def matchDigits (c : Nat) : Option Nat :=
  if c < digitsEnd mem max c then some (digitsEnd mem max c) else none

def matchIv (c : Nat) : Option Nat :=
  matchDigits mem max (skipSign mem c)

def matchUiv (c : Nat) : Option Nat :=
  matchDigits mem max (skipPlus mem c)

/-- `iv | nv` at `c`: digits with at most one point, and at least one
digit. -/
def matchMantissa (c : Nat) : Option Nat :=
  let c := skipSign mem c
  let e := digitsEnd mem max c
  if mem e = byte '.' then
    let f := digitsEnd mem max (e + 1)
    if c < e ∨ e + 1 < f then some f else none
  else if c < e then some e else none

/-- `iv | nv | nvexp` at `c`; the exponent may have two signs. -/
def matchNumber (c : Nat) : Option Nat := do
  let e ← matchMantissa mem max c
  if mem e = byte 'e' ∨ mem e = byte 'E' then
    matchIv mem max (skipSign mem (e + 1))
  else return e

/-- A fixed text at `c`. -/
def matchText (c : Nat) (text : String) : Option Nat :=
  let bytes := text.toList.map byte
  if HoldsAt mem c bytes then some (c + bytes.length) else none

/-- `NAN | "-"? INF | iv | nv | nvexp`. -/
def matchDouble (c : Nat) : Option Nat :=
  matchText mem c "NAN" <|> matchText mem c "INF" <|>
    matchText mem c "-INF" <|> matchNumber mem max c

inductive Token where
  | refTo
  | copyOf
  | null
  | bool
  | long
  | double
  | string
  | escaped
  | array
  | oldObject
  | object
  | custom
deriving Repr, DecidableEq

/-- Tag, colon, body and closing text. -/
def lexBody (start : Nat) (body : Nat → Option Nat) (close : String) : Option Nat := do
  let c ← matchText mem (start + 1) ":"
  let e ← body c
  matchText mem e close

/-- The token at `start` with the position behind it; no token for `any` and
for a closing brace, which both answer 0. -/
def lexToken (start : Nat) : Option (Token × Nat) :=
  let tag := mem start
  let lex := lexBody mem start
  let iv := matchIv mem max
  let uiv := matchUiv mem max
  let zeroOne := fun c =>
    if mem c = byte '0' ∨ mem c = byte '1' then some (c + 1) else none
  if tag = byte 'R' then (lex iv ";").map (Token.refTo, ·)
  else if tag = byte 'r' then (lex iv ";").map (Token.copyOf, ·)
  else if tag = byte 'N' then
    (matchText mem (start + 1) ";").map (Token.null, ·)
  else if tag = byte 'b' then (lex zeroOne ";").map (Token.bool, ·)
  else if tag = byte 'i' then (lex iv ";").map (Token.long, ·)
  else if tag = byte 'd' then
    (lex (matchDouble mem max) ";").map (Token.double, ·)
  else if tag = byte 's' then (lex uiv ":\"").map (Token.string, ·)
  else if tag = byte 'S' then (lex uiv ":\"").map (Token.escaped, ·)
  else if tag = byte 'a' then (lex uiv ":\x7b").map (Token.array, ·)
  else if tag = byte 'o' then (lex iv ":\"").map (Token.oldObject, ·)
  else if tag = byte 'O' then (lex uiv ":\"").map (Token.object, ·)
  else if tag = byte 'C' then (lex uiv ":\"").map (Token.custom, ·)
  else none

end Scanner

/-- `ZEND_HANDLE_NUMERIC_EX` on a key without its NUL: the index that a string
like an integer stands for. -/
def handleNumeric (key : List UInt8) : Option Nat :=
  let neg := key.head? = some (byte '-')
  let digits := if neg then key.tail else key
  if digits = [] ∨ ¬ digits.all isDigit then none
  else if digits.head? = some (byte '0') ∧ 1 < key.length then none
  else if 19 < digits.length then none
  else
    let idx := digits.foldl (fun idx b => idx * 10 + digitValue b) 0
    if neg then
      if longMax < (idx + (ulongMod - 1)) % ulongMod then none
      else some ((ulongMod - idx) % ulongMod)
    else if longMax < idx then none
    else some idx

/-- The key under which `zend_symtable_update` stores a string. -/
def symtableKey (key : List UInt8) : HashKey :=
  match handleNumeric key with
  | some idx => .long idx
  | none => .string (key ++ [0])

/-- The characters of a class name. -/
def isNameByte (b : UInt8) : Bool :=
  isDigit b || b == byte '_' || (byte 'a' ≤ b && b ≤ byte 'z') ||
    (byte 'A' ≤ b && b ≤ byte 'Z') || 127 ≤ b || b == byte '\\'

def hexValue (b : UInt8) : Option Nat :=
  if byte '0' ≤ b ∧ b ≤ byte '9' then some (b.toNat - 48)
  else if byte 'a' ≤ b ∧ b ≤ byte 'f' then some (b.toNat - 97 + 10)
  else if byte 'A' ≤ b ∧ b ≤ byte 'F' then some (b.toNat - 65 + 10)
  else none

def readBytes (mem : Nat → UInt8) (c len : Nat) : List UInt8 :=
  (List.range len).map fun i => mem (c + i)

section Actions

variable (user : UserCode) (mem : Nat → UInt8) (max : Nat)

/-- `unserialize_str`: `len` characters, each a byte or an escape. -/
def unserializeStr (stop : Nat) : Nat → Nat → List UInt8 → Option (List UInt8 × Nat)
  | 0, c, acc => some (acc.reverse, c)
  | len + 1, c, acc =>
    if stop ≤ c then none
    else if mem c ≠ byte '\\' then
      unserializeStr stop len (c + 1) (mem c :: acc)
    else do
      let high ← hexValue (mem (c + 1))
      let low ← hexValue (mem (c + 2))
      unserializeStr stop len (c + 3) (UInt8.ofNat (high * 16 + low) :: acc)

/-- The actions of `R:` and `r:`.  Only the second refuses its own slot. -/
def unserializeRef (isRef : Bool) (start cursor rval : Nat) (hash : Bool) (s : UState) : Ret :=
  let s := { s with p := cursor }
  if !hash then ⟨false, rval, s⟩
  else
    let id := parseIv mem max (start + 2) - 1
    if id = -1 then ⟨false, rval, s⟩
    else
      match varAccess s.slots id with
      | none => ⟨false, rval, s⟩
      | some target =>
        if !isRef ∧ rval = target then ⟨false, rval, s⟩
        else ⟨true, target, s.setZval target { s.zvals target with isRef := isRef }⟩

/-- A scalar is stored in the zval that was given. -/
def unserializeScalar (value : UValue) (cursor rval : Nat) (s : UState) : Ret :=
  ⟨true, rval, { s with p := cursor }.setZval rval ⟨value, false⟩⟩

/-- The action of `s:`.  The byte behind the closing quote is skipped. -/
def unserializeString (start cursor rval : Nat) (s : UState) : Ret :=
  let len := parseUiv mem max (start + 2)
  if max - cursor < len then ⟨false, rval, { s with p := start + 2 }⟩
  else if mem (cursor + len) ≠ byte '"' then
    ⟨false, rval, { s with p := cursor + len }⟩
  else
    unserializeScalar (.string (readBytes mem cursor len)) (cursor + len + 2) rval s

/-- The action of `S:`. -/
def unserializeEscaped (start cursor rval : Nat) (s : UState) : Ret :=
  let len := parseUiv mem max (start + 2)
  if max - cursor < len then ⟨false, rval, { s with p := start + 2 }⟩
  else
    match unserializeStr mem max len cursor [] with
    | none => ⟨false, rval, s⟩
    | some (str, c) =>
      if mem c ≠ byte '"' then ⟨false, rval, { s with p := c }⟩
      else unserializeScalar (.string str) (c + 2) rval s

/-- The key under which an element is stored, if it can be a key. -/
def elementKey (objprops : Bool) : UValue → Option HashKey
  | .long n =>
    if objprops then some (.string (printLong n ++ [0]))
    else some (.long (n % (ulongMod : Int)).toNat)
  | .string bytes =>
    if objprops then some (.string (bytes ++ [0]))
    else some (symtableKey bytes)
  | _ => none

/-- `process_nested_data` with `call` as `php_var_unserialize`. -/
def processNestedData (call : Nat → Bool → UState → Option Ret) (ht : Nat)
    (objprops : Bool) : Nat → UState → Option (Bool × UState)
  | 0, s => some (true, s)
  | elements + 1, s => do
      let key ← call s.next false s.allocZval
      if !key.ok then return (false, key.s)
      match elementKey objprops (key.s.zvals key.rval).value with
      | none => return (false, key.s)
      | some k =>
        let data ← call key.s.next true key.s.allocZval
        if !data.ok then return (false, data.s)
        let s := data.s.setTable ht ((data.s.tables ht).store k data.rval)
        if 0 < elements then
          let s := s.note (.looked (s.p - 1))
          if mem (s.p - 1) ≠ byte ';' ∧ mem (s.p - 1) ≠ byte '\x7d' then
            return (false, { s with p := s.p - 1 })
          processNestedData call ht objprops elements s
        else processNestedData call ht objprops elements s

def finishNestedData (s : UState) : Bool × UState :=
  (decide (mem s.p = byte '\x7d'), { s.note (.looked s.p) with p := s.p + 1 })

/-- `object_custom`. -/
def objectCustom (ce : ClassEntry) (start rval : Nat) (s : UState) : Ret :=
  let n := parseIv2 mem max (s.p + 2)
  let s := { s with p := n.2 + 2 }
  if n.1 < 0 ∨ (max : Int) - s.p ≤ n.1 then ⟨false, rval, s⟩
  else
    let s' := if ce.unserialize then
        (user.unserialize start s).map fun s' => s.afterUser s'
      else if ce.abstract then none
      else some (s.objectInit rval ce)
    match s' with
    | none => ⟨false, rval, s⟩
    | some s' =>
      let r := finishNestedData mem { s' with p := s'.p + n.1.toNat }
      ⟨r.1, rval, r.2⟩

/-- `object_common1`: the number of elements, and whether the object was
made.  Two bytes behind the number are skipped. -/
def objectCommon1 (ce : ClassEntry) (rval : Nat) (s : UState) : Int × Bool × UState :=
  let n := parseIv2 mem max (s.p + 2)
  let s := { s with p := n.2 + 2 }
  if ce.serialize then (0, false, s)
  else if ce.abstract then (0, false, s)
  else (n.1, true, s.objectInit rval ce)

/-- `object_common2`. -/
def objectCommon2 (call : Nat → Bool → UState → Option Ret) (ce : ClassEntry)
    (start rval : Nat) (elements : Int) (s : UState) : Option Ret := do
  match (s.zvals rval).value with
  | .object handle =>
    let r ← processNestedData mem call (s.objects handle).properties true elements.toNat s
    if !r.1 then return ⟨false, rval, r.2⟩
    let s := if ce.wakeup then r.2.afterUser (user.wakeup start r.2)
      else r.2
    if ce.wakeup ∧ user.wakeupThrows start then return ⟨false, rval, s⟩
    let f := finishNestedData mem s
    return ⟨f.1, rval, f.2⟩
  | _ => return ⟨false, rval, s⟩

/-- `php_store_class_name`. -/
def storeClassName (rval : Nat) (name : List UInt8) (s : UState) : UState :=
  match (s.zvals rval).value with
  | .object handle =>
    let t := (s.objects handle).properties
    let key := ("__PHP_Incomplete_Class_Name".toList.map byte) ++ [0]
    { (s.setTable t ((s.tables t).store (.string key) s.next)).setZval
        s.next ⟨.string name, false⟩ with next := s.next + 1 }
  | _ => s

end Actions

/-- `PHP_IC_ENTRY`. -/
def incompleteClass : ClassEntry :=
  ⟨"__PHP_Incomplete_Class".toList.map byte, false, false, false, false, []⟩

/-- `ZEND_STANDARD_CLASS_DEF_PTR`. -/
def standardClass : ClassEntry :=
  ⟨"stdClass".toList.map byte, false, false, false, false, []⟩

section Unserialize

variable (user : UserCode) (mem : Nat → UInt8) (max : Nat)

/-- The header of `O:` and `C:` behind the opening quote: the class name, or
where the cursor is left. -/
def objectHeader (start cursor : Nat) : Except Nat (List UInt8) :=
  let len := parseUiv mem max (start + 2)
  if max - cursor < len ∨ len = 0 then .error (start + 2)
  else if mem (cursor + len) ≠ byte '"' then .error (cursor + len)
  else if mem (cursor + len + 1) ≠ byte ':' then .error (cursor + len + 1)
  else
    let name := readBytes mem cursor len
    let len3 := (name.takeWhile isNameByte).length
    if len3 ≠ len then .error (cursor + len3) else .ok name

/-- The class that a name stands for, and whether it is known. -/
def classOf (start : Nat) (name : List UInt8) : Option (ClassEntry × Bool) :=
  match user.lookupClass start name with
  | .exception => none
  | .found ce => some (ce, true)
  | .incomplete => some (incompleteClass, false)

/-- The action of `O:` and `C:`. -/
def unserializeObject (call : Nat → Bool → UState → Option Ret)
    (custom : Bool) (start cursor rval : Nat) (s : UState) : Option Ret :=
  let s := s.setZval rval { s.zvals rval with isRef := false }
  match objectHeader mem max start cursor with
  | .error c => some ⟨false, rval, { s with p := c }⟩
  | .ok name =>
    match classOf user start name with
    | none => some ⟨false, rval, s⟩
    | some (ce, known) =>
      let s := { s with p := cursor + name.length }
      if custom then
        let r := objectCustom user mem max ce start rval s
        if r.ok ∧ !known then
          some { r with s := storeClassName rval name r.s }
        else some r
      else
        let c := objectCommon1 mem max ce rval s
        let s := if known then c.2.2 else storeClassName rval name c.2.2
        if c.2.1 then
          objectCommon2 user mem call ce start rval c.1 s
        else some ⟨false, rval, s⟩

/-- The actions, with `call` for the recursive calls. -/
def unserializeToken (call : Nat → Bool → UState → Option Ret)
    (start rval : Nat) (hash : Bool) (s : UState) : Option Ret :=
  match lexToken mem max start with
  | none => some ⟨false, rval, s⟩
  | some (token, cursor) =>
    match token with
    | .refTo => some (unserializeRef mem max true start cursor rval hash s)
    | .copyOf => some (unserializeRef mem max false start cursor rval hash s)
    | .null => some (unserializeScalar .null cursor rval s)
    | .bool =>
      some (unserializeScalar (.bool (parseIv mem max (start + 2) ≠ 0)) cursor rval s)
    | .long =>
      some (unserializeScalar (.long (parseIv mem max (start + 2))) cursor rval s)
    | .double =>
      some (unserializeScalar (.double (readBytes mem (start + 2)
        (cursor - 1 - (start + 2)))) cursor rval s)
    | .string => some (unserializeString mem max start cursor rval s)
    | .escaped => some (unserializeEscaped mem max start cursor rval s)
    | .array =>
      let elements := parseIv mem max (start + 2)
      let s := { s with p := cursor }
      if !hash ∨ elements < 0 then some ⟨false, rval, s⟩
      else do
        let r ← processNestedData mem call s.next false elements.toNat (s.arrayInit rval)
        if !r.1 then return ⟨false, rval, r.2⟩
        let f := finishNestedData mem r.2
        return ⟨f.1, rval, f.2⟩
    | .oldObject =>
      -- `*p` is still at the start, so the number read is this one.
      if !hash then some ⟨false, rval, s⟩
      else
        let c := objectCommon1 mem max standardClass rval s
        objectCommon2 user mem call standardClass start rval c.1 c.2.2
    | .object =>
      if !hash then some ⟨false, rval, s⟩
      else unserializeObject user mem max call false start cursor rval s
    | .custom =>
      if !hash then some ⟨false, rval, s⟩
      else unserializeObject user mem max call true start cursor rval s

/-- `php_var_unserialize`; `fuel` bounds the depth of the nesting and `hash`
says whether `var_hash` is given. -/
def phpVarUnserialize : Nat → Nat → Bool → UState → Option Ret
  | 0, _, _, _ => none
  | fuel + 1, rval, hash, s =>
    if max ≤ s.p then some ⟨false, rval, s⟩
    else do
      let start := s.p
      let s := s.note (.called start hash)
      let s := if hash ∧ mem start ≠ byte 'R' then s.pushSlot rval else s
      let r ← unserializeToken user mem max (phpVarUnserialize fuel) start rval hash s
      if r.ok then
        return { r with s := r.s.note (.returned start r.s.p) }
      else return r

end Unserialize

end PhpEngine

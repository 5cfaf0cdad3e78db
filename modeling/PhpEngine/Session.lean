/-
The session handlers `php` and `php_binary`: the variables of `$_SESSION` one
behind the other, each with its name in front.  One table of numbers, and one
table of slots, serves for all of them.
-/
import PhpEngine.Serializer

namespace PhpEngine

inductive PsHandler where
  | php
  | phpBinary
deriving Repr, DecidableEq

/-- `FAILURE`, and the fuel of the recursive functions running out. -/
inductive PsStop where
  | failure
  | noFuel
deriving Repr, DecidableEq

/-- `PS_DELIMITER`. -/
def psDelimiter : UInt8 := byte '|'

/-- `PS_UNDEF_MARKER`. -/
def psUndefMarker : UInt8 := byte '!'

/-- `PS_BIN_UNDEF`. -/
def psBinUndef : UInt8 := 128

/-- `PS_BIN_MAX`. -/
def psBinMax : Nat := 127

/-- `php_get_session_var`. -/
def phpGetSessionVar (vars : OrderedMap Nat) (name : List UInt8) : Option Nat :=
  vars.find (.string (name ++ [0]))

section Encode

variable (g : Graph) (user : SerializeUser) (fuel : Nat)

/-- `php_var_serialize`. -/
def phpVarSerialize (struc : Nat) (st : SerState) : Except PsStop SerState :=
  match phpVarSerializeIntern g user fuel struc st with
  | some st => .ok st
  | none => .error .noFuel

/-- `PS_ENCODE_LOOP` with the two parts of its argument.  A numeric key is
skipped with a notice. -/
def psEncodeLoop (vars : OrderedMap Nat)
    (code : List UInt8 → Nat → SerState → Except PsStop SerState)
    (undef : List UInt8 → SerState → SerState) :
    List (HashKey × Nat) → SerState → Except PsStop SerState
  | [], st => .ok st
  | (.long _, _) :: rest, st => psEncodeLoop vars code undef rest st
  | (.string key, _) :: rest, st => do
      let name := key.take (key.length - 1)
      let st ← match phpGetSessionVar vars name with
        | some struc => code name struc st
        | none => .ok (undef name st)
      psEncodeLoop vars code undef rest st

/-- The name and the value in the format of `php`. -/
def phpEncodeVar (name : List UInt8) (struc : Nat) (st : SerState) : Except PsStop SerState :=
  let st := st.append name
  if psDelimiter ∈ name ∨ psUndefMarker ∈ name then .error .failure
  else phpVarSerialize g user fuel struc (st.append [psDelimiter])

def phpEncodeUndef (name : List UInt8) (st : SerState) : SerState :=
  ((st.append [psUndefMarker]).append name).append [psDelimiter]

/-- The name and the value in the format of `php_binary`. -/
def phpBinaryEncodeVar (name : List UInt8) (struc : Nat) (st : SerState) : Except PsStop SerState :=
  if psBinMax < name.length then .ok st
  else
    phpVarSerialize g user fuel struc ((st.append [UInt8.ofNat name.length]).append name)

/-- The length is masked with the mark, not joined to it. -/
def phpBinaryEncodeUndef (name : List UInt8) (st : SerState) : SerState :=
  if psBinMax < name.length then st
  else (st.append [UInt8.ofNat name.length &&& psBinUndef]).append name

def psEncodeVar (handler : PsHandler) : List UInt8 → Nat → SerState → Except PsStop SerState :=
  match handler with
  | .php => phpEncodeVar g user fuel
  | .phpBinary => phpBinaryEncodeVar g user fuel

def psEncodeUndef (handler : PsHandler) : List UInt8 → SerState → SerState :=
  match handler with
  | .php => phpEncodeUndef
  | .phpBinary => phpBinaryEncodeUndef

/-- `PS_SERIALIZER_ENCODE_FUNC`. -/
def psEncode (handler : PsHandler) (vars : OrderedMap Nat) : Except PsStop SerState :=
  psEncodeLoop vars (psEncodeVar g user fuel handler) (psEncodeUndef handler)
    vars.items serializeStart

end Encode

/-- The table of `EG(symbol_table)` and the zval `PS(http_session_vars)`. -/
structure SessionGlobals where
  symbolTable : Nat
  httpSessionVars : Nat
deriving Repr

/-- The values, and the array of `PS(http_session_vars)`. -/
structure SessionState where
  heap : UState
  vars : OrderedMap Nat

section Decode

variable (eg : SessionGlobals) (user : UserCode) (mem : Nat → UInt8) (endptr fuel : Nat)

/-- A name that leads to the symbol table itself or to the session array. -/
def isProtected (s : UState) (name : List UInt8) : Bool :=
  match (s.tables eg.symbolTable).find (.string (name ++ [0])) with
  | some tmp => decide ((s.zvals tmp).value = .array eg.symbolTable ∨ tmp = eg.httpSessionVars)
  | none => false

/-- `php_set_session_var`. -/
def phpSetSessionVar (name : List UInt8) (stateVal : Nat) (s : SessionState) : SessionState :=
  { s with vars := s.vars.store (.string (name ++ [0])) stateVal }

/-- `php_add_session_var`: null for a name without a value. -/
def phpAddSessionVar (name : List UInt8) (s : SessionState) : SessionState :=
  match phpGetSessionVar s.vars name with
  | some _ => s
  | none => phpSetSessionVar name s.heap.next { s with heap := s.heap.allocZval }

/-- The value behind a name. -/
def psDecodeVar (name : List UInt8) (hasValue : Bool) (s : SessionState) :
    Except PsStop SessionState := do
  if hasValue then
    match phpVarUnserialize user mem endptr fuel s.heap.next true s.heap.allocZval with
    | none => .error .noFuel
    | some current =>
      if current.ok then
        .ok (phpAddSessionVar name
          (phpSetSessionVar name current.rval { s with heap := current.s }))
      else .error .failure
  else .ok (phpAddSessionVar name s)

/-- The delimiter among the next `n` bytes. -/
def scanDelimiter : Nat → Nat → Option Nat
  | 0, _ => none
  | n + 1, q =>
    if mem q = psDelimiter then some q else scanDelimiter n (q + 1)

/-- The loop of `PS_SERIALIZER_DECODE_FUNC(php)`; `n` bounds its turns. -/
def phpDecodeLoop : Nat → SessionState → Except PsStop SessionState
  | 0, s => if s.heap.p < endptr then .error .noFuel else .ok s
  | n + 1, s =>
    if endptr ≤ s.heap.p then .ok s
    else
      match scanDelimiter mem (endptr - s.heap.p) s.heap.p with
      | none => .ok s
      | some q => do
          let hasValue := mem s.heap.p ≠ psUndefMarker
          let p := if hasValue then s.heap.p else s.heap.p + 1
          let name := readBytes mem p (q - p)
          let s := { s with heap := { s.heap with p := q + 1 } }
          -- `goto skip` leaves the cursor at the value.
          if isProtected eg s.heap name then phpDecodeLoop n s
          else
            let s ← psDecodeVar user mem endptr fuel name hasValue s
            phpDecodeLoop n s

/-- The loop of `PS_SERIALIZER_DECODE_FUNC(php_binary)`. -/
def phpBinaryDecodeLoop : Nat → SessionState → Except PsStop SessionState
  | 0, s => if s.heap.p < endptr then .error .noFuel else .ok s
  | n + 1, s =>
    if endptr ≤ s.heap.p then .ok s
    else
      let namelen := (mem s.heap.p &&& ~~~psBinUndef).toNat
      if psBinMax < namelen ∨ endptr ≤ s.heap.p + namelen then
        .error .failure
      else do
        let hasValue := mem s.heap.p &&& psBinUndef = 0
        let name := readBytes mem (s.heap.p + 1) namelen
        let s := { s with heap := { s.heap with
          p := s.heap.p + namelen + 1 } }
        -- `continue` leaves the cursor at the value.
        if isProtected eg s.heap name then phpBinaryDecodeLoop n s
        else
          let s ← psDecodeVar user mem endptr fuel name hasValue s
          phpBinaryDecodeLoop n s

def psDecodeLoop (handler : PsHandler) : Nat → SessionState → Except PsStop SessionState :=
  match handler with
  | .php => phpDecodeLoop eg user mem endptr fuel
  | .phpBinary => phpBinaryDecodeLoop eg user mem endptr fuel

end Decode

/-- `PS_SERIALIZER_DECODE_FUNC` on the `vallen` bytes from the cursor on.  A
turn takes a byte at least. -/
def psDecode (handler : PsHandler) (eg : SessionGlobals) (user : UserCode)
    (mem : Nat → UInt8) (vallen : Int) (fuel : Nat) (s : SessionState) :
    Except PsStop SessionState :=
  psDecodeLoop eg user mem ((s.heap.p : Int) + vallen).toNat fuel handler vallen.toNat s

end PhpEngine

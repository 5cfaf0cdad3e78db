/-
`parse_JSON_ex` of ext/json: a pushdown automaton over UTF-16 units.  A table
gives for each state and class of characters the next state or an action; the
actions work on a stack of modes and on the value that is built on the way.
-/
import PhpEngine.JsonGrammar
import PhpEngine.Unserializer

namespace PhpEngine.Json

inductive CharClass where
  | space | white | lcurb | rcurb | lsqrb | rsqrb | colon | comma
  | quote | backs | slash | plus | minus | point | zero | digit
  | lowA | lowB | lowC | lowD | lowE | lowF | lowL | lowN
  | lowR | lowS | lowT | lowU | abcdf | e | etc
deriving Repr, DecidableEq

inductive State where
  | GO | OK | OB | KE | CO | VA | AR | ST | ES | U1 | U2 | U3 | U4
  | MI | ZE | IN | FR | E1 | E2 | E3
  | T1 | T2 | T3 | F1 | F2 | F3 | F4 | N1 | N2 | N3
deriving Repr, DecidableEq

/-- An entry of the table: the error code, a state, or an action. -/
inductive Entry where
  | error
  | goto (state : State)
  | colon | comma | endString | openArray | openObject
  | closeArray | closeObject | emptyObject
deriving Repr, DecidableEq

section Tables

open CharClass

/-- `ascii_class`; the control characters without a class are errors. -/
def asciiClass : List (Option CharClass) :=
  List.flatten [[none, none, none, none, none, none, none, none],
     [none, white, white, none, none, white, none, none],
     [none, none, none, none, none, none, none, none],
     [none, none, none, none, none, none, none, none], [space, etc, quote, etc, etc, etc, etc, etc],
     [etc, etc, etc, plus, comma, minus, point, slash],
     [zero, digit, digit, digit, digit, digit, digit, digit],
     [digit, digit, colon, etc, etc, etc, etc, etc],
     [etc, abcdf, abcdf, abcdf, abcdf, e, abcdf, etc], [etc, etc, etc, etc, etc, etc, etc, etc],
     [etc, etc, etc, etc, etc, etc, etc, etc], [etc, etc, etc, lsqrb, backs, rsqrb, etc, etc],
     [etc, lowA, lowB, lowC, lowD, lowE, lowF, etc], [etc, etc, etc, etc, lowL, etc, lowN, etc],
     [etc, etc, lowR, lowS, lowT, lowU, etc, etc], [etc, etc, etc, lcurb, etc, rcurb, etc, etc]]

open State

instance : Coe State Entry := ⟨.goto⟩

/-- `state_transition_table`, a row for each state and a column for each class
in the order of their declarations. -/
def stateTransitionTable : List (List Entry) :=
  let __ := Entry.error
  let n2 := Entry.colon
  let n3 := Entry.comma
  let n4 := Entry.endString
  let n5 := Entry.openArray
  let n6 := Entry.openObject
  let n7 := Entry.closeArray
  let n8 := Entry.closeObject
  let n9 := Entry.emptyObject
  [[GO, GO, n6, __, n5, __, __, __, ST, __, __, __, __, __, __, __,
      __, __, __, __, __, __, __, __, __, __, __, __, __, __, __],
    [OK, OK, __, n8, __, n7, __, n3, __, __, __, __, __, __, __, __,
      __, __, __, __, __, __, __, __, __, __, __, __, __, __, __],
    [OB, OB, __, n9, __, __, __, __, ST, __, __, __, __, __, __, __,
      __, __, __, __, __, __, __, __, __, __, __, __, __, __, __],
    [KE, KE, __, __, __, __, __, __, ST, __, __, __, __, __, __, __,
      __, __, __, __, __, __, __, __, __, __, __, __, __, __, __],
    [CO, CO, __, __, __, __, n2, __, __, __, __, __, __, __, __, __,
      __, __, __, __, __, __, __, __, __, __, __, __, __, __, __],
    [VA, VA, n6, __, n5, __, __, __, ST, __, __, __, MI, __, ZE, IN,
      __, __, __, __, __, F1, __, N1, __, __, T1, __, __, __, __],
    [AR, AR, n6, __, n5, n7, __, __, ST, __, __, __, MI, __, ZE, IN,
      __, __, __, __, __, F1, __, N1, __, __, T1, __, __, __, __],
    [ST, __, ST, ST, ST, ST, ST, ST, n4, ES, ST, ST, ST, ST, ST, ST,
      ST, ST, ST, ST, ST, ST, ST, ST, ST, ST, ST, ST, ST, ST, ST],
    [__, __, __, __, __, __, __, __, ST, ST, ST, __, __, __, __, __,
      __, ST, __, __, __, ST, __, ST, ST, __, ST, U1, __, __, __],
    [__, __, __, __, __, __, __, __, __, __, __, __, __, __, U2, U2,
      U2, U2, U2, U2, U2, U2, __, __, __, __, __, __, U2, U2, __],
    [__, __, __, __, __, __, __, __, __, __, __, __, __, __, U3, U3,
      U3, U3, U3, U3, U3, U3, __, __, __, __, __, __, U3, U3, __],
    [__, __, __, __, __, __, __, __, __, __, __, __, __, __, U4, U4,
      U4, U4, U4, U4, U4, U4, __, __, __, __, __, __, U4, U4, __],
    [__, __, __, __, __, __, __, __, __, __, __, __, __, __, ST, ST,
      ST, ST, ST, ST, ST, ST, __, __, __, __, __, __, ST, ST, __],
    [__, __, __, __, __, __, __, __, __, __, __, __, __, __, ZE, IN,
      __, __, __, __, __, __, __, __, __, __, __, __, __, __, __],
    [OK, OK, __, n8, __, n7, __, n3, __, __, __, __, __, FR, __, __,
      __, __, __, __, E1, __, __, __, __, __, __, __, __, E1, __],
    [OK, OK, __, n8, __, n7, __, n3, __, __, __, __, __, FR, IN, IN,
      __, __, __, __, E1, __, __, __, __, __, __, __, __, E1, __],
    [OK, OK, __, n8, __, n7, __, n3, __, __, __, __, __, __, FR, FR,
      __, __, __, __, E1, __, __, __, __, __, __, __, __, E1, __],
    [__, __, __, __, __, __, __, __, __, __, __, E2, E2, __, E3, E3,
      __, __, __, __, __, __, __, __, __, __, __, __, __, __, __],
    [__, __, __, __, __, __, __, __, __, __, __, __, __, __, E3, E3,
      __, __, __, __, __, __, __, __, __, __, __, __, __, __, __],
    [OK, OK, __, n8, __, n7, __, n3, __, __, __, __, __, __, E3, E3,
      __, __, __, __, __, __, __, __, __, __, __, __, __, __, __],
    [__, __, __, __, __, __, __, __, __, __, __, __, __, __, __, __,
      __, __, __, __, __, __, __, __, T2, __, __, __, __, __, __],
    [__, __, __, __, __, __, __, __, __, __, __, __, __, __, __, __,
      __, __, __, __, __, __, __, __, __, __, __, T3, __, __, __],
    [__, __, __, __, __, __, __, __, __, __, __, __, __, __, __, __,
      __, __, __, __, OK, __, __, __, __, __, __, __, __, __, __],
    [__, __, __, __, __, __, __, __, __, __, __, __, __, __, __, __,
      F2, __, __, __, __, __, __, __, __, __, __, __, __, __, __],
    [__, __, __, __, __, __, __, __, __, __, __, __, __, __, __, __,
      __, __, __, __, __, __, F3, __, __, __, __, __, __, __, __],
    [__, __, __, __, __, __, __, __, __, __, __, __, __, __, __, __,
      __, __, __, __, __, __, __, __, __, F4, __, __, __, __, __],
    [__, __, __, __, __, __, __, __, __, __, __, __, __, __, __, __,
      __, __, __, __, OK, __, __, __, __, __, __, __, __, __, __],
    [__, __, __, __, __, __, __, __, __, __, __, __, __, __, __, __,
      __, __, __, __, __, __, __, __, __, __, __, N2, __, __, __],
    [__, __, __, __, __, __, __, __, __, __, __, __, __, __, __, __,
      __, __, __, __, __, __, N3, __, __, __, __, __, __, __, __],
    [__, __, __, __, __, __, __, __, __, __, __, __, __, __, __, __,
      __, __, __, __, __, __, OK, __, __, __, __, __, __, __, __]]

end Tables

/-- The class of a unit; `none` for a control character. -/
def classOf (nextChar : UInt16) : Option CharClass :=
  if 128 ≤ nextChar.toNat then some .etc
  else (asciiClass[nextChar.toNat]?).join

def tableEntry (state : State) (nextClass : CharClass) : Entry :=
  ((stateTransitionTable[state.ctorIdx]?).bind (·[nextClass.ctorIdx]?)).getD .error

/-- The modes that can be pushed on the stack. -/
inductive Mode where
  | array | done | key | object
deriving Repr, DecidableEq

inductive ErrorCode where
  | none | depth | stateMismatch | ctrlChar | syntaxError | utf8
deriving Repr, DecidableEq

/-- `stack` holds `stack[top]`, `stack[top - 1]`, … down to `stack[0]`. -/
structure Parser where
  state : State
  depth : Nat
  stack : List Mode
deriving Repr, DecidableEq

namespace Parser

/-- The error is the one stored in `error_code`.  A parser whose push has
failed is given up. -/
def push (jp : Parser) (mode : Mode) : Except ErrorCode Parser :=
  if jp.depth ≤ jp.stack.length then .error .depth
  else .ok { jp with stack := mode :: jp.stack }

def pop (jp : Parser) (mode : Mode) : Except ErrorCode Parser :=
  if jp.stack.head? ≠ some mode then .error .stateMismatch
  else .ok { jp with stack := jp.stack.tail }

/-- `new_JSON_parser`, for a positive depth. -/
def new (depth : Nat) : Parser :=
  ⟨.GO, depth, [.done]⟩

end Parser

/-- A PHP value.  A double is the text that `zend_strtod` reads; the keys of
an object are the names of its properties. -/
inductive Zval where
  | null
  | bool (b : Bool)
  | long (n : Int)
  | double (text : List UInt8)
  | string (bytes : List UInt8)
  | array (elements : List (HashKey × Zval))
  | object (properties : List (HashKey × Zval))

structure DecodeOptions where
  objectAsArray : Bool
  bigintAsString : Bool
deriving Repr, DecidableEq

def isNull : Int := 0

def isLong : Int := 1

def isDouble : Int := 2

def isBool : Int := 3

def isString : Int := 6

/-- `dehexchar`, for the characters of the table's classes; -1 otherwise. -/
def dehexchar (c : UInt16) : Int :=
  if unit '0' ≤ c ∧ c ≤ unit '9' then (c.toNat : Int) - 48
  else if unit 'A' ≤ c ∧ c ≤ unit 'F' then (c.toNat : Int) - 55
  else if unit 'a' ≤ c ∧ c ≤ unit 'f' then (c.toNat : Int) - 87
  else -1

def longMinDigits : List UInt8 :=
  "9223372036854775808".toList.map byte

/-- `strtol` on a text of digits whose value is a `long`. -/
def strtol (text : List UInt8) : Int :=
  if text.head? = some (byte '-') then
    -(decimalValue (text.tail.takeWhile isDigit) 0 : Int)
  else (decimalValue (text.takeWhile isDigit) 0 : Int)

/-- Whether a text of digits with an optional sign is too large for a `long`.
-/
def isBigint (buf : List UInt8) : Bool :=
  let neg := buf.head? = some (byte '-')
  let digits := if neg then buf.tail else buf
  if 19 ≤ digits.length then
    if digits.length = 19 then
      !(digits < longMinDigits ∨ (digits = longMinDigits ∧ neg))
    else true
  else false

def jsonCreateZval (buf : List UInt8) (type : Int) (options : DecodeOptions) : Zval :=
  if type = isLong then
    if isBigint buf then
      if options.bigintAsString then .string buf else .double buf
    else .long (strtol buf)
  else if type = isDouble then .double buf
  else if type = isString then .string buf
  else if type = isBool then .bool (buf.head? = some (byte 't'))
  else .null

/-- `utf16_to_utf8`.  The second unit of a surrogate pair finds the first one
in the three bytes that were written for it. -/
def utf16ToUtf8 (buf : List UInt8) (utf16 : UInt16) : List UInt8 :=
  let u := utf16.toNat
  let back := fun k => (buf.getD (buf.length - k) 0).toNat
  if u < 0x80 then buf ++ [UInt8.ofNat u]
  else if u < 0x800 then
    buf ++ [UInt8.ofNat (0xc0 ||| u >>> 6), UInt8.ofNat (0x80 ||| u &&& 0x3f)]
  else if u &&& 0xfc00 = 0xdc00 ∧ 3 ≤ buf.length ∧ back 3 = 0xed ∧
      back 2 &&& 0xf0 = 0xa0 ∧ back 1 &&& 0xc0 = 0x80 then
    let utf32 := ((back 2 &&& 0xf) <<< 16 ||| (back 1 &&& 0x3f) <<< 10 ||| u &&& 0x3ff) + 0x10000
    buf.take (buf.length - 3) ++ [UInt8.ofNat (0xf0 ||| utf32 >>> 18),
        UInt8.ofNat (0x80 ||| utf32 >>> 12 &&& 0x3f),
        UInt8.ofNat (0x80 ||| utf32 >>> 6 &&& 0x3f),
        UInt8.ofNat (0x80 ||| utf32 &&& 0x3f)]
  else
    buf ++ [UInt8.ofNat (0xe0 ||| u >>> 12), UInt8.ofNat (0x80 ||| u >>> 6 &&& 0x3f),
      UInt8.ofNat (0x80 ||| u &&& 0x3f)]

/-- An array or object that is being filled: an element of `the_zstack`, with
the key under which it was attached to the one below. -/
structure Frame where
  isObject : Bool
  table : OrderedMap Zval
  slot : HashKey

def Frame.zval (f : Frame) : Zval :=
  if f.isObject then .object f.table.items else .array f.table.items

/-- How a call ends that does not return true: it returns false with an error
code, or a fatal error of the engine ends the request. -/
inductive Halt where
  | returnFalse (code : ErrorCode)
  | fatalError
deriving Repr, DecidableEq

/-- The local variables of `parse_JSON_ex`; `type` is -1 after
`JSON_RESET_TYPE`.  `zstack` holds `the_zstack[top]` first and ends with
`the_zstack[1]`, which is `z`. -/
structure Config where
  jp : Parser
  type : Int
  buf : List UInt8
  key : List UInt8
  utf16 : UInt16
  zstack : List Frame
  z : Zval

namespace Config

variable (cfg : Config)

def goto (state : State) : Config :=
  { cfg with jp := { cfg.jp with state := state } }

/-- `smart_str_appendc` of a unit that is an ASCII character. -/
def appendc (nextChar : UInt16) : Config :=
  { cfg with buf := cfg.buf ++ [nextChar.toUInt8] }

def appendUtf16 (nextChar : UInt16) : Config :=
  { cfg with buf := utf16ToUtf8 cfg.buf nextChar }

/-- The character that follows a backslash. -/
def appendEscape (nextChar : UInt16) : Config :=
  if nextChar = unit 'b' then cfg.appendc 8
  else if nextChar = unit 't' then cfg.appendc 9
  else if nextChar = unit 'n' then cfg.appendc 10
  else if nextChar = unit 'f' then cfg.appendc 12
  else if nextChar = unit 'r' then cfg.appendc 13
  else cfg.appendUtf16 nextChar

/-- `utf16 += dehexchar(next_char) << shift`. -/
def addHex (utf16 : UInt16) (nextChar : UInt16) (shift : Nat) : Config :=
  { cfg with utf16 := utf16 + UInt16.ofInt (dehexchar nextChar * 2 ^ shift) }

/-- What a change of the state does inside a string. -/
def readInString (nextChar : UInt16) (nextState : State) : Config :=
  if nextState = .ST ∧ cfg.jp.state ≠ .U4 then
    if cfg.jp.state ≠ .ES then cfg.appendUtf16 nextChar
    else cfg.appendEscape nextChar
  else if nextState = .U2 then cfg.addHex 0 nextChar 12
  else if nextState = .U3 then cfg.addHex cfg.utf16 nextChar 8
  else if nextState = .U4 then cfg.addHex cfg.utf16 nextChar 4
  else if nextState = .ST ∧ cfg.jp.state = .U4 then
    let cfg := cfg.addHex cfg.utf16 nextChar 0
    cfg.appendUtf16 cfg.utf16
  else cfg

/-- What a change of the state does elsewhere. -/
def readOutside (nextChar : UInt16) (nextClass : CharClass) (nextState : State) : Config :=
  if cfg.type < isLong ∧ (nextClass = .digit ∨ nextClass = .zero) then
    { cfg with type := isLong }.appendc nextChar
  else if cfg.type = isLong ∧ nextState = .E1 then
    { cfg with type := isDouble }.appendc nextChar
  else if cfg.type < isDouble ∧ nextClass = .point then
    { cfg with type := isDouble }.appendc nextChar
  else if cfg.type < isString ∧ nextClass = .quote then
    { cfg with type := isString }
  else if cfg.type < isBool ∧ nextState = .OK ∧ (cfg.jp.state = .T3 ∨ cfg.jp.state = .F4) then
    { cfg with type := isBool }
  else if cfg.type < isNull ∧ cfg.jp.state = .N3 ∧ nextState = .OK then
    { cfg with type := isNull }
  else if cfg.type ≠ isString ∧ nextClass ≠ .space ∧ nextClass ≠ .white then
    cfg.appendUtf16 nextChar
  else cfg

def changeState (nextChar : UInt16) (nextClass : CharClass) (nextState : State) : Config :=
  let cfg := if cfg.type = isString then cfg.readInString nextChar nextState
    else cfg.readOutside nextChar nextClass nextState
  cfg.goto nextState

/-- Stores under the given key of `the_zstack[top]`. -/
def storeTop (slot : HashKey) (child : Zval) : Config :=
  match cfg.zstack with
  | [] => cfg
  | f :: rest =>
    { cfg with zstack := { f with table := f.table.store slot child } :: rest }

/-- The next free index of `the_zstack[top]`. -/
def nextIndex : HashKey :=
  .long ((cfg.zstack.head?.map fun f => f.table.nextFree).getD 0)

/-- The key under which `the_zstack[top]` takes a value whose name is in
`key`.  The engine does not write a property whose name starts with NUL. -/
def memberSlot (options : DecodeOptions) : Except Halt HashKey :=
  if options.objectAsArray then .ok (symtableKey cfg.key)
  else
    let name := if cfg.key = [] then "_empty_".toList.map byte else cfg.key
    if name.head? = some 0 then .error .fatalError
    else .ok (.string (name ++ [0]))

/-- A finished scalar is added to the object on top. -/
def addMember (options : DecodeOptions) : Except Halt Config := do
  let slot ← cfg.memberSlot options
  let mval := jsonCreateZval cfg.buf cfg.type options
  .ok { cfg.storeTop slot mval with key := [] }

/-- A finished scalar is added to the array on top. -/
def addNextIndex (options : DecodeOptions) : Config :=
  cfg.storeTop cfg.nextIndex (jsonCreateZval cfg.buf cfg.type options)

/-- The empty array or object that becomes `the_zstack[top]`; `attach_zval`
adds it to the one below, according to the mode there. -/
def openFrame (options : DecodeOptions) (isObject : Bool) : Except Halt Config := do
  let (cfg, slot) ← match cfg.jp.stack.tail.head? with
    | some .array => .ok (cfg, cfg.nextIndex)
    | some .object => do
        let slot ← cfg.memberSlot options
        .ok ({ cfg with key := [] }, slot)
    | _ => .ok (cfg, .long 0)
  let f : Frame := ⟨isObject, .empty, slot⟩
  let cfg := cfg.storeTop slot f.zval
  .ok { cfg with zstack := f :: cfg.zstack, type := -1 }

/-- `the_zstack[top]` is complete: it is `z`, or what the one below holds
under its key. -/
def closeFrame : Config :=
  match cfg.zstack with
  | [] => cfg
  | [f] => { cfg with zstack := [], z := f.zval }
  | f :: rest => { cfg with zstack := rest }.storeTop f.slot f.zval

end Config

/-- The error code of a push or pop becomes that of the call. -/
def orReturn (r : Except ErrorCode Parser) : Except Halt Parser :=
  r.mapError .returnFalse

section Actions

variable (options : DecodeOptions)

def emptyObjectAction (cfg : Config) : Except Halt Config := do
  let jp ← orReturn (cfg.jp.pop .key)
  .ok ({ cfg.closeFrame with jp := jp }.goto .OK)

def closeObjectAction (cfg : Config) : Except Halt Config := do
  let cfg ← if cfg.type ≠ -1 ∧ cfg.jp.stack.head? = some .object then do
      let cfg ← cfg.addMember options
      .ok { cfg with buf := [], type := -1 }
    else .ok cfg
  let jp ← orReturn (cfg.jp.pop .object)
  .ok ({ cfg.closeFrame with jp := jp }.goto .OK)

def closeArrayAction (cfg : Config) : Except Halt Config := do
  let cfg := if cfg.type ≠ -1 ∧ cfg.jp.stack.head? = some .array then
      { cfg.addNextIndex options with buf := [], type := -1 }
    else cfg
  let jp ← orReturn (cfg.jp.pop .array)
  .ok ({ cfg.closeFrame with jp := jp }.goto .OK)

def openObjectAction (cfg : Config) : Except Halt Config := do
  let jp ← orReturn (cfg.jp.push .key)
  ({ cfg with jp := jp }.goto .OB).openFrame options !options.objectAsArray

def openArrayAction (cfg : Config) : Except Halt Config := do
  let jp ← orReturn (cfg.jp.push .array)
  ({ cfg with jp := jp }.goto .AR).openFrame options false

def endStringAction (cfg : Config) : Except Halt Config :=
  match cfg.jp.stack.head? with
  | some .key =>
    .ok ({ cfg with key := cfg.buf, buf := [], type := -1 }.goto .CO)
  | some .array | some .object => .ok (cfg.goto .OK)
  | some .done =>
    if cfg.type = isString then
      .ok ({ cfg with z := .string cfg.buf }.goto .OK)
    else .error (.returnFalse .syntaxError)
  | none => .error (.returnFalse .syntaxError)

def commaAction (cfg : Config) : Except Halt Config :=
  match cfg.jp.stack.head? with
  | some .object =>
    match (cfg.jp.pop .object).bind (·.push .key) with
    | .ok jp => do
        let cfg ← if cfg.type ≠ -1 then cfg.addMember options else .ok cfg
        .ok ({ cfg with jp := jp, buf := [], type := -1 }.goto .KE)
    -- the mode was just read, and the pop made room for the push
    | .error _ => .ok { cfg with buf := [], type := -1 }
  | some .array =>
    let cfg := if cfg.type ≠ -1 then cfg.addNextIndex options else cfg
    .ok ({ cfg with buf := [], type := -1 }.goto .VA)
  | _ => .error (.returnFalse .syntaxError)

def colonAction (cfg : Config) : Except Halt Config :=
  match (cfg.jp.pop .key).bind (·.push .object) with
  | .ok jp => .ok ({ cfg with jp := jp }.goto .VA)
  | .error _ => .error (.returnFalse .syntaxError)

/-- The body of the loop over the units of the text. -/
def parseUnit (cfg : Config) (nextChar : UInt16) : Except Halt Config :=
  match classOf nextChar with
  | none => .error (.returnFalse .ctrlChar)
  | some nextClass =>
    match tableEntry cfg.jp.state nextClass with
    | .goto nextState => .ok (cfg.changeState nextChar nextClass nextState)
    | .emptyObject => emptyObjectAction cfg
    | .closeObject => closeObjectAction options cfg
    | .closeArray => closeArrayAction options cfg
    | .openObject => openObjectAction options cfg
    | .openArray => openArrayAction options cfg
    | .endString => endStringAction cfg
    | .comma => commaAction options cfg
    | .colon => colonAction cfg
    | .error => .error (.returnFalse .syntaxError)

def parseUnits : Config → List UInt16 → Except Halt Config
  | cfg, [] => .ok cfg
  | cfg, nextChar :: rest => do
      let cfg ← parseUnit options cfg nextChar
      parseUnits cfg rest

/-- What stands behind the loop: the value if the call returns true. -/
def finish (cfg : Config) : Except Halt Zval :=
  if cfg.jp.state = .OK then
    match cfg.jp.pop .done with
    | .ok _ => .ok cfg.z
    | .error _ => .error (.returnFalse .syntaxError)
  else .error (.returnFalse .syntaxError)

def newConfig (jp : Parser) : Config :=
  ⟨jp, -1, [], [], 0, [], .null⟩

/-- `parse_JSON_ex`: the value in `z` when the call returns true. -/
def parseJsonEx (jp : Parser) (text : List UInt16) : Except Halt Zval :=
  (parseUnits options (newConfig jp) text).bind finish

end Actions

end PhpEngine.Json

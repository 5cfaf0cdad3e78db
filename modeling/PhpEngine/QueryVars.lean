/-
Query strings: `php_url_encode_hash_ex` (ext/standard/http.c) builds one from an
array, `php_default_treat_data` and `php_register_variable_ex`
(main/php_variables.c) read one into an array.
-/
import PhpEngine.SerializeTokens
import PhpEngine.UrlCode

namespace PhpEngine

/-- The values of an array that a query string is built from, less objects and
resources.  A double stands for what `%.*G` prints of it. -/
inductive QueryVar where
  | null
  | bool (b : Bool)
  | long (n : Int)
  | double (text : List UInt8)
  | string (s : List UInt8)
  | array (table : OrderedMap QueryVar)

/-- The `enc_type` of a query string. -/
inductive QueryEncType where
  | rfc1738
  | rfc3986
deriving DecidableEq

namespace QueryEncType

variable (enc : QueryEncType)

def encode (s : List UInt8) : List UInt8 :=
  match enc with
  | .rfc1738 => phpUrlEncode s
  | .rfc3986 => phpRawUrlEncode s

/-- What stands for a key.  The trailing NUL is not wanted. -/
def encodeKey (numPrefix : List UInt8) : HashKey → List UInt8
  | .string key =>
    enc.encode (if key.getLast? = some 0 then key.dropLast else key)
  | .long idx => numPrefix ++ printLong (toLong idx)

/-- What stands for a value that is not an array. -/
def encodeValue : QueryVar → List UInt8
  | .string s => enc.encode s
  | .long n => printLong n
  | .bool b => printLong (if b then 1 else 0)
  | .double text => text
  | _ => []

end QueryEncType

/-- `php_url_encode_hash_ex` on the items of an array. -/
def phpUrlEncodeHashEx (enc : QueryEncType) (argSep : List UInt8)
    (numPrefix keyPrefix keySuffix : List UInt8) :
    List (HashKey × QueryVar) → List UInt8 → List UInt8
  | [], formstr => formstr
  | (key, .array ⟨sub, _, _⟩) :: items, formstr =>
    let newprefix := keyPrefix ++ enc.encodeKey numPrefix key ++ keySuffix ++ bytesOf "%5B"
    let formstr := phpUrlEncodeHashEx enc argSep [] newprefix (bytesOf "%5D") sub formstr
    phpUrlEncodeHashEx enc argSep numPrefix keyPrefix keySuffix items formstr
  | (_, .null) :: items, formstr =>
    phpUrlEncodeHashEx enc argSep numPrefix keyPrefix keySuffix items formstr
  | (key, var) :: items, formstr =>
    let formstr := if formstr ≠ [] then formstr ++ argSep else formstr
    let formstr := formstr ++ keyPrefix ++ enc.encodeKey numPrefix key ++
      keySuffix ++ [byte '='] ++ enc.encodeValue var
    phpUrlEncodeHashEx enc argSep numPrefix keyPrefix keySuffix items formstr

/-- What the reader is told.  `activeSymbolTable` says whether the variables go
into the active symbol table, `isspace` is that of the locale. -/
structure InputSettings where
  isspace : UInt8 → Bool
  argSeparator : List UInt8
  maxInputVars : Nat
  maxInputNestingLevel : Nat
  activeSymbolTable : Bool

/-- The index between two brackets, and what stands behind it; `none` without a
closing bracket.  An index that is empty or a single blank is no key. -/
def queryIndex (isspace : UInt8 → Bool) (rest : List UInt8) :
    Option (Option (List UInt8) × List UInt8) :=
  let blank := (rest.head?.map isspace).getD false
  let ip := if blank then rest.tail else rest
  if ip.head? = some (byte ']') then some (none, ip.tail)
  else
    let name := ip.takeWhile (· ≠ byte ']')
    if name.length < ip.length then
      some (some (rest.take (rest.length - ip.length + name.length)), ip.drop (name.length + 1))
    else none

namespace OrderedMap

/-- The label `plain_var` of `php_register_variable_ex`; the array is not that
of the cookies. -/
def plainVar (m : OrderedMap QueryVar) (index : Option (List UInt8))
    (val : List UInt8) : OrderedMap QueryVar :=
  match index with
  | none =>
    if .long m.nextFree ∈ m.keys then m
    else m.store (.long m.nextFree) (.string val)
  | some index => m.store (symtableKey index) (.string val)

/-- The array under an index, which is a new one unless one is there: its key,
the array, and the table with it.  Without an index it goes under the next free
one. -/
def elementArray (m : OrderedMap QueryVar) (index : Option (List UInt8)) :
    Option (HashKey × OrderedMap QueryVar × OrderedMap QueryVar) :=
  match index with
  | none =>
    if .long m.nextFree ∈ m.keys then none
    else some (.long m.nextFree, .empty, m.store (.long m.nextFree) (.array .empty))
  | some index =>
    match m.find (symtableKey index) with
    | some (.array table) => some (symtableKey index, table, m)
    | _ => some (symtableKey index, .empty, m.store (symtableKey index) (.array .empty))

end OrderedMap

/-- The loop of `php_register_variable_ex` over the brackets of a name, with
`rest` behind an opening one: whether the name is nested too deep, and the
array.  Without a closing bracket the first opening one becomes a `_` of the
name; a later one is cut off. -/
def registerIndex (isspace : UInt8 → Bool) (val : List UInt8) :
    Nat → Bool → Option (List UInt8) → List UInt8 → OrderedMap QueryVar → Bool × OrderedMap QueryVar
  | 0, _, _, _, m => (true, m)
  | level + 1, first, index, rest, m =>
    match queryIndex isspace rest with
    | none =>
      let index := if first then index.map (· ++ byte '_' :: rest) else index
      (false, m.plainVar index val)
    | some (indexS, behind) =>
      match m.elementArray index with
      | none => (false, m)
      | some (key, table, m) =>
        if behind.head? = some (byte '[') then
          match registerIndex isspace val level false indexS behind.tail table with
          | (deep, table) => (deep, m.store key (.array table))
        else (false, m.store key (.array (table.plainVar indexS val)))

/-- `php_register_variable_ex`, with the name up to its NUL. -/
def phpRegisterVariableEx (settings : InputSettings) (varName val : List UInt8)
    (m : OrderedMap QueryVar) : OrderedMap QueryVar :=
  let name := varName.dropWhile (· = byte ' ')
  let head := name.takeWhile (· ≠ byte '[')
  let var := head.map fun c => if c = byte ' ' ∨ c = byte '.' then byte '_' else c
  if var = [] then m
  else if settings.activeSymbolTable ∧ var = bytesOf "GLOBALS" then m
  else
    match name.drop head.length with
    | [] => m.plainVar (some var) val
    | _ :: rest =>
      match registerIndex settings.isspace val settings.maxInputNestingLevel
        true (some var) rest m with
      | (false, m) => m
      | (true, m) => m.remove (symtableKey var)

/-- `php_strtok_r`: the next token and what is left. -/
def phpStrtok (delim s : List UInt8) : Option (List UInt8 × List UInt8) :=
  let s := s.dropWhile (· ∈ delim)
  if s = [] then none
  else
    let token := s.takeWhile (· ∉ delim)
    some (token, s.drop (token.length + 1))

/-- The loop of `php_default_treat_data`; every token takes at least one
byte. -/
def treatDataLoop (settings : InputSettings) :
    Nat → Nat → List UInt8 → OrderedMap QueryVar → OrderedMap QueryVar
  | 0, _, _, m => m
  | fuel + 1, count, s, m =>
    match phpStrtok settings.argSeparator s with
    | none => m
    | some (var, s) =>
      if settings.maxInputVars < count + 1 then m
      else
        let name := var.takeWhile (· ≠ byte '=')
        let val := var.drop (name.length + 1)
        treatDataLoop settings fuel (count + 1) s (phpRegisterVariableEx settings
            ((phpUrlDecode name).takeWhile (· ≠ 0)) (phpUrlDecode val) m)

/-- `php_default_treat_data` with `PARSE_STRING`: `str` is read into the array
`m`. -/
def phpDefaultTreatData (settings : InputSettings) (str : List UInt8)
    (m : OrderedMap QueryVar) : OrderedMap QueryVar :=
  let res := str.takeWhile (· ≠ 0)
  treatDataLoop settings (res.length + 1) 0 res m

end PhpEngine

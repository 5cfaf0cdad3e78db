/-
`php_fputcsv` and `php_fgetcsv`.  The reader works on one line at a time and
fetches the next one when a line ends inside an enclosed field.  A line is
followed by a NUL; what stands behind that is not known.
-/
import PhpEngine.Decimal

namespace PhpEngine

structure CsvFormat where
  delimiter : UInt8
  enclosure : UInt8
  escapeChar : UInt8
deriving Repr, DecidableEq

/-- What is asked of the locale: `php_mblen` on the bytes up to a limit, and
`isspace`. -/
structure Locale where
  mblen : List UInt8 → Int
  isspace : UInt8 → Bool

section Write

variable (fmt : CsvFormat)

/-- The characters of a field that is enclosed. -/
def fputcsvChars : Bool → List UInt8 → List UInt8
  | _, [] => []
  | escaped, ch :: rest =>
    if ch = fmt.escapeChar then ch :: fputcsvChars true rest
    else if !escaped ∧ ch = fmt.enclosure then
      fmt.enclosure :: ch :: fputcsvChars escaped rest
    else ch :: fputcsvChars false rest

/-- The checks `FPUTCSV_FLD_CHK`. -/
def fputcsvEnclosed (field : List UInt8) : Bool :=
  field.contains fmt.delimiter || field.contains fmt.enclosure ||
    field.contains fmt.escapeChar || field.contains (byte '\n') ||
    field.contains (byte '\r') || field.contains (byte '\t') ||
    field.contains (byte ' ')

def fputcsvField (field : List UInt8) : List UInt8 :=
  if fputcsvEnclosed fmt field then
    fmt.enclosure :: (fputcsvChars fmt false field ++ [fmt.enclosure])
  else field

def fputcsvFields (count : Nat) : Nat → List (List UInt8) → List UInt8
  | _, [] => []
  | i, field :: rest =>
    fputcsvField fmt field ++ (if i + 1 ≠ count then [fmt.delimiter] else []) ++
      fputcsvFields count (i + 1) rest

/-- `php_fputcsv`: the line that is written. -/
def phpFputcsv (fields : List (List UInt8)) : List UInt8 :=
  fputcsvFields fmt fields.length 0 fields ++ [byte '\n']

end Write

/-- A line up to its newline, and what follows it. -/
def splitLine : List UInt8 → List UInt8 × List UInt8
  | [] => ([], [])
  | b :: rest =>
    if b = byte '\n' then ([b], rest)
    else (b :: (splitLine rest).1, (splitLine rest).2)

/-- `php_stream_get_line`, for a stream that does not detect line endings. -/
def phpStreamGetLine (stream : List UInt8) : Option (List UInt8 × List UInt8) :=
  if stream = [] then none else some (splitLine stream)

/-- `hunkBegin` and `bptr` are positions in `buf`, and so is `limit`, which is
also `line_end`; `behind` is the memory behind the terminator of `buf`; `temp`
is what stands between `temp` and `tptr`. -/
structure CsvReader where
  stream : Option (List UInt8)
  buf : List UInt8
  behind : Nat → UInt8
  bptr : Nat
  hunkBegin : Nat
  limit : Nat
  temp : List UInt8
  tempLen : Nat
  incLen : Int

namespace CsvReader

variable (r : CsvReader)

def char (i : Nat) : UInt8 :=
  r.buf.getD i (if i = r.buf.length then 0 else r.behind (i - r.buf.length - 1))

/-- `memcpy` of `n` characters from `hunk_begin`. -/
def copyHunk (n : Nat) : CsvReader :=
  { r with
    temp := r.temp ++ (List.range n).map fun k => r.char (r.hunkBegin + k) }

def beginHunk : CsvReader :=
  { r with hunkBegin := r.bptr }

def advance (n : Nat) : CsvReader :=
  { r with bptr := r.bptr + n }

/-- The length of the character at `bptr`, 0 at the limit. -/
def measure (loc : Locale) : CsvReader :=
  { r with
    incLen := if r.bptr < r.limit then
        if r.char r.bptr = 0 then 1
        else loc.mblen ((r.buf.take r.limit).drop r.bptr)
      else 0 }

end CsvReader

/-- `state` of the loop over an enclosed field: 0, 1 and 2. -/
inductive CsvState where
  | inside
  | escaped
  | closing
deriving Repr, DecidableEq

/-- How that loop ends: at `quit_loop_2`, or with `RETVAL_FALSE`. -/
inductive CsvEnd where
  | field (r : CsvReader)
  | failed (r : CsvReader)

inductive CsvValue where
  | null
  | string (bytes : List UInt8)
deriving Repr, DecidableEq

inductive CsvResult where
  | false
  | array (values : List CsvValue)
deriving Repr, DecidableEq

section Read

variable (fmt : CsvFormat) (loc : Locale) (heap : List UInt8 → Nat → UInt8)

/-- The loop of `php_fgetcsv_lookup_trailing_spaces`: where it ends, and
`last_chars`. -/
def lookupLoop : Nat → List UInt8 → Nat → UInt8 × UInt8 → Nat × UInt8 × UInt8
  | 0, _, ptr, last => (ptr, last)
  | _ + 1, [], ptr, last => (ptr, last)
  | len + 1, b :: rest, ptr, last =>
    let incLen := if b = 0 then 1 else loc.mblen (b :: rest)
    if incLen = -2 ∨ incLen = -1 then lookupLoop len rest (ptr + 1) last
    else if incLen = 0 then (ptr, last)
    else lookupLoop len ((b :: rest).drop incLen.toNat) (ptr + incLen.toNat) (last.2, b)

/-- `php_fgetcsv_lookup_trailing_spaces`, as a length. -/
def phpFgetcsvLookupTrailingSpaces (text : List UInt8) : Nat :=
  let r := lookupLoop loc text.length text 0 (0, 0)
  if r.2.2 = byte '\n' then
    if r.2.1 = byte '\r' then r.1 - 2 else r.1 - 1
  else if r.2.2 = byte '\r' then r.1 - 1
  else r.1

/-- A line is fetched inside an enclosed field. -/
def csvRefill (r : CsvReader) (line rest : List UInt8) : CsvReader :=
  { r with
    stream := some rest
    buf := line
    behind := heap rest
    bptr := 0
    hunkBegin := 0
    limit := phpFgetcsvLookupTrailingSpaces loc line
    tempLen := r.tempLen + line.length }

/-- The rest of a line that ends inside an enclosed field. -/
def csvLineEnd (state : CsvState) (r : CsvReader) : CsvReader :=
  let r := if state = .escaped then
      (r.copyHunk (r.bptr - r.hunkBegin)).beginHunk
    else r
  let r := if r.hunkBegin ≠ r.limit then
      (r.copyHunk (r.bptr - r.hunkBegin)).beginHunk
    else r
  { r with temp := r.temp ++ r.buf.drop r.limit }

/-- A field that ends at the enclosure before `bptr`. -/
def csvClose (r : CsvReader) : CsvReader :=
  (r.copyHunk (r.bptr - r.hunkBegin - 1)).beginHunk

/-- 2A: the loop over an enclosed field; `fuel` bounds its turns. -/
def csvEnclosed : Nat → CsvState → CsvReader → Option CsvEnd
  | 0, _, _ => none
  | fuel + 1, state, r =>
    if r.incLen = 0 then
      if state = .closing then some (.field (csvClose r))
      else
        let r := csvLineEnd state r
        match r.stream with
        | none => some (.field r)
        | some stream =>
          match phpStreamGetLine stream with
          | none =>
            if r.limit < r.tempLen then some (.field r)
            else some (.failed r)
          | some (line, rest) =>
            csvEnclosed fuel .inside ((csvRefill loc heap r line rest).measure loc)
    else if r.incLen = 1 ∨ r.incLen = -1 ∨ r.incLen = -2 then
      match state with
      | .escaped => csvEnclosed fuel .inside ((r.advance 1).measure loc)
      | .closing =>
        if r.char r.bptr ≠ fmt.enclosure then some (.field (csvClose r))
        else
          csvEnclosed fuel .inside ((((r.copyHunk (r.bptr - r.hunkBegin)).advance
              1).beginHunk).measure loc)
      | .inside =>
        let state :=
          if r.char r.bptr = fmt.enclosure then .closing
          else if r.char r.bptr = fmt.escapeChar then .escaped
          else .inside
        csvEnclosed fuel state ((r.advance 1).measure loc)
    else
      match state with
      | .closing => some (.field (csvClose r))
      | .escaped =>
        let r := r.advance r.incLen.toNat
        csvEnclosed fuel .escaped (((r.copyHunk (r.bptr - r.hunkBegin)).beginHunk).measure loc)
      | .inside =>
        csvEnclosed fuel .inside ((r.advance r.incLen.toNat).measure loc)

/-- The loops that look for a delimiter. -/
def csvSkip : Nat → CsvReader → CsvReader
  | 0, r => r
  | n + 1, r =>
    if r.incLen = 0 then r
    else
      let r := if r.incLen = -2 ∨ r.incLen = -1 then { r with incLen := 1 }
        else r
      if r.incLen = 1 ∧ r.char r.bptr = fmt.delimiter then r
      else csvSkip n ((r.advance r.incLen.toNat).measure loc)

/-- Behind the blanks from `tmp` on.  The terminator of the line is none. -/
def csvBlanks (r : CsvReader) : Nat → Nat → Nat
  | 0, tmp => tmp
  | n + 1, tmp =>
    if r.char tmp ≠ fmt.delimiter ∧ loc.isspace (r.char tmp) then
      csvBlanks r n (tmp + 1)
    else tmp

/-- The start of a field: blanks before an enclosure are skipped. -/
def csvStart (r : CsvReader) : CsvReader :=
  let r := { r with temp := [] }.measure loc
  if r.incLen = 1 then
    let tmp := csvBlanks fmt loc r (r.buf.length - r.bptr) r.bptr
    if r.char tmp = fmt.enclosure then { r with bptr := tmp } else r
  else r

/-- Behind an enclosed field, up to the delimiter. -/
def csvAfterField (r : CsvReader) : CsvReader :=
  let r := csvSkip fmt loc (r.limit - r.bptr + 1) r
  (r.copyHunk (r.bptr - r.hunkBegin)).advance r.incLen.toNat

/-- 2B: a field that is not enclosed. -/
def csvPlain (r : CsvReader) : CsvReader :=
  let r := csvSkip fmt loc (r.limit - r.bptr + 1) r.beginHunk
  let r := r.copyHunk (r.bptr - r.hunkBegin)
  let r := { r with
    temp := r.temp.take (phpFgetcsvLookupTrailingSpaces loc r.temp) }
  if r.char r.bptr = fmt.delimiter then r.advance 1 else r

/-- The main loop; `fuel` bounds its turns and those of the loop over an
enclosed field. -/
def csvFields : Nat → Bool → CsvReader → List CsvValue → Option (CsvResult × Option (List UInt8))
  | 0, _, _, _ => none
  | fuel + 1, firstField, r, values =>
    let r := csvStart fmt loc r
    if firstField ∧ r.bptr = r.limit then
      some (.array (values ++ [.null]), r.stream)
    else if r.incLen ≠ 0 ∧ r.char r.bptr = fmt.enclosure then do
      match ← csvEnclosed fmt loc heap fuel .inside (r.advance 1).beginHunk with
      | .failed r => return (.false, r.stream)
      | .field r =>
        let r := csvAfterField fmt loc r
        let values := values ++ [.string r.temp]
        if 0 < r.incLen then csvFields fuel false r values
        else return (.array values, r.stream)
    else
      let r := csvPlain fmt loc r
      let values := values ++ [.string r.temp]
      if 0 < r.incLen then csvFields fuel false r values
      else some (.array values, r.stream)

/-- `php_fgetcsv` on the line `buf` of a stream. -/
def phpFgetcsv (fuel : Nat) (stream : Option (List UInt8)) (buf : List UInt8)
    (behind : Nat → UInt8) : Option (CsvResult × Option (List UInt8)) :=
  csvFields fmt loc heap fuel true
    { stream, buf, behind, bptr := 0, hunkBegin := 0
      limit := phpFgetcsvLookupTrailingSpaces loc buf
      temp := [], tempLen := buf.length, incLen := 0 } []

/-- Row by row to the end of the stream. -/
def csvRows (fuel : Nat) : Nat → List UInt8 → Option (List CsvResult)
  | 0, _ => none
  | n + 1, stream =>
    match phpStreamGetLine stream with
    | none => some []
    | some (buf, rest) => do
        let row ← phpFgetcsv fmt loc heap fuel (some rest) buf (heap rest)
        let rows ← csvRows fuel n (row.2.getD [])
        return row.1 :: rows

end Read

end PhpEngine

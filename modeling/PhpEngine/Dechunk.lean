/-
The filter that decodes the chunked transfer coding.  A call decodes one
buffer in place: what is written never overtakes what is read.
-/
import PhpEngine.Decimal
import PhpEngine.Transducer

namespace PhpEngine

inductive ChunkedFilterState where
  | sizeStart
  | size
  | sizeExt
  | sizeCr
  | sizeLf
  | body
  | bodyCr
  | bodyLf
  | trailer
  | error
deriving Repr, DecidableEq

/-- `php_chunked_filter_data`, without the flag for its allocation. -/
structure ChunkedFilterData where
  state : ChunkedFilterState
  chunkSize : Nat
deriving Repr, DecidableEq

/-- The local variables of `php_dechunk`.  Positions are offsets in the
buffer. -/
structure DechunkFrame where
  buf : Nat → UInt8
  p : Nat
  out : Nat
  outLen : Nat
  data : ChunkedFilterData

/-- How the body of the loop ends: with `continue`, or with `return`. -/
inductive DechunkFlow where
  | again (s : DechunkFrame)
  | done (s : DechunkFrame)

/-- The value of a digit of a chunk size. -/
def chunkDigit (b : UInt8) : Option Nat :=
  if byte '0' ≤ b ∧ b ≤ byte '9' then some (b.toNat - 48)
  else if byte 'A' ≤ b ∧ b ≤ byte 'F' then some (b.toNat - 65 + 10)
  else if byte 'a' ≤ b ∧ b ≤ byte 'f' then some (b.toNat - 97 + 10)
  else none

def memmove (buf : Nat → UInt8) (dest src n : Nat) : Nat → UInt8 :=
  fun i => if dest ≤ i ∧ i < dest + n then buf (src + (i - dest)) else buf i

namespace DechunkFrame

def setState (s : DechunkFrame) (state : ChunkedFilterState) : DechunkFrame :=
  { s with data := { s.data with state := state } }

def setSize (s : DechunkFrame) (n : Nat) : DechunkFrame :=
  { s with data := { s.data with chunkSize := n } }

def skip (s : DechunkFrame) : DechunkFrame :=
  { s with p := s.p + 1 }

/-- `n` bytes are moved down to the end of the output. -/
def move (s : DechunkFrame) (n : Nat) : DechunkFrame :=
  { s with
    buf := if s.p ≠ s.out then memmove s.buf s.out s.p n else s.buf
    outLen := s.outLen + n }

end DechunkFrame

section Cases

variable (stop : Nat)

/-! The cases of the `switch`, the last one first: each falls through to the
one before it. -/

def caseError (s : DechunkFrame) : DechunkFlow :=
  .done (s.move (stop - s.p))

def caseTrailer (s : DechunkFrame) : DechunkFlow :=
  .again { s with p := stop }

def caseBodyLf (s : DechunkFrame) : DechunkFlow :=
  if s.buf s.p = byte '\n' then .again (s.skip.setState .sizeStart)
  else .again (s.setState .error)

def caseBodyCr (s : DechunkFrame) : DechunkFlow :=
  if s.buf s.p = byte '\r' then
    if s.p + 1 = stop then .done (s.skip.setState .bodyLf)
    else caseBodyLf s.skip
  else caseBodyLf s

def caseBody (s : DechunkFrame) : DechunkFlow :=
  let n := s.data.chunkSize
  if n ≤ stop - s.p then
    let s := { s.move n with out := s.out + n, p := s.p + n }
    if s.p = stop then .done (s.setState .bodyCr) else caseBodyCr stop s
  else
    .done (((s.move (stop - s.p)).setSize (n - (stop - s.p))).setState .body)

def caseSizeLf (s : DechunkFrame) : DechunkFlow :=
  if s.buf s.p = byte '\n' then
    if s.data.chunkSize = 0 then .again (s.skip.setState .trailer)
    else if s.p + 1 = stop then .done (s.skip.setState .body)
    else caseBody stop s.skip
  else .again (s.setState .error)

def caseSizeCr (s : DechunkFrame) : DechunkFlow :=
  if s.buf s.p = byte '\r' then
    if s.p + 1 = stop then .done (s.skip.setState .sizeLf)
    else caseSizeLf stop s.skip
  else caseSizeLf stop s

/-- The loop that skips an extension, for at most `n` bytes. -/
def skipExtension : Nat → DechunkFrame → DechunkFrame
  | 0, s => s
  | n + 1, s =>
    if s.buf s.p ≠ byte '\r' ∧ s.buf s.p ≠ byte '\n' then
      skipExtension n s.skip
    else s

def caseSizeExt (s : DechunkFrame) : DechunkFlow :=
  let s := skipExtension (stop - s.p) s
  if s.p = stop then .done s else caseSizeCr stop s

/-- The loop over the digits of a size, for at most `n` bytes. -/
def readSize : Nat → DechunkFrame → DechunkFrame
  | 0, s => s
  | n + 1, s =>
    match chunkDigit (s.buf s.p) with
    | some d =>
      readSize n ((s.setSize ((s.data.chunkSize * 16 + d) % ulongMod)).setState .size).skip
    | none =>
      if s.data.state = .sizeStart then s.setState .error
      else s.setState .sizeExt

def caseSize (s : DechunkFrame) : DechunkFlow :=
  let s := readSize (stop - s.p) s
  if s.data.state = .error then .again s
  else if s.p = stop then .done s
  else caseSizeExt stop s

def dechunkSwitch (s : DechunkFrame) : DechunkFlow :=
  match s.data.state with
  | .sizeStart => caseSize stop (s.setSize 0)
  | .size => caseSize stop s
  | .sizeExt => caseSizeExt stop s
  | .sizeCr => caseSizeCr stop s
  | .sizeLf => caseSizeLf stop s
  | .body => caseBody stop s
  | .bodyCr => caseBodyCr stop s
  | .bodyLf => caseBodyLf s
  | .trailer => caseTrailer stop s
  | .error => caseError stop s

/-- `while (p < end)`; `fuel` bounds the number of turns. -/
def dechunkLoop : Nat → DechunkFrame → Option DechunkFrame
  | 0, _ => none
  | fuel + 1, s =>
    if s.p < stop then
      match dechunkSwitch stop s with
      | .again s => dechunkLoop fuel s
      | .done s => some s
    else some s

end Cases

/-- The buffer that holds a text. -/
def bufferOf (text : List UInt8) (i : Nat) : UInt8 :=
  text.getD i 0

/-- `php_dechunk`: what it leaves at the start of the buffer, and the data.
Every turn of the loop takes a byte, but for one that finds an error. -/
def phpDechunk (data : ChunkedFilterData) (text : List UInt8) : ChunkedFilterData × List UInt8 :=
  match dechunkLoop text.length (text.length + 2) ⟨bufferOf text, 0, 0, 0, data⟩ with
  | some s => (s.data, (List.range s.outLen).map s.buf)
  | none => (data, [])

end PhpEngine

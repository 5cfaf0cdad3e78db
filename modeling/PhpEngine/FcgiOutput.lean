/-
The output side of sapi/cgi/fastcgi.c: `fcgi_write` collects records in a
buffer of eight kilobytes, and `fcgi_flush` hands the buffer to the socket.

The buffer is a memory with the addresses counted from `out_buf`.  Behind it
lies the area `reserved`; a store or a move of `out_pos` past the end of that
area has no result in this model.
-/
import PhpEngine.FastCgi
import PhpEngine.Memory

namespace PhpEngine

/-- `sizeof(req->out_buf)` -/
def sizeofOutBuf : Nat := 1024 * 8

/-- `sizeof(req->reserved)`, which is `sizeof(fcgi_end_request_rec)`. -/
def sizeofReserved : Nat := 16

/-- The fields of `fcgi_request` that the output uses.  `accepts k` is how
many bytes, less one, the `k`-th `write` to the socket takes at most, or that
it fails; a `write` that was interrupted is made again and is not counted. -/
structure FcgiOut where
  id : Nat
  keep : Bool
  outHdr : Option Nat
  outPos : Nat
  outBuf : Nat → UInt8
  sent : List UInt8
  accepts : Nat → Option Nat
  writes : Nat

namespace FcgiOut

variable (req : FcgiOut)

/-- A store of `bytes` at `p`. -/
def put (p : Nat) (bytes : List UInt8) : Option FcgiOut :=
  if p + bytes.length ≤ sizeofOutBuf + sizeofReserved then
    some { req with outBuf := Memory.store req.outBuf p bytes }
  else none

/-- `req->out_pos += n` -/
def advance (n : Nat) : Option FcgiOut :=
  if req.outPos + n ≤ sizeofOutBuf + sizeofReserved then
    some { req with outPos := req.outPos + n }
  else none

/-- The loop of `safe_write`; `n` counts the bytes that are gone. -/
def safeWriteLoop : Nat → FcgiOut → List UInt8 → Nat → Int × FcgiOut
  | 0, req, _, n => (n, req)
  | fuel + 1, req, buf, n =>
    match req.accepts req.writes with
    | none => (-1, { req with writes := req.writes + 1 })
    | some k =>
      let ret := min buf.length (k + 1)
      let req := { req with
        writes := req.writes + 1
        sent := req.sent ++ buf.take ret }
      if ret = buf.length then (n + ret, req)
      else safeWriteLoop fuel req (buf.drop ret) (n + ret)

/-- `safe_write` -/
def safeWrite (buf : List UInt8) : Int × FcgiOut :=
  safeWriteLoop (buf.length + 1) req buf 0

/-- The bytes that fill `len` up to a multiple of eight,
`((len + 7) & ~7) - len`. -/
def padOf (len : Nat) : Nat :=
  (len + 7) / 8 * 8 - len

/-- `if (pad) memset(p, 0, pad)` -/
def zeros (p pad : Nat) : Option FcgiOut :=
  if pad ≠ 0 then req.put p (List.replicate pad 0) else some req

/-- `fcgi_make_header` -/
def makeHeader (hdr : Nat) (type : UInt8) (len : Nat) : Option (Nat × FcgiOut) := do
  let pad := padOf len
  let req ← req.put hdr (headerBytes type req.id len pad)
  let req ← req.zeros (hdr + sizeofHeader + len) pad
  return (pad, req)

/-- `open_packet`; of the header only the type is set. -/
def openPacket (type : FcgiRequestType) : Option FcgiOut := do
  let req ← { req with outHdr := some req.outPos }.put (req.outPos + 1) [type.code]
  req.advance sizeofHeader

/-- `close_packet` -/
def closePacket : Option FcgiOut :=
  match req.outHdr with
  | none => some req
  | some hdr => do
      let len := req.outPos - (hdr + sizeofHeader)
      let (pad, req) ← req.makeHeader hdr (req.outBuf (hdr + 1)) len
      let req ← req.advance pad
      return { req with outHdr := none }

/-- `FCGI_REQUEST_COMPLETE` -/
def fcgiRequestComplete : UInt8 := 0

/-- The record of `fcgi_end_request_rec`, put at `out_pos`; the last three
bytes of its body are not set. -/
def endRequest : Option FcgiOut := do
  let (_, req) ← req.makeHeader req.outPos FcgiRequestType.endRequest.code 8
  req.put (req.outPos + sizeofHeader) [0, 0, 0, 0, fcgiRequestComplete]

/-- `fcgi_flush` -/
def fcgiFlush (close : Bool) : Option (Bool × FcgiOut) := do
  let req ← req.closePacket
  let len := req.outPos
  let (len, req) ←
    if close then do
      let req ← req.endRequest
      pure (len + sizeofReserved, req)
    else pure (len, req)
  let (ret, req) := req.safeWrite (Memory.slice req.outBuf 0 len)
  if ret ≠ len then
    return (false, { req with keep := false, outPos := 0 })
  else return (true, { req with outPos := 0 })

/-- Copy to `out_pos` and move it behind the copy. -/
def copy (str : List UInt8) : Option FcgiOut := do
  let req ← req.put req.outPos str
  req.advance str.length

/-- Bytes of the caller that go to the socket around the buffer. -/
def writeAround (str : List UInt8) : Bool × FcgiOut :=
  let (ret, req) := req.safeWrite str
  if ret ≠ str.length then (false, { req with keep := false }) else (true, req)

/-- One record that is written around the buffer: its header goes out with the
buffer, its content behind that. -/
def largeRecord (type : FcgiRequestType) (str : List UInt8) : Option (Bool × FcgiOut) := do
  let req ← req.openPacket type
  let (_, req) ← req.makeHeader (req.outHdr.getD 0) type.code str.length
  let (ok, req) ← { req with outHdr := none }.fcgiFlush false
  if ok then return req.writeAround str else return (false, req)

/-- `while ((len - pos) > 0xffff)`; what is left of the bytes comes last. -/
def largeLoop (type : FcgiRequestType) :
    Nat → FcgiOut → List UInt8 → Option (Bool × FcgiOut × List UInt8)
  | 0, req, str => some (true, req, str)
  | fuel + 1, req, str =>
    if 0xffff < str.length then do
      let (ok, req) ← req.largeRecord type (str.take 0xfff8)
      if ok then largeLoop type fuel req (str.drop 0xfff8)
      else return (false, req, str)
    else some (true, req, str)

/-- The last of the three ways to write: the content goes around the buffer,
but for the bytes past the last multiple of eight. -/
def writeLarge (type : FcgiRequestType) (str : List UInt8) : Option (Bool × FcgiOut) := do
  let req ← req.closePacket
  let (ok, req, str) ← largeLoop type str.length req str
  if ok then do
    let pad := padOf str.length
    let rest := if pad ≠ 0 then 8 - pad else 0
    let (ok, req) ← req.largeRecord type (str.take (str.length - rest))
    if ok ∧ pad ≠ 0 then do
      let req ← req.openPacket type
      let req ← req.copy (str.drop (str.length - rest))
      return (true, req)
    else return (ok, req)
  else return (false, req)

/-- Open a record unless one is open. -/
def ensurePacket (type : FcgiRequestType) : Option FcgiOut :=
  if req.outHdr.isSome then some req else req.openPacket type

/-- Copy as much as the buffer has room for. -/
def fillUp (limit : Nat) (str : List UInt8) : Option FcgiOut :=
  if 0 < limit then req.copy (str.take limit) else some req

/-- `fcgi_write` behind the change of the type: the three ways to write.  The
result is the length, or `-1` when the socket fails. -/
def writeString (type : FcgiRequestType) (str : List UInt8) : Option (Int × FcgiOut) :=
  -- `limit` is cut off at zero, as the subtraction of natural numbers is; with
  -- a record open `out_pos` is below the end of the buffer
  let limit := sizeofOutBuf - req.outPos - (if req.outHdr.isSome then 0 else sizeofHeader)
  if str.length < limit then do
    let req ← req.ensurePacket type
    let req ← req.copy str
    return (str.length, req)
  else if str.length - limit < sizeofOutBuf - sizeofHeader then do
    let req ← req.ensurePacket type
    let req ← req.fillUp limit str
    let (ok, req) ← req.fcgiFlush false
    if ok then
      if limit < str.length then do
        let req ← req.openPacket type
        let req ← req.copy (str.drop limit)
        return (str.length, req)
      else return (str.length, req)
    else return (-1, req)
  else do
    let (ok, req) ← req.writeLarge type str
    return (if ok then (str.length : Int) else -1, req)

/-- Close a record of another type. -/
def switchType (type : FcgiRequestType) : Option FcgiOut :=
  match req.outHdr with
  | some hdr =>
    if req.outBuf (hdr + 1) ≠ type.code then req.closePacket else some req
  | none => some req

/-- `fcgi_write`.  A length is an `int`, and no expression of the function
leaves its range. -/
def fcgiWrite (type : FcgiRequestType) (str : List UInt8) : Option (Int × FcgiOut) :=
  if str.length = 0 then some (0, req) else do
    let req ← req.switchType type
    req.writeString type str

end FcgiOut

/-- The two streams of the response. -/
inductive FcgiStream where
  | stdout
  | stderr
deriving Repr, DecidableEq

def FcgiStream.type : FcgiStream → FcgiRequestType
  | stdout => .stdout
  | stderr => .stderr

/-- A call before the end of the request: `fcgi_write` with one of the
streams, or `fcgi_flush(req, 0)`. -/
inductive FcgiCall where
  | write (stream : FcgiStream) (data : List UInt8)
  | flush
deriving Repr, DecidableEq

namespace FcgiOut

def call (req : FcgiOut) : FcgiCall → Option FcgiOut
  | .write stream data => (req.fcgiWrite stream.type data).map Prod.snd
  | .flush => (req.fcgiFlush false).map Prod.snd

def calls (req : FcgiOut) : List FcgiCall → Option FcgiOut
  | [] => some req
  | c :: cs => (req.call c).bind fun req => req.calls cs

end FcgiOut

end PhpEngine

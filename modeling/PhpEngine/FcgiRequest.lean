/-
The input side of sapi/cgi/fastcgi.c: `fcgi_read_request` takes the records
that open a request, `fcgi_read` the body.  The connection hands over what was
sent in pieces of any size; a read that fails with an error is not modelled.
-/
import PhpEngine.ByteFile
import PhpEngine.FastCgi
import PhpEngine.FcgiEnv

namespace PhpEngine

/-- The loop of `safe_read`; `count` is what is still asked for. -/
def safeReadLoop : Nat → ByteFile → Nat → List UInt8 × ByteFile
  | 0, fd, _ => ([], fd)
  | fuel + 1, fd, count =>
    let (bytes, fd) := fd.read count
    if bytes.length = 0 then ([], fd)
    else if bytes.length = count then (bytes, fd)
    else
      let (more, fd) := safeReadLoop fuel fd (count - bytes.length)
      (bytes ++ more, fd)

/-- `safe_read`; the result is the number of bytes that were stored. -/
def safeRead (fd : ByteFile) (count : Nat) : List UInt8 × ByteFile :=
  safeReadLoop (count + 1) fd count

/-- `fcgi_header`, without the byte that is not used. -/
structure FcgiHeader where
  version : UInt8
  type : UInt8
  requestIdB1 : UInt8
  requestIdB0 : UInt8
  contentLengthB1 : UInt8
  contentLengthB0 : UInt8
  paddingLength : UInt8
deriving DecidableEq

namespace FcgiHeader

def contentLength (hdr : FcgiHeader) : Nat :=
  ofBytes hdr.contentLengthB1 hdr.contentLengthB0

def requestId (hdr : FcgiHeader) : Nat :=
  ofBytes hdr.requestIdB1 hdr.requestIdB0

def ofList : List UInt8 → Option FcgiHeader
  | [version, type, id1, id0, len1, len0, pad, _] =>
    some ⟨version, type, id1, id0, len1, len0, pad⟩
  | _ => none

end FcgiHeader

/-- The reads of a header; it is refused if it is not all there or has a
version below one. -/
def readHeader (fd : ByteFile) : Option FcgiHeader × ByteFile :=
  let (bytes, fd) := safeRead fd sizeofHeader
  match FcgiHeader.ofList bytes with
  | some hdr => if hdr.version < fcgiVersion1 then (none, fd) else (some hdr, fd)
  | none => (none, fd)

/-- The fields of `fcgi_request` that the input uses.  `mgmtVars` is the table
`fcgi_mgmt_vars`, and `sent` what goes out to answer for it. -/
structure FcgiIn where
  fd : ByteFile
  id : Nat
  keep : Bool
  inLen : Nat
  inPad : Nat
  env : FcgiHash
  mgmtVars : List UInt8 → Option (List UInt8)
  sent : List UInt8

namespace FcgiIn

/-- What the head of the loop of `fcgi_read` comes to. -/
inductive NextRecord where
  | content (req : FcgiIn)
  | ended (req : FcgiIn)
  | failed (req : FcgiIn)

/-- The header of the next record, unless a record is not read to its end. -/
def nextRecord (req : FcgiIn) : NextRecord :=
  if req.inLen ≠ 0 then .content req
  else
    match readHeader req.fd with
    | (none, fd) => .failed { req with fd := fd, keep := false }
    | (some hdr, fd) =>
      if hdr.type ≠ FcgiRequestType.stdin.code then
        .failed { req with fd := fd, keep := false }
      else
        let req := { req with
          fd := fd
          inLen := hdr.contentLength
          inPad := hdr.paddingLength.toNat }
        if req.inLen = 0 then .ended req else .content req

/-- The loop of `fcgi_read`: the result, what was stored in `str`, and the
request. -/
def fcgiReadLoop : Nat → FcgiIn → Nat → List UInt8 → Int × List UInt8 × FcgiIn
  | 0, req, _, str => (str.length, str, req)
  | fuel + 1, req, rest, str =>
    if rest = 0 then (str.length, str, req)
    else
      match req.nextRecord with
      | .failed req => (0, str, req)
      | .ended req => (str.length, str, req)
      | .content req =>
        let (bytes, fd) := safeRead req.fd (if rest ≤ req.inLen then rest else req.inLen)
        if bytes.length = 0 then (str.length, str, { req with fd := fd })
        else
          let req := { req with fd := fd, inLen := req.inLen - bytes.length }
          if req.inLen = 0 then
            if req.inPad ≠ 0 then
              let (pad, fd) := safeRead req.fd req.inPad
              if pad.length ≠ req.inPad then
                (bytes.length, str ++ bytes, { req with fd := fd, keep := false })
              else
                fcgiReadLoop fuel { req with fd := fd } (rest - bytes.length) (str ++ bytes)
            else
              fcgiReadLoop fuel req (rest - bytes.length) (str ++ bytes)
          else ((str ++ bytes).length, str ++ bytes, req)

/-- `fcgi_read`; every turn of the loop stores a byte or is the last. -/
def fcgiRead (req : FcgiIn) (len : Nat) : Int × List UInt8 × FcgiIn :=
  fcgiReadLoop (len + 1) req len []

/-- `while (hdr.type == FCGI_STDIN && len == 0)`: headers of empty records. -/
def skipEmptyStdin : Nat → FcgiHeader → ByteFile → Option FcgiHeader × ByteFile
  | 0, hdr, fd => (some hdr, fd)
  | fuel + 1, hdr, fd =>
    if hdr.type = FcgiRequestType.stdin.code ∧ hdr.contentLength = 0 then
      match readHeader fd with
      | (none, fd) => (none, fd)
      | (some hdr, fd) => skipEmptyStdin fuel hdr fd
    else (some hdr, fd)

/-- The loop over the records with the parameters. -/
def paramsLoop : Nat → FcgiIn → (Nat → UInt8) → FcgiHeader → Bool × FcgiIn
  | 0, req, _, _ => (true, req)
  | fuel + 1, req, buf, hdr =>
    let len := hdr.contentLength
    let padding := hdr.paddingLength.toNat
    if hdr.type = FcgiRequestType.params.code ∧ 0 < len then
      if fcgiMaxLength < len + padding then (false, req)
      else
        let (bytes, fd) := safeRead req.fd (len + padding)
        if bytes.length ≠ len + padding then
          (false, { req with fd := fd, keep := false })
        else
          let buf := Memory.store buf 0 bytes
          match fcgiGetParams req.env buf 0 len with
          | (false, env) =>
            (false, { req with fd := fd, env := env, keep := false })
          | (true, env) =>
            match readHeader fd with
            | (none, fd) =>
              (false, { req with fd := fd, env := env, keep := false })
            | (some hdr, fd) =>
              paramsLoop fuel { req with fd := fd, env := env } buf hdr
    else (true, req)

/-- The text of `FCGI_ROLE` for the roles that are known. -/
def roleName (role : Nat) : Option (List UInt8) :=
  match role with
  | 1 => some "RESPONDER".toUTF8.toList
  | 2 => some "AUTHORIZER".toUTF8.toList
  | 3 => some "FILTER".toUTF8.toList
  | _ => none

def fcgiRole : List UInt8 :=
  "FCGI_ROLE".toUTF8.toList

/-- The body of `FCGI_GET_VALUES_RESULT`: the variables of the environment that
the table has, as long as they fit into the buffer. -/
def valuesLoop (req : FcgiIn) : Nat → Option Nat → List UInt8 → List UInt8
  | 0, _, body => body
  | _ + 1, none, body => body
  | fuel + 1, some a, body =>
    match req.env.buckets[a]? with
    | none => body
    | some b =>
      match req.mgmtVars b.var with
      | none => valuesLoop req fuel b.listNext body
      | some value =>
        if fcgiMaxLength + 8 ≤ sizeofHeader + body.length + 4 + 4 +
            b.var.length + value.length then body
        else
          valuesLoop req fuel b.listNext (body ++
            (encodeLength b.var.length ++ encodeLength value.length ++ (b.var ++ value)))

/-- `FCGI_GET_VALUES`: the answer goes out, and there is no request. -/
def getValues (req : FcgiIn) (buf : Nat → UInt8) (hdr : FcgiHeader) : FcgiIn :=
  let len := hdr.contentLength
  let padding := hdr.paddingLength.toNat
  let (bytes, fd) := safeRead req.fd (len + padding)
  if bytes.length ≠ len + padding then { req with fd := fd, keep := false }
  else
    match fcgiGetParams req.env (Memory.store buf 0 bytes) 0 len with
    | (false, env) => { req with fd := fd, env := env, keep := false }
    | (true, env) =>
      let req := { req with fd := fd, env := env }
      let body := valuesLoop req (env.buckets.length + 1) env.list []
      let pad := (body.length + 7) / 8 * 8 - body.length
      { req with
        sent := req.sent ++ headerBytes FcgiRequestType.getValuesResult.code 0
          body.length pad ++ body ++ List.replicate pad 0 }

/-- `FCGI_BEGIN_REQUEST` and the parameters; `len` is that of
`fcgi_begin_request`. -/
def beginRequest (req : FcgiIn) (buf : Nat → UInt8) (hdr : FcgiHeader) : Bool × FcgiIn :=
  let count := hdr.contentLength + hdr.paddingLength.toNat
  let (bytes, fd) := safeRead req.fd count
  let req := { req with fd := fd }
  if bytes.length ≠ count then (false, req)
  else
    let buf := Memory.store buf 0 bytes
    let req := { req with keep := (buf 2).toNat % 2 = 1 }
    match roleName (ofBytes (buf 0) (buf 1)) with
    | none => (false, req)
    | some role =>
      let req := { req with
        env := req.env.fcgiHashSet (nameHash fcgiRole) fcgiRole role }
      match readHeader req.fd with
      | (none, fd) => (false, { req with fd := fd })
      | (some hdr, fd) =>
        paramsLoop (req.fd.rest.length + 1) { req with fd := fd } buf hdr

/-- `fcgi_read_request`; `buf` is what its buffer on the stack holds before
anything is read into it. -/
def fcgiReadRequest (req : FcgiIn) (buf : Nat → UInt8) : Bool × FcgiIn :=
  let req := { req with keep := false, inLen := 0 }
  match readHeader req.fd with
  | (none, fd) => (false, { req with fd := fd })
  | (some hdr, fd) =>
    match skipEmptyStdin (fd.rest.length + 1) hdr fd with
    | (none, fd) => (false, { req with fd := fd })
    | (some hdr, fd) =>
      let req := { req with fd := fd }
      let len := hdr.contentLength
      if fcgiMaxLength < len + hdr.paddingLength.toNat then (false, req)
      else
        let req := { req with id := hdr.requestId }
        if hdr.type = FcgiRequestType.beginRequest.code ∧ len = 8 then
          req.beginRequest buf hdr
        else if hdr.type = FcgiRequestType.getValues.code then
          (false, req.getValues buf hdr)
        else (false, req)

end FcgiIn

end PhpEngine

/-
The read buffer of `php_stream` over a file that can be sought: refills with
and without read filters, reads, lines, records, writes and seeks.
-/
import PhpEngine.ByteFile
import PhpEngine.Decimal

namespace PhpEngine

/-- A chunk size as `stream_set_chunk_size` admits it. -/
structure ChunkSize where
  val : Nat
  pos : 0 < val
  le_intMax : val < 2 ^ 31

/-- `PSFS_ERR_FATAL`, `PSFS_FEED_ME` and `PSFS_PASS_ON`. -/
inductive FilterStatus where
  | errFatal
  | feedMe
  | passOn
deriving Repr, DecidableEq

/-- `PSFS_FLAG_NORMAL`, `PSFS_FLAG_FLUSH_INC` and `PSFS_FLAG_FLUSH_CLOSE`. -/
inductive FilterFlag where
  | normal
  | flushInc
  | flushClose
deriving Repr, DecidableEq

/-- A bucket brigade, by the bytes of its buckets. -/
abbrev Brigade : Type :=
  List (List UInt8)

/-- A filter takes buckets from its first brigade and appends to its second. -/
abbrev ReadFilter : Type :=
  FilterFlag → Brigade → Brigade → FilterStatus × Brigade × Brigade

/-- `PHP_STREAM_FLAG_DETECT_EOL`, `PHP_STREAM_FLAG_EOL_MAC` or neither: the
second is set only when the first is cleared. -/
inductive EolMode where
  | detect
  | mac
  | unix
deriving Repr, DecidableEq

/-- `PHP_STREAM_FLAG_NO_SEEK`, `PHP_STREAM_FLAG_NO_BUFFER`, and the flags for
the ends of lines. -/
structure StreamFlags where
  noSeek : Bool
  noBuffer : Bool
  eol : EolMode
deriving Repr, DecidableEq

/-- `file` is what `ops` and `abstract` work on; `plainFiles` says that
`wrapper` is `php_plain_files_wrapper`; `readbuflen` is the length of
`readbuf`. -/
structure PhpStream where
  file : ByteFile
  plainFiles : Bool
  readfilters : List ReadFilter
  flags : StreamFlags
  chunkSize : ChunkSize
  readbuf : List UInt8
  readpos : Nat
  writepos : Nat
  position : Nat
  eof : Bool

namespace PhpStream

variable (s : PhpStream)

/-- `STREAM_BUFFERED_AMOUNT`. -/
def bufferedAmount : Nat :=
  s.writepos - s.readpos

/-- `n` bytes from `readbuf + readpos` on. -/
def peek (n : Nat) : List UInt8 :=
  (s.readbuf.drop s.readpos).take n

/-- `ops->read` into memory outside the stream. -/
def opsRead (asked : Nat) : List UInt8 × PhpStream :=
  ((s.file.read asked).1, { s with
      file := (s.file.read asked).2
      eof := (s.file.read asked).1.isEmpty })

/-- `memcpy` to `readbuf + writepos`. -/
def append (bytes : List UInt8) : PhpStream :=
  { s with
    readbuf := splice s.readbuf s.writepos bytes
    writepos := s.writepos + bytes.length }

/-- The `memmove` that brings the unread bytes to the front. -/
def compact : PhpStream :=
  { s with
    readbuf := s.readbuf.drop s.readpos ++ s.readbuf.drop (s.readbuf.length - s.readpos)
    writepos := s.writepos - s.readpos
    readpos := 0 }

/-- `perealloc` by `n` bytes. -/
def growBuffer (n : Nat) : PhpStream :=
  { s with readbuf := s.readbuf ++ List.replicate n 0 }

/-- `php_stream_fill_read_buffer` without filters. -/
def fillUnfiltered (size : Nat) : PhpStream :=
  if s.bufferedAmount < size then
    let s := if s.readbuf ≠ [] ∧
        s.readbuf.length - s.writepos < s.chunkSize.val then s.compact else s
    let s := if s.readbuf.length - s.writepos < s.chunkSize.val then
        s.growBuffer s.chunkSize.val else s
    let r := s.opsRead (s.readbuf.length - s.writepos)
    r.2.append r.1
  else s

/-- The `for` loop over the filters: the status, `brig_in` and `brig_out`. -/
def filterChain (flags : FilterFlag) : List ReadFilter → Brigade → Brigade → FilterStatus →
      FilterStatus × Brigade × Brigade
  | [], brigIn, brigOut, status => (status, brigIn, brigOut)
  | filter :: rest, brigIn, brigOut, _ =>
    let r := filter flags brigIn brigOut
    if r.1 ≠ .passOn then r
    else filterChain flags rest r.2.2 [] r.1

/-- A bucket is copied to the buffer, which grows by its size if needed. -/
def appendBucket (bucket : List UInt8) : PhpStream :=
  (if s.readbuf.length - s.writepos < bucket.length then
    s.growBuffer bucket.length else s).append bucket

/-- The `while` loop of a filtered refill.  It ends at `fuel` reads at the
latest: each but the last one delivers something. -/
def fillFilteredLoop (size : Nat) : Nat → PhpStream → Brigade → Brigade → PhpStream
  | 0, s, _, _ => s
  | fuel + 1, s, brigIn, brigOut =>
    if !s.eof ∧ s.bufferedAmount < size then
      let r := s.opsRead s.chunkSize.val
      let flags := if r.1 ≠ [] then .normal
        else if r.2.eof then .flushClose else .flushInc
      let brigIn := if r.1 ≠ [] then brigIn ++ [r.1] else brigIn
      let c := filterChain flags s.readfilters brigIn brigOut .errFatal
      match c.1 with
      | .passOn =>
        let s := c.2.1.foldl appendBucket r.2
        if r.1 = [] then s else fillFilteredLoop size fuel s [] c.2.2
      | .feedMe =>
        if r.1 = [] then r.2
        else fillFilteredLoop size fuel r.2 c.2.1 c.2.2
      | .errFatal => r.2
    else s

/-- `php_stream_fill_read_buffer` with filters. -/
def fillFiltered (size : Nat) : PhpStream :=
  fillFilteredLoop size (s.file.rest.length + 1) { s with writepos := 0, readpos := 0 } [] []

/-- `_php_stream_fill_read_buffer`. -/
def fillReadBuffer (size : Nat) : PhpStream :=
  if s.readfilters ≠ [] then s.fillFiltered size else s.fillUnfiltered size

/-- `n` bytes were copied from the buffer. -/
def skip (n : Nat) : PhpStream :=
  { s with readpos := s.readpos + n }

/-- Whether `_php_stream_read` goes past the buffer. -/
def readsDirectly : Bool :=
  s.readfilters.isEmpty && (s.flags.noBuffer || s.chunkSize.val = 1)

/-- One further portion in the loop of `_php_stream_read`, for an empty
buffer. -/
def readPortion (size : Nat) : List UInt8 × PhpStream :=
  if s.readsDirectly then s.opsRead size
  else
    let s := s.fillReadBuffer size
    let toread := min s.bufferedAmount size
    (s.peek toread, s.skip toread)

/-- The loop of `_php_stream_read`; `none` if it takes more turns than
`fuel`. -/
def readLoop : Nat → PhpStream → Nat → List UInt8 → Option (List UInt8 × PhpStream)
  | 0, _, _, _ => none
  | fuel + 1, s, size, didread =>
    if size = 0 then some (didread, s)
    else
      let toread := min s.bufferedAmount size
      let didread := didread ++ s.peek toread
      let s := s.skip toread
      let size := size - toread
      if size = 0 then some (didread, s)
      else
        let r := s.readPortion size
        if r.1 = [] then some (didread, r.2)
        else if !r.2.plainFiles then some (didread ++ r.1, r.2)
        else readLoop fuel r.2 (size - r.1.length) (didread ++ r.1)

/-- `_php_stream_read`. -/
def read (size : Nat) : Option (List UInt8 × PhpStream) :=
  (readLoop (size + 1) s size []).map fun r =>
    (r.1, { r.2 with position := r.2.position + r.1.length })

/-- `memchr`. -/
def memchr (b : UInt8) (l : List UInt8) : Option Nat :=
  if b ∈ l then some (l.idxOf b) else none

/-- `php_stream_locate_eol` on the buffer: the place of the end of the line
and the flags. -/
def locateEol : Option Nat × EolMode :=
  let avail := s.peek s.bufferedAmount
  match s.flags.eol with
  | .detect =>
    match memchr (byte '\r') avail, memchr (byte '\n') avail with
    | some cr, some lf =>
      if lf ≠ cr + 1 ∧ ¬ lf < cr then (some cr, .mac) else (some lf, .unix)
    | some cr, none => (some cr, .mac)
    | none, some lf => (some lf, .unix)
    | none, none => (none, .detect)
  | .mac => (memchr (byte '\r') avail, .mac)
  | .unix => (memchr (byte '\n') avail, .unix)

/-- The bytes were copied from the buffer and count as returned. -/
def consume (n : Nat) : PhpStream :=
  { s with position := s.position + n, readpos := s.readpos + n }

/-- What `_php_stream_get_line` writes to: a buffer it grows itself, or
`maxlen` bytes of its caller. -/
inductive LineBuffer where
  | growing
  | given (maxlen : Nat)
deriving Repr, DecidableEq

namespace LineBuffer

/-- The room left behind `n` bytes. -/
def advance : LineBuffer → Nat → LineBuffer
  | growing, _ => growing
  | given maxlen, n => given (maxlen - n)

/-- `cpysz` and `done` after the size of the buffer was looked at. -/
def clip : LineBuffer → Nat → Bool → Nat × Bool
  | growing, cpysz, done => (cpysz, done)
  | given maxlen, cpysz, done =>
    if maxlen - 1 ≤ cpysz then (maxlen - 1, true) else (cpysz, done)

/-- How much a refill is asked for. -/
def toread (chunk : Nat) : LineBuffer → Nat
  | growing => chunk
  | given maxlen => min (maxlen - 1) chunk

end LineBuffer

/-- The loop of `_php_stream_get_line`; `none` if it takes more turns than
`fuel`. -/
def getLineLoop : Nat → PhpStream → LineBuffer → List UInt8 → Option (List UInt8 × PhpStream)
  | 0, _, _, _ => none
  | fuel + 1, s, buf, copied =>
    if 0 < s.bufferedAmount then
      let eol := s.locateEol
      let c := match eol.1 with
        | some i => buf.clip (i + 1) true
        | none => buf.clip s.bufferedAmount false
      let copied := copied ++ s.peek c.1
      let s := { s with flags.eol := eol.2 }.consume c.1
      if c.2 then some (copied, s)
      else getLineLoop fuel s (buf.advance c.1) copied
    else if s.eof then some (copied, s)
    else
      let s := s.fillReadBuffer (buf.toread s.chunkSize.val)
      if s.bufferedAmount = 0 then some (copied, s)
      else getLineLoop fuel s buf copied

/-- `_php_stream_get_line`: the line, or `none` for `NULL`. -/
def getLine (buf : LineBuffer) : Option (Option (List UInt8) × PhpStream) :=
  if buf = .given 0 then some (none, s)
  else
    (getLineLoop (2 * s.file.rest.length + 3) s buf []).map fun r =>
      (if r.1 = [] then none else some r.1, r.2)

/-- The loop of `zend_memnstr`. -/
def memnstrLoop (needle : List UInt8) : List UInt8 → Option Nat
  | [] => none
  | b :: rest =>
    if (b :: rest).length < needle.length then none
    else if some b = needle.head? ∧ needle.getLast? = (b :: rest)[needle.length - 1]? ∧
        needle.take (needle.length - 1) = (b :: rest).take (needle.length - 1) then some 0
    else (memnstrLoop needle rest).map (· + 1)

/-- `zend_memnstr`, for a needle that is not empty. -/
def memnstr (needle haystack : List UInt8) : Option Nat :=
  match needle with
  | [b] => memchr b haystack
  | _ =>
    if haystack.length < needle.length then none
    else memnstrLoop needle haystack

/-- `_php_stream_search_delim`: the place counts from `readpos`. -/
def searchDelim (maxlen skiplen : Nat) (delim : List UInt8) : Option Nat :=
  let seekLen := min s.bufferedAmount maxlen
  if seekLen ≤ skiplen then none
  else (memnstr delim ((s.peek seekLen).drop skiplen)).map (· + skiplen)

/-- The loop of `php_stream_get_record`: the place of the delimiter and the
stream.  `just_read` and `buffered_len` are of type `size_t`; `none` if the
loop takes more turns than `fuel`. -/
def recordLoop (maxlen : Nat) (delim : List UInt8) :
    Nat → PhpStream → Nat → Option (Option Nat × PhpStream)
  | 0, _, _ => none
  | fuel + 1, s, bufferedLen =>
    if bufferedLen < maxlen then
      let toReadNow := min (maxlen - bufferedLen) s.chunkSize.val
      let s := s.fillReadBuffer (bufferedLen + toReadNow)
      let justRead :=
        (s.bufferedAmount + ulongMod - bufferedLen) % ulongMod
      if justRead = 0 then some (none, s)
      else
        let skiplen := if delim.length - 1 ≤ bufferedLen then
          bufferedLen - (delim.length - 1) else 0
        let found := if delim ≠ [] then s.searchDelim maxlen skiplen delim
          else none
        if found.isSome then some (found, s)
        else recordLoop maxlen delim fuel s ((bufferedLen + justRead) % ulongMod)
    else some (none, s)

/-- The bytes of a record and the delimiter behind it are taken. -/
def takeRecord (n dropped : Nat) : Option (Option (List UInt8) × PhpStream) :=
  (s.read n).map fun r =>
    (some r.1, { r.2 with
        readpos := r.2.readpos + dropped
        position := r.2.position + dropped })

/-- The search for the delimiter, with as many refills as it takes. -/
def recordSearch (maxlen : Nat) (delim : List UInt8) : Option (Option Nat × PhpStream) :=
  let found := if delim ≠ [] then s.searchDelim maxlen 0 delim else none
  if found.isSome then some (found, s)
  else recordLoop maxlen delim (s.file.rest.length + 4) s s.bufferedAmount

/-- What is returned after the search. -/
def recordEnd (maxlen : Nat) (delim : List UInt8) :
    Option Nat → Option (Option (List UInt8) × PhpStream)
  | some i => s.takeRecord i delim.length
  | none =>
    if delim = [] ∧ maxlen ≤ s.bufferedAmount then s.takeRecord maxlen 0
    else if s.bufferedAmount < maxlen ∧ !s.eof then some (none, s)
    else if s.bufferedAmount = 0 ∧ s.eof then some (none, s)
    else s.takeRecord (min s.bufferedAmount maxlen) 0

/-- `php_stream_get_record`: the record, or `none` for `NULL`. -/
def getRecord (maxlen : Nat) (delim : List UInt8) : Option (Option (List UInt8) × PhpStream) :=
  if maxlen = 0 then some (none, s)
  else
    (s.recordSearch maxlen delim).bind fun r =>
      r.2.recordEnd maxlen delim r.1

/-- The loop of `_php_stream_write_buffer`.  `count` bounds its turns: every
write takes at least one byte. -/
def writeLoop : Nat → PhpStream → List UInt8 → Nat → Nat × PhpStream
  | 0, s, _, didwrite => (didwrite, s)
  | count + 1, s, buf, didwrite =>
    if 0 < buf.length then
      let towrite := min buf.length s.chunkSize.val
      let justwrote := towrite
      let s := { s with file := s.file.write (buf.take towrite) }
      if 0 < toInt (justwrote % uintMod) then
        let s := if !s.flags.noSeek then
          { s with position := s.position + justwrote } else s
        writeLoop count s (buf.drop justwrote) (didwrite + justwrote)
      else (didwrite, s)
    else (didwrite, s)

/-- `ops->seek` with `SEEK_SET`, which sets `position`. -/
def opsSeek (offset : Int) : Option PhpStream :=
  (s.file.seek offset).map fun f =>
    { s with file := f, position := f.offset }

/-- `_php_stream_write_buffer`. -/
def writeBuffer (buf : List UInt8) : Nat × PhpStream :=
  let s := if !s.flags.noSeek ∧ s.readpos ≠ s.writepos then
      let s := { s with readpos := 0, writepos := 0 }
      (s.opsSeek s.position).getD s
    else s
  writeLoop buf.length s buf 0

/-- `_php_stream_write`, without write filters. -/
def write (buf : List UInt8) : Nat × PhpStream :=
  if buf.length = 0 then (0, s) else s.writeBuffer buf

/-- `_php_stream_tell`. -/
def tell : Nat :=
  s.position

/-- `SEEK_CUR` and `SEEK_SET`. -/
inductive Whence where
  | cur
  | set
deriving Repr, DecidableEq

/-- The case of `_php_stream_seek` in which the target is in the buffer. -/
def seekBuffered (offset : Int) : Whence → Option PhpStream
  | .cur =>
    if 0 < offset ∧ offset ≤ s.bufferedAmount then
      some { s.consume offset.toNat with eof := false }
    else none
  | .set =>
    if s.position < offset ∧ offset ≤ s.position + s.bufferedAmount then
      some { s.consume (offset - s.position).toNat with eof := false }
    else none

/-- A forward seek by reads of at most 1024 bytes; `none` if it takes more
turns than `fuel`. -/
def seekByReading : Nat → PhpStream → Nat → Option (Bool × PhpStream)
  | 0, _, _ => none
  | fuel + 1, s, offset =>
    if 0 < offset then
      (s.read (min offset 1024)).bind fun r =>
        if r.1 = [] then some (false, r.2)
        else seekByReading fuel r.2 (offset - r.1.length)
    else some (true, { s with eof := false })

/-- `_php_stream_seek`, without write filters: whether 0 is returned. -/
def seek (offset : Int) (whence : Whence) : Option (Bool × PhpStream) :=
  match if s.flags.noBuffer then none else s.seekBuffered offset whence with
  | some s => some (true, s)
  | none =>
    if !s.flags.noSeek then
      let target := match whence with
        | .cur => s.position + offset
        | .set => offset
      match s.opsSeek target with
      | some s => some (true, { s with eof := false, readpos := 0, writepos := 0 })
      | none => some (false, { s with readpos := 0, writepos := 0 })
    else if whence = .cur ∧ 0 ≤ offset then
      seekByReading (offset.toNat + 1) s offset.toNat
    else some (false, s)

end PhpStream

end PhpEngine

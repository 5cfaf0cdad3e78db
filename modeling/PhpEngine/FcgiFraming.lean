/-
The framing of the output: whatever is written, the bytes that go to the
socket are whole records, and their contents are what was written.
-/
import PhpEngine.FcgiOutput

namespace PhpEngine.FcgiOut

open List Option

variable {n : Nat} {str : List UInt8}

variable {req req' : FcgiOut} {bytes c : List UInt8} {type : FcgiRequestType}

/-- Every `write` to the socket succeeds. -/
def SocketOk (req : FcgiOut) : Prop :=
  ∀ k, req.accepts k ≠ none

/-- What no operation on the buffer changes. -/
structure Same (req req' : FcgiOut) : Prop where
  id : req'.id = req.id
  accepts : req'.accepts = req.accepts
  sent : req'.sent = req.sent

theorem Same.trans {req'' : FcgiOut} (h : Same req req') (h' : Same req' req'') : Same req req'' :=
  ⟨h'.id.trans h.id, h'.accepts.trans h.accepts, h'.sent.trans h.sent⟩

/-- No record is open, and the buffer holds `bytes`. -/
structure Buffered (req : FcgiOut) (bytes : List UInt8) : Prop where
  hdr : req.outHdr = none
  pos : req.outPos = bytes.length
  held : Memory.slice req.outBuf 0 bytes.length = bytes

/-- Behind `bytes` a record is open that has the content `c` so far. -/
structure Opened (req : FcgiOut) (bytes : List UInt8) (type : FcgiRequestType)
    (c : List UInt8) : Prop where
  hdr : req.outHdr = some bytes.length
  code : req.outBuf (bytes.length + 1) = type.code
  pos : req.outPos = bytes.length + sizeofHeader + c.length
  held : Memory.slice req.outBuf 0 bytes.length = bytes
  content : Memory.slice req.outBuf (bytes.length + sizeofHeader) c.length = c

/-- The record that `fcgi_make_header` makes of a content, as bytes. -/
def packetBytes (id : Nat) (type : FcgiRequestType) (c : List UInt8) : List UInt8 :=
  headerBytes type.code id c.length (padOf c.length) ++ (c ++ List.replicate (padOf c.length) 0)

theorem put_eq {p : Nat} {items : List UInt8}
    (h : p + items.length ≤ sizeofOutBuf + sizeofReserved) : req.put p items =
      some { req with outBuf := Memory.store req.outBuf p items } :=
  if_pos h

theorem advance_eq (h : req.outPos + n ≤ sizeofOutBuf + sizeofReserved) :
    req.advance n = some { req with outPos := req.outPos + n } :=
  if_pos h

theorem length_headerBytes (type : UInt8) (id len pad : Nat) :
    (headerBytes type id len pad).length = sizeofHeader :=
  rfl

theorem openPacket_opened (h : Buffered req bytes) (type : FcgiRequestType)
    (hfits : bytes.length + sizeofHeader ≤ sizeofOutBuf + sizeofReserved) :
    ∃ req', req.openPacket type = some req' ∧ Opened req' bytes type [] ∧ Same req req' := by
  have hput : req.outPos + 1 + [type.code].length ≤ sizeofOutBuf + sizeofReserved := by
    rw [h.pos, length_singleton]
    rw [sizeofHeader] at hfits
    omega
  rw [openPacket, put_eq hput, bind_eq_bind, bind_some, advance_eq (by rw [h.pos]; exact hfits)]
  refine ⟨_, rfl, ⟨by rw [h.pos], ?_, by simp [h.pos], ?_, rfl⟩, rfl, rfl, rfl⟩
  · simp [Memory.store, h.pos]
  · rw [Memory.slice_store_before (by rw [h.pos]; omega)]
    exact h.held

theorem copy_eq (h : req.outPos + str.length ≤ sizeofOutBuf + sizeofReserved) :
    req.copy str = some { req with
      outBuf := Memory.store req.outBuf req.outPos str
      outPos := req.outPos + str.length } := by
  simp only [copy, put, advance, if_pos h, bind_eq_bind, bind_some]

theorem copy_opened (h : Opened req bytes type c) (str : List UInt8)
    (hfits : req.outPos + str.length ≤ sizeofOutBuf + sizeofReserved) :
    ∃ req', req.copy str = some req' ∧ Opened req' bytes type (c ++ str) ∧ Same req req' := by
  have hpos := h.pos
  rw [copy_eq hfits]
  refine ⟨_, rfl, ⟨h.hdr, ?_, ?_, ?_, ?_⟩, rfl, rfl, rfl⟩
  · have hlt : bytes.length + 1 < req.outPos := by
      rw [hpos, sizeofHeader]
      omega
    exact (Memory.store_of_lt hlt).trans h.code
  · simp only [hpos, length_append]
    omega
  · rw [Memory.slice_store_before (by omega)]
    exact h.held
  · rw [length_append, Memory.slice_append, Memory.slice_store_before (by omega), h.content, ← hpos,
      Memory.slice_store]

theorem makeHeader_eq {hdr len : Nat} {type : UInt8}
    (hheader : hdr + sizeofHeader ≤ sizeofOutBuf + sizeofReserved)
    (hpad : padOf len ≠ 0 → hdr + sizeofHeader + len + padOf len ≤ sizeofOutBuf + sizeofReserved) :
    req.makeHeader hdr type len = some (padOf len, { req with
        outBuf := Memory.store
          (Memory.store req.outBuf hdr (headerBytes type req.id len (padOf len)))
          (hdr + sizeofHeader + len) (List.replicate (padOf len) 0) }) := by
  rw [makeHeader, put_eq (by exact hheader), bind_eq_bind, bind_some]
  by_cases hzero : padOf len = 0
  · simp [zeros, hzero]
  · have hfits : hdr + sizeofHeader + len + (List.replicate (padOf len) (0 : UInt8)).length ≤
          sizeofOutBuf + sizeofReserved := by
      rw [length_replicate]
      exact hpad hzero
    rw [zeros, if_pos hzero, put_eq hfits]
    rfl

/-- A header in front of a content makes a record of the two. -/
theorem makeHeader_packet {hdr : Nat} (type : FcgiRequestType) (c : List UInt8)
    (hcontent : Memory.slice req.outBuf (hdr + sizeofHeader) c.length = c)
    (hfits : hdr + sizeofHeader + c.length + padOf c.length ≤ sizeofOutBuf + sizeofReserved) :
    ∃ req', req.makeHeader hdr type.code c.length = some (padOf c.length, req') ∧
      Memory.slice req'.outBuf hdr (packetBytes req.id type c).length = packetBytes req.id type c ∧
      (∀ n ≤ hdr, Memory.slice req'.outBuf 0 n = Memory.slice req.outBuf 0 n) ∧
      req'.outHdr = req.outHdr ∧ req'.outPos = req.outPos ∧ Same req req' := by
  rw [makeHeader_eq (by omega) (fun _ => hfits)]
  refine ⟨_, rfl, ?_, ?_, rfl, rfl, rfl, rfl, rfl⟩
  · have hfirst := Memory.slice_store req.outBuf hdr
      (headerBytes type.code req.id c.length (padOf c.length))
    rw [length_headerBytes] at hfirst
    have hsecond : Memory.slice (Memory.store req.outBuf hdr
        (headerBytes type.code req.id c.length (padOf c.length)))
          (hdr + sizeofHeader) c.length = c := by
      rw [Memory.slice_store_behind (by rw [length_headerBytes]), hcontent]
    simp only [packetBytes, length_append, length_headerBytes,
      Memory.slice_append, Memory.slice_store]
    rw [Memory.slice_store_before (by omega), hfirst, Memory.slice_store_before (by omega), hsecond]
  · intro n hn
    rw [Memory.slice_store_before (by omega), Memory.slice_store_before (by omega)]

theorem length_packetBytes (id : Nat) (type : FcgiRequestType) (c : List UInt8) :
    (packetBytes id type c).length = sizeofHeader + c.length + padOf c.length := by
  simp only [packetBytes, length_append, length_headerBytes, length_replicate]
  omega

/-- Closing the open record leaves it in the buffer as a whole. -/
theorem closePacket_buffered (h : Opened req bytes type c)
    (hfits : bytes.length + sizeofHeader + c.length + padOf c.length ≤
      sizeofOutBuf + sizeofReserved) : ∃ req', req.closePacket = some req' ∧
      Buffered req' (bytes ++ packetBytes req.id type c) ∧ Same req req' := by
  have hlen : req.outPos - (bytes.length + sizeofHeader) = c.length := by
    rw [h.pos]
    omega
  obtain ⟨req₁, hmake, hpacket, hkeep, -, hpos, hsame⟩ :=
    makeHeader_packet type c h.content hfits
  have hadvance : req₁.outPos + padOf c.length ≤ sizeofOutBuf + sizeofReserved := by
    rw [hpos, h.pos]
    exact hfits
  simp only [closePacket, h.hdr, hlen, h.code, hmake, bind_eq_bind,
    bind_some, advance_eq hadvance, Option.pure_def]
  refine ⟨_, rfl, ⟨rfl, ?_, ?_⟩, hsame.id, hsame.accepts, hsame.sent⟩
  · simp only [hpos, h.pos, length_append, length_packetBytes]
    omega
  · rw [length_append, Memory.slice_append, zero_add, hpacket, hkeep _ le_rfl, h.held]

theorem safeWriteLoop_ok (hok : SocketOk req) {fuel : Nat}
    {buf : List UInt8} (hfuel : buf.length < fuel) :
    ∃ w, safeWriteLoop fuel req buf n = (((n + buf.length : Nat) : Int),
      { req with sent := req.sent ++ buf, writes := w }) := by
  induction fuel generalizing req n buf with
  | zero => cases hfuel
  | succ fuel ih =>
    obtain ⟨k, hk⟩ := ne_none_iff_exists'.mp (hok req.writes)
    simp only [safeWriteLoop, hk]
    by_cases hall : min buf.length (k + 1) = buf.length
    · rw [if_pos hall, hall, take_length]
      exact ⟨_, rfl⟩
    · rw [if_neg hall]
      have hret : min buf.length (k + 1) = k + 1 := by omega
      rw [hret]
      have hok' : SocketOk { req with
          writes := req.writes + 1
          sent := req.sent ++ buf.take (k + 1) } := hok
      have hfuel' : (buf.drop (k + 1)).length < fuel := by
        rw [length_drop]
        omega
      obtain ⟨w, hw⟩ := ih hok' (n := n + (k + 1)) hfuel'
      refine ⟨w, ?_⟩
      rw [hw]
      simp only [append_assoc, take_append_drop, length_drop]
      congr 2
      omega

/-- All bytes reach the socket, however many each `write` takes. -/
theorem safeWrite_ok (hok : SocketOk req) (buf : List UInt8) :
    ∃ w, req.safeWrite buf = ((buf.length : Int),
      { req with sent := req.sent ++ buf, writes := w }) := by
  obtain ⟨w, hw⟩ := safeWriteLoop_ok hok (n := 0) (Nat.lt_succ_self buf.length)
  rw [zero_add] at hw
  exact ⟨w, hw⟩

/-- The buffer is empty, and `bytes` went to the socket since `req`. -/
structure Flushed (req : FcgiOut) (bytes : List UInt8) (req' : FcgiOut) :
    Prop where
  empty : Buffered req' []
  id : req'.id = req.id
  accepts : req'.accepts = req.accepts
  sent : req'.sent = req.sent ++ bytes

theorem Same.flushed {req'' : FcgiOut} (h : Same req req')
    (h' : Flushed req' bytes req'') : Flushed req bytes req'' :=
  ⟨h'.empty, h'.id.trans h.id, h'.accepts.trans h.accepts, h'.sent.trans (by rw [h.sent])⟩

theorem Same.socketOk (h : Same req req') (hok : SocketOk req) : SocketOk req' := by
  rw [SocketOk, h.accepts]
  exact hok

theorem Flushed.socketOk (h : Flushed req bytes req') (hok : SocketOk req) : SocketOk req' := by
  rw [SocketOk, h.accepts]
  exact hok

theorem fcgiFlush_buffered (h : Buffered req bytes) (hok : SocketOk req) :
    ∃ req', req.fcgiFlush false = some (true, req') ∧ Flushed req bytes req' := by
  have hclose : req.closePacket = some req := by
    rw [closePacket, h.hdr]
  obtain ⟨w, hw⟩ := safeWrite_ok hok (Memory.slice req.outBuf 0 req.outPos)
  rw [h.pos, h.held] at hw
  simp only [fcgiFlush, hclose, bind_eq_bind, bind_some,
    Bool.false_eq_true, if_false, Option.pure_def, h.pos, h.held, hw, ne_eq,
    not_true_eq_false]
  exact ⟨_, rfl, ⟨h.hdr, rfl, rfl⟩, rfl, rfl, rfl⟩

/-- A flush closes the open record and hands it over with the buffer. -/
theorem fcgiFlush_opened (h : Opened req bytes type c) (hok : SocketOk req)
    (hfits : bytes.length + sizeofHeader + c.length + padOf c.length ≤
      sizeofOutBuf + sizeofReserved) : ∃ req', req.fcgiFlush false = some (true, req') ∧
      Flushed req (bytes ++ packetBytes req.id type c) req' := by
  obtain ⟨req₁, hclose, hbuffered, hsame⟩ := closePacket_buffered h hfits
  obtain ⟨req₂, hflush, hflushed⟩ :=
    fcgiFlush_buffered hbuffered (hsame.socketOk hok)
  refine ⟨req₂, ?_, hsame.flushed hflushed⟩
  have hclosed : req₁.closePacket = some req₁ := by
    rw [closePacket, hbuffered.hdr]
  rw [fcgiFlush, hclosed] at hflush
  rw [fcgiFlush, hclose]
  exact hflush

theorem padOf_eq_zero (h : 8 ∣ n) : padOf n = 0 := by
  rw [padOf]
  omega

theorem largeRecord_flushed (h : Buffered req bytes) (hok : SocketOk req)
    (type : FcgiRequestType) (hstr : 8 ∣ str.length)
    (hfits : bytes.length + sizeofHeader ≤ sizeofOutBuf + sizeofReserved) :
    ∃ req', req.largeRecord type str = some (true, req') ∧
      Flushed req (bytes ++ packetBytes req.id type str) req' := by
  have hpad := padOf_eq_zero hstr
  obtain ⟨req₁, hopen, hopened, hsame⟩ := openPacket_opened h type hfits
  -- the header alone, with the length of the content that is to come
  have hmake : req₁.makeHeader (req₁.outHdr.getD 0) type.code str.length = some (0, { req₁ with
          outBuf := Memory.store req₁.outBuf bytes.length
            (headerBytes type.code req.id str.length 0) }) := by
    have hhdr : req₁.outHdr.getD 0 = bytes.length := by
      rw [hopened.hdr]
      rfl
    rw [hhdr, makeHeader_eq hfits (absurd hpad), hpad, hsame.id, replicate_zero, Memory.store_nil]
  have hheader : Buffered { req₁ with
      outHdr := none
      outBuf := Memory.store req₁.outBuf bytes.length (headerBytes type.code req.id str.length 0) }
      (bytes ++ headerBytes type.code req.id str.length 0) := by
    refine ⟨rfl, ?_, ?_⟩
    · rw [length_append, length_headerBytes]
      exact hopened.pos
    · rw [length_append, Memory.slice_append,
        Memory.slice_store_before (by omega), hopened.held, zero_add,
        Memory.slice_store]
  obtain ⟨req₂, hflush, hflushed⟩ :=
    fcgiFlush_buffered hheader (hsame.socketOk hok)
  obtain ⟨w, hw⟩ := safeWrite_ok (hflushed.socketOk (hsame.socketOk hok)) str
  refine ⟨{ req₂ with sent := req₂.sent ++ str, writes := w }, ?_,
    ⟨hflushed.empty.hdr, hflushed.empty.pos, hflushed.empty.held⟩,
    hflushed.id.trans hsame.id,
    hflushed.accepts.trans hsame.accepts, ?_⟩
  · simp only [largeRecord, hopen, hmake, hflush, writeAround, hw,
      bind_eq_bind, bind_some, if_true, ne_eq,
      not_true_eq_false, if_false, Option.pure_def]
  · have hsent := hflushed.sent
    simp only [hsent, hsame.sent, packetBytes, hpad, replicate_zero, append_nil, append_assoc]

/-- A content that is written around the buffer as one record. -/
structure LargePart (part : List UInt8) : Prop where
  ne_nil : part ≠ []
  aligned : 8 ∣ part.length
  short : part.length < 2 ^ 16

/-- The loop sends records of `0xfff8` bytes until the rest fits into one. -/
theorem largeLoop_parts (h : Buffered req bytes) (hok : SocketOk req) (type : FcgiRequestType)
    (hfits : bytes.length + sizeofHeader ≤ sizeofOutBuf + sizeofReserved)
    {fuel : Nat} (hstr : 8 ≤ str.length) (hfuel : str.length ≤ fuel) :
    ∃ (req' : FcgiOut) (bytes' : List UInt8) (parts : List (List UInt8)) (rest : List UInt8),
      largeLoop type fuel req str = some (true, req', rest) ∧
      Buffered req' bytes' ∧ bytes'.length ≤ bytes.length ∧
      req'.id = req.id ∧ req'.accepts = req.accepts ∧ req'.sent ++ bytes' =
        req.sent ++ bytes ++ parts.flatMap (packetBytes req.id type) ∧
      str = parts.flatten ++ rest ∧ (∀ part ∈ parts, LargePart part) ∧
      8 ≤ rest.length ∧ rest.length < 2 ^ 16 := by
  induction fuel generalizing req bytes str with
  | zero => omega
  | succ fuel ih =>
    by_cases hlong : 0xffff < str.length
    · have hlength : (str.take 0xfff8).length = 0xfff8 := by
        rw [length_take]
        omega
      obtain ⟨req₁, hrecord, hflushed⟩ := largeRecord_flushed h hok type
        (by rw [hlength]; decide : 8 ∣ (str.take 0xfff8).length) hfits
      obtain ⟨req', bytes', parts, rest, hloop, hbuffered, hle, hid, haccepts,
          hsent, hrest, hparts, hends⟩ :=
        ih hflushed.empty (hflushed.socketOk hok) (by decide)
          (by rw [length_drop]; omega : 8 ≤ (str.drop 0xfff8).length)
          (by rw [length_drop]; omega)
      refine ⟨req', bytes', str.take 0xfff8 :: parts, rest, ?_, hbuffered,
        le_trans hle (Nat.zero_le _), hid.trans hflushed.id,
        haccepts.trans hflushed.accepts, ?_, ?_, ?_, hends⟩
      · rw [largeLoop, if_pos hlong, hrecord]
        exact hloop
      · rw [hsent, hflushed.sent, hflushed.id, flatMap_cons]
        simp only [append_assoc, append_nil]
      · rw [flatten_cons, append_assoc, ← hrest, take_append_drop]
      · refine forall_mem_cons.mpr ⟨⟨?_, ?_, ?_⟩, hparts⟩
        · intro hnil
          rw [hnil] at hlength
          cases hlength
        · rw [hlength]
          decide
        · rw [hlength]
          decide
    · refine ⟨req, bytes, [], str, ?_, h, le_rfl, rfl, rfl, ?_, rfl, by simp, hstr, by omega⟩
      · rw [largeLoop, if_neg hlong]
      · simp

/-- A long string: whole records around the buffer, and the last bytes in a
record that stays open. -/
theorem writeLarge_parts (h : Buffered req bytes) (hok : SocketOk req) (type : FcgiRequestType)
    (hfits : bytes.length + sizeofHeader ≤ sizeofOutBuf + sizeofReserved) (hstr : 8 ≤ str.length) :
    ∃ (req' : FcgiOut) (parts : List (List UInt8)) (rest : List UInt8),
      req.writeLarge type str = some (true, req') ∧ req'.id = req.id ∧ req'.accepts = req.accepts ∧
      req'.sent = req.sent ++ bytes ++ parts.flatMap (packetBytes req.id type) ∧
      str = parts.flatten ++ rest ∧ (∀ part ∈ parts, LargePart part) ∧ rest.length < 8 ∧
      (if rest = [] then Buffered req' [] else Opened req' [] type rest) := by
  have hclose : req.closePacket = some req := by
    rw [closePacket, h.hdr]
  obtain ⟨req₁, bytes₁, parts, str₁, hloop, hbuffered, hle, hid, haccepts, hsent,
    rfl, hparts, hlow, hhigh⟩ :=
    largeLoop_parts h hok type hfits hstr le_rfl
  have hok₁ : SocketOk req₁ := by
    rw [SocketOk, haccepts]
    exact hok
  -- the tail that does not fill eight bytes
  have htail : (if padOf str₁.length ≠ 0 then 8 - padOf str₁.length else 0) = str₁.length % 8 := by
    rw [padOf]
    split <;> omega
  have hpart : (str₁.take (str₁.length - str₁.length % 8)).length =
      str₁.length - str₁.length % 8 := by
    rw [length_take]
    omega
  obtain ⟨req₂, hrecord, hflushed⟩ := largeRecord_flushed hbuffered hok₁ type
    (by rw [hpart]; omega :
      8 ∣ (str₁.take (str₁.length - str₁.length % 8)).length) (by omega)
  have hmade : LargePart (str₁.take (str₁.length - str₁.length % 8)) := by
    refine ⟨?_, by rw [hpart]; omega, by rw [hpart]; omega⟩
    intro hnil
    rw [hnil, length_nil] at hpart
    omega
  have hstream : req₂.sent = req.sent ++ bytes ++ (parts ++
      [str₁.take (str₁.length - str₁.length % 8)]).flatMap (packetBytes req.id type) := by
    rw [hflushed.sent, hid, ← append_assoc, hsent, flatMap_append, flatMap_singleton]
    simp only [append_assoc]
  have hwhole : parts.flatten ++ str₁ = (parts ++
      [str₁.take (str₁.length - str₁.length % 8)]).flatten ++
        str₁.drop (str₁.length - str₁.length % 8) := by
    simp
  have hall : ∀ part ∈ parts ++ [str₁.take (str₁.length - str₁.length % 8)], LargePart part :=
    forall_mem_append.mpr ⟨hparts, forall_mem_singleton.mpr hmade⟩
  have hrest : (str₁.drop (str₁.length - str₁.length % 8)).length = str₁.length % 8 := by
    rw [length_drop]
    omega
  by_cases hzero : padOf str₁.length = 0
  · have hnil : str₁.drop (str₁.length - str₁.length % 8) = [] := by
      rw [← length_eq_zero_iff, hrest]
      rw [padOf] at hzero
      omega
    refine ⟨req₂, _, _, ?_, hflushed.id.trans hid,
      hflushed.accepts.trans haccepts, hstream, hwhole, hall,
      by rw [hrest]; omega, ?_⟩
    · simp only [writeLarge, hclose, hloop, bind_eq_bind,
        bind_some, if_true, htail, hrecord, Option.pure_def]
      rw [if_neg fun hboth => hboth.2 hzero]
    · rw [if_pos hnil]
      exact hflushed.empty
  · have hne : str₁.drop (str₁.length - str₁.length % 8) ≠ [] := by
      rw [← length_pos_iff, hrest]
      rw [padOf] at hzero
      omega
    obtain ⟨req₃, hopen, hopened, hsame⟩ := openPacket_opened hflushed.empty type (by decide)
    obtain ⟨req₄, hcopy, hcopied, hsame'⟩ := copy_opened hopened
      (str₁.drop (str₁.length - str₁.length % 8)) (by
        rw [hopened.pos, hrest, sizeofHeader, sizeofOutBuf]
        simp only [length_nil]
        omega)
    refine ⟨req₄, _, _, ?_, (hsame.trans hsame').id.trans
      (hflushed.id.trans hid), (hsame.trans hsame').accepts.trans
      (hflushed.accepts.trans haccepts), (hsame.trans hsame').sent.trans hstream,
      hwhole, hall, by rw [hrest]; omega, ?_⟩
    · simp only [writeLarge, hclose, hloop, bind_eq_bind,
        bind_some, if_true, htail, hrecord, Option.pure_def]
      rw [if_pos ⟨trivial, hzero⟩, hopen, bind_some, hcopy]
      rfl
    · rw [if_neg hne]
      exact hcopied

/-- A record of the type is open with the content `c`, or none is open and `c`
is empty. -/
structure Ready (req : FcgiOut) (bytes : List UInt8) (type : FcgiRequestType)
    (c : List UInt8) : Prop where
  aligned : 8 ∣ bytes.length
  le : bytes.length ≤ sizeofOutBuf
  state : (c ≠ [] ∧ Opened req bytes type c ∧
      bytes.length + sizeofHeader + c.length < sizeofOutBuf) ∨
    (c = [] ∧ Buffered req bytes)

theorem Ready.ensurePacket (h : Ready req bytes type c) :
    ∃ req', req.ensurePacket type = some req' ∧ Opened req' bytes type c ∧ Same req req' := by
  rcases h.state with ⟨-, hopened, -⟩ | ⟨rfl, hbuffered⟩
  · refine ⟨req, ?_, hopened, rfl, rfl, rfl⟩
    rw [FcgiOut.ensurePacket, hopened.hdr]
    rfl
  · obtain ⟨req', hopen, hopened, hsame⟩ := openPacket_opened hbuffered type (by
      have hle := h.le
      rw [sizeofHeader, sizeofReserved]
      omega)
    refine ⟨req', ?_, hopened, hsame⟩
    rw [FcgiOut.ensurePacket, hbuffered.hdr]
    exact hopen

theorem Ready.limit (h : Ready req bytes type c) : sizeofOutBuf - req.outPos -
        (if req.outHdr.isSome then 0 else sizeofHeader) =
      sizeofOutBuf - (bytes.length + sizeofHeader + c.length) := by
  rcases h.state with ⟨-, hopened, -⟩ | ⟨rfl, hbuffered⟩
  · rw [hopened.hdr, hopened.pos]
    rfl
  · rw [hbuffered.hdr, hbuffered.pos, length_nil, add_zero, Nat.sub_sub]
    rfl

/-- The contents `parts` went out as records behind `bytes`, and `rest` is
what the open record has. -/
structure Wrote (req : FcgiOut) (bytes : List UInt8) (type : FcgiRequestType)
    (parts : List (List UInt8)) (rest bytes' : List UInt8) (req' : FcgiOut) :
    Prop where
  id : req'.id = req.id
  accepts : req'.accepts = req.accepts
  sent : req'.sent ++ bytes' = req.sent ++ bytes ++ parts.flatMap (packetBytes req.id type)
  short : ∀ part ∈ parts, part.length < 2 ^ 16
  place : bytes' = [] ∨ (parts = [] ∧ bytes' = bytes ∧ rest ≠ [])
  state : (rest = [] ∧ Buffered req' []) ∨ (rest ≠ [] ∧ Opened req' bytes' type rest ∧
      bytes'.length + sizeofHeader + rest.length < sizeofOutBuf)

theorem Ready.writeShort (h : Ready req bytes type c) (hstr : str ≠ [])
    (hlen : str.length < sizeofOutBuf - (bytes.length + sizeofHeader + c.length)) :
    ∃ req', req.writeString type str = some ((str.length : Int), req') ∧
      Wrote req bytes type [] (c ++ str) bytes req' := by
  obtain ⟨req₁, hensure, hopened, hsame⟩ := h.ensurePacket
  obtain ⟨req₂, hcopy, hcopied, hsame'⟩ := copy_opened hopened str (by
    rw [hopened.pos]
    omega)
  have hne : c ++ str ≠ [] := by simp [hstr]
  refine ⟨req₂, ?_, (hsame.trans hsame').id, (hsame.trans hsame').accepts, ?_,
    by simp, .inr ⟨rfl, rfl, hne⟩, .inr ⟨hne, hcopied, ?_⟩⟩
  · rw [writeString]
    simp only [h.limit, if_pos hlen, hensure, hcopy, bind_eq_bind, bind_some, Option.pure_def]
  · rw [(hsame.trans hsame').sent, flatMap_nil, append_nil]
  · rw [length_append]
    omega

/-- The content that fills up the buffer, and the padding. -/
theorem filled_fits (haligned : 8 ∣ bytes.length) (hle : bytes.length ≤ sizeofOutBuf)
    (hn : n = 0 ∨ bytes.length + sizeofHeader + n ≤ sizeofOutBuf) :
    bytes.length + sizeofHeader + n + padOf n ≤ sizeofOutBuf + sizeofReserved := by
  rw [padOf]
  rw [sizeofOutBuf, sizeofHeader] at *
  rw [sizeofReserved]
  omega

/-- The string fills up the buffer, and the rest of it fits into the next. -/
theorem Ready.writeMiddle (h : Ready req bytes type c) (hok : SocketOk req)
    (hlow : sizeofOutBuf - (bytes.length + sizeofHeader + c.length) ≤ str.length)
    (hhigh : str.length - (sizeofOutBuf -
      (bytes.length + sizeofHeader + c.length)) < sizeofOutBuf - sizeofHeader) :
    ∃ req', req.writeString type str = some ((str.length : Int), req') ∧ Wrote req bytes type
        [c ++ str.take (sizeofOutBuf - (bytes.length + sizeofHeader + c.length))]
        (str.drop (sizeofOutBuf - (bytes.length + sizeofHeader + c.length))) [] req' := by
  generalize hlimit : sizeofOutBuf - (bytes.length + sizeofHeader + c.length) = limit at *
  have hlength : (c ++ str.take limit).length = c.length + limit := by
    rw [length_append, length_take, min_eq_left hlow]
  have hroom : c.length + limit = 0 ∨
      bytes.length + sizeofHeader + (c.length + limit) ≤ sizeofOutBuf := by
    rcases h.state with ⟨-, -, hlt⟩ | ⟨rfl, -⟩
    · omega
    · rw [length_nil] at *
      omega
  have hfits := filled_fits h.aligned h.le hroom
  obtain ⟨req₁, hensure, hopened, hsame⟩ := h.ensurePacket
  obtain ⟨req₂, hcopy, hcopied, hsame'⟩ := copy_opened hopened (str.take limit) (by
      rw [hopened.pos, length_take]
      omega)
  -- a copy of no bytes is left out
  obtain ⟨req₃, hfill, hfilled, hsame₃⟩ : ∃ req₃, req₁.fillUp limit str = some req₃ ∧
        Opened req₃ bytes type (c ++ str.take limit) ∧ Same req req₃ := by
    rw [fillUp]
    by_cases hpos : 0 < limit
    · exact ⟨req₂, by rw [if_pos hpos, hcopy], hcopied, hsame.trans hsame'⟩
    · have hzero : limit = 0 := Nat.eq_zero_of_not_pos hpos
      refine ⟨req₁, if_neg hpos, ?_, hsame⟩
      rw [hzero, take_zero, append_nil]
      exact hopened
  obtain ⟨req₄, hflush, hflushed⟩ := fcgiFlush_opened hfilled
    (hsame₃.socketOk hok) (by rw [hlength]; exact hfits)
  have hsent : req₄.sent = req.sent ++ bytes ++
      [c ++ str.take limit].flatMap (packetBytes req.id type) := by
    rw [hflushed.sent, hsame₃.sent, hsame₃.id, flatMap_singleton, append_assoc]
  have hshort : ∀ part ∈ [c ++ str.take limit], part.length < 2 ^ 16 := by
    rw [forall_mem_singleton, hlength]
    rw [sizeofOutBuf] at hroom
    omega
  by_cases hmore : limit < str.length
  · have hrest : (str.drop limit).length = str.length - limit :=
      length_drop
    obtain ⟨req₅, hopen, hopened₅, hsame₅⟩ := openPacket_opened hflushed.empty type (by decide)
    obtain ⟨req₆, hcopy₆, hcopied₆, hsame₆⟩ := copy_opened hopened₅ (str.drop limit) (by
        rw [hopened₅.pos, hrest, length_nil]
        omega)
    have hsame' := hsame₅.trans hsame₆
    refine ⟨req₆, ?_, hsame'.id.trans (hflushed.id.trans hsame₃.id),
      hsame'.accepts.trans (hflushed.accepts.trans hsame₃.accepts), ?_, hshort,
      .inl rfl, .inr ⟨?_, hcopied₆, ?_⟩⟩
    · rw [writeString]
      simp only [h.limit, hlimit, if_neg (Nat.not_lt_of_le hlow), if_pos hhigh,
        hensure, hfill, hflush, if_pos hmore, hopen, hcopy₆, if_true,
        bind_eq_bind, bind_some, Option.pure_def]
    · rw [hsame'.sent, append_nil, hsent]
    · rw [← length_pos_iff, hrest]
      omega
    · rw [hrest, length_nil]
      omega
  · have hnil : str.drop limit = [] := by
      rw [drop_eq_nil_iff]
      omega
    refine ⟨req₄, ?_, hflushed.id.trans hsame₃.id,
      hflushed.accepts.trans hsame₃.accepts, ?_, hshort, .inl rfl,
      .inl ⟨hnil, hflushed.empty⟩⟩
    · rw [writeString]
      simp only [h.limit, hlimit, if_neg (Nat.not_lt_of_le hlow), if_pos hhigh,
        hensure, hfill, hflush, if_neg hmore, if_true,
        bind_eq_bind, bind_some, Option.pure_def]
    · rw [append_nil, hsent]

theorem writeLarge_opened {req₁ : FcgiOut}
    (hclose : req.closePacket = some req₁) (hhdr : req₁.outHdr = none) :
    req.writeLarge type str = req₁.writeLarge type str := by
  have hclosed : req₁.closePacket = some req₁ := by
    rw [closePacket, hhdr]
  rw [writeLarge, hclose, writeLarge, hclosed]

theorem Ready.writeMany (h : Ready req bytes type c) (hok : SocketOk req)
    (hlow : sizeofOutBuf - sizeofHeader ≤ str.length -
      (sizeofOutBuf - (bytes.length + sizeofHeader + c.length))) :
    ∃ (req' : FcgiOut) (parts : List (List UInt8)) (rest : List UInt8),
      req.writeString type str = some ((str.length : Int), req') ∧
      Wrote req bytes type parts rest [] req' ∧ c ++ str = parts.flatten ++ rest ∧ [] ∉ parts := by
  have hlong : sizeofOutBuf - sizeofHeader ≤ str.length :=
    le_trans hlow (Nat.sub_le _ _)
  have hstr : 8 ≤ str.length := le_trans (by decide) hlong
  have hrun : req.writeString type str = (req.writeLarge type str).bind fun out =>
      some (if out.1 then (str.length : Int) else -1, out.2) := by
    rw [writeString]
    simp only [h.limit]
    rw [if_neg (by omega), if_neg (Nat.not_lt_of_le hlow)]
    rfl
  -- the state with the open record closed, and the contents before it
  obtain ⟨req₁, bytes₁, first, hclose, hbuffered, hsame, hbytes, hfirst, hfits⟩ :
      ∃ (req₁ : FcgiOut) (bytes₁ : List UInt8) (first : List (List UInt8)),
        req.closePacket = some req₁ ∧ Buffered req₁ bytes₁ ∧ Same req req₁ ∧
        bytes₁ = bytes ++ first.flatMap (packetBytes req.id type) ∧
        (first = if c = [] then [] else [c]) ∧
        bytes₁.length + sizeofHeader ≤ sizeofOutBuf + sizeofReserved := by
    rcases h.state with ⟨hne, hopened, hlt⟩ | ⟨rfl, hbuffered⟩
    · obtain ⟨req₁, hclose, hbuffered, hsame⟩ := closePacket_buffered hopened
        (filled_fits h.aligned h.le (.inr (le_of_lt hlt)))
      refine ⟨req₁, _, [c], hclose, hbuffered, hsame, by simp, by simp [hne], ?_⟩
      rw [length_append, length_packetBytes, padOf]
      rw [sizeofOutBuf, sizeofHeader] at *
      rw [sizeofReserved]
      omega
    · refine ⟨req, bytes, [], ?_, hbuffered, ⟨rfl, rfl, rfl⟩, by simp, by simp, ?_⟩
      · rw [closePacket, hbuffered.hdr]
      · have hle := h.le
        rw [sizeofHeader, sizeofReserved]
        omega
  obtain ⟨req', parts, rest, hlarge, hid, haccepts, hsent, rfl, hparts, hrest,
    hstate⟩ := writeLarge_parts hbuffered (hsame.socketOk hok) type hfits hstr
  have hshort : c.length < 2 ^ 16 := by
    rcases h.state with ⟨-, -, hlt⟩ | ⟨rfl, -⟩
    · rw [sizeofOutBuf] at hlt
      omega
    · decide
  refine ⟨req', first ++ parts, rest, ?_, ⟨hid.trans hsame.id,
    haccepts.trans hsame.accepts, ?_, ?_, .inl rfl, ?_⟩, ?_, ?_⟩
  · rw [hrun, writeLarge_opened hclose hbuffered.hdr, hlarge]
    rfl
  · rw [append_nil, hsent, hsame.sent, hsame.id, hbytes, flatMap_append]
    simp only [append_assoc]
  · refine forall_mem_append.mpr ⟨?_, fun part hpart =>
      (hparts part hpart).short⟩
    rw [hfirst]
    split
    · simp
    · exact forall_mem_singleton.mpr hshort
  · by_cases hnil : rest = []
    · rw [if_pos hnil] at hstate
      exact .inl ⟨hnil, hstate⟩
    · rw [if_neg hnil] at hstate
      refine .inr ⟨hnil, hstate, ?_⟩
      rw [length_nil, sizeofHeader, sizeofOutBuf]
      omega
  · have hflat : first.flatten = c := by
      rw [hfirst]
      split
      case isTrue hnil => rw [hnil, flatten_nil]
      case isFalse => exact flatten_singleton
    rw [flatten_append, hflat, append_assoc]
  · intro hmem
    rcases mem_append.mp hmem with hmem | hmem
    · rw [hfirst] at hmem
      split at hmem
      case isTrue => cases hmem
      case isFalse hne => exact hne (mem_singleton.mp hmem).symm
    · exact (hparts [] hmem).ne_nil rfl

/-- What `fcgi_write` does behind the change of the type.  An empty record is
made exactly when a record is opened that has no room in the buffer, and the
string is not written around the buffer. -/
theorem Ready.write (h : Ready req bytes type c) (hok : SocketOk req) (hstr : str ≠ []) :
    ∃ (req' : FcgiOut) (parts : List (List UInt8)) (rest bytes' : List UInt8),
      req.writeString type str = some ((str.length : Int), req') ∧
      Wrote req bytes type parts rest bytes' req' ∧ c ++ str = parts.flatten ++ rest ∧
      ([] ∈ parts ↔ c = [] ∧ sizeofOutBuf ≤ bytes.length + sizeofHeader ∧
        str.length < sizeofOutBuf - sizeofHeader) := by
  by_cases hshort : str.length < sizeofOutBuf - (bytes.length + sizeofHeader + c.length)
  · obtain ⟨req', hrun, hwrote⟩ := h.writeShort hstr hshort
    refine ⟨req', [], c ++ str, bytes, hrun, hwrote, by simp, ?_⟩
    refine iff_of_false not_mem_nil ?_
    omega
  · by_cases hmiddle : str.length - (sizeofOutBuf - (bytes.length + sizeofHeader + c.length)) <
          sizeofOutBuf - sizeofHeader
    · obtain ⟨req', hrun, hwrote⟩ := h.writeMiddle hok (Nat.le_of_not_lt hshort) hmiddle
      refine ⟨req', _, _, [], hrun, hwrote, by simp, ?_⟩
      rw [mem_singleton, eq_comm, append_eq_nil_iff]
      refine and_congr_right fun hnil => ?_
      rw [hnil, length_nil] at *
      rw [take_eq_nil_iff]
      constructor
      · rintro (hzero | hnil)
        · exact ⟨by omega, by omega⟩
        · exact absurd hnil hstr
      · rintro ⟨hfull, -⟩
        exact .inl (by omega)
    · obtain ⟨req', parts, rest, hrun, hwrote, hwhole, hempty⟩ := h.writeMany hok
        (Nat.le_of_not_lt hmiddle)
      refine ⟨req', parts, rest, [], hrun, hwrote, hwhole, ?_⟩
      refine iff_of_false hempty ?_
      omega

end PhpEngine.FcgiOut

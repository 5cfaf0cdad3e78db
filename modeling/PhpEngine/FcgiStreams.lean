/-
Runs of the output side: the stream that the server reads from the socket is a
sequence of records, and it carries what was written.  An empty record, which
closes a stream in the protocol, is sent when the type changes at the end of
the buffer.
-/
import PhpEngine.FcgiFraming

namespace PhpEngine.FcgiOut

open List

variable {req req' : FcgiOut} {sent kept : List FcgiRecord}
  {cur : Option (FcgiStream × List UInt8)} {bytes c : List UInt8}
  {type : FcgiRequestType} {written : List (FcgiRequestType × UInt8)}

/-- Bytes with the type of their record. -/
def tagged (type : FcgiRequestType) (data : List UInt8) : List (FcgiRequestType × UInt8) :=
  data.map fun b => (type, b)

def taggedRecords (rs : List FcgiRecord) : List (FcgiRequestType × UInt8) :=
  rs.flatMap fun r => tagged r.type r.content

@[simp] theorem tagged_append (type : FcgiRequestType) (data data' : List UInt8) :
    tagged type (data ++ data') = tagged type data ++ tagged type data' :=
  map_append

@[simp] theorem taggedRecords_append (rs rs' : List FcgiRecord) :
    taggedRecords (rs ++ rs') = taggedRecords rs ++ taggedRecords rs' :=
  flatMap_append

/-- A record of one of the two streams, filled up to a multiple of eight. -/
def IsOutput (r : FcgiRecord) : Prop :=
  (∃ stream : FcgiStream, r.type = stream.type) ∧ 8 ∣ r.size

theorem padOf_lt (n : Nat) : padOf n < 8 := by
  rw [padOf]
  omega

/-- The record that is made of a content. -/
def packet (id : Nat) (type : FcgiRequestType) (c : List UInt8)
    (hc : c.length < 2 ^ 16) : FcgiRecord where
  type := type
  requestId := id % 2 ^ 16
  content := c
  padding := List.replicate (padOf c.length) 0
  requestId_lt := Nat.mod_lt _ (by decide)
  content_lt := hc
  padding_lt := by
    rw [length_replicate]
    exact Nat.lt_trans (padOf_lt _) (by decide)

theorem encode_packet (id : Nat) (type : FcgiRequestType) (hc : c.length < 2 ^ 16) :
    (packet id type c hc).encode = packetBytes id type c := by
  have hlow : UInt8.ofNat (id % 2 ^ 16) = UInt8.ofNat id := by
    apply UInt8.toNat_inj.mp
    rw [UInt8.toNat_ofNat', UInt8.toNat_ofNat']
    omega
  have hhigh : UInt8.ofNat ((id % 2 ^ 16) >>> 8) = UInt8.ofNat (id >>> 8) := by
    apply UInt8.toNat_inj.mp
    rw [UInt8.toNat_ofNat', UInt8.toNat_ofNat', Nat.shiftRight_eq_div_pow,
      Nat.shiftRight_eq_div_pow]
    omega
  simp only [FcgiRecord.encode, packet, packetBytes, headerBytes, hlow, hhigh, length_replicate]

theorem isOutput_packet (id : Nat) (stream : FcgiStream)
    (hc : c.length < 2 ^ 16) : IsOutput (packet id stream.type c hc) := by
  refine ⟨⟨stream, rfl⟩, ?_⟩
  simp only [FcgiRecord.size, packet, length_replicate, padOf, sizeofHeader]
  omega

theorem exists_records (id : Nat) (stream : FcgiStream)
    {parts : List (List UInt8)} (hshort : ∀ part ∈ parts, part.length < 2 ^ 16) :
    ∃ rs : List FcgiRecord, encodeRecords rs = parts.flatMap (packetBytes id stream.type) ∧
      taggedRecords rs = tagged stream.type parts.flatten ∧
      (∀ r ∈ rs, IsOutput r) ∧ rs.map FcgiRecord.content = parts := by
  induction parts with
  | nil => exact ⟨[], rfl, rfl, by simp, rfl⟩
  | cons part parts ih =>
    obtain ⟨hpart, hparts⟩ := forall_mem_cons.mp hshort
    obtain ⟨rs, hencode, htagged, houtput, hcontent⟩ := ih hparts
    refine ⟨packet id stream.type part hpart :: rs, ?_, ?_, ?_, ?_⟩
    · rw [encodeRecords_cons, encode_packet, hencode, flatMap_cons]
    · rw [flatten_cons, tagged_append, ← htagged]
      rfl
    · exact forall_mem_cons.mpr ⟨isOutput_packet id stream hpart, houtput⟩
    · rw [map_cons, hcontent]
      rfl

theorem aligned_records {rs : List FcgiRecord} (h : ∀ r ∈ rs, IsOutput r) :
    8 ∣ (encodeRecords rs).length := by
  induction rs with
  | nil => exact Nat.dvd_zero 8
  | cons r rs ih =>
    obtain ⟨hr, hrs⟩ := forall_mem_cons.mp h
    rw [encodeRecords_cons, length_append, FcgiRecord.length_encode]
    exact Nat.dvd_add hr.2 (ih hrs)

section Standing

/-- What the open record has. -/
def taggedCur : Option (FcgiStream × List UInt8) → List (FcgiRequestType × UInt8)
  | none => []
  | some (stream, c) => tagged stream.type c

/-- The open record, behind the records that the buffer keeps. -/
def AtRecord (req : FcgiOut) (kept : List FcgiRecord) : Option (FcgiStream × List UInt8) → Prop
  | none => kept = [] ∧ Buffered req []
  | some (stream, c) => c ≠ [] ∧ Opened req (encodeRecords kept) stream.type c ∧
      (encodeRecords kept).length + sizeofHeader + c.length < sizeofOutBuf

/-- Between two calls: the records `sent` are gone, the records `kept` and the
open record are in the buffer, and together they carry `written`. -/
structure Standing (req : FcgiOut) (sent kept : List FcgiRecord)
    (cur : Option (FcgiStream × List UInt8))
    (written : List (FcgiRequestType × UInt8)) : Prop where
  socket : SocketOk req
  gone : req.sent = encodeRecords sent
  sentOutput : ∀ r ∈ sent, IsOutput r
  keptOutput : ∀ r ∈ kept, IsOutput r
  keptFull : ∀ r ∈ kept, r.content ≠ []
  carried : taggedRecords sent ++ taggedRecords kept ++ taggedCur cur = written
  current : AtRecord req kept cur

/-- The write changes the type where the record that it opens has no room left
in the buffer, and does not go around the buffer. -/
def OpensAtEnd (req : FcgiOut) : FcgiCall → Prop
  | .write stream data => 0 < data.length ∧
      data.length < sizeofOutBuf - sizeofHeader ∧
      sizeofOutBuf - 2 * sizeofHeader < req.outPos ∧
      ∃ hdr, req.outHdr = some hdr ∧ req.outBuf (hdr + 1) ≠ stream.type.code
  | .flush => False

/-- The bytes that a call adds to the streams. -/
def callAdds : FcgiCall → List (FcgiRequestType × UInt8)
  | .write stream data => tagged stream.type data
  | .flush => []

def HasEmpty (rs : List FcgiRecord) : Prop :=
  ∃ r ∈ rs, r.content = []

/-- What a call leaves: it adds its bytes to the streams, and sends an empty
record exactly when it opens one at the end of the buffer. -/
def Leaves (req : FcgiOut) (sent : List FcgiRecord)
    (written : List (FcgiRequestType × UInt8)) (call : FcgiCall) (req' : FcgiOut) : Prop :=
  ∃ (sent' kept' : List FcgiRecord) (cur' : Option (FcgiStream × List UInt8)),
    Standing req' sent' kept' cur' (written ++ callAdds call) ∧
    (HasEmpty sent' ↔ HasEmpty sent ∨ OpensAtEnd req call)

section

variable (h : Standing req sent kept cur written)
include h

/-- `fcgi_write` from a state in which the type has been changed. -/
theorem write_standing {stream : FcgiStream} {data : List UInt8} (hdata : data ≠ [])
    {req₁ : FcgiOut} {kept₁ : List FcgiRecord} (hswitch : req.switchType stream.type = some req₁)
    (hready : Ready req₁ (encodeRecords kept₁) stream.type c) (hsame : Same req req₁)
    (houtput : ∀ r ∈ kept₁, IsOutput r) (hfull : ∀ r ∈ kept₁, r.content ≠ [])
    (hcarried : taggedRecords sent ++ taggedRecords kept₁ ++ tagged stream.type c = written)
    (hend : OpensAtEnd req (.write stream data) ↔ c = [] ∧
      sizeofOutBuf ≤ (encodeRecords kept₁).length + sizeofHeader ∧
      data.length < sizeofOutBuf - sizeofHeader) :
    ∃ req', req.fcgiWrite stream.type data = some ((data.length : Int), req') ∧
      Leaves req sent written (.write stream data) req' := by
  have hlength : data.length ≠ 0 := by
    rwa [Ne, length_eq_zero_iff]
  obtain ⟨req', parts, rest, bytes', hrun, hwrote, hwhole, hempty⟩ :=
    hready.write (hsame.socketOk h.socket) hdata
  obtain ⟨rs, hencode, htagged, hrs, hcontent⟩ :=
    exists_records req₁.id stream hwrote.short
  have hcall : req.fcgiWrite stream.type data = some ((data.length : Int), req') := by
    rw [fcgiWrite, if_neg hlength, hswitch]
    exact hrun
  have hsocket : SocketOk req' := by
    rw [SocketOk, hwrote.accepts, hsame.accepts]
    exact h.socket
  have hwritten : written ++ tagged stream.type data = taggedRecords sent ++
      taggedRecords kept₁ ++ taggedRecords rs ++ tagged stream.type rest := by
    rw [← hcarried, htagged, append_assoc _ _ (tagged _ rest),
      ← tagged_append, ← hwhole, tagged_append, append_assoc]
  have hsent := hwrote.sent
  rw [hsame.sent, h.gone, ← hencode] at hsent
  rcases hwrote.place with hnil | ⟨hparts, hbytes, hne⟩
  · -- the buffer went out
    subst hnil
    rw [append_nil] at hsent
    refine ⟨req', hcall, sent ++ kept₁ ++ rs, [],
      if rest = [] then none else some (stream, rest), ⟨hsocket, ?_, ?_, by simp, by simp, ?_, ?_⟩,
    ?_⟩
    · rw [hsent, encodeRecords_append, encodeRecords_append]
    · exact forall_mem_append.mpr ⟨forall_mem_append.mpr ⟨h.sentOutput, houtput⟩, hrs⟩
    · rw [callAdds, hwritten, taggedRecords_append, taggedRecords_append]
      split
      case isTrue hrest => simp [hrest, taggedCur, tagged, taggedRecords]
      case isFalse => simp [taggedCur, taggedRecords]
    · rcases hwrote.state with ⟨hrest, hstate⟩ | ⟨hrest, hopened, hlt⟩
      · rw [if_pos hrest]
        exact ⟨rfl, hstate⟩
      · rw [if_neg hrest]
        exact ⟨hrest, hopened, hlt⟩
    · have hmem : HasEmpty rs ↔ [] ∈ parts := by
        rw [← hcontent, List.mem_map]
        rfl
      have hkept : ¬ HasEmpty kept₁ := by
        rintro ⟨r, hr, hnil⟩
        exact hfull r hr hnil
      rw [hend, ← hempty, ← hmem]
      simp only [HasEmpty, mem_append, or_and_right, exists_or] at hkept ⊢
      simp [hkept]
  · -- everything is still in the buffer
    subst hparts hbytes
    have hrs' : rs = [] := map_eq_nil_iff.mp hcontent
    subst hrs'
    rcases hwrote.state with ⟨hrest, -⟩ | ⟨-, hopened, hlt⟩
    · exact absurd hrest hne
    refine ⟨req', hcall, sent, kept₁, some (stream, rest),
      ⟨hsocket, ?_, h.sentOutput, houtput, hfull, ?_, hne, hopened, hlt⟩, ?_⟩
    · rw [encodeRecords_nil, append_nil] at hsent
      exact append_cancel_right hsent
    · rw [callAdds, hwritten]
      simp [taggedCur, taggedRecords]
    · rw [hend, ← hempty]
      simp

/-- `fcgi_write` of any string from any state between two calls. -/
theorem fcgiWrite_leaves (stream : FcgiStream) (data : List UInt8) :
    ∃ req', req.fcgiWrite stream.type data = some ((data.length : Int), req') ∧
      Leaves req sent written (.write stream data) req' := by
  by_cases hdata : data = []
  · subst hdata
    refine ⟨req, rfl, sent, kept, cur, ?_, ?_⟩
    · rw [callAdds, tagged, map_nil, append_nil]
      exact h
    · simp [OpensAtEnd]
  have hpos : 0 < data.length := length_pos_iff.mpr hdata
  cases cur with
  | none =>
    obtain ⟨rfl, hbuffered⟩ := h.current
    have hswitch : req.switchType stream.type = some req := by
      rw [switchType, hbuffered.hdr]
    have hready : Ready req (encodeRecords []) stream.type [] :=
      ⟨Nat.dvd_zero 8, by decide, .inr ⟨rfl, hbuffered⟩⟩
    refine write_standing h hdata hswitch hready ⟨rfl, rfl, rfl⟩
      h.keptOutput h.keptFull h.carried (iff_of_false ?_ ?_)
    · rintro ⟨-, -, -, hdr, hhdr, -⟩
      rw [hbuffered.hdr] at hhdr
      cases hhdr
    · rintro ⟨-, hfull, -⟩
      exact absurd hfull (by decide)
  | some open' =>
    obtain ⟨stream', c⟩ := open'
    obtain ⟨hne, hopened, hlt⟩ := h.current
    have haligned := aligned_records h.keptOutput
    by_cases hstream : stream' = stream
    · subst hstream
      have hswitch : req.switchType stream'.type = some req := by
        simp only [switchType, hopened.hdr]
        rw [if_neg (not_not.mpr hopened.code)]
      refine write_standing h hdata hswitch
        ⟨haligned, by omega, .inl ⟨hne, hopened, hlt⟩⟩ ⟨rfl, rfl, rfl⟩
        h.keptOutput h.keptFull h.carried (iff_of_false ?_ fun hboth =>
          hne hboth.1)
      rintro ⟨-, -, -, hdr, hhdr, hcode⟩
      rw [hopened.hdr] at hhdr
      cases hhdr
      exact hcode hopened.code
    · have hcode : stream'.type.code ≠ stream.type.code := by
        intro heq
        have htype := FcgiRequestType.code_inj heq
        cases stream' <;> cases stream <;> simp_all [FcgiStream.type]
      have hshort : c.length < 2 ^ 16 := by
        rw [sizeofOutBuf] at hlt
        omega
      obtain ⟨req₁, hclose, hbuffered, hsame⟩ := closePacket_buffered hopened
        (filled_fits haligned (by omega) (.inr (le_of_lt hlt)))
      have hswitch : req.switchType stream.type = some req₁ := by
        simp only [switchType, hopened.hdr]
        rw [if_pos (by rw [hopened.code]; exact hcode), hclose]
      have hencode : encodeRecords (kept ++ [packet req.id stream'.type c
          hshort]) = encodeRecords kept ++ packetBytes req.id stream'.type c := by
        rw [encodeRecords_append, encodeRecords_cons, encode_packet, encodeRecords_nil, append_nil]
      have hlength : (encodeRecords (kept ++ [packet req.id stream'.type c
          hshort])).length = (encodeRecords kept).length + sizeofHeader +
            c.length + padOf c.length := by
        rw [hencode, length_append, length_packetBytes]
        omega
      have houtput : ∀ r ∈ kept ++ [packet req.id stream'.type c hshort], IsOutput r :=
        forall_mem_append.mpr ⟨h.keptOutput, forall_mem_singleton.mpr (isOutput_packet _ _ _)⟩
      refine write_standing h hdata hswitch (c := [])
        ⟨aligned_records houtput, ?_, .inr ⟨rfl, ?_⟩⟩ hsame houtput ?_ ?_ ?_
      · rw [hlength, padOf]
        rw [sizeofOutBuf, sizeofHeader] at *
        omega
      · rw [hencode]
        exact hbuffered
      · exact forall_mem_append.mpr ⟨h.keptFull, forall_mem_singleton.mpr hne⟩
      · rw [← h.carried]
        simp [taggedCur, taggedRecords, tagged, packet]
      · have hpos' := hopened.pos
        rw [OpensAtEnd, hlength, hpos', padOf]
        rw [sizeofOutBuf, sizeofHeader] at *
        constructor
        · rintro ⟨-, hlen, hend, -⟩
          exact ⟨rfl, by omega, hlen⟩
        · rintro ⟨-, hend, hlen⟩
          refine ⟨hpos, hlen, by omega, _, hopened.hdr, ?_⟩
          rw [hopened.code]
          exact hcode

theorem fcgiFlush_standing :
    ∃ (req' : FcgiOut) (sent' : List FcgiRecord), req.fcgiFlush false = some (true, req') ∧
      Standing req' sent' [] none written ∧ (HasEmpty sent' ↔ HasEmpty sent) := by
  have hkept : ¬ HasEmpty kept := fun ⟨r, hr, hnil⟩ => h.keptFull r hr hnil
  cases cur with
  | none =>
    obtain ⟨rfl, hbuffered⟩ := h.current
    obtain ⟨req', hflush, hflushed⟩ := fcgiFlush_buffered hbuffered h.socket
    refine ⟨req', sent, hflush, ⟨hflushed.socketOk h.socket, ?_, h.sentOutput,
      by simp, by simp, h.carried, rfl, hflushed.empty⟩, Iff.rfl⟩
    rw [hflushed.sent, append_nil, h.gone]
  | some open' =>
    obtain ⟨stream, c⟩ := open'
    obtain ⟨hne, hopened, hlt⟩ := h.current
    have hshort : c.length < 2 ^ 16 := by
      rw [sizeofOutBuf] at hlt
      omega
    obtain ⟨req', hflush, hflushed⟩ := fcgiFlush_opened hopened h.socket
      (filled_fits (aligned_records h.keptOutput) (by omega) (.inr (le_of_lt hlt)))
    refine ⟨req', sent ++ kept ++ [packet req.id stream.type c hshort], hflush,
      ⟨hflushed.socketOk h.socket, ?_, ?_, by simp, by simp, ?_, rfl, hflushed.empty⟩, ?_⟩
    · rw [hflushed.sent, h.gone, encodeRecords_append, encodeRecords_append,
        encodeRecords_cons, encode_packet, encodeRecords_nil, append_nil,
        append_assoc]
    · exact forall_mem_append.mpr ⟨forall_mem_append.mpr ⟨h.sentOutput, h.keptOutput⟩,
        forall_mem_singleton.mpr (isOutput_packet _ _ _)⟩
    · rw [← h.carried]
      simp [taggedCur, taggedRecords, tagged, packet]
    · have hlast : (packet req.id stream.type c hshort).content ≠ [] := hne
      simp only [HasEmpty, mem_append, or_and_right, exists_or,
        mem_singleton, exists_eq_left, hlast, or_false] at hkept ⊢
      simp [hkept]

end

/-- The buffer with the last record behind `out_pos`. -/
def endBuf (req : FcgiOut) : Nat → UInt8 :=
  Memory.store
    (Memory.store req.outBuf req.outPos (headerBytes FcgiRequestType.endRequest.code req.id 8 0))
    (req.outPos + sizeofHeader) [0, 0, 0, 0, fcgiRequestComplete]

theorem endRequest_eq (hle : req.outPos ≤ sizeofOutBuf) :
    req.endRequest = some { req with outBuf := endBuf req } := by
  have hheader : req.outPos + sizeofHeader ≤ sizeofOutBuf + sizeofReserved :=
    Nat.add_le_add hle (by decide)
  have hput : req.outPos + sizeofHeader + [0, 0, 0, 0, fcgiRequestComplete].length ≤
        sizeofOutBuf + sizeofReserved := by
    rw [sizeofHeader, sizeofReserved]
    simp only [length_cons, length_nil]
    omega
  have hpad : padOf 8 = 0 := rfl
  rw [endRequest, makeHeader_eq hheader (absurd hpad), hpad, replicate_zero, Memory.store_nil]
  exact put_eq hput

theorem slice_endBuf (h : Buffered req bytes) :
    Memory.slice (endBuf req) 0 (req.outPos + sizeofReserved) =
      bytes ++ (headerBytes FcgiRequestType.endRequest.code req.id 8 0 ++
        Memory.slice (endBuf req) (req.outPos + sizeofHeader) 8) := by
  have hfirst : Memory.slice (endBuf req) 0 req.outPos = bytes := by
    rw [endBuf, Memory.slice_store_before (by omega),
      Memory.slice_store_before (by omega), h.pos, h.held]
  have hsecond : Memory.slice (endBuf req) req.outPos sizeofHeader =
      headerBytes FcgiRequestType.endRequest.code req.id 8 0 := by
    rw [endBuf, Memory.slice_store_before le_rfl]
    exact Memory.slice_store _ _ (headerBytes _ _ _ _)
  have hsize : req.outPos + sizeofReserved = req.outPos + (sizeofHeader + 8) :=
    rfl
  rw [hsize, Memory.slice_append, hfirst, zero_add, Memory.slice_append, hsecond]

/-- The end of the request: behind what the buffer holds comes one record of
eight bytes, the last three of them being what stood in the buffer. -/
theorem fcgiFlush_close (h : Buffered req bytes) (hok : SocketOk req)
    (hle : bytes.length ≤ sizeofOutBuf) : ∃ (req' : FcgiOut) (body : List UInt8),
      req.fcgiFlush true = some (true, req') ∧ body.length = 8 ∧ req'.sent = req.sent ++ bytes ++
        packetBytes req.id .endRequest body := by
  have hclose : req.closePacket = some req := by
    rw [closePacket, h.hdr]
  have hpos : req.outPos ≤ sizeofOutBuf := by
    rw [h.pos]
    exact hle
  have hok' : SocketOk { req with outBuf := endBuf req } := hok
  obtain ⟨w, hw⟩ := safeWrite_ok hok' (Memory.slice (endBuf req) 0 (req.outPos + sizeofReserved))
  rw [Memory.length_slice] at hw
  have hrun : req.fcgiFlush true = some (true, { req with
        outBuf := endBuf req
        outPos := 0
        sent := req.sent ++ Memory.slice (endBuf req) 0 (req.outPos + sizeofReserved)
        writes := w }) := by
    simp only [fcgiFlush, hclose, Option.bind_eq_bind, Option.bind_some, if_true,
      endRequest_eq hpos, hw, ne_eq, not_true_eq_false, if_false,
      Option.pure_def]
  refine ⟨_, Memory.slice (endBuf req) (req.outPos + sizeofHeader) 8, hrun,
    Memory.length_slice _ _ _, ?_⟩
  rw [slice_endBuf h, packetBytes, Memory.length_slice]
  change _ = req.sent ++ bytes ++ (headerBytes FcgiRequestType.endRequest.code req.id 8 0 ++
      (Memory.slice (endBuf req) (req.outPos + sizeofHeader) 8 ++ []))
  simp only [append_nil, append_assoc]

theorem fcgiFlush_end (h : Standing req sent kept cur written) :
    ∃ (req' : FcgiOut) (rs : List FcgiRecord) (last : FcgiRecord),
      req.fcgiFlush true = some (true, req') ∧ req'.sent = encodeRecords (rs ++ [last]) ∧
      (∀ r ∈ rs, IsOutput r) ∧ taggedRecords rs = written ∧
      last.type = .endRequest ∧ last.content.length = 8 ∧ 8 ∣ last.size := by
  -- the buffer with the open record closed
  obtain ⟨req₁, bytes, rs, hclose, hbuffered, hsame, hle, hrs, houtput,
      hcarried⟩ : ∃ (req₁ : FcgiOut) (bytes : List UInt8) (rs : List FcgiRecord),
        req.closePacket = some req₁ ∧ Buffered req₁ bytes ∧ Same req req₁ ∧
        bytes.length ≤ sizeofOutBuf ∧ req.sent ++ bytes = encodeRecords rs ∧
        (∀ r ∈ rs, IsOutput r) ∧ taggedRecords rs = written := by
    cases cur with
    | none =>
      obtain ⟨rfl, hbuffered⟩ := h.current
      refine ⟨req, [], sent, ?_, hbuffered, ⟨rfl, rfl, rfl⟩, by simp, ?_,
        h.sentOutput, ?_⟩
      · rw [closePacket, hbuffered.hdr]
      · rw [append_nil, h.gone]
      · rw [← h.carried]
        simp [taggedCur, taggedRecords]
    | some open' =>
      obtain ⟨stream, c⟩ := open'
      obtain ⟨hne, hopened, hlt⟩ := h.current
      have haligned := aligned_records h.keptOutput
      have hshort : c.length < 2 ^ 16 := by
        rw [sizeofOutBuf] at hlt
        omega
      obtain ⟨req₁, hclose, hbuffered, hsame⟩ := closePacket_buffered hopened
        (filled_fits haligned (by omega) (.inr (le_of_lt hlt)))
      refine ⟨req₁, _, sent ++ kept ++ [packet req.id stream.type c hshort],
        hclose, hbuffered, hsame, ?_, ?_, ?_, ?_⟩
      · rw [length_append, length_packetBytes, padOf]
        rw [sizeofOutBuf, sizeofHeader] at *
        omega
      · rw [h.gone, encodeRecords_append, encodeRecords_append,
          encodeRecords_cons, encode_packet, encodeRecords_nil,
          append_nil, append_assoc]
      · exact forall_mem_append.mpr ⟨forall_mem_append.mpr ⟨h.sentOutput, h.keptOutput⟩,
          forall_mem_singleton.mpr (isOutput_packet _ _ _)⟩
      · rw [← h.carried]
        simp [taggedCur, taggedRecords, tagged, packet]
  obtain ⟨req', body, hflush, hbody, hsent⟩ :=
    fcgiFlush_close hbuffered (hsame.socketOk h.socket) hle
  have hshort : body.length < 2 ^ 16 := by
    rw [hbody]
    decide
  refine ⟨req', rs, packet req₁.id .endRequest body hshort, ?_, ?_, houtput,
    hcarried, rfl, hbody, ?_⟩
  · have hclosed : req₁.closePacket = some req₁ := by
      rw [closePacket, hbuffered.hdr]
    rw [fcgiFlush, hclosed] at hflush
    rw [fcgiFlush, hclose]
    exact hflush
  · rw [hsent, hsame.sent, encodeRecords_append, ← hrs, encodeRecords_cons,
      encode_packet, encodeRecords_nil, append_nil]
  · simp only [FcgiRecord.size, packet, length_replicate, hbody]
    decide

end Standing

/-- No call of a run opens a record at the end of the buffer. -/
def Clear : FcgiOut → List FcgiCall → Prop
  | _, [] => True
  | req, call :: calls => ¬ OpensAtEnd req call ∧
      ∀ req', req.call call = some req' → Clear req' calls

theorem call_leaves (h : Standing req sent kept cur written) (call : FcgiCall) :
    ∃ req', req.call call = some req' ∧ Leaves req sent written call req' := by
  cases call with
  | write stream data =>
    obtain ⟨req', hrun, hleaves⟩ := fcgiWrite_leaves h stream data
    exact ⟨req', by rw [FcgiOut.call, hrun]; rfl, hleaves⟩
  | flush =>
    obtain ⟨req', sent', hrun, hstanding, hempty⟩ := fcgiFlush_standing h
    refine ⟨req', by rw [FcgiOut.call, hrun]; rfl, sent', [], none, ?_, ?_⟩
    · rw [callAdds, append_nil]
      exact hstanding
    · rw [hempty, OpensAtEnd, or_false]

theorem calls_standing (h : Standing req sent kept cur written) (calls : List FcgiCall) :
    ∃ (req' : FcgiOut) (sent' kept' : List FcgiRecord) (cur' : Option (FcgiStream × List UInt8)),
      req.calls calls = some req' ∧
      Standing req' sent' kept' cur' (written ++ calls.flatMap callAdds) ∧
      (HasEmpty sent' ↔ HasEmpty sent ∨ ¬ Clear req calls) := by
  induction calls generalizing req sent kept cur written with
  | nil =>
    refine ⟨req, sent, kept, cur, rfl, ?_, ?_⟩
    · rw [flatMap_nil, append_nil]
      exact h
    · simp [Clear]
  | cons call calls ih =>
    obtain ⟨req₁, hrun, sent₁, kept₁, cur₁, hstanding, hempty⟩ :=
      call_leaves h call
    obtain ⟨req', sent', kept', cur', hruns, hstanding', hempty'⟩ :=
      ih hstanding
    refine ⟨req', sent', kept', cur', ?_, ?_, ?_⟩
    · rw [FcgiOut.calls, hrun, Option.bind_some, hruns]
    · rw [flatMap_cons, ← append_assoc]
      exact hstanding'
    · have hclear : (∀ req', req.call call = some req' → Clear req' calls) ↔ Clear req₁ calls := by
        rw [hrun]
        constructor
        · intro hall
          exact hall req₁ rfl
        · rintro hclear req' ⟨⟩
          exact hclear
      rw [hempty', hempty, Clear, hclear, not_and_or, not_not, or_assoc]

/-- As `fcgi_read_request` leaves the output. -/
structure Fresh (req : FcgiOut) : Prop where
  hdr : req.outHdr = none
  pos : req.outPos = 0
  sent : req.sent = []

theorem Fresh.standing (h : Fresh req) (hok : SocketOk req) : Standing req [] [] none [] :=
  ⟨hok, h.sent, by simp, by simp, by simp, rfl, rfl, h.hdr, h.pos, rfl⟩

/-- The contents of the records of one stream, put together. -/
def contentsOf (stream : FcgiStream) (rs : List FcgiRecord) : List UInt8 :=
  (rs.filter fun r => r.type = stream.type).flatMap FcgiRecord.content

/-- What the calls write to one stream. -/
def dataOf (stream : FcgiStream) : List FcgiCall → List UInt8
  | [] => []
  | .write stream' data :: calls =>
    (if stream' = stream then data else []) ++ dataOf stream calls
  | .flush :: calls => dataOf stream calls

/-- The bytes of one type. -/
def untag (type : FcgiRequestType) (l : List (FcgiRequestType × UInt8)) : List UInt8 :=
  (l.filter fun p => p.1 = type).map Prod.snd

theorem untag_append (l l' : List (FcgiRequestType × UInt8)) :
    untag type (l ++ l') = untag type l ++ untag type l' := by
  simp only [untag, filter_append, map_append]

theorem untag_tagged (type type' : FcgiRequestType) (data : List UInt8) :
    untag type (tagged type' data) = if type' = type then data else [] := by
  by_cases htype : type' = type
  · rw [if_pos htype, untag, tagged, List.filter_map]
    simp [Function.comp_def, htype]
  · rw [if_neg htype, untag, tagged, List.filter_map]
    simp [Function.comp_def, htype]

theorem untag_taggedRecords (stream : FcgiStream) (rs : List FcgiRecord) :
    untag stream.type (taggedRecords rs) = contentsOf stream rs := by
  induction rs with
  | nil => rfl
  | cons r rs ih =>
    have hcons : taggedRecords (r :: rs) =
        tagged r.type r.content ++ taggedRecords rs := flatMap_cons
    rw [hcons, untag_append, untag_tagged, ih, contentsOf, contentsOf, filter_cons]
    by_cases htype : r.type = stream.type
    · simp [htype]
    · simp [htype]

theorem untag_callAdds (stream : FcgiStream) (calls : List FcgiCall) :
    untag stream.type (calls.flatMap callAdds) = dataOf stream calls := by
  have htype : ∀ stream' : FcgiStream, stream'.type = stream.type ↔ stream' = stream := by
    intro stream'
    cases stream' <;> cases stream <;> simp [FcgiStream.type]
  induction calls with
  | nil => rfl
  | cons call calls ih =>
    rw [flatMap_cons, untag_append, ih]
    cases call with
    | write stream' data =>
      simp only [callAdds, untag_tagged, dataOf, htype]
    | flush => rfl

/-- FastCGI output framing: whatever is written and flushed, the calls and the
final `fcgi_flush(req, 1)` have a result, so neither `out_pos` nor a store
passed the reserved area, and the bytes on the socket are records of a multiple
of eight bytes with one `FCGI_END_REQUEST` at the end.  Byte by byte the
contents are what was written, in the order of the calls and with the type of
the call; in particular each stream carries what was written to it. -/
theorem fcgiOutput_framed (req : FcgiOut) (hfresh : Fresh req)
    (hok : SocketOk req) (calls : List FcgiCall) :
    ∃ (req₁ req₂ : FcgiOut) (rs : List FcgiRecord) (last : FcgiRecord),
      req.calls calls = some req₁ ∧ req₁.fcgiFlush true = some (true, req₂) ∧
      parseRecords req₂.sent = some (rs ++ [last]) ∧
      (last.type = .endRequest ∧ last.content.length = 8 ∧ 8 ∣ last.size) ∧ (∀ r ∈ rs, IsOutput r) ∧
      taggedRecords rs = calls.flatMap callAdds ∧
      ∀ stream, contentsOf stream rs = dataOf stream calls := by
  obtain ⟨req₁, sent, kept, cur, hcalls, hstanding, -⟩ :=
    calls_standing (hfresh.standing hok) calls
  obtain ⟨req₂, rs, last, hflush, hsent, houtput, hcarried, hlast⟩ :=
    fcgiFlush_end hstanding
  rw [nil_append] at hcarried
  refine ⟨req₁, req₂, rs, last, hcalls, hflush, ?_, hlast, houtput, hcarried, fun stream => ?_⟩
  · rw [hsent, parseRecords_encodeRecords]
  · rw [← untag_taggedRecords, hcarried, untag_callAdds]

/-- A request with nothing in its buffer, and a socket that takes every
`write`. -/
def freshOut : FcgiOut where
  id := 1
  keep := false
  outHdr := none
  outPos := 0
  outBuf := fun _ => 0
  sent := []
  accepts := fun _ => some 4095
  writes := 0

theorem freshOut_fresh : Fresh freshOut :=
  ⟨rfl, rfl, rfl⟩

theorem freshOut_socketOk : SocketOk freshOut := by
  intro k
  simp [freshOut]

theorem fcgiOutput_framed_sample :
    ∃ (req₁ req₂ : FcgiOut) (rs : List FcgiRecord) (last : FcgiRecord),
      freshOut.calls [.write .stdout [104, 105], .flush, .write .stderr [33]] = some req₁ ∧
      req₁.fcgiFlush true = some (true, req₂) ∧ parseRecords req₂.sent = some (rs ++ [last]) ∧
      contentsOf .stdout rs = [104, 105] ∧ contentsOf .stderr rs = [33] := by
  obtain ⟨req₁, req₂, rs, last, hcalls, hflush, hparse, -, -, -, hstreams⟩ :=
    fcgiOutput_framed freshOut freshOut_fresh freshOut_socketOk
      [.write .stdout [104, 105], .flush, .write .stderr [33]]
  exact ⟨req₁, req₂, rs, last, hcalls, hflush, hparse,
    (hstreams .stdout).trans (by decide), (hstreams .stderr).trans (by decide)⟩

/-- No premature end of a stream: after any calls the socket has whole records,
and none of a stream is empty exactly when no call opened a record at the end
of the buffer. -/
theorem fcgiOutput_nonempty_iff (req : FcgiOut) (hfresh : Fresh req)
    (hok : SocketOk req) (calls : List FcgiCall) : ∃ (req' : FcgiOut) (rs : List FcgiRecord),
      req.calls calls = some req' ∧ parseRecords req'.sent = some rs ∧
      ((∀ r ∈ rs, r.type = .stdout ∨ r.type = .stderr → r.content ≠ []) ↔ Clear req calls) := by
  obtain ⟨req', sent, kept, cur, hcalls, hstanding, hempty⟩ :=
    calls_standing (hfresh.standing hok) calls
  refine ⟨req', sent, hcalls, ?_, ?_⟩
  · rw [hstanding.gone, parseRecords_encodeRecords]
  · have hclear : ¬ HasEmpty sent ↔ Clear req calls := by
      rw [hempty, not_or, not_not]
      refine and_iff_right ?_
      rintro ⟨r, hr, -⟩
      cases hr
    rw [← hclear]
    constructor
    · rintro hfull ⟨r, hr, hnil⟩
      obtain ⟨⟨stream, htype⟩, -⟩ := hstanding.sentOutput r hr
      refine hfull r hr ?_ hnil
      rw [htype]
      cases stream
      · exact .inl rfl
      · exact .inr rfl
    · intro hfull r hr _ hnil
      exact hfull ⟨r, hr, hnil⟩

theorem fcgiOutput_nonempty_iff_sample : ∃ (req' : FcgiOut) (rs : List FcgiRecord),
      freshOut.calls [.write .stdout [104, 105], .flush] = some req' ∧
      parseRecords req'.sent = some rs ∧
      ∀ r ∈ rs, r.type = .stdout ∨ r.type = .stderr → r.content ≠ [] := by
  obtain ⟨req', rs, hcalls, hparse, hiff⟩ := fcgiOutput_nonempty_iff freshOut
    freshOut_fresh freshOut_socketOk [.write .stdout [104, 105], .flush]
  refine ⟨req', rs, hcalls, hparse, hiff.mpr ⟨?_, fun req₁ _ => ⟨fun hend => hend, ?_⟩⟩⟩
  · rintro ⟨-, -, -, hdr, hhdr, -⟩
    cases hhdr
  · exact fun _ _ => trivial

/-- A record of `stdout` that ends in the last sixteen bytes of the buffer,
and one byte of `stderr`. -/
theorem not_clear_switch {data : List UInt8} (hlength : data.length = 8170) :
    ¬ Clear freshOut [.write .stdout data, .write .stderr [66]] := by
  have hready : Ready freshOut [] FcgiStream.stdout.type [] :=
    ⟨Nat.dvd_zero 8, by decide, .inr ⟨rfl, rfl, rfl, rfl⟩⟩
  have hne : data ≠ [] := by
    rintro rfl
    cases hlength
  obtain ⟨req₁, hrun, hwrote⟩ := hready.writeShort hne (by
    rw [hlength]
    decide)
  have hcall : freshOut.call (.write .stdout data) = some req₁ := by
    have hswitch : freshOut.switchType FcgiStream.stdout.type = some freshOut :=
      rfl
    rw [FcgiOut.call, fcgiWrite, if_neg (by rw [hlength]; decide), hswitch,
      Option.bind_eq_bind, Option.bind_some, hrun, Option.map_some]
  obtain ⟨hnil, -⟩ | ⟨-, hopened, -⟩ := hwrote.state
  · exact absurd hnil hne
  rintro ⟨-, hnext⟩
  refine (hnext req₁ hcall).1 ⟨by decide, by decide, ?_, 0, hopened.hdr, ?_⟩
  · rw [hopened.pos, nil_append, hlength]
    decide
  · have hcode : req₁.outBuf (0 + 1) = FcgiStream.stdout.type.code :=
      hopened.code
    rw [hcode]
    decide

/-- The type changes at the end of the buffer, and an empty record goes out. -/
theorem stderr_closed_early :
    ¬ ∀ (req : FcgiOut) (calls : List FcgiCall), Fresh req → SocketOk req →
      ∀ (req' : FcgiOut) (rs : List FcgiRecord),
        req.calls calls = some req' → parseRecords req'.sent = some rs →
        ∀ r ∈ rs, r.type = .stdout ∨ r.type = .stderr → r.content ≠ [] := by
  intro hall
  obtain ⟨req', sent, kept, cur, hcalls, hstanding, hempty⟩ :=
    calls_standing (freshOut_fresh.standing freshOut_socketOk)
      [.write .stdout (List.replicate 8170 65), .write .stderr [66]]
  have hparse : parseRecords req'.sent = some sent := by
    rw [hstanding.gone, parseRecords_encodeRecords]
  obtain ⟨r, hr, hnil⟩ := hempty.mpr (.inr (not_clear_switch length_replicate))
  obtain ⟨⟨stream, htype⟩, -⟩ := hstanding.sentOutput r hr
  refine hall freshOut _ freshOut_fresh freshOut_socketOk req' sent hcalls hparse r hr ?_ hnil
  rw [htype]
  cases stream
  · exact .inl rfl
  · exact .inr rfl

end PhpEngine.FcgiOut

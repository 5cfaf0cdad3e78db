/-
The wire protocol of mysqlnd (ext/mysqlnd/mysqlnd_wireprotocol.c): lengths of one to nine
bytes, rows that are put together from their packets, and the rows of a result.
-/
import PhpEngine.MysqlEnvelopes

namespace PhpEngine

open List

/-- The macros `int2store` to `int8store`. -/
def intStore : Nat → Nat → List UInt8
  | 0, _ => []
  | width + 1, n => UInt8.ofNat n :: intStore width (n >>> 8)

/-- The macros `uint2korr` to `uint8korr`. -/
def uintKorr : Nat → List UInt8 → Nat
  | 0, _ => 0
  | width + 1, l => (l.headD 0).toNat + uintKorr width l.tail <<< 8

theorem length_intStore (width n : Nat) : (intStore width n).length = width := by
  induction width generalizing n with
  | zero => rfl
  | succ width ih => rw [intStore, length_cons, ih]

/-- The lowest bytes of a number are read back. -/
theorem uintKorr_intStore {width stored : Nat} (h : width ≤ stored) (n : Nat) (rest : List UInt8) :
    uintKorr width (intStore stored n ++ rest) = n % 256 ^ width := by
  induction width generalizing stored n with
  | zero => rw [uintKorr, pow_zero, Nat.mod_one]
  | succ width ih =>
    cases stored with
    | zero => exact absurd h (Nat.not_succ_le_zero width)
    | succ stored =>
      rw [intStore, cons_append, uintKorr, headD_cons, tail_cons, ih (Nat.le_of_succ_le_succ h),
        UInt8.toNat_ofNat', Nat.shiftRight_eq_div_pow, Nat.shiftLeft_eq, pow_succ' 256 width,
        Nat.mod_mul, Nat.mul_comm]

/-- `php_mysqlnd_net_store_length`: what is written, and how far the result is ahead. -/
def phpMysqlndNetStoreLength (length : UInt64) : List UInt8 × Nat :=
  let n := length.toNat
  if n < 251 then ([UInt8.ofNat n], 1)
  else if n < 65536 then (252 :: intStore 2 n, 1 + 2)
  else if n < 16777216 then (253 :: intStore 3 n, 1 + 3)
  else (254 :: intStore 8 n, 1 + 8)

def phpMysqlndNetStoreLengthSize (length : UInt64) : Nat :=
  let n := length.toNat
  if n < 251 then 1 else if n < 65536 then 3 else if n < 16777216 then 4 else 9

/-- `MYSQLND_NULL_LENGTH` -/
def mysqlndNullLength : Nat := 2 ^ 64 - 1

/-- A reader of lengths, with the number of bytes that it takes from the longest ones: the
length, and how far the cursor is moved. -/
def fieldLength (widest : Nat) (packet : List UInt8) : Nat × Nat :=
  let p := (packet.headD 0).toNat
  if p < 251 then (p, 1)
  else if p = 251 then (mysqlndNullLength, 1)
  else if p = 252 then (uintKorr 2 packet.tail, 3)
  else if p = 253 then (uintKorr 3 packet.tail, 4)
  else (uintKorr widest packet.tail, 9)

def phpMysqlndNetFieldLength (packet : List UInt8) : Nat × Nat :=
  fieldLength 4 packet

def phpMysqlndNetFieldLengthLl (packet : List UInt8) : Nat × Nat :=
  fieldLength 8 packet

/-- A reader takes what was written, but for what it leaves of the longest lengths. -/
theorem fieldLength_storeLength (widest : Nat) (h3 : 3 ≤ widest) (h8 : widest ≤ 8)
    (length : UInt64) (rest : List UInt8) :
    fieldLength widest ((phpMysqlndNetStoreLength length).1 ++ rest) =
      (length.toNat % 256 ^ widest, phpMysqlndNetStoreLengthSize length) := by
  have hmod (h : length.toNat < 256 ^ 3) : length.toNat % 256 ^ widest = length.toNat :=
    Nat.mod_eq_of_lt (h.trans_le (Nat.pow_le_pow_right (by omega) h3))
  rw [phpMysqlndNetStoreLength, phpMysqlndNetStoreLengthSize]
  split_ifs with h1 h2 h4
  · have hbyte : (UInt8.ofNat length.toNat).toNat = length.toNat :=
      UInt8.toNat_ofNat_of_lt' (lt_trans h1 (by decide))
    rw [hmod (by omega), fieldLength, singleton_append, headD_cons, hbyte]
    exact if_pos h1
  · change (uintKorr 2 (intStore 2 length.toNat ++ rest), 3) = _
    rw [hmod (by omega), uintKorr_intStore le_rfl, Nat.mod_eq_of_lt (by omega)]
  · change (uintKorr 3 (intStore 3 length.toNat ++ rest), 4) = _
    rw [hmod h4, uintKorr_intStore le_rfl, Nat.mod_eq_of_lt (by omega)]
  · change (uintKorr widest (intStore 8 length.toNat ++ rest), 9) = _
    rw [uintKorr_intStore h8]

/-- What is written for a length has the right size, and both readers take it and no more. -/
def LengthReadsBack (length : UInt64) : Prop :=
  let written := phpMysqlndNetStoreLength length
  let size := phpMysqlndNetStoreLengthSize length
  written.1.length = size ∧ written.2 = size ∧ ∀ rest,
    phpMysqlndNetFieldLength (written.1 ++ rest) = (length.toNat, size) ∧
      phpMysqlndNetFieldLengthLl (written.1 ++ rest) = (length.toNat, size)

theorem length_storeLength (length : UInt64) :
    (phpMysqlndNetStoreLength length).1.length = phpMysqlndNetStoreLengthSize length ∧
      (phpMysqlndNetStoreLength length).2 = phpMysqlndNetStoreLengthSize length := by
  rw [phpMysqlndNetStoreLength, phpMysqlndNetStoreLengthSize]
  split_ifs <;> exact ⟨by simp [length_intStore], rfl⟩

/-- `php_mysqlnd_net_field_length` takes four bytes of eight. -/
theorem lengthReadsBack_iff (length : UInt64) : LengthReadsBack length ↔ length.toNat < 2 ^ 32 := by
  have hshort := fieldLength_storeLength 4 (by decide) (by decide) length
  have hlong := fieldLength_storeLength 8 (by decide) (by decide) length
  constructor
  · rintro ⟨-, -, h⟩
    have hread := ((hshort []).symm.trans (h []).1)
    rw [Prod.mk.injEq] at hread
    have := Nat.mod_lt length.toNat (show 0 < 256 ^ 4 by decide)
    omega
  · intro h
    obtain ⟨hsize, hahead⟩ := length_storeLength length
    refine ⟨hsize, hahead, fun rest => ⟨?_, ?_⟩⟩
    · rw [phpMysqlndNetFieldLength, hshort, Nat.mod_eq_of_lt (by omega)]
    · rw [phpMysqlndNetFieldLengthLl, hlong, Nat.mod_eq_of_lt (by omega)]

theorem fourGigabytes_not_readsBack : ¬LengthReadsBack 4294967296 := fun h =>
  absurd (h.2.2 []).1 (by decide)

/-! Rows. -/

/-- `mysqlnd_read_header`, without compression: the size of the packet. -/
def mysqlndReadHeader (net : MysqlndNet) : Option (Nat × MysqlndNet) :=
  match networkReadEx mysqlndHeaderSize net.wire with
  | (false, _, _) => none
  | (true, buffer, wire) =>
    if net.packetNo = buffer[3]?.getD 0 then
      some (uint3korr buffer, { net with packetNo := net.packetNo + 1, wire := wire })
    else none

section Rows

-- What a chunk of a size holds before it is written to.
variable (junk : Nat → Nat → UInt8)

/-- Where a packet goes in the chunk: behind what was counted so far, but for the first one. -/
def rowPosition (buffer : Option (Nat → UInt8)) (dataSize : Nat) : Nat :=
  if buffer.isSome then dataSize else 0

/-- `get_chunk`, or `resize_chunk` for one that is there. -/
def rowChunk (buffer : Option (Nat → UInt8)) (dataSize size : Nat) : Nat → UInt8 :=
  match buffer with
  | none => junk (dataSize + size + 1)
  | some buf => fun i => if i < dataSize + 1 then buf i else junk (dataSize + size + 1) i

/-- The loop of `php_mysqlnd_read_row_ex`; there is no buffer before the first turn. -/
def readRowLoop : Nat → Option (Nat → UInt8) → Nat → MysqlndNet →
    Option (Nat × (Nat → UInt8) × MysqlndNet)
  | 0, _, _, _ => none
  | fuel + 1, buffer, dataSize, net => do
    let (size, net) ← mysqlndReadHeader net
    match buffer, size with
    | some buf, 0 => return (dataSize, buf, net)
    | buffer, size =>
      match networkReadEx size net.wire with
      | (false, _, _) => none
      | (true, data, wire) =>
        let buf := Memory.store (rowChunk junk buffer dataSize size)
          (rowPosition buffer dataSize) data
        let net := { net with wire := wire }
        if size < mysqlndMaxPacketSize then return (dataSize + size, buf, net)
        else readRowLoop fuel (some buf) (dataSize + size) net

/-- `php_mysqlnd_read_row_ex`: `*data_size`, the buffer and the connection.  Every turn of
the loop takes a header. -/
def phpMysqlndReadRowEx (preallocMoreBytes : Nat) (net : MysqlndNet) :
    Option (Nat × (Nat → UInt8) × MysqlndNet) := do
  let (dataSize, buffer, net) ← readRowLoop junk (net.wire.length + 1) none preallocMoreBytes net
  return (dataSize - preallocMoreBytes, buffer, net)

variable {junk} {payload : List UInt8} {full : Nat} {buf : Nat → UInt8}

theorem mysqlndReadHeader_packet {body : List UInt8} (h : body.length ≤ mysqlndMaxPacketSize)
    (net : MysqlndNet) (rest : List UInt8) :
    mysqlndReadHeader { net with wire := packetText net.packetNo body ++ rest } =
      some (body.length, { net with packetNo := net.packetNo + 1, wire := body ++ rest }) := by
  have hread : networkReadEx mysqlndHeaderSize (packetText net.packetNo body ++ rest) =
      (true, int3store body.length ++ [net.packetNo], body ++ rest) := by
    rw [packetText, append_assoc]
    exact networkReadEx_append (int3store body.length ++ [net.packetNo]) _
  have hsize : uint3korr (int3store body.length ++ [net.packetNo]) = body.length :=
    uint3korr_int3store (h.trans_lt (by decide)) _
  simp only [mysqlndReadHeader, hread, hsize]
  exact if_pos rfl

/-- A turn for a packet that has a body, or is the first one. -/
theorem readRowLoop_turn {body : List UInt8} (h : body.length ≤ mysqlndMaxPacketSize)
    {buffer : Option (Nat → UInt8)} (hbody : buffer = none ∨ body ≠ []) (fuel dataSize : Nat)
    (net : MysqlndNet) (rest : List UInt8) :
    let buf := Memory.store (rowChunk junk buffer dataSize body.length)
      (rowPosition buffer dataSize) body
    let next := { net with packetNo := net.packetNo + 1, wire := rest }
    readRowLoop junk (fuel + 1) buffer dataSize
        { net with wire := packetText net.packetNo body ++ rest } =
      if body.length < mysqlndMaxPacketSize then some (dataSize + body.length, buf, next)
      else readRowLoop junk fuel (some buf) (dataSize + body.length) next := by
  rw [readRowLoop, mysqlndReadHeader_packet h]
  simp only [Option.bind_eq_bind, Option.bind_some]
  split
  case h_1 heq =>
    rcases hbody with hnone | hne
    · cases hnone
    · exact absurd (length_eq_zero_iff.mp heq) hne
  case h_2 => simp only [networkReadEx_append]; rfl

theorem store_rowChunk {old : Nat → UInt8} {dataSize i : Nat} (hi : i < dataSize)
    (body : List UInt8) : Memory.store (rowChunk junk (some old) dataSize body.length)
      (rowPosition (some old) dataSize) body i = old i :=
  (Memory.store_of_lt hi).trans (if_pos (hi.trans (Nat.lt_succ_self _)))

/-- The packets are put one behind the other from the second one on. -/
theorem readRowLoop_reads (hfull : payload.length / mysqlndMaxPacketSize = full) {fuel : Nat}
    (hfuel : full < fuel) (buffer : Option (Nat → UInt8)) (dataSize : Nat) (net : MysqlndNet)
    (rest : List UInt8) :
    ∃ buf, readRowLoop junk fuel buffer dataSize { net with
        wire := packetStream net.packetNo (packetBodies full payload) ++ rest } =
      some (dataSize + payload.length, buf, { net with
        packetNo := net.packetNo + .ofNat (full + 1), wire := rest }) ∧
      (∀ old ∈ buffer, ∀ i < dataSize, buf i = old i) ∧
      (rowPosition buffer dataSize = dataSize ∨ payload.length ≤ mysqlndMaxPacketSize →
        Memory.slice buf (rowPosition buffer dataSize) payload.length = payload) := by
  induction full generalizing payload buffer fuel dataSize net with
  | zero =>
    obtain ⟨fuel, rfl⟩ := Nat.exists_eq_succ_of_ne_zero (Nat.ne_of_gt hfuel)
    have hlt := last_packet hfull
    rw [packetBodies, packetStream, packetStream, append_nil]
    by_cases hbody : buffer = none ∨ payload ≠ []
    · rw [readRowLoop_turn hlt.le hbody, if_pos hlt]
      exact ⟨_, rfl, fun _ hold _ hi => hold ▸ store_rowChunk hi payload,
        fun _ => Memory.slice_store _ _ _⟩
    · obtain ⟨hsome, rfl⟩ := (not_or.mp hbody).imp_right not_not.mp
      obtain ⟨buf, rfl⟩ := Option.ne_none_iff_exists'.mp hsome
      refine ⟨buf, ?_, fun old hold i _ => by rw [Option.mem_some.mp hold], fun _ => rfl⟩
      rw [readRowLoop, mysqlndReadHeader_packet hlt.le]
      rfl
  | succ full ih =>
    obtain ⟨fuel, rfl⟩ := Nat.exists_eq_succ_of_ne_zero (Nat.ne_of_gt (Nat.zero_lt_of_lt hfuel))
    obtain ⟨hle, hrest⟩ := full_packet hfull
    have hfirst := length_take_of_le hle
    have hparts := take_append_drop mysqlndMaxPacketSize payload
    rw [packetBodies, packetStream, append_assoc]
    generalize payload.take mysqlndMaxPacketSize = first at *
    generalize payload.drop mysqlndMaxPacketSize = left at *
    subst hparts
    have hne : first ≠ [] := fun hnil => by
      rw [hnil] at hfirst
      exact absurd hfirst (by decide)
    rw [readRowLoop_turn hfirst.le (.inr hne), if_neg hfirst.not_lt]
    generalize hbuf : Memory.store _ _ first = buf₁
    have hstored := Memory.slice_store (rowChunk junk buffer dataSize first.length)
      (rowPosition buffer dataSize) first
    have hle : rowPosition buffer dataSize ≤ dataSize := by cases buffer <;> simp [rowPosition]
    obtain ⟨buf, heq, hbelow, hslice⟩ := ih hrest (Nat.lt_of_succ_lt_succ hfuel) (some buf₁)
      (dataSize + first.length) { net with packetNo := net.packetNo + 1 }
    replace hbelow := hbelow buf₁ rfl
    refine ⟨buf, ?_, fun old hold i hi => ?_, fun h => ?_⟩
    · rw [length_append, ← add_assoc, UInt8.ofNat_add, add_comm (UInt8.ofNat _), ← add_assoc]
      exact heq
    · rw [hbelow i (by omega), ← hbuf]
      exact hold ▸ store_rowChunk hi first
    · rw [length_append, Memory.slice_append, Memory.slice_congr fun i _ hi => hbelow i (by omega),
        ← hbuf, hstored]
      congr 1
      rcases h with h | h
      · rw [h]
        exact hslice (.inl rfl)
      · have hnil : left = [] := length_eq_zero_iff.mp (by rw [length_append] at h; omega)
        rw [hnil]
        rfl

theorem lt_length_packetStream (full : Nat) (payload : List UInt8) (packetNo : UInt8) :
    full < (packetStream packetNo (packetBodies full payload)).length := by
  induction full generalizing payload packetNo with
  | zero => exact Nat.zero_lt_of_lt (Nat.lt_succ_self _)
  | succ full ih =>
    have := ih (payload.drop mysqlndMaxPacketSize) (packetNo + 1)
    rw [packetBodies, packetStream, length_append, length_packetText, mysqlndHeaderSize]
    omega

/-- A row is read whatever its length.  Its bytes are in a row, unless there is a second packet
and the bytes that were asked for besides lie before it. -/
theorem phpMysqlndReadRowEx_reads (junk : Nat → Nat → UInt8) (preallocMoreBytes : Nat)
    (payload : List UInt8) (net : MysqlndNet) (rest : List UInt8) :
    let full := payload.length / mysqlndMaxPacketSize
    ∃ buf, phpMysqlndReadRowEx junk preallocMoreBytes { net with
        wire := packetStream net.packetNo (packetBodies full payload) ++ rest } =
      some (payload.length, buf, { net with
        packetNo := net.packetNo + .ofNat (full + 1), wire := rest }) ∧
      (preallocMoreBytes = 0 ∨ payload.length ≤ mysqlndMaxPacketSize →
        Memory.slice buf 0 payload.length = payload) := by
  have hfuel := lt_length_packetStream (payload.length / mysqlndMaxPacketSize) payload net.packetNo
  obtain ⟨buf, heq, -, hslice⟩ := @readRowLoop_reads junk _ _ rfl _
    (Nat.lt_succ_of_lt (hfuel.trans_le (length_append ▸ Nat.le_add_right _ rest.length))) none
    preallocMoreBytes net rest
  refine ⟨buf, ?_, fun h => hslice (h.imp_left Eq.symm)⟩
  rw [phpMysqlndReadRowEx, heq]
  simp

theorem preallocated_not_counted : ((phpMysqlndReadRowEx (fun _ _ => 0) 1
    ⟨0, 0, none, packetStream 0 [[7]]⟩).map (·.1)) ≠ some (1 + 1) := by
  decide

end Rows

section ResultSet

variable (junk : Nat → Nat → UInt8) (postAllocForBitFields : Nat)

inductive RowPacket where
  | row (bytes : List UInt8)
  | eof (warningCount serverStatus : Nat)

/-- `php_mysqlnd_rowp_read` with `skip_extraction`.  An error that the server reports is a
failure. -/
def phpMysqlndRowpRead (net : MysqlndNet) : Option (RowPacket × MysqlndNet) := do
  let (dataSize, buf, net) ← phpMysqlndReadRowEx junk postAllocForBitFields net
  if buf 0 = 0xff then none
  else if buf 0 = 0xfe ∧ dataSize < 8 then
    if 1 < dataSize then
      return (.eof (uintKorr 2 (Memory.slice buf 1 2)) (uintKorr 2 (Memory.slice buf 3 2)), net)
    else return (.eof 0 0, net)
  else return (.row (Memory.slice buf 0 dataSize), net)

/-- The loop of `mysqlnd_res::store_result_fetch_data`: the rows, `warning_count` and
`server_status`. -/
def storeResultFetchData : Nat → MysqlndNet → Option (List (List UInt8) × Nat × Nat × MysqlndNet)
  | 0, _ => none
  | turns + 1, net =>
    match phpMysqlndRowpRead junk postAllocForBitFields net with
    | none => none
    | some (.eof warningCount serverStatus, net) => some ([], warningCount, serverStatus, net)
    | some (.row bytes, net) =>
      (storeResultFetchData turns net).map fun out => (bytes :: out.1, out.2)

/-- Payloads as the server sends them, with numbers that go on from one to the next. -/
def payloadStream : UInt8 → List (List UInt8) → List UInt8
  | _, [] => []
  | packetNo, payload :: payloads =>
    let full := payload.length / mysqlndMaxPacketSize
    packetStream packetNo (packetBodies full payload) ++
      payloadStream (packetNo + .ofNat (full + 1)) payloads

def eofPacket (warningCount serverStatus : Nat) : List UInt8 :=
  [0xfe] ++ (intStore 2 warningCount ++ intStore 2 serverStatus)

/-- What a client takes for a row: it does not begin as an error or as a short packet at the end,
and fits where bytes were asked for besides. -/
def IsRow (row : List UInt8) : Prop :=
  ∃ b tail, row = [b] ++ tail ∧ b ≠ 0xff ∧ ¬(b = 0xfe ∧ row.length < 8) ∧
    (postAllocForBitFields = 0 ∨ row.length ≤ mysqlndMaxPacketSize)

def MysqlndNet.behind (net : MysqlndNet) (payload rest : List UInt8) : MysqlndNet :=
  { net with
    packetNo := net.packetNo + .ofNat (payload.length / mysqlndMaxPacketSize + 1)
    wire := rest }

variable {junk postAllocForBitFields}

theorem rowpRead_payload {payload : List UInt8} (net : MysqlndNet)
    (hroom : postAllocForBitFields = 0 ∨ payload.length ≤ mysqlndMaxPacketSize)
    (payloads : List (List UInt8)) (rest : List UInt8) :
    ∃ buf, phpMysqlndReadRowEx junk postAllocForBitFields
        { net with wire := payloadStream net.packetNo (payload :: payloads) ++ rest } =
      some (payload.length, buf, net.behind payload
        (payloadStream (net.behind payload []).packetNo payloads ++ rest)) ∧
      Memory.slice buf 0 payload.length = payload := by
  rw [payloadStream, append_assoc]
  generalize hrest : payloadStream _ payloads ++ rest = left
  have hfuel := lt_length_packetStream (payload.length / mysqlndMaxPacketSize) payload net.packetNo
  obtain ⟨buf, heq, -, hslice⟩ := @readRowLoop_reads junk _ _ rfl _
    (Nat.lt_succ_of_lt (hfuel.trans_le (length_append ▸ Nat.le_add_right _ left.length))) none
    postAllocForBitFields net left
  refine ⟨buf, ?_, hslice (hroom.imp_left Eq.symm)⟩
  rw [phpMysqlndReadRowEx, heq]
  simp [MysqlndNet.behind, ← hrest]

theorem rowpRead_row {row : List UInt8} (h : IsRow postAllocForBitFields row) (net : MysqlndNet)
    (payloads : List (List UInt8)) (rest : List UInt8) :
    phpMysqlndRowpRead junk postAllocForBitFields
        { net with wire := payloadStream net.packetNo (row :: payloads) ++ rest } =
      some (.row row, net.behind row
        (payloadStream (net.behind row []).packetNo payloads ++ rest)) := by
  obtain ⟨b, tail, rfl, herror, hend, hroom⟩ := h
  obtain ⟨buf, heq, hslice⟩ := @rowpRead_payload junk _ _ net hroom payloads rest
  have hfirst : buf 0 = b := singleton_inj.mp (Memory.slice_append_eq hslice).1
  rw [phpMysqlndRowpRead, heq]
  simp only [Option.bind_eq_bind, Option.bind_some, hfirst, if_neg herror, if_neg hend, hslice]
  rfl

theorem rowpRead_eof {warningCount serverStatus : Nat} (hwarnings : warningCount < 2 ^ 16)
    (hstatus : serverStatus < 2 ^ 16) (net : MysqlndNet) (rest : List UInt8) :
    phpMysqlndRowpRead junk postAllocForBitFields { net with
        wire := payloadStream net.packetNo [eofPacket warningCount serverStatus] ++ rest } =
      some (.eof warningCount serverStatus,
        net.behind (eofPacket warningCount serverStatus) rest) := by
  have hread {n : Nat} (hn : n < 2 ^ 16) : uintKorr 2 (intStore 2 n) = n := by
    rw [← append_nil (intStore 2 n), uintKorr_intStore le_rfl]
    exact Nat.mod_eq_of_lt hn
  have hlength : (eofPacket warningCount serverStatus).length = 5 := rfl
  obtain ⟨buf, heq, hslice⟩ := @rowpRead_payload junk postAllocForBitFields _ net
    (.inr (hlength.trans_le (by decide))) [] rest
  obtain ⟨hmark, hslice⟩ := Memory.slice_append_eq (l := [0xfe]) hslice
  obtain ⟨hfirst, hsecond⟩ : Memory.slice buf 1 2 = intStore 2 warningCount ∧
      Memory.slice buf 3 2 = intStore 2 serverStatus := Memory.slice_append_eq hslice
  have hmark : buf 0 = 0xfe := singleton_inj.mp hmark
  rw [phpMysqlndRowpRead, heq]
  simp only [Option.bind_eq_bind, Option.bind_some, hmark, hlength]
  rw [if_neg (by decide), if_pos (by decide), if_pos (by decide), hfirst, hsecond,
    hread hwarnings, hread hstatus]
  rfl

end ResultSet

end PhpEngine

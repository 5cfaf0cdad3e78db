/-
The transport of mysqlnd (ext/mysqlnd/mysqlnd_net.c): packets of at most
`MYSQLND_MAX_PACKET_SIZE` bytes, each in an envelope when compression is on.
The network is the list of the bytes that were written to it.
-/
import PhpEngine.Memory
import Mathlib.Data.UInt

namespace PhpEngine

/-- `MYSQLND_MAX_PACKET_SIZE` -/
def mysqlndMaxPacketSize : Nat := 256 * 256 * 256 - 1

/-- `MYSQLND_HEADER_SIZE` -/
def mysqlndHeaderSize : Nat := 4

/-- `COMPRESSED_HEADER_SIZE` -/
def compressedHeaderSize : Nat := 3

def int3store (n : Nat) : List UInt8 :=
  [UInt8.ofNat n, UInt8.ofNat (n >>> 8), UInt8.ofNat (n >>> 16)]

def uint3korr (l : List UInt8) : Nat :=
  (l[0]?.getD 0).toNat + (l[1]?.getD 0).toNat <<< 8 + (l[2]?.getD 0).toNat <<< 16

/-- The methods `encode` and `decode`.  `encode` is told how much room there is
for its result and fails without enough of it; `decode` is told the length of
the result, and fills the buffer with something even when it fails. -/
structure MysqlndCodec where
  encode : Nat → List UInt8 → Option (List UInt8)
  decode : List UInt8 → Nat → Bool × List UInt8
  length_encode : ∀ {n data result}, encode n data = some result → result.length ≤ n
  length_decode : ∀ data n, (decode data n).2.length = n
  decode_encode : ∀ {n data result}, encode n data = some result →
    decode result data.length = (true, data)

/-- `MYSQLND_NET`: the numbers, what is left in the read buffer, and the bytes
that the other side has sent. -/
structure MysqlndNet where
  packetNo : UInt8
  compressedEnvelopePacketNo : UInt8
  uncompressedData : Option (List UInt8)
  wire : List UInt8

/-! Sending. -/

section Send

variable (codec : MysqlndCodec) (compressed : Bool) (networkWriteEx : List UInt8 → Nat)

/-- What a turn of the loop in `send_ex` writes, and the buffer of the caller
afterwards.  The header is put in front of the chunk.  The four bytes that were there are
saved but not put back: `RESTORE_HEADER_SIZE` copies from the buffer as well. -/
def sendPacket (buf : Nat → UInt8) (p toBeSent : Nat) (packetNo : UInt8) :
    List UInt8 × (Nat → UInt8) :=
  let buf := Memory.store buf p (int3store toBeSent ++ [packetNo])
  let packet := Memory.slice buf p (toBeSent + mysqlndHeaderSize)
  if compressed then
    match codec.encode toBeSent packet with
    | some data =>
      (int3store data.length ++ [packetNo] ++ int3store (toBeSent + mysqlndHeaderSize) ++ data, buf)
    | none => (int3store (toBeSent + mysqlndHeaderSize) ++ [packetNo] ++ int3store 0 ++ packet, buf)
  else (packet, buf)

/-- What `send_ex` returns and leaves. -/
structure SendResult where
  bytesSent : Nat
  packetNo : UInt8
  compressedEnvelopePacketNo : UInt8
  buf : Nat → UInt8
  sent : List UInt8

/-- The loop of `send_ex`. -/
def sendLoop : Nat → (Nat → UInt8) → Nat → Nat → UInt8 → UInt8 → List UInt8 → SendResult
  | 0, buf, _, _, packetNo, envelopeNo, sent =>
    ⟨0, packetNo, envelopeNo, buf, sent⟩
  | fuel + 1, buf, p, left, packetNo, envelopeNo, sent =>
    let toBeSent := min left mysqlndMaxPacketSize
    let (text, buf) := sendPacket codec compressed buf p toBeSent packetNo
    let bytesSent := networkWriteEx text
    let sent := sent ++ text.take bytesSent
    let left := left - toBeSent
    if bytesSent ≠ 0 ∧ (0 < left ∨ toBeSent = mysqlndMaxPacketSize) then
      sendLoop fuel buf (p + toBeSent) left (packetNo + 1) (envelopeNo + 1) sent
    else ⟨bytesSent, packetNo + 1, envelopeNo + 1, buf, sent⟩

/-- `mysqlnd_net::send_ex`.  The buffer has the payload behind the room for a
header; the loop takes one turn for each full packet and one more. -/
def sendEx (buf : Nat → UInt8) (count : Nat) (net : MysqlndNet) : SendResult :=
  sendLoop codec compressed networkWriteEx (count / mysqlndMaxPacketSize + 1)
    buf 0 count net.packetNo net.compressedEnvelopePacketNo []

end Send

/-! Receiving. -/

/-- `mysqlnd_net::network_read_ex`: the status, what was read, and what is
left. -/
def networkReadEx (count : Nat) (wire : List UInt8) : Bool × List UInt8 × List UInt8 :=
  (count ≤ wire.length, wire.take count, wire.drop count)

section Receive

variable (codec : MysqlndCodec) (junk : Nat → UInt8)

/-- `read_compressed_packet_from_stream_and_fill_read_buffer`.  A buffer that
was not filled has whatever the memory held. -/
def fillReadBuffer (netPayloadSize : Nat) (net : MysqlndNet) : Bool × MysqlndNet :=
  match networkReadEx compressedHeaderSize net.wire with
  | (false, _, wire) => (false, { net with wire := wire })
  | (true, compHeader, wire) =>
    let decompressedSize := uint3korr compHeader
    let (read, data, wire) := networkReadEx netPayloadSize wire
    if decompressedSize ≠ 0 then
      if read then
        let (decoded, content) := codec.decode data decompressedSize
        (decoded, { net with wire := wire, uncompressedData := some content })
      else (false, { net with wire := wire })
    else
      let content := data ++ (List.range (netPayloadSize - data.length)).map junk
      (read, { net with wire := wire, uncompressedData := some content })

/-- What can be read from the read buffer, which goes when it is empty. -/
def readUncompressed (count : Nat) (net : MysqlndNet) : List UInt8 × MysqlndNet :=
  match net.uncompressedData with
  | none => ([], net)
  | some data =>
    let left := data.drop count
    (data.take count, { net with uncompressedData := if left = [] then none else some left })

/-- `mysqlnd_net::receive_ex` with compression on: the status, and what was put
into the buffer.  Every call of itself takes a header from the network. -/
def receiveLoop : Nat → Nat → MysqlndNet → Bool × List UInt8 × MysqlndNet
  | 0, _, net => (false, [], net)
  | fuel + 1, count, net =>
    let (got, net) := readUncompressed count net
    let toRead := count - got.length
    if toRead = 0 then (true, got, net)
    else
      match networkReadEx mysqlndHeaderSize net.wire with
      | (false, _, wire) => (false, got, { net with wire := wire })
      | (true, header, wire) =>
        if net.compressedEnvelopePacketNo ≠ header[3]?.getD 0 then
          (false, got, { net with wire := wire })
        else
          -- The status of the read is not looked at.
          let (_, net) := fillReadBuffer codec junk (uint3korr header) { net with
            wire := wire
            compressedEnvelopePacketNo := net.compressedEnvelopePacketNo + 1 }
          let (status, rest, net) := receiveLoop fuel toRead net
          (status, got ++ rest, net)

/-- `mysqlnd_net::receive_ex` -/
def receiveEx (compressed : Bool) (count : Nat) (net : MysqlndNet) :
    Bool × List UInt8 × MysqlndNet :=
  if compressed then receiveLoop codec junk (net.wire.length + 1) count net
  else
    let (status, data, wire) := networkReadEx count net.wire
    (status, data, { net with wire := wire })

/-- Reads one after the other, as long as they succeed. -/
def receives : List Nat → MysqlndNet → Option (List (List UInt8))
  | [], _ => some []
  | count :: counts, net =>
    match receiveEx codec junk true count net with
    | (false, _, _) => none
    | (true, data, net) => (receives counts net).map (data :: ·)

end Receive

end PhpEngine

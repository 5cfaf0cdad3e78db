/-
The packets that `send_ex` writes: the payload is cut into full packets and a
last one that is not full.
-/
import PhpEngine.MysqlndNet

namespace PhpEngine

open List

variable {full : Nat} {payload : List UInt8} {buf : Nat → UInt8}

/-- A number below `2 ^ 24` is read back from the three bytes it is stored in. -/
theorem uint3korr_int3store {n : Nat} (h : n < 2 ^ 24) (rest : List UInt8) :
    uint3korr (int3store n ++ rest) = n := by
  have hlow : (UInt8.ofNat n).toNat = n % 256 := UInt8.toNat_ofNat'
  have hmid : (UInt8.ofNat (n >>> 8)).toNat = n / 256 % 256 := by
    rw [UInt8.toNat_ofNat', Nat.shiftRight_eq_div_pow]
  have hhigh : (UInt8.ofNat (n >>> 16)).toNat = n / 65536 % 256 := by
    rw [UInt8.toNat_ofNat', Nat.shiftRight_eq_div_pow]
  have hsum : uint3korr (int3store n ++ rest) = (UInt8.ofNat n).toNat +
      (UInt8.ofNat (n >>> 8)).toNat <<< 8 +
      (UInt8.ofNat (n >>> 16)).toNat <<< 16 := rfl
  omega

/-- A packet: the size, the number and the bytes. -/
def packetText (packetNo : UInt8) (body : List UInt8) : List UInt8 :=
  int3store body.length ++ [packetNo] ++ body

/-- Packets with consecutive numbers. -/
def packetStream : UInt8 → List (List UInt8) → List UInt8
  | _, [] => []
  | packetNo, body :: bodies =>
    packetText packetNo body ++ packetStream (packetNo + 1) bodies

/-- The payload in `full` full packets and the rest. -/
def packetBodies : Nat → List UInt8 → List (List UInt8)
  | 0, payload => [payload]
  | full + 1, payload =>
    payload.take mysqlndMaxPacketSize :: packetBodies full (payload.drop mysqlndMaxPacketSize)

theorem packetBodies_ne_nil (full : Nat) (payload : List UInt8) :
    packetBodies full payload ≠ [] := by
  cases full <;> exact cons_ne_nil _ _

theorem flatten_packetBodies (full : Nat) (payload : List UInt8) :
    (packetBodies full payload).flatten = payload := by
  induction full generalizing payload with
  | zero => simp [packetBodies]
  | succ full ih =>
    rw [packetBodies, flatten_cons, ih, take_append_drop]

theorem full_packet
    (h : payload.length / mysqlndMaxPacketSize = full + 1) : mysqlndMaxPacketSize ≤ payload.length ∧
      (payload.drop mysqlndMaxPacketSize).length / mysqlndMaxPacketSize = full := by
  have hmax : 0 < mysqlndMaxPacketSize := by decide
  have hle : mysqlndMaxPacketSize ≤ payload.length := by
    by_contra hlt
    rw [Nat.div_eq_of_lt (Nat.lt_of_not_le hlt)] at h
    cases h
  have hdiv := Nat.div_eq_sub_div hmax hle
  rw [length_drop]
  omega

theorem last_packet (h : payload.length / mysqlndMaxPacketSize = 0) :
    payload.length < mysqlndMaxPacketSize := by
  rcases Nat.div_eq_zero_iff.mp h with hzero | hlt
  · cases hzero
  · exact hlt

/-- All packets but the last are full, and the last one is not. -/
theorem length_packetBodies (h : payload.length / mysqlndMaxPacketSize = full) :
    (∀ body ∈ (packetBodies full payload).dropLast, body.length = mysqlndMaxPacketSize) ∧
      ((packetBodies full payload).getLast
        (packetBodies_ne_nil full payload)).length < mysqlndMaxPacketSize := by
  induction full generalizing payload with
  | zero => simpa [packetBodies] using last_packet h
  | succ full ih =>
    obtain ⟨hle, hrest⟩ := full_packet h
    obtain ⟨hfull, hlast⟩ := ih hrest
    refine ⟨?_, ?_⟩
    · intro body hbody
      rw [packetBodies, dropLast_cons_of_ne_nil (packetBodies_ne_nil _ _)] at hbody
      rcases mem_cons.mp hbody with rfl | hbody
      · rw [length_take, min_eq_left hle]
      · exact hfull body hbody
    · simp only [packetBodies, getLast_cons (packetBodies_ne_nil _ _)]
      exact hlast

theorem packetBodies_cons (h : payload.length / mysqlndMaxPacketSize = full) :
    ∃ body bodies, packetBodies full payload = body :: bodies ∧
      body.length = min payload.length mysqlndMaxPacketSize := by
  cases full with
  | zero => exact ⟨_, _, rfl, (min_eq_left (last_packet h).le).symm⟩
  | succ full => exact ⟨_, _, rfl, by rw [length_take, min_comm]⟩

/-- Each packet but the last ends in the header of the next one. -/
def EndInHeaders : UInt8 → List (List UInt8) → Prop
  | packetNo, body :: next :: bodies =>
    body.drop (body.length - mysqlndHeaderSize) = int3store next.length ++ [packetNo + 1] ∧
      EndInHeaders (packetNo + 1) (next :: bodies)
  | _, _ => True

section Send

variable (codec : MysqlndCodec) (compressed : Bool)

/-- What stands for a packet on the wire. -/
def wireText (packetNo : UInt8) (body : List UInt8) : List UInt8 :=
  let packet := packetText packetNo body
  if compressed then
    match codec.encode body.length packet with
    | some data =>
      int3store data.length ++ [packetNo] ++ int3store packet.length ++ data
    | none => int3store packet.length ++ [packetNo] ++ int3store 0 ++ packet
  else packet

def wireStream : UInt8 → List (List UInt8) → List UInt8
  | _, [] => []
  | packetNo, body :: bodies =>
    wireText codec compressed packetNo body ++ wireStream (packetNo + 1) bodies

theorem wireStream_plain (packetNo : UInt8) (bodies : List (List UInt8)) :
    wireStream codec false packetNo bodies = packetStream packetNo bodies := by
  induction bodies generalizing packetNo with
  | nil => rfl
  | cons body bodies ih =>
    rw [wireStream, ih, packetStream]
    rfl

theorem length_packetText (packetNo : UInt8) (body : List UInt8) :
    (packetText packetNo body).length = body.length + mysqlndHeaderSize := by
  simp [packetText, int3store, mysqlndHeaderSize]

variable {codec compressed}

/-- A turn writes the packet of its chunk and leaves the header in the buffer. -/
theorem sendPacket_eq {p : Nat} {body : List UInt8}
    (h : Memory.slice buf (p + mysqlndHeaderSize) body.length = body) (packetNo : UInt8) :
    sendPacket codec compressed buf p body.length packetNo =
      (wireText codec compressed packetNo body,
        Memory.store buf p (int3store body.length ++ [packetNo])) := by
  have hlength : (int3store body.length ++ [packetNo]).length = mysqlndHeaderSize := rfl
  have hpacket : Memory.slice (Memory.store buf p (int3store body.length ++ [packetNo])) p
      (body.length + mysqlndHeaderSize) = packetText packetNo body := by
    rw [add_comm, Memory.slice_append, ← hlength, Memory.slice_store,
      Memory.slice_store_behind le_rfl, hlength, h]
    rfl
  simp only [sendPacket, hpacket, wireText, length_packetText]
  split
  · split <;> simp_all
  · rfl

theorem wireText_ne_nil (packetNo : UInt8) (body : List UInt8) :
    wireText codec compressed packetNo body ≠ [] := by
  rw [wireText]
  split
  · split <;> simp [int3store]
  · simp [packetText, int3store]

variable {networkWriteEx : List UInt8 → Nat}
  (hwrite : ∀ text, networkWriteEx text = text.length) {p : Nat}
  (h : Memory.slice buf (p + mysqlndHeaderSize) payload.length = payload)
include hwrite h

theorem sendLoop_last (hlt : payload.length < mysqlndMaxPacketSize) (fuel : Nat)
    (packetNo envelopeNo : UInt8) (sent : List UInt8) :
    ∃ bytes, sendLoop codec compressed networkWriteEx (fuel + 1) buf p payload.length
        packetNo envelopeNo sent =
      ⟨bytes, packetNo + 1, envelopeNo + 1,
        Memory.store buf p (int3store payload.length ++ [packetNo]),
        sent ++ wireText codec compressed packetNo payload⟩ := by
  have hstop : ¬(0 < payload.length - payload.length ∨
      payload.length = mysqlndMaxPacketSize) := by omega
  simp only [sendLoop, min_eq_left (le_of_lt hlt), sendPacket_eq h, hwrite, take_length, hstop,
    and_false, if_false]
  exact ⟨_, rfl⟩

/-- A turn for a full packet leaves what is behind it for the next one. -/
theorem sendLoop_turn {first rest : List UInt8} (hpayload : payload = first ++ rest)
    (hfirst : first.length = mysqlndMaxPacketSize) (fuel : Nat) (packetNo envelopeNo : UInt8)
    (sent : List UInt8) : let buf₁ := Memory.store buf p (int3store first.length ++ [packetNo])
    Memory.slice buf₁ (p + first.length + mysqlndHeaderSize) rest.length = rest ∧
      sendLoop codec compressed networkWriteEx (fuel + 1) buf p payload.length
          packetNo envelopeNo sent =
        sendLoop codec compressed networkWriteEx fuel buf₁ (p + first.length) rest.length
          (packetNo + 1) (envelopeNo + 1) (sent ++ wireText codec compressed packetNo first) := by
  subst hpayload
  obtain ⟨htake, hdrop⟩ := Memory.slice_append_eq h
  have hleft : (first ++ rest).length - first.length = rest.length := by
    rw [length_append, Nat.add_sub_cancel_left]
  have hsent : (wireText codec compressed packetNo first).length ≠ 0 := by
    intro hzero
    exact wireText_ne_nil packetNo first (length_eq_zero_iff.mp hzero)
  refine ⟨?_, ?_⟩
  · rw [add_right_comm] at hdrop
    have hhdr : (int3store first.length ++ [packetNo]).length = mysqlndHeaderSize := rfl
    rw [Memory.slice_store_behind (by omega), hdrop]
  · have hle : mysqlndMaxPacketSize ≤ (first ++ rest).length := by
      rw [length_append]
      omega
    rw [sendLoop, Nat.min_eq_right hle, ← hfirst]
    simp only [sendPacket_eq htake, hwrite, take_length, hleft]
    rw [if_pos ⟨hsent, .inr trivial⟩]

omit h in
/-- The loop writes the packets of what is left of the payload.  The header of the next packet
comes to lie over the end of the one before it. -/
theorem sendLoop_spec (hfull : payload.length / mysqlndMaxPacketSize = full)
    (h : Memory.slice buf (p + mysqlndHeaderSize) payload.length = payload)
    (packetNo envelopeNo : UInt8) (sent : List UInt8) :
    let r := sendLoop codec compressed networkWriteEx (full + 1) buf p payload.length
      packetNo envelopeNo sent
    r.sent = sent ++ wireStream codec compressed packetNo (packetBodies full payload) ∧
      (∀ i < p, r.buf i = buf i) ∧ Memory.slice r.buf p mysqlndHeaderSize =
        int3store (min payload.length mysqlndMaxPacketSize) ++ [packetNo] ∧
      (Memory.slice r.buf (p + mysqlndHeaderSize) payload.length = payload ↔
        EndInHeaders packetNo (packetBodies full payload)) := by
  induction full generalizing payload buf p packetNo envelopeNo sent with
  | zero =>
    have hlt := last_packet hfull
    obtain ⟨bytes, hlast⟩ := sendLoop_last hwrite h hlt 0 packetNo envelopeNo sent
    rw [hlast, min_eq_left hlt.le, packetBodies, wireStream, wireStream, append_nil]
    refine ⟨rfl, fun i hi => Memory.store_of_lt hi, Memory.slice_store buf p _,
      iff_of_true ?_ trivial⟩
    exact (Memory.slice_store_behind le_rfl).trans h
  | succ full ih =>
    obtain ⟨hle, hrest⟩ := full_packet hfull
    have hfirst := length_take_of_le hle
    have hparts := (take_append_drop mysqlndMaxPacketSize payload).symm
    obtain ⟨hslice, hturn⟩ := sendLoop_turn hwrite h hparts hfirst (full + 1) packetNo envelopeNo
      sent
    obtain ⟨b, bs, hbodies, hb⟩ := packetBodies_cons hrest
    obtain ⟨hsent, hbelow, hhead, hiff⟩ := ih hrest hslice (packetNo + 1) (envelopeNo + 1)
      (sent ++ wireText codec compressed packetNo (payload.take mysqlndMaxPacketSize))
    dsimp only
    rw [hturn, min_eq_right hle, packetBodies, hsent, wireStream, append_assoc, hbodies,
      EndInHeaders, ← hbodies, hb, ← hiff, ← hhead]
    generalize (sendLoop _ _ _ _ _ _ _ _ _ _).buf = final at *
    generalize payload.take mysqlndMaxPacketSize = first at *
    generalize payload.drop mysqlndMaxPacketSize = rest at *
    subst hparts
    obtain ⟨htake, -⟩ := Memory.slice_append_eq h
    obtain ⟨k, hk⟩ : ∃ k, first.length = k + mysqlndHeaderSize :=
      ⟨_, (Nat.sub_add_cancel (hfirst ▸ (by decide))).symm⟩
    have hhdr : (int3store first.length ++ [packetNo]).length = mysqlndHeaderSize := rfl
    -- What is in the buffer up to the next header.
    have hkept : Memory.slice final (p + mysqlndHeaderSize) k = first.take k := by
      rw [Memory.slice_congr fun i _ hi => hbelow i (by omega),
        Memory.slice_store_behind (by omega)]
      rw [hk, Memory.slice_append] at htake
      rw [← htake, take_left' (Memory.length_slice _ _ _)]
    refine ⟨rfl, fun i hi => (hbelow i (by omega)).trans (Memory.store_of_lt hi), ?_, ?_⟩
    · rw [Memory.slice_congr fun i _ hi => hbelow i (by omega), ← hfirst]
      exact Memory.slice_store buf p (int3store first.length ++ [packetNo])
    · have hnext : p + mysqlndHeaderSize + k = p + (k + mysqlndHeaderSize) := by omega
      rw [length_append, Memory.slice_append, add_right_comm p, hk, Memory.slice_append, hkept,
        hnext, Nat.add_sub_cancel]
      have hparts : first ++ rest = first.take k ++ (first.drop k ++ rest) := by
        rw [← append_assoc, take_append_drop]
      rw [hparts, append_assoc, append_cancel_left_eq]
      have hlen : (Memory.slice final (p + (k + mysqlndHeaderSize)) mysqlndHeaderSize).length =
          (first.drop k).length := by
        rw [Memory.length_slice, length_drop, hk, Nat.add_sub_cancel_left]
      exact ⟨fun heq => (append_inj heq hlen).imp_left Eq.symm,
        fun heq => congrArg₂ _ heq.1.symm heq.2⟩

omit h in
/-- With all writes succeeding `send_ex` writes the packets of the payload. -/
theorem sendEx_sent (h : Memory.slice buf mysqlndHeaderSize payload.length = payload)
    (net : MysqlndNet) : (sendEx codec compressed networkWriteEx buf payload.length net).sent =
      wireStream codec compressed net.packetNo
        (packetBodies (payload.length / mysqlndMaxPacketSize) payload) := by
  rw [sendEx, (sendLoop_spec hwrite rfl (by rwa [Nat.zero_add]) _ _ _).1, nil_append]

end Send

/-- A codec that never finds the room, as for the shortest packets. -/
def MysqlndCodec.incompressible : MysqlndCodec where
  encode := fun _ _ => none
  decode := fun _ n => (false, List.replicate n 0)
  length_encode := fun h => by cases h
  length_decode := fun _ n => length_replicate
  decode_encode := fun h => by cases h

/-- Without compression the payload goes out in packets whose sizes and numbers
are right: full ones, and a last one that is not full. -/
theorem sendEx_packets (codec : MysqlndCodec) {networkWriteEx : List UInt8 → Nat}
    (hwrite : ∀ text, networkWriteEx text = text.length) {payload : List UInt8} {buf : Nat → UInt8}
    (h : Memory.slice buf mysqlndHeaderSize payload.length = payload) (net : MysqlndNet) :
    ∃ bodies : List (List UInt8), ∃ hne : bodies ≠ [],
      (sendEx codec false networkWriteEx buf payload.length net).sent =
          packetStream net.packetNo bodies ∧ bodies.flatten = payload ∧
        (∀ body ∈ bodies, uint3korr (int3store body.length) = body.length) ∧
        (∀ body ∈ bodies.dropLast, body.length = mysqlndMaxPacketSize) ∧
        (bodies.getLast hne).length < mysqlndMaxPacketSize := by
  have hmax : mysqlndMaxPacketSize < 2 ^ 24 := by decide
  obtain ⟨hfull, hlast⟩ := @length_packetBodies _ payload rfl
  refine ⟨packetBodies (payload.length / mysqlndMaxPacketSize) payload,
    packetBodies_ne_nil _ _, ?_, flatten_packetBodies _ _, ?_, hfull, hlast⟩
  · rw [sendEx_sent hwrite h, wireStream_plain]
  · intro body hbody
    have hle : body.length ≤ mysqlndMaxPacketSize := by
      rw [← dropLast_append_getLast (packetBodies_ne_nil _ _)] at hbody
      rcases mem_append.mp hbody with hbody | hbody
      · exact le_of_eq (hfull body hbody)
      · rw [mem_singleton.mp hbody]
        exact le_of_lt hlast
    simpa using uint3korr_int3store (lt_of_le_of_lt hle hmax) []

theorem sendEx_packets_three :
    Memory.slice (fun i => UInt8.ofNat i) mysqlndHeaderSize 3 = [4, 5, 6] ∧
      ∃ bodies : List (List UInt8), ∃ hne : bodies ≠ [],
        (sendEx .incompressible false List.length (fun i => UInt8.ofNat i) 3
            ⟨255, 0, none, []⟩).sent = packetStream 255 bodies ∧ bodies.flatten = [4, 5, 6] ∧
          (∀ body ∈ bodies, uint3korr (int3store body.length) = body.length) ∧
          (∀ body ∈ bodies.dropLast, body.length = mysqlndMaxPacketSize) ∧
          (bodies.getLast hne).length < mysqlndMaxPacketSize :=
  ⟨by decide, @sendEx_packets .incompressible List.length (fun _ => rfl) [4, 5, 6]
    (fun i => UInt8.ofNat i) (by decide) ⟨255, 0, none, []⟩⟩

/-- The payload is still in the buffer of the caller exactly if no header that was written over
it changed it. -/
theorem sendEx_keeps_payload_iff (codec : MysqlndCodec) (compressed : Bool)
    {networkWriteEx : List UInt8 → Nat} (hwrite : ∀ text, networkWriteEx text = text.length)
    {payload : List UInt8} {buf : Nat → UInt8}
    (h : Memory.slice buf mysqlndHeaderSize payload.length = payload) (net : MysqlndNet) :
    Memory.slice (sendEx codec compressed networkWriteEx buf payload.length net).buf
        mysqlndHeaderSize payload.length = payload ↔
      EndInHeaders net.packetNo (packetBodies (payload.length / mysqlndMaxPacketSize) payload) := by
  have hbuf := (@sendLoop_spec _ _ _ codec compressed _ hwrite 0 rfl (by rwa [Nat.zero_add])
    net.packetNo net.compressedEnvelopePacketNo []).2.2.2
  rwa [Nat.zero_add] at hbuf

theorem sendEx_keeps_payload_iff_three :
    Memory.slice (sendEx .incompressible true List.length (fun i => UInt8.ofNat i) 3
        ⟨255, 0, none, []⟩).buf mysqlndHeaderSize 3 = [4, 5, 6] ↔
      EndInHeaders 255 (packetBodies 0 [4, 5, 6]) :=
  @sendEx_keeps_payload_iff .incompressible true List.length (fun _ => rfl) [4, 5, 6]
    (fun i => UInt8.ofNat i) (by decide) ⟨255, 0, none, []⟩

theorem sendEx_changes_payload : Memory.slice (sendEx .incompressible false List.length
      (fun _ => 0) mysqlndMaxPacketSize ⟨0, 0, none, []⟩).buf mysqlndHeaderSize
        mysqlndMaxPacketSize ≠ replicate mysqlndMaxPacketSize 0 := by
  have hlen : (replicate mysqlndMaxPacketSize (0 : UInt8)).length = mysqlndMaxPacketSize :=
    length_replicate
  have hslice : Memory.slice (fun _ => (0 : UInt8)) (0 + mysqlndHeaderSize)
      (replicate mysqlndMaxPacketSize (0 : UInt8)).length = replicate mysqlndMaxPacketSize 0 := by
    rw [hlen, Memory.slice, map_const', length_range]
  have hbuf := (@sendLoop_spec 1 _ _ .incompressible false List.length (fun _ => rfl) _
    (by rw [hlen]; rfl) hslice 0 0 []).2.2.2
  rw [hlen] at hbuf
  refine fun heq => ?_
  have hends := (hbuf.mp heq).1
  rw [take_replicate, drop_replicate, drop_replicate] at hends
  rw [Nat.min_self, length_replicate, Nat.sub_sub_self (by decide), length_replicate, Nat.sub_self]
    at hends
  exact absurd hends (by decide)

end PhpEngine

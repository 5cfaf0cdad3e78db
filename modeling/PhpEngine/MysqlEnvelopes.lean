/-
Compressed packets are read back: an envelope has the sizes of a packet with its
header in three bytes each, so the packet must be shorter than `2 ^ 24` bytes.
-/
import PhpEngine.MysqlPackets

namespace PhpEngine

open List

variable {text body payload : List UInt8}

/-- The text cut at the given sizes. -/
def inSizes : List Nat → List UInt8 → List (List UInt8)
  | [], _ => []
  | size :: sizes, text => text.take size :: inSizes sizes (text.drop size)

/-- What is written with compression for the payload is read back as what is
written without it, in pieces of any sizes. -/
def EnvelopesRoundTrip (payload : List UInt8) (packetNo : UInt8) : Prop :=
  ∀ (codec : MysqlndCodec) (networkWriteEx : List UInt8 → Nat)
    (buf junk : Nat → UInt8) (sizes : List Nat),
    (∀ text, networkWriteEx text = text.length) →
      Memory.slice buf mysqlndHeaderSize payload.length = payload → let send := fun compressed =>
          (sendEx codec compressed networkWriteEx buf payload.length
            ⟨packetNo, packetNo, none, []⟩).sent
        sizes.sum ≤ (send false).length →
          receives codec junk sizes ⟨packetNo, packetNo, none, send true⟩ =
            some (inSizes sizes (send false))

/-- The read buffer with this text left. -/
def unread (text : List UInt8) : Option (List UInt8) :=
  if text = [] then none else some text

theorem readUncompressed_unread (count : Nat) (text wire : List UInt8)
    (packetNo envelopeNo : UInt8) :
    readUncompressed count ⟨packetNo, envelopeNo, unread text, wire⟩ = (text.take count,
        ⟨packetNo, envelopeNo, unread (text.drop count), wire⟩) := by
  by_cases hnil : text = []
  · simp [unread, hnil, readUncompressed]
  · simp only [unread, hnil, if_false, readUncompressed]

theorem networkReadEx_append (text rest : List UInt8) :
    networkReadEx text.length (text ++ rest) = (true, text, rest) := by
  simp [networkReadEx]

section Receive

variable {codec : MysqlndCodec} {junk : Nat → UInt8}

/-- The read buffer is filled from an envelope whose second size is at most that
of its packet. -/
theorem fillReadBuffer_append {size : Nat} (hsize : size < 2 ^ 24)
    (data rest : List UInt8) (packetNo envelopeNo : UInt8) (old : Option (List UInt8)) :
    fillReadBuffer codec junk data.length
        ⟨packetNo, envelopeNo, old, int3store size ++ (data ++ rest)⟩ =
      if size = 0 then (true, ⟨packetNo, envelopeNo, some data, rest⟩)
      else ((codec.decode data size).1,
        ⟨packetNo, envelopeNo, some (codec.decode data size).2, rest⟩) := by
  have hread : networkReadEx compressedHeaderSize (int3store size ++ (data ++ rest)) =
        (true, int3store size, data ++ rest) :=
    networkReadEx_append (int3store size) (data ++ rest)
  have hkorr : uint3korr (int3store size) = size := by
    simpa using uint3korr_int3store hsize []
  simp only [fillReadBuffer, hread, hkorr, networkReadEx_append]
  by_cases hzero : size = 0
  · simp [hzero]
  · simp [hzero]

/-- The first read of something from an envelope with the next number goes to
its buffer. -/
theorem receiveLoop_envelope {count size : Nat} (hcount : 0 < count)
    (hsize : size < 2 ^ 24) {data : List UInt8} (hdata : data.length < 2 ^ 24)
    (rest : List UInt8) (packetNo envelopeNo : UInt8) (fuel : Nat) :
    receiveLoop codec junk (fuel + 1) count ⟨packetNo, envelopeNo, none,
        int3store data.length ++ [envelopeNo] ++ int3store size ++ (data ++ rest)⟩ =
      receiveLoop codec junk fuel count ⟨packetNo, envelopeNo + 1,
        some (if size = 0 then data else (codec.decode data size).2), rest⟩ := by
  have hread : networkReadEx mysqlndHeaderSize (int3store data.length ++
      [envelopeNo] ++ int3store size ++ (data ++ rest)) =
        (true, int3store data.length ++ [envelopeNo], int3store size ++ (data ++ rest)) := by
    exact networkReadEx_append (int3store data.length ++ [envelopeNo]) _
  have hnumber : (int3store data.length ++ [envelopeNo])[3]?.getD 0 = envelopeNo := rfl
  rw [receiveLoop]
  simp only [readUncompressed, length_nil, Nat.sub_zero,
    ne_of_gt hcount, if_false, hread, hnumber, ne_eq, not_true,
    uint3korr_int3store hdata, fillReadBuffer_append hsize, nil_append]
  split <;> rfl

theorem receiveLoop_unread {count : Nat}
    (h : count ≤ text.length) (wire : List UInt8) (packetNo envelopeNo : UInt8) (fuel : Nat) :
    receiveLoop codec junk (fuel + 1) count ⟨packetNo, envelopeNo, unread text, wire⟩ =
      (true, text.take count, ⟨packetNo, envelopeNo, unread (text.drop count), wire⟩) := by
  have hzero : count - (text.take count).length = 0 := by
    rw [length_take, min_eq_left h, Nat.sub_self]
  rw [receiveLoop, readUncompressed_unread]
  simp only [hzero, if_true]

theorem receives_unread {sizes : List Nat}
    (h : sizes.sum ≤ text.length) (wire : List UInt8) (packetNo envelopeNo : UInt8) :
    receives codec junk sizes ⟨packetNo, envelopeNo, unread text, wire⟩ =
      some (inSizes sizes text) := by
  induction sizes generalizing text with
  | nil => rfl
  | cons size sizes ih =>
    rw [sum_cons] at h
    have hrest : sizes.sum ≤ (text.drop size).length := by
      rw [length_drop]
      omega
    have hsize : size ≤ text.length := by omega
    rw [receives, receiveEx, if_pos rfl, receiveLoop_unread hsize]
    simp only [ih hrest, Option.map_some, inSizes]

variable (codec) in
theorem exists_envelope (h : body.length + mysqlndHeaderSize < 2 ^ 24) (packetNo : UInt8) :
    ∃ size data, size < 2 ^ 24 ∧ data.length < 2 ^ 24 ∧ wireText codec true packetNo body =
        int3store data.length ++ [packetNo] ++ int3store size ++ (data ++ []) ∧
      (if size = 0 then data else (codec.decode data size).2) = packetText packetNo body := by
  have hpacket := length_packetText packetNo body
  cases hencode : codec.encode body.length (packetText packetNo body) with
  | none =>
    refine ⟨0, packetText packetNo body, by decide, by omega, ?_, if_pos rfl⟩
    simp [wireText, hencode]
  | some data =>
    have hroom := codec.length_encode hencode
    refine ⟨(packetText packetNo body).length, data, by omega, by omega, ?_, ?_⟩
    · simp [wireText, hencode]
    · have hne : (packetText packetNo body).length ≠ 0 := by
        rw [hpacket, mysqlndHeaderSize]
        omega
      rw [if_neg hne, codec.decode_encode hencode]

theorem receives_wireText (hbody : body.length + mysqlndHeaderSize < 2 ^ 24) (packetNo : UInt8)
    {sizes : List Nat} (h : sizes.sum ≤ (packetText packetNo body).length) :
    receives codec junk sizes ⟨packetNo, packetNo, none, wireText codec true packetNo body⟩ =
      some (inSizes sizes (packetText packetNo body)) := by
  obtain ⟨size, data, hsize, hdata, htext, hcontent⟩ :=
    exists_envelope codec hbody packetNo
  have hunread : some (packetText packetNo body) = unread (packetText packetNo body) := by
    rw [unread, if_neg]
    simp [packetText, int3store]
  induction sizes with
  | nil => rfl
  | cons count sizes ih =>
    rw [sum_cons] at h
    rw [receives, receiveEx, if_pos rfl]
    rcases Nat.eq_zero_or_pos count with rfl | hcount
    · -- Nothing is read, and the envelope stays where it is.
      have hstay : receiveLoop codec junk ((wireText codec true packetNo body).length + 1) 0
          ⟨packetNo, packetNo, unread [], wireText codec true packetNo body⟩ =
            (true, [], ⟨packetNo, packetNo, unread [], wireText codec true packetNo body⟩) :=
        receiveLoop_unread (le_refl 0) _ _ _ _
      rw [zero_add] at h
      rw [unread, if_pos rfl] at hstay
      simp only [hstay, ih h, Option.map_some, inSizes, take_zero, drop_zero]
    · have hne : wireText codec true packetNo body ≠ [] :=
        wireText_ne_nil packetNo body
      have hcons : (wireText codec true packetNo body).length =
          (wireText codec true packetNo body).length - 1 + 1 := by
        have hpos := length_pos_iff.mpr hne
        omega
      have hle : count ≤ (packetText packetNo body).length := by omega
      have hrest : sizes.sum ≤ ((packetText packetNo body).drop count).length := by
        rw [length_drop]
        omega
      rw [hcons, htext, receiveLoop_envelope hcount hsize hdata, hcontent,
        hunread, receiveLoop_unread hle]
      simp only [receives_unread hrest, Option.map_some, inSizes]

end Receive

/-- Payloads whose packet has a size of three bytes, header included, are read
back. -/
theorem envelopesRoundTrip_of_lt
    (h : payload.length + mysqlndHeaderSize < 2 ^ 24) (packetNo : UInt8) :
    EnvelopesRoundTrip payload packetNo := by
  intro codec networkWriteEx buf junk sizes hwrite hbuf
  have hlast : payload.length / mysqlndMaxPacketSize = 0 := by
    simp only [mysqlndHeaderSize, mysqlndMaxPacketSize] at h ⊢
    omega
  simp only [sendEx_sent hwrite hbuf, hlast, packetBodies, wireStream, append_nil]
  exact receives_wireText h packetNo

/-! A packet that is too long. -/

/-- A codec for one text, which becomes a single byte.  Everything else is
decoded to zeros. -/
def MysqlndCodec.only (text : List UInt8) : MysqlndCodec where
  encode := fun n data => if data = text ∧ 1 ≤ n then some [0] else none
  decode := fun data n =>
    if data = [0] ∧ n = text.length then (true, text)
    else (false, List.replicate n 0)
  length_encode := fun h => by
    split at h
    · next hfits =>
        cases h
        exact hfits.2
    · cases h
  length_decode := fun data n => by
    split
    · next hlength => exact hlength.2.symm
    · exact length_replicate
  decode_encode := fun h => by
    split at h
    · next hfits =>
        cases h
        rw [if_pos ⟨rfl, congrArg List.length hfits.1⟩, hfits.1]
    · cases h

theorem MysqlndCodec.decode_only {n : Nat} (h : n ≠ text.length) (data : List UInt8) :
    ((MysqlndCodec.only text).decode data n).2 = List.replicate n 0 := by
  simp only [MysqlndCodec.only, h, and_false, if_false]

theorem int3store_mod (n : Nat) : int3store (n % 2 ^ 24) = int3store n := by
  have hbyte : ∀ a b : Nat, a % 256 = b % 256 → UInt8.ofNat a = UInt8.ofNat b := by
    intro a b hab
    apply UInt8.toNat_inj.mp
    exact hab
  rw [int3store, int3store, Nat.shiftRight_eq_div_pow, Nat.shiftRight_eq_div_pow,
    Nat.shiftRight_eq_div_pow, Nat.shiftRight_eq_div_pow,
    hbyte (n % 2 ^ 24) n (by omega), hbyte (n % 2 ^ 24 / 2 ^ 8) (n / 2 ^ 8) (by omega),
    hbyte (n % 2 ^ 24 / 2 ^ 16) (n / 2 ^ 16) (by omega)]

/-- The first packet of a payload that is too long is too long. -/
theorem exists_first_packet (h : 2 ^ 24 ≤ payload.length + mysqlndHeaderSize) : ∃ body bodies,
      packetBodies (payload.length / mysqlndMaxPacketSize) payload = body :: bodies ∧
        2 ^ 24 ≤ body.length + mysqlndHeaderSize ∧ body.length < 2 ^ 24 := by
  cases hfull : payload.length / mysqlndMaxPacketSize with
  | zero =>
    have hlt := last_packet hfull
    refine ⟨payload, [], rfl, h, ?_⟩
    exact lt_of_lt_of_le hlt (by decide)
  | succ full =>
    have hlength : (payload.take mysqlndMaxPacketSize).length = mysqlndMaxPacketSize := by
      rw [length_take, min_eq_left (full_packet hfull).1]
    refine ⟨_, _, rfl, ?_, ?_⟩
    · rw [hlength]
      decide
    · rw [hlength]
      decide

/-- With a size that does not fit, the first byte that is read is a zero. -/
theorem receives_only (h : 2 ^ 24 ≤ body.length + mysqlndHeaderSize) (hlt : body.length < 2 ^ 24)
    (packetNo : UInt8) (junk : Nat → UInt8) (rest : List UInt8) :
    receives (.only (packetText packetNo body)) junk [1] ⟨packetNo, packetNo, none,
          wireText (.only (packetText packetNo body)) true packetNo body ++ rest⟩ = some [[0]] := by
  have hpacket := length_packetText packetNo body
  have hpos : 1 ≤ body.length := by
    rw [mysqlndHeaderSize] at h
    omega
  have hencode : (MysqlndCodec.only (packetText packetNo body)).encode body.length
      (packetText packetNo body) = some [0] := if_pos ⟨rfl, hpos⟩
  have hsize : (body.length + mysqlndHeaderSize) % 2 ^ 24 < 2 ^ 24 :=
    Nat.mod_lt _ (by decide)
  have htext : wireText (.only (packetText packetNo body)) true packetNo body ++
      rest = int3store [(0 : UInt8)].length ++ [packetNo] ++
        int3store ((body.length + mysqlndHeaderSize) % 2 ^ 24) ++ ([0] ++ rest) := by
    rw [int3store_mod, ← hpacket]
    simp [wireText, hencode]
  obtain ⟨zeros, hzeros⟩ : ∃ zeros, (if (body.length + mysqlndHeaderSize) % 2 ^ 24 = 0 then [0]
        else ((MysqlndCodec.only (packetText packetNo body)).decode [0]
          ((body.length + mysqlndHeaderSize) % 2 ^ 24)).2) = 0 :: zeros := by
    split
    · exact ⟨[], rfl⟩
    · next hne =>
        obtain ⟨k, hk⟩ := Nat.exists_eq_succ_of_ne_zero hne
        refine ⟨List.replicate k 0, ?_⟩
        rw [MysqlndCodec.decode_only (by omega), hk, replicate_succ]
  have hunread : some (0 :: zeros) = unread (0 :: zeros) := rfl
  have hone : 1 ≤ (0 :: zeros).length := Nat.le_add_left 1 _
  obtain ⟨fuel, hfuel⟩ : ∃ fuel, (wireText (.only (packetText packetNo body)) true
      packetNo body ++ rest).length = fuel + 1 := by
    rw [htext]
    exact ⟨_, rfl⟩
  rw [receives, receiveEx, if_pos rfl, hfuel, htext,
    receiveLoop_envelope Nat.one_pos hsize (by decide), hzeros, hunread,
    receiveLoop_unread hone]
  rfl

theorem not_envelopesRoundTrip_of_le
    (h : 2 ^ 24 ≤ payload.length + mysqlndHeaderSize) (packetNo : UInt8) :
    ¬EnvelopesRoundTrip payload packetNo := by
  intro hround
  obtain ⟨body, bodies, hbodies, hbody, hlt⟩ := exists_first_packet h
  have hbuf := Memory.slice_store (fun _ => 0) mysqlndHeaderSize payload
  have hread := hround (.only (packetText packetNo body)) List.length _
    (fun _ => 0) [1] (fun _ => rfl) hbuf
  simp only [sendEx_sent (fun _ => rfl) hbuf, hbodies, wireStream_plain,
    wireStream, packetStream] at hread
  rw [receives_only hbody hlt] at hread
  have hone : [1].sum ≤ (packetText packetNo body ++
      packetStream (packetNo + 1) bodies).length := by
    rw [length_append, length_packetText, mysqlndHeaderSize, sum_singleton]
    omega
  -- The low byte of the size is one of the four that are not zero.
  have hfirst : (0 : UInt8) = UInt8.ofNat body.length := by
    simpa [inSizes, packetText, int3store] using hread hone
  have hzero := congrArg UInt8.toNat hfirst
  rw [UInt8.toNat_ofNat', UInt8.toNat_zero] at hzero
  rw [mysqlndHeaderSize] at hbody
  omega

/-- The envelopes are read back exactly when the packet of the payload, with its
header, has a size that fits into three bytes. -/
theorem envelopesRoundTrip_iff (payload : List UInt8) (packetNo : UInt8) :
    EnvelopesRoundTrip payload packetNo ↔ payload.length + mysqlndHeaderSize < 2 ^ 24 := by
  constructor
  · intro hround
    by_contra hlt
    exact not_envelopesRoundTrip_of_le (Nat.le_of_not_lt hlt) packetNo hround
  · intro h
    exact envelopesRoundTrip_of_lt h packetNo

/-- The longest packets that are not full are not read back. -/
theorem not_envelopesRoundTrip_zeros : ¬EnvelopesRoundTrip (List.replicate (2 ^ 24 - 4) 0) 0 := by
  apply not_envelopesRoundTrip_of_le
  rw [length_replicate]
  decide

end PhpEngine

/-
What holds between the buffer of a stream and its file, and that refills,
reads and copies keep it.
-/
import PhpEngine.PhpStream

namespace PhpEngine

open List

/-- A filter that hands every bucket on unchanged. -/
def ReadFilter.PassesOn (filter : ReadFilter) : Prop :=
  ∀ flags brigIn brigOut, (filter flags brigIn brigOut).2 = ([], brigOut ++ brigIn) ∧
      (brigIn ≠ [] → (filter flags brigIn brigOut).1 = .passOn)

namespace PhpStream

/-- The unread bytes of the buffer. -/
def buffered (s : PhpStream) : List UInt8 :=
  s.peek s.bufferedAmount

/-- No filter, or a single one that changes nothing. -/
def Unchanging (s : PhpStream) : Prop :=
  s.readfilters = [] ∨ ∃ filter : ReadFilter, s.readfilters = [filter] ∧ filter.PassesOn

/-- The buffer is inside its memory. -/
structure Window (s : PhpStream) : Prop where
  readpos_le : s.readpos ≤ s.writepos
  writepos_le : s.writepos ≤ s.readbuf.length

/-- The next byte of the stream is byte `p` of the file: the buffer holds the
bytes from there on, and the file is behind them. -/
structure At (s : PhpStream) (p : Nat) : Prop extends Window s where
  offset_eq : s.file.offset = p + s.bufferedAmount
  buffered_eq : s.buffered = (s.file.data.drop p).take s.bufferedAmount
  rest_of_eof : s.eof = true → s.file.rest = []

/-- What no reader changes. -/
structure Frame (s s' : PhpStream) : Prop where
  data : s'.file.data = s.file.data
  schedule : s'.file.schedule = s.file.schedule
  plainFiles : s'.plainFiles = s.plainFiles
  readfilters : s'.readfilters = s.readfilters
  chunkSize : s'.chunkSize = s.chunkSize

variable {s s' s'' : PhpStream} {p : Nat}

theorem Frame.refl (s : PhpStream) : Frame s s :=
  ⟨rfl, rfl, rfl, rfl, rfl⟩

theorem Frame.trans (h : Frame s s') (h' : Frame s' s'') : Frame s s'' :=
  ⟨h'.data.trans h.data, h'.schedule.trans h.schedule,
    h'.plainFiles.trans h.plainFiles, h'.readfilters.trans h.readfilters,
    h'.chunkSize.trans h.chunkSize⟩

theorem Frame.unchanging (h : Frame s s') (hs : s.Unchanging) : s'.Unchanging := by
  rw [Unchanging, h.readfilters]
  exact hs

theorem Window.length_buffered (h : s.Window) : s.buffered.length = s.bufferedAmount := by
  have := h.writepos_le
  rw [buffered, peek, length_take, length_drop, bufferedAmount]
  omega

theorem Window.amount_le (h : s.Window) : s.readpos + s.bufferedAmount ≤ s.readbuf.length := by
  have := h.readpos_le
  have := h.writepos_le
  rw [bufferedAmount]
  omega

theorem peek_eq_take {n : Nat} (hn : n ≤ s.bufferedAmount) : s.peek n = s.buffered.take n := by
  rw [buffered, peek, peek, take_take, min_eq_left hn]

theorem Window.length_peek (h : s.Window) {n : Nat}
    (hn : n ≤ s.bufferedAmount) : (s.peek n).length = n := by
  rw [peek_eq_take hn, length_take, h.length_buffered, min_eq_left hn]

theorem peek_zero (s : PhpStream) : s.peek 0 = [] :=
  take_zero

namespace At

/-- The buffer and the file together hold what is still to come. -/
theorem ahead (h : s.At p) : s.buffered ++ s.file.rest = s.file.data.drop p := by
  rw [h.buffered_eq, ByteFile.rest, h.offset_eq, ← drop_drop, take_append_drop]

theorem amount_add_rest (h : s.At p) :
    s.bufferedAmount + s.file.rest.length = s.file.data.length - p := by
  rw [← h.length_buffered, ← length_append, h.ahead, length_drop]

theorem peek_eq (h : s.At p) {n : Nat} (hn : n ≤ s.bufferedAmount) :
    s.peek n = (s.file.data.drop p).take n := by
  rw [peek_eq_take hn, h.buffered_eq, take_take, min_eq_left hn]

theorem of_ahead (hw : s.Window) (hoff : s.file.offset = p + s.bufferedAmount)
    (hahead : s.buffered ++ s.file.rest = s.file.data.drop p)
    (heof : s.eof = true → s.file.rest = []) : s.At p where
  toWindow := hw
  offset_eq := hoff
  buffered_eq := by
    rw [← hahead, take_left' hw.length_buffered]
  rest_of_eof := heof

theorem rest_eq_of_empty (h : s.At p) (hempty : s.bufferedAmount = 0) :
    s.file.rest = s.file.data.drop p := by
  have hnil : s.buffered = [] :=
    length_eq_zero_iff.mp (h.length_buffered.trans hempty)
  rw [← h.ahead, hnil, nil_append]

theorem of_empty (hpos : s.readpos = s.writepos)
    (hle : s.writepos ≤ s.readbuf.length) (hoff : s.file.offset = p)
    (heof : s.eof = true → s.file.rest = []) : s.At p := by
  have hzero : s.bufferedAmount = 0 := by
    rw [bufferedAmount, hpos, Nat.sub_self]
  refine ⟨⟨le_of_eq hpos, hle⟩, by rw [hoff, hzero, add_zero], ?_, heof⟩
  rw [buffered, hzero, peek_zero, take_zero]

end At

/-- A stream from which nothing was read yet. -/
structure Fresh (s : PhpStream) : Prop where
  readbuf : s.readbuf = []
  readpos : s.readpos = 0
  writepos : s.writepos = 0
  position : s.position = s.file.offset
  eof : s.eof = false

theorem Fresh.at_position (h : s.Fresh) : s.At s.position := by
  refine .of_empty ?_ ?_ h.position.symm ?_
  · rw [h.readpos, h.writepos]
  · rw [h.writepos]
    exact Nat.zero_le _
  · rw [h.eof]
    exact fun heof => nomatch heof

/-- A file of five bytes in two lines, read two bytes at a time. -/
def sampleStream : PhpStream where
  file := ⟨[97, 98, 10, 99, 100], 0, fun _ => 1, 0⟩
  plainFiles := true
  readfilters := []
  flags := ⟨false, false, .unix⟩
  chunkSize := ⟨4, by decide, by decide⟩
  readbuf := []
  readpos := 0
  writepos := 0
  position := 0
  eof := false

theorem sampleStream_fresh : sampleStream.Fresh :=
  ⟨rfl, rfl, rfl, rfl, rfl⟩

/-- From `s`, which is at `p`, the bytes `l` were taken; `counted` says that
they were added to `position`. -/
structure Takes (counted : Bool) (s : PhpStream) (p : Nat) (l : List UInt8)
    (s' : PhpStream) : Prop where
  frame : Frame s s'
  behind : s'.At (p + l.length)
  bytes : l = (s.file.data.drop p).take l.length
  position : s'.position = s.position + if counted then l.length else 0

variable {counted : Bool}

theorem Takes.refl (h : s.At p) : Takes counted s p [] s where
  frame := .refl s
  behind := h
  bytes := rfl
  position := by cases counted <;> rfl

theorem Takes.trans {l l' : List UInt8} (h : Takes counted s p l s')
    (h' : Takes counted s' (p + l.length) l' s'') : Takes counted s p (l ++ l') s'' where
  frame := h.frame.trans h'.frame
  behind := by
    rw [length_append, ← add_assoc]
    exact h'.behind
  bytes := by
    have hb := h'.bytes
    rw [h.frame.data, ← drop_drop] at hb
    rw [length_append, take_add, ← hb, ← h.bytes]
  position := by
    rw [h'.position, h.position, length_append]
    split <;> omega

theorem Takes.isPrefix {l : List UInt8} (h : Takes counted s p l s') :
    l <+: s.file.data.drop p := by
  rw [h.bytes]
  exact take_prefix _ _

/-- A copy of `n` bytes from the buffer. -/
theorem takes_skip (h : s.At p) {n : Nat} (hn : n ≤ s.bufferedAmount) :
    Takes false s p (s.peek n) (s.skip n) := by
  have hlen := h.toWindow.length_peek hn
  have hr := h.readpos_le
  have hn' : n ≤ s.writepos - s.readpos := hn
  have hamount : (s.skip n).bufferedAmount = s.bufferedAmount - n := by
    simp only [bufferedAmount, skip]
    omega
  refine ⟨⟨rfl, rfl, rfl, rfl, rfl⟩, ?_, ?_, rfl⟩
  · rw [hlen]
    refine At.of_ahead ⟨?_, h.writepos_le⟩ ?_ ?_ h.rest_of_eof
    · simp only [skip]
      omega
    · rw [hamount]
      have := h.offset_eq
      simp only [skip]
      omega
    · have hbuf : (s.skip n).buffered = s.buffered.drop n := by
        rw [buffered, hamount, buffered, peek, peek, drop_take]
        simp only [skip, drop_drop]
      rw [hbuf, ← drop_drop]
      change _ ++ s.file.rest = (s.file.data.drop p).drop n
      rw [← h.ahead, drop_append_of_le_length]
      rw [h.length_buffered]
      exact hn
  · rw [hlen]
    exact h.peek_eq hn

theorem takes_consume (h : s.At p) {n : Nat} (hn : n ≤ s.bufferedAmount) (flags : StreamFlags) :
    Takes true s p (s.peek n) ({ s with flags := flags }.consume n) := by
  have hskip := takes_skip h hn
  have hlen := h.toWindow.length_peek hn
  have hat := hskip.behind
  exact ⟨⟨rfl, rfl, rfl, rfl, rfl⟩,
    ⟨⟨hat.readpos_le, hat.writepos_le⟩, hat.offset_eq, hat.buffered_eq, hat.rest_of_eof⟩,
    hskip.bytes, congrArg (s.position + ·) hlen.symm⟩

theorem takes_opsRead (h : s.At p) (hempty : s.bufferedAmount = 0)
    {asked : Nat} (hasked : 0 < asked) :
    Takes false s p (s.opsRead asked).1 (s.opsRead asked).2 := by
  have hrest := h.rest_eq_of_empty hempty
  have hbytes : (s.opsRead asked).1 = (s.file.data.drop p).take (s.opsRead asked).1.length := by
    rw [← hrest]
    simp only [opsRead, ByteFile.length_read]
    rfl
  refine ⟨⟨rfl, rfl, rfl, rfl, rfl⟩, ?_, hbytes, rfl⟩
  refine ⟨⟨h.readpos_le, h.writepos_le⟩, ?_, ?_, ?_⟩
  · have := h.offset_eq
    change (s.file.read asked).2.offset = _ + s.bufferedAmount
    rw [ByteFile.read_offset, opsRead, ByteFile.length_read]
    omega
  · have hb := h.buffered_eq
    rw [hempty, take_zero] at hb
    change s.buffered = List.take s.bufferedAmount _
    rw [hb, hempty, take_zero]
  · intro heof
    have hnil : (s.file.read asked).1 = [] := List.isEmpty_iff.mp heof
    have hr := (ByteFile.read_eq_nil hasked).mp hnil
    have happ := s.file.read_append_rest asked
    rw [hnil, hr, nil_append] at happ
    exact happ

section

variable (h : s.Window)
include h

theorem opsRead_window (asked : Nat) : (s.opsRead asked).2.Window :=
  ⟨h.readpos_le, h.writepos_le⟩

theorem compact_window : s.compact.Window := by
  have := h.writepos_le
  constructor
  · exact Nat.zero_le _
  · simp only [compact, length_append, length_drop]
    omega

theorem compact_buffered : s.compact.buffered = s.buffered := by
  have hle := h.amount_le
  rw [buffered, buffered, peek, peek]
  change List.take s.bufferedAmount (s.readbuf.drop s.readpos ++ _) = _
  rw [take_append_of_le_length]
  rw [length_drop]
  omega

theorem growBuffer_window (n : Nat) : (s.growBuffer n).Window := by
  refine ⟨h.readpos_le, le_trans h.writepos_le ?_⟩
  simp only [growBuffer, length_append]
  omega

theorem growBuffer_buffered (n : Nat) : (s.growBuffer n).buffered = s.buffered := by
  have hle := h.amount_le
  rw [buffered, buffered, peek, peek]
  change List.take s.bufferedAmount (List.drop s.readpos (s.readbuf ++ _)) = _
  rw [drop_append_of_le_length (by omega), take_append_of_le_length]
  rw [length_drop]
  omega

theorem append_window (bytes : List UInt8) : (s.append bytes).Window := by
  have := h.readpos_le
  constructor
  · simp only [append]
    omega
  · simp only [append, length_splice]
    omega

theorem append_bufferedAmount (bytes : List UInt8) :
    (s.append bytes).bufferedAmount = s.bufferedAmount + bytes.length := by
  have := h.readpos_le
  simp only [append, bufferedAmount]
  omega

theorem append_buffered (bytes : List UInt8) :
    (s.append bytes).buffered = s.buffered ++ bytes := by
  have hr := h.readpos_le
  change List.take (s.writepos + bytes.length - s.readpos)
    ((splice s.readbuf s.writepos bytes).drop s.readpos) = _
  rw [slice_splice bytes hr h.writepos_le]
  rfl

end

/-- The bytes of a read are put behind those in the buffer. -/
theorem At.append_opsRead (h : s.At p) {asked : Nat} (hasked : 0 < asked) :
    ((s.opsRead asked).2.append (s.opsRead asked).1).At p := by
  have hw := opsRead_window h.toWindow asked
  refine At.of_ahead (append_window hw _) ?_ ?_ ?_
  · rw [append_bufferedAmount hw]
    change (s.file.read asked).2.offset = p + (s.bufferedAmount + _)
    rw [ByteFile.read_offset, opsRead, ByteFile.length_read, h.offset_eq, add_assoc]
  · rw [append_buffered hw]
    change (s.buffered ++ (s.file.read asked).1) ++ (s.file.read asked).2.rest = s.file.data.drop p
    rw [append_assoc, ByteFile.read_append_rest, h.ahead]
  · intro heof
    have hnil : (s.file.read asked).1 = [] := List.isEmpty_iff.mp heof
    have hr := (ByteFile.read_eq_nil hasked).mp hnil
    have happ := s.file.read_append_rest asked
    rw [hnil, hr, nil_append] at happ
    exact happ

/-- `s'` holds the same bytes as `s`, elsewhere in its memory. -/
structure Rearranged (s s' : PhpStream) : Prop where
  window : s'.Window
  buffered : s'.buffered = s.buffered
  file : s'.file = s.file
  plainFiles : s'.plainFiles = s.plainFiles
  readfilters : s'.readfilters = s.readfilters
  flags : s'.flags = s.flags
  chunkSize : s'.chunkSize = s.chunkSize
  position : s'.position = s.position
  eof : s'.eof = s.eof

namespace Rearranged

theorem trans (h : Rearranged s s') (h' : Rearranged s' s'') : Rearranged s s'' :=
  ⟨h'.window, h'.buffered.trans h.buffered, h'.file.trans h.file,
    h'.plainFiles.trans h.plainFiles, h'.readfilters.trans h.readfilters,
    h'.flags.trans h.flags, h'.chunkSize.trans h.chunkSize,
    h'.position.trans h.position, h'.eof.trans h.eof⟩

theorem compact_if (h : s.Window) (c : Prop) [Decidable c] :
    Rearranged s (if c then s.compact else s) := by
  split
  · exact ⟨compact_window h, compact_buffered h, rfl, rfl, rfl, rfl, rfl, rfl, rfl⟩
  · exact ⟨h, rfl, rfl, rfl, rfl, rfl, rfl, rfl, rfl⟩

theorem grow_if (h : s.Window) (c : Prop) [Decidable c] (n : Nat) :
    Rearranged s (if c then s.growBuffer n else s) := by
  split
  · exact ⟨growBuffer_window h n, growBuffer_buffered h n, rfl, rfl, rfl, rfl, rfl, rfl, rfl⟩
  · exact ⟨h, rfl, rfl, rfl, rfl, rfl, rfl, rfl, rfl⟩

theorem amount (h : Rearranged s s') (hs : s.Window) : s'.bufferedAmount = s.bufferedAmount := by
  rw [← h.window.length_buffered, h.buffered, hs.length_buffered]

theorem frame (h : Rearranged s s') : Frame s s' :=
  ⟨by rw [h.file], by rw [h.file], h.plainFiles, h.readfilters, h.chunkSize⟩

theorem at_of (h : Rearranged s s') (hs : s.At p) : s'.At p := by
  refine ⟨h.window, ?_, ?_, ?_⟩
  · rw [h.file, h.amount hs.toWindow, hs.offset_eq]
  · rw [h.file, h.amount hs.toWindow, h.buffered, hs.buffered_eq]
  · rw [h.file, h.eof]
    exact hs.rest_of_eof

end Rearranged

/-- The end of the file was met with nothing left in the buffer. -/
def Quiet (s : PhpStream) : Prop :=
  s.eof = true → s.bufferedAmount = 0

/-- A refill for a stream at `p`: nothing is taken, and if it brought nothing
although it was needed then the file is at its end. -/
structure Refills (s : PhpStream) (p size : Nat) (s' : PhpStream) :
    Prop where
  takes : Takes false s p [] s'
  flags : s'.flags = s.flags
  amount_le : s.bufferedAmount ≤ s'.bufferedAmount
  progress : s.bufferedAmount < size → s'.bufferedAmount = s.bufferedAmount → s'.eof = true
  quiet : s.readfilters = [] → s.bufferedAmount = 0 → s'.Quiet

/-- The stream as an unfiltered refill prepares it for its read. -/
def prepared (s : PhpStream) : PhpStream :=
  let s := if s.readbuf ≠ [] ∧ s.readbuf.length - s.writepos < s.chunkSize.val then s.compact else s
  if s.readbuf.length - s.writepos < s.chunkSize.val then
    s.growBuffer s.chunkSize.val else s

theorem fillUnfiltered_eq {size : Nat} (hsize : s.bufferedAmount < size) : s.fillUnfiltered size =
      (s.prepared.opsRead (s.prepared.readbuf.length - s.prepared.writepos)).2.append
        (s.prepared.opsRead (s.prepared.readbuf.length - s.prepared.writepos)).1 :=
  if_pos hsize

theorem prepared_rearranged (h : s.Window) : Rearranged s s.prepared := by
  have hc := Rearranged.compact_if h (s.readbuf ≠ [] ∧
    s.readbuf.length - s.writepos < s.chunkSize.val)
  exact hc.trans (.grow_if hc.window _ _)

theorem grow_room (h : s.Window) (n : Nat) :
    n ≤ (if s.readbuf.length - s.writepos < n then s.growBuffer n else s).readbuf.length -
      (if s.readbuf.length - s.writepos < n then s.growBuffer n else s).writepos := by
  have hle := h.writepos_le
  split
  · simp only [growBuffer, length_append, length_replicate]
    omega
  · omega

theorem prepared_room (h : s.Window) :
    s.chunkSize.val ≤ s.prepared.readbuf.length - s.prepared.writepos := by
  have hc := Rearranged.compact_if h (s.readbuf ≠ [] ∧
    s.readbuf.length - s.writepos < s.chunkSize.val)
  have hroom := grow_room hc.window s.chunkSize.val
  rw [prepared, hc.chunkSize]
  exact hroom

theorem fillUnfiltered_refills (h : s.At p) (size : Nat) :
    Refills s p size (s.fillUnfiltered size) := by
  by_cases hsize : s.bufferedAmount < size
  · have hr := prepared_rearranged h.toWindow
    have hpos := lt_of_lt_of_le s.chunkSize.pos (prepared_room h.toWindow)
    have hat := hr.at_of h
    have hamount := hr.amount h.toWindow
    have happend := append_bufferedAmount (opsRead_window hat.toWindow
      (s.prepared.readbuf.length - s.prepared.writepos))
    have hframe := hr.frame
    rw [fillUnfiltered_eq hsize]
    refine ⟨⟨⟨hframe.data, hframe.schedule, hframe.plainFiles,
      hframe.readfilters, hframe.chunkSize⟩, hat.append_opsRead hpos, rfl,
      hr.position⟩, hr.flags, ?_, ?_, ?_⟩
    · rw [happend, ← hamount]
      exact Nat.le_add_right _ _
    · intro _ hsame
      rw [happend] at hsame
      have hzero := Nat.add_eq_left.mp (hsame.trans hamount.symm)
      exact isEmpty_iff_length_eq_zero.mpr hzero
    · intro _ hempty heof
      have hzero := isEmpty_iff_length_eq_zero.mp heof
      exact (happend _).trans ((congrArg _ hzero).trans (hamount.trans hempty))
  · have heq : s.fillUnfiltered size = s := if_neg hsize
    rw [heq]
    exact ⟨.refl h, rfl, le_rfl, fun hlt => absurd hlt hsize, fun _ hempty _ => hempty⟩

/-- A turn of the filtered refill, when the filter changes nothing. -/
theorem fillFilteredLoop_succ {filter : ReadFilter}
    (hfilter : s.readfilters = [filter]) (hpass : filter.PassesOn) (size fuel : Nat) :
    fillFilteredLoop size (fuel + 1) s [] [] = if !s.eof ∧ s.bufferedAmount < size then
        if (s.opsRead s.chunkSize.val).1 = [] then
          (s.opsRead s.chunkSize.val).2 else fillFilteredLoop size fuel
          ((s.opsRead s.chunkSize.val).2.appendBucket (s.opsRead s.chunkSize.val).1) [] []
      else s := by
  rw [fillFilteredLoop]
  simp only [hfilter, filterChain, nil_append]
  by_cases hnil : (s.opsRead s.chunkSize.val).1 = []
  · -- the flush: whatever the status, there is no bucket
    simp only [hnil, ne_eq, not_true_eq_false, ↓reduceIte]
    generalize hflags : (if (s.opsRead s.chunkSize.val).2.eof = true
      then FilterFlag.flushClose else .flushInc) = flags
    obtain ⟨hout, -⟩ := hpass flags [] []
    rw [hout]
    cases hst : (filter flags [] []).1 <;> simp [hst]
  · obtain ⟨hout, hst⟩ := hpass .normal [(s.opsRead s.chunkSize.val).1] []
    simp only [hnil, ne_eq, not_false_eq_true, ↓reduceIte, hout,
      hst (cons_ne_nil _ _), not_true_eq_false, nil_append,
      foldl_cons, foldl_nil]

/-- The bytes of a read become a bucket, and the bucket is buffered. -/
theorem appendBucket_opsRead (h : s.Window) (asked : Nat) : ∃ g, Rearranged s g ∧
      (s.opsRead asked).2.appendBucket (s.opsRead asked).1 =
        (g.opsRead asked).2.append (g.opsRead asked).1 := by
  refine ⟨_, .grow_if h (s.readbuf.length - s.writepos <
    (s.opsRead asked).1.length) (s.opsRead asked).1.length, ?_⟩
  change (if s.readbuf.length - s.writepos < (s.opsRead asked).1.length then
    (s.opsRead asked).2.growBuffer _ else (s.opsRead asked).2).append _ = _
  split <;> rfl

theorem takes_appendBucket (h : s.At p) {asked : Nat} (hasked : 0 < asked) : Takes false s p []
        ((s.opsRead asked).2.appendBucket (s.opsRead asked).1) ∧
      ((s.opsRead asked).2.appendBucket (s.opsRead asked).1).flags = s.flags ∧
      ((s.opsRead asked).2.appendBucket (s.opsRead asked).1).bufferedAmount =
        s.bufferedAmount + s.file.delivered asked := by
  obtain ⟨g, hg, heq⟩ := appendBucket_opsRead h.toWindow asked
  have hat := hg.at_of h
  have hframe := hg.frame
  rw [heq]
  refine ⟨⟨⟨hframe.data, hframe.schedule, hframe.plainFiles,
    hframe.readfilters, hframe.chunkSize⟩, hat.append_opsRead hasked, rfl,
    hg.position⟩, hg.flags, ?_⟩
  rw [append_bufferedAmount (opsRead_window hat.toWindow asked), opsRead,
    ByteFile.length_read, hg.file,
    ← hg.amount h.toWindow]
  rfl

theorem takes_opsRead_nil (h : s.At p) {asked : Nat} (hasked : 0 < asked)
    (hnil : (s.opsRead asked).1 = []) : Takes false s p [] (s.opsRead asked).2 := by
  have hrest : s.file.rest = [] := (ByteFile.read_eq_nil hasked).mp hnil
  have hzero : s.file.delivered asked = 0 :=
    (ByteFile.delivered_eq_zero hasked).mpr hrest
  refine ⟨⟨rfl, rfl, rfl, rfl, rfl⟩,
    ⟨⟨h.readpos_le, h.writepos_le⟩, ?_, h.buffered_eq, ?_⟩, rfl, rfl⟩
  · change (s.file.read _).2.offset = p + s.bufferedAmount
    rw [ByteFile.read_offset, hzero]
    exact h.offset_eq
  · intro _
    change s.file.data.drop (s.file.offset + _) = []
    rw [hzero]
    exact hrest

theorem fillFilteredLoop_refills {filter : ReadFilter}
    (hfilter : s.readfilters = [filter]) (hpass : filter.PassesOn)
    (h : s.At p) {size fuel : Nat} (hfuel : s.file.rest.length < fuel) :
    Refills s p size (fillFilteredLoop size fuel s [] []) ∧
      ((fillFilteredLoop size fuel s [] []).eof = true ∨
        size ≤ (fillFilteredLoop size fuel s [] []).bufferedAmount) := by
  have hsome : ∀ {r : PhpStream}, r.readfilters = [filter] →
      r.readfilters = [] → r.bufferedAmount = 0 → ∀ {r' : PhpStream}, r'.Quiet := fun hr hnil =>
    absurd (hr.symm.trans hnil) (cons_ne_nil _ _)
  induction fuel generalizing s with
  | zero => exact absurd hfuel (Nat.not_lt_zero _)
  | succ fuel ih =>
    have hpos := s.chunkSize.pos
    rw [fillFilteredLoop_succ hfilter hpass]
    split
    · split
      · next hnil =>
          have heof : (s.opsRead s.chunkSize.val).2.eof = true :=
            List.isEmpty_iff.mpr hnil
          exact ⟨⟨takes_opsRead_nil h hpos hnil, rfl, le_rfl,
            fun _ _ => heof, fun hnone hz => hsome hfilter hnone hz⟩,
            .inl heof⟩
      · next hne =>
          obtain ⟨htakes, hflags, hamount⟩ := takes_appendBucket h hpos
          have hdelivered : s.file.delivered s.chunkSize.val ≠ 0 := by
            rw [← ByteFile.length_read]
            exact fun hzero => hne (length_eq_zero_iff.mp hzero)
          have hrest := h.amount_add_rest
          have hrest' := htakes.behind.amount_add_rest
          rw [hamount, htakes.frame.data, length_nil, add_zero] at hrest'
          obtain ⟨hr, hend⟩ := ih (htakes.frame.readfilters.trans hfilter) htakes.behind (by omega)
          refine ⟨⟨htakes.trans hr.takes, hr.flags.trans hflags, ?_, ?_,
            fun hnone hz => hsome hfilter hnone hz⟩, hend⟩
          · have := hr.amount_le
            omega
          · have := hr.amount_le
            omega
    · next hturn =>
        have hend : s.eof = true ∨ size ≤ s.bufferedAmount := by
          by_cases heof : s.eof = true
          · exact .inl heof
          · exact .inr (Nat.le_of_not_lt fun hlt =>
              hturn ⟨by simpa using heof, hlt⟩)
        refine ⟨⟨.refl h, rfl, le_rfl, fun hlt _ => ?_,
          fun hnone hz => hsome hfilter hnone hz⟩, hend⟩
        exact hend.resolve_right (Nat.not_le_of_lt hlt)

theorem fillReadBuffer_refills (hs : s.Unchanging) (h : s.At p)
    (hempty : s.readfilters ≠ [] → s.bufferedAmount = 0) (size : Nat) :
    Refills s p size (s.fillReadBuffer size) := by
  rw [fillReadBuffer]
  rcases hs with hnone | ⟨filter, hfilter, hpass⟩
  · rw [if_neg (not_not_intro hnone)]
    exact fillUnfiltered_refills h size
  · have hne : s.readfilters ≠ [] := by
      rw [hfilter]
      exact cons_ne_nil _ _
    have hzero := hempty hne
    have hreset : Rearranged s { s with writepos := 0, readpos := 0 } := by
      refine ⟨⟨le_rfl, Nat.zero_le _⟩, ?_, rfl, rfl, rfl, rfl, rfl, rfl, rfl⟩
      rw [buffered, buffered, hzero]
      exact (peek_zero _).trans (peek_zero _).symm
    rw [if_pos hne, fillFiltered]
    obtain ⟨hr, -⟩ := fillFilteredLoop_refills
      (s := { s with writepos := 0, readpos := 0 }) hfilter hpass
      (hreset.at_of h) (Nat.lt_succ_self _)
    refine ⟨⟨⟨hr.takes.frame.data, hr.takes.frame.schedule,
      hr.takes.frame.plainFiles, hr.takes.frame.readfilters,
      hr.takes.frame.chunkSize⟩, hr.takes.behind, rfl, hr.takes.position⟩,
      hr.flags, ?_, ?_, fun hnone => absurd hnone hne⟩
    · rw [hzero]
      exact Nat.zero_le _
    · intro hlt hsame
      exact hr.progress (by rw [hreset.amount h.toWindow]; exact hlt)
        (hsame.trans (hreset.amount h.toWindow).symm)

theorem quiet_skip (h : s.Quiet) (n : Nat) : (s.skip n).Quiet := by
  intro heof
  have := h heof
  simp only [bufferedAmount, skip] at *
  omega

/-- A portion for `_php_stream_read` with an empty buffer. -/
theorem readPortion_takes (hs : s.Unchanging) (h : s.At p)
    (hempty : s.bufferedAmount = 0) {size : Nat} (hsize : 0 < size) :
    Takes false s p (s.readPortion size).1 (s.readPortion size).2 ∧
      (s.readPortion size).2.flags = s.flags ∧ (s.readPortion size).1.length ≤ size ∧
      ((s.readPortion size).1 = [] → s.file.data.drop p = []) ∧
      (s.readfilters = [] → (s.readPortion size).2.Quiet) := by
  rw [readPortion]
  split
  · refine ⟨takes_opsRead h hempty hsize, rfl, ?_, ?_, fun _ _ => hempty⟩
    · rw [opsRead, ByteFile.length_read]
      exact ByteFile.delivered_le_asked size
    · intro hnil
      rw [← h.rest_eq_of_empty hempty]
      exact (ByteFile.read_eq_nil hsize).mp hnil
  · have hr := fillReadBuffer_refills hs h (fun _ => hempty) size
    have hle := Nat.min_le_left (s.fillReadBuffer size).bufferedAmount size
    have hskip := takes_skip hr.takes.behind hle
    have hlen := hr.takes.behind.toWindow.length_peek hle
    refine ⟨hr.takes.trans hskip, hr.flags, ?_, ?_, ?_⟩
    · rw [hlen]
      exact Nat.min_le_right _ _
    · intro hnil
      have hzero : (s.fillReadBuffer size).bufferedAmount = 0 := by
        have hmin := hlen.symm.trans (congrArg List.length hnil)
        rw [length_nil] at hmin
        omega
      have heof := hr.progress (by omega) (hzero.trans hempty.symm)
      have hrest := hr.takes.behind.rest_of_eof heof
      rw [hr.takes.behind.rest_eq_of_empty hzero, hr.takes.frame.data] at hrest
      exact hrest
    · exact fun hnone => quiet_skip (hr.quiet hnone hempty) _

/-- What `_php_stream_read` and its loop do. -/
structure ReadOk (counted : Bool) (s : PhpStream) (p size : Nat)
    (l : List UInt8) (s' : PhpStream) : Prop where
  takes : Takes counted s p l s'
  flags : s'.flags = s.flags
  length_le : l.length ≤ size
  nonempty : l = [] → size = 0 ∨ s.file.data.drop p = []
  quiet : s.readfilters = [] → s.Quiet → s'.Quiet

theorem readLoop_ok (hs : s.Unchanging) (h : s.At p) {size fuel : Nat}
    (hfuel : size < fuel) (didread : List UInt8) :
    ∃ l s', readLoop fuel s size didread = some (didread ++ l, s') ∧
      ReadOk false s p size l s' := by
  induction fuel generalizing s p size didread with
  | zero => exact absurd hfuel (Nat.not_lt_zero _)
  | succ fuel ih =>
    rw [readLoop]
    by_cases hsize : size = 0
    · refine ⟨[], s, ?_, .refl h, rfl, Nat.zero_le _, fun _ => .inl hsize, fun _ hq => hq⟩
      rw [if_pos hsize, append_nil]
    rw [if_neg hsize]
    have hle := Nat.min_le_left s.bufferedAmount size
    have hle' := Nat.min_le_right s.bufferedAmount size
    have hleft : s.bufferedAmount ≤ min s.bufferedAmount size ∨
        size ≤ min s.bufferedAmount size := by omega
    generalize min s.bufferedAmount size = m at hle hle' hleft
    have hskip := takes_skip h hle
    have hlen := h.toWindow.length_peek hle
    by_cases hdone : size - m = 0
    · refine ⟨_, _, if_pos hdone, hskip, rfl, ?_, ?_, fun _ hq => quiet_skip hq _⟩
      · rw [hlen]
        exact hle'
      · intro hnil
        rw [hnil, length_nil] at hlen
        omega
    rw [if_neg hdone]
    have hempty : (s.skip m).bufferedAmount = 0 := by
      simp only [bufferedAmount, skip] at *
      omega
    obtain ⟨hp, hpflags, hple, hpnil, hpquiet⟩ := readPortion_takes
      (hskip.frame.unchanging hs) hskip.behind hempty
      (Nat.pos_of_ne_zero hdone)
    generalize (s.skip m).readPortion (size - m) = r at *
    have hboth := hskip.trans hp
    have hlen' : (s.peek m ++ r.1).length = m + r.1.length := by
      rw [length_append, hlen]
    by_cases hnil : r.1 = []
    · rw [if_pos hnil]
      rw [hnil, append_nil] at hboth
      refine ⟨_, _, rfl, hboth, hpflags, ?_, ?_, fun hnone _ => hpquiet hnone⟩
      · rw [hlen]
        exact hle'
      · intro hpeek
        have hdrop := hpnil hnil
        rw [hpeek, length_nil, add_zero, hskip.frame.data] at hdrop
        exact .inr hdrop
    rw [if_neg hnil]
    have hpos := length_pos_of_ne_nil hnil
    split
    · refine ⟨s.peek m ++ r.1, r.2, by rw [append_assoc], hboth,
        hpflags, by omega, ?_, fun hnone _ => hpquiet hnone⟩
      intro hempty'
      exact absurd (append_eq_nil_iff.mp hempty').2 hnil
    · obtain ⟨l, s', hrun, hok⟩ := ih (hboth.frame.unchanging hs)
        hboth.behind (by omega : size - m - r.1.length < fuel)
        (didread ++ s.peek m ++ r.1)
      refine ⟨s.peek m ++ r.1 ++ l, s', ?_, hboth.trans hok.takes,
        hok.flags.trans hpflags, ?_, ?_, ?_⟩
      · rw [hrun]
        simp only [append_assoc]
      · have := hok.length_le
        rw [length_append, hlen']
        omega
      · intro hempty'
        exact absurd (append_eq_nil_iff.mp (append_eq_nil_iff.mp hempty').1).2 hnil
      · intro hnone _
        exact hok.quiet (hboth.frame.readfilters.trans hnone) (hpquiet hnone)

/-- `_php_stream_read` returns bytes from the place of the stream on: some, if
any are asked for and there are any. -/
theorem read_ok (hs : s.Unchanging) (h : s.At p) (size : Nat) :
    ∃ l s', s.read size = some (l, s') ∧ ReadOk true s p size l s' := by
  obtain ⟨l, s', hrun, hok⟩ := readLoop_ok hs h (Nat.lt_succ_self size) []
  have hat := hok.takes.behind
  have hframe := hok.takes.frame
  refine ⟨l, { s' with position := s'.position + l.length }, ?_, ?_⟩
  · rw [read, hrun]
    rfl
  · exact ⟨⟨⟨hframe.data, hframe.schedule, hframe.plainFiles, hframe.readfilters, hframe.chunkSize⟩,
      ⟨⟨hat.readpos_le, hat.writepos_le⟩, hat.offset_eq, hat.buffered_eq,
        hat.rest_of_eof⟩, hok.takes.bytes,
      congrArg (· + l.length) hok.takes.position⟩, hok.flags, hok.length_le,
      hok.nonempty, hok.quiet⟩

end PhpStream

end PhpEngine

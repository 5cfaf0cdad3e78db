/-
A stream over a plain file that can be sought, without filters: whatever is in
its buffer, it acts as the file itself with one position.
-/
import PhpEngine.StreamLine

namespace PhpEngine

open List

open PhpStream (LineBuffer Whence)

/-- A file without a buffer; `eol` is how its lines end. -/
structure UnbufferedFile where
  data : List UInt8
  position : Nat
  eol : EolMode

inductive StreamOp where
  | read (size : Nat)
  | getLine (buf : LineBuffer)
  | write (buf : List UInt8)
  | tell
  | seek (offset : Int) (whence : Whence)

inductive StreamReply where
  | bytes (l : List UInt8)
  | line (l : Option (List UInt8))
  | written (n : Nat)
  | position (n : Nat)
  | sought (ok : Bool)

namespace UnbufferedFile

variable (f : UnbufferedFile)

def rest : List UInt8 :=
  f.data.drop f.position

/-- `n` bytes further on. -/
def advance (n : Nat) : UnbufferedFile :=
  { f with position := f.position + n }

def overwrite (bytes : List UInt8) : UnbufferedFile :=
  { f with
    data := splice f.data f.position bytes
    position := f.position + bytes.length }

def origin : Whence → Nat
  | .cur => f.position
  | .set => 0

/-- What an operation on the file replies, and the file it leaves. -/
inductive Acts : UnbufferedFile → StreamOp → StreamReply → UnbufferedFile → Prop
  | read {f : UnbufferedFile} {size : Nat} {l : List UInt8}
      (hinitial : l <+: f.rest) (hsize : l.length ≤ size)
      (hsome : l = [] → size = 0 ∨ f.rest = []) :
      Acts f (.read size) (.bytes l) (f.advance l.length)
  | line {f : UnbufferedFile} {buf : LineBuffer} {l : List UInt8}
      (eol : EolMode) (hknown : f.eol ≠ .detect → eol = f.eol)
      (hline : l = buf.cut (upTo eol.stop f.rest)) :
      Acts f (.getLine buf) (.line (if l = [] then none else some l))
        { f.advance l.length with eol := eol }
  | write {f : UnbufferedFile} {bytes : List UInt8} (hsome : bytes ≠ []) :
      Acts f (.write bytes) (.written bytes.length) (f.overwrite bytes)
  | writeNothing {f : UnbufferedFile} : Acts f (.write []) (.written 0) f
  | tell {f : UnbufferedFile} : Acts f .tell (.position f.position) f
  | seek {f : UnbufferedFile} {offset : Int} {whence : Whence} {target : Nat}
      (htarget : (target : Int) = f.origin whence + offset) :
      Acts f (.seek offset whence) (.sought true) { f with position := target }

/-- The operations one after the other. -/
inductive ActsAll : UnbufferedFile → List (StreamOp × StreamReply) → UnbufferedFile → Prop
  | nil (f : UnbufferedFile) : ActsAll f [] f
  | snoc {f g h : UnbufferedFile} {trace : List (StreamOp × StreamReply)}
      {op : StreamOp} {reply : StreamReply} (hrun : ActsAll f trace g)
      (hact : g.Acts op reply h) : ActsAll f (trace ++ [(op, reply)]) h

end UnbufferedFile

namespace PhpStream

/-- The file that the stream stands for. -/
def unbuffered (s : PhpStream) : UnbufferedFile :=
  ⟨s.file.data, s.position, s.flags.eol⟩

def perform (s : PhpStream) : StreamOp → Option (StreamReply × PhpStream)
  | .read size => (s.read size).map fun r => (.bytes r.1, r.2)
  | .getLine buf => (s.getLine buf).map fun r => (.line r.1, r.2)
  | .write buf => some (.written (s.write buf).1, (s.write buf).2)
  | .tell => some (.position s.tell, s)
  | .seek offset whence =>
    (s.seek offset whence).map fun r => (.sought r.1, r.2)

/-- Operations on a stream of which every seek succeeds. -/
inductive Performs : PhpStream → List (StreamOp × StreamReply) → PhpStream → Prop
  | nil (s : PhpStream) : Performs s [] s
  | snoc {s t u : PhpStream} {trace : List (StreamOp × StreamReply)}
      {op : StreamOp} {reply : StreamReply} (hrun : Performs s trace t)
      (hperform : t.perform op = some (reply, u))
      (hseek : reply ≠ .sought false) :
      Performs s (trace ++ [(op, reply)]) u

/-- A stream on a plain file, as it is opened. -/
structure Opened (s : PhpStream) : Prop extends Fresh s where
  readfilters : s.readfilters = []
  noSeek : s.flags.noSeek = false

/-- The position of the stream is that of the next byte, and the end of the
file was met only with an empty buffer. -/
structure Synced (s : PhpStream) : Prop where
  readfilters : s.readfilters = []
  noSeek : s.flags.noSeek = false
  place : s.At s.position
  quiet : s.Quiet

variable {s s' : PhpStream}

theorem Opened.synced (h : s.Opened) : s.Synced where
  readfilters := h.readfilters
  noSeek := h.noSeek
  place := h.at_position
  quiet := by
    rw [Quiet, h.eof]
    exact fun heof => nomatch heof

/-- The stream behind a write at the offset of the file. -/
def wrote (s : PhpStream) (bytes : List UInt8) : PhpStream :=
  if bytes = [] then s
  else
    { s with
      file := s.file.write bytes
      position := s.position + bytes.length }

theorem wrote_wrote {first second : List UInt8} (h : first ≠ []) :
    (s.wrote first).wrote second = s.wrote (first ++ second) := by
  by_cases hsecond : second = []
  · rw [hsecond, append_nil, wrote, if_pos rfl]
  · have happend : first ++ second ≠ [] := by simp [h]
    simp only [wrote, if_neg h, if_neg hsecond, if_neg happend,
      ByteFile.write, splice_splice, length_append, add_assoc]

theorem toInt_pos {n : Nat} (hpos : 0 < n) (hlt : n < 2 ^ 31) : 0 < toInt (n % uintMod) := by
  have hmod : n % uintMod = n :=
    Nat.mod_eq_of_lt (lt_trans hlt (by decide))
  rw [hmod, toInt, if_pos hlt]
  exact Int.ofNat_lt.mpr hpos

theorem writeLoop_eq (hseek : s.flags.noSeek = false) {count : Nat}
    {buf : List UInt8} (hcount : buf.length ≤ count) (didwrite : Nat) :
    writeLoop count s buf didwrite = (didwrite + buf.length, s.wrote buf) := by
  induction count generalizing s buf didwrite with
  | zero =>
    have hnil : buf = [] := length_eq_zero_iff.mp (by omega)
    rw [hnil, writeLoop, wrote, if_pos rfl]
    rfl
  | succ count ih =>
    rw [writeLoop]
    by_cases hpos : 0 < buf.length
    · have hchunk := s.chunkSize.pos
      have hmax := s.chunkSize.le_intMax
      have htowrite : 0 < min buf.length s.chunkSize.val := by omega
      have hlen : (buf.take (min buf.length s.chunkSize.val)).length =
          min buf.length s.chunkSize.val := by
        rw [length_take]
        omega
      have hne : buf.take (min buf.length s.chunkSize.val) ≠ [] := by
        intro hnil
        rw [hnil, length_nil] at hlen
        omega
      have hint := toInt_pos htowrite (by omega)
      simp only [if_pos hpos, if_pos hint, hseek, Bool.not_false, ↓reduceIte]
      have hstep : { s with
          file := s.file.write (buf.take (min buf.length s.chunkSize.val))
          position := s.position + min buf.length s.chunkSize.val } =
            s.wrote (buf.take (min buf.length s.chunkSize.val)) := by
        rw [wrote, if_neg hne, hlen]
      rw [hstep, ih, wrote_wrote hne, take_append_drop]
      · rw [length_drop]
        congr 1
        omega
      · rw [wrote, if_neg hne]
        exact hseek
      · rw [length_drop]
        omega
    · have hnil : buf = [] := length_eq_zero_iff.mp (by omega)
      rw [if_neg hpos, hnil, wrote, if_pos rfl]
      rfl

section

variable (h : s.Synced)
include h

/-- Before a write the file is brought to the position of the stream. -/
theorem writeBuffer_eq (buf : List UInt8) :
    ∃ t : PhpStream, s.writeBuffer buf = (buf.length, t.wrote buf) ∧
      t.Synced ∧ t.bufferedAmount = 0 ∧ t.unbuffered = s.unbuffered := by
  have hplace := h.place
  rw [writeBuffer]
  by_cases hpos : s.readpos = s.writepos
  · have hzero : s.bufferedAmount = 0 := by
      rw [bufferedAmount, hpos, Nat.sub_self]
    refine ⟨s, ?_, h, hzero, rfl⟩
    simp only [hpos, ne_eq, not_true_eq_false, and_false, ↓reduceIte]
    rw [writeLoop_eq h.noSeek le_rfl, zero_add]
  · have heof : s.eof = false := by
      cases heof : s.eof with
      | false => rfl
      | true =>
        have hzero := h.quiet heof
        have := hplace.readpos_le
        rw [bufferedAmount] at hzero
        omega
    have hseek : ({ s with readpos := 0, writepos := 0 } : PhpStream).opsSeek
        s.position = some { s with
          file := { s.file with offset := s.position }
          readpos := 0
          writepos := 0 } := by
      simp [opsSeek, ByteFile.seek]
    generalize ht : ({ s with
      file := { s.file with offset := s.position }
      readpos := 0
      writepos := 0 } : PhpStream) = t at hseek
    have hno : t.flags.noSeek = false := by rw [← ht]; exact h.noSeek
    refine ⟨t, ?_, ⟨?_, hno, ?_, ?_⟩, ?_, ?_⟩
    · simp only [h.noSeek, hpos, Bool.not_false, ne_eq, not_false_eq_true,
        and_self, ↓reduceIte, hseek, Option.getD_some]
      rw [writeLoop_eq hno le_rfl, zero_add]
    · rw [← ht]
      exact h.readfilters
    · rw [← ht]
      refine .of_empty rfl (Nat.zero_le _) rfl fun he => ?_
      rw [heof] at he
      cases he
    · rw [← ht]
      exact fun _ => rfl
    · rw [← ht]
      rfl
    · rw [← ht]
      rfl

theorem wrote_synced (hempty : s.bufferedAmount = 0) (buf : List UInt8) : (s.wrote buf).Synced := by
  rw [wrote]
  split
  · exact h
  · have hplace := h.place
    have hoff := hplace.offset_eq
    have hpos : s.readpos = s.writepos := by
      have := hplace.readpos_le
      rw [bufferedAmount] at hempty
      omega
    refine ⟨h.readfilters, h.noSeek, .of_empty hpos hplace.writepos_le ?_ ?_, fun _ => hempty⟩
    · simp only [ByteFile.write, hoff, hempty, add_zero]
    · intro heof
      have hrest := hplace.rest_of_eof heof
      simp only [ByteFile.rest, ByteFile.write] at hrest ⊢
      rw [drop_splice, ← drop_drop, hrest, drop_nil]

theorem write_acts (buf : List UInt8) : (s.write buf).2.Synced ∧
      s.unbuffered.Acts (.write buf) (.written (s.write buf).1) (s.write buf).2.unbuffered := by
  rw [write]
  by_cases hnil : buf = []
  · rw [hnil, if_pos length_nil]
    exact ⟨h, .writeNothing⟩
  · have hlen : ¬ buf.length = 0 :=
      fun hzero => hnil (length_eq_zero_iff.mp hzero)
    obtain ⟨t, heq, ht, hempty, hsame⟩ := writeBuffer_eq h buf
    rw [if_neg hlen, heq]
    refine ⟨wrote_synced ht hempty buf, ?_⟩
    have hoff := ht.place.offset_eq
    rw [hempty, add_zero] at hoff
    have hover : (t.wrote buf).unbuffered = t.unbuffered.overwrite buf := by
      rw [wrote, if_neg hnil]
      simp only [unbuffered, UnbufferedFile.overwrite, ByteFile.write, hoff]
    rw [← hsame, hover]
    exact .write hnil

theorem consume_synced {n : Nat} (hn : n ≤ s.bufferedAmount) :
    ({ s.consume n with eof := false } : PhpStream).Synced := by
  have htakes := takes_consume h.place hn s.flags
  have hat := htakes.behind
  rw [h.place.toWindow.length_peek hn] at hat
  exact ⟨h.readfilters, h.noSeek,
    ⟨⟨hat.readpos_le, hat.writepos_le⟩, hat.offset_eq, hat.buffered_eq,
      fun heof => nomatch heof⟩, fun heof => nomatch heof⟩

theorem seekBuffered_acts {offset : Int} {whence : Whence}
    (hseek : s.seekBuffered offset whence = some s') :
    s'.Synced ∧ s.unbuffered.Acts (.seek offset whence) (.sought true) s'.unbuffered := by
  cases whence with
  | cur =>
    rw [seekBuffered] at hseek
    split at hseek
    · next hin =>
        cases hseek
        refine ⟨consume_synced h (by omega), .seek ?_⟩
        simp only [consume, UnbufferedFile.origin, unbuffered]
        omega
    · nomatch hseek
  | set =>
    rw [seekBuffered] at hseek
    split at hseek
    · next hin =>
        cases hseek
        refine ⟨consume_synced h (by omega), .seek ?_⟩
        simp only [consume, UnbufferedFile.origin]
        omega
    · nomatch hseek

theorem opsSeek_acts {target : Int} (hseek : s.opsSeek target = some s') :
    ({ s' with eof := false, readpos := 0, writepos := 0 } : PhpStream).Synced ∧
      ({ s' with eof := false, readpos := 0, writepos := 0 } : PhpStream).unbuffered =
          { s.unbuffered with position := target.toNat } ∧ 0 ≤ target := by
  rw [opsSeek, ByteFile.seek] at hseek
  split at hseek
  · next hle =>
      cases hseek
      refine ⟨⟨h.readfilters, h.noSeek, ?_, fun heof => nomatch heof⟩, rfl, hle⟩
      exact .of_empty rfl (Nat.zero_le _) rfl fun heof => nomatch heof
  · nomatch hseek

theorem seek_acts (offset : Int) (whence : Whence) :
    ∃ ok s', s.seek offset whence = some (ok, s') ∧ (ok = true → s'.Synced ∧
        s.unbuffered.Acts (.seek offset whence) (.sought true) s'.unbuffered) := by
  unfold seek
  split
  · next t hbuf =>
      refine ⟨true, t, rfl, fun _ => ?_⟩
      split at hbuf
      · nomatch hbuf
      · exact seekBuffered_acts h hbuf
  · simp only [h.noSeek, Bool.not_false, ↓reduceIte]
    split
    · next t hops =>
        refine ⟨true, _, rfl, fun _ => ?_⟩
        obtain ⟨hsync, hsame, hle⟩ := opsSeek_acts h hops
        refine ⟨hsync, ?_⟩
        rw [hsame]
        refine .seek ?_
        rw [Int.toNat_of_nonneg hle]
        cases whence with
        | cur => rfl
        | set => exact (Int.zero_add offset).symm
    · exact ⟨false, _, rfl, fun hfalse => nomatch hfalse⟩

theorem read_acts (size : Nat) : ∃ l s', s.read size = some (l, s') ∧ s'.Synced ∧
      s.unbuffered.Acts (.read size) (.bytes l) s'.unbuffered := by
  obtain ⟨l, s', hrun, hok⟩ := read_ok (.inl h.readfilters) h.place size
  refine ⟨l, s', hrun, ⟨?_, ?_, ?_, ?_⟩, ?_⟩
  · rw [hok.takes.frame.readfilters, h.readfilters]
  · rw [hok.flags, h.noSeek]
  · rw [hok.takes.position]
    exact hok.takes.behind
  · exact hok.quiet h.readfilters h.quiet
  · have hsame : s'.unbuffered = s.unbuffered.advance l.length := by
      simp only [unbuffered, UnbufferedFile.advance, hok.takes.frame.data,
        hok.flags, hok.takes.position, ↓reduceIte]
    rw [hsame]
    exact .read hok.takes.isPrefix hok.length_le hok.nonempty

theorem getLine_acts (buf : LineBuffer) :
    ∃ l s', s.getLine buf = some (l, s') ∧ s'.Synced ∧
      s.unbuffered.Acts (.getLine buf) (.line l) s'.unbuffered := by
  by_cases hbuf : buf = .given 0
  · refine ⟨none, s, if_pos hbuf, h, ?_⟩
    rw [hbuf]
    exact UnbufferedFile.Acts.line (f := s.unbuffered) (l := []) s.flags.eol (fun _ => rfl) rfl
  · obtain ⟨l, s', hrun, hok⟩ := getLine_ok (.inl h.readfilters) h.place hbuf
    refine ⟨_, s', hrun, ⟨?_, ?_, ?_, ?_⟩, ?_⟩
    · rw [hok.takes.frame.readfilters, h.readfilters]
    · rw [hok.flags, ← h.noSeek]
    · rw [hok.takes.position]
      exact hok.takes.behind
    · exact hok.quiet h.readfilters h.quiet
    · have hsame : s'.unbuffered = { s.unbuffered.advance l.length with eol := s'.flags.eol } := by
        simp only [unbuffered, UnbufferedFile.advance, hok.takes.frame.data,
          hok.takes.position, ↓reduceIte]
      rw [hsame]
      refine .line _ (fun hknown => ?_) hok.line
      rcases hok.mode with hchooses | ⟨heq, -⟩
      · exact hchooses.eq_of_known hknown
      · exact heq

/-- Every operation returns, and acts on the stream as on the file. -/
theorem perform_acts (op : StreamOp) : ∃ reply s', s.perform op = some (reply, s') ∧
      (reply ≠ .sought false → s'.Synced ∧ s.unbuffered.Acts op reply s'.unbuffered) := by
  cases op with
  | read size =>
    obtain ⟨l, s', hrun, hs, hacts⟩ := read_acts h size
    exact ⟨_, s', by rw [perform, hrun]; rfl, fun _ => ⟨hs, hacts⟩⟩
  | getLine buf =>
    obtain ⟨l, s', hrun, hs, hacts⟩ := getLine_acts h buf
    exact ⟨_, s', by rw [perform, hrun]; rfl, fun _ => ⟨hs, hacts⟩⟩
  | write buf => exact ⟨_, _, rfl, fun _ => write_acts h buf⟩
  | tell => exact ⟨_, s, rfl, fun _ => ⟨h, .tell⟩⟩
  | seek offset whence =>
    obtain ⟨ok, s', hrun, hok⟩ := seek_acts h offset whence
    refine ⟨_, s', by rw [perform, hrun]; rfl, fun hne => ?_⟩
    cases ok with
    | true => exact hok rfl
    | false => exact absurd rfl hne

end

theorem Performs.synced {s₀ : PhpStream} {trace : List (StreamOp × StreamReply)} (h₀ : s₀.Synced)
    (hrun : Performs s₀ trace s) : s.Synced ∧ s₀.unbuffered.ActsAll trace s.unbuffered := by
  induction hrun with
  | nil => exact ⟨h₀, .nil _⟩
  | snoc _ hperform hseek ih =>
    obtain ⟨hsync, hall⟩ := ih
    obtain ⟨reply, s', heq, hok⟩ := perform_acts hsync _
    rw [heq] at hperform
    cases hperform
    obtain ⟨hsync', hacts⟩ := hok hseek
    exact ⟨hsync', hall.snoc hacts⟩

/-- The buffer of a stream on a plain file cannot be observed: its operations
are those of the file at the position of the stream, which the buffer always
continues. -/
theorem performs_as_unbuffered {s₀ : PhpStream}
    {trace : List (StreamOp × StreamReply)} (hopened : s₀.Opened) (hrun : Performs s₀ trace s) :
    s₀.unbuffered.ActsAll trace s.unbuffered ∧
      s.file.offset = s.position + (s.writepos - s.readpos) ∧ s.buffered =
        (s.file.data.drop s.position).take (s.writepos - s.readpos) ∧
      ∀ op, ∃ reply s', s.perform op = some (reply, s') := by
  obtain ⟨hsync, hall⟩ := hrun.synced hopened.synced
  refine ⟨hall, hsync.place.offset_eq, hsync.place.buffered_eq, fun op => ?_⟩
  obtain ⟨reply, s', heq, -⟩ := perform_acts hsync op
  exact ⟨reply, s', heq⟩

theorem sampleStream_opened : sampleStream.Opened :=
  ⟨sampleStream_fresh, rfl, rfl⟩

theorem performs_as_unbuffered_sample : ∃ s, Performs sampleStream
        [(.getLine .growing, .line (some [97, 98, 10])),
          (.write [120], .written 1), (.seek 0 .set, .sought true),
          (.read 9, .bytes [97, 98, 10, 120, 100])] s ∧ sampleStream.unbuffered.ActsAll
        [(.getLine .growing, .line (some [97, 98, 10])),
          (.write [120], .written 1), (.seek 0 .set, .sought true),
          (.read 9, .bytes [97, 98, 10, 120, 100])] s.unbuffered ∧
      s.file.offset = s.position + (s.writepos - s.readpos) := by
  have hline := @Performs.snoc _ _ _ _ (.getLine .growing)
    (.line (some [97, 98, 10])) (.nil sampleStream) rfl nofun
  have hwrite := @Performs.snoc _ _ _ _ (.write [120]) (.written 1) hline rfl nofun
  have hseek := @Performs.snoc _ _ _ _ (.seek 0 .set) (.sought true) hwrite rfl nofun
  have hs := @Performs.snoc _ _ _ _ (.read 9) (.bytes [97, 98, 10, 120, 100]) hseek rfl nofun
  obtain ⟨hall, hoff, -, -⟩ := performs_as_unbuffered sampleStream_opened hs
  exact ⟨_, hs, hall, hoff⟩

/-- A line for which the caller has room for its terminator only is `NULL`
also where the file goes on. -/
theorem getLine_without_room : sampleStream.Opened ∧ sampleStream.unbuffered.rest ≠ [] ∧
      (sampleStream.perform (.getLine (.given 1))).map Prod.fst = some (.line none) :=
  ⟨sampleStream_opened, by decide, rfl⟩

end PhpStream

end PhpEngine

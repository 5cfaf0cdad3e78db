/-
Whether the lines of a stream depend on the sizes of its reads.  They do in
detection mode, if the first line ends with CR LF: the two bytes may or may
not be in the buffer together.
-/
import PhpEngine.StreamLine

namespace PhpEngine

open List

variable {l u w content : List UInt8} {fuel : Nat} {eol : EolMode} {chunk : ChunkSize}

/-- `l` cut behind every `stop`. -/
def linesOf (stop : UInt8) : List UInt8 → List (List UInt8) :=
  pieces (upTo stop) fun l => l.drop (upTo stop l).length

theorem drop_upTo_length (stop : UInt8) (l : List UInt8) (hl : l ≠ []) :
    (l.drop (upTo stop l).length).length < l.length := by
  have hpos := length_pos_of_ne_nil hl
  have hsome := length_pos_of_ne_nil (upTo_ne_nil stop hl)
  rw [length_drop]
  omega

theorem linesOf_flatten (stop : UInt8) (l : List UInt8) : (linesOf stop l).flatten = l := by
  have hflat := pieces_flatten (drop_upTo_length stop) id
    (fun l => prefix_iff_eq_append.mp (upTo_isPrefix stop l)) l
  rwa [List.map_id] at hflat

theorem fromLineEnd_eq_nil (h : ∀ b ∈ l, isLineEnd b = false) : fromLineEnd l = [] := by
  have happ := fromLineEnd_append h []
  rwa [append_nil] at happ

namespace EolMode

theorem Chooses.ne_nil {m : EolMode} (h : Chooses .detect l m) : fromLineEnd l ≠ [] := by
  intro hnil
  cases h with
  | detectMac h =>
    rw [hnil] at h
    nomatch h
  | detectUnix h =>
    rw [hnil] at h
    rcases h with h | h
    · nomatch h
    · nomatch prefix_nil.mp h

theorem Chooses.ne_detect {m : EolMode} (h : Chooses .detect l m) : m ≠ .detect := by
  cases h <;> exact fun hm => nomatch hm

end EolMode

namespace PhpStream

variable {s s' : PhpStream} {p : Nat} {stop : UInt8}

/-- The lines that successive calls return before the first `NULL`; `none` if
there are more than `fuel` calls. -/
def allLines : Nat → PhpStream → Option (List (List UInt8))
  | 0, _ => none
  | fuel + 1, s =>
    (s.getLine .growing).bind fun r =>
      match r.1 with
      | none => some []
      | some line => (allLines fuel r.2).map (line :: ·)

/-- Whatever is in the buffer, lines of the stream at `p` end at `stop`. -/
def Ends (s : PhpStream) (p : Nat) (stop : UInt8) : Prop :=
  (s.flags.eol ≠ .detect ∧ s.flags.eol.stop = stop) ∨
    (s.flags.eol = .detect ∧ isLineEnd stop = true ∧ ∀ b ∈ s.file.data.drop p, isLineEnd b = false)

/-- The next call cuts at `stop`, and so do those behind it. -/
theorem lineOk_ends (hends : s.Ends p stop) (hok : LineOk s p .growing l s') :
    l = upTo stop (s.file.data.drop p) ∧ s'.Ends (p + l.length) stop := by
  rcases hends with ⟨hknown, hstop⟩ | ⟨hdetect, hstop, hno⟩
  · have hsame : s'.flags.eol = s.flags.eol := by
      rcases hok.mode with hchooses | ⟨heq, -⟩
      · exact hchooses.eq_of_known hknown
      · exact heq
    refine ⟨?_, .inl ⟨by rw [hsame]; exact hknown, by rw [hsame, hstop]⟩⟩
    have hline := hok.line
    rw [hsame, hstop] at hline
    exact hline
  · have hmode := hok.mode
    rw [hdetect] at hmode
    rcases hmode with hchooses | ⟨heq, hcut, -⟩
    · exact absurd (fromLineEnd_eq_nil hno) hchooses.ne_nil
    · refine ⟨?_, .inr ⟨heq, hstop, fun b hb => hno b ?_⟩⟩
      · rw [upTo_of_not_mem (not_mem_of_no_lineEnd hno hstop)]
        exact hcut
      · rw [hok.takes.frame.data, ← drop_drop] at hb
        exact mem_of_mem_drop hb

section

variable (hs : s.readfilters = []) (h : s.At p)
include hs h

theorem allLines_succ (fuel : Nat) :
    ∃ l s', LineOk s p .growing l s' ∧ (l = [] ↔ s.file.data.drop p = []) ∧
      s.getLine .growing = some (if l = [] then none else some l, s') ∧ allLines (fuel + 1) s =
        if l = [] then some [] else (allLines fuel s').map (l :: ·) := by
  have hbuf : LineBuffer.growing ≠ .given 0 := fun heq => nomatch heq
  obtain ⟨l, s', hrun, hok⟩ := getLine_ok (.inl hs) h hbuf
  refine ⟨l, s', hok, ?_, hrun, ?_⟩
  · rw [hok.line]
    refine ⟨fun hnil => ?_, fun hnil => by rw [hnil]; rfl⟩
    by_contra hne
    exact upTo_ne_nil _ hne hnil
  · rw [allLines, hrun, Option.bind_some]
    by_cases hl : l = []
    · rw [if_pos hl, if_pos hl]
    · rw [if_neg hl, if_neg hl]

theorem allLines_ends (hends : s.Ends p stop) (hfuel : (s.file.data.drop p).length < fuel) :
    allLines fuel s = some (linesOf stop (s.file.data.drop p)) := by
  induction fuel generalizing s p with
  | zero => exact absurd hfuel (Nat.not_lt_zero _)
  | succ fuel ih =>
    obtain ⟨l, s', hok, hnil, -, hlines⟩ := allLines_succ hs h fuel
    rw [hlines]
    by_cases hl : l = []
    · rw [if_pos hl, hnil.mp hl]
      rfl
    · have hne : s.file.data.drop p ≠ [] := fun hd => hl (hnil.mpr hd)
      obtain ⟨hline, hends'⟩ := lineOk_ends hends hok
      have hlt := drop_upTo_length stop _ hne
      have hbehind : s'.file.data.drop (p + l.length) = (s.file.data.drop p).drop
            (upTo stop (s.file.data.drop p)).length := by
        rw [hok.takes.frame.data, ← drop_drop, hline]
      have hnext := ih (hok.takes.frame.readfilters.trans hs)
        hok.takes.behind hends' (by rw [hbehind]; omega)
      rw [hbehind] at hnext
      rw [if_neg hl, hnext, linesOf, pieces_cons (drop_upTo_length stop) hne, hline]
      rfl

/-- In detection mode the first line decides where the others end. -/
theorem allLines_detect (hdetect : s.flags.eol = .detect)
    (hsome : fromLineEnd (s.file.data.drop p) ≠ []) (hfuel : (s.file.data.drop p).length < fuel) :
    ∃ l s', s.getLine .growing = some (l, s') ∧
      EolMode.Chooses .detect (s.file.data.drop p) s'.flags.eol ∧ allLines fuel s =
        some (linesOf s'.flags.eol.stop (s.file.data.drop p)) := by
  obtain ⟨n, rfl⟩ : ∃ n, fuel = n + 1 :=
    Nat.exists_eq_succ_of_ne_zero (by omega)
  obtain ⟨l, s', hok, hnil, hrun, hlines⟩ := allLines_succ hs h n
  have hne : s.file.data.drop p ≠ [] := by
    intro hd
    rw [hd] at hsome
    exact hsome rfl
  have hl : l ≠ [] := fun hl => hne (hnil.mp hl)
  have hchooses : EolMode.Chooses .detect (s.file.data.drop p) s'.flags.eol := by
    have hmode := hok.mode
    rw [hdetect] at hmode
    rcases hmode with hchooses | ⟨-, hcut, hno⟩
    · exact hchooses
    · exfalso
      rw [hcut] at hno
      exact hsome (fromLineEnd_eq_nil hno)
  refine ⟨_, s', hrun, hchooses, ?_⟩
  have hline : l = upTo s'.flags.eol.stop (s.file.data.drop p) := hok.line
  have hlt := drop_upTo_length s'.flags.eol.stop _ hne
  have hbehind : s'.file.data.drop (p + l.length) = (s.file.data.drop p).drop
        (upTo s'.flags.eol.stop (s.file.data.drop p)).length := by
    rw [hok.takes.frame.data, ← drop_drop, ← hline]
  have hnext := allLines_ends (hok.takes.frame.readfilters.trans hs)
    hok.takes.behind (.inl ⟨hchooses.ne_detect, rfl⟩)
    (by rw [hbehind]; omega : (s'.file.data.drop (p + l.length)).length < n)
  rw [hbehind] at hnext
  rw [hlines, if_neg hl, hnext, linesOf, pieces_cons (drop_upTo_length _) hne, ← hline]
  rfl

end

/-- What holds of a stream, of the streams behind the copies and of those
behind the refills of an empty buffer holds behind a line. -/
theorem getLineLoop_invariant {I : PhpStream → Prop} (hcopy : ∀ t, I t → 0 < t.bufferedAmount →
      I ({ t with flags.eol := t.locateEol.2 }.consume (match t.locateEol.1 with
          | some i => i + 1
          | none => t.bufferedAmount)))
    (hfill : ∀ t, I t → t.bufferedAmount = 0 → t.eof = false → I (t.fillReadBuffer t.chunkSize.val))
    {copied : List UInt8} {r : List UInt8 × PhpStream}
    (hrun : getLineLoop fuel s .growing copied = some r) (hs : I s) :
    I r.2 := by
  induction fuel generalizing s copied with
  | zero => nomatch hrun
  | succ fuel ih =>
    rw [getLineLoop] at hrun
    split at hrun
    · next hpos =>
        have hnext := hcopy s hs hpos
        cases hloc : s.locateEol.1 with
        | some i =>
          simp only [hloc, LineBuffer.clip, ↓reduceIte] at hrun hnext
          cases hrun
          exact hnext
        | none =>
          simp only [hloc, LineBuffer.clip, Bool.false_eq_true, ↓reduceIte] at hrun hnext
          exact ih hrun hnext
    · next hzero =>
        split at hrun
        · cases hrun
          exact hs
        · next heof =>
            have hnext := hfill s hs (by omega) (by simpa using heof)
            dsimp only [LineBuffer.toread] at hrun
            split at hrun
            · cases hrun
              exact hnext
            · exact ih hrun hnext

/-- A refill of an empty buffer brings what one read delivers, for which there
is room for a chunk. -/
theorem fillReadBuffer_read (hs : s.readfilters = []) (h : s.Window)
    (hempty : s.bufferedAmount = 0) {size : Nat} (hsize : 0 < size) :
    ∃ room, s.chunkSize.val ≤ room ∧ (s.fillReadBuffer size).file = (s.file.read room).2 ∧
      (s.fillReadBuffer size).bufferedAmount = s.file.delivered room ∧
      (s.chunkSize.val = 1 → s.readbuf.length ≤ 1 →
        room = 1 ∧ (s.fillReadBuffer size).readbuf.length ≤ 1) := by
  have hr := prepared_rearranged h
  have hroom := prepared_room h
  have hpos : s.readpos = s.writepos := by
    have := h.readpos_le
    rw [bufferedAmount] at hempty
    omega
  refine ⟨s.prepared.readbuf.length - s.prepared.writepos, hroom, ?_⟩
  rw [fillReadBuffer, if_neg (not_not_intro hs), fillUnfiltered_eq (by rw [hempty]; exact hsize)]
  refine ⟨?_, ?_, ?_⟩
  · change (s.prepared.file.read _).2 = _
    rw [hr.file]
  · rw [append_bufferedAmount (opsRead_window hr.window _)]
    change s.prepared.bufferedAmount + _ = _
    rw [hr.amount h, hempty, zero_add, opsRead, ByteFile.length_read, hr.file]
  · intro hone hlen
    -- the buffer is one byte, and none of it is in use
    have hsmall : s.prepared.readbuf.length = 1 ∧ s.prepared.writepos = 0 := by
      have hle := h.writepos_le
      have hnil : s.readbuf = [] ↔ s.readbuf.length = 0 :=
        length_eq_zero_iff.symm
      have hcompact : s.compact.readbuf.length = s.readbuf.length := by
        simp only [compact, length_append, length_drop]
        omega
      have hfront : s.compact.writepos = 0 := by
        simp only [compact]
        omega
      rw [prepared]
      by_cases hc : s.readbuf ≠ [] ∧ s.readbuf.length - s.writepos < s.chunkSize.val
      · have hlen1 : s.compact.readbuf.length = 1 := by
          have := mt hnil.mpr hc.1
          omega
        have hno : ¬ s.compact.readbuf.length - s.compact.writepos < s.compact.chunkSize.val := by
          change ¬ _ < s.chunkSize.val
          omega
        rw [if_pos hc, if_neg hno]
        exact ⟨hlen1, hfront⟩
      · rw [if_neg hc]
        by_cases hno : s.readbuf.length - s.writepos < s.chunkSize.val
        · have hzero : s.readbuf.length = 0 := by
            by_contra hne
            exact hc ⟨mt hnil.mp hne, hno⟩
          rw [if_pos hno]
          simp only [growBuffer, length_append, length_replicate]
          omega
        · rw [if_neg hno]
          omega
    refine ⟨by omega, ?_⟩
    have hdel := s.prepared.file.delivered_le_asked
      (s.prepared.readbuf.length - s.prepared.writepos)
    change (splice s.prepared.readbuf s.prepared.writepos (s.prepared.opsRead _).1).length ≤ 1
    rw [length_splice, opsRead, ByteFile.length_read]
    omega

/-- Every refill of an empty buffer brings at most one byte. -/
structure Single (s : PhpStream) : Prop where
  readfilters : s.readfilters = []
  amount : s.bufferedAmount ≤ 1
  reads : (∀ k, s.file.schedule k = 0) ∨ (s.chunkSize.val = 1 ∧ s.readbuf.length ≤ 1)

theorem Single.fill (h : s.Single) (hat : s.At p) (hempty : s.bufferedAmount = 0) :
    (s.fillReadBuffer s.chunkSize.val).Single := by
  have hframe := (fillReadBuffer_refills (.inl h.readfilters) hat
    (fun _ => hempty) s.chunkSize.val).takes.frame
  obtain ⟨room, -, -, hamount, hone⟩ := fillReadBuffer_read h.readfilters
    hat.toWindow hempty s.chunkSize.pos
  refine ⟨hframe.readfilters.trans h.readfilters, ?_, ?_⟩
  · rw [hamount, ByteFile.delivered]
    rcases h.reads with hzero | ⟨hchunk, hlen⟩
    · rw [hzero]
      omega
    · rw [(hone hchunk hlen).1]
      omega
  · rw [hframe.schedule, hframe.chunkSize]
    rcases h.reads with hzero | ⟨hchunk, hlen⟩
    · exact .inl hzero
    · exact .inr ⟨hchunk, (hone hchunk hlen).2⟩

/-- The state of a search for the end of the first line, byte by byte; `ends`
is what follows the bytes that end no line. -/
structure Searching (data ends : List UInt8) (s : PhpStream) : Prop where
  single : s.Single
  data_eq : s.file.data = data
  place : ∃ q, s.At q ∧ (s.flags.eol = .detect → fromLineEnd (data.drop q) = ends)
  mode : s.flags.eol = .unix → ends.head? = some (byte '\n')

theorem searching_copy {data ends : List UInt8}
    (h : Searching data ends s) (hpos : 0 < s.bufferedAmount) :
    Searching data ends ({ s with flags.eol := s.locateEol.2 }.consume (match s.locateEol.1 with
        | some i => i + 1
        | none => s.bufferedAmount)) := by
  obtain ⟨q, hat, hends⟩ := h.place
  have hone : s.bufferedAmount = 1 := by
    have := h.single.amount
    omega
  obtain ⟨b, hb⟩ : ∃ b, s.buffered = [b] :=
    length_eq_one_iff.mp (hat.length_buffered.trans hone)
  have hdrop : data.drop q = b :: s.file.rest := by
    rw [← h.data_eq, ← hat.ahead, hb]
    rfl
  have htakes := takes_consume hat (le_of_eq hone.symm) { s.flags with eol := s.locateEol.2 }
  have hbehind := htakes.behind
  rw [hat.toWindow.length_peek (le_of_eq hone.symm)] at hbehind
  have hsingle : ({ s with flags.eol := s.locateEol.2 }.consume 1).Single := by
    refine ⟨h.single.readfilters, ?_, h.single.reads⟩
    simp only [bufferedAmount, consume] at hone ⊢
    omega
  rcases locateEol_spec s s.file.rest with hloc | ⟨heq, -, hdet⟩
  · -- the byte ends the line
    have hmem := hloc.mem
    rw [hb, mem_singleton] at hmem
    have hplace : s.locateEol.1 = some 0 := by
      rw [hloc.place, hb, hmem, upTo, if_pos rfl]
      rfl
    have hchooses := hloc.chooses
    rw [hplace]
    refine ⟨hsingle, h.data_eq, ⟨q + 1, hbehind, fun hmode => ?_⟩, fun hmode => ?_⟩
    · change s.locateEol.2 = .detect at hmode
      rw [hmode] at hchooses
      by_cases hknown : s.flags.eol = .detect
      · rw [hknown] at hchooses
        exact absurd rfl hchooses.ne_detect
      · exact absurd (hchooses.eq_of_known hknown).symm hknown
    · change s.locateEol.2 = .unix at hmode
      by_cases hknown : s.flags.eol = .detect
      · rw [hmode] at hmem
        rw [← hends hknown, hdrop, ← hmem, fromLineEnd_cons (by decide)]
        rfl
      · rw [hmode] at hchooses
        exact h.mode (hchooses.eq_of_known hknown).symm
  · -- the byte ends no line
    rw [heq] at hsingle hbehind ⊢
    rw [hone]
    refine ⟨hsingle, h.data_eq, ⟨q + 1, hbehind, fun hmode => ?_⟩, h.mode⟩
    have hno : ∀ c ∈ [b], isLineEnd c = false := by
      have := hdet hmode
      rwa [hb] at this
    have hsame := fromLineEnd_append hno s.file.rest
    rw [singleton_append, ← hdrop, hends hmode] at hsame
    rw [← drop_drop, hdrop]
    exact hsame.symm

theorem searching_fill {data ends : List UInt8}
    (h : Searching data ends s) (hempty : s.bufferedAmount = 0) :
    Searching data ends (s.fillReadBuffer s.chunkSize.val) := by
  obtain ⟨q, hat, hends⟩ := h.place
  have hr := fillReadBuffer_refills (.inl h.single.readfilters) hat
    (fun _ => hempty) s.chunkSize.val
  refine ⟨h.single.fill hat hempty, ?_, ⟨q, hr.takes.behind, ?_⟩, ?_⟩
  · rw [hr.takes.frame.data, h.data_eq]
  · rw [hr.flags]
    exact hends
  · rw [hr.flags]
    exact h.mode

/-- Byte by byte, a first line that ends with CR is taken for one of a Mac,
whatever follows. -/
theorem single_chooses (h : s.Single) (hat : s.At p)
    (hdetect : s.flags.eol = .detect) {l : Option (List UInt8)}
    (hrun : s.getLine .growing = some (l, s'))
    (hcr : (fromLineEnd (s.file.data.drop p)).head? = some (byte '\r')) : s'.flags.eol ≠ .unix := by
  have hstart : Searching s.file.data (fromLineEnd (s.file.data.drop p)) s :=
    ⟨h, rfl, ⟨p, hat, fun _ => rfl⟩, fun hmode => by
      rw [hdetect] at hmode
      cases hmode⟩
  obtain ⟨r, hr, heq⟩ := Option.map_eq_some_iff.mp hrun
  have hend := getLineLoop_invariant (fun t ht hpos => searching_copy ht hpos)
    (fun t ht hempty _ => searching_fill ht hempty) hr hstart
  cases heq
  intro hmode
  have hlf := hend.mode hmode
  rw [hcr] at hlf
  exact absurd (Option.some.inj hlf) (by decide)

/-- Reads of one byte, except that byte `i` comes with the next one. -/
def pairSchedule (i : Nat) : Nat → Nat :=
  fun k => if k = i then 1 else 0

/-- The state of a search for the end of the first line, when the reads are
those of `pairSchedule` and CR and LF stand behind `u`. -/
structure Paired (u w : List UInt8) (s : PhpStream) : Prop where
  readfilters : s.readfilters = []
  data_eq : s.file.data = u ++ byte '\r' :: byte '\n' :: w
  schedule : s.file.schedule = pairSchedule u.length
  chunk : 2 ≤ s.chunkSize.val
  place : ∃ q, s.At q ∧ (s.flags.eol = .unix ∨ s.flags.eol = .detect ∧
    ((s.bufferedAmount = 0 ∧ q = s.file.reads ∧ q ≤ u.length) ∨
      (s.bufferedAmount = 1 ∧ q + 1 = s.file.reads ∧ q < u.length) ∨
      (s.bufferedAmount = 2 ∧ q = u.length)))

theorem locateEol_unix (h : s.flags.eol = .unix) : s.locateEol.2 = .unix := by
  simp only [locateEol, h]

theorem locateEol_pair (h : s.flags.eol = .detect) (hb : s.buffered = [byte '\r', byte '\n']) :
    s.locateEol.2 = .unix := by
  have hpeek : s.peek s.bufferedAmount = [byte '\r', byte '\n'] := hb
  simp only [locateEol, h, hpeek]
  rfl

theorem paired_fill (h : Paired u w s) (hempty : s.bufferedAmount = 0) :
    Paired u w (s.fillReadBuffer s.chunkSize.val) := by
  obtain ⟨q, hat, hmode⟩ := h.place
  have hr := fillReadBuffer_refills (.inl h.readfilters) hat (fun _ => hempty) s.chunkSize.val
  have hframe := hr.takes.frame
  obtain ⟨room, hroom, hfile, hamount, -⟩ := fillReadBuffer_read
    h.readfilters hat.toWindow hempty s.chunkSize.pos
  refine ⟨hframe.readfilters.trans h.readfilters,
    hframe.data.trans h.data_eq, hframe.schedule.trans h.schedule,
    by rw [hframe.chunkSize]; exact h.chunk, q, hr.takes.behind, ?_⟩
  rw [hr.flags]
  rcases hmode with hunix | ⟨hdetect, hwhere⟩
  · exact .inl hunix
  · refine .inr ⟨hdetect, ?_⟩
    have hplace : q = s.file.reads ∧ q ≤ u.length := by
      rcases hwhere with ⟨-, hreads, hle⟩ | ⟨hone, -⟩ | ⟨htwo, -⟩
      · exact ⟨hreads, hle⟩
      · omega
      · omega
    have hlen := hat.amount_add_rest
    rw [h.data_eq, length_append, length_cons, length_cons] at hlen
    have hchunk := h.chunk
    have hreads : (s.fillReadBuffer s.chunkSize.val).file.reads = s.file.reads + 1 := by
      rw [hfile]
      rfl
    rw [hamount, hreads, ByteFile.delivered, h.schedule, pairSchedule]
    by_cases hlast : q = u.length
    · rw [if_pos (by omega)]
      omega
    · rw [if_neg (by omega)]
      omega

theorem paired_copy (hu : ∀ b ∈ u, isLineEnd b = false) (h : Paired u w s)
    (hpos : 0 < s.bufferedAmount) : Paired u w ({ s with flags.eol := s.locateEol.2 }.consume
      (match s.locateEol.1 with
        | some i => i + 1
        | none => s.bufferedAmount)) := by
  obtain ⟨q, hat, hmode⟩ := h.place
  -- the place moves by what is copied
  have hle : (match s.locateEol.1 with
      | some i => i + 1
      | none => s.bufferedAmount) ≤ s.bufferedAmount := by
    rcases locateEol_spec s s.file.rest with hloc | ⟨heq, -⟩
    · have hbuf := (upTo_isPrefix s.locateEol.2.stop s.buffered).length_le
      rw [hat.length_buffered] at hbuf
      rw [hloc.place]
      change (upTo s.locateEol.2.stop s.buffered).length - 1 + 1 ≤ _
      omega
    · rw [heq]
  have hbehind := (takes_consume hat hle { s.flags with eol := s.locateEol.2 }).behind
  rw [hat.toWindow.length_peek hle] at hbehind
  refine ⟨h.readfilters, h.data_eq, h.schedule, h.chunk, _, hbehind, ?_⟩
  rcases hmode with hunix | ⟨hdetect, hwhere⟩
  · exact .inl (locateEol_unix hunix)
  · rcases hwhere with ⟨hzero, -⟩ | ⟨hone, hreads, hlt⟩ | ⟨htwo, hq⟩
    · omega
    · -- a byte before CR LF
      have hb : s.buffered = [u.get ⟨q, hlt⟩] := by
        rw [hat.buffered_eq, hone, h.data_eq, drop_append_of_le_length (le_of_lt hlt),
          drop_eq_getElem_cons hlt]
        rfl
      have hend : isLineEnd (u.get ⟨q, hlt⟩) = false :=
        hu _ (List.get_mem u ⟨q, hlt⟩)
      have hnone : s.locateEol = (none, .detect) := by
        rcases locateEol_spec s s.file.rest with hloc | ⟨heq, -⟩
        · have hmem := hloc.mem
          rw [hb, mem_singleton] at hmem
          rw [← hmem, EolMode.isLineEnd_stop] at hend
          nomatch hend
        · rw [heq, hdetect]
      rw [hnone] at hbehind ⊢
      refine .inr ⟨rfl, .inl ⟨?_, ?_, ?_⟩⟩
      · simp only [bufferedAmount, consume]
        omega
      · dsimp only
        rw [hone]
        exact hreads
      · dsimp only
        omega
    · -- CR LF together
      have hb : s.buffered = [byte '\r', byte '\n'] := by
        rw [hat.buffered_eq, htwo, h.data_eq, hq, drop_left]
        rfl
      exact .inl (locateEol_pair hdetect hb)

/-- With CR and LF in the buffer together, the first line is taken for one of
DOS. -/
theorem paired_chooses (hu : ∀ b ∈ u, isLineEnd b = false) (h : Paired u w s)
    {l : Option (List UInt8)} (hrun : s.getLine .growing = some (l, s')) : s'.flags.eol ≠ .mac := by
  obtain ⟨r, hr, heq⟩ := Option.map_eq_some_iff.mp hrun
  have hend := getLineLoop_invariant (fun t ht hpos => paired_copy hu ht hpos)
    (fun t ht hempty _ => paired_fill ht hempty) hr h
  cases heq
  obtain ⟨q, -, hmode⟩ := hend.place
  rcases hmode with hunix | ⟨hdetect, -⟩
  · rw [hunix]
    rintro ⟨⟩
  · rw [hdetect]
    rintro ⟨⟩

/-- A stream that delivers `content`, in portions of its own. -/
structure Delivers (s : PhpStream) (content : List UInt8) (eol : EolMode)
    (chunk : ChunkSize) : Prop where
  fresh : s.Fresh
  readfilters : s.readfilters = []
  content_eq : s.file.rest = content
  eol_eq : s.flags.eol = eol
  chunk_eq : s.chunkSize = chunk

/-- All streams that deliver `content` have the same lines, which together are
`content`. -/
def LinesAgree (content : List UInt8) (eol : EolMode) (chunk : ChunkSize) : Prop :=
  ∀ s₁ s₂ : PhpStream, s₁.Delivers content eol chunk → s₂.Delivers content eol chunk →
    ∃ lines, allLines (content.length + 1) s₁ = some lines ∧
      allLines (content.length + 1) s₂ = some lines ∧
      lines.flatten = content

/-- The stream that delivers `content` by `schedule`. -/
def delivering (content : List UInt8) (chunk : ChunkSize) (schedule : Nat → Nat) : PhpStream where
  file := ⟨content, 0, schedule, 0⟩
  plainFiles := true
  readfilters := []
  flags := ⟨false, false, .detect⟩
  chunkSize := chunk
  readbuf := []
  readpos := 0
  writepos := 0
  position := 0
  eof := false

theorem delivering_delivers (content : List UInt8) (chunk : ChunkSize) (schedule : Nat → Nat) :
    (delivering content chunk schedule).Delivers content .detect chunk :=
  ⟨⟨rfl, rfl, rfl, rfl, rfl⟩, rfl, rfl, rfl, rfl⟩

theorem Delivers.drop_eq (h : s.Delivers content eol chunk) :
    s.file.data.drop s.position = content := by
  rw [h.fresh.position]
  exact h.content_eq

theorem Delivers.drop_lt (h : s.Delivers content eol chunk) :
    (s.file.data.drop s.position).length < content.length + 1 := by
  rw [h.drop_eq]
  exact Nat.lt_succ_self _

/-- Lines that end at a place that does not depend on the reads. -/
theorem linesAgree_of (stop : UInt8) (h : ∀ s : PhpStream, s.Delivers content eol chunk →
      allLines (content.length + 1) s = some (linesOf stop content)) :
    LinesAgree content eol chunk :=
  fun s₁ s₂ h₁ h₂ => ⟨linesOf stop content, h s₁ h₁, h s₂ h₂, linesOf_flatten stop content⟩

theorem linesAgree_known (hknown : eol ≠ .detect) : LinesAgree content eol chunk := by
  refine linesAgree_of eol.stop fun s hs => ?_
  have hlines := allLines_ends hs.readfilters hs.fresh.at_position
    (.inl ⟨by rw [hs.eol_eq]; exact hknown, rfl⟩) hs.drop_lt
  rw [hs.drop_eq, hs.eol_eq] at hlines
  exact hlines

theorem linesAgree_no_lineEnd
    (hno : ∀ b ∈ content, isLineEnd b = false) : LinesAgree content .detect chunk := by
  refine linesAgree_of (byte '\n') fun s hs => ?_
  have hlines := allLines_ends hs.readfilters hs.fresh.at_position
    (.inr ⟨hs.eol_eq, (by decide : isLineEnd (byte '\n') = true),
      by rw [hs.drop_eq]; exact hno⟩) hs.drop_lt
  rw [hs.drop_eq] at hlines
  exact hlines

theorem linesAgree_chosen (hsome : fromLineEnd content ≠ []) (m : EolMode)
    (hm : ∀ (s s' : PhpStream) l, s.Delivers content .detect chunk →
      s.getLine .growing = some (l, s') →
      EolMode.Chooses .detect content s'.flags.eol → s'.flags.eol = m) :
    LinesAgree content .detect chunk := by
  refine linesAgree_of m.stop fun s hs => ?_
  obtain ⟨l, s', hrun, hchooses, hlines⟩ := allLines_detect hs.readfilters
    hs.fresh.at_position hs.eol_eq (by rw [hs.drop_eq]; exact hsome)
    hs.drop_lt
  rw [hs.drop_eq] at hchooses hlines
  rw [hlines, hm s s' l hs hrun hchooses]

theorem Delivers.single (h : s.Delivers content eol chunk)
    (hone : (∀ k, s.file.schedule k = 0) ∨ chunk.val = 1) : s.Single := by
  have hbuf := h.fresh.readbuf
  refine ⟨h.readfilters, ?_, ?_⟩
  · rw [bufferedAmount, h.fresh.writepos, h.fresh.readpos]
    exact Nat.zero_le 1
  · rw [h.chunk_eq, hbuf]
    exact hone.imp id fun hchunk => ⟨hchunk, Nat.zero_le 1⟩

theorem linesAgree_lf {v : List UInt8}
    (hfrom : fromLineEnd content = byte '\n' :: v) : LinesAgree content .detect chunk := by
  refine linesAgree_chosen (by rw [hfrom]; exact cons_ne_nil _ _) .unix
    fun s s' l _ _ hchooses => ?_
  generalize s'.flags.eol = m at hchooses
  cases hchooses with
  | detectMac h =>
    rw [hfrom] at h
    exact absurd (Option.some.inj h) (by decide)
  | detectUnix => rfl

/-- The first end of a line is CR, and no stream can take it for CR LF. -/
theorem linesAgree_cr {v : List UInt8}
    (hfrom : fromLineEnd content = byte '\r' :: v) (hcase : chunk.val = 1 ∨
      ¬ [byte '\r', byte '\n'] <+: fromLineEnd content) : LinesAgree content .detect chunk := by
  have hcr : (fromLineEnd content).head? = some (byte '\r') := by
    rw [hfrom]
    rfl
  refine linesAgree_chosen (by rw [hfrom]; exact cons_ne_nil _ _) .mac
    fun s s' l hs hrun hchooses => ?_
  have hne : s'.flags.eol ≠ .unix := by
    rcases hcase with hone | hnot
    · refine single_chooses (hs.single (.inr hone)) hs.fresh.at_position hs.eol_eq hrun ?_
      rw [hs.drop_eq]
      exact hcr
    · intro hunix
      rw [hunix] at hchooses
      cases hchooses with
      | detectUnix h =>
        rcases h with hlf | hpair
        · rw [hcr] at hlf
          exact absurd (Option.some.inj hlf) (by decide)
        · exact hnot hpair
  generalize s'.flags.eol = m at hchooses hne
  cases hchooses with
  | detectMac => rfl
  | detectUnix => exact absurd rfl hne

/-- CR LF is taken for the end of a line of a Mac or of DOS. -/
theorem not_linesAgree_crlf (hu : ∀ b ∈ u, isLineEnd b = false) (hchunk : 2 ≤ chunk.val) :
    ¬ LinesAgree (u ++ byte '\r' :: byte '\n' :: w) .detect chunk := by
  intro hagree
  generalize hcontent : u ++ byte '\r' :: byte '\n' :: w = content at hagree
  have hfrom : fromLineEnd content = byte '\r' :: byte '\n' :: w := by
    rw [← hcontent, fromLineEnd_append hu, fromLineEnd_cons (by decide)]
  have hsome : fromLineEnd content ≠ [] := by
    rw [hfrom]
    exact cons_ne_nil _ _
  have hne : content ≠ [] := by
    intro hnil
    rw [hnil] at hsome
    exact hsome rfl
  have h₁ := delivering_delivers content chunk fun _ => 0
  have h₂ := delivering_delivers content chunk (pairSchedule u.length)
  obtain ⟨lines, hlines₁, hlines₂, -⟩ := hagree _ _ h₁ h₂
  obtain ⟨l₁, t₁, hrun₁, hchooses₁, heq₁⟩ := allLines_detect h₁.readfilters
    h₁.fresh.at_position h₁.eol_eq (by rw [h₁.drop_eq]; exact hsome)
    h₁.drop_lt
  obtain ⟨l₂, t₂, hrun₂, hchooses₂, heq₂⟩ := allLines_detect h₂.readfilters
    h₂.fresh.at_position h₂.eol_eq (by rw [h₂.drop_eq]; exact hsome)
    h₂.drop_lt
  rw [h₁.drop_eq, hlines₁] at heq₁
  rw [h₂.drop_eq, hlines₂] at heq₂
  have hmac : t₁.flags.eol = .mac := by
    have hnot := single_chooses (h₁.single (.inl fun _ => rfl)) h₁.fresh.at_position h₁.eol_eq hrun₁
      (by rw [h₁.drop_eq, hfrom]; rfl)
    generalize t₁.flags.eol = m at hchooses₁ hnot
    cases hchooses₁ with
    | detectMac => rfl
    | detectUnix => exact absurd rfl hnot
  have hunix : t₂.flags.eol = .unix := by
    have hnot := paired_chooses hu (w := w)
      ⟨rfl, hcontent.symm, rfl, hchunk, 0, h₂.fresh.at_position,
        .inr ⟨rfl, .inl ⟨rfl, rfl, Nat.zero_le _⟩⟩⟩ hrun₂
    generalize t₂.flags.eol = m at hchooses₂ hnot
    cases hchooses₂ with
    | detectMac => exact absurd rfl hnot
    | detectUnix => rfl
  -- the first lines have different lengths
  rw [hmac, linesOf, pieces_cons (drop_upTo_length _) hne] at heq₁
  rw [hunix, linesOf, pieces_cons (drop_upTo_length _) hne] at heq₂
  have hfirst := List.cons.inj ((Option.some.inj heq₁).symm.trans (Option.some.inj heq₂)) |>.1
  have hcr : upTo (byte '\r') content = u ++ [byte '\r'] := by
    rw [← hcontent, upTo_append_of_not_mem (not_mem_of_no_lineEnd hu (by decide)), upTo, if_pos rfl]
  have hlf : upTo (byte '\n') content = u ++ [byte '\r', byte '\n'] := by
    rw [← hcontent, upTo_append_of_not_mem (not_mem_of_no_lineEnd hu (by decide)), upTo,
      if_neg (by decide), upTo, if_pos rfl]
  have hlen := congrArg List.length (hcr.symm.trans (hfirst.trans hlf))
  simp only [length_append, length_cons, length_nil] at hlen
  omega

/-- The lines do not depend on the reads, except in detection mode if the
first end of a line is CR LF and more than one byte is read at a time. -/
theorem linesAgree_iff (content : List UInt8) (eol : EolMode) (chunk : ChunkSize) :
    LinesAgree content eol chunk ↔ eol ≠ .detect ∨ chunk.val = 1 ∨
        ¬ [byte '\r', byte '\n'] <+: fromLineEnd content := by
  by_cases hdetect : eol = .detect
  · subst hdetect
    rcases lineEnd_cases content with hno | ⟨u, b, v, rfl, hu, hb⟩
    · refine iff_of_true (linesAgree_no_lineEnd hno) (.inr (.inr ?_))
      rw [fromLineEnd_eq_nil hno]
      exact fun h => nomatch prefix_nil.mp h
    · have hfrom : fromLineEnd (u ++ b :: v) = b :: v := by
        rw [fromLineEnd_append hu, fromLineEnd_cons hb]
      constructor
      · intro hagree
        by_cases hpair : [byte '\r', byte '\n'] <+: fromLineEnd (u ++ b :: v)
        · refine .inr (.inl ?_)
          rw [hfrom] at hpair
          obtain ⟨w, hw⟩ := hpair
          rw [← hw] at hagree
          by_contra hone
          have := chunk.pos
          exact not_linesAgree_crlf hu (by omega) hagree
        · exact .inr (.inr hpair)
      · intro hcase
        rcases isLineEnd_iff.mp hb with rfl | rfl
        · exact linesAgree_cr hfrom (hcase.resolve_left fun hne => hne rfl)
        · exact linesAgree_lf hfrom
  · exact iff_of_true (linesAgree_known hdetect) (.inl hdetect)

/-- `a`, CR, LF, `b`, read byte by byte or all at once. -/
theorem lines_split_crlf : ¬ LinesAgree [97, 13, 10, 98] .detect ⟨8, by decide, by decide⟩ := by
  intro hagree
  obtain ⟨lines, h₁, h₂, -⟩ := hagree _ _
    (delivering_delivers _ _ fun _ => 0) (delivering_delivers _ _ fun _ => 7)
  have hone : some lines = some [[97, 13], [10, 98]] := h₁.symm.trans (by rfl)
  have hall : some lines = some [[97, 13, 10], [98]] := h₂.symm.trans (by rfl)
  exact absurd (hone.symm.trans hall) (by decide)

end PhpStream

end PhpEngine

/-
`_php_stream_get_line` returns the bytes up to the end of the line, which is
one of two bytes; in detection mode the choice between them is made from the
bytes that happen to be in the buffer.
-/
import PhpEngine.StreamBuffer
import PhpEngine.ListCut

namespace PhpEngine

open List

variable {u l v : List UInt8} {b : UInt8} {m : EolMode} {buf : LineBuffer}

/-- A byte that can end a line. -/
def isLineEnd (b : UInt8) : Bool :=
  b = byte '\r' || b = byte '\n'

/-- The bytes from the first possible end of a line on. -/
def fromLineEnd (l : List UInt8) : List UInt8 :=
  l.dropWhile fun b => !isLineEnd b

/-- A list without ends of lines, or its part before the first one. -/
theorem lineEnd_cases (l : List UInt8) : (∀ b ∈ l, isLineEnd b = false) ∨
      ∃ u b v, l = u ++ b :: v ∧ (∀ b ∈ u, isLineEnd b = false) ∧ isLineEnd b = true := by
  induction l with
  | nil => exact .inl fun _ h => absurd h not_mem_nil
  | cons a rest ih =>
    cases ha : isLineEnd a with
    | true =>
      exact .inr ⟨[], a, rest, rfl, fun _ h => absurd h not_mem_nil, ha⟩
    | false =>
      rcases ih with hnone | ⟨u, b, v, rfl, hu, hb⟩
      · exact .inl (forall_mem_cons.mpr ⟨ha, hnone⟩)
      · exact .inr ⟨a :: u, b, v, rfl, forall_mem_cons.mpr ⟨ha, hu⟩, hb⟩

theorem fromLineEnd_append (hu : ∀ b ∈ u, isLineEnd b = false) (l : List UInt8) :
    fromLineEnd (u ++ l) = fromLineEnd l :=
  dropWhile_append_of_pos fun b hb => by rw [hu b hb]; rfl

theorem fromLineEnd_cons (hb : isLineEnd b = true)
    (l : List UInt8) : fromLineEnd (b :: l) = b :: l :=
  dropWhile_cons_of_neg (by rw [hb]; decide)

theorem isLineEnd_iff : isLineEnd b = true ↔ b = byte '\r' ∨ b = byte '\n' := by
  simp [isLineEnd]

theorem not_mem_of_no_lineEnd (h : ∀ b ∈ l, isLineEnd b = false)
    (hb : isLineEnd b = true) : b ∉ l :=
  fun hmem => Bool.false_ne_true ((h b hmem).symm.trans hb)

namespace EolMode

/-- The byte at which a line is ended; in detection mode none was met yet. -/
def stop : EolMode → UInt8
  | mac => byte '\r'
  | _ => byte '\n'

theorem isLineEnd_stop (m : EolMode) : isLineEnd m.stop = true := by
  cases m <;> decide

/-- The modes that can come out of a search through a buffer at the front of
`l`. -/
inductive Chooses : EolMode → List UInt8 → EolMode → Prop
  | mac (l : List UInt8) : Chooses .mac l .mac
  | unix (l : List UInt8) : Chooses .unix l .unix
  | detectMac {l : List UInt8}
      (h : (fromLineEnd l).head? = some (byte '\r')) : Chooses .detect l .mac
  | detectUnix {l : List UInt8} (h : (fromLineEnd l).head? = some (byte '\n') ∨
        [byte '\r', byte '\n'] <+: fromLineEnd l) : Chooses .detect l .unix

theorem Chooses.of_known (h : m ≠ .detect) (l : List UInt8) : Chooses m l m := by
  cases m with
  | detect => exact absurd rfl h
  | mac => exact .mac l
  | unix => exact .unix l

theorem Chooses.eq_of_known {m' : EolMode} (hm : m ≠ .detect) (h : Chooses m l m') : m' = m := by
  cases h with
  | mac | unix => rfl
  | detectMac | detectUnix => exact absurd rfl hm

theorem Chooses.append {m' : EolMode}
    (hu : ∀ b ∈ u, isLineEnd b = false) (h : Chooses m l m') : Chooses m (u ++ l) m' := by
  cases h with
  | mac => exact .mac _
  | unix => exact .unix _
  | detectMac h =>
    refine .detectMac ?_
    rw [fromLineEnd_append hu]
    exact h
  | detectUnix h =>
    refine .detectUnix ?_
    rw [fromLineEnd_append hu]
    exact h

end EolMode

namespace PhpStream

theorem memchr_of_not_mem (h : b ∉ l) : memchr b l = none :=
  if_neg h

theorem memchr_append_cons (h : b ∉ u)
    (v : List UInt8) : memchr b (u ++ b :: v) = some u.length := by
  rw [memchr, if_pos (by simp), idxOf_append_of_notMem h, idxOf_cons_self, add_zero]

theorem memchr_some (h : b ∈ l) : memchr b l = some ((upTo b l).length - 1) := by
  rw [memchr, if_pos h, length_upTo h]
  rfl

/-- A byte that is not the one at `u.length` lies behind it. -/
theorem memchr_append_ne {c : UInt8} (h : b ∉ u) (hne : c ≠ b) : memchr b (u ++ c :: v) = none ∨
      (∃ w, v = b :: w ∧ memchr b (u ++ c :: v) = some (u.length + 1)) ∨
      ∃ i, memchr b (u ++ c :: v) = some i ∧ u.length + 1 < i := by
  cases v with
  | nil =>
    refine .inl (memchr_of_not_mem ?_)
    simp [h, Ne.symm hne]
  | cons d w =>
    by_cases hd : d = b
    · refine .inr (.inl ⟨w, by rw [hd], ?_⟩)
      have hnot : b ∉ u ++ [c] := by simp [h, Ne.symm hne]
      have hat := memchr_append_cons hnot w
      rw [append_assoc, length_append] at hat
      rw [hd]
      exact hat
    · by_cases hmem : b ∈ w
      · refine .inr (.inr ⟨u.length + 2 + w.idxOf b, ?_, by omega⟩)
        rw [memchr, if_pos (by simp [hmem]), idxOf_append_of_notMem h,
          idxOf_cons_ne _ hne, idxOf_cons_ne _ hd]
        congr 1
        omega
      · refine .inl (memchr_of_not_mem ?_)
        simp [h, hmem, Ne.symm hne, Ne.symm hd]

variable {s s' : PhpStream} {p : Nat}

/-- A line end was found at the front of what is to come. -/
structure Located (s : PhpStream) (rest : List UInt8) : Prop where
  chooses : s.flags.eol.Chooses (s.buffered ++ rest) s.locateEol.2
  mem : s.locateEol.2.stop ∈ s.buffered
  place : s.locateEol.1 = some ((upTo s.locateEol.2.stop s.buffered).length - 1)

theorem Located.of_eq {rest : List UInt8} {n : Nat} (heq : s.locateEol = (some n, m))
    (hchooses : s.flags.eol.Chooses (s.buffered ++ rest) m)
    (hplace : memchr m.stop s.buffered = some n) : s.Located rest := by
  have hmem : m.stop ∈ s.buffered := by
    by_contra hnot
    rw [memchr_of_not_mem hnot] at hplace
    exact Option.some_ne_none _ hplace.symm
  rw [memchr_some hmem] at hplace
  exact ⟨by rw [heq]; exact hchooses, by rw [heq]; exact hmem, by rw [heq]; exact hplace.symm⟩

theorem locateEol_detect_cr
    (hmode : s.flags.eol = .detect) (hbuf : s.buffered = u ++ byte '\r' :: v)
    (hu : ∀ b ∈ u, isLineEnd b = false) (rest : List UInt8) : s.Located rest := by
  have hcr := memchr_append_cons (not_mem_of_no_lineEnd hu (by decide)) v (b := byte '\r')
  have hlf := memchr_append_ne (not_mem_of_no_lineEnd hu (by decide)) (v := v)
    (b := byte '\n') (c := byte '\r') (by decide)
  have hfrom : fromLineEnd (s.buffered ++ rest) = byte '\r' :: (v ++ rest) := by
    rw [hbuf, append_assoc, fromLineEnd_append hu, cons_append, fromLineEnd_cons (by decide)]
  have hpeek : s.peek s.bufferedAmount = u ++ byte '\r' :: v := hbuf
  have hmac : s.flags.eol.Chooses (s.buffered ++ rest) .mac := by
    rw [hmode]
    exact .detectMac (by rw [hfrom]; rfl)
  rcases hlf with hnone | ⟨w, rfl, hnext⟩ | ⟨i, hi, hlt⟩
  · refine .of_eq (m := .mac) (n := u.length) ?_ hmac (by rw [hbuf]; exact hcr)
    simp only [locateEol, hmode, hpeek, hcr, hnone]
  · refine .of_eq (m := .unix) (n := u.length + 1) ?_ ?_ (by rw [hbuf]; exact hnext)
    · simp only [locateEol, hmode, hpeek, hcr, hnext, ne_eq,
        not_true_eq_false, false_and, ↓reduceIte]
    · rw [hmode]
      refine .detectUnix (.inr ?_)
      rw [hfrom]
      exact ⟨w ++ rest, rfl⟩
  · refine .of_eq (m := .mac) (n := u.length) ?_ hmac (by rw [hbuf]; exact hcr)
    have hne : i ≠ u.length + 1 ∧ ¬ i < u.length := by omega
    simp only [locateEol, hmode, hpeek, hcr, hi]
    rw [if_pos hne]

theorem locateEol_detect_lf
    (hmode : s.flags.eol = .detect) (hbuf : s.buffered = u ++ byte '\n' :: v)
    (hu : ∀ b ∈ u, isLineEnd b = false) (rest : List UInt8) : s.Located rest := by
  have hlf := memchr_append_cons (not_mem_of_no_lineEnd hu (by decide)) v (b := byte '\n')
  have hcr := memchr_append_ne (not_mem_of_no_lineEnd hu (by decide)) (v := v)
    (b := byte '\r') (c := byte '\n') (by decide)
  have hpeek : s.peek s.bufferedAmount = u ++ byte '\n' :: v := hbuf
  refine .of_eq (m := .unix) (n := u.length) ?_ ?_ (by rw [hbuf]; exact hlf)
  · -- a CR lies behind the LF, if there is one
    have hbehind : memchr (byte '\r') (u ++ byte '\n' :: v) = none ∨
        ∃ i, memchr (byte '\r') (u ++ byte '\n' :: v) = some i ∧ u.length < i := by
      rcases hcr with hnone | ⟨w, -, hnext⟩ | ⟨i, hi, hlt⟩
      · exact .inl hnone
      · exact .inr ⟨_, hnext, Nat.lt_succ_self _⟩
      · exact .inr ⟨i, hi, by omega⟩
    rcases hbehind with hnone | ⟨i, hi, hlt⟩
    · simp only [locateEol, hmode, hpeek, hlf, hnone]
    · simp only [locateEol, hmode, hpeek, hlf, hi]
      rw [if_neg (by omega)]
  · rw [hmode]
    refine .detectUnix (.inl ?_)
    rw [hbuf, append_assoc, fromLineEnd_append hu, cons_append, fromLineEnd_cons (by decide)]
    rfl

/-- The search finds the end of the line, or there is none in the buffer. -/
theorem locateEol_spec (s : PhpStream) (rest : List UInt8) : s.Located rest ∨
      s.locateEol = (none, s.flags.eol) ∧ s.flags.eol.stop ∉ s.buffered ∧
        (s.flags.eol = .detect → ∀ b ∈ s.buffered, isLineEnd b = false) := by
  cases hmode : s.flags.eol with
  | detect =>
    rcases lineEnd_cases s.buffered with hnone | ⟨u, b, v, hbuf, hu, hb⟩
    · have hcr := memchr_of_not_mem (not_mem_of_no_lineEnd hnone (b := byte '\r') (by decide))
      have hlf := memchr_of_not_mem (not_mem_of_no_lineEnd hnone (b := byte '\n') (by decide))
      refine .inr ⟨?_, not_mem_of_no_lineEnd hnone (by decide), fun _ => hnone⟩
      rw [buffered] at hcr hlf
      simp only [locateEol, hmode, hcr, hlf]
    · rcases isLineEnd_iff.mp hb with rfl | rfl
      · exact .inl (locateEol_detect_cr hmode hbuf hu rest)
      · exact .inl (locateEol_detect_lf hmode hbuf hu rest)
  | mac | unix =>
    have heq : s.locateEol = (memchr s.flags.eol.stop s.buffered, s.flags.eol) := by
      simp only [locateEol, hmode, buffered]
      rfl
    rw [hmode] at heq
    by_cases hmem : s.flags.eol.stop ∈ s.buffered
    · rw [hmode] at hmem
      rw [memchr_some hmem] at heq
      refine .inl (.of_eq heq ?_ (memchr_some hmem))
      rw [hmode]
      constructor
    · rw [hmode] at hmem
      rw [memchr_of_not_mem hmem] at heq
      exact .inr ⟨heq, hmem, by rintro ⟨⟩⟩

namespace LineBuffer

/-- The part of a line for which there is room. -/
def cut : LineBuffer → List UInt8 → List UInt8
  | growing, l => l
  | given maxlen, l => l.take (maxlen - 1)

theorem cut_nil (buf : LineBuffer) : buf.cut [] = [] := by
  cases buf with
  | growing => rfl
  | given maxlen => exact take_nil

/-- A buffer for which nothing is to be read has no room. -/
theorem cut_of_toread {chunk : Nat} (hchunk : 0 < chunk)
    (h : buf.toread chunk = 0) (l : List UInt8) : buf.cut l = [] := by
  cases buf with
  | growing => exact absurd h (ne_of_gt hchunk)
  | given maxlen =>
    rw [toread] at h
    have hzero : maxlen - 1 = 0 := by omega
    rw [cut, hzero, take_zero]

theorem clip_le (buf : LineBuffer) (n : Nat) (done : Bool) : (buf.clip n done).1 ≤ n := by
  cases buf with
  | growing => exact le_rfl
  | given maxlen =>
    rw [clip]
    split
    · assumption
    · exact le_rfl

theorem cut_take (buf : LineBuffer) (n : Nat) (done : Bool)
    (l : List UInt8) : buf.cut (l.take n) = l.take (buf.clip n done).1 := by
  cases buf with
  | growing => rfl
  | given maxlen =>
    rw [cut, take_take, clip]
    split <;> congr 1 <;> omega

theorem clip_true (buf : LineBuffer) (n : Nat) : (buf.clip n true).2 = true := by
  cases buf with
  | growing => rfl
  | given maxlen =>
    rw [clip]
    split <;> rfl

/-- A line that is not done goes on in the room that is left. -/
theorem cut_append (h : (buf.clip u.length false).2 = false) (l : List UInt8) :
    (buf.clip u.length false).1 = u.length ∧ buf.cut (u ++ l) = u ++ (buf.advance u.length).cut l ∧
      (buf ≠ .given 0 → buf.advance u.length ≠ .given 0) := by
  cases buf with
  | growing => exact ⟨rfl, rfl, fun h => h⟩
  | given maxlen =>
    rw [clip] at h ⊢
    split at h
    · nomatch h
    · next hlt =>
        rw [if_neg hlt, cut, advance, cut, take_append, take_of_length_le (by omega)]
        refine ⟨rfl, ?_, fun _ h => ?_⟩
        · congr 2
          omega
        · have := LineBuffer.given.inj h
          omega

theorem cut_of_done (h : (buf.clip u.length false).2 = true) (l : List UInt8) :
    buf.cut (u ++ l) = u.take (buf.clip u.length false).1 := by
  cases buf with
  | growing => nomatch h
  | given maxlen =>
    rw [clip] at h ⊢
    split at h
    · next hle =>
        rw [if_pos hle, cut, take_append_of_le_length hle]
    · nomatch h

end LineBuffer

/-- What `_php_stream_get_line` and its loop do: the bytes up to the end of
the line are taken, as far as there is room. -/
structure LineOk (s : PhpStream) (p : Nat) (buf : LineBuffer)
    (l : List UInt8) (s' : PhpStream) : Prop where
  takes : Takes true s p l s'
  flags : s'.flags = { s.flags with eol := s'.flags.eol }
  line : l = buf.cut (upTo s'.flags.eol.stop (s.file.data.drop p))
  mode : s.flags.eol.Chooses (s.file.data.drop p) s'.flags.eol ∨
    s'.flags.eol = s.flags.eol ∧ l = buf.cut (s.file.data.drop p) ∧ ∀ b ∈ l, isLineEnd b = false
  quiet : s.readfilters = [] → s.Quiet → s'.Quiet

theorem quiet_consume (h : s.Quiet) (m : EolMode) (n : Nat) :
    ({ s with flags.eol := m }.consume n).Quiet :=
  quiet_skip h n

theorem lineOk_located (h : s.At p) (buf : LineBuffer) (hloc : s.Located s.file.rest) {n : Nat}
    (hn : s.locateEol.1 = some n) : LineOk s p buf (s.peek (buf.clip (n + 1) true).1)
      ({ s with flags.eol := s.locateEol.2 }.consume (buf.clip (n + 1) true).1) := by
  have hplace := hloc.place
  have hpos : (upTo s.locateEol.2.stop s.buffered).length ≠ 0 := by
    rw [length_upTo hloc.mem]
    exact Nat.succ_ne_zero _
  rw [hn, Option.some.injEq] at hplace
  have hsucc : n + 1 = (upTo s.locateEol.2.stop s.buffered).length := by
    omega
  have hle : n + 1 ≤ s.bufferedAmount := by
    rw [hsucc, ← h.length_buffered]
    exact (upTo_isPrefix _ _).length_le
  have hclip := le_trans (buf.clip_le (n + 1) true) hle
  have htake := prefix_iff_eq_take.mp (upTo_isPrefix s.locateEol.2.stop s.buffered)
  refine ⟨takes_consume h hclip _, rfl, ?_, .inl ?_, fun _ hq => quiet_consume hq _ _⟩
  · change _ = buf.cut (upTo s.locateEol.2.stop _)
    rw [← h.ahead, upTo_append_of_mem hloc.mem, htake, ← hsucc,
      buf.cut_take _ true, peek_eq_take hclip]
  · have hchooses := hloc.chooses
    rw [h.ahead] at hchooses
    exact hchooses

/-- There is no end of a line in the buffer, and the line is full. -/
theorem lineOk_full (h : s.At p) (hnot : s.flags.eol.stop ∉ s.buffered)
    (hdetect : s.flags.eol = .detect → ∀ b ∈ s.buffered, isLineEnd b = false)
    (hdone : (buf.clip s.bufferedAmount false).2 = true) :
    LineOk s p buf (s.peek (buf.clip s.bufferedAmount false).1)
      ({ s with flags.eol := s.flags.eol }.consume (buf.clip s.bufferedAmount false).1) := by
  have hle := buf.clip_le s.bufferedAmount false
  have hpeek := peek_eq_take hle
  rw [← h.length_buffered] at hdone
  have hcut : ∀ l, buf.cut (s.buffered ++ l) = s.peek (buf.clip s.bufferedAmount false).1 := by
    intro l
    rw [LineBuffer.cut_of_done hdone, hpeek, h.length_buffered]
  refine ⟨takes_consume h hle _, rfl, ?_, ?_, fun _ hq => quiet_consume hq _ _⟩
  · change _ = buf.cut (upTo s.flags.eol.stop _)
    rw [← h.ahead, upTo_append_of_not_mem hnot, hcut]
  · by_cases hmode : s.flags.eol = .detect
    · refine .inr ⟨rfl, ?_, fun b hb => ?_⟩
      · rw [← h.ahead, hcut]
      · rw [hpeek] at hb
        exact hdetect hmode b (mem_of_mem_take hb)
    · exact .inl (.of_known hmode _)

/-- There is no end of a line in the bytes `u`, and the line goes on. -/
theorem LineOk.append {t : PhpStream} (hu : Takes true s p u t) (hflags : t.flags = s.flags)
    (hquiet : s.readfilters = [] → s.Quiet → t.Quiet) (hnot : s.flags.eol.stop ∉ u)
    (hdetect : s.flags.eol = .detect → ∀ b ∈ u, isLineEnd b = false)
    (hdone : (buf.clip u.length false).2 = false)
    (h : LineOk t (p + u.length) (buf.advance u.length) l s') : LineOk s p buf (u ++ l) s' := by
  have hdrop : s.file.data.drop p = u ++ s.file.data.drop (p + u.length) := by
    have hb := hu.bytes
    calc s.file.data.drop p = (s.file.data.drop p).take u.length ++
            (s.file.data.drop p).drop u.length :=
          (take_append_drop _ _).symm
      _ = u ++ s.file.data.drop (p + u.length) := by
          rw [← hb, drop_drop]
  have hmode := h.mode
  have hline := h.line
  rw [hflags, hu.frame.data] at hmode
  rw [hu.frame.data] at hline
  have hstop : s'.flags.eol.stop ∉ u := by
    by_cases hm : s.flags.eol = .detect
    · exact not_mem_of_no_lineEnd (hdetect hm) (EolMode.isLineEnd_stop _)
    · have hsame : s'.flags.eol = s.flags.eol := by
        rcases hmode with hchooses | ⟨heq, -⟩
        · exact hchooses.eq_of_known hm
        · exact heq
      rw [hsame]
      exact hnot
  refine ⟨hu.trans h.takes, ?_, ?_, ?_, ?_⟩
  · rw [h.flags, hflags]
  · rw [hdrop, upTo_append_of_not_mem hstop, (LineBuffer.cut_append hdone _).2.1, ← hline]
  · by_cases hm : s.flags.eol = .detect
    · rcases hmode with hchooses | ⟨heq, hcut, hno⟩
      · refine .inl ?_
        rw [hdrop]
        exact hchooses.append (hdetect hm)
      · refine .inr ⟨heq, ?_, ?_⟩
        · rw [hdrop, (LineBuffer.cut_append hdone _).2.1, ← hcut]
        · intro b hb
          exact (mem_append.mp hb).elim (hdetect hm b) (hno b)
    · rcases hmode with hchooses | ⟨heq, -⟩
      · rw [hchooses.eq_of_known hm]
        exact .inl (.of_known hm _)
      · rw [heq]
        exact .inl (.of_known hm _)
  · intro hnone hq
    exact h.quiet (hu.frame.readfilters.trans hnone) (hquiet hnone hq)

theorem LineOk.after_refill {t : PhpStream} (ht : Takes true s p [] t) (hflags : t.flags = s.flags)
    (hquiet : s.readfilters = [] → s.Quiet → t.Quiet)
    (h : LineOk t p buf l s') : LineOk s p buf l s' := by
  have hline := h.line
  have hmode := h.mode
  rw [ht.frame.data] at hline hmode
  rw [hflags] at hmode
  refine ⟨ht.trans h.takes, ?_, hline, hmode, fun hnone hq =>
    h.quiet (ht.frame.readfilters.trans hnone) (hquiet hnone hq)⟩
  rw [h.flags, hflags]

theorem lineOk_nothing (ht : Takes true s p [] s') (hflags : s'.flags = s.flags)
    (hquiet : s.readfilters = [] → s.Quiet → s'.Quiet)
    (hnil : ∀ l, l <+: s.file.data.drop p → buf.cut l = []) : LineOk s p buf [] s' := by
  refine ⟨ht, by rw [hflags], ?_, ?_, hquiet⟩
  · exact (hnil _ (upTo_isPrefix _ _)).symm
  · rw [hflags]
    by_cases hm : s.flags.eol = .detect
    · exact .inr ⟨rfl, (hnil _ (prefix_refl _)).symm, fun _ hb => absurd hb not_mem_nil⟩
    · exact .inl (.of_known hm _)

theorem getLineLoop_ok (hs : s.Unchanging) (h : s.At p)
    (hbuf : buf ≠ .given 0) {fuel : Nat} (hfuel : 2 * s.file.rest.length +
      (if 0 < s.bufferedAmount then 2 else 1) ≤ fuel) (copied : List UInt8) :
    ∃ l s', getLineLoop fuel s buf copied = some (copied ++ l, s') ∧ LineOk s p buf l s' := by
  induction fuel generalizing s p buf copied with
  | zero => split at hfuel <;> omega
  | succ fuel ih =>
    rw [getLineLoop]
    split
    · next hpos =>
        rw [if_pos hpos] at hfuel
        rcases locateEol_spec s s.file.rest with hloc | ⟨heq, hnot, hdet⟩
        · have hplace := hloc.place
          simp only [hplace, LineBuffer.clip_true, ↓reduceIte]
          exact ⟨_, _, rfl, lineOk_located h buf hloc hplace⟩
        · simp only [heq]
          cases hdone : (buf.clip s.bufferedAmount false).2 with
          | true => exact ⟨_, _, if_pos rfl, lineOk_full h hnot hdet hdone⟩
          | false =>
            have hlen := h.length_buffered
            have hall := hdone
            rw [← hlen] at hall
            obtain ⟨hn, -, hroom⟩ := LineBuffer.cut_append hall []
            rw [hlen] at hn
            have htakes := takes_consume h le_rfl s.flags
            have hgone : ({ s with flags := s.flags }.consume
                s.bufferedAmount).bufferedAmount = 0 := by
              simp only [bufferedAmount, consume]
              omega
            rw [if_neg Bool.false_ne_true, hn]
            obtain ⟨l, s', hrun, hok⟩ := ih (htakes.frame.unchanging hs) htakes.behind (hroom hbuf)
              (by rw [if_neg (Nat.not_lt_of_le (le_of_eq hgone))]
                  exact Nat.le_of_lt_succ hfuel)
              (copied ++ s.buffered)
            refine ⟨s.buffered ++ l, s', ?_, ?_⟩
            · rw [← append_assoc, ← hrun, hlen]
              rfl
            · exact hok.append htakes rfl (fun _ hq => quiet_consume hq _ _) hnot hdet hall
    · next hzero =>
        have hempty : s.bufferedAmount = 0 := by omega
        rw [if_neg hzero] at hfuel
        split
        · next heof =>
            have hend : s.file.data.drop p = [] := by
              rw [← h.rest_eq_of_empty hempty]
              exact h.rest_of_eof heof
            refine ⟨[], s, by rw [append_nil], lineOk_nothing (.refl h)
              rfl (fun _ hq => hq) fun l hl => ?_⟩
            rw [hend] at hl
            rw [prefix_nil.mp hl, LineBuffer.cut_nil]
        · have hr := fillReadBuffer_refills hs h (fun _ => hempty) (buf.toread s.chunkSize.val)
          have hat := hr.takes.behind
          have htakes : Takes true s p [] (s.fillReadBuffer (buf.toread s.chunkSize.val)) :=
            ⟨hr.takes.frame, hat, rfl, hr.takes.position⟩
          by_cases hnone : (s.fillReadBuffer (buf.toread s.chunkSize.val)).bufferedAmount = 0
          · rw [if_pos hnone]
            refine ⟨[], _, by rw [append_nil], lineOk_nothing htakes
              hr.flags (fun hf _ => hr.quiet hf hempty) fun l hl => ?_⟩
            by_cases hread : buf.toread s.chunkSize.val = 0
            · exact LineBuffer.cut_of_toread s.chunkSize.pos hread l
            · have heof := hr.progress (by omega) (hnone.trans hempty.symm)
              have hrest := hat.rest_of_eof heof
              rw [hat.rest_eq_of_empty hnone, hr.takes.frame.data] at hrest
              have hnil : l = [] := prefix_nil.mp (hrest ▸ hl)
              rw [hnil, LineBuffer.cut_nil]
          · rw [if_neg hnone]
            have hsum := h.amount_add_rest
            have hsum' := hat.amount_add_rest
            rw [hr.takes.frame.data, length_nil, add_zero] at hsum'
            obtain ⟨l, s', hrun, hok⟩ := ih (hr.takes.frame.unchanging hs)
              hat hbuf (by split <;> omega) copied
            exact ⟨l, s', hrun, hok.after_refill htakes hr.flags fun hf _ => hr.quiet hf hempty⟩

/-- `_php_stream_get_line`. -/
theorem getLine_ok (hs : s.Unchanging) (h : s.At p) (hbuf : buf ≠ .given 0) :
    ∃ l s', s.getLine buf = some (if l = [] then none else some l, s') ∧ LineOk s p buf l s' := by
  have hfuel : 2 * s.file.rest.length + (if 0 < s.bufferedAmount then 2 else 1) ≤
        2 * s.file.rest.length + 3 := by split <;> omega
  obtain ⟨l, s', hrun, hok⟩ := getLineLoop_ok hs h hbuf hfuel []
  refine ⟨l, s', ?_, hok⟩
  rw [getLine, if_neg hbuf, hrun]
  rfl

end PhpStream

end PhpEngine

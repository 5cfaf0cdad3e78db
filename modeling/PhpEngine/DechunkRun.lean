/-
The filter as a machine that reads byte by byte.  `php_dechunk` acts as this
machine on every buffer, so that it does not matter where the input is cut.
-/
import PhpEngine.Dechunk

namespace PhpEngine

open List

/-- Where the filter is in the coding.  A size is kept only where it is still
used. -/
inductive Chunking where
  | sizeStart
  | size (n : Nat)
  | sizeExt (n : Nat)
  | sizeCr (n : Nat)
  | sizeLf (n : Nat)
  | body (n : Nat)
  | bodyCr
  | bodyLf
  | trailer
  | error
deriving Repr, DecidableEq

namespace Chunking

/-- The line feed behind a body. -/
def readBodyLf (b : UInt8) : Chunking × List UInt8 :=
  if b = byte '\n' then (.sizeStart, []) else (.error, [b])

def readBodyCr (b : UInt8) : Chunking × List UInt8 :=
  if b = byte '\r' then (.bodyLf, []) else readBodyLf b

/-- The line feed behind a size. -/
def readSizeLf (n : Nat) (b : UInt8) : Chunking × List UInt8 :=
  if b = byte '\n' then (if n = 0 then .trailer else .body n, [])
  else (.error, [b])

def readSizeCr (n : Nat) (b : UInt8) : Chunking × List UInt8 :=
  if b = byte '\r' then (.sizeLf n, []) else readSizeLf n b

def readSizeExt (n : Nat) (b : UInt8) : Chunking × List UInt8 :=
  if b ≠ byte '\r' ∧ b ≠ byte '\n' then (.sizeExt n, []) else readSizeCr n b

def read : Chunking → UInt8 → Chunking × List UInt8
  | .sizeStart, b =>
    match chunkDigit b with
    | some d => (.size (d % ulongMod), [])
    | none => (.error, [b])
  | .size n, b =>
    match chunkDigit b with
    | some d => (.size ((n * 16 + d) % ulongMod), [])
    | none => readSizeExt n b
  | .sizeExt n, b => readSizeExt n b
  | .sizeCr n, b => readSizeCr n b
  | .sizeLf n, b => readSizeLf n b
  | .body 0, b => readBodyCr b
  | .body 1, b => (.bodyCr, [b])
  | .body (n + 2), b => (.body (n + 1), [b])
  | .bodyCr, b => readBodyCr b
  | .bodyLf, b => readBodyLf b
  | .trailer, _ => (.trailer, [])
  | .error, b => (.error, [b])

end Chunking

/-- What the data of the filter stand for. -/
def ChunkedFilterData.view (d : ChunkedFilterData) : Chunking :=
  match d.state with
  | .sizeStart => .sizeStart
  | .size => .size d.chunkSize
  | .sizeExt => .sizeExt d.chunkSize
  | .sizeCr => .sizeCr d.chunkSize
  | .sizeLf => .sizeLf d.chunkSize
  | .body => .body d.chunkSize
  | .bodyCr => .bodyCr
  | .bodyLf => .bodyLf
  | .trailer => .trailer
  | .error => .error

def readChunks : Chunking → List UInt8 → Chunking × List UInt8 :=
  feed Chunking.read

theorem readChunks_nil (c : Chunking) : readChunks c [] = (c, []) := rfl

theorem readChunks_cons (c : Chunking) (b : UInt8) (r : List UInt8) :
    readChunks c (b :: r) = ((readChunks (c.read b).1 r).1,
      (c.read b).2 ++ (readChunks (c.read b).1 r).2) := rfl

theorem readChunks_trailer (l : List UInt8) : readChunks .trailer l = (.trailer, []) := by
  induction l with
  | nil => rfl
  | cons b l ih =>
    rw [readChunks_cons, Chunking.read, ih]
    rfl

theorem readChunks_error (l : List UInt8) : readChunks .error l = (.error, l) := by
  induction l with
  | nil => rfl
  | cons b l ih =>
    rw [readChunks_cons, Chunking.read, ih]
    rfl

/-- `e` is at the start of the buffer and `r` is still to be read. -/
structure DechunkAt (stop : Nat) (s : DechunkFrame) (e r : List UInt8) :
    Prop where
  emitted : HoldsAt s.buf 0 e
  out : s.out = e.length
  outLen : s.outLen = e.length
  rest : HoldsAt s.buf s.p r
  stop : s.p + r.length = stop
  le : s.out ≤ s.p

/-- How a case that starts as `c` ends: the machine gives the same from what
is left, or the call is over.  A turn without a byte finds an error. -/
def Leads (stop : Nat) (c : Chunking) (e r : List UInt8) : DechunkFlow → Prop
  | .again s => ∃ e' r', DechunkAt stop s e' r' ∧
      ((readChunks c r).1, e ++ (readChunks c r).2) =
        ((readChunks s.data.view r').1, e' ++ (readChunks s.data.view r').2) ∧
      (r'.length < r.length ∨ r'.length = r.length ∧ s.data.state = .error)
  | .done s => HoldsAt s.buf 0 (e ++ (readChunks c r).2) ∧
      s.outLen = (e ++ (readChunks c r).2).length ∧
      s.data.view = (readChunks c r).1

section Cases

variable {stop : Nat} {s : DechunkFrame} {e r : List UInt8} {b : UInt8}
  {c c' : Chunking} {flow : DechunkFlow}

theorem DechunkAt.head (h : DechunkAt stop s e (b :: r)) : s.buf s.p = b ∧ s.p < stop := by
  have hstop := h.stop
  rw [length_cons] at hstop
  exact ⟨h.rest.1, by omega⟩

theorem DechunkAt.skip (h : DechunkAt stop s e (b :: r)) : DechunkAt stop s.skip e r := by
  have hstop := h.stop
  have hle := h.le
  rw [length_cons] at hstop
  refine ⟨h.emitted, h.out, h.outLen, h.rest.2, ?_, ?_⟩
  · simp only [DechunkFrame.skip]
    omega
  · simp only [DechunkFrame.skip]
    omega

theorem DechunkAt.data (h : DechunkAt stop s e r) (d : ChunkedFilterData) :
    DechunkAt stop { s with data := d } e r :=
  ⟨h.emitted, h.out, h.outLen, h.rest, h.stop, h.le⟩

theorem DechunkAt.atEnd (h : DechunkAt stop s e []) : s.p = stop :=
  h.stop

theorem DechunkAt.end_iff (h : DechunkAt stop s e (b :: r)) : s.p + 1 = stop ↔ r = [] := by
  have hstop := h.stop
  rw [length_cons] at hstop
  rw [← length_eq_zero_iff]
  omega

/-- A case that goes on as another one, which has `l` more to its output. -/
theorem Leads.of_next {l r' : List UInt8} (h : Leads stop c' (e ++ l) r' flow)
    (hread : readChunks c r = ((readChunks c' r').1, l ++ (readChunks c' r').2))
    (hle : r'.length ≤ r.length) : Leads stop c e r flow := by
  cases flow with
  | again s =>
    obtain ⟨e', r'', hat, heq, hlt⟩ := h
    refine ⟨e', r'', hat, ?_, ?_⟩
    · rw [hread, ← heq, append_assoc]
    · rcases hlt with hlt | ⟨heq, herror⟩
      · exact .inl (lt_of_lt_of_le hlt hle)
      · rcases Nat.lt_or_eq_of_le hle with hlt | hsame
        · exact .inl (heq ▸ hlt)
        · exact .inr ⟨heq.trans hsame, herror⟩
  | done s =>
    rw [Leads, hread, ← append_assoc]
    exact h

/-- A byte that is read without output, and then the next case. -/
theorem Leads.of_read (h : Leads stop c' e r flow)
    (hread : c.read b = (c', [])) : Leads stop c e (b :: r) flow := by
  refine Leads.of_next (l := []) (by rwa [append_nil]) ?_ (by simp)
  rw [readChunks_cons, hread]

theorem Leads.of_same (h : Leads stop c' e (b :: r) flow)
    (hread : c.read b = c'.read b) : Leads stop c e (b :: r) flow := by
  refine Leads.of_next (l := []) (by rwa [append_nil]) ?_ le_rfl
  rw [readChunks_cons, readChunks_cons, hread]
  rfl

theorem Leads.of_last {d : ChunkedFilterData}
    (h : DechunkAt stop s e [b]) (hread : c.read b = (d.view, [])) :
    Leads stop c e [b] (.done { s.skip with data := d }) := by
  have hfeed : readChunks c [b] = (d.view, []) := by
    rw [readChunks_cons, hread, readChunks_nil]
    rfl
  rw [Leads, hfeed, append_nil]
  exact ⟨h.emitted, h.outLen, rfl⟩

section

variable (h : DechunkAt stop s e (b :: r))
include h

theorem Leads.of_again {d : ChunkedFilterData} (hread : c.read b = (d.view, [])) :
    Leads stop c e (b :: r) (.again { s.skip with data := d }) := by
  refine ⟨e, r, h.skip.data d, ?_, .inl (by simp)⟩
  rw [readChunks_cons, hread]
  rfl

/-- A byte that is not expected: the turn ends in front of it. -/
theorem Leads.of_error (hread : c.read b = (.error, [b])) :
    Leads stop c e (b :: r) (.again (s.setState .error)) := by
  refine ⟨e, b :: r, h.data _, ?_, .inr ⟨rfl, rfl⟩⟩
  have hview : (s.setState .error).data.view = .error := rfl
  rw [hview, readChunks_cons, readChunks_cons, hread]
  rfl

theorem caseBodyLf_leads :
    Leads stop .bodyLf e (b :: r) (caseBodyLf s) := by
  rw [caseBodyLf, h.head.1]
  by_cases hlf : b = byte '\n'
  · rw [if_pos hlf]
    refine Leads.of_again h ?_
    rw [Chunking.read, Chunking.readBodyLf, if_pos hlf]
    rfl
  · rw [if_neg hlf]
    refine Leads.of_error h ?_
    rw [Chunking.read, Chunking.readBodyLf, if_neg hlf]

theorem caseBodyCr_leads :
    Leads stop .bodyCr e (b :: r) (caseBodyCr stop s) := by
  rw [caseBodyCr, h.head.1]
  by_cases hcr : b = byte '\r'
  · have hread : Chunking.bodyCr.read b = (.bodyLf, []) := by
      rw [Chunking.read, Chunking.readBodyCr, if_pos hcr]
    rw [if_pos hcr]
    cases r with
    | nil =>
      rw [if_pos (h.end_iff.mpr rfl)]
      exact Leads.of_last h hread
    | cons b' r =>
      rw [if_neg (by simp [h.end_iff])]
      exact (caseBodyLf_leads h.skip).of_read hread
  · rw [if_neg hcr]
    refine (caseBodyLf_leads h).of_same ?_
    rw [Chunking.read, Chunking.readBodyCr, if_neg hcr, Chunking.read]

end

theorem HoldsAt.congr {mem mem' : Nat → UInt8} {p p' : Nat} {l : List UInt8} (h : HoldsAt mem p l)
    (hsame : ∀ i, i < l.length → mem' (p' + i) = mem (p + i)) : HoldsAt mem' p' l := by
  induction l generalizing p p' with
  | nil => trivial
  | cons b l ih =>
    refine ⟨?_, ih h.2 ?_⟩
    · have hfirst := hsame 0 (by simp)
      rw [add_zero, add_zero] at hfirst
      rw [hfirst]
      exact h.1
    · intro i hi
      have hnext := hsame (i + 1) (by simpa using hi)
      rw [add_assoc, add_assoc, add_comm 1 i]
      exact hnext

theorem DechunkAt.move {l : List UInt8} (h : DechunkAt stop s e (l ++ r)) :
    HoldsAt (s.move l.length).buf 0 (e ++ l) ∧
      HoldsAt (s.move l.length).buf (s.p + l.length) r := by
  have hrest := (holdsAt_append l r).mp h.rest
  have hle := h.le
  have hout := h.out
  rw [holdsAt_append]
  by_cases hp : s.p ≠ s.out
  · have hbuf : (s.move l.length).buf = memmove s.buf s.out s.p l.length :=
      if_pos hp
    rw [hbuf]
    refine ⟨⟨h.emitted.congr ?_, hrest.1.congr ?_⟩, hrest.2.congr ?_⟩
    · intro i hi
      rw [memmove, if_neg (by omega)]
    · intro i hi
      rw [memmove, if_pos (by omega)]
      congr 1
      omega
    · intro i _
      rw [memmove, if_neg (by omega)]
  · have hbuf : (s.move l.length).buf = s.buf := if_neg hp
    rw [hbuf]
    refine ⟨⟨h.emitted, hrest.1.congr ?_⟩, hrest.2⟩
    intro i _
    congr 1
    omega

theorem readChunks_body (l r : List UInt8) (hl : 0 < l.length) :
    readChunks (.body l.length) (l ++ r) =
      ((readChunks .bodyCr r).1, l ++ (readChunks .bodyCr r).2) := by
  induction l with
  | nil => simp at hl
  | cons b l ih =>
    cases l with
    | nil => rfl
    | cons b' l =>
      have hrest := ih (by simp)
      simp only [length_cons] at hrest ⊢
      rw [cons_append, readChunks_cons, Chunking.read, hrest]
      rfl

theorem readChunks_body_part (l : List UInt8) (n : Nat) :
    readChunks (.body (l.length + (n + 1))) l = (.body (n + 1), l) := by
  induction l with
  | nil =>
    rw [length_nil, zero_add]
    rfl
  | cons b l ih =>
    have hlength : (b :: l).length + (n + 1) = l.length + n + 2 := by
      rw [length_cons]
      omega
    rw [readChunks_cons, hlength, Chunking.read, add_assoc l.length n 1, ih]
    rfl

theorem caseBody_leads (h : DechunkAt stop s e (b :: r)) :
    Leads stop (.body s.data.chunkSize) e (b :: r) (caseBody stop s) := by
  have hstop := h.stop
  have hlength : stop - s.p = (b :: r).length := by omega
  by_cases hle : s.data.chunkSize ≤ stop - s.p
  · simp only [caseBody, if_pos hle]
    -- The bytes of the body, and those behind them.
    obtain ⟨l, r', hlr, hl⟩ : ∃ l r' : List UInt8, b :: r = l ++ r' ∧ l.length = s.data.chunkSize :=
      ⟨(b :: r).take s.data.chunkSize, (b :: r).drop s.data.chunkSize,
        (take_append_drop _ _).symm, by
          rw [length_take]
          omega⟩
    rw [← hl]
    rw [hlr] at h
    have hmove := h.move
    have hat : DechunkAt stop { s.move l.length with
        out := s.out + l.length, p := s.p + l.length } (e ++ l) r' := by
      have hstop' := h.stop
      have hle' := h.le
      rw [length_append] at hstop'
      refine ⟨hmove.1, ?_, ?_, hmove.2, ?_, ?_⟩
      · rw [length_append, h.out]
      · rw [length_append, ← h.outLen]
        rfl
      · exact (add_assoc _ _ _).trans hstop'
      · exact Nat.add_le_add_right hle' _
    rw [hlr]
    cases r' with
    | nil =>
      have hend : s.p + l.length = stop := hat.atEnd
      have hpos : 0 < l.length := by
        rw [← append_nil l, ← hlr]
        simp
      rw [if_pos hend, Leads, readChunks_body l [] hpos, readChunks_nil]
      exact ⟨by rw [append_nil]; exact hmove.1, by rw [append_nil]; exact hat.outLen, rfl⟩
    | cons b' r' =>
      have hend : ¬ s.p + l.length = stop := ne_of_lt hat.head.2
      rw [if_neg hend]
      refine (caseBodyCr_leads hat).of_next ?_ (by simp)
      rcases Nat.eq_zero_or_pos l.length with hzero | hpos
      · rw [length_eq_zero_iff.mp hzero]
        rfl
      · exact readChunks_body l (b' :: r') hpos
  · simp only [caseBody, if_neg hle]
    have hpart : s.data.chunkSize = (b :: r).length +
        ((s.data.chunkSize - (stop - s.p) - 1) + 1) := by omega
    have hfeed := readChunks_body_part (b :: r) (s.data.chunkSize - (stop - s.p) - 1)
    rw [← hpart] at hfeed
    have hmove := (show DechunkAt stop s e ((b :: r) ++ []) by
      rwa [append_nil]).move
    rw [Leads, hfeed, hlength]
    refine ⟨hmove.1, ?_, ?_⟩
    · rw [length_append, ← h.outLen]
      rfl
    · rw [← hlength, Nat.sub_add_cancel (by omega)]
      rfl

theorem caseSizeLf_leads (h : DechunkAt stop s e (b :: r)) :
    Leads stop (.sizeLf s.data.chunkSize) e (b :: r) (caseSizeLf stop s) := by
  rw [caseSizeLf, h.head.1]
  by_cases hlf : b = byte '\n'
  · rw [if_pos hlf]
    by_cases hzero : s.data.chunkSize = 0
    · rw [if_pos hzero]
      refine Leads.of_again h ?_
      rw [Chunking.read, Chunking.readSizeLf, if_pos hlf, if_pos hzero]
      rfl
    · have hread : (Chunking.sizeLf s.data.chunkSize).read b = (.body s.data.chunkSize, []) := by
        rw [Chunking.read, Chunking.readSizeLf, if_pos hlf, if_neg hzero]
      rw [if_neg hzero]
      cases r with
      | nil =>
        rw [if_pos (h.end_iff.mpr rfl)]
        exact Leads.of_last h hread
      | cons b' r =>
        rw [if_neg (by simp [h.end_iff])]
        exact (caseBody_leads h.skip).of_read hread
  · rw [if_neg hlf]
    refine Leads.of_error h ?_
    rw [Chunking.read, Chunking.readSizeLf, if_neg hlf]

theorem caseSizeCr_leads (h : DechunkAt stop s e (b :: r)) :
    Leads stop (.sizeCr s.data.chunkSize) e (b :: r) (caseSizeCr stop s) := by
  rw [caseSizeCr, h.head.1]
  by_cases hcr : b = byte '\r'
  · have hread : (Chunking.sizeCr s.data.chunkSize).read b = (.sizeLf s.data.chunkSize, []) := by
      rw [Chunking.read, Chunking.readSizeCr, if_pos hcr]
    rw [if_pos hcr]
    cases r with
    | nil =>
      rw [if_pos (h.end_iff.mpr rfl)]
      exact Leads.of_last h hread
    | cons b' r =>
      rw [if_neg (by simp [h.end_iff])]
      exact (caseSizeLf_leads h.skip).of_read hread
  · rw [if_neg hcr]
    refine (caseSizeLf_leads h).of_same ?_
    rw [Chunking.read, Chunking.readSizeCr, if_neg hcr, Chunking.read]

/-- The extension up to its end, or to the end of the buffer. -/
theorem skipExtension_reads (h : DechunkAt stop s e r) (n : Nat) :
    ∃ r', DechunkAt stop (skipExtension r.length s) e r' ∧
      (skipExtension r.length s).data = s.data ∧
      readChunks (.sizeExt n) r = readChunks (.sizeExt n) r' ∧ r'.length ≤ r.length ∧
      ∀ b ∈ r'.head?, b = byte '\r' ∨ b = byte '\n' := by
  induction r generalizing s with
  | nil => exact ⟨[], h, rfl, rfl, le_rfl, by simp⟩
  | cons b r ih =>
    rw [length_cons, skipExtension, h.head.1]
    by_cases hskip : b ≠ byte '\r' ∧ b ≠ byte '\n'
    · rw [if_pos hskip]
      obtain ⟨r', hat, hdata, hread, hle, hend⟩ := ih h.skip
      refine ⟨r', hat, hdata, ?_, Nat.le_succ_of_le hle, hend⟩
      rw [readChunks_cons, Chunking.read, Chunking.readSizeExt, if_pos hskip]
      exact hread
    · rw [if_neg hskip]
      refine ⟨b :: r, h, rfl, rfl, le_rfl, ?_⟩
      intro b' hb'
      cases hb'
      tauto

theorem caseSizeExt_leads (h : DechunkAt stop s e r) (hstate : s.data.state = .sizeExt) :
    Leads stop (.sizeExt s.data.chunkSize) e r (caseSizeExt stop s) := by
  have hlength : stop - s.p = r.length := by
    have hstop := h.stop
    omega
  obtain ⟨r', hat, hdata, hread, hle, hend⟩ :=
    skipExtension_reads h s.data.chunkSize
  rw [caseSizeExt, hlength]
  cases r' with
  | nil =>
    rw [if_pos hat.atEnd, Leads, hread, readChunks_nil, append_nil]
    refine ⟨hat.emitted, hat.outLen, ?_⟩
    rw [hdata, ChunkedFilterData.view, hstate]
  | cons b r' =>
    have hcr := caseSizeCr_leads hat
    rw [if_neg (ne_of_lt hat.head.2)]
    rw [hdata] at hcr
    refine Leads.of_next (l := []) (by rwa [append_nil]) ?_ hle
    rw [hread, readChunks_cons, readChunks_cons, Chunking.read,
      Chunking.readSizeExt, if_neg (by have hb := hend b rfl; tauto),
      Chunking.read]
    rfl

theorem readSize_reads (h : DechunkAt stop s e r) (hstate : s.data.state = .size) :
    ∃ r', DechunkAt stop (readSize r.length s) e r' ∧ r'.length ≤ r.length ∧
      (r' = [] ∧ (readSize r.length s).data.state = .size ∧ readChunks (.size s.data.chunkSize) r =
            (.size (readSize r.length s).data.chunkSize, []) ∨
        (readSize r.length s).data.state = .sizeExt ∧
          readChunks (.size s.data.chunkSize) r = readChunks
            (.sizeExt (readSize r.length s).data.chunkSize) r' ∧ r' ≠ []) := by
  induction r generalizing s with
  | nil => exact ⟨[], h, le_rfl, .inl ⟨rfl, hstate, rfl⟩⟩
  | cons b r ih =>
    rw [length_cons, readSize, h.head.1]
    cases hdigit : chunkDigit b with
    | some d =>
      obtain ⟨r', hat, hle, hcase⟩ := ih (h.skip.data
        ⟨.size, (s.data.chunkSize * 16 + d) % ulongMod⟩) rfl
      have hread : readChunks (.size s.data.chunkSize) (b :: r) =
          readChunks (.size ((s.data.chunkSize * 16 + d) % ulongMod)) r := by
        rw [readChunks_cons, Chunking.read, hdigit]
        rfl
      rw [hread]
      exact ⟨r', hat, Nat.le_succ_of_le hle, hcase⟩
    | none =>
      rw [if_neg (by rw [hstate]; simp)]
      refine ⟨b :: r, h.data _, le_rfl, .inr ⟨rfl, ?_, by simp⟩⟩
      rw [readChunks_cons, readChunks_cons, Chunking.read, hdigit, Chunking.read]
      rfl

theorem caseSize_of_readSize {c : Chunking} {s' : DechunkFrame}
    {r' : List UInt8} (hread' : readSize (stop - s.p) s = s')
    (hat : DechunkAt stop s' e r') (hle : r'.length ≤ r.length)
    (hcase : r' = [] ∧ s'.data.state = .size ∧ readChunks c r = (.size s'.data.chunkSize, []) ∨
      s'.data.state = .sizeExt ∧ readChunks c r = readChunks (.sizeExt s'.data.chunkSize) r' ∧
        r' ≠ []) : Leads stop c e r (caseSize stop s) := by
  rw [caseSize, hread']
  rcases hcase with ⟨rfl, hstate, hread⟩ | ⟨hstate, hread, hrest⟩
  · rw [if_neg (by rw [hstate]; simp), if_pos hat.atEnd, Leads, hread, append_nil]
    refine ⟨hat.emitted, hat.outLen, ?_⟩
    rw [ChunkedFilterData.view, hstate]
  · obtain ⟨b', r', rfl⟩ := exists_cons_of_ne_nil hrest
    rw [if_neg (by rw [hstate]; simp), if_neg (ne_of_lt hat.head.2)]
    refine Leads.of_next (l := []) ?_ hread hle
    rw [append_nil]
    exact caseSizeExt_leads hat hstate

theorem caseSize_leads (h : DechunkAt stop s e r) (hstate : s.data.state = .size) :
    Leads stop (.size s.data.chunkSize) e r (caseSize stop s) := by
  have hlength : stop - s.p = r.length := by
    have hstop := h.stop
    omega
  obtain ⟨r', hat, hle, hcase⟩ := readSize_reads h hstate
  exact caseSize_of_readSize (by rw [hlength]) hat hle hcase

theorem caseSizeStart_leads (h : DechunkAt stop s e (b :: r))
    (hstate : s.data.state = .sizeStart) (hzero : s.data.chunkSize = 0) :
    Leads stop .sizeStart e (b :: r) (caseSize stop s) := by
  have hlength : stop - s.p = r.length + 1 := by
    have hstop := h.stop
    rw [length_cons] at hstop
    omega
  have hread : readSize (stop - s.p) s = match chunkDigit b with
      | some d => readSize r.length ((s.setSize
          ((s.data.chunkSize * 16 + d) % ulongMod)).setState .size).skip
      | none => s.setState .error := by
    rw [hlength, readSize, h.head.1]
    cases chunkDigit b with
    | none => exact if_pos hstate
    | some d => rfl
  cases hdigit : chunkDigit b with
  | none =>
    have hread : readSize (stop - s.p) s = s.setState .error := by
      rw [hread, hdigit]
    have hstate' : (s.setState .error).data.state = .error := rfl
    rw [caseSize, hread, if_pos hstate']
    refine Leads.of_error h ?_
    rw [Chunking.read, hdigit]
  | some d =>
    rw [hdigit] at hread
    obtain ⟨r', hat, hle, hcase⟩ := readSize_reads (h.skip.data
      ⟨.size, (s.data.chunkSize * 16 + d) % ulongMod⟩) rfl
    refine caseSize_of_readSize hread hat (Nat.le_succ_of_le hle) ?_
    have hfirst : readChunks .sizeStart (b :: r) = readChunks
        (.size ((s.data.chunkSize * 16 + d) % ulongMod)) r := by
      rw [readChunks_cons, Chunking.read, hdigit, hzero, Nat.zero_mul, zero_add]
      rfl
    rw [hfirst]
    exact hcase

theorem caseTrailer_leads (h : DechunkAt stop s e (b :: r)) (hstate : s.data.state = .trailer) :
    Leads stop .trailer e (b :: r) (caseTrailer stop s) := by
  have hle := h.le
  have hlt := h.head.2
  refine ⟨e, [], ⟨h.emitted, h.out, h.outLen, trivial, rfl, ?_⟩, ?_, .inl (by simp)⟩
  · simp only
    omega
  · rw [readChunks_trailer, ChunkedFilterData.view, hstate]
    rfl

theorem caseError_leads (h : DechunkAt stop s e r) (hstate : s.data.state = .error) :
    Leads stop .error e r (caseError stop s) := by
  have hlength : stop - s.p = r.length := by
    have hstop := h.stop
    omega
  have hmove := (show DechunkAt stop s e (r ++ []) by
    rwa [append_nil]).move
  rw [caseError, Leads, readChunks_error, hlength]
  refine ⟨hmove.1, ?_, ?_⟩
  · rw [length_append, ← h.outLen]
    rfl
  · change s.data.view = _
    rw [ChunkedFilterData.view, hstate]

theorem dechunkSwitch_leads (h : DechunkAt stop s e (b :: r)) :
    Leads stop s.data.view e (b :: r) (dechunkSwitch stop s) := by
  rw [dechunkSwitch, ChunkedFilterData.view]
  cases hstate : s.data.state with
  | sizeStart => exact caseSizeStart_leads (h.data _) hstate rfl
  | size => exact caseSize_leads h hstate
  | sizeExt => exact caseSizeExt_leads h hstate
  | sizeCr => exact caseSizeCr_leads h
  | sizeLf => exact caseSizeLf_leads h
  | body => exact caseBody_leads h
  | bodyCr => exact caseBodyCr_leads h
  | bodyLf => exact caseBodyLf_leads h
  | trailer => exact caseTrailer_leads h hstate
  | error => exact caseError_leads h hstate

/-- The turns that are left: one for each byte, and one for an error. -/
def turns (s : DechunkFrame) (r : List UInt8) : Nat :=
  r.length + if s.data.state = .error then 0 else 1

theorem dechunkLoop_reads {fuel : Nat} (h : DechunkAt stop s e r) (hfuel : turns s r < fuel) :
    ∃ s', dechunkLoop stop fuel s = some s' ∧ HoldsAt s'.buf 0 (e ++ (readChunks s.data.view r).2) ∧
      s'.outLen = (e ++ (readChunks s.data.view r).2).length ∧
      s'.data.view = (readChunks s.data.view r).1 := by
  induction fuel generalizing s e r with
  | zero => exact absurd hfuel (Nat.not_lt_zero _)
  | succ fuel ih =>
    rw [dechunkLoop]
    cases r with
    | nil =>
      have hstop := h.atEnd
      rw [if_neg (by omega)]
      refine ⟨s, rfl, ?_, ?_, rfl⟩
      · rw [readChunks_nil, append_nil]
        exact h.emitted
      · rw [readChunks_nil, append_nil]
        exact h.outLen
    | cons b r =>
      rw [if_pos h.head.2]
      have hleads := dechunkSwitch_leads h
      cases hflow : dechunkSwitch stop s with
      | done s' =>
        rw [hflow] at hleads
        exact ⟨s', rfl, hleads⟩
      | again s' =>
        rw [hflow] at hleads
        obtain ⟨e', r', hat, heq, hless⟩ := hleads
        -- A turn in the state of an error is the last one.
        have hs : s.data.state ≠ .error := by
          intro hs
          rw [dechunkSwitch, hs] at hflow
          cases hflow
        have hturns : turns s' r' < fuel := by
          rw [turns, if_neg hs] at hfuel
          rw [turns]
          rcases hless with hlt | ⟨hsame, herror⟩
          · split <;> omega
          · rw [if_pos herror]
            omega
        obtain ⟨s'', hrun, hholds, hlength, hview⟩ := ih hat hturns
        obtain ⟨hstate, hout⟩ := Prod.mk.inj heq
        refine ⟨s'', hrun, ?_, ?_, ?_⟩
        · rw [hout]
          exact hholds
        · rw [hout]
          exact hlength
        · rw [hstate]
          exact hview

theorem holdsAt_bufferOf (text : List UInt8) (l : List UInt8) :
    HoldsAt (bufferOf (l ++ text)) l.length text := by
  induction text generalizing l with
  | nil => trivial
  | cons b text ih =>
    refine ⟨by simp [bufferOf], ?_⟩
    have hrest := ih (l ++ [b])
    rw [append_assoc, length_append] at hrest
    exact hrest

theorem map_range_holdsAt {mem : Nat → UInt8} {l : List UInt8}
    (h : HoldsAt mem 0 l) : (List.range l.length).map mem = l := by
  have hall : ∀ (l : List UInt8) (p : Nat), HoldsAt mem p l →
      (List.range' p l.length).map mem = l := by
    intro l
    induction l with
    | nil => intros; rfl
    | cons b l ih =>
      intro p hp
      rw [length_cons, range'_succ, map_cons, hp.1, ih (p + 1) hp.2]
  rw [range_eq_range']
  exact hall l 0 h

/-- `php_dechunk` acts as the machine. -/
theorem phpDechunk_reads (data : ChunkedFilterData) (text : List UInt8) :
    ((phpDechunk data text).1.view, (phpDechunk data text).2) = readChunks data.view text := by
  have hat : DechunkAt text.length ⟨bufferOf text, 0, 0, 0, data⟩ [] text :=
    ⟨trivial, rfl, rfl, holdsAt_bufferOf text [], by simp, le_rfl⟩
  have hturns : turns ⟨bufferOf text, 0, 0, 0, data⟩ text < text.length + 2 := by
    rw [turns]
    split <;> omega
  obtain ⟨s, hrun, hholds, hlength, hview⟩ := dechunkLoop_reads hat hturns
  rw [nil_append] at hholds hlength
  have hresult : phpDechunk data text = (s.data, (List.range s.outLen).map s.buf) := by
    rw [phpDechunk, hrun]
  rw [hresult, hlength, map_range_holdsAt hholds, hview]

end Cases

/-! Chunked bodies. -/

/-- The number that the digits of a size stand for. -/
def chunkValue (digits : List UInt8) (n : Nat) : Nat :=
  digits.foldl (fun n b => n * 16 + (chunkDigit b).getD 0) n

/-- The line of a size: digits, an extension, and CRLF. -/
structure SizeLine where
  digits : List UInt8
  extension : List UInt8

structure SizeLine.Valid (line : SizeLine) (n : Nat) : Prop where
  digits : line.digits ≠ [] ∧ ∀ b ∈ line.digits, (chunkDigit b).isSome
  value : chunkValue line.digits 0 = n
  starts : ∀ b ∈ line.extension.head?, chunkDigit b = none
  extension : ∀ b ∈ line.extension, b ≠ byte '\r' ∧ b ≠ byte '\n'

def crlf : List UInt8 :=
  [byte '\r', byte '\n']

def SizeLine.text (line : SizeLine) : List UInt8 :=
  line.digits ++ (line.extension ++ crlf)

/-- A body in the chunked coding: chunks with their size lines, the line of
the last chunk, and a trailer. -/
structure ChunkedBody where
  chunks : List (SizeLine × List UInt8)
  last : SizeLine
  trailer : List UInt8

structure ChunkedBody.Valid (body : ChunkedBody) : Prop where
  chunks : ∀ c ∈ body.chunks, c.1.Valid c.2.length ∧ 0 < c.2.length ∧ c.2.length < 2 ^ 63
  last : body.last.Valid 0

def chunkText (c : SizeLine × List UInt8) : List UInt8 :=
  c.1.text ++ (c.2 ++ crlf)

def ChunkedBody.text (body : ChunkedBody) : List UInt8 :=
  (body.chunks.map chunkText).flatten ++ (body.last.text ++ body.trailer)

def ChunkedBody.payload (body : ChunkedBody) : List UInt8 :=
  (body.chunks.map Prod.snd).flatten

theorem readChunks_append (c : Chunking) (l l' : List UInt8) :
    readChunks c (l ++ l') = ((readChunks (readChunks c l).1 l').1,
      (readChunks c l).2 ++ (readChunks (readChunks c l).1 l').2) :=
  feed_append c l l'

theorem chunkValue_ge (digits : List UInt8) (n : Nat) : n ≤ chunkValue digits n := by
  induction digits generalizing n with
  | nil => exact le_refl n
  | cons b digits ih =>
    have hrest := ih (n * 16 + (chunkDigit b).getD 0)
    exact le_trans (by omega) hrest

theorem readChunks_digits {digits : List UInt8} {n : Nat}
    (hdigits : ∀ b ∈ digits, (chunkDigit b).isSome) (hsmall : chunkValue digits n < ulongMod) :
    readChunks (.size n) digits = (.size (chunkValue digits n), []) := by
  induction digits generalizing n with
  | nil => rfl
  | cons b digits ih =>
    obtain ⟨d, hd⟩ := Option.isSome_iff_exists.mp (hdigits b mem_cons_self)
    have hvalue : chunkValue (b :: digits) n = chunkValue digits (n * 16 + d) := by
      rw [chunkValue, foldl_cons, hd]
      rfl
    rw [hvalue] at hsmall ⊢
    have hmod : (n * 16 + d) % ulongMod = n * 16 + d :=
      Nat.mod_eq_of_lt (lt_of_le_of_lt (chunkValue_ge _ _) hsmall)
    rw [readChunks_cons, Chunking.read, hd]
    dsimp only
    rw [hmod, ih (fun b hb => hdigits b (mem_cons_of_mem _ hb)) hsmall]
    rfl

theorem readChunks_sizeStart {digits : List UInt8} (hne : digits ≠ [])
    (hdigits : ∀ b ∈ digits, (chunkDigit b).isSome) (hsmall : chunkValue digits 0 < ulongMod) :
    readChunks .sizeStart digits = (.size (chunkValue digits 0), []) := by
  obtain ⟨b, rest, rfl⟩ := exists_cons_of_ne_nil hne
  obtain ⟨d, hd⟩ := Option.isSome_iff_exists.mp (hdigits b mem_cons_self)
  rw [← readChunks_digits hdigits hsmall, readChunks_cons, readChunks_cons,
    Chunking.read, Chunking.read, hd]
  simp

theorem readChunks_extension {extension : List UInt8} {n : Nat}
    (hext : ∀ b ∈ extension, b ≠ byte '\r' ∧ b ≠ byte '\n') :
    readChunks (.sizeExt n) extension = (.sizeExt n, []) := by
  induction extension with
  | nil => rfl
  | cons b extension ih =>
    rw [readChunks_cons, Chunking.read, Chunking.readSizeExt, if_pos (hext b mem_cons_self)]
    rw [ih fun b hb => hext b (mem_cons_of_mem _ hb)]
    rfl

theorem readChunks_line {line : SizeLine} {n : Nat} (h : line.Valid n) (hn : n < ulongMod) :
    readChunks .sizeStart line.text = (if n = 0 then .trailer else .body n, []) := by
  have hvalue := h.value
  subst hvalue
  -- Behind the digits the line goes on as if in its extension.
  have hrest : readChunks (.size (chunkValue line.digits 0)) (line.extension ++ crlf) =
      readChunks (.sizeExt (chunkValue line.digits 0)) (line.extension ++ crlf) := by
    cases hext : line.extension with
    | nil => rfl
    | cons b rest =>
      have hnone := h.starts b (by rw [hext]; rfl)
      rw [cons_append, readChunks_cons, readChunks_cons, Chunking.read, hnone, Chunking.read]
  rw [SizeLine.text, readChunks_append, readChunks_sizeStart h.digits.1 h.digits.2 hn]
  rw [hrest, readChunks_append, readChunks_extension h.extension]
  rfl

theorem readChunks_chunk {c : SizeLine × List UInt8}
    (h : c.1.Valid c.2.length) (hpos : 0 < c.2.length) (hlt : c.2.length < 2 ^ 63) :
    readChunks .sizeStart (chunkText c) = (.sizeStart, c.2) := by
  have hn : c.2.length < ulongMod := lt_trans hlt (by decide)
  rw [chunkText, readChunks_append, readChunks_line h hn, if_neg (ne_of_gt hpos)]
  rw [readChunks_body c.2 crlf hpos]
  simp [crlf, readChunks_cons, Chunking.read, Chunking.readBodyCr,
    Chunking.readBodyLf, readChunks_nil]

theorem readChunks_chunks {chunks : List (SizeLine × List UInt8)}
    (h : ∀ c ∈ chunks, c.1.Valid c.2.length ∧ 0 < c.2.length ∧ c.2.length < 2 ^ 63) :
    readChunks .sizeStart (chunks.map chunkText).flatten =
      (.sizeStart, (chunks.map Prod.snd).flatten) := by
  induction chunks with
  | nil => rfl
  | cons c chunks ih =>
    obtain ⟨hvalid, hpos, hlt⟩ := h c mem_cons_self
    rw [map_cons, flatten_cons, readChunks_append, readChunks_chunk hvalid hpos hlt]
    rw [ih fun c hc => h c (mem_cons_of_mem _ hc)]
    rfl

theorem readChunks_chunkedBody {body : ChunkedBody} (h : body.Valid) :
    readChunks .sizeStart body.text = (.trailer, body.payload) := by
  rw [ChunkedBody.text, readChunks_append, readChunks_chunks h.chunks]
  rw [readChunks_append, readChunks_line h.last (by decide), if_pos rfl]
  rw [readChunks_trailer, append_nil, append_nil]
  rfl

/-- The filter on the buckets of a stream. -/
def phpChunkedFilter (data : ChunkedFilterData) (buckets : List (List UInt8)) :
    ChunkedFilterData × List UInt8 :=
  inPieces phpDechunk data buckets

def chunkedFilterStart : ChunkedFilterData :=
  ⟨.sizeStart, 0⟩

theorem phpChunkedFilter_reads (data : ChunkedFilterData) (buckets : List (List UInt8)) :
    ((phpChunkedFilter data buckets).1.view, (phpChunkedFilter data buckets).2) =
      readChunks data.view buckets.flatten :=
  inPieces_eq ChunkedFilterData.view phpDechunk_reads data buckets

theorem state_eq_of_view {d d' : ChunkedFilterData} (h : d.view = d'.view) :
    d.state = d'.state := by
  obtain ⟨state, n⟩ := d
  obtain ⟨state', n'⟩ := d'
  cases state <;> cases state' <;> simp [ChunkedFilterData.view] at h ⊢

/-- A chunked body comes out as its payload however it is cut into buckets;
and for any bytes neither the output nor the state depends on the cuts. -/
theorem phpChunkedFilter_cuts : (∀ (body : ChunkedBody) (buckets : List (List UInt8)), body.Valid →
      buckets.flatten = body.text →
      (phpChunkedFilter chunkedFilterStart buckets).2 = body.payload) ∧
    ∀ (data : ChunkedFilterData) (buckets buckets' : List (List UInt8)),
      buckets.flatten = buckets'.flatten →
      (phpChunkedFilter data buckets).2 = (phpChunkedFilter data buckets').2 ∧
      (phpChunkedFilter data buckets).1.state = (phpChunkedFilter data buckets').1.state ∧
      (phpChunkedFilter data buckets).1.view = (phpChunkedFilter data buckets').1.view := by
  constructor
  · intro body buckets hvalid hflat
    have hreads := phpChunkedFilter_reads chunkedFilterStart buckets
    rw [hflat] at hreads
    exact (Prod.mk.inj (hreads.trans (readChunks_chunkedBody hvalid))).2
  · intro data buckets buckets' hflat
    have hreads := phpChunkedFilter_reads data buckets
    rw [hflat, ← phpChunkedFilter_reads data buckets'] at hreads
    obtain ⟨hview, hout⟩ := Prod.mk.inj hreads
    exact ⟨hout, state_eq_of_view hview, hview⟩

/-- One chunk with an extension to its size, and a trailer. -/
def helloBody : ChunkedBody where
  chunks := [(⟨"5".toList.map byte, ";x".toList.map byte⟩, "hello".toList.map byte)]
  last := ⟨"0".toList.map byte, []⟩
  trailer := "T: 1\r\n\r\n".toList.map byte

theorem helloBody_valid : helloBody.Valid := by
  constructor
  · intro c hc
    obtain rfl := mem_singleton.mp hc
    exact ⟨⟨by decide +kernel, by decide +kernel, by decide +kernel,
      by decide +kernel⟩, by decide +kernel, by decide +kernel⟩
  · exact ⟨by decide +kernel, by decide +kernel, by decide +kernel, by decide +kernel⟩

theorem phpChunkedFilter_cuts_hello : (phpChunkedFilter chunkedFilterStart
      ["5;x\r\nhe".toList.map byte, "llo\r\n0\r\nT: 1\r\n\r\n".toList.map byte]).2 =
        "hello".toList.map byte ∧ (phpChunkedFilter chunkedFilterStart
        ["1".toList.map byte, "2".toList.map byte]).1.state =
      (phpChunkedFilter chunkedFilterStart ["12".toList.map byte]).1.state := by
  have hpayload : helloBody.payload = "hello".toList.map byte := by decide
  refine ⟨?_, ?_⟩
  · rw [← hpayload]
    exact phpChunkedFilter_cuts.1 helloBody _ helloBody_valid (by decide)
  · exact (phpChunkedFilter_cuts.2 chunkedFilterStart
      ["1".toList.map byte, "2".toList.map byte] ["12".toList.map byte]
      (by decide)).2.1

end PhpEngine

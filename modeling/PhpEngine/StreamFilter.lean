/-
A read filter that hands every bucket on unchanged.  Reads and lines refill an
empty buffer only, and lose nothing; a record may refill a buffer that is in
use, and the refill discards it.
-/
import PhpEngine.StreamLine
import PhpEngine.StreamRecord

namespace PhpEngine

open List Option

variable {filter : ReadFilter}

/-- What a file hands over in reads of at most `chunk` bytes until there are
`size` bytes or nothing is left. -/
def ByteFile.handsOver (chunk : Nat) : Nat → Nat → ByteFile → List UInt8
  | 0, _, _ => []
  | fuel + 1, size, f =>
    if size = 0 ∨ (f.read chunk).1 = [] then []
    else (f.read chunk).1 ++ handsOver chunk fuel (size - (f.read chunk).1.length) (f.read chunk).2

theorem ByteFile.handsOver_prefix (chunk fuel size : Nat) (f : ByteFile) :
    f.handsOver chunk fuel size <+: f.rest := by
  induction fuel generalizing size f with
  | zero => exact nil_prefix
  | succ fuel ih =>
    rw [handsOver]
    split
    · exact nil_prefix
    · rw [← f.read_append_rest chunk]
      exact prefix_append_right_inj _ |>.mpr (ih _ _)

namespace PhpStream

variable {s s' : PhpStream} {p maxlen : Nat} {delim : List UInt8}

theorem appendBucket_file (s : PhpStream) (bucket : List UInt8) :
    (s.appendBucket bucket).file = s.file := by
  rw [appendBucket]
  split <;> rfl

/-- The loop of a filtered refill buffers what the file hands over. -/
theorem fillFilteredLoop_amount
    (hfilter : s.readfilters = [filter]) (hpass : filter.PassesOn) (h : s.At p) (size fuel : Nat) :
    (fillFilteredLoop size fuel s [] []).bufferedAmount =
      s.bufferedAmount + (s.file.handsOver s.chunkSize.val fuel
        (size - s.bufferedAmount)).length := by
  induction fuel generalizing s with
  | zero => rfl
  | succ fuel ih =>
    rw [fillFilteredLoop_succ hfilter hpass, ByteFile.handsOver]
    have hpos := s.chunkSize.pos
    by_cases hturn : !s.eof ∧ s.bufferedAmount < size
    · rw [if_pos hturn]
      by_cases hnil : (s.opsRead s.chunkSize.val).1 = []
      · rw [if_pos hnil, if_pos (.inr hnil)]
        rfl
      · obtain ⟨htakes, -, hamount⟩ := takes_appendBucket h hpos
        have hfile := appendBucket_file (s.opsRead s.chunkSize.val).2
        have hmore : ¬ (size - s.bufferedAmount = 0 ∨ (s.file.read s.chunkSize.val).1 = []) := by
          rintro (hzero | hnone)
          · omega
          · exact hnil hnone
        rw [if_neg hnil, if_neg hmore,
          ih (htakes.frame.readfilters.trans hfilter) htakes.behind, hfile,
          hamount, htakes.frame.chunkSize, length_append,
          ByteFile.length_read, add_assoc, Nat.sub_sub]
        rfl
    · rw [if_neg hturn]
      have hnone : size - s.bufferedAmount = 0 ∨ (s.file.read s.chunkSize.val).1 = [] := by
        by_cases heof : s.eof = true
        · exact .inr ((ByteFile.read_eq_nil hpos).mpr (h.rest_of_eof heof))
        · refine .inl (Nat.sub_eq_zero_of_le (Nat.le_of_not_lt fun hlt => ?_))
          exact hturn ⟨by simpa using heof, hlt⟩
      rw [if_pos hnone]
      rfl

theorem fillReadBuffer_buffered (hfilter : s.readfilters = [filter]) (hpass : filter.PassesOn)
    (h : s.At p) (hempty : s.bufferedAmount = 0) (size : Nat) : (s.fillReadBuffer size).buffered =
      s.file.handsOver s.chunkSize.val (s.file.rest.length + 1) size := by
  have hne : s.readfilters ≠ [] := by
    rw [hfilter]
    exact cons_ne_nil _ _
  have hat : ({ s with writepos := 0, readpos := 0 } : PhpStream).At p := by
    refine .of_empty rfl (Nat.zero_le _) ?_ h.rest_of_eof
    have hoff := h.offset_eq
    rw [hempty] at hoff
    exact hoff
  have hamount : (s.fillReadBuffer size).bufferedAmount =
      (s.file.handsOver s.chunkSize.val (s.file.rest.length + 1) size).length := by
    have hloop := fillFilteredLoop_amount
      (s := { s with writepos := 0, readpos := 0 }) hfilter hpass hat size
    rw [fillReadBuffer, if_pos hne, fillFiltered, hloop]
    exact zero_add _
  have hr := fillReadBuffer_refills (.inr ⟨filter, hfilter, hpass⟩) h (fun _ => hempty) size
  have hat' := hr.takes.behind
  rw [length_nil, add_zero] at hat'
  rw [hat'.buffered_eq, hr.takes.frame.data, hamount, ← h.rest_eq_of_empty hempty]
  exact (prefix_iff_eq_take.mp (ByteFile.handsOver_prefix _ _ _ _)).symm

/-- The bytes that a record can be found in without a refill of a buffer that
is in use: those of the buffer, or those of one refill if it is empty. -/
def recordWindow (s : PhpStream) (maxlen : Nat) : List UInt8 :=
  if s.bufferedAmount = 0 then
    s.file.handsOver s.chunkSize.val (s.file.rest.length + 1) (min maxlen s.chunkSize.val)
  else s.buffered

/-- These bytes hold the delimiter, or as many bytes as a record may have, or
there are none. -/
def RecordFits (s : PhpStream) (maxlen : Nat) (delim : List UInt8) : Prop :=
  s.recordWindow maxlen = [] ∨ maxlen ≤ (s.recordWindow maxlen).length ∨ delim ≠ [] ∧
      (firstOccurrence delim ((s.recordWindow maxlen).take maxlen)).isSome

/-- The search for the delimiter has ended and nothing was taken. -/
structure SearchFits (s : PhpStream) (p : Nat) (delim : List UInt8)
    (found : Option Nat) (t : PhpStream) : Prop where
  takes : Takes false s p [] t
  found_at : ∀ i, found = some i → i + delim.length ≤ t.bufferedAmount ∧ delim <+: t.buffered.drop i

theorem searchFits_found {t : PhpStream} (ht : Takes false s p [] t) (hdelim : delim ≠ []) {i : Nat}
    (hi : firstOccurrence delim (t.buffered.take maxlen) = some i) :
    SearchFits s p delim (some i) t := by
  refine ⟨ht, fun j hj => ?_⟩
  cases hj
  obtain ⟨hpre, -⟩ :=
    (prefix_drop_take hdelim).mp (firstOccurrence_firstAt hi).1
  have hpos := length_pos_of_ne_nil hdelim
  have hlen := hpre.length_le
  rw [length_drop, ht.behind.length_buffered] at hlen
  exact ⟨by omega, hpre⟩

theorem searchDelim_buffered (h : s.At p) (hdelim : delim ≠ []) : s.searchDelim maxlen 0 delim =
      firstOccurrence delim (s.buffered.take maxlen) := by
  rw [searchDelim_eq h hdelim fun i hi => absurd hi (Nat.not_lt_zero i),
    h.buffered_eq, take_take, Nat.min_comm]

/-- The loop stops at once if the buffer holds `maxlen` bytes. -/
theorem recordLoop_full {fuel n : Nat} (hn : maxlen ≤ n) :
    recordLoop maxlen delim (fuel + 1) s n = some (none, s) := by
  rw [recordLoop, if_neg (Nat.not_lt_of_le hn)]

section

variable (hfilter : s.readfilters = [filter]) (hpass : filter.PassesOn) (h : s.At p)
  (hsize : s.file.data.length < ulongMod) (hmax : 0 < maxlen)
include hfilter hpass h hsize hmax

theorem recordLoop_empty (hempty : s.bufferedAmount = 0) (hfits : s.RecordFits maxlen delim)
    (fuel : Nat) :
    ∃ found t, recordLoop maxlen delim (fuel + 2) s 0 = some (found, t) ∧
      SearchFits s p delim found t := by
  have hr := fillReadBuffer_refills (.inr ⟨filter, hfilter, hpass⟩) h
    (fun _ => hempty) (min maxlen s.chunkSize.val)
  have hbuf := fillReadBuffer_buffered hfilter hpass h hempty
  have hat := hr.takes.behind
  have hwindow : s.recordWindow maxlen = s.file.handsOver s.chunkSize.val (s.file.rest.length + 1)
        (min maxlen s.chunkSize.val) := if_pos hempty
  have hsum := hat.amount_add_rest
  rw [hr.takes.frame.data] at hsum
  rw [recordLoop, if_pos hmax, Nat.sub_zero]
  dsimp only
  rw [zero_add]
  rw [RecordFits, hwindow, ← hbuf] at hfits
  generalize s.fillReadBuffer (min maxlen s.chunkSize.val) = t at *
  have hjust : (t.bufferedAmount + ulongMod - 0) % ulongMod = t.bufferedAmount := by
    rw [Nat.sub_zero, Nat.add_mod_right, Nat.mod_eq_of_lt (by omega)]
  have hskip : (if delim.length - 1 ≤ 0 then 0 - (delim.length - 1)
      else 0) = 0 := by
    rw [Nat.zero_sub, ite_self]
  rw [hjust, hskip]
  by_cases hzero : t.bufferedAmount = 0
  · rw [if_pos hzero]
    exact ⟨none, t, rfl, hr.takes, by rintro i ⟨⟩⟩
  rw [if_neg hzero, zero_add, Nat.mod_eq_of_lt (by omega : t.bufferedAmount < ulongMod)]
  have hsome : t.buffered ≠ [] := by
    intro hnil
    rw [← hat.length_buffered, hnil] at hzero
    exact hzero rfl
  have hnone : SearchFits s p delim none t :=
    ⟨hr.takes, by rintro i ⟨⟩⟩
  rw [hat.length_buffered] at hfits
  rcases hfits with hnil | hfull | ⟨hdelim, hfound⟩
  · exact absurd hnil hsome
  · by_cases hdelim : delim = []
    · rw [if_neg (not_not_intro hdelim)]
      exact ⟨none, t, recordLoop_full hfull, hnone⟩
    · rw [if_pos hdelim, searchDelim_buffered hat hdelim]
      cases hf : firstOccurrence delim (t.buffered.take maxlen) with
      | some i =>
        exact ⟨some i, t, rfl, searchFits_found hr.takes hdelim hf⟩
      | none => exact ⟨none, t, recordLoop_full hfull, hnone⟩
  · rw [if_pos hdelim, searchDelim_buffered hat hdelim]
    obtain ⟨i, hi⟩ := isSome_iff_exists.mp hfound
    rw [hi]
    exact ⟨some i, t, rfl, searchFits_found hr.takes hdelim hi⟩

theorem recordSearch_fits (hfits : s.RecordFits maxlen delim) :
    ∃ found t, s.recordSearch maxlen delim = some (found, t) ∧ SearchFits s p delim found t := by
  rw [recordSearch]
  have hrefl : Takes false s p [] s := .refl h
  have hfirst : ∀ i, (if delim ≠ [] then s.searchDelim maxlen 0 delim
      else none) = some i → SearchFits s p delim (some i) s := by
    intro i hi
    split at hi
    · next hdelim =>
        rw [searchDelim_buffered h hdelim] at hi
        exact searchFits_found hrefl hdelim hi
    · cases hi
  cases hf : (if delim ≠ [] then s.searchDelim maxlen 0 delim else none) with
  | some i => exact ⟨some i, s, rfl, hfirst i hf⟩
  | none =>
    by_cases hempty : s.bufferedAmount = 0
    · rw [hempty]
      exact recordLoop_empty hfilter hpass h hsize hmax hempty hfits _
    · -- the buffer is in use, and holds as many bytes as are asked for
      have hfull : maxlen ≤ s.bufferedAmount := by
        have hlen := h.length_buffered
        rw [RecordFits, recordWindow, if_neg hempty, hlen] at hfits
        rcases hfits with hnil | hfull | ⟨hdelim, hsome⟩
        · rw [hnil] at hlen
          exact absurd hlen.symm hempty
        · exact hfull
        · rw [if_pos hdelim, searchDelim_buffered h hdelim] at hf
          rw [hf] at hsome
          cases hsome
      exact ⟨none, s, recordLoop_full hfull, hrefl, by rintro i ⟨⟩⟩

end

/-- What is taken behind the search: the record, and the delimiter if one was
found. -/
theorem recordEnd_takes (h : s.At p) {found : Option Nat} (hfound : ∀ i, found = some i →
      i + delim.length ≤ s.bufferedAmount ∧ delim <+: s.buffered.drop i) :
    ∃ r s' dropped, s.recordEnd maxlen delim found = some (r, s') ∧
      (dropped = [] ∨ dropped = delim) ∧ Takes true s p (r.getD [] ++ dropped) s' := by
  have hpiece : ∀ n, n ≤ s.bufferedAmount → ∃ r s' dropped, s.takeRecord n 0 = some (r, s') ∧
        (dropped = [] ∨ dropped = delim) ∧
        Takes true s p (r.getD [] ++ dropped) s' := by
    intro n hn
    refine ⟨some (s.peek n), s.consume n, [], ?_, .inl rfl, ?_⟩
    · rw [takeRecord_eq h.toWindow hn, add_zero]
    · rw [getD_some, append_nil]
      exact takes_consume h hn s.flags
  have hnull : ∃ r s' dropped, some (none, s) = some (r, s') ∧ (dropped = [] ∨ dropped = delim) ∧
      Takes true s p (r.getD [] ++ dropped) s' :=
    ⟨none, s, [], rfl, .inl rfl, .refl h⟩
  cases found with
  | some i =>
    obtain ⟨hle, v, hv⟩ := hfound i rfl
    have hi : i ≤ s.bufferedAmount := by omega
    refine ⟨some (s.peek i), s.consume (i + delim.length), delim, ?_, .inr rfl, ?_⟩
    · rw [recordEnd, takeRecord_eq h.toWindow hi]
    · have hpeek : s.peek i ++ delim = s.peek (i + delim.length) := by
        rw [peek_eq_take hi, peek_eq_take hle, take_add, ← hv, take_left]
      rw [getD_some, hpeek]
      exact takes_consume h hle s.flags
  | none =>
    rw [recordEnd]
    split
    · next hfull => exact hpiece maxlen hfull.2
    · split
      · exact hnull
      · split
        · exact hnull
        · exact hpiece _ (Nat.min_le_left _ _)

theorem getRecord_fits (hfilter : s.readfilters = [filter]) (hpass : filter.PassesOn)
    (h : s.At p) (hsize : s.file.data.length < ulongMod) (hfits : s.RecordFits maxlen delim) :
    ∃ r s' dropped, s.getRecord maxlen delim = some (r, s') ∧ (dropped = [] ∨ dropped = delim) ∧
      Takes true s p (r.getD [] ++ dropped) s' := by
  rw [getRecord]
  by_cases hmax : maxlen = 0
  · rw [if_pos hmax]
    exact ⟨none, s, [], rfl, .inl rfl, .refl h⟩
  · rw [if_neg hmax]
    obtain ⟨found, t, hrun, hok⟩ := recordSearch_fits hfilter hpass h hsize
      (Nat.pos_of_ne_zero hmax) hfits
    obtain ⟨r, s', dropped, hend, hdropped, htakes⟩ :=
      recordEnd_takes hok.takes.behind hok.found_at
    have htaken : Takes true s p [] t :=
      ⟨hok.takes.frame, hok.takes.behind, rfl, hok.takes.position⟩
    refine ⟨r, s', dropped, ?_, hdropped, htaken.trans htakes⟩
    rw [hrun, bind_some]
    exact hend

/-- The calls that read from a stream. -/
inductive ReadOp where
  | read (size : Nat)
  | getLine (buf : LineBuffer)
  | getRecord (maxlen : Nat) (delim : List UInt8)

/-- What a call returns, and the delimiter it drops: that one is left out of
the record but counts for the position. -/
def handOut (s : PhpStream) : ReadOp → Option (List UInt8 × PhpStream)
  | .read size => s.read size
  | .getLine buf => (s.getLine buf).map fun r => (r.1.getD [], r.2)
  | .getRecord maxlen delim =>
    (s.getRecord maxlen delim).map fun r =>
      (r.1.getD [] ++ if r.2.position = s.position + (r.1.getD []).length then [] else delim, r.2)

/-- A record is asked for only if no buffer in use has to be refilled. -/
def ReadOp.Fits (s : PhpStream) : ReadOp → Prop
  | .getRecord maxlen delim => s.RecordFits maxlen delim
  | _ => True

/-- Calls one after the other, with all the bytes they hand out. -/
inductive HandsOut : PhpStream → List UInt8 → PhpStream → Prop
  | nil (s : PhpStream) : HandsOut s [] s
  | snoc {s t u : PhpStream} {l l' : List UInt8} {op : ReadOp}
      (hrun : HandsOut s l t) (hfits : op.Fits t)
      (hcall : t.handOut op = some (l', u)) : HandsOut s (l ++ l') u

theorem handOut_takes (hfilter : s.readfilters = [filter]) (hpass : filter.PassesOn)
    (h : s.At p) (hsize : s.file.data.length < ulongMod) {op : ReadOp} (hfits : op.Fits s) :
    ∃ l s', s.handOut op = some (l, s') ∧ Takes true s p l s' := by
  have hs : s.Unchanging := .inr ⟨filter, hfilter, hpass⟩
  cases op with
  | read size =>
    obtain ⟨l, s', hrun, hok⟩ := read_ok hs h size
    exact ⟨l, s', hrun, hok.takes⟩
  | getLine buf =>
    by_cases hbuf : buf = .given 0
    · refine ⟨[], s, ?_, .refl h⟩
      rw [handOut, getLine, if_pos hbuf]
      rfl
    · obtain ⟨l, s', hrun, hok⟩ := getLine_ok hs h hbuf
      refine ⟨l, s', ?_, hok.takes⟩
      rw [handOut, hrun]
      by_cases hl : l = []
      · rw [if_pos hl, hl]
        rfl
      · rw [if_neg hl]
        rfl
  | getRecord maxlen delim =>
    obtain ⟨r, s', dropped, hrun, hdropped, htakes⟩ :=
      getRecord_fits hfilter hpass h hsize hfits
    refine ⟨r.getD [] ++ dropped, s', ?_, htakes⟩
    have hposition := htakes.position
    rw [if_pos rfl, length_append] at hposition
    rw [handOut, hrun, map_some]
    dsimp only
    rcases hdropped with rfl | rfl
    · rw [length_nil, add_zero] at hposition
      rw [if_pos hposition]
    · by_cases hnil : dropped = []
      · rw [hnil, ite_self]
      · have hpos := length_pos_of_ne_nil hnil
        rw [if_neg (by rw [hposition]; omega)]

theorem HandsOut.takes {s₀ : PhpStream}
    (hfilter : s₀.readfilters = [filter]) (hpass : filter.PassesOn)
    (h : s₀.At p) (hsize : s₀.file.data.length < ulongMod)
    {l : List UInt8} (hrun : HandsOut s₀ l s) : Takes true s₀ p l s := by
  induction hrun with
  | nil => exact .refl h
  | snoc _ hfits hcall ih =>
    have hframe := ih.frame
    obtain ⟨l', u, hrun, htakes⟩ := handOut_takes (hframe.readfilters.trans hfilter) hpass ih.behind
      (by rw [hframe.data]; exact hsize) hfits
    rw [hrun] at hcall
    cases hcall
    exact ih.trans htakes

/-- A filter that changes nothing is not observed, as long as no record needs
a refill of a buffer in use: what was handed out, what is buffered and what is
left are the contents. -/
theorem handsOut_lossless {s₀ : PhpStream} {filter : ReadFilter}
    (hfresh : s₀.Fresh) (hfilter : s₀.readfilters = [filter])
    (hpass : filter.PassesOn) (hsize : s₀.file.data.length < ulongMod)
    {l : List UInt8} (hrun : HandsOut s₀ l s) : l <+: s₀.file.rest ∧
      l ++ (s.buffered ++ s.file.rest) = s₀.file.rest ∧
      ∀ op : ReadOp, op.Fits s → ∃ l' s', s.handOut op = some (l', s') := by
  have htakes := hrun.takes hfilter hpass hfresh.at_position hsize
  have hrest : s₀.file.rest = s₀.file.data.drop s₀.position := by
    rw [ByteFile.rest, hfresh.position]
  have hwhole : l ++ (s.buffered ++ s.file.rest) = s₀.file.rest := by
    rw [htakes.behind.ahead, htakes.frame.data, hrest, ← drop_drop]
    exact prefix_iff_eq_append.mp htakes.isPrefix
  refine ⟨⟨_, hwhole⟩, hwhole, fun op hfits => ?_⟩
  have hframe := htakes.frame
  obtain ⟨l', s', hcall, -⟩ := handOut_takes (hframe.readfilters.trans hfilter) hpass htakes.behind
    (by rw [hframe.data]; exact hsize) hfits
  exact ⟨l', s', hcall⟩

/-- The filter that appends the buckets it gets. -/
def passOn : ReadFilter :=
  fun _ brigIn brigOut => (.passOn, [], brigOut ++ brigIn)

theorem passOn_passesOn : passOn.PassesOn :=
  fun _ _ _ => ⟨rfl, fun _ => rfl⟩

/-- Eight bytes behind a filter, in chunks of four. -/
def filteredStream : PhpStream :=
  { sampleStream with
    file := ⟨[97, 98, 99, 100, 101, 102, 103, 104], 0, fun _ => 7, 0⟩
    readfilters := [passOn] }

theorem filteredStream_fresh : filteredStream.Fresh :=
  ⟨rfl, rfl, rfl, rfl, rfl⟩

theorem handsOut_lossless_sample : ∃ s, HandsOut filteredStream [97, 98, 99] s ∧
      [97, 98, 99] ++ (s.buffered ++ s.file.rest) = filteredStream.file.rest := by
  have hrun := @HandsOut.snoc _ _ _ _ [97, 98, 99] (.getRecord 9 [99])
    (.nil filteredStream) (.inr (.inr (by decide))) rfl
  obtain ⟨-, hwhole, -⟩ := handsOut_lossless filteredStream_fresh rfl
    passOn_passesOn (by decide) hrun
  exact ⟨_, hrun, hwhole⟩

/-- A record of up to six bytes loses the first four. -/
theorem record_discards_chunk : filteredStream.Fresh ∧ passOn.PassesOn ∧
      (filteredStream.handOut (.getRecord 6 [120])).map Prod.fst = some [101, 102, 103, 104] ∧
      ¬ [101, 102, 103, 104] <+: filteredStream.file.rest :=
  ⟨filteredStream_fresh, passOn_passesOn, rfl, by decide⟩

end PhpStream

end PhpEngine

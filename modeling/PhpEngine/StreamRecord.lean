/-
`php_stream_get_record` on a stream without filters: the records are the
pieces of the contents between the delimiters, cut at the maximal length.
-/
import PhpEngine.StreamBuffer
import PhpEngine.ListCut

namespace PhpEngine

open List Option

section Cut

variable (delim : List UInt8) (maxlen : Nat)

/-- The next piece of `l` and the delimiter dropped behind it: the piece ends
at the first delimiter, if that lies in the first `maxlen` bytes. -/
def cutRecord (l : List UInt8) : List UInt8 × List UInt8 :=
  match firstOccurrence delim l with
  | some i =>
    if i + delim.length ≤ maxlen then (l.take i, delim)
    else (l.take maxlen, [])
  | none => (l.take maxlen, [])

/-- What stands behind a piece and its delimiter. -/
def behindRecord (l : List UInt8) : List UInt8 :=
  l.drop ((cutRecord delim maxlen l).1.length + (cutRecord delim maxlen l).2.length)

/-- The pieces of `l` with the delimiters behind them. -/
def cutRecords : List UInt8 → List (List UInt8 × List UInt8) :=
  pieces (cutRecord delim maxlen) (behindRecord delim maxlen)

variable {delim maxlen}

/-- The piece, its delimiter and the rest are what was there. -/
theorem cutRecord_append (l : List UInt8) :
    (cutRecord delim maxlen l).1 ++ (cutRecord delim maxlen l).2 ++
      behindRecord delim maxlen l = l := by
  have hpre : (cutRecord delim maxlen l).1 ++ (cutRecord delim maxlen l).2 <+: l := by
    rw [cutRecord]
    split
    · next i hi =>
        split
        · obtain ⟨⟨v, hv⟩, -⟩ := firstOccurrence_firstAt hi
          refine ⟨v, ?_⟩
          rw [append_assoc, hv, take_append_drop]
        · rw [append_nil]
          exact take_prefix _ _
    · rw [append_nil]
      exact take_prefix _ _
  rw [behindRecord, ← length_append]
  exact prefix_iff_eq_append.mp hpre

theorem behindRecord_length (hdelim : delim ≠ []) (hmax : 0 < maxlen)
    {l : List UInt8} (hl : l ≠ []) : (behindRecord delim maxlen l).length < l.length := by
  have hpos := length_pos_of_ne_nil hl
  have hdpos := length_pos_of_ne_nil hdelim
  have hsome : 0 < (cutRecord delim maxlen l).1.length + (cutRecord delim maxlen l).2.length := by
    rw [cutRecord]
    split
    · split
      · exact lt_of_lt_of_le hdpos (Nat.le_add_left _ _)
      · simp only [length_take, length_nil]
        omega
    · simp only [length_take, length_nil]
      omega
  rw [behindRecord, length_drop]
  omega

theorem cutRecords_flatten (hdelim : delim ≠ []) (hmax : 0 < maxlen) (l : List UInt8) :
    ((cutRecords delim maxlen l).map fun r => r.1 ++ r.2).flatten = l :=
  pieces_flatten (fun _ hl => behindRecord_length hdelim hmax hl) _ cutRecord_append l

end Cut

namespace PhpStream

/-- Comparing the last byte and the bytes before it compares the needle. -/
theorem prefix_iff_memcmp {needle l : List UInt8} (hne : needle ≠ [])
    (hlen : needle.length ≤ l.length) : needle <+: l ↔ l.head? = needle.head? ∧
      needle.getLast? = l[needle.length - 1]? ∧
      needle.take (needle.length - 1) = l.take (needle.length - 1) := by
  have hpos := length_pos_of_ne_nil hne
  have hlast : needle.getLast? = needle[needle.length - 1]? :=
    getLast?_eq_getElem?
  constructor
  · rintro ⟨v, rfl⟩
    refine ⟨?_, ?_, ?_⟩
    · rw [head?_append_of_ne_nil _ hne]
    · rw [hlast, getElem?_append_left (by omega)]
    · rw [take_append_of_le_length (by omega)]
  · rintro ⟨-, hend, hfront⟩
    rw [prefix_iff_eq_take]
    have hsucc : needle.length = (needle.length - 1) + 1 := by omega
    have hneedle : needle = needle.take ((needle.length - 1) + 1) := by
      rw [← hsucc, take_length]
    conv_lhs => rw [hneedle, take_add_one, hfront, ← hlast, hend]
    rw [← take_add_one, ← hsucc]

theorem memnstrLoop_eq {needle : List UInt8} (hne : needle ≠ [])
    (l : List UInt8) : memnstrLoop needle l = firstOccurrence needle l := by
  induction l with
  | nil => rw [memnstrLoop, firstOccurrence, if_neg hne]
  | cons b rest ih =>
    rw [memnstrLoop, firstOccurrence]
    by_cases hlen : (b :: rest).length < needle.length
    · have hno : firstOccurrence needle (b :: rest) = none := by
        refine firstOccurrence_eq_none_iff.mpr fun i hpre => ?_
        have := hpre.length_le
        rw [length_drop] at this
        omega
      rw [firstOccurrence] at hno
      rw [if_pos hlen, hno]
    · rw [if_neg hlen, ih]
      refine if_congr ?_ rfl rfl
      exact (prefix_iff_memcmp hne (Nat.le_of_not_lt hlen)).symm

theorem memchr_eq (b : UInt8) (l : List UInt8) : memchr b l = firstOccurrence [b] l := by
  induction l with
  | nil => rfl
  | cons c rest ih =>
    rw [firstOccurrence, ← ih]
    by_cases hc : c = b
    · have hpre : [b] <+: c :: rest := ⟨rest, by rw [hc]; rfl⟩
      rw [if_pos hpre, memchr, if_pos (by rw [hc]; exact mem_cons_self), hc, idxOf_cons_self]
    · have hpre : ¬ [b] <+: c :: rest := by
        rintro ⟨v, hv⟩
        exact hc (List.cons.inj hv).1.symm
      rw [if_neg hpre, memchr, memchr]
      by_cases hmem : b ∈ rest
      · rw [if_pos (mem_cons_of_mem c hmem), if_pos hmem, idxOf_cons_ne _ hc]
        rfl
      · have hnot : b ∉ c :: rest := by simp [hmem, Ne.symm hc]
        rw [if_neg hnot, if_neg hmem]
        rfl

theorem memnstr_eq {needle : List UInt8} (hne : needle ≠ [])
    (l : List UInt8) : memnstr needle l = firstOccurrence needle l := by
  unfold memnstr
  split
  · exact memchr_eq _ l
  · split
    · next hlen =>
        refine (firstOccurrence_eq_none_iff.mpr fun i hpre => ?_).symm
        have := hpre.length_le
        rw [length_drop] at this
        omega
    · exact memnstrLoop_eq hne l

variable {s s' : PhpStream} {p maxlen : Nat} {delim : List UInt8}

/-- The search in the buffer, of which places without a delimiter are left
out. -/
theorem searchDelim_eq (h : s.At p) (hdelim : delim ≠ []) {skiplen : Nat} (hno : ∀ i < skiplen,
      ¬ delim <+: (s.buffered.take (min s.bufferedAmount maxlen)).drop i) :
    s.searchDelim maxlen skiplen delim = firstOccurrence delim
        ((s.file.data.drop p).take (min s.bufferedAmount maxlen)) := by
  have hle := Nat.min_le_left s.bufferedAmount maxlen
  have hbuf : s.buffered.take (min s.bufferedAmount maxlen) =
      (s.file.data.drop p).take (min s.bufferedAmount maxlen) := by
    rw [← peek_eq_take hle, h.peek_eq hle]
  rw [← hbuf, searchDelim, peek_eq_take hle]
  generalize hm : min s.bufferedAmount maxlen = m at *
  have hlen : (s.buffered.take m).length = m := by
    rw [length_take, h.length_buffered, min_eq_left hle]
  split
  · next hskip =>
      refine (firstOccurrence_eq_none_iff.mpr fun i hpre => ?_).symm
      by_cases hi : i < skiplen
      · exact hno i hi hpre
      · have hpos := length_pos_of_ne_nil hdelim
        have := hpre.length_le
        rw [length_drop, hlen] at this
        omega
  · rw [memnstr_eq hdelim, firstOccurrence_drop hno]

/-- How the loop of `php_stream_get_record` ends on a stream at `p`: with the
place of the first delimiter, or without one in the first `maxlen` bytes, all
of which are in the buffer unless the file has ended. -/
structure SearchOk (s : PhpStream) (p maxlen : Nat) (delim : List UInt8)
    (found : Option Nat) (s' : PhpStream) : Prop where
  takes : Takes false s p [] s'
  flags : s'.flags = s.flags
  found_eq : found = firstOccurrence delim ((s.file.data.drop p).take maxlen)
  buffered : ∀ i, found = some i → i + delim.length ≤ s'.bufferedAmount
  filled : found = none → maxlen ≤ s'.bufferedAmount ∨ s'.eof = true

theorem SearchOk.after {t : PhpStream} {found : Option Nat}
    (ht : Takes false s p [] t) (hflags : t.flags = s.flags)
    (h : SearchOk t p maxlen delim found s') : SearchOk s p maxlen delim found s' := by
  have hfound := h.found_eq
  rw [ht.frame.data] at hfound
  exact ⟨ht.trans h.takes, h.flags.trans hflags, hfound, h.buffered, h.filled⟩

theorem searchOk_found (h : s.At p) (hdelim : delim ≠ []) {i : Nat} (hfound : firstOccurrence delim
      ((s.file.data.drop p).take (min s.bufferedAmount maxlen)) = some i) :
    SearchOk s p maxlen delim (some i) s := by
  obtain ⟨hat, hbefore⟩ := firstOccurrence_firstAt hfound
  obtain ⟨hat, hle⟩ := (prefix_drop_take hdelim).mp hat
  refine ⟨.refl h, rfl, ?_, fun j hj => ?_, fun hnone => nomatch hnone⟩
  · refine (firstOccurrence_eq_some_iff.mpr
      ⟨(prefix_drop_take hdelim).mpr ⟨hat, by omega⟩, fun j hj hpre => ?_⟩).symm
    obtain ⟨hpre, -⟩ := (prefix_drop_take hdelim).mp hpre
    exact hbefore j hj ((prefix_drop_take hdelim).mpr ⟨hpre, by omega⟩)
  · cases hj
    omega

/-- A search that found nothing, with nothing more to be read. -/
theorem searchOk_none (h : s.At p) (hnone : firstOccurrence delim
      ((s.file.data.drop p).take (min s.bufferedAmount maxlen)) = none)
    (hfilled : maxlen ≤ s.bufferedAmount ∨ s.eof = true) : SearchOk s p maxlen delim none s := by
  refine ⟨.refl h, rfl, ?_, (fun i hi => nomatch hi), fun _ => hfilled⟩
  rcases hfilled with hle | heof
  · rw [← hnone, Nat.min_eq_right hle]
  · have hrest := h.rest_of_eof heof
    have hahead := h.ahead
    rw [hrest, append_nil] at hahead
    rw [← hnone, ← hahead, ← h.length_buffered, Nat.min_comm, ← take_take, take_length]

theorem recordLoop_ok (hs : s.readfilters = []) (h : s.At p)
    (hsize : s.file.data.length < ulongMod) (hdelim : delim ≠ []) (hnone : firstOccurrence delim
      ((s.file.data.drop p).take (min s.bufferedAmount maxlen)) = none)
    {fuel : Nat} (hfuel : s.file.rest.length < fuel) :
    ∃ found s', recordLoop maxlen delim fuel s s.bufferedAmount =
        some (found, s') ∧ SearchOk s p maxlen delim found s' := by
  induction fuel generalizing s with
  | zero => exact absurd hfuel (Nat.not_lt_zero _)
  | succ fuel ih =>
    rw [recordLoop]
    by_cases hlt : s.bufferedAmount < maxlen
    · rw [if_pos hlt]
      have hpos := s.chunkSize.pos
      generalize hto : min (maxlen - s.bufferedAmount) s.chunkSize.val = n
      have hn : s.bufferedAmount < s.bufferedAmount + n := by omega
      have hr := fillReadBuffer_refills (.inl hs) h
        (fun hne => absurd hs hne) (s.bufferedAmount + n)
      have hat := hr.takes.behind
      have hle := hr.amount_le
      have hsum := h.amount_add_rest
      have hsum' := hat.amount_add_rest
      rw [hr.takes.frame.data] at hsum'
      have hprog := hr.progress hn
      dsimp only
      generalize s.fillReadBuffer (s.bufferedAmount + n) = t at *
      have hjust : (t.bufferedAmount + ulongMod - s.bufferedAmount) %
          ulongMod = t.bufferedAmount - s.bufferedAmount := by
        have hsplit : t.bufferedAmount + ulongMod - s.bufferedAmount =
            (t.bufferedAmount - s.bufferedAmount) + ulongMod := by omega
        rw [hsplit, Nat.add_mod_right, Nat.mod_eq_of_lt (by omega)]
      rw [hjust]
      -- a delimiter found now ends behind what was searched before
      have hsearch : t.searchDelim maxlen (if delim.length - 1 ≤ s.bufferedAmount then
            s.bufferedAmount - (delim.length - 1) else 0) delim =
          firstOccurrence delim ((t.file.data.drop p).take (min t.bufferedAmount maxlen)) := by
        refine searchDelim_eq hat hdelim fun i hi hpre => ?_
        rw [hat.buffered_eq, take_take, hr.takes.frame.data] at hpre
        obtain ⟨hpre, -⟩ := (prefix_drop_take hdelim).mp hpre
        refine firstOccurrence_eq_none hnone i ((prefix_drop_take hdelim).mpr ⟨hpre, ?_⟩)
        split at hi <;> omega
      by_cases hzero : t.bufferedAmount - s.bufferedAmount = 0
      · have hsame : t.bufferedAmount = s.bufferedAmount := by omega
        have hnone' : firstOccurrence delim ((t.file.data.drop p).take
            (min t.bufferedAmount maxlen)) = none := by
          rw [hsame, hr.takes.frame.data]
          exact hnone
        rw [if_pos hzero]
        exact ⟨none, t, rfl, .after hr.takes hr.flags
          (searchOk_none hat hnone' (.inr (hprog hsame)))⟩
      · rw [if_neg hzero, if_pos hdelim, hsearch]
        cases hf : firstOccurrence delim ((t.file.data.drop p).take
            (min t.bufferedAmount maxlen)) with
        | some i =>
          exact ⟨some i, t, rfl, .after hr.takes hr.flags (searchOk_found hat hdelim hf)⟩
        | none =>
          have hnext : (s.bufferedAmount + (t.bufferedAmount - s.bufferedAmount)) % ulongMod =
                t.bufferedAmount := by
            rw [Nat.add_sub_cancel' hle, Nat.mod_eq_of_lt (by omega)]
          obtain ⟨found, s', hrun, hok⟩ := ih (hr.takes.frame.readfilters.trans hs) hat
            (by rw [hr.takes.frame.data]; exact hsize) hf (by omega)
          refine ⟨found, s', ?_, hok.after hr.takes hr.flags⟩
          rw [hnext]
          exact hrun
    · rw [if_neg hlt]
      exact ⟨none, s, rfl, searchOk_none h hnone (.inl (Nat.le_of_not_lt hlt))⟩

theorem read_buffered {n : Nat} (hn : n ≤ s.bufferedAmount)
    (h : s.Window) : s.read n = some (s.peek n, s.consume n) := by
  have hlen := h.length_peek hn
  rw [read, readLoop]
  by_cases hzero : n = 0
  · subst hzero
    rfl
  · have hmin : min s.bufferedAmount n = n := Nat.min_eq_right hn
    simp only [hzero, hmin, Nat.sub_self, ↓reduceIte, nil_append, map_some, hlen]
    rfl

theorem takeRecord_eq (h : s.Window) {n : Nat} (hn : n ≤ s.bufferedAmount) (dropped : Nat) :
    s.takeRecord n dropped = some (some (s.peek n), s.consume (n + dropped)) := by
  rw [takeRecord, read_buffered hn h]
  simp only [map_some, consume, add_assoc]

/-- What a call of `php_stream_get_record` does at `p`. -/
structure RecordOk (s : PhpStream) (p : Nat) (record : List UInt8 × List UInt8)
    (s' : PhpStream) : Prop where
  frame : Frame s s'
  flags : s'.flags = s.flags
  behind : s'.At (p + (record.1.length + record.2.length))
  position : s'.position = s.position + (record.1.length + record.2.length)

theorem recordOk_consume {t : PhpStream} (ht : Takes false s p [] t)
    (hflags : t.flags = s.flags) {record : List UInt8 × List UInt8}
    (hn : record.1.length + record.2.length ≤ t.bufferedAmount) : RecordOk s p record
      (t.consume (record.1.length + record.2.length)) := by
  have hc := takes_consume ht.behind hn t.flags
  have hat := hc.behind
  rw [ht.behind.toWindow.length_peek hn] at hat
  refine ⟨ht.frame.trans hc.frame, hflags, hat, ?_⟩
  exact congrArg (· + _) ht.position

theorem recordSearch_ok (hs : s.readfilters = []) (h : s.At p)
    (hsize : s.file.data.length < ulongMod) (hdelim : delim ≠ []) :
    ∃ found t, s.recordSearch maxlen delim = some (found, t) ∧
      SearchOk s p maxlen delim found t := by
  rw [recordSearch, if_pos hdelim, searchDelim_eq h hdelim
    fun i hi => absurd hi (Nat.not_lt_zero i)]
  cases hf : firstOccurrence delim ((s.file.data.drop p).take (min s.bufferedAmount maxlen)) with
  | some i => exact ⟨some i, s, rfl, searchOk_found h hdelim hf⟩
  | none => exact recordLoop_ok hs h hsize hdelim hf (by omega)

theorem recordEnd_some {t : PhpStream} {i : Nat} (hdelim : delim ≠ [])
    (hok : SearchOk s p maxlen delim (some i) t) : ∃ s', t.recordEnd maxlen delim (some i) =
        some (some (cutRecord delim maxlen (s.file.data.drop p)).1, s') ∧
      RecordOk s p (cutRecord delim maxlen (s.file.data.drop p)) s' ∧ s.file.data.drop p ≠ [] := by
  have hat := hok.takes.behind
  have hfound := hok.found_eq
  rw [firstOccurrence_take hdelim] at hfound
  obtain ⟨hi, hle⟩ := filter_eq_some_iff.mp hfound.symm
  have hin := hok.buffered i rfl
  have hcut : cutRecord delim maxlen (s.file.data.drop p) = (t.peek i, delim) := by
    rw [cutRecord, hi, hat.peek_eq (by omega), hok.takes.frame.data]
    exact if_pos (of_decide_eq_true hle)
  have hlen := hat.toWindow.length_peek (n := i) (by omega)
  rw [hcut]
  refine ⟨t.consume ((t.peek i).length + delim.length), ?_,
    recordOk_consume hok.takes hok.flags ?_, ?_⟩
  · rw [recordEnd, takeRecord_eq hat.toWindow (by omega), hlen]
  · change (t.peek i).length + delim.length ≤ _
    rw [hlen]
    exact hin
  · intro hnil
    rw [hnil, firstOccurrence, if_neg hdelim] at hi
    cases hi

/-- There is no delimiter in the first `maxlen` bytes. -/
theorem recordEnd_none {t : PhpStream} (hdelim : delim ≠ [])
    (hmax : 0 < maxlen) (hok : SearchOk s p maxlen delim none t) :
    ∃ s', t.recordEnd maxlen delim none = some (if s.file.data.drop p = [] then none
          else some (cutRecord delim maxlen (s.file.data.drop p)).1, s') ∧
      RecordOk s p (cutRecord delim maxlen (s.file.data.drop p)) s' := by
  have hat := hok.takes.behind
  rw [length_nil, add_zero] at hat
  have hdata := hok.takes.frame.data
  have hfound := hok.found_eq
  rw [firstOccurrence_take hdelim] at hfound
  have hle := Nat.min_le_left t.bufferedAmount maxlen
  have hlen := hat.toWindow.length_peek hle
  have hpeek : (s.file.data.drop p).take maxlen = t.peek (min t.bufferedAmount maxlen) := by
    rw [hat.peek_eq hle, hdata]
    rcases hok.filled rfl with hfull | heof
    · rw [Nat.min_eq_right hfull]
    · have hahead := hat.ahead
      rw [hat.rest_of_eof heof, append_nil, hdata] at hahead
      rw [← hahead, ← hat.length_buffered, Nat.min_comm, ← take_take, take_length]
  have hcut : cutRecord delim maxlen (s.file.data.drop p) =
      (t.peek (min t.bufferedAmount maxlen), []) := by
    rw [cutRecord, ← hpeek]
    cases hi : firstOccurrence delim (s.file.data.drop p) with
    | none => rfl
    | some i =>
      rw [hi] at hfound
      have hnot := filter_eq_none_iff.mp hfound.symm i rfl
      exact if_neg fun h => hnot (decide_eq_true h)
  rw [hcut]
  have hrecord := @recordOk_consume s p t hok.takes hok.flags
    (t.peek (min t.bufferedAmount maxlen), [])
    (by rw [length_nil, add_zero, hlen]; exact hle)
  rw [recordEnd, if_neg fun h => hdelim h.1]
  have hshort : ¬ (t.bufferedAmount < maxlen ∧ !t.eof) := by
    rintro ⟨hlt, heof⟩
    rcases hok.filled rfl with hfull | htrue
    · omega
    · rw [htrue] at heof
      nomatch heof
  rw [if_neg hshort]
  by_cases hzero : t.bufferedAmount = 0
  · have heof : t.eof = true :=
      (hok.filled rfl).resolve_left (by omega)
    have hnil : s.file.data.drop p = [] := by
      rw [← hdata, ← hat.rest_eq_of_empty hzero]
      exact hat.rest_of_eof heof
    rw [if_pos ⟨hzero, heof⟩, if_pos hnil]
    refine ⟨t, rfl, ?_⟩
    rw [hzero, Nat.zero_min, peek_zero] at hrecord ⊢
    exact hrecord
  · have hne : s.file.data.drop p ≠ [] := by
      intro hnil
      rw [hnil, take_nil] at hpeek
      rw [← hpeek, length_nil] at hlen
      omega
    rw [if_neg fun h => hzero h.1, if_neg hne, takeRecord_eq hat.toWindow hle]
    refine ⟨_, rfl, ?_⟩
    rw [hlen] at hrecord
    exact hrecord

section

variable (hs : s.readfilters = []) (h : s.At p) (hsize : s.file.data.length < ulongMod)
  (hdelim : delim ≠ []) (hmax : 0 < maxlen)
include hs h hsize hdelim hmax

/-- `php_stream_get_record` on a stream without filters. -/
theorem getRecord_ok :
    ∃ s', s.getRecord maxlen delim = some (if s.file.data.drop p = [] then none
          else some (cutRecord delim maxlen (s.file.data.drop p)).1, s') ∧
      RecordOk s p (cutRecord delim maxlen (s.file.data.drop p)) s' := by
  obtain ⟨found, t, hrun, hok⟩ := recordSearch_ok hs h hsize hdelim
  rw [getRecord, if_neg (ne_of_gt hmax), hrun, bind_some]
  cases found with
  | some i =>
    obtain ⟨s', heq, hrecord, hne⟩ := recordEnd_some hdelim hok
    refine ⟨s', ?_, hrecord⟩
    rw [heq, if_neg hne]
  | none => exact recordEnd_none hdelim hmax hok

/-- The records that successive calls return before the first `NULL`; `none`
if there are more than `fuel` calls. -/
def allRecords (maxlen : Nat) (delim : List UInt8) : Nat → PhpStream → Option (List (List UInt8))
  | 0, _ => none
  | fuel + 1, s =>
    (s.getRecord maxlen delim).bind fun r =>
      match r.1 with
      | none => some []
      | some record =>
        (allRecords maxlen delim fuel r.2).map (record :: ·)

theorem allRecords_eq {fuel : Nat} (hfuel : (s.file.data.drop p).length < fuel) :
    allRecords maxlen delim fuel s =
      some ((cutRecords delim maxlen (s.file.data.drop p)).map Prod.fst) := by
  induction fuel generalizing s p with
  | zero => exact absurd hfuel (Nat.not_lt_zero _)
  | succ fuel ih =>
    obtain ⟨s', heq, hok⟩ := getRecord_ok hs h hsize hdelim hmax
    rw [allRecords, heq, bind_some]
    by_cases hnil : s.file.data.drop p = []
    · rw [if_pos hnil, hnil]
      rfl
    · have hbehind : s'.file.data.drop
          (p + ((cutRecord delim maxlen (s.file.data.drop p)).1.length +
            (cutRecord delim maxlen (s.file.data.drop p)).2.length)) =
          behindRecord delim maxlen (s.file.data.drop p) := by
        rw [hok.frame.data, behindRecord, drop_drop]
      have hlt := behindRecord_length hdelim hmax hnil
      have hnext := ih (hok.frame.readfilters.trans hs) hok.behind
        (by rw [hok.frame.data]; exact hsize)
        (by rw [hbehind]; omega)
      rw [hbehind] at hnext
      rw [if_neg hnil, cutRecords,
        pieces_cons (fun _ hl => behindRecord_length hdelim hmax hl) hnil]
      simp only [hnext, map_some, map_cons]
      rfl

end

/-- Successive records of a stream without filters are the pieces of its
contents, whatever the sizes of its reads. -/
theorem allRecords_cut (s : PhpStream) (hfresh : s.Fresh)
    (hs : s.readfilters = []) (hsize : s.file.data.length < ulongMod)
    {delim : List UInt8} (hdelim : delim ≠ []) {maxlen : Nat} (hmax : 1 ≤ maxlen) :
    allRecords maxlen delim (s.file.rest.length + 1) s =
        some ((cutRecords delim maxlen s.file.rest).map Prod.fst) ∧
      ((cutRecords delim maxlen s.file.rest).map fun r => r.1 ++ r.2).flatten = s.file.rest := by
  have hrest : s.file.rest = s.file.data.drop s.position := by
    rw [ByteFile.rest, hfresh.position]
  refine ⟨?_, cutRecords_flatten hdelim hmax _⟩
  rw [hrest]
  exact allRecords_eq hs hfresh.at_position hsize hdelim hmax (Nat.lt_succ_self _)

theorem allRecords_cut_sample : allRecords 3 [10] (sampleStream.file.rest.length + 1) sampleStream =
        some [[97, 98], [99, 100]] ∧ ((cutRecords [10] 3 sampleStream.file.rest).map
        fun r => r.1 ++ r.2).flatten = sampleStream.file.rest := by
  obtain ⟨hrun, hflat⟩ := allRecords_cut sampleStream sampleStream_fresh rfl
    (by decide) (cons_ne_nil 10 []) (by decide : 1 ≤ 3)
  exact ⟨hrun.trans (by decide), hflat⟩

end PhpStream

end PhpEngine

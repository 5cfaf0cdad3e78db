/-
Rows that are written with `php_fputcsv` are read back with `php_fgetcsv`, in
a single-byte locale.  The look-ahead over blanks is not bounded by the line:
with a NUL as enclosure it takes the terminator of the line for one.
-/
import PhpEngine.Csv
import Mathlib.Data.List.GetD
import Mathlib.Algebra.Order.BigOperators.Group.List

namespace PhpEngine

open List

variable {text more : List UInt8} {b t : UInt8}

/-- Every byte is a character of its own; what `isspace` says of the bytes
that C names, and of NUL. -/
structure SingleByte (loc : Locale) : Prop where
  mblen : ∀ b rest, b ≠ 0 → loc.mblen (b :: rest) = 1
  space : ∀ b ∈ ([9, 10, 11, 12, 13, 32] : List UInt8), loc.isspace b = true
  nul : loc.isspace 0 = false

/-- Pairwise distinct bytes that are no blanks. -/
structure CsvFormat.Plain (fmt : CsvFormat) (loc : Locale) : Prop where
  delimiter_enclosure : fmt.delimiter ≠ fmt.enclosure
  delimiter_escape : fmt.delimiter ≠ fmt.escapeChar
  enclosure_escape : fmt.enclosure ≠ fmt.escapeChar
  delimiter : loc.isspace fmt.delimiter = false
  enclosure : loc.isspace fmt.enclosure = false
  escape : loc.isspace fmt.escapeChar = false

/-- What stands behind the limit of a line. -/
def IsLineEnd (lineEnd : List UInt8) : Prop :=
  lineEnd = [byte '\n'] ∨ lineEnd = [byte '\r', byte '\n']

section Lines

variable {loc : Locale}

def lastChars (text : List UInt8) : UInt8 × UInt8 :=
  text.foldl (fun last b => (last.2, b)) (0, 0)

theorem lastChars_snoc (text : List UInt8) (b : UInt8) :
    lastChars (text ++ [b]) = ((lastChars text).2, b) := by
  rw [lastChars, foldl_append]
  rfl

theorem lookupLoop_single (hloc : SingleByte loc) (text : List UInt8)
    (ptr : Nat) (last : UInt8 × UInt8) : lookupLoop loc text.length text ptr last =
      (ptr + text.length, text.foldl (fun last b => (last.2, b)) last) := by
  induction text generalizing ptr last with
  | nil => rfl
  | cons b rest ih =>
    have hinc : (if b = 0 then 1 else loc.mblen (b :: rest)) = 1 := by
      split
      · rfl
      next hb => exact hloc.mblen b rest hb
    rw [length_cons, lookupLoop]
    simp only [hinc]
    change lookupLoop loc rest.length rest (ptr + 1) (last.2, b) = _
    rw [ih, foldl_cons, add_assoc, add_comm 1]

theorem lookup_eq (hloc : SingleByte loc) (text : List UInt8) :
    phpFgetcsvLookupTrailingSpaces loc text = if (lastChars text).2 = byte '\n' then
        if (lastChars text).1 = byte '\r' then text.length - 2 else text.length - 1
      else if (lastChars text).2 = byte '\r' then text.length - 1 else text.length := by
  rw [phpFgetcsvLookupTrailingSpaces, lookupLoop_single hloc, zero_add]
  rfl

theorem lookup_plain (hloc : SingleByte loc) (hn : byte '\n' ∉ text) (hr : byte '\r' ∉ text) :
    phpFgetcsvLookupTrailingSpaces loc text = text.length := by
  rw [lookup_eq hloc]
  rcases eq_nil_or_concat text with rfl | ⟨init, b, rfl⟩
  · rfl
  · rw [concat_eq_append] at *
    simp only [lastChars_snoc]
    rw [if_neg, if_neg]
    · rintro rfl
      exact hr (by simp)
    · rintro rfl
      exact hn (by simp)

theorem lookup_line (hloc : SingleByte loc) {line : List UInt8} (hline : byte '\n' ∉ line) :
    ∃ body lineEnd, line ++ [byte '\n'] = body ++ lineEnd ∧ IsLineEnd lineEnd ∧ byte '\n' ∉ body ∧
      phpFgetcsvLookupTrailingSpaces loc (line ++ [byte '\n']) = body.length := by
  rw [lookup_eq hloc, lastChars_snoc]
  by_cases hcr : (lastChars line).2 = byte '\r'
  · rw [if_pos hcr]
    rcases eq_nil_or_concat line with rfl | ⟨init, b, rfl⟩
    · cases hcr
    · rw [concat_eq_append] at *
      rw [lastChars_snoc] at hcr
      cases hcr
      refine ⟨init, [byte '\r', byte '\n'], ?_, .inr rfl, ?_, by simp⟩
      · rw [append_assoc]
        rfl
      · exact fun hmem => hline (mem_append_left _ hmem)
  · rw [if_neg hcr]
    exact ⟨line, [byte '\n'], rfl, .inl rfl, hline, by simp⟩

theorem splitLine_spec (h : byte '\n' ∈ text) : ∃ line rest,
    splitLine text = (line ++ [byte '\n'], rest) ∧ text = line ++ byte '\n' :: rest ∧
      byte '\n' ∉ line := by
  induction text with
  | nil => cases h
  | cons b text ih =>
    rw [splitLine]
    by_cases hb : b = byte '\n'
    · rw [if_pos hb, hb]
      exact ⟨[], text, rfl, rfl, not_mem_nil⟩
    · rw [if_neg hb]
      obtain ⟨line, rest, hsplit, htext, hline⟩ := ih ((mem_cons.mp h).resolve_left (Ne.symm hb))
      refine ⟨b :: line, rest, ?_, congrArg (b :: ·) htext, ?_⟩
      · rw [hsplit]
        rfl
      · rw [mem_cons, not_or]
        exact ⟨Ne.symm hb, hline⟩

section IsLineEnd

variable {body lineEnd rest : List UInt8} (hend : IsLineEnd lineEnd)
include hend

theorem IsLineEnd.next (hn : b ≠ byte '\n') (hr : b ≠ byte '\r')
    (htext : body ++ (lineEnd ++ rest) = b :: more) :
    ∃ body', body = b :: body' ∧ body' ++ (lineEnd ++ rest) = more := by
  cases body with
  | nil =>
    rcases hend with rfl | rfl
    · exact absurd (List.cons.inj htext).1.symm hn
    · exact absurd (List.cons.inj htext).1.symm hr
  | cons x body =>
    obtain ⟨rfl, hmore⟩ := List.cons.inj htext
    exact ⟨body, rfl, hmore⟩

theorem IsLineEnd.within {f : List UInt8} (hn : byte '\n' ∉ f) (hr : byte '\r' ∉ f)
    (htext : body ++ (lineEnd ++ rest) = f ++ more) :
    ∃ body', body = f ++ body' ∧ body' ++ (lineEnd ++ rest) = more := by
  induction f generalizing body with
  | nil => exact ⟨body, rfl, htext⟩
  | cons x f ih =>
    rw [mem_cons, not_or] at hn hr
    obtain ⟨body, rfl, hrest⟩ := hend.next (Ne.symm hn.1) (Ne.symm hr.1) htext
    obtain ⟨body, rfl, hmore⟩ := ih hn.2 hr.2 hrest
    exact ⟨body, rfl, hmore⟩

theorem IsLineEnd.newline (hbody : byte '\n' ∉ body)
    (htext : body ++ (lineEnd ++ rest) = byte '\n' :: more) :
    body = [] ∧ lineEnd = [byte '\n'] ∧ rest = more := by
  cases body with
  | nil =>
    rcases hend with rfl | rfl
    · exact ⟨rfl, rfl, (List.cons.inj htext).2⟩
    · cases (List.cons.inj htext).1
  | cons x body =>
    obtain ⟨rfl, -⟩ := List.cons.inj htext
    exact absurd mem_cons_self hbody

end IsLineEnd

end Lines

/-! The reader between two characters. -/

/-- Between `hunk` and `body` in the current line, with `rest` still in the
stream. -/
structure Standing (r : CsvReader) (hunk body lineEnd rest : List UInt8) : Prop where
  buf : r.buf.drop r.hunkBegin = hunk ++ (body ++ lineEnd)
  bptr : r.bptr = r.hunkBegin + hunk.length
  limit : r.limit = r.bptr + body.length
  ends : IsLineEnd lineEnd
  oneLine : byte '\n' ∉ body
  stream : r.stream = some rest

/-- The length of the first character. -/
def firstLen : List UInt8 → Int
  | [] => 0
  | _ :: _ => 1

/-- With the character at `body` measured. -/
structure Reading (r : CsvReader) (hunk body lineEnd rest : List UInt8) : Prop extends
    Standing r hunk body lineEnd rest where
  incLen : r.incLen = firstLen body

theorem Reading.zero {r : CsvReader} {hunk lineEnd rest : List UInt8}
    (h : Reading r hunk [] lineEnd rest) : r.incLen = 0 :=
  h.incLen

theorem Reading.one {r : CsvReader} {hunk body lineEnd rest : List UInt8}
    (h : Reading r hunk (b :: body) lineEnd rest) : r.incLen = 1 :=
  h.incLen

section Standing

variable {fmt : CsvFormat} {loc : Locale} {r : CsvReader}
  {hunk body lineEnd rest f : List UInt8} {i : Nat}

theorem char_drop (h : r.buf.drop i = b :: text) : r.char i = b := by
  have hget : r.buf[i]? = some b := by
    rw [← Nat.add_zero i, ← getElem?_drop, h]
    rfl
  rw [CsvReader.char, getD_eq_getElem?_getD, hget]
  rfl

theorem copyHunk_temp (h : r.buf.drop r.hunkBegin = hunk ++ text) :
    (r.copyHunk hunk.length).temp = r.temp ++ hunk := by
  refine congrArg (r.temp ++ ·) (ext_getElem (by simp) fun k _ hk => ?_)
  rw [getElem_map, getElem_range]
  have hdrop : r.buf.drop (r.hunkBegin + k) = hunk[k] :: (hunk ++ text).drop (k + 1) := by
    rw [← drop_drop, h, drop_eq_getElem_cons (by rw [length_append]; omega), getElem_append_left hk]
  exact char_drop hdrop

theorem Standing.here (h : Standing r hunk body lineEnd rest) :
    r.buf.drop r.bptr = body ++ lineEnd := by
  rw [h.bptr, ← drop_drop, h.buf, drop_left]

theorem Standing.atLimit (h : Standing r hunk [] lineEnd rest) : r.bptr = r.limit :=
  h.limit.symm

theorem Standing.char (h : Standing r hunk (b :: body) lineEnd rest) : r.char r.bptr = b :=
  char_drop h.here

theorem Standing.below (h : Standing r hunk (b :: body) lineEnd rest) : r.bptr < r.limit := by
  rw [h.limit, length_cons]
  omega

theorem Standing.reading (hloc : SingleByte loc) (h : Standing r hunk body lineEnd rest) :
    Reading (r.measure loc) hunk body lineEnd rest := by
  refine ⟨⟨h.buf, h.bptr, h.limit, h.ends, h.oneLine, h.stream⟩, ?_⟩
  cases body with
  | nil => exact if_neg (Nat.not_lt_of_le h.limit.le)
  | cons b body =>
    simp only [CsvReader.measure]
    rw [if_pos h.below, h.char]
    split
    · rfl
    next hb =>
      obtain ⟨k, hk⟩ : ∃ k, r.limit - r.bptr = k + 1 := ⟨body.length, by
        rw [h.limit, length_cons, Nat.add_sub_cancel_left]⟩
      rw [drop_take, h.here, hk]
      exact hloc.mblen b _ hb

theorem Standing.advance (h : Standing r hunk (b :: body) lineEnd rest) :
    Standing (r.advance 1) (hunk ++ [b]) body lineEnd rest := by
  refine ⟨?_, ?_, ?_, h.ends, fun hmem => h.oneLine (mem_cons_of_mem b hmem), h.stream⟩
  · rw [append_assoc]
    exact h.buf
  · change r.bptr + 1 = _
    rw [h.bptr, length_append, add_assoc]
    rfl
  · change r.limit = r.bptr + 1 + body.length
    rw [h.limit, length_cons]
    omega

section

variable (h : Standing r hunk body lineEnd rest)
include h

theorem Standing.begin : Standing r.beginHunk [] body lineEnd rest :=
  ⟨h.here, rfl, h.limit, h.ends, h.oneLine, h.stream⟩

theorem Standing.copy (n : Nat) : Standing (r.copyHunk n) hunk body lineEnd rest :=
  ⟨h.buf, h.bptr, h.limit, h.ends, h.oneLine, h.stream⟩

theorem Standing.copy_temp : (r.copyHunk (r.bptr - r.hunkBegin)).temp = r.temp ++ hunk := by
  rw [h.bptr, Nat.add_sub_cancel_left]
  exact copyHunk_temp h.buf

theorem Standing.dropLimit : r.buf.drop r.limit = lineEnd := by
  rw [h.limit, ← drop_drop, h.here, drop_left]

end

theorem Standing.lineEnd_temp (h : Standing r hunk [] lineEnd rest) :
    (csvLineEnd .inside r).temp = r.temp ++ (hunk ++ lineEnd) ∧
      (csvLineEnd .inside r).stream = some rest := by
  have hdrop := h.dropLimit
  simp only [csvLineEnd, reduceCtorEq, if_false]
  by_cases hbegin : r.hunkBegin = r.limit
  · have hnil : hunk = [] := by
      have hb := h.bptr
      have hlimit := h.atLimit
      exact length_eq_zero_iff.mp (by omega)
    rw [if_neg (fun hne => hne hbegin), hdrop, hnil]
    exact ⟨rfl, h.stream⟩
  · rw [if_pos hbegin]
    refine ⟨?_, h.stream⟩
    change (r.copyHunk (r.bptr - r.hunkBegin)).temp ++ r.buf.drop r.limit = _
    rw [h.copy_temp, hdrop, append_assoc]

variable (loc) in
/-- A line is fetched. -/
theorem getLine_standing (hloc : SingleByte loc) (h : byte '\n' ∈ text) :
    ∃ line rest, phpStreamGetLine text = some (line, rest) ∧
      ∀ r : CsvReader, r.buf = line → r.hunkBegin = 0 → r.bptr = 0 →
        r.limit = phpFgetcsvLookupTrailingSpaces loc line → r.stream = some rest →
        ∃ body lineEnd, Standing r [] body lineEnd rest ∧ body ++ (lineEnd ++ rest) = text := by
  obtain ⟨line, rest, hsplit, rfl, hline⟩ := splitLine_spec h
  obtain ⟨body, lineEnd, hends, hlineEnd, hbody, hlookup⟩ := lookup_line hloc hline
  refine ⟨line ++ [byte '\n'], rest, ?_, fun r hbuf hbegin hbptr hlimit hstream =>
    ⟨body, lineEnd, ⟨?_, ?_, ?_, hlineEnd, hbody, hstream⟩, ?_⟩⟩
  · rw [phpStreamGetLine, if_neg (by simp), hsplit]
  · rw [hbuf, hbegin, hends]
    rfl
  · rw [hbptr, hbegin]
    rfl
  · rw [hlimit, hlookup, hbptr, Nat.zero_add]
  · rw [← append_assoc, ← hends, append_assoc]
    rfl

end Standing

/-! Enclosed fields. -/

/-- Behind a field, with `tail` to come. -/
def AtTail (r : CsvReader) (tail : List UInt8) : Prop :=
  ∃ body lineEnd rest, Reading r [] body lineEnd rest ∧ body ++ (lineEnd ++ rest) = tail

section Enclosed

variable {fmt : CsvFormat} {loc : Locale} {heap : List UInt8 → Nat → UInt8}
  {r : CsvReader} {hunk body lineEnd rest c tail : List UInt8} {fuel : Nat}

theorem CsvFormat.Plain.ne_space (hfmt : fmt.Plain loc) (hb : loc.isspace b = true) :
    fmt.enclosure ≠ b ∧ fmt.delimiter ≠ b ∧ fmt.escapeChar ≠ b := by
  refine ⟨?_, ?_, ?_⟩
  · rintro rfl
    rw [hfmt.enclosure] at hb
    cases hb
  · rintro rfl
    rw [hfmt.delimiter] at hb
    cases hb
  · rintro rfl
    rw [hfmt.escape] at hb
    cases hb

theorem SingleByte.newline (hloc : SingleByte loc) :
    loc.isspace (byte '\n') = true ∧ loc.isspace (byte '\r') = true :=
  ⟨hloc.space _ (by decide), hloc.space _ (by decide)⟩

theorem fputcsvChars_cons (hb : b ≠ fmt.escapeChar) : fputcsvChars fmt false (b :: c) =
      if b = fmt.enclosure then b :: b :: fputcsvChars fmt false c
      else b :: fputcsvChars fmt false c := by
  rw [fputcsvChars, if_neg hb]
  split
  next h => rw [if_pos h.2, h.2]
  next h => rw [if_neg (fun heq => h ⟨rfl, heq⟩)]

/-- Any character but the enclosure is the next one of the field. -/
theorem chars_first (hc : fmt.escapeChar ∉ c) (hb : b ≠ fmt.enclosure)
    (h : b :: rest = fputcsvChars fmt false c ++ fmt.enclosure :: tail) : ∃ c', c = b :: c' ∧
      rest = fputcsvChars fmt false c' ++ fmt.enclosure :: tail := by
  cases c with
  | nil => exact absurd (List.cons.inj h).1 hb
  | cons x c' =>
    rw [mem_cons, not_or] at hc
    rw [fputcsvChars_cons (Ne.symm hc.1)] at h
    split at h
    next heq =>
      rw [heq] at h
      exact absurd (List.cons.inj h).1 hb
    · obtain ⟨rfl, hrest⟩ := List.cons.inj h
      exact ⟨c', rfl, hrest⟩

/-- An enclosure of the field is doubled. -/
theorem chars_enclosure (hc : fmt.escapeChar ∉ c)
    (h : rest = fputcsvChars fmt false c ++ fmt.enclosure :: tail)
    (hfirst : ∃ more, rest = fmt.enclosure :: more) : c = [] ∧ rest = fmt.enclosure :: tail ∨
      ∃ c', c = fmt.enclosure :: c' ∧ rest = fmt.enclosure :: fmt.enclosure ::
        (fputcsvChars fmt false c' ++ fmt.enclosure :: tail) := by
  cases c with
  | nil => exact .inl ⟨rfl, h⟩
  | cons x c' =>
    obtain ⟨more, rfl⟩ := hfirst
    rw [mem_cons, not_or] at hc
    rw [fputcsvChars_cons (Ne.symm hc.1)] at h
    split at h
    next heq =>
      rw [heq] at h
      exact .inr ⟨c', by rw [heq], h⟩
    next hne => exact absurd (List.cons.inj h).1.symm hne

variable (heap fuel) in
/-- The closing enclosure: what follows it ends the field. -/
theorem csvEnclosed_closing (hfmt : fmt.Plain loc) (ht : t = fmt.delimiter ∨ t = byte '\n')
    (h : Reading r (hunk ++ [fmt.enclosure]) body lineEnd rest)
    (htext : body ++ (lineEnd ++ rest) = t :: more) :
    csvEnclosed fmt loc heap (fuel + 1) .closing r = some (.field (csvClose r)) ∧
      AtTail (csvClose r) (t :: more) ∧ (csvClose r).temp = r.temp ++ hunk := by
  have hend : csvEnclosed fmt loc heap (fuel + 1) .closing r = some (.field (csvClose r)) := by
    rw [csvEnclosed]
    cases body with
    | nil => rw [if_pos h.zero, if_pos rfl]
    | cons b body =>
      obtain ⟨rfl, -⟩ := List.cons.inj htext
      have hne : b ≠ fmt.enclosure := by
        rcases ht with rfl | rfl
        · exact hfmt.delimiter_enclosure
        · exact absurd mem_cons_self h.oneLine
      rw [h.one, if_neg (by decide), if_pos (by decide), h.char]
      simp only [ne_eq, hne, not_false_eq_true, if_true]
  have hlength : r.bptr - r.hunkBegin - 1 = hunk.length := by
    rw [h.bptr, length_append, length_singleton]
    omega
  have hbuf := h.buf
  rw [append_assoc] at hbuf
  refine ⟨hend, ⟨body, lineEnd, rest, ⟨(h.copy _).begin, h.incLen⟩, htext⟩, ?_⟩
  change (r.copyHunk (r.bptr - r.hunkBegin - 1)).temp = _
  rw [hlength, copyHunk_temp hbuf]

variable (hloc : SingleByte loc)
include hloc

variable (fmt heap fuel) in
/-- The line ends inside the field. -/
theorem csvEnclosed_lineEnd (hinc : r.incLen = 0)
    (hstream : (csvLineEnd .inside r).stream = some rest) (hrest : byte '\n' ∈ rest) :
    ∃ r' body lineEnd rest', csvEnclosed fmt loc heap (fuel + 1) .inside r =
        csvEnclosed fmt loc heap fuel .inside r' ∧ Reading r' [] body lineEnd rest' ∧
      body ++ (lineEnd ++ rest') = rest ∧ r'.temp = (csvLineEnd .inside r).temp := by
  obtain ⟨line, rest', hline, hstart⟩ := getLine_standing loc hloc hrest
  obtain ⟨body, lineEnd, hstanding, hrest'⟩ :=
    hstart (csvRefill loc heap (csvLineEnd .inside r) line rest') rfl rfl rfl rfl rfl
  refine ⟨_, body, lineEnd, rest', ?_, hstanding.reading hloc, hrest', rfl⟩
  rw [csvEnclosed, if_pos hinc, if_neg (by decide)]
  simp only [hstream, hline]

variable (fmt heap fuel) in
theorem csvEnclosed_char (h : Reading r hunk (b :: body) lineEnd rest) :
    csvEnclosed fmt loc heap (fuel + 1) .inside r = csvEnclosed fmt loc heap fuel
          (if b = fmt.enclosure then .closing else if b = fmt.escapeChar then .escaped else .inside)
          ((r.advance 1).measure loc) ∧
      Reading ((r.advance 1).measure loc) (hunk ++ [b]) body lineEnd rest := by
  refine ⟨?_, h.advance.reading hloc⟩
  rw [csvEnclosed, h.one, if_neg (by decide), if_pos (by decide), h.char]

variable (hfmt : fmt.Plain loc)
include hfmt

theorem lineEnd_first (hc : fmt.escapeChar ∉ c) (hend : IsLineEnd lineEnd) (h : lineEnd ++ rest =
      fputcsvChars fmt false c ++ fmt.enclosure :: tail) : ∃ c', c = lineEnd ++ c' ∧
      rest = fputcsvChars fmt false c' ++ fmt.enclosure :: tail := by
  have hn := (hfmt.ne_space hloc.newline.1).1.symm
  have hr := (hfmt.ne_space hloc.newline.2).1.symm
  rcases hend with rfl | rfl
  · exact chars_first hc hn h
  · obtain ⟨c₁, rfl, h₁⟩ := chars_first hc hr h
    obtain ⟨c₂, rfl, h₂⟩ := chars_first (fun hmem => hc (mem_cons_of_mem _ hmem)) hn h₁
    exact ⟨c₂, rfl, h₂⟩

variable (heap fuel) in
theorem csvEnclosed_double (h : Reading r (hunk ++ [fmt.enclosure]) body lineEnd rest)
    (htext : body ++ (lineEnd ++ rest) = fmt.enclosure :: tail) :
    ∃ r' body', csvEnclosed fmt loc heap (fuel + 1) .closing r =
        csvEnclosed fmt loc heap fuel .inside r' ∧ Reading r' [] body' lineEnd rest ∧
      body' ++ (lineEnd ++ rest) = tail ∧ r'.temp = r.temp ++ (hunk ++ [fmt.enclosure]) := by
  obtain ⟨body, rfl, htail⟩ :=
    h.ends.next (hfmt.ne_space hloc.newline.1).1 (hfmt.ne_space hloc.newline.2).1 htext
  refine ⟨_, body, ?_, (h.copy (r.bptr - r.hunkBegin)).advance.begin.reading hloc, htail,
    h.copy_temp⟩
  rw [csvEnclosed, h.one, if_neg (by decide), if_pos (by decide), h.char]
  simp

variable (heap) in
/-- An enclosed field, from inside it to its closing enclosure. -/
theorem csvEnclosed_inside (ht : t = fmt.delimiter ∨ t = byte '\n')
    (hnl : byte '\n' ∈ t :: more) (hc : fmt.escapeChar ∉ c) (hfuel : 2 * c.length + 2 ≤ fuel)
    (h : Reading r hunk body lineEnd rest) (htext : body ++ (lineEnd ++ rest) =
      fputcsvChars fmt false c ++ fmt.enclosure :: t :: more) :
    ∃ r', csvEnclosed fmt loc heap fuel .inside r = some (.field r') ∧
      AtTail r' (t :: more) ∧ r'.temp = r.temp ++ (hunk ++ c) := by
  induction hn : c.length using Nat.strong_induction_on generalizing c r
    hunk body lineEnd rest fuel with
  | _ n ih =>
    subst hn
    obtain ⟨fuel, rfl⟩ : ∃ f, fuel = f + 2 := ⟨fuel - 2, by omega⟩
    cases body with
    | nil =>
      obtain ⟨c', rfl, rfl⟩ := lineEnd_first hloc hfmt hc h.ends htext
      have hpos : 0 < lineEnd.length := by rcases h.ends with rfl | rfl <;> simp
      rw [length_append] at hfuel
      obtain ⟨hline, hstream⟩ := h.lineEnd_temp
      obtain ⟨r₁, body, lineEnd, rest, hstep, hread, htext₁, htemp₁⟩ := csvEnclosed_lineEnd fmt heap
        (fuel + 1) hloc h.incLen hstream (mem_append_right _ (mem_cons_of_mem _ hnl))
      obtain ⟨r', hrun, htail, htemp⟩ := ih c'.length (by rw [length_append]; omega)
        (fun hx => hc (mem_append_right _ hx)) (show 2 * c'.length + 2 ≤ fuel + 1 by omega)
        hread htext₁ rfl
      refine ⟨r', hstep.trans hrun, htail, ?_⟩
      rw [htemp, htemp₁, hline]
      simp
    | cons b body =>
      obtain ⟨hstep, hnext⟩ := csvEnclosed_char fmt heap (fuel + 1) hloc h
      rw [hstep]
      by_cases hb : b = fmt.enclosure
      · subst hb
        rw [if_pos rfl]
        rcases chars_enclosure hc htext ⟨_, rfl⟩ with
          ⟨rfl, htext'⟩ | ⟨c', rfl, htext'⟩
        · -- The closing enclosure.
          obtain ⟨hrun, htail, htemp⟩ :=
            csvEnclosed_closing heap fuel hfmt ht hnext (List.cons.inj htext').2
          refine ⟨_, hrun, htail, ?_⟩
          rw [htemp, append_nil]
          rfl
        · obtain ⟨r₂, body₂, hstep₂, hread₂, htext₂, htemp₂⟩ :=
            csvEnclosed_double heap fuel hloc hfmt hnext (List.cons.inj htext').2
          obtain ⟨r', hrun, htail, htemp⟩ := ih c'.length (Nat.lt_succ_self _)
            (fun hmem => hc (mem_cons_of_mem _ hmem))
            (show 2 * c'.length + 2 ≤ fuel by rw [length_cons] at hfuel; omega) hread₂ htext₂ rfl
          refine ⟨r', hstep₂.trans hrun, htail, ?_⟩
          rw [htemp, htemp₂]
          simp [CsvReader.measure, CsvReader.advance]
      · -- Any other character of the field.
        obtain ⟨c', rfl, htext'⟩ := chars_first hc hb htext
        have hx : b ≠ fmt.escapeChar := fun heq => hc (heq ▸ mem_cons_self)
        rw [if_neg hb, if_neg hx]
        obtain ⟨r', hrun, htail, htemp⟩ := ih c'.length (Nat.lt_succ_self _)
          (fun hmem => hc (mem_cons_of_mem _ hmem))
          (show 2 * c'.length + 2 ≤ fuel + 1 by rw [length_cons] at hfuel; omega) hnext htext' rfl
        refine ⟨r', hrun, htail, ?_⟩
        rw [htemp]
        simp [CsvReader.measure, CsvReader.advance]

variable (heap) in
/-- Behind the opening enclosure.  The first character is looked at even when
it is a line end; it is not copied twice. -/
theorem csvEnclosed_open (ht : t = fmt.delimiter ∨ t = byte '\n')
    (hnl : byte '\n' ∈ t :: more) (hc : fmt.escapeChar ∉ c) (hfuel : 2 * c.length + 3 ≤ fuel)
    (h : Standing r [] body lineEnd rest) (hinc : r.incLen = 1) (htext : body ++ (lineEnd ++ rest) =
      fputcsvChars fmt false c ++ fmt.enclosure :: t :: more) :
    ∃ r', csvEnclosed fmt loc heap fuel .inside r = some (.field r') ∧
      AtTail r' (t :: more) ∧ r'.temp = r.temp ++ c := by
  cases body with
  | cons b body =>
    have hread : Reading r [] (b :: body) lineEnd rest := ⟨h, hinc⟩
    exact csvEnclosed_inside heap hloc hfmt ht hnl hc (by omega) hread htext
  | nil =>
    obtain ⟨c', rfl, rfl⟩ := lineEnd_first hloc hfmt hc h.ends htext
    obtain ⟨b, rem, rfl, hspace⟩ : ∃ b rem, lineEnd = b :: rem ∧ loc.isspace b = true := by
      rcases h.ends with rfl | rfl
      · exact ⟨_, _, rfl, hloc.newline.1⟩
      · exact ⟨_, _, rfl, hloc.newline.2⟩
    obtain ⟨fuel, rfl⟩ : ∃ f, fuel = f + 2 := ⟨fuel - 2, by omega⟩
    have hstep : csvEnclosed fmt loc heap (fuel + 2) .inside r =
        csvEnclosed fmt loc heap (fuel + 1) .inside ((r.advance 1).measure loc) := by
      rw [csvEnclosed, hinc, if_neg (by decide), if_pos (by decide), char_drop h.here,
        if_neg (hfmt.ne_space hspace).1.symm, if_neg (hfmt.ne_space hspace).2.2.symm]
    have hbegin : r.hunkBegin = r.limit := h.bptr.symm.trans h.atLimit
    have hline : csvLineEnd .inside ((r.advance 1).measure loc) = { (r.advance 1).measure loc with
          temp := r.temp ++ r.buf.drop r.limit } := by
      simp only [csvLineEnd, reduceCtorEq, if_false]
      rw [if_neg (fun hne => hne hbegin)]
      rfl
    have hzero : ((r.advance 1).measure loc).incLen = 0 :=
      if_neg (Nat.not_lt_of_le (h.atLimit ▸ Nat.le_succ r.bptr))
    obtain ⟨r₁, body, lineEnd, rest, hrefill, hread, htext₁, htemp₁⟩ := csvEnclosed_lineEnd fmt heap
      fuel hloc hzero (by rw [hline]; exact h.stream) (mem_append_right _ (mem_cons_of_mem _ hnl))
    obtain ⟨r', hrun, htail, htemp⟩ := csvEnclosed_inside heap hloc hfmt ht hnl
      (fun hx => hc (mem_append_right _ hx))
      (show 2 * c'.length + 2 ≤ fuel by rw [length_append, length_cons] at hfuel; omega)
      hread htext₁
    refine ⟨r', (hstep.trans hrefill).trans hrun, htail, ?_⟩
    rw [htemp, htemp₁, hline, ← h.atLimit, h.here, append_assoc]
    rfl

end Enclosed

/-! The parts of a turn. -/

section Turn

variable {fmt : CsvFormat} {loc : Locale} {heap : List UInt8 → Nat → UInt8}
  {r : CsvReader} {hunk body lineEnd rest f : List UInt8} {fuel i : Nat}

/-- In a line, with `tail` to come. -/
def Ahead (r : CsvReader) (tail : List UInt8) : Prop :=
  ∃ hunk body lineEnd rest, Standing r hunk body lineEnd rest ∧ body ++ (lineEnd ++ rest) = tail

section

variable (hloc : SingleByte loc)
include hloc

variable (fmt) in
theorem csvSkip_reads (ht : t = fmt.delimiter ∨ t = byte '\n')
    (hf : fmt.delimiter ∉ f ∧ byte '\n' ∉ f ∧ byte '\r' ∉ f)
    (h : Reading r hunk body lineEnd rest) (htext : body ++ (lineEnd ++ rest) = f ++ t :: more) :
    ∃ r' body', csvSkip fmt loc (r.limit - r.bptr + 1) r = r' ∧
      Reading r' (hunk ++ f) body' lineEnd rest ∧ body' ++ (lineEnd ++ rest) = t :: more ∧
      r'.temp = r.temp := by
  induction f generalizing r hunk body with
  | nil =>
    refine ⟨r, body, ?_, by rwa [append_nil], htext, rfl⟩
    rw [csvSkip]
    cases body with
    | nil => rw [if_pos h.zero]
    | cons b body =>
      obtain ⟨rfl, -⟩ := List.cons.inj htext
      have hb : b = fmt.delimiter := ht.resolve_right fun heq => h.oneLine (heq ▸ mem_cons_self)
      simp [h.one, h.char, hb]
  | cons x f ih =>
    obtain ⟨hD, hn, hr⟩ := hf
    rw [mem_cons, not_or] at hD hn hr
    obtain ⟨body, rfl, hrest⟩ := h.ends.next (Ne.symm hn.1) (Ne.symm hr.1) htext
    obtain ⟨r', body', hrun, hread, htail, htemp⟩ :=
      ih ⟨hD.2, hn.2, hr.2⟩ (h.advance.reading hloc) hrest
    refine ⟨r', body', ?_, by rwa [append_assoc] at hread, htail, htemp⟩
    have hcount : r.limit - r.bptr = (r.advance 1).limit - (r.advance 1).bptr + 1 := by
      have hlt := h.below
      change r.limit - r.bptr = r.limit - (r.bptr + 1) + 1
      omega
    rw [csvSkip]
    simp only [h.one, one_ne_zero, Int.reduceNeg, Int.reduceEq, or_self, if_false, h.char,
      Ne.symm hD.1, and_false, hcount]
    exact hrun

theorem Standing.delimiter (hfmt : fmt.Plain loc) (h : Standing r hunk body lineEnd rest)
    (htext : body ++ (lineEnd ++ rest) = fmt.delimiter :: more) :
    ∃ body', body = fmt.delimiter :: body' ∧ body' ++ (lineEnd ++ rest) = more :=
  h.ends.next (hfmt.ne_space hloc.newline.1).2.1 (hfmt.ne_space hloc.newline.2).2.1 htext

/-- Behind a field: at the next one, or at the end of the row. -/
structure FieldRead (fmt : CsvFormat) (r : CsvReader) (f : List UInt8) (t : UInt8)
    (more : List UInt8) : Prop where
  temp : r.temp = f
  next : t = fmt.delimiter → r.incLen = 1 ∧ Ahead r more
  last : t = byte '\n' → r.incLen = 0 ∧ r.stream = some more

theorem csvAfterField_reads (hfmt : fmt.Plain loc) (ht : t = fmt.delimiter ∨ t = byte '\n')
    (h : AtTail r (t :: more)) : FieldRead fmt (csvAfterField fmt loc r) r.temp t more := by
  obtain ⟨body, lineEnd, rest, hreading, htext⟩ := h
  obtain ⟨r', body', hskip, hread, htail, htemp⟩ :=
    csvSkip_reads fmt (f := []) hloc ht (by simp) hreading htext
  have hresult : csvAfterField fmt loc r =
      (r'.copyHunk (r'.bptr - r'.hunkBegin)).advance r'.incLen.toNat := by
    rw [csvAfterField, hskip]
  rw [hresult]
  refine ⟨?_, ?_, ?_⟩
  · change (r'.copyHunk (r'.bptr - r'.hunkBegin)).temp = _
    rw [hread.copy_temp, htemp]
    simp
  · rintro rfl
    obtain ⟨rem, rfl, hrem⟩ := hread.delimiter hloc hfmt htail
    rw [hread.one]
    exact ⟨hread.one, _, _, _, _, (hread.copy _).advance, hrem⟩
  · rintro rfl
    obtain ⟨rfl, rfl, rfl⟩ := hread.ends.newline hread.oneLine htail
    exact ⟨hread.zero, hread.stream⟩

/-- A field without any of the characters that enclose it. -/
structure PlainField (fmt : CsvFormat) (f : List UInt8) : Prop where
  delimiter : fmt.delimiter ∉ f
  enclosure : fmt.enclosure ∉ f
  newline : byte '\n' ∉ f
  carriage : byte '\r' ∉ f
  tab : byte '\t' ∉ f
  blank : byte ' ' ∉ f

theorem csvPlain_reads (hfmt : fmt.Plain loc) (ht : t = fmt.delimiter ∨ t = byte '\n')
    (hf : PlainField fmt f) (h : Reading r hunk body lineEnd rest) (hempty : r.temp = [])
    (htext : body ++ (lineEnd ++ rest) = f ++ t :: more) :
    FieldRead fmt (csvPlain fmt loc r) f t more := by
  have hbegin : Reading r.beginHunk [] body lineEnd rest := ⟨h.begin, h.incLen⟩
  obtain ⟨r', body', hskip, hread, htail, htemp⟩ :=
    csvSkip_reads fmt hloc ht ⟨hf.delimiter, hf.newline, hf.carriage⟩ hbegin htext
  change csvSkip fmt loc (r.limit - r.bptr + 1) r.beginHunk = r' at hskip
  have hcopy : (r'.copyHunk (r'.bptr - r'.hunkBegin)).temp = f := by
    rw [hread.copy_temp, htemp]
    change r.temp ++ f = f
    rw [hempty]
    rfl
  have hresult : csvPlain fmt loc r =
      if r'.char r'.bptr = fmt.delimiter then { r' with temp := f }.advance 1
      else { r' with temp := f } := by
    have htake : f.take (phpFgetcsvLookupTrailingSpaces loc f) = f := by
      rw [lookup_plain hloc hf.newline hf.carriage, take_length]
    simp only [csvPlain, hskip, hcopy, htake]
    rfl
  have hne := (hfmt.ne_space hloc.newline.1).2.1
  have hstanding : Standing { r' with temp := f } f body' lineEnd rest :=
    ⟨hread.buf, hread.bptr, hread.limit, hread.ends, hread.oneLine, hread.stream⟩
  rw [hresult]
  rcases ht with rfl | rfl
  · obtain ⟨rem, rfl, hrem⟩ := hread.delimiter hloc hfmt htail
    rw [if_pos hread.char]
    exact ⟨rfl, fun _ => ⟨hread.one, _, _, _, _, hstanding.advance, hrem⟩,
      fun hnl => absurd hnl hne⟩
  · obtain ⟨rfl, rfl, rfl⟩ := hread.ends.newline hread.oneLine htail
    rw [if_neg (by rw [char_drop hread.here]; exact hne.symm)]
    exact ⟨rfl, fun hD => absurd hD.symm hne, fun _ => ⟨hread.zero, hread.stream⟩⟩

end

theorem char_end (r : CsvReader) : r.char r.buf.length = 0 := by
  rw [CsvReader.char, getD_eq_default _ _ le_rfl, if_pos rfl]

variable (fmt loc) in
theorem csvBlanks_cons (h : r.buf.drop i = b :: text) :
    csvBlanks fmt loc r (b :: text).length i =
      (if b ≠ fmt.delimiter ∧ loc.isspace b then csvBlanks fmt loc r text.length (i + 1) else i) ∧
    r.buf.drop (i + 1) = text := by
  refine ⟨?_, by rw [← drop_drop, h]; rfl⟩
  rw [length_cons, csvBlanks, char_drop h]

theorem csvBlanks_plain (hloc : SingleByte loc) (hfmt : fmt.Plain loc)
    (hbuf : r.buf.drop i = f ++ t :: text) (hf : fmt.enclosure ∉ f)
    (hend : t = fmt.delimiter ∨ t = byte '\n' ∧ text = [] ∧
      (fmt.enclosure ≠ 0 ∨ ∃ b ∈ f, loc.isspace b = false)) :
    r.char (csvBlanks fmt loc r (f ++ t :: text).length i) ≠ fmt.enclosure := by
  induction f generalizing i with
  | nil =>
    obtain ⟨hblanks, hdrop⟩ := csvBlanks_cons fmt loc hbuf
    rw [nil_append, hblanks]
    rcases hend with rfl | ⟨rfl, rfl, hE⟩
    · rw [if_neg (fun h => h.1 rfl), char_drop hbuf]
      exact hfmt.delimiter_enclosure
    · rw [if_pos ⟨(hfmt.ne_space hloc.newline.1).2.1.symm, hloc.newline.1⟩]
      have hlast : i + 1 = r.buf.length := by
        have hlength := congrArg List.length hbuf
        simp at hlength
        omega
      rw [length_nil, csvBlanks, hlast, char_end]
      rcases hE with hE | ⟨b, hb, _⟩
      · exact Ne.symm hE
      · cases hb
  | cons x f ih =>
    rw [cons_append] at hbuf
    obtain ⟨hblanks, hdrop⟩ := csvBlanks_cons fmt loc hbuf
    rw [mem_cons, not_or] at hf
    rw [cons_append, hblanks]
    split
    next hblank =>
      refine ih hdrop hf.2 (hend.imp id fun ⟨ht, hrem, hE⟩ => ⟨ht, hrem, hE.imp id ?_⟩)
      rintro ⟨b, hb, hspace⟩
      rcases mem_cons.mp hb with rfl | hb
      · rw [hblank.2] at hspace
        cases hspace
      · exact ⟨b, hb, hspace⟩
    · rw [char_drop hbuf]
      exact Ne.symm hf.1

/-- Over blanks at the end of a line it comes to the terminator. -/
theorem csvBlanks_all (hfmt : fmt.Plain loc) (hbuf : r.buf.drop i = f)
    (hf : ∀ b ∈ f, loc.isspace b = true) :
    csvBlanks fmt loc r f.length i = i + f.length := by
  induction f generalizing i with
  | nil => rfl
  | cons x f ih =>
    obtain ⟨hblanks, hdrop⟩ := csvBlanks_cons fmt loc hbuf
    have hspace := hf x mem_cons_self
    rw [hblanks, if_pos ⟨(hfmt.ne_space hspace).2.1.symm, hspace⟩,
      ih hdrop (fun b hb => hf b (mem_cons_of_mem x hb)), length_cons]
    omega

/-- The start of a field with an empty `temp` and its first character
measured. -/
def CsvReader.ready (loc : Locale) (r : CsvReader) : CsvReader :=
  { r with temp := [] }.measure loc

theorem Standing.ready (hloc : SingleByte loc) (h : Standing r hunk body lineEnd rest) :
    Reading (r.ready loc) hunk body lineEnd rest :=
  Standing.reading (r := { r with temp := [] }) hloc
    ⟨h.buf, h.bptr, h.limit, h.ends, h.oneLine, h.stream⟩

/-- Where the look-ahead from `bptr` ends. -/
def csvAhead (fmt : CsvFormat) (loc : Locale) (r : CsvReader) : Nat :=
  csvBlanks fmt loc r (r.buf.length - r.bptr) r.bptr

theorem csvStart_eq (fmt : CsvFormat) (loc : Locale) (r : CsvReader) : csvStart fmt loc r =
      if (r.ready loc).incLen = 1 ∧
          (r.ready loc).char (csvAhead fmt loc (r.ready loc)) = fmt.enclosure
      then { r.ready loc with bptr := csvAhead fmt loc (r.ready loc) }
      else r.ready loc := by
  simp only [csvStart, CsvReader.ready, csvAhead]
  by_cases hone : ({ r with temp := [] }.measure loc).incLen = 1
  · simp only [hone, if_true, true_and]
  · simp only [hone, if_false, false_and]

theorem Standing.ahead (h : Standing r hunk body lineEnd rest) :
    csvAhead fmt loc r = csvBlanks fmt loc r (body ++ lineEnd).length r.bptr := by
  rw [csvAhead, ← length_drop, h.here]

theorem csvStart_enclosed (hloc : SingleByte loc) (hfmt : fmt.Plain loc)
    (h : Standing r hunk (fmt.enclosure :: body) lineEnd rest) :
    csvStart fmt loc r = r.ready loc := by
  have hahead : csvAhead fmt loc (r.ready loc) = (r.ready loc).bptr := by
    have hhere := (h.ready hloc).here
    rw [cons_append] at hhere
    rw [(h.ready hloc).ahead, cons_append, (csvBlanks_cons fmt loc hhere).1, if_neg]
    simp [hfmt.enclosure]
  rw [csvStart_eq, hahead]
  split <;> rfl

theorem csvStart_plain (hloc : SingleByte loc) (hfmt : fmt.Plain loc)
    (ht : t = fmt.delimiter ∨ t = byte '\n') (hf : PlainField fmt f)
    (hgood : t = fmt.delimiter ∨ f = [] ∨ fmt.enclosure ≠ 0 ∨ ∃ b ∈ f, loc.isspace b = false)
    (h : Standing r hunk body lineEnd rest) (htext : body ++ (lineEnd ++ rest) = f ++ t :: more) :
    csvStart fmt loc r = r.ready loc := by
  rw [csvStart_eq, if_neg]
  rintro ⟨hone, hchar⟩
  refine absurd hchar ?_
  have hready := h.ready hloc
  obtain ⟨body, rfl, hmore⟩ := h.ends.within hf.newline hf.carriage htext
  have hne := (hfmt.ne_space hloc.newline.1).2.1
  rw [hready.ahead, append_assoc]
  have hbuf := hready.here
  rw [append_assoc] at hbuf
  rcases ht with rfl | rfl
  · obtain ⟨rem, rfl, -⟩ := h.ends.next hne (hfmt.ne_space hloc.newline.2).2.1 hmore
    exact csvBlanks_plain hloc hfmt hbuf hf.enclosure (.inl rfl)
  · obtain ⟨rfl, rfl, -⟩ :=
      h.ends.newline (fun hmem => h.oneLine (mem_append_right f hmem)) hmore
    rcases hgood with hD | rfl | hE
    · exact absurd hD.symm hne
    · -- An empty last field is not looked at.
      rw [hready.zero] at hone
      cases hone
    · exact csvBlanks_plain hloc hfmt hbuf hf.enclosure (.inr ⟨rfl, rfl, hE⟩)

theorem plainField_of (h : fputcsvEnclosed fmt f = false) : PlainField fmt f := by
  simp only [fputcsvEnclosed, Bool.or_eq_false_iff, contains_eq_mem, decide_eq_false_iff_not] at h
  obtain ⟨⟨⟨⟨⟨⟨hD, hE⟩, _⟩, hn⟩, hr⟩, ht⟩, hb⟩ := h
  exact ⟨hD, hE, hn, hr, ht, hb⟩

variable (heap) in
/-- What a turn of the main loop does with a field that was written. -/
theorem csvFields_field (first : Bool) (values : List CsvValue)
    (hloc : SingleByte loc) (hfmt : fmt.Plain loc) (ht : t = fmt.delimiter ∨ t = byte '\n')
    (hnl : byte '\n' ∈ t :: more) (hf : fmt.escapeChar ∉ f)
    (hfirst : first = true → f ≠ [] ∨ t = fmt.delimiter)
    (hgood : t = fmt.delimiter ∨ f = [] ∨ fmt.enclosure ≠ 0 ∨
      fputcsvEnclosed fmt f = true ∨ ∃ b ∈ f, loc.isspace b = false)
    (hfuel : 2 * f.length + 3 ≤ fuel) (h : Ahead r (fputcsvField fmt f ++ t :: more)) :
    ∃ r', FieldRead fmt r' f t more ∧
      csvFields fmt loc heap (fuel + 1) first r values = if 0 < r'.incLen then
          csvFields fmt loc heap fuel false r' (values ++ [.string f])
        else some (.array (values ++ [.string f]), r'.stream) := by
  obtain ⟨hunk, body, lineEnd, rest, h, htext⟩ := h
  have hready := h.ready hloc
  rw [fputcsvField] at htext
  cases hkind : fputcsvEnclosed fmt f with
  | true =>
    rw [hkind, if_pos rfl, cons_append, append_assoc] at htext
    obtain ⟨rem, rfl, hrem⟩ :=
      h.ends.next (hfmt.ne_space hloc.newline.1).1 (hfmt.ne_space hloc.newline.2).1 htext
    obtain ⟨r₁, hrun, htail, htemp⟩ := csvEnclosed_open heap hloc hfmt ht
      hnl hf hfuel hready.advance.begin hready.one hrem
    have hread := csvAfterField_reads hloc hfmt ht htail
    have htemp' : r₁.temp = f := htemp
    rw [htemp'] at hread
    refine ⟨_, hread, ?_⟩
    rw [csvFields, csvStart_enclosed hloc hfmt h]
    simp only
    rw [if_neg (fun hnull => Nat.ne_of_lt hready.below hnull.2),
      if_pos ⟨by rw [hready.one]; decide, hready.char⟩, hrun]
    simp only [Option.bind_eq_bind, Option.bind_some, hread.temp]
    rfl
  | false =>
    have hplain := plainField_of hkind
    rw [hkind, if_neg (by simp)] at htext
    have hread := csvPlain_reads hloc hfmt ht hplain hready rfl htext
    rw [hkind, or_iff_right (by simp : ¬false = true)] at hgood
    refine ⟨_, hread, ?_⟩
    rw [csvFields, csvStart_plain hloc hfmt ht hplain hgood h htext]
    -- The first character is the field's own, or what ends the field.
    have hchar : ∃ b more', f ++ t :: more = b :: more' ∧ b ≠ fmt.enclosure := by
      cases f with
      | nil =>
        refine ⟨t, more, rfl, ?_⟩
        rcases ht with rfl | rfl
        · exact hfmt.delimiter_enclosure
        · exact (hfmt.ne_space hloc.newline.1).1.symm
      | cons x f => exact ⟨x, _, rfl, fun heq => hplain.enclosure (heq ▸ mem_cons_self)⟩
    obtain ⟨b, more', hfirstChar, hb⟩ := hchar
    have hnull : ¬ (first = true ∧ (r.ready loc).bptr = (r.ready loc).limit) := by
      rintro ⟨htrue, hlimit⟩
      cases f with
      | nil =>
        rcases hfirst htrue with hne | rfl
        · exact absurd rfl hne
        · obtain ⟨rem, rfl, -⟩ := h.delimiter hloc hfmt htext
          exact absurd hlimit (Nat.ne_of_lt hready.below)
      | cons x f =>
        obtain ⟨rem, rfl, -⟩ := h.ends.within hplain.newline hplain.carriage htext
        exact absurd hlimit (Nat.ne_of_lt hready.below)
    have hopen : ¬ ((r.ready loc).incLen ≠ 0 ∧
        (r.ready loc).char (r.ready loc).bptr = fmt.enclosure) := by
      rintro ⟨hne, hchar⟩
      cases body with
      | nil => exact hne hready.zero
      | cons x body =>
        rw [hfirstChar] at htext
        obtain ⟨rfl, -⟩ := List.cons.inj htext
        exact hb (hready.char.symm.trans hchar)
    simp only
    rw [if_neg hnull, if_neg hopen, hread.temp]

end Turn

/-! Rows. -/

/-- The line of a row, without its newline. -/
def csvRowText (fmt : CsvFormat) : List (List UInt8) → List UInt8
  | [] => []
  | [field] => fputcsvField fmt field
  | field :: next :: rest =>
    fputcsvField fmt field ++ fmt.delimiter :: csvRowText fmt (next :: rest)

theorem fputcsvFields_eq (fmt : CsvFormat) (fields : List (List UInt8))
    (i count : Nat) (h : count = i + fields.length) :
    fputcsvFields fmt count i fields = csvRowText fmt fields := by
  induction fields generalizing i with
  | nil => rfl
  | cons field rest ih =>
    rw [length_cons] at h
    cases rest with
    | nil =>
      rw [fputcsvFields, if_neg (by simp at h; omega)]
      simp [fputcsvFields, csvRowText]
    | cons next rest =>
      rw [fputcsvFields, if_pos (by simp at h; omega),
        ih (i + 1) (by omega), csvRowText, append_assoc]
      rfl

/-- The last field is made of blanks and is not enclosed. -/
def BlankLast (fmt : CsvFormat) (loc : Locale) (row : List (List UInt8)) : Prop :=
  ∃ init field, row = init ++ [field] ∧ field ≠ [] ∧ fputcsvEnclosed fmt field = false ∧
    ∀ b ∈ field, loc.isspace b = true

def csvStrings (row : List (List UInt8)) : List CsvValue :=
  row.map CsvValue.string

section Rows

variable {fmt : CsvFormat} {loc : Locale} {heap : List UInt8 → Nat → UInt8}
  {r : CsvReader} {after field : List UInt8}
  {row fields : List (List UInt8)} {values : List CsvValue} {first : Bool} {fuel : Nat}

theorem blankLast_single : BlankLast fmt loc [field] ↔ field ≠ [] ∧
    fputcsvEnclosed fmt field = false ∧ ∀ b ∈ field, loc.isspace b = true := by
  constructor
  · rintro ⟨init, last, heq, hlast⟩
    cases init with
    | nil => exact (List.cons.inj heq).1 ▸ hlast
    | cons x init => simp at heq
  · exact fun h => ⟨[], field, rfl, h⟩

theorem blankLast_cons {next : List UInt8} :
    BlankLast fmt loc (field :: next :: row) ↔ BlankLast fmt loc (next :: row) := by
  constructor
  · rintro ⟨init, last, heq, hlast⟩
    cases init with
    | nil => cases heq
    | cons x init => exact ⟨init, last, (List.cons.inj heq).2, hlast⟩
  · rintro ⟨init, last, heq, hlast⟩
    exact ⟨field :: init, last, by rw [heq]; rfl, hlast⟩

variable (heap values first) in
theorem csvFields_next (hloc : SingleByte loc) (hfmt : fmt.Plain loc)
    {next : List UInt8} (hfield : fmt.escapeChar ∉ field) (hfuel : 2 * field.length + 3 ≤ fuel)
    (h : Ahead r (csvRowText fmt (field :: next :: row) ++ byte '\n' :: after)) :
    ∃ r', Ahead r' (csvRowText fmt (next :: row) ++ byte '\n' :: after) ∧
      csvFields fmt loc heap (fuel + 1) first r values =
        csvFields fmt loc heap fuel false r' (values ++ [.string field]) := by
  rw [csvRowText, append_assoc, cons_append] at h
  obtain ⟨r', hread, hrun⟩ := csvFields_field heap first values hloc hfmt
    (Or.inl rfl) (by simp) hfield (fun _ => Or.inr rfl) (Or.inl rfl) hfuel h
  obtain ⟨hone, hmore⟩ := hread.next rfl
  refine ⟨r', hmore, ?_⟩
  rw [hrun, if_pos (by rw [hone]; decide)]

theorem csvFields_row (hloc : SingleByte loc) (hfmt : fmt.Plain loc)
    (hrow : row ≠ []) (hfirst : first = true → row ≠ [[]])
    (hfields : ∀ field ∈ row, fmt.escapeChar ∉ field)
    (hgood : fmt.enclosure ≠ 0 ∨ ¬ BlankLast fmt loc row)
    (hfuel : row.length + 2 * row.flatten.length + 3 ≤ fuel)
    (h : Ahead r (csvRowText fmt row ++ byte '\n' :: after)) :
    csvFields fmt loc heap fuel first r values =
      some (.array (values ++ csvStrings row), some after) := by
  induction row generalizing first r values fuel with
  | nil => exact absurd rfl hrow
  | cons field row ih =>
    obtain ⟨fuel, rfl⟩ : ∃ k, fuel = k + 1 := ⟨fuel - 1, by omega⟩
    have hfield := hfields field mem_cons_self
    simp only [length_cons, flatten_cons, length_append] at hfuel
    cases row with
    | nil =>
      have hlast : byte '\n' = fmt.delimiter ∨ field = [] ∨ fmt.enclosure ≠ 0 ∨
          fputcsvEnclosed fmt field = true ∨ ∃ b ∈ field, loc.isspace b = false := by
        by_contra hnone
        simp only [not_or] at hnone
        obtain ⟨-, hnil, hE, hplain, hspace⟩ := hnone
        refine hgood.resolve_left hE (blankLast_single.mpr
          ⟨hnil, Bool.eq_false_of_not_eq_true hplain, fun b hb => ?_⟩)
        by_contra hfalse
        exact hspace ⟨b, hb, Bool.eq_false_of_not_eq_true hfalse⟩
      obtain ⟨r', hread, hrun⟩ := csvFields_field heap first values hloc hfmt (.inr rfl) (by simp)
        hfield (fun htrue => .inl (fun hnil => hfirst htrue (by rw [hnil]))) hlast
        (show 2 * field.length + 3 ≤ fuel by omega) h
      obtain ⟨hzero, hstream⟩ := hread.last rfl
      rw [hrun, if_neg (by rw [hzero]; decide), hstream]
      rfl
    | cons next row =>
      obtain ⟨r', hahead, hrun⟩ := csvFields_next heap values first hloc hfmt hfield
        (show 2 * field.length + 3 ≤ fuel by omega) h
      rw [hrun, ih (by simp) (by simp) (fun f hf => hfields f (mem_cons_of_mem _ hf))
        (by rwa [blankLast_cons] at hgood) (by omega) hahead]
      simp [csvStrings]

/-! A last field of blanks, with NUL as enclosure. -/

theorem copyHunk_extends (r : CsvReader) (n : Nat) : r.temp <+: (r.copyHunk n).temp :=
  prefix_append _ _

theorem csvLineEnd_extends (state : CsvState) (r : CsvReader) :
    r.temp <+: (csvLineEnd state r).temp := by
  simp only [csvLineEnd]
  refine List.IsPrefix.trans ?_ (prefix_append _ _)
  split
  · split
    · exact (copyHunk_extends r (r.bptr - r.hunkBegin)).trans
        (copyHunk_extends (r.copyHunk (r.bptr - r.hunkBegin)).beginHunk _)
    · exact copyHunk_extends r _
  · split
    · exact copyHunk_extends r _
    · exact prefix_rfl

theorem csvSkip_temp (fmt : CsvFormat) (loc : Locale) (n : Nat)
    (r : CsvReader) : (csvSkip fmt loc n r).temp = r.temp := by
  induction n generalizing r with
  | zero => rfl
  | succ n ih =>
    rw [csvSkip]
    split
    · rfl
    · simp only
      split
      · split
        · rfl
        · rw [ih]
          rfl
      · split
        · rfl
        · rw [ih]
          rfl

theorem csvAfterField_extends (fmt : CsvFormat) (loc : Locale)
    (r : CsvReader) : r.temp <+: (csvAfterField fmt loc r).temp := by
  rw [← csvSkip_temp fmt loc (r.limit - r.bptr + 1) r]
  exact copyHunk_extends _ _

theorem csvEnclosed_extends {state : CsvState} {r' : CsvReader}
    (h : csvEnclosed fmt loc heap fuel state r = some (.field r')) : r.temp <+: r'.temp := by
  induction fuel generalizing state r with
  | zero => cases h
  | succ fuel ih =>
    have hlater : ∀ {state r₁}, csvEnclosed fmt loc heap fuel state r₁ = some (.field r') →
        r.temp <+: r₁.temp → r.temp <+: r'.temp := fun h hr => hr.trans (ih h)
    unfold csvEnclosed at h
    split at h
    · split at h
      · cases h
        exact copyHunk_extends r _
      · have hend := csvLineEnd_extends state r
        simp only at h
        split at h
        · cases h
          exact hend
        · split at h
          · split at h
            · cases h
              exact hend
            · cases h
          · exact hlater h hend
    · split at h
      · split at h
        · exact hlater h prefix_rfl
        · split at h
          · cases h
            exact copyHunk_extends r _
          · exact hlater h (copyHunk_extends r _)
        · exact hlater h prefix_rfl
      · split at h
        · cases h
          exact copyHunk_extends r _
        · exact hlater h (copyHunk_extends (r.advance r.incLen.toNat) _)
        · exact hlater h prefix_rfl

theorem csvFields_extends {result : List CsvValue} {stream : Option (List UInt8)}
    (h : csvFields fmt loc heap fuel first r values =
      some (.array result, stream)) : values <+: result := by
  induction fuel generalizing first r values with
  | zero => cases h
  | succ fuel ih =>
    -- A field more, and then the next turn or the end.
    have hlater : ∀ {r' : CsvReader} {value}, (if 0 < r'.incLen then
        csvFields fmt loc heap fuel false r' (values ++ [value])
        else some (.array (values ++ [value]), r'.stream)) = some (.array result, stream) →
        values <+: result := by
      intro r' value h
      split at h
      · exact (prefix_append _ _).trans (ih h)
      · cases h
        exact prefix_append _ _
    rw [csvFields] at h
    simp only at h
    split at h
    · cases h
      exact prefix_append _ _
    · split at h
      · obtain ⟨stop, -, h⟩ := Option.bind_eq_some_iff.mp h
        cases stop with
        | failed r' => cases h
        | field r' => exact hlater h
      · exact hlater h

/-- The terminator of the line is taken for the enclosure: the field comes out
empty, or with a newline in it. -/
theorem csvEnclosed_behind {r' : CsvReader}
    (h : csvEnclosed fmt loc heap fuel .inside r = some (.field r'))
    (hlimit : r.limit < r.bptr) (hhunk : r.hunkBegin = r.bptr)
    (htemp : r.temp = []) (hinc : r.incLen = 1) (hnl : byte '\n' ∈ r.buf.drop r.limit) :
    byte '\n' ∈ r'.temp ∨ r'.temp = [] ∧ r'.incLen = 0 ∧ r'.hunkBegin = r'.bptr := by
  cases fuel with
  | zero => cases h
  | succ fuel =>
    rw [csvEnclosed, hinc, if_neg (by decide), if_pos (by decide)] at h
    generalize hstate : (if r.char r.bptr = fmt.enclosure then
      CsvState.closing else if r.char r.bptr = fmt.escapeChar then
        CsvState.escaped else CsvState.inside) = state at h
    have hzero : ((r.advance 1).measure loc).incLen = 0 :=
      if_neg (Nat.not_lt_of_le (le_of_lt (Nat.lt_succ_of_lt hlimit)))
    cases fuel with
    | zero => cases h
    | succ fuel =>
      unfold csvEnclosed at h
      rw [if_pos hzero] at h
      split at h
      · -- What stands behind the terminator is an enclosure, too.
        cases h
        refine .inr ⟨?_, hzero, rfl⟩
        change r.temp ++ (List.range (r.bptr + 1 - r.hunkBegin - 1)).map
          _ = []
        rw [htemp, hhunk, Nat.add_sub_cancel_left]
        rfl
      · have hmem : byte '\n' ∈ (csvLineEnd state ((r.advance 1).measure loc)).temp := by
          apply mem_append_right
          split <;> split <;> exact hnl
        simp only at h
        split at h
        · cases h
          exact .inl hmem
        · split at h
          · split at h
            · cases h
              exact .inl hmem
            · cases h
          · exact .inl ((csvEnclosed_extends h).subset hmem)

theorem csvFields_blank (hloc : SingleByte loc) (hfmt : fmt.Plain loc)
    (hE : fmt.enclosure = 0) (hfield : field ≠ []) (hplain : PlainField fmt field)
    (hblank : ∀ b ∈ field, loc.isspace b = true)
    (h : Ahead r (field ++ byte '\n' :: after)) (stream : Option (List UInt8)) :
    csvFields fmt loc heap fuel first r values ≠
      some (.array (values ++ [.string field]), stream) := by
  intro hrun
  cases fuel with
  | zero => cases hrun
  | succ fuel =>
    obtain ⟨hunk, body, lineEnd, rest, h, htext⟩ := h
    obtain ⟨tail, rfl, htail⟩ := h.ends.within hplain.newline hplain.carriage htext
    obtain ⟨x, f, rfl⟩ := exists_cons_of_ne_nil hfield
    have hready := h.ready hloc
    have hone : (r.ready loc).incLen = 1 := hready.one
    obtain ⟨rfl, rfl, -⟩ :=
      h.ends.newline (fun hmem => h.oneLine (mem_append_right _ hmem)) htail
    have hlength : r.buf.length - r.limit = 1 := by
      rw [← length_drop, h.dropLimit]
      rfl
    have hlimit : r.limit < r.buf.length := by omega
    have hdrop : byte '\n' ∈ r.buf.drop r.limit := by
      rw [h.dropLimit]
      exact mem_cons_self
    have hahead : csvAhead fmt loc (r.ready loc) = r.buf.length := by
      rw [hready.ahead, csvBlanks_all hfmt hready.here]
      · have hbound := h.limit
        change r.bptr + _ = _
        rw [length_append, length_singleton]
        omega
      · intro b hb
        rw [append_nil, mem_append, mem_singleton] at hb
        rcases hb with hb | rfl
        · exact hblank b hb
        · exact hloc.newline.1
    have hstart : csvStart fmt loc r = { r.ready loc with bptr := r.buf.length } := by
      rw [csvStart_eq, hahead, if_pos ⟨hone, by
        rw [hE]
        exact char_end (r.ready loc)⟩]
    rw [csvFields, hstart] at hrun
    rw [if_neg (fun hnull => ne_of_gt hlimit hnull.2), if_pos ⟨by rw [hone]; decide, by
        rw [hE]
        exact char_end (r.ready loc)⟩] at hrun
    obtain ⟨stop, hstop, hrun⟩ := Option.bind_eq_some_iff.mp hrun
    cases stop with
    | failed r' => cases hrun
    | field r' =>
      have hbehind := csvEnclosed_behind hstop (Nat.lt_succ_of_lt hlimit) rfl rfl hone hdrop
      -- The field that is returned is the one of `r'`.
      have hvalues : values ++ [CsvValue.string (csvAfterField fmt loc r').temp] <+:
          values ++ [.string (x :: f)] := by
        simp only at hrun
        split at hrun
        · exact csvFields_extends hrun
        · obtain ⟨harray, _⟩ := Prod.mk.inj (Option.some.inj hrun)
          exact CsvResult.array.inj harray ▸ prefix_rfl
      have htemp : (csvAfterField fmt loc r').temp = x :: f := by
        simpa using List.IsPrefix.eq_of_length hvalues (by simp)
      rcases hbehind with hmem | ⟨hnil, hzero, hhunk⟩
      · have hmem' := (csvAfterField_extends fmt loc r').subset hmem
        rw [htemp] at hmem'
        exact hplain.newline hmem'
      · have hempty : (csvAfterField fmt loc r').temp = [] := by
          rw [csvAfterField, csvSkip, if_pos hzero]
          change r'.temp ++ (List.range (r'.bptr - r'.hunkBegin)).map _ = []
          rw [hnil, hhunk, Nat.sub_self]
          rfl
        rw [hempty] at htemp
        cases htemp

theorem csvFields_blankLast (hloc : SingleByte loc) (hfmt : fmt.Plain loc)
    (hE : fmt.enclosure = 0) (hrow : BlankLast fmt loc row)
    (hfields : ∀ field ∈ row, fmt.escapeChar ∉ field)
    (hfuel : row.length + 2 * row.flatten.length + 3 ≤ fuel)
    (h : Ahead r (csvRowText fmt row ++ byte '\n' :: after))
    (stream : Option (List UInt8)) : csvFields fmt loc heap fuel first r values ≠
      some (.array (values ++ csvStrings row), stream) := by
  induction row generalizing first r values fuel with
  | nil =>
    obtain ⟨init, field, heq, _⟩ := hrow
    simp at heq
  | cons field row ih =>
    have hfield := hfields field mem_cons_self
    simp only [length_cons, flatten_cons, length_append] at hfuel
    cases row with
    | nil =>
      obtain ⟨hne, hplain, hblank⟩ := blankLast_single.mp hrow
      rw [csvRowText, fputcsvField, hplain, if_neg (by simp)] at h
      exact csvFields_blank hloc hfmt hE hne (plainField_of hplain) hblank h stream
    | cons next row =>
      obtain ⟨fuel, rfl⟩ : ∃ k, fuel = k + 1 := ⟨fuel - 1, by omega⟩
      obtain ⟨r', hahead, hrun⟩ := csvFields_next heap values first hloc hfmt hfield
        (show 2 * field.length + 3 ≤ fuel by omega) h
      have hstrings : values ++ csvStrings (field :: next :: row) =
          values ++ [.string field] ++ csvStrings (next :: row) := by
        simp [csvStrings]
      rw [hrun, hstrings]
      exact ih (blankLast_cons.mp hrow) (fun f hf => hfields f (mem_cons_of_mem _ hf)) (by omega)
        hahead

/-- The rows of the round trip: fields without the escape character, and not a
single empty string. -/
structure CsvRow (fmt : CsvFormat) (row : List (List UInt8)) : Prop where
  nonempty : row ≠ []
  single : row ≠ [[]]
  fields : ∀ field ∈ row, fmt.escapeChar ∉ field

theorem phpFputcsv_eq (fmt : CsvFormat) (row : List (List UInt8)) :
    phpFputcsv fmt row = csvRowText fmt row ++ [byte '\n'] := by
  rw [phpFputcsv, fputcsvFields_eq fmt row 0 row.length (by simp)]

variable {rows : List (List (List UInt8))} {n : Nat}

/-- The fuel that a row takes. -/
def csvCost (row : List (List UInt8)) : Nat :=
  row.length + 2 * row.flatten.length + 3

section

variable (hloc : SingleByte loc)
include hloc

variable (fmt heap) in
theorem csvRows_row (row : List (List UInt8)) (after : List UInt8) :
    ∃ r, Ahead r (csvRowText fmt row ++ byte '\n' :: after) ∧ ∀ fuel n,
      csvRows fmt loc heap fuel (n + 1) (phpFputcsv fmt row ++ after) =
        (csvFields fmt loc heap fuel true r []).bind fun result =>
          (csvRows fmt loc heap fuel n (result.2.getD [])).map (result.1 :: ·) := by
  rw [phpFputcsv_eq, append_assoc]
  have hmem : byte '\n' ∈ csvRowText fmt row ++ ([byte '\n'] ++ after) := by simp
  obtain ⟨line, rest, hline, hstart⟩ := getLine_standing loc hloc hmem
  obtain ⟨body, lineEnd, hstanding, htext⟩ := hstart 
    ⟨some rest, line, heap rest, 0, 0, phpFgetcsvLookupTrailingSpaces loc line, [],
      line.length, 0⟩ rfl rfl rfl rfl rfl
  refine ⟨_, ⟨[], body, lineEnd, rest, hstanding, htext⟩, fun fuel n => ?_⟩
  rw [csvRows, hline]
  refine congrArg (Option.bind _) (funext fun result => ?_)
  cases csvRows fmt loc heap fuel n (result.2.getD []) <;> rfl

variable (hfmt : fmt.Plain loc)
include hfmt

theorem csvRows_cons (hrow : CsvRow fmt row) (hgood : fmt.enclosure ≠ 0 ∨ ¬ BlankLast fmt loc row)
    (hfuel : csvCost row ≤ fuel) : csvRows fmt loc heap fuel (n + 1) (phpFputcsv fmt row ++ after) =
      (csvRows fmt loc heap fuel n after).map (.array (csvStrings row) :: ·) := by
  obtain ⟨r, hahead, hrun⟩ := csvRows_row fmt heap hloc row after
  rw [hrun, csvFields_row hloc hfmt hrow.nonempty (fun _ => hrow.single) hrow.fields hgood hfuel
    hahead]
  rfl

theorem csvRows_reads (hrows : ∀ row ∈ rows, CsvRow fmt row)
    (hgood : ∀ row ∈ rows, fmt.enclosure ≠ 0 ∨ ¬ BlankLast fmt loc row)
    (hfuel : ∀ row ∈ rows, csvCost row ≤ fuel) (hn : rows.length < n) :
    csvRows fmt loc heap fuel n (rows.flatMap (phpFputcsv fmt)) =
      some (rows.map fun row => .array (csvStrings row)) := by
  induction rows generalizing n with
  | nil =>
    obtain ⟨n, rfl⟩ : ∃ k, n = k + 1 := ⟨n - 1, by simp at hn; omega⟩
    rfl
  | cons row rows ih =>
    obtain ⟨n, rfl⟩ : ∃ k, n = k + 1 := ⟨n - 1, by simp at hn; omega⟩
    have hmem : row ∈ row :: rows := mem_cons_self
    rw [flatMap_cons, csvRows_cons hloc hfmt (hrows row hmem) (hgood row hmem) (hfuel row hmem),
      ih (fun x hx => hrows x (mem_cons_of_mem _ hx)) (fun x hx => hgood x (mem_cons_of_mem _ hx))
        (fun x hx => hfuel x (mem_cons_of_mem _ hx))
        (by simp at hn; omega)]
    rfl

theorem csvRows_good (hrows : ∀ row ∈ rows, CsvRow fmt row)
    (hfuel : ∀ row ∈ rows, csvCost row ≤ fuel)
    (h : csvRows fmt loc heap fuel n (rows.flatMap (phpFputcsv fmt)) =
      some (rows.map fun row => .array (csvStrings row))) :
    ∀ row ∈ rows, fmt.enclosure ≠ 0 ∨ ¬ BlankLast fmt loc row := by
  induction rows generalizing n with
  | nil => simp
  | cons row rows ih =>
    have hmem : row ∈ row :: rows := mem_cons_self
    cases n with
    | zero => cases h
    | succ n =>
      rw [flatMap_cons] at h
      have hgood : fmt.enclosure ≠ 0 ∨ ¬ BlankLast fmt loc row := by
        by_contra hbad
        rw [not_or, not_not, not_not] at hbad
        obtain ⟨r, hahead, hstep⟩ :=
          csvRows_row fmt heap hloc row (rows.flatMap (phpFputcsv fmt))
        rw [hstep] at h
        obtain ⟨⟨result, stream⟩, hrun, h⟩ := Option.bind_eq_some_iff.mp h
        obtain ⟨later, _, h⟩ := Option.map_eq_some_iff.mp h
        obtain ⟨rfl, _⟩ := List.cons.inj h
        exact csvFields_blankLast hloc hfmt hbad.1 hbad.2 (hrows row hmem).fields (hfuel row hmem)
          hahead stream hrun
      intro x hx
      rcases mem_cons.mp hx with rfl | hx
      · exact hgood
      · rw [csvRows_cons hloc hfmt (hrows row hmem) hgood (hfuel row hmem)] at h
        obtain ⟨later, hlater, h⟩ := Option.map_eq_some_iff.mp h
        obtain ⟨_, rfl⟩ := List.cons.inj h
        exact ih (fun y hy => hrows y (mem_cons_of_mem _ hy))
          (fun y hy => hfuel y (mem_cons_of_mem _ hy)) hlater x hx

end

variable (heap) in
/-- Rows of fields without the escape character, written and read back with
bytes that are distinct and no blanks, in a single-byte locale: they come back
exactly when the enclosure is not NUL or no row ends in a field of blanks that
is not enclosed. -/
theorem csvRows_phpFputcsv_iff (hloc : SingleByte loc)
    (hfmt : fmt.Plain loc) (hrows : ∀ row ∈ rows, CsvRow fmt row) :
    (∃ n, ∀ fuel, n ≤ fuel → csvRows fmt loc heap fuel fuel (rows.flatMap (phpFputcsv fmt)) =
      some (rows.map fun row => .array (csvStrings row))) ↔
      ∀ row ∈ rows, fmt.enclosure ≠ 0 ∨ ¬ BlankLast fmt loc row := by
  obtain ⟨bound, hbound⟩ : ∃ bound, ∀ row ∈ rows, csvCost row ≤ bound :=
    ⟨(rows.map csvCost).sum, fun row hrow =>
      single_le_sum (by simp) _ (List.mem_map_of_mem hrow)⟩
  constructor
  · rintro ⟨n, hn⟩
    exact csvRows_good hloc hfmt hrows (fun row hrow =>
      Nat.le_trans (hbound row hrow) (Nat.le_max_right n bound))
      (hn (max n bound) (Nat.le_max_left n bound))
  · intro hgood
    refine ⟨max (rows.length + 1) bound, fun fuel hfuel => ?_⟩
    exact csvRows_reads hloc hfmt hrows hgood (fun row hrow => Nat.le_trans (hbound row hrow)
        (Nat.le_trans (Nat.le_max_right _ _) hfuel))
      (Nat.lt_of_lt_of_le (Nat.lt_succ_self _) (Nat.le_trans (Nat.le_max_left _ _) hfuel))

end Rows

/-- The C locale. -/
def cLocale : Locale where
  mblen _ := 1
  isspace b := b == 32 || (9 ≤ b && b ≤ 13)

theorem cLocale_single : SingleByte cLocale :=
  ⟨fun _ _ _ => rfl, by decide +kernel, by decide +kernel⟩

def commaFormat : CsvFormat :=
  ⟨byte ',', byte '"', byte '\\'⟩

theorem commaFormat_plain : commaFormat.Plain cLocale where
  delimiter_enclosure := by decide
  delimiter_escape := by decide
  enclosure_escape := by decide
  delimiter := by decide
  enclosure := by decide
  escape := by decide

/-- Two rows, with a line end and an enclosure inside a field. -/
def noteRows : List (List (List UInt8)) :=
  [[[byte 'a'], [byte '\r', byte '\n', byte '"', byte 'b']], [[], [byte ' ']]]

theorem csvRows_phpFputcsv_iff_notes :
    ∃ n, ∀ fuel, n ≤ fuel → csvRows commaFormat cLocale (fun _ _ => 0) fuel
        fuel (noteRows.flatMap (phpFputcsv commaFormat)) =
      some (noteRows.map fun row => .array (csvStrings row)) := by
  refine (csvRows_phpFputcsv_iff (fun _ _ => 0) cLocale_single
    commaFormat_plain ?_).mpr (fun _ _ => .inl (by decide))
  intro row hrow
  simp only [noteRows, mem_cons, not_mem_nil, or_false] at hrow
  rcases hrow with rfl | rfl
  · exact ⟨by decide, by decide, by decide⟩
  · exact ⟨by decide, by decide, by decide⟩

def nulFormat : CsvFormat :=
  ⟨byte ',', 0, byte '\\'⟩

/-- A row with one field, a vertical tab, and NUL as enclosure: whatever stands
in memory behind the line, the row does not come back. -/
theorem blank_field_misread : SingleByte cLocale ∧ nulFormat.Plain cLocale ∧
      CsvRow nulFormat [[11]] ∧ ∀ heap, ¬ ∃ n, ∀ fuel, n ≤ fuel →
        csvRows nulFormat cLocale heap fuel fuel ([[[11]]].flatMap (phpFputcsv nulFormat)) =
        some [.array (csvStrings [[11]])] := by
  have hfmt : nulFormat.Plain cLocale := by
    refine ⟨?_, ?_, ?_, ?_, ?_, ?_⟩ <;> decide
  have hrow : CsvRow nulFormat [[11]] := by
    refine ⟨?_, ?_, ?_⟩ <;> decide
  refine ⟨cLocale_single, hfmt, hrow, ?_⟩
  rintro heap ⟨n, hn⟩
  have hfuel : ∀ row ∈ [[[(11 : UInt8)]]], csvCost row ≤ max n 6 := by
    intro row hmem
    rw [mem_singleton.mp hmem]
    exact Nat.le_max_right n 6
  have hgood := csvRows_good cLocale_single hfmt (by simpa using hrow) hfuel
    (hn (max n 6) (Nat.le_max_left n 6)) [[11]] mem_cons_self
  rcases hgood with hE | hlast
  · exact hE rfl
  · exact hlast ⟨[], [11], rfl, by decide, by decide +kernel, by decide +kernel⟩

end PhpEngine

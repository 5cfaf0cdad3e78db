/-
The body of a request as `fcgi_read` delivers it.  A read goes through as many
records as it needs; it comes back with less than was asked for only at the end
of the body, and then the connection stands behind the record that ends it.
-/
import PhpEngine.FcgiRequest

namespace PhpEngine

open List

section Reading

variable {fd : ByteFile}

theorem read_fst_eq (asked : Nat) : (fd.read asked).1 = fd.rest.take (fd.delivered asked) :=
  rfl

theorem read_rest (asked : Nat) : (fd.read asked).2.rest = fd.rest.drop (fd.delivered asked) := by
  simp only [ByteFile.read, ByteFile.rest, drop_drop]

theorem safeReadLoop_eq (fuel : Nat) (fd : ByteFile) {count : Nat} (hfuel : count < fuel) :
    (safeReadLoop fuel fd count).1 = fd.rest.take count ∧
      (safeReadLoop fuel fd count).2.rest = fd.rest.drop count := by
  induction fuel generalizing fd count with
  | zero => cases hfuel
  | succ fuel ih =>
    have hle := ByteFile.delivered_le_asked (f := fd) count
    rw [safeReadLoop]
    simp only [ByteFile.length_read]
    by_cases hzero : fd.delivered count = 0
    · rw [if_pos hzero]
      by_cases hcount : count = 0
      · rw [read_rest, hzero, hcount]
        exact ⟨rfl, rfl⟩
      · have hnil := (ByteFile.delivered_eq_zero (Nat.pos_of_ne_zero hcount)).mp hzero
        rw [read_rest, hnil, take_nil, drop_nil, drop_nil]
        exact ⟨rfl, rfl⟩
    rw [if_neg hzero]
    by_cases hall : fd.delivered count = count
    · rw [if_pos hall, read_fst_eq, read_rest, hall]
      exact ⟨rfl, rfl⟩
    rw [if_neg hall]
    have hless : count - fd.delivered count < fuel := by omega
    obtain ⟨hmore, hrest⟩ := ih (fd.read count).2 hless
    have hsum : fd.delivered count + (count - fd.delivered count) = count := by
      omega
    constructor
    · rw [hmore, read_fst_eq, read_rest, ← take_add, hsum]
    · rw [hrest, read_rest, drop_drop, hsum]

/-- `safe_read` delivers what is asked for as far as it is there. -/
theorem safeRead_fst (fd : ByteFile) (count : Nat) : (safeRead fd count).1 = fd.rest.take count :=
  (safeReadLoop_eq (count + 1) fd (Nat.lt_succ_self count)).1

theorem safeRead_rest (fd : ByteFile) (count : Nat) :
    (safeRead fd count).2.rest = fd.rest.drop count :=
  (safeReadLoop_eq (count + 1) fd (Nat.lt_succ_self count)).2

theorem safeRead_append {l l' : List UInt8} (h : fd.rest = l ++ l') :
    ∃ fd', safeRead fd l.length = (l, fd') ∧ fd'.rest = l' := by
  refine ⟨(safeRead fd l.length).2, ?_, ?_⟩
  · apply Prod.ext
    · rw [safeRead_fst, h, take_left]
    · rfl
  · rw [safeRead_rest, h, drop_left]

/-- The header of a record. -/
def FcgiRecord.header (r : FcgiRecord) : FcgiHeader :=
  ⟨fcgiVersion1, r.type.code, UInt8.ofNat (r.requestId >>> 8),
    UInt8.ofNat r.requestId, UInt8.ofNat (r.content.length >>> 8),
    UInt8.ofNat r.content.length, UInt8.ofNat r.padding.length⟩

@[simp] theorem contentLength_header (r : FcgiRecord) : r.header.contentLength = r.content.length :=
  ofBytes_bytes r.content_lt

@[simp] theorem paddingLength_header (r : FcgiRecord) :
    r.header.paddingLength.toNat = r.padding.length := by
  rw [FcgiRecord.header, UInt8.toNat_ofNat', Nat.mod_eq_of_lt r.padding_lt]

@[simp] theorem type_header (r : FcgiRecord) : r.header.type = r.type.code :=
  rfl

theorem readHeader_encode {r : FcgiRecord} {behind : List UInt8}
    (h : fd.rest = r.encode ++ behind) : ∃ fd', readHeader fd = (some r.header, fd') ∧
      fd'.rest = r.content ++ (r.padding ++ behind) := by
  rw [FcgiRecord.encode, append_assoc, append_assoc] at h
  obtain ⟨fd', hread, hrest⟩ := safeRead_append h
  have hlength : (headerBytes r.type.code r.requestId r.content.length
      r.padding.length).length = sizeofHeader := rfl
  rw [hlength] at hread
  refine ⟨fd', ?_, hrest⟩
  rw [readHeader, hread]
  rfl

end Reading

/-- A record of the body. -/
structure FcgiRecord.IsBody (r : FcgiRecord) : Prop where
  type_eq : r.type = .stdin
  content_ne : r.content ≠ []

/-- The record that ends the body. -/
structure FcgiRecord.EndsBody (r : FcgiRecord) : Prop where
  type_eq : r.type = .stdin
  content_eq : r.content = []
  padding_eq : r.padding = []

/-- The contents of records, put together. -/
def contents (rs : List FcgiRecord) : List UInt8 :=
  rs.flatMap FcgiRecord.content

namespace FcgiIn

/-- The reads of a body, up to the first that comes back with less than was
asked for: the results, what they stored, and the request. -/
def fcgiReads (req : FcgiIn) : List Nat → List (Int × List UInt8) × FcgiIn
  | [] => ([], req)
  | len :: lens =>
    let (n, str, req) := req.fcgiRead len
    if n < len then ([(n, str)], req)
    else
      let (results, req) := req.fcgiReads lens
      ((n, str) :: results, req)

/-- `body` starts with a record on the connection; `behind` stands behind the
record that ends it. -/
structure Records (rest body behind : List UInt8) : Prop where
  records : ∃ (rs : List FcgiRecord) (last : FcgiRecord),
    (∀ r ∈ rs, r.IsBody) ∧ last.EndsBody ∧ body = contents rs ∧
    rest = encodeRecords rs ++ (last.encode ++ behind)

/-- A request inside a record of its body. -/
structure Inside (req : FcgiIn) (cur pad tail : List UInt8) : Prop where
  some_bytes : cur ≠ []
  inLen_eq : req.inLen = cur.length
  inPad_eq : req.inPad = pad.length
  rest_eq : req.fd.rest = cur ++ (pad ++ tail)

/-- A request that has `body` still to be read. -/
inductive AtBody (req : FcgiIn) (body behind : List UInt8) : Prop
  | between (hlen : req.inLen = 0) (hrest : Records req.fd.rest body behind)
  | inside (cur pad tail more : List UInt8) (hin : Inside req cur pad tail)
      (hbody : body = cur ++ more) (hrest : Records tail more behind)

variable {req : FcgiIn} {body behind : List UInt8}

/-- Between two records the header of the next one is read. -/
theorem nextRecord_between (hlen : req.inLen = 0) (h : Records req.fd.rest body behind) :
    (∃ req' cur pad tail more, req.nextRecord = .content req' ∧
      Inside req' cur pad tail ∧ body = cur ++ more ∧ Records tail more behind) ∨
    (∃ req', req.nextRecord = .ended req' ∧ body = [] ∧ req'.fd.rest = behind) := by
  obtain ⟨rs, last, hrs, hlast, hbody, hrest⟩ := h.records
  rw [nextRecord, if_neg (not_not.mpr hlen)]
  cases rs with
  | nil =>
    right
    obtain ⟨fd', hread, hfd⟩ := readHeader_encode hrest
    rw [hlast.content_eq, hlast.padding_eq] at hfd
    rw [hread]
    refine ⟨{ req with
      fd := fd'
      inLen := last.header.contentLength
      inPad := last.header.paddingLength.toNat }, ?_, hbody, hfd⟩
    dsimp only
    rw [type_header, hlast.type_eq, if_neg (not_not.mpr rfl),
      contentLength_header, hlast.content_eq, if_pos length_nil]
  | cons r rs =>
    left
    have hr : r.IsBody := hrs r mem_cons_self
    rw [encodeRecords_cons, append_assoc] at hrest
    obtain ⟨fd', hread, hfd⟩ := readHeader_encode hrest
    have hlength : r.content.length ≠ 0 :=
      mt length_eq_zero_iff.mp hr.content_ne
    rw [hread]
    refine ⟨{ req with
        fd := fd'
        inLen := r.header.contentLength
        inPad := r.header.paddingLength.toNat },
      r.content, r.padding, _, contents rs, ?_,
      ⟨hr.content_ne, contentLength_header r, paddingLength_header r, hfd⟩,
      hbody.trans flatMap_cons,
      ⟨rs, last, fun r' h' => hrs r' (mem_cons_of_mem r h'), hlast, rfl, rfl⟩⟩
    dsimp only
    rw [type_header, hr.type_eq, if_neg (not_not.mpr rfl), contentLength_header, if_neg hlength]

theorem nextRecord_atBody (h : AtBody req body behind) :
    (∃ req' cur pad tail more, req.nextRecord = .content req' ∧
      Inside req' cur pad tail ∧ body = cur ++ more ∧ Records tail more behind) ∨
    (∃ req', req.nextRecord = .ended req' ∧ body = [] ∧ req'.fd.rest = behind) := by
  cases h with
  | between hlen hrest => exact nextRecord_between hlen hrest
  | inside cur pad tail more hin hbody hrest =>
    left
    refine ⟨req, cur, pad, tail, more, ?_, hin, hbody, hrest⟩
    have hlength : req.inLen ≠ 0 := by
      rw [hin.inLen_eq]
      exact mt length_eq_zero_iff.mp hin.some_bytes
    rw [nextRecord, if_pos hlength]

/-- What a read of `len` bytes comes to: all of them, or all there are. -/
inductive Delivered (body behind : List UInt8) (len : Nat) (str : List UInt8) :
    Int × List UInt8 × FcgiIn → Prop
  | full (req : FcgiIn) (hlen : len ≤ body.length) (hreq : AtBody req (body.drop len) behind) :
      Delivered body behind len str ((str.length + len : Nat), str ++ body.take len, req)
  | short (req : FcgiIn) (hlen : body.length < len) (hreq : req.fd.rest = behind) :
      Delivered body behind len str ((str.length + body.length : Nat), str ++ body, req)

/-- What is stored of a record counts for the whole body. -/
theorem Delivered.append {cur more str : List UInt8} {len : Nat}
    {result : Int × List UInt8 × FcgiIn} (hcur : cur.length ≤ len)
    (h : Delivered more behind (len - cur.length) (str ++ cur) result) :
    Delivered (cur ++ more) behind len str result := by
  cases h with
  | full req hlen hreq =>
    have htake : (cur ++ more).take len = cur ++ more.take (len - cur.length) := by
      rw [take_append, take_of_length_le hcur]
    have hdrop : (cur ++ more).drop len = more.drop (len - cur.length) := by
      rw [drop_append, drop_of_length_le hcur, nil_append]
    have hsum : (str ++ cur).length + (len - cur.length) = str.length + len := by
      rw [length_append]
      omega
    rw [append_assoc, ← htake, hsum]
    apply Delivered.full
    · rw [length_append]
      omega
    · rwa [hdrop]
  | short req hlen hreq =>
    have hsum : (str ++ cur).length + more.length = str.length + (cur ++ more).length := by
      rw [length_append, length_append, add_assoc]
    rw [append_assoc, hsum]
    apply Delivered.short
    · rw [length_append]
      omega
    · exact hreq

section Turn

variable {req' : FcgiIn} {cur pad tail : List UInt8} {len : Nat}

theorem fcgiReadLoop_inside (hnext : req.nextRecord = .content req')
    (hin : Inside req' cur pad tail) (hzero : len ≠ 0)
    (hinside : len < cur.length) (fuel : Nat) (str : List UInt8) :
    ∃ req'', fcgiReadLoop (fuel + 1) req len str =
        (((str.length + len : Nat) : Int), str ++ cur.take len, req'') ∧
      Inside req'' (cur.drop len) pad tail := by
  have hcut : req'.fd.rest = cur.take len ++ (cur.drop len ++ (pad ++ tail)) := by
    rw [← append_assoc, take_append_drop, hin.rest_eq]
  have hlength : (cur.take len).length = len :=
    length_take_of_le (le_of_lt hinside)
  obtain ⟨fd', hread, hrest⟩ := safeRead_append hcut
  rw [hlength] at hread
  have hmore : req'.inLen - len ≠ 0 := by
    rw [hin.inLen_eq]
    omega
  refine ⟨{ req' with fd := fd', inLen := req'.inLen - len }, ?_, ?_⟩
  · have hasked : (if len ≤ req'.inLen then len else req'.inLen) = len := by
      rw [hin.inLen_eq, if_pos (le_of_lt hinside)]
    rw [fcgiReadLoop, if_neg hzero, hnext]
    dsimp only
    rw [hasked, hread]
    rw [hlength, if_neg hzero, if_neg hmore, length_append, hlength]
  · constructor
    · intro hnil
      have hall := drop_eq_nil_iff.mp hnil
      omega
    · rw [length_drop, hin.inLen_eq]
    · exact hin.inPad_eq
    · exact hrest

/-- A turn that takes the rest of a record and its padding. -/
theorem fcgiReadLoop_finish (hnext : req.nextRecord = .content req')
    (hin : Inside req' cur pad tail) (hall : cur.length ≤ len) (fuel : Nat) (str : List UInt8) :
    ∃ req'', fcgiReadLoop (fuel + 1) req len str =
        fcgiReadLoop fuel req'' (len - cur.length) (str ++ cur) ∧
      req''.inLen = 0 ∧ req''.fd.rest = tail := by
  have hpos := length_pos_iff.mpr hin.some_bytes
  obtain ⟨fd', hread, hrest⟩ := safeRead_append hin.rest_eq
  have hasked : (if len ≤ req'.inLen then len else req'.inLen) = cur.length := by
    rw [hin.inLen_eq]
    split <;> omega
  have hempty : req'.inLen - cur.length = 0 := by
    rw [hin.inLen_eq, Nat.sub_self]
  rw [fcgiReadLoop, if_neg (by omega), hnext]
  dsimp only
  rw [hasked, hread]
  rw [if_neg (ne_of_gt hpos), if_pos hempty]
  by_cases hpad : req'.inPad = 0
  · rw [if_neg (not_not.mpr hpad)]
    have hnil : pad = [] := by
      rw [← length_eq_zero_iff, ← hin.inPad_eq, hpad]
    refine ⟨_, rfl, hempty, ?_⟩
    rw [hrest, hnil, nil_append]
  · obtain ⟨fd'', hskip, hbehind⟩ := safeRead_append hrest
    rw [if_pos hpad, hin.inPad_eq, hskip]
    rw [if_neg (not_not.mpr rfl)]
    exact ⟨_, rfl, hempty, hbehind⟩

end Turn

/-- The loop has the invariant that what is stored and what is still to be read
are the body. -/
theorem fcgiReadLoop_delivered (fuel : Nat) (h : AtBody req body behind)
    {len : Nat} (hfuel : len < fuel) (str : List UInt8) :
    Delivered body behind len str (fcgiReadLoop fuel req len str) := by
  induction fuel generalizing req body len str with
  | zero => cases hfuel
  | succ fuel ih =>
    by_cases hzero : len = 0
    · subst hzero
      have hfull : Delivered body behind 0 str ((str.length + 0 : Nat), str ++ body.take 0, req) :=
        .full req (Nat.zero_le _) h
      rwa [take_zero, append_nil, add_zero] at hfull
    rcases nextRecord_atBody h with
      ⟨req', cur, pad, tail, more, hnext, hin, rfl, hmore⟩ |
      ⟨req', hnext, rfl, hrest⟩
    · by_cases hinside : len < cur.length
      · obtain ⟨req'', hloop, hin''⟩ :=
          fcgiReadLoop_inside hnext hin hzero hinside fuel str
        have hle : len ≤ (cur ++ more).length := by
          rw [length_append]
          omega
        have htake : (cur ++ more).take len = cur.take len :=
          take_append_of_le_length (le_of_lt hinside)
        rw [hloop, ← htake]
        apply Delivered.full req'' hle
        apply AtBody.inside _ _ _ _ hin'' _ hmore
        rw [drop_append_of_le_length (le_of_lt hinside)]
      · have hall : cur.length ≤ len := Nat.le_of_not_lt hinside
        obtain ⟨req'', hloop, hlen, hrest⟩ :=
          fcgiReadLoop_finish hnext hin hall fuel str
        have hpos := length_pos_iff.mpr hin.some_bytes
        rw [hloop]
        apply Delivered.append hall
        apply ih (.between hlen (hrest ▸ hmore))
        omega
    · rw [fcgiReadLoop, if_neg hzero, hnext]
      have hshort : Delivered [] behind len str
          ((str.length + ([] : List UInt8).length : Nat), str ++ [], req') :=
        .short req' (Nat.pos_of_ne_zero hzero) hrest
      rwa [append_nil, length_nil, add_zero] at hshort

theorem fcgiRead_delivered (h : AtBody req body behind) (len : Nat) :
    Delivered body behind len [] (req.fcgiRead len) :=
  fcgiReadLoop_delivered (len + 1) h (Nat.lt_succ_self len) []

/-- A request of which no record of the body is read yet. -/
theorem atBody_of_records {rs : List FcgiRecord} {last : FcgiRecord}
    (hlen : req.inLen = 0) (hrs : ∀ r ∈ rs, r.IsBody) (hlast : last.EndsBody)
    (hrest : req.fd.rest = encodeRecords (rs ++ [last]) ++ behind) :
    AtBody req (contents rs) behind := by
  apply AtBody.between hlen
  refine ⟨rs, last, hrs, hlast, rfl, ?_⟩
  rw [hrest, encodeRecords_append, encodeRecords_cons, encodeRecords_nil, append_nil, append_assoc]

/-- What reads of `lens` bytes come to: `results` gives a start of `body`, and
each of them is as long as was asked for, or the last one is not; then it has
taken the end of `body`, and `rest` stands behind the record that ends it. -/
structure BodyReads (body behind : List UInt8) (lens : List Nat)
    (results : List (Int × List UInt8)) (rest : List UInt8) : Prop where
  counts : ∀ result ∈ results, result.1 = result.2.length
  starts : results.flatMap Prod.snd <+: body
  full_or_short : results.map Prod.fst = lens.map Int.ofNat ∨
    ∃ (full : List Nat) (len : Nat) (lens' : List Nat) (short : Int), lens = full ++ len :: lens' ∧
      results.map Prod.fst = full.map Int.ofNat ++ [short] ∧ short < len ∧
      results.flatMap Prod.snd = body ∧ rest = behind

theorem BodyReads.cons {lens : List Nat} {results : List (Int × List UInt8)}
    {rest : List UInt8} {len : Nat} (hlen : len ≤ body.length)
    (h : BodyReads (body.drop len) behind lens results rest) :
    BodyReads body behind (len :: lens) ((↑len, body.take len) :: results) rest := by
  constructor
  · intro result hresult
    rcases mem_cons.mp hresult with rfl | hmem
    · rw [length_take_of_le hlen]
    · exact h.counts result hmem
  · rw [flatMap_cons]
    nth_rewrite 2 [← take_append_drop len body]
    exact (prefix_append_right_inj _).mpr h.starts
  · rcases h.full_or_short with
      hfull | ⟨full, len', lens', short, rfl, hmap, hshort, hall, hrest⟩
    · left
      rw [map_cons, map_cons, hfull]
      rfl
    · right
      refine ⟨len :: full, len', lens', short, rfl, ?_, hshort, ?_, hrest⟩
      · rw [map_cons, hmap]
        rfl
      · rw [flatMap_cons, hall]
        exact take_append_drop len body

theorem fcgiReads_atBody (lens : List Nat) (h : AtBody req body behind) :
    BodyReads body behind lens (req.fcgiReads lens).1 (req.fcgiReads lens).2.fd.rest := by
  induction lens generalizing req body with
  | nil =>
    constructor
    · intro result hresult
      cases hresult
    · exact nil_prefix
    · exact .inl rfl
  | cons len lens ih =>
    have hread := fcgiRead_delivered h len
    rw [fcgiReads]
    generalize req.fcgiRead len = result at hread
    cases hread with
    | full req' hlen hreq =>
      have hnot : ¬((([] : List UInt8).length + len : Nat) : Int) < len := by
        simp
      dsimp only
      rw [if_neg hnot]
      have hcons := (ih hreq).cons hlen
      rwa [length_nil, zero_add, nil_append]
    | short req' hlen hreq =>
      have hless : ((([] : List UInt8).length + body.length : Nat) : Int) < len := by
        simpa using hlen
      dsimp only
      rw [if_pos hless]
      constructor
      · simp
      · simp
      · right
        exact ⟨[], len, lens, _, rfl, rfl, hless, by simp, hreq⟩

/-- The reads of a body that is on the connection give a start of what its
records hold, each as long as was asked for; the first short one takes the end
and leaves the connection behind the record that ends the body. -/
theorem fcgiReads_body (rs : List FcgiRecord) (last : FcgiRecord)
    (lens : List Nat) (hlen : req.inLen = 0) (hrs : ∀ r ∈ rs, r.IsBody) (hlast : last.EndsBody)
    (hrest : req.fd.rest = encodeRecords (rs ++ [last]) ++ behind) :
    BodyReads (contents rs) behind lens (req.fcgiReads lens).1 (req.fcgiReads lens).2.fd.rest :=
  fcgiReads_atBody lens (atBody_of_records hlen hrs hlast hrest)

/-- A body of three bytes in two records, the first of them padded, and a byte
behind it; every read of the connection delivers one byte. -/
def sampleBody : List FcgiRecord :=
  [⟨.stdin, 1, [97, 98], [0], by decide, by decide, by decide⟩,
    ⟨.stdin, 1, [99], [], by decide, by decide, by decide⟩]

def sampleEnd : FcgiRecord :=
  ⟨.stdin, 1, [], [], by decide, by decide, by decide⟩

def sampleRequest : FcgiIn where
  fd := ⟨encodeRecords (sampleBody ++ [sampleEnd]) ++ [7], 0, fun _ => 0, 0⟩
  id := 1
  keep := true
  inLen := 0
  inPad := 0
  env := .init
  mgmtVars := fun _ => none
  sent := []

theorem fcgiReads_body_sample : (sampleRequest.fcgiReads [2, 5, 1]).1 = [(2, [97, 98]), (1, [99])] ∧
      BodyReads [97, 98, 99] [7] [2, 5, 1] (sampleRequest.fcgiReads [2, 5, 1]).1
        (sampleRequest.fcgiReads [2, 5, 1]).2.fd.rest := by
  constructor
  · decide
  · apply fcgiReads_body sampleBody sampleEnd [2, 5, 1] rfl
    · intro r hr
      have hcases : r = ⟨.stdin, 1, [97, 98], [0], by decide, by decide, by decide⟩ ∨
          r = ⟨.stdin, 1, [99], [], by decide, by decide, by decide⟩ := by
        simpa [sampleBody] using hr
      rcases hcases with rfl | rfl
      · exact ⟨rfl, by simp⟩
      · exact ⟨rfl, by simp⟩
    · exact ⟨rfl, rfl, rfl⟩
    · rfl

end FcgiIn

end PhpEngine

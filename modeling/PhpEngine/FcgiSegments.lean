/-
The parameters of a request, cut into records.  `fcgi_read_request` takes every
record for itself: a pair must not lie in two records, and the padding of the
empty record at the end is left on the connection.
-/
import PhpEngine.FcgiBody
import PhpEngine.FcgiStored
import Mathlib.Algebra.Group.Nat.Defs

namespace PhpEngine

open List

/-- A way of cutting the encoded pairs into records; `closing` is the empty
record behind them. -/
structure Segmentation (qs : List FcgiParam) where
  records : List FcgiRecord
  closing : FcgiRecord
  type_eq : ∀ r ∈ records, r.type = .params
  content_ne : ∀ r ∈ records, r.content ≠ []
  length_le : ∀ r ∈ records, r.content.length + r.padding.length ≤ fcgiMaxLength
  contents_eq : contents records = encodeParams qs
  closing_type : closing.type = .params
  closing_content : closing.content = []

/-- The pairs of every record, if no pair lies in two records. -/
def Groups (rs : List FcgiRecord) (groups : List (List FcgiParam)) : Prop :=
  rs.map FcgiRecord.content = groups.map encodeParams

/-- The pairs with the hash values under which they are stored.  A name of
three bytes without a value at the end of a record is hashed with what stands
behind the record in the buffer: its padding, or what earlier records left. -/
def filedRecords (buf : Nat → UInt8) :
    List FcgiRecord → List (List FcgiParam) → List (Nat × FcgiParam)
  | r :: rs, g :: gs =>
    let buf := Memory.store buf 0 (r.content ++ r.padding)
    filed (buf r.content.length) g ++ filedRecords buf rs gs
  | _, _ => []

theorem length_encode_pos (q : FcgiParam) : 0 < q.encode.length := by
  rw [FcgiParam.encode, length_append, length_append, length_encodeLength]
  split <;> omega

/-- The last name is not hashed with what stands behind the record. -/
def EndsPlain (g : List FcgiParam) : Prop :=
  ∀ q, g.getLast? = some q → q.name.length = 3 → q.value ≠ []

theorem recordHash_congr {name tail tail' : List UInt8}
    (h : name.length = 3 → tail.headD 0 = tail'.headD 0) :
    recordHash name tail = recordHash name tail' := by
  rw [recordHash, recordHash, fcgiHashFunc, fcgiHashFunc]
  by_cases hshort : name.length < 3
  · rw [if_pos hshort, if_pos hshort]
  have hthird : cText (name ++ tail) 3 = cText (name ++ tail') 3 := by
    by_cases hthree : name.length = 3
    · rw [← hthree, cText_append_length, cText_append_length, h hthree]
    · rw [cText_append_left tail (by omega), cText_append_left tail' (by omega)]
  have hplace (i : Nat) (hi : i < name.length) :
      cText (name ++ tail) i = cText (name ++ tail') i := by
    rw [cText_append_left tail hi, cText_append_left tail' hi]
  rw [if_neg hshort, if_neg hshort, hthird, hplace (name.length - 2) (by omega),
    hplace (name.length - 1) (by omega)]

theorem filed_append {g : List FcgiParam} (hplain : EndsPlain g) (b b' : UInt8)
    (qs : List FcgiParam) : filed b g ++ filed b' qs = filed b' (g ++ qs) := by
  induction g with
  | nil => rfl
  | cons q g ih =>
    have hrest : EndsPlain g := by
      intro q' hq'
      apply hplain q'
      rw [getLast?_cons, hq']
      rfl
    rw [filed, cons_append, cons_append, filed, ih hrest]
    congr 2
    apply recordHash_congr
    intro hthree
    -- something stands behind the name in its own record
    have hne : q.value ++ encodeParams g ≠ [] := by
      cases g with
      | nil =>
        rw [encodeParams, flatMap_nil, append_nil]
        exact hplain q rfl hthree
      | cons q' g =>
        apply append_ne_nil_of_right_ne_nil
        apply ne_nil_of_length_pos
        rw [encodeParams, flatMap_cons, length_append]
        exact Nat.add_pos_left (length_encode_pos q') _
    obtain ⟨c, l, hcons⟩ := exists_cons_of_ne_nil hne
    have hsplit : encodeParams (g ++ qs) = encodeParams g ++ encodeParams qs :=
      flatMap_append
    rw [hsplit, ← append_assoc, hcons]
    rfl

/-- What is stored does not depend on the cut if no record ends with a name of
three bytes without a value. -/
theorem filedRecords_eq_filed {buf : Nat → UInt8} {rs : List FcgiRecord}
    {groups : List (List FcgiParam)} (hgroups : Groups rs groups)
    (hplain : ∀ g ∈ groups, EndsPlain g) : filedRecords buf rs groups = filed 0 groups.flatten := by
  induction rs generalizing buf groups with
  | nil =>
    cases groups with
    | nil => rfl
    | cons g groups => cases hgroups
  | cons r rs ih =>
    cases groups with
    | nil => cases hgroups
    | cons g groups =>
      obtain ⟨-, hgroups'⟩ := List.cons.inj hgroups
      obtain ⟨hg, hplain'⟩ := forall_mem_cons.mp hplain
      rw [filedRecords, ih hgroups' hplain', filed_append hg, flatten_cons]

namespace FcgiIn

variable {req : FcgiIn} {buf : Nat → UInt8} {behind : List UInt8}

section Turn

variable {r : FcgiRecord} {tail : List UInt8} {env : FcgiHash}

section

variable (fuel : Nat) (htype : r.type = .params) (hne : r.content ≠ [])
  (hlen : r.content.length + r.padding.length ≤ fcgiMaxLength)
include fuel htype hne hlen

theorem paramsLoop_taken {next : FcgiRecord}
    (hrest : req.fd.rest = r.content ++ (r.padding ++ (next.encode ++ tail)))
    (hparams : fcgiGetParams req.env
      (Memory.store buf 0 (r.content ++ r.padding)) 0 r.content.length = (true, env)) :
    ∃ fd', fd'.rest = next.content ++ (next.padding ++ tail) ∧
      paramsLoop (fuel + 1) req buf r.header = paramsLoop fuel { req with fd := fd', env := env }
          (Memory.store buf 0 (r.content ++ r.padding)) next.header := by
  rw [← append_assoc] at hrest
  obtain ⟨fd, hread, hfd⟩ := safeRead_append hrest
  obtain ⟨fd', hheader, hfd'⟩ := readHeader_encode hfd
  rw [length_append] at hread
  refine ⟨fd', hfd', ?_⟩
  have hpos := length_pos_iff.mpr hne
  rw [paramsLoop]
  simp only [type_header, contentLength_header, paddingLength_header, htype,
    hpos, and_self, if_true, if_neg (Nat.not_lt_of_le hlen), hread,
    length_append, ne_eq, not_true_eq_false, if_false, hparams, hheader]

theorem paramsLoop_refused (hrest : req.fd.rest = r.content ++ (r.padding ++ tail))
    (hparams : (fcgiGetParams req.env
      (Memory.store buf 0 (r.content ++ r.padding)) 0 r.content.length).1 = false) :
    (paramsLoop (fuel + 1) req buf r.header).1 = false ∧
      (paramsLoop (fuel + 1) req buf r.header).2.fd.rest = tail := by
  rw [← append_assoc] at hrest
  obtain ⟨fd, hread, hfd⟩ := safeRead_append hrest
  rw [length_append] at hread
  have hpos := length_pos_iff.mpr hne
  generalize hresult : fcgiGetParams req.env
    (Memory.store buf 0 (r.content ++ r.padding)) 0 r.content.length = result at hparams
  obtain ⟨_ | _, env⟩ := result
  · rw [paramsLoop]
    simp only [type_header, contentLength_header, paddingLength_header, htype,
      hpos, and_self, if_true, if_neg (Nat.not_lt_of_le hlen), hread,
      length_append, ne_eq, not_true_eq_false, if_false, hresult, hfd]
  · cases hparams

end

theorem paramsLoop_closing (fuel : Nat) (hnil : r.content = []) :
    paramsLoop (fuel + 1) req buf r.header = (true, req) := by
  rw [paramsLoop]
  simp [hnil]

end Turn

/-- The records that the loop goes through.  The header of `cur` is read. -/
structure AtParams (req : FcgiIn) (rs : List FcgiRecord)
    (closing cur : FcgiRecord) (behind : List UInt8) : Prop where
  type_eq : ∀ r ∈ rs, r.type = .params
  content_ne : ∀ r ∈ rs, r.content ≠ []
  length_le : ∀ r ∈ rs, r.content.length + r.padding.length ≤ fcgiMaxLength
  closing_content : closing.content = []
  rest_eq : ∃ tail, rs ++ [closing] = cur :: tail ∧ req.fd.rest =
    cur.content ++ (cur.padding ++ (encodeRecords tail ++ behind))

theorem slice_store_left (buf : Nat → UInt8) (l l' : List UInt8) :
    Memory.slice (Memory.store buf 0 (l ++ l')) 0 l.length = l :=
  (Memory.slice_append_eq (Memory.slice_store buf 0 (l ++ l'))).1

theorem fcgiGetParams_record {c : List UInt8} {g : List FcgiParam}
    (env : FcgiHash) (buf : Nat → UInt8) (hc : c = encodeParams g) (padding : List UInt8) :
    fcgiGetParams env (Memory.store buf 0 (c ++ padding)) 0 c.length = (true, storeAll env
        (filed (Memory.store buf 0 (c ++ padding) c.length) g)) := by
  have hslice := slice_store_left buf c padding
  have hparams := fcgiGetParams_encodeParams g env (hc ▸ hslice)
  rwa [zero_add, ← hc] at hparams

section Steps

variable {r cur closing : FcgiRecord} {rs : List FcgiRecord}

/-- A record that holds whole pairs is taken, and its pairs are stored. -/
theorem AtParams.taken (buf : Nat → UInt8)
    (h : AtParams req (r :: rs) closing cur behind) {g : List FcgiParam}
    (hg : r.content = encodeParams g) (fuel : Nat) :
    ∃ (req' : FcgiIn) (next : FcgiRecord), AtParams req' rs closing next behind ∧
      req'.env = storeAll req.env (filed (Memory.store buf 0
        (r.content ++ r.padding) r.content.length) g) ∧
      paramsLoop (fuel + 1) req buf cur.header = paramsLoop fuel req'
        (Memory.store buf 0 (r.content ++ r.padding)) next.header := by
  obtain ⟨tail, hcons, hrest⟩ := h.rest_eq
  rw [cons_append] at hcons
  obtain ⟨rfl, rfl⟩ := List.cons.inj hcons
  obtain ⟨htype, htypes⟩ := forall_mem_cons.mp h.type_eq
  obtain ⟨hne, hnes⟩ := forall_mem_cons.mp h.content_ne
  obtain ⟨hlen, hlens⟩ := forall_mem_cons.mp h.length_le
  obtain ⟨next, tail, hnext⟩ := exists_cons_of_ne_nil
    (append_ne_nil_of_right_ne_nil rs (cons_ne_nil closing []))
  rw [hnext, encodeRecords_cons, append_assoc] at hrest
  obtain ⟨fd', hfd', hloop⟩ := paramsLoop_taken fuel htype hne hlen hrest
    (fcgiGetParams_record req.env buf hg r.padding)
  exact ⟨{ req with fd := fd', env := _ }, next,
    ⟨htypes, hnes, hlens, h.closing_content, tail, hnext, hfd'⟩, rfl, hloop⟩

/-- A record that ends inside a pair is the last that is read. -/
theorem AtParams.refused (h : AtParams req (r :: rs) closing cur behind)
    {g : List FcgiParam} {part : List UInt8} {q : FcgiParam}
    (hcontent : r.content = encodeParams g ++ part) (hpart : PartOf part q) (fuel : Nat) :
    (paramsLoop (fuel + 1) req buf cur.header).1 = false ∧ behind.length <
        (paramsLoop (fuel + 1) req buf cur.header).2.fd.rest.length := by
  obtain ⟨tail, hcons, hrest⟩ := h.rest_eq
  rw [cons_append] at hcons
  obtain ⟨rfl, rfl⟩ := List.cons.inj hcons
  have hslice := slice_store_left buf r.content r.padding
  have hparams := fcgiGetParams_part hpart req.env (hcontent ▸ hslice)
  rw [zero_add, ← hcontent] at hparams
  obtain ⟨hfalse, hbehind⟩ := paramsLoop_refused fuel
    (h.type_eq r mem_cons_self) (h.content_ne r mem_cons_self)
    (h.length_le r mem_cons_self) hrest hparams
  refine ⟨hfalse, ?_⟩
  rw [hbehind, encodeRecords_append, encodeRecords_cons, length_append,
    length_append, length_append, FcgiRecord.length_encode,
    FcgiRecord.size, sizeofHeader]
  omega

end Steps

/-- Records with whole pairs are taken one after the other, and all pairs are
stored. -/
theorem paramsLoop_groups {rs : List FcgiRecord} {closing cur : FcgiRecord}
    {groups : List (List FcgiParam)} {fuel : Nat}
    (h : AtParams req rs closing cur behind) (hgroups : Groups rs groups)
    (hfuel : rs.length < fuel) : ∃ req', paramsLoop fuel req buf cur.header = (true, req') ∧
      req'.env = storeAll req.env (filedRecords buf rs groups) ∧
      req'.fd.rest = closing.padding ++ behind := by
  induction rs generalizing req buf cur groups fuel with
  | nil =>
    obtain ⟨tail, hcons, hrest⟩ := h.rest_eq
    cases hcons
    cases fuel with
    | zero => cases hfuel
    | succ fuel =>
      refine ⟨req, paramsLoop_closing fuel h.closing_content, rfl, ?_⟩
      rw [hrest, h.closing_content]
      rfl
  | cons r rs ih =>
    cases groups with
    | nil => cases hgroups
    | cons g groups =>
      obtain ⟨hg, hgroups'⟩ := List.cons.inj hgroups
      cases fuel with
      | zero => cases hfuel
      | succ fuel =>
        obtain ⟨req', next, hnext, henv, hloop⟩ :=
          h.taken buf hg fuel
        obtain ⟨req'', hrun, henv', hbehind⟩ :=
          ih hnext hgroups' (Nat.lt_of_succ_lt_succ hfuel)
        refine ⟨req'', hloop.trans hrun, ?_, hbehind⟩
        rw [henv', henv, filedRecords, storeAll, storeAll, storeAll, foldl_append]

/-- The records hold whole pairs, or the loop stops before the closing
record. -/
theorem paramsLoop_cases {rs : List FcgiRecord} {closing cur : FcgiRecord}
    {qs : List FcgiParam} {fuel : Nat} (h : AtParams req rs closing cur behind)
    (hcontents : contents rs = encodeParams qs) (hfuel : rs.length < fuel) :
    (∃ groups, Groups rs groups ∧ groups.flatten = qs) ∨
      ((paramsLoop fuel req buf cur.header).1 = false ∧ behind.length <
          (paramsLoop fuel req buf cur.header).2.fd.rest.length) := by
  induction rs generalizing req buf cur qs fuel with
  | nil =>
    left
    cases qs with
    | nil => exact ⟨[], rfl, rfl⟩
    | cons q qs =>
      have hpos := length_encode_pos q
      have hlength := congrArg List.length hcontents
      rw [encodeParams, flatMap_cons, length_append] at hlength
      simp only [contents, flatMap_nil, length_nil] at hlength
      omega
  | cons r rs ih =>
    have hcontents' : r.content ++ contents rs = encodeParams qs := by
      rw [← hcontents]
      exact flatMap_cons.symm
    obtain ⟨g, qs', part, rfl, hcontent, hpart⟩ :=
      prefix_encodeParams ⟨contents rs, hcontents'⟩
    cases fuel with
    | zero => cases hfuel
    | succ fuel =>
      rcases hpart with rfl | ⟨q, qs'', rfl, hpart⟩
      · rw [append_nil] at hcontent
        have hrest : contents rs = encodeParams qs' := by
          rw [hcontent, encodeParams, encodeParams, flatMap_append] at hcontents'
          exact append_cancel_left hcontents'
        obtain ⟨req', next, hnext, -, hloop⟩ :=
          h.taken buf hcontent fuel
        rw [hloop]
        rcases ih hnext hrest (Nat.lt_of_succ_lt_succ hfuel) with
          ⟨groups, hgroups, rfl⟩ | hstop
        · left
          refine ⟨g :: groups, ?_, rfl⟩
          rw [Groups, map_cons, map_cons, hcontent, hgroups]
        · exact .inr hstop
      · exact .inr (h.refused hcontent hpart fuel)

section Request

variable {begin : FcgiRecord} {role : FcgiParam} {rs : List FcgiRecord} {closing : FcgiRecord}

/-- `begin` opens a request with a known role, that is stored as a pair. -/
structure Begins (begin : FcgiRecord) (role : FcgiParam) : Prop where
  type_eq : begin.type = .beginRequest
  length_eq : begin.content.length = 8
  name_eq : role.name = fcgiRole
  value_eq : roleName (ofBytes (begin.content.getD 0 0) (begin.content.getD 1 0)) = some role.value

theorem store_getD (buf : Nat → UInt8) {l : List UInt8} (l' : List UInt8)
    {i : Nat} (hi : i < l.length) : Memory.store buf 0 (l ++ l') i = l.getD i 0 := by
  simp [Memory.store, getElem?_append_left hi, hi]

/-- The role is stored, and the header of the next record is read. -/
theorem beginRequest_begins (req : FcgiIn) (buf : Nat → UInt8)
    {next : FcgiRecord} {tail : List UInt8} (hbegin : Begins begin role) (hrest : req.fd.rest =
      begin.content ++ begin.padding ++ (next.encode ++ tail)) :
    ∃ req' : FcgiIn, req'.fd.rest = next.content ++ (next.padding ++ tail) ∧
      req'.env = storeAll req.env [(nameHash fcgiRole, role)] ∧ req.beginRequest buf begin.header =
        paramsLoop ((next.encode ++ tail).length + 1) req'
          (Memory.store buf 0 (begin.content ++ begin.padding)) next.header := by
  obtain ⟨fd, hread, hfd⟩ := safeRead_append hrest
  rw [length_append] at hread
  obtain ⟨fd', hnext, hfd'⟩ := readHeader_encode hfd
  have hfirst := store_getD buf begin.padding
    (by rw [hbegin.length_eq]; omega : 0 < begin.content.length)
  have hsecond := store_getD buf begin.padding
    (by rw [hbegin.length_eq]; omega : 1 < begin.content.length)
  refine ⟨{ req with
    fd := fd'
    keep := (Memory.store buf 0 (begin.content ++ begin.padding) 2).toNat % 2 = 1
    env := req.env.fcgiHashSet (nameHash fcgiRole) fcgiRole role.value },
    hfd', ?_, ?_⟩
  · rw [storeAll, foldl_cons, foldl_nil, hbegin.name_eq]
  · rw [beginRequest]
    simp only [contentLength_header, paddingLength_header, hread,
      length_append, ne_eq, not_true_eq_false, if_false, hfirst, hsecond,
      hbegin.value_eq, hnext, hfd]

/-- A request is opened, and the loop begins with the first record of the
parameters. -/
theorem fcgiReadRequest_begins (buf : Nat → UInt8) (hbegin : Begins begin role)
    (htype : ∀ r ∈ rs, r.type = .params) (hne : ∀ r ∈ rs, r.content ≠ [])
    (hlen : ∀ r ∈ rs, r.content.length + r.padding.length ≤ fcgiMaxLength)
    (hclosing : closing.content = []) (hrest : req.fd.rest =
      begin.encode ++ (encodeRecords (rs ++ [closing]) ++ behind)) :
    ∃ (req' : FcgiIn) (cur : FcgiRecord) (fuel : Nat), AtParams req' rs closing cur behind ∧
      req'.env = storeAll req.env [(nameHash fcgiRole, role)] ∧ rs.length < fuel ∧
      req.fcgiReadRequest buf = paramsLoop fuel req'
        (Memory.store buf 0 (begin.content ++ begin.padding)) cur.header := by
  obtain ⟨cur, tail, hcur⟩ := exists_cons_of_ne_nil
    (append_ne_nil_of_right_ne_nil rs (cons_ne_nil closing []))
  obtain ⟨fd, hheader, hfd⟩ := readHeader_encode hrest
  have hmax : begin.content.length + begin.padding.length ≤ fcgiMaxLength := by
    have hpad := begin.padding_lt
    rw [hbegin.length_eq, fcgiMaxLength]
    omega
  have hcount := length_le_encodeRecords (rs ++ [closing])
  rw [hcur, length_cons, encodeRecords_cons] at hcount
  have hrs : rs.length = tail.length := by
    have hlengths := congrArg List.length hcur
    rw [length_append, length_cons, length_cons] at hlengths
    exact Nat.succ_inj.mp hlengths
  rw [hcur, encodeRecords_cons, append_assoc, ← append_assoc] at hfd
  obtain ⟨req', hreq', henv, hloop⟩ := beginRequest_begins { req with
      keep := false, inLen := 0, fd := fd, id := begin.header.requestId }
    buf hbegin hfd
  refine ⟨req', cur, (cur.encode ++ (encodeRecords tail ++ behind)).length + 1,
    ⟨htype, hne, hlen, hclosing, tail, hcur, hreq'⟩, henv, ?_, ?_⟩
  · rw [← append_assoc, length_append]
    omega
  · have hnot : ¬(begin.header.type = FcgiRequestType.stdin.code ∧
        begin.header.contentLength = 0) := by
      rw [type_header, hbegin.type_eq]
      rintro ⟨htype, -⟩
      cases FcgiRequestType.code_inj htype
    have hskip (fuel : Nat) :
        skipEmptyStdin (fuel + 1) begin.header fd = (some begin.header, fd) := by
      rw [skipEmptyStdin, if_neg hnot]
    rw [← hloop, fcgiReadRequest]
    simp only [hheader, hskip, type_header, hbegin.type_eq,
      contentLength_header, paddingLength_header, hbegin.length_eq, and_self,
      if_true, if_neg (Nat.not_lt_of_le (hbegin.length_eq ▸ hmax))]

/-- What a request stores, the role first. -/
def filedRequest (begin : FcgiRecord) (role : FcgiParam) (buf : Nat → UInt8)
    (rs : List FcgiRecord) (groups : List (List FcgiParam)) : List (Nat × FcgiParam) :=
  (nameHash fcgiRole, role) ::
    filedRecords (Memory.store buf 0 (begin.content ++ begin.padding)) rs groups

/-- A request on the connection: the record that opens it, the parameters cut
into records, and `behind` with the body. -/
structure Sent (req : FcgiIn) (begin : FcgiRecord) {qs : List FcgiParam}
    (cut : Segmentation qs) (behind : List UInt8) : Prop where
  env_eq : req.env = .init
  rest_eq : req.fd.rest = begin.encode ++ (encodeRecords (cut.records ++ [cut.closing]) ++ behind)

variable {qs : List FcgiParam} {cut cut' : Segmentation qs} {groups : List (List FcgiParam)}

theorem fcgiReadRequest_groups (buf : Nat → UInt8) (hbegin : Begins begin role)
    (hsent : Sent req begin cut behind) (hgroups : Groups cut.records groups) :
    (req.fcgiReadRequest buf).1 = true ∧ (req.fcgiReadRequest buf).2.env =
        storeAll .init (filedRequest begin role buf cut.records groups) ∧
      (req.fcgiReadRequest buf).2.fd.rest = cut.closing.padding ++ behind := by
  obtain ⟨req', cur, fuel, hparams, henv, hfuel, hread⟩ :=
    fcgiReadRequest_begins buf hbegin cut.type_eq cut.content_ne
      cut.length_le cut.closing_content hsent.rest_eq
  obtain ⟨req'', hrun, henv', hbehind⟩ :=
    paramsLoop_groups hparams hgroups hfuel
  rw [hread, hrun]
  refine ⟨rfl, ?_, hbehind⟩
  rw [henv', henv, hsent.env_eq]
  rfl

theorem fcgiReadRequest_cases (hbegin : Begins begin role)
    (hsent : Sent req begin cut behind) (buf : Nat → UInt8) :
    (∃ groups, Groups cut.records groups ∧ groups.flatten = qs) ∨
      ((req.fcgiReadRequest buf).1 = false ∧
        behind.length < (req.fcgiReadRequest buf).2.fd.rest.length) := by
  obtain ⟨req', cur, fuel, hparams, henv, hfuel, hread⟩ :=
    fcgiReadRequest_begins buf hbegin cut.type_eq cut.content_ne
      cut.length_le cut.closing_content hsent.rest_eq
  rw [hread]
  exact paramsLoop_cases hparams cut.contents_eq hfuel

/-- The pairs are read and the connection stands at `behind` exactly if no
pair lies in two records and the closing record has no padding. -/
theorem fcgiReadRequest_rest_iff (hbegin : Begins begin role)
    (hsent : Sent req begin cut behind) (buf : Nat → UInt8) :
    (req.fcgiReadRequest buf).2.fd.rest = behind ↔
      (∃ groups, Groups cut.records groups ∧ groups.flatten = qs) ∧ cut.closing.padding = [] := by
  constructor
  · intro hrest
    rcases fcgiReadRequest_cases hbegin hsent buf with
      ⟨groups, hgroups, hflat⟩ | ⟨-, hlong⟩
    · refine ⟨⟨groups, hgroups, hflat⟩, ?_⟩
      obtain ⟨-, -, hpad⟩ :=
        fcgiReadRequest_groups buf hbegin hsent hgroups
      exact self_eq_append_left.mp (hrest.symm.trans hpad)
    · rw [hrest] at hlong
      exact absurd hlong (lt_irrefl _)
  · rintro ⟨⟨groups, hgroups, -⟩, hpad⟩
    obtain ⟨-, -, hrest⟩ :=
      fcgiReadRequest_groups buf hbegin hsent hgroups
    rw [hrest, hpad, nil_append]

/-- What the cut of the parameters must not change. -/
structure CutAlike (left right : Bool × FcgiIn) (behind : List UInt8) :
    Prop where
  result : left.1 = right.1
  env : left.2.env = right.2.env
  rest_left : left.2.fd.rest = behind
  rest_right : right.2.fd.rest = behind

/-- Two cuts of the same pairs come to the same exactly if in both of them no
pair lies in two records and the closing record has no padding, and the names
are stored under the same hash values. -/
theorem fcgiReadRequest_cutAlike_iff {req' : FcgiIn} (buf buf' : Nat → UInt8)
    (hbegin : Begins begin role) (hsent : Sent req begin cut behind)
    (hsent' : Sent req' begin cut' behind) :
    CutAlike (req.fcgiReadRequest buf) (req'.fcgiReadRequest buf') behind ↔
      cut.closing.padding = [] ∧ cut'.closing.padding = [] ∧
      ∃ groups groups', Groups cut.records groups ∧ groups.flatten = qs ∧
        Groups cut'.records groups' ∧ groups'.flatten = qs ∧
        FiledAlike (filedRequest begin role buf cut.records groups)
          (filedRequest begin role buf' cut'.records groups') := by
  constructor
  · intro halike
    obtain ⟨⟨groups, hgroups, hflat⟩, hpad⟩ :=
      (fcgiReadRequest_rest_iff hbegin hsent buf).mp halike.rest_left
    obtain ⟨⟨groups', hgroups', hflat'⟩, hpad'⟩ :=
      (fcgiReadRequest_rest_iff hbegin hsent' buf').mp halike.rest_right
    refine ⟨hpad, hpad', groups, groups', hgroups, hflat, hgroups', hflat', ?_⟩
    obtain ⟨-, henv, -⟩ :=
      fcgiReadRequest_groups buf hbegin hsent hgroups
    obtain ⟨-, henv', -⟩ :=
      fcgiReadRequest_groups buf' hbegin hsent' hgroups'
    rw [← storeAll_init_eq_iff, ← henv, ← henv', halike.env]
  · rintro ⟨hpad, hpad', groups, groups', hgroups, -, hgroups', -, hfiled⟩
    obtain ⟨hresult, henv, hrest⟩ :=
      fcgiReadRequest_groups buf hbegin hsent hgroups
    obtain ⟨hresult', henv', hrest'⟩ :=
      fcgiReadRequest_groups buf' hbegin hsent' hgroups'
    constructor
    · rw [hresult, hresult']
    · rw [henv, henv', storeAll_init_eq_iff]
      exact hfiled
    · rw [hrest, hpad, nil_append]
    · rw [hrest', hpad', nil_append]

end Request

theorem one_lt_id : 1 < 2 ^ 16 := by
  decide

theorem nil_lt_content : ([] : List UInt8).length < 2 ^ 16 := by
  decide

theorem nil_lt_padding : ([] : List UInt8).length < 2 ^ 8 := by
  decide

/-- A responder and the pairs `AB=x` and `CDE=y`, in one record, in two records
of which the second is padded, and cut inside the first pair. -/
def sampleBegin : FcgiRecord :=
  ⟨.beginRequest, 1, [0, 1, 0, 0, 0, 0, 0, 0], [], one_lt_id, by decide, nil_lt_padding⟩

def sampleRole : FcgiParam :=
  ⟨fcgiRole, [82, 69, 83, 80, 79, 78, 68, 69, 82], by decide +kernel, by decide⟩

def samplePairs : List FcgiParam :=
  [⟨[65, 66], [120], by decide, by decide⟩, ⟨[67, 68, 69], [121], by decide, by decide⟩]

def sampleParams (content padding : List UInt8)
    (hcontent : content.length < 2 ^ 16) (hpadding : padding.length < 2 ^ 8) : FcgiRecord :=
  ⟨.params, 1, content, padding, one_lt_id, hcontent, hpadding⟩

def sampleWhole : Segmentation samplePairs where
  records := [sampleParams [2, 1, 65, 66, 120, 3, 1, 67, 68, 69, 121] [] (by decide) nil_lt_padding]
  closing := sampleParams [] [] nil_lt_content nil_lt_padding
  type_eq := by simp [sampleParams]
  content_ne := by simp [sampleParams]
  length_le := by simp [sampleParams, fcgiMaxLength]
  contents_eq := by decide
  closing_type := rfl
  closing_content := rfl

def sampleHalves : Segmentation samplePairs where
  records := [sampleParams [2, 1, 65, 66, 120] [] (by decide) nil_lt_padding,
    sampleParams [3, 1, 67, 68, 69, 121] [0, 0] (by decide) (by decide)]
  closing := sampleParams [] [] nil_lt_content nil_lt_padding
  type_eq := by simp [sampleParams]
  content_ne := by simp [sampleParams]
  length_le := by simp [sampleParams, fcgiMaxLength]
  contents_eq := by decide
  closing_type := rfl
  closing_content := rfl

def sampleInside : Segmentation samplePairs where
  records := [sampleParams [2, 1, 65] [] (by decide) nil_lt_padding,
    sampleParams [66, 120, 3, 1, 67, 68, 69, 121] [] (by decide) nil_lt_padding]
  closing := sampleParams [] [] nil_lt_content nil_lt_padding
  type_eq := by simp [sampleParams]
  content_ne := by simp [sampleParams]
  length_le := by simp [sampleParams, fcgiMaxLength]
  contents_eq := by decide
  closing_type := rfl
  closing_content := rfl

/-- The request on a connection that has nothing behind it. -/
def sampleSent (cut : Segmentation samplePairs) : FcgiIn :=
  { sampleRequest with
    fd := ⟨sampleBegin.encode ++
      (encodeRecords (cut.records ++ [cut.closing]) ++ []), 0, fun _ => 0, 0⟩ }

theorem sampleSent_sent (cut : Segmentation samplePairs) :
    Sent (sampleSent cut) sampleBegin cut [] :=
  ⟨rfl, rfl⟩

theorem sampleBegin_begins : Begins sampleBegin sampleRole :=
  ⟨rfl, rfl, rfl, by decide +kernel⟩

theorem fcgiReadRequest_cutAlike_iff_sample :
    CutAlike ((sampleSent sampleWhole).fcgiReadRequest fun _ => 0)
      ((sampleSent sampleHalves).fcgiReadRequest fun _ => 0) [] := by
  apply (fcgiReadRequest_cutAlike_iff _ _ sampleBegin_begins
    (sampleSent_sent sampleWhole) (sampleSent_sent sampleHalves)).mpr
  have hwhole : Groups sampleWhole.records [samplePairs] := rfl
  have hhalves : Groups sampleHalves.records [samplePairs.take 1, samplePairs.drop 1] := rfl
  have hplain : ∀ g ∈ [samplePairs, samplePairs.take 1, samplePairs.drop 1], EndsPlain g := by
    simp [EndsPlain, samplePairs]
  refine ⟨rfl, rfl, _, _, hwhole, rfl, hhalves, rfl, ?_⟩
  rw [filedRequest, filedRequest, filedRecords_eq_filed hhalves fun g hg => hplain g (by simp_all)]
  exact ⟨rfl, fun _ => rfl⟩

theorem sampleInside_refused : ¬ CutAlike ((sampleSent sampleWhole).fcgiReadRequest fun _ => 0)
      ((sampleSent sampleInside).fcgiReadRequest fun _ => 0) [] := by
  intro halike
  have hresult := halike.result
  revert hresult
  decide

end FcgiIn

end PhpEngine

/-
`php_url_parse_ex` (ext/standard/url.c).
-/
import PhpEngine.QuotPrint

namespace PhpEngine

open List

namespace UrlParse

open QuotPrint (isCntrl)

/-- `isalpha` -/
def isAlpha (b : UInt8) : Bool :=
  (byte 'A' ≤ b && b ≤ byte 'Z') || (byte 'a' ≤ b && b ≤ byte 'z')

/-- `tolower` -/
def toLower (b : UInt8) : UInt8 :=
  if byte 'A' ≤ b ∧ b ≤ byte 'Z' then b + 32 else b

/-- `php_url`; the port is zero when there is none. -/
structure PhpUrl where
  scheme : Option (List UInt8)
  user : Option (List UInt8)
  pass : Option (List UInt8)
  host : Option (List UInt8)
  port : Nat
  path : Option (List UInt8)
  query : Option (List UInt8)
  fragment : Option (List UInt8)
deriving Repr, DecidableEq

/-- The structure that `ecalloc` yields. -/
def PhpUrl.empty : PhpUrl :=
  ⟨none, none, none, none, 0, none, none, none⟩

section Pointers

-- The text, which a NUL follows.  Pointers into it are distances from its first byte.
variable (str : List UInt8)

/-- `*p` -/
def byteAt (p : Nat) : UInt8 :=
  str.getD p 0

/-- `memchr(s, c, n)` -/
def memchr (s : Nat) (c : UInt8) (n : Nat) : Option Nat :=
  (((str.drop s).take n).findIdx? (· == c)).map (s + ·)

/-- `zend_memrchr(s, c, n)` -/
def memrchr (s : Nat) (c : UInt8) (n : Nat) : Option Nat :=
  ((List.range n).reverse.find? fun i => byteAt str (s + i) == c).map (s + ·)

/-- `estrndup` and `php_replace_controlchars_ex` -/
def strndup (s n : Nat) : List UInt8 :=
  ((str.drop s).take n).map fun b => if isCntrl b then byte '_' else b

/-- A part that is kept only if it is not empty. -/
def part (s n : Nat) : Option (List UInt8) :=
  if n = 0 then none else some (strndup str s n)

/-- From `label_parse` on. -/
def labelParse (ret : PhpUrl) (p ue : Nat) : PhpUrl :=
  { ret with fragment := part str (p + 1) (ue - (p + 1)) }

/-- From `nohost` on. -/
def nohost (ret : PhpUrl) (s ue : Nat) : PhpUrl :=
  match memchr str s (byte '?') (ue - s), memchr str s (byte '#') (ue - s) with
  | some p, some pp =>
    if pp < p then labelParse str { ret with path := part str s (pp - s) } pp ue
    else
      labelParse str { ret with
          path := part str s (p - s)
          query := part str (p + 1) (pp - (p + 1)) } pp ue
  | some p, none =>
    { ret with
      path := part str s (p - s)
      query := part str (p + 1) (ue - (p + 1)) }
  | none, some p => labelParse str { ret with path := part str s (p - s) } p ue
  | none, none => { ret with path := some (strndup str s (ue - s)) }

variable (size : LongSize)

/-- The port in the `n` bytes from `p` on, if it is one. -/
def portNumber (p n : Nat) : Option Nat :=
  let port := strtol size 10 ((str.drop p).take n)
  if 0 < port ∧ port ≤ 65535 then some port.toNat else none

/-- Where the authority that starts at `s` ends. -/
def authorityEnd (s ue : Nat) : Nat :=
  match memchr str s (byte '/') (ue - s) with
  | some p => p
  | none =>
    match memchr str s (byte '?') (ue - s), memchr str s (byte '#') (ue - s) with
    | some query, some fragment => if fragment < query then fragment else query
    | some query, none => query
    | none, some fragment => fragment
    | none, none => ue

/-- Login and password, and `s` behind them. -/
def login (ret : PhpUrl) (s e : Nat) : PhpUrl × Nat :=
  match memrchr str s (byte '@') (e - s) with
  | none => (ret, s)
  | some p =>
    match memchr str s (byte ':') (p - s) with
    | some pp =>
      ({ ret with
          user := some (strndup str s (pp - s))
          pass := some (strndup str (pp + 1) (p - (pp + 1))) }, p + 1)
    | none => ({ ret with user := some (strndup str s (p - s)) }, p + 1)

/-- The last `:` between `s` and `e`, both included, unless a bracketed address is there. -/
def portColon (s e : Nat) : Option Nat :=
  if byteAt str s = byte '[' ∧ byteAt str (e - 1) = byte ']' then none
  else memrchr str s (byte ':') (e + 1 - s)

/-- The check for a port: the end of the host, or `none` for `NULL`. -/
def checkPort (ret : PhpUrl) (s e : Nat) : Option (PhpUrl × Nat) :=
  match portColon str s e with
  | none => some (ret, e)
  | some p =>
    if ret.port ≠ 0 ∨ e - (p + 1) = 0 then some (ret, p)
    else if 5 < e - (p + 1) then none
    else (portNumber str size (p + 1) (e - (p + 1))).map fun port => ({ ret with port := port }, p)

/-- From `e = ue` on, where `s` is the start of the authority. -/
def authority (ret : PhpUrl) (s ue : Nat) : Option PhpUrl :=
  let e := authorityEnd str s ue
  let (ret, s) := login str ret s e
  match checkPort str size ret s e with
  | none => none
  | some (ret, p) =>
    if p - s < 1 then none
    else
      let ret := { ret with host := some (strndup str s (p - s)) }
      if e = ue then some ret else some (nohost str ret e ue)

/-- Behind the two slashes that `s` points to, if there are any. -/
def behindSlashes (s : Nat) : Nat :=
  if byteAt str s = byte '/' ∧ byteAt str (s + 1) = byte '/' then s + 2 else s

/-- From `parse_port` on. -/
def parsePort (ret : PhpUrl) (s e ue : Nat) : Option PhpUrl :=
  let n := (((str.drop (e + 1)).take 6).takeWhile isDigit).length
  let next := byteAt str (e + 1 + n)
  if 0 < n ∧ n < 6 ∧ (next = byte '/' ∨ next = 0) then
    match portNumber str size (e + 1) n with
    | some port => authority str size { ret with port := port } (behindSlashes str s) ue
    | none => none
  else if n = 0 ∧ next = 0 then none
  else if byteAt str s = byte '/' ∧ byteAt str (s + 1) = byte '/' then
    authority str size ret (s + 2) ue
  else some (nohost str ret s ue)

def isSchemeByte (b : UInt8) : Bool :=
  isAlpha b || isDigit b || b == byte '+' || b == byte '.' || b == byte '-'

/-- `strncasecmp("file", scheme, sizeof("file"))` -/
def isFile (scheme : List UInt8) : Bool :=
  scheme.map toLower == "file".toList.map byte

/-- What follows a valid scheme that ends at `e`. -/
def behindScheme (e ue : Nat) : Option PhpUrl :=
  let scheme := strndup str 0 e
  let ret := { PhpUrl.empty with scheme := some scheme }
  let n := ((str.drop (e + 1)).takeWhile isDigit).length
  let next := byteAt str (e + 1 + n)
  if byteAt str (e + 1) = 0 then some ret
  else if byteAt str (e + 1) ≠ byte '/' then
    if (next = 0 ∨ next = byte '/') ∧ n + 1 < 7 then parsePort str size PhpUrl.empty 0 e ue
    else some (nohost str ret (e + 1) ue)
  else if byteAt str (e + 2) = byte '/' then
    if isFile scheme ∧ byteAt str (e + 3) = byte '/' then
      -- Drive letters, as in `file:///c:/somedir/file.txt`.
      some (nohost str ret (if byteAt str (e + 5) = byte ':' then e + 4 else e + 3) ue)
    else authority str size ret (e + 3) ue
  else some (nohost str ret (e + 1) ue)

/-- `php_url_parse_ex` -/
def phpUrlParseEx : Option PhpUrl :=
  let ue := str.length
  match memchr str 0 (byte ':') ue with
  | some e =>
    if e = 0 then parsePort str size PhpUrl.empty 0 e ue
    else if (str.take e).all isSchemeByte then behindScheme str size e ue
    else if e + 1 < ue then parsePort str size PhpUrl.empty 0 e ue
    else some (nohost str PhpUrl.empty 0 ue)
  | none =>
    if byteAt str 0 = byte '/' ∧ byteAt str 1 = byte '/' then
      authority str size PhpUrl.empty 2 ue
    else some (nohost str PhpUrl.empty 0 ue)

end Pointers

/-! Relative references. -/

section Spec

def nonEmpty (text : List UInt8) : Option (List UInt8) :=
  if text = [] then none else some text

/-- The bytes that end a path. -/
def endsPath (b : UInt8) : Bool :=
  b == byte '?' || b == byte '#'

/-- The parts of a reference without scheme and authority. -/
def relative (str : List UInt8) : PhpUrl :=
  let behind := str.dropWhile (!endsPath ·)
  { PhpUrl.empty with
    path := nonEmpty (str.takeWhile (!endsPath ·))
    query :=
      if behind.head? = some (byte '?') then
        nonEmpty (behind.tail.takeWhile (· != byte '#'))
      else none
    fragment := nonEmpty (str.dropWhile (· != byte '#')).tail }

/-- Behind the first `:` stand one to five digits, and then the end or a `/`. -/
def PortBehindColon (str : List UInt8) : Prop :=
  let behind := (str.dropWhile (· != byte ':')).tail
  let n := (behind.takeWhile isDigit).length
  0 < n ∧ n < 6 ∧ (behind[n]? = none ∨ behind[n]? = some (byte '/'))

instance (str : List UInt8) : Decidable (PortBehindColon str) :=
  inferInstanceAs (Decidable (_ ∧ _))

variable {front behind : List UInt8}

theorem takeWhile_split {p : UInt8 → Bool} {c : UInt8} (hfront : ∀ b ∈ front, p b = true)
    (hc : p c = false) : (front ++ c :: behind).takeWhile p = front := by
  rw [takeWhile_append_of_pos hfront, takeWhile_cons_of_neg (by simp [hc]), append_nil]

theorem dropWhile_split {p : UInt8 → Bool} {c : UInt8} (hfront : ∀ b ∈ front, p b = true)
    (hc : p c = false) : (front ++ c :: behind).dropWhile p = c :: behind := by
  rw [dropWhile_append_of_pos hfront, dropWhile_cons_of_neg (by simp [hc])]

theorem not_endsPath (hfront : ∀ b ∈ front, endsPath b = false) :
    (∀ b ∈ front, (!endsPath b) = true) ∧ ∀ b ∈ front, (b != byte '#') = true := by
  refine ⟨fun b hb => by rw [hfront b hb]; rfl, fun b hb => ?_⟩
  have hb' := hfront b hb
  rw [endsPath, Bool.or_eq_false_iff] at hb'
  rw [bne, hb'.2]
  rfl

theorem endsPath_of_not_mem (hquery : byte '?' ∉ front) (hhash : byte '#' ∉ front) :
    ∀ b ∈ front, endsPath b = false := by
  intro b hb
  rw [endsPath, Bool.or_eq_false_iff, beq_eq_false_iff_ne, beq_eq_false_iff_ne]
  exact ⟨ne_of_mem_of_not_mem hb hquery, ne_of_mem_of_not_mem hb hhash⟩

section

variable (hfront : ∀ b ∈ front, endsPath b = false)
include hfront

theorem relative_fragment :
    relative (front ++ byte '#' :: behind) =
      { PhpUrl.empty with path := nonEmpty front, fragment := nonEmpty behind } := by
  obtain ⟨hpath, hhash⟩ := not_endsPath hfront
  rw [relative, takeWhile_split hpath rfl, dropWhile_split hpath rfl, dropWhile_split hhash rfl]
  rfl

theorem relative_query :
    relative (front ++ byte '?' :: behind) = { PhpUrl.empty with
        path := nonEmpty front
        query := nonEmpty (behind.takeWhile (· != byte '#'))
        fragment := nonEmpty (behind.dropWhile (· != byte '#')).tail } := by
  obtain ⟨hpath, hhash⟩ := not_endsPath hfront
  rw [relative, takeWhile_split hpath rfl, dropWhile_split hpath rfl,
    dropWhile_append_of_pos hhash, dropWhile_cons_of_pos rfl]
  rfl

theorem relative_plain :
    relative front = { PhpUrl.empty with path := nonEmpty front } := by
  obtain ⟨hpath, hhash⟩ := not_endsPath hfront
  rw [relative, takeWhile_eq_self_iff.mpr hpath, dropWhile_eq_nil_iff.mpr hpath,
    dropWhile_eq_nil_iff.mpr hhash]
  rfl

end

end Spec

section Parts

variable {str : List UInt8}

theorem strndup_plain (hctrl : ∀ b ∈ str, isCntrl b = false) (s n : Nat) :
    strndup str s n = (str.drop s).take n := by
  have hkept : ∀ b ∈ (str.drop s).take n, (if isCntrl b then byte '_' else b) = b := by
    intro b hb
    rw [hctrl b (mem_of_mem_drop (mem_of_mem_take hb))]
    rfl
  rw [strndup, map_congr_left hkept, List.map_id']

theorem part_plain (hctrl : ∀ b ∈ str, isCntrl b = false) {s n : Nat}
    (hn : s + n ≤ str.length) : part str s n = nonEmpty ((str.drop s).take n) := by
  have hlength : ((str.drop s).take n).length = n := by
    rw [length_take, length_drop]
    omega
  rw [part, nonEmpty, strndup_plain hctrl]
  by_cases hzero : n = 0
  · rw [if_pos hzero, if_pos (length_eq_zero_iff.mp (by omega))]
  · rw [if_neg hzero, if_neg fun h => by rw [h] at hlength; exact hzero hlength.symm]

theorem findIdx?_split (c : UInt8) (text : List UInt8) : text.findIdx? (· == c) = none ∧ c ∉ text ∨
      ∃ front behind, text = front ++ c :: behind ∧ c ∉ front ∧
        text.findIdx? (· == c) = some front.length := by
  induction text with
  | nil => exact .inl ⟨rfl, by simp⟩
  | cons b rest ih =>
    by_cases hb : b = c
    · refine .inr ⟨[], rest, by rw [hb]; rfl, by simp, ?_⟩
      rw [findIdx?_cons, hb, beq_self_eq_true, if_pos rfl]
      rfl
    · rw [findIdx?_cons, beq_eq_false_iff_ne.mpr hb, if_neg Bool.false_ne_true]
      rcases ih with ⟨hnone, hmem⟩ | ⟨front, behind, rfl, hmem, hsome⟩
      · refine .inl ⟨by rw [hnone]; rfl, ?_⟩
        rw [mem_cons, not_or]
        exact ⟨Ne.symm hb, hmem⟩
      · refine .inr ⟨b :: front, behind, rfl, ?_, by rw [hsome]; rfl⟩
        rw [mem_cons, not_or]
        exact ⟨Ne.symm hb, hmem⟩

theorem memchr_cases (str : List UInt8) (c : UInt8) : memchr str 0 c str.length = none ∧ c ∉ str ∨
      ∃ front behind, str = front ++ c :: behind ∧ c ∉ front ∧
        memchr str 0 c str.length = some front.length := by
  have hmemchr : memchr str 0 c str.length = str.findIdx? (· == c) := by
    rw [memchr, drop_zero, take_length]
    cases str.findIdx? (· == c) with
    | none => rfl
    | some i => exact congrArg some (zero_add i)
  rw [hmemchr]
  exact findIdx?_split c str

theorem part_front {front behind : List UInt8} (hctrl : ∀ b ∈ front ++ behind, isCntrl b = false) :
    part (front ++ behind) 0 (front.length - 0) = nonEmpty front := by
  rw [part_plain hctrl (by simp), drop_zero, Nat.sub_zero, take_left]

theorem part_behind {front behind : List UInt8} {c : UInt8}
    (hctrl : ∀ b ∈ front ++ c :: behind, isCntrl b = false) :
    part (front ++ c :: behind) (front.length + 1)
      ((front ++ c :: behind).length - (front.length + 1)) = nonEmpty behind := by
  have hlength : (front ++ c :: behind).length = front.length + 1 + behind.length := by
    rw [length_append, length_cons]
    omega
  rw [part_plain hctrl (by omega), hlength, Nat.add_sub_cancel_left]
  simp

theorem part_middle {front middle behind : List UInt8} {c d : UInt8}
    (hctrl : ∀ b ∈ front ++ c :: (middle ++ d :: behind), isCntrl b = false) :
    part (front ++ c :: (middle ++ d :: behind)) (front.length + 1)
      ((front ++ c :: middle).length - (front.length + 1)) = nonEmpty middle := by
  have hlength : (front ++ c :: middle).length - (front.length + 1) = middle.length := by
    rw [length_append, length_cons]
    omega
  rw [hlength, part_plain hctrl (by simp; omega)]
  simp

/-- A reference without scheme and authority is taken apart as `relative` says. -/
theorem nohost_relative (hctrl : ∀ b ∈ str, isCntrl b = false) (hne : str ≠ []) :
    nohost str PhpUrl.empty 0 str.length = relative str := by
  rw [nohost, Nat.sub_zero]
  rcases memchr_cases str (byte '?') with ⟨hquery, hnoquery⟩ | ⟨f, b, hstr, hf, hquery⟩
  · rcases memchr_cases str (byte '#') with ⟨hhash, hnohash⟩ | ⟨f', b', hstr', hf', hhash⟩
    · rw [hquery, hhash, relative_plain (endsPath_of_not_mem hnoquery hnohash), nonEmpty,
        if_neg hne]
      rw [strndup_plain hctrl, drop_zero, take_length]
    · have hfront : ∀ b ∈ f', endsPath b = false :=
        endsPath_of_not_mem (fun h => hnoquery (by rw [hstr']; exact mem_append_left _ h)) hf'
      rw [hquery, hhash]
      subst hstr'
      simp only
      rw [relative_fragment hfront, labelParse, part_front hctrl, part_behind hctrl]
  · rcases memchr_cases str (byte '#') with ⟨hhash, hnohash⟩ | ⟨f', b', hstr', hf', hhash⟩
    · have hfront : ∀ b ∈ f, endsPath b = false :=
        endsPath_of_not_mem hf fun h => hnohash (by rw [hstr]; exact mem_append_left _ h)
      have hbehind : ∀ d ∈ b, (d != byte '#') = true := by
        intro d hd
        refine bne_iff_ne.mpr fun h => hnohash ?_
        rw [hstr, ← h]
        exact mem_append_right f (mem_cons_of_mem _ hd)
      rw [hquery, hhash]
      subst hstr
      simp only
      rw [relative_query hfront, takeWhile_eq_self_iff.mpr hbehind,
        dropWhile_eq_nil_iff.mpr hbehind, part_front hctrl, part_behind hctrl]
      rfl
    · rw [hquery, hhash]
      rcases append_eq_append_iff.mp (hstr.symm.trans hstr') with
        ⟨middle, hf'eq, hb⟩ | ⟨middle, hfeq, hb'⟩
      · -- The `?` is in front of the `#`.
        obtain _ | ⟨c, middle⟩ := middle
        · exact absurd (List.cons.inj hb).1 (by decide)
        rw [cons_append] at hb
        obtain ⟨rfl, rfl⟩ := List.cons.inj hb
        have hfront : ∀ b ∈ f, endsPath b = false :=
          endsPath_of_not_mem hf fun h => hf' (by rw [hf'eq]; exact mem_append_left _ h)
        have hmiddle : ∀ d ∈ middle, (d != byte '#') = true := by
          intro d hd
          refine bne_iff_ne.mpr fun h => hf' ?_
          rw [hf'eq, ← h]
          exact mem_append_right f (mem_cons_of_mem _ hd)
        have hlt : ¬f'.length < f.length := by
          rw [hf'eq, length_append]
          omega
        have hfragment : part str (f'.length + 1) (str.length - (f'.length + 1)) = nonEmpty b' := by
          rw [hstr'] at hctrl ⊢
          exact part_behind hctrl
        simp only
        rw [if_neg hlt, labelParse, hfragment, hf'eq]
        subst hstr
        rw [relative_query hfront, takeWhile_split hmiddle rfl, dropWhile_split hmiddle rfl,
          part_front hctrl, part_middle hctrl]
        rfl
      · obtain _ | ⟨c, middle⟩ := middle
        · exact absurd (List.cons.inj hb').1 (by decide)
        have hfront : ∀ b ∈ f', endsPath b = false :=
          endsPath_of_not_mem (fun h => hf (by rw [hfeq]; exact mem_append_left _ h)) hf'
        have hlt : f'.length < f.length := by
          rw [hfeq, length_append, length_cons]
          omega
        simp only
        rw [if_pos hlt]
        subst hstr'
        rw [relative_fragment hfront, labelParse, part_front hctrl, part_behind hctrl]

theorem authority_slash (size : LongSize) (ret : PhpUrl) {rest : List UInt8} :
    authority (byte '/' :: rest) size ret 0 (byte '/' :: rest).length = none := by
  rfl

theorem behindSlashes_single {rest : List UInt8} (hsecond : rest.head? ≠ some (byte '/')) :
    ¬(byteAt (byte '/' :: rest) 0 = byte '/' ∧ byteAt (byte '/' :: rest) 1 = byte '/') := by
  rintro ⟨-, h⟩
  cases rest with
  | nil => cases h
  | cons b rest => exact hsecond (congrArg some h)

end Parts

/-- Where `parse_port` reads a port behind the first `:`. -/
theorem portBehindColon_split {front behind : List UInt8} (hfront : byte ':' ∉ front)
    (hnul : 0 ∉ behind) : PortBehindColon (front ++ byte ':' :: behind) ↔
      0 < ((behind.take 6).takeWhile isDigit).length ∧
        ((behind.take 6).takeWhile isDigit).length < 6 ∧
        (behind.getD ((behind.take 6).takeWhile isDigit).length 0 = byte '/' ∨
          behind.getD ((behind.take 6).takeWhile isDigit).length 0 = 0) := by
  have hcolon : (front ++ byte ':' :: behind).dropWhile (· != byte ':') = byte ':' :: behind :=
    dropWhile_split (fun b hb => bne_iff_ne.mpr (ne_of_mem_of_not_mem hb hfront)) rfl
  rw [PortBehindColon, hcolon, tail_cons]
  have hlength : ((behind.take 6).takeWhile isDigit).length =
      min 6 (behind.takeWhile isDigit).length := by
    rw [← length_take, take_takeWhile]
  rw [hlength]
  by_cases hshort : (behind.takeWhile isDigit).length < 6
  · rw [Nat.min_eq_right hshort.le, getD_eq_getElem?_getD]
    cases hnext : behind[(behind.takeWhile isDigit).length]? with
    | none => simp
    | some b =>
      have hb : b ≠ 0 := ne_of_mem_of_not_mem (mem_of_getElem? hnext) hnul
      simp [hb]
  · exact iff_of_false (fun h => hshort h.2.1) fun h => by omega

/-- What `parse_port` makes of a reference that starts with a single slash. -/
theorem parsePort_single (size : LongSize) {front behind : List UInt8}
    (hsingle : ¬(byteAt (byte '/' :: (front ++ byte ':' :: behind)) 0 = byte '/' ∧
      byteAt (byte '/' :: (front ++ byte ':' :: behind)) 1 = byte '/'))
    (hnul : 0 ∉ behind) (hne : behind ≠ []) (url : PhpUrl)
    (hnohost : nohost (byte '/' :: (front ++ byte ':' :: behind)) PhpUrl.empty 0
      (byte '/' :: (front ++ byte ':' :: behind)).length = url) :
    parsePort (byte '/' :: (front ++ byte ':' :: behind)) size PhpUrl.empty 0 (front.length + 1)
        (byte '/' :: (front ++ byte ':' :: behind)).length = some url ↔
      ¬(0 < ((behind.take 6).takeWhile isDigit).length ∧
        ((behind.take 6).takeWhile isDigit).length < 6 ∧
        (behind.getD ((behind.take 6).takeWhile isDigit).length 0 = byte '/' ∨
          behind.getD ((behind.take 6).takeWhile isDigit).length 0 = 0)) := by
  have hdrop : (byte '/' :: (front ++ byte ':' :: behind)).drop (front.length + 1 + 1) =
      behind := by
    simp
  have hbyte : ∀ n, byteAt (byte '/' :: (front ++ byte ':' :: behind))
      (front.length + 1 + 1 + n) = behind.getD n 0 := by
    intro n
    have hget : behind[n]? =
        (byte '/' :: (front ++ byte ':' :: behind))[front.length + 1 + 1 + n]? := by
      conv_lhs => rw [← hdrop]
      exact getElem?_drop
    rw [byteAt, getD_eq_getElem?_getD, getD_eq_getElem?_getD, hget]
  have hslashes : behindSlashes (byte '/' :: (front ++ byte ':' :: behind)) 0 = 0 := by
    rw [behindSlashes, if_neg hsingle]
  rw [parsePort, hdrop]
  simp only [hbyte]
  by_cases hport : 0 < ((behind.take 6).takeWhile isDigit).length ∧
      ((behind.take 6).takeWhile isDigit).length < 6 ∧
      (behind.getD ((behind.take 6).takeWhile isDigit).length 0 = byte '/' ∨
        behind.getD ((behind.take 6).takeWhile isDigit).length 0 = 0)
  · rw [if_pos hport]
    refine iff_of_false ?_ (not_not_intro hport)
    split
    · rw [hslashes, authority_slash]
      simp
    · simp
  · have hzero : ¬(((behind.take 6).takeWhile isDigit).length = 0 ∧
        behind.getD ((behind.take 6).takeWhile isDigit).length 0 = 0) := by
      rintro ⟨hn, hhead⟩
      rw [hn] at hhead
      obtain _ | ⟨b, behind⟩ := behind
      · exact hne rfl
      · exact hnul (by rw [show b = 0 from hhead]; exact mem_cons_self)
    rw [if_neg hport, if_neg hzero, if_neg hsingle, hnohost]
    exact iff_of_true rfl hport

/-- A reference that starts with a single slash is taken apart unless a port seems to stand
behind its first `:`. -/
theorem phpUrlParseEx_relative_iff (size : LongSize) {str : List UInt8}
    (hfirst : str.head? = some (byte '/')) (hsecond : str[1]? ≠ some (byte '/'))
    (hctrl : ∀ b ∈ str, isCntrl b = false) :
    phpUrlParseEx str size = some (relative str) ↔ ¬PortBehindColon str := by
  obtain _ | ⟨c, rest⟩ := str
  · cases hfirst
  obtain rfl : c = byte '/' := Option.some.inj hfirst
  have hsecond' : rest.head? ≠ some (byte '/') := by
    rwa [getElem?_cons_succ, ← head?_eq_getElem?] at hsecond
  have hsingle := behindSlashes_single hsecond'
  have hnohost := nohost_relative hctrl (cons_ne_nil _ _)
  rw [phpUrlParseEx]
  rcases memchr_cases (byte '/' :: rest) (byte ':') with
    ⟨hnone, hmem⟩ | ⟨front, behind, hstr, hfront, hcolon⟩
  · have hbehind : (byte '/' :: rest).dropWhile (· != byte ':') = [] :=
      dropWhile_eq_nil_iff.mpr fun b hb => bne_iff_ne.mpr (ne_of_mem_of_not_mem hb hmem)
    rw [hnone]
    rw [if_neg hsingle, hnohost, PortBehindColon, hbehind]
    exact iff_of_true rfl fun h => absurd h.1 (by decide)
  · obtain _ | ⟨c, front⟩ := front
    · exact absurd (List.cons.inj hstr).1 (by decide)
    rw [cons_append] at hstr
    obtain ⟨rfl, rfl⟩ := List.cons.inj hstr
    have hnul : 0 ∉ behind := by
      intro hmem
      have := hctrl 0 (by simp [hmem])
      cases this
    have hscheme : ¬((byte '/' :: (front ++ byte ':' :: behind)).take
        (front.length + 1)).all isSchemeByte = true := by
      exact Bool.false_ne_true
    have hlength : (byte '/' :: (front ++ byte ':' :: behind)).length =
        front.length + 1 + 1 + behind.length := by
      rw [length_cons, length_append, length_cons]
      omega
    have hport := portBehindColon_split hfront hnul
    rw [cons_append] at hport
    rw [hcolon, length_cons]
    simp only
    rw [if_neg (Nat.succ_ne_zero _), if_neg hscheme]
    by_cases hlast : front.length + 1 + 1 < (byte '/' :: (front ++ byte ':' :: behind)).length
    · have hne : behind ≠ [] := by
        rintro rfl
        rw [length_nil] at hlength
        omega
      rw [if_pos hlast, parsePort_single size hsingle hnul hne _ hnohost, hport]
    · have hnil : behind = [] := length_eq_zero_iff.mp (by omega)
      rw [if_neg hlast, hnohost, hport, hnil]
      exact iff_of_true rfl fun h => absurd h.1 (by decide)

/-- `"/foo?x:80y"` -/
theorem phpUrlParseEx_relative_query : phpUrlParseEx ("/foo?x:80y".toList.map byte) .eight =
      some (relative ("/foo?x:80y".toList.map byte)) :=
  (phpUrlParseEx_relative_iff .eight (by decide) (by decide) (by decide +kernel)).mpr
    (by decide +kernel)

/-- `"/foo:80"` is no URL to the parser. -/
theorem phpUrlParseEx_port_in_path : ("/foo:80".toList.map byte).head? = some (byte '/') ∧
      ("/foo:80".toList.map byte)[1]? ≠ some (byte '/') ∧
      (∀ b ∈ "/foo:80".toList.map byte, isCntrl b = false) ∧
      phpUrlParseEx ("/foo:80".toList.map byte) .eight = none := by
  refine ⟨by decide, by decide, by decide +kernel, by decide +kernel⟩

end UrlParse

end PhpEngine

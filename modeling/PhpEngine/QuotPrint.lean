/-
`php_quot_print_encode` and `php_quot_print_decode` (ext/standard/quot_print.c).
-/
import PhpEngine.QpText
import PhpEngine.QueryText

namespace PhpEngine

open List

namespace QuotPrint

variable {b c next : UInt8}

/-- `iscntrl` -/
def isCntrl (b : UInt8) : Bool :=
  b < 32 || b == 127

/-- `PHP_QPRINT_MAXL` -/
def qprintMaxL : Nat := 75

/-- Whether `c` is escaped in front of `next`, which is zero at the end of the text. -/
def isEscaped (c next : UInt8) : Bool :=
  isCntrl c || c == 0x7f || c &&& 0x80 != 0 || c == byte '=' || (c == byte ' ' && next == 13)

/-- Whether the line is broken in front of an escape that `lp` counts already. -/
def breaksEscape (lp : Nat) (c : UInt8) : Bool :=
  (qprintMaxL < lp && c ≤ 0x7f) || (0x7f < c && c ≤ 0xdf && qprintMaxL < lp + 3) ||
    (0xdf < c && c ≤ 0xef && qprintMaxL < lp + 6) ||
    (0xef < c && c ≤ 0xf4 && qprintMaxL < lp + 9)

def softBreakText : List UInt8 :=
  [byte '=', 13, 10]

/-- The three characters of an escape. -/
def escapeText (c : UInt8) : List UInt8 :=
  [byte '=', qpDigits.getD (c.toNat >>> 4) 0, qpDigits.getD (c.toNat &&& 0xf) 0]

/-- The characters that are written for `c` in front of `next`, and `lp` behind them. -/
def encodeByte (lp : Nat) (c next : UInt8) : List UInt8 × Nat :=
  if isEscaped c next then
    if breaksEscape (lp + 3) c then (softBreakText ++ escapeText c, 3)
    else (escapeText c, lp + 3)
  else if qprintMaxL < lp + 1 then (softBreakText ++ [c], 1)
  else ([c], lp + 1)

/-- The loop of `php_quot_print_encode`. -/
def encodeLoop : Nat → List UInt8 → List UInt8
  | _, [] => []
  | _, 13 :: 10 :: rest => 13 :: 10 :: encodeLoop 0 rest
  | lp, c :: rest =>
    (encodeByte lp c (rest.headD 0)).1 ++ encodeLoop (encodeByte lp c (rest.headD 0)).2 rest

/-- `php_quot_print_encode` -/
def phpQuotPrintEncode (str : List UInt8) : List UInt8 :=
  encodeLoop 0 str

/-- `hexval_tbl`: digits, 16 for line ends, 32 for blanks and 64 for all else. -/
def hexvalTbl : List Nat := [64, 64, 64, 64, 64, 64, 64, 64, 64, 32, 16, 64, 64, 16, 64, 64,
  64, 64, 64, 64, 64, 64, 64, 64, 64, 64, 64, 64, 64, 64, 64, 64,
  32, 64, 64, 64, 64, 64, 64, 64, 64, 64, 64, 64, 64, 64, 64, 64,
   0,  1,  2,  3,  4,  5,  6,  7,  8,  9, 64, 64, 64, 64, 64, 64,
  64, 10, 11, 12, 13, 14, 15, 64, 64, 64, 64, 64, 64, 64, 64, 64,
  64, 64, 64, 64, 64, 64, 64, 64, 64, 64, 64, 64, 64, 64, 64, 64,
  64, 10, 11, 12, 13, 14, 15, 64, 64, 64, 64, 64, 64, 64, 64, 64,
  64, 64, 64, 64, 64, 64, 64, 64, 64, 64, 64, 64, 64, 64, 64, 64,
  64, 64, 64, 64, 64, 64, 64, 64, 64, 64, 64, 64, 64, 64, 64, 64,
  64, 64, 64, 64, 64, 64, 64, 64, 64, 64, 64, 64, 64, 64, 64, 64,
  64, 64, 64, 64, 64, 64, 64, 64, 64, 64, 64, 64, 64, 64, 64, 64,
  64, 64, 64, 64, 64, 64, 64, 64, 64, 64, 64, 64, 64, 64, 64, 64,
  64, 64, 64, 64, 64, 64, 64, 64, 64, 64, 64, 64, 64, 64, 64, 64,
  64, 64, 64, 64, 64, 64, 64, 64, 64, 64, 64, 64, 64, 64, 64, 64,
  64, 64, 64, 64, 64, 64, 64, 64, 64, 64, 64, 64, 64, 64, 64, 64,
  64, 64, 64, 64, 64, 64, 64, 64, 64, 64, 64, 64, 64, 64, 64, 64]

/-- `hexval_tbl[b]` -/
def hexval (b : UInt8) : Nat :=
  hexvalTbl.getD b.toNat 64

/-- The loop over the blanks of a soft line break: the text from `p1` on, or `none` for
`NULL`. -/
def skipBlanks : List UInt8 → Option (List UInt8)
  | [] => none
  | b :: rest =>
    if hexval b = 32 then
      if rest = [] ∨ hexval (rest.headD 0) = 64 then none else skipBlanks rest
    else some (b :: rest)

/-- What is left behind a soft line break. -/
def lineBreak (text : List UInt8) : Option (List UInt8) :=
  (skipBlanks text).map fun text =>
    if text.head? = some 13 ∧ text.tail.head? = some 10 then text.tail.tail else text.tail

/-- What the decoder makes of the text behind a `=`: the end of the text, a byte, a soft line
break, or `NULL`. -/
inductive AfterEquals where
  | stop
  | char (c : UInt8) (rest : List UInt8)
  | soft (rest : List UInt8)
  | fail

def afterEquals : List UInt8 → AfterEquals
  | [] => .stop
  | h :: rest =>
    if h = 0 then .stop
    else if hexval h < 16 then
      if rest = [] ∨ 16 ≤ hexval (rest.headD 0) then .fail
      else .char (UInt8.ofNat ((hexval h <<< 4) ||| hexval (rest.headD 0))) rest.tail
    else if hexval h < 64 then
      match lineBreak (h :: rest) with
      | some rest => .soft rest
      | none => .fail
    else .fail

/-- The loop of `php_quot_print_decode`; `us` is the byte that is replaced by a blank. -/
def decodeLoop (us : UInt8) : Nat → List UInt8 → Option (List UInt8)
  | 0, _ => some []
  | _ + 1, [] => some []
  | fuel + 1, b :: rest =>
    if b = 0 then some []
    else if b = byte '=' then
      match afterEquals rest with
      | .stop => some []
      | .char c rest => (decodeLoop us fuel rest).map (c :: ·)
      | .soft rest => decodeLoop us fuel rest
      | .fail => none
    else (decodeLoop us fuel rest).map ((if us = b then 32 else b) :: ·)

/-- `php_quot_print_decode`; a turn reads at least one byte. -/
def phpQuotPrintDecode (str : List UInt8) (replaceUsByWs : Bool) : Option (List UInt8) :=
  decodeLoop (if replaceUsByWs then byte '_' else 0) str.length str

/-! Round trip. -/

theorem hexval_digit (h : isXDigit b = true) : hexval b < 16 ∧ hexval b = phpHex2int b ∧ b ≠ 0 := by
  have hall : ∀ b : UInt8, isXDigit b = true → hexval b < 16 ∧ hexval b = phpHex2int b ∧ b ≠ 0 := by
    apply forall_byte
    decide +kernel
  exact hall b h

theorem hexval_blank (h : isBlank b = true) : hexval b = 32 := by
  rw [isBlank, Bool.or_eq_true, beq_iff_eq, beq_iff_eq] at h
  rcases h with rfl | rfl
  · rfl
  · rfl

theorem join_halves {h l : Nat} (hl : l < 16) : (h <<< 4) ||| l = h * 16 + l := by
  rw [Nat.shiftLeft_eq, show h * 2 ^ 4 = 2 ^ 4 * h from mul_comm _ _,
    ← Nat.two_pow_add_eq_or_of_lt hl]
  omega

/-- The loop stops at the carriage return behind the blanks. -/
theorem skipBlanks_softBreak {blanks : List UInt8} (hblanks : ∀ b ∈ blanks, isBlank b)
    (rest : List UInt8) : skipBlanks (blanks ++ 13 :: 10 :: rest) = some (13 :: 10 :: rest) := by
  induction blanks with
  | nil => rfl
  | cons b blanks ih =>
    have hnext : hexval ((blanks ++ 13 :: 10 :: rest).headD 0) ≠ 64 := by
      cases blanks with
      | nil => exact show hexval 13 ≠ 64 by decide
      | cons c blanks =>
        have hc := hexval_blank (hblanks c (by simp))
        rw [cons_append, headD_cons, hc]
        decide
    rw [cons_append, skipBlanks, if_pos (hexval_blank (hblanks b mem_cons_self)),
      if_neg (not_or.mpr ⟨by simp, hnext⟩)]
    exact ih fun c hc => hblanks c (mem_cons_of_mem b hc)

theorem afterEquals_escape {h l : UInt8} (hh : isXDigit h = true) (hl : isXDigit l = true)
    (rest : List UInt8) : afterEquals (h :: l :: rest) =
      .char (UInt8.ofNat (phpHex2int h * 16 + phpHex2int l)) rest := by
  obtain ⟨hsmall, hvalue, hzero⟩ := hexval_digit hh
  obtain ⟨lsmall, lvalue, -⟩ := hexval_digit hl
  rw [afterEquals, if_neg hzero, if_pos hsmall, headD_cons, tail_cons,
    if_neg (not_or.mpr ⟨cons_ne_nil l rest, Nat.not_le_of_lt lsmall⟩),
    join_halves lsmall, hvalue, lvalue]

theorem afterEquals_softBreak {blanks : List UInt8} (hblanks : ∀ b ∈ blanks, isBlank b)
    (rest : List UInt8) : afterEquals (blanks ++ 13 :: 10 :: rest) = .soft rest := by
  have hbreak : lineBreak (blanks ++ 13 :: 10 :: rest) = some rest := by
    rw [lineBreak, skipBlanks_softBreak hblanks]
    rfl
  cases blanks with
  | nil => rfl
  | cons c blanks =>
    have hc := hexval_blank (hblanks c mem_cons_self)
    have hzero : c ≠ 0 := by
      rintro rfl
      cases hc
    rw [cons_append] at hbreak ⊢
    rw [afterEquals, if_neg hzero, if_neg (by omega), if_pos (by omega), hbreak]

/-- A turn of `php_quot_print_decode` reads a token. -/
theorem decodeLoop_token (t : QpToken) (fuel : Nat) (rest : List UInt8) :
    decodeLoop 0 (fuel + 1) (t.text ++ rest) = (decodeLoop 0 fuel rest).map (t.bytes ++ ·) := by
  cases t with
  | literal b ok =>
    rw [QpToken.text, singleton_append, decodeLoop, if_neg ok.2, if_neg ok.1, if_neg ok.2.symm]
    rfl
  | escape h l ok =>
    change decodeLoop 0 (fuel + 1) (byte '=' :: h :: l :: rest) = _
    rw [decodeLoop, if_neg (by decide), if_pos rfl, afterEquals_escape ok.1 ok.2]
    rfl
  | softBreak blanks ok =>
    rw [softBreak_append, decodeLoop, if_neg (by decide), if_pos rfl, afterEquals_softBreak ok]
    exact Option.map_id'.symm

theorem decodeLoop_text (tokens : List QpToken) {fuel : Nat} (hfuel : tokens.length ≤ fuel) :
    decodeLoop 0 fuel (qpText tokens) = some (qpBytes tokens) := by
  induction tokens generalizing fuel with
  | nil =>
    cases fuel with
    | zero | succ fuel => rfl
  | cons t tokens ih =>
    obtain ⟨fuel, rfl⟩ := Nat.exists_eq_succ_of_ne_zero
      (show fuel ≠ 0 by rw [length_cons] at hfuel; omega)
    rw [qpText_cons, qpBytes_cons, decodeLoop_token, ih (Nat.le_of_succ_le_succ hfuel)]
    rfl

/-- Both decoders read a well-formed text as the bytes it stands for. -/
theorem phpQuotPrintDecode_text (tokens : List QpToken) :
    phpQuotPrintDecode (qpText tokens) false = some (qpBytes tokens) :=
  decodeLoop_text tokens (length_le_qpText tokens)

theorem escapeText_digits (c : UInt8) : isXDigit (qpDigits.getD (c.toNat >>> 4) 0) = true ∧
      isXDigit (qpDigits.getD (c.toNat &&& 0xf) 0) = true ∧
      UInt8.ofNat (phpHex2int (qpDigits.getD (c.toNat >>> 4) 0) * 16 +
        phpHex2int (qpDigits.getD (c.toNat &&& 0xf) 0)) = c := by
  revert c
  apply forall_byte
  decide +kernel

theorem escaped_of_special (h : c = byte '=' ∨ c = 0 ∨ c = 13) : isEscaped c next = true := by
  rcases h with rfl | rfl | rfl
  · rfl
  · rfl
  · rfl

theorem encodeByte_tokens (lp : Nat) (c next : UInt8) :
    ∃ tokens, (encodeByte lp c next).1 = qpText tokens ∧ qpBytes tokens = [c] := by
  obtain ⟨hhigh, hlow, hvalue⟩ := escapeText_digits c
  have hescape : escapeText c = qpText [.escape _ _ ⟨hhigh, hlow⟩] := rfl
  rw [encodeByte]
  cases hc : isEscaped c next with
  | true =>
    have hbytes : qpBytes [.escape _ _ ⟨hhigh, hlow⟩] = [c] := by
      rw [qpBytes_cons, QpToken.bytes, hvalue]
      rfl
    rw [if_pos rfl]
    split
    · refine ⟨.softBreak [] (by simp) :: [.escape _ _ ⟨hhigh, hlow⟩], ?_, hbytes⟩
      rw [hescape]
      rfl
    · exact ⟨[.escape _ _ ⟨hhigh, hlow⟩], hescape, hbytes⟩
  | false =>
    have hplain : c ≠ byte '=' ∧ c ≠ 0 := by
      constructor
      · intro h
        exact absurd hc (by rw [escaped_of_special (.inl h)]; decide)
      · intro h
        exact absurd hc (by rw [escaped_of_special (.inr (.inl h))]; decide)
    rw [if_neg (by simp)]
    split
    · exact ⟨[.softBreak [] (by simp), .literal c hplain], rfl, rfl⟩
    · exact ⟨[.literal c hplain], rfl, rfl⟩

theorem encodeLoop_tokens (lp : Nat) (s : List UInt8) :
    ∃ tokens, encodeLoop lp s = qpText tokens ∧ qpBytes tokens = s := by
  induction lp, s using encodeLoop.induct with
  | case1 lp => exact ⟨[], rfl, rfl⟩
  | case2 lp rest ih =>
    obtain ⟨tokens, htext, hbytes⟩ := ih
    refine ⟨.literal 13 (by decide) :: .literal 10 (by decide) :: tokens, ?_, ?_⟩
    · rw [encodeLoop, htext]
      rfl
    · rw [qpBytes_cons, qpBytes_cons, hbytes]
      rfl
  | case3 lp c rest hpair ih =>
    obtain ⟨first, hfirst, hbyte⟩ := encodeByte_tokens lp c (rest.headD 0)
    obtain ⟨tokens, htext, hbytes⟩ := ih
    refine ⟨first ++ tokens, ?_, ?_⟩
    · rw [encodeLoop.eq_3 lp c rest hpair, hfirst, htext, qpText_append]
    · rw [qpBytes_append, hbyte, hbytes]
      rfl

/-- The parts of a text between the pairs of carriage return and line feed. -/
def lines : List UInt8 → List (List UInt8)
  | [] => [[]]
  | 13 :: 10 :: rest => [] :: lines rest
  | b :: rest => (lines rest).modifyHead (b :: ·)

/-- Whether `text` has no line above 76 characters where `column` characters are in front of it
on its first line. -/
def Fits (column : Nat) (text : List UInt8) : Prop :=
  column + (lines text).head!.length ≤ 76 ∧ ∀ line ∈ (lines text).tail, line.length ≤ 76

theorem lines_ne_nil (text : List UInt8) : lines text ≠ [] := by
  induction text using lines.induct with
  | case1 | case2 rest ih => simp [lines]
  | case3 b rest hpair ih =>
    rw [lines.eq_3 b rest hpair]
    cases hlines : lines rest with
    | nil => exact absurd hlines ih
    | cons line behind => simp

theorem fits_zero (text : List UInt8) : Fits 0 text ↔ ∀ line ∈ lines text, line.length ≤ 76 := by
  rw [Fits, zero_add]
  cases hlines : lines text with
  | nil => exact absurd hlines (lines_ne_nil text)
  | cons line behind => simp

theorem Fits.le {column : Nat} {text : List UInt8} (h : Fits column text) : column ≤ 76 :=
  le_trans (Nat.le_add_right column _) h.1

@[simp] theorem fits_nil (column : Nat) : Fits column [] ↔ column ≤ 76 := by
  simp [Fits, lines]

@[simp] theorem fits_pair (column : Nat) (rest : List UInt8) :
    Fits column (13 :: 10 :: rest) ↔ column ≤ 76 ∧ Fits 0 rest := by
  rw [fits_zero]
  simp [Fits, lines]

theorem fits_cons (h : b ≠ 13) (column : Nat) (rest : List UInt8) :
    Fits column (b :: rest) ↔ Fits (column + 1) rest := by
  rw [Fits, Fits, lines.eq_3 b rest fun _ hb => absurd hb h]
  cases hlines : lines rest with
  | nil => exact absurd hlines (lines_ne_nil rest)
  | cons line behind =>
    simp only [modifyHead_cons, head!_cons, tail_cons, length_cons]
    rw [add_assoc, add_comm 1]

theorem fits_softBreak (column : Nat) (rest : List UInt8) :
    Fits column (softBreakText ++ rest) ↔ column + 1 ≤ 76 ∧ Fits 0 rest := by
  change Fits column (byte '=' :: 13 :: 10 :: rest) ↔ _
  rw [fits_cons (by decide), fits_pair]

theorem fits_escape (column : Nat) (c : UInt8) (rest : List UInt8) :
    Fits column (escapeText c ++ rest) ↔ Fits (column + 3) rest := by
  have hdigits : ∀ c : UInt8, qpDigits.getD (c.toNat >>> 4) 0 ≠ 13 ∧
      qpDigits.getD (c.toNat &&& 0xf) 0 ≠ 13 := by
    apply forall_byte
    decide +kernel
  obtain ⟨hhigh, hlow⟩ := hdigits c
  rw [escapeText, cons_append, fits_cons (by decide), cons_append, fits_cons hhigh,
    cons_append, fits_cons hlow, nil_append]

/-- The columns that are free behind a byte that is put on the line, the byte's own among
them. -/
def wanted (c next : UInt8) : Nat :=
  if isEscaped c next then
    if c ≤ 0x7f then 3 else if c ≤ 0xdf then 6 else if c ≤ 0xef then 9 else 12
  else 1

/-- The column behind `c`, where lines are filled up to column 75 and no line is begun for the
bytes from `0xf5` on. -/
def nextColumn (column : Nat) (c next : UInt8) : Nat :=
  (if 0xf5 ≤ c ∨ column + wanted c next ≤ 75 then column else 0) + if isEscaped c next then 3 else 1

/-- The text is at its end or goes on with a new line. -/
def AtLineEnd : List UInt8 → Prop
  | [] => True
  | c :: rest => c = 13 ∧ rest.head? = some 10

instance (s : List UInt8) : Decidable (AtLineEnd s) := by
  cases s with
  | nil => exact instDecidableTrue
  | cons c rest => exact inferInstanceAs (Decidable (_ ∧ _))

/-- Whether a byte from `0xf5` on stands where its escape does not fit: behind column 72, or
behind column 73 with more on its line. -/
def Overfull : Nat → List UInt8 → Prop
  | _, [] => False
  | _, 13 :: 10 :: rest => Overfull 0 rest
  | column, c :: rest =>
    0xf5 ≤ c ∧ 72 < column ∧ ¬(column = 73 ∧ AtLineEnd rest) ∨
      Overfull (nextColumn column c (rest.headD 0)) rest

theorem breaksEscape_iff (h : isEscaped c next = true) (column : Nat) :
    breaksEscape (column + 3) c = true ↔ ¬(0xf5 ≤ c ∨ column + wanted c next ≤ 75) := by
  rw [breaksEscape, wanted, if_pos h]
  simp only [Bool.or_eq_true, Bool.and_eq_true, decide_eq_true_eq]
  simp only [UInt8.le_iff_toNat_le, UInt8.lt_iff_toNat_lt, UInt8.reduceToNat, qprintMaxL]
  split
  · omega
  · split
    · omega
    · split
      · omega
      · omega

theorem wanted_le (h : isEscaped c next = true) : 3 ≤ wanted c next := by
  rw [wanted, if_pos h]
  split
  · exact le_refl 3
  · split
    · decide
    · split <;> decide

theorem not_escaped_lt (h : isEscaped c next = false) : ¬(0xf5 : UInt8) ≤ c := by
  have hall : ∀ c : UInt8, c &&& 0x80 = 0 → ¬(0xf5 : UInt8) ≤ c := by
    apply forall_byte
    decide +kernel
  simp only [isEscaped, Bool.or_eq_false_iff, bne_eq_false_iff_eq] at h
  exact hall c h.1.1.2

/-- An encoded byte stands on the line it is begun on or on a new one. -/
theorem encodeByte_eq (column : Nat) (c next : UInt8) : encodeByte column c next =
    ((if 0xf5 ≤ c ∨ column + wanted c next ≤ 75 then [] else softBreakText) ++
      (if isEscaped c next then escapeText c else [c]), nextColumn column c next) := by
  rw [encodeByte, nextColumn]
  cases hc : isEscaped c next with
  | true =>
    by_cases hroom : 0xf5 ≤ c ∨ column + wanted c next ≤ 75
    · rw [if_neg fun h => (breaksEscape_iff hc column).mp h hroom]
      simp [hroom]
    · rw [if_pos ((breaksEscape_iff hc column).mpr hroom)]
      simp [hroom]
  | false =>
    have hlow := not_escaped_lt hc
    have hwanted : wanted c next = 1 := by rw [wanted, hc, if_neg Bool.false_ne_true]
    by_cases hroom : column + 1 ≤ 75
    · rw [if_neg (show ¬qprintMaxL < column + 1 from Nat.not_lt_of_le hroom)]
      simp [hwanted, hroom]
    · rw [if_pos (show qprintMaxL < column + 1 from Nat.lt_of_not_le hroom)]
      simp [hwanted, hroom, hlow]

theorem encodeByte_column (column : Nat) (c next : UInt8) :
    (encodeByte column c next).2 = nextColumn column c next := by
  rw [encodeByte_eq]

theorem fits_encodeByte (hplain : isEscaped c next = false → c ≠ 13)
    (column : Nat) (rest : List UInt8) : Fits column ((encodeByte column c next).1 ++ rest) ↔
      (¬(0xf5 ≤ c ∨ column + wanted c next ≤ 75) → column + 1 ≤ 76) ∧
        Fits (nextColumn column c next) rest := by
  have htext (k : Nat) : Fits k ((if isEscaped c next then escapeText c else [c]) ++ rest) ↔
      Fits (k + if isEscaped c next then 3 else 1) rest := by
    cases hc : isEscaped c next with
    | true => exact fits_escape k c rest
    | false => exact fits_cons (hplain hc) k rest
  rw [encodeByte_eq, nextColumn, append_assoc]
  split
  next hroom => exact (htext column).trans (and_iff_right fun h => absurd hroom h).symm
  next hroom =>
    rw [fits_softBreak, htext]
    exact and_congr_left fun _ => (imp_iff_right hroom).symm

/-- The encoding of a byte and of the rest fits if there is room for the break in front of the
byte and the rest fits behind it. -/
theorem fits_encodeLoop_cons {rest : List UInt8}
    (hpair : ∀ behind, c = 13 → rest = 10 :: behind → False) (column : Nat) :
    Fits column (encodeLoop column (c :: rest)) ↔
      (¬(0xf5 ≤ c ∨ column + wanted c (rest.headD 0) ≤ 75) → column + 1 ≤ 76) ∧
        Fits (nextColumn column c (rest.headD 0))
          (encodeLoop (nextColumn column c (rest.headD 0)) rest) := by
  rw [encodeLoop.eq_3 column c rest hpair, encodeByte_column, fits_encodeByte]
  intro hplain hc
  exact absurd hplain (by rw [escaped_of_special (.inr (.inr hc))]; decide)

theorem nextColumn_wide (h : 0xf5 ≤ c) (column : Nat) (next : UInt8) :
    nextColumn column c next = column + 3 := by
  have hescaped : isEscaped c next = true := by
    by_contra hplain
    exact not_escaped_lt (Bool.eq_false_iff.mpr hplain) h
  rw [nextColumn, if_pos (.inl h), if_pos hescaped]

theorem nextColumn_le (h : ¬0xf5 ≤ c) (column : Nat) (next : UInt8) :
    nextColumn column c next ≤ 75 := by
  rw [nextColumn]
  cases hc : isEscaped c next with
  | true =>
    have hwanted := wanted_le hc
    rw [if_pos rfl]
    split
    · rename_i hroom
      have := hroom.resolve_left h
      omega
    · decide
  | false =>
    have hwanted : wanted c next = 1 := by rw [wanted, hc, if_neg Bool.false_ne_true]
    rw [if_neg Bool.false_ne_true, hwanted]
    split
    · rename_i hroom
      exact hroom.resolve_left h
    · decide

theorem atLineEnd_cons {rest : List UInt8} :
    AtLineEnd (c :: rest) ↔ ∃ behind, c = 13 ∧ rest = 10 :: behind := by
  cases rest with
  | nil | cons d behind => simp [AtLineEnd]

theorem not_fits_full {s : List UInt8} (h : ¬AtLineEnd s) : ¬Fits 76 (encodeLoop 76 s) := by
  cases s with
  | nil => exact absurd trivial h
  | cons c rest =>
    rw [fits_encodeLoop_cons fun behind hc hrest => h (atLineEnd_cons.mpr ⟨behind, hc, hrest⟩)]
    rintro ⟨hbreak, hrest⟩
    by_cases hwide : 0xf5 ≤ c
    · rw [nextColumn_wide hwide] at hrest
      exact absurd hrest.le (by decide)
    · exact absurd (hbreak fun hroom => by have := hroom.resolve_left hwide; omega) (by decide)

/-- No line of the encoding from `column` on is too long exactly when no byte overfills one. -/
theorem fits_encodeLoop {column : Nat} (s : List UInt8)
    (hcolumn : column ≤ 75 ∨ column = 76 ∧ AtLineEnd s) :
    Fits column (encodeLoop column s) ↔ ¬Overfull column s := by
  induction column, s using encodeLoop.induct with
  | case1 column =>
    rw [encodeLoop, Overfull, fits_nil, not_false_iff, iff_true]
    omega
  | case2 column rest ih =>
    rw [encodeLoop, Overfull, fits_pair, ih (.inl (Nat.zero_le 75))]
    exact and_iff_right (by omega)
  | case3 column c rest hpair ih =>
    have hle : column ≤ 75 := by
      refine hcolumn.resolve_right fun hend => ?_
      obtain ⟨behind, hc, hrest⟩ := atLineEnd_cons.mp hend.2
      exact hpair behind hc hrest
    rw [fits_encodeLoop_cons hpair, Overfull.eq_3 column c rest hpair,
      and_iff_right (fun _ => Nat.succ_le_succ hle), not_or]
    rw [encodeByte_column] at ih
    by_cases hwide : 0xf5 ≤ c
    · rw [nextColumn_wide hwide] at ih ⊢
      by_cases hfull : column = 73 ∧ AtLineEnd rest
      · rw [ih (.inr ⟨by omega, hfull.2⟩)]
        exact (and_iff_right fun h => h.2.2 hfull).symm
      · by_cases hsmall : column ≤ 72
        · rw [ih (.inl (by omega))]
          exact (and_iff_right fun h => absurd h.2.1 (by omega)).symm
        · refine iff_of_false ?_ fun h => h.1 ⟨hwide, by omega, hfull⟩
          intro hfits
          obtain rfl : column = 73 := by
            have := hfits.le
            omega
          exact not_fits_full (fun hend => hfull ⟨rfl, hend⟩) hfits
    · rw [ih (.inl (nextColumn_le hwide column _))]
      exact (and_iff_right fun h => hwide h.1).symm

/-- The lines of an encoding have at most 76 characters exactly when no byte from `0xf5` on
stands where its escape does not fit. -/
theorem phpQuotPrintEncode_lines_iff (s : List UInt8) :
    (∀ line ∈ lines (phpQuotPrintEncode s), line.length ≤ 76) ↔ ¬Overfull 0 s := by
  rw [← fits_zero, phpQuotPrintEncode, fits_encodeLoop s (.inl (Nat.zero_le 75))]

/-- Twenty-six bytes `0xff` are one line of 78 characters. -/
theorem phpQuotPrintEncode_long_line :
    ¬∀ line ∈ lines (phpQuotPrintEncode (List.replicate 26 0xff)), line.length ≤ 76 := by
  decide

end QuotPrint

end PhpEngine

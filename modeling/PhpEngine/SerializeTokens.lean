/-
The scanner reads back the tokens that the serializer writes.
-/
import PhpEngine.Serializer
import PhpEngine.SlotTable
import Mathlib.Data.List.TakeWhile

namespace PhpEngine

variable {l sign : List UInt8} {num : Nat} {n : Int}

/-- The values of a `long`. -/
def IsLong (n : Int) : Prop :=
  -(2 ^ 63) ≤ n ∧ n < 2 ^ 63

section Numbers

variable {mem : Nat → UInt8} {max c : Nat}

theorem isDigit_ne_sign {b : UInt8} (h : isDigit b = true) : b ≠ byte '-' ∧ b ≠ byte '+' := by
  constructor <;> rintro rfl <;> cases h

theorem holdsAt_head (hl : 0 < l.length) (h : HoldsAt mem c l) : mem c ∈ l := by
  cases l with
  | nil => simp at hl
  | cons b rest =>
    rw [h.1]
    exact List.mem_cons_self

theorem skip_digit (h : isDigit (mem c) = true) : skipSign mem c = c ∧ skipPlus mem c = c := by
  have hne := isDigit_ne_sign h
  rw [skipSign, skipPlus, if_neg (by tauto), if_neg (by tauto)]
  exact ⟨rfl, rfl⟩

section

variable (hnum : num < ulongMod) (hholds : HoldsAt mem c (printUnsigned num))
  (hend : isDigit (mem (c + (printUnsigned num).length)) = false)
  (hmax : c + (printUnsigned num).length < max)
include hnum hholds hend hmax

/-- Digits that are followed by another byte, at the end of the scanner's
sign. -/
theorem scan_printUnsigned : scanDigits mem ulongMod (max - c) c 0 =
      (num, c + (printUnsigned num).length) := by
  have hscan := scanDigits_holdsAt (v := 0) ulongMod (printUnsigned_digits num) hholds hend
    (show (printUnsigned num).length < max - c by omega)
  rwa [Nat.zero_mod, decimalValue_printUnsigned hnum, Nat.mod_eq_of_lt hnum] at hscan

theorem matchDigits_printUnsigned :
    matchDigits mem max c = some (c + (printUnsigned num).length) := by
  have hpos := printUnsigned_length_pos num
  have hdigits : digitsEnd mem max c = c + (printUnsigned num).length := by
    rw [digitsEnd, scan_printUnsigned hnum hholds hend hmax]
  rw [matchDigits, hdigits, if_pos (by omega)]

end

theorem printLong_of_nonneg (h : 0 ≤ n) : printLong n = printUnsigned n.toNat := by
  rw [printLong, if_neg (by omega)]

theorem read_printUnsigned (hnum : num < ulongMod) (hholds : HoldsAt mem c (printUnsigned num))
    (hend : isDigit (mem (c + (printUnsigned num).length)) = false)
    (hmax : c + (printUnsigned num).length < max) : parseUiv mem max c = num ∧
      matchUiv mem max c = some (c + (printUnsigned num).length) ∧
      matchIv mem max c = some (c + (printUnsigned num).length) ∧
      parseIv2 mem max c = (toLong num, c + (printUnsigned num).length) := by
  have hhead : isDigit (mem c) = true := printUnsigned_digits num _
    (holdsAt_head (printUnsigned_length_pos num) hholds)
  have hskip := skip_digit hhead
  have hscan := scan_printUnsigned hnum hholds hend hmax
  have hmatch := matchDigits_printUnsigned hnum hholds hend hmax
  refine ⟨?_, ?_, ?_, ?_⟩
  · rw [parseUiv, hskip.2, hscan]
  · rw [matchUiv, hskip.2, hmatch]
  · rw [matchIv, hskip.1, hmatch]
  · rw [parseIv2, hskip.1, hscan, if_neg (isDigit_ne_sign hhead).1]

theorem read_printLong (hn : IsLong n) (hholds : HoldsAt mem c (printLong n))
    (hend : isDigit (mem (c + (printLong n).length)) = false)
    (hmax : c + (printLong n).length < max) : matchIv mem max c = some (c + (printLong n).length) ∧
      parseIv2 mem max c = (n, c + (printLong n).length) := by
  obtain ⟨hlow, hhigh⟩ := hn
  by_cases hneg : n < 0
  · have hprint : printLong n = byte '-' :: printUnsigned ((-n).toNat % ulongMod) := if_pos hneg
    have hnum : (-n).toNat % ulongMod = (-n).toNat := by
      simp only [ulongMod]
      omega
    rw [hprint, hnum] at hholds hend hmax ⊢
    obtain ⟨hminus, hholds⟩ := hholds
    have hskip : skipSign mem c = c + 1 := by
      rw [skipSign, if_pos (.inl hminus)]
    rw [List.length_cons, add_comm _ 1, ← add_assoc] at hend hmax ⊢
    have hlt : (-n).toNat < ulongMod := by
      simp only [ulongMod]
      omega
    refine ⟨?_, ?_⟩
    · rw [matchIv, hskip, matchDigits_printUnsigned hlt hholds hend hmax]
    · rw [parseIv2, hskip, scan_printUnsigned hlt hholds hend hmax, if_pos hminus]
      congr 1
      rw [Nat.mod_eq_of_lt (by simp only [ulongMod]; omega),
        toLong_of_ge (by simp only [ulongMod]; omega)]
      omega
  · have hprint := printLong_of_nonneg (Int.not_lt.mp hneg)
    rw [hprint] at hholds hend hmax ⊢
    have hlt : n.toNat < ulongMod := by
      simp only [ulongMod]
      omega
    obtain ⟨_, _, hmatch, hparse⟩ := read_printUnsigned hlt hholds hend hmax
    refine ⟨hmatch, ?_⟩
    rw [hparse]
    congr 1
    rw [toLong_of_lt (by omega)]
    omega

end Numbers

/-! The texts that the serializer appends. -/

def bytesOf (text : String) : List UInt8 :=
  text.toList.map byte

def longText (n : Int) : List UInt8 :=
  bytesOf "i:" ++ (printLong n ++ bytesOf ";")

def refText (n : Int) : List UInt8 :=
  bytesOf "R:" ++ (printLong n ++ bytesOf ";")

def copyText (n : Int) : List UInt8 :=
  bytesOf "r:" ++ (printLong n ++ bytesOf ";")

def boolText (b : Bool) : List UInt8 :=
  bytesOf "b:" ++ (printLong (if b then 1 else 0) ++ bytesOf ";")

/-- `[0-9]+`. -/
def IsDigits (l : List UInt8) : Prop :=
  0 < l.length ∧ ∀ b ∈ l, isDigit b = true

/-- The texts that `php_gcvt` gives to doubles. -/
inductive DoubleText : List UInt8 → Prop
  | nan : DoubleText (bytesOf "NAN")
  | inf : DoubleText (bytesOf "INF")
  | minusInf : DoubleText (bytesOf "-INF")
  | number {sign digits fraction exponent : List UInt8}
      (hsign : sign = [] ∨ sign = [byte '-']) (hdigits : IsDigits digits)
      (hfraction : fraction = [] ∨ ∃ l, fraction = byte '.' :: l ∧ IsDigits l)
      (hexponent : exponent = [] ∨ ∃ c l, exponent = byte 'E' :: c :: l ∧
        (c = byte '-' ∨ c = byte '+') ∧ IsDigits l) :
      DoubleText (sign ++ (digits ++ (fraction ++ exponent)))

def doubleText (text : List UInt8) : List UInt8 :=
  bytesOf "d:" ++ (text ++ bytesOf ";")

/-- The length, and what stands between quotes. -/
def quotedText (tag : String) (str : List UInt8) (close : String) : List UInt8 :=
  bytesOf tag ++ (printLong (intOf str.length) ++ (bytesOf ":\"" ++ (str ++ bytesOf close)))

def stringText (str : List UInt8) : List UInt8 :=
  quotedText "s:" str "\";"

def arrayText (n : Int) : List UInt8 :=
  bytesOf "a:" ++ (printLong n ++ bytesOf ":\x7b")

def objectText (name : List UInt8) (n : Int) : List UInt8 :=
  quotedText "O:" name "\":" ++ (printLong n ++ bytesOf ":\x7b")

section Append

variable (st : SerState)

theorem append_append (a b : List UInt8) : (st.append a).append b = st.append (a ++ b) := by
  rw [SerState.append, SerState.append, SerState.append, List.append_assoc]

theorem appendText_eq (text : String) : st.appendText text = st.append (bytesOf text) := rfl

theorem phpVarSerializeLong_eq (n : Int) : phpVarSerializeLong n st = st.append (longText n) := by
  rw [phpVarSerializeLong, SerState.appendLong, appendText_eq, appendText_eq,
    append_append, append_append]
  rfl

theorem phpVarSerializeString_eq (str : List UInt8) :
    phpVarSerializeString str st = st.append (stringText str) := by
  rw [phpVarSerializeString, SerState.appendLong, appendText_eq,
    appendText_eq, appendText_eq, append_append, append_append,
    append_append, append_append]
  rfl

end Append

section Lex

variable {mem : Nat → UInt8} {max start : Nat}

theorem matchText_holds {c : Nat} {text : String} (h : HoldsAt mem c (bytesOf text)) :
    matchText mem c text = some (c + (bytesOf text).length) :=
  if_pos h

theorem lexBody_holds {body : Nat → Option Nat} {close : String} {e : Nat}
    (hcolon : HoldsAt mem (start + 1) (bytesOf ":")) (hbody : body (start + 2) = some e)
    (hclose : HoldsAt mem e (bytesOf close)) :
    lexBody mem start body close = some (e + (bytesOf close).length) := by
  have hstart : matchText mem (start + 1) ":" = some (start + 2) :=
    matchText_holds hcolon
  rw [lexBody, hstart]
  change (body (start + 2)).bind _ = _
  rw [hbody]
  exact matchText_holds hclose

theorem lexToken_refTo (h : mem start = byte 'R') : lexToken mem max start =
      (lexBody mem start (matchIv mem max) ";").map (Token.refTo, ·) := by
  rw [lexToken, h]
  rfl

theorem lexToken_copyOf (h : mem start = byte 'r') : lexToken mem max start =
      (lexBody mem start (matchIv mem max) ";").map (Token.copyOf, ·) := by
  rw [lexToken, h]
  rfl

theorem lexToken_null (h : mem start = byte 'N') : lexToken mem max start =
      (matchText mem (start + 1) ";").map (Token.null, ·) := by
  rw [lexToken, h]
  rfl

theorem lexToken_bool (h : mem start = byte 'b') :
    lexToken mem max start = (lexBody mem start (fun c =>
      if mem c = byte '0' ∨ mem c = byte '1' then some (c + 1) else none)
      ";").map (Token.bool, ·) := by
  rw [lexToken, h]
  rfl

theorem lexToken_long (h : mem start = byte 'i') : lexToken mem max start =
      (lexBody mem start (matchIv mem max) ";").map (Token.long, ·) := by
  rw [lexToken, h]
  rfl

theorem lexToken_double (h : mem start = byte 'd') : lexToken mem max start =
      (lexBody mem start (matchDouble mem max) ";").map (Token.double, ·) := by
  rw [lexToken, h]
  rfl

theorem lexToken_string (h : mem start = byte 's') : lexToken mem max start =
      (lexBody mem start (matchUiv mem max) ":\"").map (Token.string, ·) := by
  rw [lexToken, h]
  rfl

theorem lexToken_array (h : mem start = byte 'a') : lexToken mem max start =
      (lexBody mem start (matchUiv mem max) ":\x7b").map (Token.array, ·) := by
  rw [lexToken, h]
  rfl

theorem lexToken_object (h : mem start = byte 'O') : lexToken mem max start =
      (lexBody mem start (matchUiv mem max) ":\"").map (Token.object, ·) := by
  rw [lexToken, h]
  rfl

theorem lex_number {tag : String} {c : Char} (hn : IsLong n)
    (htag : bytesOf tag = [byte c, byte ':']) (hholds : HoldsAt mem start
      (bytesOf tag ++ (printLong n ++ bytesOf ";")))
    (hmax : start + (bytesOf tag ++ (printLong n ++ bytesOf ";")).length ≤ max) :
    mem start = byte c ∧ lexBody mem start (matchIv mem max) ";" = some (start +
        (bytesOf tag ++ (printLong n ++ bytesOf ";")).length) ∧
      parseIv mem max (start + 2) = n := by
  rw [htag] at hholds hmax ⊢
  rw [holdsAt_append, holdsAt_append] at hholds
  obtain ⟨⟨hfirst, hcolon, _⟩, hnumber, hclose⟩ := hholds
  change HoldsAt mem (start + 2) _ at hnumber
  change HoldsAt mem (start + 2 + _) _ at hclose
  have hend : isDigit (mem (start + 2 + (printLong n).length)) = false := by
    rw [hclose.1]
    decide
  have hlen : (bytesOf ";").length = 1 := rfl
  simp only [List.length_append, List.length_cons, List.length_nil, hlen] at hmax ⊢
  obtain ⟨hmatch, hparse⟩ := read_printLong hn hnumber hend
    (show start + 2 + (printLong n).length < max by omega)
  refine ⟨hfirst, ?_, by rw [parseIv, hparse]⟩
  rw [lexBody_holds ⟨hcolon, trivial⟩ hmatch hclose, hlen]
  congr 1
  omega

theorem intOf_of_lt {n : Nat} (h : n < 2 ^ 31) : intOf n = n := by
  have hmod : n % uintMod = n := Nat.mod_eq_of_lt (by
    simp only [uintMod]
    omega)
  rw [intOf, hmod, toInt, if_pos h]

theorem lex_quoted {tag : String} {c : Char} {str : List UInt8}
    {close : String} (hstr : str.length < 2 ^ 31) (htag : bytesOf tag = [byte c, byte ':'])
    (hholds : HoldsAt mem start (quotedText tag str close))
    (hmax : start + (quotedText tag str close).length ≤ max) : mem start = byte c ∧ ∃ cursor,
      lexBody mem start (matchUiv mem max) ":\"" = some cursor ∧
      parseUiv mem max (start + 2) = str.length ∧ cursor + str.length + (bytesOf close).length =
        start + (quotedText tag str close).length ∧ HoldsAt mem cursor (str ++ bytesOf close) := by
  have hprint : printLong (intOf str.length) = printUnsigned str.length := by
    rw [intOf_of_lt hstr, printLong_of_nonneg (by omega)]
    rfl
  have hlt : str.length < ulongMod := by
    simp only [ulongMod]
    omega
  rw [quotedText, htag, hprint] at hholds hmax ⊢
  rw [holdsAt_append, holdsAt_append, holdsAt_append] at hholds
  obtain ⟨⟨hfirst, hcolon, _⟩, hnumber, hquote, hrest⟩ := hholds
  change HoldsAt mem (start + 2) _ at hnumber
  change HoldsAt mem (start + 2 + _) _ at hquote
  have hend : isDigit (mem (start + 2 + (printUnsigned str.length).length)) = false := by
    rw [hquote.1]
    decide
  have hlen : (bytesOf ":\"").length = 2 := rfl
  simp only [List.length_append, List.length_cons, List.length_nil, hlen] at hmax ⊢
  obtain ⟨hparse, hmatch, _⟩ := read_printUnsigned hlt hnumber hend
    (show start + 2 + (printUnsigned str.length).length < max by omega)
  refine ⟨hfirst, _, lexBody_holds ⟨hcolon, trivial⟩ hmatch hquote, hparse, ?_, hrest⟩
  omega

theorem readBytes_holdsAt {c : Nat} (h : HoldsAt mem c l) : readBytes mem c l.length = l := by
  induction l generalizing c with
  | nil => rfl
  | cons b rest ih =>
    obtain ⟨hb, hrest⟩ := h
    have hread := ih hrest
    rw [readBytes, List.length_cons, List.range_succ_eq_map, List.map_cons, List.map_map]
    congr 1
    rw [← hread, readBytes]
    simp only [List.length_map, List.length_range]
    apply List.map_congr_left
    intro i _
    simp only [Function.comp_apply, Nat.succ_eq_add_one]
    congr 1
    omega

end Lex

section Double

variable {mem : Nat → UInt8} {max c : Nat}

theorem IsDigits.head (hl : IsDigits l) (hholds : HoldsAt mem c l) : isDigit (mem c) = true :=
  hl.2 _ (holdsAt_head hl.1 hholds)

theorem IsDigits.digitsEnd (hl : IsDigits l) (hholds : HoldsAt mem c l)
    (hend : isDigit (mem (c + l.length)) = false)
    (hmax : c + l.length < max) : digitsEnd mem max c = c + l.length := by
  have hscan := scanDigits_holdsAt (v := 0) ulongMod hl.2 hholds hend
    (show l.length < max - c by omega)
  rw [Nat.zero_mod] at hscan
  rw [PhpEngine.digitsEnd, hscan]

theorem skipSign_sign
    (hsign : sign = [] ∨ sign = [byte '-']) (hl : IsDigits l) (hholds : HoldsAt mem c (sign ++ l)) :
    skipSign mem c = c + sign.length := by
  rcases hsign with rfl | rfl
  · exact (skip_digit (hl.head hholds)).1
  · rw [skipSign, if_pos (.inl hholds.1)]
    rfl

variable (max) in
/-- Digits, and behind them no digit: the mantissa ends behind the
fraction. -/
theorem matchMantissa_holds {digits fraction : List UInt8}
    (hsign : sign = [] ∨ sign = [byte '-']) (hdigits : IsDigits digits)
    (hfraction : fraction = [] ∨ ∃ l, fraction = byte '.' :: l ∧ IsDigits l)
    (hholds : HoldsAt mem c (sign ++ (digits ++ fraction)))
    (hend : isDigit (mem (c + (sign ++ (digits ++ fraction)).length)) =
      false ∧ mem (c + (sign ++ (digits ++ fraction)).length) ≠ byte '.')
    (hmax : c + (sign ++ (digits ++ fraction)).length < max) : matchMantissa mem max c =
      some (c + (sign ++ (digits ++ fraction)).length) := by
  have hskip : skipSign mem c = c + sign.length := by
    rw [← List.append_assoc, holdsAt_append] at hholds
    exact skipSign_sign hsign hdigits hholds.1
  rw [holdsAt_append, holdsAt_append] at hholds
  obtain ⟨_, hdig, hfrac⟩ := hholds
  have hpos := hdigits.1
  rcases hfraction with rfl | ⟨l, rfl, hl⟩
  · simp only [List.length_append, List.append_nil, ← Nat.add_assoc] at hend hmax ⊢
    have he := hdigits.digitsEnd hdig hend.1 hmax
    simp only [matchMantissa, hskip, he]
    rw [if_neg hend.2, if_pos (by omega)]
  · obtain ⟨hpoint, hl'⟩ := hfrac
    simp only [List.length_append, List.length_cons, ← Nat.add_assoc] at hend hmax ⊢
    have he : digitsEnd mem max (c + sign.length) = c + sign.length + digits.length :=
      hdigits.digitsEnd hdig (by rw [hpoint]; decide) (by omega)
    rw [Nat.add_right_comm _ l.length 1] at hend hmax ⊢
    have hf := hl.digitsEnd hl' hend.1 hmax
    simp only [matchMantissa, hskip, he]
    rw [if_pos hpoint, hf, if_pos (by omega)]

theorem matchNumber_holds {digits fraction exponent : List UInt8}
    (hsign : sign = [] ∨ sign = [byte '-']) (hdigits : IsDigits digits)
    (hfraction : fraction = [] ∨ ∃ l, fraction = byte '.' :: l ∧ IsDigits l)
    (hexponent : exponent = [] ∨ ∃ c l, exponent = byte 'E' :: c :: l ∧
      (c = byte '-' ∨ c = byte '+') ∧ IsDigits l)
    (hholds : HoldsAt mem c ((sign ++ (digits ++ fraction)) ++ exponent))
    (hclose : mem (c + ((sign ++ (digits ++ fraction)) ++ exponent).length) = byte ';')
    (hmax : c + ((sign ++ (digits ++ fraction)) ++ exponent).length < max) : matchNumber mem max c =
      some (c + ((sign ++ (digits ++ fraction)) ++ exponent).length) := by
  rw [holdsAt_append] at hholds
  obtain ⟨hmantissa, hexp⟩ := hholds
  have hread := matchMantissa_holds max hsign hdigits hfraction hmantissa
  generalize sign ++ (digits ++ fraction) = mantissa at *
  rcases hexponent with rfl | ⟨b, l, rfl, hb, hl⟩
  · rw [List.append_nil] at hclose hmax ⊢
    rw [matchNumber, hread (by rw [hclose]; decide) hmax]
    change (if mem (c + mantissa.length) = byte 'e' ∨
      mem (c + mantissa.length) = byte 'E' then _ else _) = _
    rw [if_neg (by rw [hclose]; decide)]
    rfl
  · obtain ⟨he, hsigned, hl'⟩ := hexp
    simp only [List.length_append, List.length_cons, ← add_assoc] at hclose hmax ⊢
    rw [matchNumber, hread (by rw [he]; decide) (by omega)]
    change (if mem (c + mantissa.length) = byte 'e' ∨
      mem (c + mantissa.length) = byte 'E' then _ else _) = _
    rw [if_pos (.inr he)]
    have hskip : skipSign mem (c + mantissa.length + 1) = c + mantissa.length + 1 + 1 := by
      rw [skipSign, if_pos (hsigned ▸ hb)]
    have hend : c + mantissa.length + l.length + 1 + 1 =
        c + mantissa.length + 1 + 1 + l.length := by omega
    rw [hend] at hclose hmax ⊢
    rw [matchIv, hskip, (skip_digit (hl.head hl')).1, matchDigits,
      hl.digitsEnd hl' (by rw [hclose]; decide) hmax,
      if_pos (by have := hl.1; omega)]

theorem matchText_first (text : String) {b : UInt8} {rest : List UInt8}
    (htext : bytesOf text = b :: rest) (h : mem c ≠ b) : matchText mem c text = none := by
  apply if_neg
  change ¬ HoldsAt mem c (bytesOf text)
  rw [htext]
  exact fun hholds => h hholds.1

theorem matchDouble_holds {text : List UInt8} (htext : DoubleText text)
    (hholds : HoldsAt mem c text) (hclose : mem (c + text.length) = byte ';')
    (hmax : c + text.length < max) : matchDouble mem max c = some (c + text.length) := by
  cases htext with
  | nan =>
    rw [matchDouble, matchText_holds hholds]
    rfl
  | inf =>
    rw [matchDouble, matchText_first "NAN" rfl (by rw [hholds.1]; decide), matchText_holds hholds]
    rfl
  | minusInf =>
    rw [matchDouble, matchText_first "NAN" rfl (by rw [hholds.1]; decide), matchText_first "INF" rfl
      (by rw [hholds.1]; decide), matchText_holds hholds]
    rfl
  | @number sign digits fraction exponent hsign hdigits hfraction hexponent =>
    have hassoc : sign ++ (digits ++ (fraction ++ exponent)) =
        (sign ++ (digits ++ fraction)) ++ exponent := by
      simp only [List.append_assoc]
    have hdigit : isDigit (mem (c + sign.length)) = true := by
      rw [holdsAt_append, holdsAt_append] at hholds
      exact hdigits.head hholds.2.1
    -- Behind the sign is a digit, so it is none of the three words.
    have hwords : matchText mem c "NAN" = none ∧
        matchText mem c "INF" = none ∧ matchText mem c "-INF" = none := by
      rcases hsign with rfl | rfl
      · have hhead : isDigit (mem c) = true := hdigit
        refine ⟨matchText_first "NAN" (b := byte 'N') rfl ?_,
          matchText_first "INF" (b := byte 'I') rfl ?_,
          matchText_first "-INF" (b := byte '-') rfl ?_⟩ <;>
          exact fun h => absurd (h ▸ hhead) (by decide)
      · have hminus : mem c = byte '-' := hholds.1
        refine ⟨matchText_first "NAN" (b := byte 'N') rfl (by rw [hminus]; decide),
          matchText_first "INF" (b := byte 'I') rfl (by rw [hminus]; decide),
          if_neg ?_⟩
        intro h
        have hletter : mem (c + 1) = byte 'I' := h.2.1
        have hdigit' : isDigit (mem (c + 1)) = true := hdigit
        exact absurd (hletter ▸ hdigit') (by decide)
    rw [matchDouble, hwords.1, hwords.2.1, hwords.2.2]
    rw [hassoc] at hholds hclose hmax ⊢
    exact matchNumber_holds hsign hdigits hfraction hexponent hholds hclose hmax

end Double

section Tokens

variable {user : UserCode} {mem : Nat → UInt8} {max start rval : Nat}
  {call : Nat → Bool → UState → Option Ret} {hash : Bool} {s : UState}

theorem token_long (hn : IsLong n) (hholds : HoldsAt mem start (longText n))
    (hmax : start + (longText n).length ≤ max) :
    unserializeToken user mem max call start rval hash s =
      some (unserializeScalar (.long n) (start + (longText n).length) rval s) := by
  obtain ⟨htag, hlex, hparse⟩ := lex_number hn (c := 'i') rfl hholds hmax
  rw [unserializeToken, lexToken_long htag, hlex]
  rw [hparse]
  rfl

theorem token_ref (hn : IsLong n) (hholds : HoldsAt mem start (refText n))
    (hmax : start + (refText n).length ≤ max) : parseIv mem max (start + 2) = n ∧
      unserializeToken user mem max call start rval hash s = some (unserializeRef mem max true start
          (start + (refText n).length) rval hash s) := by
  obtain ⟨htag, hlex, hparse⟩ := lex_number hn (c := 'R') rfl hholds hmax
  rw [unserializeToken, lexToken_refTo htag, hlex]
  exact ⟨hparse, rfl⟩

theorem token_copy (hn : IsLong n) (hholds : HoldsAt mem start (copyText n))
    (hmax : start + (copyText n).length ≤ max) : parseIv mem max (start + 2) = n ∧
      unserializeToken user mem max call start rval hash s =
        some (unserializeRef mem max false start (start + (copyText n).length) rval hash s) := by
  obtain ⟨htag, hlex, hparse⟩ := lex_number hn (c := 'r') rfl hholds hmax
  rw [unserializeToken, lexToken_copyOf htag, hlex]
  exact ⟨hparse, rfl⟩

theorem token_null (hholds : HoldsAt mem start (bytesOf "N;")) :
    unserializeToken user mem max call start rval hash s =
      some (unserializeScalar .null (start + 2) rval s) := by
  have hclose : matchText mem (start + 1) ";" = some (start + 2) :=
    matchText_holds (show HoldsAt mem (start + 1) (bytesOf ";") from
      ⟨hholds.2.1, trivial⟩)
  rw [unserializeToken, lexToken_null hholds.1, hclose]
  rfl

theorem token_bool {b : Bool} (hholds : HoldsAt mem start (boolText b)) (hmax : start + 4 ≤ max) :
    unserializeToken user mem max call start rval hash s =
      some (unserializeScalar (.bool b) (start + 4) rval s) := by
  have hlong : IsLong (if b then 1 else 0) := by
    cases b <;> simp [IsLong]
  have hlen : (boolText b).length = 4 := by
    cases b <;> decide
  obtain ⟨htag, _, hparse⟩ := lex_number hlong (c := 'b') rfl hholds (hlen.symm ▸ hmax)
  have hdigit : mem (start + 2) = byte '0' ∨ mem (start + 2) = byte '1' := by
    cases b with
    | false => exact .inl hholds.2.2.1
    | true => exact .inr hholds.2.2.1
  have hclose : HoldsAt mem (start + 3) (bytesOf ";") := by
    cases b <;> exact ⟨hholds.2.2.2.1, trivial⟩
  have hcolon : HoldsAt mem (start + 1) (bytesOf ":") :=
    ⟨hholds.2.1, trivial⟩
  have hlex : lexBody mem start (fun c =>
      if mem c = byte '0' ∨ mem c = byte '1' then some (c + 1) else none)
      ";" = some (start + 4) :=
    lexBody_holds hcolon (if_pos hdigit) hclose
  rw [unserializeToken, lexToken_bool htag, hlex]
  rw [hparse]
  cases b <;> rfl

theorem token_double {text : List UInt8} (htext : DoubleText text)
    (hholds : HoldsAt mem start (doubleText text)) (hmax : start + (doubleText text).length ≤ max) :
    unserializeToken user mem max call start rval hash s = some (unserializeScalar (.double text)
        (start + (doubleText text).length) rval s) := by
  have hopen : (bytesOf "d:").length = 2 := rfl
  have hsemicolon : (bytesOf ";").length = 1 := rfl
  rw [doubleText] at hholds hmax ⊢
  rw [holdsAt_append, holdsAt_append, hopen] at hholds
  obtain ⟨⟨htag, hcolon, _⟩, hnumber, hclose⟩ := hholds
  simp only [List.length_append, hopen, hsemicolon] at hmax ⊢
  have hmatch := matchDouble_holds htext hnumber hclose.1
    (show start + 2 + text.length < max by omega)
  have hlex : lexBody mem start (matchDouble mem max) ";" =
      some (start + (2 + (text.length + 1))) := by
    rw [lexBody_holds ⟨hcolon, trivial⟩ hmatch hclose, hsemicolon]
    congr 1
    omega
  rw [unserializeToken, lexToken_double htag, hlex]
  change some (unserializeScalar (.double (readBytes mem (start + 2)
    (start + (2 + (text.length + 1)) - 1 - (start + 2)))) _ rval s) = _
  have hlength : start + (2 + (text.length + 1)) - 1 - (start + 2) = text.length := by omega
  rw [hlength, readBytes_holdsAt hnumber]

theorem token_string {str : List UInt8} (hstr : str.length < 2 ^ 31)
    (hholds : HoldsAt mem start (stringText str)) (hmax : start + (stringText str).length ≤ max) :
    unserializeToken user mem max call start rval hash s = some (unserializeScalar (.string str)
        (start + (stringText str).length) rval s) := by
  obtain ⟨htag, cursor, hlex, hparse, hlen, hbody⟩ :=
    lex_quoted hstr (c := 's') rfl hholds hmax
  rw [holdsAt_append] at hbody
  have hquote : mem (cursor + str.length) = byte '"' := hbody.2.1
  rw [unserializeToken, lexToken_string htag, hlex]
  change some (unserializeString mem max start cursor rval s) = _
  rw [unserializeString, hparse, if_neg (by rw [stringText] at hmax; omega),
    if_neg (fun h => h hquote), readBytes_holdsAt hbody.1]
  congr 2

theorem token_array {n : Nat} (hn : n < 2 ^ 31) (hholds : HoldsAt mem start (arrayText n))
    (hmax : start + (arrayText n).length ≤ max) :
    unserializeToken user mem max call start rval true s =
      (processNestedData mem call s.next false n
        ({ s with p := start + (arrayText n).length }.arrayInit rval)).bind
        fun r => if !r.1 then some ⟨false, rval, r.2⟩
          else some ⟨(finishNestedData mem r.2).1, rval, (finishNestedData mem r.2).2⟩ := by
  have hprint : printLong n = printUnsigned n := by
    rfl
  have hlt : n < ulongMod := by
    simp only [ulongMod]
    omega
  rw [arrayText, hprint] at hholds hmax ⊢
  rw [holdsAt_append, holdsAt_append] at hholds
  obtain ⟨⟨htag, hcolon, _⟩, hnumber, hbrace⟩ := hholds
  change HoldsAt mem (start + 2) _ at hnumber
  change HoldsAt mem (start + 2 + _) _ at hbrace
  have hend : isDigit (mem (start + 2 + (printUnsigned n).length)) = false := by
    rw [hbrace.1]
    decide
  have hclose : (bytesOf ":\x7b").length = 2 := rfl
  have hopen : (bytesOf "a:").length = 2 := rfl
  simp only [List.length_append, hclose, hopen] at hmax ⊢
  obtain ⟨_, hmatch, _, hparse⟩ := read_printUnsigned hlt hnumber hend
    (show start + 2 + (printUnsigned n).length < max by omega)
  have hcursor : start + 2 + (printUnsigned n).length + 2 =
      start + (2 + ((printUnsigned n).length + 2)) := by omega
  have hlex : lexBody mem start (matchUiv mem max) ":\x7b" =
      some (start + (2 + ((printUnsigned n).length + 2))) := by
    rw [lexBody_holds ⟨hcolon, trivial⟩ hmatch hbrace, hclose, hcursor]
  have helements : parseIv mem max (start + 2) = n := by
    rw [parseIv, hparse]
    exact toLong_of_lt (by omega)
  rw [unserializeToken, lexToken_array htag, hlex]
  simp only [Option.map_some, helements]
  rfl

theorem token_object {name : List UInt8} {n : Nat} {ce : ClassEntry}
    (hname : name.length < 2 ^ 31) (hpos : 0 < name.length)
    (hbytes : ∀ b ∈ name, isNameByte b = true) (hn : n < 2 ^ 31)
    (hlookup : user.lookupClass start name = .found ce)
    (hserialize : ce.serialize = false) (habstract : ce.abstract = false)
    (hholds : HoldsAt mem start (objectText name n))
    (hmax : start + (objectText name n).length ≤ max) :
    unserializeToken user mem max call start rval true s =
      objectCommon2 user mem call ce start rval n
        ({ s.setZval rval { s.zvals rval with isRef := false } with
          p := start + (objectText name n).length }.objectInit rval ce) := by
  have hprint : printLong n = printUnsigned n := by
    rfl
  have hlt : n < ulongMod := by
    simp only [ulongMod]
    omega
  rw [objectText, hprint] at hholds hmax ⊢
  rw [holdsAt_append, holdsAt_append] at hholds
  obtain ⟨hheader, hnumber, hbrace⟩ := hholds
  have hclose : (bytesOf ":\x7b").length = 2 := rfl
  have hquote : (bytesOf "\":").length = 2 := rfl
  simp only [List.length_append, hclose] at hmax ⊢
  obtain ⟨htag, cursor, hlex, hparse, hlen, hbody⟩ :=
    lex_quoted hname (c := 'O') rfl hheader
      (show start + (quotedText "O:" name "\":").length ≤ max by omega)
  rw [holdsAt_append] at hbody
  have hclosing : mem (cursor + name.length) = byte '"' := hbody.2.1
  have hcolon : mem (cursor + name.length + 1) = byte ':' := hbody.2.2.1
  have hread := readBytes_holdsAt hbody.1
  have htake : (name.takeWhile isNameByte).length = name.length := by
    rw [List.takeWhile_eq_self_iff.mpr hbytes]
  have hok : objectHeader mem max start cursor = .ok name := by
    simp only [objectHeader, hparse, hread, htake]
    rw [if_neg (by omega), if_neg (fun h => h hclosing),
      if_neg (fun h => h hcolon), if_neg (fun h => h rfl)]
  have hend : isDigit (mem (start + (quotedText "O:" name "\":").length +
      (printUnsigned n).length)) = false := by
    rw [hbrace.1]
    decide
  obtain ⟨_, _, _, hcount⟩ := read_printUnsigned hlt hnumber hend (show _ < max by omega)
  rw [toLong_of_lt (by omega), ← hlen, hquote] at hcount
  rw [unserializeToken, lexToken_object htag, hlex]
  simp only [Option.map_some, Bool.not_true, Bool.false_eq_true, if_false,
    unserializeObject, hok, classOf, hlookup, objectCommon1, hcount,
    hserialize, habstract, if_true]
  have hcursor : cursor + name.length + 2 + (printUnsigned n).length + 2 =
      start + ((quotedText "O:" name "\":").length + ((printUnsigned n).length + 2)) := by omega
  rw [hcursor]

end Tokens

end PhpEngine

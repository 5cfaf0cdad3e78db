/-
Well-formed quoted-printable texts: bytes that stand for themselves, escapes
and soft line breaks.  `quoted_printable_decode` reads them token by token.
-/
import PhpEngine.QuotedPrintable

namespace PhpEngine

open List

/-- A token of a text.  The digits of an escape are of either case, and blanks
may precede the end of the line in a soft line break. -/
inductive QpToken where
  | literal (b : UInt8) (ok : b ≠ byte '=' ∧ b ≠ 0)
  | escape (h l : UInt8) (ok : isXDigit h ∧ isXDigit l)
  | softBreak (blanks : List UInt8) (ok : ∀ b ∈ blanks, isBlank b)
deriving Repr, DecidableEq

namespace QpToken

/-- The token as it is written. -/
def text : QpToken → List UInt8
  | literal b _ => [b]
  | escape h l _ => [byte '=', h, l]
  | softBreak blanks _ => byte '=' :: (blanks ++ [13, 10])

/-- The bytes the token stands for. -/
def bytes : QpToken → List UInt8
  | literal b _ => [b]
  | escape h l _ => [UInt8.ofNat (phpHex2int h * 16 + phpHex2int l)]
  | softBreak _ _ => []

end QpToken

def qpText (tokens : List QpToken) : List UInt8 :=
  tokens.flatMap QpToken.text

def qpBytes (tokens : List QpToken) : List UInt8 :=
  tokens.flatMap QpToken.bytes

@[simp]
theorem qpText_nil : qpText [] = [] :=
  rfl

@[simp]
theorem qpText_cons (t : QpToken) (tokens : List QpToken) :
    qpText (t :: tokens) = t.text ++ qpText tokens :=
  flatMap_cons

theorem qpText_append (tokens tokens' : List QpToken) :
    qpText (tokens ++ tokens') = qpText tokens ++ qpText tokens' :=
  flatMap_append

@[simp]
theorem qpBytes_cons (t : QpToken) (tokens : List QpToken) :
    qpBytes (t :: tokens) = t.bytes ++ qpBytes tokens :=
  flatMap_cons

theorem qpBytes_append (tokens tokens' : List QpToken) :
    qpBytes (tokens ++ tokens') = qpBytes tokens ++ qpBytes tokens' :=
  flatMap_append

theorem dropWhile_blanks {blanks : List UInt8}
    (hblanks : ∀ b ∈ blanks, isBlank b) {b : UInt8} (hb : isBlank b = false) (rest : List UInt8) :
    (blanks ++ b :: rest).dropWhile isBlank = b :: rest := by
  induction blanks with
  | nil => simp [hb]
  | cons c blanks ih =>
    rw [cons_append, dropWhile_cons_of_pos (hblanks c mem_cons_self)]
    exact ih fun b hb => hblanks b (mem_cons_of_mem c hb)

theorem hexEscape_softBreak {blanks : List UInt8}
    (hblanks : ∀ b ∈ blanks, isBlank b) (rest : List UInt8) :
    hexEscape (blanks ++ 13 :: 10 :: rest) = none := by
  have hfirst : ∀ c tail, isXDigit c = false → hexEscape (c :: tail) = none := by
    intro c tail hc
    cases tail with
    | nil => rfl
    | cons l tail => rw [hexEscape, if_neg (by simp [hc])]
  cases blanks with
  | nil => exact hfirst 13 _ rfl
  | cons c blanks =>
    have hc := hblanks c mem_cons_self
    rw [isBlank, Bool.or_eq_true, beq_iff_eq, beq_iff_eq] at hc
    rcases hc with rfl | rfl
    · exact hfirst _ _ rfl
    · exact hfirst _ _ rfl

theorem softLineBreak_softBreak {blanks : List UInt8}
    (hblanks : ∀ b ∈ blanks, isBlank b) (rest : List UInt8) :
    softLineBreak (blanks ++ 13 :: 10 :: rest) = some rest := by
  rw [softLineBreak, dropWhile_blanks hblanks rfl]
  rfl

theorem softBreak_append {blanks : List UInt8} (ok : ∀ b ∈ blanks, isBlank b) (rest : List UInt8) :
    (QpToken.softBreak blanks ok).text ++ rest = byte '=' :: (blanks ++ 13 :: 10 :: rest) := by
  rw [QpToken.text, cons_append, append_assoc]
  rfl

/-- A turn of `quoted_printable_decode` reads a token. -/
theorem quotedPrintableLoop_token (t : QpToken) (fuel : Nat) (rest : List UInt8) :
    quotedPrintableLoop (fuel + 1) (t.text ++ rest) = t.bytes ++ quotedPrintableLoop fuel rest := by
  cases t with
  | literal b ok =>
    rw [QpToken.text, singleton_append, quotedPrintableLoop, if_neg ok.2, if_neg ok.1]
    rfl
  | escape h l ok =>
    change quotedPrintableLoop (fuel + 1) (byte '=' :: h :: l :: rest) = _
    rw [quotedPrintableLoop, if_neg (by decide), if_pos rfl, hexEscape, if_pos ok, Nat.shiftLeft_eq]
    rfl
  | softBreak blanks ok =>
    rw [softBreak_append, quotedPrintableLoop, if_neg (by decide), if_pos rfl,
      hexEscape_softBreak ok, softLineBreak_softBreak ok]
    rfl

theorem quotedPrintableLoop_text (tokens : List QpToken) {fuel : Nat}
    (hfuel : tokens.length ≤ fuel) : quotedPrintableLoop fuel (qpText tokens) = qpBytes tokens := by
  induction tokens generalizing fuel with
  | nil =>
    cases fuel with
    | zero | succ fuel => rfl
  | cons t tokens ih =>
    obtain ⟨fuel, rfl⟩ := Nat.exists_eq_succ_of_ne_zero
      (show fuel ≠ 0 by rw [length_cons] at hfuel; omega)
    rw [qpText_cons, qpBytes_cons, quotedPrintableLoop_token, ih (Nat.le_of_succ_le_succ hfuel)]

theorem QpToken.text_ne_nil (t : QpToken) : 1 ≤ t.text.length := by
  cases t with
  | literal b ok => exact le_rfl
  | escape h l ok => exact Nat.le_add_left 1 2
  | softBreak blanks ok =>
    rw [QpToken.text, length_cons]
    omega

theorem length_le_qpText (tokens : List QpToken) : tokens.length ≤ (qpText tokens).length := by
  induction tokens with
  | nil => exact le_rfl
  | cons t tokens ih =>
    have ht := t.text_ne_nil
    rw [qpText_cons, length_cons, length_append]
    omega

theorem quotedPrintableDecode_text (tokens : List QpToken) :
    quotedPrintableDecode (qpText tokens) = qpBytes tokens :=
  quotedPrintableLoop_text tokens (length_le_qpText tokens)

end PhpEngine

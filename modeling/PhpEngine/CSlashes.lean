/-
C-style escapes (ext/standard/string.c): `php_addcslashes` with the mask of `php_charmask`, and
`php_stripcslashes`, which goes over the text in place and never writes past what it has read.
-/
import PhpEngine.QueryText

namespace PhpEngine

open List

variable {c : UInt8} {source : List UInt8}

/-- `php_charmask`: whether it puts `b` in the mask. -/
def phpCharmask (b : UInt8) : List UInt8 → Bool
  | [] => false
  | c :: input =>
    let single := (!(c == byte '.' && input.head? == some (byte '.')) && b == c) ||
      phpCharmask b input
    match input with
    | d :: e :: last :: rest =>
      if d = byte '.' ∧ e = byte '.' ∧ c ≤ last then (c ≤ b && b ≤ last) || phpCharmask b rest
      else single
    | _ => single

/-- The letters that stand for control characters. -/
def controlLetters : List (UInt8 × UInt8) :=
  [(10, byte 'n'), (9, byte 't'), (13, byte 'r'), (7, byte 'a'), (11, byte 'v'), (8, byte 'b'),
    (12, byte 'f')]

/-- `%03o` of an unsigned character. -/
def octalText (c : UInt8) : List UInt8 :=
  [digitByte (c.toNat / 64), digitByte (c.toNat / 8 % 8), digitByte (c.toNat % 8)]

/-- A turn of `php_addcslashes`. -/
def addcslashesByte (what : List UInt8) (c : UInt8) : List UInt8 :=
  if phpCharmask c what then
    if c < 32 ∨ 126 < c then
      byte '\\' :: match controlLetters.lookup c with
        | some letter => [letter]
        | none => octalText c
    else [byte '\\', c]
  else [c]

/-- `php_addcslashes` -/
def phpAddcslashes (s what : List UInt8) : List UInt8 :=
  s.flatMap (addcslashesByte what)

/-- The escapes of one letter that `php_stripcslashes` knows. -/
def letterEscapes : List (UInt8 × UInt8) :=
  [(byte 'n', 10), (byte 'r', 13), (byte 'a', 7), (byte 't', 9), (byte 'v', 11), (byte 'b', 8),
    (byte 'f', 12), (byte '\\', byte '\\')]

def isOctal (c : UInt8) : Bool :=
  byte '0' ≤ c && c ≤ byte '7'

/-- `strtol` on a few digits, as a character. -/
def charOfDigits (base : Nat) (numtmp : List UInt8) : UInt8 :=
  UInt8.ofNat (numtmp.foldl (fun v b => v * base + xdigitValue b) 0)

/-- The byte `c` behind a backslash and what follows it: the byte that is written, what is taken
off `nlen`, and where the source goes on. -/
def readEscape (c : UInt8) (source : List UInt8) : UInt8 × Int × List UInt8 :=
  match letterEscapes.lookup c with
  | some b => (b, 1, source)
  | none =>
    let hex := (source.take 2).takeWhile isXDigit
    let octal := ((c :: source).take 3).takeWhile isOctal
    if c = byte 'x' ∧ hex ≠ [] then
      (charOfDigits 16 hex, hex.length + 1, source.drop hex.length)
    else if octal ≠ [] then
      (charOfDigits 8 octal, octal.length, (c :: source).drop octal.length)
    else (c, 1, source)

theorem length_takeWhile_take_le (p : UInt8 → Bool) (n : Nat) (l : List UInt8) :
    ((l.take n).takeWhile p).length ≤ l.length :=
  ( takeWhile_prefix p).length_le.trans (length_take_le' n l)

/-- What is taken off `nlen` is what was read less the byte that is written. -/
theorem readEscape_taken (c : UInt8) (source : List UInt8) :
    (readEscape c source).2.1 + (readEscape c source).2.2.length = source.length + 1 := by
  have hhex := length_takeWhile_take_le isXDigit 2 source
  have hoctal := length_takeWhile_take_le isOctal 3 (c :: source)
  rw [readEscape]
  split
  · simp only
    omega
  · dsimp only
    split
    · simp only [length_drop]
      omega
    · split
      · simp only [length_drop, length_cons] at hoctal ⊢
        omega
      · simp only
        omega

theorem readEscape_shrinks (c : UInt8) (source : List UInt8) :
    (readEscape c source).2.2.length ≤ source.length := by
  have htaken := readEscape_taken c source
  have hpos : 1 ≤ (readEscape c source).2.1 := by
    rw [readEscape]
    split
    · exact le_refl 1
    · dsimp only
      split
      · simp only
        omega
      · split
        case isTrue hoctal =>
          have hlen := length_pos_iff.mpr hoctal
          simp only
          omega
        case isFalse => exact le_refl 1
  omega

/-- The loop of `php_stripcslashes`: what it writes, and `nlen` behind it. -/
def stripcslashesLoop : List UInt8 → Int → List UInt8 × Int
  | [], nlen => ([], nlen)
  | [c], nlen => ([c], nlen)
  | c :: e :: source, nlen =>
    if c = byte '\\' then
      let t := readEscape e source
      let r := stripcslashesLoop t.2.2 (nlen - t.2.1)
      (t.1 :: r.1, r.2)
    else
      let r := stripcslashesLoop (e :: source) nlen
      (c :: r.1, r.2)
termination_by s => s.length
decreasing_by
  · have hshrinks := readEscape_shrinks e source
    simp only [length_cons]
    omega
  · simp

/-- `php_stripcslashes`: what it writes, and the length it reports. -/
def phpStripcslashes (s : List UInt8) : List UInt8 × Int :=
  stripcslashesLoop s s.length

theorem stripcslashesLoop_nlen (s : List UInt8) (nlen : Int) :
    (stripcslashesLoop s nlen).2 = nlen - s.length + (stripcslashesLoop s nlen).1.length := by
  induction s, nlen using stripcslashesLoop.induct with
  | case1 nlen | case2 c nlen => simp [stripcslashesLoop]
  | case3 e source nlen t ih =>
    have htaken := readEscape_taken e source
    rw [stripcslashesLoop, if_pos rfl]
    simp only [length_cons, ← show t = readEscape e source from rfl, ih] at htaken ⊢
    omega
  | case4 c e source nlen hc ih =>
    rw [stripcslashesLoop, if_neg hc]
    simp only [length_cons, ih]
    omega

theorem stripcslashesLoop_escape (e : UInt8) (source : List UInt8) (nlen : Int) :
    (stripcslashesLoop (byte '\\' :: e :: source) nlen).1 = (readEscape e source).1 ::
      (stripcslashesLoop (readEscape e source).2.2 (nlen - (readEscape e source).2.1)).1 := by
  rw [stripcslashesLoop, if_pos rfl]

theorem stripcslashesLoop_plain (hc : c ≠ byte '\\') (source : List UInt8) (nlen : Int) :
    (stripcslashesLoop (c :: source) nlen).1 = c :: (stripcslashesLoop source nlen).1 := by
  cases source with
  | nil => simp [stripcslashesLoop]
  | cons e source => rw [stripcslashesLoop, if_neg hc]

theorem readEscape_letter {b : UInt8} (h : letterEscapes.lookup c = some b) :
    readEscape c source = (b, 1, source) := by
  rw [readEscape, h]

theorem readEscape_octalText (c : UInt8) (source : List UInt8) :
    ∃ d digits, octalText c = d :: digits ∧ readEscape d (digits ++ source) = (c, 3, source) := by
  have hall : ∀ c : UInt8, (octalText c).all isOctal = true ∧
      letterEscapes.lookup (digitByte (c.toNat / 64)) = none ∧
      digitByte (c.toNat / 64) ≠ byte 'x' ∧ charOfDigits 8 (octalText c) = c := by
    apply forall_byte
    decide +kernel
  obtain ⟨hoctal, hlookup, hx, hvalue⟩ := hall c
  refine ⟨_, _, rfl, ?_⟩
  have htake : (((digitByte (c.toNat / 64)) :: ([digitByte (c.toNat / 8 % 8),
      digitByte (c.toNat % 8)] ++ source)).take 3).takeWhile isOctal = octalText c := by
    rw [← takeWhile_eq_self_iff.mpr (List.all_eq_true.mp hoctal)]
    rfl
  rw [readEscape, hlookup]
  simp only [htake, hx, false_and, if_false, hvalue]
  rfl

/-- The bytes that mean something else behind a backslash. -/
def escapeBytes : List UInt8 :=
  "abfnrtvx01234567".toList.map byte

/-- A mask with the backslash and without the bytes that mean something else behind one. -/
structure ReadableMask (what : List UInt8) : Prop where
  backslash : phpCharmask (byte '\\') what = true
  escapes : ∀ b ∈ escapeBytes, phpCharmask b what = false

theorem readEscape_self (hletter : c ∉ escapeBytes) :
    readEscape c source = (c, 1, source) := by
  have hall : ∀ c : UInt8, c ∉ escapeBytes →
      (letterEscapes.lookup c = none ∨ letterEscapes.lookup c = some c) ∧
        c ≠ byte 'x' ∧ isOctal c = false := by
    apply forall_byte
    decide +kernel
  obtain ⟨hlookup | hlookup, hx, hoctal⟩ := hall c hletter
  · rw [readEscape, hlookup]
    simp [hx, hoctal]
  · exact readEscape_letter hlookup

theorem ReadableMask.stripcslashes_byte {what : List UInt8} (h : ReadableMask what) (c : UInt8)
    (source : List UInt8) (nlen : Int) : ∃ nlen',
    (stripcslashesLoop (addcslashesByte what c ++ source) nlen).1 =
      c :: (stripcslashesLoop source nlen').1 := by
  have hcontrols : ∀ c letter : UInt8, controlLetters.lookup c = some letter →
      letterEscapes.lookup letter = some c := by
    intro c letter hlookup
    obtain ⟨l₁, l₂, hsplit, -⟩ := lookup_eq_some_iff.mp hlookup
    have hmem : (c, letter) ∈ controlLetters := by
      rw [hsplit]
      simp
    revert hmem
    simp only [controlLetters, mem_cons, Prod.mk.injEq, not_mem_nil, or_false]
    rintro (⟨rfl, rfl⟩ | ⟨rfl, rfl⟩ | ⟨rfl, rfl⟩ | ⟨rfl, rfl⟩ | ⟨rfl, rfl⟩ | ⟨rfl, rfl⟩ |
      ⟨rfl, rfl⟩)
      <;> decide
  rw [addcslashesByte]
  split
  case isTrue hmask =>
    split
    case isTrue =>
      cases hletter : controlLetters.lookup c with
      | some letter =>
        exact ⟨_, by rw [cons_append, cons_append, stripcslashesLoop_escape,
          readEscape_letter (hcontrols c letter hletter), nil_append]⟩
      | none =>
        obtain ⟨d, digits, hdigits, hread⟩ := readEscape_octalText c source
        refine ⟨nlen - 3, ?_⟩
        simp only [hdigits, cons_append, stripcslashesLoop_escape, hread]
    case isFalse =>
      have hletter : c ∉ escapeBytes := fun hmem => by simp [h.escapes c hmem] at hmask
      refine ⟨nlen - 1, ?_⟩
      rw [cons_append, cons_append, stripcslashesLoop_escape, readEscape_self hletter, nil_append]
  case isFalse hmask =>
    have hc : c ≠ byte '\\' := by
      rintro rfl
      exact hmask h.backslash
    exact ⟨nlen, stripcslashesLoop_plain hc source nlen⟩

theorem ReadableMask.read_back {what : List UInt8} (h : ReadableMask what) (s : List UInt8)
    (nlen : Int) : (stripcslashesLoop (phpAddcslashes s what) nlen).1 = s := by
  induction s generalizing nlen with
  | nil => simp [phpAddcslashes, stripcslashesLoop]
  | cons c s ih =>
    obtain ⟨nlen', hbyte⟩ := h.stripcslashes_byte c (phpAddcslashes s what) nlen
    rw [phpAddcslashes, flatMap_cons, ← phpAddcslashes, hbyte, ih]

theorem readableMask_controls : ReadableMask (byte '\\' :: 0 :: "..".toList.map byte ++ [31]) where
  backslash := by decide
  escapes := by decide +kernel

end PhpEngine

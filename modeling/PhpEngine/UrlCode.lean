/-
URL encoding (ext/standard/url.c): `php_url_encode`, `php_raw_url_encode` and
`php_url_decode`.
-/
import PhpEngine.QuotedPrintable

namespace PhpEngine

/-- A digit of `php_htoi`. -/
def htoiDigit (c : UInt8) : Nat :=
  let c := if byte 'A' ≤ c ∧ c ≤ byte 'Z' then c + 32 else c
  if byte '0' ≤ c ∧ c ≤ byte '9' then c.toNat - 48 else c.toNat - 97 + 10

/-- `php_htoi`, converted to a character. -/
def phpHtoi (s0 s1 : UInt8) : UInt8 :=
  UInt8.ofNat (htoiDigit s0 * 16 + htoiDigit s1)

/-- `php_url_decode`: what it leaves in front of the zero that it writes. -/
def phpUrlDecode : List UInt8 → List UInt8
  | c :: s0 :: s1 :: data =>
    if c = byte '+' then byte ' ' :: phpUrlDecode (s0 :: s1 :: data)
    else if c = byte '%' ∧ isXDigit s0 ∧ isXDigit s1 then
      phpHtoi s0 s1 :: phpUrlDecode data
    else c :: phpUrlDecode (s0 :: s1 :: data)
  | c :: data => (if c = byte '+' then byte ' ' else c) :: phpUrlDecode data
  | [] => []

/-- `hexchars` -/
def hexchars (n : Nat) : UInt8 :=
  UInt8.ofNat (if n < 10 then 48 + n else 55 + n)

/-- A turn of `php_url_encode`. -/
def urlEncodeByte (c : UInt8) : List UInt8 :=
  if c = byte ' ' then [byte '+']
  else if (c < byte '0' ∧ c ≠ byte '-' ∧ c ≠ byte '.') ∨ (c < byte 'A' ∧ byte '9' < c) ∨
      (byte 'Z' < c ∧ c < byte 'a' ∧ c ≠ byte '_') ∨ byte 'z' < c then
    [byte '%', hexchars (c.toNat >>> 4), hexchars (c.toNat &&& 15)]
  else [c]

/-- `php_url_encode` -/
def phpUrlEncode (s : List UInt8) : List UInt8 :=
  s.flatMap urlEncodeByte

/-- A turn of `php_raw_url_encode`. -/
def rawUrlEncodeByte (c : UInt8) : List UInt8 :=
  if (c < byte '0' ∧ c ≠ byte '-' ∧ c ≠ byte '.') ∨
      (c < byte 'A' ∧ byte '9' < c) ∨
      (byte 'Z' < c ∧ c < byte 'a' ∧ c ≠ byte '_') ∨
      (byte 'z' < c ∧ c ≠ byte '~') then
    [byte '%', hexchars (c.toNat >>> 4), hexchars (c.toNat &&& 15)]
  else [c]

/-- `php_raw_url_encode` -/
def phpRawUrlEncode (s : List UInt8) : List UInt8 :=
  s.flatMap rawUrlEncodeByte

theorem length_phpUrlDecode_le (l : List UInt8) : (phpUrlDecode l).length ≤ l.length := by
  induction l using phpUrlDecode.induct with
  | case1 s0 s1 data ih =>
    rw [phpUrlDecode, if_pos rfl, List.length_cons, List.length_cons]
    omega
  | case2 c s0 s1 data hplus hpercent ih =>
    rw [phpUrlDecode, if_neg hplus, if_pos hpercent]
    simp only [List.length_cons]
    omega
  | case3 c s0 s1 data hplus hpercent ih =>
    rw [phpUrlDecode, if_neg hplus, if_neg hpercent, List.length_cons, List.length_cons]
    omega
  | case4 c data hshort ih =>
    rw [phpUrlDecode]
    · simp only [List.length_cons]
      omega
    · exact hshort
  | case5 => exact le_refl 0

end PhpEngine

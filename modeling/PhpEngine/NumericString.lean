/-
`is_numeric_string_ex` (`Zend/zend_operators.h`).  A pointer into the string is the list of
the bytes from it on, with the NUL behind the last one.
-/
import PhpEngine.CText
import PhpEngine.NumericKeys

namespace PhpEngine

namespace LongSize

def longMinDigits : LongSize → List UInt8
  | four => "2147483648".toList.map byte
  | eight => "9223372036854775808".toList.map byte

end LongSize

namespace NumericString

/-- `ZEND_IS_XDIGIT` -/
def isXDigit (b : UInt8) : Bool :=
  (byte 'A' ≤ b && b ≤ byte 'F') || (byte 'a' ≤ b && b ≤ byte 'f')

def isExponentMark (b : UInt8) : Bool :=
  b == byte 'e' || b == byte 'E'

def startsDigit : List UInt8 → Bool
  | [] => false
  | b :: _ => isDigit b

/-- Which of `lval`, `dval` and `oflow_info` are not `NULL`. -/
structure Pointers where
  lval : Bool
  dval : Bool
  oflowInfo : Bool
deriving DecidableEq, Repr

/-- 0, `IS_LONG` and `IS_DOUBLE` -/
inductive NumericType where
  | notNumeric
  | isLong
  | isDouble
deriving DecidableEq, Repr

/-- The value returned and what has been written to the pointers. -/
structure NumericResult (D : Type) where
  type : NumericType
  lval : Option Int
  dval : Option D
  oflowInfo : Option Int
  notice : Bool
deriving DecidableEq, Repr

/-- Where `zend_strtod` leaves `*se`. -/
def strtodEnd (s00 : List UInt8) : List UInt8 :=
  let s := afterSign (s00.dropWhile isSpace)
  if s.head? = some 0 then s00
  else
    let nz0 := s.head? = some (byte '0')
    let s := s.dropWhile (· == byte '0')
    if nz0 ∧ s.head? = some 0 then s
    else
      let digits := s.takeWhile isDigit
      let s := s.dropWhile isDigit
      let point := s.head? = some (byte '.')
      let fraction := if point then s.tail.takeWhile isDigit else []
      let s := if point then s.tail.dropWhile isDigit else s
      if ¬nz0 ∧ digits = [] ∧ fraction = [] then s00
      else
        match s with
        | [] => []
        | e :: after =>
          if isExponentMark e then
            if startsDigit (afterSign after) then (afterSign after).dropWhile isDigit
            else e :: after
          else e :: after

/-- Where `zend_hex_strtod` leaves `*endptr`. -/
def hexStrtodEnd (str : List UInt8) : List UInt8 :=
  if (str.takeWhile (· != 0)).length < 2 then str
  else
    let s :=
      if str.head? = some (byte '0') ∧
          (str[1]? = some (byte 'x') ∨ str[1]? = some (byte 'X')) then str.drop 2
      else str
    let behind := s.dropWhile fun b => isDigit b || isXDigit b
    if behind.length = s.length then str else behind

/-- The state of the function where the loop over the digits is left.  `converting` tells the
way out to `process_double` from the loop's end. -/
structure DigitScan where
  type : NumericType
  ptr : List UInt8
  digits : Nat
  converting : Bool
deriving DecidableEq, Repr

section Classify

variable (size : LongSize)

/-- The loop from `check_digits` on.  With `stops`, which is `dval || allow_errors == 1`, it
ends at `process_double` and after too many digits. -/
def checkDigits (base : Nat) (stops : Bool) (dpOrE : Nat) (type : NumericType) :
    List UInt8 → Nat → DigitScan
  | [], digits => ⟨type, [], digits, false⟩
  | b :: rest, digits =>
    if isDigit b || (base == 16 && isXDigit b) then
      if size.maxLengthOfLong ≤ digits + 1 && stops then ⟨type, rest, digits + 1, false⟩
      else checkDigits base stops dpOrE type rest (digits + 1)
    else if base == 10 && b == byte '.' && dpOrE < 1 then
      if stops then ⟨.isDouble, b :: rest, digits, true⟩
      else checkDigits base stops 1 .isDouble rest digits
    else if base == 10 && isExponentMark b && dpOrE < 2 then
      match rest with
      | [] => ⟨type, [b], digits, false⟩
      | c :: after =>
        if isSign c then
          -- `ptr = e++`
          if startsDigit after then
            if stops then ⟨.isDouble, c :: after, digits, true⟩
            else checkDigits base stops 2 .isDouble after digits
          else ⟨type, c :: after, digits, false⟩
        else if isDigit c then
          if stops then ⟨.isDouble, b :: c :: after, digits, true⟩
          else checkDigits base stops 2 .isDouble (c :: after) digits
        else ⟨type, b :: c :: after, digits, false⟩
    else ⟨type, b :: rest, digits, false⟩

theorem checkDigits_cons (base : Nat) (stops : Bool) (dpOrE : Nat) (type : NumericType)
    (b : UInt8) (rest : List UInt8) (digits : Nat) :
    checkDigits size base stops dpOrE type (b :: rest) digits =
      if isDigit b || (base == 16 && isXDigit b) then
        if size.maxLengthOfLong ≤ digits + 1 && stops then ⟨type, rest, digits + 1, false⟩
        else checkDigits size base stops dpOrE type rest (digits + 1)
      else if base == 10 && b == byte '.' && dpOrE < 1 then
        if stops then ⟨.isDouble, b :: rest, digits, true⟩
        else checkDigits size base stops 1 .isDouble rest digits
      else if base == 10 && isExponentMark b && dpOrE < 2 then
        match rest with
        | [] => ⟨type, [b], digits, false⟩
        | c :: after =>
          if isSign c then
            if startsDigit after then
              if stops then ⟨.isDouble, c :: after, digits, true⟩
              else checkDigits size base stops 2 .isDouble after digits
            else ⟨type, c :: after, digits, false⟩
          else if isDigit c then
            if stops then ⟨.isDouble, b :: c :: after, digits, true⟩
            else checkDigits size base stops 2 .isDouble (c :: after) digits
          else ⟨type, b :: c :: after, digits, false⟩
      else ⟨type, b :: rest, digits, false⟩ := by
  cases rest <;> rfl

variable {D : Type} (strtod hexStrtod : List UInt8 → D) (p : Pointers) (allowErrors : Int)

/-- The state in front of the test for what follows the number. -/
structure Recognized (D : Type) where
  type : NumericType
  ptr : List UInt8
  digits : Nat
  localDval : Option D
  oflow : Int

/-- `*str == '-' ? -1 : 1` -/
def overflowSide (str : List UInt8) : Int :=
  if str.head? = some (byte '-') then -1 else 1

/-- `process_double`, when it does not go back into the loop. -/
def processDouble (str ptr : List UInt8) (digits : Nat) (oflow : Int) : Recognized D :=
  if p.dval then ⟨.isDouble, strtodEnd str, digits, some (strtod str), oflow⟩
  else ⟨.isDouble, ptr, digits, none, oflow⟩

/-- `&ptr[-digits]` -/
def backFrom (str ptr : List UInt8) (digits : Nat) : List UInt8 :=
  str.drop (str.length - ptr.length - digits)

def afterDigits (base : Nat) (str : List UInt8) (scan : DigitScan) : Recognized D :=
  if scan.converting then processDouble strtod p str scan.ptr scan.digits 0
  else if base = 10 then
    if size.maxLengthOfLong ≤ scan.digits then
      processDouble strtod p str scan.ptr scan.digits (overflowSide str)
    else ⟨scan.type, scan.ptr, scan.digits, none, 0⟩
  else if scan.digits < size.sizeofLong * 2 ∨ (scan.digits = size.sizeofLong * 2 ∧
        (backFrom str scan.ptr scan.digits).headD 0 ≤ byte '7') then
    ⟨scan.type, scan.ptr, scan.digits, none, 0⟩
  else if p.dval then ⟨.isDouble, hexStrtodEnd str, scan.digits, some (hexStrtod str), 1⟩
  else ⟨.isDouble, scan.ptr, scan.digits, none, 1⟩

/-- From `if (ptr != str + length)` to the end. -/
def finish (base : Nat) (str : List UInt8) (r : Recognized D) : NumericResult D :=
  let oflowInfo (oflow : Int) := if p.oflowInfo then some oflow else none
  let more := decide (r.ptr.length ≠ 1)
  if more ∧ allowErrors = 0 then ⟨.notNumeric, none, none, oflowInfo r.oflow, false⟩
  else
    let notice := more && allowErrors == -1
    if r.type = .isLong then
      let cmp := strcmp (backFrom str r.ptr r.digits) (size.longMinDigits ++ [0])
      if r.digits = size.maxLengthOfLong - 1 ∧
          ¬(cmp = .lt ∨ (cmp = .eq ∧ str.head? = some (byte '-'))) then
        ⟨.isDouble, none, if p.dval then some (strtod str) else none,
          oflowInfo (overflowSide str), notice⟩
      else
        ⟨.isLong, if p.lval then some (strtol size base str) else none, none,
          oflowInfo r.oflow, notice⟩
    else ⟨.isDouble, none, r.localDval, oflowInfo r.oflow, notice⟩

/-- `is_numeric_string_ex` for the string of the bytes `s`. -/
def isNumericStringEx (s : List UInt8) : NumericResult D :=
  let stops := p.dval || allowErrors == 1
  let oflowInfo := if p.oflowInfo then some 0 else none
  if s = [] then ⟨.notNumeric, none, none, none, false⟩
  else
    let str := (s ++ [0]).dropWhile isSpace
    match afterSign str with
    | [] => ⟨.notNumeric, none, none, oflowInfo, false⟩
    | c :: next =>
      if isDigit c then
        let hex := decide (3 < str.length ∧ str.head? = some (byte '0') ∧
          (str[1]? = some (byte 'x') ∨ str[1]? = some (byte 'X')))
        let base := if hex then 16 else 10
        let ptr := if hex then next.tail else c :: next
        let scan := checkDigits size base stops 0 .isLong (ptr.dropWhile (· == byte '0')) 0
        finish size strtod p allowErrors base str
          (afterDigits size strtod hexStrtod p base str scan)
      else if c = byte '.' ∧ startsDigit next then
        let scan :=
          if stops then ⟨.isDouble, c :: next, 0, true⟩
          else checkDigits size 10 stops 1 .isDouble next 0
        finish size strtod p allowErrors 10 str (afterDigits size strtod hexStrtod p 10 str scan)
      else ⟨.notNumeric, none, none, oflowInfo, false⟩

end Classify

end NumericString

end PhpEngine

/-
`php_base64_encode`, and the converters of the filters `convert.base64-encode`
and `convert.base64-decode`.
-/
import PhpEngine.Converter
import PhpEngine.Decimal

namespace PhpEngine

/-- `base64_table`. -/
def base64Table : List UInt8 :=
  ['A', 'B', 'C', 'D', 'E', 'F', 'G', 'H', 'I', 'J', 'K', 'L', 'M',
    'N', 'O', 'P', 'Q', 'R', 'S', 'T', 'U', 'V', 'W', 'X', 'Y', 'Z',
    'a', 'b', 'c', 'd', 'e', 'f', 'g', 'h', 'i', 'j', 'k', 'l', 'm',
    'n', 'o', 'p', 'q', 'r', 's', 't', 'u', 'v', 'w', 'x', 'y', 'z',
    '0', '1', '2', '3', '4', '5', '6', '7', '8', '9', '+', '/'].map byte

def base64Char (i : Nat) : UInt8 :=
  base64Table.getD i 0

/-- `php_base64_encode`. -/
def phpBase64Encode : List UInt8 → List UInt8
  | a :: b :: c :: rest =>
    base64Char (a.toNat >>> 2) ::
    base64Char (((a.toNat &&& 0x03) <<< 4) + (b.toNat >>> 4)) ::
    base64Char (((b.toNat &&& 0x0f) <<< 2) + (c.toNat >>> 6)) ::
    base64Char (c.toNat &&& 0x3f) :: phpBase64Encode rest
  | [a, b] =>
    [base64Char (a.toNat >>> 2), base64Char (((a.toNat &&& 0x03) <<< 4) + (b.toNat >>> 4)),
      base64Char ((b.toNat &&& 0x0f) <<< 2), byte '=']
  | [a] =>
    [base64Char (a.toNat >>> 2), base64Char ((a.toNat &&& 0x03) <<< 4), byte '=', byte '=']
  | [] => []

/-- `b64_tbl_enc`: 256 entries. -/
def b64TblEnc (i : UInt8) : UInt8 :=
  (base64Table ++ base64Table ++ base64Table ++ base64Table).getD i.toNat 0

/-- `php_conv_base64_encode`; `erem_len` is the length of `erem`. -/
structure Base64Encode where
  erem : List UInt8
  lineCcnt : Nat
  lineLen : Nat
  lbchars : Option (List UInt8)
deriving Repr, DecidableEq

namespace Base64Encode

/-- `php_conv_base64_encode_ctor`. -/
def ctor (lineLen : Nat) (lbchars : Option (List UInt8)) : Base64Encode where
  erem := []
  lineCcnt := lineLen
  lineLen := lineLen
  lbchars := lbchars

variable (inst : Base64Encode)

/-- The four characters of three bytes. -/
def group (a b c : UInt8) : List UInt8 :=
  [b64TblEnc (a >>> 2), b64TblEnc ((a <<< 4) ||| (b >>> 4)),
    b64TblEnc ((b <<< 2) ||| (c >>> 6)), b64TblEnc c]

/-- `line_ccnt -= 4` on an `unsigned int`. -/
def afterGroup (lineCcnt : Nat) : Nat :=
  (lineCcnt + uintMod - 4) % uintMod

/-- A line break before the next group, if the line is full: what is written,
`line_ccnt` and `ocnt`; `none` if it does not fit. -/
def lineBreak (lineCcnt ocnt : Nat) : Option (List UInt8 × Nat × Nat) :=
  match inst.lbchars with
  | some lb =>
    if lineCcnt < 4 then
      if ocnt < lb.length then none
      else some (lb, inst.lineLen, ocnt - lb.length)
    else some ([], lineCcnt, ocnt)
  | none => some ([], lineCcnt, ocnt)

/-- `case 1` and `case 2` of `php_conv_base64_encode_flush`. -/
def flushGroup (chars : List UInt8) (room : Nat) : ConvResult Base64Encode UInt8 UInt8 :=
  match inst.lineBreak inst.lineCcnt room with
  | none => ⟨.tooBig, inst, [], []⟩
  | some (lb, lineCcnt, ocnt) =>
    if ocnt < 4 then ⟨.tooBig, { inst with lineCcnt := lineCcnt }, [], lb⟩
    else
      ⟨.success, { inst with erem := [], lineCcnt := afterGroup lineCcnt }, [], lb ++ chars⟩

/-- `php_conv_base64_encode_flush`. -/
def flush (room : Nat) : ConvResult Base64Encode UInt8 UInt8 :=
  match inst.erem with
  | [] => ⟨.success, inst, [], []⟩
  | [a] =>
    inst.flushGroup [b64TblEnc (a >>> 2), b64TblEnc (a <<< 4), byte '=', byte '='] room
  | [a, b] =>
    inst.flushGroup [b64TblEnc (a >>> 2),
      b64TblEnc ((a <<< 4) ||| (b >>> 4)), b64TblEnc (b <<< 2), byte '=']
      room
  | _ => ⟨.failed, inst, [], []⟩

/-- The `while` loop of `php_conv_base64_encode_convert` and the `for` loop
behind it, with `line_ccnt`, `ocnt` and what is written. -/
def convertLoop (lineCcnt ocnt : Nat) (written : List UInt8) :
    List UInt8 → ConvResult Base64Encode UInt8 UInt8
  | a :: b :: c :: rest =>
    match inst.lineBreak lineCcnt ocnt with
    | none =>
      ⟨.tooBig, { inst with lineCcnt := lineCcnt }, a :: b :: c :: rest, written⟩
    | some (lb, lineCcnt, ocnt) =>
      if ocnt < 4 then
        ⟨.tooBig, { inst with lineCcnt := lineCcnt }, a :: b :: c :: rest, written ++ lb⟩
      else
        convertLoop (afterGroup lineCcnt) (ocnt - 4) (written ++ lb ++ group a b c) rest
  | rest =>
    ⟨.success, { inst with erem := inst.erem ++ rest, lineCcnt := lineCcnt }, [], written⟩

/-- `case 1` and `case 2` of `php_conv_base64_encode_convert`: the remainder
is completed to the group `chars`, which leaves `rest`. -/
def remainderGroup (chars input rest : List UInt8) (room : Nat) :
    ConvResult Base64Encode UInt8 UInt8 :=
  match inst.lineBreak inst.lineCcnt room with
  | none => ⟨.tooBig, inst, input, []⟩
  | some (lb, lineCcnt, ocnt) =>
    if ocnt < 4 then ⟨.tooBig, { inst with lineCcnt := lineCcnt }, input, lb⟩
    else
      convertLoop { inst with erem := [] } (afterGroup lineCcnt) (ocnt - 4) (lb ++ chars) rest

/-- `php_conv_base64_encode_convert` on a portion of the input. -/
def convert (input : List UInt8) (room : Nat) : ConvResult Base64Encode UInt8 UInt8 :=
  match inst.erem, input with
  | [a], b :: c :: rest => inst.remainderGroup (group a b c) input rest room
  | [a, b], c :: rest => inst.remainderGroup (group a b c) input rest room
  | _, _ => inst.convertLoop inst.lineCcnt room [] input

end Base64Encode

/-- The filter `convert.base64-encode`. -/
def base64Encoder : Converter Base64Encode UInt8 UInt8 where
  convert := Base64Encode.convert
  flush := Base64Encode.flush

/-- `b64_tbl_dec`. -/
def b64TblDec : List Nat :=
  [64, 64, 64, 64, 64, 64, 64, 64, 64, 64, 64, 64, 64, 64, 64, 64,
    64, 64, 64, 64, 64, 64, 64, 64, 64, 64, 64, 64, 64, 64, 64, 64,
    64, 64, 64, 64, 64, 64, 64, 64, 64, 64, 64, 62, 64, 64, 64, 63,
    52, 53, 54, 55, 56, 57, 58, 59, 60, 61, 64, 64, 64, 128, 64, 64,
    64, 0, 1, 2, 3, 4, 5, 6, 7, 8, 9, 10, 11, 12, 13, 14,
    15, 16, 17, 18, 19, 20, 21, 22, 23, 24, 25, 64, 64, 64, 64, 64,
    64, 26, 27, 28, 29, 30, 31, 32, 33, 34, 35, 36, 37, 38, 39, 40,
    41, 42, 43, 44, 45, 46, 47, 48, 49, 50, 51, 64, 64, 64, 64, 64,
    64, 64, 64, 64, 64, 64, 64, 64, 64, 64, 64, 64, 64, 64, 64, 64,
    64, 64, 64, 64, 64, 64, 64, 64, 64, 64, 64, 64, 64, 64, 64, 64,
    64, 64, 64, 64, 64, 64, 64, 64, 64, 64, 64, 64, 64, 64, 64, 64,
    64, 64, 64, 64, 64, 64, 64, 64, 64, 64, 64, 64, 64, 64, 64, 64,
    64, 64, 64, 64, 64, 64, 64, 64, 64, 64, 64, 64, 64, 64, 64, 64,
    64, 64, 64, 64, 64, 64, 64, 64, 64, 64, 64, 64, 64, 64, 64, 64,
    64, 64, 64, 64, 64, 64, 64, 64, 64, 64, 64, 64, 64, 64, 64, 64,
    64, 64, 64, 64, 64, 64, 64, 64, 64, 64, 64, 64, 64, 64, 64, 64]

def b64Dec (b : UInt8) : Nat :=
  b64TblDec.getD b.toNat 64

/-- `bmask`. -/
def bmask (a : Nat) : Nat :=
  0xffff >>> (16 - a)

/-- `<<` on an `unsigned int`. -/
def shlUint (x n : Nat) : Nat :=
  (x <<< n) % uintMod

/-- `php_conv_base64_decode`. -/
structure Base64Decode where
  urem : Nat
  uremNbits : Nat
  ustat : Nat
  eos : Bool
deriving Repr, DecidableEq

namespace Base64Decode

/-- `php_conv_base64_decode_ctor`. -/
def ctor : Base64Decode where
  urem := 0
  uremNbits := 0
  ustat := 0
  eos := false

/-- The variables of the loop of `php_conv_base64_decode_convert`; `eos` is
set in the instance itself. -/
structure Vars where
  urem : Nat
  uremNbits : Nat
  ustat : Nat
  eos : Bool
  pack : Nat
  packBcnt : Nat
deriving Repr, DecidableEq

namespace Vars

variable (v : Vars)

/-- The bits of `urem` are moved to `pack`, as far as they fit. -/
def mergeRem : Vars :=
  if v.uremNbits ≤ v.packBcnt then
    { v with
      packBcnt := v.packBcnt - v.uremNbits
      pack := v.pack ||| shlUint v.urem (v.packBcnt - v.uremNbits)
      uremNbits := 0 }
  else
    { v with
      uremNbits := v.uremNbits - v.packBcnt
      pack := v.pack ||| (v.urem >>> (v.uremNbits - v.packBcnt))
      urem := v.urem &&& bmask (v.uremNbits - v.packBcnt)
      packBcnt := 0 }

/-- The six bits of a character are put into `pack`, and what does not fit
into `urem`. -/
def packBits (i : Nat) : Vars :=
  if 6 ≤ v.packBcnt then
    { v with
      packBcnt := v.packBcnt - 6
      pack := v.pack ||| shlUint i (v.packBcnt - 6)
      urem := 0 }
  else
    { v with
      uremNbits := 6 - v.packBcnt
      pack := v.pack ||| (i >>> (6 - v.packBcnt))
      urem := i &&& bmask (6 - v.packBcnt)
      packBcnt := 0 }

/-- A character is read; `none` for `PHP_CONV_ERR_INVALID_SEQ`. -/
def readChar (b : UInt8) : Option Vars :=
  let i := b64Dec b
  let v := { v with ustat := v.ustat ||| (i &&& 0x80) }
  if i &&& 0xc0 = 0 then
    if v.ustat ≠ 0 then none else some (v.packBits i)
  else if v.ustat ≠ 0 then
    if v.packBcnt = 8 ∨ v.packBcnt = 2 then none
    else some { v with eos := true }
  else some v

/-- What is saved at the end of a call. -/
def save : Base64Decode where
  urem :=
    if v.packBcnt ≤ v.uremNbits then
      v.urem ||| shlUint v.pack (v.uremNbits - v.packBcnt)
    else v.urem ||| (v.pack >>> (v.packBcnt - v.uremNbits))
  uremNbits := v.uremNbits + (8 - v.packBcnt)
  ustat := v.ustat
  eos := v.eos

end Vars

/-- The loop of `php_conv_base64_decode_convert`, with `ocnt` and what is
written.  It fails if it takes more turns than `fuel`. -/
def convertLoop : Nat → Vars → List UInt8 → Nat → List UInt8 → ConvResult Base64Decode UInt8 UInt8
  | 0, v, input, _, written => ⟨.failed, v.save, input, written⟩
  | fuel + 1, v, input, ocnt, written =>
    let v := v.mergeRem
    let put := fun (v : Vars) (rest : List UInt8) =>
      if v.packBcnt ||| v.ustat = 0 then
        if ocnt < 1 then ⟨.tooBig, v.save, rest, written⟩
        else
          convertLoop fuel { v with pack := 0, packBcnt := 8 } rest
            (ocnt - 1) (written ++ [UInt8.ofNat v.pack])
      else convertLoop fuel v rest ocnt written
    if 0 < v.packBcnt then
      match input with
      | [] => ⟨.success, v.save, [], written⟩
      | b :: rest =>
        match v.readChar b with
        | none => ⟨.failed, v.save, rest, written⟩
        | some v => put v rest
    else put v input

/-- `php_conv_base64_decode_convert` on a portion of the input. -/
def convert (inst : Base64Decode) (input : List UInt8) (room : Nat) :
    ConvResult Base64Decode UInt8 UInt8 :=
  convertLoop (input.length + 2)
    { urem := inst.urem
      uremNbits := inst.uremNbits
      ustat := inst.ustat
      eos := inst.eos
      pack := 0
      packBcnt := 8 } input room []

/-- `php_conv_base64_decode_convert` without input. -/
def flush (inst : Base64Decode) (_room : Nat) : ConvResult Base64Decode UInt8 UInt8 :=
  if inst.eos ∨ inst.uremNbits = 0 then ⟨.success, inst, [], []⟩
  else ⟨.failed, inst, [], []⟩

end Base64Decode

/-- The filter `convert.base64-decode`. -/
def base64Decoder : Converter Base64Decode UInt8 UInt8 where
  convert := Base64Decode.convert
  flush := Base64Decode.flush

end PhpEngine

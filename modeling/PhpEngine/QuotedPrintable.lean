/-
`quoted_printable_decode`, and the converters of the filters
`convert.quoted-printable-decode` and `convert.quoted-printable-encode`, which
are called on portions of the input.
-/
import PhpEngine.Converter
import PhpEngine.Decimal

namespace PhpEngine

/-- `isxdigit`. -/
def isXDigit (b : UInt8) : Bool :=
  isDigit b || byte 'A' ≤ b && b ≤ byte 'F' || byte 'a' ≤ b && b ≤ byte 'f'

/-- `php_hex2int`, on hexadecimal digits. -/
def phpHex2int (b : UInt8) : Nat :=
  if isDigit b then b.toNat - 48
  else if byte 'A' ≤ b && b ≤ byte 'F' then b.toNat - 65 + 10
  else b.toNat - 97 + 10

def isBlank (b : UInt8) : Bool :=
  b == 32 || b == 9

/-- The `else` branch behind a `=`: what is left behind the blanks and the
line break, or `none` if this is no soft line break.  The end of the text is
the byte zero. -/
def softLineBreak (rest : List UInt8) : Option (List UInt8) :=
  match rest.dropWhile isBlank with
  | [] => some []
  | b :: tail =>
    if b = 0 then some (b :: tail)
    else if b = 13 ∧ tail.head? = some 10 then some tail.tail
    else if b = 13 ∨ b = 10 then some tail
    else none

/-- The two digits behind a `=`. -/
def hexEscape : List UInt8 → Option (UInt8 × List UInt8)
  | h :: l :: tail =>
    if isXDigit h ∧ isXDigit l then
      some (UInt8.ofNat ((phpHex2int h <<< 4) + phpHex2int l), tail)
    else none
  | _ => none

/-- The loop of `quoted_printable_decode`; a turn reads at least one byte. -/
def quotedPrintableLoop : Nat → List UInt8 → List UInt8
  | 0, _ => []
  | _ + 1, [] => []
  | fuel + 1, b :: rest =>
    if b = 0 then []
    else if b = byte '=' then
      match hexEscape rest with
      | some (c, tail) => c :: quotedPrintableLoop fuel tail
      | none =>
        match softLineBreak rest with
        | some tail => quotedPrintableLoop fuel tail
        | none => b :: quotedPrintableLoop fuel rest
    else b :: quotedPrintableLoop fuel rest

/-- `quoted_printable_decode`. -/
def quotedPrintableDecode (s : List UInt8) : List UInt8 :=
  quotedPrintableLoop s.length s

/-- `scan_stat`, in the order of its numbers from zero on. -/
inductive ScanStat where
  | text
  | equals
  | digit
  | byte
  | blanks
  | lineBreak
  | replay
deriving Repr, DecidableEq

/-- `php_conv_qprint_decode`; `lbchars_len` is the length of `lbchars`, and
zero if it is `NULL`. -/
structure QprintDecode where
  scanStat : ScanStat
  nextChar : Nat
  lbchars : Option (List UInt8)
  lbPtr : Nat
  lbCnt : Nat
deriving Repr, DecidableEq

namespace QprintDecode

/-- `php_conv_qprint_decode_ctor`. -/
def ctor (lbchars : Option (List UInt8)) : QprintDecode where
  scanStat := .text
  nextChar := 0
  lbchars := lbchars
  lbPtr := 0
  lbCnt := 0

variable (inst : QprintDecode)

/-- `lbchars[i]` is this byte, where `i` is in the range. -/
def lbcharAt (i : Nat) (b : UInt8) : Bool :=
  (inst.lbchars.getD [])[i]? == some b

/-- `next_char = (next_char << 4) | …`. -/
def pushDigit (b : UInt8) : Nat :=
  (inst.nextChar <<< 4) % uintMod ||| (if byte 'A' ≤ b then b.toNat - 0x37 else b.toNat - 0x30)

/-- A turn of the loop that goes on, or the end of the call.  `overrun` is a
read behind the portion that is taken for a part of it: from then on the count
of the bytes that are left is wrong. -/
inductive Step where
  | go (inst : QprintDecode) (input written : List UInt8)
  | out (status : ConvStatus) (inst : QprintDecode) (input : List UInt8)
  | overrun

/-- Case 2 of the `switch`, which case 1 falls into. -/
def readDigit (next : ScanStat) (b : UInt8) (rest : List UInt8) : Step :=
  if isXDigit b then
    .go { inst with nextChar := inst.pushDigit b, scanStat := next } rest []
  else .out .failed inst (b :: rest)

/-- A turn of the loop of `php_conv_qprint_decode_convert` with `ocnt` bytes of
room; `behind` is the byte that follows the portion in the memory. -/
def turn (behind : UInt8) (ocnt : Nat) (input : List UInt8) : Step :=
  let lbchars := inst.lbchars.getD []
  match inst.scanStat, input with
  | .text, [] => .out .success inst []
  | .text, b :: rest =>
    if b = PhpEngine.byte '=' then
      .go { inst with scanStat := .equals } rest []
    else if ocnt < 1 then .out .tooBig inst input
    else .go inst rest [b]
  | .equals, [] => .out .success inst []
  | .equals, b :: rest =>
    if isBlank b then .go { inst with scanStat := .blanks } rest []
    else if inst.lbchars = none ∧ inst.lbCnt = 0 ∧ b = 13 then
      .go { inst with scanStat := .lineBreak, lbCnt := 1 } rest []
    else if inst.lbchars = none ∧ inst.lbCnt = 0 ∧ b = 10 then
      .go { inst with scanStat := .text, lbPtr := 0, lbCnt := 0 } rest []
    else if inst.lbcharAt inst.lbCnt b then
      .go { inst with scanStat := .lineBreak, lbCnt := inst.lbCnt + 1 } rest []
    else inst.readDigit .digit b rest
  | .digit, [] => .out .success inst []
  | .digit, b :: rest => inst.readDigit .byte b rest
  | .byte, _ =>
    if ocnt < 1 then .out .tooBig inst input
    else .go { inst with scanStat := .text } input [UInt8.ofNat inst.nextChar]
  | .blanks, [] => .out .success inst []
  | .blanks, b :: rest =>
    let inst' := if inst.lbcharAt inst.lbCnt b then
      { inst with scanStat := .lineBreak, lbCnt := inst.lbCnt + 1 } else inst
    if isBlank b then .go inst' rest [] else .out .failed inst' input
  | .lineBreak, _ =>
    if inst.lbchars = none ∧ inst.lbCnt = 1 ∧ input.headD behind = 10 then
      match input with
      | [] => .overrun
      | _ :: rest =>
        .go { inst with scanStat := .text, lbPtr := 0, lbCnt := 0 } rest []
    else if inst.lbchars = none ∧ 0 < inst.lbCnt then
      .go { inst with scanStat := .text, lbPtr := 0, lbCnt := 0 } input []
    else if lbchars.length ≤ inst.lbCnt then
      .go { inst with scanStat := .text, lbPtr := 0, lbCnt := 0 } input []
    else
      match input with
      | [] => .out .success inst []
      | b :: rest =>
        if inst.lbcharAt inst.lbCnt b then
          .go { inst with lbCnt := inst.lbCnt + 1 } rest []
        else .go { inst with scanStat := .replay } input []
  | .replay, _ =>
    if inst.lbPtr < inst.lbCnt then
      if ocnt < 1 then .out .tooBig inst input
      else .go { inst with lbPtr := inst.lbPtr + 1 } input [lbchars.getD inst.lbPtr 0]
    else
      .go { inst with scanStat := .text, lbPtr := 0, lbCnt := 0 } input []

/-- The loop of `php_conv_qprint_decode_convert`; `none` for an overrun. -/
def convertLoop (behind : UInt8) : Nat → QprintDecode → List UInt8 → Nat → List UInt8 →
      Option (ConvResult QprintDecode UInt8 UInt8)
  | 0, inst, input, _, written => some ⟨.failed, inst, input, written⟩
  | fuel + 1, inst, input, ocnt, written =>
    match inst.turn behind ocnt input with
    | .go inst input new =>
      convertLoop behind fuel inst input (ocnt - new.length) (written ++ new)
    | .out status inst input => some ⟨status, inst, input, written⟩
    | .overrun => none

/-- `php_conv_qprint_decode_convert` on a portion of the input.  A byte takes
at most four turns, and there are those that repeat what was kept. -/
def convert (behind : UInt8) (input : List UInt8) (room : Nat) :
    Option (ConvResult QprintDecode UInt8 UInt8) :=
  convertLoop behind (4 * input.length + inst.lbCnt + 4) inst input room []

/-- `php_conv_qprint_decode_convert` without input, which it reads nevertheless
if it has kept something. -/
def flush : Option ConvStatus :=
  if inst.lbCnt = inst.lbPtr then
    if inst.scanStat ≠ .text then some .failed else some .success
  else none

end QprintDecode

/-- A portion of the input, the byte behind it in the memory and the size of
the buffer of the call. -/
structure Portion where
  bytes : List UInt8
  behind : UInt8
  room : Nat
deriving Repr, DecidableEq

/-- The portions are converted one after another, and flushed: what is written
and whether all calls succeed; `none` for a read outside of the input. -/
def QprintDecode.feed (inst : QprintDecode) : List Portion → Option (List UInt8 × Bool)
  | [] => inst.flush.map fun status => ([], status == .success)
  | p :: portions =>
    match inst.convert p.behind p.bytes p.room with
    | none => none
    | some r =>
      if r.status = .success then
        (r.state.feed portions).map fun o => (r.written ++ o.1, o.2)
      else some (r.written, false)

/-- `php_conv_qprint_encode` with line-break characters, where `opts` are the
two flags. -/
structure QprintEncode where
  binary : Bool
  forceEncodeFirst : Bool
  lineCcnt : Nat
  lineLen : Nat
  lbchars : List UInt8
  lbPtr : Nat
  lbCnt : Nat
deriving Repr, DecidableEq

def qpDigits : List UInt8 :=
  ("0123456789ABCDEF".toList).map byte

namespace QprintEncode

/-- `php_conv_qprint_encode_ctor`. -/
def ctor (lineLen : Nat) (lbchars : List UInt8)
    (binary forceEncodeFirst : Bool) : QprintEncode where
  binary := binary
  forceEncodeFirst := forceEncodeFirst
  lineCcnt := lineLen
  lineLen := lineLen
  lbchars := lbchars
  lbPtr := 0
  lbCnt := 0

variable (inst : QprintEncode)

/-- `CONSUME_CHAR`. -/
def consumeChar (input : List UInt8) : QprintEncode × List UInt8 :=
  if inst.lbPtr < inst.lbCnt then
    ({ inst with lbPtr := inst.lbPtr + 1 }, input)
  else ({ inst with lbPtr := 0, lbCnt := 0 }, input.tail)

/-- The check for white space at the end of a line: the loop over `j` from
`ps2` on, with `lb_cnt2` and `trail_ws`. -/
def trailWsLoop : Nat → List UInt8 → Nat → Nat → Nat
  | j + 1, b :: rest, lbCnt2, trailWs =>
    if inst.lbchars[lbCnt2]? = some b then
      if inst.lbchars.length ≤ lbCnt2 + 1 then trailWs
      else trailWsLoop j rest (lbCnt2 + 1) trailWs
    else if lbCnt2 ≠ 0 ∨ ¬ isBlank b then 0
    else trailWsLoop j rest lbCnt2 ((trailWs + 1) % uintMod)
  | _, _, _, trailWs => trailWs

/-- A soft line break. -/
def softBreak : QprintEncode × List UInt8 :=
  ({ inst with lineCcnt := inst.lineLen }, byte '=' :: inst.lbchars)

/-- A turn of the loop that goes on with `trail_ws`, or the end of the call;
both with what the turn has written. -/
inductive Step where
  | go (inst : QprintEncode) (input : List UInt8) (trailWs : Nat) (written : List UInt8)
  | out (status : ConvStatus) (inst : QprintEncode) (input written : List UInt8)

/-- The look-ahead at the start of a turn: the next byte of the line-break
characters is there. -/
def lookAhead : List UInt8 → Bool
  | [] => false
  | b :: _ => !inst.binary && inst.lbchars[inst.lbCnt]? == some b

/-- The characters are written as they are. -/
def isPlain (c : UInt8) : Bool :=
  (!inst.forceEncodeFirst || inst.lineCcnt < inst.lineLen) &&
    (33 ≤ c && c ≤ 60 || 62 ≤ c && c ≤ 126)

/-- The character `c` and what follows it go to the output, where a soft line
break comes first if fewer than `need` characters fit in the line. -/
def put (need : Nat) (chars : List UInt8) (ocnt : Nat) (input : List UInt8)
    (trailWs : Nat) : Step :=
  if inst.lineCcnt < need then
    if ocnt < inst.lbchars.length + 1 then .out .tooBig inst input []
    else
      let inst' := inst.softBreak.1
      if ocnt - (inst.lbchars.length + 1) < chars.length then
        .out .tooBig inst' input inst.softBreak.2
      else
        let next := consumeChar { inst' with lineCcnt := inst'.lineCcnt - chars.length } input
        .go next.1 next.2 trailWs (inst.softBreak.2 ++ chars)
  else if ocnt < chars.length then .out .tooBig inst input []
  else
    let next := consumeChar { inst with lineCcnt := inst.lineCcnt - chars.length } input
    .go next.1 next.2 trailWs chars

/-- White space that was not yet found to be at the end of a line. -/
def putBlank (c : UInt8) (ocnt : Nat) (input : List UInt8) : Step :=
  if inst.lineCcnt < 2 then
    if ocnt < inst.lbchars.length + 1 then .out .tooBig inst input []
    else .go inst.softBreak.1 input 0 inst.softBreak.2
  else if ocnt < 1 then .out .tooBig inst input []
  else
    let trailWs :=
      inst.trailWsLoop ((input.length - 1) % uintMod) input 0 1
    if trailWs = 0 then
      let next := consumeChar { inst with lineCcnt := inst.lineCcnt - 1 } input
      .go next.1 next.2 0 [c]
    else .go inst input trailWs []

/-- `=` and the two digits of a character. -/
def escaped (c : UInt8) : List UInt8 :=
  [byte '=', qpDigits.getD (c.toNat >>> 4) 0, qpDigits.getD (c.toNat &&& 0x0f) 0]

/-- A turn of the loop of `php_conv_qprint_encode_convert`.  `line_ccnt` is
never decreased below zero, since a line with less room is broken first. -/
def turn (ocnt : Nat) (input : List UInt8) (trailWs : Nat) : Step :=
  if inst.lookAhead input then
    if inst.lbchars.length ≤ inst.lbCnt + 1 then
      if ocnt < inst.lbCnt + 1 then .out .tooBig inst input []
      else
        .go { inst with lineCcnt := inst.lineLen, lbPtr := 0, lbCnt := 0 }
          input.tail trailWs (inst.lbchars.take (inst.lbCnt + 1))
    else
      .go { inst with lbCnt := inst.lbCnt + 1 } input.tail trailWs []
  else if inst.lbCnt ≤ inst.lbPtr ∧ input = [] then .out .success inst [] []
  else
    let c := if inst.lbPtr < inst.lbCnt then inst.lbchars.getD inst.lbPtr 0
      else input.headD 0
    if !inst.binary && trailWs == 0 && isBlank c then
      inst.putBlank c ocnt input
    else if inst.isPlain c then inst.put 2 [c] ocnt input trailWs
    else inst.put 4 (escaped c) ocnt input (trailWs - 1)

/-- The loop of `php_conv_qprint_encode_convert`. -/
def convertLoop : Nat → QprintEncode → List UInt8 → Nat → Nat → List UInt8 →
      ConvResult QprintEncode UInt8 UInt8
  | 0, inst, input, _, _, written => ⟨.failed, inst, input, written⟩
  | fuel + 1, inst, input, trailWs, ocnt, written =>
    match inst.turn ocnt input trailWs with
    | .go inst input trailWs new =>
      convertLoop fuel inst input trailWs (ocnt - new.length) (written ++ new)
    | .out status inst input new => ⟨status, inst, input, written ++ new⟩

/-- `php_conv_qprint_encode_convert` on a portion of the input.  A byte takes
at most four turns, one that was kept as part of a line break at most three. -/
def convert (input : List UInt8) (room : Nat) : ConvResult QprintEncode UInt8 UInt8 :=
  convertLoop (4 * input.length + 3 * (inst.lbCnt - inst.lbPtr) + 3) inst input 0 room []

/-- `php_conv_qprint_encode_convert` without input: it reads the input that is
not there if a part of a line break is kept. -/
def flushTouches : Bool :=
  inst.lbPtr < inst.lbCnt

end QprintEncode

/-- How a run of the filter ends. -/
inductive EncodeEnd where
  | touched
  | ended (written : List UInt8) (ok : Bool)
deriving Repr, DecidableEq

/-- The portions are converted one after another and flushed, with the sizes of
the buffers of the calls.  A call that had too little room is repeated with
what is left; if nothing is left, the caller may go on with the next portion
instead, as the loop `while (icnt > 0)` of `strfilter_convert_append_bucket`
does.  `none` if there are more calls than sizes. -/
def QprintEncode.run : List (Nat × Bool) → QprintEncode → List (List UInt8) → List UInt8 →
      Option EncodeEnd
  | [], _, _, _ => none
  | _ :: _, inst, [], written =>
    if inst.flushTouches then some .touched
    else some (.ended written true)
  | (room, again) :: calls, inst, portion :: portions, written =>
    let r := inst.convert portion room
    match r.status with
    | .success => run calls r.state portions (written ++ r.written)
    | .failed => some (.ended (written ++ r.written) false)
    | .tooBig =>
      if r.left = [] ∧ ¬ again then
        run calls r.state portions (written ++ r.written)
      else run calls r.state (r.left :: portions) (written ++ r.written)

end PhpEngine

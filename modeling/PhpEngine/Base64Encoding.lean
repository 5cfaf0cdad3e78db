/-
The filter `convert.base64-encode` against `php_base64_encode`.  However the
bytes are split into portions and whatever the sizes of the buffers, the
filter writes the text of all the bytes, cut into lines if it is told to.
-/
import PhpEngine.Base64
import PhpEngine.ListCut

namespace PhpEngine

open List

section Characters

theorem b64TblEnc_eq (i : UInt8) : b64TblEnc i = base64Char (i.toNat % 64) := by
  have htable : base64Table ++ base64Table ++ base64Table ++ base64Table =
      (List.range 256).map fun n => base64Char (n % 64) := by
    decide +kernel
  rw [b64TblEnc, htable, List.getD_eq_getElem?_getD, List.getElem?_map,
    List.getElem?_range i.toNat_lt]
  rfl

theorem base64Char_first (a : UInt8) : b64TblEnc (a >>> 2) = base64Char (a.toNat >>> 2) := by
  have ha := a.toNat_lt
  have h : (a >>> 2).toNat = a.toNat >>> 2 := UInt8.toNat_shiftRight a 2
  rw [b64TblEnc_eq, h, Nat.shiftRight_eq_div_pow]
  congr 1
  omega

/-- The low bits of a byte, moved to the left of the high bits of the next. -/
theorem toNat_shift_or (a b : UInt8) {k : Nat} (hk : k < 8) (hb : b.toNat < 2 ^ k) :
    ((a <<< UInt8.ofNat k) ||| b).toNat = a.toNat % 2 ^ (8 - k) * 2 ^ k + b.toNat := by
  have hk' : k % 2 ^ 8 % 8 = k := by omega
  have hpow : 2 ^ k * 2 ^ (8 - k) = 2 ^ 8 := by
    rw [← Nat.pow_add]
    congr 1
    omega
  have hshift : (a <<< UInt8.ofNat k).toNat = 2 ^ k * (a.toNat % 2 ^ (8 - k)) := by
    rw [UInt8.toNat_shiftLeft, UInt8.toNat_ofNat', hk', Nat.shiftLeft_eq,
      mul_comm, ← hpow, Nat.mul_mod_mul_left]
  rw [UInt8.toNat_or, hshift, ← Nat.two_pow_add_eq_or_of_lt hb, mul_comm]

theorem base64Char_second (a b : UInt8) : b64TblEnc ((a <<< 4) ||| (b >>> 4)) =
      base64Char (((a.toNat &&& 0x03) <<< 4) + (b.toNat >>> 4)) := by
  have hb := b.toNat_lt
  have h : (b >>> 4).toNat = b.toNat >>> 4 := UInt8.toNat_shiftRight b 4
  have hor := toNat_shift_or a (b >>> 4) (k := 4) (by decide) (by omega)
  rw [b64TblEnc_eq, Nat.and_two_pow_sub_one_eq_mod a.toNat 2,
    Nat.shiftLeft_eq, Nat.shiftRight_eq_div_pow]
  congr 1
  exact (congrArg (· % 64) hor).trans (by omega)

theorem base64Char_third (b c : UInt8) : b64TblEnc ((b <<< 2) ||| (c >>> 6)) =
      base64Char (((b.toNat &&& 0x0f) <<< 2) + (c.toNat >>> 6)) := by
  have hc := c.toNat_lt
  have h : (c >>> 6).toNat = c.toNat >>> 6 := UInt8.toNat_shiftRight c 6
  have hor := toNat_shift_or b (c >>> 6) (k := 2) (by decide) (by omega)
  rw [b64TblEnc_eq, Nat.and_two_pow_sub_one_eq_mod b.toNat 4,
    Nat.shiftLeft_eq, Nat.shiftRight_eq_div_pow]
  congr 1
  exact (congrArg (· % 64) hor).trans (by omega)

theorem base64Char_fourth (c : UInt8) : b64TblEnc c = base64Char (c.toNat &&& 0x3f) := by
  rw [b64TblEnc_eq, Nat.and_two_pow_sub_one_eq_mod c.toNat 6]

/-- The text of the bytes that are left behind the last group. -/
def lastGroup : List UInt8 → List UInt8
  | [a] => [b64TblEnc (a >>> 2), b64TblEnc (a <<< 4), byte '=', byte '=']
  | [a, b] =>
    [b64TblEnc (a >>> 2), b64TblEnc ((a <<< 4) ||| (b >>> 4)), b64TblEnc (b <<< 2), byte '=']
  | _ => []

open Base64Encode in
theorem phpBase64Encode_group (a b c : UInt8) (rest : List UInt8) :
    phpBase64Encode (a :: b :: c :: rest) = group a b c ++ phpBase64Encode rest := by
  rw [phpBase64Encode, group, base64Char_first, base64Char_second,
    base64Char_third, base64Char_fourth]
  rfl

theorem phpBase64Encode_last {f : List UInt8} (hf : f.length < 3) :
    phpBase64Encode f = lastGroup f := by
  match f, hf with
  | [], _ => rfl
  | [a], _ =>
    have h : a <<< 4 = (a <<< 4) ||| ((0 : UInt8) >>> 4) := by
      rw [show (0 : UInt8) >>> 4 = 0 from rfl, UInt8.or_zero]
    rw [phpBase64Encode, lastGroup, h, base64Char_first, base64Char_second a 0]
    rfl
  | [a, b], _ =>
    have h : b <<< 2 = (b <<< 2) ||| ((0 : UInt8) >>> 6) := by
      rw [show (0 : UInt8) >>> 6 = 0 from rfl, UInt8.or_zero]
    rw [phpBase64Encode, lastGroup, h, base64Char_first, base64Char_second, base64Char_third b 0]
    rfl

end Characters

namespace Base64Encode

variable (lineLen : Nat) (lbchars : Option (List UInt8))

/-- The line break before the next group, and the count of the line behind
it. -/
def breakAt (lineCcnt : Nat) : List UInt8 × Nat :=
  match lbchars with
  | some lb => if lineCcnt < 4 then (lb, lineLen) else ([], lineCcnt)
  | none => ([], lineCcnt)

/-- What is written from `line_ccnt` on for the bytes `f`. -/
def encodeFrom (lineCcnt : Nat) : List UInt8 → List UInt8
  | a :: b :: c :: rest =>
    (breakAt lineLen lbchars lineCcnt).1 ++ (group a b c ++
      encodeFrom (afterGroup (breakAt lineLen lbchars lineCcnt).2) rest)
  | [a, b] => (breakAt lineLen lbchars lineCcnt).1 ++ lastGroup [a, b]
  | [a] => (breakAt lineLen lbchars lineCcnt).1 ++ lastGroup [a]
  | [] => []

/-- The settings of an instance do not change, and its lines have room for a
group. -/
structure Has (inst : Base64Encode) : Prop where
  erem : inst.erem.length ≤ 2
  len : inst.lineLen = lineLen
  lb : inst.lbchars = lbchars
  room : lbchars.isSome → 4 ≤ lineLen

/-- What a call does that had to write `f` from `line_ccnt` on, had room for
`ocnt` bytes and had already written something. -/
structure Encodes (lineCcnt ocnt : Nat) (written f : List UInt8)
    (r : ConvResult Base64Encode UInt8 UInt8) : Prop where
  has : Has lineLen lbchars r.state
  total : ∀ future, r.written ++ encodeFrom lineLen lbchars r.state.lineCcnt
    (r.state.erem ++ (r.left ++ future)) =
      written ++ encodeFrom lineLen lbchars lineCcnt (f ++ future)
  status : r.status ≠ .failed
  left : r.status = .success → r.left = []
  load : r.state.erem.length + r.left.length ≤ f.length
  less : r.status = .tooBig → (lbchars.getD []).length + 4 ≤ ocnt →
    r.state.erem.length + r.left.length < f.length

variable {lineLen : Nat} {lbchars : Option (List UInt8)}

theorem Has.lineBreak {inst : Base64Encode} (h : Has lineLen lbchars inst) (lineCcnt ocnt : Nat) :
    inst.lineBreak lineCcnt ocnt = if ocnt < (breakAt lineLen lbchars lineCcnt).1.length then none
      else some ((breakAt lineLen lbchars lineCcnt).1, (breakAt lineLen lbchars lineCcnt).2,
        ocnt - (breakAt lineLen lbchars lineCcnt).1.length) := by
  rw [Base64Encode.lineBreak, h.lb, h.len]
  cases lbchars with
  | none => rfl
  | some lb =>
    dsimp only [breakAt]
    split
    · rfl
    · rfl

theorem breakAt_length (lineCcnt : Nat) :
    (breakAt lineLen lbchars lineCcnt).1.length ≤ (lbchars.getD []).length := by
  cases lbchars with
  | none => exact le_rfl
  | some lb =>
    dsimp only [breakAt]
    split
    · exact le_rfl
    · exact Nat.zero_le _

theorem breakAt_breakAt (hroom : lbchars.isSome → 4 ≤ lineLen) (lineCcnt : Nat) :
    breakAt lineLen lbchars (breakAt lineLen lbchars lineCcnt).2 =
      ([], (breakAt lineLen lbchars lineCcnt).2) := by
  cases lbchars with
  | none => rfl
  | some lb =>
    have hlen := hroom rfl
    by_cases h : lineCcnt < 4
    · simp only [breakAt, if_pos h, if_neg (Nat.not_lt.mpr hlen)]
    · simp only [breakAt, if_neg h]

theorem encodeFrom_breakAt (hroom : lbchars.isSome → 4 ≤ lineLen)
    (lineCcnt : Nat) {f : List UInt8} (hf : f ≠ []) : (breakAt lineLen lbchars lineCcnt).1 ++
        encodeFrom lineLen lbchars (breakAt lineLen lbchars lineCcnt).2 f =
      encodeFrom lineLen lbchars lineCcnt f := by
  match f, hf with
  | [a], _ => simp only [encodeFrom, breakAt_breakAt hroom, nil_append]
  | [a, b], _ => simp only [encodeFrom, breakAt_breakAt hroom, nil_append]
  | a :: b :: c :: rest, _ =>
    simp only [encodeFrom, breakAt_breakAt hroom, nil_append]

theorem Encodes.stop {inst : Base64Encode} (h : Has lineLen lbchars inst)
    {lineCcnt ocnt : Nat} {written f input : List UInt8} (hf : inst.erem ++ input = f)
    (hocnt : ocnt < (breakAt lineLen lbchars lineCcnt).1.length) :
    Encodes lineLen lbchars lineCcnt ocnt written f
      ⟨.tooBig, { inst with lineCcnt := lineCcnt }, input, written⟩ where
  has := ⟨h.erem, h.len, h.lb, h.room⟩
  total := by
    intro future
    rw [← append_assoc, hf]
  status := nofun
  left := nofun
  load := by
    rw [← hf, length_append]
  less := by
    have hlength := @breakAt_length lineLen lbchars lineCcnt
    omega

theorem Encodes.stopBroken {inst : Base64Encode} (h : Has lineLen lbchars inst)
    {lineCcnt ocnt : Nat} {written f input : List UInt8}
    (hf : inst.erem ++ input = f) (hne : f ≠ [])
    (hocnt : ocnt - (breakAt lineLen lbchars lineCcnt).1.length < 4) :
    Encodes lineLen lbchars lineCcnt ocnt written f
      ⟨.tooBig, { inst with lineCcnt := (breakAt lineLen lbchars lineCcnt).2 },
        input, written ++ (breakAt lineLen lbchars lineCcnt).1⟩ where
  has := ⟨h.erem, h.len, h.lb, h.room⟩
  total := by
    intro future
    have hnext : f ++ future ≠ [] := by
      intro hnil
      exact hne (append_eq_nil_iff.mp hnil).1
    rw [← append_assoc inst.erem, hf, append_assoc, encodeFrom_breakAt h.room lineCcnt hnext]
  status := nofun
  left := nofun
  load := by
    rw [← hf, length_append]
  less := by
    have hlength := @breakAt_length lineLen lbchars lineCcnt
    omega

theorem Encodes.forth {r : ConvResult Base64Encode UInt8 UInt8}
    {lineCcnt ocnt : Nat} {written rest : List UInt8} {a b c : UInt8} (h : Encodes lineLen lbchars
      (afterGroup (breakAt lineLen lbchars lineCcnt).2)
      (ocnt - (breakAt lineLen lbchars lineCcnt).1.length - 4)
      (written ++ (breakAt lineLen lbchars lineCcnt).1 ++ Base64Encode.group a b c) rest r) :
    Encodes lineLen lbchars lineCcnt ocnt written (a :: b :: c :: rest) r := by
  have hload := h.load
  have hlength : (a :: b :: c :: rest).length = rest.length + 3 := rfl
  refine ⟨h.has, fun future => ?_, h.status, h.left, ?_, fun _ _ => ?_⟩
  · have htotal := h.total future
    rw [append_assoc, append_assoc] at htotal
    exact htotal
  · omega
  · omega

theorem convertLoop_end {inst : Base64Encode} (h : Has lineLen lbchars inst)
    (lineCcnt ocnt : Nat) (written : List UInt8) {input : List UInt8}
    (herem : inst.erem = [] ∨ inst.erem.length + input.length ≤ 2) (hinput : input.length < 3) :
    Encodes lineLen lbchars lineCcnt ocnt written (inst.erem ++ input) ⟨.success, { inst with
        erem := inst.erem ++ input, lineCcnt := lineCcnt }, [], written⟩ where
  has := by
    refine ⟨?_, h.len, h.lb, h.room⟩
    rw [length_append]
    rcases herem with hnil | hshort
    · rw [hnil, length_nil]
      omega
    · exact hshort
  total := fun _ => rfl
  status := nofun
  left := fun _ => rfl
  load := le_rfl
  less := nofun

theorem convertLoop_encodes {inst : Base64Encode}
    (h : Has lineLen lbchars inst) (lineCcnt ocnt : Nat) (written input : List UInt8)
    (herem : inst.erem = [] ∨ inst.erem.length + input.length ≤ 2) :
    Encodes lineLen lbchars lineCcnt ocnt written (inst.erem ++ input)
      (inst.convertLoop lineCcnt ocnt written input) := by
  match input with
  | a :: b :: c :: rest =>
    have hnil : inst.erem = [] := by
      rcases herem with hnil | hshort
      · exact hnil
      · simp only [length_cons] at hshort
        omega
    rw [convertLoop, h.lineBreak]
    by_cases hbreak : ocnt < (breakAt lineLen lbchars lineCcnt).1.length
    · simp only [if_pos hbreak]
      exact .stop h rfl hbreak
    · simp only [if_neg hbreak]
      by_cases hfour : ocnt - (breakAt lineLen lbchars lineCcnt).1.length < 4
      · simp only [if_pos hfour]
        exact .stopBroken h rfl (by simp) hfour
      · simp only [if_neg hfour]
        have ih := convertLoop_encodes h (afterGroup (breakAt lineLen lbchars lineCcnt).2)
          (ocnt - (breakAt lineLen lbchars lineCcnt).1.length - 4)
          (written ++ (breakAt lineLen lbchars lineCcnt).1 ++
            Base64Encode.group a b c) rest (.inl hnil)
        rw [hnil] at ih ⊢
        exact .forth ih
  | [] => exact convertLoop_end h lineCcnt ocnt written herem (by simp)
  | [a] => exact convertLoop_end h lineCcnt ocnt written herem (by simp)
  | [a, b] => exact convertLoop_end h lineCcnt ocnt written herem (by simp)

theorem remainderGroup_encodes {inst : Base64Encode}
    (h : Has lineLen lbchars inst) {a b c : UInt8} {input rest : List UInt8}
    (hgroup : inst.erem ++ input = a :: b :: c :: rest) (room : Nat) :
    Encodes lineLen lbchars inst.lineCcnt room [] (inst.erem ++ input)
      (inst.remainderGroup (Base64Encode.group a b c) input rest room) := by
  rw [remainderGroup, h.lineBreak]
  by_cases hbreak : room < (breakAt lineLen lbchars inst.lineCcnt).1.length
  · simp only [if_pos hbreak]
    exact .stop h rfl hbreak
  · simp only [if_neg hbreak]
    by_cases hfour : room - (breakAt lineLen lbchars inst.lineCcnt).1.length < 4
    · simp only [if_pos hfour]
      exact .stopBroken h rfl (by rw [hgroup]; nofun) hfour
    · simp only [if_neg hfour]
      rw [hgroup]
      have hempty : Has lineLen lbchars { inst with erem := [] } :=
        ⟨Nat.zero_le _, h.len, h.lb, h.room⟩
      exact .forth (convertLoop_encodes hempty _ _ _ rest (.inl rfl))

theorem convert_encodes {inst : Base64Encode} (h : Has lineLen lbchars inst)
    (input : List UInt8) (room : Nat) :
    Encodes lineLen lbchars inst.lineCcnt room [] (inst.erem ++ input)
      (inst.convert input room) := by
  have herem := h.erem
  have hloop := convertLoop_encodes h inst.lineCcnt room [] input
  match hinst : inst.erem, input with
  | [], input =>
    rw [hinst] at hloop
    simpa only [convert, hinst] using hloop (.inl rfl)
  | [a], [] =>
    rw [hinst] at hloop
    simpa only [convert, hinst] using hloop (.inr (by simp))
  | [a], [b] =>
    rw [hinst] at hloop
    simpa only [convert, hinst] using hloop (.inr (by simp))
  | [a, b], [] =>
    rw [hinst] at hloop
    simpa only [convert, hinst] using hloop (.inr (by simp))
  | [a], b :: c :: rest =>
    have hgroup : inst.erem ++ b :: c :: rest = a :: b :: c :: rest := by
      rw [hinst]
      rfl
    have hcall := remainderGroup_encodes h hgroup room
    simpa only [convert, hinst] using hcall
  | [a, b], c :: rest =>
    have hgroup : inst.erem ++ c :: rest = a :: b :: c :: rest := by
      rw [hinst]
      rfl
    have hcall := remainderGroup_encodes h hgroup room
    simpa only [convert, hinst] using hcall
  | a :: b :: c :: rest, _ =>
    rw [hinst] at herem
    simp at herem

/-- The flush writes the last group, or stops for lack of room. -/
theorem flushGroup_encodes {inst : Base64Encode} (h : Has lineLen lbchars inst)
    (hne : inst.erem ≠ []) (room : Nat) :
    ((inst.flushGroup (lastGroup inst.erem) room).status = .success ∧
      (inst.flushGroup (lastGroup inst.erem) room).written =
        encodeFrom lineLen lbchars inst.lineCcnt inst.erem) ∨
    (inst.flushGroup (lastGroup inst.erem) room).status = .tooBig ∧
      (inst.flushGroup (lastGroup inst.erem) room).left = [] ∧
      Encodes lineLen lbchars inst.lineCcnt room [] inst.erem
        (inst.flushGroup (lastGroup inst.erem) room) := by
  have hall : inst.erem ++ [] = inst.erem := append_nil _
  rw [flushGroup, h.lineBreak]
  by_cases hbreak : room < (breakAt lineLen lbchars inst.lineCcnt).1.length
  · simp only [if_pos hbreak]
    exact .inr ⟨trivial, trivial, .stop h hall hbreak⟩
  · simp only [if_neg hbreak]
    by_cases hfour : room - (breakAt lineLen lbchars inst.lineCcnt).1.length < 4
    · simp only [if_pos hfour]
      exact .inr ⟨trivial, trivial, .stopBroken h hall hne hfour⟩
    · simp only [if_neg hfour]
      refine .inl ⟨trivial, ?_⟩
      have herem := h.erem
      match inst.erem, hne, herem with
      | [a], _, _ => rfl
      | [a, b], _, _ => rfl

theorem flush_eq {inst : Base64Encode} (h : Has lineLen lbchars inst) (room : Nat) :
    inst.flush room = if inst.erem = [] then ⟨.success, inst, [], []⟩
      else inst.flushGroup (lastGroup inst.erem) room := by
  have herem := h.erem
  rw [flush]
  match hinst : inst.erem, herem with
  | [], _ => rfl
  | [a], _ => rfl
  | [a, b], _ => rfl

end Base64Encode

open Base64Encode

theorem base64Encoder_reads (lineLen : Nat) (lbchars : Option (List UInt8)) :
    base64Encoder.Reads (Has lineLen lbchars) (Has lineLen lbchars) (fun inst f =>
        (encodeFrom lineLen lbchars inst.lineCcnt (inst.erem ++ f), true))
      (fun inst left => inst.erem.length + left.length) ((lbchars.getD []).length + 4) where
  rest_valid := fun _ h => h
  convert_total := by
    intro inst portion room future h
    have hcall := convert_encodes h portion room
    have htotal := hcall.total future
    rw [nil_append, append_assoc] at htotal
    have hok := hcall.status
    change ConvResult.total (inst.convert portion room) _ _ = _
    rw [ConvResult.total]
    split
    · contradiction
    · rw [htotal]
  convert_done := by
    intro inst portion room h hok
    have hcall := convert_encodes h portion room
    exact ⟨hcall.left hok, hcall.has⟩
  convert_more := by
    intro inst portion room h hbig
    have hcall := convert_encodes h portion room
    have hload := hcall.load
    have hless := hcall.less hbig
    rw [length_append] at hload hless
    exact ⟨hcall.has, hload, hless⟩
  flush_done := by
    intro inst room h
    change (inst.flush room).status ≠ .tooBig → _ =
      ((inst.flush room).written, decide ((inst.flush room).status = .success))
    rw [flush_eq h, append_nil]
    by_cases hnil : inst.erem = []
    · rw [if_pos hnil, hnil]
      intro _
      rfl
    · rw [if_neg hnil]
      intro hdone
      rcases flushGroup_encodes h hnil room with ⟨hok, hwritten⟩ | ⟨hbig, -⟩
      · rw [hok, hwritten]
        rfl
      · exact absurd hbig hdone
  flush_more := by
    intro inst room h hbig
    change (inst.flush room).status = .tooBig at hbig
    obtain ⟨hleft, hcall⟩ : (inst.flush room).left = [] ∧
        Encodes lineLen lbchars inst.lineCcnt room [] inst.erem (inst.flush room) := by
      rw [flush_eq h] at hbig ⊢
      by_cases hnil : inst.erem = []
      · rw [if_pos hnil] at hbig
        cases hbig
      · rw [if_neg hnil] at hbig ⊢
        rcases flushGroup_encodes h hnil room with ⟨hok, -⟩ | ⟨-, hcall⟩
        · rw [hok] at hbig
          cases hbig
        · exact hcall
    have htotal := hcall.total []
    have hload := hcall.load
    have hless := hcall.less hbig
    rw [hleft] at htotal hload hless
    exact ⟨Prod.ext htotal.symm rfl, hcall.has, hload, hless⟩

section Lines

/-- The lines of a text: `width` characters each, as far as there are. -/
def textLines (width : Nat) (text : List UInt8) : List (List UInt8) :=
  pieces (·.take width) (·.drop width) text

/-- The text of the bytes `s`, as the settings of the filter want it. -/
def base64Text (lineLen : Nat) (lbchars : Option (List UInt8)) (s : List UInt8) : List UInt8 :=
  match lbchars with
  | none => phpBase64Encode s
  | some lb =>
    List.intercalate lb (textLines (4 * (lineLen / 4)) (phpBase64Encode s))

variable {width : Nat} (lb : List UInt8)

theorem drop_shorter (hwidth : 0 < width) (l : List UInt8) (hl : l ≠ []) :
    (l.drop width).length < l.length := by
  have hpos := length_pos_of_ne_nil hl
  rw [length_drop]
  omega

theorem textLines_cons (hwidth : 0 < width) {text : List UInt8} (htext : text ≠ []) :
    textLines width text = text.take width :: textLines width (text.drop width) :=
  pieces_cons (drop_shorter hwidth) htext

/-- A text whose first line has only room for `n` characters. -/
def linesFrom (width n : Nat) (text : List UInt8) : List UInt8 :=
  if text.length ≤ n then text
  else text.take n ++ (lb ++ List.intercalate lb (textLines width (text.drop n)))

theorem intercalate_textLines (hwidth : 0 < width) {text : List UInt8} (htext : text ≠ []) :
    List.intercalate lb (textLines width text) = linesFrom lb width width text := by
  rw [textLines_cons hwidth htext, linesFrom]
  by_cases hshort : text.length ≤ width
  · rw [if_pos hshort, drop_eq_nil_of_le hshort, take_of_length_le hshort]
    simp [textLines, pieces, pieceLoop, List.intercalate]
  · have hrest : text.drop width ≠ [] := by
      rw [Ne, drop_eq_nil_iff]
      exact hshort
    rw [if_neg hshort, textLines_cons hwidth hrest]
    simp [List.intercalate]

theorem linesFrom_append {n : Nat} (g text : List UInt8) (hg : g.length ≤ n) :
    linesFrom lb width n (g ++ text) = g ++ linesFrom lb width (n - g.length) text := by
  rw [linesFrom, linesFrom, length_append]
  by_cases hshort : text.length ≤ n - g.length
  · rw [if_pos hshort, if_pos (by omega)]
  · rw [if_neg hshort, if_neg (by omega), take_append,
      drop_append, take_of_length_le hg,
      drop_eq_nil_of_le hg, nil_append, append_assoc]

end Lines

theorem encodeFrom_none (lineLen lineCcnt : Nat) (f : List UInt8) :
    encodeFrom lineLen none lineCcnt f = phpBase64Encode f := by
  match f with
  | a :: b :: c :: rest =>
    rw [encodeFrom, phpBase64Encode_group, encodeFrom_none lineLen _ rest]
    rfl
  | [] => rfl
  | [a] => exact (phpBase64Encode_last (f := [a]) (by simp)).symm
  | [a, b] => exact (phpBase64Encode_last (f := [a, b]) (by simp)).symm

theorem phpBase64Encode_ne_nil {f : List UInt8} (hf : f ≠ []) : phpBase64Encode f ≠ [] := by
  match f, hf with
  | [a], _ => nofun
  | [a, b], _ => nofun
  | a :: b :: c :: rest, _ => nofun

theorem afterGroup_eq {lineCcnt : Nat} (hfour : 4 ≤ lineCcnt)
    (hmod : lineCcnt < uintMod) : afterGroup lineCcnt = lineCcnt - 4 := by
  rw [afterGroup, uintMod] at *
  omega

theorem encodeFrom_some {lineLen : Nat} (hlen : 4 ≤ lineLen)
    (hmod : lineLen < uintMod) (lb : List UInt8) {lineCcnt : Nat}
    (hccnt : lineCcnt ≤ lineLen) (f : List UInt8) : encodeFrom lineLen (some lb) lineCcnt f =
      linesFrom lb (4 * (lineLen / 4)) (4 * (lineCcnt / 4)) (phpBase64Encode f) := by
  have hwidth : 0 < 4 * (lineLen / 4) := by omega
  by_cases hf : f = []
  · rw [hf]
    rfl
  -- with room for a group, from the groups behind it
  have hfits : ∀ ccnt, 4 ≤ ccnt → ccnt ≤ lineLen → encodeFrom lineLen (some lb) ccnt f =
        linesFrom lb (4 * (lineLen / 4)) (4 * (ccnt / 4)) (phpBase64Encode f) := by
    intro ccnt hfour hle
    have hbreak : breakAt lineLen (some lb) ccnt = ([], ccnt) := by
      rw [breakAt, if_neg (by omega)]
    match f, hf with
    | a :: b :: c :: rest, _ =>
      have hgroup : (Base64Encode.group a b c).length = 4 := rfl
      have hroom : 4 * (ccnt / 4) - 4 = 4 * ((ccnt - 4) / 4) := by omega
      rw [encodeFrom, hbreak, phpBase64Encode_group,
        linesFrom_append _ _ _ (by omega), hgroup, hroom,
        afterGroup_eq hfour (by omega),
        encodeFrom_some hlen hmod lb (by omega) rest]
      rfl
    | [a], _ =>
      have hshort : (lastGroup [a]).length ≤ 4 * (ccnt / 4) := by
        change 4 ≤ 4 * (ccnt / 4)
        omega
      rw [encodeFrom, hbreak, phpBase64Encode_last (by simp), linesFrom, if_pos hshort]
      rfl
    | [a, b], _ =>
      have hshort : (lastGroup [a, b]).length ≤ 4 * (ccnt / 4) := by
        change 4 ≤ 4 * (ccnt / 4)
        omega
      rw [encodeFrom, hbreak, phpBase64Encode_last (by simp), linesFrom, if_pos hshort]
      rfl
  by_cases hfour : lineCcnt < 4
  · have htext := phpBase64Encode_ne_nil hf
    have hlong : ¬ (phpBase64Encode f).length ≤ 4 * (lineCcnt / 4) := by
      have hpos := length_pos_of_ne_nil htext
      omega
    have hzero : 4 * (lineCcnt / 4) = 0 := by omega
    rw [← encodeFrom_breakAt (fun _ => hlen) lineCcnt hf, breakAt,
      if_pos hfour, hfits lineLen hlen le_rfl,
      linesFrom.eq_def _ _ (4 * (lineCcnt / 4)), if_neg hlong, hzero,
      take_zero, drop_zero, nil_append,
      intercalate_textLines lb hwidth htext]
  · exact hfits lineCcnt (by omega) hccnt

theorem encodeFrom_ctor {lineLen : Nat} {lbchars : Option (List UInt8)}
    (hlen : lbchars.isSome → 4 ≤ lineLen ∧ lineLen < uintMod) (f : List UInt8) :
    encodeFrom lineLen lbchars lineLen f = base64Text lineLen lbchars f := by
  cases lbchars with
  | none => exact encodeFrom_none lineLen lineLen f
  | some lb =>
    obtain ⟨hfour, hmod⟩ := hlen rfl
    rw [encodeFrom_some hfour hmod lb le_rfl, base64Text]
    by_cases hf : f = []
    · rw [hf]
      rfl
    · exact (intercalate_textLines lb (by omega) (phpBase64Encode_ne_nil hf)).symm

/-- Streaming base64 encoding: for all portions and all sizes of the buffers,
what the filter has written when it is done is the text of all the bytes, and
it gets done if the sizes do not stay too small for a group and its line
break. -/
theorem base64Encoder_agrees (lineLen : Nat) (lbchars : Option (List UInt8))
    (hlen : lbchars.isSome → 4 ≤ lineLen ∧ lineLen < uintMod) (portions : List (List UInt8)) :
    (∀ rooms o, base64Encoder.drive rooms (ctor lineLen lbchars) portions =
      some o → o = (base64Text lineLen lbchars portions.flatten, true)) ∧
    ∀ rooms, Ample ((lbchars.getD []).length + 4) rooms →
      ∃ n, base64Encoder.drive ((List.range n).map rooms) (ctor lineLen lbchars) portions =
          some (base64Text lineLen lbchars portions.flatten, true) := by
  have hreads := base64Encoder_reads lineLen lbchars
  have hctor : Has lineLen lbchars (ctor lineLen lbchars) :=
    ⟨Nat.zero_le _, rfl, rfl, fun hlb => (hlen hlb).1⟩
  have hfit := hreads.fit hctor portions
  rw [← encodeFrom_ctor hlen]
  exact ⟨fun rooms o hrun => hreads.drive_eq hfit hrun,
    fun rooms hample => hreads.drive_ends hample portions hfit⟩

/-- Seven bytes in three portions and lines of length seven. -/
theorem base64Encoder_agrees_sample :
    base64Encoder.drive [3, 4, 1, 5, 2, 2, 4, 0, 6] (ctor 7 (some [13, 10]))
        [[1], [2, 3, 4, 5], [6, 7]] =
      some (base64Text 7 (some [13, 10]) [1, 2, 3, 4, 5, 6, 7], true) := by
  have hagrees := base64Encoder_agrees 7 (some [13, 10])
    (fun _ => by decide) [[1], [2, 3, 4, 5], [6, 7]]
  have hsome : (base64Encoder.drive [3, 4, 1, 5, 2, 2, 4, 0, 6]
      (ctor 7 (some [13, 10])) [[1], [2, 3, 4, 5], [6, 7]]).isSome := by
    decide
  obtain ⟨o, ho⟩ := Option.isSome_iff_exists.mp hsome
  rw [ho, hagrees.1 _ o ho]
  rfl

end PhpEngine

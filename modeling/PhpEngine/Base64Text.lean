/-
`php_base64_decode_ex` (ext/standard/base64.c) on the texts of `php_base64_encode` and on texts
with bytes that are foreign to them.
-/
import PhpEngine.Base64
import PhpEngine.QueryText

namespace PhpEngine

open List

namespace Base64

def base64Pad : UInt8 := byte '='

def base64ReverseTable : List Int := [
  -2, -2, -2, -2, -2, -2, -2, -2, -2, -1, -1, -2, -2, -1, -2, -2,
  -2, -2, -2, -2, -2, -2, -2, -2, -2, -2, -2, -2, -2, -2, -2, -2,
  -1, -2, -2, -2, -2, -2, -2, -2, -2, -2, -2, 62, -2, -2, -2, 63,
  52, 53, 54, 55, 56, 57, 58, 59, 60, 61, -2, -2, -2, -2, -2, -2,
  -2,  0,  1,  2,  3,  4,  5,  6,  7,  8,  9, 10, 11, 12, 13, 14,
  15, 16, 17, 18, 19, 20, 21, 22, 23, 24, 25, -2, -2, -2, -2, -2,
  -2, 26, 27, 28, 29, 30, 31, 32, 33, 34, 35, 36, 37, 38, 39, 40,
  41, 42, 43, 44, 45, 46, 47, 48, 49, 50, 51, -2, -2, -2, -2, -2,
  -2, -2, -2, -2, -2, -2, -2, -2, -2, -2, -2, -2, -2, -2, -2, -2,
  -2, -2, -2, -2, -2, -2, -2, -2, -2, -2, -2, -2, -2, -2, -2, -2,
  -2, -2, -2, -2, -2, -2, -2, -2, -2, -2, -2, -2, -2, -2, -2, -2,
  -2, -2, -2, -2, -2, -2, -2, -2, -2, -2, -2, -2, -2, -2, -2, -2,
  -2, -2, -2, -2, -2, -2, -2, -2, -2, -2, -2, -2, -2, -2, -2, -2,
  -2, -2, -2, -2, -2, -2, -2, -2, -2, -2, -2, -2, -2, -2, -2, -2,
  -2, -2, -2, -2, -2, -2, -2, -2, -2, -2, -2, -2, -2, -2, -2, -2,
  -2, -2, -2, -2, -2, -2, -2, -2, -2, -2, -2, -2, -2, -2, -2, -2]

/-- `base64_reverse_table[ch]` -/
def reverse (ch : UInt8) : Int :=
  base64ReverseTable.getD ch.toNat (-2)

/-- The locals of `php_base64_decode_ex`: the number of digits read, the bytes of `result` in
front of `j`, and `result[j]`. -/
structure DecodeState where
  i : Nat
  result : List UInt8
  last : UInt8

/-- The `switch` on a digit. -/
def DecodeState.put (st : DecodeState) (ch : Nat) : DecodeState :=
  match st.i % 4 with
  | 0 => ⟨st.i + 1, st.result, UInt8.ofNat (ch <<< 2)⟩
  | 1 => ⟨st.i + 1, st.result ++ [st.last ||| UInt8.ofNat (ch >>> 4)],
      UInt8.ofNat ((ch &&& 15) <<< 4)⟩
  | 2 => ⟨st.i + 1, st.result ++ [st.last ||| UInt8.ofNat (ch >>> 2)],
      UInt8.ofNat ((ch &&& 3) <<< 6)⟩
  | _ => ⟨st.i + 1, st.result ++ [st.last ||| UInt8.ofNat ch], st.last⟩

/-- The loop of `php_base64_decode_ex` on the text in front of the NUL, with the counter
`length`.  It yields the locals and the byte it ended on, or `none` for `NULL`. -/
def decodeLoop (strict : Bool) : List UInt8 → Nat → DecodeState → Option (DecodeState × UInt8)
  | [], _, st => some (st, 0)
  | ch :: current, length, st =>
    if ch = 0 ∨ length = 0 then some (st, ch)
    else if ch = base64Pad then
      if current.headD 0 ≠ base64Pad ∧ (st.i % 4 = 1 ∨ (strict ∧ 0 < length - 1)) then
        -- The byte behind the `=` is stepped over before the white space is.
        if st.i % 4 ≠ 1 ∧ (current.tail.dropWhile isSpace).headD 0 = 0 then some (st, 0)
        else none
      else decodeLoop strict current (length - 1) st
    else if (strict = false ∧ reverse ch < 0) ∨ reverse ch = -1 then
      decodeLoop strict current (length - 1) st
    else if reverse ch = -2 then none
    else decodeLoop strict current (length - 1) (st.put (reverse ch).toNat)

/-- `php_base64_decode_ex`: the bytes it returns, or `none` for `NULL`. -/
def phpBase64DecodeEx (str : List UInt8) (strict : Bool) : Option (List UInt8) :=
  match decodeLoop strict str str.length ⟨0, [], 0⟩ with
  | none => none
  | some (st, ch) => if ch = base64Pad ∧ st.i % 4 = 1 then none else some st.result

/-! Round trip. -/

theorem digit_spec {n : Nat} (h : n < 64) :
    base64Char n ≠ 0 ∧ base64Char n ≠ base64Pad ∧ reverse (base64Char n) = n := by
  have hall : ∀ n : Fin 64,
      base64Char n ≠ 0 ∧ base64Char n ≠ base64Pad ∧ reverse (base64Char n) = n := by
    decide +kernel
  exact hall ⟨n, h⟩

theorem decodeLoop_digit {strict : Bool} {n : Nat} (h : n < 64) (text : List UInt8)
    (st : DecodeState) : decodeLoop strict (base64Char n :: text) (base64Char n :: text).length st =
      decodeLoop strict text text.length (st.put n) := by
  obtain ⟨hzero, hpad, hreverse⟩ := digit_spec h
  rw [length_cons, decodeLoop, if_neg (by simp [hzero]), if_neg hpad, hreverse,
    if_neg (by omega), if_neg (by omega), Int.toNat_natCast, Nat.add_sub_cancel]

theorem decodeLoop_pad {strict : Bool} {text : List UInt8} {st : DecodeState}
    (h : text = [] ∨ text.headD 0 = base64Pad) (hi : st.i % 4 ≠ 1) :
    decodeLoop strict (byte '=' :: text) (byte '=' :: text).length st =
      decodeLoop strict text text.length st := by
  have hpad : byte '=' = base64Pad := rfl
  rw [length_cons, decodeLoop, if_neg (by simp [byte]), if_pos hpad, if_neg, Nat.add_sub_cancel]
  rintro ⟨hhead, hrest⟩
  rcases h with rfl | h
  · rcases hrest with hrest | ⟨-, hrest⟩
    · exact hi hrest
    · cases hrest
  · exact hhead h

/-- The parts that the digits carry of a byte are digits, and make it up. -/
theorem byte_parts (a : UInt8) :
    UInt8.ofNat ((a.toNat >>> 2) <<< 2) ||| UInt8.ofNat (a.toNat &&& 3) = a ∧
      UInt8.ofNat ((a.toNat >>> 4) <<< 4) ||| UInt8.ofNat (a.toNat &&& 15) = a ∧
      UInt8.ofNat ((a.toNat >>> 6) <<< 6) ||| UInt8.ofNat (a.toNat &&& 63) = a ∧
      a.toNat >>> 2 < 64 ∧ a.toNat &&& 63 < 64 ∧ (a.toNat &&& 3) <<< 4 < 64 ∧
      (a.toNat &&& 15) <<< 2 < 64 := by
  revert a
  apply forall_byte
  decide +kernel

/-- A digit that carries the end of one byte and the start of the next is taken apart. -/
theorem split_second {a b : Nat} (hb : b < 256) : (((a &&& 3) <<< 4) + (b >>> 4)) >>> 4 = a &&& 3 ∧
    ((((a &&& 3) <<< 4) + (b >>> 4)) &&& 15) <<< 4 = (b >>> 4) <<< 4 ∧
    ((a &&& 3) <<< 4) + (b >>> 4) < 64 := by
  have ha : a &&& 3 = a % 4 := Nat.and_two_pow_sub_one_eq_mod a 2
  have hmod : ∀ n, n &&& 15 = n % 16 := fun n => Nat.and_two_pow_sub_one_eq_mod n 4
  simp only [ha, hmod, Nat.shiftLeft_eq, Nat.shiftRight_eq_div_pow]
  omega

theorem split_third {b c : Nat} (hc : c < 256) : (((b &&& 15) <<< 2) + (c >>> 6)) >>> 2 = b &&& 15 ∧
    ((((b &&& 15) <<< 2) + (c >>> 6)) &&& 3) <<< 6 = (c >>> 6) <<< 6 ∧
    ((b &&& 15) <<< 2) + (c >>> 6) < 64 := by
  have hb : b &&& 15 = b % 16 := Nat.and_two_pow_sub_one_eq_mod b 4
  have hmod : ∀ n, n &&& 3 = n % 4 := fun n => Nat.and_two_pow_sub_one_eq_mod n 2
  simp only [hb, hmod, Nat.shiftLeft_eq, Nat.shiftRight_eq_div_pow]
  omega

section Put

variable {i : Nat} {result : List UInt8}

theorem put_first (hi : i % 4 = 0) (last a : UInt8) :
    (DecodeState.mk i result last).put (a.toNat >>> 2) =
      ⟨i + 1, result, UInt8.ofNat ((a.toNat >>> 2) <<< 2)⟩ := by
  rw [DecodeState.put, hi]
  rfl

theorem put_second (hi : i % 4 = 1) (a : UInt8) {b : Nat} (hb : b < 256) :
    (DecodeState.mk i result (UInt8.ofNat ((a.toNat >>> 2) <<< 2))).put
        (((a.toNat &&& 3) <<< 4) + (b >>> 4)) =
      ⟨i + 1, result ++ [a], UInt8.ofNat ((b >>> 4) <<< 4)⟩ := by
  obtain ⟨hhigh, hlow, -⟩ := @split_second a.toNat b hb
  rw [DecodeState.put, hi]
  simp only [hhigh, hlow, (byte_parts a).1]

theorem put_third (hi : i % 4 = 2) (b : UInt8) {c : Nat} (hc : c < 256) :
    (DecodeState.mk i result (UInt8.ofNat ((b.toNat >>> 4) <<< 4))).put
        (((b.toNat &&& 15) <<< 2) + (c >>> 6)) =
      ⟨i + 1, result ++ [b], UInt8.ofNat ((c >>> 6) <<< 6)⟩ := by
  obtain ⟨hhigh, hlow, -⟩ := @split_third b.toNat c hc
  rw [DecodeState.put, hi]
  simp only [hhigh, hlow, (byte_parts b).2.1]

theorem put_fourth (hi : i % 4 = 3) (c : UInt8) :
    (DecodeState.mk i result (UInt8.ofNat ((c.toNat >>> 6) <<< 6))).put (c.toNat &&& 63) =
      ⟨i + 1, result ++ [c], UInt8.ofNat ((c.toNat >>> 6) <<< 6)⟩ := by
  rw [DecodeState.put, hi]
  simp only [(byte_parts c).2.2.1]

end Put

theorem decodeLoop_encode (strict : Bool) (s : List UInt8) {i : Nat} (hi : i % 4 = 0)
    (result : List UInt8) (last : UInt8) :
    ∃ st, decodeLoop strict (phpBase64Encode s) (phpBase64Encode s).length ⟨i, result, last⟩ =
      some (st, 0) ∧ st.result = result ++ s := by
  induction s using phpBase64Encode.induct generalizing i result last with
  | case1 a b c rest ih =>
    obtain ⟨-, -, -, ha, -⟩ := byte_parts a
    obtain ⟨-, -, hab⟩ := @split_second a.toNat b.toNat (UInt8.toNat_lt b)
    obtain ⟨-, -, hbc⟩ := @split_third b.toNat c.toNat (UInt8.toNat_lt c)
    obtain ⟨-, -, -, -, hc, -⟩ := byte_parts c
    obtain ⟨st, hrun, hresult⟩ := ih (show (i + 1 + 1 + 1 + 1) % 4 = 0 by omega)
      (result ++ [a] ++ [b] ++ [c]) (UInt8.ofNat ((c.toNat >>> 6) <<< 6))
    refine ⟨st, ?_, by simpa using hresult⟩
    rw [phpBase64Encode, decodeLoop_digit ha, decodeLoop_digit hab, decodeLoop_digit hbc,
      decodeLoop_digit hc,
      put_first hi, put_second (by omega) a (UInt8.toNat_lt b),
      put_third (by omega) b (UInt8.toNat_lt c), put_fourth (by omega) c]
    exact hrun
  | case2 a b =>
    obtain ⟨-, -, -, ha, -⟩ := byte_parts a
    obtain ⟨-, -, hab⟩ := @split_second a.toNat b.toNat (UInt8.toNat_lt b)
    obtain ⟨-, -, -, -, -, -, hb⟩ := byte_parts b
    have hlast : (b.toNat &&& 15) <<< 2 = ((b.toNat &&& 15) <<< 2) + (0 >>> 6) := rfl
    refine ⟨⟨i + 1 + 1 + 1, result ++ [a] ++ [b], UInt8.ofNat ((0 >>> 6) <<< 6)⟩, ?_, by simp⟩
    rw [phpBase64Encode, decodeLoop_digit ha, decodeLoop_digit hab, decodeLoop_digit hb,
      put_first hi, put_second (by omega) a (UInt8.toNat_lt b), hlast,
      put_third (by omega) b (by decide), decodeLoop_pad (.inl rfl) (by simp only; omega)]
    rfl
  | case3 a =>
    obtain ⟨-, -, -, ha, -, hlow, -⟩ := byte_parts a
    have hlast : (a.toNat &&& 3) <<< 4 = ((a.toNat &&& 3) <<< 4) + (0 >>> 4) := rfl
    refine ⟨⟨i + 1 + 1, result ++ [a], UInt8.ofNat ((0 >>> 4) <<< 4)⟩, ?_, rfl⟩
    rw [phpBase64Encode, decodeLoop_digit ha, decodeLoop_digit hlow, put_first hi, hlast,
      put_second (by omega) a (by decide), decodeLoop_pad (.inr rfl) (by simp only; omega)]
    rw [decodeLoop_pad (.inl rfl) (by simp only; omega)]
    rfl
  | case4 => exact ⟨⟨i, result, last⟩, rfl, (append_nil _).symm⟩

/-- Neither in the alphabet, nor `=`, nor white space. -/
def IsForeign (b : UInt8) : Prop :=
  b ≠ base64Pad ∧ reverse b = -2

instance (b : UInt8) : Decidable (IsForeign b) :=
  inferInstanceAs (Decidable (_ ∧ _))

/-- The text in front of the first `=`. -/
def inFront (s : List UInt8) : List UInt8 :=
  s.takeWhile (· ≠ base64Pad)

/-- The text behind the `=` signs that the first one starts. -/
def behindPadding (s : List UInt8) : List UInt8 :=
  (s.dropWhile (· ≠ base64Pad)).dropWhile (· = base64Pad)

/-- Whether the first padding of `s` stands behind whole bytes and no foreign byte, and behind
it are one byte, whatever it is, and what `isspace` accepts.  `i` digits come before `s`. -/
def Overlooked (i : Nat) (s : List UInt8) : Prop :=
  behindPadding s ≠ [] ∧ (∀ b ∈ inFront s, ¬IsForeign b) ∧
    (∀ b ∈ (behindPadding s).tail, isSpace b = true) ∧
    (i + (inFront s).countP fun b => decide (0 ≤ reverse b)) % 4 ≠ 1

instance (i : Nat) (s : List UInt8) : Decidable (Overlooked i s) :=
  inferInstanceAs (Decidable (_ ∧ _))

theorem overlooked_pad_pad {i : Nat} {current : List UInt8} (h : current.headD 0 = base64Pad) :
    Overlooked i (base64Pad :: current) ↔ Overlooked i current := by
  cases current with
  | nil => exact absurd h (by simp [base64Pad, byte])
  | cons ch rest =>
    obtain rfl : ch = base64Pad := h
    simp [Overlooked, inFront, behindPadding]

theorem overlooked_pad {i : Nat} {c : UInt8} {ws : List UInt8} (h : c ≠ base64Pad) :
    Overlooked i (base64Pad :: c :: ws) ↔ (∀ b ∈ ws, isSpace b = true) ∧ i % 4 ≠ 1 := by
  simp [Overlooked, inFront, behindPadding, h]

theorem overlooked_cons {i : Nat} {ch : UInt8} {current : List UInt8} (h : ch ≠ base64Pad) :
    Overlooked i (ch :: current) ↔
      ¬IsForeign ch ∧ Overlooked (if 0 ≤ reverse ch then i + 1 else i) current := by
  have hcount : i + ((inFront (ch :: current)).countP fun b => decide (0 ≤ reverse b)) =
      (if 0 ≤ reverse ch then i + 1 else i) +
        ((inFront current).countP fun b => decide (0 ≤ reverse b)) := by
    rw [inFront, takeWhile_cons_of_pos (by simpa using h), countP_cons]
    by_cases hdigit : 0 ≤ reverse ch
    · simp only [hdigit, decide_true, if_true, inFront]
      omega
    · simp only [hdigit, decide_false, if_false, inFront, Bool.false_eq_true, add_zero]
  have hbehind : behindPadding (ch :: current) = behindPadding current := by
    rw [behindPadding, dropWhile_cons_of_pos (by simpa using h), behindPadding]
  have hfront : inFront (ch :: current) = ch :: inFront current := by
    rw [inFront, takeWhile_cons_of_pos (by simpa using h), inFront]
  rw [Overlooked, hcount, hbehind, hfront, forall_mem_cons, Overlooked]
  tauto

/-- The byte that ends the loop on a text without NUL is the one behind it. -/
theorem decodeLoop_end {strict : Bool} {s : List UInt8} (h : 0 ∉ s) {st st' : DecodeState}
    {ch : UInt8} (hrun : decodeLoop strict s s.length st = some (st', ch)) : ch = 0 := by
  induction s generalizing st with
  | nil => simp_all [decodeLoop]
  | cons b current ih =>
    obtain ⟨hb, hcurrent⟩ : 0 ≠ b ∧ 0 ∉ current := by simpa using h
    rw [decodeLoop, if_neg (by simp [hb.symm]), length_cons, Nat.add_sub_cancel] at hrun
    split at hrun
    · split at hrun
      · split at hrun
        · simp_all
        · cases hrun
      · exact ih hcurrent hrun
    · split at hrun
      · exact ih hcurrent hrun
      · split at hrun
        · cases hrun
        · exact ih hcurrent hrun

theorem dropWhile_space {ws : List UInt8} (h : 0 ∉ ws) :
    (ws.dropWhile isSpace).headD 0 = 0 ↔ ∀ b ∈ ws, isSpace b = true := by
  induction ws with
  | nil => simp
  | cons b rest ih =>
    obtain ⟨hb, hrest⟩ : 0 ≠ b ∧ 0 ∉ rest := by simpa using h
    by_cases hspace : isSpace b = true
    · rw [dropWhile_cons_of_pos hspace, ih hrest, forall_mem_cons, and_iff_right hspace]
    · simp [dropWhile_cons_of_neg hspace, hspace, hb.symm]

theorem reverse_cases (ch : UInt8) : reverse ch = -2 ∨ reverse ch = -1 ∨ 0 ≤ reverse ch := by
  have htable : ∀ n ∈ base64ReverseTable, n = -2 ∨ n = -1 ∨ 0 ≤ n := by
    decide +kernel
  rw [reverse, getD_eq_getElem?_getD]
  cases hget : base64ReverseTable[ch.toNat]? with
  | none => exact .inl rfl
  | some n => exact htable n (mem_of_getElem? hget)

@[simp] theorem put_i (st : DecodeState) (ch : Nat) : (st.put ch).i = st.i + 1 := by
  rw [DecodeState.put]
  split <;> rfl

/-- With `strict` the loop gives up on a text with a foreign byte unless it overlooks the
byte. -/
theorem decodeLoop_strict {s : List UInt8} (hnul : 0 ∉ s) (hforeign : ∃ b ∈ s, IsForeign b)
    (st : DecodeState) : decodeLoop true s s.length st = none ↔ ¬Overlooked st.i s := by
  induction s generalizing st with
  | nil => exact absurd hforeign (by simp)
  | cons ch current ih =>
    obtain ⟨hch, hcurrent⟩ : 0 ≠ ch ∧ 0 ∉ current := by simpa using hnul
    rw [decodeLoop, if_neg (by simp [hch.symm]), length_cons, Nat.add_sub_cancel]
    by_cases hpad : ch = base64Pad
    · have hrest : ∃ b ∈ current, IsForeign b := by
        obtain ⟨b, hb, hbad⟩ := hforeign
        rcases mem_cons.mp hb with rfl | hb
        · exact absurd hpad hbad.1
        · exact ⟨b, hb, hbad⟩
      rw [if_pos hpad, hpad]
      by_cases hnext : current.headD 0 = base64Pad
      · rw [if_neg fun h => h.1 hnext, overlooked_pad_pad hnext]
        exact ih hcurrent hrest st
      · obtain _ | ⟨c, ws⟩ := current
        · exact absurd hrest (by simp)
        have hws : 0 ∉ ws := fun hmem => hcurrent (mem_cons_of_mem c hmem)
        have hc : c ≠ base64Pad := hnext
        rw [if_pos ⟨hnext, .inr ⟨rfl, by simp⟩⟩, overlooked_pad hc, tail_cons,
          ← dropWhile_space hws]
        split
        · rename_i hkept
          exact iff_of_false (by simp) fun hnot => hnot ⟨hkept.2, hkept.1⟩
        · rename_i hlost
          exact iff_of_true rfl fun hkept => hlost ⟨hkept.2, hkept.1⟩
    · rw [if_neg hpad, overlooked_cons hpad]
      by_cases hbad : reverse ch = -2
      · rw [if_neg (by simp [hbad]), if_pos hbad]
        exact iff_of_true rfl fun hnot => hnot.1 ⟨hpad, hbad⟩
      · have hgood : ¬IsForeign ch := fun h => hbad h.2
        have hrest : ∃ b ∈ current, IsForeign b := by
          obtain ⟨b, hb, hforeign⟩ := hforeign
          rcases mem_cons.mp hb with rfl | hb
          · exact absurd hforeign hgood
          · exact ⟨b, hb, hforeign⟩
        by_cases hspace : reverse ch = -1
        · rw [if_pos (.inr hspace), if_neg (by omega), ih hcurrent hrest st]
          exact not_congr (and_iff_right hgood).symm
        · have hdigit := reverse_cases ch
          rw [if_neg (by simp [hspace]), if_neg hbad, if_pos (by omega),
            ih hcurrent hrest (st.put _), put_i]
          exact not_congr (and_iff_right hgood).symm

/-- A text with a foreign byte is rejected exactly when it is not overlooked. -/
theorem phpBase64DecodeEx_strict_iff {s : List UInt8} (hnul : 0 ∉ s)
    (hforeign : ∃ b ∈ s, IsForeign b) : phpBase64DecodeEx s true = none ↔ ¬Overlooked 0 s := by
  rw [← decodeLoop_strict hnul hforeign ⟨0, [], 0⟩, phpBase64DecodeEx]
  cases hrun : decodeLoop true s s.length ⟨0, [], 0⟩ with
  | none => simp
  | some final =>
    obtain ⟨st, ch⟩ := final
    have hend : ch = 0 := decodeLoop_end hnul hrun
    subst hend
    simp [base64Pad, byte]

/-- `"Y!Q="`: the foreign byte stands in front of the padding. -/
theorem phpBase64DecodeEx_strict_front : phpBase64DecodeEx ("Y!Q=".toList.map byte) true = none :=
  (phpBase64DecodeEx_strict_iff (by decide +kernel)
    ⟨byte '!', by decide, by decide⟩).mpr (by decide)

/-- `"YQ=!"` is decoded. -/
theorem phpBase64DecodeEx_overlooks :
    0 ∉ "YQ=!".toList.map byte ∧ (∃ b ∈ "YQ=!".toList.map byte, IsForeign b) ∧
      phpBase64DecodeEx ("YQ=!".toList.map byte) true = some ("a".toList.map byte) := by
  refine ⟨by decide, ⟨byte '!', by decide, by decide⟩, by decide⟩

end Base64

end PhpEngine

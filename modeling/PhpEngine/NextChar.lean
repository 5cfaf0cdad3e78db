/-
`get_next_char` of ext/standard/html.c in the charset `cs_utf_8`, and `php_utf32_utf8`.
-/
import PhpEngine.Decimal
import Mathlib.Data.List.Infix
import Mathlib.Tactic.SplitIfs

namespace PhpEngine.NextChar

open List

/-- The macro `utf8_lead`. -/
def utf8Lead (c : Nat) : Prop :=
  c < 0x80 ∨ 0xC2 ≤ c ∧ c ≤ 0xF4

instance (c : Nat) : Decidable (utf8Lead c) :=
  inferInstanceAs (Decidable (_ ∨ _))

/-- The macro `utf8_trail`. -/
def utf8Trail (c : Nat) : Prop :=
  0x80 ≤ c ∧ c ≤ 0xBF

instance (c : Nat) : Decidable (utf8Trail c) :=
  inferInstanceAs (Decidable (_ ∧ _))

section Decoding

variable (str : List UInt8) (pos : Nat)

/-- `str[pos + i]` -/
def byteAt (i : Nat) : Nat :=
  (str.getD (pos + i) 0).toNat

/-- The branch `c < 0xe0`. -/
def twoBytes : Option Nat × Nat :=
  if str.length - pos < 2 then (none, pos + 1)
  else if ¬utf8Trail (byteAt str pos 1) then
    (none, pos + if utf8Lead (byteAt str pos 1) then 1 else 2)
  else
    let thisChar := (byteAt str pos 0 &&& 0x1f) <<< 6 ||| byteAt str pos 1 &&& 0x3f
    if thisChar < 0x80 then (none, pos + 2) else (some thisChar, pos + 2)

/-- The branch `c < 0xf0`. -/
def threeBytes : Option Nat × Nat :=
  let avail := str.length - pos
  if avail < 3 ∨ ¬utf8Trail (byteAt str pos 1) ∨ ¬utf8Trail (byteAt str pos 2) then
    if avail < 2 ∨ utf8Lead (byteAt str pos 1) then (none, pos + 1)
    else if avail < 3 ∨ utf8Lead (byteAt str pos 2) then (none, pos + 2)
    else (none, pos + 3)
  else
    let thisChar := (byteAt str pos 0 &&& 0x0f) <<< 12 ||| (byteAt str pos 1 &&& 0x3f) <<< 6 |||
      byteAt str pos 2 &&& 0x3f
    if thisChar < 0x800 then (none, pos + 3)
    else if 0xd800 ≤ thisChar ∧ thisChar ≤ 0xdfff then (none, pos + 3)
    else (some thisChar, pos + 3)

/-- The branch `c < 0xf5`. -/
def fourBytes : Option Nat × Nat :=
  let avail := str.length - pos
  if avail < 4 ∨ ¬utf8Trail (byteAt str pos 1) ∨ ¬utf8Trail (byteAt str pos 2) ∨
      ¬utf8Trail (byteAt str pos 3) then
    if avail < 2 ∨ utf8Lead (byteAt str pos 1) then (none, pos + 1)
    else if avail < 3 ∨ utf8Lead (byteAt str pos 2) then (none, pos + 2)
    else if avail < 4 ∨ utf8Lead (byteAt str pos 3) then (none, pos + 3)
    else (none, pos + 4)
  else
    let thisChar := (byteAt str pos 0 &&& 0x07) <<< 18 ||| (byteAt str pos 1 &&& 0x3f) <<< 12 |||
      (byteAt str pos 2 &&& 0x3f) <<< 6 ||| byteAt str pos 3 &&& 0x3f
    if thisChar < 0x10000 ∨ 0x10FFFF < thisChar then (none, pos + 4)
    else (some thisChar, pos + 4)

/-- `get_next_char` with `cs_utf_8`: the character, where `*status` is `SUCCESS`, and
`*cursor`. -/
def getNextChar : Option Nat × Nat :=
  let c := byteAt str pos 0
  if str.length - pos < 1 then (none, pos + 1)
  else if c < 0x80 then (some c, pos + 1)
  else if c < 0xc2 then (none, pos + 1)
  else if c < 0xe0 then twoBytes str pos
  else if c < 0xf0 then threeBytes str pos
  else if c < 0xf5 then fourBytes str pos
  else (none, pos + 1)

end Decoding

/-- `php_utf32_utf8`: what it writes to `buf`. -/
def phpUtf32Utf8 (k : Nat) : List UInt8 :=
  if k < 0x80 then [UInt8.ofNat k]
  else if k < 0x800 then [UInt8.ofNat (0xc0 ||| k >>> 6), UInt8.ofNat (0x80 ||| k &&& 0x3f)]
  else if k < 0x10000 then
    [UInt8.ofNat (0xe0 ||| k >>> 12), UInt8.ofNat (0x80 ||| k >>> 6 &&& 0x3f),
      UInt8.ofNat (0x80 ||| k &&& 0x3f)]
  else
    [UInt8.ofNat (0xf0 ||| k >>> 18), UInt8.ofNat (0x80 ||| k >>> 12 &&& 0x3f),
      UInt8.ofNat (0x80 ||| k >>> 6 &&& 0x3f), UInt8.ofNat (0x80 ||| k &&& 0x3f)]

theorem or_eq_add (i : Nat) {a b : Nat} (ha : a % 2 ^ i = 0) (hb : b < 2 ^ i) :
    a ||| b = a + b := by
  have h := Nat.shiftLeft_add_eq_or_of_lt hb (a / 2 ^ i)
  rw [Nat.shiftLeft_eq, Nat.div_mul_cancel (Nat.dvd_of_mod_eq_zero ha)] at h
  exact h.symm

theorem and_low (k i : Nat) : k &&& 2 ^ i - 1 = k % 2 ^ i :=
  Nat.and_two_pow_sub_one_eq_mod k i

theorem six_bits (k : Nat) : k &&& 0x3f = k % 64 :=
  and_low k 6

theorem mod_lt_six (k : Nat) : k % 64 < 2 ^ 6 :=
  Nat.mod_lt k (by decide)

theorem trail_eq (k : Nat) : 0x80 ||| k &&& 0x3f = k % 64 + 0x80 := by
  rw [six_bits, or_eq_add 6 (by rfl) (mod_lt_six k), Nat.add_comm]

theorem two_eq (c c₁ : Nat) : (c &&& 0x1f) <<< 6 ||| c₁ &&& 0x3f = c % 32 * 64 + c₁ % 64 := by
  rw [six_bits, show c &&& 0x1f = c % 32 from and_low c 5, Nat.shiftLeft_eq,
    or_eq_add 6 (by omega) (mod_lt_six c₁)]

theorem three_eq (c c₁ c₂ : Nat) :
    (c &&& 0x0f) <<< 12 ||| (c₁ &&& 0x3f) <<< 6 ||| c₂ &&& 0x3f =
      c % 16 * 4096 + c₁ % 64 * 64 + c₂ % 64 := by
  rw [six_bits, six_bits, show c &&& 0x0f = c % 16 from and_low c 4, Nat.shiftLeft_eq,
    Nat.shiftLeft_eq, or_eq_add 12 (a := c % 16 * 2 ^ 12) (by omega) (by omega),
    or_eq_add 6 (by omega) (mod_lt_six c₂)]

theorem four_eq (c c₁ c₂ c₃ : Nat) :
    (c &&& 0x07) <<< 18 ||| (c₁ &&& 0x3f) <<< 12 ||| (c₂ &&& 0x3f) <<< 6 ||| c₃ &&& 0x3f =
      c % 8 * 262144 + c₁ % 64 * 4096 + c₂ % 64 * 64 + c₃ % 64 := by
  rw [six_bits, six_bits, six_bits, show c &&& 0x07 = c % 8 from and_low c 3, Nat.shiftLeft_eq,
    Nat.shiftLeft_eq, Nat.shiftLeft_eq, or_eq_add 18 (a := c % 8 * 2 ^ 18) (by omega) (by omega),
    or_eq_add 12 (a := c % 8 * 2 ^ 18 + _) (by omega) (by omega),
    or_eq_add 6 (by omega) (mod_lt_six c₃)]

theorem toNat_lt (ch : Char) : ch.toNat < 0xd800 ∨ 0xdfff < ch.toNat ∧ ch.toNat < 0x110000 :=
  ch.valid

theorem phpUtf32Utf8_eq (ch : Char) : phpUtf32Utf8 ch.toNat = String.utf8EncodeChar ch := by
  have hvalid := toNat_lt ch
  have hk : ch.val.toNat = ch.toNat := rfl
  rw [phpUtf32Utf8, String.utf8EncodeChar, hk]
  simp only [trail_eq, Nat.shiftRight_eq_div_pow, Nat.reducePow]
  split_ifs
  any_goals omega
  · rfl
  · rw [or_eq_add 6 (by rfl) (by omega), Nat.mod_eq_of_lt (a := ch.toNat / 64) (by omega),
      Nat.add_comm 0xc0]
  · rw [or_eq_add 5 (by rfl) (by omega), Nat.mod_eq_of_lt (a := ch.toNat / 4096) (by omega),
      Nat.add_comm 0xe0]
  · rw [or_eq_add 4 (by rfl) (by omega), Nat.mod_eq_of_lt (a := ch.toNat / 262144) (by omega),
      Nat.add_comm 0xf0]

section Cursor

variable {str : List UInt8} {pos : Nat}

/-- The bytes of a character, as a cursor on them sees them. -/
def Sees (str : List UInt8) (pos k : Nat) : Prop :=
  let b := byteAt str pos
  if k ≤ 0x7f then pos < str.length ∧ b 0 = k
  else if k ≤ 0x7ff then pos + 1 < str.length ∧ b 0 = k / 64 + 0xc0 ∧ b 1 = k % 64 + 0x80
  else if k ≤ 0xffff then
    pos + 2 < str.length ∧ b 0 = k / 4096 + 0xe0 ∧ b 1 = k / 64 % 64 + 0x80 ∧ b 2 = k % 64 + 0x80
  else
    pos + 3 < str.length ∧ b 0 = k / 262144 + 0xf0 ∧ b 1 = k / 4096 % 64 + 0x80 ∧
      b 2 = k / 64 % 64 + 0x80 ∧ b 3 = k % 64 + 0x80

theorem cons_prefix_drop {b : UInt8} {bs : List UInt8} (i : Nat) :
    b :: bs <+: str.drop (pos + i) ↔
      pos + i < str.length ∧ byteAt str pos i = b.toNat ∧ bs <+: str.drop (pos + (i + 1)) := by
  rcases Nat.lt_or_ge (pos + i) str.length with hlt | hge
  · rw [drop_eq_getElem_cons hlt, cons_prefix_cons, byteAt, UInt8.toNat_inj, eq_comm]
    simp [hlt, Nat.add_assoc]
  · simp [drop_of_length_le hge, Nat.not_lt.mpr hge]

theorem prefix_drop_iff (ch : Char) :
    phpUtf32Utf8 ch.toNat <+: str.drop pos ↔ Sees str pos ch.toNat := by
  have hvalid := toNat_lt ch
  rw [phpUtf32Utf8_eq, String.utf8EncodeChar, show ch.val.toNat = ch.toNat from rfl, Sees,
    show str.drop pos = str.drop (pos + 0) from rfl]
  split_ifs
  all_goals
    simp only [cons_prefix_drop, nil_prefix, and_true, UInt8.toNat_ofNat', Nat.reduceAdd]
    simp (disch := omega) only [Nat.mod_eq_of_lt]
    omega

theorem getNextChar_of_sees {k : Nat} (hk : k < 0xd800 ∨ 0xdfff < k ∧ k < 0x110000)
    (h : Sees str pos k) :
    getNextChar str pos = (some k, pos + (phpUtf32Utf8 k).length) := by
  rw [Sees] at h
  rw [getNextChar, phpUtf32Utf8]
  split_ifs at h with hone htwo hthree
  · rw [if_neg (by omega), if_pos (by omega), if_pos (by omega), h.2]
    rfl
  · rw [if_neg (by omega), if_neg (by omega), if_neg (by omega), if_pos (by omega),
      if_neg (by omega), if_pos (by omega), twoBytes, two_eq, if_neg (by omega),
      if_neg (not_not.mpr (by rw [utf8Trail]; omega)), if_neg (by omega)]
    exact Prod.ext (congrArg some (by omega)) rfl
  · rw [if_neg (by omega), if_neg (by omega), if_neg (by omega), if_neg (by omega),
      if_pos (by omega), if_neg (by omega), if_neg (by omega), if_pos (by omega), threeBytes,
      three_eq, if_neg (by simp only [utf8Trail]; omega), if_neg (by omega), if_neg (by omega)]
    exact Prod.ext (congrArg some (by omega)) rfl
  · rw [if_neg (by omega), if_neg (by omega), if_neg (by omega), if_neg (by omega),
      if_neg (by omega), if_pos (by omega), if_neg (by omega), if_neg (by omega),
      if_neg (by omega), fourBytes, four_eq, if_neg (by simp only [utf8Trail]; omega),
      if_neg (by omega)]
    exact Prod.ext (congrArg some (by omega)) rfl

/-- What the results of `get_next_char` stand for. -/
def Sound (str : List UInt8) (pos : Nat) : Option Nat × Nat → Prop
  | (some k, _) => (k < 0xd800 ∨ 0xdfff < k ∧ k < 0x110000) ∧ Sees str pos k
  | (none, next) => pos < next ∧ next ≤ str.length ∧
    ∀ i, 0 < i → pos + i < next → ¬utf8Lead (byteAt str pos i)

theorem sound_none {n : Nat} (h : 0 < n ∧ n < 5 ∧ pos + n ≤ str.length ∧
      (1 < n → ¬utf8Lead (byteAt str pos 1)) ∧ (2 < n → ¬utf8Lead (byteAt str pos 2)) ∧
      (3 < n → ¬utf8Lead (byteAt str pos 3))) :
    Sound str pos (none, pos + n) := by
  obtain ⟨hpos, hn, hle, hone, htwo, hthree⟩ := h
  refine ⟨by omega, hle, fun i hi hlt => ?_⟩
  obtain rfl | rfl | rfl : i = 1 ∨ i = 2 ∨ i = 3 := by omega
  · exact hone (by omega)
  · exact htwo (by omega)
  · exact hthree (by omega)

section Sequences

variable (hpos : pos < str.length)
include hpos

theorem sound_twoBytes (hlow : 0xc2 ≤ byteAt str pos 0) (hhigh : byteAt str pos 0 < 0xe0) :
    Sound str pos (twoBytes str pos) := by
  simp only [twoBytes, two_eq]
  split_ifs
  any_goals
    refine sound_none ?_
    simp only [utf8Lead, utf8Trail] at *
    omega
  simp only [utf8Trail] at *
  refine ⟨by omega, ?_⟩
  rw [Sees, if_neg (by omega), if_pos (by omega)]
  omega

theorem sound_threeBytes (hlow : 0xe0 ≤ byteAt str pos 0) (hhigh : byteAt str pos 0 < 0xf0) :
    Sound str pos (threeBytes str pos) := by
  simp only [threeBytes, three_eq]
  split_ifs
  any_goals
    refine sound_none ?_
    simp only [utf8Lead, utf8Trail] at *
    omega
  simp only [utf8Trail] at *
  refine ⟨by omega, ?_⟩
  rw [Sees, if_neg (by omega), if_neg (by omega), if_pos (by omega)]
  omega

theorem sound_fourBytes (hlow : 0xf0 ≤ byteAt str pos 0) (hhigh : byteAt str pos 0 < 0xf5) :
    Sound str pos (fourBytes str pos) := by
  simp only [fourBytes, four_eq]
  split_ifs
  any_goals
    refine sound_none ?_
    simp only [utf8Lead, utf8Trail] at *
    omega
  simp only [utf8Trail] at *
  refine ⟨by omega, ?_⟩
  rw [Sees, if_neg (by omega), if_neg (by omega), if_neg (by omega)]
  omega

theorem sound_getNextChar : Sound str pos (getNextChar str pos) := by
  simp only [getNextChar]
  split_ifs
  · omega
  · refine ⟨by omega, ?_⟩
    rw [Sees, if_pos (by omega)]
    omega
  · exact sound_none (by omega)
  · exact sound_twoBytes hpos (by omega) (by omega)
  · exact sound_threeBytes hpos (by omega) (by omega)
  · exact sound_fourBytes hpos (by omega) (by omega)
  · exact sound_none (by omega)

theorem getNextChar_some {k next : Nat} (h : getNextChar str pos = (some k, next)) :
    ∃ ch : Char, ch.toNat = k ∧ phpUtf32Utf8 k <+: str.drop pos ∧
      next = pos + (phpUtf32Utf8 k).length := by
  have hsound := sound_getNextChar hpos
  rw [h] at hsound
  obtain ⟨hk, hsees⟩ := hsound
  have hnext := congrArg Prod.snd (h.symm.trans (getNextChar_of_sees hk hsees))
  exact ⟨Char.ofNatAux k hk, rfl, (prefix_drop_iff (Char.ofNatAux k hk)).mpr hsees, hnext⟩

/-- UTF-8 is decoded where a character starts and nowhere else, and a failure skips, behind the
cursor, no byte that may begin one. -/
theorem getNextChar_correct :
    (∀ k next, getNextChar str pos = (some k, next) ↔ ∃ ch : Char, ch.toNat = k ∧
      String.utf8EncodeChar ch <+: str.drop pos ∧
      next = pos + (String.utf8EncodeChar ch).length) ∧
    (∀ k next, getNextChar str pos = (some k, next) →
      phpUtf32Utf8 k = (str.drop pos).take (next - pos)) ∧
    ∀ next, getNextChar str pos = (none, next) → pos < next ∧ next ≤ str.length ∧
      ∀ i, 0 < i → pos + i < next → ¬utf8Lead (byteAt str pos i) := by
  refine ⟨fun k next => ⟨fun h => ?_, ?_⟩, fun k next h => ?_, fun next h => ?_⟩
  · obtain ⟨ch, rfl, hread⟩ := getNextChar_some hpos h
    rw [phpUtf32Utf8_eq] at hread
    exact ⟨ch, rfl, hread⟩
  · rintro ⟨ch, rfl, hprefix, rfl⟩
    rw [← phpUtf32Utf8_eq] at *
    exact getNextChar_of_sees (toNat_lt ch) ((prefix_drop_iff ch).mp hprefix)
  · obtain ⟨-, -, hprefix, rfl⟩ := getNextChar_some hpos h
    rw [Nat.add_sub_cancel_left]
    exact prefix_iff_eq_take.mp hprefix
  · have hsound := sound_getNextChar hpos
    rw [h] at hsound
    exact hsound

end Sequences

end Cursor

theorem getNextChar_correct_euro :
    phpUtf32Utf8 0x20ac = [0xe2, 0x82, 0xac] :=
  (@getNextChar_correct [0xe2, 0x82, 0xac] 0 (by decide)).2.1 0x20ac 3 (by decide)

end PhpEngine.NextChar

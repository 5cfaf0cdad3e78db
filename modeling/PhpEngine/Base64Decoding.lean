/-
The filter `convert.base64-decode`.  However its input is split into portions
and whatever the sizes of the buffers, it decodes as one call on all the input
does, and it reads back what `php_base64_encode` has written.
-/
import PhpEngine.Base64
import Mathlib.Data.List.GetD

namespace PhpEngine

open List

theorem or_again {x y k : Nat} (h : y = 0 ∨ y % 2 ^ k = x % 2 ^ k) :
    (x ||| y) % 2 ^ k = x % 2 ^ k := by
  rw [Nat.or_mod_two_pow]
  rcases h with rfl | h
  · rw [Nat.zero_mod, Nat.or_zero]
  · rw [h, Nat.or_self]

theorem or_behind {y j : Nat} (x : Nat) (hy : y < 2 ^ j) : x * 2 ^ j ||| y = x * 2 ^ j + y := by
  rw [mul_comm, Nat.two_pow_add_eq_or_of_lt hy]

/-- The low bits of a word, moved to the left end of a window. -/
theorem shift_mod {j k : Nat} (x : Nat) : x * 2 ^ j % 2 ^ (k + j) = x % 2 ^ k * 2 ^ j := by
  rw [Nat.pow_add, Nat.mul_mod_mul_right]

theorem div_mod {j k : Nat} (x : Nat) : x / 2 ^ j % 2 ^ k = x % 2 ^ (k + j) / 2 ^ j := by
  rw [add_comm, Nat.pow_add, Nat.mod_mul_right_div_self]

theorem shlUint_mod {j k : Nat} (x : Nat) (hk : k ≤ 32) :
    shlUint x j % 2 ^ k = x * 2 ^ j % 2 ^ k := by
  rw [shlUint, uintMod, Nat.shiftLeft_eq]
  exact Nat.mod_mod_of_dvd _ (Nat.pow_dvd_pow 2 hk)

theorem bmask_eq {a : Nat} (ha : a ≤ 16) : bmask a = 2 ^ a - 1 := by
  have h : ∀ a : Fin 17, bmask a.val = 2 ^ a.val - 1 := by decide
  exact h ⟨a, by omega⟩

theorem and_bmask {a : Nat} (x : Nat) (ha : a ≤ 16) : x &&& bmask a = x % 2 ^ a := by
  rw [bmask_eq ha, Nat.and_two_pow_sub_one_eq_mod]

namespace Base64Decode

/-- From `n` bits with the value `x`: the byte in front, if there is one, and
the bits behind it. -/
def settle (n x : Nat) : List UInt8 × Nat × Nat :=
  if n < 8 then ([], n, x)
  else ([UInt8.ofNat (x / 2 ^ (n - 8))], n - 8, x % 2 ^ (n - 8))

/-- What the characters decode to behind `n` bits with the value `x`, and
whether the text may end as it does. -/
def decodeChars : Nat → Nat → Bool → List UInt8 → List UInt8 × Bool
  | n, _, padded, [] => ([], padded || n == 0)
  | n, x, padded, b :: rest =>
    if b64Dec b < 64 then
      if padded then ([], false)
      else
        let s := settle (n + 6) (x * 64 + b64Dec b)
        let r := decodeChars s.2.1 s.2.2 false rest
        (s.1 ++ r.1, r.2)
    else if b64Dec b = 128 ∨ padded then
      if n = 0 ∨ n = 6 then ([], false) else decodeChars n x true rest
    else decodeChars n x false rest

/-- The same, where a whole byte may be among the bits. -/
def decodeBits (n x : Nat) (padded : Bool) (f : List UInt8) : List UInt8 × Bool :=
  let s := settle n x
  let r := decodeChars s.2.1 s.2.2 padded f
  (s.1 ++ r.1, r.2)

/-- What is to come from the state of an instance on. -/
def decodeFrom (inst : Base64Decode) (f : List UInt8) : List UInt8 × Bool :=
  decodeBits inst.uremNbits (inst.urem % 2 ^ inst.uremNbits) (inst.ustat != 0) f

structure Valid (inst : Base64Decode) : Prop where
  nbits : inst.uremNbits ≤ 13
  ustat : inst.ustat = 0 ∨ inst.ustat = 0x80
  eos : inst.eos = (inst.ustat != 0)
  padded : inst.ustat ≠ 0 → inst.uremNbits < 8

/-- No whole byte is left. -/
structure Rest (inst : Base64Decode) : Prop extends Valid inst where
  few : inst.uremNbits < 8

/-- `pack` and `urem` hold `n` bits with the value `x`: as many as fit are in
`pack`, whose byte is what counts.  Bits that were moved to `pack` may still
be in `urem`. -/
structure Packed (n x : Nat) (v : Vars) : Prop where
  less : x < 2 ^ n
  bcnt : v.packBcnt = 8 - n
  nbits : v.uremNbits = n - 8
  pack : v.pack % 2 ^ 8 = x * 2 ^ (8 - n) / 2 ^ (n - 8)
  urem : v.urem = x % 2 ^ (n - 8) ∨ n ≤ 8 ∧ v.urem % 2 ^ n = x

/-- The bits are in `urem`, or those that fit are already in `pack`. -/
def Head (n x : Nat) (v : Vars) : Prop :=
  x < 2 ^ n ∧ v.pack = 0 ∧ v.packBcnt = 8 ∧ v.uremNbits = n ∧
    v.urem % 2 ^ n = x ∨ n < 8 ∧ Packed n x v

/-- The bits of `urem`, as they stand in the byte of `pack`. -/
theorem shlUint_byte {n x urem : Nat} (hn : n ≤ 8) (hurem : urem % 2 ^ n = x) :
    shlUint urem (8 - n) % 2 ^ 8 = x * 2 ^ (8 - n) := by
  have hshift := @shift_mod (8 - n) n urem
  rw [show n + (8 - n) = 8 by omega, hurem] at hshift
  rw [shlUint_mod _ (by decide), hshift]

namespace Packed

variable {n x : Nat} {v : Vars}

section

variable (h : Packed n x v)
include h

theorem pack_few (hn : n ≤ 8) : v.pack % 2 ^ 8 = x * 2 ^ (8 - n) := by
  rw [h.pack, show n - 8 = 0 by omega, Nat.pow_zero, Nat.div_one]

theorem pack_many (hn : 8 ≤ n) : v.pack % 2 ^ 8 = x / 2 ^ (n - 8) := by
  rw [h.pack, show 8 - n = 0 by omega, Nat.pow_zero, Nat.mul_one]

theorem urem_few (hn : n ≤ 8) : v.urem = 0 ∨ v.urem % 2 ^ n = x := by
  rcases h.urem with hurem | ⟨-, hurem⟩
  · rw [show n - 8 = 0 by omega, Nat.pow_zero, Nat.mod_one] at hurem
    exact .inl hurem
  · exact .inr hurem

theorem pack_again (hn : n ≤ 8) :
    (v.pack ||| shlUint v.urem (8 - n)) % 2 ^ 8 = v.pack % 2 ^ 8 := by
  apply or_again
  rcases h.urem_few hn with hurem | hurem
  · rw [hurem]
    exact .inl (by simp [shlUint])
  · rw [shlUint_byte hn hurem, h.pack_few hn]
    exact .inr rfl

theorem save_urem (hn : n ≤ 13) :
    v.save.uremNbits = n ∧ v.save.urem % 2 ^ n = x := by
  refine ⟨?_, ?_⟩
  · rw [Vars.save, h.bcnt, h.nbits]
    dsimp only
    omega
  by_cases hfew : n < 8
  · have hdiv := @div_mod (8 - n) n v.pack
    rw [show n + (8 - n) = 8 by omega, h.pack_few (by omega),
      Nat.mul_div_cancel _ (Nat.two_pow_pos _)] at hdiv
    have hsave : v.save.urem = (v.pack >>> (8 - n)) ||| v.urem := by
      rw [Vars.save, h.bcnt, h.nbits]
      rw [if_neg (by omega), Nat.or_comm, show 8 - n - (n - 8) = 8 - n by omega]
    rw [hsave, Nat.shiftRight_eq_div_pow]
    refine (or_again ?_).trans hdiv
    rw [hdiv]
    exact h.urem_few (by omega)
  · have hshift := @shift_mod (n - 8) 8 v.pack
    rw [show 8 + (n - 8) = n by omega, h.pack_many (by omega)] at hshift
    have hsave : v.save.urem = shlUint v.pack (n - 8) ||| v.urem := by
      rw [Vars.save, h.bcnt, h.nbits]
      rw [if_pos (by omega), Nat.or_comm, show n - 8 - (8 - n) = n - 8 by omega]
    rw [hsave, Nat.or_mod_two_pow, shlUint_mod _ (by omega), hshift]
    rcases h.urem with hurem | ⟨hle, hurem⟩
    · have hlow : v.urem < 2 ^ (n - 8) := by
        rw [hurem]
        exact Nat.mod_lt _ (Nat.two_pow_pos _)
      have hpow : 2 ^ (n - 8) ≤ 2 ^ n :=
        Nat.pow_le_pow_right (by decide) (by omega)
      rw [Nat.mod_eq_of_lt (by omega), or_behind _ hlow, hurem, Nat.div_add_mod']
    · rw [hurem, show n - 8 = 0 by omega, Nat.pow_zero, Nat.div_one, Nat.mul_one, Nat.or_self]

end

end Packed

theorem Head.mergeRem {n x : Nat} {v : Vars} (h : Head n x v) (hn : n ≤ 16) :
    Packed n x v.mergeRem := by
  rcases h with ⟨hless, hpack, hbcnt, hnbits, hurem⟩ | ⟨hfew, h⟩
  · by_cases hle : n ≤ 8
    · have hmerge : v.mergeRem = { v with
          packBcnt := 8 - n
          pack := 0 ||| shlUint v.urem (8 - n)
          uremNbits := 0 } := by
        rw [Vars.mergeRem, hbcnt, hnbits, hpack, if_pos hle]
      rw [hmerge]
      refine ⟨hless, rfl, by dsimp only; omega, ?_, .inr ⟨hle, hurem⟩⟩
      rw [Nat.zero_or, shlUint_byte hle hurem, show n - 8 = 0 by omega, Nat.pow_zero, Nat.div_one]
    · have hmerge : v.mergeRem = { v with
          uremNbits := n - 8
          pack := 0 ||| (v.urem >>> (n - 8))
          urem := v.urem &&& bmask (n - 8)
          packBcnt := 0 } := by
        rw [Vars.mergeRem, hbcnt, hnbits, hpack, if_neg hle]
      have hdiv := @div_mod (n - 8) 8 v.urem
      rw [show 8 + (n - 8) = n by omega, hurem] at hdiv
      have hlow : v.urem % 2 ^ (n - 8) = x % 2 ^ (n - 8) := by
        rw [← hurem, Nat.mod_mod_of_dvd _ (Nat.pow_dvd_pow 2 (by omega))]
      rw [hmerge]
      refine ⟨hless, by dsimp only; omega, rfl, ?_, .inl ?_⟩
      · dsimp only
        rw [Nat.zero_or, Nat.shiftRight_eq_div_pow, hdiv,
          show 8 - n = 0 by omega, Nat.pow_zero, Nat.mul_one]
      · dsimp only
        rw [and_bmask _ (by omega), hlow]
  · have hmerge : v.mergeRem = { v with
        packBcnt := 8 - n
        pack := v.pack ||| shlUint v.urem (8 - n)
        uremNbits := 0 } := by
      rw [Vars.mergeRem, h.bcnt, h.nbits, if_pos (by omega),
        show n - 8 = 0 by omega]
      rfl
    rw [hmerge]
    refine ⟨h.less, rfl, by dsimp only; omega, ?_, h.urem⟩
    exact (h.pack_again (by omega)).trans h.pack

theorem Packed.packBits {n x i : Nat} {v : Vars} (h : Packed n x v)
    (hn : n < 8) (hi : i < 64) : Packed (n + 6) (x * 64 + i) (v.packBits i) := by
  have hless : x * 64 + i < 2 ^ (n + 6) := by
    have := h.less
    rw [Nat.pow_add]
    omega
  by_cases hfits : n ≤ 2
  · have hpack : v.packBits i = { v with
        packBcnt := 2 - n
        pack := v.pack ||| shlUint i (2 - n)
        urem := 0 } := by
      rw [Vars.packBits, h.bcnt, if_pos (by omega),
        show 8 - n - 6 = 2 - n by omega]
    have hpow : 2 ^ (8 - n) = 64 * 2 ^ (2 - n) := by
      rw [show 8 - n = 6 + (2 - n) by omega, Nat.pow_add]
    have hsmall : i * 2 ^ (2 - n) < 2 ^ (8 - n) := by
      rw [hpow]
      exact Nat.mul_lt_mul_of_pos_right hi (Nat.two_pow_pos _)
    have hbyte : i * 2 ^ (2 - n) < 2 ^ 8 :=
      lt_of_lt_of_le hsmall (Nat.pow_le_pow_right (by decide) (by omega))
    rw [hpack]
    refine ⟨hless, by dsimp only; omega, ?_, ?_, .inl ?_⟩
    · dsimp only
      rw [h.nbits]
      omega
    · dsimp only
      rw [Nat.or_mod_two_pow, h.pack_few (by omega), shlUint_mod _ (by decide),
        Nat.mod_eq_of_lt hbyte, or_behind _ hsmall, hpow,
        show n + 6 - 8 = 0 by omega, show 8 - (n + 6) = 2 - n by omega,
        Nat.pow_zero, Nat.div_one]
      ring
    · dsimp only
      rw [show n + 6 - 8 = 0 by omega, Nat.pow_zero, Nat.mod_one]
  · have hpack : v.packBits i = { v with
        uremNbits := n - 2
        pack := v.pack ||| (i >>> (n - 2))
        urem := i &&& bmask (n - 2)
        packBcnt := 0 } := by
      rw [Vars.packBits, h.bcnt, if_neg (by omega),
        show 6 - (8 - n) = n - 2 by omega]
    have hpow : 64 = 2 ^ (8 - n) * 2 ^ (n - 2) := by
      rw [← Nat.pow_add, show 8 - n + (n - 2) = 6 by omega]
    have hsmall : i / 2 ^ (n - 2) < 2 ^ (8 - n) := by
      rw [Nat.div_lt_iff_lt_mul (Nat.two_pow_pos _), ← hpow]
      exact hi
    have hbyte : i / 2 ^ (n - 2) < 2 ^ 8 :=
      lt_of_lt_of_le hsmall (Nat.pow_le_pow_right (by decide) (by omega))
    have hall : x * 64 + i = i + x * 2 ^ (8 - n) * 2 ^ (n - 2) := by
      rw [Nat.mul_assoc, ← hpow, add_comm]
    rw [hpack]
    refine ⟨hless, by dsimp only; omega, by dsimp only; omega, ?_, .inl ?_⟩
    · dsimp only
      rw [Nat.or_mod_two_pow, h.pack_few (by omega),
        Nat.shiftRight_eq_div_pow, Nat.mod_eq_of_lt hbyte, or_behind _ hsmall,
        hall, show n + 6 - 8 = n - 2 by omega, show 8 - (n + 6) = 0 by omega,
        Nat.pow_zero, Nat.mul_one, Nat.add_mul_div_right _ _ (Nat.two_pow_pos _),
        add_comm]
    · dsimp only
      rw [and_bmask _ (by omega), hall, show n + 6 - 8 = n - 2 by omega, Nat.add_mul_mod_self_right]

/-- A byte is written, and the bits behind it stay in `urem`. -/
theorem Packed.head {n x : Nat} {v : Vars} (h : Packed n x v) (hn : 8 ≤ n) :
    Head (n - 8) (x % 2 ^ (n - 8)) { v with pack := 0, packBcnt := 8 } := by
  refine .inl ⟨Nat.mod_lt _ (Nat.two_pow_pos _), rfl, rfl, h.nbits, ?_⟩
  rcases h.urem with hurem | ⟨hle, -⟩
  · rw [hurem, Nat.mod_mod]
  · rw [show n - 8 = 0 by omega, Nat.pow_zero, Nat.mod_one, Nat.mod_one]

theorem Packed.byte {n x : Nat} {v : Vars} (h : Packed n x v) (hn : 8 ≤ n) :
    UInt8.ofNat v.pack = UInt8.ofNat (x / 2 ^ (n - 8)) := by
  rw [← h.pack_many hn]
  apply UInt8.toNat_inj.mp
  rw [UInt8.toNat_ofNat', UInt8.toNat_ofNat', Nat.mod_mod]

theorem b64Dec_cases (b : UInt8) : b64Dec b < 64 ∨ b64Dec b = 64 ∨ b64Dec b = 128 := by
  have htable : ∀ n ∈ b64TblDec, n < 64 ∨ n = 64 ∨ n = 128 := by
    decide +kernel
  rw [b64Dec, List.getD_eq_getElem?_getD]
  cases hget : b64TblDec[b.toNat]? with
  | none => exact .inr (.inl rfl)
  | some n => exact htable n (List.mem_of_getElem? hget)

/-- The variables that say whether there was padding. -/
structure Marks (padded : Bool) (v : Vars) : Prop where
  ustat : v.ustat = if padded then 0x80 else 0
  eos : v.eos = padded

theorem readChar_eq {n x : Nat} {padded : Bool} {v : Vars}
    (h : Packed n x v) (hn : n < 8) (hm : Marks padded v) (b : UInt8) : v.readChar b =
      if b64Dec b < 64 then
        if padded then none else some (v.packBits (b64Dec b)) else if b64Dec b = 128 ∨ padded then
        if n = 0 ∨ n = 6 then none else some { v with ustat := 0x80, eos := true }
      else some v := by
  have hends : (v.packBcnt = 8 ∨ v.packBcnt = 2) ↔ (n = 0 ∨ n = 6) := by
    rw [h.bcnt]
    omega
  obtain ⟨urem, uremNbits, ustat, eos, pack, packBcnt⟩ := v
  obtain ⟨hustat, heos⟩ := hm
  dsimp only at hustat heos hends
  subst heos hustat
  rw [Vars.readChar]
  rcases b64Dec_cases b with hvalue | hjunk | hpad
  · have hmasks : ∀ i : Fin 64, i.val &&& 0xc0 = 0 ∧ i.val &&& 0x80 = 0 := by
      decide
    obtain ⟨hlow, hhigh⟩ := hmasks ⟨_, hvalue⟩
    simp only [hhigh, Nat.or_zero, hlow, if_pos hvalue]
    cases eos with
    | false | true => rfl
  · simp only [hjunk, hends]
    cases eos with
    | false => rfl
    | true => simp
  · simp only [hpad, hends]
    cases eos with
    | false | true => simp

/-- The end of a turn of the loop: a byte is written, if there is one. -/
def putByte (fuel : Nat) (v : Vars) (input : List UInt8) (ocnt : Nat)
    (written : List UInt8) : ConvResult Base64Decode UInt8 UInt8 :=
  if v.packBcnt ||| v.ustat = 0 then
    if ocnt < 1 then ⟨.tooBig, v.save, input, written⟩
    else
      convertLoop fuel { v with pack := 0, packBcnt := 8 } input (ocnt - 1)
        (written ++ [UInt8.ofNat v.pack])
  else convertLoop fuel v input ocnt written

theorem convertLoop_succ (fuel : Nat) (v : Vars) (input : List UInt8)
    (ocnt : Nat) (written : List UInt8) : convertLoop (fuel + 1) v input ocnt written =
      if 0 < v.mergeRem.packBcnt then
        match input with
        | [] => ⟨.success, v.mergeRem.save, [], written⟩
        | b :: rest =>
          match v.mergeRem.readChar b with
          | none => ⟨.failed, v.mergeRem.save, rest, written⟩
          | some v => putByte fuel v rest ocnt written
      else putByte fuel v.mergeRem input ocnt written :=
  rfl

/-- What a call does that had to decode `input` behind `n` bits with the value
`x`, had room for `ocnt` bytes and had already written something. -/
structure Decodes (n x : Nat) (padded : Bool) (input : List UInt8)
    (ocnt : Nat) (written : List UInt8)
    (r : ConvResult Base64Decode UInt8 UInt8) : Prop where
  total : ∀ future, r.total decodeFrom future =
    (written ++ (decodeBits n x padded (input ++ future)).1,
      (decodeBits n x padded (input ++ future)).2)
  done : r.status = .success → r.left = [] ∧ Rest r.state
  valid : r.status = .tooBig → Valid r.state
  full : r.status = .tooBig → r.written.length = written.length + ocnt
  load : r.status = .tooBig → 8 ≤ r.state.uremNbits ∧
    r.state.uremNbits + 6 * r.left.length + 8 * r.written.length ≤
      n + 6 * input.length + 8 * written.length

theorem mergeRem_marks {padded : Bool} {v : Vars} (h : Marks padded v) :
    Marks padded v.mergeRem := by
  rw [Vars.mergeRem]
  split
  · exact ⟨h.ustat, h.eos⟩
  · exact ⟨h.ustat, h.eos⟩

theorem packBits_marks {padded : Bool} {v : Vars} (h : Marks padded v)
    (i : Nat) : Marks padded (v.packBits i) := by
  rw [Vars.packBits]
  split
  · exact ⟨h.ustat, h.eos⟩
  · exact ⟨h.ustat, h.eos⟩

theorem decodeBits_few {n x : Nat} (hn : n < 8) (padded : Bool)
    (f : List UInt8) : decodeBits n x padded f = decodeChars n x padded f := by
  rw [decodeBits, settle, if_pos hn]
  rfl

theorem decodeBits_many {n x : Nat} (hn : 8 ≤ n) (hn' : n < 16) (padded : Bool) (f : List UInt8) :
    decodeBits n x padded f = (UInt8.ofNat (x / 2 ^ (n - 8)) ::
        (decodeBits (n - 8) (x % 2 ^ (n - 8)) padded f).1,
      (decodeBits (n - 8) (x % 2 ^ (n - 8)) padded f).2) := by
  rw [decodeBits_few (show n - 8 < 8 by omega), decodeBits, settle, if_neg (by omega)]
  rfl

section Save

variable {n x : Nat} {padded : Bool} {v : Vars}

theorem save_ustat (h : Marks padded v) : (v.save.ustat != 0) = padded := by
  rw [Vars.save, h.ustat]
  cases padded with
  | false | true => rfl

theorem decodeFrom_save (h : Packed n x v) (hm : Marks padded v) (hn : n ≤ 13) (f : List UInt8) :
    decodeFrom v.save f = decodeBits n x padded f := by
  obtain ⟨hnbits, hurem⟩ := h.save_urem hn
  rw [decodeFrom, hnbits, hurem, save_ustat hm]

theorem save_valid (h : Packed n x v) (hm : Marks padded v) (hn : n ≤ 13)
    (hpadded : padded = true → n < 8) : Valid v.save where
  nbits := by
    rw [(h.save_urem hn).1]
    exact hn
  ustat := by
    rw [Vars.save, hm.ustat]
    cases padded with
    | false => exact .inl rfl
    | true => exact .inr rfl
  eos := (hm.eos).trans (save_ustat hm).symm
  padded := by
    intro hne
    have hpad : padded = true := by
      rw [← save_ustat hm]
      exact bne_iff_ne.mpr hne
    rw [(h.save_urem hn).1]
    exact hpadded hpad

end Save

theorem Decodes.stop {n x : Nat} {v : Vars} {input written : List UInt8}
    {ocnt : Nat} (h : Packed n x v) (hm : Marks false v) (hn : n ≤ 13)
    (hmany : 8 ≤ n) (hocnt : ocnt < 1) :
    Decodes n x false input ocnt written ⟨.tooBig, v.save, input, written⟩ where
  total := by
    intro future
    rw [← decodeFrom_save h hm hn]
    rfl
  done := nofun
  valid := fun _ => save_valid h hm hn nofun
  full := by
    dsimp only
    omega
  load := by
    intro _
    rw [(h.save_urem hn).1]
    exact ⟨hmany, le_rfl⟩

theorem Decodes.put {n x : Nat} {input written : List UInt8} {ocnt : Nat}
    {b : UInt8} {r : ConvResult Base64Decode UInt8 UInt8} (hn : n ≤ 13)
    (hmany : 8 ≤ n) (hocnt : ¬ ocnt < 1) (hb : b = UInt8.ofNat (x / 2 ^ (n - 8)))
    (h : Decodes (n - 8) (x % 2 ^ (n - 8)) false input (ocnt - 1) (written ++ [b]) r) :
    Decodes n x false input ocnt written r where
  total := by
    intro future
    rw [h.total future, decodeBits_many hmany (by omega), hb, append_assoc]
    rfl
  done := h.done
  valid := h.valid
  full := by
    intro hbig
    rw [h.full hbig, length_append, length_singleton]
    omega
  load := by
    intro hbig
    have hload := h.load hbig
    rw [length_append, length_singleton] at hload
    omega

theorem putByte_few {n x : Nat} {v : Vars} (h : Packed n x v) (hn : n < 8)
    (fuel : Nat) (input : List UInt8) (ocnt : Nat) (written : List UInt8) :
    putByte fuel v input ocnt written = convertLoop fuel v input ocnt written := by
  rw [putByte, if_neg]
  intro hzero
  have hbcnt := (Nat.or_eq_zero_iff.mp hzero).1
  rw [h.bcnt] at hbcnt
  omega

theorem putByte_decodes {fuel : Nat} {input : List UInt8}
    (hloop : ∀ {n x : Nat} {v : Vars} (ocnt : Nat) (written : List UInt8),
      Head n x v → n < 8 → Marks false v → Decodes n x false input ocnt written
        (convertLoop fuel v input ocnt written))
    {n x : Nat} {v : Vars} (h : Packed n x v) (hm : Marks false v)
    (hn : n ≤ 13) (ocnt : Nat) (written : List UInt8) : Decodes n x false input ocnt written
      (putByte fuel v input ocnt written) := by
  by_cases hfew : n < 8
  · rw [putByte_few h hfew]
    exact hloop ocnt written (.inr ⟨hfew, h⟩) hfew hm
  · have hzero : v.packBcnt ||| v.ustat = 0 := by
      rw [h.bcnt, hm.ustat, show 8 - n = 0 by omega]
      rfl
    rw [putByte, if_pos hzero]
    by_cases hocnt : ocnt < 1
    · rw [if_pos hocnt]
      exact .stop h hm hn (by omega) hocnt
    · rw [if_neg hocnt]
      exact .put hn (by omega) hocnt (h.byte (by omega))
        (hloop _ _ (h.head (by omega)) (by omega) ⟨hm.ustat, hm.eos⟩)

theorem Decodes.char {n x n' x' : Nat} {padded padded' : Bool} {b : UInt8}
    {rest written : List UInt8} {ocnt : Nat}
    {r : ConvResult Base64Decode UInt8 UInt8} (hn : n' ≤ n + 6)
    (hchar : ∀ future, decodeBits n x padded (b :: future) = decodeBits n' x' padded' future)
    (h : Decodes n' x' padded' rest ocnt written r) :
    Decodes n x padded (b :: rest) ocnt written r where
  total := by
    intro future
    rw [h.total future, cons_append, hchar]
  done := h.done
  valid := h.valid
  full := h.full
  load := by
    intro hbig
    have hload := h.load hbig
    rw [length_cons]
    omega

theorem Decodes.fail {n x : Nat} {padded : Bool} {b : UInt8}
    {rest written : List UInt8} {ocnt : Nat} {inst : Base64Decode}
    (hchar : ∀ future, decodeBits n x padded (b :: future) = ([], false)) :
    Decodes n x padded (b :: rest) ocnt written ⟨.failed, inst, rest, written⟩ where
  total := by
    intro future
    rw [cons_append, hchar, append_nil]
    rfl
  done := nofun
  valid := nofun
  full := nofun
  load := nofun

theorem convertLoop_decodes {n x : Nat} {padded : Bool} {v : Vars}
    (h : Head n x v) (hn : n < 8) (hm : Marks padded v)
    (input : List UInt8) {fuel : Nat} (hfuel : input.length < fuel)
    (ocnt : Nat) (written : List UInt8) : Decodes n x padded input ocnt written
      (convertLoop fuel v input ocnt written) := by
  induction input generalizing n x padded v fuel ocnt written with
  | nil =>
    obtain ⟨fuel, rfl⟩ := Nat.exists_eq_succ_of_ne_zero (by omega : fuel ≠ 0)
    have hmerge := h.mergeRem (by omega)
    have hmarks := mergeRem_marks hm
    rw [Nat.succ_eq_add_one, convertLoop_succ, hmerge.bcnt, if_pos (by omega)]
    refine ⟨?_, ?_, nofun, nofun, nofun⟩
    · intro future
      rw [ConvResult.total]
      rw [decodeFrom_save hmerge hmarks (by omega)]
    · intro _
      refine ⟨rfl, save_valid hmerge hmarks (by omega) fun _ => hn, ?_⟩
      rw [(hmerge.save_urem (by omega)).1]
      exact hn
  | cons b rest ih =>
    obtain ⟨fuel, rfl⟩ := Nat.exists_eq_succ_of_ne_zero (by omega : fuel ≠ 0)
    rw [length_cons] at hfuel
    have hmerge := h.mergeRem (by omega)
    have hmarks := mergeRem_marks hm
    rw [Nat.succ_eq_add_one, convertLoop_succ, hmerge.bcnt, if_pos (by omega)]
    dsimp only
    rw [readChar_eq hmerge hn hmarks]
    by_cases hvalue : b64Dec b < 64
    · simp only [if_pos hvalue]
      cases padded with
      | true =>
        refine .fail fun future => ?_
        rw [decodeBits_few hn, decodeChars, if_pos hvalue]
        rfl
      | false =>
        refine .char le_rfl (fun future => ?_) (putByte_decodes (fun ocnt written hhead hfew hm =>
            ih hhead hfew hm (by omega) ocnt written)
            (hmerge.packBits hn hvalue) (packBits_marks hmarks _)
            (by omega) ocnt written)
        rw [decodeBits_few hn, decodeChars, if_pos hvalue]
        rfl
    · simp only [if_neg hvalue]
      by_cases hpad : b64Dec b = 128 ∨ padded = true
      · simp only [if_pos hpad]
        by_cases hends : n = 0 ∨ n = 6
        · simp only [if_pos hends]
          refine .fail fun future => ?_
          rw [decodeBits_few hn, decodeChars, if_neg hvalue, if_pos hpad, if_pos hends]
        · simp only [if_neg hends]
          have hpacked : Packed n x { v.mergeRem with
              ustat := 0x80, eos := true } :=
            ⟨hmerge.less, hmerge.bcnt, hmerge.nbits, hmerge.pack, hmerge.urem⟩
          have hstep := ih (.inr ⟨hn, hpacked⟩) hn ⟨rfl, rfl⟩
            (show rest.length < fuel by omega) ocnt written
          rw [putByte_few hpacked hn]
          refine .char (by omega) (fun future => ?_) hstep
          rw [decodeBits_few hn, decodeBits_few hn, decodeChars,
            if_neg hvalue, if_pos hpad, if_neg hends]
      · simp only [if_neg hpad]
        have hfalse : padded = false := by
          cases padded with
          | false => rfl
          | true => exact absurd (.inr rfl) hpad
        have hstep := ih (.inr ⟨hn, hmerge⟩) hn hmarks
          (show rest.length < fuel by omega) ocnt written
        rw [putByte_few hmerge hn]
        refine .char (by omega) (fun future => ?_) hstep
        rw [decodeBits_few hn, decodeBits_few hn, decodeChars, if_neg hvalue, if_neg hpad, hfalse]

theorem convert_decodes {inst : Base64Decode} (h : Valid inst) (input : List UInt8) (room : Nat) :
    Decodes inst.uremNbits (inst.urem % 2 ^ inst.uremNbits)
      (inst.ustat != 0) input room [] (inst.convert input room) := by
  have hhead : Head inst.uremNbits (inst.urem % 2 ^ inst.uremNbits)
      { urem := inst.urem, uremNbits := inst.uremNbits, ustat := inst.ustat
        eos := inst.eos, pack := 0, packBcnt := 8 } :=
    .inl ⟨Nat.mod_lt _ (Nat.two_pow_pos _), rfl, rfl, rfl, rfl⟩
  have hmarks : Marks (inst.ustat != 0)
      { urem := inst.urem, uremNbits := inst.uremNbits, ustat := inst.ustat
        eos := inst.eos, pack := 0, packBcnt := 8 } := by
    refine ⟨?_, h.eos⟩
    rcases h.ustat with hustat | hustat
    · rw [hustat]
      rfl
    · rw [hustat]
      rfl
  rw [convert]
  by_cases hfew : inst.uremNbits < 8
  · exact convertLoop_decodes hhead hfew hmarks input (by omega) room []
  · have hfalse : (inst.ustat != 0) = false := by
      rw [bne_eq_false_iff_eq]
      by_contra hne
      exact hfew (h.padded hne)
    have hmerge := hhead.mergeRem (le_trans h.nbits (by decide))
    have hbcnt : ¬ 0 < 8 - inst.uremNbits := by omega
    rw [hfalse] at hmarks ⊢
    rw [convertLoop_succ, hmerge.bcnt, if_neg hbcnt]
    exact putByte_decodes (fun ocnt written hhead hfew hm =>
      convertLoop_decodes hhead hfew hm input (by omega) ocnt written)
      hmerge (mergeRem_marks hmarks) h.nbits room []

theorem flush_eq {inst : Base64Decode} (h : Rest inst) (room : Nat) :
    (inst.flush room).status ≠ .tooBig ∧ decodeFrom inst [] = ((inst.flush room).written,
        decide ((inst.flush room).status = .success)) := by
  have hrest : decodeFrom inst [] = ([], inst.ustat != 0 || inst.uremNbits == 0) := by
    rw [decodeFrom, decodeBits_few h.few, decodeChars]
  rw [hrest, flush]
  by_cases hend : inst.eos = true ∨ inst.uremNbits = 0
  · rw [if_pos hend]
    refine ⟨nofun, Prod.ext rfl ?_⟩
    rcases hend with heos | hnone
    · rw [← h.eos, heos]
      rfl
    · rw [hnone]
      exact Bool.or_true _
  · rw [if_neg hend]
    rw [← h.eos]
    simpa using hend

/-- One call on all the input, if there is room for as many bytes. -/
theorem drive_single (input : List UInt8) {room : Nat} (hroom : input.length ≤ room) (room' : Nat) :
    base64Decoder.drive [room, room'] ctor [input] = some (decodeFrom ctor input) := by
  have hctor : Valid ctor := ⟨by decide, .inl rfl, rfl, by decide⟩
  have hcall := convert_decodes hctor input room
  have htotal := hcall.total []
  rw [append_nil, ConvResult.total] at htotal
  rw [Converter.drive, Converter.turn]
  cases hst : (ctor.convert input room).status with
  | tooBig =>
    have hfull := hcall.full hst
    have hload := hcall.load hst
    have hempty : ctor.uremNbits = 0 := rfl
    omega
  | failed =>
    simp only [hst] at htotal
    simp only [base64Decoder, hst]
    exact congrArg some htotal
  | success =>
    obtain ⟨hleft, hrest⟩ := hcall.done hst
    obtain ⟨hnot, hflush⟩ := flush_eq hrest room'
    simp only [hst, hleft, nil_append, append_nil, hflush] at htotal
    simp only [base64Decoder, hst, Converter.drive, Converter.turn]
    cases hend : ((ctor.convert input room).state.flush room').status with
    | tooBig => exact absurd hend hnot
    | failed | success =>
      simp only [hend] at htotal ⊢
      exact congrArg some htotal

end Base64Decode

open Base64Decode

theorem base64Decoder_reads : base64Decoder.Reads Base64Decode.Valid Base64Decode.Rest decodeFrom
      (fun inst left => inst.uremNbits + 6 * left.length) 1 where
  rest_valid := fun _ h => h.toValid
  convert_total := by
    intro inst portion room future h
    exact (convert_decodes h portion room).total future
  convert_done := by
    intro inst portion room h
    exact (convert_decodes h portion room).done
  convert_more := by
    intro inst portion room h hbig
    have hcall := convert_decodes h portion room
    have hfull := hcall.full hbig
    have hload := (hcall.load hbig).2
    refine ⟨hcall.valid hbig, ?_, fun hroom => ?_⟩
    · change (inst.convert portion room).state.uremNbits +
        6 * (inst.convert portion room).left.length ≤ _
      omega
    · change (inst.convert portion room).state.uremNbits +
        6 * (inst.convert portion room).left.length < _
      omega
  flush_done := by
    intro inst room h _
    exact (flush_eq h room).2
  flush_more := by
    intro inst room h hbig
    exact absurd hbig (flush_eq h room).1

theorem b64Dec_base64Char {k : Nat} (hk : k < 64) : b64Dec (base64Char k) = k := by
  have htable : base64Table.map b64Dec = List.range 64 := by
    decide
  have hlength : k < (List.range 64).length := by
    rwa [List.length_range]
  rw [base64Char, ← List.getD_map _ _ b64Dec, htable, List.getD_eq_getElem _ _ hlength, List.getElem_range]

theorem decodeChars_base64Char {n k : Nat} (x : Nat) (hk : k < 64) (rest : List UInt8) :
    decodeChars n x false (base64Char k :: rest) = decodeBits (n + 6) (x * 64 + k) false rest := by
  rw [decodeChars, b64Dec_base64Char hk, if_pos hk]
  rfl

theorem decodeChars_two {i j : Nat} (hi : i < 64) (hj : j < 64) (rest : List UInt8) :
    decodeChars 0 0 false (base64Char i :: base64Char j :: rest) = (UInt8.ofNat (i * 4 + j / 16) ::
        (decodeChars 4 (j % 16) false rest).1, (decodeChars 4 (j % 16) false rest).2) := by
  have hbyte : (i * 64 + j) / 2 ^ (12 - 8) = i * 4 + j / 16 := by omega
  have hbits : (i * 64 + j) % 2 ^ (12 - 8) = j % 16 := by omega
  rw [decodeChars_base64Char 0 hi, decodeBits_few (by decide), Nat.zero_mul,
    zero_add i, decodeChars_base64Char i hj,
    decodeBits_many (by decide) (by decide), hbyte, hbits,
    decodeBits_few (by decide)]

theorem decodeChars_three {j k : Nat} (hk : k < 64) (rest : List UInt8) :
    decodeChars 4 j false (base64Char k :: rest) = (UInt8.ofNat (j * 16 + k / 4) ::
        (decodeChars 2 (k % 4) false rest).1, (decodeChars 2 (k % 4) false rest).2) := by
  have hbyte : (j * 64 + k) / 2 ^ (10 - 8) = j * 16 + k / 4 := by omega
  have hbits : (j * 64 + k) % 2 ^ (10 - 8) = k % 4 := by omega
  rw [decodeChars_base64Char j hk, decodeBits_many (by decide) (by decide),
    hbyte, hbits, decodeBits_few (by decide)]

theorem decodeChars_four {k l : Nat} (hl : l < 64) (rest : List UInt8) :
    decodeChars 2 k false (base64Char l :: rest) =
      (UInt8.ofNat (k * 64 + l) :: (decodeChars 0 0 false rest).1,
      (decodeChars 0 0 false rest).2) := by
  have hbyte : (k * 64 + l) / 2 ^ (8 - 8) = k * 64 + l := Nat.div_one _
  have hbits : (k * 64 + l) % 2 ^ (8 - 8) = 0 := Nat.mod_one _
  rw [decodeChars_base64Char k hl, decodeBits_many (by decide) (by decide),
    hbyte, hbits, decodeBits_few (by decide)]

theorem ofNat_of_eq {n : Nat} {b : UInt8} (h : n = b.toNat) : UInt8.ofNat n = b := by
  rw [h, UInt8.ofNat_toNat]

/-- Four characters of a whole group. -/
theorem decodeChars_group (a b c : UInt8) (rest : List UInt8) :
    decodeChars 0 0 false (base64Char (a.toNat >>> 2) ::
        base64Char ((a.toNat &&& 0x03) <<< 4 + b.toNat >>> 4) ::
        base64Char ((b.toNat &&& 0x0f) <<< 2 + c.toNat >>> 6) ::
        base64Char (c.toNat &&& 0x3f) :: rest) =
      (a :: b :: c :: (decodeChars 0 0 false rest).1, (decodeChars 0 0 false rest).2) := by
  have ha := a.toNat_lt
  have hb := b.toNat_lt
  have hc := c.toNat_lt
  rw [Nat.and_two_pow_sub_one_eq_mod a.toNat 2, Nat.and_two_pow_sub_one_eq_mod b.toNat 4,
    Nat.and_two_pow_sub_one_eq_mod c.toNat 6, Nat.shiftRight_eq_div_pow,
    decodeChars_two (by omega) (by omega), decodeChars_three (by omega),
    decodeChars_four (by omega), ofNat_of_eq (b := a) (by omega),
    ofNat_of_eq (b := b) (by omega), ofNat_of_eq (b := c) (by omega)]

theorem decodeChars_encode (s : List UInt8) :
    decodeChars 0 0 false (phpBase64Encode s) = (s, true) := by
  match s with
  | [] => rfl
  | [a] =>
    have ha := a.toNat_lt
    rw [phpBase64Encode, Nat.and_two_pow_sub_one_eq_mod a.toNat 2,
      decodeChars_two (by omega) (by omega), ofNat_of_eq (b := a) (by omega)]
    rfl
  | [a, b] =>
    have ha := a.toNat_lt
    have hb := b.toNat_lt
    rw [phpBase64Encode, Nat.and_two_pow_sub_one_eq_mod a.toNat 2,
      Nat.and_two_pow_sub_one_eq_mod b.toNat 4, Nat.shiftRight_eq_div_pow,
      decodeChars_two (by omega) (by omega), decodeChars_three (by omega),
      ofNat_of_eq (b := a) (by omega), ofNat_of_eq (b := b) (by omega)]
    rfl
  | a :: b :: c :: rest =>
    rw [phpBase64Encode, decodeChars_group, decodeChars_encode rest]

/-- Streaming base64 decoding: for all portions and all sizes of the buffers,
the filter writes what one call on all the input writes, and succeeds if that
does; the sizes must only not stay zero.  On a text of `php_base64_encode` it
writes the bytes that were encoded. -/
theorem base64Decoder_agrees (portions : List (List UInt8)) :
    (∀ rooms o, base64Decoder.drive rooms ctor portions = some o →
      (∀ room room', portions.flatten.length ≤ room →
        base64Decoder.drive [room, room'] ctor [portions.flatten] = some o) ∧
      ∀ s, portions.flatten = phpBase64Encode s → o = (s, true)) ∧ ∀ rooms, Ample 1 rooms → ∃ n o,
      base64Decoder.drive ((List.range n).map rooms) ctor portions = some o := by
  have hctor : Base64Decode.Rest ctor :=
    ⟨⟨by decide, .inl rfl, rfl, by decide⟩, by decide⟩
  have hfit := base64Decoder_reads.fit hctor portions
  refine ⟨fun rooms o hrun => ?_, fun rooms hample => ?_⟩
  · have ho := base64Decoder_reads.drive_eq hfit hrun
    refine ⟨fun room room' hroom => ?_, fun s hs => ?_⟩
    · rw [drive_single _ hroom, ho]
    · rw [ho, hs]
      exact decodeChars_encode s
  · exact base64Decoder_reads.ends hample portions hfit

/-- `AQIDBA==` with a line break in it, in three portions. -/
theorem base64Decoder_agrees_sample : base64Decoder.drive [0, 1, 1, 0, 2, 1, 1, 0] ctor
        [[65, 81, 73], [68, 13, 10, 66, 65], [61, 61]] = some ([1, 2, 3, 4], true) ∧
    base64Decoder.drive [10, 0] ctor [[65, 81, 73, 68, 13, 10, 66, 65, 61, 61]] =
      some ([1, 2, 3, 4], true) := by
  have hrun : base64Decoder.drive [0, 1, 1, 0, 2, 1, 1, 0] ctor
      [[65, 81, 73], [68, 13, 10, 66, 65], [61, 61]] = some ([1, 2, 3, 4], true) := by decide
  exact ⟨hrun, ((base64Decoder_agrees _).1 _ _ hrun).1 10 0 (by decide)⟩

end PhpEngine

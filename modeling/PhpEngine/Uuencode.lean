/-
The uuencoding of `ext/standard/uuencode.c`.  A `char` is signed here and is
promoted to `int` before bits are taken from it; a position in a buffer is the
list of the bytes from there on.
-/
import PhpEngine.Decimal
import Mathlib.Tactic.IntervalCases

namespace PhpEngine.Uuencode

open List

def charInt (b : UInt8) : BitVec 32 :=
  b.toBitVec.signExtend 32

def intChar (c : BitVec 32) : UInt8 :=
  UInt8.ofBitVec (c.setWidth 8)

/-- `*(s + i)`.  Behind the last byte of a string stands a NUL. -/
def deref (s : List UInt8) (i : Nat) : BitVec 32 :=
  charInt (s.getD i 0)

/-- `PHP_UU_ENC` -/
def phpUuEnc (c : BitVec 32) : UInt8 :=
  if c ≠ 0 then intChar ((c &&& 0o77) + 32) else byte '`'

/-- `PHP_UU_ENC_C2` -/
def phpUuEncC2 (c : List UInt8) : UInt8 :=
  phpUuEnc (((deref c 0 <<< 4) &&& 0o60) ||| ((deref c 1).sshiftRight 4 &&& 0o17))

/-- `PHP_UU_ENC_C3` -/
def phpUuEncC3 (c : List UInt8) : UInt8 :=
  phpUuEnc (((deref c 1 <<< 2) &&& 0o74) ||| ((deref c 2).sshiftRight 6 &&& 0o3))

/-- `PHP_UU_DEC` -/
def phpUuDec (b : UInt8) : BitVec 32 :=
  (charInt b - 32) &&& 0o77

/-- The four characters the inner loop of `php_uuencode` writes. -/
def encodeGroup (s : List UInt8) : List UInt8 :=
  [phpUuEnc ((deref s 0).sshiftRight 2), phpUuEncC2 s, phpUuEncC3 s, phpUuEnc (deref s 2 &&& 0o77)]

/-- `while (s < ee)`, with `ee - s` as the argument. -/
def encodeGroups : Nat → List UInt8 → List UInt8
  | 0, _ => []
  | n + 1, s => encodeGroup s ++ encodeGroups (n + 1 - 3) (s.drop 3)

/-- `while ((s + 3) < e)`: what is written, and `s` and `len` behind the loop. -/
def encodeLoop (len : Nat) (hlen : 0 < len) (s : List UInt8) : List UInt8 × List UInt8 × Nat :=
  if h : 3 < s.length then
    if s.length < len then
      let ee := if s.length % 3 ≠ 0 then s.length / 3 * 3 else s.length
      let line := phpUuEnc (BitVec.ofNat 32 s.length) :: encodeGroups ee s
      let line := if s.length = 45 then line ++ [byte '\n'] else line
      let (text, s', len') := encodeLoop s.length (by omega) (s.drop ee)
      (line ++ text, s', len')
    else
      let line := phpUuEnc (BitVec.ofNat 32 len) :: encodeGroups len s
      let line := if len = 45 then line ++ [byte '\n'] else line
      let (text, s', len') := encodeLoop len hlen (s.drop len)
      (line ++ text, s', len')
  else
    ([], s, len)
termination_by s.length
decreasing_by
  all_goals simp only [length_drop]
  · split <;> omega
  · omega

/-- The four characters for the one to three bytes behind the loop. -/
def lastGroup (s : List UInt8) : List UInt8 :=
  [phpUuEnc ((deref s 0).sshiftRight 2), phpUuEncC2 s,
    if s.length > 1 then phpUuEncC3 s else phpUuEnc 0,
    if s.length > 2 then phpUuEnc (deref s 2 &&& 0o77) else phpUuEnc 0]

/-- What is written behind the loop, up to the NUL. -/
def encodeRest (len : Nat) (s : List UInt8) : List UInt8 :=
  let (text, len) :=
    if 0 < s.length then
      if len = 45 then (phpUuEnc (BitVec.ofNat 32 s.length) :: lastGroup s, 0)
      else (lastGroup s, len)
    else ([], len)
  let text := if len < 45 then text ++ [byte '\n'] else text
  text ++ [phpUuEnc 0, byte '\n']

/-- The buffer `*dest`, its NUL included, and the value returned. -/
def phpUuencode (src : List UInt8) : List UInt8 × Int :=
  let (text, s, len) := encodeLoop 45 (by decide) src
  let text := text ++ encodeRest len s
  (text ++ [0], toInt (text.length % uintMod))

/-- The three bytes the inner loop of `php_uudecode` writes. -/
def decodeGroup (s : List UInt8) : List UInt8 :=
  let d := fun i => phpUuDec (s.getD i 0)
  [intChar (d 0 <<< 2 ||| (d 1).sshiftRight 4), intChar (d 1 <<< 4 ||| (d 2).sshiftRight 2),
    intChar (d 2 <<< 6 ||| d 3)]

/-- `while (s < ee)` with `ee - s` as the argument and `s` up to `e`; nothing is
returned where the code goes to `err`. -/
def decodeGroups : Nat → List UInt8 → Option (List UInt8 × List UInt8)
  | 0, s => some ([], s)
  | n + 1, s =>
    if s.length < 4 then none
    else
      match decodeGroups (n + 1 - 4) (s.drop 4) with
      | none => none
      | some (out, s') => some (decodeGroup s ++ out, s')

theorem decodeGroups_length_le {n : Nat} {s out s' : List UInt8}
    (h : decodeGroups n s = some (out, s')) : s'.length ≤ s.length := by
  induction n, s using decodeGroups.induct generalizing out s' with
  | case1 s =>
    rw [decodeGroups, Option.some.injEq, Prod.mk.injEq] at h
    rw [h.2]
  | case2 n s hshort => simp [decodeGroups, hshort] at h
  | case3 n s hlong hnone ih =>
    rw [decodeGroups, if_neg hlong, hnone] at h
    cases h
  | case4 n s hlong out₁ s₁ hrun ih =>
    rw [decodeGroups, if_neg hlong, hrun, Option.some.injEq, Prod.mk.injEq] at h
    have hle := ih hrun
    rw [length_drop] at hle
    rw [← h.2]
    omega

/-- `while (s < e)`: what has been written, `total_len` and `s`.  The factor 1.33 is a
`double`; no product with a length up to 63 comes near to an integer. -/
def decodeLoop (srcLen : Nat) (written : List UInt8) (total : Nat) :
    List UInt8 → Option (List UInt8 × Nat × List UInt8)
  | [] => some (written, total, [])
  | c :: s =>
    let len := (phpUuDec c).toNat
    if len = 0 then some (written, total, s)
    else if srcLen < len then none
    else
      let ee := if len = 45 then 60 else len * 133 / 100
      if s.length < ee then none
      else
        match hrun : decodeGroups ee s with
        | none => none
        | some (out, s') =>
          if len < 45 then some (written ++ out, total + len, s')
          else
            have := decodeGroups_length_le hrun
            decodeLoop srcLen (written ++ out) (total + len) (s'.drop 1)
termination_by s => s.length
decreasing_by
  simp only [length_drop, length_cons]
  omega

/-- The decoded string, or nothing where the code returns -1. -/
def phpUudecode (src : List UInt8) (srcLen : Int) : Option (List UInt8) :=
  match decodeLoop srcLen.toNat [] 0 (src.take srcLen.toNat) with
  | none => none
  | some (out, total, s) =>
    -- `len` is the truth value of the comparison
    let len := if out.length < total then 1 else 0
    some ((out ++ (decodeGroup s).take len).take total)

theorem phpUuDec_phpUuEnc (c : BitVec 32) : phpUuDec (phpUuEnc c) = c &&& 0o77 := by
  have htable : ∀ n : Fin 64, (charInt (intChar (BitVec.ofNat 32 n.val + 32)) - 32) &&& 0o77 =
        BitVec.ofNat 32 n.val := by
    decide
  have hlt : (c &&& 0o77).toNat < 64 := by
    exact Nat.lt_succ_of_le Nat.and_le_right
  rw [phpUuDec, phpUuEnc]
  split
  · have h := htable ⟨(c &&& 0o77).toNat, hlt⟩
    rwa [BitVec.ofNat_toNat, BitVec.setWidth_eq] at h
  · rename_i hzero
    rw [not_not.mp hzero]
    decide

theorem phpUuDec_length {n : Nat} (hn : n < 64) :
    (phpUuDec (phpUuEnc (BitVec.ofNat 32 n))).toNat = n := by
  rw [phpUuDec_phpUuEnc, BitVec.toNat_and, BitVec.toNat_ofNat]
  change n % 2 ^ 32 &&& 2 ^ 6 - 1 = n
  rw [Nat.and_two_pow_sub_one_eq_mod]
  omega

theorem group_first (a b : UInt8) : intChar (((charInt a).sshiftRight 2 &&& 0o77) <<< 2 |||
      ((((charInt a <<< 4) &&& 0o60) ||| ((charInt b).sshiftRight 4 &&& 0o17)) &&&
        0o77).sshiftRight 4) = a := by
  apply UInt8.toBitVec_inj.mp
  apply BitVec.eq_of_getLsbD_eq
  intro i hi
  interval_cases i <;>
    simp [intChar, charInt, BitVec.getElem_signExtend, BitVec.getElem_sshiftRight]

theorem group_second (a b c : UInt8) :
    intChar (((((charInt a <<< 4) &&& 0o60) ||| ((charInt b).sshiftRight 4 &&& 0o17)) &&&
      0o77) <<< 4 ||| ((((charInt b <<< 2) &&& 0o74) |||
        ((charInt c).sshiftRight 6 &&& 0o3)) &&& 0o77).sshiftRight 2) = b := by
  apply UInt8.toBitVec_inj.mp
  apply BitVec.eq_of_getLsbD_eq
  intro i hi
  interval_cases i <;>
    simp [intChar, charInt, BitVec.getElem_signExtend, BitVec.getElem_sshiftRight]

theorem group_third (b c : UInt8) :
    intChar (((((charInt b <<< 2) &&& 0o74) ||| ((charInt c).sshiftRight 6 &&& 0o3)) &&&
      0o77) <<< 6 ||| ((charInt c &&& 0o77) &&& 0o77)) = c := by
  apply UInt8.toBitVec_inj.mp
  apply BitVec.eq_of_getLsbD_eq
  intro i hi
  interval_cases i <;>
    simp [intChar, charInt, BitVec.getElem_signExtend, BitVec.getElem_sshiftRight]

/-- The bytes a group of four characters stands for. -/
def groupBytes (s : List UInt8) : List UInt8 :=
  [s.getD 0 0, s.getD 1 0, s.getD 2 0]

theorem decodeGroup_encodeGroup (s t : List UInt8) :
    decodeGroup (encodeGroup s ++ t) = groupBytes s := by
  rw [decodeGroup, encodeGroup, groupBytes]
  simp only [cons_append, getD_cons_zero, getD_cons_succ, phpUuEncC2,
    phpUuEncC3, phpUuDec_phpUuEnc, deref, group_first, group_second, group_third]

theorem lastGroup_eq {s : List UInt8} (h : s.length ≤ 3) : lastGroup s = encodeGroup s := by
  have hzero : charInt 0 = 0 := by decide
  match s, h with
  | [], _ => simp [lastGroup, encodeGroup, phpUuEncC3, deref, hzero]
  | [a], _ => simp [lastGroup, encodeGroup, phpUuEncC3, deref, hzero]
  | [a, b], _ => simp [lastGroup, encodeGroup, deref, hzero]
  | [a, b, c], _ => simp [lastGroup, encodeGroup]

/-- The bytes that `n` bytes of `s` come back as: up to two NULs stand behind them. -/
def padded : Nat → List UInt8 → List UInt8
  | 0, _ => []
  | n + 1, s => groupBytes s ++ padded (n + 1 - 3) (s.drop 3)

theorem padded_prefix {n : Nat} {s : List UInt8} (h : n ≤ s.length) :
    ∃ pad, padded n s = s.take n ++ pad ∧ (n % 3 = 0 → pad = []) := by
  induction n, s using padded.induct with
  | case1 s => exact ⟨[], by simp [padded], fun _ => rfl⟩
  | case2 n s ih =>
    rw [padded]
    match s, n, h with
    | [a], 0, _ => exact ⟨[0, 0], by simp [groupBytes, padded], by simp⟩
    | [a, b], 0, _ => exact ⟨[b, 0], by simp [groupBytes, padded], by simp⟩
    | [a, b], 1, _ => exact ⟨[0], by simp [groupBytes, padded], by simp⟩
    | a :: b :: c :: rest, 0, _ => exact ⟨[b, c], by simp [groupBytes, padded], by simp⟩
    | a :: b :: c :: rest, 1, _ => exact ⟨[c], by simp [groupBytes, padded], by simp⟩
    | a :: b :: c :: rest, n + 2, h =>
      obtain ⟨pad, hpad, hzero⟩ := ih (by simp at h ⊢; omega)
      refine ⟨pad, ?_, fun hmod => hzero (by omega)⟩
      rw [hpad]
      simp [groupBytes]

theorem length_encodeGroups (n : Nat) (s : List UInt8) :
    (encodeGroups n s).length = 4 * ((n + 2) / 3) := by
  induction n, s using encodeGroups.induct with
  | case1 s =>
    rw [encodeGroups]
    rfl
  | case2 n s ih =>
    rw [encodeGroups, length_append, ih]
    simp only [encodeGroup, length_cons, length_nil]
    omega

theorem decodeGroups_encodeGroups {n k : Nat} (s t : List UInt8)
    (hlow : 4 * ((n + 2) / 3) ≤ k + 3) (hhigh : k ≤ 4 * ((n + 2) / 3)) :
    decodeGroups k (encodeGroups n s ++ t) = some (padded n s, t) := by
  induction n, s using encodeGroups.induct generalizing k with
  | case1 s =>
    obtain rfl : k = 0 := by omega
    rw [encodeGroups, decodeGroups, padded]
    rfl
  | case2 n s ih =>
    obtain ⟨m, rfl⟩ : ∃ m, k = m + 1 := ⟨k - 1, by omega⟩
    have hlong : ¬(encodeGroup s ++ (encodeGroups (n + 1 - 3) (s.drop 3) ++ t)).length < 4 := by
      simp [encodeGroup]
    have hdrop : (encodeGroup s ++ (encodeGroups (n + 1 - 3) (s.drop 3) ++ t)).drop 4 =
        encodeGroups (n + 1 - 3) (s.drop 3) ++ t := rfl
    rw [encodeGroups, append_assoc, decodeGroups, if_neg hlong, hdrop,
      ih (by omega) (by omega), decodeGroup_encodeGroup, padded]

theorem encodeGroups_last {k r : Nat} (hr : 0 < r) (hr3 : r ≤ 3) (s : List UInt8) :
    encodeGroups (3 * k + r) s = encodeGroups (3 * k) s ++ encodeGroup (s.drop (3 * k)) := by
  induction k generalizing s with
  | zero =>
    obtain ⟨m, rfl⟩ : ∃ m, r = m + 1 := ⟨r - 1, by omega⟩
    have hzero : m + 1 - 3 = 0 := by omega
    rw [Nat.mul_zero, zero_add, encodeGroups, encodeGroups, hzero, encodeGroups]
    simp
  | succ k ih =>
    have hone : 3 * (k + 1) + r = (3 * k + r + 2) + 1 := by omega
    have htwo : 3 * (k + 1) = (3 * k + 2) + 1 := by omega
    rw [hone, htwo, encodeGroups, encodeGroups]
    have hthree : 3 * k + r + 2 + 1 - 3 = 3 * k + r := by omega
    have hfour : 3 * k + 2 + 1 - 3 = 3 * k := by omega
    have hdrop : 3 + 3 * k = 3 * k + 2 + 1 := by omega
    rw [hthree, hfour, ih, append_assoc, drop_drop, hdrop]

/-- The encoding, line by line. -/
def linesText (s : List UInt8) : List UInt8 :=
  if s.length = 0 then [phpUuEnc 0, byte '\n']
  else if s.length < 45 then
    phpUuEnc (BitVec.ofNat 32 s.length) :: (encodeGroups s.length s ++
      [byte '\n', phpUuEnc 0, byte '\n'])
  else
    phpUuEnc (BitVec.ofNat 32 45) :: (encodeGroups 45 s ++ byte '\n' :: linesText (s.drop 45))
termination_by s.length
decreasing_by
  rw [length_drop]
  omega

theorem encodeLoop_rest (s : List UInt8) :
    (encodeLoop 45 (by decide) s).1 ++ encodeRest (encodeLoop 45 (by decide) s).2.2
      (encodeLoop 45 (by decide) s).2.1 = linesText s := by
  induction s using linesText.induct with
  | case1 s hzero =>
    obtain rfl := length_eq_zero_iff.mp hzero
    rw [encodeLoop, linesText]
    rfl
  | case2 s hzero hshort =>
    rw [encodeLoop, linesText, if_neg hzero, if_pos hshort]
    by_cases hthree : 3 < s.length
    · rw [dif_pos hthree, if_pos hshort]
      have hne : ¬s.length = 45 := by omega
      generalize hee : (if s.length % 3 ≠ 0 then s.length / 3 * 3 else s.length) = ee
      have hee3 : ee = 3 * (s.length / 3) := by
        split at hee <;> omega
      have hleft : (s.drop ee).length = s.length % 3 := by
        rw [length_drop]
        omega
      simp only [if_neg hne]
      rw [encodeLoop, dif_neg (by omega)]
      simp only [encodeRest, hleft, if_neg hne, append_nil]
      by_cases hmod : s.length % 3 = 0
      · have hall : ee = s.length := by omega
        rw [hmod, hall]
        simp [hshort]
      · have hgroups := encodeGroups_last (k := s.length / 3) (r := s.length % 3)
          (by omega) (by omega) s
        rw [show 3 * (s.length / 3) + s.length % 3 = s.length by omega, ← hee3] at hgroups
        rw [lastGroup_eq (by omega), hgroups, if_pos (Nat.pos_of_ne_zero hmod)]
        simp [hshort]
    · rw [dif_neg hthree]
      have hlast := encodeGroups_last (k := 0) (r := s.length) (by omega) (by omega) s
      rw [Nat.mul_zero, zero_add, encodeGroups, nil_append, drop_zero] at hlast
      simp only [encodeRest, if_pos (show 0 < s.length by omega), ↓reduceIte,
        lastGroup_eq (show s.length ≤ 3 by omega), hlast]
      rfl
  | case3 s hzero hshort ih =>
    rw [encodeLoop, linesText, if_neg hzero, if_neg hshort, dif_pos (by omega), if_neg hshort]
    simp only [↓reduceIte, cons_append, append_assoc, ih, nil_append]

/-- The length of the encoding of `n` bytes. -/
def uuLength (n : Nat) : Nat :=
  62 * (n / 45) + (if n % 45 = 0 then 0 else 2 + 4 * ((n % 45 + 2) / 3)) + 2

theorem length_linesText (s : List UInt8) : (linesText s).length = uuLength s.length := by
  induction s using linesText.induct with
  | case1 s hzero =>
    rw [linesText, if_pos hzero, hzero]
    rfl
  | case2 s hzero hshort =>
    rw [linesText, if_neg hzero, if_pos hshort, uuLength]
    simp only [length_cons, length_append, length_nil, length_encodeGroups]
    rw [Nat.mod_eq_of_lt hshort, Nat.div_eq_of_lt hshort, if_neg hzero]
    omega
  | case3 s hzero hshort ih =>
    rw [linesText, if_neg hzero, if_neg hshort]
    simp only [length_cons, length_append, length_encodeGroups, ih, uuLength, length_drop]
    have hdiv : s.length / 45 = (s.length - 45) / 45 + 1 := by omega
    have hmod : s.length % 45 = (s.length - 45) % 45 := by omega
    rw [hdiv, hmod]
    omega

theorem phpUuencode_eq (s : List UInt8) :
    phpUuencode s = (linesText s ++ [0], toInt (uuLength s.length % uintMod)) := by
  rw [phpUuencode, ← length_linesText, ← encodeLoop_rest]

theorem length_le_uuLength (n : Nat) : n ≤ uuLength n := by
  rw [uuLength]
  split <;> omega

theorem decodeLoop_line {srcLen n : Nat} {c : UInt8} {s out s' written : List UInt8}
    {total : Nat} (hn : (phpUuDec c).toNat = n) (hzero : n ≠ 0) (hlen : n ≤ srcLen)
    (hroom : (if n = 45 then 60 else n * 133 / 100) ≤ s.length)
    (hgroups : decodeGroups (if n = 45 then 60 else n * 133 / 100) s = some (out, s')) :
    decodeLoop srcLen written total (c :: s) = if n < 45 then some (written ++ out, total + n, s')
      else decodeLoop srcLen (written ++ out) (total + n) (s'.drop 1) := by
  subst hn
  rw [decodeLoop]
  simp only [if_neg hzero, if_neg (Nat.not_lt_of_le hlen), if_neg (Nat.not_lt_of_le hroom)]
  split
  · rename_i hrun
    rw [hgroups] at hrun
    cases hrun
  · rename_i out' s'' hrun
    rw [hgroups] at hrun
    cases hrun
    rfl

/-- The decoder gets the bytes of the lines, and behind them the padding of the last
group. -/
theorem decodeLoop_linesText {srcLen : Nat} (s written : List UInt8) (total : Nat)
    (hlen : s.length ≤ srcLen) : ∃ pad rest, decodeLoop srcLen written total (linesText s) =
      some (written ++ s ++ pad, total + s.length, rest) := by
  induction s using linesText.induct generalizing written total with
  | case1 s hzero =>
    obtain rfl := length_eq_zero_iff.mp hzero
    refine ⟨[], [byte '\n'], ?_⟩
    have hend : (phpUuDec (phpUuEnc 0)).toNat = 0 := by decide
    rw [linesText, if_pos hzero, decodeLoop]
    simp only [hend, ↓reduceIte, append_nil, length_nil, add_zero]
  | case2 s hzero hshort =>
    obtain ⟨pad, hpad, -⟩ := padded_prefix (le_refl s.length)
    rw [take_length] at hpad
    have hgroups := decodeGroups_encodeGroups (n := s.length)
      (k := if s.length = 45 then 60 else s.length * 133 / 100) s
      [byte '\n', phpUuEnc 0, byte '\n'] (by split <;> omega) (by split <;> omega)
    refine ⟨pad, [byte '\n', phpUuEnc 0, byte '\n'], ?_⟩
    rw [linesText, if_neg hzero, if_pos hshort, append_assoc, ← hpad,
      decodeLoop_line (phpUuDec_length (by omega)) hzero hlen
        (by rw [length_append, length_encodeGroups]; split <;> omega) hgroups,
      if_pos hshort]
  | case3 s hzero hshort ih =>
    obtain ⟨pad, hpad, hnone⟩ := padded_prefix (show 45 ≤ s.length by omega)
    rw [hnone (by decide), append_nil] at hpad
    have hleft : (s.drop 45).length = s.length - 45 := length_drop
    obtain ⟨pad, rest, hrest⟩ := ih (written ++ s.take 45) (total + 45) (by omega)
    have hgroups := decodeGroups_encodeGroups (n := 45)
      (k := if 45 = 45 then 60 else 45 * 133 / 100) s
      (byte '\n' :: linesText (s.drop 45)) (by decide) (by decide)
    have htotal : total + 45 + (s.length - 45) = total + s.length := by omega
    refine ⟨pad, rest, ?_⟩
    rw [linesText, if_neg hzero, if_neg hshort,
      decodeLoop_line (phpUuDec_length (by decide)) (by decide) (by omega)
        (by rw [length_append, length_encodeGroups, if_pos rfl]; omega) hgroups,
      if_neg (by decide), hpad, drop_one, tail_cons, hrest, hleft, htotal,
      append_assoc written, take_append_drop]

/-- The round trip, for every string whose encoding has a length that is an `int`. -/
theorem phpUudecode_phpUuencode (s : List UInt8) (hint : uuLength s.length < 2 ^ 31) :
    phpUudecode (phpUuencode s).1 (phpUuencode s).2 = some s := by
  have hmod : uuLength s.length % uintMod = uuLength s.length :=
    Nat.mod_eq_of_lt (lt_trans hint (by decide))
  have hlen : toInt (uuLength s.length) = uuLength s.length := if_pos hint
  obtain ⟨pad, rest, hrun⟩ := decodeLoop_linesText s [] 0 (length_le_uuLength s.length)
  rw [phpUuencode_eq, phpUudecode, hmod, hlen, Int.toNat_natCast, ← length_linesText,
    take_left, length_linesText, hrun]
  simp

theorem phpUudecode_phpUuencode_three :
    phpUudecode (phpUuencode [80, 72, 80]).1 (phpUuencode [80, 72, 80]).2 = some [80, 72, 80] :=
  phpUudecode_phpUuencode [80, 72, 80] (by decide)

/-- A length that does not fit an `int` comes back negative, and nothing is decoded. -/
theorem phpUudecode_negative {s : List UInt8} (hneg : 2 ^ 31 ≤ uuLength s.length % uintMod) :
    phpUudecode (phpUuencode s).1 (phpUuencode s).2 = some [] := by
  have hlt : uuLength s.length % uintMod < uintMod := Nat.mod_lt _ (by decide)
  have hzero : (toInt (uuLength s.length % uintMod)).toNat = 0 := by
    rw [toInt, if_neg (Nat.not_lt_of_le hneg)]
    omega
  rw [phpUuencode_eq, phpUudecode, hzero, take_zero, decodeLoop]
  rfl

theorem zeros_not_decoded : phpUudecode (phpUuencode (List.replicate (2 ^ 31 - 1) 0)).1
      (phpUuencode (List.replicate (2 ^ 31 - 1) 0)).2 ≠ some (List.replicate (2 ^ 31 - 1) 0) := by
  rw [phpUudecode_negative (by rw [length_replicate]; decide)]
  intro h
  have hlength := congrArg List.length (Option.some.inj h)
  rw [length_replicate] at hlength
  cases hlength

end PhpEngine.Uuencode

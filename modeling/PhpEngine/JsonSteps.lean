/-
What one unit does to the parser: the classes of the units, the rows of the
table that are used, and the runs over whitespace and over strings.
-/
import PhpEngine.JsonParser
import Mathlib.Tactic.NormNum

namespace PhpEngine.Json

open List

/-- A statement about units is checked on the ASCII characters one by one. -/
theorem forall_unit {P : UInt16 → Prop} (hlow : ∀ n : Fin 128, P (UInt16.ofNat n))
    (hhigh : ∀ u : UInt16, 128 ≤ u.toNat → P u) (u : UInt16) : P u := by
  by_cases h : 128 ≤ u.toNat
  · exact hhigh u h
  · have hn := hlow ⟨u.toNat, by omega⟩
    rwa [UInt16.ofNat_toNat] at hn

theorem classOf_high {u : UInt16} (h : 128 ≤ u.toNat) : classOf u = some .etc :=
  if_pos h

/-- The unit of a class that has only one. -/
def classUnit : CharClass → Option UInt16
  | .lcurb => some (unit '\x7b')
  | .rcurb => some (unit '\x7d')
  | .lsqrb => some (unit '[')
  | .rsqrb => some (unit ']')
  | .colon => some (unit ':')
  | .comma => some (unit ',')
  | .quote => some (unit '"')
  | .backs => some (unit '\\')
  | .slash => some (unit '/')
  | .plus => some (unit '+')
  | .minus => some (unit '-')
  | .point => some (unit '.')
  | .zero => some (unit '0')
  | .lowA => some (unit 'a')
  | .lowB => some (unit 'b')
  | .lowE => some (unit 'e')
  | .lowF => some (unit 'f')
  | .lowL => some (unit 'l')
  | .lowN => some (unit 'n')
  | .lowR => some (unit 'r')
  | .lowS => some (unit 's')
  | .lowT => some (unit 't')
  | .lowU => some (unit 'u')
  | .e => some (unit 'E')
  | _ => none

/-- The classes of hexadecimal digits. -/
def CharClass.isHex : CharClass → Bool
  | .zero | .digit | .lowA | .lowB | .lowC | .lowD | .lowE | .lowF | .abcdf
  | .e => true
  | _ => false

/-- The ASCII characters, their classes and what else is asked of them. -/
theorem ascii_table : ∀ n : Fin 128, let u := UInt16.ofNat n
    let cls := classOf u
    (cls.bind classUnit).all (u = ·) = true ∧
      (isWs u = true ↔ cls = some .space ∨ cls = some .white) ∧
      (isDigitUnit u = true ↔ cls = some .zero ∨ cls = some .digit) ∧
      isHexUnit u = (cls.map CharClass.isHex).getD false ∧
      decide (32 ≤ u.toNat ∧ u ≠ unit '"' ∧ u ≠ unit '\\') =
        (cls.map fun c => decide (tableEntry .ST c = .goto .ST)).getD false ∧
      (isHexUnit u = true → (dehexchar u).toNat < 16 ∧ 0 ≤ dehexchar u ∧
        ((dehexchar u).toNat = 0 ↔ u = unit '0')) := by
  decide +kernel

theorem eq_of_classOf {u v : UInt16} {c : CharClass}
    (h : classOf u = some c) (hv : classUnit c = some v) : u = v := by
  refine forall_unit (P := fun u => classOf u = some c → u = v) ?_ ?_ u h
  · intro n hn
    simpa [hn, hv] using (ascii_table n).1
  · intro u hu h
    rw [classOf_high hu] at h
    cases h
    cases hv

section High

variable {u : UInt16} (hu : 128 ≤ u.toNat)
include hu

theorem not_le_unit {c : Char} (hc : c.toNat < 128) : ¬ u ≤ unit c := by
  rw [UInt16.le_iff_toNat_le, unit, UInt16.toNat_ofNat']
  omega

theorem ne_unit {c : Char} (hc : c.toNat < 128) : u ≠ unit c :=
  fun h => not_le_unit hu hc (h ▸ Nat.le_refl _)

end High

theorem isWs_iff (u : UInt16) :
    isWs u = true ↔ classOf u = some .space ∨ classOf u = some .white := by
  refine forall_unit (P := fun u => isWs u = true ↔
    classOf u = some .space ∨ classOf u = some .white) (fun n => (ascii_table n).2.1) ?_ u
  intro u hu
  simp [isWs, classOf_high hu, ne_unit hu]

theorem isDigitUnit_iff (u : UInt16) :
    isDigitUnit u = true ↔ classOf u = some .zero ∨ classOf u = some .digit := by
  refine forall_unit (P := fun u => isDigitUnit u = true ↔
    classOf u = some .zero ∨ classOf u = some .digit)
    (fun n => (ascii_table n).2.2.1) ?_ u
  intro u hu
  simp [isDigitUnit, classOf_high hu, not_le_unit hu]

theorem isHexUnit_iff (u : UInt16) :
    isHexUnit u = true ↔ ∃ c, classOf u = some c ∧ c.isHex = true := by
  refine forall_unit (P := fun u => isHexUnit u = true ↔
    ∃ c, classOf u = some c ∧ c.isHex = true) ?_ ?_ u
  · intro n
    rw [(ascii_table n).2.2.2.1]
    cases classOf (UInt16.ofNat n) <;> simp
  · intro u hu
    simp [isHexUnit, isDigitUnit, classOf_high hu, not_le_unit hu, CharClass.isHex]

/-- The characters that stand for themselves in a string. -/
theorem unescaped_iff (u : UInt16) : (32 ≤ u.toNat ∧ u ≠ unit '"' ∧ u ≠ unit '\\') ↔
      ∃ c, classOf u = some c ∧ tableEntry .ST c = .goto .ST := by
  refine forall_unit (P := fun u =>
    (32 ≤ u.toNat ∧ u ≠ unit '"' ∧ u ≠ unit '\\') ↔
      ∃ c, classOf u = some c ∧ tableEntry .ST c = .goto .ST) ?_ ?_ u
  · intro n
    refine decide_eq_true_iff.symm.trans ?_
    rw [(ascii_table n).2.2.2.2.1]
    cases classOf (UInt16.ofNat n) <;> simp
  · intro u hu
    have hrow : tableEntry .ST .etc = .goto .ST := rfl
    simp [classOf_high hu, ne_unit hu, hrow]
    omega
def State.all : List State :=
  [.GO, .OK, .OB, .KE, .CO, .VA, .AR, .ST, .ES, .U1, .U2, .U3, .U4,
    .MI, .ZE, .IN, .FR, .E1, .E2, .E3, .T1, .T2, .T3, .F1, .F2, .F3, .F4, .N1, .N2, .N3]

theorem State.mem_all (s : State) : s ∈ State.all := by
  cases s <;> decide

def CharClass.all : List CharClass :=
  [.space, .white, .lcurb, .rcurb, .lsqrb, .rsqrb, .colon, .comma,
    .quote, .backs, .slash, .plus, .minus, .point, .zero, .digit,
    .lowA, .lowB, .lowC, .lowD, .lowE, .lowF, .lowL, .lowN,
    .lowR, .lowS, .lowT, .lowU, .abcdf, .e, .etc]

theorem CharClass.mem_all (c : CharClass) : c ∈ CharClass.all := by
  cases c <;> decide

instance decidableForallState {P : State → Prop} [DecidablePred P] : Decidable (∀ s, P s) :=
  decidable_of_iff (∀ s ∈ State.all, P s) ⟨fun h s => h s s.mem_all, fun h s _ => h s⟩

instance decidableForallClass {P : CharClass → Prop} [DecidablePred P] : Decidable (∀ c, P c) :=
  decidable_of_iff (∀ c ∈ CharClass.all, P c) ⟨fun h c => h c c.mem_all, fun h c _ => h c⟩

/-- The states between the tokens. -/
def State.between : State → Bool
  | .GO | .OK | .OB | .KE | .CO | .VA | .AR => true
  | _ => false

/-- The states in which a value can be complete. -/
def State.complete : State → Bool
  | .OK | .ZE | .IN | .FR | .E3 => true
  | _ => false

/-- The states inside a string. -/
def State.quoted : State → Bool
  | .ST | .ES | .U1 | .U2 | .U3 | .U4 => true
  | _ => false

def State.afterHex : State → Option State
  | .U1 => some .U2
  | .U2 => some .U3
  | .U3 => some .U4
  | .U4 => some .ST
  | _ => none

theorem tableEntry_hex {state next : State} {c : CharClass} (hnext : state.afterHex = some next) :
    tableEntry state c = if c.isHex then .goto next else .error := by
  cases state <;> cases hnext <;> cases c <;> rfl

def hexUnit (a b c d : UInt16) : UInt16 :=
  0 + UInt16.ofInt (dehexchar a * 2 ^ 12) +
    UInt16.ofInt (dehexchar b * 2 ^ 8) + UInt16.ofInt (dehexchar c * 2 ^ 4) +
    UInt16.ofInt (dehexchar d * 2 ^ 0)

def escapeUnit (u : UInt16) : UInt16 :=
  if u = unit 'b' then 8
  else if u = unit 't' then 9
  else if u = unit 'n' then 10
  else if u = unit 'f' then 12
  else if u = unit 'r' then 13
  else u

/-- The unit that a character of a string stands for. -/
def decodeChar : List UInt16 → UInt16
  | [u] => u
  | [_, u] => escapeUnit u
  | [_, _, a, b, c, d] => hexUnit a b c d
  | _ => 0

theorem dehexchar_spec {u : UInt16} (h : isHexUnit u = true) :
    ∃ k : Nat, k < 16 ∧ dehexchar u = k ∧ (k = 0 ↔ u = unit '0') := by
  obtain ⟨c, huc, hc⟩ := (isHexUnit_iff u).mp h
  have hascii : u.toNat < 128 := by
    by_contra hle
    rw [classOf_high (Nat.le_of_not_lt hle)] at huc
    cases huc
    cases hc
  have hu := (ascii_table ⟨u.toNat, hascii⟩).2.2.2.2.2
  simp only [UInt16.ofNat_toNat] at hu
  obtain ⟨hlt, hpos, hzero⟩ := hu h
  exact ⟨_, hlt, (Int.toNat_of_nonneg hpos).symm, hzero⟩

theorem hexUnit_toNat {a b c d : UInt16} {ka kb kc kd : Nat}
    (ha : dehexchar a = ka) (hb : dehexchar b = kb) (hc : dehexchar c = kc)
    (hd : dehexchar d = kd) (hlt : ka < 16 ∧ kb < 16 ∧ kc < 16 ∧ kd < 16) :
    (hexUnit a b c d).toNat = ka * 4096 + kb * 256 + kc * 16 + kd := by
  have hcast : ∀ k s : Nat, (UInt16.ofInt ((k : Int) * 2 ^ s)).toNat = k * 2 ^ s % 2 ^ 16 := by
    intro k s
    exact Nat.mod_mod _ _
  simp only [hexUnit, ha, hb, hc, hd, hcast, UInt16.toNat_add]
  have hzero : (0 : UInt16).toNat = 0 := rfl
  omega

theorem utf16ToUtf8_ne_nil (buf : List UInt8) (u : UInt16) : utf16ToUtf8 buf u ≠ [] := by
  unfold utf16ToUtf8
  simp only
  repeat' split
  all_goals simp

theorem head_utf16ToUtf8_nil (u : UInt16) : (utf16ToUtf8 [] u).head? = some 0 ↔ u = 0 := by
  have hzero : u = 0 ↔ u.toNat = 0 := by
    rw [← UInt16.toNat_inj]
    rfl
  rw [hzero]
  unfold utf16ToUtf8
  simp only [length_nil, nil_append]
  split
  next hlt =>
    have h : (UInt8.ofNat u.toNat).toNat = u.toNat := by
      rw [UInt8.toNat_ofNat']
      omega
    rw [head?_cons, Option.some.injEq, ← UInt8.toNat_inj, h]
    rfl
  next hge =>
    have hne : u.toNat ≠ 0 := by omega
    split
    · simp [hne]
    · simp [hne]

theorem head_utf16ToUtf8 {buf : List UInt8} (h : buf ≠ []) (u : UInt16) :
    (utf16ToUtf8 buf u).head? = some 0 ↔ buf.head? = some 0 := by
  have happ : ∀ l, (buf ++ l).head? = buf.head? :=
    fun l => head?_append_of_ne_nil _ h
  unfold utf16ToUtf8
  simp only
  split
  · rw [happ]
  split
  · rw [happ]
  split
  next hpair =>
    obtain ⟨-, hlen, hback, -⟩ := hpair
    cases buf with
    | nil => exact absurd rfl h
    | cons b rest =>
      by_cases hthree : rest.length = 2
      · have hb : b ≠ 0 := by
          rintro rfl
          simp [hthree] at hback
        simp [hthree, hb]
      · obtain ⟨k, hk⟩ : ∃ k, (b :: rest).length - 3 = k + 1 := by
          refine ⟨(b :: rest).length - 4, ?_⟩
          rw [length_cons] at hlen ⊢
          omega
        rw [hk]
        rfl
  · rw [happ]

/-- Of the characters of a string only the escape of NUL stands for it. -/
theorem decodeChar_eq_zero {w : List UInt16} (hw : StringChar w) :
    decodeChar w = 0 ↔ w = nulEscape := by
  cases hw with
  | @unescaped u hlow hquote hbacks =>
    have hne : u ≠ 0 := by
      rintro rfl
      cases hlow
    exact iff_of_false hne (by simp [nulEscape, units])
  | @escape u hu =>
    refine iff_of_false ?_ (by simp [nulEscape, units])
    have hescape : ∀ u ∈ units "\"\\/bfnrt",
        decodeChar [unit '\\', u] ≠ 0 := forall_units (by decide)
    exact hescape u hu
  | @hex a b c d ha hb hc hd =>
    obtain ⟨ka, hka, hca, hza⟩ := dehexchar_spec ha
    obtain ⟨kb, hkb, hcb, hzb⟩ := dehexchar_spec hb
    obtain ⟨kc, hkc, hcc, hzc⟩ := dehexchar_spec hc
    obtain ⟨kd, hkd, hcd, hzd⟩ := dehexchar_spec hd
    have hval := hexUnit_toNat hca hcb hcc hcd ⟨hka, hkb, hkc, hkd⟩
    have hzero : decodeChar [unit '\\', unit 'u', a, b, c, d] = 0 ↔
        ka = 0 ∧ kb = 0 ∧ kc = 0 ∧ kd = 0 := by
      rw [← UInt16.toNat_inj, decodeChar, hval]
      have h0 : (0 : UInt16).toNat = 0 := rfl
      omega
    rw [hzero, hza, hzb, hzc, hzd]
    have hnul : nulEscape = [unit '\\', unit 'u', unit '0', unit '0',
      unit '0', unit '0'] := by decide
    rw [hnul]
    simp

end PhpEngine.Json

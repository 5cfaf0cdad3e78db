/-
`ZEND_HANDLE_NUMERIC_EX` (`Zend/zend_hash.h`), which takes a string key for an index, and
the functions on symbol tables that go through it.
-/
import PhpEngine.LongSize
import PhpEngine.DecimalText
import PhpEngine.HashRekey

namespace PhpEngine

open List

namespace LongSize

/-- `MAX_LENGTH_OF_LONG` -/
def maxLengthOfLong : LongSize → Nat
  | four => 11
  | eight => 20

end LongSize

section Macro

variable (size : LongSize)

/-- `while (++tmp != end && *tmp >= '0' && *tmp <= '9')`, with the bytes from `tmp` up to
`end`: the bytes where the loop stops, and `idx`. -/
def digitsLoop : List UInt8 → Nat → List UInt8 × Nat
  | [], idx => ([], idx)
  | b :: rest, idx =>
    if isDigit b then digitsLoop rest ((idx * 10 + digitValue b) % 2 ^ size.bits)
    else (b :: rest, idx)

/-- The macro for the bytes from `tmp` up to and with `*end`, behind a sign if `neg`. -/
def handleNumericFrom (neg : Bool) (length : Nat) : List UInt8 → Option Nat
  | [] => none
  | b :: rest =>
    if isDigit b then
      -- `end - tmp`
      let distance := rest.length
      if (b :: rest).getLast? ≠ some 0 then none
      else if b = byte '0' ∧ length > 2 then none
      else if distance > size.maxLengthOfLong - 1 then none
      else if size.sizeofLong = 4 ∧ distance = size.maxLengthOfLong - 1 ∧ b > byte '2' then
        none
      else
        let (tmp, idx) := digitsLoop size rest.dropLast (digitValue b)
        if tmp = [] then
          if neg then
            if (idx + size.ulongMax) % 2 ^ size.bits > size.longMax then none
            else some ((2 ^ size.bits - idx) % 2 ^ size.bits)
          else if idx > size.longMax then none
          else some idx
        else none
    else none

/-- `ZEND_HANDLE_NUMERIC_EX(key, length, idx, func)` with the `length` bytes of `key`: the
`idx` that `func` is run with. -/
def zendHandleNumericEx (key : List UInt8) : Option Nat :=
  if key.head? = some (byte '-') then handleNumericFrom size true key.length key.tail
  else handleNumericFrom size false key.length key

/-- `ZEND_HANDLE_NUMERIC(key, length, func)` and the call behind it. -/
def zendSymtable {ρ : Type} (byIndex : Nat → ρ) (byString : ρ) (key : List UInt8) : ρ :=
  match zendHandleNumericEx size key with
  | some idx => byIndex idx
  | none => byString

end Macro

section Symtable

variable {δ : Type} (intern : Nat → KeyBytes) (ht : HashTable δ) (arKey : KeyArg)

def zendSymtableUpdate (data : δ) : Option (HashTable δ × ZendResult × Option Addr) :=
  zendSymtable .eight (fun idx => zendHashIndexUpdateOrNextInsert ht idx data .update)
    (zendHashAddOrUpdate intern ht arKey data .update) (arKey.read intern)

def zendSymtableDel : Option (HashTable δ × ZendResult) :=
  zendSymtable .eight (fun idx => zendHashDelKeyOrIndex intern ht (.index idx))
    (zendHashDelKeyOrIndex intern ht (.key arKey)) (arKey.read intern)

def zendSymtableFind : Option (Option δ) :=
  zendSymtable .eight (fun idx => zendHashIndexFind ht idx)
    (zendHashFind intern ht arKey) (arKey.read intern)

def zendSymtableExists : Option Bool :=
  zendSymtable .eight (fun idx => zendHashIndexExists ht idx)
    (zendHashExists intern ht arKey) (arKey.read intern)

def zendSymtableUpdateCurrentKeyEx (mode : UpdateMode) (pos : Option Addr) (garbage : KeyPtr) :
    Option (HashTable δ × ZendResult × Option Addr) :=
  zendSymtable .eight (fun idx => zendHashUpdateCurrentKeyEx intern ht (.long idx) mode pos garbage)
    (zendHashUpdateCurrentKeyEx intern ht (.string arKey) mode pos garbage) (arKey.read intern)

end Symtable

section Exactness

variable {size : LongSize}

/-- The index a `long` is cast to. -/
def LongSize.ofLong (size : LongSize) (n : Int) : Nat :=
  (n % 2 ^ size.bits).toNat

theorem digitsLoop_spec (size : LongSize) (l : List UInt8) (v : Nat) :
    ((digitsLoop size l (v % 2 ^ size.bits)).1 = [] ↔ ∀ b ∈ l, isDigit b = true) ∧
      ((∀ b ∈ l, isDigit b = true) →
        (digitsLoop size l (v % 2 ^ size.bits)).2 = decimalValue l v % 2 ^ size.bits) := by
  induction l generalizing v with
  | nil => simp [digitsLoop, decimalValue]
  | cons b rest ih =>
    rw [digitsLoop]
    by_cases hb : isDigit b = true
    · have hstep : (v % 2 ^ size.bits * 10 + digitValue b) % 2 ^ size.bits =
          (v * 10 + digitValue b) % 2 ^ size.bits := by
        rw [Nat.add_mod, Nat.mod_mul_mod, ← Nat.add_mod]
      rw [if_pos hb, hstep]
      obtain ⟨hend, hvalue⟩ := ih (v * 10 + digitValue b)
      constructor
      · rw [hend]
        simp [hb]
      · intro hall
        exact hvalue fun c hc => hall c (mem_cons_of_mem b hc)
    · rw [if_neg hb]
      constructor
      · simp [hb]
      · intro hall
        exact absurd (hall b mem_cons_self) hb

/-- The test of the first digit keeps what ten digits stand for below the modulus. -/
theorem value_lt {b : UInt8} {rest : List UInt8} (h : ∀ c ∈ b :: rest, isDigit c = true)
    (hlong : ¬rest.length + 1 > size.maxLengthOfLong - 1)
    (hfour : ¬(size.sizeofLong = 4 ∧ rest.length + 1 = size.maxLengthOfLong - 1 ∧
      b > byte '2')) : decimalValue (b :: rest) 0 < 2 ^ size.bits := by
  have hlt := decimalValue_lt h
  cases size with
  | eight =>
    have hpow : (10 : Nat) ^ (rest.length + 1) ≤ 10 ^ 19 := by
      apply Nat.pow_le_pow_right (by decide)
      simp only [LongSize.maxLengthOfLong] at hlong
      omega
    calc decimalValue (b :: rest) 0 < 10 ^ 19 := lt_of_lt_of_le hlt hpow
      _ < 2 ^ 64 := by decide
  | four =>
    by_cases hten : rest.length + 1 = 10
    · have hb : digitValue b ≤ 2 := by
        by_contra hbig
        apply hfour
        refine ⟨rfl, hten, ?_⟩
        rw [digitValue] at hbig
        exact UInt8.lt_iff_toNat_lt.mpr (by
          change 50 < b.toNat
          omega)
      have hhigh := (decimalValue_bounds h).2
      have hnine : rest.length = 9 := by omega
      rw [hnine] at hhigh
      calc decimalValue (b :: rest) 0 < (digitValue b + 1) * 10 ^ 9 := hhigh
        _ ≤ 3 * 10 ^ 9 := Nat.mul_le_mul_right _ (by omega)
        _ < 2 ^ 32 := by decide
    · have hpow : (10 : Nat) ^ (rest.length + 1) ≤ 10 ^ 9 := by
        apply Nat.pow_le_pow_right (by decide)
        simp only [LongSize.maxLengthOfLong] at hlong
        omega
      calc decimalValue (b :: rest) 0 < 10 ^ 9 := lt_of_lt_of_le hlt hpow
        _ < 2 ^ 32 := by decide

/-- A value in the range of a `long` passes the tests of the length and of the first
digit. -/
theorem value_passes {b : UInt8} {rest : List UInt8} (h : IsCanonical (b :: rest))
    (hv : decimalValue (b :: rest) 0 ≤ size.longMax + 1) :
    ¬rest.length + 1 > size.maxLengthOfLong - 1 ∧
      ¬(size.sizeofLong = 4 ∧ rest.length + 1 = size.maxLengthOfLong - 1 ∧ b > byte '2') := by
  have hlow := (decimalValue_bounds h.digits).1
  -- The first of several digits is no zero.
  have hfirst : 1 < rest.length + 1 → 1 ≤ digitValue b := by
    by_contra hzero
    have hb := (digitValue_spec (h.digits b mem_cons_self)).2
    have hzero : digitValue b = 0 := by omega
    rw [hzero] at hb
    have hone := h.head (by rw [← hb]; rfl)
    rw [length_cons] at hone
    omega
  cases size with
  | eight =>
    refine ⟨fun hlong => ?_, fun hfour => absurd hfour.1 (by decide)⟩
    simp only [LongSize.maxLengthOfLong] at hlong
    have hone := hfirst (by omega)
    have hpow : (10 : Nat) ^ 19 ≤ 10 ^ rest.length := Nat.pow_le_pow_right (by decide) (by omega)
    have hmul := Nat.mul_le_mul hone hpow
    have hmax : LongSize.eight.longMax + 1 < 1 * 10 ^ 19 := by decide
    omega
  | four =>
    simp only [LongSize.maxLengthOfLong]
    have hmax : LongSize.four.longMax + 1 < 3 * 10 ^ 9 := by decide
    refine ⟨fun hlong => ?_, fun hfour => ?_⟩
    · have hone := hfirst (by omega)
      have hpow : (10 : Nat) ^ 10 ≤ 10 ^ rest.length :=
        Nat.pow_le_pow_right (by decide) (by omega)
      have hmul := Nat.mul_le_mul hone hpow
      omega
    · have hnine : rest.length = 9 := by omega
      have hthree : 3 ≤ digitValue b := by
        have hlt := UInt8.lt_iff_toNat_lt.mp hfour.2.2
        change 50 < b.toNat at hlt
        rw [digitValue]
        omega
      rw [hnine] at hlow
      omega

/-- The last tests of the macro, on a value that has not come round. -/
theorem handleNumeric_range (neg : Bool) {v idx : Nat} (hv : v < 2 ^ size.bits) : (if neg then
      if (v + size.ulongMax) % 2 ^ size.bits > size.longMax then none
      else some ((2 ^ size.bits - v) % 2 ^ size.bits) else if v > size.longMax then none
    else some v) = some idx ↔ if neg then 1 ≤ v ∧ v ≤ size.longMax + 1 ∧ idx = 2 ^ size.bits - v
      else v ≤ size.longMax ∧ idx = v := by
  have hmax : size.ulongMax + 1 = 2 ^ size.bits := by cases size <;> decide
  have hhalf : size.longMax + 1 < 2 ^ size.bits := by cases size <;> decide
  cases neg with
  | false =>
    simp only [Bool.false_eq_true, ↓reduceIte]
    split
    · simp only [reduceCtorEq, false_iff]
      omega
    · simp only [Option.some.injEq]
      omega
  | true =>
    simp only [↓reduceIte]
    rcases Nat.eq_zero_or_pos v with rfl | hpos
    · rw [zero_add, Nat.mod_eq_of_lt (by omega), if_pos (by omega)]
      simp
    · have hpred : (v + size.ulongMax) % 2 ^ size.bits = v - 1 := by
        rw [show v + size.ulongMax = v - 1 + 2 ^ size.bits by omega, Nat.add_mod_right,
          Nat.mod_eq_of_lt (by omega)]
      rw [hpred, Nat.mod_eq_of_lt (show 2 ^ size.bits - v < 2 ^ size.bits by omega)]
      split
      · simp only [reduceCtorEq, false_iff]
        omega
      · simp only [Option.some.injEq]
        omega

theorem handleNumericFrom_iff (neg : Bool) (text : List UInt8) (idx : Nat) :
    handleNumericFrom size neg (text.length + 1 + neg.toNat) (text ++ [0]) = some idx ↔
      IsCanonical text ∧
        if neg then 1 ≤ decimalValue text 0 ∧ decimalValue text 0 ≤ size.longMax + 1 ∧
          idx = 2 ^ size.bits - decimalValue text 0
        else decimalValue text 0 ≤ size.longMax ∧ idx = decimalValue text 0 := by
  match text with
  | [] =>
    have hzero : isDigit 0 = false := by decide
    constructor
    · intro h
      simp [handleNumericFrom, hzero] at h
    · intro h
      exact absurd rfl h.1.ne_nil
  | b :: rest =>
    have hlast : (b :: (rest ++ [0])).getLast? = some 0 := by
      rw [← cons_append, getLast?_append]
      rfl
    have hbody : (rest ++ [(0 : UInt8)]).dropLast = rest := dropLast_concat
    have hlength : (rest ++ [(0 : UInt8)]).length = rest.length + 1 := by simp
    rw [cons_append, length_cons, handleNumericFrom]
    simp only [hlast, hbody, hlength, ne_eq, not_true_eq_false, ↓reduceIte]
    by_cases hb : isDigit b = true
    · rw [if_pos hb]
      have hfirst : digitValue b % 2 ^ size.bits = digitValue b := by
        have := (digitValue_spec hb).1
        cases size <;> simp only [LongSize.bits] <;> omega
      have hvalue : decimalValue rest (digitValue b) = decimalValue (b :: rest) 0 := by
        simp [decimalValue]
      obtain ⟨hend, hidx⟩ := digitsLoop_spec size rest (digitValue b)
      rw [hfirst, hvalue] at hidx
      rw [hfirst] at hend
      by_cases hzero : b = byte '0' ∧ rest.length + 1 + 1 + neg.toNat > 2
      · rw [if_pos hzero]
        simp only [reduceCtorEq, false_iff]
        rintro ⟨hcanonical, hrange⟩
        have hone := hcanonical.head (by rw [hzero.1]; rfl)
        rw [length_cons] at hone
        cases neg with
        | false =>
          simp only [Bool.toNat_false] at hzero
          omega
        | true =>
          obtain rfl := length_eq_zero_iff.mp (show rest.length = 0 by omega)
          obtain ⟨rfl, -⟩ := hzero
          exact absurd hrange.1 (by decide)
      · rw [if_neg hzero]
        by_cases hlong : rest.length + 1 > size.maxLengthOfLong - 1
        · rw [if_pos hlong]
          simp only [reduceCtorEq, false_iff]
          rintro ⟨hcanonical, hrange⟩
          apply (value_passes hcanonical _).1 hlong
          split at hrange
          · exact hrange.2.1
          · omega
        · rw [if_neg hlong]
          by_cases hfour : size.sizeofLong = 4 ∧
              rest.length + 1 = size.maxLengthOfLong - 1 ∧ b > byte '2'
          · rw [if_pos hfour]
            simp only [reduceCtorEq, false_iff]
            rintro ⟨hcanonical, hrange⟩
            apply (value_passes hcanonical _).2 hfour
            split at hrange
            · exact hrange.2.1
            · omega
          · rw [if_neg hfour]
            by_cases hdigits : ∀ c ∈ rest, isDigit c = true
            · have hall : ∀ c ∈ b :: rest, isDigit c = true := by
                intro c hc
                rcases mem_cons.mp hc with rfl | hc
                · exact hb
                · exact hdigits c hc
              have hcanonical : IsCanonical (b :: rest) := by
                refine ⟨cons_ne_nil b rest, hall, fun hhead => ?_⟩
                rw [head?_cons, Option.some.injEq] at hhead
                rw [length_cons]
                by_contra hlong
                exact hzero ⟨hhead, by omega⟩
              have hlt := value_lt hall hlong hfour
              rw [if_pos (hend.mpr hdigits), hidx hdigits, Nat.mod_eq_of_lt hlt,
                handleNumeric_range neg hlt]
              exact ⟨fun h => ⟨hcanonical, h⟩, fun h => h.2⟩
            · rw [if_neg fun h => hdigits (hend.mp h)]
              simp only [reduceCtorEq, false_iff]
              rintro ⟨hcanonical, -⟩
              exact hdigits fun c hc => hcanonical.digits c (mem_cons_of_mem b hc)
    · rw [if_neg hb]
      simp only [reduceCtorEq, false_iff]
      rintro ⟨hcanonical, -⟩
      exact hb (hcanonical.digits b mem_cons_self)

/-- A text that is not longer than the longest value is printed from its value. -/
theorem IsCanonical.printLong_value {text : List UInt8} (h : IsCanonical text)
    (hv : decimalValue text 0 ≤ size.longMax + 1) : printUnsigned (decimalValue text 0) = text := by
  apply h.print
  match text, h, hv with
  | b :: rest, h, hv =>
    have hlength := (value_passes h hv).1
    rw [length_cons]
    cases size <;> simp only [LongSize.maxLengthOfLong] at hlength <;> omega

namespace LongSize

theorem longMax_lt (size : LongSize) : size.longMax + 1 < ulongMod := by
  cases size <;> decide

theorem longMin_eq (size : LongSize) : size.longMin = -((size.longMax + 1 : Nat) : Int) := by
  cases size <;> decide

theorem two_pow_bits (size : LongSize) : 2 ^ size.bits = 2 * (size.longMax + 1) := by
  cases size <;> decide

theorem toLong_isLong {idx : Nat} (h : idx < 2 ^ size.bits) : size.IsLong (size.toLong idx) := by
  have hmin := size.longMin_eq
  have hpow := size.two_pow_bits
  have hcast : ((2 : Int) ^ size.bits) = ((2 ^ size.bits : Nat) : Int) := by norm_cast
  rw [IsLong, toLong]
  split <;> omega

theorem ofLong_lt (size : LongSize) (n : Int) : size.ofLong n < 2 ^ size.bits := by
  have hcast : ((2 : Int) ^ size.bits) = ((2 ^ size.bits : Nat) : Int) := by norm_cast
  rw [ofLong, hcast]
  omega

theorem ofLong_of_nonneg {n : Int} (hn : 0 ≤ n) (h : size.IsLong n) : size.ofLong n = n.toNat := by
  have hpow := size.two_pow_bits
  have hcast : ((2 : Int) ^ size.bits) = ((2 ^ size.bits : Nat) : Int) := by norm_cast
  obtain ⟨-, hhigh⟩ := h
  rw [ofLong, hcast, Int.emod_eq_of_lt hn (by omega)]

theorem ofLong_of_neg {n : Int} (hn : n < 0) (h : size.IsLong n) :
    size.ofLong n = 2 ^ size.bits - (-n).toNat := by
  have hmin := size.longMin_eq
  have hpow := size.two_pow_bits
  have hcast : ((2 : Int) ^ size.bits) = ((2 ^ size.bits : Nat) : Int) := by norm_cast
  obtain ⟨hlow, -⟩ := h
  have hround : n % (2 ^ size.bits : Nat) = n + (2 ^ size.bits : Nat) := by
    rw [← Int.add_emod_right]
    exact Int.emod_eq_of_lt (by omega) (by omega)
  rw [ofLong, hcast, hround]
  omega

theorem toLong_ofLong {n : Int} (h : size.IsLong n) : size.toLong (size.ofLong n) = n := by
  have hmin := size.longMin_eq
  have hpow := size.two_pow_bits
  have hcast : ((2 : Int) ^ size.bits) = ((2 ^ size.bits : Nat) : Int) := by norm_cast
  obtain ⟨hlow, hhigh⟩ := id h
  rcases lt_or_ge n 0 with hneg | hpos
  · rw [ofLong_of_neg hneg h, toLong, if_neg (by omega)]
    omega
  · rw [ofLong_of_nonneg hpos h, toLong, if_pos (by omega)]
    omega

end LongSize

/-- The macro takes a text for an index exactly if it is what `%ld` prints for it. -/
theorem handleNumericEx_iff (s : List UInt8) (idx : Nat) :
    zendHandleNumericEx size (s ++ [0]) = some idx ↔
      idx < 2 ^ size.bits ∧ s = printLong (size.toLong idx) := by
  have hmax := size.longMax_lt
  have hpow := size.two_pow_bits
  have hcast : ((2 : Int) ^ size.bits) = ((2 ^ size.bits : Nat) : Int) := by norm_cast
  by_cases hneg : s.head? = some (byte '-')
  · obtain ⟨text, rfl⟩ : ∃ text, s = byte '-' :: text := by
      match s, hneg with
      | b :: text, hneg => exact ⟨text, by rw [Option.some.inj hneg]⟩
    have hloop : zendHandleNumericEx size (byte '-' :: text ++ [0]) =
        handleNumericFrom size true (text.length + 1 + true.toNat) (text ++ [0]) := by
      simp [zendHandleNumericEx]
    rw [hloop, handleNumericFrom_iff, if_pos rfl]
    constructor
    · rintro ⟨hcanonical, hpos, hlimit, rfl⟩
      have hlong : size.toLong (2 ^ size.bits - decimalValue text 0) =
          -(decimalValue text 0 : Int) := by
        rw [LongSize.toLong, if_neg (by omega), hcast]
        omega
      refine ⟨by omega, ?_⟩
      rw [hlong, printLong, if_pos (by omega), neg_neg, Int.toNat_natCast,
        Nat.mod_eq_of_lt (by omega), hcanonical.printLong_value hlimit]
    · rintro ⟨hlt, htext⟩
      rw [printLong] at htext
      split at htext
      next hnegative =>
        rw [LongSize.toLong] at hnegative htext
        split at hnegative
        · omega
        next hlarge =>
          rw [if_neg hlarge] at htext
          have habs : (-((idx : Int) - 2 ^ size.bits)).toNat % ulongMod = 2 ^ size.bits - idx := by
            rw [hcast, Nat.mod_eq_of_lt (by omega)]
            omega
          rw [habs] at htext
          have hbound : 2 ^ size.bits - idx < ulongMod := by omega
          obtain rfl := (List.cons.inj htext).2
          rw [decimalValue_printUnsigned hbound]
          exact ⟨printUnsigned_canonical hbound, by omega, by omega, by omega⟩
      · have hdigit := printUnsigned_digits (size.toLong idx).toNat (byte '-') (by
          rw [← htext]
          exact mem_cons_self)
        cases hdigit
  · have hloop : zendHandleNumericEx size (s ++ [0]) =
        handleNumericFrom size false (s.length + 1 + false.toNat) (s ++ [0]) := by
      have hhead : (s ++ [0]).head? ≠ some (byte '-') := by
        cases s with
        | nil => decide
        | cons b text => exact hneg
      rw [zendHandleNumericEx, if_neg hhead]
      simp
    rw [hloop, handleNumericFrom_iff, if_neg Bool.false_ne_true]
    constructor
    · rintro ⟨hcanonical, hlimit, rfl⟩
      have hlong : size.toLong (decimalValue s 0) = (decimalValue s 0 : Int) :=
        if_pos hlimit
      refine ⟨by omega, ?_⟩
      rw [hlong, printLong, if_neg (by omega), Int.toNat_natCast,
        hcanonical.printLong_value (Nat.le_succ_of_le hlimit)]
    · rintro ⟨hlt, htext⟩
      rw [printLong] at htext
      split at htext
      · rw [htext] at hneg
        exact absurd rfl hneg
      next hnonneg =>
        rw [LongSize.toLong] at hnonneg htext
        split at hnonneg
        next hsmall =>
          rw [if_pos hsmall, Int.toNat_natCast] at htext
          rw [htext, decimalValue_printUnsigned (by omega)]
          exact ⟨printUnsigned_canonical (by omega), hsmall, rfl⟩
        · omega

theorem handleNumericEx_printLong {n : Int} (h : size.IsLong n) :
    zendHandleNumericEx size (printLong n ++ [0]) = some (size.ofLong n) := by
  rw [handleNumericEx_iff, LongSize.toLong_ofLong h]
  exact ⟨size.ofLong_lt n, rfl⟩

theorem zendSymtable_printLong {ρ : Type} (byIndex : Nat → ρ) (byString : ρ) {n : Int}
    (h : size.IsLong n) :
    zendSymtable size byIndex byString (printLong n ++ [0]) = byIndex (size.ofLong n) := by
  rw [zendSymtable, handleNumericEx_printLong h]

theorem zendSymtable_text {ρ : Type} (byIndex : Nat → ρ) (byString : ρ) {s : List UInt8}
    (h : ∀ n, size.IsLong n → s ≠ printLong n) :
    zendSymtable size byIndex byString (s ++ [0]) = byString := by
  have hnone : zendHandleNumericEx size (s ++ [0]) = none := by
    rw [Option.eq_none_iff_forall_ne_some]
    intro idx hidx
    rw [handleNumericEx_iff] at hidx
    exact h _ (LongSize.toLong_isLong hidx.1) hidx.2
  rw [zendSymtable, hnone]

end Exactness

section Keys

variable {δ : Type}

/-- What the functions on symbol tables do with the key `s`, when `key` says which index it
stands for, if any. -/
def SymtableKeyIs (intern : Nat → KeyBytes) (arKey : KeyArg) (key : Option Nat) : Prop :=
  ∀ (ht : HashTable δ) (data : δ) (mode : UpdateMode) (pos : Option Addr) (garbage : KeyPtr),
    match key with
    | some idx =>
      zendSymtableUpdate intern ht arKey data =
          zendHashIndexUpdateOrNextInsert ht idx data .update ∧
        zendSymtableDel intern ht arKey = zendHashDelKeyOrIndex intern ht (.index idx) ∧
        zendSymtableFind intern ht arKey = zendHashIndexFind ht idx ∧
        zendSymtableExists intern ht arKey = zendHashIndexExists ht idx ∧
        zendSymtableUpdateCurrentKeyEx intern ht arKey mode pos garbage =
          zendHashUpdateCurrentKeyEx intern ht (.long idx) mode pos garbage
    | none =>
      zendSymtableUpdate intern ht arKey data = zendHashAddOrUpdate intern ht arKey data .update ∧
        zendSymtableDel intern ht arKey = zendHashDelKeyOrIndex intern ht (.key arKey) ∧
        zendSymtableFind intern ht arKey = zendHashFind intern ht arKey ∧
        zendSymtableExists intern ht arKey = zendHashExists intern ht arKey ∧
        zendSymtableUpdateCurrentKeyEx intern ht arKey mode pos garbage =
          zendHashUpdateCurrentKeyEx intern ht (.string arKey) mode pos garbage

theorem symtableKey_index (intern : Nat → KeyBytes) {arKey : KeyArg} {n : Int}
    (hkey : arKey.read intern = printLong n ++ [0]) (h : LongSize.eight.IsLong n) :
    @SymtableKeyIs δ intern arKey (some (LongSize.eight.ofLong n)) := by
  intro ht data mode pos garbage
  refine ⟨?_, ?_, ?_, ?_, ?_⟩
  · rw [zendSymtableUpdate, hkey, zendSymtable_printLong _ _ h]
  · rw [zendSymtableDel, hkey, zendSymtable_printLong _ _ h]
  · rw [zendSymtableFind, hkey, zendSymtable_printLong _ _ h]
  · rw [zendSymtableExists, hkey, zendSymtable_printLong _ _ h]
  · rw [zendSymtableUpdateCurrentKeyEx, hkey, zendSymtable_printLong _ _ h]

theorem symtableKey_text (intern : Nat → KeyBytes) {arKey : KeyArg} {s : List UInt8}
    (hkey : arKey.read intern = s ++ [0]) (h : ∀ n, LongSize.eight.IsLong n → s ≠ printLong n) :
    @SymtableKeyIs δ intern arKey none := by
  intro ht data mode pos garbage
  refine ⟨?_, ?_, ?_, ?_, ?_⟩
  · rw [zendSymtableUpdate, hkey, zendSymtable_text _ _ h]
  · rw [zendSymtableDel, hkey, zendSymtable_text _ _ h]
  · rw [zendSymtableFind, hkey, zendSymtable_text _ _ h]
  · rw [zendSymtableExists, hkey, zendSymtable_text _ _ h]
  · rw [zendSymtableUpdateCurrentKeyEx, hkey, zendSymtable_text _ _ h]

/-- Keys are normalised exactly.  The text of an integer is the integer for every function
on symbol tables, and any other text is a string for all of them. -/
theorem symtable_normalises : (∀ (size : LongSize) (s : List UInt8) (idx : Nat),
      zendHandleNumericEx size (s ++ [0]) = some idx ↔
        idx < 2 ^ size.bits ∧ ∃ n, size.IsLong n ∧ s = printLong n ∧ size.toLong idx = n) ∧
    (∀ (size : LongSize) (n : Int), size.IsLong n →
      zendHandleNumericEx size (printLong n ++ [0]) = some (size.ofLong n) ∧
        size.toLong (size.ofLong n) = n) ∧
    ∀ (δ : Type) (intern : Nat → KeyBytes) (arKey : KeyArg) (s : List UInt8),
      arKey.read intern = s ++ [0] → (∀ n, LongSize.eight.IsLong n → s = printLong n →
          @SymtableKeyIs δ intern arKey (some (LongSize.eight.ofLong n))) ∧
        ((∀ n, LongSize.eight.IsLong n → s ≠ printLong n) →
          @SymtableKeyIs δ intern arKey none) := by
  refine ⟨fun size s idx => ?_, fun size n h => ?_, fun δ intern arKey s hkey => ?_⟩
  · rw [handleNumericEx_iff]
    constructor
    · rintro ⟨hlt, htext⟩
      exact ⟨hlt, _, LongSize.toLong_isLong hlt, htext, rfl⟩
    · rintro ⟨hlt, n, -, htext, rfl⟩
      exact ⟨hlt, htext⟩
  · exact ⟨handleNumericEx_printLong h, LongSize.toLong_ofLong h⟩
  · constructor
    · rintro n hn rfl
      exact symtableKey_index intern hkey hn
    · exact symtableKey_text intern hkey

example : zendHandleNumericEx .four ("-2147483648".toList.map byte ++ [0]) = some (2 ^ 31) := by
  decide

end Keys

end PhpEngine

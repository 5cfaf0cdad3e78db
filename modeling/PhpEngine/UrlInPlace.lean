/-
URL decoding in place (ext/standard/url.c): `php_url_decode` and
`php_raw_url_decode` write behind the cursor they read from.
-/
import PhpEngine.PostVars
import PhpEngine.QueryText

namespace PhpEngine

open List

/-- The loop of `php_url_decode`, and without `plus` the one of `php_raw_url_decode`.  It yields
the memory and where the zero stands. -/
def urlDecodeLoop (plus : Bool) (buf : Nat → UInt8) (data dest : Nat) : Nat → (Nat → UInt8) × Nat
  | 0 => (Memory.store buf dest [0], dest)
  | len + 1 =>
    if plus ∧ buf data = byte '+' then
      urlDecodeLoop plus (Memory.store buf dest [byte ' ']) (data + 1) (dest + 1) len
    else if buf data = byte '%' ∧ 2 ≤ len ∧ isXDigit (buf (data + 1)) ∧
        isXDigit (buf (data + 2)) then
      urlDecodeLoop plus
        (Memory.store buf dest [phpHtoi (buf (data + 1)) (buf (data + 2))]) (data + 3)
        (dest + 1) (len - 2)
    else
      urlDecodeLoop plus (Memory.store buf dest [buf data]) (data + 1) (dest + 1) len
termination_by len => len
decreasing_by
  · exact Nat.lt_succ_self len
  · exact Nat.lt_succ_of_le (Nat.sub_le len 2)
  · exact Nat.lt_succ_self len

/-- `php_url_decode`: the memory and the new length. -/
def phpUrlDecodeInPlace (buf : Nat → UInt8) (str len : Nat) : (Nat → UInt8) × Nat :=
  let out := urlDecodeLoop true buf str str len
  (out.1, out.2 - str)

/-- `php_raw_url_decode` -/
def phpRawUrlDecodeInPlace (buf : Nat → UInt8) (str len : Nat) : (Nat → UInt8) × Nat :=
  let out := urlDecodeLoop false buf str str len
  (out.1, out.2 - str)

/-! What decoding means for a text. -/

def decodeText (plus : Bool) : List UInt8 → List UInt8
  | c :: s0 :: s1 :: text =>
    if plus ∧ c = byte '+' then byte ' ' :: decodeText plus (s0 :: s1 :: text)
    else if c = byte '%' ∧ isXDigit s0 ∧ isXDigit s1 then
      phpHtoi s0 s1 :: decodeText plus text
    else c :: decodeText plus (s0 :: s1 :: text)
  | c :: text => (if plus ∧ c = byte '+' then byte ' ' else c) :: decodeText plus text
  | [] => []

section Text

variable {plus : Bool}

theorem decodeText_plus (text : List UInt8) :
    decodeText true (byte '+' :: text) = byte ' ' :: decodeText true text := by
  match text with
  | [] => rfl
  | [_] => rfl
  | s0 :: s1 :: text => rw [decodeText, if_pos ⟨rfl, rfl⟩]

theorem decodeText_percent {s0 s1 : UInt8} (h0 : isXDigit s0 = true) (h1 : isXDigit s1 = true)
    (text : List UInt8) :
    decodeText plus (byte '%' :: s0 :: s1 :: text) = phpHtoi s0 s1 :: decodeText plus text := by
  rw [decodeText, if_neg fun h => absurd h.2 (by decide), if_pos ⟨rfl, h0, h1⟩]

theorem decodeText_other {c : UInt8} {text : List UInt8} (hplus : ¬ (plus ∧ c = byte '+'))
    (hpercent : ∀ s0 s1 rest, text = s0 :: s1 :: rest →
      ¬ (c = byte '%' ∧ isXDigit s0 ∧ isXDigit s1)) :
    decodeText plus (c :: text) = c :: decodeText plus text := by
  match text with
  | [] => rw [decodeText, if_neg hplus]; simp
  | [_] => rw [decodeText, if_neg hplus]; simp
  | s0 :: s1 :: rest => rw [decodeText, if_neg hplus, if_neg (hpercent s0 s1 rest rfl)]

end Text

/-- Writing one byte behind the reading cursor leaves what is still to be read. -/
theorem slice_store_one {buf : Nat → UInt8} {dest data n : Nat} (h : dest < data) (b : UInt8) :
    Memory.slice (Memory.store buf dest [b]) data n = Memory.slice buf data n :=
  Memory.slice_store_behind h

theorem slice_succ (buf : Nat → UInt8) (p n : Nat) :
    Memory.slice buf p (n + 1) = buf p :: Memory.slice buf (p + 1) n := by
  rw [add_comm, Memory.slice_append, Memory.slice_one, singleton_append]

/-- The outcome of a loop that leaves `text` and a zero from `dest` on. -/
structure Leaves (buf : Nat → UInt8) (dest : Nat) (text : List UInt8)
    (out : (Nat → UInt8) × Nat) : Prop where
  stop : out.2 = dest + text.length
  text : Memory.slice out.1 dest (text.length + 1) = text ++ [0]
  before : ∀ i < dest, out.1 i = buf i

theorem Leaves.cons {buf : Nat → UInt8} {dest : Nat} {text : List UInt8} {b : UInt8}
    {out : (Nat → UInt8) × Nat} (h : Leaves (Memory.store buf dest [b]) (dest + 1) text out) :
    Leaves buf dest (b :: text) out where
  stop := by
    rw [h.stop, length_cons]
    omega
  text := by
    have hb : out.1 dest = b := by
      rw [h.before dest (Nat.lt_succ_self dest), Memory.store, if_pos (le_refl dest)]
      simp
    rw [length_cons, slice_succ, h.text, hb, cons_append]
  before := by
    intro i hi
    rw [h.before i (Nat.lt_succ_of_lt hi), Memory.store_of_lt hi]

/-- The loop refines the decoding of the text at its reading cursor. -/
theorem urlDecodeLoop_leaves (plus : Bool) (len : Nat) (buf : Nat → UInt8) {data dest : Nat}
    (h : dest ≤ data) : Leaves buf dest (decodeText plus (Memory.slice buf data len))
      (urlDecodeLoop plus buf data dest len) := by
  induction len using Nat.strong_induction_on generalizing buf data dest with
  | h len ih =>
    match len with
    | 0 =>
      rw [urlDecodeLoop]
      refine ⟨rfl, ?_, fun i hi => Memory.store_of_lt hi⟩
      exact Memory.slice_store buf dest [0]
    | len + 1 =>
      rw [urlDecodeLoop, slice_succ]
      by_cases hplus : plus ∧ buf data = byte '+'
      · rw [if_pos hplus, hplus.1, hplus.2, decodeText_plus]
        apply Leaves.cons
        rw [← slice_store_one (Nat.lt_succ_of_le h) (byte ' '), ← hplus.1]
        exact ih len (Nat.lt_succ_self len) _ (Nat.succ_le_succ h)
      rw [if_neg hplus]
      by_cases hpercent : buf data = byte '%' ∧ 2 ≤ len ∧ isXDigit (buf (data + 1)) ∧
          isXDigit (buf (data + 2))
      · obtain ⟨hbyte, hlen, h0, h1⟩ := hpercent
        obtain ⟨n, rfl⟩ : ∃ n, len = n + 2 := ⟨len - 2, by omega⟩
        rw [if_pos ⟨hbyte, hlen, h0, h1⟩, hbyte, slice_succ, slice_succ, decodeText_percent h0 h1]
        apply Leaves.cons
        rw [← slice_store_one (Nat.lt_succ_of_le (Nat.le_add_right_of_le h))
          (phpHtoi (buf (data + 1)) (buf (data + 2)))]
        exact ih n (by omega) _ (by omega)
      · rw [if_neg hpercent, decodeText_other hplus]
        · apply Leaves.cons
          rw [← slice_store_one (Nat.lt_succ_of_le h) (buf data)]
          exact ih len (Nat.lt_succ_self len) _ (Nat.succ_le_succ h)
        · rintro s0 s1 rest hrest ⟨hbyte, h0, h1⟩
          match len with
          | 0 => cases hrest
          | 1 => cases hrest
          | n + 2 =>
            rw [slice_succ, slice_succ, List.cons.injEq, List.cons.injEq] at hrest
            refine hpercent ⟨hbyte, Nat.le_add_left 2 n, ?_, ?_⟩
            · rw [hrest.1]
              exact h0
            · rw [show data + 2 = data + 1 + 1 from rfl, hrest.2.1]
              exact h1

/-- `decode` finds `encoded` in memory and leaves `s` there, with a zero behind it. -/
def DecodesTo (decode : (Nat → UInt8) → Nat → Nat → (Nat → UInt8) × Nat)
    (encoded s : List UInt8) : Prop :=
  ∀ (buf : Nat → UInt8) (str : Nat),
    (decode (Memory.store buf str encoded) str encoded.length).2 = s.length ∧
    Memory.slice (decode (Memory.store buf str encoded) str encoded.length).1 str
      (s.length + 1) = s ++ [0]

theorem phpUrlDecodeInPlace_decodes {encoded s : List UInt8} (h : decodeText true encoded = s) :
    DecodesTo phpUrlDecodeInPlace encoded s := by
  intro buf str
  have hleaves := urlDecodeLoop_leaves true encoded.length (Memory.store buf str encoded)
    (le_refl str)
  rw [Memory.slice_store, h] at hleaves
  exact ⟨by rw [phpUrlDecodeInPlace, hleaves.stop, Nat.add_sub_cancel_left], hleaves.text⟩

theorem phpRawUrlDecodeInPlace_decodes {encoded s : List UInt8}
    (h : decodeText false encoded = s) : DecodesTo phpRawUrlDecodeInPlace encoded s := by
  intro buf str
  have hleaves := urlDecodeLoop_leaves false encoded.length (Memory.store buf str encoded)
    (le_refl str)
  rw [Memory.slice_store, h] at hleaves
  exact ⟨by rw [phpRawUrlDecodeInPlace, hleaves.stop, Nat.add_sub_cancel_left], hleaves.text⟩

/-! What the encoders emit. -/

/-- `[A-Za-z0-9._-]` -/
def isUnreserved (b : UInt8) : Bool :=
  isDigit b || (byte 'A' ≤ b && b ≤ byte 'Z') || (byte 'a' ≤ b && b ≤ byte 'z') ||
    b == byte '.' || b == byte '_' || b == byte '-'

def isUpperXDigit (b : UInt8) : Bool :=
  isDigit b || (byte 'A' ≤ b && b ≤ byte 'F')

/-- An unreserved byte, the byte `extra` or a `%XX`. -/
def isPiece (extra : UInt8) : List UInt8 → Bool
  | [b] => isUnreserved b || b == extra
  | [b, hi, lo] => b == byte '%' && isUpperXDigit hi && isUpperXDigit lo
  | _ => false

theorem urlEncodeByte_isPiece (c : UInt8) : isPiece (byte '+') (urlEncodeByte c) = true := by
  revert c
  apply forall_byte
  decide +kernel

theorem rawUrlEncodeByte_isPiece (c : UInt8) : isPiece (byte '~') (rawUrlEncodeByte c) = true := by
  revert c
  apply forall_byte
  decide +kernel

theorem plus_not_mem_rawUrlEncodeByte (c : UInt8) :
    (rawUrlEncodeByte c).contains (byte '+') = false := by
  revert c
  apply forall_byte
  decide +kernel

theorem decodeText_written {plus : Bool} {c : UInt8} {text : List UInt8} (h : WrittenAs c text)
    (hplus : plus = true ∨ byte '+' ∉ text) (rest : List UInt8) :
    decodeText plus (text ++ rest) = c :: decodeText plus rest := by
  rcases h with ⟨rfl, hc, hpercent⟩ | ⟨rfl, rfl⟩ | ⟨s0, -, s1, -, rfl, h0, h1, rfl⟩
  · exact decodeText_other (fun h => hc h.2) fun _ _ _ _ h => hpercent h.1
  · rcases hplus with rfl | hplus
    · exact decodeText_plus rest
    · exact absurd mem_cons_self hplus
  · exact decodeText_percent h0 h1 rest

theorem decodeText_phpUrlEncode (s : List UInt8) : decodeText true (phpUrlEncode s) = s := by
  induction s with
  | nil => rfl
  | cons c s ih =>
    rw [phpUrlEncode, flatMap_cons, decodeText_written (urlEncodeByte_writes c).1 (.inl rfl)]
    exact congrArg (c :: ·) ih

theorem decodeText_phpRawUrlEncode (s : List UInt8) : decodeText false (phpRawUrlEncode s) = s := by
  induction s with
  | nil => rfl
  | cons c s ih =>
    have hplus : byte '+' ∉ rawUrlEncodeByte c := by
      simpa using plus_not_mem_rawUrlEncodeByte c
    rw [phpRawUrlEncode, flatMap_cons,
      decodeText_written (rawUrlEncodeByte_writes c).1 (.inr hplus)]
    exact congrArg (c :: ·) ih

theorem decodeText_plain {plus : Bool} {s : List UInt8} (hpercent : byte '%' ∉ s)
    (hplus : plus = true → byte '+' ∉ s) : decodeText plus s = s := by
  induction s with
  | nil => rfl
  | cons c s ih =>
    rw [decodeText_other]
    · rw [ih]
      · exact fun h => hpercent (mem_cons_of_mem c h)
      · exact fun h h' => hplus h (mem_cons_of_mem c h')
    · rintro ⟨h, rfl⟩
      exact hplus h mem_cons_self
    · rintro _ _ _ _ ⟨rfl, -⟩
      exact hpercent mem_cons_self

end PhpEngine

/-
The filter `convert.quoted-printable-encode` against
`quoted_printable_decode`.  What it writes reads back as the bytes it was
given, unless a carriage return that opens a line break is the last byte of a
portion and the line feed the first of the next, or the bytes end in one.
-/
import PhpEngine.QpText

namespace PhpEngine

open List

/-- The text is well formed and stands for these bytes. -/
def Writes (text bytes : List UInt8) : Prop :=
  ∃ tokens, text = qpText tokens ∧ qpBytes tokens = bytes

theorem Writes.decode {text bytes : List UInt8} (h : Writes text bytes) :
    quotedPrintableDecode text = bytes := by
  obtain ⟨tokens, rfl, rfl⟩ := h
  exact quotedPrintableDecode_text tokens

theorem writes_nil : Writes [] [] :=
  ⟨[], rfl, rfl⟩

theorem Writes.append {text text' bytes bytes' : List UInt8}
    (h : Writes text bytes) (h' : Writes text' bytes') :
    Writes (text ++ text') (bytes ++ bytes') := by
  obtain ⟨tokens, rfl, rfl⟩ := h
  obtain ⟨tokens', rfl, rfl⟩ := h'
  exact ⟨tokens ++ tokens', (qpText_append _ _).symm, qpBytes_append _ _⟩

theorem QpToken.bytes_le_text (t : QpToken) : t.bytes.length ≤ t.text.length := by
  cases t with
  | literal b ok => exact le_rfl
  | escape h l ok => exact Nat.le_add_left 1 2
  | softBreak blanks ok => exact Nat.zero_le _

theorem Writes.length_le {text bytes : List UInt8} (h : Writes text bytes) :
    bytes.length ≤ text.length := by
  obtain ⟨tokens, rfl, rfl⟩ := h
  induction tokens with
  | nil => exact le_rfl
  | cons t tokens ih =>
    have ht := t.bytes_le_text
    rw [qpText_cons, qpBytes_cons, length_append, length_append]
    omega

theorem writes_token (t : QpToken) : Writes t.text t.bytes :=
  ⟨[t], (append_nil _).symm, append_nil _⟩

theorem writes_literal {b : UInt8} (ok : b ≠ byte '=' ∧ b ≠ 0) : Writes [b] [b] :=
  writes_token (.literal b ok)

theorem writes_softBreak : Writes [byte '=', 13, 10] [] :=
  writes_token (.softBreak [] (by simp))

theorem writes_lineBreak : Writes [13, 10] [13, 10] :=
  (writes_literal (by decide)).append (writes_literal (by decide))

theorem qpDigits_digit {n : Nat} (hn : n < 16) : isXDigit (qpDigits.getD n 0) = true ∧
      phpHex2int (qpDigits.getD n 0) = n := by
  have htable : ∀ n : Fin 16, isXDigit (qpDigits.getD n.val 0) = true ∧
      phpHex2int (qpDigits.getD n.val 0) = n.val := by decide
  exact htable ⟨n, hn⟩

theorem writes_escaped (c : UInt8) : Writes (QprintEncode.escaped c) [c] := by
  have hc := c.toNat_lt
  have hhigh : c.toNat >>> 4 < 16 := by
    omega
  have hlow : c.toNat &&& 0x0f < 16 := by
    rw [Nat.and_two_pow_sub_one_eq_mod c.toNat 4]
    omega
  obtain ⟨hxhigh, hhex⟩ := qpDigits_digit hhigh
  obtain ⟨hxlow, hhex'⟩ := qpDigits_digit hlow
  have hsum : c.toNat / 2 ^ 4 * 16 + c.toNat % 2 ^ 4 = c.toNat := by omega
  have hvalue : UInt8.ofNat (phpHex2int (qpDigits.getD (c.toNat >>> 4) 0) * 16 +
      phpHex2int (qpDigits.getD (c.toNat &&& 0x0f) 0)) = c := by
    rw [hhex, hhex', Nat.shiftRight_eq_div_pow,
      Nat.and_two_pow_sub_one_eq_mod c.toNat 4, hsum, UInt8.ofNat_toNat]
  have htoken := writes_token (.escape _ _ ⟨hxhigh, hxlow⟩)
  rwa [QpToken.bytes, hvalue] at htoken

theorem writes_plain {inst : QprintEncode} {c : UInt8}
    (h : inst.isPlain c = true) : Writes [c] [c] := by
  apply writes_literal
  constructor
  · rintro rfl
    simp [QprintEncode.isPlain, byte] at h
  · rintro rfl
    simp [QprintEncode.isPlain] at h

theorem writes_blank {c : UInt8} (h : isBlank c = true) : Writes [c] [c] := by
  apply writes_literal
  constructor
  · rintro rfl
    nomatch h
  · rintro rfl
    nomatch h

/-- The text ends in an odd number of carriage returns: the last one opens a
line break, since two of them in a row are never looked at as one. -/
def oddReturns (text : List UInt8) : Bool :=
  (text.reverse.takeWhile (· == 13)).length % 2 == 1

theorem oddReturns_snoc (text : List UInt8) (b : UInt8) :
    oddReturns (text ++ [b]) = (b == 13 && !oddReturns text) := by
  rw [oddReturns, oddReturns, reverse_append, reverse_singleton, singleton_append, takeWhile_cons]
  by_cases hb : (b == 13) = true
  · rw [if_pos hb, hb, length_cons, Bool.true_and]
    rcases Nat.mod_two_eq_zero_or_one (text.reverse.takeWhile (· == 13)).length with h | h
    · rw [Nat.add_mod, h]
      rfl
    · rw [Nat.add_mod, h]
      rfl
  · rw [if_neg hb, Bool.not_eq_true] at *
    rw [hb]
    rfl

namespace QprintEncode

/-- The instances that a run with these settings meets. -/
structure Fits (binary : Bool) (inst : QprintEncode) : Prop where
  mode : inst.binary = binary
  lbchars : inst.lbchars = [13, 10]
  lineLen : 4 ≤ inst.lineLen
  lb : inst.lbPtr = 0 ∧ inst.lbCnt = 0 ∨ binary = false ∧ inst.lbPtr ≤ 1 ∧ inst.lbCnt = 1

/-- What is still to be written. -/
def pending (inst : QprintEncode) (input : List UInt8) : List UInt8 :=
  (if inst.lbPtr < inst.lbCnt then [13] else []) ++ input

/-- A carriage return that was already written is not completed to a line
break. -/
def Safe (inst : QprintEncode) (input : List UInt8) : Prop :=
  inst.lbPtr = 1 → inst.lbCnt = 1 → input.head? ≠ some 10

/-- What a turn reads, and the bytes it writes. -/
inductive Move (binary : Bool) (inst : QprintEncode) (input : List UInt8) :
    QprintEncode → List UInt8 → List UInt8 → Prop where
  | stay {inst' : QprintEncode} (hptr : inst'.lbPtr = inst.lbPtr)
      (hcnt : inst'.lbCnt = inst.lbCnt) (hsafe : Safe inst input)
      (hpending : pending inst input ≠ []) :
      Move binary inst input inst' input []
  | hold {inst' : QprintEncode} {rest : List UInt8} (hinput : input = 13 :: rest)
      (hbinary : binary = false) (hcnt : inst.lbCnt = 0)
      (hptr' : inst'.lbPtr = 0) (hcnt' : inst'.lbCnt = 1) :
      Move binary inst input inst' rest []
  | close {inst' : QprintEncode} {rest : List UInt8} (hinput : input = 10 :: rest)
      (hbinary : binary = false) (hcnt : inst.lbCnt = 1)
      (hptr' : inst'.lbPtr = 0) (hcnt' : inst'.lbCnt = 0) :
      Move binary inst input inst' rest [13, 10]
  | replay {inst' : QprintEncode} (hptr : inst.lbPtr = 0)
      (hcnt : inst.lbCnt = 1) (hinput : input.head? ≠ some 10)
      (hptr' : inst'.lbPtr = 1) (hcnt' : inst'.lbCnt = 1) :
      Move binary inst input inst' input [13]
  | take {inst' : QprintEncode} {c : UInt8} {rest : List UInt8}
      (hinput : input = c :: rest) (hptr : inst.lbPtr = inst.lbCnt)
      (hfirst : binary = false → inst.lbCnt = 0 → c ≠ 13)
      (hsecond : inst.lbCnt = 1 → c ≠ 10)
      (hptr' : inst'.lbPtr = 0) (hcnt' : inst'.lbCnt = 0) :
      Move binary inst input inst' rest [c]

section Move

variable {binary : Bool} {inst inst' : QprintEncode} {input input' bytes : List UInt8}

section

variable (h : Move binary inst input inst' input' bytes)
include h

theorem Move.safe : Safe inst' input' := by
  cases h with
  | stay hptr hcnt hsafe _ =>
    intro hptr' hcnt'
    exact hsafe (hptr ▸ hptr') (hcnt ▸ hcnt')
  | hold _ _ _ hptr' _ | close _ _ _ hptr' _ =>
    intro hptr
    omega
  | replay _ _ hinput _ _ =>
    intro _ _
    exact hinput
  | take _ _ _ _ hptr' _ =>
    intro hptr
    omega

/-- Nothing is lost, and nothing is written twice where it is safe. -/
theorem Move.pending_eq (hsafe : Safe inst input) (hfits : Fits binary inst) :
    bytes ++ pending inst' input' = pending inst input := by
  cases h with
  | stay hptr hcnt _ _ => rw [pending, pending, hptr, hcnt, nil_append]
  | hold hinput _ hcnt hptr' hcnt' =>
    rw [pending, pending, hptr', hcnt', hcnt, hinput, if_pos (by omega), if_neg (by omega)]
    rfl
  | close hinput _ hcnt hptr' hcnt' =>
    have hopen : inst.lbPtr < inst.lbCnt := by
      rcases hfits.lb with hlb | ⟨-, hlb, -⟩
      · omega
      · by_contra hnot
        exact hsafe (by omega) hcnt (by rw [hinput]; rfl)
    rw [pending, pending, hptr', hcnt', hinput, if_pos hopen, if_neg (by omega)]
    rfl
  | replay hptr hcnt _ hptr' hcnt' =>
    rw [pending, pending, hptr', hcnt', hptr, hcnt, if_neg (by omega), if_pos (by omega)]
    rfl
  | take hinput hptr _ _ hptr' hcnt' =>
    rw [pending, pending, hptr', hcnt', hptr, hinput, if_neg (by omega), if_neg (by omega)]
    rfl

/-- Where it is not, the carriage return is written twice. -/
theorem Move.pending_unsafe (hrisky : ¬ Safe inst input) :
    bytes ++ pending inst' input' = 13 :: pending inst input := by
  rw [Safe, Classical.not_imp, Classical.not_imp, Classical.not_not] at hrisky
  obtain ⟨hptr, hcnt, hhead⟩ := hrisky
  cases h with
  | stay _ _ hsafe _ => exact absurd hhead (hsafe hptr hcnt)
  | hold _ _ hcnt' _ _ => omega
  | close hinput _ _ hptr' hcnt' =>
    rw [pending, pending, hptr', hcnt', hptr, hcnt, hinput, if_neg (by omega), if_neg (by omega)]
    rfl
  | replay hptr' _ _ _ _ => omega
  | take hinput _ _ hsecond _ _ =>
    rw [hinput] at hhead
    exact absurd (Option.some.inj hhead) (hsecond hcnt)

end

/-- `lb_cnt` says whether what was read ends in a carriage return that opens a
line break. -/
def Linked (inst : QprintEncode) (seen : List UInt8) : Prop :=
  inst.lbCnt = 1 ↔ oddReturns seen = true

theorem Move.linked (h : Move false inst input inst' input' bytes) (hfits : Fits false inst) :
    ∃ consumed, input = consumed ++ input' ∧
      ∀ seen, Linked inst seen → Linked inst' (seen ++ consumed) := by
  cases h with
  | stay _ hcnt _ _ =>
    refine ⟨[], rfl, fun seen hlinked => ?_⟩
    rw [Linked, hcnt, append_nil]
    exact hlinked
  | hold hinput _ hcnt _ hcnt' =>
    refine ⟨[13], hinput, fun seen hlinked => ?_⟩
    have hseen : oddReturns seen = false := by
      rw [← Bool.not_eq_true]
      intro hodd
      have := hlinked.mpr hodd
      omega
    rw [Linked, hcnt', oddReturns_snoc, hseen]
    decide
  | close hinput _ _ _ hcnt' =>
    refine ⟨[10], hinput, fun seen _ => ?_⟩
    rw [Linked, hcnt', oddReturns_snoc]
    simp
  | replay _ hcnt _ _ hcnt' =>
    refine ⟨[], rfl, fun seen hlinked => ?_⟩
    rw [Linked, hcnt] at hlinked
    rw [Linked, hcnt', append_nil]
    exact hlinked
  | take hinput _ hfirst _ _ hcnt' =>
    refine ⟨[_], hinput, fun seen hlinked => ?_⟩
    rw [Linked, hcnt', oddReturns_snoc]
    rcases hfits.lb with ⟨-, hcnt⟩ | ⟨-, -, hcnt⟩
    · simp [hfirst rfl hcnt]
    · simp [hlinked.mp hcnt]

end Move

section Turn

variable {binary : Bool} {inst : QprintEncode} {input : List UInt8}

/-- A line is short if an escape may not fit in it. -/
def short (inst : QprintEncode) : Nat :=
  if inst.lineCcnt < 4 then 1 else 0

/-- A bound for the number of turns that are left. -/
def turnsLeft (inst : QprintEncode) (input : List UInt8) (trailWs : Nat) : Nat :=
  4 * input.length + 3 * (inst.lbCnt - inst.lbPtr) +
    (if inst.lineCcnt < 2 then 1 else 0) + (if trailWs = 0 then 1 else 0)

/-- What a turn with room for `ocnt` bytes does. -/
inductive Turned (binary : Bool) (inst : QprintEncode) (input : List UInt8)
    (trailWs ocnt : Nat) : Step → Prop where
  | done (hinput : input = []) (hclosed : inst.lbCnt ≤ inst.lbPtr) :
      Turned binary inst input trailWs ocnt (.out .success inst [] [])
  | stop {inst' : QprintEncode} {new : List UInt8} (hfits : Fits binary inst')
      (hptr : inst'.lbPtr = inst.lbPtr) (hcnt : inst'.lbCnt = inst.lbCnt)
      (hpending : pending inst input ≠ []) (hwrites : Writes new [])
      (hroom : new.length ≤ ocnt) (hfull : ocnt < 6)
      (hnone : new = [] → inst' = inst ∧ ocnt < 3)
      (hsome : new ≠ [] → inst'.short < inst.short) :
      Turned binary inst input trailWs ocnt (.out .tooBig inst' input new)
  | go {inst' : QprintEncode} {input' new bytes : List UInt8} {trailWs' : Nat}
      (hfits : Fits binary inst') (hmove : Move binary inst input inst' input' bytes)
      (hwrites : Writes new bytes) (hroom : new.length ≤ ocnt)
      (hturns : turnsLeft inst' input' trailWs' < turnsLeft inst input trailWs)
      (hload : (pending inst' input').length * 2 + inst'.short ≤
        (pending inst input).length * 2 + inst.short)
      (hless : new ≠ [] → (pending inst' input').length * 2 + inst'.short <
        (pending inst input).length * 2 + inst.short)
      (hspent : new.length + (pending inst' input').length * 9 +
        inst'.short * 3 ≤ (pending inst input).length * 9 + inst.short * 3) :
      Turned binary inst input trailWs ocnt (.go inst' input' trailWs' new)

theorem short_le (inst : QprintEncode) : inst.short ≤ 1 := by
  rw [short]
  split
  · exact le_rfl
  · exact Nat.zero_le _

section

variable (h : Fits binary inst)
include h

theorem Fits.ptr_le : inst.lbPtr ≤ inst.lbCnt ∧ inst.lbCnt ≤ 1 := by
  rcases h.lb with hlb | hlb
  · omega
  · omega

/-- The character that is written next. -/
def nextChar (inst : QprintEncode) (input : List UInt8) : UInt8 :=
  if inst.lbPtr < inst.lbCnt then inst.lbchars.getD inst.lbPtr 0
  else input.headD 0

theorem Fits.lookAhead_iff :
    inst.lookAhead input = true ↔ binary = false ∧ ∃ rest, (inst.lbCnt = 0 ∧ input = 13 :: rest ∨
        inst.lbCnt = 1 ∧ input = 10 :: rest) := by
  cases input with
  | nil => simp [lookAhead]
  | cons b rest =>
    rw [lookAhead, h.mode, h.lbchars]
    cases binary with
    | true => simp
    | false =>
      rcases h.lb with ⟨-, hcnt⟩ | ⟨-, -, hcnt⟩
      · rw [hcnt]
        constructor
        · intro hb
          have hb' : 13 = b := by simpa using hb
          exact ⟨rfl, rest, .inl ⟨rfl, by rw [hb']⟩⟩
        · rintro ⟨-, rest', ⟨-, hinput⟩ | ⟨hone, -⟩⟩
          · cases hinput
            rfl
          · omega
      · rw [hcnt]
        constructor
        · intro hb
          have hb' : 10 = b := by simpa using hb
          exact ⟨rfl, rest, .inr ⟨rfl, by rw [hb']⟩⟩
        · rintro ⟨-, rest', ⟨hzero, -⟩ | ⟨-, hinput⟩⟩
          · omega
          · cases hinput
            rfl

/-- Where the look-ahead finds nothing, a character is consumed. -/
theorem consume_move (hlook : inst.lookAhead input = false)
    (hmore : ¬ (inst.lbCnt ≤ inst.lbPtr ∧ input = [])) (n : Nat) :
    ∃ inst' input', consumeChar { inst with lineCcnt := n } input =
        (inst', input') ∧ inst'.lineCcnt = n ∧ Fits binary inst' ∧
      Move binary inst input inst' input' [inst.nextChar input] ∧
      (pending inst' input').length + 1 = (pending inst input).length ∧
      4 * input'.length + 3 * (inst'.lbCnt - inst'.lbPtr) + 3 ≤
        4 * input.length + 3 * (inst.lbCnt - inst.lbPtr) := by
  have hptr := h.ptr_le
  by_cases hopen : inst.lbPtr < inst.lbCnt
  · have hzero : inst.lbPtr = 0 := by omega
    have hone : inst.lbCnt = 1 := by omega
    have hbinary : binary = false := by
      rcases h.lb with hlb | hlb
      · omega
      · exact hlb.1
    have hnext : inst.nextChar input = 13 := by
      rw [nextChar, if_pos hopen, hzero, h.lbchars]
      rfl
    have hhead : input.head? ≠ some 10 := by
      intro hhead
      obtain ⟨rest, rfl⟩ := head?_eq_some_iff.mp hhead
      rw [h.lookAhead_iff.mpr ⟨hbinary, rest, .inr ⟨hone, rfl⟩⟩] at hlook
      nomatch hlook
    have hconsume : consumeChar { inst with lineCcnt := n } input =
        ({ inst with lineCcnt := n, lbPtr := inst.lbPtr + 1 }, input) := by
      rw [consumeChar, if_pos hopen]
    refine ⟨_, _, hconsume, rfl, ?_, ?_, ?_, ?_⟩
    · exact ⟨h.mode, h.lbchars, h.lineLen, .inr ⟨hbinary, by
        dsimp only; omega, hone⟩⟩
    · rw [hnext]
      exact .replay hzero hone hhead (by dsimp only; omega) hone
    · rw [pending, pending, if_pos hopen, if_neg (by dsimp only; omega)]
      simp
    · dsimp only
      omega
  · obtain ⟨c, rest, rfl⟩ : ∃ c rest, input = c :: rest := by
      apply exists_cons_of_ne_nil
      intro hnil
      exact hmore ⟨by omega, hnil⟩
    have hnext : inst.nextChar (c :: rest) = c := by
      rw [nextChar, if_neg hopen]
      rfl
    have hconsume : consumeChar { inst with lineCcnt := n } (c :: rest) =
        ({ inst with lineCcnt := n, lbPtr := 0, lbCnt := 0 }, rest) := by
      rw [consumeChar, if_neg hopen]
      rfl
    refine ⟨_, _, hconsume, rfl, ?_, ?_, ?_, ?_⟩
    · exact ⟨h.mode, h.lbchars, h.lineLen, .inl ⟨rfl, rfl⟩⟩
    · rw [hnext]
      refine .take rfl (by omega) ?_ ?_ rfl rfl
      · rintro hbinary hzero rfl
        rw [h.lookAhead_iff.mpr ⟨hbinary, rest, .inl ⟨hzero, rfl⟩⟩] at hlook
        nomatch hlook
      · rintro hone rfl
        have hbinary : binary = false := by
          rcases h.lb with hlb | hlb
          · omega
          · exact hlb.1
        rw [h.lookAhead_iff.mpr ⟨hbinary, rest, .inr ⟨hone, rfl⟩⟩] at hlook
        nomatch hlook
    · rw [pending, pending, if_neg hopen, if_neg (by dsimp only; omega)]
      simp
    · simp only [length_cons]
      omega

theorem Fits.binary_of_cnt (hone : inst.lbCnt = 1) : binary = false := by
  rcases h.lb with hlb | hlb
  · omega
  · exact hlb.1

theorem Fits.safe (hlook : inst.lookAhead input = false) : Safe inst input := by
  intro _ hone hhead
  obtain ⟨rest, rfl⟩ := head?_eq_some_iff.mp hhead
  rw [h.lookAhead_iff.mpr ⟨h.binary_of_cnt hone, rest, .inr ⟨hone, rfl⟩⟩] at hlook
  nomatch hlook

end

theorem pending_ne_nil (hmore : ¬ (inst.lbCnt ≤ inst.lbPtr ∧ input = [])) :
    pending inst input ≠ [] := by
  rw [pending]
  by_cases hopen : inst.lbPtr < inst.lbCnt
  · rw [if_pos hopen]
    nofun
  · rw [if_neg hopen, nil_append]
    intro hnil
    exact hmore ⟨by omega, hnil⟩

theorem Fits.softBreak_eq (h : Fits binary inst) :
    inst.softBreak = ({ inst with lineCcnt := inst.lineLen }, [byte '=', 13, 10]) := by
  rw [softBreak, h.lbchars]

theorem short_of_lt {n : Nat} (hn : inst.lineCcnt < n) (hfour : n ≤ 4) : inst.short = 1 := by
  rw [short, if_pos (by omega)]

theorem turnsLeft_le (trailWs : Nat) : turnsLeft inst input trailWs ≤
      4 * input.length + 3 * (inst.lbCnt - inst.lbPtr) + 2 := by
  rw [turnsLeft]
  split <;> split <;> omega

theorem le_turnsLeft (trailWs : Nat) : 4 * input.length + 3 * (inst.lbCnt - inst.lbPtr) ≤
      turnsLeft inst input trailWs := by
  rw [turnsLeft]
  omega

theorem consume_turned (h : Fits binary inst) (hlook : inst.lookAhead input = false)
    (hmore : ¬ (inst.lbCnt ≤ inst.lbPtr ∧ input = [])) (n : Nat)
    {new : List UInt8} (hwrites : Writes new [inst.nextChar input])
    {ocnt : Nat} (hroom : new.length ≤ ocnt)
    (hlong : new.length ≤ 3 + 3 * inst.short) (trailWs trailWs' : Nat) :
    Turned binary inst input trailWs ocnt (.go (consumeChar { inst with lineCcnt := n } input).1
        (consumeChar { inst with lineCcnt := n } input).2 trailWs' new) := by
  obtain ⟨inst', input', hconsume, hccnt, hfits, hmove, hless, hturns⟩ :=
    consume_move h hlook hmore n
  have hshort' := short_le inst'
  have hturns' := @turnsLeft_le inst' input' trailWs'
  have hturns'' := @le_turnsLeft inst input trailWs
  rw [hconsume]
  dsimp only
  refine .go hfits hmove hwrites hroom ?_ ?_ ?_ ?_
  · omega
  · omega
  · intro _
    omega
  · omega

/-- The call stops without having written anything in this turn. -/
theorem stop_turned (h : Fits binary inst)
    (hmore : ¬ (inst.lbCnt ≤ inst.lbPtr ∧ input = [])) {ocnt : Nat}
    (hocnt : ocnt < 3) (trailWs : Nat) :
    Turned binary inst input trailWs ocnt (.out .tooBig inst input []) :=
  .stop h rfl rfl (pending_ne_nil hmore) writes_nil (Nat.zero_le _)
    (by omega) (fun _ => ⟨rfl, hocnt⟩) (fun hne => absurd rfl hne)

section

variable (h : Fits binary inst) (hlook : inst.lookAhead input = false)
  (hmore : ¬ (inst.lbCnt ≤ inst.lbPtr ∧ input = []))
include h hlook hmore

/-- A character is written, behind a soft line break if the line is full. -/
theorem put_turned {need : Nat} {chars : List UInt8} (hwrites : Writes chars [inst.nextChar input])
    (hneed : need ≤ 4) (hchars : chars.length ≤ 3) (ocnt trailWs trailWs' : Nat) :
    Turned binary inst input trailWs ocnt (inst.put need chars ocnt input trailWs') := by
  have hlen := h.lineLen
  have hlength : inst.lbchars.length = 2 := by
    rw [h.lbchars]
    rfl
  rw [put, h.softBreak_eq, hlength]
  by_cases hbreak : inst.lineCcnt < need
  · have hshort := short_of_lt hbreak hneed
    have hbroken : short { inst with lineCcnt := inst.lineLen } = 0 := by
      rw [short, if_neg (by dsimp only; omega)]
    rw [if_pos hbreak]
    by_cases hsoft : ocnt < 2 + 1
    · rw [if_pos hsoft]
      exact stop_turned h hmore hsoft trailWs
    · rw [if_neg hsoft]
      by_cases hroom : ocnt - (2 + 1) < chars.length
      · dsimp only
        rw [if_pos hroom]
        refine .stop ⟨h.mode, h.lbchars, h.lineLen, h.lb⟩ rfl rfl
          (pending_ne_nil hmore) writes_softBreak ?_ (by omega) nofun ?_
        · simp only [length_cons, length_nil]
          omega
        · intro _
          omega
      · dsimp only
        rw [if_neg hroom]
        refine consume_turned h hlook hmore _ (writes_softBreak.append hwrites)
          ?_ ?_ trailWs trailWs'
        · simp only [length_append, length_cons, length_nil]
          omega
        · simp only [length_append, length_cons, length_nil]
          omega
  · rw [if_neg hbreak]
    by_cases hroom : ocnt < chars.length
    · rw [if_pos hroom]
      exact stop_turned h hmore (by omega) trailWs
    · rw [if_neg hroom]
      exact consume_turned h hlook hmore _ hwrites (by omega) (by omega) trailWs trailWs'

theorem putBlank_turned (hblank : isBlank (inst.nextChar input) = true) (ocnt : Nat) :
    Turned binary inst input 0 ocnt (inst.putBlank (inst.nextChar input) ocnt input) := by
  have hlen := h.lineLen
  have hlength : inst.lbchars.length = 2 := by
    rw [h.lbchars]
    rfl
  rw [putBlank, h.softBreak_eq, hlength]
  by_cases hbreak : inst.lineCcnt < 2
  · have hshort := short_of_lt hbreak (by decide)
    have hbroken : short { inst with lineCcnt := inst.lineLen } = 0 := by
      rw [short, if_neg (by dsimp only; omega)]
    rw [if_pos hbreak]
    by_cases hsoft : ocnt < 2 + 1
    · rw [if_pos hsoft]
      exact stop_turned h hmore hsoft 0
    · rw [if_neg hsoft]
      dsimp only
      have hsame : pending { inst with lineCcnt := inst.lineLen } input = pending inst input := rfl
      have hthree : [byte '=', (13 : UInt8), 10].length = 3 := rfl
      refine .go ⟨h.mode, h.lbchars, h.lineLen, h.lb⟩
        (.stay rfl rfl (h.safe hlook) (pending_ne_nil hmore))
        writes_softBreak ?_ ?_ ?_ ?_ ?_
      · omega
      · simp only [turnsLeft]
        rw [if_neg (by omega : ¬ inst.lineLen < 2), if_pos hbreak]
        omega
      · rw [hsame]
        omega
      · intro _
        rw [hsame]
        omega
      · rw [hsame]
        omega
  · rw [if_neg hbreak]
    by_cases hroom : ocnt < 1
    · rw [if_pos hroom]
      exact stop_turned h hmore (by omega) 0
    · rw [if_neg hroom]
      by_cases htrail : inst.trailWsLoop ((input.length - 1) % uintMod) input 0 1 = 0
      · rw [if_pos htrail]
        refine consume_turned h hlook hmore _ (writes_blank hblank) ?_ ?_ 0 0
        · simp only [length_singleton]
          omega
        · simp only [length_singleton]
          omega
      · rw [if_neg htrail]
        refine .go h (.stay rfl rfl (h.safe hlook) (pending_ne_nil hmore))
          writes_nil (Nat.zero_le _) ?_ le_rfl
          (fun hne => absurd rfl hne) ?_
        · rw [turnsLeft, turnsLeft, if_neg htrail, if_pos rfl]
          omega
        · simp

end

theorem hold_turned (h : Fits false inst) (hcnt : inst.lbCnt = 0)
    (rest : List UInt8) (trailWs ocnt : Nat) : Turned false inst (13 :: rest) trailWs ocnt
      (.go { inst with lbCnt := 1 } rest trailWs []) := by
  have hptr : inst.lbPtr = 0 := by
    have := h.ptr_le
    omega
  have hpending : pending { inst with lbCnt := 1 } rest = pending inst (13 :: rest) := by
    rw [pending, pending, hptr, hcnt]
    rfl
  have hshort : short { inst with lbCnt := 1 } = inst.short := rfl
  refine .go ⟨h.mode, h.lbchars, h.lineLen, .inr ⟨rfl, by dsimp only; omega,
    rfl⟩⟩ (.hold rfl rfl hcnt hptr rfl) writes_nil (Nat.zero_le _) ?_ ?_
    (fun hne => absurd rfl hne) ?_
  · rw [turnsLeft, turnsLeft, length_cons]
    dsimp only
    omega
  · rw [hpending, hshort]
  · rw [hpending, hshort, length_nil, zero_add]

theorem close_turned (h : Fits false inst) (hcnt : inst.lbCnt = 1)
    (rest : List UInt8) (trailWs : Nat) {ocnt : Nat} (hocnt : ¬ ocnt < 2) :
    Turned false inst (10 :: rest) trailWs ocnt
      (.go { inst with lineCcnt := inst.lineLen, lbPtr := 0, lbCnt := 0 } rest
        trailWs [13, 10]) := by
  have hlen := h.lineLen
  have hshort : short { inst with
      lineCcnt := inst.lineLen, lbPtr := 0, lbCnt := 0 } = 0 := by
    rw [short, if_neg (by dsimp only; omega)]
  have hpending : (pending { inst with
      lineCcnt := inst.lineLen, lbPtr := 0, lbCnt := 0 } rest).length + 1 ≤
        (pending inst (10 :: rest)).length := by
    rw [pending, pending, if_neg (by dsimp only; omega), length_append,
      length_append, length_cons, length_nil]
    omega
  have htwo : [(13 : UInt8), 10].length = 2 := rfl
  refine .go ⟨h.mode, h.lbchars, h.lineLen, .inl ⟨rfl, rfl⟩⟩
    (.close rfl rfl hcnt rfl rfl) writes_lineBreak ?_ ?_ ?_ ?_ ?_
  · omega
  · rw [turnsLeft, turnsLeft, length_cons]
    dsimp only
    rw [if_neg (by omega : ¬ inst.lineLen < 2)]
    omega
  · omega
  · intro _
    omega
  · omega

theorem turn_char (hlook : inst.lookAhead input = false)
    (hmore : ¬ (inst.lbCnt ≤ inst.lbPtr ∧ input = [])) (ocnt trailWs : Nat) :
    inst.turn ocnt input trailWs =
      if !inst.binary && trailWs == 0 && isBlank (inst.nextChar input) then
        inst.putBlank (inst.nextChar input) ocnt input
      else if inst.isPlain (inst.nextChar input) then
        inst.put 2 [inst.nextChar input] ocnt input trailWs
      else inst.put 4 (escaped (inst.nextChar input)) ocnt input (trailWs - 1) := by
  rw [turn, hlook, if_neg Bool.false_ne_true, if_neg hmore]
  rfl

theorem turn_turned (h : Fits binary inst) (input : List UInt8) (trailWs ocnt : Nat) :
    Turned binary inst input trailWs ocnt (inst.turn ocnt input trailWs) := by
  have hlength : inst.lbchars.length = 2 := by
    rw [h.lbchars]
    rfl
  cases hlook : inst.lookAhead input with
  | true =>
    rw [turn, hlength, hlook, if_pos rfl]
    obtain ⟨rfl, rest, ⟨hcnt, rfl⟩ | ⟨hcnt, rfl⟩⟩ := h.lookAhead_iff.mp hlook
    · rw [hcnt, if_neg (by decide)]
      exact hold_turned h hcnt rest trailWs ocnt
    · rw [hcnt, if_pos (by decide)]
      by_cases hocnt : ocnt < 1 + 1
      · rw [if_pos hocnt]
        have hmore : ¬ (inst.lbCnt ≤ inst.lbPtr ∧ 10 :: rest = []) := by
          simp
        exact stop_turned h hmore (by omega) trailWs
      · have htake : inst.lbchars.take (1 + 1) = [13, 10] := by
          rw [h.lbchars]
          rfl
        rw [if_neg hocnt, htake]
        exact close_turned h hcnt rest trailWs hocnt
  | false =>
    by_cases hmore : inst.lbCnt ≤ inst.lbPtr ∧ input = []
    · rw [turn, hlook, if_neg Bool.false_ne_true, if_pos hmore]
      exact .done hmore.2 hmore.1
    · rw [turn_char hlook hmore]
      by_cases hblank : (!inst.binary && trailWs == 0 && isBlank (inst.nextChar input)) = true
      · rw [if_pos hblank]
        rw [Bool.and_eq_true, Bool.and_eq_true, beq_iff_eq] at hblank
        rw [hblank.1.2]
        exact putBlank_turned h hlook hmore hblank.2 ocnt
      · rw [if_neg hblank]
        by_cases hplain : inst.isPlain (inst.nextChar input) = true
        · rw [if_pos hplain]
          exact put_turned h hlook hmore (writes_plain hplain) (by decide)
            (by simp) ocnt trailWs trailWs
        · rw [if_neg hplain]
          exact put_turned h hlook hmore (writes_escaped _) (by decide)
            (by simp [escaped]) ocnt trailWs (trailWs - 1)

end Turn

end QprintEncode

end PhpEngine

/-
The filter `convert.quoted-printable-decode` against
`quoted_printable_decode`, on well-formed texts that are cut into portions.
The two agree exactly if no soft line break has blanks in it or is cut between
its two last bytes, and no escape has a second digit that spoils the first.
-/
import PhpEngine.QpText

namespace PhpEngine

open List Option

namespace QprintDecode

variable {written input input' new t : List UInt8} {b behind h : UInt8} {fuel ocnt n room : Nat}
    {inst inst' : QprintDecode} {place place' : Place} {portions portions' : List Portion}
    {tokens : List QpToken}

/-- Where the scanner is between two calls without line-break characters. -/
inductive Place where
  | text
  | equals
  | digit (h : UInt8)
  | blanks
deriving DecidableEq

/-- `*ps >= 'A' ? *ps - 0x37 : *ps - 0x30`. -/
def rawDigit (b : UInt8) : Nat :=
  if byte 'A' ≤ b then b.toNat - 0x37 else b.toNat - 0x30

/-- The byte that two digits make. -/
def rawByte (h l : UInt8) : UInt8 :=
  UInt8.ofNat (rawDigit h % 16 * 16 ||| rawDigit l)

/-- What a portion is read as: the bytes that are written and the place where
the scanner is then, if it does not fail; `none` for an overrun. -/
def scan (behind : UInt8) : Place → List UInt8 → Option (List UInt8 × Option Place)
  | place, [] => some ([], some place)
  | .text, b :: rest =>
    if b = byte '=' then scan behind .equals rest
    else (scan behind .text rest).map fun o => (b :: o.1, o.2)
  | .equals, b :: rest =>
    if isBlank b then scan behind .blanks rest
    else if b = 13 then
      match rest with
      | [] => if behind = 10 then none else some ([], some .text)
      | c :: tail =>
        if c = 10 then scan behind .text tail
        else scan behind .text (c :: tail)
    else if b = 10 then scan behind .text rest
    else if isXDigit b then scan behind (.digit b) rest
    else some ([], none)
  | .digit h, b :: rest =>
    if isXDigit b then
      (scan behind .text rest).map fun o => (rawByte h b :: o.1, o.2)
    else some ([], none)
  | .blanks, b :: rest =>
    if isBlank b then scan behind .blanks rest else some ([], none)

/-- The instance is at a place. -/
structure At (place : Place) (inst : QprintDecode) : Prop where
  lbchars : inst.lbchars = none
  lbPtr : inst.lbPtr = 0
  lbCnt : inst.lbCnt = 0
  stat : match place with
    | .text => inst.scanStat = .text
    | .equals => inst.scanStat = .equals
    | .digit h => inst.scanStat = .digit ∧ inst.nextChar % 16 = rawDigit h % 16
    | .blanks => inst.scanStat = .blanks

/-- What the call returns is what the portion is read as. -/
def Matches (written : List UInt8) : Option (List UInt8 × Option Place) →
      Option (ConvResult QprintDecode UInt8 UInt8) → Prop
  | none, r => r = none
  | some (out, none), r => ∃ r', r = some r' ∧ r'.status ≠ .success ∧ r'.written = written ++ out
  | some (out, some place), r => ∃ inst, At place inst ∧
      r = some ⟨.success, inst, [], written ++ out⟩

theorem Matches.cons {o : Option (List UInt8 × Option Place)}
    {r : Option (ConvResult QprintDecode UInt8 UInt8)} (h : Matches (written ++ [b]) o r) :
    Matches written (o.map fun o => (b :: o.1, o.2)) r := by
  match o with
  | none => exact h
  | some (out, none) =>
    obtain ⟨r', hr, hstatus, hwritten⟩ := h
    refine ⟨r', hr, hstatus, ?_⟩
    rw [hwritten, append_assoc]
    rfl
  | some (out, some place) =>
    obtain ⟨inst, hinst, hr⟩ := h
    refine ⟨inst, hinst, ?_⟩
    rw [hr, append_assoc]
    rfl

section

variable {o : Option (List UInt8 × Option Place)} {w : List UInt8}

theorem Matches.go (h : Matches w o
      (convertLoop behind (fuel - 1) inst' input' (ocnt - new.length) (written ++ new)))
    (hfuel : 0 < fuel) (hturn : inst.turn behind ocnt input = .go inst' input' new) :
    Matches w o (convertLoop behind fuel inst input ocnt written) := by
  obtain ⟨fuel, rfl⟩ := Nat.exists_eq_succ_of_ne_zero hfuel.ne'
  rw [convertLoop, hturn]
  exact h

theorem Matches.quiet (h : Matches w o (convertLoop behind (fuel - 1) inst' input' ocnt written))
    (hfuel : 0 < fuel) (hturn : inst.turn behind ocnt input = .go inst' input' []) :
    Matches w o (convertLoop behind fuel inst input ocnt written) :=
  .go (by rw [append_nil]; exact h) hfuel hturn

end

theorem convertLoop_out {status : ConvStatus} (hfuel : 0 < fuel)
    (h : inst.turn behind ocnt input = .out status inst' input') :
    convertLoop behind fuel inst input ocnt written = some ⟨status, inst', input', written⟩ := by
  obtain ⟨fuel, rfl⟩ := Nat.exists_eq_succ_of_ne_zero hfuel.ne'
  rw [convertLoop, h]

theorem matches_failed (hfuel : 0 < fuel)
    (h : inst.turn behind ocnt input = .out .failed inst' input') :
    Matches written (some ([], none)) (convertLoop behind fuel inst input ocnt written) :=
  ⟨_, convertLoop_out hfuel h, by simp, (append_nil _).symm⟩

theorem pushDigit_byte (l : UInt8) (hnext : inst.nextChar % 16 = rawDigit h % 16) :
    UInt8.ofNat (inst.pushDigit l) = rawByte h l := by
  apply UInt8.toNat_inj.mp
  rw [rawByte, UInt8.toNat_ofNat', UInt8.toNat_ofNat', pushDigit, ← rawDigit,
    Nat.or_mod_two_pow, Nat.or_mod_two_pow, Nat.shiftLeft_eq, uintMod]
  congr 1
  omega

theorem pushDigit_mod (h : UInt8) : inst.pushDigit h % 16 = rawDigit h % 16 := by
  rw [pushDigit, ← rawDigit, show 16 = 2 ^ 4 from rfl, Nat.or_mod_two_pow,
    Nat.shiftLeft_eq, uintMod]
  have hzero : inst.nextChar * 2 ^ 4 % 2 ^ 32 % 2 ^ 4 = 0 := by omega
  rw [hzero, Nat.zero_or]

theorem isXDigit_ne (h : isXDigit b = true) : isBlank b = false ∧ b ≠ 13 ∧ b ≠ 10 := by
  refine ⟨?_, ?_, ?_⟩
  · by_contra hblank
    rw [Bool.not_eq_false, isBlank, Bool.or_eq_true, beq_iff_eq, beq_iff_eq] at hblank
    rcases hblank with rfl | rfl
    · cases h
    · cases h
  · rintro rfl
    cases h
  · rintro rfl
    cases h

/-- The first byte of a line break is taken without looking further. -/
theorem turn_return (h : At .equals inst)
    (behind : UInt8) (ocnt : Nat) (rest : List UInt8) : inst.turn behind ocnt (13 :: rest) =
      .go { inst with scanStat := .lineBreak, lbCnt := 1 } rest [] := by
  have hblank : isBlank 13 = false := rfl
  simp [turn, h.stat, h.lbchars, h.lbCnt, hblank]

theorem turn_lineBreak (h : At .equals inst) (behind : UInt8) (ocnt : Nat) (input : List UInt8) :
    turn { inst with scanStat := .lineBreak, lbCnt := 1 } behind ocnt input =
      if input.headD behind = 10 then
        match input with
        | [] => .overrun
        | _ :: rest =>
          .go { inst with scanStat := .text, lbPtr := 0, lbCnt := 0 } rest []
      else
        .go { inst with scanStat := .text, lbPtr := 0, lbCnt := 0 } input [] := by
  by_cases hnext : input.headD behind = 10
  · rw [if_pos hnext]
    cases input with
    | nil =>
      have hbehind : behind = 10 := hnext
      simp [turn, h.lbchars, hbehind]
    | cons b rest =>
      have hb : b = 10 := hnext
      simp [turn, h.lbchars, hb]
  · simp only [turn, h.lbchars, hnext, and_false, if_false, true_and, Nat.zero_lt_one, if_true]

theorem At.closed (h : At place inst) :
    At .text { inst with scanStat := .text, lbPtr := 0, lbCnt := 0 } :=
  ⟨h.lbchars, rfl, rfl, rfl⟩

theorem convertLoop_scan (behind : UInt8) (place : Place) (input : List UInt8) (h : At place inst)
    (hfuel : 3 * input.length + 1 ≤ fuel)
    (hocnt : input.length ≤ ocnt) (written : List UInt8) : Matches written (scan behind place input)
      (convertLoop behind fuel inst input ocnt written) := by
  fun_induction scan behind place input generalizing inst fuel ocnt written with
  | case1 place =>
    refine ⟨inst, h, ?_⟩
    rw [append_nil]
    refine convertLoop_out (by omega) ?_
    cases place with
    | text | equals | digit h' | blanks => simp only [turn, h.stat]
  | case2 rest ih =>
    rw [length_cons] at hfuel hocnt
    have hturn : inst.turn behind ocnt (byte '=' :: rest) =
        .go { inst with scanStat := .equals } rest [] := by
      simp only [turn, h.stat, if_pos]
    have hat : At .equals { inst with scanStat := .equals } :=
      ⟨h.lbchars, h.lbPtr, h.lbCnt, rfl⟩
    exact (ih hat (by omega) (by omega) written).quiet (by omega) hturn
  | case3 b rest hb ih =>
    rw [length_cons] at hfuel hocnt
    have hturn : inst.turn behind ocnt (b :: rest) = .go inst rest [b] := by
      simp only [turn, h.stat, if_neg hb]
      rw [if_neg (by omega)]
    exact ((ih h (by omega) (Nat.le_sub_of_add_le hocnt) _).go (by omega) hturn).cons
  | case4 b rest hblank ih =>
    rw [length_cons] at hfuel hocnt
    have hturn : inst.turn behind ocnt (b :: rest) =
        .go { inst with scanStat := .blanks } rest [] := by
      simp only [turn, h.stat, if_pos hblank]
    have hat : At .blanks { inst with scanStat := .blanks } :=
      ⟨h.lbchars, h.lbPtr, h.lbCnt, rfl⟩
    exact (ih hat (by omega) (by omega) written).quiet (by omega) hturn
  | case5 hbehind hblank =>
    rw [length_singleton] at hfuel
    have hturn := turn_lineBreak h behind ocnt []
    rw [headD_nil, if_pos hbehind] at hturn
    refine .quiet ?_ (by omega) (turn_return h behind ocnt [])
    obtain ⟨fuel, rfl⟩ := Nat.exists_eq_add_of_le' (by omega : 2 ≤ fuel)
    exact show convertLoop behind (fuel + 1) _ _ _ _ = none by rw [convertLoop, hturn]
  | case6 hbehind hblank =>
    rw [length_singleton] at hfuel
    have hturn := turn_lineBreak h behind ocnt []
    rw [headD_nil, if_neg hbehind] at hturn
    refine .quiet (.quiet ⟨_, h.closed, ?_⟩ (by omega) hturn) (by omega)
      (turn_return h behind ocnt [])
    rw [append_nil]
    exact convertLoop_out (by omega) rfl
  | case7 tail hblank ih =>
    rw [length_cons, length_cons] at hfuel hocnt
    have hturn := turn_lineBreak h behind ocnt (10 :: tail)
    exact ((ih h.closed (by omega) (by omega) written).quiet (by omega) hturn).quiet (by omega)
      (turn_return h behind ocnt _)
  | case8 c tail hc hblank ih =>
    rw [length_cons, length_cons] at hfuel hocnt
    have hturn := turn_lineBreak h behind ocnt (c :: tail)
    rw [headD_cons, if_neg hc] at hturn
    rw [← length_cons (a := c)] at hfuel hocnt
    exact ((ih h.closed (by omega) (by omega) written).quiet (by omega) hturn).quiet (by omega)
      (turn_return h behind ocnt _)
  | case9 rest hblank hreturn ih =>
    rw [length_cons] at hfuel hocnt
    have hturn : inst.turn behind ocnt (10 :: rest) =
        .go { inst with scanStat := .text, lbPtr := 0, lbCnt := 0 } rest [] := by
      simp [turn, h.stat, h.lbchars, h.lbCnt, hblank, hreturn]
    exact (ih h.closed (by omega) (by omega) written).quiet (by omega) hturn
  | case10 b rest hblank hreturn hnewline hdigit ih =>
    rw [length_cons] at hfuel hocnt
    have hturn : inst.turn behind ocnt (b :: rest) =
        .go { inst with nextChar := inst.pushDigit b, scanStat := .digit } rest [] := by
      simp only [turn, h.stat, h.lbchars, if_neg hblank, hreturn, hnewline,
        and_false, if_false, lbcharAt, getD_none, getElem?_nil,
        readDigit, hdigit, if_true]
      rfl
    have hat : At (.digit b) { inst with nextChar := inst.pushDigit b, scanStat := .digit } :=
      ⟨h.lbchars, h.lbPtr, h.lbCnt, rfl, pushDigit_mod b⟩
    exact (ih hat (by omega) (by omega) written).quiet (by omega) hturn
  | case11 b rest hblank hreturn hnewline hdigit =>
    have hturn : inst.turn behind ocnt (b :: rest) = .out .failed inst (b :: rest) := by
      simp only [turn, h.stat, h.lbchars, if_neg hblank, hreturn, hnewline,
        and_false, if_false, lbcharAt, getD_none, getElem?_nil,
        readDigit, hdigit]
      rfl
    exact matches_failed (by omega) hturn
  | case12 h' b rest hdigit ih =>
    rw [length_cons] at hfuel hocnt
    have hturn : inst.turn behind ocnt (b :: rest) =
        .go { inst with nextChar := inst.pushDigit b, scanStat := .byte } rest [] := by
      simp only [turn, h.stat.1, readDigit, hdigit, if_true]
    have hbyte : turn { inst with nextChar := inst.pushDigit b, scanStat := .byte }
        behind ocnt rest =
        .go { inst with nextChar := inst.pushDigit b, scanStat := .text } rest [rawByte h' b] := by
      simp only [turn]
      rw [if_neg (by omega), pushDigit_byte b h.stat.2]
    have hat : At .text { inst with nextChar := inst.pushDigit b, scanStat := .text } :=
      ⟨h.lbchars, h.lbPtr, h.lbCnt, rfl⟩
    exact (((ih hat (by omega) (Nat.le_sub_of_add_le hocnt) _).go (by omega) hbyte).quiet (by omega)
      hturn).cons
  | case13 h' b rest hdigit =>
    have hturn : inst.turn behind ocnt (b :: rest) = .out .failed inst (b :: rest) := by
      simp only [turn, h.stat.1, readDigit, hdigit]
      rfl
    exact matches_failed (by omega) hturn
  | case14 b rest hblank ih =>
    rw [length_cons] at hfuel hocnt
    have hturn : inst.turn behind ocnt (b :: rest) = .go inst rest [] := by
      simp only [turn, h.stat, h.lbchars, lbcharAt, getD_none, getElem?_nil, if_pos hblank]
      rfl
    exact (ih h (by omega) (by omega) written).quiet (by omega) hturn
  | case15 b rest hblank =>
    have hturn : inst.turn behind ocnt (b :: rest) = .out .failed inst (b :: rest) := by
      simp only [turn, h.stat, h.lbchars, lbcharAt, getD_none, getElem?_nil, if_neg hblank]
      rfl
    exact matches_failed (by omega) hturn

/-- The portions are read one after another from a place on. -/
def scanAll : Place → List Portion → Option (List UInt8 × Bool)
  | place, [] => some ([], place = .text)
  | place, p :: portions =>
    match scan p.behind place p.bytes with
    | none => none
    | some (out, none) => some (out, false)
    | some (out, some place) => (scanAll place portions).map fun o =>
      (out ++ o.1, o.2)

theorem flush_at (h : At place inst) :
    (inst.flush.map fun status => (([] : List UInt8), status == .success)) =
      some ([], decide (place = .text)) := by
  rw [flush, if_pos (h.lbCnt.trans h.lbPtr.symm)]
  cases place with
  | text | equals => simp [h.stat]
  | digit b => simp [h.stat.1]
  | blanks => simp [h.stat]

/-- With enough room, the calls read what the portions say. -/
theorem feed_eq (h : At place inst) (portions : List Portion)
    (hroom : ∀ p ∈ portions, p.bytes.length ≤ p.room) :
    inst.feed portions = scanAll place portions := by
  induction portions generalizing place inst with
  | nil => exact flush_at h
  | cons p portions ih =>
    have hcall := convertLoop_scan p.behind place p.bytes h
      (show 3 * p.bytes.length + 1 ≤ 4 * p.bytes.length + inst.lbCnt + 4 by
        omega) (hroom p mem_cons_self) []
    rw [feed, convert, scanAll]
    match hscan : scan p.behind place p.bytes with
    | none =>
      rw [hscan] at hcall
      rw [show convertLoop _ _ _ _ _ _ = none from hcall]
    | some (out, none) =>
      rw [hscan] at hcall
      obtain ⟨r, hr, hstatus, hwritten⟩ := hcall
      rw [hr]
      dsimp only
      rw [if_neg hstatus, hwritten]
      rfl
    | some (out, some place') =>
      rw [hscan] at hcall
      obtain ⟨inst', hinst', hr⟩ := hcall
      rw [hr]
      dsimp only
      rw [if_pos rfl, ih hinst' fun q hq =>
        hroom q (mem_cons_of_mem p hq)]
      rfl

end QprintDecode

/-- All the bytes of the portions. -/
def allBytes (portions : List Portion) : List UInt8 :=
  (portions.map Portion.bytes).flatten

/-- A portion ends behind the first `n` bytes. -/
def CutAt (portions : List Portion) (n : Nat) : Prop :=
  ∃ k, (allBytes (portions.take k)).length = n

theorem allBytes_cons (p : Portion) (portions : List Portion) :
    allBytes (p :: portions) = p.bytes ++ allBytes portions :=
  rfl

theorem cutAt_cons {p : Portion} (hn : 0 < n) :
    CutAt (p :: portions) n ↔ ∃ k, p.bytes.length + (allBytes (portions.take k)).length = n := by
  constructor
  · rintro ⟨k, hk⟩
    cases k with
    | zero =>
      exact absurd hk (ne_of_lt hn)
    | succ k =>
      rw [take_succ_cons, allBytes_cons, length_append] at hk
      exact ⟨k, hk⟩
  · rintro ⟨k, hk⟩
    refine ⟨k + 1, ?_⟩
    rw [take_succ_cons, allBytes_cons, length_append, hk]

theorem cutAt_tail {rest : List UInt8} (hn : 0 < n) :
    CutAt (⟨b :: rest, behind, room⟩ :: portions) (1 + n) ↔
      CutAt (⟨rest, behind, room⟩ :: portions) n := by
  rw [cutAt_cons (by omega), cutAt_cons hn]
  simp only [length_cons]
  constructor
  · rintro ⟨k, hk⟩
    exact ⟨k, by omega⟩
  · rintro ⟨k, hk⟩
    exact ⟨k, by omega⟩

theorem cutAt_empty (hn : 0 < n) : CutAt (⟨[], behind, room⟩ :: portions) n ↔ CutAt portions n := by
  rw [cutAt_cons hn]
  simp only [length_nil, zero_add]
  rfl

/-- A portion ends behind the first byte exactly if this is its only one. -/
theorem cutAt_one {rest : List UInt8} :
    CutAt (⟨b :: rest, behind, room⟩ :: portions) 1 ↔ rest = [] := by
  rw [cutAt_cons Nat.one_pos]
  simp only [length_cons]
  constructor
  · rintro ⟨k, hk⟩
    exact length_eq_zero_iff.mp (by omega)
  · rintro rfl
    exact ⟨0, rfl⟩

namespace QprintDecode

theorem scanAll_scan (h : scan behind place input =
      (scan behind place' input').map fun o => (new ++ o.1, o.2)) (portions : List Portion) :
    scanAll place (⟨input, behind, room⟩ :: portions) =
      (scanAll place' (⟨input', behind, room⟩ :: portions)).map fun o =>
        (new ++ o.1, o.2) := by
  rw [scanAll, scanAll]
  rw [h]
  match scan behind place' input' with
  | none => rfl
  | some (out, none) => rfl
  | some (out, some place) =>
    simp only [map_some, Option.map_map]
    congr 1
    funext o
    simp

theorem scanAll_empty (place : Place) (behind : UInt8) (room : Nat) (portions : List Portion) :
    scanAll place (⟨[], behind, room⟩ :: portions) = scanAll place portions := by
  rw [scanAll, scan]
  simp

/-- From a place and the portions on, `n` bytes are read, which writes `new`. -/
structure Moves (place : Place) (portions : List Portion) (place' : Place)
    (portions' : List Portion) (new : List UInt8) (n : Nat) : Prop where
  scanAll : scanAll place portions = (scanAll place' portions').map fun o => (new ++ o.1, o.2)
  cut : ∀ m, 0 < m → (CutAt portions (n + m) ↔ CutAt portions' m)

theorem Moves.trans {place'' : Place} {portions'' : List Portion} {new' : List UInt8}
    {n' : Nat} (h : Moves place portions place' portions' new n)
    (h' : Moves place' portions' place'' portions'' new' n') :
    Moves place portions place'' portions'' (new ++ new') (n + n') where
  scanAll := by
    rw [h.scanAll, h'.scanAll, Option.map_map]
    congr 1
    funext o
    simp
  cut := by
    intro m hm
    rw [add_assoc, h.cut _ (by omega), h'.cut m hm]

theorem exists_front (hbytes : allBytes portions = b :: t) : ∃ rest behind room portions',
      (∀ place, Moves place portions place (⟨b :: rest, behind, room⟩ :: portions') [] 0) ∧
      rest ++ allBytes portions' = t := by
  induction portions with
  | nil => nomatch hbytes
  | cons p portions ih =>
    obtain ⟨bytes, behind, room⟩ := p
    cases bytes with
    | nil =>
      obtain ⟨rest, behind', room', portions', hmoves, ht⟩ := ih hbytes
      refine ⟨rest, behind', room', portions', fun place => ?_, ht⟩
      refine ⟨?_, fun m hm => ?_⟩
      · rw [scanAll_empty, (hmoves place).scanAll]
      · rw [zero_add, cutAt_empty hm, ← (hmoves place).cut m hm, zero_add]
    | cons c rest =>
      obtain ⟨rfl, ht⟩ := List.cons.inj hbytes
      refine ⟨rest, behind, room, portions, fun place => ⟨?_, ?_⟩, ht⟩
      · simp
      · intro m _
        rw [zero_add]

theorem exists_read (hscan : ∀ behind rest, scan behind place (b :: rest) =
      (scan behind place' rest).map fun o => (new ++ o.1, o.2))
    (hbytes : allBytes portions = b :: t) :
    ∃ portions', Moves place portions place' portions' new 1 ∧ allBytes portions' = t := by
  obtain ⟨rest, behind, room, portions', hmoves, ht⟩ := exists_front hbytes
  refine ⟨⟨rest, behind, room⟩ :: portions', ?_, ht⟩
  have hread : Moves place (⟨b :: rest, behind, room⟩ :: portions') place'
      (⟨rest, behind, room⟩ :: portions') new 1 :=
    ⟨scanAll_scan (hscan behind rest) portions', fun m hm => cutAt_tail hm⟩
  exact (hmoves place).trans hread

/-- A byte behind a `=`, where the line break is not looked at yet. -/
theorem scan_equals (behind b : UInt8) (rest : List UInt8) : scan behind .equals (b :: rest) =
      if isBlank b then scan behind .blanks rest else if b = 13 then
        match rest with
        | [] => if behind = 10 then none else some ([], some .text)
        | c :: tail =>
          if c = 10 then scan behind .text tail
          else scan behind .text (c :: tail)
      else if b = 10 then scan behind .text rest
      else if isXDigit b then scan behind (.digit b) rest
      else some ([], none) := by
  rw [scan.eq_def]

theorem map_nil_append (o : Option (List UInt8 × Option Place)) :
    o = o.map fun o => ([] ++ o.1, o.2) := by
  simp

theorem exists_equals (hbytes : allBytes portions = byte '=' :: t) :
    ∃ portions', Moves .text portions .equals portions' [] 1 ∧ allBytes portions' = t := by
  refine exists_read (fun behind rest => ?_) hbytes
  exact map_nil_append _

theorem exists_literal (hb : b ≠ byte '=') (hbytes : allBytes portions = b :: t) :
    ∃ portions', Moves .text portions .text portions' [b] 1 ∧ allBytes portions' = t := by
  refine exists_read (fun behind rest => ?_) hbytes
  rw [scan, if_neg hb]
  rfl

theorem exists_escape {l : UInt8} (ok : isXDigit h ∧ isXDigit l)
    (hbytes : allBytes portions = byte '=' :: h :: l :: t) :
    ∃ portions', Moves .text portions .text portions' [rawByte h l] 3 ∧ allBytes portions' = t := by
  obtain ⟨hblank, hreturn, hnewline⟩ := isXDigit_ne ok.1
  obtain ⟨_, hequals, hbytes⟩ := exists_equals hbytes
  have hhigh : ∀ behind rest, scan behind .equals (h :: rest) =
      (scan behind (.digit h) rest).map fun o => ([] ++ o.1, o.2) := by
    intro behind rest
    rw [scan_equals, if_neg (by simp [hblank]), if_neg hreturn, if_neg hnewline, if_pos ok.1]
    exact map_nil_append _
  have hlow : ∀ behind rest, scan behind (.digit h) (l :: rest) =
      (scan behind .text rest).map fun o => ([rawByte h l] ++ o.1, o.2) := by
    intro behind rest
    rw [scan, if_pos ok.2]
    rfl
  obtain ⟨_, hdigit, hbytes⟩ := exists_read hhigh hbytes
  obtain ⟨portions', hbyte, hbytes⟩ := exists_read hlow hbytes
  exact ⟨portions', (hequals.trans hdigit).trans hbyte, hbytes⟩

/-- Blanks behind a `=` are read, but no line break behind them. -/
theorem scanAll_blanks {blanks : List UInt8} (hblanks : ∀ b ∈ blanks, isBlank b)
    (hbytes : allBytes portions = blanks ++ 13 :: t) :
    scanAll .blanks portions = some ([], false) := by
  induction blanks generalizing portions with
  | nil =>
    obtain ⟨rest, behind, room, portions', hmoves, -⟩ := exists_front hbytes
    rw [(hmoves .blanks).scanAll, scanAll, scan]
    rfl
  | cons b blanks ih =>
    have hscan : ∀ behind rest, scan behind .blanks (b :: rest) =
        (scan behind .blanks rest).map fun o => ([] ++ o.1, o.2) := by
      intro behind rest
      rw [scan, if_pos (hblanks b mem_cons_self)]
      exact map_nil_append _
    obtain ⟨portions', hmoves, hbytes⟩ := exists_read hscan hbytes
    rw [hmoves.scanAll, ih (fun c hc => hblanks c (mem_cons_of_mem b hc)) hbytes]
    rfl

theorem scanAll_softBlanks {blanks : List UInt8} (hblanks : ∀ c ∈ b :: blanks, isBlank c)
    (hbytes : allBytes portions = byte '=' :: (b :: blanks ++ 13 :: t)) :
    scanAll .text portions = some ([], false) := by
  obtain ⟨_, hequals, hbytes⟩ := exists_equals hbytes
  have hscan : ∀ behind rest, scan behind .equals (b :: rest) =
      (scan behind .blanks rest).map fun o => ([] ++ o.1, o.2) := by
    intro behind rest
    rw [scan_equals, if_pos (hblanks b mem_cons_self)]
    exact map_nil_append _
  obtain ⟨portions', hmoves, hbytes⟩ := exists_read hscan hbytes
  rw [(hequals.trans hmoves).scanAll, scanAll_blanks
    (fun c hc => hblanks c (mem_cons_of_mem b hc)) hbytes]
  rfl

/-- A soft line break is read as one exactly if it is not cut before its last
byte; else this byte is left as text, or the portion is overrun. -/
theorem scanAll_softBreak
    (hbytes : allBytes portions = byte '=' :: 13 :: 10 :: t) : (¬ CutAt portions 2 ∧
      ∃ portions', Moves .text portions .text portions' [] 3 ∧ allBytes portions' = t) ∨
    CutAt portions 2 ∧ (scanAll .text portions = none ∨
      ∃ portions', Moves .text portions .text portions' [10] 3 ∧ allBytes portions' = t) := by
  obtain ⟨portions₁, hequals, hbytes⟩ := exists_equals hbytes
  obtain ⟨rest, behind, room, portions₂, hfront, ht⟩ := exists_front hbytes
  have hcut : CutAt portions 2 ↔ rest = [] := by
    rw [show 2 = 1 + 1 from rfl, hequals.cut 1 Nat.one_pos,
      show 1 = 0 + 1 from rfl, (hfront .equals).cut 1 Nat.one_pos]
    exact cutAt_one
  have hblank : ¬ isBlank 13 = true := by decide
  cases rest with
  | nil =>
    refine .inr ⟨hcut.mpr rfl, ?_⟩
    by_cases hbehind : behind = 10
    · refine .inl ?_
      rw [hequals.scanAll, (hfront .equals).scanAll, scanAll, scan,
        if_neg hblank, if_pos rfl, if_pos hbehind]
      rfl
    · refine .inr ?_
      have hreturn : Moves .equals (⟨[13], behind, room⟩ :: portions₂) .text portions₂ [] 1 := by
        refine ⟨?_, fun m hm => ?_⟩
        · rw [scanAll, scan, if_neg hblank, if_pos rfl, if_neg hbehind]
        · rw [cutAt_tail hm, cutAt_empty hm]
      obtain ⟨portions', hnewline, hbytes⟩ :=
        exists_literal (b := 10) (by decide) ht
      exact ⟨portions', (hequals.trans ((hfront .equals).trans hreturn)).trans hnewline, hbytes⟩
  | cons c rest =>
    have hnot : ¬ CutAt portions 2 := fun h => nomatch hcut.mp h
    obtain ⟨rfl, htail⟩ := List.cons.inj ht
    have hscan : scan behind .equals (13 :: 10 :: rest) =
        (scan behind .text rest).map fun o => ([] ++ o.1, o.2) := by
      exact map_nil_append _
    have hread : Moves .equals (⟨13 :: 10 :: rest, behind, room⟩ :: portions₂)
        .text (⟨rest, behind, room⟩ :: portions₂) [] 2 := by
      refine ⟨scanAll_scan hscan portions₂, fun m hm => ?_⟩
      rw [show 2 + m = 1 + (1 + m) by omega, cutAt_tail (by omega), cutAt_tail hm]
    exact .inl ⟨hnot, _, hequals.trans ((hfront .equals).trans hread), htail⟩

end QprintDecode

/-- The token does not depend on how the filter reads it.  A second digit of
lower case sets a bit of the first digit. -/
def QpToken.Plain : QpToken → Prop
  | literal _ _ => True
  | escape h l _ => byte 'a' ≤ l → (phpHex2int h).testBit 1 = true
  | softBreak blanks _ => blanks = []

/-- No portion ends before the last byte of a soft line break. -/
def BreaksWhole (tokens : List QpToken) (portions : List Portion) : Prop :=
  ∀ before blanks ok behind, tokens = before ++ QpToken.softBreak blanks ok :: behind →
    ¬ CutAt portions ((qpText before).length + blanks.length + 2)

section Agreement

open QprintDecode

theorem rawByte_eq_iff {l : UInt8} (ok : isXDigit h ∧ isXDigit l) :
    rawByte h l = UInt8.ofNat (phpHex2int h * 16 + phpHex2int l) ↔
      (byte 'a' ≤ l → (phpHex2int h).testBit 1 = true) := by
  have hdigit : ∀ n : Fin 256, isXDigit (UInt8.ofNat n.val) = true →
      rawDigit (UInt8.ofNat n.val) = phpHex2int (UInt8.ofNat n.val) +
        (if byte 'a' ≤ UInt8.ofNat n.val then 32 else 0) ∧
      phpHex2int (UInt8.ofNat n.val) < 16 := by decide +kernel
  have hjoin : ∀ a b : Fin 16,
      UInt8.ofNat (a.val * 16 ||| b.val) = UInt8.ofNat (a.val * 16 + b.val) ∧
      (UInt8.ofNat (a.val * 16 ||| (b.val + 32)) = UInt8.ofNat (a.val * 16 + b.val) ↔
        a.val.testBit 1 = true) := by decide +kernel
  have hh := hdigit ⟨h.toNat, h.toNat_lt⟩
  have hl := hdigit ⟨l.toNat, l.toNat_lt⟩
  simp only [UInt8.ofNat_toNat] at hh hl
  obtain ⟨hraw, hhex⟩ := hh ok.1
  obtain ⟨hraw', hhex'⟩ := hl ok.2
  have hmod : rawDigit h % 16 = phpHex2int h := by
    split at hraw <;> omega
  obtain ⟨hupper, hlower⟩ := hjoin ⟨_, hhex⟩ ⟨_, hhex'⟩
  rw [rawByte, hmod, hraw']
  by_cases hle : byte 'a' ≤ l
  · rw [if_pos hle, imp_iff_right hle]
    exact hlower
  · rw [if_neg hle, Nat.add_zero]
    exact iff_of_true hupper fun h => absurd h hle

theorem breaksWhole_cons {t : QpToken}
    (hcut : ∀ m, 0 < m → (CutAt portions (t.text.length + m) ↔ CutAt portions' m)) :
    BreaksWhole (t :: tokens) portions ↔ (∀ blanks ok, t = .softBreak blanks ok →
        ¬ CutAt portions (blanks.length + 2)) ∧ BreaksWhole tokens portions' := by
  constructor
  · intro h
    refine ⟨fun blanks ok ht => ?_, fun before blanks ok behind htokens => ?_⟩
    · have hfirst := h [] blanks ok tokens (by rw [ht]; rfl)
      rwa [qpText_nil, length_nil, zero_add] at hfirst
    · have hlater := h (t :: before) blanks ok behind (by rw [htokens]; rfl)
      rw [qpText_cons, length_append, add_assoc, add_assoc,
        hcut _ (by omega), ← add_assoc] at hlater
      exact hlater
  · rintro ⟨hfirst, hlater⟩ before blanks ok behind htokens
    cases before with
    | nil =>
      obtain ⟨rfl, -⟩ := List.cons.inj htokens
      have hnot := hfirst blanks ok rfl
      rwa [qpText_nil, length_nil, zero_add]
    | cons t' before =>
      obtain ⟨rfl, htail⟩ := List.cons.inj htokens
      rw [qpText_cons, length_append, add_assoc, add_assoc, hcut _ (by omega), ← add_assoc]
      exact hlater before blanks ok behind htail

/-- What the filter makes of a text: never less than it stands for, and this
exactly under the condition. -/
structure Agrees (tokens : List QpToken) (portions : List Portion) : Prop where
  long : ∀ out, scanAll .text portions = some (out, true) → (qpBytes tokens).length ≤ out.length
  iff : scanAll .text portions = some (qpBytes tokens, true) ↔
    (∀ t ∈ tokens, t.Plain) ∧ BreaksWhole tokens portions

/-- A token for which the filter writes as many bytes as it stands for. -/
theorem Agrees.token {t : QpToken}
    (hmoves : Moves .text portions .text portions' new t.text.length)
    (hlength : new.length = t.bytes.length) (hnew : new = t.bytes ↔ t.Plain)
    (hfirst : ∀ blanks ok, t = .softBreak blanks ok → ¬ CutAt portions (blanks.length + 2))
    (h : Agrees tokens portions') : Agrees (t :: tokens) portions where
  long := by
    intro out hout
    rw [hmoves.scanAll] at hout
    obtain ⟨o, ho, hout⟩ := map_eq_some_iff.mp hout
    obtain ⟨rfl, hok⟩ := Prod.mk.inj hout
    have hlong := h.long o.1 (by rw [ho, ← hok])
    rw [qpBytes_cons, length_append, length_append]
    omega
  iff := by
    have hall : (∀ t' ∈ t :: tokens, t'.Plain) ↔
        t.Plain ∧ ∀ t' ∈ tokens, t'.Plain := forall_mem_cons
    rw [hmoves.scanAll, breaksWhole_cons hmoves.cut, hall, qpBytes_cons, ← hnew]
    constructor
    · intro hout
      obtain ⟨o, ho, hout⟩ := map_eq_some_iff.mp hout
      obtain ⟨heq, hok⟩ := Prod.mk.inj hout
      obtain ⟨hnew, hrest⟩ := append_inj heq hlength
      have hscan : scanAll .text portions' = some (qpBytes tokens, true) := by
        rw [ho, ← hrest, ← hok]
      obtain ⟨hplain, hbreaks⟩ := h.iff.mp hscan
      exact ⟨⟨hnew, hplain⟩, hfirst, hbreaks⟩
    · rintro ⟨⟨hnew, hplain⟩, -, hbreaks⟩
      rw [h.iff.mpr ⟨hplain, hbreaks⟩, hnew]
      rfl

/-- A token at which the filter and the text part for good. -/
theorem Agrees.part {t : QpToken} (hlong : ∀ out, scanAll .text portions = some (out, true) →
      (qpBytes (t :: tokens)).length < out.length)
    (hnot : ¬ (t.Plain ∧ BreaksWhole (t :: tokens) portions)) : Agrees (t :: tokens) portions where
  long := fun out hout => Nat.le_of_lt (hlong out hout)
  iff := by
    constructor
    · intro hout
      exact absurd (hlong _ hout) (lt_irrefl _)
    · rintro ⟨hplain, hbreaks⟩
      exact absurd ⟨hplain t mem_cons_self, hbreaks⟩ hnot

theorem scanAll_none (hbytes : allBytes portions = []) :
    scanAll .text portions = some ([], true) := by
  induction portions with
  | nil => rfl
  | cons p portions ih =>
    obtain ⟨bytes, behind, room⟩ := p
    rw [allBytes_cons, append_eq_nil_iff] at hbytes
    obtain ⟨rfl, hbytes⟩ := hbytes
    rw [scanAll_empty, ih hbytes]

theorem agrees (tokens : List QpToken)
    (hbytes : allBytes portions = qpText tokens) : Agrees tokens portions := by
  induction tokens generalizing portions with
  | nil =>
    refine ⟨fun out _ => Nat.zero_le _, ?_⟩
    rw [scanAll_none hbytes]
    refine ⟨fun _ => ⟨by simp, ?_⟩, fun _ => rfl⟩
    intro before blanks ok behind htokens
    cases (append_eq_nil_iff.mp htokens.symm).2
  | cons t tokens ih =>
    rw [qpText_cons] at hbytes
    cases t with
    | literal b ok =>
      obtain ⟨portions', hmoves, hbytes⟩ := exists_literal ok.1 hbytes
      exact .token hmoves rfl ⟨fun _ => trivial, fun _ => rfl⟩ (by rintro _ _ ⟨⟩) (ih hbytes)
    | escape h l ok =>
      obtain ⟨portions', hmoves, hbytes⟩ := exists_escape ok hbytes
      refine .token hmoves rfl ?_ (by rintro _ _ ⟨⟩) (ih hbytes)
      rw [QpToken.bytes, QpToken.Plain, singleton_inj]
      exact rawByte_eq_iff ok
    | softBreak blanks ok =>
      cases blanks with
      | nil =>
        obtain ⟨hwhole, portions', hmoves, hbytes⟩ | ⟨hcut, hscan⟩ := scanAll_softBreak hbytes
        · refine .token hmoves rfl ⟨fun _ => rfl, fun _ => rfl⟩ ?_ (ih hbytes)
          intro blanks ok ht
          cases ht
          exact hwhole
        · refine .part (fun out hout => ?_) fun hgood =>
            hgood.2 [] [] ok tokens rfl hcut
          -- the byte that is left as text makes the result longer
          obtain hnone | ⟨portions', hmoves, hbytes⟩ := hscan
          · rw [hnone] at hout
            cases hout
          · rw [hmoves.scanAll] at hout
            obtain ⟨o, ho, hout⟩ := map_eq_some_iff.mp hout
            obtain ⟨rfl, hok⟩ := Prod.mk.inj hout
            have hlong := (ih hbytes).long o.1 (by rw [ho, ← hok])
            exact Nat.lt_succ_of_le hlong
      | cons b blanks =>
        rw [QpToken.text, cons_append, append_assoc] at hbytes
        have hfail := scanAll_softBlanks ok hbytes
        refine .part (fun out hout => ?_) fun hgood => by
          cases hgood.1
        rw [hfail] at hout
        cases hout

/-- Streaming quoted-printable decoding: the filter, fed with the portions of
a well-formed text with enough room in the buffers, succeeds with what
`quoted_printable_decode` makes of the text exactly if all soft line breaks
are without blanks and not cut before their last byte, and no escape has a
second digit of lower case that spoils the first. -/
theorem qprintDecode_agrees_iff (tokens : List QpToken)
    (portions : List Portion) (hbytes : allBytes portions = qpText tokens)
    (hroom : ∀ p ∈ portions, p.bytes.length ≤ p.room) : (QprintDecode.ctor none).feed portions =
        some (quotedPrintableDecode (qpText tokens), true) ↔
      (∀ t ∈ tokens, t.Plain) ∧ BreaksWhole tokens portions := by
  have hctor : At .text (QprintDecode.ctor none) := ⟨rfl, rfl, rfl, rfl⟩
  rw [feed_eq hctor portions hroom, quotedPrintableDecode_text]
  exact (agrees tokens hbytes).iff

/-- `a=3d=` and a line break, in three portions. -/
theorem qprintDecode_agrees_iff_sample :
    BreaksWhole [.literal 97 (by decide), .escape 51 100 (by decide), .softBreak [] nofun]
      [⟨[97, 61], 10, 2⟩, ⟨[51, 100, 61], 0, 3⟩, ⟨[13, 10], 10, 9⟩] :=
  ((qprintDecode_agrees_iff _ _ (by decide) (by decide)).mp (by decide)).2

/-- `=0a` in one portion. -/
theorem qprintDecode_lower_case : ¬ ∀ (tokens : List QpToken) (portions : List Portion),
      allBytes portions = qpText tokens → (∀ p ∈ portions, p.bytes ≠ [] ∧ p.bytes.length ≤ p.room) →
      (QprintDecode.ctor none).feed portions =
        some (quotedPrintableDecode (qpText tokens), true) := by
  intro h
  have hrun := h [.escape 48 97 (by decide)] [⟨[61, 48, 97], 0, 3⟩]
  revert hrun
  decide

end Agreement

end PhpEngine

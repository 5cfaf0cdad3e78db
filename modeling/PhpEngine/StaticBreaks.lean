/-
Static `break` and `continue`: pass 2 walks up the enclosing loops and jumps
where the executor would have arrived, unless a loop variable has to be freed.
-/
import PhpEngine.Pass3

namespace PhpEngine

variable {a : OpArray}

/-- The cast of a `long` to `int`. -/
def longToInt (n : Int) : Int :=
  toInt (n % (uintMod : Int)).toNat

/-- `--n` of an `int`, which wraps. -/
def decInt (n : Int) : Int :=
  if n = -2 ^ 31 then 2 ^ 31 - 1 else n - 1

/-- `convert_to_long`, where `convert` tells what the literals become that are no `long`. -/
def convertToLong (convert : Literal → Int) : Literal → Int
  | .long n => n
  | literal => convert literal

/-- `op_array->brk_cont_array[array_offset]`. -/
def brkContAt (a : OpArray) (arrayOffset : Int) : Option BrkContElement :=
  if arrayOffset < 0 then none else a.brkContArray[arrayOffset.toNat]?

/-- The loop of pass 2: the element `jmp_to`, or nothing where `dont_optimize` is set. -/
def staticElement (a : OpArray) : Nat → Int → Int → Option (Option BrkContElement)
  | 0, _, _ => none
  | fuel + 1, nestLevels, arrayOffset =>
    if arrayOffset = -1 then some none
    else
      (brkContAt a arrayOffset).bind fun jmpTo =>
        if 0 < decInt nestLevels then
          if (opAt a.opcodes jmpTo.brk).opcode = .freeOp ∨
              (opAt a.opcodes jmpTo.brk).opcode = .switchFree then some none
          else staticElement a fuel (decInt nestLevels) jmpTo.parent
        else some (some jmpTo)

/-- Where a BRK or a CONT goes to in the loop of an element. -/
def BrkContElement.target (jmpTo : BrkContElement) (opcode : Opcode) : Nat :=
  if opcode = .brk then jmpTo.brk else jmpTo.cont

/-- The JMP that takes the place of a BRK or a CONT. -/
def ZendOp.jumpTo (opline : ZendOp) (jmpTo : BrkContElement) : ZendOp :=
  { opline.makeNop.setOp1 (jmpTo.target opline.opcode) with opcode := .jmp }

/-- Pass 2 at the opline `n`, if that is a BRK or a CONT. -/
def pass2BrkCont (convert : Literal → Int) (fuel : Nat) (a : OpArray) (n : Nat) :
    Option OpArray :=
  let opline := opAt a.opcodes n
  if opline.opcode ≠ .brk ∧ opline.opcode ≠ .cont ∨ opline.op2.type ≠ .const then some a
  else
    let level := convertToLong convert (a.literals.getD opline.op2.num .null)
    let converted := { a with literals := a.literals.set opline.op2.num (.long level) }
    (staticElement converted fuel (longToInt level) (toInt opline.op1.num)).map fun
      | none => converted
      | some jmpTo => { converted with opcodes := a.opcodes.set n (opline.jumpTo jmpTo) }

/-- The flag `EXT_TYPE_FREE_ON_RETURN`. -/
def extTypeFreeOnReturn : Nat :=
  1 <<< 2

/-- The variable that leaving a loop with the opline `brk` behind it frees. -/
def freedBehind (brk : ZendOp) : List Nat :=
  if (brk.opcode = .switchFree ∨ brk.opcode = .freeOp) ∧
      brk.extendedValue &&& extTypeFreeOnReturn = 0 then [brk.op1.num]
  else []

/-- `zend_brk_cont`: the variables it frees and the element it returns, which is none after the
error "Cannot break/continue". -/
def zendBrkCont (a : OpArray) : Nat → Int → Int → Option (List Nat × Option BrkContElement)
  | 0, _, _ => none
  | fuel + 1, nestLevels, arrayOffset =>
    if arrayOffset = -1 then some ([], none)
    else
      (brkContAt a arrayOffset).bind fun jmpTo =>
        let freed := if 1 < nestLevels then freedBehind (opAt a.opcodes jmpTo.brk) else []
        if 0 < decInt nestLevels then
          (zendBrkCont a fuel (decInt nestLevels) jmpTo.parent).map fun r => (freed ++ r.1, r.2)
        else some (freed, some jmpTo)

/-- The loops from `array_offset` outwards come to an end. -/
inductive Enclosed (a : OpArray) : Int → Prop
  | outermost : Enclosed a (-1)
  | inner {arrayOffset : Int} {jmpTo : BrkContElement} (hat : brkContAt a arrayOffset = some jmpTo)
      (hparent : Enclosed a jmpTo.parent) : Enclosed a arrayOffset

/-- The parents form a forest. -/
def BrkContForest (a : OpArray) : Prop :=
  ∀ n < a.brkContArray.length, Enclosed a n

/-- An offset that is -1 or in the table. -/
def OffsetIn (a : OpArray) (arrayOffset : Int) : Prop :=
  arrayOffset = -1 ∨ ∃ n < a.brkContArray.length, arrayOffset = n

theorem BrkContForest.enclosed {arrayOffset : Int} (h : BrkContForest a)
    (hin : OffsetIn a arrayOffset) : Enclosed a arrayOffset := by
  rcases hin with rfl | ⟨n, hn, rfl⟩
  · exact .outermost
  · exact h n hn

theorem freedBehind_eq_nil {brk : ZendOp} (h : ¬(brk.opcode = .freeOp ∨ brk.opcode = .switchFree)) :
    freedBehind brk = [] :=
  if_neg fun hfree => h hfree.1.symm

/-- Both loops end, and where pass 2 finds an element the executor frees nothing and finds the
same. -/
theorem Enclosed.agree {arrayOffset : Int} (h : Enclosed a arrayOffset) (nestLevels : Int) :
    ∃ depth, ∀ fuel, depth ≤ fuel → ∃ found freed jmpTo,
      staticElement a fuel nestLevels arrayOffset = some found ∧
      zendBrkCont a fuel nestLevels arrayOffset = some (freed, jmpTo) ∧
      (found = none ∨ freed = [] ∧ jmpTo = found) := by
  induction h generalizing nestLevels with
  | outermost =>
    refine ⟨1, fun fuel hfuel => ?_⟩
    obtain ⟨fuel, rfl⟩ := Nat.exists_eq_add_of_le' hfuel
    exact ⟨none, [], none, rfl, rfl, .inl rfl⟩
  | @inner arrayOffset jmpTo hat hparent ih =>
    have hoffset : arrayOffset ≠ -1 := by
      rintro rfl
      simp [brkContAt] at hat
    obtain ⟨depth, hdepth⟩ := ih (decInt nestLevels)
    refine ⟨depth + 1, fun fuel hfuel => ?_⟩
    obtain ⟨fuel, rfl⟩ : ∃ m, fuel = m + 1 := ⟨fuel - 1, by omega⟩
    obtain ⟨found, freed, el, hfound, hel, hagree⟩ := hdepth fuel (by omega)
    simp only [staticElement, zendBrkCont, if_neg hoffset, hat, Option.bind_some]
    by_cases hmore : 0 < decInt nestLevels
    · simp only [if_pos hmore, hel, Option.map_some]
      by_cases hfree : (opAt a.opcodes jmpTo.brk).opcode = .freeOp ∨
          (opAt a.opcodes jmpTo.brk).opcode = .switchFree
      · exact ⟨none, _, el, if_pos hfree, rfl, .inl rfl⟩
      · refine ⟨found, _, el, by rw [if_neg hfree, hfound], rfl, ?_⟩
        simpa [freedBehind_eq_nil hfree] using hagree
    · -- the last level: nothing is freed, since `nest_levels` is not above 1
      have hlast : ¬1 < nestLevels := by
        rw [decInt, if_neg (by omega)] at hmore
        omega
      simp only [if_neg hmore, if_neg hlast]
      exact ⟨_, _, _, rfl, rfl, .inr ⟨rfl, rfl⟩⟩

/-- Pass 2 leaves the op_array alone or makes the opline a JMP to where the executor goes without
an error and without freeing a loop variable. -/
theorem pass2BrkCont_sound (convert : Literal → Int) {n : Nat} {opline : ZendOp} {level : Int}
    (hforest : BrkContForest a) (hopline : a.opcodes[n]? = some opline)
    (hopcode : opline.opcode = .brk ∨ opline.opcode = .cont) (hconst : opline.op2.type = .const)
    (hlevel : a.literals[opline.op2.num]? = some (.long level))
    (hoffset : OffsetIn a (toInt opline.op1.num)) :
    ∃ depth, ∀ fuel, depth ≤ fuel → ∃ a' freed jmpTo, pass2BrkCont convert fuel a n = some a' ∧
      zendBrkCont a fuel (longToInt level) (toInt opline.op1.num) = some (freed, jmpTo) ∧
      (a' = a ∨ ∃ el, jmpTo = some el ∧ freed = [] ∧
        a' = { a with opcodes := a.opcodes.set n (opline.jumpTo el) } ∧
        (opline.jumpTo el).opcode = .jmp ∧
        (opline.jumpTo el).op1.num = el.target opline.opcode) := by
  obtain ⟨depth, hdepth⟩ := (hforest.enclosed hoffset).agree (longToInt level)
  refine ⟨depth, fun fuel hfuel => ?_⟩
  obtain ⟨found, freed, jmpTo, hfound, hjmpTo, hagree⟩ := hdepth fuel hfuel
  have hread : convertToLong convert (a.literals.getD opline.op2.num .null) = level := by
    rw [List.getD_eq_getElem?_getD, hlevel]
    rfl
  have hsame : a.literals.set opline.op2.num (.long level) = a.literals := by
    obtain ⟨hlt, hget⟩ := List.getElem?_eq_some_iff.mp hlevel
    rw [← hget, List.set_getElem_self]
  have hguard : ¬(opline.opcode ≠ .brk ∧ opline.opcode ≠ .cont ∨ opline.op2.type ≠ .const) := by
    simp only [hconst, ne_eq, not_true_eq_false, or_false, not_and_or, not_not]
    exact hopcode
  simp only [pass2BrkCont, opAt_of_getElem? hopline, if_neg hguard, hread, hsame, hfound,
    Option.map_some, hjmpTo]
  cases found with
  | none => exact ⟨a, freed, jmpTo, rfl, rfl, .inl rfl⟩
  | some el =>
    obtain ⟨hfreed, rfl⟩ := hagree.resolve_left (Option.some_ne_none el)
    exact ⟨_, freed, _, rfl, rfl, .inr ⟨el, rfl, hfreed, rfl, rfl, rfl⟩⟩

/-- `break 2` in the loop 1. -/
def breakOpline : ZendOp :=
  ⟨.brk, ⟨.unused, 1, false⟩, ⟨.const, 0, false⟩, .none, 0⟩

/-- `while (1) { while (1) { break 2; } }`. -/
def breakTwo : OpArray where
  opcodes := [breakOpline, ⟨.jmp, ⟨.unused, 0, false⟩, .none, .none, 0⟩,
    ⟨.jmp, ⟨.unused, 0, false⟩, .none, .none, 0⟩, ⟨.returnOp, ⟨.const, 1, false⟩, .none, .none, 0⟩]
  literals := [.long 2, .long 1]
  brkContArray := [⟨-1, 2, 3, -1⟩, ⟨-1, 1, 2, 0⟩]

theorem breakTwo_forest : BrkContForest breakTwo := by
  have houter : Enclosed breakTwo 0 := .inner rfl .outermost
  intro n hn
  match n, hn with
  | 0, _ => exact houter
  | 1, _ => exact .inner rfl houter

theorem pass2BrkCont_sound_breakTwo :
    ∃ depth, ∀ fuel, depth ≤ fuel → ∃ a' freed jmpTo,
      pass2BrkCont (fun _ => 0) fuel breakTwo 0 = some a' ∧
      zendBrkCont breakTwo fuel (longToInt 2) (toInt breakOpline.op1.num) = some (freed, jmpTo) ∧
      (a' = breakTwo ∨ ∃ el, jmpTo = some el ∧ freed = [] ∧ a' = { breakTwo with
          opcodes := breakTwo.opcodes.set 0 (breakOpline.jumpTo el) } ∧
        (breakOpline.jumpTo el).opcode = .jmp ∧
        (breakOpline.jumpTo el).op1.num = el.target breakOpline.opcode) :=
  pass2BrkCont_sound (fun _ => 0) breakTwo_forest rfl (.inl rfl) rfl rfl (.inr ⟨1, by decide, rfl⟩)

example : (pass2BrkCont (fun _ => 0) 3 breakTwo 0).map (fun a => opAt a.opcodes 0) =
    some ⟨.jmp, ⟨.unused, 3, false⟩, .none, .none, 0⟩ := by decide

end PhpEngine

/-
What NOP removal does to the numbers that stand for oplines.
-/
import Mathlib.Data.List.Perm.Subperm
import PhpEngine.NopRemoval

namespace PhpEngine

open List

/-- An opline that is taken out: a NOP, or a JMP over NOPs. -/
def removed (opcodes : List ZendOp) (i : Nat) : Bool :=
  let op := opAt opcodes i
  decide (op.opcode = .nop) || decide (op.opcode = .jmp ∧ i < op.op1.num ∧
    ∀ j, j < op.op1.num → i < j → (opAt opcodes j).opcode = .nop)

/-- The old numbers of the oplines that stay. -/
def survivors (a : OpArray) : List Nat :=
  keptBelow (removed a.opcodes) a.opcodes.length

/-- After the removal `n'` is the opline that was the first kept one at or
after `n`. -/
def Designates (a : OpArray) (n n' : Nat) : Prop :=
  (survivors a)[n']? = (survivors a).find? fun i => decide (n ≤ i)

section Scan

variable {opcodes : List ZendOp} {literals : List Literal} {i : Nat}

/-- From above, the walk comes to an opline that is no NOP when there are
only NOPs between. -/
theorem skipNopsDown_eq_iff {n : Nat} (hop : (opAt opcodes i).opcode ≠ .nop) (hle : i ≤ n) :
    skipNopsDown opcodes n = i ↔ ∀ j, j ≤ n → i < j → (opAt opcodes j).opcode = .nop := by
  induction n with
  | zero =>
    obtain rfl := Nat.le_zero.mp hle
    simp only [skipNopsDown, true_iff]
    omega
  | succ n ih =>
    rw [skipNopsDown]
    by_cases hnop : (opAt opcodes (n + 1)).opcode = .nop
    · have hne : i ≠ n + 1 := by
        rintro rfl
        exact hop hnop
      rw [if_pos hnop, ih (by omega)]
      constructor
      · intro hall j hj hlt
        rcases Nat.lt_or_eq_of_le hj with hj | rfl
        · exact hall j (by omega) hlt
        · exact hnop
      · intro hall j hj hlt
        exact hall j (by omega) hlt
    · rw [if_neg hnop]
      constructor
      · intro heq j hj hlt
        omega
      · intro hall
        by_contra hne
        exact hnop (hall (n + 1) le_rfl (by omega))

theorem killJmp_nop_iff {now : List ZendOp} (hsame : ∀ j, i ≤ j → opAt now j = opAt opcodes j) :
    (killJmp now i).opcode = .nop ↔ removed opcodes i = true := by
  have hop := hsame i (le_refl i)
  rw [killJmp, removed, hop]
  simp only [Bool.or_eq_true, decide_eq_true_eq]
  by_cases hjmp : (opAt opcodes i).opcode = .jmp
  · by_cases hlt : i < (opAt opcodes i).op1.num
    · have hne : (opAt now i).opcode ≠ .nop := by
        rw [hop, hjmp]
        simp
      have hskip := skipNopsDown_eq_iff hne (n := (opAt opcodes i).op1.num - 1) (by omega)
      have hbetween : (∀ j, j ≤ (opAt opcodes i).op1.num - 1 → i < j → (opAt now j).opcode = .nop) ↔
          ∀ j, j < (opAt opcodes i).op1.num → i < j → (opAt opcodes j).opcode = .nop := by
        constructor
        · intro hall j hj hij
          rw [← hsame j (le_of_lt hij)]
          exact hall j (by omega) hij
        · intro hall j hj hij
          rw [hsame j (le_of_lt hij)]
          exact hall j (by omega) hij
      rw [hbetween] at hskip
      by_cases hnops : skipNopsDown now ((opAt opcodes i).op1.num - 1) = i
      · rw [if_pos ⟨hjmp, hlt, hnops⟩]
        simp only [true_iff]
        exact .inr ⟨hjmp, hlt, hskip.mp hnops⟩
      · rw [if_neg fun h => hnops h.2.2]
        constructor
        · exact Or.inl
        · rintro (hnop | ⟨-, -, hall⟩)
          · exact hnop
          · exact absurd (hskip.mpr hall) hnops
    · rw [if_neg fun h => hlt h.2.1]
      constructor
      · exact Or.inl
      · rintro (hnop | ⟨-, hlt', -⟩)
        · exact hnop
        · exact absurd hlt' hlt
  · rw [if_neg fun h => hjmp h.1]
    constructor
    · exact Or.inl
    · rintro (hnop | ⟨hjmp', -⟩)
      · exact hnop
      · exact absurd hjmp' hjmp

theorem killJmp_eq {now : List ZendOp} (hnop : (killJmp now i).opcode ≠ .nop) :
    killJmp now i = opAt now i := by
  rw [killJmp] at hnop ⊢
  split
  · rename_i hkill
    rw [if_pos hkill] at hnop
    exact absurd rfl hnop
  · rfl

/-- The scan in front of the opline `i`: what stays of the oplines before it
has been moved down, and the rest is as it was. -/
structure ScannedTo (opcodes : List ZendOp) (i : Nat) (s : NopScan) :
    Prop where
  length : s.opcodes.length = opcodes.length
  rest : ∀ j, i ≤ j → opAt s.opcodes j = opAt opcodes j
  moved : s.opcodes.take s.newCount = (keptBelow (removed opcodes) i).map (opAt opcodes)
  newCount : s.newCount = (keptBelow (removed opcodes) i).length
  shift : s.shift = goneBelow (removed opcodes) i
  shiftlist : s.shiftlist = (List.range i).map (goneBelow (removed opcodes))

theorem ScannedTo.start (opcodes : List ZendOp) : ScannedTo opcodes 0 ⟨opcodes, 0, 0, []⟩ :=
  ⟨rfl, fun _ _ => rfl, rfl, rfl, rfl, rfl⟩

theorem ScannedTo.newCount_add {s : NopScan} (h : ScannedTo opcodes i s) :
    s.newCount + s.shift = i := by
  rw [h.newCount, h.shift]
  exact length_keptBelow_add _ _

theorem take_set_succ {α : Type} {l : List α} {n : Nat} (x : α)
    (h : n < l.length) : (l.set n x).take (n + 1) = l.take n ++ [x] := by
  rw [take_add_one, take_set_of_le (le_refl n)]
  simp [h]

theorem ScannedTo.step {s : NopScan} (h : ScannedTo opcodes i s) (hi : i < opcodes.length)
    (hgoto : (opAt opcodes i).opcode = .goto →
      (literals.getD (opAt opcodes i).op2.num .null).isLong) :
    ∃ s', nopScanStep literals i s = some s' ∧ ScannedTo opcodes (i + 1) s' := by
  have hop := h.rest i (le_refl i)
  have hadd := h.newCount_add
  have hlist : s.shiftlist ++ [s.shift] =
      (List.range (i + 1)).map (goneBelow (removed opcodes)) := by
    rw [range_succ, map_append, h.shiftlist, h.shift]
    rfl
  have hrest : ∀ (op : ZendOp) (j : Nat), i + 1 ≤ j →
      opAt (s.opcodes.set i op) j = opAt opcodes j := by
    intro op j hj
    rw [opAt_set, if_neg (by omega)]
    exact h.rest j (by omega)
  rw [nopScanStep, hop, if_neg (by tauto)]
  by_cases hnop : (killJmp s.opcodes i).opcode = .nop
  · have hgone := (killJmp_nop_iff h.rest).mp hnop
    rw [if_pos hnop]
    refine ⟨_, rfl, ?_, hrest _, ?_, ?_, ?_, hlist⟩
    · rw [length_set, h.length]
    · dsimp only
      rw [take_set_of_le (by omega), h.moved, keptBelow_succ, hgone]
      simp
    · rw [keptBelow_succ, hgone, h.newCount]
      simp
    · rw [goneBelow_succ, hgone, h.shift]
      simp
  · have hgone : removed opcodes i = false := by
      rw [← Bool.not_eq_true, ← killJmp_nop_iff h.rest]
      exact hnop
    rw [if_neg hnop, killJmp_eq hnop, hop]
    have hmoved : (keptBelow (removed opcodes) (i + 1)).map (opAt opcodes) =
        s.opcodes.take s.newCount ++ [opAt opcodes i] := by
      rw [keptBelow_succ, hgone, h.moved]
      simp
    refine ⟨_, rfl, ?_, ?_, ?_, ?_, ?_, hlist⟩
    · by_cases hshift : s.shift ≠ 0
      · rw [if_pos hshift, length_set, length_set, h.length]
      · rw [if_neg hshift, length_set, h.length]
    · intro j hj
      by_cases hshift : s.shift ≠ 0
      · simp only [if_pos hshift]
        rw [opAt_set, if_neg (by omega)]
        exact hrest _ j hj
      · simp only [if_neg hshift]
        exact hrest _ j hj
    · rw [hmoved]
      by_cases hshift : s.shift ≠ 0
      · simp only [if_pos hshift]
        rw [take_set_succ _ (by rw [length_set, h.length]; omega), take_set_of_le (by omega)]
      · have hi' : s.newCount = i := by omega
        simp only [if_neg hshift]
        rw [hi', take_set_succ _ (by rw [h.length]; exact hi)]
    · rw [keptBelow_succ, hgone, h.newCount]
      simp
    · rw [goneBelow_succ, hgone, h.shift]
      simp

theorem nopScan_scans {n : Nat} {s : NopScan} (h : ScannedTo opcodes i s)
    (hi : i + n = opcodes.length)
    (hgoto : ∀ j, j < opcodes.length → (opAt opcodes j).opcode = .goto →
      (literals.getD (opAt opcodes j).op2.num .null).isLong) :
    ∃ s', nopScan literals n i s = (s', true) ∧ ScannedTo opcodes opcodes.length s' := by
  induction n generalizing i s with
  | zero => exact ⟨s, rfl, by rwa [← hi]⟩
  | succ n ih =>
    obtain ⟨s', hstep, hnext⟩ := h.step (by omega) (hgoto i (by omega))
    rw [nopScan, hstep]
    exact ih hnext (by omega)

end Scan

/-- The opline numbers that the handler of an opline may follow. -/
def codeAddresses (op : ZendOp) : List Nat :=
  match op.opcode with
  | .jmp | .goto => [op.op1.num]
  | .fastCall =>
    op.op1.num :: if op.extendedValue ≠ 0 then [op.op2.num] else []
  | .fastRet => if op.extendedValue ≠ 0 then [op.op2.num] else []
  | .jmpz | .jmpnz | .jmpzEx | .jmpnzEx | .feFetch | .feReset | .newOp
  | .jmpSet | .jmpSetVar => [op.op2.num]
  | .jmpznz => [op.op2.num, op.extendedValue]
  | .catchOp => [op.extendedValue]
  | _ => []

/-- An opline without the numbers that stand for oplines: what a relocation
leaves alone. -/
def withoutAddresses (op : ZendOp) : ZendOp :=
  match op.opcode with
  | .jmp | .goto => { op with op1 := { op.op1 with num := 0 } }
  | .fastCall =>
    { op with
      op1 := { op.op1 with num := 0 }
      op2 := { op.op2 with num := 0 } }
  | .fastRet | .jmpz | .jmpnz | .jmpzEx | .jmpnzEx | .feFetch | .feReset
  | .newOp | .jmpSet | .jmpSetVar => { op with op2 := { op.op2 with num := 0 } }
  | .jmpznz =>
    { op with op2 := { op.op2 with num := 0 }, extendedValue := 0 }
  | .catchOp => { op with extendedValue := 0 }
  | .declareInheritedClassDelayed =>
    { op with result := { op.result with num := 0 } }
  | _ => op

/-- The list of early bindings that starts at `n`. -/
def BindingChain (opcodes : List ZendOp) : Nat → List Nat → Prop
  | n, [] => n = noOpline
  | n, m :: l => n = m ∧ m < opcodes.length ∧ BindingChain opcodes (opAt opcodes m).result.num l

/-- An op_array behind `pass_two` whose targets are in range. -/
structure TargetsInRange (a : OpArray) : Prop where
  length : a.opcodes.length < 2 ^ 31
  goto : ∀ i, i < a.opcodes.length → (opAt a.opcodes i).opcode = .goto →
    (a.literals.getD (opAt a.opcodes i).op2.num .null).isLong
  opcodes : ∀ i, i < a.opcodes.length → ∀ n ∈ codeAddresses (opAt a.opcodes i), n < a.opcodes.length
  brkCont : ∀ e ∈ a.brkContArray, e.brk < a.opcodes.length ∧
    e.cont < a.opcodes.length ∧ e.start < a.opcodes.length
  tryCatch : ∀ e ∈ a.tryCatchArray, e.tryOp < a.opcodes.length ∧
    e.catchOp < a.opcodes.length ∧ e.finallyOp < a.opcodes.length ∧
    e.finallyEnd < a.opcodes.length
  early : ∃ l, BindingChain a.opcodes a.earlyBinding l ∧ l.Nodup ∧
    ∀ i ∈ l, (opAt a.opcodes i).opcode = .declareInheritedClassDelayed

/-- The oplines that stay are the old ones, and what their handlers may
follow was relocated. -/
structure OplinesRelocated (a a' : OpArray) : Prop where
  length : a'.opcodes.length = (survivors a).length
  same : ∀ i' i, (survivors a)[i']? = some i → withoutAddresses (opAt a'.opcodes i') =
      withoutAddresses (opAt a.opcodes i)
  addresses : ∀ i' i, (survivors a)[i']? = some i →
    List.Forall₂ (Designates a) (codeAddresses (opAt a.opcodes i))
      (codeAddresses (opAt a'.opcodes i'))

/-- All numbers that stand for oplines were relocated. -/
structure Relocated (a a' : OpArray) : Prop where
  opcodes : OplinesRelocated a a'
  brkCont : List.Forall₂ (fun e e' => Designates a e.brk e'.brk ∧ Designates a e.cont e'.cont ∧
    (0 ≤ e.start → 0 ≤ e'.start ∧ Designates a e.start.toNat e'.start.toNat) ∧ e'.parent = e.parent)
    a.brkContArray a'.brkContArray
  tryCatch : List.Forall₂ (fun e e' => Designates a e.tryOp e'.tryOp ∧
    Designates a e.catchOp e'.catchOp ∧ (e.finallyOp = 0 → e'.finallyOp = 0) ∧
    (e.finallyOp ≠ 0 → Designates a e.finallyOp e'.finallyOp ∧
      Designates a e.finallyEnd e'.finallyEnd))
    a.tryCatchArray a'.tryCatchArray
  early : ∃ l l', BindingChain a.opcodes a.earlyBinding l ∧
    BindingChain a'.opcodes a'.earlyBinding l' ∧
    List.Forall₂ (Designates a) l l'

/-- No opline is taken out in front of the target in the second operand of a
FAST_CALL or FAST_RET that uses it (or all are from there on). -/
def FastLinksStay (a : OpArray) : Prop :=
  ∀ i ∈ survivors a, (opAt a.opcodes i).opcode = .fastCall ∨ (opAt a.opcodes i).opcode = .fastRet →
    (opAt a.opcodes i).extendedValue ≠ 0 →
    (∀ j, j < (opAt a.opcodes i).op2.num → removed a.opcodes j = false) ∨
      ∀ j, (opAt a.opcodes i).op2.num ≤ j → j < a.opcodes.length → removed a.opcodes j = true

section Relocation

variable {a : OpArray} {shift : Int → Nat} {op : ZendOp}

/-- The new number of an opline. -/
def newNum (a : OpArray) (n : Nat) : Nat :=
  n - goneBelow (removed a.opcodes) n

theorem designates_newNum {n : Nat} (h : n < a.opcodes.length) : Designates a n (newNum a n) :=
  keptBelow_getElem? _ (Nat.le_of_lt h)

theorem survivors_newNum {n : Nat} (h : n ∈ survivors a) : (survivors a)[newNum a n]? = some n := by
  obtain ⟨hlt, hkept⟩ := (mem_keptBelow _).mp h
  exact keptBelow_getElem?_of_kept _ hlt hkept

theorem newNum_lt {n : Nat} (h : n ∈ survivors a) : newNum a n < (survivors a).length :=
  (List.getElem?_eq_some_iff.mp (survivors_newNum h)).1

theorem newNum_inj {m n : Nat} (hm : m ∈ survivors a) (hn : n ∈ survivors a)
    (h : newNum a m = newNum a n) : m = n := by
  have hat := survivors_newNum hm
  rw [h, survivors_newNum hn] at hat
  exact (Option.some.inj hat).symm

/-- What the list of shifts holds. -/
def Shifts (a : OpArray) (shift : Int → Nat) : Prop :=
  ∀ n : Nat, n < a.opcodes.length → shift n = goneBelow (removed a.opcodes) n

theorem uintSub_of_le {m n : Nat} (hle : n ≤ m) (hlt : m < uintMod) : uintSub m n = m - n := by
  rw [uintSub, Nat.mod_eq_of_lt (lt_of_le_of_lt hle hlt)]
  have heq : m + uintMod - n = (m - n) + uintMod := by omega
  rw [heq, Nat.add_mod_right, Nat.mod_eq_of_lt (by omega)]

theorem ulongSub_of_le {m n : Nat} (hle : n ≤ m) (hlt : m < ulongMod) : ulongSub m n = m - n := by
  rw [ulongSub, Nat.mod_eq_of_lt (lt_of_le_of_lt hle hlt)]
  have heq : m + ulongMod - n = (m - n) + ulongMod := by omega
  rw [heq, Nat.add_mod_right, Nat.mod_eq_of_lt (by omega)]

section Shifted

variable (hshift : Shifts a shift) (hlength : a.opcodes.length < noOpline)

include hshift hlength

theorem relocateNum_eq {n : Nat} (h : n < a.opcodes.length) : relocateNum shift n = newNum a n := by
  have hmod : noOpline < uintMod := by decide
  rw [relocateNum, hshift n h, uintSub_of_le (goneBelow_le _ _) (by omega)]
  rfl

theorem designates_relocateNum {n : Nat} (h : n < a.opcodes.length) :
    Designates a n (relocateNum shift n) := by
  rw [relocateNum_eq hshift hlength h]
  exact designates_newNum h

theorem designates_relocateExt {n : Nat} (h : n < a.opcodes.length) :
    Designates a n (relocateExt shift n) := by
  have hmod : noOpline < ulongMod := by decide
  rw [relocateExt, hshift n h, ulongSub_of_le (goneBelow_le _ _) (by omega)]
  exact designates_newNum h

end Shifted

/-- The second operands of FAST_CALL and FAST_RET are not relocated; all
other numbers are. -/
theorem relocateOp_addresses_iff {num ext : Nat → Nat}
    (hnum : ∀ n, n < a.opcodes.length → Designates a n (num n))
    (hext : ∀ n, n < a.opcodes.length → Designates a n (ext n))
    (hrange : ∀ n ∈ codeAddresses op, n < a.opcodes.length) :
    List.Forall₂ (Designates a) (codeAddresses op) (codeAddresses (relocateOp num ext op)) ↔
      (op.opcode = .fastCall ∨ op.opcode = .fastRet → op.extendedValue ≠ 0 →
        Designates a op.op2.num op.op2.num) := by
  obtain ⟨opcode, op1, op2, result, extended⟩ := op
  cases opcode with
  | fastCall =>
    have hop1 := hrange op1.num (by simp [codeAddresses])
    by_cases hzero : extended = 0 <;> simp [codeAddresses, relocateOp, hzero, hnum _ hop1]
  | fastRet =>
    by_cases hzero : extended = 0 <;> simp [codeAddresses, relocateOp, hzero]
  | jmpznz =>
    have hop2 := hrange op2.num (by simp [codeAddresses])
    have hop3 := hrange extended (by simp [codeAddresses])
    simp [codeAddresses, relocateOp, hnum _ hop2, hext _ hop3]
  | catchOp =>
    have hop3 := hrange extended (by simp [codeAddresses])
    simp [codeAddresses, relocateOp, hext _ hop3]
  | jmp | goto =>
    have hop1 := hrange op1.num (by simp [codeAddresses])
    simp [codeAddresses, relocateOp, hnum _ hop1]
  | jmpz | jmpnz | jmpzEx | jmpnzEx | feFetch | feReset | newOp | jmpSet
  | jmpSetVar =>
    have hop2 := hrange op2.num (by simp [codeAddresses])
    simp [codeAddresses, relocateOp, hnum _ hop2]
  | _ => simp [codeAddresses, relocateOp]

theorem relocateOp_same (num ext : Nat → Nat) (op : ZendOp) :
    withoutAddresses (relocateOp num ext op) = withoutAddresses op := by
  obtain ⟨opcode, op1, op2, result, ext⟩ := op
  cases opcode <;> rfl

/-! The list of early bindings. -/

def ZendOp.setLink (op : ZendOp) (n : Nat) : ZendOp :=
  { op with result := { op.result with num := n } }

theorem withoutAddresses_setLink {n : Nat} (h : op.opcode = .declareInheritedClassDelayed) :
    withoutAddresses (op.setLink n) = withoutAddresses op := by
  obtain ⟨opcode, op1, op2, result, ext⟩ := op
  subst h
  rfl

/-- What the walk through the list leaves: only links differ, and they are
relocated. -/
structure ChainRelocated (a : OpArray) (now out : List ZendOp) (m : Nat) (l : List Nat) : Prop where
  length : out.length = now.length
  same : ∀ j, withoutAddresses (opAt out j) = withoutAddresses (opAt now j)
  addresses : ∀ j, codeAddresses (opAt out j) = codeAddresses (opAt now j)
  others : ∀ j, j ∉ (m :: l).map (newNum a) → opAt out j = opAt now j
  chain : BindingChain out (newNum a m) ((m :: l).map (newNum a))

theorem relocateChain_relocates (hshift : Shifts a shift)
    (hlength : a.opcodes.length < noOpline) {fuel : Nat} {now : List ZendOp}
    {m : Nat} {l : List Nat} (hfuel : l.length < fuel) (hnow : now.length = (survivors a).length)
    (hchain : BindingChain a.opcodes m (m :: l)) (hnodup : (m :: l).Nodup)
    (hkept : ∀ i ∈ m :: l, i ∈ survivors a) (hops : ∀ i ∈ m :: l,
      (opAt now (newNum a i)).opcode = .declareInheritedClassDelayed ∧
      (opAt now (newNum a i)).result.num = (opAt a.opcodes i).result.num) :
    ∃ out, relocateChain shift fuel now (newNum a m) = some out ∧ ChainRelocated a now out m l := by
  induction l generalizing fuel now m with
  | nil =>
    obtain ⟨fuel, rfl⟩ := Nat.exists_eq_add_of_lt hfuel
    have hlink : (opAt now (newNum a m)).result.num = noOpline :=
      (hops m mem_cons_self).2.trans hchain.2.2
    rw [length_nil, zero_add, relocateChain]
    rw [if_pos hlink]
    refine ⟨now, rfl, rfl, fun _ => rfl, fun _ => rfl, fun _ _ => rfl, rfl, ?_, hlink⟩
    rw [hnow]
    exact newNum_lt (hkept m mem_cons_self)
  | cons m' l ih =>
    obtain ⟨fuel, rfl⟩ : ∃ n, fuel = n + 1 :=
      Nat.exists_eq_succ_of_ne_zero (by omega)
    obtain ⟨hdelayed, hnum⟩ := hops m mem_cons_self
    obtain ⟨hlink, hm', hrest⟩ := hchain.2.2
    rw [hlink] at hnum
    obtain ⟨hnotin, hnodup'⟩ := nodup_cons.mp hnodup
    have hm : m ∈ survivors a := hkept m mem_cons_self
    have hne : ∀ i ∈ m' :: l, newNum a m ≠ newNum a i := by
      intro i hi heq
      have him := newNum_inj hm (hkept i (mem_cons_of_mem _ hi)) heq
      exact hnotin (him ▸ hi)
    generalize hop : opAt now (newNum a m) = op at hdelayed hnum
    have hset : ∀ j, opAt (now.set (newNum a m) (op.setLink (newNum a m'))) j =
        if newNum a m = j then op.setLink (newNum a m') else opAt now j := by
      intro j
      rw [opAt_set]
      by_cases hj : newNum a m = j
      · rw [if_pos hj, if_pos ⟨hj, by rw [← hj, hnow]; exact newNum_lt hm⟩]
      · rw [if_neg hj, if_neg fun h => hj h.1]
    obtain ⟨out, hrun, hout⟩ := @ih fuel (now.set (newNum a m) (op.setLink (newNum a m'))) m'
      (by simpa using hfuel) (by rw [length_set, hnow])
      ⟨rfl, hm', hrest⟩ hnodup'
      (fun i hi => hkept i (mem_cons_of_mem _ hi)) (by
        intro i hi
        rw [hset, if_neg (hne i hi)]
        exact hops i (mem_cons_of_mem _ hi))
    have hwalk : relocateChain shift (fuel + 1) now (newNum a m) = some out := by
      rw [relocateChain, hop]
      rw [if_neg (by omega), hnum, relocateNum_eq hshift hlength hm']
      exact hrun
    have hold : op = opAt now (newNum a m) := hop.symm
    refine ⟨out, hwalk, ?_, ?_, ?_, ?_, ?_⟩
    · rw [hout.length, length_set]
    · intro j
      rw [hout.same, hset]
      split
      · rename_i hj
        rw [withoutAddresses_setLink hdelayed, hold, hj]
      · rfl
    · intro j
      rw [hout.addresses, hset]
      split
      · rename_i hj
        rw [← hj, ← hold]
        rfl
      · rfl
    · intro j hj
      rw [map_cons, mem_cons, not_or] at hj
      rw [hout.others j hj.2, hset, if_neg (Ne.symm hj.1)]
    · have hself : newNum a m ∉ (m' :: l).map (newNum a) := by
        intro hmem
        obtain ⟨i, hi, heq⟩ := List.mem_map.mp hmem
        exact hne i hi heq.symm
      refine ⟨rfl, ?_, ?_⟩
      · rw [hout.length, length_set, hnow]
        exact newNum_lt hm
      · rw [hout.others _ hself, hset, if_pos rfl]
        exact hout.chain

/-! The whole pass. -/

theorem ScannedTo.shifts {s : NopScan} (memory : Int → Nat)
    (h : ScannedTo a.opcodes a.opcodes.length s) : Shifts a (shiftAt memory s.shiftlist) := by
  intro n hn
  rw [h.shiftlist, shiftAt, if_pos (by simpa using hn)]
  simp [hn]

theorem map_opAt_range (opcodes : List ZendOp) :
    (List.range opcodes.length).map (opAt opcodes) = opcodes := by
  apply ext_getElem
  · simp
  · intro i h₁ h₂
    simp [opAt, h₂]

theorem ScannedTo.opcodes_eq {s : NopScan}
    (h : ScannedTo a.opcodes a.opcodes.length s) (hzero : s.shift = 0) : s.opcodes = a.opcodes := by
  have hcount : s.newCount = a.opcodes.length := by
    have hadd := h.newCount_add
    omega
  have hkept := (goneBelow_eq_zero_iff _ _).mp (h.shift.symm.trans hzero)
  have hall : keptBelow (removed a.opcodes) a.opcodes.length = List.range a.opcodes.length := by
    rw [keptBelow, filter_eq_self]
    intro i hi
    simp [hkept i (mem_range.mp hi)]
  have hmoved := h.moved
  rw [hall, map_opAt_range, hcount, ← h.length, take_length] at hmoved
  exact hmoved

theorem ScannedTo.opAt_relocated {s : NopScan} {num ext : Nat → Nat}
    (h : ScannedTo a.opcodes a.opcodes.length s) {i i' : Nat} (hi : (survivors a)[i']? = some i) :
    opAt ((s.opcodes.take s.newCount).map (relocateOp num ext)) i' =
      relocateOp num ext (opAt a.opcodes i) := by
  apply opAt_of_getElem?
  rw [h.moved, List.map_map, getElem?_map]
  change ((survivors a)[i']?).map _ = _
  rw [hi]
  rfl

theorem intSub_of_le {m n : Nat} (hle : n ≤ m) (hlt : m < 2 ^ 31) : intSub m n = (m - n : Nat) := by
  have hbound : m < uintMod := lt_trans hlt (by decide)
  have hmod : ((m : Int) % (uintMod : Int)).toNat = m := by
    rw [Int.emod_eq_of_lt (Int.natCast_nonneg m) (Int.ofNat_lt.mpr hbound), Int.toNat_natCast]
  rw [intSub, hmod, uintSub_of_le hle hbound, toInt, if_pos (by omega)]

theorem designates_relocateStart (hshift : Shifts a shift)
    (hlength : a.opcodes.length < 2 ^ 31) {n : Int} (hpos : 0 ≤ n) (hlt : n < a.opcodes.length) :
    0 ≤ relocateStart shift n ∧ Designates a n.toNat (relocateStart shift n).toNat := by
  obtain ⟨m, rfl⟩ := Int.eq_ofNat_of_zero_le hpos
  have hm : m < a.opcodes.length := by omega
  have hle := goneBelow_le (removed a.opcodes) m
  rw [relocateStart, hshift m hm, intSub_of_le hle (by omega), Int.toNat_natCast, Int.toNat_natCast]
  exact ⟨Int.natCast_nonneg _, designates_newNum hm⟩

section Elements

variable {num ext : Nat → Nat} {start : Int → Int}
  (hnum : ∀ n, n < a.opcodes.length → Designates a n (num n))

include hnum

theorem relocateBrkCont_designates (hstart : ∀ n : Int, 0 ≤ n → n < a.opcodes.length →
      0 ≤ start n ∧ Designates a n.toNat (start n).toNat)
    {l : List BrkContElement} (h : ∀ e ∈ l, e.brk < a.opcodes.length ∧
      e.cont < a.opcodes.length ∧ e.start < a.opcodes.length) :
    List.Forall₂ (fun e e' => Designates a e.brk e'.brk ∧ Designates a e.cont e'.cont ∧
      (0 ≤ e.start → 0 ≤ e'.start ∧
        Designates a e.start.toNat e'.start.toNat) ∧ e'.parent = e.parent)
      l (l.map (relocateBrkCont num start)) := by
  rw [forall₂_map_right_iff, forall₂_same]
  intro e he
  obtain ⟨hbrk, hcont, hlt⟩ := h e he
  exact ⟨hnum _ hbrk, hnum _ hcont, fun hpos => hstart _ hpos hlt, rfl⟩

theorem relocateTryCatch_designates {l : List TryCatchElement}
    (h : ∀ e ∈ l, e.tryOp < a.opcodes.length ∧ e.catchOp < a.opcodes.length ∧
      e.finallyOp < a.opcodes.length ∧ e.finallyEnd < a.opcodes.length) :
    List.Forall₂ (fun e e' => Designates a e.tryOp e'.tryOp ∧ Designates a e.catchOp e'.catchOp ∧
      (e.finallyOp = 0 → e'.finallyOp = 0) ∧
      (e.finallyOp ≠ 0 → Designates a e.finallyOp e'.finallyOp ∧
        Designates a e.finallyEnd e'.finallyEnd)) l (l.map (relocateTryCatch num)) := by
  rw [forall₂_map_right_iff, forall₂_same]
  intro e he
  obtain ⟨htry, hcatch, hfinally, hend⟩ := h e he
  refine ⟨hnum _ htry, hnum _ hcatch, ?_, ?_⟩
  · intro hzero
    simp [relocateTryCatch, hzero]
  · intro hne
    simp only [relocateTryCatch, if_pos hne]
    exact ⟨hnum _ hfinally, hnum _ hend⟩

end Elements

theorem designates_self_iff {n : Nat} (h : n < a.opcodes.length) :
    Designates a n n ↔ (∀ j, j < n → removed a.opcodes j = false) ∨
      ∀ j, n ≤ j → j < a.opcodes.length → removed a.opcodes j = true :=
  keptBelow_getElem?_same_iff _ h

theorem op2_mem_codeAddresses (hop : op.opcode = .fastCall ∨ op.opcode = .fastRet)
    (hext : op.extendedValue ≠ 0) : op.op2.num ∈ codeAddresses op := by
  rcases hop with hop | hop <;> simp [codeAddresses, hop, hext]

/-- An op_array whose numbers were all relocated, but for the links of
FAST_CALL and FAST_RET. -/
theorem relocated_iff (num ext : Nat → Nat) (start : Int → Int) {a' : OpArray}
    (hrange : TargetsInRange a) (hnum : ∀ n, n < a.opcodes.length → Designates a n (num n))
    (hext : ∀ n, n < a.opcodes.length → Designates a n (ext n))
    (hstart : ∀ n : Int, 0 ≤ n → n < a.opcodes.length →
      0 ≤ start n ∧ Designates a n.toNat (start n).toNat)
    (hlen : a'.opcodes.length = (survivors a).length) (hsame : ∀ i' i, (survivors a)[i']? = some i →
      withoutAddresses (opAt a'.opcodes i') = withoutAddresses (opAt a.opcodes i))
    (haddr : ∀ i' i, (survivors a)[i']? = some i → codeAddresses (opAt a'.opcodes i') =
        codeAddresses (relocateOp num ext (opAt a.opcodes i)))
    (hbrk : a'.brkContArray = a.brkContArray.map (relocateBrkCont num start))
    (htry : a'.tryCatchArray = a.tryCatchArray.map (relocateTryCatch num))
    (hearly : ∃ l l', BindingChain a.opcodes a.earlyBinding l ∧
      BindingChain a'.opcodes a'.earlyBinding l' ∧ List.Forall₂ (Designates a) l l') :
    Relocated a a' ↔ FastLinksStay a := by
  have hop : ∀ i ∈ survivors a, (List.Forall₂ (Designates a) (codeAddresses (opAt a.opcodes i))
      (codeAddresses (relocateOp num ext (opAt a.opcodes i))) ↔
      ((opAt a.opcodes i).opcode = .fastCall ∨ (opAt a.opcodes i).opcode = .fastRet →
        (opAt a.opcodes i).extendedValue ≠ 0 →
        Designates a (opAt a.opcodes i).op2.num (opAt a.opcodes i).op2.num)) := by
    intro i hi
    exact relocateOp_addresses_iff hnum hext (hrange.opcodes i ((mem_keptBelow _).mp hi).1)
  have hself : ∀ i ∈ survivors a, (opAt a.opcodes i).opcode = .fastCall ∨
      (opAt a.opcodes i).opcode = .fastRet →
      (opAt a.opcodes i).extendedValue ≠ 0 →
      (opAt a.opcodes i).op2.num < a.opcodes.length := by
    intro i hi hfast hused
    exact hrange.opcodes i ((mem_keptBelow _).mp hi).1 _ (op2_mem_codeAddresses hfast hused)
  constructor
  · intro h i hi hfast hused
    rw [← designates_self_iff (hself i hi hfast hused)]
    have hall := h.opcodes.addresses _ i (survivors_newNum hi)
    rw [haddr _ i (survivors_newNum hi), hop i hi] at hall
    exact hall hfast hused
  · intro h
    refine ⟨⟨hlen, hsame, ?_⟩, ?_, ?_, hearly⟩
    · intro i' i hi
      have hmem := mem_of_getElem? hi
      rw [haddr i' i hi, hop i hmem]
      intro hfast hused
      rw [designates_self_iff (hself i hmem hfast hused)]
      exact h i hmem hfast hused
    · rw [hbrk]
      exact relocateBrkCont_designates hnum hstart hrange.brkCont
    · rw [htry]
      exact relocateTryCatch_designates hnum hrange.tryCatch

theorem BindingChain.lt {opcodes : List ZendOp} {n : Nat} {l : List Nat}
    (h : BindingChain opcodes n l) : ∀ i ∈ l, i < opcodes.length := by
  induction l generalizing n with
  | nil => simp
  | cons m l ih =>
    obtain ⟨-, hlt, hrest⟩ := h
    intro i hi
    rcases mem_cons.mp hi with rfl | hi
    · exact hlt
    · exact ih hrest i hi

theorem relocated_self_iff (hrange : TargetsInRange a)
    (hnone : goneBelow (removed a.opcodes) a.opcodes.length = 0) :
    Relocated a a ↔ FastLinksStay a := by
  have hkept := (goneBelow_eq_zero_iff _ _).mp hnone
  have hself : ∀ n, n < a.opcodes.length → Designates a n n := by
    intro n hn
    exact (designates_self_iff hn).mpr (.inl fun j hj => hkept j (lt_trans hj hn))
  have hall : survivors a = List.range a.opcodes.length := by
    rw [survivors, keptBelow, filter_eq_self]
    intro i hi
    simp [hkept i (mem_range.mp hi)]
  have hat : ∀ i' i : Nat, (survivors a)[i']? = some i → i' = i := by
    intro i' i hi
    rw [hall] at hi
    obtain ⟨hlt, heq⟩ := List.getElem?_eq_some_iff.mp hi
    rwa [getElem_range] at heq
  obtain ⟨l, hchain, -, -⟩ := hrange.early
  refine relocated_iff id id id hrange hself hself ?_ ?_ ?_ ?_ ?_ ?_ ⟨l, l, hchain, hchain, ?_⟩
  · intro n hpos hlt
    exact ⟨hpos, hself _ (by omega)⟩
  · rw [hall, length_range]
  · intro i' i hi
    rw [hat i' i hi]
  · intro i' i hi
    rw [hat i' i hi]
    generalize opAt a.opcodes i = op
    obtain ⟨opcode, op1, op2, result, ext⟩ := op
    cases opcode <;> rfl
  · exact (List.map_id' _).symm
  · rw [map_congr_left (g := id), List.map_id]
    simp [relocateTryCatch]
  · rw [forall₂_same]
    intro i hi
    exact hself i (hchain.lt i hi)

theorem relocateOp_delayed {num ext : Nat → Nat} (h : op.opcode = .declareInheritedClassDelayed) :
    relocateOp num ext op = op := by
  rw [relocateOp, h]

theorem not_removed_delayed {opcodes : List ZendOp} {i : Nat}
    (h : (opAt opcodes i).opcode = .declareInheritedClassDelayed) : removed opcodes i = false := by
  simp [removed, h]

theorem length_le_of_nodup {n : Nat} {l : List Nat} (hnodup : l.Nodup)
    (hlt : ∀ i ∈ l, i < n) : l.length ≤ n := by
  have hsub : l ⊆ List.range n := fun i hi => mem_range.mpr (hlt i hi)
  simpa using (subperm_of_subset hnodup hsub).length_le

end Relocation

/-- NOP removal relocates all numbers exactly when no opline is taken out in
front of the link of a FAST_CALL or FAST_RET. -/
theorem nopRemoval_relocates_iff (memory : Int → Nat) (a : OpArray)
    (fuel : Nat) (hrange : TargetsInRange a) (hfuel : a.opcodes.length < fuel) :
    ∃ a', nopRemoval memory fuel a = some a' ∧ (Relocated a a' ↔ FastLinksStay a) := by
  obtain ⟨s, hscan, hs⟩ := nopScan_scans (n := a.opcodes.length)
    (ScannedTo.start a.opcodes) (zero_add _) hrange.goto
  rw [nopRemoval, hscan]
  dsimp only
  by_cases hzero : s.shift = 0
  · rw [if_neg (by simp [hzero]), hs.opcodes_eq hzero]
    exact ⟨a, rfl, relocated_self_iff hrange (by rw [← hs.shift, hzero])⟩
  · rw [if_pos ⟨rfl, hzero⟩]
    have hshift := hs.shifts memory
    generalize shiftAt memory s.shiftlist = shift at hshift
    have hno : a.opcodes.length < noOpline :=
      lt_trans hrange.length (by decide)
    have hnum : ∀ n, n < a.opcodes.length → Designates a n (relocateNum shift n) := fun n hn =>
      designates_relocateNum hshift hno hn
    have hext : ∀ n, n < a.opcodes.length → Designates a n (relocateExt shift n) := fun n hn =>
      designates_relocateExt hshift hno hn
    have hstart : ∀ n : Int, 0 ≤ n → n < a.opcodes.length → 0 ≤ relocateStart shift n ∧
          Designates a n.toNat (relocateStart shift n).toNat :=
      fun n hpos hlt => designates_relocateStart hshift hrange.length hpos hlt
    have hops : ∀ i' i, (survivors a)[i']? = some i → opAt ((s.opcodes.take s.newCount).map
          (relocateOp (relocateNum shift) (relocateExt shift))) i' =
        relocateOp (relocateNum shift) (relocateExt shift)
          (opAt a.opcodes i) := fun i' i hi => hs.opAt_relocated hi
    have hlen : ((s.opcodes.take s.newCount).map
        (relocateOp (relocateNum shift) (relocateExt shift))).length =
        (survivors a).length := by
      rw [hs.moved, length_map, length_map]
      rfl
    obtain ⟨l, hchain, hnodup, hdelayed⟩ := hrange.early
    cases l with
    | nil =>
      have hnone : a.earlyBinding = noOpline := hchain
      rw [if_neg (by simp [hnone])]
      refine ⟨_, rfl, relocated_iff _ _ _ hrange hnum hext hstart hlen ?_ ?_
        rfl rfl ⟨[], [], hnone, hnone, .nil⟩⟩
      · intro i' i hi
        rw [hops i' i hi]
        exact relocateOp_same _ _ _
      · intro i' i hi
        rw [hops i' i hi]
    | cons m l =>
      have hfirst : a.earlyBinding = m := hchain.1
      have hm : m < a.opcodes.length := hchain.2.1
      rw [if_pos (by rw [hfirst]; omega), hfirst, relocateNum_eq hshift hno hm]
      have hkept : ∀ i ∈ m :: l, i ∈ survivors a := by
        intro i hi
        exact (mem_keptBelow _).mpr ⟨hchain.lt i hi, not_removed_delayed (hdelayed i hi)⟩
      have hturns : l.length < fuel := by
        have hle := length_le_of_nodup hnodup hchain.lt
        rw [length_cons] at hle
        omega
      obtain ⟨out, hrun, hout⟩ := relocateChain_relocates hshift hno
        hturns hlen (hfirst ▸ hchain) hnodup hkept (by
          intro i hi
          rw [hops _ i (survivors_newNum (hkept i hi)), relocateOp_delayed (hdelayed i hi)]
          exact ⟨hdelayed i hi, rfl⟩)
      rw [hrun]
      refine ⟨_, rfl, relocated_iff _ _ _ hrange hnum hext hstart
        (hout.length.trans hlen) ?_ ?_ rfl rfl
        ⟨m :: l, _, hchain, hout.chain, ?_⟩⟩
      · intro i' i hi
        rw [hout.same, hops i' i hi]
        exact relocateOp_same _ _ _
      · intro i' i hi
        rw [hout.addresses, hops i' i hi]
      · rw [forall₂_map_right_iff, forall₂_same]
        intro i hi
        exact designates_newNum (hchain.lt i hi)

/-- An opline with jump targets in its operands. -/
def jumpOp (opcode : Opcode) (op1 op2 ext : Nat) : ZendOp :=
  ⟨opcode, ⟨.unused, op1, false⟩, ⟨.unused, op2, false⟩, .none, ext⟩

/-- `$i = $i + 1; try { try { g(); } finally { h(); } } finally { k(); }` with
the assignment already rewritten: the inner FAST_RET goes to the outer
`finally` at 10 when an exception passes. -/
def nestedFinally : OpArray where
  opcodes :=
    [jumpOp .recv 0 0 0, jumpOp .assignAdd 0 0 0, jumpOp .nop 0 0 0,
      jumpOp .doFcall 0 0 0, jumpOp .fastCall 6 0 0, jumpOp .jmp 8 0 0,
      jumpOp .doFcall 0 0 0, jumpOp .fastRet 0 10 2, jumpOp .fastCall 10 0 0,
      jumpOp .jmp 12 0 0, jumpOp .doFcall 0 0 0, jumpOp .fastRet 0 0 0, jumpOp .returnOp 0 0 0]
  tryCatchArray := [⟨3, 0, 10, 11⟩, ⟨3, 0, 6, 7⟩]
  hasFinallyBlock := true

theorem nestedFinally_inRange : TargetsInRange nestedFinally := by
  refine ⟨by decide, by decide, by decide, by decide, by decide, [], rfl, nodup_nil, ?_⟩
  simp

theorem nopRemoval_relocates_iff_nested : TargetsInRange nestedFinally ∧
      ∃ a', nopRemoval (fun _ => 0) 14 nestedFinally = some a' ∧
        (Relocated nestedFinally a' ↔ FastLinksStay nestedFinally) :=
  ⟨nestedFinally_inRange, nopRemoval_relocates_iff _ _ _ nestedFinally_inRange (by decide)⟩

/-- The inner FAST_RET is at 6 afterwards and still goes to 10, which is now
the end of the outer `finally`. -/
theorem fastRet_link_not_relocated : TargetsInRange nestedFinally ∧
      ∃ a', nopRemoval (fun _ => 0) 14 nestedFinally = some a' ∧ ¬ Relocated nestedFinally a' := by
  refine ⟨nestedFinally_inRange, _, rfl, ?_⟩
  intro h
  have hfast : List.Forall₂ (Designates nestedFinally) [10] [10] :=
    h.opcodes.addresses 6 7 (by decide)
  rw [forall₂_cons] at hfast
  exact absurd hfast.1 (by unfold Designates; decide)

end PhpEngine

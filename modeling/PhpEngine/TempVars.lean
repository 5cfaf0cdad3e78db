/-
`optimize_temporary_variables` (ext/opcache/Optimizer/optimize_temp_vars_5.c), which numbers
the temporary variables of an op_array anew.
-/
import PhpEngine.OpArray
import Mathlib.Data.Finset.Card
import Mathlib.Data.Finset.Range
import Mathlib.Data.Finset.Image

namespace PhpEngine

open List

namespace TempVars

/-- Whether the operand is a temporary; its number is `VAR_NUM` of the operand. -/
def isTemp (o : Operand) : Bool :=
  o.type = .var || o.type = .tmpVar

def setNum (o : Operand) (n : Nat) : Operand :=
  { o with num := n }

/-- The locals of the second loop.  `map` has `map_T` where `valid_T` is set. -/
structure Locals where
  taken : List Bool
  map : List (Option Nat)
  max : Int

/-- `GET_AVAILABLE_T`: `i`, which is `T` if all are taken. -/
def Locals.available (st : Locals) : Nat :=
  st.taken.findIdx (!·)

def Locals.take (st : Locals) (i : Nat) : Locals :=
  { st with taken := st.taken.set i true, max := if st.max < i then i else st.max }

def Locals.free (st : Locals) (i : Nat) : Locals :=
  { st with taken := st.taken.set i false }

def Locals.setMap (st : Locals) (currT i : Nat) : Locals :=
  { st with map := st.map.set currT (some i) }

/-- `map_T[currT]`, where `valid_T[currT]` -/
def Locals.number (st : Locals) (currT : Nat) : Option Nat :=
  (st.map[currT]?).join

/-- An operand that is read: its number, which is chosen now if it has none. -/
def Locals.use (st : Locals) (currT : Nat) : Locals × Nat :=
  match st.number currT with
  | some i => (st, i)
  | none => ((st.take st.available).setMap currT st.available, st.available)

/-- The temporary that an operand is, if it is one, and the operand with its new number. -/
def Locals.useOperand (st : Locals) (o : Operand) : Locals × Operand :=
  if isTemp o then ((st.use o.num).1, setNum o (st.use o.num).2) else (st, o)

/-- `start_of_T`: the first opline with the result `currT`. -/
def startOfT (opcodes : List ZendOp) (currT : Nat) : Option Nat :=
  opcodes.findIdx? fun op => isTemp op.result && op.result.num == currT

/-- Whether the extended value is a temporary. -/
def extIsTemp (op : ZendOp) : Bool :=
  op.opcode = .declareInheritedClass || op.opcode = .declareInheritedClassDelayed

/-- Whether an OP_DATA of an ASSIGN_DIM stands at `k`. -/
def isDimData (opcodes : List ZendOp) (k : Nat) : Bool :=
  (opAt opcodes k).opcode = .opData && 0 < k && (opAt opcodes (k - 1)).opcode = .assignDim

/-- Whether an ASSIGN_DIM stands at `k` whose OP_DATA has a temporary as its second operand. -/
def isDimPair (opcodes : List ZendOp) (k : Nat) : Bool :=
  (opAt opcodes k).opcode = .assignDim && (opAt opcodes (k + 1)).opcode = .opData &&
    isTemp (opAt opcodes (k + 1)).op2

/-- The result: a temporary that nothing reads gets a number now, which it keeps taken unless
the result is marked as unused. -/
def Locals.result (st : Locals) (start : Option Nat) (k : Nat) (o : Operand) : Locals × Operand :=
  if isTemp o then
    match st.number o.num with
    | some i => (if start = some k then st.free i else st, setNum o i)
    | none =>
      (if o.extUnused then (st.take st.available).free st.available
      else (st.take st.available).setMap o.num st.available, setNum o st.available)
  else (st, o)

def Locals.useOp1 (st : Locals) (op : ZendOp) : Locals × ZendOp :=
  let (st, op1) := st.useOperand op.op1
  (st, { op with op1 := op1 })

/-- The other operands that are read. -/
def Locals.useRest (st : Locals) (op : ZendOp) : Locals × ZendOp :=
  let (st, op2) := st.useOperand op.op2
  let op := { op with op2 := op2 }
  if extIsTemp op then
    ((st.use op.extendedValue).1, { op with extendedValue := (st.use op.extendedValue).2 })
  else (st, op)

/-- The turn of the second loop at `k`; `start` is `start_of_T`. -/
def turn (start : Nat → Option Nat) (k : Nat) (opcodes : List ZendOp) (st : Locals) :
    List ZendOp × Locals :=
  let (st, op) := st.useOp1 (opAt opcodes k)
  if isDimData opcodes k then (opcodes.set k op, st)
  else
    let (st, op) := st.useRest op
    if isDimPair opcodes k then
      let data := opAt opcodes (k + 1)
      let i := st.available
      let st := ((st.take i).setMap data.op2.num i).free i
      let (st, result) := st.result (start op.result.num) k op.result
      ((opcodes.set (k + 1) { data with op2 := setNum data.op2 i }).set k
        { op with result := result }, st.free i)
    else
      let (st, result) := st.result (start op.result.num) k op.result
      (opcodes.set k { op with result := result }, st)

/-- The second loop, with `k` oplines ahead. -/
def loop (start : Nat → Option Nat) : Nat → List ZendOp → Locals → List ZendOp × Locals
  | 0, opcodes, st => (opcodes, st)
  | k + 1, opcodes, st =>
    loop start k (turn start k opcodes st).1 (turn start k opcodes st).2

/-- `optimize_temporary_variables` on the oplines and `op_array->T`. -/
def optimizeTemporaryVariables (opcodes : List ZendOp) (T : Nat) : List ZendOp × Int :=
  let r := loop (startOfT opcodes) opcodes.length opcodes
    ⟨List.replicate T false, List.replicate T none, -1⟩
  (r.1, r.2.max + 1)

/-! The slots that are taken. -/

section Slots

variable {st : Locals} {t u i k T : Nat} {start : Nat → Option Nat}

@[simp] theorem number_free (i t : Nat) : (st.free i).number t = st.number t :=
  rfl

/-- A temporary that is defined in front of `k`. -/
def Open (start : Nat → Option Nat) (k t : Nat) : Prop :=
  ∃ a, start t = some a ∧ a < k

theorem Open.mono (h : Open start k t) : Open start (k + 1) t :=
  h.imp fun _ ha => ⟨ha.1, Nat.lt_succ_of_lt ha.2⟩

/-- The second loop with the oplines from `k` on behind it: an open temporary has its slot to
itself. -/
structure Inv (T : Nat) (start : Nat → Option Nat) (k : Nat) (st : Locals) : Prop where
  taken_length : st.taken.length = T
  map_length : st.map.length = T
  owned : ∀ i : Nat, st.taken[i]? = some true → ∃ t, st.number t = some i
  open_taken : ∀ t i, st.number t = some i → Open start k t → st.taken[i]? = some true
  open_ne : ∀ t u i, st.number t = some i → st.number u = some i →
    Open start k t → Open start k u → t = u
  le_max : ∀ t i, st.number t = some i → (i : Int) ≤ st.max
  max_lt : st.max < T

theorem take_max_le (st : Locals) (i : Nat) : st.max ≤ (st.take i).max ∧ i ≤ (st.take i).max := by
  rw [Locals.take]
  dsimp only
  split <;> omega

section

variable (h : Inv T start k st)
include h

theorem Inv.number_lt (ht : st.number t = some i) : t < T := by
  by_contra hle
  rw [Locals.number, getElem?_eq_none (by rw [h.map_length]; omega)] at ht
  cases ht

theorem Inv.take_max_lt (hi : i < T) : (st.take i).max < T := by
  have := h.max_lt
  rw [Locals.take]
  dsimp only
  split <;> omega

theorem Inv.number_assign (ht : t < T) (i u : Nat) :
    ((st.take i).setMap t i).number u = if u = t then some i else st.number u := by
  rw [Locals.number, Locals.setMap, Locals.take, getElem?_set, Locals.number]
  by_cases hu : u = t
  · rw [if_pos hu, if_pos hu.symm, if_pos (h.map_length ▸ ht)]
    rfl
  · rw [if_neg hu, if_neg (Ne.symm hu)]

/-- While a temporary has no number, a slot is free: each slot that is taken belongs to one
that has. -/
theorem Inv.available (ht : t < T) (hnone : st.number t = none) :
    st.available < T ∧ st.taken[st.available]? = some false := by
  have hlt : st.available < T := by
    by_contra hle
    have hall : ∀ i < T, st.taken[i]? = some true := by
      intro i hi
      have hnot := not_of_lt_findIdx (lt_of_lt_of_le hi (Nat.le_of_not_lt hle))
      rw [getElem?_eq_getElem (by rw [h.taken_length]; exact hi)]
      simpa using hnot
    -- The owners of all slots would be all temporaries.
    have hsub : Finset.range T ⊆ (((Finset.range T).filter fun u => st.number u ≠ none).image
          fun u => (st.number u).getD 0) := by
      intro i hi
      obtain ⟨u, hu⟩ := h.owned i (hall i (Finset.mem_range.mp hi))
      refine Finset.mem_image.mpr ⟨u, Finset.mem_filter.mpr ⟨?_, by simp [hu]⟩, by simp [hu]⟩
      exact Finset.mem_range.mpr (h.number_lt hu)
    have hcard := (Finset.card_le_card hsub).trans Finset.card_image_le
    have hless : ((Finset.range T).filter fun u => st.number u ≠ none).card <
        (Finset.range T).card := by
      refine Finset.card_lt_card (Finset.filter_ssubset.mpr ⟨t, Finset.mem_range.mpr ht, ?_⟩)
      simp [hnone]
    exact absurd hcard (Nat.not_le_of_lt hless)
  refine ⟨hlt, ?_⟩
  have hget : st.taken.findIdx (!·) < st.taken.length := by rw [h.taken_length]; exact hlt
  have hfound := findIdx_getElem (w := hget)
  rw [Locals.available, getElem?_eq_getElem hget]
  simpa using hfound

theorem Inv.fresh (ht : t < T) (hnone : st.number t = none)
    (hu : st.number u = some st.available) : ¬Open start k u := by
  intro hopen
  have htaken := h.open_taken u _ hu hopen
  rw [(h.available ht hnone).2] at htaken
  cases htaken

theorem Inv.assign (ht : t < T) (hnone : st.number t = none) :
    Inv T start k ((st.take st.available).setMap t st.available) := by
  have hlt := (h.available ht hnone).1
  have hnumber := h.number_assign ht st.available
  have htaken : ∀ i : Nat, ((st.take st.available).setMap t st.available).taken[i]? =
      if i = st.available then some true else st.taken[i]? := by
    intro i
    rw [Locals.setMap, Locals.take, getElem?_set]
    by_cases hi : i = st.available
    · rw [if_pos hi, if_pos hi.symm, if_pos (h.taken_length ▸ hlt)]
    · rw [if_neg hi, if_neg (Ne.symm hi)]
  -- An open temporary that had its number before has a slot that was taken.
  have hopen : ∀ {u}, st.number u = some st.available → ¬Open start k u := h.fresh ht hnone
  have hold : ∀ {u i}, ((st.take st.available).setMap t st.available).number u = some i →
      u = t ∧ i = st.available ∨ st.number u = some i := by
    intro u i hu
    rw [hnumber] at hu
    split at hu
    · exact .inl ⟨‹_›, (Option.some.inj hu).symm⟩
    · exact .inr hu
  refine ⟨?_, ?_, ?_, ?_, ?_, ?_, h.take_max_lt hlt⟩
  · rw [Locals.setMap, Locals.take, length_set, h.taken_length]
  · rw [Locals.setMap, length_set, Locals.take, h.map_length]
  · intro i hi
    rw [htaken] at hi
    by_cases hnew : i = st.available
    · exact ⟨t, by rw [hnumber, if_pos rfl, hnew]⟩
    · rw [if_neg hnew] at hi
      obtain ⟨u, hu⟩ := h.owned i hi
      have hut : u ≠ t := by
        rintro rfl
        rw [hnone] at hu
        cases hu
      exact ⟨u, by rw [hnumber, if_neg hut, hu]⟩
  · intro u i hu hou
    rw [htaken]
    by_cases hnew : i = st.available
    · rw [if_pos hnew]
    · rw [if_neg hnew]
      rcases hold hu with ⟨-, heq⟩ | hu
      · exact absurd heq hnew
      · exact h.open_taken u i hu hou
  · intro u w i hu hw hou how
    rcases hold hu with ⟨rfl, rfl⟩ | hu'
    · rcases hold hw with ⟨rfl, -⟩ | hw'
      · rfl
      · exact absurd how (hopen hw')
    · rcases hold hw with ⟨rfl, rfl⟩ | hw'
      · exact absurd hou (hopen hu')
      · exact h.open_ne u w i hu' hw' hou how
  · intro u i hu
    rcases hold hu with ⟨-, rfl⟩ | hu
    · exact (take_max_le st _).2
    · exact (h.le_max u i hu).trans (take_max_le st _).1

theorem Inv.free (hfree : ∀ t, st.number t = some i → ¬Open start k t) :
    Inv T start k (st.free i) := by
  have htaken : ∀ j : Nat, j ≠ i → (st.free i).taken[j]? = st.taken[j]? := by
    intro j hj
    rw [Locals.free, getElem?_set, if_neg (Ne.symm hj)]
  refine ⟨?_, h.map_length, ?_, ?_, h.open_ne, h.le_max, h.max_lt⟩
  · rw [Locals.free, length_set, h.taken_length]
  · intro j hj
    by_cases hji : j = i
    · rw [hji, Locals.free, getElem?_set, if_pos rfl] at hj
      split at hj
      · cases hj
      · cases hj
    · exact h.owned j (htaken j hji ▸ hj)
  · intro t j ht hopen
    have hji : j ≠ i := by
      rintro rfl
      exact hfree t ht hopen
    rw [htaken j hji]
    exact h.open_taken t j ht hopen

theorem Inv.pass (ht : t < T) (hnone : st.number t = none) :
    Inv T start k ((st.take st.available).free st.available) := by
  obtain ⟨hlt, hfree⟩ := h.available ht hnone
  have htaken : ((st.take st.available).free st.available).taken = st.taken := by
    rw [Locals.free, Locals.take, set_set]
    obtain ⟨hlen, hget⟩ := List.getElem?_eq_some_iff.mp hfree
    rw [← hget, set_getElem_self]
  refine ⟨?_, h.map_length, ?_, ?_, h.open_ne, ?_, h.take_max_lt hlt⟩
  · rw [htaken, h.taken_length]
  · rw [htaken]
    exact h.owned
  · rw [htaken]
    exact h.open_taken
  · intro u i hu
    exact (h.le_max u i hu).trans (take_max_le st _).1

end

theorem Inv.mono (h : Inv T start (k + 1) st) : Inv T start k st where
  taken_length := h.taken_length
  map_length := h.map_length
  owned := h.owned
  open_taken t i ht hopen := h.open_taken t i ht hopen.mono
  open_ne t u i ht hu hta hua := h.open_ne t u i ht hu hta.mono hua.mono
  le_max := h.le_max
  max_lt := h.max_lt

end Slots

/-! What a step does. -/

section Steps

/-- Numbers stay; those that are new are of temporaries that are `new`. -/
structure Grows (new : Nat → Prop) (st st' : Locals) : Prop where
  kept : ∀ t i, st.number t = some i → st'.number t = some i
  origin : ∀ t i, st'.number t = some i → st.number t = some i ∨ st.number t = none ∧ new t
  max_le : st.max ≤ st'.max

variable {st st' st'' : Locals} {T k t : Nat} {start : Nat → Option Nat} {new new' : Nat → Prop}

theorem Grows.refl (new : Nat → Prop) (st : Locals) : Grows new st st :=
  ⟨fun _ _ h => h, fun _ _ h => .inl h, Int.le_refl _⟩

theorem Grows.trans (h : Grows new st st') (h' : Grows new' st' st'') :
    Grows (fun t => new t ∨ new' t) st st'' := by
  refine ⟨fun t i ht => h'.kept t i (h.kept t i ht), fun t i ht => ?_, h.max_le.trans h'.max_le⟩
  rcases h'.origin t i ht with ht | ⟨ht, hnew⟩
  · exact (h.origin t i ht).imp_right fun ht => ⟨ht.1, .inl ht.2⟩
  · refine .inr ⟨?_, .inr hnew⟩
    cases hold : st.number t with
    | none => rfl
    | some j =>
      rw [h.kept t j hold] at ht
      cases ht

theorem Grows.imp (h : Grows new st st') (himp : ∀ t, new t → new' t) : Grows new' st st' :=
  ⟨h.kept, fun t i ht => (h.origin t i ht).imp_right (And.imp_right (himp t)), h.max_le⟩

theorem Grows.number_eq (h : Grows new st st') {i : Nat} (ht : ∃ i, st.number t = some i) :
    st'.number t = some i ↔ st.number t = some i := by
  obtain ⟨n, hn⟩ := ht
  rw [h.kept t n hn, hn]

section

variable (h : Inv T start k st)
include h

theorem grows_assign (ht : t < T) (hnone : st.number t = none) (i : Nat) :
    Grows (· = t) st ((st.take i).setMap t i) := by
  refine ⟨fun u j hu => ?_, fun u j hu => ?_, (take_max_le st i).1⟩
  · rw [h.number_assign ht, if_neg, hu]
    rintro rfl
    rw [hnone] at hu
    cases hu
  · rw [h.number_assign ht] at hu
    by_cases hut : u = t
    · exact .inr ⟨hut ▸ hnone, hut⟩
    · rw [if_neg hut] at hu
      exact .inl hu

theorem use_spec (ht : t < T) :
    Inv T start k (st.use t).1 ∧ Grows (· = t) st (st.use t).1 ∧
      (st.use t).1.number t = some (st.use t).2 := by
  rw [Locals.use]
  cases hnumber : st.number t with
  | some i => exact ⟨h, .refl _ st, hnumber⟩
  | none =>
    refine ⟨h.assign ht hnumber, grows_assign h ht hnumber _, ?_⟩
    rw [h.number_assign ht, if_pos rfl]

theorem useOperand_spec {o : Operand} (ho : isTemp o = true → o.num < T) :
    Inv T start k (st.useOperand o).1 ∧
      Grows (fun t => isTemp o = true ∧ t = o.num) st (st.useOperand o).1 ∧ (isTemp o = true →
        (st.useOperand o).1.number o.num = some (st.useOperand o).2.num) ∧
      ∃ n, (st.useOperand o).2 = setNum o n := by
  rw [Locals.useOperand]
  by_cases htemp : isTemp o = true
  · rw [if_pos htemp]
    obtain ⟨hinv, hgrows, hnumber⟩ := use_spec h (ho htemp)
    exact ⟨hinv, hgrows.imp fun t ht => ⟨htemp, ht⟩, fun _ => hnumber, _, rfl⟩
  · rw [if_neg htemp]
    exact ⟨h, .refl _ st, fun h => absurd h htemp, o.num, rfl⟩

theorem useOp1_spec {op : ZendOp} (hop1 : isTemp op.op1 = true → op.op1.num < T) :
    Inv T start k (st.useOp1 op).1 ∧
      Grows (fun t => isTemp op.op1 = true ∧ t = op.op1.num) st (st.useOp1 op).1 ∧
      (isTemp op.op1 = true → (st.useOp1 op).1.number op.op1.num = some (st.useOp1 op).2.op1.num) ∧
      ∃ n, (st.useOp1 op).2 = { op with op1 := setNum op.op1 n } := by
  obtain ⟨hinv, hgrows, hnumber, n, hn⟩ := useOperand_spec h hop1
  refine ⟨hinv, hgrows, hnumber, n, ?_⟩
  rw [Locals.useOp1, ← hn]

theorem useRest_spec {op : ZendOp} (hop2 : isTemp op.op2 = true → op.op2.num < T)
    (hext : extIsTemp op = true → op.extendedValue < T) : Inv T start k (st.useRest op).1 ∧
      Grows (fun t => isTemp op.op2 = true ∧ t = op.op2.num ∨
        extIsTemp op = true ∧ t = op.extendedValue) st (st.useRest op).1 ∧ (isTemp op.op2 = true →
        (st.useRest op).1.number op.op2.num = some (st.useRest op).2.op2.num) ∧
      (extIsTemp op = true →
        (st.useRest op).1.number op.extendedValue = some (st.useRest op).2.extendedValue) ∧
      ∃ n m, (st.useRest op).2 = { op with op2 := setNum op.op2 n, extendedValue := m } ∧
        (extIsTemp op = false → m = op.extendedValue) := by
  obtain ⟨hinv, hgrows, hnumber, n, hn⟩ := useOperand_spec h hop2
  have hsame : ∀ o, extIsTemp { op with op2 := o } = extIsTemp op := fun _ => rfl
  rw [Locals.useRest]
  dsimp only
  rw [hsame]
  cases htemp : extIsTemp op with
  | true =>
    obtain ⟨hinv', hgrows', hnumber'⟩ := use_spec hinv (hext htemp)
    refine ⟨hinv', (hgrows.trans hgrows').imp ?_, fun h2 => hgrows'.kept _ _ (hnumber h2),
      fun _ => hnumber', n, ((st.useOperand op.op2).1.use op.extendedValue).2, ?_, nofun⟩
    · rintro t (ht | ht)
      · exact .inl ht
      · exact .inr ⟨rfl, ht⟩
    · rw [← hn]
      rfl
  | false =>
    refine ⟨hinv, hgrows.imp fun t ht => .inl ht, hnumber, nofun, n, op.extendedValue, ?_,
      fun _ => rfl⟩
    rw [← hn]
    rfl

/-- A temporary without a definition gets a slot that is free again at once. -/
theorem scratch_spec (ht : t < T) (hnone : st.number t = none) (hstart : start t = none) :
    Inv T start k (((st.take st.available).setMap t st.available).free st.available) ∧
      Grows (· = t) st (((st.take st.available).setMap t st.available).free st.available) ∧
      (((st.take st.available).setMap t st.available).free st.available).number t =
        some st.available := by
  have hgrows := grows_assign h ht hnone st.available
  refine ⟨(h.assign ht hnone).free fun u hu hopen => ?_,
    ⟨hgrows.kept, hgrows.origin, hgrows.max_le⟩, ?_⟩
  · rcases hgrows.origin u _ hu with hu | ⟨-, rfl⟩
    · exact h.fresh ht hnone hu hopen
    · obtain ⟨a, ha, -⟩ := hopen
      rw [hstart] at ha
      cases ha
  · rw [number_free, h.number_assign ht, if_pos rfl]

end

/-- The result of the opline at `k`; a temporary whose first definition it is is closed. -/
theorem result_spec (h : Inv T start (k + 1) st) {o : Operand} (ho : isTemp o = true → o.num < T) :
    Inv T start k (st.result (start o.num) k o).1 ∧
      Grows (fun t => isTemp o = true ∧ t = o.num ∧ o.extUnused = false) st
        (st.result (start o.num) k o).1 ∧
      (isTemp o = true → st.number o.num ≠ none ∨ o.extUnused = false →
        (st.result (start o.num) k o).1.number o.num = some (st.result (start o.num) k o).2.num) ∧
      (isTemp o = true → ((st.result (start o.num) k o).2.num : Int) ≤
        (st.result (start o.num) k o).1.max) ∧
      ∃ n, (st.result (start o.num) k o).2 = setNum o n := by
  rw [Locals.result]
  by_cases htemp : isTemp o = true
  · rw [if_pos htemp]
    cases hnumber : st.number o.num with
    | some i =>
      dsimp only
      by_cases hstart : start o.num = some k
      · rw [if_pos hstart]
        refine ⟨h.mono.free fun t ht hopen => ?_, ⟨fun _ _ ht => ht, fun _ _ ht => .inl ht,
          Int.le_refl _⟩, fun _ _ => hnumber, fun _ => h.le_max _ i hnumber, _, rfl⟩
        obtain rfl := h.open_ne t o.num i ht hnumber hopen.mono ⟨k, hstart, Nat.lt_succ_self k⟩
        obtain ⟨a, ha, hlt⟩ := hopen
        rw [hstart] at ha
        exact absurd (Option.some.inj ha) (Nat.ne_of_gt hlt)
      · rw [if_neg hstart]
        exact ⟨h.mono, .refl _ st, fun _ _ => hnumber, fun _ => h.le_max _ i hnumber, _, rfl⟩
    | none =>
      cases hunused : o.extUnused with
      | true =>
        exact ⟨(h.pass (ho htemp) hnumber).mono, ⟨fun _ _ ht => ht, fun _ _ ht => .inl ht,
          (take_max_le st _).1⟩, fun _ hor => absurd hor (by simp), fun _ => (take_max_le st _).2,
          _, rfl⟩
      | false =>
        have hassign := h.assign (ho htemp) hnumber
        have hnew : ((st.take st.available).setMap o.num st.available).number o.num =
            some st.available := by
          rw [h.number_assign (ho htemp), if_pos rfl]
        exact ⟨hassign.mono, (grows_assign h (ho htemp) hnumber _).imp fun t ht =>
          ⟨htemp, ht, rfl⟩, fun _ _ => hnew, fun _ => hassign.le_max _ _ hnew, _, rfl⟩
  · rw [if_neg htemp]
    exact ⟨h.mono, .refl _ st, fun h => absurd h htemp, fun h => absurd h htemp, o.num, rfl⟩

end Steps

/-! Definitions and uses. -/

section Occurrences

variable (ops : List ZendOp)

/-- `t` is the result at `j`. -/
def ResultAt (t j : Nat) : Prop :=
  isTemp (opAt ops j).result = true ∧ (opAt ops j).result.num = t

/-- The temporary of the pair at `k`: ASSIGN_DIM writes it before OP_DATA is read. -/
def dataTemp (k : Nat) : Nat :=
  (opAt ops (k + 1)).op2.num

/-- An operand at `j` is the temporary `t`. -/
def UsedAt (t j : Nat) : Prop :=
  isTemp (opAt ops j).op1 = true ∧ (opAt ops j).op1.num = t ∨
    isTemp (opAt ops j).op2 = true ∧ (opAt ops j).op2.num = t ∨
    extIsTemp (opAt ops j) = true ∧ (opAt ops j).extendedValue = t

/-- The opline at `j` writes the temporary `t`. -/
def DefinedAt (t j : Nat) : Prop :=
  ResultAt ops t j ∨ isDimPair ops j = true ∧ dataTemp ops j = t

/-- A use that the second loop comes to where it stands. -/
def Reads (t j : Nat) : Prop :=
  isTemp (opAt ops j).op1 = true ∧ (opAt ops j).op1.num = t ∨
    isDimData ops j = false ∧ (isTemp (opAt ops j).op2 = true ∧ (opAt ops j).op2.num = t ∨
      extIsTemp (opAt ops j) = true ∧ (opAt ops j).extendedValue = t)

instance (t j : Nat) : Decidable (ResultAt ops t j) :=
  inferInstanceAs (Decidable (_ ∧ _))

instance (t j : Nat) : Decidable (UsedAt ops t j) :=
  inferInstanceAs (Decidable (_ ∧ _ ∨ _ ∧ _ ∨ _ ∧ _))

instance (t j : Nat) : Decidable (DefinedAt ops t j) :=
  inferInstanceAs (Decidable (_ ∨ _ ∧ _))

/-- The first definition of `t` is at `a` and its last use at `b`. -/
def Interval (t a b : Nat) : Prop :=
  (DefinedAt ops t a ∧ ∀ j, DefinedAt ops t j → a ≤ j) ∧
    UsedAt ops t b ∧ ∀ j, UsedAt ops t j → j ≤ b

/-- The temporaries are below `T`, and a definition stands in front of every use. -/
structure Preceded (T : Nat) : Prop where
  bounded : ∀ t j, UsedAt ops t j ∨ DefinedAt ops t j → t < T
  preceded : ∀ t j, UsedAt ops t j → ∃ a, a < j ∧ DefinedAt ops t a

/-- What the compiler makes of an ASSIGN_DIM with its OP_DATA: the temporary in the second
operand of the OP_DATA is the pair's own, the OP_DATA has no result, and the result of the
ASSIGN_DIM is marked as unused, or occurs behind the definition, or is not defined before. -/
structure OwnData : Prop where
  used : ∀ k j, isDimPair ops k = true → UsedAt ops (dataTemp ops k) j → j = k + 1
  defined : ∀ k j, isDimPair ops k = true → DefinedAt ops (dataTemp ops k) j → j = k
  op1 : ∀ k, isDimPair ops k = true →
    ¬(isTemp (opAt ops (k + 1)).op1 = true ∧ (opAt ops (k + 1)).op1.num = dataTemp ops k)
  result_ne : ∀ k, isDimPair ops k = true → ¬ResultAt ops (dataTemp ops k) k
  noResult : ∀ k, isDimData ops k = true → isTemp (opAt ops k).result = false
  result : ∀ k t, isDimPair ops k = true → ResultAt ops t k → (opAt ops k).result.extUnused = true ∨
      (∃ j, k ≤ j ∧ UsedAt ops t j) ∨
      (∃ j, k < j ∧ ResultAt ops t j ∧ (opAt ops j).result.extUnused = false) ∨
      ∀ j, DefinedAt ops t j → k ≤ j

variable {ops} {t j k : Nat}

theorem resultAt_iff : ResultAt ops t j ↔
    ∃ _ : j < ops.length, (isTemp ops[j].result && ops[j].result.num == t) = true := by
  rw [ResultAt]
  by_cases hj : j < ops.length
  · rw [opAt_of_getElem? (getElem?_eq_getElem hj)]
    simp [hj]
  · rw [opAt_outside (Nat.le_of_not_lt hj)]
    simp [hj, isTemp, ZendOp.outside, Operand.none]

theorem startOfT_some {a : Nat} (h : startOfT ops t = some a) :
    ResultAt ops t a ∧ ∀ j, ResultAt ops t j → a ≤ j := by
  obtain ⟨ha, hfound, hbefore⟩ := findIdx?_eq_some_iff_getElem.mp h
  refine ⟨resultAt_iff.mpr ⟨ha, hfound⟩, fun j hj => ?_⟩
  by_contra hlt
  obtain ⟨_, hresult⟩ := resultAt_iff.mp hj
  exact hbefore j (Nat.lt_of_not_le hlt) hresult

theorem startOfT_of_result (h : ResultAt ops t j) : ∃ a, startOfT ops t = some a ∧ a ≤ j := by
  cases hstart : startOfT ops t with
  | some a => exact ⟨a, rfl, (startOfT_some hstart).2 j h⟩
  | none =>
    obtain ⟨hj, h⟩ := resultAt_iff.mp h
    rw [findIdx?_eq_none_iff.mp hstart _ (getElem_mem hj)] at h
    cases h

theorem Reads.used (h : Reads ops t j) : UsedAt ops t j :=
  h.imp_right And.right

theorem isDimData_iff : isDimData ops k = true ↔
    (opAt ops k).opcode = .opData ∧ 0 < k ∧ (opAt ops (k - 1)).opcode = .assignDim := by
  rw [isDimData]
  simp only [Bool.and_eq_true, decide_eq_true_eq, and_assoc]

theorem isDimPair_iff : isDimPair ops k = true ↔
    isDimData ops (k + 1) = true ∧ isTemp (opAt ops (k + 1)).op2 = true := by
  rw [isDimData_iff, isDimPair, Nat.add_sub_cancel]
  simp only [Bool.and_eq_true, decide_eq_true_eq, Nat.succ_pos, true_and]
  exact and_congr_left fun _ => and_comm

theorem not_isDimData_of_pair (h : isDimPair ops k = true) : isDimData ops k = false := by
  rw [isDimPair, Bool.and_assoc, Bool.and_eq_true, decide_eq_true_eq] at h
  rw [isDimData, h.1]
  rfl

theorem not_extIsTemp_of_data (h : isDimData ops k = true) : extIsTemp (opAt ops k) = false := by
  rw [extIsTemp, (isDimData_iff.mp h).1]
  rfl

/-- A use other than that of the pair's own temporary in its OP_DATA. -/
theorem UsedAt.reads (h : UsedAt ops t j)
    (hdata : ∀ k, isDimPair ops k = true → t ≠ dataTemp ops k) : Reads ops t j := by
  refine h.imp_right fun h => ?_
  cases hj : isDimData ops j with
  | false => exact ⟨rfl, h⟩
  | true =>
    rcases h with h | h
    · obtain ⟨k, rfl⟩ := Nat.exists_eq_succ_of_ne_zero (isDimData_iff.mp hj).2.1.ne'
      exact absurd h.2.symm (hdata k (isDimPair_iff.mpr ⟨hj, h.1⟩))
    · rw [not_extIsTemp_of_data hj] at h
      cases h.1

theorem not_reads_dataTemp (hown : OwnData ops) (hpair : isDimPair ops k = true) :
    ¬Reads ops (dataTemp ops k) j := by
  intro h
  obtain rfl := hown.used k j hpair h.used
  rcases h with h | ⟨hno, -⟩
  · exact hown.op1 k hpair h
  · rw [(isDimPair_iff.mp hpair).1] at hno
    cases hno

theorem not_resultAt_dataTemp (hown : OwnData ops) (hpair : isDimPair ops k = true) :
    ¬ResultAt ops (dataTemp ops k) j := by
  intro h
  obtain rfl := hown.defined k j hpair (.inl h)
  exact hown.result_ne j hpair h

theorem OwnData.not_data (hown : OwnData ops) (h : ResultAt ops t j) :
    isDimData ops j = false := by
  by_contra hdata
  have hno := hown.noResult j (by simpa using hdata)
  rw [h.1] at hno
  cases hno

end Occurrences

/-! The second loop. -/

section Loop

/-- Only the numbers of the operands differ. -/
structure SameShape (op op' : ZendOp) : Prop where
  opcode : op'.opcode = op.opcode
  op1 : ∃ n, op'.op1 = setNum op.op1 n
  op2 : ∃ n, op'.op2 = setNum op.op2 n
  result : ∃ n, op'.result = setNum op.result n
  ext : extIsTemp op = false → op'.extendedValue = op.extendedValue

theorem setNum_self (o : Operand) : o = setNum o o.num :=
  rfl

theorem SameShape.refl (op : ZendOp) : SameShape op op :=
  ⟨rfl, ⟨_, setNum_self _⟩, ⟨_, setNum_self _⟩, ⟨_, setNum_self _⟩, fun _ => rfl⟩

@[simp] theorem isTemp_setNum (o : Operand) (n : Nat) : isTemp (setNum o n) = isTemp o :=
  rfl

/-- A temporary that is defined in front of `k` and read at `k` or behind. -/
def Live (ops : List ZendOp) (k t : Nat) : Prop :=
  (∃ b, k ≤ b ∧ Reads ops t b) ∧ Open (startOfT ops) k t

/-- The opline at `j` has become `op`, numbered anew, where the loop has come to `k`: the second
operand of an OP_DATA waits for its ASSIGN_DIM. -/
structure Numbered (ops : List ZendOp) (k : Nat) (st : Locals) (j : Nat) (op : ZendOp) : Prop where
  shape : SameShape (opAt ops j) op
  op1 : isTemp (opAt ops j).op1 = true → st.number (opAt ops j).op1.num = some op.op1.num
  op2 : isTemp (opAt ops j).op2 = true → (isDimData ops j = true → k < j) →
    st.number (opAt ops j).op2.num = some op.op2.num
  ext : extIsTemp (opAt ops j) = true → st.number (opAt ops j).extendedValue = some op.extendedValue
  result : isTemp (opAt ops j).result = true → isDimData ops j = false →
    (∃ b, j ≤ b ∧ Reads ops (opAt ops j).result.num b) ∨ (opAt ops j).result.extUnused = false →
    st.number (opAt ops j).result.num = some op.result.num
  le_max : isTemp (opAt ops j).result = true → isDimData ops j = false →
    (op.result.num : Int) ≤ st.max

/-- The loop has come to `k`. -/
structure Done (ops : List ZendOp) (T k : Nat) (cur : List ZendOp) (st : Locals) : Prop where
  inv : Inv T (startOfT ops) k st
  length : cur.length = ops.length
  ahead : ∀ j, j < k → opAt cur j = opAt ops j
  pending : isDimData ops k = true → (opAt cur k).op2 = (opAt ops k).op2
  numbered : ∀ j, k ≤ j → Numbered ops k st j (opAt cur j)
  origin : ∀ t i, st.number t = some i → ∃ j, k ≤ j ∧
    (Reads ops t j ∨ ResultAt ops t j ∨ isDimPair ops j = true ∧ dataTemp ops j = t)
  apart : ∀ b t u i, k ≤ b → Live ops b t → Live ops b u → st.number t = some i →
    st.number u = some i → t = u
  data : ∀ j, k ≤ j → isDimPair ops j = true → ∀ u, Live ops (j + 1) u →
    st.number u ≠ st.number (dataTemp ops j)

variable {ops cur cur' : List ZendOp} {T k t j : Nat} {st st' : Locals} {op : ZendOp}

theorem Numbered.read (h : Numbered ops k st j op) (hread : Reads ops t j) :
    ∃ i, st.number t = some i := by
  rcases hread with ⟨htemp, rfl⟩ | ⟨hdata, ⟨htemp, rfl⟩ | ⟨htemp, rfl⟩⟩
  · exact ⟨_, h.op1 htemp⟩
  · exact ⟨_, h.op2 htemp fun h => by rw [hdata] at h; cases h⟩
  · exact ⟨_, h.ext htemp⟩

/-- What is numbered stays so, but that the second operand may get its number. -/
theorem Numbered.grows {new : Nat → Prop} (h : Numbered ops (k + 1) st j op)
    (hgrows : Grows new st st') {n : Nat}
    (hop2 : isTemp (opAt ops j).op2 = true → st'.number (opAt ops j).op2.num = some n) :
    Numbered ops k st' j { op with op2 := setNum op.op2 n } where
  shape := by
    obtain ⟨m, hm⟩ := h.shape.op2
    exact ⟨h.shape.opcode, h.shape.op1, ⟨n, by rw [hm]; rfl⟩, h.shape.result, h.shape.ext⟩
  op1 htemp := hgrows.kept _ _ (h.op1 htemp)
  op2 htemp _ := hop2 htemp
  ext htemp := hgrows.kept _ _ (h.ext htemp)
  result htemp hdim hor := hgrows.kept _ _ (h.result htemp hdim hor)
  le_max htemp hdim := (h.le_max htemp hdim).trans hgrows.max_le

theorem Done.read (h : Done ops T k cur st) (hread : ∃ b, k ≤ b ∧ Reads ops t b) :
    ∃ i, st.number t = some i := by
  obtain ⟨j, hj, hread⟩ := hread
  exact (h.numbered j hj).read hread

theorem Done.dataTemp (h : Done ops T k cur st) (hj : k ≤ j) (hpair : isDimPair ops j = true) :
    st.number (dataTemp ops j) = some (opAt cur (j + 1)).op2.num :=
  (h.numbered (j + 1) (by omega)).op2 (isDimPair_iff.mp hpair).2 fun _ => by omega

theorem Done.shape (h : Done ops T k cur st) (j : Nat) : SameShape (opAt ops j) (opAt cur j) := by
  by_cases hj : j < k
  · rw [h.ahead j hj]
    exact .refl _
  · exact (h.numbered j (Nat.le_of_not_lt hj)).shape

/-- What a turn at `k` has to do for the loop to come to `k`. -/
theorem Done.extend (h : Done ops T (k + 1) cur st) {new : Nat → Prop} (hgrows : Grows new st st')
    (hnew : ∀ t, new t →
      Reads ops t k ∨ ResultAt ops t k ∨ isDimPair ops k = true ∧ TempVars.dataTemp ops k = t)
    (inv : Inv T (startOfT ops) k st') (length : cur'.length = cur.length)
    (other : ∀ j, j ≠ k → j ≠ k + 1 → opAt cur' j = opAt cur j)
    (next : ∃ n,
      opAt cur' (k + 1) = { opAt cur (k + 1) with op2 := setNum (opAt cur (k + 1)).op2 n } ∧
      (isTemp (opAt ops (k + 1)).op2 = true → st'.number (opAt ops (k + 1)).op2.num = some n))
    (pending : isDimData ops k = true → (opAt cur' k).op2 = (opAt ops k).op2)
    (here : Numbered ops k st' k (opAt cur' k))
    (data : isDimPair ops k = true → ∀ u, Live ops (k + 1) u →
      st'.number u ≠ st'.number (TempVars.dataTemp ops k)) :
    Done ops T k cur' st' := by
  refine ⟨inv, length.trans h.length, ?_, pending, ?_, ?_, ?_, ?_⟩
  · intro j hj
    rw [other j (by omega) (by omega), h.ahead j (by omega)]
  · intro j hj
    by_cases hjk : j = k
    · exact hjk ▸ here
    · have hold := h.numbered j (by omega)
      by_cases hjn : j = k + 1
      · obtain ⟨n, hn, hop2⟩ := next
        subst hjn
        rw [hn]
        exact hold.grows hgrows hop2
      · rw [other j hjk hjn]
        exact hold.grows hgrows fun htemp => hgrows.kept _ _ (hold.op2 htemp fun _ => by omega)
  · intro t i ht
    rcases hgrows.origin t i ht with ht | ⟨-, ht⟩
    · obtain ⟨j, hj, hocc⟩ := h.origin t i ht
      exact ⟨j, by omega, hocc⟩
    · exact ⟨k, le_refl k, hnew t ht⟩
  · intro b t u i hb ht hu hti hui
    rcases Nat.eq_or_lt_of_le hb with rfl | hb
    · exact inv.open_ne t u i hti hui ht.2 hu.2
    · rw [hgrows.number_eq (h.read (ht.1.imp fun j hj => ⟨by omega, hj.2⟩))] at hti
      rw [hgrows.number_eq (h.read (hu.1.imp fun j hj => ⟨by omega, hj.2⟩))] at hui
      exact h.apart b t u i hb ht hu hti hui
  · intro j hj hpair u hu
    rcases Nat.eq_or_lt_of_le hj with rfl | hj
    · exact data hpair u hu
    · obtain ⟨i, hi⟩ := h.read (hu.1.imp fun b hb => ⟨by omega, hb.2⟩)
      have hi' := h.dataTemp hj hpair
      have hold := h.data j hj hpair u hu
      rw [hi, hi'] at hold
      rwa [hgrows.kept u i hi, hgrows.kept _ _ hi']

theorem Done.extend_plain (h : Done ops T (k + 1) cur st) (hk : k < ops.length)
    (hpair : isDimPair ops k = false) {new : Nat → Prop} (hgrows : Grows new st st')
    (hnew : ∀ t, new t → Reads ops t k ∨ ResultAt ops t k) (inv : Inv T (startOfT ops) k st')
    (pending : isDimData ops k = true → op.op2 = (opAt ops k).op2)
    (here : Numbered ops k st' k op) : Done ops T k (cur.set k op) st' := by
  have hat : opAt (cur.set k op) k = op := opAt_set_eq (h.length ▸ hk)
  refine h.extend hgrows (fun t ht => (hnew t ht).imp_right .inl) inv length_set
    (fun j hjk _ => opAt_set_ne hjk) ⟨_, opAt_set_ne (Nat.succ_ne_self k), fun htemp => ?_⟩
    (hat.symm ▸ pending) (hat.symm ▸ here) fun hno => ?_
  · refine hgrows.kept _ _ ((h.numbered (k + 1) le_rfl).op2 htemp fun hnext => ?_)
    rw [isDimPair_iff.mpr ⟨hnext, htemp⟩] at hpair
    cases hpair
  · rw [hpair] at hno
    cases hno

theorem Done.isDimData (h : Done ops T k cur st) (j : Nat) : isDimData cur j = isDimData ops j := by
  rw [TempVars.isDimData, TempVars.isDimData, (h.shape j).opcode, (h.shape (j - 1)).opcode]

theorem Done.isDimPair (h : Done ops T k cur st) (j : Nat) : isDimPair cur j = isDimPair ops j := by
  obtain ⟨n, hn⟩ := (h.shape (j + 1)).op2
  rw [TempVars.isDimPair, TempVars.isDimPair, (h.shape j).opcode, (h.shape (j + 1)).opcode, hn,
    isTemp_setNum]

section

variable (hpre : Preceded ops T) (h : Done ops T (k + 1) cur st)
include hpre h

/-- At the OP_DATA of an ASSIGN_DIM only the first operand is read. -/
theorem Done.turn_data (hk : k < ops.length) (hdata : TempVars.isDimData ops k = true) :
    Done ops T k (turn (startOfT ops) k cur st).1 (turn (startOfT ops) k cur st).2 := by
  have hop1 : isTemp (opAt ops k).op1 = true → (opAt ops k).op1.num < T :=
    fun htemp => hpre.bounded _ k (.inl (.inl ⟨htemp, rfl⟩))
  obtain ⟨hinv, hgrows, hnumber, n, hn⟩ := useOp1_spec h.inv hop1
  have hno : ∀ {P : Prop}, TempVars.isDimData ops k = false → P := by
    intro P hno
    rw [hdata] at hno
    cases hno
  have hnopair : TempVars.isDimPair ops k = false := by
    by_contra hpair
    exact hno (not_isDimData_of_pair (by simpa using hpair))
  have hturn : turn (startOfT ops) k cur st =
      (cur.set k (st.useOp1 (opAt ops k)).2, (st.useOp1 (opAt ops k)).1) := by
    rw [turn, h.ahead k (Nat.lt_succ_self k)]
    dsimp only
    rw [if_pos (by rw [h.isDimData]; exact hdata)]
  rw [hturn]
  rw [hn] at hnumber ⊢
  refine h.extend_plain hk hnopair hgrows ?_ hinv.mono (fun _ => rfl)
    ⟨⟨rfl, ⟨n, rfl⟩, ⟨_, setNum_self _⟩, ⟨_, setNum_self _⟩, fun _ => rfl⟩, hnumber,
      fun _ hlt => absurd (hlt hdata) (lt_irrefl k), fun htemp => ?_, fun _ => hno, fun _ => hno⟩
  · rintro t ⟨htemp, rfl⟩
    exact .inl (.inl ⟨htemp, rfl⟩)
  · rw [not_extIsTemp_of_data hdata] at htemp
    cases htemp

/-- The operands that are read at `k` have a number then, as all that are read behind. -/
theorem Done.uses (hdata : TempVars.isDimData ops k = false) :
    ∃ st' n₁ n₂ m, (st.useOp1 (opAt ops k)).1.useRest (st.useOp1 (opAt ops k)).2 =
        (st', { opAt ops k with
          op1 := setNum (opAt ops k).op1 n₁, op2 := setNum (opAt ops k).op2 n₂,
          extendedValue := m }) ∧
      Inv T (startOfT ops) (k + 1) st' ∧ Grows (Reads ops · k) st st' ∧
      (∀ t, (∃ b, k ≤ b ∧ Reads ops t b) → ∃ i, st'.number t = some i) ∧
      ∀ {new st'' n}, Grows new st' st'' → (isTemp (opAt ops k).result = true →
        st'.number (opAt ops k).result.num ≠ none ∨ (opAt ops k).result.extUnused = false →
          st''.number (opAt ops k).result.num = some n) →
        (isTemp (opAt ops k).result = true → (n : Int) ≤ st''.max) →
        Numbered ops k st'' k { opAt ops k with
          op1 := setNum (opAt ops k).op1 n₁, op2 := setNum (opAt ops k).op2 n₂,
          result := setNum (opAt ops k).result n, extendedValue := m } := by
  have hused : ∀ t, Reads ops t k → t < T := fun t ht => hpre.bounded t k (.inl ht.used)
  obtain ⟨hinv, hgrows, hnumber, n₁, hn₁⟩ := @useOp1_spec _ _ _ _ h.inv (opAt ops k)
    fun htemp => hused _ (.inl ⟨htemp, rfl⟩)
  rw [hn₁] at hnumber ⊢
  obtain ⟨hinv', hgrows', hop2, hext, n₂, m, hrest, hm⟩ :=
    @useRest_spec _ _ _ _ hinv { opAt ops k with op1 := setNum (opAt ops k).op1 n₁ }
      (fun htemp => hused _ (.inr ⟨hdata, .inl ⟨htemp, rfl⟩⟩))
      (fun htemp => hused _ (.inr ⟨hdata, .inr ⟨htemp, rfl⟩⟩))
  rw [hrest] at hop2 hext
  have hall : Grows (Reads ops · k) st _ := (hgrows.trans hgrows').imp fun t ht => by
    rcases ht with ⟨htemp, rfl⟩ | ⟨htemp, rfl⟩ | ⟨htemp, rfl⟩
    · exact .inl ⟨htemp, rfl⟩
    · exact .inr ⟨hdata, .inl ⟨htemp, rfl⟩⟩
    · exact .inr ⟨hdata, .inr ⟨htemp, rfl⟩⟩
  have hop1 := fun htemp => hgrows'.kept _ _ (hnumber htemp)
  have hread : ∀ t, (∃ b, k ≤ b ∧ Reads ops t b) →
      ∃ i, ((st.useOp1 (opAt ops k)).1.useRest
        { opAt ops k with op1 := setNum (opAt ops k).op1 n₁ }).1.number t = some i := by
    rintro t ⟨b, hb, hread⟩
    rcases Nat.eq_or_lt_of_le hb with rfl | hb
    · rcases hread with ⟨htemp, rfl⟩ | ⟨-, ⟨htemp, rfl⟩ | ⟨htemp, rfl⟩⟩
      · exact ⟨_, hop1 htemp⟩
      · exact ⟨_, hop2 htemp⟩
      · exact ⟨_, hext htemp⟩
    · obtain ⟨i, hi⟩ := h.read ⟨b, hb, hread⟩
      exact ⟨i, hall.kept t i hi⟩
  refine ⟨_, n₁, n₂, m, Prod.ext rfl hrest, hinv', hall, hread, fun hg hnumber hmax => ?_⟩
  refine ⟨⟨rfl, ⟨n₁, rfl⟩, ⟨n₂, rfl⟩, ⟨_, rfl⟩, hm⟩, fun htemp => hg.kept _ _ (hop1 htemp),
    fun htemp _ => hg.kept _ _ (hop2 htemp), fun htemp => hg.kept _ _ (hext htemp),
    fun htemp _ hor => hnumber htemp (hor.imp_left fun hbehind => ?_), fun htemp _ => hmax htemp⟩
  obtain ⟨i, hi⟩ := hread _ hbehind
  rw [hi]
  exact Option.some_ne_none i

/-- An opline that has no OP_DATA to number: its operands are read and its result is
written. -/
theorem Done.turn_plain (hk : k < ops.length) (hdata : TempVars.isDimData ops k = false)
    (hpair : TempVars.isDimPair ops k = false) :
    Done ops T k (turn (startOfT ops) k cur st).1 (turn (startOfT ops) k cur st).2 := by
  obtain ⟨st', n₁, n₂, m, huse, hinv, hgrows, -, hhere⟩ := h.uses hpre hdata
  have hresult : isTemp (opAt ops k).result = true → (opAt ops k).result.num < T :=
    fun htemp => hpre.bounded _ k (.inr (.inl ⟨htemp, rfl⟩))
  obtain ⟨hinv', hgrows', hnumber, hmax, n, hn⟩ := result_spec hinv hresult
  have hturn : turn (startOfT ops) k cur st = (cur.set k { opAt ops k with
      op1 := setNum (opAt ops k).op1 n₁, op2 := setNum (opAt ops k).op2 n₂,
      result := setNum (opAt ops k).result n, extendedValue := m },
      (st'.result (startOfT ops (opAt ops k).result.num) k (opAt ops k).result).1) := by
    rw [turn, h.ahead k (Nat.lt_succ_self k)]
    dsimp only
    rw [if_neg (by rw [h.isDimData, hdata]; decide), huse]
    rw [if_neg (by rw [h.isDimPair, hpair]; decide), hn]
  rw [hn] at hnumber hmax
  rw [hturn]
  refine h.extend_plain hk hpair (hgrows.trans hgrows') ?_ hinv' (fun hno => ?_)
    (hhere hgrows' hnumber hmax)
  · rintro t (ht | ⟨htemp, rfl, -⟩)
    · exact .inl ht
    · exact .inr ⟨htemp, rfl⟩
  · rw [hdata] at hno
    cases hno

end

/-- The temporary of a pair has no number when the loop comes to its ASSIGN_DIM. -/
theorem Done.dataTemp_none (hown : OwnData ops) (h : Done ops T (k + 1) cur st)
    (hgrows : Grows (Reads ops · k) st st') (hpair : TempVars.isDimPair ops k = true) :
    st'.number (TempVars.dataTemp ops k) = none := by
  cases hs : st'.number (TempVars.dataTemp ops k) with
  | none => rfl
  | some i =>
    rcases hgrows.origin _ i hs with hs | ⟨-, hread⟩
    · obtain ⟨j, hj, hread | hresult | ⟨hother, heq⟩⟩ := h.origin _ i hs
      · exact absurd hread (not_reads_dataTemp hown hpair)
      · exact absurd hresult (not_resultAt_dataTemp hown hpair)
      · have := hown.defined k j hpair (.inr ⟨hother, heq⟩)
        omega
    · exact absurd hread (not_reads_dataTemp hown hpair)

/-- A result that gets its number in front of an OP_DATA has no earlier definition. -/
theorem Done.result_first (hown : OwnData ops) (h : Done ops T (k + 1) cur st)
    (hkept : ∀ t i, st.number t = some i → st'.number t = some i)
    (hread : ∀ t, (∃ b, k ≤ b ∧ Reads ops t b) → ∃ i, st'.number t = some i)
    (hpair : TempVars.isDimPair ops k = true) (ht : ResultAt ops t k)
    (hunused : (opAt ops k).result.extUnused = false) (hnone : st'.number t = none) :
    ¬Open (startOfT ops) k t := by
  have hsome : ¬∃ i, st'.number t = some i := by
    rintro ⟨i, hi⟩
    rw [hnone] at hi
    cases hi
  rintro ⟨a, hstart, ha⟩
  rcases hown.result k t hpair ht with
    hflag | ⟨j, hj, hused⟩ | ⟨j, hj, ⟨htemp, rfl⟩, hflag⟩ | hfirst
  · rw [hunused] at hflag
    cases hflag
  · refine hsome (hread t ⟨j, hj, hused.reads ?_⟩)
    rintro k' hpair' rfl
    exact not_resultAt_dataTemp hown hpair' ht
  · exact hsome ⟨_, hkept _ _ ((h.numbered j hj).result htemp (hown.not_data ⟨htemp, rfl⟩)
      (.inr hflag))⟩
  · exact Nat.not_le_of_lt ha (hfirst a (.inl (startOfT_some hstart).1))

/-- An ASSIGN_DIM with its OP_DATA: the temporary of the OP_DATA gets a slot between the
operands and the result. -/
theorem Done.turn_pair (hpre : Preceded ops T) (hown : OwnData ops)
    (h : Done ops T (k + 1) cur st) (hk : k < ops.length)
    (hpair : TempVars.isDimPair ops k = true) :
    Done ops T k (turn (startOfT ops) k cur st).1 (turn (startOfT ops) k cur st).2 := by
  obtain ⟨hnext, htemp⟩ := isDimPair_iff.mp hpair
  have hdata := not_isDimData_of_pair hpair
  obtain ⟨st', n₁, n₂, m, huse, hinv, hgrows, hread, hhere⟩ := h.uses hpre hdata
  have hresult : isTemp (opAt ops k).result = true → (opAt ops k).result.num < T :=
    fun htemp => hpre.bounded _ k (.inr (.inl ⟨htemp, rfl⟩))
  have hlt : TempVars.dataTemp ops k < T :=
    hpre.bounded _ (k + 1) (.inl (.inr (.inl ⟨htemp, rfl⟩)))
  have hnone := h.dataTemp_none hown hgrows hpair
  have hcur : (opAt cur (k + 1)).op2 = (opAt ops (k + 1)).op2 := h.pending hnext
  have hk1 : k + 1 < ops.length := by
    by_contra hle
    rw [opAt_outside (Nat.le_of_not_lt hle)] at htemp
    cases htemp
  have hnostart : startOfT ops (TempVars.dataTemp ops k) = none := by
    cases hstart : startOfT ops (TempVars.dataTemp ops k) with
    | none => rfl
    | some a => exact absurd (startOfT_some hstart).1 (not_resultAt_dataTemp hown hpair)
  obtain ⟨hinv₄, hgrows₄, hnumber₄⟩ := scratch_spec hinv hlt hnone hnostart
  have hturn₀ : ∀ st₄, ((st'.take st'.available).setMap (TempVars.dataTemp ops k)
      st'.available).free st'.available = st₄ → ∀ n,
      (st₄.result (startOfT ops (opAt ops k).result.num) k (opAt ops k).result).2 =
        setNum (opAt ops k).result n →
      turn (startOfT ops) k cur st = ((cur.set (k + 1) { opAt cur (k + 1) with
        op2 := setNum (opAt cur (k + 1)).op2 st'.available }).set k { opAt ops k with
        op1 := setNum (opAt ops k).op1 n₁, op2 := setNum (opAt ops k).op2 n₂,
        result := setNum (opAt ops k).result n, extendedValue := m },
        (st₄.result (startOfT ops (opAt ops k).result.num) k (opAt ops k).result).1.free
          st'.available) := by
    rintro _ rfl n hn
    rw [turn, h.ahead k (Nat.lt_succ_self k)]
    dsimp only
    rw [if_neg (by rw [h.isDimData, hdata]; decide), huse]
    rw [if_pos (by rw [h.isDimPair, hpair]), hcur, ← TempVars.dataTemp, hn]
  generalize ((st'.take st'.available).setMap (TempVars.dataTemp ops k)
    st'.available).free st'.available = st₄ at hinv₄ hgrows₄ hnumber₄ hturn₀
  obtain ⟨hinv₅, hgrows₅, hnumber₅, hmax, n, hn⟩ := result_spec hinv₄ hresult
  have hturn := hturn₀ st₄ rfl n hn
  rw [hn] at hnumber₅ hmax
  generalize (st₄.result (startOfT ops (opAt ops k).result.num) k (opAt ops k).result).1 = st₅
    at hinv₅ hgrows₅ hnumber₅ hmax hturn
  have hlater := hgrows₄.trans hgrows₅
  have hread₄ : ∀ t, (∃ b, k ≤ b ∧ Reads ops t b) → ∃ i, st₄.number t = some i :=
    fun t ht => (hread t ht).imp fun i hi => hgrows₄.kept t i hi
  -- Only temporaries that are closed have the slot that is freed last.
  have hclosed : ∀ u, st₅.number u = some st'.available → ¬Open (startOfT ops) k u := by
    intro u hu
    rcases hgrows₅.origin u _ hu with hu | ⟨hu, htemp, rfl, hflag⟩
    · rcases hgrows₄.origin u _ hu with hu | ⟨-, rfl⟩
      · exact fun hopen => hinv.fresh hlt hnone hu hopen.mono
      · rintro ⟨a, hstart, -⟩
        rw [hnostart] at hstart
        cases hstart
    · exact h.result_first hown (fun t i ht => hgrows₄.kept t i (hgrows.kept t i ht)) hread₄ hpair
        ⟨htemp, rfl⟩ hflag hu
  have hat : ∀ d op, opAt ((cur.set (k + 1) d).set k op) k = op := fun d op =>
    opAt_set_eq (by rw [length_set, h.length]; exact hk)
  have hall := hgrows.trans hlater
  rw [hturn]
  refine h.extend ⟨hall.kept, hall.origin, hall.max_le⟩ ?_ (hinv₅.free hclosed) ?_ ?_
    ⟨st'.available, ?_, fun _ => hgrows₅.kept _ _ hnumber₄⟩ (fun hno => ?_) ?_ ?_
  · rintro t (ht | rfl | ⟨htemp, rfl, -⟩)
    · exact .inl ht
    · exact .inr (.inr ⟨hpair, rfl⟩)
    · exact .inr (.inl ⟨htemp, rfl⟩)
  · rw [length_set, length_set]
  · intro j hjk hjn
    rw [opAt_set_ne hjk, opAt_set_ne hjn]
  · rw [opAt_set_ne (Nat.succ_ne_self k), opAt_set_eq (h.length ▸ hk1)]
  · rw [hdata] at hno
    cases hno
  · rw [hat]
    refine hhere ⟨hlater.kept, hlater.origin, hlater.max_le⟩ (fun htemp hor => ?_) hmax
    refine hnumber₅ htemp (hor.imp_left fun hsome hnone => ?_)
    obtain ⟨i, hi⟩ := Option.ne_none_iff_exists'.mp hsome
    rw [hgrows₄.kept _ i hi] at hnone
    cases hnone
  · rintro - u ⟨⟨b, hb, hub⟩, hopen⟩ heq
    obtain ⟨i, hi⟩ := hread u ⟨b, by omega, hub⟩
    rw [number_free, number_free, hgrows₅.kept _ _ hnumber₄, hlater.kept u i hi] at heq
    rw [heq] at hi
    exact hinv.fresh hlt hnone hi hopen

theorem isDimPair_lt (h : TempVars.isDimPair ops j = true) : j < ops.length := by
  by_contra hle
  rw [TempVars.isDimPair, opAt_outside (Nat.le_of_not_lt hle)] at h
  cases h

theorem usedAt_lt (h : UsedAt ops t j) : j < ops.length := by
  by_contra hle
  rw [UsedAt, opAt_outside (Nat.le_of_not_lt hle)] at h
  revert h
  simp [isTemp, extIsTemp, ZendOp.outside, Operand.none]

theorem done_start (ops : List ZendOp) (T : Nat) :
    Done ops T ops.length ops ⟨List.replicate T false, List.replicate T none, -1⟩ := by
  have hnumber : ∀ {t i}, Locals.number ⟨List.replicate T false, List.replicate T none, -1⟩ t ≠
      some i := by
    intro t i ht
    rw [Locals.number, getElem?_replicate] at ht
    split at ht <;> cases ht
  refine ⟨⟨length_replicate, length_replicate, fun i hi => ?_, fun t i ht => absurd ht hnumber,
      fun t u i ht => absurd ht hnumber, fun t i ht => absurd ht hnumber, ?_⟩, rfl,
    fun _ _ => rfl, fun _ => rfl, fun j hj => ?_, fun t i ht => absurd ht hnumber,
    fun b t u i _ _ _ ht => absurd ht hnumber,
    fun j hj hpair => absurd (isDimPair_lt hpair) (Nat.not_lt_of_le hj)⟩
  · rw [getElem?_replicate] at hi
    split at hi <;> cases hi
  · change (-1 : Int) < T
    omega
  · have hop : opAt ops j = .outside := opAt_outside hj
    rw [hop]
    refine ⟨by rw [hop]; exact .refl _, ?_, ?_, ?_, ?_, ?_⟩ <;>
      · intro htemp
        rw [hop] at htemp
        cases htemp

theorem Done.turn (hpre : Preceded ops T) (hown : OwnData ops) (h : Done ops T (k + 1) cur st)
    (hk : k < ops.length) :
    Done ops T k (turn (startOfT ops) k cur st).1 (turn (startOfT ops) k cur st).2 := by
  cases hdata : TempVars.isDimData ops k with
  | true => exact h.turn_data hpre hk hdata
  | false =>
    cases hpair : TempVars.isDimPair ops k with
    | true => exact h.turn_pair hpre hown hk hpair
    | false => exact h.turn_plain hpre hk hdata hpair

theorem Done.loop (hpre : Preceded ops T) (hown : OwnData ops) (h : Done ops T k cur st)
    (hk : k ≤ ops.length) :
    Done ops T 0 (loop (startOfT ops) k cur st).1 (loop (startOfT ops) k cur st).2 := by
  induction k generalizing cur st with
  | zero => exact h
  | succ k ih => exact ih (h.turn hpre hown hk) (Nat.le_of_succ_le hk)

end Loop

/-! The numbers that come out. -/

section Renumbering

/-- Each temporary has the new number `num` in its interval, two whose intervals overlap have
two, and the new `op_array->T`, which is above every index that was chosen, is not above the
old one. -/
structure Renumbered (ops : List ZendOp) (T : Nat) (num : Nat → Nat)
    (out : List ZendOp × Int) : Prop where
  length : out.1.length = ops.length
  shape : ∀ j, SameShape (opAt ops j) (opAt out.1 j)
  op1 : ∀ t a b j, Interval ops t a b → a ≤ j → j ≤ b →
    isTemp (opAt ops j).op1 = true → (opAt ops j).op1.num = t →
    (opAt out.1 j).op1.num = num t
  op2 : ∀ t a b j, Interval ops t a b → a ≤ j → j ≤ b →
    isTemp (opAt ops j).op2 = true → (opAt ops j).op2.num = t →
    (opAt out.1 j).op2.num = num t
  ext : ∀ t a b j, Interval ops t a b → a ≤ j → j ≤ b →
    extIsTemp (opAt ops j) = true → (opAt ops j).extendedValue = t →
    (opAt out.1 j).extendedValue = num t
  result : ∀ t a b j, Interval ops t a b → a ≤ j → j ≤ b →
    isTemp (opAt ops j).result = true → (opAt ops j).result.num = t →
    (opAt out.1 j).result.num = num t
  apart : ∀ t u a b c d, t ≠ u → Interval ops t a b → Interval ops u c d → c < b → a < d →
    num t ≠ num u
  bounded : ∀ t j, UsedAt out.1 t j ∨ ResultAt out.1 t j → (t : Int) < out.2
  le : out.2 ≤ T

variable {ops cur : List ZendOp} {T t u a b c d j k : Nat} {st : Locals}

theorem Interval.lt (hpre : Preceded ops T) (h : Interval ops t a b) : a < b := by
  obtain ⟨a', ha', hdef⟩ := hpre.preceded t b h.2.1
  exact lt_of_le_of_lt (h.1.2 a' hdef) ha'

/-- The temporary of a pair lives from its ASSIGN_DIM to its OP_DATA. -/
theorem Interval.of_data (hown : OwnData ops) (hpair : isDimPair ops k = true)
    (h : Interval ops (dataTemp ops k) a b) : a = k ∧ b = k + 1 :=
  ⟨hown.defined k a hpair h.1.1, hown.used k b hpair h.2.1⟩

/-- Another temporary begins at its first result, and its last use is read in place. -/
theorem Interval.regular (h : Interval ops t a b)
    (hdata : ∀ k, isDimPair ops k = true → t ≠ dataTemp ops k) :
    startOfT ops t = some a ∧ Reads ops t b := by
  refine ⟨?_, h.2.1.reads hdata⟩
  rcases h.1.1 with hresult | ⟨hpair, heq⟩
  · obtain ⟨a', hstart, ha'⟩ := startOfT_of_result hresult
    have hle := h.1.2 a' (.inl (startOfT_some hstart).1)
    rw [hstart, le_antisymm ha' hle]
  · exact absurd heq.symm (hdata a hpair)

theorem Done.used (h : Done ops T 0 cur st) (hused : UsedAt ops t j) :
    ∃ i, st.number t = some i := by
  have hnumbered := h.numbered j (Nat.zero_le j)
  rcases hused with ⟨htemp, rfl⟩ | ⟨htemp, rfl⟩ | ⟨htemp, rfl⟩
  · exact ⟨_, hnumbered.op1 htemp⟩
  · exact ⟨_, hnumbered.op2 htemp fun hdata => (isDimData_iff.mp hdata).2.1⟩
  · exact ⟨_, hnumbered.ext htemp⟩

/-- The temporary of a pair and one that is alive at the pair. -/
theorem Done.apart_data (hown : OwnData ops) (h : Done ops T 0 cur st)
    (hpair : TempVars.isDimPair ops k = true)
    (ht : Interval ops (TempVars.dataTemp ops k) a b) (hu : Interval ops u c d)
    (hdata : ∀ k, TempVars.isDimPair ops k = true → u ≠ TempVars.dataTemp ops k)
    (hcb : c < b) (had : a < d) : st.number u ≠ st.number (TempVars.dataTemp ops k) := by
  obtain ⟨rfl, rfl⟩ := ht.of_data hown hpair
  obtain ⟨hstart, hread⟩ := hu.regular hdata
  exact h.data a (Nat.zero_le a) hpair u ⟨⟨d, had, hread⟩, c, hstart, hcb⟩

/-- Two temporaries whose intervals overlap have two numbers. -/
theorem Done.number_ne (hpre : Preceded ops T) (hown : OwnData ops) (h : Done ops T 0 cur st)
    (htu : t ≠ u) (ht : Interval ops t a b) (hu : Interval ops u c d) (hcb : c < b)
    (had : a < d) : st.number t ≠ st.number u := by
  by_cases htdata : ∃ k, TempVars.isDimPair ops k = true ∧ t = TempVars.dataTemp ops k
  · obtain ⟨k, hpair, rfl⟩ := htdata
    by_cases hudata : ∃ k, TempVars.isDimPair ops k = true ∧ u = TempVars.dataTemp ops k
    · obtain ⟨k', hpair', rfl⟩ := hudata
      obtain ⟨rfl, rfl⟩ := ht.of_data hown hpair
      obtain ⟨rfl, rfl⟩ := hu.of_data hown hpair'
      obtain rfl : a = c := by omega
      exact absurd rfl htu
    · exact (h.apart_data hown hpair ht hu (fun k hk heq => hudata ⟨k, hk, heq⟩) hcb had).symm
  · have hno : ∀ k, TempVars.isDimPair ops k = true → t ≠ TempVars.dataTemp ops k :=
      fun k hk heq => htdata ⟨k, hk, heq⟩
    by_cases hudata : ∃ k, TempVars.isDimPair ops k = true ∧ u = TempVars.dataTemp ops k
    · obtain ⟨k, hpair, rfl⟩ := hudata
      exact h.apart_data hown hpair hu ht hno had hcb
    · obtain ⟨hta, hreadt⟩ := ht.regular hno
      obtain ⟨huc, hreadu⟩ := hu.regular fun k hk heq => hudata ⟨k, hk, heq⟩
      obtain ⟨i, hi⟩ := h.used ht.2.1
      have hab := ht.lt hpre
      have hcd := hu.lt hpre
      rw [hi]
      -- Both are open at the later of the two first definitions.
      exact fun hne => htu (h.apart (max a c + 1) t u i (Nat.zero_le _)
        ⟨⟨b, by omega, hreadt⟩, a, hta, by omega⟩ ⟨⟨d, by omega, hreadu⟩, c, huc, by omega⟩ hi
        hne.symm)

/-- For every op_array in which a definition stands in front of every use and whose ASSIGN_DIMs
have an OP_DATA of their own. -/
theorem optimizeTemporaryVariables_renumbers (ops : List ZendOp) (T : Nat)
    (hpre : Preceded ops T) (hown : OwnData ops) :
    ∃ num, Renumbered ops T num (optimizeTemporaryVariables ops T) := by
  have h := (done_start ops T).loop hpre hown le_rfl
  rw [optimizeTemporaryVariables]
  generalize (loop (startOfT ops) ops.length ops
    ⟨List.replicate T false, List.replicate T none, -1⟩).2 = st at h ⊢
  have hnum : ∀ {t i}, st.number t = some i → i = (st.number t).getD 0 := by
    intro t i ht
    rw [ht]
    rfl
  have hmax : ∀ {t i}, st.number t = some i → (i : Int) < st.max + 1 := fun ht =>
    Int.lt_add_one_of_le (h.inv.le_max _ _ ht)
  have hn := fun j => h.numbered j (Nat.zero_le j)
  have hop2 := fun j htemp => (hn j).op2 htemp fun hdata => (isDimData_iff.mp hdata).2.1
  refine ⟨fun t => (st.number t).getD 0, h.length, h.shape, ?_, ?_, ?_, ?_, ?_, ?_, ?_⟩
  · rintro t a b j - - - htemp rfl
    exact hnum ((hn j).op1 htemp)
  · rintro t a b j - - - htemp rfl
    exact hnum (hop2 j htemp)
  · rintro t a b j - - - htemp rfl
    exact hnum ((hn j).ext htemp)
  · rintro t a b j hinterval ha hb htemp rfl
    refine hnum ((hn j).result htemp (hown.not_data ⟨htemp, rfl⟩)
      (.inl ⟨b, hb, (hinterval.regular ?_).2⟩))
    intro k hpair heq
    exact not_resultAt_dataTemp hown hpair ⟨htemp, heq⟩
  · intro t u a b c d htu ht hu hcb had
    obtain ⟨i, hi⟩ := h.used ht.2.1
    obtain ⟨i', hi'⟩ := h.used hu.2.1
    have hne := h.number_ne hpre hown htu ht hu hcb had
    rw [hi, hi'] at hne
    rw [hi, hi']
    exact fun heq => hne (congrArg some heq)
  · intro t j hocc
    have hshape := h.shape j
    rcases hocc with (⟨htemp, rfl⟩ | ⟨htemp, rfl⟩ | ⟨htemp, rfl⟩) | ⟨htemp, rfl⟩
    · obtain ⟨n, hsame⟩ := hshape.op1
      rw [hsame, isTemp_setNum] at htemp
      exact hmax ((hn j).op1 htemp)
    · obtain ⟨n, hsame⟩ := hshape.op2
      rw [hsame, isTemp_setNum] at htemp
      exact hmax (hop2 j htemp)
    · rw [extIsTemp, hshape.opcode, ← extIsTemp] at htemp
      exact hmax ((hn j).ext htemp)
    · obtain ⟨n, hsame⟩ := hshape.result
      rw [hsame, isTemp_setNum] at htemp
      exact Int.lt_add_one_of_le ((hn j).le_max htemp (hown.not_data ⟨htemp, rfl⟩))
  · exact Int.add_one_le_of_lt h.inv.max_lt

/-! Checks on an op_array at hand. -/

theorem definedAt_lt (h : DefinedAt ops t j) : j < ops.length := by
  rcases h with h | h
  · exact (resultAt_iff.mp h).1
  · exact isDimPair_lt h.1

theorem Preceded.of_forall
    (hused : ∀ j < ops.length, ∀ t ∈ [(opAt ops j).op1.num, (opAt ops j).op2.num,
      (opAt ops j).extendedValue], UsedAt ops t j → t < T ∧ ∃ a, a < j ∧ DefinedAt ops t a)
    (hdefined : ∀ j < ops.length, ∀ t ∈ [(opAt ops j).result.num, dataTemp ops j],
      DefinedAt ops t j → t < T) : Preceded ops T := by
  have hall : ∀ t j, UsedAt ops t j → t < T ∧ ∃ a, a < j ∧ DefinedAt ops t a := by
    intro t j h
    refine hused j (usedAt_lt h) t ?_ h
    rcases h with ⟨-, rfl⟩ | ⟨-, rfl⟩ | ⟨-, rfl⟩ <;> simp
  refine ⟨fun t j h => ?_, fun t j h => (hall t j h).2⟩
  rcases h with h | h
  · exact (hall t j h).1
  · refine hdefined j (definedAt_lt h) t ?_ h
    rcases h with ⟨-, rfl⟩ | ⟨-, rfl⟩ <;> simp

theorem Interval.of_forall (ha : DefinedAt ops t a) (hfirst : ∀ j < a, ¬DefinedAt ops t j)
    (hb : UsedAt ops t b) (hlast : ∀ j < ops.length, UsedAt ops t j → j ≤ b) :
    Interval ops t a b := by
  refine ⟨⟨ha, fun j hj => ?_⟩, hb, fun j hj => hlast j (usedAt_lt hj) hj⟩
  by_contra hlt
  exact hfirst j (Nat.lt_of_not_le hlt) hj

/-- An op_array with a pair, as the compiler makes it. -/
def pairOps : List ZendOp :=
  [⟨.concat, .none, .none, ⟨.tmpVar, 1, false⟩, 0⟩, ⟨.concat, .none, .none, ⟨.tmpVar, 3, false⟩, 0⟩,
    ⟨.concat, ⟨.tmpVar, 3, false⟩, ⟨.tmpVar, 1, false⟩, ⟨.tmpVar, 2, false⟩, 0⟩,
    ⟨.assignDim, ⟨.cv, 0, false⟩, .none, ⟨.var, 4, true⟩, 0⟩,
    ⟨.opData, ⟨.tmpVar, 2, false⟩, ⟨.var, 0, false⟩, .none, 0⟩]

theorem optimizeTemporaryVariables_renumbers_pair :
    ∃ num, Renumbered pairOps 5 num (optimizeTemporaryVariables pairOps 5) := by
  have hpair : ∀ k, isDimPair pairOps k = true → k = 3 := fun k hk =>
    (by decide : ∀ k < 5, isDimPair pairOps k = true → k = 3) k (isDimPair_lt hk) hk
  have hdata : ∀ k < 5, isDimData pairOps k = true →
      isTemp (opAt pairOps k).result = false := by decide
  refine optimizeTemporaryVariables_renumbers pairOps 5 (.of_forall (by decide) (by decide))
    ⟨?_, ?_, ?_, ?_, ?_, ?_⟩
  · intro k j hk hused
    obtain rfl := hpair k hk
    exact (by decide : ∀ j < 5, UsedAt pairOps (dataTemp pairOps 3) j → j = 4) j
      (usedAt_lt hused) hused
  · intro k j hk hdef
    obtain rfl := hpair k hk
    exact (by decide : ∀ j < 5, DefinedAt pairOps (dataTemp pairOps 3) j → j = 3) j
      (definedAt_lt hdef) hdef
  · intro k hk
    obtain rfl := hpair k hk
    decide
  · intro k hk
    obtain rfl := hpair k hk
    decide
  · intro k hk
    by_cases hlt : k < 5
    · exact hdata k hlt hk
    · rw [opAt_outside (Nat.le_of_not_lt hlt)]
      rfl
  · intro k t hk _
    obtain rfl := hpair k hk
    exact .inl rfl

/-- The temporary of an OP_DATA that is defined and used elsewhere as well. -/
def sharedOps : List ZendOp :=
  [⟨.concat, .none, .none, ⟨.tmpVar, 0, false⟩, 0⟩, ⟨.concat, .none, .none, ⟨.tmpVar, 1, false⟩, 0⟩,
    ⟨.echo, ⟨.tmpVar, 1, false⟩, .none, .none, 0⟩, ⟨.assignDim, ⟨.cv, 0, false⟩, .none, .none, 0⟩,
    ⟨.opData, .none, ⟨.tmpVar, 0, false⟩, .none, 0⟩]

/-- An ASSIGN_DIM that defines again a temporary whose uses are in front of it. -/
def againOps : List ZendOp :=
  [⟨.concat, .none, .none, ⟨.tmpVar, 0, false⟩, 0⟩, ⟨.concat, .none, .none, ⟨.tmpVar, 1, false⟩, 0⟩,
    ⟨.concat, ⟨.tmpVar, 0, false⟩, ⟨.tmpVar, 1, false⟩, .none, 0⟩,
    ⟨.assignDim, ⟨.cv, 0, false⟩, .none, ⟨.tmpVar, 1, false⟩, 0⟩,
    ⟨.opData, .none, ⟨.var, 2, false⟩, .none, 0⟩]

/-- An OP_DATA with a result. -/
def resultOps : List ZendOp :=
  [⟨.assignDim, ⟨.cv, 0, false⟩, .none, .none, 0⟩,
    ⟨.opData, .none, ⟨.var, 0, false⟩, ⟨.tmpVar, 1, false⟩, 0⟩,
    ⟨.echo, ⟨.tmpVar, 1, false⟩, .none, .none, 0⟩]

/-- The pairs that need an OP_DATA of their own: two temporaries that overlap get one number,
or the two occurrences of a temporary get two. -/
theorem optimizeTemporaryVariables_shares :
    (Preceded sharedOps 2 ∧ Interval sharedOps 0 0 4 ∧ Interval sharedOps 1 1 2 ∧
      ¬∃ num, Renumbered sharedOps 2 num (optimizeTemporaryVariables sharedOps 2)) ∧
    (Preceded againOps 3 ∧ Interval againOps 0 0 2 ∧ Interval againOps 1 1 2 ∧
      ¬∃ num, Renumbered againOps 3 num (optimizeTemporaryVariables againOps 3)) ∧
    (Preceded resultOps 2 ∧ Interval resultOps 1 1 2 ∧
      ¬∃ num, Renumbered resultOps 2 num (optimizeTemporaryVariables resultOps 2)) := by
  have hshared : Interval sharedOps 0 0 4 ∧ Interval sharedOps 1 1 2 :=
    ⟨.of_forall (by decide) (by decide) (by decide) (by decide),
      .of_forall (by decide) (by decide) (by decide) (by decide)⟩
  have hagain : Interval againOps 0 0 2 ∧ Interval againOps 1 1 2 :=
    ⟨.of_forall (by decide) (by decide) (by decide) (by decide),
      .of_forall (by decide) (by decide) (by decide) (by decide)⟩
  have hresult : Interval resultOps 1 1 2 :=
    .of_forall (by decide) (by decide) (by decide) (by decide)
  refine ⟨⟨.of_forall (by decide) (by decide), hshared.1, hshared.2, ?_⟩,
    ⟨.of_forall (by decide) (by decide), hagain.1, hagain.2, ?_⟩,
    ⟨.of_forall (by decide) (by decide), hresult, ?_⟩⟩
  · rintro ⟨num, h⟩
    have hs := h.op2 0 0 4 4 hshared.1 (by decide) (by decide) (by decide) (by decide)
    have hu := h.op1 1 1 2 2 hshared.2 (by decide) (by decide) (by decide) (by decide)
    refine h.apart 0 1 0 4 1 2 (by decide) hshared.1 hshared.2 (by decide) (by decide) ?_
    rw [← hs, ← hu]
    decide
  · rintro ⟨num, h⟩
    have hs := h.op1 0 0 2 2 hagain.1 (by decide) (by decide) (by decide) (by decide)
    have hu := h.op2 1 1 2 2 hagain.2 (by decide) (by decide) (by decide) (by decide)
    refine h.apart 0 1 0 2 1 2 (by decide) hagain.1 hagain.2 (by decide) (by decide) ?_
    rw [← hs, ← hu]
    decide
  · rintro ⟨num, h⟩
    have hs := h.result 1 1 2 1 hresult (by decide) (by decide) (by decide) (by decide)
    have hu := h.op1 1 1 2 2 hresult (by decide) (by decide) (by decide) (by decide)
    rw [← hu] at hs
    revert hs
    decide

end Renumbering

end TempVars

end PhpEngine

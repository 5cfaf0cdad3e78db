/-
The array behind `SplHeap` and `SplPriorityQueue` (`ext/spl/spl_heap.c`).  The comparator
is user code: each of its answers may depend on all that has happened before.
-/
import PhpEngine.HeapOrder

namespace PhpEngine

open HeapOrder Rearrangement List

/-- `heap->elements` has `max_size` slots; a slot never written to holds nothing. -/
structure SplPtrHeap (α : Type) where
  elements : List (Option α)
  maxSize : Nat
  count : Nat
  corrupted : Bool

/-- `heap->cmp`, with the state `σ` its calls act on, and `EG(exception)`. -/
structure HeapCmp (α σ : Type) where
  cmp : α → α → σ → Int × σ
  exception : σ → Bool

namespace SplPtrHeap

variable {α σ : Type}

def ptrHeapBlockSize : Nat := 64

def init : SplPtrHeap α where
  elements := List.replicate ptrHeapBlockSize none
  maxSize := ptrHeapBlockSize
  count := 0
  corrupted := false

/-- `elements[i]`, which has to be a slot that was written to. -/
def read (elements : List (Option α)) (i : Nat) : Option α :=
  elements[i]?.join

/-- `elements[i] = elem`, which has to be a slot of the array. -/
def write (elements : List (Option α)) (i : Nat) (elem : α) : Option (List (Option α)) :=
  if i < elements.length then some (elements.set i (some elem)) else none

variable (heapCmp : HeapCmp α σ)

/-- The loop of `spl_ptr_heap_insert`. -/
def siftUp (elem : α) (i : Nat) (elements : List (Option α)) (s : σ) :
    Option (Nat × List (Option α) × σ) :=
  if 0 < i then
    match read elements ((i - 1) / 2) with
    | none => none
    | some parent =>
      let (answer, s) := heapCmp.cmp parent elem s
      if answer < 0 then
        match write elements i parent with
        | none => none
        | some elements => siftUp elem ((i - 1) / 2) elements s
      else some (i, elements, s)
  else some (i, elements, s)
termination_by i
decreasing_by omega

/-- The array is doubled when it is full. -/
def grow (heap : SplPtrHeap α) : SplPtrHeap α :=
  if heap.count + 1 > heap.maxSize then
    { heap with
      elements := heap.elements ++ List.replicate heap.maxSize none
      maxSize := heap.maxSize * 2 }
  else heap

/-- `spl_ptr_heap_insert` -/
def insert (heap : SplPtrHeap α) (elem : α) (s : σ) : Option (SplPtrHeap α × σ) :=
  let heap := heap.grow
  match siftUp heapCmp elem heap.count heap.elements s with
  | none => none
  | some (i, elements, s) =>
    match write elements i elem with
    | none => none
    | some elements =>
      some ({ heap with
        elements := elements
        count := heap.count + 1
        corrupted := heap.corrupted || heapCmp.exception s }, s)

/-- Whether the loop of `spl_ptr_heap_delete_top` goes to the second child. -/
def secondIsBigger (elements : List (Option α)) (count j : Nat) (s : σ) : Option (Bool × σ) :=
  if j ≠ count then
    match read elements (j + 1), read elements j with
    | some second, some first =>
      let (answer, s) := heapCmp.cmp second first s
      some (answer > 0, s)
    | _, _ => none
  else some (false, s)

/-- The loop of `spl_ptr_heap_delete_top`. -/
def siftDown (bottom : α) (limit count i : Nat) (elements : List (Option α)) (s : σ) :
    Option (Nat × List (Option α) × σ) :=
  if i < limit then
    match secondIsBigger heapCmp elements count (i * 2 + 1) s with
    | none => none
    | some (second, s) =>
      let j := if second then i * 2 + 1 + 1 else i * 2 + 1
      match read elements j with
      | none => none
      | some child =>
        let (answer, s) := heapCmp.cmp bottom child s
        if answer < 0 then
          match write elements i child with
          | none => none
          | some elements => siftDown bottom limit count j elements s
        else some (i, elements, s)
  else some (i, elements, s)
termination_by limit - i
decreasing_by
  have hj : i < j := by
    simp only [j]
    split <;> omega
  omega

/-- `spl_ptr_heap_delete_top`: the element returned, `NULL` for an empty heap, and the
heap. -/
def deleteTop (heap : SplPtrHeap α) (s : σ) : Option (Option α × SplPtrHeap α × σ) :=
  let limit := (heap.count - 1) / 2
  if heap.count = 0 then some (none, heap, s)
  else
    match read heap.elements 0, read heap.elements (heap.count - 1) with
    | some top, some bottom =>
      match siftDown heapCmp bottom limit (heap.count - 1) 0 heap.elements s with
      | none => none
      | some (i, elements, s) =>
        match write elements i bottom with
        | none => none
        | some elements =>
          some (some top, { heap with
            elements := elements
            count := heap.count - 1
            corrupted := heap.corrupted || heapCmp.exception s }, s)
    | _, _ => none

/-- The comparator answers as a total preorder does. -/
structure Orders (heapCmp : HeapCmp α σ) (le : α → α → Prop) : Prop where
  total : ∀ a b, le a b ∨ le b a
  trans : ∀ a b c, le a b → le b c → le a c
  below : ∀ a b s, (heapCmp.cmp a b s).1 < 0 ↔ ¬le b a
  above : ∀ a b s, 0 < (heapCmp.cmp a b s).1 ↔ ¬le a b

section Loops

theorem write_of_lt {elements : List (Option α)} {i : Nat} (hi : i < elements.length) (a : α) :
    write elements i a = some (elements.set i (some a)) :=
  if_pos hi

theorem read_set {elements : List (Option α)} {i : Nat} (hi : i < elements.length) (a : α)
    (k : Nat) : read (elements.set i (some a)) k = if k = i then some a else read elements k := by
  rw [read, read, getElem?_set]
  by_cases hki : k = i
  · subst hki
    simp [hi]
  · rw [if_neg (Ne.symm hki), if_neg hki]

/-- The slots below `n` hold `f`, but for the slot `i`, which is waiting for a value. -/
def HoldsBut (elements : List (Option α)) (n i : Nat) (f : Nat → α) : Prop :=
  n ≤ elements.length ∧ ∀ k < n, k ≠ i → read elements k = some (f k)

variable {elements : List (Option α)} {n i j : Nat} {f : Nat → α}

/-- The value of the slot `j` goes to the slot that waits, and `j` waits instead. -/
theorem HoldsBut.move (h : HoldsBut elements n i f) (hi : i < n) :
    HoldsBut (elements.set i (some (f j))) n j (f ∘ Equiv.swap i j) := by
  refine ⟨by rw [length_set]; exact h.1, fun k hk hkj => ?_⟩
  rw [read_set (lt_of_lt_of_le hi h.1)]
  by_cases hki : k = i
  · subst hki
    simp
  · rw [if_neg hki, h.2 k hk hki]
    simp [Equiv.swap_apply_of_ne_of_ne hki hkj]

theorem HoldsBut.fill (h : HoldsBut elements n i f) (hi : i < n) :
    write elements i (f i) = some (elements.set i (some (f i))) ∧
      ∀ k < n, read (elements.set i (some (f i))) k = some (f k) := by
  have hlen := lt_of_lt_of_le hi h.1
  refine ⟨write_of_lt hlen _, fun k hk => ?_⟩
  rw [read_set hlen]
  by_cases hki : k = i
  · rw [if_pos hki, hki]
  · rw [if_neg hki]
    exact h.2 k hk hki

variable {heapCmp : HeapCmp α σ}

/-- The values change places on the way up, whatever the comparator says; and in the end
they are in order if it says what an order does. -/
theorem siftUp_spec (heapCmp : HeapCmp α σ) (h : HoldsBut elements n i f) (hi : i < n) (s : σ) :
    ∃ j elements' s' g, siftUp heapCmp (f i) i elements s = some (j, elements', s') ∧
      j < n ∧ elements'.length = elements.length ∧ HoldsBut elements' n j g ∧ g j = f i ∧
      Rearrangement.contents n g = Rearrangement.contents n f ∧
      ∀ le, Orders heapCmp le → Rising le n f i → Ordered le n g := by
  induction i using Nat.strong_induction_on generalizing elements f s with
  | _ i ih =>
    rw [siftUp]
    by_cases hpos : 0 < i
    · have hparent := h.2 ((i - 1) / 2) (by omega) (by omega)
      simp only [if_pos hpos, hparent]
      by_cases hneg : (heapCmp.cmp (f ((i - 1) / 2)) (f i) s).1 < 0
      · have hrun := ih ((i - 1) / 2) (by omega) (h.move hi) (by omega)
          (heapCmp.cmp (f ((i - 1) / 2)) (f i) s).2
        obtain ⟨j, elements', s', g, hrun, hj, hlen, hholds, hg, hcontents, horder⟩ := hrun
        have hswap : (f ∘ Equiv.swap i ((i - 1) / 2)) ((i - 1) / 2) = f i := by simp
        rw [hswap] at hrun hg
        refine ⟨j, elements', s', g, ?_, hj, ?_, hholds, hg, ?_, ?_⟩
        · rw [if_pos hneg, write_of_lt (lt_of_lt_of_le hi h.1)]
          exact hrun
        · rw [hlen, length_set]
        · rw [hcontents, contents_swap hi (by omega)]
        · intro le hle hrising
          have htrans : IsTrans α le := ⟨hle.trans⟩
          apply horder le hle
          apply hrising.step hpos hi
          have hnot := (hle.below _ _ _).mp hneg
          exact (hle.total _ _).resolve_left hnot
      · rw [if_neg hneg]
        refine ⟨i, elements, _, f, rfl, hi, rfl, h, rfl, rfl, fun le hle hrising => ?_⟩
        apply hrising.ordered_of_le
        intro _
        by_contra hnot
        exact hneg ((hle.below _ _ _).mpr hnot)
    · rw [if_neg hpos]
      refine ⟨i, elements, s, f, rfl, hi, rfl, h, rfl, rfl, fun le _ hrising => ?_⟩
      exact hrising.ordered_of_le fun h0 => absurd h0 hpos

/-- Which child the loop goes to, and that the other one is not above it. -/
theorem secondIsBigger_spec (heapCmp : HeapCmp α σ) {m : Nat}
    (h : HoldsBut elements (m + 1) i f) (hi : i < m / 2) (s : σ) :
    ∃ second s', secondIsBigger heapCmp elements m (i * 2 + 1) s = some (second, s') ∧
      ∀ le, Orders heapCmp le → ∀ k, 0 < k → (k - 1) / 2 = i →
        le (f k) (f (if second then i * 2 + 1 + 1 else i * 2 + 1)) := by
  have hfirst := h.2 (i * 2 + 1) (by omega) (by omega)
  have hsecond := h.2 (i * 2 + 1 + 1) (by omega) (by omega)
  refine ⟨_, _, by rw [secondIsBigger, if_pos (by omega), hsecond, hfirst], ?_⟩
  intro le hle k hk hpar
  have hkids : k = i * 2 + 1 ∨ k = i * 2 + 1 + 1 := by omega
  have habove := hle.above (f (i * 2 + 1 + 1)) (f (i * 2 + 1)) s
  have hrefl : ∀ a, le a a := fun a => (hle.total a a).elim id id
  by_cases hanswer : 0 < (heapCmp.cmp (f (i * 2 + 1 + 1)) (f (i * 2 + 1)) s).1
  · rw [if_pos (by simpa using hanswer)]
    rcases hkids with rfl | rfl
    · exact (hle.total _ _).resolve_right (habove.mp hanswer)
    · exact hrefl _
  · rw [if_neg (by simpa using hanswer)]
    rcases hkids with rfl | rfl
    · exact hrefl _
    · by_contra hnot
      exact hanswer (habove.mpr hnot)

/-- The same on the way down.  The slot `m` still holds the value that sinks, so that the
loop may take it for a child. -/
theorem siftDown_spec (heapCmp : HeapCmp α σ) {m : Nat}
    (h : HoldsBut elements (m + 1) i f) (hi : i < m + 1) (hbottom : f m = f i) (s : σ) :
    ∃ j elements' s' g, siftDown heapCmp (f i) (m / 2) m i elements s = some (j, elements', s') ∧
      j < m + 1 ∧ elements'.length = elements.length ∧ HoldsBut elements' (m + 1) j g ∧
      g j = f i ∧ Rearrangement.contents m g = Rearrangement.contents m f ∧
      ∀ le, Orders heapCmp le → Sinking le m f i → Ordered le m g := by
  induction hd : m / 2 - i using Nat.strong_induction_on generalizing i elements f s with
  | _ d ih =>
    rw [siftDown]
    by_cases hlimit : i < m / 2
    · obtain ⟨second, s₁, hsecond, hmax⟩ := secondIsBigger_spec heapCmp h hlimit s
      generalize hj : (if second then i * 2 + 1 + 1 else i * 2 + 1) = j at hmax
      have hij : i < j ∧ j ≤ m ∧ (j - 1) / 2 = i := by
        split at hj <;> omega
      simp only [if_pos hlimit, hsecond, hj, h.2 j (by omega) (by omega)]
      by_cases hneg : (heapCmp.cmp (f i) (f j) s₁).1 < 0
      · have hswap : (f ∘ Equiv.swap i j) j = f i := by simp
        have hend : (f ∘ Equiv.swap i j) m = f i := by
          by_cases hjm : m = j
          · rw [hjm]
            exact hswap
          · simp [Equiv.swap_apply_of_ne_of_ne (show m ≠ i by omega) hjm, hbottom]
        have hrun := ih (m / 2 - j) (by omega) (h.move hi) (by omega) (hend.trans hswap.symm)
          (heapCmp.cmp (f i) (f j) s₁).2 rfl
        obtain ⟨k, elements', s', g, hrun, hk, hlen, hholds, hg, hcontents, horder⟩ := hrun
        rw [hswap] at hrun hg
        refine ⟨k, elements', s', g, ?_, hk, ?_, hholds, hg, ?_, ?_⟩
        · rw [if_pos hneg, write_of_lt (lt_of_lt_of_le hi h.1)]
          exact hrun
        · rw [hlen, length_set]
        · rw [hcontents]
          by_cases hjm : j = m
          · -- The value meets itself.
            subst hjm
            apply contents_congr
            intro k hk
            by_cases hki : k = i
            · subst hki
              simp [hbottom]
            · simp [Equiv.swap_apply_of_ne_of_ne hki (show k ≠ j by omega)]
          · exact contents_swap (by omega) (by omega) f
        · intro le hle hsinking
          have hnot := (hle.below _ _ _).mp hneg
          have hjm : j ≠ m := by
            rintro rfl
            rw [hbottom] at hnot
            exact hnot ((hle.total _ _).elim id id)
          apply horder le hle
          apply hsinking.step (by omega) (by omega) hij.2.2
          · exact (hle.total _ _).resolve_right hnot
          · intro k hk _ hpar _
            exact hmax le hle k hk hpar
      · rw [if_neg hneg]
        refine ⟨i, elements, _, f, rfl, hi, rfl, h, rfl, rfl, fun le hle hsinking => ?_⟩
        apply hsinking.ordered_of_le
        intro k hk _ hpar
        apply hle.trans _ _ _ (hmax le hle k hk hpar)
        by_contra hnot
        exact hneg ((hle.below _ _ _).mpr hnot)
    · rw [if_neg hlimit]
      refine ⟨i, elements, s, f, rfl, hi, rfl, h, rfl, rfl, fun le _ hsinking => ?_⟩
      exact hsinking.ordered_of_le fun k hk hkm hpar => absurd hpar (by omega)

end Loops

section Operations

/-- The stored elements, by slot. -/
structure Stores (heap : SplPtrHeap α) (f : Nat → α) : Prop where
  length : heap.elements.length = heap.maxSize
  pos : 0 < heap.maxSize
  le : heap.count ≤ heap.maxSize
  holds : ∀ k < heap.count, read heap.elements k = some (f k)

def stored (heap : SplPtrHeap α) : Multiset α :=
  ((heap.elements.take heap.count).filterMap id : List α)

/-- `elements[(i - 1) / 2] >= elements[i]` below `count`. -/
def IsOrdered (heap : SplPtrHeap α) (le : α → α → Prop) : Prop :=
  ∀ i, 0 < i → i < heap.count → ∃ a b, read heap.elements i = some a ∧
    read heap.elements ((i - 1) / 2) = some b ∧ le a b

variable {heap : SplPtrHeap α} {f : Nat → α} {heapCmp : HeapCmp α σ}

section

variable (h : Stores heap f)
include h

theorem Stores.stored_eq :
    heap.stored = Rearrangement.contents heap.count f := by
  have htake : heap.elements.take heap.count =
      (List.range heap.count).map (fun k => some (f k)) := by
    apply ext_getElem?
    intro k
    by_cases hk : k < heap.count
    · have hread := h.holds k hk
      have hin : k < heap.elements.length := by
        rw [h.length]
        exact lt_of_lt_of_le hk h.le
      rw [read, getElem?_eq_getElem hin, Option.join_some] at hread
      rw [getElem?_take_of_lt hk, getElem?_eq_getElem hin, hread]
      simp [hk]
    · rw [getElem?_eq_none (by rw [length_take]; omega), getElem?_eq_none (by simpa using hk)]
  rw [stored, htake, filterMap_map]
  have hsome : (id ∘ fun k => some (f k)) = (some ∘ f) := rfl
  rw [hsome, filterMap_eq_map]
  rfl

theorem Stores.isOrdered {le : α → α → Prop} (hordered : Ordered le heap.count f) :
    heap.IsOrdered le := by
  intro i hi hin
  exact ⟨f i, f ((i - 1) / 2), h.holds i hin, h.holds _ (by omega), hordered i hi hin⟩

theorem Stores.grow :
    Stores heap.grow f ∧ heap.grow.count = heap.count ∧ heap.count < heap.grow.maxSize := by
  rw [SplPtrHeap.grow]
  have hpos := h.pos
  have hle := h.le
  split
  · refine ⟨⟨?_, ?_, ?_, ?_⟩, rfl, ?_⟩
    · simp only [length_append, length_replicate, h.length]
      omega
    · simp only
      omega
    · simp only
      omega
    · intro k hk
      have hin : k < heap.elements.length := by
        rw [h.length]
        exact lt_of_lt_of_le hk hle
      rw [read, getElem?_append_left hin]
      exact h.holds k hk
    · simp only
      omega
  · exact ⟨h, rfl, by omega⟩

theorem Stores.insert (heapCmp : HeapCmp α σ) (elem : α) (s : σ) :
    ∃ heap' s' g, insert heapCmp heap elem s = some (heap', s') ∧ Stores heap' g ∧
      heap'.count = heap.count + 1 ∧
      Rearrangement.contents (heap.count + 1) g = elem ::ₘ Rearrangement.contents heap.count f ∧
      ∀ le, Orders heapCmp le → Ordered le heap.count f → Ordered le (heap.count + 1) g := by
  obtain ⟨hgrown, hcount, hroom⟩ := h.grow
  let g := fun k => if k = heap.count then elem else f k
  have hg : g heap.count = elem := if_pos rfl
  have hbelow : ∀ k < heap.count, g k = f k := fun k hk => if_neg (by omega)
  have hbut : HoldsBut heap.grow.elements (heap.count + 1) heap.count g := by
    refine ⟨by rw [hgrown.length]; omega, fun k hk hne => ?_⟩
    rw [hgrown.holds k (by omega), hbelow k (by omega)]
  obtain ⟨j, elements, s', g', hrun, hj, hlen, hholds, hg', hcontents, horder⟩ :=
    siftUp_spec heapCmp hbut (Nat.lt_succ_self _) s
  rw [hg] at hrun hg'
  obtain ⟨hwrite, hread⟩ := hholds.fill hj
  rw [hg'] at hwrite hread
  refine ⟨{ heap.grow with
      elements := elements.set j (some elem)
      count := heap.count + 1
      corrupted := heap.grow.corrupted || heapCmp.exception s' }, s', g', ?_,
    ⟨?_, ?_, ?_, ?_⟩, rfl, ?_, ?_⟩
  · rw [SplPtrHeap.insert]
    simp only [hcount, hrun, hwrite]
  · rw [length_set, hlen, hgrown.length]
  · exact hgrown.pos
  · exact hroom
  · exact hread
  · rw [hcontents, contents_succ, hg, contents_congr hbelow]
  · intro le hle hordered
    have hext : Ordered le heap.count g := by
      intro k hk hkn
      rw [hbelow k hkn, hbelow _ (by omega)]
      exact hordered k hk hkn
    exact horder le hle hext.rising

theorem Stores.deleteTop (heapCmp : HeapCmp α σ) (hpos : 0 < heap.count) (s : σ) :
    ∃ heap' s' g, deleteTop heapCmp heap s = some (some (f 0), heap', s') ∧ Stores heap' g ∧
      heap'.count = heap.count - 1 ∧
      Rearrangement.contents heap.count f = f 0 ::ₘ Rearrangement.contents (heap.count - 1) g ∧
      ∀ le, Orders heapCmp le → Ordered le heap.count f → Ordered le (heap.count - 1) g ∧
          ∀ a ∈ Rearrangement.contents heap.count f, le a (f 0) := by
  obtain ⟨m, hm⟩ : ∃ m, heap.count = m + 1 := ⟨heap.count - 1, by omega⟩
  have hle := h.le
  let g := fun k => if k = 0 then f m else f k
  have hg : g 0 = f m := if_pos rfl
  have hbelow : ∀ k, 0 < k → g k = f k := fun k hk => if_neg (by omega)
  have hend : g m = g 0 := by
    rcases Nat.eq_zero_or_pos m with rfl | hmpos
    · rfl
    · rw [hbelow m hmpos, hg]
  have hbut : HoldsBut heap.elements (m + 1) 0 g := by
    refine ⟨by rw [h.length]; omega, fun k hk hne => ?_⟩
    rw [h.holds k (by omega), hbelow k (by omega)]
  obtain ⟨j, elements, s', g', hrun, hj, hlen, hholds, hg', hcontents, horder⟩ :=
    siftDown_spec heapCmp hbut (Nat.succ_pos m) hend s
  rw [hg] at hrun hg'
  obtain ⟨hwrite, hread⟩ := hholds.fill hj
  rw [hg'] at hwrite hread
  have hsplit : Rearrangement.contents (m + 1) f = f 0 ::ₘ Rearrangement.contents m g := by
    rcases Nat.eq_zero_or_pos m with rfl | hmpos
    · rw [contents_succ]
      rfl
    · have hswap := contents_swap (Nat.succ_pos m) (Nat.lt_succ_self m) f
      rw [← hswap, contents_succ]
      have hlast : (f ∘ Equiv.swap 0 m) m = f 0 := by simp
      congr 1
      apply contents_congr
      intro k hk
      rcases Nat.eq_zero_or_pos k with rfl | hkpos
      · simp [hg]
      · rw [hbelow k hkpos, Function.comp_apply, Equiv.swap_apply_of_ne_of_ne (by omega) (by omega)]
  rw [hm, Nat.add_sub_cancel]
  refine ⟨{ heap with
      elements := elements.set j (some (f m))
      count := m
      corrupted := heap.corrupted || heapCmp.exception s' }, s', g', ?_,
    ⟨?_, ?_, ?_, ?_⟩, rfl, ?_, ?_⟩
  · rw [SplPtrHeap.deleteTop]
    simp only [hm, Nat.add_sub_cancel, if_neg (Nat.succ_ne_zero m),
      h.holds 0 (by omega), h.holds m (by omega), hrun, hwrite]
  · rw [length_set, hlen, h.length]
  · exact h.pos
  · simp only
    omega
  · intro k hk
    exact hread k (Nat.lt_succ_of_lt hk)
  · rw [hcontents, hsplit]
  · intro le hle hordered
    refine ⟨horder le hle (hordered.sinking (Nat.le_succ m) fun k hk _ => hbelow k hk), ?_⟩
    intro a ha
    have htrans : IsTrans α le := ⟨hle.trans⟩
    have hrefl : Std.Refl le := ⟨fun a => (hle.total a a).elim id id⟩
    obtain ⟨k, hk, rfl⟩ := mem_contents.mp ha
    exact hordered.le_top hk

end

end Operations

section Runs

variable {heapCmp : HeapCmp α σ}

/-- The heaps that insertions and deletions lead to.  Between them, and within them, the
comparator may come to any state. -/
inductive Reaches (heapCmp : HeapCmp α σ) : SplPtrHeap α → Prop where
  | init : Reaches heapCmp init
  | insert {heap heap' : SplPtrHeap α} {elem : α} {s s' : σ} : Reaches heapCmp heap →
      insert heapCmp heap elem s = some (heap', s') → Reaches heapCmp heap'
  | deleteTop {heap heap' : SplPtrHeap α} {top : Option α} {s s' : σ} :
      Reaches heapCmp heap → deleteTop heapCmp heap s = some (top, heap', s') →
      Reaches heapCmp heap'

theorem deleteTop_empty {heap : SplPtrHeap α} (h : heap.count = 0) (s : σ) :
    deleteTop heapCmp heap s = some (none, heap, s) := by
  rw [deleteTop, if_pos h]

theorem Reaches.stores [Inhabited α] {heap : SplPtrHeap α} (h : Reaches heapCmp heap) :
    ∃ f, Stores heap f ∧ ∀ le, Orders heapCmp le → Ordered le heap.count f := by
  induction h with
  | init =>
    refine ⟨fun _ => default, ⟨?_, ?_, Nat.zero_le _, ?_⟩, ?_⟩
    · exact length_replicate
    · exact (by decide : 0 < ptrHeapBlockSize)
    · intro k hk
      exact absurd hk (Nat.not_lt_zero k)
    · intro le _ k _ hk
      exact absurd hk (Nat.not_lt_zero k)
  | @insert heap heap' elem s s' _ hrun ih =>
    obtain ⟨f, hstores, hordered⟩ := ih
    obtain ⟨heap₁, s₁, g, hrun₁, hstores₁, hcount, -, horder⟩ :=
      hstores.insert heapCmp elem s
    rw [hrun, Option.some.injEq, Prod.mk.injEq] at hrun₁
    obtain ⟨rfl, -⟩ := hrun₁
    rw [← hcount] at horder
    exact ⟨g, hstores₁, fun le hle => horder le hle (hordered le hle)⟩
  | @deleteTop heap heap' top s s' _ hrun ih =>
    obtain ⟨f, hstores, hordered⟩ := ih
    rcases Nat.eq_zero_or_pos heap.count with hzero | hpos
    · rw [deleteTop_empty hzero, Option.some.injEq, Prod.mk.injEq, Prod.mk.injEq] at hrun
      obtain ⟨-, rfl, -⟩ := hrun
      exact ⟨f, hstores, hordered⟩
    · obtain ⟨heap₁, s₁, g, hrun₁, hstores₁, hcount, -, horder⟩ :=
        hstores.deleteTop heapCmp hpos s
      rw [hrun, Option.some.injEq, Prod.mk.injEq, Prod.mk.injEq] at hrun₁
      obtain ⟨-, rfl, -⟩ := hrun₁
      rw [← hcount] at horder
      exact ⟨g, hstores₁, fun le hle => (horder le hle (hordered le hle)).1⟩

/-- Whatever the comparator answers, the calls stay within the array, an insertion adds its
element and a deletion takes the returned one away; and the heap is in order, with a
greatest element at the top, if the comparator is a total preorder. -/
theorem reaches_correct [Inhabited α] {heap : SplPtrHeap α} (h : Reaches heapCmp heap) :
    (∀ le, Orders heapCmp le → heap.IsOrdered le) ∧
    (∀ elem s, ∃ heap' s', insert heapCmp heap elem s = some (heap', s') ∧
      heap'.stored = elem ::ₘ heap.stored) ∧
    ∀ s, (heap.stored = 0 ∧ deleteTop heapCmp heap s = some (none, heap, s)) ∨
      ∃ top heap' s', deleteTop heapCmp heap s = some (some top, heap', s') ∧
        heap.stored = top ::ₘ heap'.stored ∧
        ∀ le, Orders heapCmp le → ∀ a ∈ heap.stored, le a top := by
  obtain ⟨f, hstores, hordered⟩ := h.stores
  refine ⟨fun le hle => hstores.isOrdered (hordered le hle), fun elem s => ?_, fun s => ?_⟩
  · obtain ⟨heap', s', g, hrun, hstores', hcount, hcontents, -⟩ :=
      hstores.insert heapCmp elem s
    refine ⟨heap', s', hrun, ?_⟩
    rw [hstores'.stored_eq, hstores.stored_eq, hcount, hcontents]
  · rcases Nat.eq_zero_or_pos heap.count with hzero | hpos
    · refine .inl ⟨?_, deleteTop_empty hzero s⟩
      rw [hstores.stored_eq, hzero]
      rfl
    · obtain ⟨heap', s', g, hrun, hstores', hcount, hcontents, horder⟩ :=
        hstores.deleteTop heapCmp hpos s
      refine .inr ⟨f 0, heap', s', hrun, ?_, fun le hle => ?_⟩
      · rw [hstores'.stored_eq, hstores.stored_eq, hcount, hcontents]
      · rw [hstores.stored_eq]
        exact (horder le hle (hordered le hle)).2

/-- The comparator of a heap of numbers. -/
def natCmp : HeapCmp Nat Unit where
  cmp a b s := ((a : Int) - b, s)
  exception _ := false

theorem natCmp_orders : Orders natCmp (fun a b : Nat => a ≤ b) where
  total a b := Nat.le_total a b
  trans _ _ _ := Nat.le_trans
  below a b _ := by
    simp only [natCmp]
    omega
  above a b _ := by
    simp only [natCmp]
    omega

theorem reaches_correct_two :
    ∃ heap, insert natCmp init 2 () = some (heap, ()) ∧ heap.IsOrdered (fun a b => a ≤ b) ∧
      ∃ heap', insert natCmp heap 5 () = some (heap', ()) ∧ heap'.stored = 5 ::ₘ heap.stored := by
  obtain ⟨-, hinsert, -⟩ := reaches_correct (.init : Reaches natCmp init)
  obtain ⟨heap, s, hrun, -⟩ := hinsert 2 ()
  obtain ⟨horder, hinsert, -⟩ := reaches_correct (Reaches.insert .init hrun)
  obtain ⟨heap', s', hrun', hstored⟩ := hinsert 5 ()
  exact ⟨heap, hrun, horder _ natCmp_orders, heap', hrun', hstored⟩

/-- `foreach` over an `SplHeap`, for at most so many turns: the key is the number of the elements
that are left, and a heap that is corrupted throws. -/
def traverse (heapCmp : HeapCmp α σ) : Nat → SplPtrHeap α → σ →
    Option (List (Nat × α) × SplPtrHeap α × σ)
  | 0, _, _ => none
  | turns + 1, heap, s =>
    if heap.count = 0 ∨ heap.corrupted then some ([], heap, s)
    else do
      let current ← read heap.elements 0
      let (_, rest, s) ← deleteTop heapCmp heap s
      let (seen, rest, s) ← traverse heapCmp turns rest s
      return ((heap.count - 1, current) :: seen, rest, s)

end Runs

end SplPtrHeap

end PhpEngine

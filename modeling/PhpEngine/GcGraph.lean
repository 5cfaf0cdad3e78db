/-
The graph that the collector walks, and the ledger that every phase keeps: a
reference count is the number of edges whose source is counted, plus what is
owed to it from elsewhere.
-/
import PhpEngine.GcModel

namespace PhpEngine

open List Function

variable {s' : GcState} {x : Node} {l : List Node} {z : Nat}

/-! Loops over children. -/

theorem bucketLoop_append (visit : Nat → GcState → Option GcState)
    (l₁ l₂ : List Nat) (s : GcState) : bucketLoop visit (l₁ ++ l₂) s =
      (bucketLoop visit l₁ s).bind (bucketLoop visit l₂) := by
  induction l₁ generalizing s with
  | nil => rfl
  | cons z rest ih =>
    change (visit z s).bind _ = ((visit z s).bind _).bind _
    rw [Option.bind_assoc]
    exact congrArg _ (funext ih)

theorem tableLoop_eq (visit : Nat → GcState → Option GcState)
    (table : List (Option Nat)) (s : GcState) :
    tableLoop visit table s = bucketLoop visit (table.filterMap id) s := by
  induction table generalizing s with
  | nil => rfl
  | cons entry rest ih =>
    cases entry with
    | none =>
      rw [tableLoop, ih]
      rfl
    | some z =>
      exact congrArg _ (funext ih)

theorem filterMap_dropWhile_isNone (table : List (Option Nat)) :
    (table.dropWhile Option.isNone).filterMap id = table.filterMap id := by
  induction table with
  | nil => rfl
  | cons entry rest ih =>
    cases entry with
    | none => simpa using ih
    | some z => simp

theorem filterMap_trimNulls (table : List (Option Nat)) :
    (trimNulls table).filterMap id = table.filterMap id := by
  rw [trimNulls, filterMap_reverse, filterMap_dropWhile_isNone, filterMap_reverse, reverse_reverse]

def GetGc.children (gc : GetGc) : List Nat :=
  gc.table.filterMap id ++ gc.props.getD []

theorem GetGc.trimmed_children (gc : GetGc) : gc.trimmed.children = gc.children := by
  exact congrArg (· ++ gc.props.getD []) (filterMap_trimNulls gc.table)

theorem getGcLoop_eq (visit : Nat → GcState → Option GcState) (gc : GetGc) (s : GcState) :
    getGcLoop visit gc s = bucketLoop visit gc.children s := by
  rw [getGcLoop, GetGc.children, bucketLoop_append, tableLoop_eq]
  cases gc.props with
  | none | some props => rfl

/-! The graph. -/

namespace HeapData

/-- The zvals that an object's `get_gc` reports. -/
def children (heap : HeapData) (handle : Nat) : List Nat :=
  match heap.getGc handle with
  | none => []
  | some gc => gc.children

/-- The edges.  An array that holds the global symbol table has none: its
elements are owned by the symbol table. -/
def succ (heap : HeapData) : Node → List Node
  | .zval z =>
    match heap.kind z with
    | .array elements => elements.map .zval
    | .object handle => [.obj handle]
    | .symbolTable => []
    | .scalar => []
  | .obj handle => (heap.children handle).map .zval

/-- The reference counts of all nodes but the holders of the symbol table are
adjusted by the traversals. -/
def tracked (heap : HeapData) : Node → Bool
  | .zval z => !heap.isSymbolTable z
  | .obj _ => true

theorem succ_of_not_tracked (heap : HeapData) {n : Node}
    (h : heap.tracked n = false) : heap.succ n = [] := by
  cases n with
  | obj handle => simp [tracked] at h
  | zval z =>
    cases hkind : heap.kind z <;> simp [tracked, isSymbolTable, succ, hkind] at h ⊢

theorem ne_of_tracked {heap : HeapData} {m n : Node} (hn : heap.tracked n = true)
    (hm : heap.tracked m = false) : m ≠ n := by
  rintro rfl
  rw [hn] at hm
  cases hm

section Kinds

variable {heap : HeapData} {elements : List Nat} {handle : Nat}

theorem succ_scalar (h : heap.kind z = .scalar) : heap.succ (.zval z) = [] := by
  simp [succ, h]

theorem succ_array (h : heap.kind z = .array elements) :
    heap.succ (.zval z) = elements.map .zval := by
  simp [succ, h]

theorem succ_object (h : heap.kind z = .object handle) : heap.succ (.zval z) = [.obj handle] := by
  simp [succ, h]

end Kinds

end HeapData

/-- A heap: finitely many nodes that contain whatever they refer to. -/
structure Heap extends HeapData where
  nodes : Finset Node
  closed : ∀ n ∈ nodes, ∀ c ∈ toHeapData.succ n, c ∈ nodes

theorem Heap.elements_mem (heap : Heap) {elements : List Nat} (hn : .zval z ∈ heap.nodes)
    (h : heap.kind z = .array elements) : ∀ c ∈ elements, Node.zval c ∈ heap.nodes := fun c hc =>
  heap.closed _ hn _ (by simp [HeapData.succ_array h, hc])

theorem Heap.obj_mem (heap : Heap) {handle : Nat} (hn : .zval z ∈ heap.nodes)
    (h : heap.kind z = .object handle) : Node.obj handle ∈ heap.nodes :=
  heap.closed _ hn _ (by simp [HeapData.succ_object h])

theorem Heap.children_mem (heap : Heap) {handle : Nat} (hn : .obj handle ∈ heap.nodes) :
    ∀ c ∈ heap.children handle, Node.zval c ∈ heap.nodes := fun _ hc =>
  heap.closed _ hn _ (List.mem_map_of_mem hc)

/-- Black and purple nodes: their outgoing edges are part of the counts. -/
def counted (s : GcState) (n : Node) : Bool :=
  s.color n == .black || s.color n == .purple

/-- The count of `x`, with the increments that are still `due`, is the number
of edges into it from counted nodes plus the `owed` amount. -/
def BalancedAt (heap : Heap) (s : GcState) (owed due : Node → Nat) (x : Node) : Prop :=
  s.refcount x < uintMod ∧ (s.refcount x + due x) % uintMod =
    (edgesFrom heap.succ heap.nodes (counted s) x + owed x) % uintMod

/-- The ledger of the first two phases. -/
def Balanced (heap : Heap) (s : GcState) (owed due : Node → Nat) : Prop :=
  ∀ x, heap.tracked x = true → BalancedAt heap s owed due x

/-- Two debts are one. -/
theorem add_count_append (due : Node → Nat) (l l' : List Node) :
    (fun x => due x + (l ++ l').count x) = fun x => due x + l'.count x + l.count x := by
  funext x
  rw [count_append]
  omega

section Ledger

variable {heap : Heap} {s : GcState} {owed due : Node → Nat} {n : Node}

@[simp] theorem color_setColor_self (s : GcState) (n : Node) (c : Color) :
    (s.setColor n c).color n = c := by
  simp [GcState.setColor, GcState.color]

theorem color_setColor_of_ne (s : GcState) {n m : Node} (h : m ≠ n)
    (c : Color) : (s.setColor n c).color m = s.color m := by
  simp [GcState.setColor, GcState.color, h]

/-- Recolouring a node that was counted lowers the number of the nodes with such a colour. -/
theorem card_filter_setColor_lt {P : Color → Prop} [DecidablePred P] {c : Color}
    (hn : n ∈ heap.nodes) (hold : P (s.color n)) (hnew : ¬P c) :
    (heap.nodes.filter fun m => P ((s.setColor n c).color m)).card <
      (heap.nodes.filter fun m => P (s.color m)).card := by
  apply Finset.card_lt_card
  rw [Finset.ssubset_iff_of_subset]
  · exact ⟨n, Finset.mem_filter.mpr ⟨hn, hold⟩, by simp [hnew]⟩
  · intro m hm
    rw [Finset.mem_filter] at hm ⊢
    refine ⟨hm.1, ?_⟩
    by_cases hmn : m = n
    · rwa [hmn]
    · rw [← color_setColor_of_ne s hmn c]
      exact hm.2

theorem word_setColor_ptr (s : GcState) (n : Node) (c : Color) (m : Node) :
    ((s.setColor n c).word m).ptr = (s.word m).ptr := by
  by_cases h : m = n
  · subst h
    simp [GcState.setColor]
  · simp [GcState.setColor, h]

theorem counted_congr {m : Node} (h : s'.color m = s.color m) : counted s' m = counted s m := by
  rw [counted, counted, h]

theorem counted_setColor (s : GcState) (n : Node) (c : Color) :
    counted (s.setColor n c) = update (counted s) n (c == .black || c == .purple) := by
  funext m
  by_cases h : m = n
  · subst h
    simp [counted]
  · rw [update_of_ne h, counted, counted, color_setColor_of_ne s h]

theorem BalancedAt.congr (h : BalancedAt heap s owed due x)
    (hrefcount : s'.refcount x = s.refcount x)
    (hcolor : ∀ m ∈ heap.nodes, counted s' m = counted s m) : BalancedAt heap s' owed due x := by
  rw [BalancedAt, hrefcount, edgesFrom_congr hcolor]
  exact h

theorem Balanced.congr (h : Balanced heap s owed due)
    (hrefcount : s'.refcount = s.refcount) (hcolor : ∀ m ∈ heap.nodes, counted s' m = counted s m) :
    Balanced heap s' owed due :=
  fun x hx => (h x hx).congr (by rw [hrefcount]) hcolor

/-- Without debts a count is the sum itself, as long as that fits. -/
theorem Balanced.refcount_eq (h : Balanced heap s owed fun _ => 0) (hn : heap.tracked n = true)
    (hfit : edgesFrom heap.succ heap.nodes (counted s) n + owed n < uintMod) :
    s.refcount n = edgesFrom heap.succ heap.nodes (counted s) n + owed n := by
  obtain ⟨hlt, heq⟩ := h n hn
  rwa [add_zero, Nat.mod_eq_of_lt hlt, Nat.mod_eq_of_lt hfit] at heq

/-- A counted node stops to count: its edges become owed. -/
theorem Balanced.uncount (h : Balanced heap s owed due) (hn : n ∈ heap.nodes)
    (hcounted : counted s n = true) : Balanced heap (s.setColor n .grey)
      (fun x => owed x + (heap.succ n).count x) due := by
  intro x hx
  obtain ⟨hlt, heq⟩ := h x hx
  refine ⟨hlt, heq.trans ?_⟩
  rw [edgesFrom_clear hn hcounted, counted_setColor]
  change _ = (edgesFrom heap.succ heap.nodes (update (counted s) n false) x +
      (owed x + (heap.succ n).count x)) % uintMod
  congr 1
  omega

/-- A node that did not count starts to: its edges become due. -/
theorem BalancedAt.count (h : BalancedAt heap s owed due x)
    (hn : n ∈ heap.nodes) (hcounted : counted s n = false) {c : Color}
    (hc : c = .black ∨ c = .purple) : BalancedAt heap (s.setColor n c) owed
      (fun x => due x + (heap.succ n).count x) x := by
  obtain ⟨hlt, heq⟩ := h
  have hflag : (c == .black || c == .purple) = true := by
    rcases hc with rfl | rfl <;> rfl
  refine ⟨hlt, ?_⟩
  rw [counted_setColor, hflag]
  change (s.refcount x + (due x + (heap.succ n).count x)) % uintMod = _
  rw [edgesFrom_set hn hcounted]
  simp only [uintMod] at heq ⊢
  omega

theorem Balanced.count (h : Balanced heap s owed due) (hn : n ∈ heap.nodes)
    (hcounted : counted s n = false) : Balanced heap (s.setColor n .black) owed
      fun x => due x + (heap.succ n).count x :=
  fun x hx => (h x hx).count hn hcounted (Or.inl rfl)

theorem Balanced.delRef (h : Balanced heap s (fun x => owed x + (n :: l).count x) due) :
    Balanced heap (s.delRef n) (fun x => owed x + l.count x) due := by
  intro x hx
  obtain ⟨hlt, heq⟩ := h x hx
  change (s.delRef n).refcount x < uintMod ∧ ((s.delRef n).refcount x + due x) % uintMod =
      (edgesFrom heap.succ heap.nodes (counted s) x + (owed x + l.count x)) % uintMod
  by_cases hxn : x = n
  · subst hxn
    simp only [GcState.delRef, update_self, count_cons_self] at heq ⊢
    simp only [uintMod] at hlt heq ⊢
    omega
  · have hcount : (n :: l).count x = l.count x :=
      count_cons_of_ne fun heq => hxn heq.symm
    simp only [GcState.delRef, update_of_ne hxn]
    simp only [hcount] at heq
    exact ⟨hlt, heq⟩

theorem BalancedAt.addRef (h : BalancedAt heap s owed (fun x => due x + (n :: l).count x) x) :
    BalancedAt heap (s.addRef n) owed (fun x => due x + l.count x) x := by
  obtain ⟨hlt, heq⟩ := h
  change (s.addRef n).refcount x < uintMod ∧
    ((s.addRef n).refcount x + (due x + l.count x)) % uintMod =
      (edgesFrom heap.succ heap.nodes (counted s) x + owed x) % uintMod
  by_cases hxn : x = n
  · subst hxn
    simp only [GcState.addRef, update_self, count_cons_self] at heq ⊢
    simp only [uintMod] at hlt heq ⊢
    omega
  · have hcount : (n :: l).count x = l.count x :=
      count_cons_of_ne fun heq => hxn heq.symm
    simp only [GcState.addRef, update_of_ne hxn]
    simp only [hcount] at heq
    exact ⟨hlt, heq⟩

theorem BalancedAt.addRef_owed (h : BalancedAt heap s (fun x => owed x + l.count x) due x) :
    BalancedAt heap (s.addRef n) (fun x => owed x + (n :: l).count x) due x := by
  obtain ⟨hlt, heq⟩ := h
  change (s.addRef n).refcount x < uintMod ∧ ((s.addRef n).refcount x + due x) % uintMod =
      (edgesFrom heap.succ heap.nodes (counted s) x + (owed x + (n :: l).count x)) % uintMod
  by_cases hxn : x = n
  · subst hxn
    simp only [GcState.addRef, update_self, count_cons_self]
    simp only [uintMod] at hlt heq ⊢
    omega
  · have hcount : (n :: l).count x = l.count x :=
      count_cons_of_ne fun heq => hxn heq.symm
    simp only [GcState.addRef, update_of_ne hxn, hcount]
    exact ⟨hlt, heq⟩

theorem Balanced.addRef (h : Balanced heap s owed fun x => due x + (n :: l).count x) :
    Balanced heap (s.addRef n) owed fun x => due x + l.count x :=
  fun x hx => (h x hx).addRef

/-- The count of a zval that holds the symbol table is left alone, and the
ledger does not cover it. -/
theorem Balanced.zvalDelRef
    (h : Balanced heap s (fun x => owed x + (Node.zval z :: l).count x) due) :
    Balanced heap (zvalDelRef heap.toHeapData z s) (fun x => owed x + l.count x) due := by
  rw [PhpEngine.zvalDelRef]
  split
  next hsymbol =>
    intro x hx
    have hxz : x ≠ .zval z := by
      rintro rfl
      simp [HeapData.tracked, hsymbol] at hx
    have hcount : (Node.zval z :: l).count x = l.count x :=
      count_cons_of_ne fun heq => hxz heq.symm
    have hledger := h x hx
    simp only [BalancedAt, hcount] at hledger
    exact hledger
  next => exact h.delRef

theorem BalancedAt.zvalAddRef (hx : heap.tracked x = true)
    (h : BalancedAt heap s owed (fun x => due x + (Node.zval z :: l).count x) x) :
    BalancedAt heap (zvalAddRef heap.toHeapData z s) owed (fun x => due x + l.count x) x := by
  rw [PhpEngine.zvalAddRef]
  split
  next hsymbol =>
    have hxz : x ≠ .zval z := by
      rintro rfl
      simp [HeapData.tracked, hsymbol] at hx
    have hcount : (Node.zval z :: l).count x = l.count x :=
      count_cons_of_ne fun heq => hxz heq.symm
    simp only [BalancedAt, hcount] at h
    exact h
  next => exact h.addRef

theorem Balanced.zvalAddRef (h : Balanced heap s owed fun x => due x + (Node.zval z :: l).count x) :
    Balanced heap (zvalAddRef heap.toHeapData z s) owed fun x => due x + l.count x :=
  fun x hx => (h x hx).zvalAddRef hx

end Ledger

/-! Traversals. -/

/-- A loop whose turns keep `P` and have the effects `R`, which add up. -/
theorem bucketLoop_spec {visit : Nat → GcState → Option GcState} {P : GcState → Prop}
    {R : List Node → GcState → GcState → Prop} (hrefl : ∀ s, P s → R [] s s)
    (htrans : ∀ {n l s s' s''}, R [n] s s' → R l s' s'' → R (n :: l) s s'') {l : List Nat}
    (hvisit : ∀ c ∈ l, ∀ s, P s → ∃ s', visit c s = some s' ∧ R [.zval c] s s' ∧ P s')
    {s : GcState} (hpre : P s) : ∃ s', bucketLoop visit l s = some s' ∧ R (l.map .zval) s s' := by
  induction l generalizing s with
  | nil => exact ⟨s, rfl, hrefl s hpre⟩
  | cons c rest ih =>
    obtain ⟨s₁, hrun, hfirst, hpre₁⟩ := hvisit c mem_cons_self s hpre
    obtain ⟨s', hrest, hlater⟩ := ih (fun d hd => hvisit d (mem_cons_of_mem c hd)) hpre₁
    refine ⟨s', ?_, htrans hfirst hlater⟩
    rw [bucketLoop, hrun]
    exact hrest

/-- A traversal from `starts` that colours nodes with `P`: what has such a colour or is `Done`
stays so, and what takes one is reached over such nodes and has its successors done. -/
structure Spreads (heap : Heap) (P : Color → Prop) (Done : Node → Color → Prop)
    (starts : List Node) (s s' : GcState) : Prop where
  frame : s' = { s with refcount := s'.refcount, word := s'.word }
  ptr : ∀ n, (s'.word n).ptr = (s.word n).ptr
  untracked : ∀ n, heap.tracked n = false → s'.refcount n = s.refcount n
  keeps : ∀ n, P (s.color n) → P (s'.color n)
  stays : ∀ n, Done n (s.color n) → Done n (s'.color n)
  done : ∀ n ∈ starts, Done n (s'.color n)
  closed : ∀ n, ¬ P (s.color n) → P (s'.color n) → ∀ c ∈ heap.succ n, Done c (s'.color c)
  reach : ∀ n, ¬ P (s.color n) → P (s'.color n) →
    ∃ r ∈ starts, ReachVia heap.succ (fun m => P (s'.color m)) r n

namespace Spreads

variable {heap : Heap} {P : Color → Prop} {Done : Node → Color → Prop} {s s' s'' : GcState}
  {starts starts' : List Node} {n : Node} {c : Color}

theorem counts {refcount : Node → Nat}
    (h : ∀ n, heap.tracked n = false → refcount n = s.refcount n) :
    Spreads heap P Done [] s { s with refcount := refcount } where
  frame := rfl
  ptr _ := rfl
  untracked := h
  keeps _ hn := hn
  stays _ hn := hn
  done := by simp
  closed _ hn hn' := absurd hn' hn
  reach _ hn hn' := absurd hn' hn

theorem refl (heap : Heap) (s : GcState) : Spreads heap P Done [] s s :=
  counts fun _ _ => rfl

theorem of_done (hn : Done n (s.color n)) : Spreads heap P Done [n] s s :=
  { refl heap s with
    done := fun m hm => by rwa [mem_singleton.mp hm]
    reach := fun _ hm hm' => absurd hm' hm }

theorem delRef (s : GcState) (htracked : heap.tracked n = true) :
    Spreads heap P Done [] s (s.delRef n) :=
  counts fun _ hm => update_of_ne (HeapData.ne_of_tracked htracked hm) _ _

theorem addRef (s : GcState) (htracked : heap.tracked n = true) :
    Spreads heap P Done [] s (s.addRef n) :=
  counts fun _ hm => update_of_ne (HeapData.ne_of_tracked htracked hm) _ _

theorem zvalDelRef (s : GcState) (z : Nat) :
    Spreads heap P Done [] s (zvalDelRef heap.toHeapData z s) := by
  rw [PhpEngine.zvalDelRef]
  split
  next => exact refl heap s
  next hsymbol => exact delRef s (by simpa [HeapData.tracked] using hsymbol)

theorem zvalAddRef (s : GcState) (z : Nat) :
    Spreads heap P Done [] s (zvalAddRef heap.toHeapData z s) := by
  rw [PhpEngine.zvalAddRef]
  split
  next => exact refl heap s
  next hsymbol => exact addRef s (by simpa [HeapData.tracked] using hsymbol)

theorem trans (h : Spreads heap P Done starts s s') (h' : Spreads heap P Done starts' s' s'') :
    Spreads heap P Done (starts ++ starts') s s'' where
  frame := by rw [h'.frame, h.frame]
  ptr n := (h'.ptr n).trans (h.ptr n)
  untracked n hn := (h'.untracked n hn).trans (h.untracked n hn)
  keeps n hn := h'.keeps n (h.keeps n hn)
  stays n hn := h'.stays n (h.stays n hn)
  done n hn := by
    rcases mem_append.mp hn with hn | hn
    · exact h'.stays n (h.done n hn)
    · exact h'.done n hn
  closed n hn hn'' m hm := by
    by_cases hn' : P (s'.color n)
    · exact h'.stays m (h.closed n hn hn' m hm)
    · exact h'.closed n hn' hn'' m hm
  reach n hn hn'' := by
    by_cases hn' : P (s'.color n)
    · obtain ⟨r, hr, hpath⟩ := h.reach n hn hn'
      exact ⟨r, mem_append_left _ hr, hpath.mono h'.keeps⟩
    · obtain ⟨r, hr, hpath⟩ := h'.reach n hn' hn''
      exact ⟨r, mem_append_right _ hr, hpath⟩

/-- A node takes such a colour, and the traversal goes on from its successors. -/
theorem enter (hc : P c) (hdone : Done n c)
    (h : Spreads heap P Done (heap.succ n) (s.setColor n c) s') : Spreads heap P Done [n] s s' := by
  have hself : P (s'.color n) := h.keeps n (by rwa [color_setColor_self])
  have hdone' : Done n (s'.color n) := h.stays n (by rwa [color_setColor_self])
  have hother {m : Node} (hm : m ≠ n) : (s.setColor n c).color m = s.color m :=
    color_setColor_of_ne s hm c
  exact
    { frame := by rw [h.frame]; rfl
      ptr := fun m => (h.ptr m).trans (word_setColor_ptr s n c m)
      untracked := h.untracked
      keeps := fun m hm => by
        by_cases hmn : m = n
        · rwa [hmn]
        · exact h.keeps m (by rwa [hother hmn])
      stays := fun m hm => by
        by_cases hmn : m = n
        · rwa [hmn]
        · exact h.stays m (by rwa [hother hmn])
      done := fun m hm => by rwa [mem_singleton.mp hm]
      closed := fun m hm hm' => by
        by_cases hmn : m = n
        · rw [hmn]
          exact h.done
        · exact h.closed m (by rwa [hother hmn]) hm'
      reach := fun m hm hm' => by
        refine ⟨n, mem_singleton_self n, ?_⟩
        by_cases hmn : m = n
        · rw [hmn]
          exact Relation.ReflTransGen.refl
        · obtain ⟨r, hr, hpath⟩ := h.reach m (by rwa [hother hmn]) hm'
          exact hpath.head hself hr }

end Spreads

end PhpEngine

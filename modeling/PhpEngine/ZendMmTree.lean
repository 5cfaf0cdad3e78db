/-
The trees of large free blocks.  Inserting and removing a block keeps the sizes of
a subtree in its interval.  A search meets the blocks on the way that the bits of
the size lead, and of the subtrees next to it the roots.
-/
import PhpEngine.ZendMm

namespace PhpEngine.ZendMm

open DigitalTree List

variable {size : Addr → Nat} {k base : Nat} {b : Addr} {tree : FreeTree}

/-! The bits of a size. -/

/-- The bits of `m`, from the highest on, are the lower `k` bits of `n`. -/
def Spells (m : BitVec 64) (k n : Nat) : Prop :=
  ∀ i < k, m.getMsbD i = n.testBit (k - 1 - i)

theorem Spells.msb {m : BitVec 64} {n : Nat} (h : Spells m (k + 1) n) : m.msb = n.testBit k :=
  h 0 (Nat.succ_pos k)

theorem Spells.shift {m : BitVec 64} {n : Nat} (h : Spells m (k + 1) n) : Spells (m <<< 1) k n := by
  intro i hi
  rw [BitVec.getMsbD_shiftLeft, h (i + 1) (Nat.succ_lt_succ hi)]
  congr 1
  omega

/-- The start value of `m` in the loops. -/
theorem spells_start {n : Nat} (hn : n < sizeMod) (hpos : n ≠ 0) :
    Spells (BitVec.ofNat 64 n <<< (numBuckets - zendMmHighBit n)) (zendMmHighBit n) n := by
  intro i hi
  have hindex : zendMmHighBit n < 64 := (Nat.log2_lt hpos).mpr hn
  have hpos : i + (64 - zendMmHighBit n) < 64 := by omega
  rw [numBuckets, BitVec.getMsbD_shiftLeft, BitVec.getMsbD_eq_getLsbD,
    decide_eq_true hpos, Bool.true_and, BitVec.getLsbD_ofNat]
  have hlt : 64 - 1 - (i + (64 - zendMmHighBit n)) < 64 := by omega
  rw [decide_eq_true hlt, Bool.true_and]
  congr 1
  omega

theorem highBit_bounds {n : Nat} (hpos : n ≠ 0) :
    2 ^ zendMmHighBit n ≤ n ∧ n < 2 ^ zendMmHighBit n + 2 ^ zendMmHighBit n := by
  have hlt : n < 2 ^ (n.log2 + 1) := (Nat.log2_lt hpos).mp (Nat.lt_succ_self _)
  refine ⟨Nat.log2_self_le hpos, ?_⟩
  rw [zendMmHighBit]
  omega

/-! Insertion. -/

theorem treeInsert_perm (size : Addr → Nat) (b : Addr) (tree : FreeTree)
    (m : BitVec 64) : (treeInsert size b tree m).elems.Perm (b :: tree.elems) := by
  induction tree generalizing m with
  | nil => exact List.Perm.refl _
  | node prev ring child₀ child₁ ih₀ ih₁ =>
    rw [treeInsert]
    split
    · split
      · simp only [elems]
        refine ((((ih₁ (m <<< 1)).append_left child₀.elems).append_left (prev :: ring)).trans ?_)
        refine (perm_middle.append_left (prev :: ring)).trans ?_
        exact perm_middle
      · simp only [elems]
        refine ((((ih₀ (m <<< 1)).append_right child₁.elems).append_left (prev :: ring)).trans ?_)
        exact perm_middle
    · simp only [elems, cons_append]
      exact List.Perm.swap _ _ _

theorem treeInsert_covers (h : tree.Covers size k base) (hbase : 2 ^ k ∣ base)
    (hle : base ≤ size b) (hlt : size b < base + 2 ^ k) {m : BitVec 64}
    (hm : Spells m k (size b)) : (treeInsert size b tree m).Covers size k base := by
  induction tree generalizing k base m with
  | nil =>
    refine ⟨by simp, hle, hlt, ?_⟩
    cases k with
    | zero => exact ⟨rfl, rfl⟩
    | succ k => exact ⟨trivial, trivial⟩
  | node prev ring child₀ child₁ ih₀ ih₁ =>
    obtain ⟨hring, hple, hplt, hbelow⟩ := h
    rw [treeInsert]
    by_cases hsame : size prev = size b
    · rw [if_neg (not_not.mpr hsame)]
      refine ⟨?_, hple, hplt, hbelow⟩
      intro x hx
      rcases mem_cons.mp hx with rfl | hx
      · exact hsame.symm
      · exact hring x hx
    · rw [if_pos hsame]
      cases k with
      | zero =>
        -- A node without bits below it has the size it is reached with.
        omega
      | succ k =>
        have hhalf : 2 ^ k ∣ base :=
          (Nat.pow_dvd_pow 2 (Nat.le_succ k)).trans hbase
        have hbit := testBit_eq_decide hbase hle hlt
        rw [← hm.msb] at hbit
        by_cases hright : base + 2 ^ k ≤ size b
        · rw [hbit, decide_eq_true hright, if_pos rfl]
          refine ⟨hring, hple, hplt, hbelow.1, ?_⟩
          exact ih₁ hbelow.2 (Nat.dvd_add hhalf (dvd_refl _)) hright (by omega) hm.shift
        · rw [hbit, decide_eq_false hright, if_neg (by simp)]
          refine ⟨hring, hple, hplt, ?_, hbelow.2⟩
          exact ih₀ hbelow.1 hhalf hle (by omega) hm.shift

/-! Removal. -/

theorem takeLeaf_eq_none_iff : takeLeaf tree = none ↔ tree = .nil := by
  cases tree with
  | nil => simp [takeLeaf]
  | node b ring child₀ child₁ =>
    simp only [takeLeaf, reduceCtorEq, iff_false]
    split
    · simp
    · split <;> simp

/-- The blocks of a node are those of its root and of its children. -/
theorem count_elems_node (x head : Addr) (ring : List Addr) (child₀ child₁ : FreeTree) :
    (node head ring child₀ child₁).elems.count x =
      (head :: ring).count x + (child₀.elems.count x + child₁.elems.count x) := by
  rw [elems, count_append, count_append]

theorem takeLeaf_perm {leaf : Addr} {others : List Addr} {rest : FreeTree}
    (h : takeLeaf tree = some ((leaf, others), rest)) :
    tree.elems.Perm (leaf :: others ++ rest.elems) := by
  induction tree generalizing rest with
  | nil => simp [takeLeaf] at h
  | node b ring child₀ child₁ ih₀ ih₁ =>
    rw [takeLeaf] at h
    split at h
    · next leaf₁ rest₁ h₁ =>
        cases h
        rw [perm_iff_count]
        intro x
        have hcount := (ih₁ h₁).count_eq x
        rw [count_append] at hcount ⊢
        rw [count_elems_node, count_elems_node]
        omega
    · next h₁ =>
        split at h
        · next leaf₀ rest₀ h₀ =>
            cases h
            rw [perm_iff_count]
            intro x
            have hcount := (ih₀ h₀).count_eq x
            rw [count_append] at hcount ⊢
            rw [count_elems_node, count_elems_node]
            omega
        · next h₀ =>
            cases h
            rw [takeLeaf_eq_none_iff] at h₀ h₁
            simp [h₀, h₁, elems]

/-- The leaf is in the interval of its tree, and so is what it leaves. -/
theorem takeLeaf_covers {leaf : Addr} {others : List Addr} {rest : FreeTree}
    (h : tree.Covers size k base) (hleaf : takeLeaf tree = some ((leaf, others), rest)) :
    rest.Covers size k base ∧ (∀ x ∈ others, size x = size leaf) ∧
      base ≤ size leaf ∧ size leaf < base + 2 ^ k := by
  induction tree generalizing k base rest with
  | nil => simp [takeLeaf] at hleaf
  | node b ring child₀ child₁ ih₀ ih₁ =>
    obtain ⟨hring, hle, hlt, hbelow⟩ := h
    rw [takeLeaf] at hleaf
    split at hleaf
    · next leaf₁ rest₁ h₁ =>
        cases hleaf
        cases k with
        | zero =>
          rw [hbelow.2] at h₁
          simp [takeLeaf] at h₁
        | succ k =>
          obtain ⟨hrest, hsame, hle₁, hlt₁⟩ := ih₁ hbelow.2 h₁
          refine ⟨⟨hring, hle, by rwa [pow_succ], hbelow.1, hrest⟩, hsame, ?_, ?_⟩
          · omega
          · omega
    · next h₁ =>
        split at hleaf
        · next leaf₀ rest₀ h₀ =>
            cases hleaf
            cases k with
            | zero =>
              rw [hbelow.1] at h₀
              simp [takeLeaf] at h₀
            | succ k =>
              obtain ⟨hrest, hsame, hle₀, hlt₀⟩ := ih₀ hbelow.1 h₀
              refine ⟨⟨hring, hle, by rwa [pow_succ], hrest, hbelow.2⟩, hsame, hle₀, ?_⟩
              omega
        · next h₀ =>
            cases hleaf
            exact ⟨trivial, hring, hle, hlt⟩

theorem substLeaf_perm (child₀ child₁ : FreeTree) :
    (substLeaf child₀ child₁).elems.Perm (child₀.elems ++ child₁.elems) := by
  rw [substLeaf]
  split
  · next leaf ring rest h₁ =>
      rw [perm_iff_count]
      intro x
      have hcount := (takeLeaf_perm h₁).count_eq x
      rw [count_append] at hcount ⊢
      rw [count_elems_node]
      omega
  · next h₁ =>
      rw [takeLeaf_eq_none_iff] at h₁
      split
      · next leaf ring rest h₀ =>
          rw [perm_iff_count]
          intro x
          have hcount := (takeLeaf_perm h₀).count_eq x
          rw [count_append] at hcount ⊢
          rw [count_elems_node]
          omega
      · next h₀ =>
          rw [takeLeaf_eq_none_iff] at h₀
          simp [h₀, h₁]

theorem substLeaf_covers {head : Addr} {ring : List Addr} {child₀ child₁ : FreeTree}
    (h : (node head ring child₀ child₁).Covers size k base) :
    (substLeaf child₀ child₁).Covers size k base := by
  obtain ⟨-, -, -, hbelow⟩ := h
  rw [substLeaf]
  split
  · next leaf ring' rest h₁ =>
      cases k with
      | zero =>
        rw [hbelow.2] at h₁
        simp [takeLeaf] at h₁
      | succ k =>
        obtain ⟨hrest, hsame, hle, hlt⟩ := takeLeaf_covers hbelow.2 h₁
        refine ⟨hsame, ?_, ?_, hbelow.1, hrest⟩
        · omega
        · rw [pow_succ]
          omega
  · next h₁ =>
      split
      · next leaf ring' rest h₀ =>
          cases k with
          | zero =>
            rw [hbelow.1] at h₀
            simp [takeLeaf] at h₀
          | succ k =>
            obtain ⟨hrest, hsame, hle, hlt⟩ := takeLeaf_covers hbelow.1 h₀
            refine ⟨hsame, hle, ?_, hrest, hbelow.2⟩
            omega
      · trivial

theorem treeRemove_of_not_mem (h : b ∉ tree.elems) : treeRemove b tree = tree := by
  induction tree with
  | nil => rfl
  | node head ring child₀ child₁ ih₀ ih₁ =>
    simp only [mem_elems_node, not_or] at h
    rw [treeRemove, if_neg (Ne.symm h.1), if_neg h.2.1, ih₀ h.2.2.1, ih₁ h.2.2.2]

theorem treeRemove_perm (hnodup : tree.elems.Nodup) (hb : b ∈ tree.elems) :
    tree.elems.Perm (b :: (treeRemove b tree).elems) := by
  induction tree with
  | nil => simp at hb
  | node head ring child₀ child₁ ih₀ ih₁ =>
    have hparts := hnodup
    rw [elems, nodup_append, nodup_append] at hparts
    rw [treeRemove]
    by_cases hhead : head = b
    · subst hhead
      rw [if_pos rfl]
      cases hlast : ring.getLast? with
      | none =>
        rw [getLast?_eq_none_iff] at hlast
        subst hlast
        exact (substLeaf_perm child₀ child₁).symm.cons head
      | some prev =>
        obtain ⟨l, rfl⟩ := getLast?_eq_some_iff.mp hlast
        rw [dropLast_concat, perm_iff_count]
        intro x
        rw [count_cons, count_elems_node, count_elems_node, count_cons,
          count_cons, count_append, count_singleton]
        omega
    · rw [if_neg hhead]
      by_cases hmem : b ∈ ring
      · rw [if_pos hmem, perm_iff_count]
        intro x
        have hcount := (perm_cons_erase hmem).count_eq x
        rw [count_cons] at hcount
        rw [count_cons, count_elems_node, count_elems_node, count_cons, count_cons, hcount]
        omega
      · rw [if_neg hmem]
        have hbelow : b ∈ child₀.elems ∨ b ∈ child₁.elems := by
          rcases mem_elems_node.mp hb with heq | hr | hc | hc
          · exact absurd heq.symm hhead
          · exact absurd hr hmem
          · exact .inl hc
          · exact .inr hc
        rw [perm_iff_count]
        intro x
        rw [count_cons, count_elems_node, count_elems_node]
        rcases hbelow with h₀ | h₁
        · have hnot : b ∉ child₁.elems := fun h₁ => hparts.2.1.2.2 b h₀ b h₁ rfl
          have hcount := (ih₀ hparts.2.1.1 h₀).count_eq x
          rw [count_cons] at hcount
          rw [treeRemove_of_not_mem hnot]
          omega
        · have hnot : b ∉ child₀.elems := fun h₀ => hparts.2.1.2.2 b h₀ b h₁ rfl
          have hcount := (ih₁ hparts.2.1.2.1 h₁).count_eq x
          rw [count_cons] at hcount
          rw [treeRemove_of_not_mem hnot]
          omega

theorem treeRemove_covers (h : tree.Covers size k base) :
    (treeRemove b tree).Covers size k base := by
  induction tree generalizing k base with
  | nil => trivial
  | node head ring child₀ child₁ ih₀ ih₁ =>
    have hcovers := h
    obtain ⟨hring, hle, hlt, hbelow⟩ := h
    rw [treeRemove]
    split
    · split
      · exact substLeaf_covers hcovers
      · next prev hlast =>
          obtain ⟨l, rfl⟩ := getLast?_eq_some_iff.mp hlast
          have hprev : size prev = size head := hring prev (by simp)
          apply hcovers.setRoot
          · intro x hx
            rw [hprev]
            exact hring x (by simp at hx; simp [hx])
          · rwa [hprev]
          · rwa [hprev]
    · split
      · exact hcovers.setRoot (fun x hx => hring x (mem_of_mem_erase hx)) hle hlt
      · cases k with
        | zero =>
          refine ⟨hring, hle, hlt, ?_⟩
          rw [hbelow.1, hbelow.2]
          exact ⟨rfl, rfl⟩
        | succ k => exact ⟨hring, hle, hlt, ih₀ hbelow.1, ih₁ hbelow.2⟩

/-! Where a search comes by. -/

/-- The block is at the root of the tree. -/
def AtRoot : FreeTree → Addr → Prop
  | .nil, _ => False
  | .node p ring _ _, x => x = p ∨ x ∈ ring

/-- The block is on the way that the lower `k` bits of `n` lead down the tree, or
at a right child next to that way. -/
def Reached (n : Nat) : FreeTree → Nat → Addr → Prop
  | .nil, _, _ => False
  | .node p ring child₀ child₁, k, x =>
    x = p ∨ x ∈ ring ∨ match k with
      | 0 => False
      | k + 1 =>
        if n.testBit k then Reached n child₁ k x
        else AtRoot child₁ x ∨ Reached n child₀ k x

theorem AtRoot.mem {x : Addr} (h : AtRoot tree x) : x ∈ tree.elems := by
  cases tree with
  | nil => exact h.elim
  | node p ring child₀ child₁ =>
    rw [mem_elems_node]
    rcases h with h | h
    · exact .inl h
    · exact .inr (.inl h)

theorem Reached.mem {n : Nat} {x : Addr} (h : Reached n tree k x) : x ∈ tree.elems := by
  induction tree generalizing k with
  | nil => exact h.elim
  | node p ring child₀ child₁ ih₀ ih₁ =>
    rw [mem_elems_node]
    rcases h with h | h | h
    · exact .inl h
    · exact .inr (.inl h)
    · cases k with
      | zero => exact h.elim
      | succ k =>
        simp only at h
        split at h
        · exact .inr (.inr (.inr (ih₁ h)))
        · rcases h with h | h
          · exact .inr (.inr (.inr h.mem))
          · exact .inr (.inr (.inl (ih₀ h)))

theorem nextFreeBlock_eq_or_mem (p : Addr) (ring : List Addr) :
    nextFreeBlock p ring = p ∨ nextFreeBlock p ring ∈ ring := by
  cases ring with
  | nil => exact .inl rfl
  | cons b ring => exact .inr (by simp [nextFreeBlock])

/-- The block that a search finds at a node has the size of the node. -/
theorem size_nextFreeBlock {p : Addr} {ring : List Addr}
    (hring : ∀ x ∈ ring, size x = size p) : size (nextFreeBlock p ring) = size p := by
  rcases nextFreeBlock_eq_or_mem p ring with heq | hmem
  · rw [heq]
  · exact hring _ hmem

/-- The block of a best fit is in the tree. -/
def Fits (size : Addr → Nat) (best : BestFit) (x : Addr) : Prop :=
  best.block = some x ∧ best.size = size x

/-- The walk down the tree finds a block that is no greater than the root.  If it
is not at the root then there is a smaller one. -/
theorem searchSmallest_spec (h : tree.Covers size k base) (best : BestFit) :
    (searchSmallest size tree best).size ≤ best.size ∧
      (∀ x, AtRoot tree x → (searchSmallest size tree best).size ≤ size x) ∧
      (searchSmallest size tree best = best ∨
        ∃ x ∈ tree.elems, Fits size (searchSmallest size tree best) x ∧
          (AtRoot tree x ∨ ∃ y ∈ tree.elems, size y < size x)) := by
  induction tree generalizing k base best with
  | nil => exact ⟨le_rfl, fun _ hx => hx.elim, .inl rfl⟩
  | node p ring child₀ child₁ ih₀ ih₁ =>
    have hcovers := h
    obtain ⟨hring, -, -, hbelow⟩ := h
    -- The root has been compared with the best fit before the walk goes on.
    obtain ⟨best₁, hbest₁, hle, hroot, hfrom⟩ : ∃ best₁ : BestFit,
        (if size p < best.size then ⟨size p, some (nextFreeBlock p ring)⟩
          else best) = best₁ ∧ best₁.size ≤ best.size ∧ best₁.size ≤ size p ∧
        (best₁ = best ∨ Fits size best₁ (nextFreeBlock p ring)) := by
      refine ⟨_, rfl, ?_⟩
      split
      · next hlt =>
          exact ⟨le_of_lt hlt, le_rfl, .inr ⟨rfl, (size_nextFreeBlock hring).symm⟩⟩
      · next hge => exact ⟨le_rfl, Nat.le_of_not_lt hge, .inl rfl⟩
    have hatRoot : ∀ x, AtRoot (.node p ring child₀ child₁) x → size x = size p := by
      rintro x (rfl | hx)
      · rfl
      · exact hring x hx
    have hnext := nextFreeBlock_eq_or_mem p ring
    have hnextRoot : AtRoot (.node p ring child₀ child₁) (nextFreeBlock p ring) := hnext
    have hfrom₁ : best₁ = best ∨ ∃ x ∈ (node p ring child₀ child₁).elems,
        Fits size best₁ x ∧ (AtRoot (.node p ring child₀ child₁) x ∨
          ∃ y ∈ (node p ring child₀ child₁).elems, size y < size x) := by
      rcases hfrom with heq | hfits
      · exact .inl heq
      · exact .inr ⟨_, hnextRoot.mem, hfits, .inl hnextRoot⟩
    simp only [searchSmallest, hbest₁]
    by_cases hnil : child₀ = .nil
    · rw [if_pos hnil]
      exact ⟨hle, fun x hx => by rw [hatRoot x hx]; exact hroot, hfrom₁⟩
    · rw [if_neg hnil]
      obtain ⟨y, hy⟩ := exists_mem_of_ne_nil _ (mt elems_eq_nil_iff.mp hnil)
      cases k with
      | zero => exact absurd hbelow.1 hnil
      | succ k =>
        obtain ⟨hle₁, -, hfrom'⟩ := ih₁ hbelow.2 best₁
        refine ⟨le_trans hle₁ hle, ?_, ?_⟩
        · intro x hx
          rw [hatRoot x hx]
          exact le_trans hle₁ hroot
        · rcases hfrom' with heq | ⟨x, hx, hfits, -⟩
          · rw [heq]
            exact hfrom₁
          · refine .inr ⟨x, mem_elems_node.mpr (.inr (.inr (.inr hx))), hfits,
              .inr ⟨y, mem_elems_node.mpr (.inr (.inr (.inl hy))), ?_⟩⟩
            exact hcovers.left_lt_right hy hx

/-- What the first loop of a search leaves.  Either no right child was passed by
and the best fit is no greater than any block that is large enough, or the last
such child has only larger blocks, and smaller ones than those before it. -/
structure Descent (size : Addr → Nat) (n : Nat) (tree : FreeTree) (k : Nat)
    (best : BestFit) (rst : FreeTree) (best' : BestFit) (rst' : FreeTree) : Prop where
  le : best'.size ≤ best.size
  fits : best' = best ∨ ∃ x ∈ tree.elems, Reached n tree k x ∧ n < size x ∧ Fits size best' x
  rest : rst' = rst ∧ (∀ x ∈ tree.elems, n ≤ size x → best'.size ≤ size x) ∨
    rst' ≠ .nil ∧ (∃ j base, rst'.Covers size j base) ∧
      (∀ x ∈ rst'.elems, x ∈ tree.elems ∧ n < size x) ∧
      (∀ x, AtRoot rst' x → Reached n tree k x) ∧
      (∀ x ∈ tree.elems, n ≤ size x → best'.size ≤ size x ∨ x ∈ rst'.elems ∨
        ∃ y ∈ rst'.elems, size y < size x) ∧
      (∀ x, Reached n tree k x → n ≤ size x → best'.size ≤ size x ∨ AtRoot rst' x ∨
        ∃ y ∈ rst'.elems, size y < size x)

/-- The best fit after a node has been compared with it. -/
structure Compared (size : Addr → Nat) (n : Nat) (p : Addr) (ring : List Addr)
    (best best₁ : BestFit) : Prop where
  le : best₁.size ≤ best.size
  root : n ≤ size p → best₁.size ≤ size p
  fits : best₁ = best ∨ n < size p ∧ Fits size best₁ (nextFreeBlock p ring)

section Descent

variable {n : Nat} {p : Addr} {ring : List Addr} {child₀ child₁ rst rst' : FreeTree}
  {best best₁ best' : BestFit}

theorem compared (hring : ∀ x ∈ ring, size x = size p) (hne : size p ≠ n) (best : BestFit) :
    Compared size n p ring best (if size p ≥ n ∧ size p < best.size then
      ⟨size p, some (nextFreeBlock p ring)⟩ else best) := by
  split
  · next hcond =>
      exact ⟨le_of_lt hcond.2, fun _ => le_rfl,
        .inr ⟨Nat.lt_of_le_of_ne hcond.1 (Ne.symm hne), rfl, (size_nextFreeBlock hring).symm⟩⟩
  · next hcond =>
      exact ⟨le_rfl, fun hge => Nat.le_of_not_lt fun hlt => hcond ⟨hge, hlt⟩, .inl rfl⟩

theorem reached_nextFreeBlock :
    Reached n (.node p ring child₀ child₁) k (nextFreeBlock p ring) := by
  rcases nextFreeBlock_eq_or_mem p ring with h | h
  · exact .inl h
  · exact .inr (.inl h)

section

variable (hc : Compared size n p ring best best₁)
include hc

/-- The best fit of the node and of the child that the way leads to. -/
theorem Compared.fits_below {child : FreeTree} (hfits : best' = best₁ ∨
      ∃ x ∈ child.elems, Reached n child k x ∧ n < size x ∧ Fits size best' x)
    (hring : ∀ x ∈ ring, size x = size p)
    (hmem : ∀ x ∈ child.elems, x ∈ (node p ring child₀ child₁).elems)
    (hreached : ∀ x, Reached n child k x → Reached n (.node p ring child₀ child₁) (k + 1) x) :
    best' = best ∨ ∃ x ∈ (node p ring child₀ child₁).elems,
      Reached n (.node p ring child₀ child₁) (k + 1) x ∧ n < size x ∧ Fits size best' x := by
  rcases hfits with heq | ⟨x, hx, hrx, hnx, hfx⟩
  · rw [heq]
    rcases hc.fits with heq₁ | ⟨hnp, hfp⟩
    · exact .inl heq₁
    · have hr : Reached n (.node p ring child₀ child₁) (k + 1) (nextFreeBlock p ring) :=
        reached_nextFreeBlock
      exact .inr ⟨_, hr.mem, hr, by rwa [size_nextFreeBlock hring], hfp⟩
  · exact .inr ⟨x, hmem x hx, hreached x hrx, hnx, hfx⟩

/-- The blocks of the node itself are no smaller than the best fit. -/
theorem Compared.le_of_root (hring : ∀ x ∈ ring, size x = size p) (hle : best'.size ≤ best₁.size)
    {x : Addr} (hx : x = p ∨ x ∈ ring) (hnx : n ≤ size x) : best'.size ≤ size x := by
  have hsize : size x = size p := by
    rcases hx with rfl | hx
    · rfl
    · exact hring x hx
  rw [hsize] at hnx ⊢
  exact le_trans hle (hc.root hnx)

theorem Descent.goRight (hring : ∀ x ∈ ring, size x = size p) (hbit : n.testBit k = true)
    (hleft : ∀ x ∈ child₀.elems, size x < n) (hd : Descent size n child₁ k best₁ rst best' rst') :
    Descent size n (.node p ring child₀ child₁) (k + 1) best rst best' rst' := by
  have hmem : ∀ x ∈ child₁.elems, x ∈ (node p ring child₀ child₁).elems := fun x hx =>
    mem_elems_node.mpr (.inr (.inr (.inr hx)))
  have hreached : ∀ x, Reached n child₁ k x → Reached n (.node p ring child₀ child₁) (k + 1) x := by
    intro x hx
    refine .inr (.inr ?_)
    simp only [hbit, if_true]
    exact hx
  have hcases : ∀ x ∈ (node p ring child₀ child₁).elems, n ≤ size x →
      best'.size ≤ size x ∨ x ∈ child₁.elems := by
    intro x hx hnx
    rcases mem_elems_node.mp hx with hx | hx | hx | hx
    · exact .inl (hc.le_of_root hring hd.le (.inl hx) hnx)
    · exact .inl (hc.le_of_root hring hd.le (.inr hx) hnx)
    · exact absurd (hleft x hx) (Nat.not_lt.mpr hnx)
    · exact .inr hx
  refine ⟨le_trans hd.le hc.le, hc.fits_below hd.fits hring hmem hreached, ?_⟩
  rcases hd.rest with ⟨heq, hall⟩ | ⟨hne, hcov, hin, hroot, hall, hreach⟩
  · refine .inl ⟨heq, ?_⟩
    intro x hx hnx
    rcases hcases x hx hnx with h | h
    · exact h
    · exact hall x h hnx
  · refine .inr ⟨hne, hcov, fun x hx => ⟨hmem x (hin x hx).1, (hin x hx).2⟩,
      fun x hx => hreached x (hroot x hx), ?_, ?_⟩
    · intro x hx hnx
      rcases hcases x hx hnx with h | h
      · exact .inl h
      · exact hall x h hnx
    · intro x hx hnx
      rcases hx with hx | hx | hx
      · exact .inl (hc.le_of_root hring hd.le (.inl hx) hnx)
      · exact .inl (hc.le_of_root hring hd.le (.inr hx) hnx)
      · simp only [hbit, if_true] at hx
        exact hreach x hx hnx

theorem Descent.goLeft (hring : ∀ x ∈ ring, size x = size p) (hbit : n.testBit k = false)
    (hright : ∀ x ∈ child₁.elems, n < size x)
    (hordered : ∀ x ∈ child₀.elems, ∀ y ∈ child₁.elems, size x < size y)
    (hcovers : ∃ j base, child₁.Covers size j base)
    (hd : Descent size n child₀ k best₁ (if child₁ = .nil then rst else child₁) best' rst') :
    Descent size n (.node p ring child₀ child₁) (k + 1) best rst best' rst' := by
  have hmem : ∀ x ∈ child₀.elems, x ∈ (node p ring child₀ child₁).elems := fun x hx =>
    mem_elems_node.mpr (.inr (.inr (.inl hx)))
  have hreached : ∀ x, AtRoot child₁ x ∨ Reached n child₀ k x →
      Reached n (.node p ring child₀ child₁) (k + 1) x := by
    intro x hx
    refine .inr (.inr ?_)
    simp only [hbit]
    exact hx
  have hcases : ∀ x ∈ (node p ring child₀ child₁).elems, n ≤ size x →
      best'.size ≤ size x ∨ x ∈ child₀.elems ∨ x ∈ child₁.elems := by
    intro x hx hnx
    rcases mem_elems_node.mp hx with hx | hx | hx | hx
    · exact .inl (hc.le_of_root hring hd.le (.inl hx) hnx)
    · exact .inl (hc.le_of_root hring hd.le (.inr hx) hnx)
    · exact .inr (.inl hx)
    · exact .inr (.inr hx)
  have hreachCases : ∀ x, Reached n (.node p ring child₀ child₁) (k + 1) x →
      n ≤ size x → best'.size ≤ size x ∨ AtRoot child₁ x ∨ Reached n child₀ k x := by
    intro x hx hnx
    rcases hx with hx | hx | hx
    · exact .inl (hc.le_of_root hring hd.le (.inl hx) hnx)
    · exact .inl (hc.le_of_root hring hd.le (.inr hx) hnx)
    · simp only [hbit] at hx
      exact .inr hx
  refine ⟨le_trans hd.le hc.le,
    hc.fits_below hd.fits hring hmem fun x hx => hreached x (.inr hx), ?_⟩
  rcases hd.rest with ⟨heq, hall⟩ | ⟨hne, hcov, hin, hroot, hall, hreach⟩
  · by_cases hnil : child₁ = .nil
    · rw [if_pos hnil] at heq
      refine .inl ⟨heq, ?_⟩
      intro x hx hnx
      rcases hcases x hx hnx with h | h | h
      · exact h
      · exact hall x h hnx
      · simp [hnil] at h
    · -- The right child of this node is the last one that was passed by.
      rw [if_neg hnil] at heq
      subst heq
      refine .inr ⟨hnil, hcovers, fun x hx =>
        ⟨mem_elems_node.mpr (.inr (.inr (.inr hx))), hright x hx⟩,
        fun x hx => hreached x (.inl hx), ?_, ?_⟩
      · intro x hx hnx
        rcases hcases x hx hnx with h | h | h
        · exact .inl h
        · exact .inl (hall x h hnx)
        · exact .inr (.inl h)
      · intro x hx hnx
        rcases hreachCases x hx hnx with h | h | h
        · exact .inl h
        · exact .inr (.inl h)
        · exact .inl (hall x h.mem hnx)
  · -- The blocks further down are smaller than those of the right child.
    obtain ⟨y, hy⟩ := exists_mem_of_ne_nil _ (mt elems_eq_nil_iff.mp hne)
    have hsmaller : ∀ x ∈ child₁.elems, ∃ y ∈ rst'.elems, size y < size x :=
      fun x hx => ⟨y, hy, hordered y (hin y hy).1 x hx⟩
    refine .inr ⟨hne, hcov, fun x hx => ⟨hmem x (hin x hx).1, (hin x hx).2⟩,
      fun x hx => hreached x (.inr (hroot x hx)), ?_, ?_⟩
    · intro x hx hnx
      rcases hcases x hx hnx with h | h | h
      · exact .inl h
      · exact hall x h hnx
      · exact .inr (.inr (hsmaller x h))
    · intro x hx hnx
      rcases hreachCases x hx hnx with h | h | h
      · exact .inl h
      · exact .inr (.inr (hsmaller x h.mem))
      · exact hreach x h hnx

end

end Descent

theorem searchDown_spec {n : Nat} (h : tree.Covers size k base) (hbase : 2 ^ k ∣ base)
    (hle : base ≤ n) (hlt : n < base + 2 ^ k) {m : BitVec 64} (hm : Spells m k n)
    (best : BestFit) (rst : FreeTree) :
    (∃ b, searchDown size n tree m best rst = .error b ∧ Reached n tree k b ∧ size b = n) ∨
      ∃ best' rst', searchDown size n tree m best rst = .ok (best', rst') ∧
        Descent size n tree k best rst best' rst' := by
  induction tree generalizing k base m best rst with
  | nil =>
    exact .inr ⟨best, rst, rfl, le_rfl, .inl rfl, .inl ⟨rfl, by simp⟩⟩
  | node p ring child₀ child₁ ih₀ ih₁ =>
    have hcovers := h
    obtain ⟨hring, hple, hplt, hbelow⟩ := h
    rw [searchDown]
    by_cases hexact : size p = n
    · rw [if_pos hexact]
      exact .inl ⟨_, rfl, reached_nextFreeBlock, by rw [size_nextFreeBlock hring, hexact]⟩
    rw [if_neg hexact]
    cases k with
    | zero =>
      omega
    | succ k =>
      have hhalf : 2 ^ k ∣ base := (Nat.pow_dvd_pow 2 (Nat.le_succ k)).trans hbase
      have hbit := testBit_eq_decide hbase hle hlt
      have hc := compared hring hexact best
      have hleft : ∀ x ∈ child₀.elems, size x < base + 2 ^ k := fun x hx =>
        (hbelow.1.bounds hx).2
      have hright : ∀ x ∈ child₁.elems, base + 2 ^ k ≤ size x := fun x hx =>
        (hbelow.2.bounds hx).1
      by_cases hhigh : base + 2 ^ k ≤ n
      · rw [decide_eq_true hhigh] at hbit
        simp only [hm.msb, hbit, if_true]
        rcases ih₁ hbelow.2 (Nat.dvd_add hhalf (dvd_refl _)) hhigh (by omega)
            hm.shift _ rst with ⟨b, hrun, hreached, hsize⟩ | ⟨best', rst', hrun, hd⟩
        · refine .inl ⟨b, hrun, .inr (.inr ?_), hsize⟩
          simp only [hbit, if_true]
          exact hreached
        · exact .inr ⟨best', rst', hrun, hd.goRight hc hring hbit
            fun x hx => lt_of_lt_of_le (hleft x hx) hhigh⟩
      · rw [decide_eq_false hhigh] at hbit
        simp only [hm.msb, hbit, Bool.false_eq_true, if_false]
        rcases ih₀ hbelow.1 hhalf hle (by omega) hm.shift _
            (if child₁ = .nil then rst else child₁) with
          ⟨b, hrun, hreached, hsize⟩ | ⟨best', rst', hrun, hd⟩
        · refine .inl ⟨b, hrun, .inr (.inr ?_), hsize⟩
          simp only [hbit]
          exact .inr hreached
        · exact .inr ⟨best', rst', hrun, hd.goLeft hc hring hbit
            (fun x hx => lt_of_lt_of_le (by omega) (hright x hx))
            (fun x hx y hy => hcovers.left_lt_right hx hy) ⟨k, _, hbelow.2⟩⟩

/-- Where every block is larger, the second loop of the search is the last one. -/
theorem searchRst_eq {n : Nat} (habove : ∀ x ∈ tree.elems, n < size x) (best : BestFit) :
    searchRst size n tree best = .ok (searchSmallest size tree best) := by
  induction tree generalizing best with
  | nil => rfl
  | node p ring child₀ child₁ ih₀ ih₁ =>
    have hp : n < size p := habove p (mem_elems_node.mpr (.inl rfl))
    rw [searchRst, searchSmallest, if_neg (ne_of_gt hp)]
    have hcond : (size p > n ∧ size p < best.size) = (size p < best.size) := by
      simp [hp]
    simp only [hcond]
    split
    · rfl
    · exact ih₁ (fun x hx => habove x (mem_elems_node.mpr (.inr (.inr (.inr hx))))) _

end PhpEngine.ZendMm

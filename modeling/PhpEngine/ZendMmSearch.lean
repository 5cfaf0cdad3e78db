/-
The search for a large free block.  It finds one if there is any, but where a
subtree is to be searched for its least block it turns to the right child when
there is a left one, so that of the subtree only the root is reliably considered.
-/
import PhpEngine.ZendMmTree

namespace PhpEngine.ZendMm

open DigitalTree List Function Option

/-- The block is in one of the trees. -/
def Heap.InLarge (heap : Heap) (b : Addr) : Prop :=
  ∃ i, b ∈ (heap.largeFreeBuckets i).elems

/-- The trees hold blocks of their intervals, and the bitmap says which of them
there are. -/
structure LargeTrees (heap : Heap) : Prop where
  covers : ∀ i, (heap.largeFreeBuckets i).Covers heap.sizeOf i (2 ^ i)
  nodup : ∀ i, (heap.largeFreeBuckets i).elems.Nodup
  sizes : ∀ i, ∀ b ∈ (heap.largeFreeBuckets i).elems, 8 ∣ heap.sizeOf b ∧ heap.sizeOf b < sizeMod
  bitmap : ∀ i < numBuckets, heap.largeFreeBitmap.getLsbD i = true ↔ heap.largeFreeBuckets i ≠ .nil

section Bitmap

variable {bitmap : BitVec 64} {i j : Nat}

theorem getLsbD_setBit (hi : i < 64) :
    (setBit bitmap i).getLsbD j = (bitmap.getLsbD j || decide (j = i)) := by
  rw [setBit, BitVec.getLsbD_or, BitVec.getLsbD_shiftLeft, BitVec.getLsbD_one]
  by_cases hji : j = i
  · simp [hji, hi]
  · by_cases hlt : j < i
    · simp [hlt, hji]
    · have hne : j - i ≠ 0 := by omega
      simp [hji, hne]

theorem getLsbD_clearBit (hi : i < 64) (hj : j < 64) :
    (clearBit bitmap i).getLsbD j = (bitmap.getLsbD j && decide (j ≠ i)) := by
  rw [clearBit, BitVec.getLsbD_and, BitVec.getLsbD_not, BitVec.getLsbD_shiftLeft,
    BitVec.getLsbD_one]
  by_cases hji : j = i
  · simp [hji, hi]
  · by_cases hlt : j < i
    · simp [hlt, hji, hj]
    · have hne : j - i ≠ 0 := by omega
      simp [hji, hne, hj]

theorem ushiftRight_eq_zero_iff {bitmap : BitVec 64} {i : Nat} :
    bitmap >>> i = 0 ↔ ∀ j, i ≤ j → bitmap.getLsbD j = false := by
  constructor
  · intro h j hj
    have hbit := congrArg (fun x => x.getLsbD (j - i)) h
    simp only [BitVec.getLsbD_ushiftRight] at hbit
    rw [Nat.add_sub_cancel' hj] at hbit
    simpa using hbit
  · intro h
    apply BitVec.eq_of_getLsbD_eq
    intro j _
    rw [BitVec.getLsbD_ushiftRight, h (i + j) (Nat.le_add_right i j)]
    simp

theorem zendMmLowBit_spec (h : bitmap ≠ 0) :
    zendMmLowBit bitmap < 64 ∧ bitmap.getLsbD (zendMmLowBit bitmap) = true ∧
      ∀ j < zendMmLowBit bitmap, bitmap.getLsbD j = false := by
  rw [zendMmLowBit]
  cases hfind : (List.range numBuckets).find? fun i => bitmap.getLsbD i with
  | none =>
    exfalso
    apply h
    apply BitVec.eq_of_getLsbD_eq
    intro j hj
    have hnot := find?_eq_none.mp hfind j (mem_range.mpr hj)
    simpa using hnot
  | some i =>
    have hi : i < 64 := mem_range.mp (mem_of_find?_eq_some hfind)
    refine ⟨hi, by simpa using find?_some hfind, ?_⟩
    intro j hj
    rw [find?_range_eq_some] at hfind
    simpa using hfind.2.2 j hj

end Bitmap

/-! One tree. -/

section Tree

variable {size : Addr → Nat} {k base n : Nat} {tree : FreeTree}

/-- The block is the least one of the tree that is large enough. -/
def LeastIn (size : Addr → Nat) (n : Nat) (tree : FreeTree) (b : Addr) : Prop :=
  b ∈ tree.elems ∧ n ≤ size b ∧ ∀ x ∈ tree.elems, n ≤ size x → size b ≤ size x

/-- A block that a search may return: it is large enough, and it is the least one
exactly if the search comes by a least one. -/
def Finds (size : Addr → Nat) (n : Nat) (tree : FreeTree) (reached : Addr → Prop)
    (b : Addr) : Prop :=
  b ∈ tree.elems ∧ n ≤ size b ∧ (LeastIn size n tree b ↔ ∃ x, LeastIn size n tree x ∧ reached x)

theorem searchSmallest_finds {p : Addr} {ring : List Addr} {child₀ child₁ : FreeTree}
    (h : (node p ring child₀ child₁).Covers size k base) (hn : n ≤ base) :
    ∃ b, (if child₀ = .nil then ⟨size p, some (nextFreeBlock p ring)⟩
        else searchSmallest size child₁ ⟨size p, some (nextFreeBlock p ring)⟩ :
          BestFit).block = some b ∧ Finds size n (.node p ring child₀ child₁)
        (AtRoot (.node p ring child₀ child₁)) b := by
  have hwalk : (if child₀ = .nil then ⟨size p, some (nextFreeBlock p ring)⟩
      else searchSmallest size child₁ ⟨size p, some (nextFreeBlock p ring)⟩ : BestFit) =
      searchSmallest size (.node p ring child₀ child₁) ⟨size p + 1, none⟩ := by
    rw [searchSmallest, if_pos (Nat.lt_succ_self _)]
  rw [hwalk]
  obtain ⟨-, hroot, hfrom⟩ := searchSmallest_spec h ⟨size p + 1, none⟩
  generalize searchSmallest size (.node p ring child₀ child₁) ⟨size p + 1, none⟩ =
    best at hroot hfrom
  have hle : best.size ≤ size p := hroot p (.inl rfl)
  rcases hfrom with heq | ⟨b, hb, hfits, hleast⟩
  · rw [heq] at hle
    exact absurd hle (Nat.not_succ_le_self _)
  · have hge : ∀ x ∈ (node p ring child₀ child₁).elems, n ≤ size x := fun x hx =>
      le_trans hn (h.bounds hx).1
    refine ⟨b, hfits.1, hb, hge b hb, ?_, ?_⟩
    · intro hmin
      rcases hleast with hatRoot | ⟨y, hy, hlt⟩
      · exact ⟨b, hmin, hatRoot⟩
      · exact absurd (hmin.2.2 y hy (hge y hy)) (Nat.not_le.mpr hlt)
    · rintro ⟨x, hmin, hatRoot⟩
      refine ⟨hb, hge b hb, ?_⟩
      intro y hy hny
      rw [← hfits.2]
      exact le_trans (hroot x hatRoot) (hmin.2.2 y hy hny)

/-- The search through the tree of the bucket itself: it returns a block, or there
is none that is large enough. -/
theorem searchTree_finds (h : tree.Covers size k base) (hbase : 2 ^ k ∣ base)
    (hle : base ≤ n) (hlt : n < base + 2 ^ k) {m : BitVec 64} (hm : Spells m k n)
    (hsizes : ∀ x ∈ tree.elems, size x < sizeMod - 1) :
    (∃ b, searchDown size n tree m ⟨sizeMod - 1, none⟩ .nil = .error b ∧
        Finds size n tree (Reached n tree k) b) ∨
      ∃ best rst best', searchDown size n tree m ⟨sizeMod - 1, none⟩ .nil =
          .ok (best, rst) ∧ searchRst size n rst best = .ok best' ∧ match best'.block with
        | none => ∀ x ∈ tree.elems, size x < n
        | some b => Finds size n tree (Reached n tree k) b := by
  rcases searchDown_spec h hbase hle hlt hm ⟨sizeMod - 1, none⟩ .nil with
    ⟨b, hrun, hreached, hsize⟩ | ⟨best, rst, hrun, hd⟩
  · have hmin : LeastIn size n tree b :=
      ⟨hreached.mem, le_of_eq hsize.symm, fun x _ hnx => by rwa [hsize]⟩
    exact .inl ⟨b, hrun, hmin.1, hmin.2.1, fun _ => ⟨b, hmin, hreached⟩, fun _ => hmin⟩
  · -- The blocks of the subtree that was passed by are all larger.
    have habove : ∀ x ∈ rst.elems, n < size x := by
      rcases hd.rest with ⟨heq, -⟩ | ⟨-, -, hin, -⟩
      · simp [heq]
      · exact fun x hx => (hin x hx).2
    have hcovers : ∃ j base, rst.Covers size j base := by
      rcases hd.rest with ⟨rfl, -⟩ | ⟨-, hcov, -⟩
      · exact ⟨0, 0, trivial⟩
      · exact hcov
    obtain ⟨j, base', hcov⟩ := hcovers
    obtain ⟨hle', hroot', hfrom'⟩ := searchSmallest_spec hcov best
    refine .inr ⟨best, rst, _, hrun, searchRst_eq habove best, ?_⟩
    generalize searchSmallest size rst best = best' at hle' hroot' hfrom'
    cases hblock : best'.block with
    | none =>
      have hinit : best'.size = sizeMod - 1 := by
        rcases hfrom' with rfl | ⟨x, -, hfits, -⟩
        · rcases hd.fits with heq | ⟨x, -, -, -, hfits⟩
          · rw [heq]
          · rw [hfits.1] at hblock
            cases hblock
        · rw [hfits.1] at hblock
          cases hblock
      intro x hx
      by_contra hnx
      rcases hd.rest with ⟨-, hall⟩ | ⟨hne, -, hin, -⟩
      · have hsize := hall x hx (Nat.le_of_not_lt hnx)
        have hlt := hsizes x hx
        omega
      · cases rst with
        | nil => exact hne rfl
        | node p ring child₀ child₁ =>
          have hp := hroot' p (.inl rfl)
          have hlt := hsizes p (hin p (mem_elems_node.mpr (.inl rfl))).1
          omega
    | some b =>
      obtain ⟨hb, hnb, hsize, hwhere⟩ : b ∈ tree.elems ∧ n ≤ size b ∧
          best'.size = size b ∧ (Reached n tree k b ∨
            ∃ y ∈ tree.elems, n ≤ size y ∧ size y < size b) := by
        rcases hfrom' with rfl | ⟨x, hx, hfits, hleast⟩
        · rcases hd.fits with heq | ⟨x, hx, hreached, hnx, hfits⟩
          · rw [heq] at hblock
            cases hblock
          · rw [hfits.1] at hblock
            cases hblock
            exact ⟨hx, le_of_lt hnx, hfits.2, .inl hreached⟩
        · rw [hfits.1] at hblock
          cases hblock
          rcases hd.rest with ⟨rfl, -⟩ | ⟨-, -, hin, hroot, -⟩
          · simp at hx
          · refine ⟨(hin b hx).1, le_of_lt (hin b hx).2, hfits.2, ?_⟩
            rcases hleast with hatRoot | ⟨y, hy, hlt⟩
            · exact .inl (hroot b hatRoot)
            · exact .inr ⟨y, (hin y hy).1, le_of_lt (hin y hy).2, hlt⟩
      refine ⟨hb, hnb, ?_, ?_⟩
      · intro hmin
        rcases hwhere with hreached | ⟨y, hy, hny, hlt⟩
        · exact ⟨b, hmin, hreached⟩
        · exact absurd (hmin.2.2 y hy hny) (Nat.not_le.mpr hlt)
      · rintro ⟨x, hmin, hreached⟩
        have hbest : best'.size ≤ size x := by
          rcases hd.rest with ⟨-, hall⟩ | ⟨-, -, hin, -, -, hreach⟩
          · exact le_trans hle' (hall x hmin.1 hmin.2.1)
          · rcases hreach x hreached hmin.2.1 with hx | hx | ⟨y, hy, hlt⟩
            · exact le_trans hle' hx
            · exact hroot' x hx
            · have hy' := hin y hy
              exact absurd (hmin.2.2 y hy'.1 (le_of_lt hy'.2)) (Nat.not_le.mpr hlt)
        refine ⟨hb, hnb, ?_⟩
        intro y hy hny
        rw [← hsize]
        exact le_trans hbest (hmin.2.2 y hy hny)

end Tree

/-! All trees. -/

section Heap

variable {heap : Heap} {n : Nat}

/-- The block is the least one of all trees that is large enough. -/
def Least (heap : Heap) (n : Nat) (b : Addr) : Prop :=
  heap.InLarge b ∧ n ≤ heap.sizeOf b ∧
    ∀ c, heap.InLarge c → n ≤ heap.sizeOf c → heap.sizeOf b ≤ heap.sizeOf c

/-- The search for a block of `n` bytes answers with the best fit. -/
def FindsBestFit (heap : Heap) (n : Nat) : Prop :=
  ∃ found, zendMmSearchLargeBlock heap n = some found ∧
    (found = none ↔ ∀ b, heap.InLarge b → heap.sizeOf b < n) ∧
    ∀ b, found = some b → Least heap n b

/-- Where a least block has to stand: at the root of its tree, or in the tree of
the bucket of `n` on the way of its bits or at a right child next to it. -/
def LeastReached (heap : Heap) (n : Nat) : Prop :=
  (∀ b, heap.InLarge b → heap.sizeOf b < n) ∨ ∃ b, Least heap n b ∧
      let index := zendMmHighBit (heap.sizeOf b)
      if index = zendMmHighBit n then
        Reached n (heap.largeFreeBuckets index) index b
      else AtRoot (heap.largeFreeBuckets index) b

section

variable (h : LargeTrees heap)
include h

theorem LargeTrees.index_eq {i : Nat} {b : Addr} (hb : b ∈ (heap.largeFreeBuckets i).elems) :
    zendMmHighBit (heap.sizeOf b) = i := by
  have hbounds := (h.covers i).bounds hb
  rw [zendMmHighBit, Nat.log2_eq_iff (by omega), pow_succ]
  omega

theorem LargeTrees.index_lt {i : Nat} {b : Addr} (hb : b ∈ (heap.largeFreeBuckets i).elems) :
    i < 64 := by
  have hlow := ((h.covers i).bounds hb).1
  have hhigh := (h.sizes i b hb).2
  exact (Nat.pow_lt_pow_iff_right (by decide)).mp (lt_of_le_of_lt hlow hhigh)

/-- The tree of a bucket below that of `n` has no block for it, and one above has
only larger ones. -/
theorem LargeTrees.lt_of_index_lt (hn : n ≠ 0) {i : Nat} {b : Addr}
    (hb : b ∈ (heap.largeFreeBuckets i).elems) (hi : i < zendMmHighBit n) :
    heap.sizeOf b < n := by
  have hbounds := (h.covers i).bounds hb
  have hpow : 2 ^ (i + 1) ≤ 2 ^ zendMmHighBit n := Nat.pow_le_pow_right (by decide) hi
  have hlow := (highBit_bounds hn).1
  omega

/-- A block that the search finds in the first tree with one that is large
enough. -/
theorem LargeTrees.least_iff {i : Nat} {b : Addr}
    (hfirst : ∀ j < i, ∀ x ∈ (heap.largeFreeBuckets j).elems, heap.sizeOf x < n)
    (hfound : ∃ x ∈ (heap.largeFreeBuckets i).elems, n ≤ heap.sizeOf x) :
    Least heap n b ↔ LeastIn heap.sizeOf n (heap.largeFreeBuckets i) b := by
  obtain ⟨y, hy, hny⟩ := hfound
  -- In a later tree every block is larger than any of this one.
  have hlater : ∀ j, ∀ x ∈ (heap.largeFreeBuckets j).elems, n ≤ heap.sizeOf x →
      i = j ∨ ∀ z ∈ (heap.largeFreeBuckets i).elems, heap.sizeOf z < heap.sizeOf x := by
    intro j x hx hnx
    rcases Nat.lt_trichotomy i j with hij | hij | hij
    · right
      intro z hz
      have hx' := (h.covers j).bounds hx
      have hz' := (h.covers i).bounds hz
      have hpow : 2 ^ (i + 1) ≤ 2 ^ j := Nat.pow_le_pow_right (by decide) hij
      omega
    · exact .inl hij
    · exact absurd (hfirst j hij x hx) (Nat.not_lt.mpr hnx)
  constructor
  · rintro ⟨⟨j, hb⟩, hnb, hmin⟩
    rcases hlater j b hb hnb with rfl | hless
    · exact ⟨hb, hnb, fun x hx hnx => hmin x ⟨_, hx⟩ hnx⟩
    · exact absurd (hmin y ⟨i, hy⟩ hny) (Nat.not_le.mpr (hless y hy))
  · rintro ⟨hb, hnb, hmin⟩
    refine ⟨⟨i, hb⟩, hnb, ?_⟩
    rintro c ⟨j, hc⟩ hnc
    rcases hlater j c hc hnc with rfl | hless
    · exact hmin c hc hnc
    · exact le_of_lt (hless b hb)

/-- What the search comes to: nothing, or a block of the first tree with one that
is large enough. -/
inductive SearchOutcome (heap : Heap) (n : Nat) : Option Addr → Prop where
  | none (hnone : ∀ b, heap.InLarge b → heap.sizeOf b < n) : SearchOutcome heap n none
  | same (b : Addr) (hfinds : Finds heap.sizeOf n (heap.largeFreeBuckets (zendMmHighBit n))
        (Reached n (heap.largeFreeBuckets (zendMmHighBit n)) (zendMmHighBit n)) b) :
      SearchOutcome heap n (some b)
  | above (i : Nat) (b : Addr) (hi : zendMmHighBit n < i)
      (hfirst : ∀ j < i, ∀ x ∈ (heap.largeFreeBuckets j).elems, heap.sizeOf x < n)
      (hfinds : Finds heap.sizeOf n (heap.largeFreeBuckets i)
        (AtRoot (heap.largeFreeBuckets i)) b) :
      SearchOutcome heap n (some b)

/-- The search of the trees above a bucket, all below it being too small. -/
theorem LargeTrees.searchAbove (hn : n ≠ 0) {start : Nat} (hstart : zendMmHighBit n ≤ start)
    (hbelow : ∀ j < start, ∀ x ∈ (heap.largeFreeBuckets j).elems, heap.sizeOf x < n)
    (hself : zendMmHighBit n = start → heap.largeFreeBuckets start = .nil)
    (hbitmap : heap.largeFreeBitmap >>> start ≠ 0) : ∃ p ring child₀ child₁, heap.largeFreeBuckets
        (start + zendMmLowBit (heap.largeFreeBitmap >>> start)) = .node p ring child₀ child₁ ∧
      ∃ b, (if child₀ = .nil then ⟨heap.sizeOf p, some (nextFreeBlock p ring)⟩
          else searchSmallest heap.sizeOf child₁
            ⟨heap.sizeOf p, some (nextFreeBlock p ring)⟩ : BestFit).block = some b ∧
        SearchOutcome heap n (some b) := by
  obtain ⟨-, hbit, hlow⟩ := zendMmLowBit_spec hbitmap
  generalize zendMmLowBit (heap.largeFreeBitmap >>> start) = low at hbit hlow
  rw [BitVec.getLsbD_ushiftRight] at hbit
  have hlt : start + low < 64 := BitVec.lt_of_getLsbD hbit
  have hne := (h.bitmap (start + low) hlt).mp hbit
  have hfirst : ∀ j < start + low, ∀ x ∈ (heap.largeFreeBuckets j).elems, heap.sizeOf x < n := by
    intro j hj x hx
    by_cases hjs : j < start
    · exact hbelow j hjs x hx
    · -- A bit below the lowest one is clear, so that its tree is empty.
      have hclear := hlow (j - start) (by omega)
      rw [BitVec.getLsbD_ushiftRight, Nat.add_sub_cancel' (by omega)] at hclear
      have hnil : heap.largeFreeBuckets j = .nil := by
        by_contra hnil
        rw [(h.bitmap j (by rw [numBuckets]; omega)).mpr hnil] at hclear
        cases hclear
      rw [hnil] at hx
      simp at hx
  have habove : zendMmHighBit n < start + low := by
    rcases Nat.lt_or_eq_of_le (le_trans hstart (Nat.le_add_right start low)) with
      hlt | heq
    · exact hlt
    · exfalso
      have hlow0 : low = 0 := by omega
      rw [hlow0, add_zero] at hne
      exact hne (hself (by omega))
  have hcovers := h.covers (start + low)
  have hle : n ≤ 2 ^ (start + low) := by
    have hpow : 2 ^ (zendMmHighBit n + 1) ≤ 2 ^ (start + low) :=
      Nat.pow_le_pow_right (by decide) habove
    have hhigh := (highBit_bounds hn).2
    omega
  cases htree : heap.largeFreeBuckets (start + low) with
  | nil => exact absurd htree hne
  | node p ring child₀ child₁ =>
    refine ⟨p, ring, child₀, child₁, rfl, ?_⟩
    rw [htree] at hcovers
    obtain ⟨b, hblock, hfinds⟩ := searchSmallest_finds hcovers hle
    rw [← htree] at hfinds
    exact ⟨b, hblock, .above (start + low) b habove hfirst hfinds⟩

theorem LargeTrees.search (hn : n ≠ 0) (hlt : n < sizeMod) :
    ∃ found, zendMmSearchLargeBlock heap n = some found ∧ SearchOutcome heap n found := by
  have hbounds := highBit_bounds hn
  have hindex : zendMmHighBit n < 64 := (Nat.log2_lt hn).mpr hlt
  have hbelow : ∀ j < zendMmHighBit n, ∀ x ∈ (heap.largeFreeBuckets j).elems,
      heap.sizeOf x < n := fun j hj x hx => h.lt_of_index_lt hn hx hj
  have hnone : ∀ start, (∀ j < start, ∀ x ∈ (heap.largeFreeBuckets j).elems,
        heap.sizeOf x < n) → heap.largeFreeBitmap >>> start = 0 →
      ∀ b, heap.InLarge b → heap.sizeOf b < n := by
    rintro start hbelow hzero b ⟨i, hb⟩
    by_cases hi : i < start
    · exact hbelow i hi b hb
    · have hclear := ushiftRight_eq_zero_iff.mp hzero i (Nat.le_of_not_lt hi)
      have hset := (h.bitmap i (h.index_lt hb)).mpr (by
        intro hnil
        rw [hnil] at hb
        simp at hb)
      rw [hclear] at hset
      cases hset
  rw [zendMmSearchLargeBlock]
  by_cases hzero : heap.largeFreeBitmap >>> zendMmHighBit n = 0
  · exact ⟨none, by simp only [hzero, if_true], .none (hnone _ hbelow hzero)⟩
  simp only [hzero, if_false]
  by_cases hbit : (heap.largeFreeBitmap >>> zendMmHighBit n).getLsbD 0 = true
  · simp only [hbit, if_true]
    have hne := (h.bitmap _ hindex).mp hbit
    have hsizes : ∀ x ∈ (heap.largeFreeBuckets (zendMmHighBit n)).elems,
        heap.sizeOf x < sizeMod - 1 := by
      intro x hx
      obtain ⟨⟨q, hq⟩, hx⟩ := h.sizes _ x hx
      rw [sizeMod] at hx ⊢
      omega
    have hsearch := searchTree_finds (h.covers (zendMmHighBit n)) (dvd_refl _)
      hbounds.1 hbounds.2 (spells_start hlt hn) hsizes
    cases htree : heap.largeFreeBuckets (zendMmHighBit n) with
    | nil => exact absurd htree hne
    | node p ring child₀ child₁ =>
      simp only
      rw [← htree]
      rcases hsearch with ⟨b, hrun, hfinds⟩ | ⟨best, rst, best', hrun, hrst, hfinds⟩
      · exact ⟨some b, by rw [hrun], .same b hfinds⟩
      · simp only [hrun, hrst]
        cases hblock : best'.block with
        | some b =>
          rw [hblock] at hfinds
          exact ⟨some b, rfl, .same b hfinds⟩
        | none =>
          rw [hblock] at hfinds
          have hbelow' : ∀ j < zendMmHighBit n + 1,
              ∀ x ∈ (heap.largeFreeBuckets j).elems, heap.sizeOf x < n := by
            intro j hj x hx
            rcases Nat.lt_succ_iff_lt_or_eq.mp hj with hj | rfl
            · exact hbelow j hj x hx
            · exact hfinds x hx
          simp only [← BitVec.shiftRight_add]
          by_cases hzero' : heap.largeFreeBitmap >>> (zendMmHighBit n + 1) = 0
          · exact ⟨none, by rw [if_pos hzero'], .none (hnone _ hbelow' hzero')⟩
          · rw [if_neg hzero']
            obtain ⟨p, ring, child₀, child₁, htree', b, hb, houtcome⟩ :=
              h.searchAbove hn (Nat.le_succ _) hbelow' (by omega) hzero'
            rw [htree']
            exact ⟨some b, congrArg some hb, houtcome⟩
  · have hself : heap.largeFreeBuckets (zendMmHighBit n) = .nil := by
      by_contra hne
      apply hbit
      exact (h.bitmap _ hindex).mpr hne
    simp only [hbit]
    obtain ⟨p, ring, child₀, child₁, htree, b, hb, houtcome⟩ :=
      h.searchAbove hn le_rfl hbelow (fun _ => hself) hzero
    rw [htree]
    exact ⟨some b, congrArg some hb, houtcome⟩

/-- A block that was found is a best fit exactly if one stands where the search
looks. -/
theorem LargeTrees.least_iff_reached {i : Nat} {b : Addr} {reached : Addr → Prop}
    (hfirst : ∀ j < i, ∀ x ∈ (heap.largeFreeBuckets j).elems, heap.sizeOf x < n)
    (hreached : ∀ x, (if i = zendMmHighBit n then
      Reached n (heap.largeFreeBuckets i) i x else AtRoot (heap.largeFreeBuckets i) x) ↔ reached x)
    (hfinds : Finds heap.sizeOf n (heap.largeFreeBuckets i) reached b) :
    Least heap n b ↔ LeastReached heap n := by
  have hfound : ∃ x ∈ (heap.largeFreeBuckets i).elems, n ≤ heap.sizeOf x :=
    ⟨b, hfinds.1, hfinds.2.1⟩
  rw [h.least_iff hfirst hfound, hfinds.2.2]
  constructor
  · rintro ⟨x, hmin, hx⟩
    refine .inr ⟨x, (h.least_iff hfirst hfound).mpr hmin, ?_⟩
    simp only [h.index_eq hmin.1]
    exact (hreached x).mpr hx
  · rintro (hnone | ⟨x, hmin, hx⟩)
    · exact absurd (hnone b ⟨i, hfinds.1⟩) (Nat.not_lt.mpr hfinds.2.1)
    · have hmin' := (h.least_iff hfirst hfound).mp hmin
      simp only [h.index_eq hmin'.1] at hx
      exact ⟨x, hmin', (hreached x).mp hx⟩

/-- A search finds a best fit exactly if a best fit stands where it looks. -/
theorem LargeTrees.findsBestFit_iff (hn : n ≠ 0) (hlt : n < sizeMod) :
    FindsBestFit heap n ↔ LeastReached heap n := by
  obtain ⟨found, hrun, houtcome⟩ := h.search hn hlt
  have hfirst : ∀ j < zendMmHighBit n, ∀ x ∈ (heap.largeFreeBuckets j).elems,
      heap.sizeOf x < n := fun j hj x hx => h.lt_of_index_lt hn hx hj
  have hsome : ∀ {i b}, found = some b → b ∈ (heap.largeFreeBuckets i).elems →
      n ≤ heap.sizeOf b → (FindsBestFit heap n ↔ Least heap n b) := by
    intro i b hfound hb hnb
    constructor
    · rintro ⟨found', hrun', -, hbest⟩
      rw [hrun, some_inj] at hrun'
      exact hbest b (hrun'.symm.trans hfound)
    · intro hmin
      refine ⟨found, hrun, ?_, ?_⟩
      · refine iff_of_false (by rw [hfound]; simp) ?_
        intro hall
        exact absurd (hall b ⟨i, hb⟩) (Nat.not_lt.mpr hnb)
      · intro c hc
        rw [hfound, some_inj] at hc
        exact hc ▸ hmin
  cases houtcome with
  | none hnone =>
    exact iff_of_true ⟨none, hrun, iff_of_true rfl hnone, by simp⟩ (.inl hnone)
  | same b hfinds =>
    rw [hsome rfl hfinds.1 hfinds.2.1]
    exact h.least_iff_reached hfirst (fun x => by rw [if_pos rfl]) hfinds
  | above i b hi hfirst hfinds =>
    rw [hsome rfl hfinds.1 hfinds.2.1]
    exact h.least_iff_reached hfirst (fun x => by rw [if_neg (ne_of_gt hi)]) hfinds

end

end Heap

/-! Adding and removing blocks. -/

section Update

variable {heap heap' : Heap} {b : Addr}

theorem LargeTrees.congr (h : LargeTrees heap)
    (htrees : heap'.largeFreeBuckets = heap.largeFreeBuckets)
    (hbitmap : heap'.largeFreeBitmap = heap.largeFreeBitmap)
    (hsize : ∀ x, heap.InLarge x → heap'.sizeOf x = heap.sizeOf x) : LargeTrees heap' := by
  refine ⟨?_, ?_, ?_, ?_⟩
  · intro i
    rw [htrees]
    exact (h.covers i).congr fun x hx => hsize x ⟨i, hx⟩
  · rw [htrees]
    exact h.nodup
  · intro i x hx
    rw [htrees] at hx
    rw [hsize x ⟨i, hx⟩]
    exact h.sizes i x hx
  · rw [htrees, hbitmap]
    exact h.bitmap

/-- One tree is replaced by another of its interval, and its bit is set or cleared
with it. -/
theorem LargeTrees.setTree (h : LargeTrees heap) {index : Nat} {tree : FreeTree}
    (hindex : index < numBuckets) (hcovers : tree.Covers heap.sizeOf index (2 ^ index))
    (hnodup : tree.elems.Nodup)
    (hsizes : ∀ x ∈ tree.elems, 8 ∣ heap.sizeOf x ∧ heap.sizeOf x < sizeMod) {bitmap : BitVec 64}
    (hbit : bitmap.getLsbD index = true ↔ tree ≠ .nil) (hother : ∀ i < numBuckets, i ≠ index →
      bitmap.getLsbD i = heap.largeFreeBitmap.getLsbD i) : LargeTrees { heap with
      largeFreeBuckets := update heap.largeFreeBuckets index tree
      largeFreeBitmap := bitmap } := by
  have hcases : ∀ i, (i = index ∧ update heap.largeFreeBuckets index tree i = tree) ∨
      (i ≠ index ∧ update heap.largeFreeBuckets index tree i = heap.largeFreeBuckets i) := by
    intro i
    by_cases hi : i = index
    · exact .inl ⟨hi, by rw [hi, update_self]⟩
    · exact .inr ⟨hi, update_of_ne hi _ _⟩
  refine ⟨?_, ?_, ?_, ?_⟩
  · intro i
    change (update heap.largeFreeBuckets index tree i).Covers heap.sizeOf i _
    rcases hcases i with ⟨rfl, hi⟩ | ⟨-, hi⟩
    · rwa [hi]
    · rw [hi]
      exact h.covers i
  · intro i
    change (update heap.largeFreeBuckets index tree i).elems.Nodup
    rcases hcases i with ⟨-, hi⟩ | ⟨-, hi⟩
    · rwa [hi]
    · rw [hi]
      exact h.nodup i
  · intro i x hx
    change x ∈ (update heap.largeFreeBuckets index tree i).elems at hx
    rcases hcases i with ⟨-, hi⟩ | ⟨-, hi⟩
    · rw [hi] at hx
      exact hsizes x hx
    · rw [hi] at hx
      exact h.sizes i x hx
  · intro i hi
    change bitmap.getLsbD i = true ↔ update heap.largeFreeBuckets index tree i ≠ .nil
    rcases hcases i with ⟨rfl, hup⟩ | ⟨hne, hup⟩
    · rwa [hup]
    · rw [hup, hother i hi hne]
      exact h.bitmap i hi

theorem LargeTrees.add (h : LargeTrees heap) (hb : ¬heap.InLarge b)
    (haligned : 8 ∣ heap.sizeOf b) (hlt : heap.sizeOf b < sizeMod) :
    LargeTrees (zendMmAddToFreeList heap b) := by
  rw [zendMmAddToFreeList]
  by_cases hsmall : SmallSize (heap.sizeOf b)
  · simp only [hsmall, not_true_eq_false, if_false]
    exact h.congr rfl rfl fun _ _ => rfl
  · simp only [hsmall, not_false_eq_true, if_true]
    have hpos : heap.sizeOf b ≠ 0 := by
      intro hzero
      rw [hzero] at hsmall
      exact hsmall (by decide)
    have hindex : zendMmHighBit (heap.sizeOf b) < 64 := (Nat.log2_lt hpos).mpr hlt
    have hbounds := highBit_bounds hpos
    have hperm := treeInsert_perm heap.sizeOf b
      (heap.largeFreeBuckets (zendMmHighBit (heap.sizeOf b)))
      (BitVec.ofNat 64 (heap.sizeOf b) <<< (numBuckets - zendMmHighBit (heap.sizeOf b)))
    have hbit := h.bitmap _ hindex
    generalize hi : zendMmHighBit (heap.sizeOf b) = index at *
    apply h.setTree hindex
    · apply treeInsert_covers (h.covers index) (dvd_refl _) hbounds.1 hbounds.2
      rw [← hi]
      exact spells_start hlt hpos
    · rw [hperm.nodup_iff, nodup_cons]
      exact ⟨fun hmem => hb ⟨index, hmem⟩, h.nodup index⟩
    · intro x hx
      rcases mem_cons.mp (hperm.mem_iff.mp hx) with rfl | hx
      · exact ⟨haligned, hlt⟩
      · exact h.sizes index x hx
    · have hnonempty : treeInsert heap.sizeOf b (heap.largeFreeBuckets index)
          (BitVec.ofNat 64 (heap.sizeOf b) <<< (numBuckets - index)) ≠ .nil := by
        intro hnil
        rw [hnil] at hperm
        simpa using hperm.length_eq
      refine iff_of_true ?_ hnonempty
      split
      · rw [getLsbD_setBit hindex]
        simp
      · next hne => exact hbit.mpr hne
    · intro i hi hne
      split
      · rw [getLsbD_setBit hindex]
        simp [hne]
      · rfl

theorem LargeTrees.remove (h : LargeTrees heap)
    (hrun : zendMmRemoveFromFreeList heap b = some heap') : LargeTrees heap' := by
  rw [zendMmRemoveFromFreeList] at hrun
  by_cases hsmall : SmallSize (heap.sizeOf b)
  · simp only [hsmall, if_true] at hrun
    split at hrun
    · rw [some_inj] at hrun
      subst hrun
      split
      all_goals exact h.congr rfl rfl fun _ _ => rfl
    · split at hrun
      · rw [some_inj] at hrun
        subst hrun
        split
        all_goals exact h.congr rfl rfl fun _ _ => rfl
      · cases hrun
  · simp only [hsmall, if_false] at hrun
    split at hrun
    · rw [some_inj] at hrun
      subst hrun
      exact h.congr rfl rfl fun _ _ => rfl
    · split at hrun
      · next hmem =>
          rw [some_inj] at hrun
          subst hrun
          have hindex := h.index_lt hmem
          have hbit := h.bitmap _ hindex
          generalize zendMmHighBit (heap.sizeOf b) = index at *
          have hperm := treeRemove_perm (h.nodup index) hmem
          have hnodup := h.nodup index
          rw [hperm.nodup_iff, nodup_cons] at hnodup
          apply h.setTree hindex (treeRemove_covers (h.covers index)) hnodup.2
          · intro x hx
            exact h.sizes index x (hperm.mem_iff.mpr (mem_cons_of_mem _ hx))
          · split
            · next hnil =>
                rw [getLsbD_clearBit hindex hindex]
                simp [hnil]
            · next hne =>
                refine iff_of_true (hbit.mpr ?_) hne
                intro hnil
                rw [hnil] at hmem
                simp at hmem
          · intro i hi hne
            split
            · rw [getLsbD_clearBit hindex hi]
              simp [hne]
            · rfl
      · cases hrun

/-- The heaps whose trees come about by adding and removing large blocks. -/
inductive LargeState : Heap → Prop where
  | startup (blockSize limit : Nat) (infoSize infoPrev : Addr → Tag) :
      LargeState (zendMmStartup blockSize limit infoSize infoPrev)
  | add {heap : Heap} {b size : Nat} (h : LargeState heap) (hb : ¬heap.InLarge b)
      (hlarge : ¬SmallSize size) (haligned : 8 ∣ size) (hlt : size < sizeMod) :
      LargeState (zendMmAddToFreeList (heap.setBlock b .free size) b)
  | remove {heap heap' : Heap} {b : Nat} (h : LargeState heap) (hb : heap.InLarge b)
      (hrun : zendMmRemoveFromFreeList heap b = some heap') : LargeState heap'

theorem LargeState.trees (h : LargeState heap) : LargeTrees heap := by
  induction h with
  | startup blockSize limit infoSize infoPrev =>
    refine ⟨fun i => trivial, fun i => nodup_nil, by simp [zendMmStartup], ?_⟩
    simp [zendMmStartup]
  | @add heap b size h hb hlarge haligned hlt ih =>
    have hsize : (heap.setBlock b .free size).sizeOf b = size := by
      simp [Heap.sizeOf, Heap.setBlock]
    have hset : LargeTrees (heap.setBlock b .free size) := by
      refine LargeTrees.congr ih rfl rfl ?_
      intro x hx
      have hne : x ≠ b := fun heq => hb (heq ▸ hx)
      simp [Heap.sizeOf, Heap.setBlock, hne]
    exact hset.add hb (by rwa [hsize]) (by rwa [hsize])
  | remove h hb hrun ih => exact ih.remove hrun

/-- For every set of large free blocks, in whatever order they came and went, the
search finds a best fit exactly if one stands where it looks. -/
theorem zendMmSearchLargeBlock_bestFit_iff (h : LargeState heap) {trueSize : Nat}
    (hpos : trueSize ≠ 0) (hlt : trueSize < sizeMod) :
    FindsBestFit heap trueSize ↔ LeastReached heap trueSize :=
  h.trees.findsBestFit_iff hpos hlt

end Update

/-! Two blocks of one bucket, the smaller one below the other. -/

/-- A heap without segments. -/
def emptyHeap : Heap :=
  zendMmStartup (256 * 1024) (2 ^ 62) (fun _ => ⟨.free, 0⟩) fun _ => ⟨.free, 0⟩

/-- A free block of the size comes to the heap. -/
def addBlock (heap : Heap) (b size : Nat) : Heap :=
  zendMmAddToFreeList (heap.setBlock b .free size) b

def twoBlocks : Heap := addBlock (addBlock emptyHeap 0 1536) 1 1032

theorem twoBlocks_largeState : LargeState twoBlocks := by
  have hempty : LargeState emptyHeap := .startup _ _ _ _
  have hsize : ∀ {heap : Heap} {b : Addr}, LargeState heap → heap.sizeOf b = 0 →
      ¬heap.InLarge b := by
    rintro heap b h hzero ⟨i, hi⟩
    have hbounds := (h.trees.covers i).bounds hi
    rw [hzero] at hbounds
    exact absurd hbounds.1 (Nat.not_le.mpr (Nat.two_pow_pos i))
  have hone : LargeState (addBlock emptyHeap 0 1536) :=
    .add hempty (hsize hempty rfl) (by decide) (by decide) (by decide)
  have hnew : ¬(addBlock emptyHeap 0 1536).InLarge 1 := hsize hone (by decide)
  have htwo : LargeState (addBlock (addBlock emptyHeap 0 1536) 1 1032) :=
    .add hone hnew (by decide) (by decide) (by decide)
  exact htwo

theorem zendMmSearchLargeBlock_bestFit_iff_twoBlocks :
    FindsBestFit twoBlocks 600 ↔ LeastReached twoBlocks 600 :=
  zendMmSearchLargeBlock_bestFit_iff twoBlocks_largeState (by decide) (by decide)

/-- The search for 600 bytes returns the block of 1536 bytes at the root and does
not see the one of 1032 bytes to its left. -/
theorem twoBlocks_not_findsBestFit : LargeState twoBlocks ∧ ¬FindsBestFit twoBlocks 600 := by
  refine ⟨twoBlocks_largeState, ?_⟩
  rintro ⟨found, hrun, -, hbest⟩
  have hfound : zendMmSearchLargeBlock twoBlocks 600 = some (some 0) := by
    decide
  rw [hfound, some_inj] at hrun
  have hleft : twoBlocks.InLarge 1 := ⟨10, by decide⟩
  have hle := (hbest 0 hrun.symm).2.2 1 hleft (by decide)
  exact absurd hle (by decide)

end PhpEngine.ZendMm

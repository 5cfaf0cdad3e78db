/-
The blocks of a heap tile its segments: from the first block of a segment to the
guard block behind its last one, every block ends where the next one begins.
-/
import PhpEngine.ZendMmLists
import Mathlib.Data.Finset.Max
import Mathlib.Data.Finset.Lattice.Fold

namespace PhpEngine.ZendMm

open Function

variable {s t : Segment} {x b : Nat}

def Segment.first (s : Segment) : Nat := alignedSegmentSize + s.addr

def Segment.guard (s : Segment) : Nat := s.size + s.addr - alignedHeaderSize

/-- An address between the first block and the guard block. -/
def Segment.Holds (s : Segment) (x : Nat) : Prop := s.first ≤ x ∧ x < s.guard

/-- Neither reaches into the other, headers and guard blocks included. -/
def Segment.Apart (s t : Segment) : Prop :=
  s.size + s.addr ≤ t.addr ∨ t.size + t.addr ≤ s.addr

theorem Segment.Apart.symm (h : s.Apart t) : t.Apart s := Or.symm h

/-- Room for one block. -/
def Segment.Valid (s : Segment) : Prop :=
  alignedSegmentSize + alignedMinHeaderSize + alignedHeaderSize ≤ s.size ∧
    8 ∣ s.size ∧ s.size < sizeMod

theorem Segment.Valid.bounds (h : s.Valid) :
    s.first = 16 + s.addr ∧ s.guard + 16 = s.size + s.addr ∧ s.first + 32 ≤ s.guard := by
  rw [Segment.Valid, alignedSegmentSize, alignedMinHeaderSize, alignedHeaderSize] at h
  rw [Segment.guard, Segment.first, alignedSegmentSize, alignedHeaderSize]
  omega

structure Tiled (heap : Heap) (B : Finset Nat) : Prop where
  nodup : heap.segmentsList.Nodup
  segments : ∀ s ∈ heap.segmentsList, s.Valid
  segmentsApart : ∀ s ∈ heap.segmentsList, ∀ t ∈ heap.segmentsList, s ≠ t → s.Apart t
  first : ∀ s ∈ heap.segmentsList, s.first ∈ B ∧ heap.IsFirstBlock s.first
  last : ∀ s ∈ heap.segmentsList, heap.IsGuardBlock s.guard
  inside : ∀ b ∈ B, ∃ s ∈ heap.segmentsList, s.first ≤ b ∧ b + heap.sizeOf b ≤ s.guard
  kind : ∀ b ∈ B, ¬heap.IsGuardBlock b
  blocks : ∀ b ∈ B, alignedMinHeaderSize ≤ heap.sizeOf b ∧ 8 ∣ heap.sizeOf b
  boundary : ∀ b ∈ B, heap.infoPrev (b + heap.sizeOf b) = heap.infoSize b
  next : ∀ s ∈ heap.segmentsList, ∀ b ∈ B, s.Holds b →
    b + heap.sizeOf b ∈ B ∨ b + heap.sizeOf b = s.guard
  apart : ∀ b ∈ B, ∀ c ∈ B, b < c → b + heap.sizeOf b ≤ c

/-- Consecutive blocks from `a` up to `e`. -/
inductive BlockRun (heap : Heap) (B : Finset Nat) : Nat → List Nat → Nat → Prop
  | nil (a : Nat) : BlockRun heap B a [] a
  | cons {a e : Nat} {l : List Nat} (ha : a ∈ B)
      (hrun : BlockRun heap B (a + heap.sizeOf a) l e) : BlockRun heap B a (a :: l) e

section Tiling

variable {heap heap' : Heap} {B B' : Finset Nat} {a b e : Nat} {l : List Nat}

section

variable (h : Tiled heap B)
include h

theorem Tiled.size_ge (hb : b ∈ B) : 32 ≤ heap.sizeOf b :=
  (h.blocks b hb).1

theorem Tiled.holds (hb : b ∈ B) :
    ∃ s ∈ heap.segmentsList, s.Holds b ∧ b + heap.sizeOf b ≤ s.guard := by
  obtain ⟨s, hs, hfirst, hguard⟩ := h.inside b hb
  have := h.size_ge hb
  exact ⟨s, hs, ⟨hfirst, by omega⟩, hguard⟩

/-- Addresses held by two segments are in different places. -/
theorem Tiled.holds_unique {y : Nat} (hs : s ∈ heap.segmentsList) (ht : t ∈ heap.segmentsList)
    (hx : s.first ≤ x ∧ x ≤ s.guard) (hy : t.first ≤ y ∧ y ≤ t.guard) (hxy : x = y) : s = t := by
  by_contra hne
  have := (h.segments s hs).bounds
  have := (h.segments t ht).bounds
  have := h.segmentsApart s hs t ht hne
  rw [Segment.Apart] at this
  omega

theorem Tiled.end_le (hs : s ∈ heap.segmentsList) (hb : b ∈ B) (hholds : s.Holds b) :
    b + heap.sizeOf b ≤ s.guard := by
  obtain ⟨t, ht, hholds', hend⟩ := h.holds hb
  have heq := h.holds_unique hs ht ⟨hholds.1, hholds.2.le⟩ ⟨hholds'.1, hholds'.2.le⟩ rfl
  rw [heq]
  exact hend

/-- The block before one that is not the first of its segment. -/
theorem Tiled.before (hs : s ∈ heap.segmentsList) (hb : b ∈ B) (hholds : s.Holds b)
    (hne : b ≠ s.first) : ∃ c ∈ B, c + heap.sizeOf c = b := by
  -- The last of the blocks of the segment that begin before this one.
  let S := B.filter fun c => s.first ≤ c ∧ c < b
  have hmem : s.first ∈ S := by
    rw [Finset.mem_filter]
    have := hholds.1
    exact ⟨(h.first s hs).1, le_refl _, by omega⟩
  obtain ⟨c, hc, hmax⟩ := S.exists_max_image id ⟨_, hmem⟩
  rw [Finset.mem_filter] at hc
  refine ⟨c, hc.1, ?_⟩
  have hle := h.apart c hc.1 b hb hc.2.2
  have hsize := h.size_ge hc.1
  have hlt := hholds.2
  have hcin : s.Holds c := ⟨hc.2.1, by omega⟩
  rcases h.next s hs c hc.1 hcin with hnext | hguard
  · by_contra hne
    have hin : c + heap.sizeOf c ∈ S := by
      rw [Finset.mem_filter]
      exact ⟨hnext, by omega, by omega⟩
    have := hmax _ hin
    simp only [id_eq] at this
    omega
  · omega

theorem Tiled.isFirst_iff (hs : s ∈ heap.segmentsList) (hb : b ∈ B) (hholds : s.Holds b) :
    heap.IsFirstBlock b ↔ b = s.first := by
  constructor
  · intro hfirst
    by_contra hne
    obtain ⟨c, hc, hend⟩ := h.before hs hb hholds hne
    have hprev := h.boundary c hc
    rw [hend, hfirst, firstMark] at hprev
    exact h.kind c hc (by rw [Heap.IsGuardBlock, ← hprev])
  · intro heq
    rw [heq]
    exact (h.first s hs).2

theorem Tiled.isGuard_iff (hs : s ∈ heap.segmentsList) (hb : b ∈ B) (hholds : s.Holds b) :
    heap.IsGuardBlock (b + heap.sizeOf b) ↔ b + heap.sizeOf b = s.guard := by
  constructor
  · intro hguard
    rcases h.next s hs b hb hholds with hnext | hnext
    · exact absurd hguard (h.kind _ hnext)
    · exact hnext
  · intro heq
    rw [heq]
    exact h.last s hs

theorem Tiled.next_of_free (hb : b ∈ B) (hfree : heap.IsFreeBlock (b + heap.sizeOf b)) :
    b + heap.sizeOf b ∈ B := by
  obtain ⟨s, hs, hholds, -⟩ := h.holds hb
  rcases h.next s hs b hb hholds with hnext | hguard
  · exact hnext
  · have hlast := h.last s hs
    rw [Heap.IsGuardBlock, ← hguard, hfree] at hlast
    cases hlast

theorem Tiled.prev_of_free (hb : b ∈ B) (hfree : heap.PrevBlockIsFree b) :
    heap.prevBlock b ∈ B ∧ heap.IsFreeBlock (heap.prevBlock b) ∧
      heap.prevBlock b + heap.sizeOf (heap.prevBlock b) = b := by
  obtain ⟨s, hs, hholds, -⟩ := h.holds hb
  have hne : b ≠ s.first := by
    intro heq
    have hfirst := (h.isFirst_iff hs hb hholds).mpr heq
    rw [Heap.PrevBlockIsFree, hfirst] at hfree
    cases hfree
  obtain ⟨c, hc, hend⟩ := h.before hs hb hholds hne
  have hprev := h.boundary c hc
  have heq : heap.prevBlock b = c := by
    rw [Heap.prevBlock, ← hend, hprev]
    exact Nat.add_sub_cancel c _
  rw [hend] at hprev
  rw [heq]
  refine ⟨hc, ?_, hend⟩
  rw [Heap.IsFreeBlock, ← hprev]
  exact hfree

end

/-! Consecutive blocks. -/

theorem BlockRun.le (hrun : BlockRun heap B a l e) : a ≤ e := by
  induction hrun with
  | nil a => exact le_refl a
  | cons ha hrun ih => omega

section

variable (h : Tiled heap B) (hrun : BlockRun heap B a l e)
include h hrun

theorem BlockRun.size :
    8 ∣ e - a ∧ (l ≠ [] → 32 ≤ e - a) := by
  induction hrun with
  | nil a => simp
  | cons ha hrun ih =>
    have := hrun.le
    have := h.size_ge ha
    have hdvd := (h.blocks _ ha).2
    refine ⟨?_, fun _ => ?_⟩ <;> omega

theorem BlockRun.ends (hs : s ∈ heap.segmentsList) (hholds : s.Holds a) (hne : l ≠ []) :
    e ≤ s.guard ∧ (e ∈ B ∨ e = s.guard) := by
  induction hrun with
  | nil a => exact absurd rfl hne
  | @cons a e l ha hrun ih =>
    have hnext := h.next s hs a ha hholds
    have hend := h.end_le hs ha hholds
    cases hrun with
    | nil => exact ⟨hend, hnext⟩
    | cons hb hrun =>
      have hlt : a + heap.sizeOf a ≠ s.guard := by
        intro heq
        exact h.kind _ hb (heq ▸ h.last s hs)
      exact ih ⟨by have := hholds.1; omega, by omega⟩ (List.cons_ne_nil _ _)

theorem BlockRun.mem_iff (x : Nat) :
    x ∈ l ↔ x ∈ B ∧ a ≤ x ∧ x < e := by
  induction hrun with
  | nil a => simp
  | @cons a e l ha hrun ih =>
    have := hrun.le
    have := h.size_ge ha
    rw [List.mem_cons, ih]
    constructor
    · rintro (rfl | ⟨hx, hle, hlt⟩)
      · exact ⟨ha, le_refl _, by omega⟩
      · exact ⟨hx, by omega, hlt⟩
    · rintro ⟨hx, hle, hlt⟩
      rcases Nat.lt_or_eq_of_le hle with hlt' | heq
      · exact .inr ⟨hx, h.apart a ha x hx hlt', hlt⟩
      · exact .inl heq.symm

end

theorem BlockRun.head_mem (hrun : BlockRun heap B a l e) (hne : l ≠ []) : a ∈ B := by
  cases hrun with
  | nil => exact absurd rfl hne
  | cons ha _ => exact ha

/-! What the writes of a header change. -/

theorem setBlock_infoSize (heap : Heap) (b : Nat) (type : BlockType) (size x : Nat) :
    (heap.setBlock b type size).infoSize x = if x = b then ⟨type, size⟩ else heap.infoSize x :=
  update_apply heap.infoSize b ⟨type, size⟩ x

theorem setBlock_infoPrev (heap : Heap) (b : Nat) (type : BlockType) (size x : Nat) :
    (heap.setBlock b type size).infoPrev x =
      if x = b + size then ⟨type, size⟩ else heap.infoPrev x :=
  update_apply heap.infoPrev (b + size) ⟨type, size⟩ x

theorem setBlock_sizeOf (heap : Heap) (b : Nat) (type : BlockType) (size x : Nat) :
    (heap.setBlock b type size).sizeOf x = if x = b then size else heap.sizeOf x := by
  rw [Heap.sizeOf, setBlock_infoSize]
  split <;> rfl

theorem setBlock_sizeOf_self (heap : Heap) (b : Nat) (type : BlockType) (size : Nat) :
    (heap.setBlock b type size).sizeOf b = size := by
  rw [setBlock_sizeOf, if_pos rfl]

theorem setBlock_sizeOf_ne (heap : Heap) (type : BlockType) (size : Nat)
    (hne : x ≠ b) : (heap.setBlock b type size).sizeOf x = heap.sizeOf x := by
  rw [setBlock_sizeOf, if_neg hne]

theorem setBlock_infoSize_ne (heap : Heap) (type : BlockType) (size : Nat)
    (hne : x ≠ b) : (heap.setBlock b type size).infoSize x = heap.infoSize x := by
  rw [setBlock_infoSize, if_neg hne]

theorem setBlock_infoPrev_ne (heap : Heap) (type : BlockType) (size : Nat)
    (hne : x ≠ b + size) : (heap.setBlock b type size).infoPrev x = heap.infoPrev x := by
  rw [setBlock_infoPrev, if_neg hne]

/-- The header of a block that is cut in two is written over. -/
theorem setBlock_setBlock (heap : Heap) (b : Nat) (type type' : BlockType) (m r : Nat) :
    (((heap.setBlock b type (m + r)).setBlock b type m).setBlock (b + m) type' r) =
      (heap.setBlock b type m).setBlock (b + m) type' r := by
  simp only [Heap.setBlock, update_idem, ← add_assoc]
  rw [Heap.mk.injEq]
  refine ⟨rfl, ?_, rfl, rfl, rfl, rfl, rfl, rfl, rfl, rfl, rfl, rfl, rfl, rfl, rfl, rfl⟩
  funext x
  simp only [update_apply]
  split
  · rfl
  · split <;> rfl

/-! The changes that keep the segments tiled. -/

section Changes

variable (h : Tiled heap B)
include h

theorem Tiled.replace (hrun : BlockRun heap B a l e) (hne : l ≠ []) {type : BlockType}
    (htype : type ≠ .guard) (hB : ∀ x, x ∈ B' ↔ x = a ∨ x ∈ B ∧ (x < a ∨ e ≤ x)) :
    Tiled (heap.setBlock a type (e - a)) B' := by
  have ha := hrun.head_mem hne
  obtain ⟨hdvd, hmin⟩ := hrun.size h
  have hmin := hmin hne
  obtain ⟨t, ht, hholds, -⟩ := h.holds ha
  obtain ⟨hend, hnext⟩ := hrun.ends h ht hholds hne
  have heq : a + (e - a) = e := by omega
  -- Another segment is not touched.
  have hother : ∀ s ∈ heap.segmentsList, s ≠ t → e < s.first ∨ s.guard < a := by
    intro s hs hst
    have := (h.segments s hs).bounds
    have := (h.segments t ht).bounds
    have hapart := h.segmentsApart s hs t ht hst
    have := hholds.1
    rw [Segment.Apart] at hapart
    omega
  have hsame : ∀ x ∈ B, (x < a ∨ e ≤ x) →
      (heap.setBlock a type (e - a)).infoSize x = heap.infoSize x := by
    intro x _ hout
    rw [setBlock_infoSize_ne]
    omega
  have hsize : ∀ x ∈ B, (x < a ∨ e ≤ x) →
      (heap.setBlock a type (e - a)).sizeOf x = heap.sizeOf x := by
    intro x hx hout
    rw [Heap.sizeOf, hsame x hx hout, Heap.sizeOf]
  refine ⟨h.nodup, h.segments, h.segmentsApart, ?_, ?_, ?_, ?_, ?_, ?_, ?_, ?_⟩
  · intro s hs
    obtain ⟨hmem, hfirst⟩ := h.first s hs
    have hplace : s.first ≠ e ∧ (s.first = a ∨ s.first < a ∨ e ≤ s.first) := by
      by_cases hst : s = t
      · subst hst
        have := hholds.1
        omega
      · have := hother s hs hst
        have := (h.segments s hs).bounds
        omega
    refine ⟨?_, ?_⟩
    · rw [hB]
      rcases hplace.2 with heq | hout
      · exact .inl heq
      · exact .inr ⟨hmem, hout⟩
    · rw [Heap.IsFirstBlock, setBlock_infoPrev_ne]
      · exact hfirst
      · rw [heq]
        exact hplace.1
  · intro s hs
    rw [Heap.IsGuardBlock, setBlock_infoSize_ne]
    · exact h.last s hs
    · intro heq
      exact h.kind a ha (heq ▸ h.last s hs)
  · intro x hx
    rw [hB] at hx
    rcases hx with rfl | ⟨hx, hout⟩
    · refine ⟨t, ht, hholds.1, ?_⟩
      rw [setBlock_sizeOf_self, heq]
      exact hend
    · rw [hsize x hx hout]
      exact h.inside x hx
  · intro x hx
    rw [hB] at hx
    rcases hx with rfl | ⟨hx, hout⟩
    · rw [Heap.IsGuardBlock, setBlock_infoSize, if_pos rfl]
      exact htype
    · rw [Heap.IsGuardBlock, hsame x hx hout]
      exact h.kind x hx
  · intro x hx
    rw [hB] at hx
    rcases hx with rfl | ⟨hx, hout⟩
    · rw [setBlock_sizeOf_self]
      exact ⟨hmin, hdvd⟩
    · rw [hsize x hx hout]
      exact h.blocks x hx
  · intro x hx
    rw [hB] at hx
    rcases hx with rfl | ⟨hx, hout⟩
    · rw [setBlock_sizeOf_self, setBlock_infoPrev, if_pos rfl, setBlock_infoSize, if_pos rfl]
    · rw [hsize x hx hout, hsame x hx hout, setBlock_infoPrev_ne]
      · exact h.boundary x hx
      · have := h.size_ge hx
        rcases hout with hout | hout
        · have := h.apart x hx a ha hout
          omega
        · omega
  · intro s hs x hx hxs
    rw [hB] at hx
    rcases hx with rfl | ⟨hx, hout⟩
    · rw [setBlock_sizeOf_self, heq, hB]
      have hst := h.holds_unique hs ht ⟨hxs.1, hxs.2.le⟩ ⟨hholds.1, hholds.2.le⟩ rfl
      subst hst
      rcases hnext with hnext | hnext
      · exact .inl (.inr ⟨hnext, .inr (le_refl e)⟩)
      · exact .inr hnext
    · rw [hsize x hx hout, hB]
      rcases h.next s hs x hx hxs with hmem | hguard
      · left
        rcases hout with hout | hout
        · have := h.apart x hx a ha hout
          by_cases hto : x + heap.sizeOf x = a
          · exact .inl hto
          · exact .inr ⟨hmem, by omega⟩
        · exact .inr ⟨hmem, by omega⟩
      · exact .inr hguard
  · intro x hx y hy hxy
    rw [hB] at hx hy
    rcases hx with rfl | ⟨hx, hout⟩
    · rw [setBlock_sizeOf_self, heq]
      rcases hy with rfl | ⟨hy, hout⟩ <;> omega
    · rw [hsize x hx hout]
      rcases hy with rfl | ⟨hy, -⟩
      · exact h.apart x hx y ha hxy
      · exact h.apart x hx y hy hxy

theorem Tiled.split (hb : b ∈ B) {m r : Nat} (hsize : heap.sizeOf b = m + r)
    (hm : 32 ≤ m) (hdvd : 8 ∣ m) (hr : 32 ≤ r) (type type' : BlockType)
    (htype : type ≠ .guard) (htype' : type' ≠ .guard) :
    Tiled ((heap.setBlock b type m).setBlock (b + m) type' r) (insert (b + m) B) := by
  obtain ⟨t, ht, hholds, hend⟩ := h.holds hb
  have hdvd' := (h.blocks b hb).2
  have hnew : ∀ x ∈ B, x ≠ b + m := by
    intro x hx heq
    have := h.apart b hb x hx (by omega)
    omega
  have hself : ((heap.setBlock b type m).setBlock (b + m) type' r).infoSize b = ⟨type, m⟩ := by
    rw [setBlock_infoSize_ne _ _ _ (hnew b hb), setBlock_infoSize, if_pos rfl]
  have hhalf : ((heap.setBlock b type m).setBlock (b + m) type' r).infoSize (b + m) =
      ⟨type', r⟩ := by
    rw [setBlock_infoSize, if_pos rfl]
  have hother : ∀ x ∈ B, x ≠ b → ((heap.setBlock b type m).setBlock (b + m) type' r).infoSize x =
        heap.infoSize x := by
    intro x hx hne
    rw [setBlock_infoSize_ne _ _ _ (hnew x hx), setBlock_infoSize_ne _ _ _ hne]
  -- The three cases of a block: the first half, the second half, another one.
  have hcases : ∀ x ∈ insert (b + m) B, x = b + m ∨ x = b ∨ x ∈ B ∧ x ≠ b := by
    intro x hx
    rw [Finset.mem_insert] at hx
    by_cases hxb : x = b
    · exact .inr (.inl hxb)
    · exact hx.imp id fun hx => .inr ⟨hx, hxb⟩
  generalize hgen : (heap.setBlock b type m).setBlock (b + m) type' r = heap₂ at *
  have hsegments : heap₂.segmentsList = heap.segmentsList := by
    rw [← hgen]
    rfl
  have hprev : ∀ x, x ≠ b + m → x ≠ b + m + r → heap₂.infoPrev x = heap.infoPrev x := by
    intro x hne hne'
    rw [← hgen, setBlock_infoPrev_ne _ _ _ hne', setBlock_infoPrev_ne _ _ _ hne]
  have hsizeSelf : heap₂.sizeOf b = m := by rw [Heap.sizeOf, hself]
  have hsizeHalf : heap₂.sizeOf (b + m) = r := by rw [Heap.sizeOf, hhalf]
  have hsizeOther : ∀ x ∈ B, x ≠ b → heap₂.sizeOf x = heap.sizeOf x := by
    intro x hx hne
    rw [Heap.sizeOf, hother x hx hne, Heap.sizeOf]
  refine ⟨by rw [hsegments]; exact h.nodup, by rw [hsegments]; exact h.segments,
    by rw [hsegments]; exact h.segmentsApart, ?_, ?_, ?_, ?_, ?_, ?_, ?_, ?_⟩
  · intro s hs
    rw [hsegments] at hs
    obtain ⟨hmem, hfirst⟩ := h.first s hs
    refine ⟨Finset.mem_insert_of_mem hmem, ?_⟩
    rw [Heap.IsFirstBlock, hprev]
    · exact hfirst
    · exact hnew _ hmem
    · intro heq
      have := h.boundary b hb
      rw [hsize, ← add_assoc, ← heq, hfirst] at this
      exact h.kind b hb (by rw [Heap.IsGuardBlock, ← this]; rfl)
  · intro s hs
    rw [hsegments] at hs
    have hguard := h.last s hs
    rw [Heap.IsGuardBlock, ← hgen, setBlock_infoSize_ne, setBlock_infoSize_ne]
    · exact hguard
    · intro heq
      exact h.kind b hb (heq ▸ hguard)
    · intro heq
      have := hholds.1
      have hst := h.holds_unique hs ht ⟨by have := (h.segments s hs).bounds; omega,
        le_refl _⟩ ⟨by omega, by omega⟩ heq
      subst hst
      omega
  · intro x hx
    rw [hsegments]
    rcases hcases x hx with rfl | rfl | ⟨hx, hne⟩
    · rw [hsizeHalf]
      exact ⟨t, ht, by have := hholds.1; omega, by omega⟩
    · rw [hsizeSelf]
      exact ⟨t, ht, hholds.1, by omega⟩
    · rw [hsizeOther x hx hne]
      exact h.inside x hx
  · intro x hx
    rw [Heap.IsGuardBlock]
    rcases hcases x hx with rfl | rfl | ⟨hx, hne⟩
    · rw [hhalf]
      exact htype'
    · rw [hself]
      exact htype
    · rw [hother x hx hne]
      exact h.kind x hx
  · intro x hx
    rcases hcases x hx with rfl | rfl | ⟨hx, hne⟩
    · rw [hsizeHalf]
      exact ⟨hr, by omega⟩
    · rw [hsizeSelf]
      exact ⟨hm, hdvd⟩
    · rw [hsizeOther x hx hne]
      exact h.blocks x hx
  · intro x hx
    rcases hcases x hx with rfl | rfl | ⟨hx, hne⟩
    · rw [hsizeHalf, hhalf, ← hgen, setBlock_infoPrev, if_pos rfl]
    · rw [hsizeSelf, hself, ← hgen, setBlock_infoPrev_ne _ _ _ (by omega),
        setBlock_infoPrev, if_pos rfl]
    · rw [hsizeOther x hx hne, hother x hx hne, hprev]
      · exact h.boundary x hx
      · have := h.size_ge hx
        rcases Nat.lt_or_gt_of_ne hne with hlt | hgt
        · have := h.apart x hx b hb hlt
          omega
        · have := h.apart b hb x hx hgt
          omega
      · have := h.size_ge hx
        rcases Nat.lt_or_gt_of_ne hne with hlt | hgt
        · have := h.apart x hx b hb hlt
          omega
        · have := h.apart b hb x hx hgt
          omega
  · intro s hs x hx hxs
    rw [hsegments] at hs
    rw [Finset.mem_insert]
    rcases hcases x hx with rfl | rfl | ⟨hx, hne⟩
    · have hst := h.holds_unique hs ht ⟨hxs.1, hxs.2.le⟩ ⟨by have := hholds.1; omega, by omega⟩ rfl
      subst hst
      rw [hsizeHalf, add_assoc, ← hsize]
      exact (h.next s hs b hb hholds).imp .inr id
    · rw [hsizeSelf]
      exact .inl (.inl rfl)
    · rw [hsizeOther x hx hne]
      exact (h.next s hs x hx hxs).imp .inr id
  · intro x hx y hy hxy
    have hy' : y = b + m ∨ y ∈ B := Finset.mem_insert.mp hy
    rcases hcases x hx with rfl | rfl | ⟨hx, hne⟩
    · rw [hsizeHalf]
      rcases hy' with rfl | hy
      · omega
      · have := h.apart b hb y hy (by omega)
        omega
    · rw [hsizeSelf]
      rcases hy' with rfl | hy
      · exact le_refl _
      · have := h.apart x hb y hy hxy
        omega
    · rw [hsizeOther x hx hne]
      rcases hy' with rfl | hy
      · by_cases hlt : x < b
        · have := h.apart x hx b hb hlt
          omega
        · have := h.apart b hb x hx (by omega)
          omega
      · exact h.apart x hx y hy hxy

end Changes

/-- The tags outside of a segment are the same. -/
def AgreeOutside (heap heap' : Heap) (t : Segment) : Prop :=
  ∀ x, x < t.first ∨ t.guard < x →
    heap'.infoSize x = heap.infoSize x ∧ heap'.infoPrev x = heap.infoPrev x

theorem AgreeOutside.sizeOf (hagree : AgreeOutside heap heap' t)
    (hx : x < t.first ∨ t.guard < x) : heap'.sizeOf x = heap.sizeOf x := by
  rw [Heap.sizeOf, (hagree x hx).1, Heap.sizeOf]

/-- Segments that are apart hold different addresses, guard blocks included. -/
theorem Segment.Apart.outside (hs : s.Valid) (ht : t.Valid)
    (hapart : s.Apart t) (hx : s.first ≤ x ∧ x ≤ s.guard) : x < t.first ∨ t.guard < x := by
  have := hs.bounds
  have := ht.bounds
  rw [Segment.Apart] at hapart
  omega

section Segments

variable (h : Tiled heap B)
include h

theorem Tiled.dropSegment (ht : t ∈ heap.segmentsList) (hnodup : heap'.segmentsList.Nodup)
    (hsegments : ∀ s, s ∈ heap'.segmentsList ↔ s ∈ heap.segmentsList ∧ s ≠ t)
    (hagree : AgreeOutside heap heap' t)
    (hB : ∀ x, x ∈ B' ↔ x ∈ B ∧ ¬t.Holds x) : Tiled heap' B' := by
  -- A block that stays is in a segment that stays.
  have hout : ∀ s ∈ heap.segmentsList, s ≠ t → ∀ x, s.first ≤ x ∧ x ≤ s.guard →
      x < t.first ∨ t.guard < x := fun s hs hne x hx =>
    (h.segmentsApart s hs t ht hne).outside (h.segments s hs) (h.segments t ht) hx
  have hstay : ∀ x ∈ B', ∃ s ∈ heap.segmentsList, s ≠ t ∧ s.Holds x ∧ x ∈ B ∧
      x + heap.sizeOf x ≤ s.guard ∧ heap'.sizeOf x = heap.sizeOf x := by
    intro x hx
    rw [hB] at hx
    obtain ⟨s, hs, hholds, hend⟩ := h.holds hx.1
    have hne : s ≠ t := fun heq => hx.2 (heq ▸ hholds)
    exact ⟨s, hs, hne, hholds, hx.1, hend, hagree.sizeOf (hout s hs hne x ⟨hholds.1, hholds.2.le⟩)⟩
  have hinfo : ∀ x ∈ B', heap'.infoSize x = heap.infoSize x := by
    intro x hx
    obtain ⟨s, hs, hne, hholds, -⟩ := hstay x hx
    exact (hagree x (hout s hs hne x ⟨hholds.1, hholds.2.le⟩)).1
  have hmem : ∀ s ∈ heap.segmentsList, s ≠ t → ∀ x ∈ B, s.first ≤ x ∧ x ≤ s.guard → x ∈ B' := by
    intro s hs hne x hx hin
    rw [hB]
    refine ⟨hx, fun hholds => ?_⟩
    have := hout s hs hne x hin
    rw [Segment.Holds] at hholds
    omega
  refine ⟨hnodup, ?_, ?_, ?_, ?_, ?_, ?_, ?_, ?_, ?_, ?_⟩
  · intro s hs
    exact h.segments s ((hsegments s).mp hs).1
  · intro s hs s' hs'
    exact h.segmentsApart s ((hsegments s).mp hs).1 s' ((hsegments s').mp hs').1
  · intro s hs
    obtain ⟨hs, hne⟩ := (hsegments s).mp hs
    obtain ⟨hfirst, hmark⟩ := h.first s hs
    have hin : s.first ≤ s.first ∧ s.first ≤ s.guard := by
      have := (h.segments s hs).bounds
      omega
    refine ⟨hmem s hs hne _ hfirst hin, ?_⟩
    rw [Heap.IsFirstBlock, (hagree _ (hout s hs hne _ hin)).2]
    exact hmark
  · intro s hs
    obtain ⟨hs, hne⟩ := (hsegments s).mp hs
    have hin : s.first ≤ s.guard ∧ s.guard ≤ s.guard := by
      have := (h.segments s hs).bounds
      omega
    rw [Heap.IsGuardBlock, (hagree _ (hout s hs hne _ hin)).1]
    exact h.last s hs
  · intro x hx
    obtain ⟨s, hs, hne, hholds, -, hend, hsize⟩ := hstay x hx
    rw [hsize]
    exact ⟨s, (hsegments s).mpr ⟨hs, hne⟩, hholds.1, hend⟩
  · intro x hx
    rw [Heap.IsGuardBlock, hinfo x hx]
    exact h.kind x ((hB x).mp hx).1
  · intro x hx
    obtain ⟨-, -, -, -, hxB, -, hsize⟩ := hstay x hx
    rw [hsize]
    exact h.blocks x hxB
  · intro x hx
    obtain ⟨s, hs, hne, hholds, hxB, hend, hsize⟩ := hstay x hx
    have := hholds.1
    rw [hsize, hinfo x hx, (hagree _ (hout s hs hne _ ⟨by omega, hend⟩)).2]
    exact h.boundary x hxB
  · intro s hs x hx hxs
    obtain ⟨hs, hne⟩ := (hsegments s).mp hs
    obtain ⟨-, -, -, -, hxB, -, hsize⟩ := hstay x hx
    rw [hsize]
    rcases h.next s hs x hxB hxs with hnext | hguard
    · have := hxs.1
      have := h.end_le hs hxB hxs
      exact .inl (hmem s hs hne _ hnext ⟨by omega, by omega⟩)
    · exact .inr hguard
  · intro x hx y hy hxy
    obtain ⟨-, -, -, -, hxB, -, hsize⟩ := hstay x hx
    rw [hsize]
    exact h.apart x hxB y ((hB y).mp hy).1 hxy

theorem Tiled.addSegment (ht : t.Valid) (hapart : ∀ s ∈ heap.segmentsList, s.Apart t)
    (hnodup : heap'.segmentsList.Nodup)
    (hsegments : ∀ s, s ∈ heap'.segmentsList ↔ s = t ∨ s ∈ heap.segmentsList)
    (hagree : AgreeOutside heap heap' t)
    (hfirst : heap'.IsFirstBlock t.first) (hguard : heap'.IsGuardBlock t.guard)
    {type : BlockType} (htype : type ≠ .guard)
    (hblock : heap'.infoSize t.first = ⟨type, t.guard - t.first⟩)
    (hprev : heap'.infoPrev t.guard = ⟨type, t.guard - t.first⟩) :
    Tiled heap' (insert t.first B) := by
  have hbounds := ht.bounds
  have hend : t.first + (t.guard - t.first) = t.guard := by omega
  have hsize : heap'.sizeOf t.first = t.guard - t.first := by rw [Heap.sizeOf, hblock]
  have hout : ∀ s ∈ heap.segmentsList, ∀ x, s.first ≤ x ∧ x ≤ s.guard →
      x < t.first ∨ t.guard < x := fun s hs x hx =>
    (hapart s hs).outside (h.segments s hs) ht hx
  have hold : ∀ x ∈ B, x < t.first ∨ t.guard < x := by
    intro x hx
    obtain ⟨s, hs, hholds, -⟩ := h.holds hx
    exact hout s hs x ⟨hholds.1, hholds.2.le⟩
  have hcases : ∀ x ∈ insert t.first B, x = t.first ∨
      x ∈ B ∧ heap'.infoSize x = heap.infoSize x ∧ heap'.sizeOf x = heap.sizeOf x := by
    intro x hx
    rw [Finset.mem_insert] at hx
    exact hx.imp id fun hx => ⟨hx, (hagree x (hold x hx)).1, hagree.sizeOf (hold x hx)⟩
  refine ⟨hnodup, ?_, ?_, ?_, ?_, ?_, ?_, ?_, ?_, ?_, ?_⟩
  · intro s hs
    rcases (hsegments s).mp hs with rfl | hs
    · exact ht
    · exact h.segments s hs
  · intro s hs s' hs' hne
    rcases (hsegments s).mp hs with rfl | hs <;> rcases (hsegments s').mp hs' with rfl | hs'
    · exact absurd rfl hne
    · exact (hapart s' hs').symm
    · exact hapart s hs
    · exact h.segmentsApart s hs s' hs' hne
  · intro s hs
    rcases (hsegments s).mp hs with rfl | hs
    · exact ⟨Finset.mem_insert_self _ _, hfirst⟩
    · obtain ⟨hmem, hmark⟩ := h.first s hs
      refine ⟨Finset.mem_insert_of_mem hmem, ?_⟩
      rw [Heap.IsFirstBlock, (hagree _ (hold _ hmem)).2]
      exact hmark
  · intro s hs
    rcases (hsegments s).mp hs with rfl | hs
    · exact hguard
    · have hin : s.first ≤ s.guard ∧ s.guard ≤ s.guard := by
        have := (h.segments s hs).bounds
        omega
      rw [Heap.IsGuardBlock, (hagree _ (hout s hs _ hin)).1]
      exact h.last s hs
  · intro x hx
    rcases hcases x hx with rfl | ⟨hx, -, hsame⟩
    · rw [hsize, hend]
      exact ⟨t, (hsegments t).mpr (.inl rfl), le_refl _, le_refl _⟩
    · obtain ⟨s, hs, hinside⟩ := h.inside x hx
      rw [hsame]
      exact ⟨s, (hsegments s).mpr (.inr hs), hinside⟩
  · intro x hx
    rw [Heap.IsGuardBlock]
    rcases hcases x hx with rfl | ⟨hx, hsame, -⟩
    · rw [hblock]
      exact htype
    · rw [hsame]
      exact h.kind x hx
  · intro x hx
    rcases hcases x hx with rfl | ⟨hx, -, hsame⟩
    · rw [hsize, alignedMinHeaderSize]
      have := ht.2.1
      omega
    · rw [hsame]
      exact h.blocks x hx
  · intro x hx
    rcases hcases x hx with rfl | ⟨hx, hinfo, hsame⟩
    · rw [hsize, hend, hprev, hblock]
    · obtain ⟨s, hs, hholds, hend⟩ := h.holds hx
      have := hholds.1
      rw [hsame, hinfo, (hagree _ (hout s hs _ ⟨by omega, hend⟩)).2]
      exact h.boundary x hx
  · intro s hs x hx hxs
    rw [Finset.mem_insert]
    rcases hcases x hx with rfl | ⟨hx, -, hsame⟩
    · rw [hsize, hend]
      rcases (hsegments s).mp hs with rfl | hs
      · exact .inr rfl
      · have := hout s hs _ ⟨hxs.1, hxs.2.le⟩
        omega
    · rw [hsame]
      rcases (hsegments s).mp hs with heq | hs
      · have := hold x hx
        rw [heq, Segment.Holds] at hxs
        omega
      · exact (h.next s hs x hx hxs).imp .inr id
  · intro x hx y hy hxy
    rcases hcases x hx with rfl | ⟨hx, -, hsame⟩
    · rw [hsize, hend]
      rcases hcases y hy with rfl | ⟨hy, -, -⟩
      · omega
      · have := hold y hy
        omega
    · rw [hsame]
      rcases hcases y hy with rfl | ⟨hy, -, -⟩
      · obtain ⟨s, hs, hholds, hend⟩ := h.holds hx
        have hst := hapart s hs
        have := (h.segments s hs).bounds
        rw [Segment.Apart] at hst
        have := hholds.1
        omega
      · exact h.apart x hx y hy hxy

end Segments

end Tiling

end PhpEngine.ZendMm

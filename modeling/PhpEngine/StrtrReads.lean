/-
`strtr` with an array reads within its text as long as one of its patterns fits.
-/
import PhpEngine.Decimal
import PhpEngine.StrtrArray
import Mathlib.Data.List.GetD

namespace PhpEngine

open Memory List Function

variable {text : Nat → UInt8} {len pos m : Nat} {patterns sorted : List PatNRepl}

theorem sizeSub_of_le {a b : Nat} (h : b ≤ a) (ha : a < ulongMod) : sizeSub a b = a - b := by
  rw [sizeSub, show a + ulongMod - b = a - b + ulongMod by omega, Nat.add_mod_right]
  exact Nat.mod_eq_of_lt (by omega)

theorem sizeAdd_of_lt {a b : Nat} (h : a + b < ulongMod) : sizeAdd a b = a + b :=
  Nat.mod_eq_of_lt h

theorem phpStrtrPopulateShift_le (patterns : List PatNRepl) (B m h : Nat) :
    phpStrtrPopulateShift patterns B m h ≤ m - B + 1 := by
  refine foldlRecOn (motive := fun e : Nat → Nat => ∀ h, e h ≤ m - B + 1) patterns _
    (fun _ => le_rfl)
    (fun e he p _ => ?_) h
  refine foldlRecOn (motive := fun e : Nat → Nat => ∀ h, e h ≤ m - B + 1)
    (List.range (m - B + 1)) _ he
    fun e he j _ h => ?_
  by_cases hh : h = (phpStrtrHash (p.at j) B &&& shiftMask).toNat
  · rw [hh, update_self]
    exact (min_le_left _ _).trans (he _)
  · rw [update_of_ne hh]
    exact he h

theorem bucketStarts_le (hashes : List UInt16) {i n : Nat} {lastH : UInt16} {entries : Nat → Int}
    (hn : i + hashes.length ≤ n) (h : ∀ k, entries k ≤ n) (k : Nat) :
    bucketStarts hashes i lastH entries k ≤ n := by
  induction hashes generalizing i lastH entries with
  | nil => exact h k
  | cons x hashes ih =>
    rw [length_cons] at hn
    rw [bucketStarts]
    split
    · refine ih (by omega) fun k => ?_
      by_cases hk : k = x.toNat
      · rw [hk, update_self]
        omega
      · rw [update_of_ne hk]
        exact h k
    · exact ih (by omega) h

theorem fillDown_le (i : Nat) {n : Int} {entries : Nat → Int} (h : ∀ k, entries k ≤ n) (k : Nat) :
    fillDown i entries k ≤ n := by
  induction i generalizing entries with
  | zero => exact h k
  | succ i ih =>
    refine ih fun k => ?_
    split
    · by_cases hk : k = i
      · rw [hk, update_self]
        exact h _
      · rw [update_of_ne hk]
        exact h k
    · exact h k

theorem prepare_bucket (patterns sorted : List PatNRepl) (h2 : Nat) :
    ∀ i ∈ (phpStrtrArrayPrepare patterns sorted 2 2).bucket h2, i < sorted.length := by
  intro i hi
  have hend : (phpStrtrArrayPrepare patterns sorted 2 2).hash (h2 + 1) ≤ sorted.length := by
    simp only [phpStrtrArrayPrepare]
    refine fillDown_le hashTabSize (fun k => ?_) (h2 + 1)
    by_cases hk : k = hashTabSize
    · rw [hk, update_self]
    · rw [update_of_ne hk]
      exact bucketStarts_le _ (by simp) (fun _ => by omega) k
  rw [Ppres.bucket, mem_range'_1] at hi
  omega

theorem minLength_spec (patterns : List PatNRepl) :
    (∀ p ∈ patterns, minLength patterns ≤ p.pat.length) ∧
      ((∀ p ∈ patterns, p.pat ≠ []) → 1 ≤ minLength patterns) := by
  have hgen : ∀ init, patterns.foldl (fun m p => min p.pat.length m) init ≤ init ∧
      (∀ p ∈ patterns, patterns.foldl (fun m p => min p.pat.length m) init ≤ p.pat.length) ∧
      (1 ≤ init → (∀ p ∈ patterns, p.pat ≠ []) →
        1 ≤ patterns.foldl (fun m p => min p.pat.length m) init) := by
    induction patterns with
    | nil => exact fun init => ⟨le_refl _, by simp, fun hinit _ => hinit⟩
    | cons p patterns ih =>
      intro init
      obtain ⟨ihle, ihall, ihpos⟩ := ih (min p.pat.length init)
      simp only [foldl_cons, forall_mem_cons]
      exact ⟨ihle.trans (min_le_right _ _), ⟨ihle.trans (min_le_left _ _), ihall⟩,
        fun hinit h => ihpos (le_min (length_pos_iff.mpr h.1) hinit) h.2⟩
  have hmin : minLength patterns =
      patterns.foldl (fun m p => min p.pat.length m) (ulongMod - 1) := by
    rw [minLength]
    congr 1
    funext m p
    split <;> omega
  obtain ⟨-, hall, hpos⟩ := hgen (ulongMod - 1)
  exact ⟨hmin ▸ hall, fun h => hmin ▸ hpos (by decide) h⟩

/-- `zend_qsort_r` ends with the same patterns. -/
theorem qsortPatterns_perm {deref : List UInt8 → PatNRepl} {mem : Nat → UInt8}
    (hmem : SlotsHold deref mem patterns) (hn : patterns.length < 2 ^ 64) {fuel : Nat}
    (hfuel : patterns.length + 2 ≤ fuel) (compare : PatNRepl → PatNRepl → Int) :
    ∃ sorted, qsortPatterns deref compare mem fuel patterns.length = some sorted ∧
      sorted.Perm patterns := by
  obtain ⟨s', hrun, -, hperm, -⟩ := @ZendQsort.Qsort.zendQsortR_run Unit
    ⟨patterns.length, 32, fun a b u => (compare (deref a) (deref b), u)⟩
    (show 0 < 32 by decide) hn _ hfuel ⟨mem, ()⟩
  refine ⟨_, by rw [qsortPatterns, hrun]; rfl, ?_⟩
  have hslots := hperm.map deref
  simp only [ZendQsort.Qsort.slots, List.map_map] at hslots ⊢
  exact hslots.trans (.of_eq hmem)

section Runs

theorem mem_indices {i n x : Nat} (hi : i + n ≤ len) (hlen : len < ulongMod)
    (h : x ∈ indices i n) : x < len := by
  obtain ⟨k, hk, rfl⟩ := List.mem_map.mp h
  have hkn := mem_range.mp hk
  rw [sizeAdd_of_lt (by omega)]
  omega

variable (text) in
/-- The search in a bucket reads within the text, and finds a pattern that ends there. -/
theorem findPattern_spec (d : Ppres) (prefixH : UInt16) (hlen : len < ulongMod) (hpos : pos ≤ len)
    (bucket : List Nat) :
    (∀ x ∈ (findPattern text len pos d prefixH bucket).1, x < len) ∧
      ∀ p, (findPattern text len pos d prefixH bucket).2 = some p → pos + p.pat.length ≤ len ∧
        ∃ i ∈ bucket, p = d.patterns.getD i default := by
  induction bucket with
  | nil => simp [findPattern]
  | cons i bucket ih =>
    obtain ⟨ihreads, ihfound⟩ := ih
    have hrest : ∀ p, (findPattern text len pos d prefixH bucket).2 = some p →
        pos + p.pat.length ≤ len ∧ ∃ j ∈ i :: bucket, p = d.patterns.getD j default := by
      intro p hp
      obtain ⟨hin, j, hj, heq⟩ := ihfound p hp
      exact ⟨hin, j, mem_cons_of_mem i hj, heq⟩
    simp only [findPattern, sizeSub_of_le hpos hlen]
    split
    · exact ⟨ihreads, hrest⟩
    · have hin : pos + (d.patterns.getD i default).pat.length ≤ len := by omega
      have hreads : ∀ x ∈ indices pos (d.patterns.getD i default).pat.length, x < len := fun x =>
        mem_indices hin hlen
      split
      · refine ⟨hreads, ?_⟩
        rintro p ⟨⟩
        exact ⟨hin, i, mem_cons_self, rfl⟩
      · exact ⟨forall_mem_append.mpr ⟨hreads, ihreads⟩, hrest⟩

variable {s : ReplState} (hlen : len < ulongMod - 1) (hne : ∀ p ∈ patterns, p.pat ≠ [])
  (hperm : sorted.Perm patterns)
include hlen hne hperm

variable (text) in
theorem replTurn_spec (hfits : s.pos + minLength patterns ≤ len) :
    (∀ x ∈ (replTurn text len (phpStrtrArrayPrepare patterns sorted 2 2) s).1, x < len) ∧
      s.pos < (replTurn text len (phpStrtrArrayPrepare patterns sorted 2 2) s).2.pos ∧
      (replTurn text len (phpStrtrArrayPrepare patterns sorted 2 2) s).2.pos ≤ len := by
  have hmpos := (minLength_spec patterns).2 hne
  have hbucket := prepare_bucket patterns sorted
  have hB : (phpStrtrArrayPrepare patterns sorted 2 2).B = min 2 (minLength patterns) := rfl
  have hBp : (phpStrtrArrayPrepare patterns sorted 2 2).Bp = min 2 (minLength patterns) := rfl
  have hdm : (phpStrtrArrayPrepare patterns sorted 2 2).m = minLength patterns := rfl
  have hmem : (phpStrtrArrayPrepare patterns sorted 2 2).patterns = sorted := rfl
  have hshift : ∀ h, (phpStrtrArrayPrepare patterns sorted 2 2).shift h ≤
      minLength patterns - min 2 (minLength patterns) + 1 := phpStrtrPopulateShift_le _ _ _
  generalize phpStrtrArrayPrepare patterns sorted 2 2 = d at *
  generalize minLength patterns = m at *
  have hwindow : sizeSub (sizeAdd s.pos d.m) d.B = s.pos + (m - min 2 m) := by
    rw [hdm, hB, sizeAdd_of_lt (by omega), sizeSub_of_le (by omega) (by omega)]
    omega
  have hwindowReads : ∀ x ∈ indices (s.pos + (m - min 2 m)) d.B, x < len := fun x =>
    mem_indices (by omega) (by omega)
  simp only [replTurn, hwindow]
  generalize textHash text (s.pos + (m - min 2 m)) d.B &&& shiftMask = h
  have hle := hshift h.toNat
  by_cases hpos : 0 < d.shift h.toNat
  · simp only [if_pos hpos]
    rw [sizeAdd_of_lt (by omega)]
    exact ⟨hwindowReads, by omega, by omega⟩
  · simp only [if_neg hpos]
    obtain ⟨hreads, hfound⟩ := findPattern_spec text d (textHash text s.pos d.Bp)
      (show len < ulongMod by omega)
      (show s.pos ≤ len by omega) (d.bucket (h &&& hashMask).toNat)
    refine ⟨forall_mem_append.mpr ⟨forall_mem_append.mpr ⟨hwindowReads, fun x =>
      mem_indices (by omega) (by omega)⟩, hreads⟩, ?_⟩
    split
    next p hp =>
      obtain ⟨hin, i, hi, rfl⟩ := hfound p hp
      -- the pattern is one of the table, so it is not empty
      have hi := hbucket _ i hi
      rw [hmem, getD_eq_getElem _ _ hi] at hin ⊢
      have hlength := length_pos_iff.mpr (hne _ (hperm.mem_iff.mp (getElem_mem hi)))
      simp only
      rw [sizeAdd_of_lt (by omega)]
      omega
    next =>
      simp only
      rw [sizeAdd_of_lt (by omega)]
      omega

variable (text) in
theorem phpStrtrArrayDoRepl_spec (hm : minLength patterns ≤ len) {fuel : Nat}
    (hpos : s.pos ≤ len) (hfuel : len < fuel + s.pos) :
    ∃ reads out, phpStrtrArrayDoRepl text len (phpStrtrArrayPrepare patterns sorted 2 2) fuel s =
        some (reads, out) ∧ ∀ x ∈ reads, x < len := by
  induction fuel generalizing s with
  | zero => omega
  | succ fuel ih =>
    have hlast : sizeSub len (phpStrtrArrayPrepare patterns sorted 2 2).m =
      len - minLength patterns := sizeSub_of_le hm (by omega)
    rw [phpStrtrArrayDoRepl, hlast]
    by_cases hfits : s.pos ≤ len - minLength patterns
    · rw [if_pos hfits]
      obtain ⟨hreads, hgrows, hle⟩ := replTurn_spec text hlen hne hperm
        (show s.pos + minLength patterns ≤ len by omega)
      obtain ⟨reads, out, hrun, hrest⟩ := ih hle (by omega)
      exact ⟨_, out, by simp only [hrun, Option.map_some], forall_mem_append.mpr ⟨hreads, hrest⟩⟩
    · rw [if_neg hfits]
      exact ⟨[], _, rfl, by simp⟩

end Runs

/-- The array that `strtr` is given: none of its keys is empty. -/
structure StrtrTable where
  entries : List PatNRepl
  nonempty : ∀ p ∈ entries, p.pat ≠ []
  size : entries.length < 2 ^ 32

namespace StrtrTable

/-- The patterns that can match in a text of `slen` bytes. -/
def fitting (table : StrtrTable) (slen : Nat) : List PatNRepl :=
  table.entries.filter fun p => p.pat.length ≤ slen

variable (table : StrtrTable) {deref : List UInt8 → PatNRepl} {mem : Nat → UInt8} {slen fuel : Nat}

theorem fitting_nonempty : ∀ p ∈ table.fitting slen, p.pat ≠ [] := fun p hp =>
  table.nonempty p (mem_filter.mp hp).1

theorem minLength_fitting_le (hfits : ∃ p ∈ table.entries, p.pat.length ≤ slen) :
    minLength (table.fitting slen) ≤ slen := by
  obtain ⟨p, hp, hle⟩ := hfits
  have hmin := (minLength_spec (table.fitting slen)).1
  exact (hmin p (mem_filter.mpr ⟨hp, decide_eq_true hle⟩)).trans hle

/-- `strtr` reads within its text if and only if one pattern is not longer than the text. -/
theorem phpStrtrArray_reads_iff (hslen : slen < 2 ^ 31) (hne : table.entries ≠ [])
    (hmem : SlotsHold deref mem (table.fitting slen))
    (hfuel : slen + table.entries.length + 2 ≤ fuel) :
    ∃ reads out, phpStrtrArray deref mem text slen table.entries fuel = some (reads, out) ∧
      ((∀ i ∈ reads, i < slen) ↔ ∃ p ∈ table.entries, p.pat.length ≤ slen) := by
  have hle : (table.fitting slen).length ≤ table.entries.length := length_filter_le ..
  have hsize := table.size
  obtain ⟨sorted, hsort, hperm⟩ := qsortPatterns_perm hmem (by omega)
    (show (table.fitting slen).length + 2 ≤ fuel by omega) (phpStrtrCompareHashSuffix
      (min 2 (minLength (table.fitting slen))) (minLength (table.fitting slen)))
  have heq : phpStrtrArray deref mem text slen table.entries fuel = phpStrtrArrayDoRepl text slen
      (phpStrtrArrayPrepare (table.fitting slen) sorted 2 2) fuel ⟨0, 0, []⟩ := by
    rw [phpStrtrArray, if_neg (by simpa using hne)]
    simp only [fitting] at hsort ⊢
    rw [hsort, Option.bind_some]
  by_cases hfits : ∃ p ∈ table.entries, p.pat.length ≤ slen
  · obtain ⟨reads, out, hrun, hreads⟩ := phpStrtrArrayDoRepl_spec text
      (show slen < ulongMod - 1 by rw [ulongMod]; omega) table.fitting_nonempty hperm
      (s := ⟨0, 0, []⟩) (table.minLength_fitting_le hfits) (Nat.zero_le _) (show slen < fuel + 0 by omega)
    exact ⟨reads, _, heq.trans hrun, iff_of_true hreads hfits⟩
  · -- no pattern is left: one hash is taken three bytes in front of the text
    have hnil : table.fitting slen = [] := by
      rw [fitting, filter_eq_nil_iff]
      exact fun p hp hle => hfits ⟨p, hp, of_decide_eq_true hle⟩
    rw [hnil] at heq
    obtain ⟨fuel, rfl⟩ : ∃ n, fuel = n + 1 + 1 := ⟨fuel - 2, by omega⟩
    have hm : (phpStrtrArrayPrepare [] sorted 2 2).m = ulongMod - 1 := rfl
    have hB : (phpStrtrArrayPrepare [] sorted 2 2).B = 2 := rfl
    have hlast : sizeSub slen (ulongMod - 1) = slen + 1 := by
      rw [sizeSub, ulongMod]
      omega
    have hshift : ∀ h, (phpStrtrArrayPrepare [] sorted 2 2).shift h = ulongMod - 2 := fun _ => rfl
    have hturn : replTurn text slen (phpStrtrArrayPrepare [] sorted 2 2) ⟨0, 0, []⟩ =
        (indices (ulongMod - 3) 2, ⟨ulongMod - 2, 0, []⟩) := by
      simp only [replTurn, hshift, hm, hB]
      rw [if_pos (by decide), show sizeSub (sizeAdd 0 (ulongMod - 1)) 2 = ulongMod - 3 by decide,
        show sizeAdd 0 (ulongMod - 2) = ulongMod - 2 by decide]
    refine ⟨indices (ulongMod - 3) 2, slice text 0 slen, ?_, iff_of_false (fun h => ?_) hfits⟩
    · rw [heq, phpStrtrArrayDoRepl, hm, hlast, if_pos (Nat.zero_le _)]
      simp only [hturn]
      rw [phpStrtrArrayDoRepl, hm, hlast, if_neg (by simp only [ulongMod]; omega)]
      rfl
    · have hfirst := h (ulongMod - 3) (by decide)
      rw [ulongMod] at hfirst
      omega

/-- `array("a" => "b")` -/
def aToB : StrtrTable where
  entries := [⟨[byte 'a'], [byte 'b']⟩]
  nonempty := by decide
  size := by decide

theorem phpStrtrArray_reads_iff_aToB :
    ∃ reads out, phpStrtrArray (fun _ => ⟨[byte 'a'], [byte 'b']⟩) (fun _ => 0) (fun _ => byte 'a')
        3 aToB.entries 6 = some (reads, out) ∧
      ((∀ i ∈ reads, i < 3) ↔ ∃ p ∈ aToB.entries, p.pat.length ≤ 3) :=
  aToB.phpStrtrArray_reads_iff (by decide) (by decide) rfl (by decide)

/-- `strtr("a", array("aa" => "b"))` hashes bytes in front of the text. -/
theorem phpStrtrArray_reads_outside :
    ∃ reads out, phpStrtrArray (fun _ => ⟨[byte 'a', byte 'a'], [byte 'b']⟩) (fun _ => 0)
        (fun _ => byte 'a') 1 [⟨[byte 'a', byte 'a'], [byte 'b']⟩] 4 = some (reads, out) ∧
      ¬∀ i ∈ reads, i < 1 :=
  ⟨[ulongMod - 3, ulongMod - 2], [byte 'a'], by decide, by decide⟩

end StrtrTable

end PhpEngine

/-
The merging loop.  At every turn the new table is a row of groups, each copied
from a literal of the old table with the literals related to it, and every
literal met so far points at the group of a literal that it could not be told
from.
-/
import PhpEngine.LiteralGroups
import PhpEngine.Layout

namespace PhpEngine

open List

variable {n c : Nat} {key : LiteralKey} {before : List Nat} {info : LiteralInfo}

variable {α : Type}

/-- The state of the loop at `i`, where `kept` are the literals that went into
the new table. -/
structure Merged (T : MarkedTable α) (s : MergeState α) (i : Nat)
    (kept : List Nat) : Prop extends InPlace T s i where
  mapLength : s.map.length = T.literals.length
  count : s.j = totalSize T.size kept
  cacheSlots : s.cacheSlots = totalSize T.slots kept
  leaders : ∀ c ∈ kept, c < i ∧ infoAt T.info c ≠ none
  stored : ∀ before c, PlacedAt kept before c →
    GroupStored T s (totalSize T.size before) (totalSize T.slots before) c
  own : ∀ before c, PlacedAt kept before c → s.map[c]? = some (totalSize T.size before)
  mapped : ∀ n < i, infoAt T.info n ≠ none → ∃ before c,
    PlacedAt kept before c ∧ s.map[n]? = some (totalSize T.size before) ∧ (c = n ∨ T.Alike c n)
  found : ∀ key pos, key.Valid → s.find key = some pos → ∃ before c,
    PlacedAt kept before c ∧ pos = totalSize T.size before ∧ T.key c = some key
  known : ∀ n < i, ∀ key, T.key n = some key → ∃ before c,
    PlacedAt kept before c ∧ s.find key = some (totalSize T.size before) ∧
      ((T.constant n).sameType (T.constant c) = true → s.map[n]? = some (totalSize T.size before))

namespace Merged

variable {T : MarkedTable α} {s s' : MergeState α} {i : Nat} {kept : List Nat}

theorem skip (h : Merged T s i kept) (hnone : infoAt T.info i = none) :
    Merged T s (i + 1) kept where
  literalsLength := h.literalsLength
  infoLength := h.infoLength
  mapLength := h.mapLength
  count := h.count
  cacheSlots := h.cacheSlots
  behind := Nat.le_succ_of_le h.behind
  ahead := fun n hn => h.ahead n (by omega)
  leaders := fun c hc => ⟨Nat.lt_succ_of_lt (h.leaders c hc).1, (h.leaders c hc).2⟩
  stored := h.stored
  own := h.own
  mapped := by
    intro n hn hmarked
    have hne : n ≠ i := fun heq => hmarked (heq ▸ hnone)
    exact h.mapped n (by omega) hmarked
  found := h.found
  known := by
    intro n hn key hkey
    have hne : n ≠ i := by
      rintro rfl
      rw [T.key_eq_none_of_unmarked hnone] at hkey
      cases hkey
    exact h.known n (by omega) key hkey

/-- A literal behind `i` that is marked has been met, up to the end of the
group of `i`. -/
theorem lt_of_lt_group (hgrouped : T.Grouped)
    (hmarked : infoAt T.info i ≠ none) (hn : n < i + T.size i)
    (hn' : infoAt T.info n ≠ none) : n < i ∨ n = i := by
  rcases Nat.lt_trichotomy n i with hlt | heq | hgt
  · exact .inl hlt
  · exact .inr heq
  · exact absurd (hgrouped.apart i hmarked n hgt hn) hn'

theorem marked_of_key (hkey : T.key n = some key) : infoAt T.info n ≠ none := by
  intro hnone
  rw [T.key_eq_none_of_unmarked hnone] at hkey
  cases hkey

section

variable (h : Merged T s i kept)
include h

/-- A literal that is found is dropped, and its group with it. -/
theorem share (hgrouped : T.Grouped) (hi : i < T.literals.length) (hmarked : infoAt T.info i ≠ none)
    (hplaced : PlacedAt kept before c) (halike : T.Alike c i)
    (hfind : ∀ key, T.key i = some key → s.find key = some (totalSize T.size before)) :
    Merged T (s.point i (totalSize T.size before)) (i + T.size i) kept where
  literalsLength := h.literalsLength
  infoLength := h.infoLength
  mapLength := (length_set ..).trans h.mapLength
  count := h.count
  cacheSlots := h.cacheSlots
  behind := Nat.le_add_right_of_le h.behind
  ahead := fun n hn => h.ahead n (by omega)
  leaders := fun c hc => ⟨Nat.lt_add_right _ (h.leaders c hc).1, (h.leaders c hc).2⟩
  stored := fun before c hc =>
    ⟨(h.stored before c hc).constants, (h.stored before c hc).info,
      (h.stored before c hc).cacheSlot⟩
  own := by
    intro before' c' hc'
    have hlt := (h.leaders c' hc'.mem).1
    rw [MergeState.point, getElem?_set_ne (by omega), h.own before' c' hc']
  mapped := by
    intro n hn hn'
    have hlength := h.mapLength
    rcases lt_of_lt_group hgrouped hmarked hn hn' with hlt | rfl
    · obtain ⟨before', c', hc', hmap, hsame⟩ := h.mapped n hlt hn'
      refine ⟨before', c', hc', ?_, hsame⟩
      rw [MergeState.point, getElem?_set_ne (by omega), hmap]
    · refine ⟨before, c, hplaced, ?_, .inr halike⟩
      rw [MergeState.point, getElem?_set_self (by omega)]
  found := h.found
  known := by
    intro n hn key hkey
    have hlength := h.mapLength
    rcases lt_of_lt_group hgrouped hmarked hn (marked_of_key hkey) with
      hlt | rfl
    · obtain ⟨before', c', hc', hfound, hmap⟩ := h.known n hlt key hkey
      refine ⟨before', c', hc', hfound, fun htype => ?_⟩
      rw [MergeState.point, getElem?_set_ne (by omega), hmap htype]
    · refine ⟨before, c, hplaced, hfind key hkey, fun _ => ?_⟩
      rw [MergeState.point, getElem?_set_self (by omega)]

/-- The groups that are in the new table stay as they are. -/
theorem stored_of_keeps (hkeeps : Keeps T s s' i) (hplaced : PlacedAt kept before c) :
    GroupStored T s' (totalSize T.size before) (totalSize T.slots before) c := by
  have hold := h.stored before c hplaced
  have hend := hplaced.end_le T.size
  have hpos := T.size_pos c
  rw [← h.count] at hend
  have hliteral : ∀ t < T.size c, s'.literals[totalSize T.size before + t]? =
        s.literals[totalSize T.size before + t]? := fun t ht =>
    hkeeps.literals _ (.inl (by omega))
  constructor
  · intro t ht
    rw [← hold.constants t ht, constantAt, constantAt, hliteral t ht]
  · rw [← hold.info, infoAt, infoAt, hkeeps.info _ (by omega)]
  · have hfirst := literalAt_of_getElem? (hliteral 0 hpos)
    rw [add_zero] at hfirst
    rw [← hold.cacheSlot, hfirst]

/-- A literal that is not found, or only under another type, is kept. -/
theorem keep (hgrouped : T.Grouped) (hi : i < T.literals.length) (hmarked : infoAt T.info i ≠ none)
    (hkeeps : Keeps T s s' i) (hfind : ∀ key, key.Valid → s'.find key =
      if T.key i = some key then (s.find key).or (some s.j) else s.find key)
    (hclash : ∀ key before c, T.key i = some key → PlacedAt kept before c →
      s.find key = some (totalSize T.size before) →
      (T.constant i).sameType (T.constant c) = false) :
    Merged T s' (i + T.size i) (kept ++ [i]) := by
  have hlength := h.mapLength
  have hlast := PlacedAt.last kept i
  have hmap : ∀ n < i, s'.map[n]? = s.map[n]? := fun n hn => by
    rw [hkeeps.map, getElem?_set_ne (by omega)]
  have hmapi : s'.map[i]? = some (totalSize T.size kept) := by
    rw [hkeeps.map, getElem?_set_self (by omega), h.count]
  refine
    { literalsLength := hkeeps.literalsLength.trans h.literalsLength
      infoLength := hkeeps.infoLength.trans h.infoLength
      mapLength := by rw [hkeeps.map, length_set, hlength]
      count := by rw [hkeeps.j, h.count]; simp
      cacheSlots := by rw [hkeeps.cacheSlots, h.cacheSlots]; simp
      behind := by rw [hkeeps.j]; exact Nat.add_le_add_right h.behind _
      ahead := ?_, leaders := ?_, stored := ?_, own := ?_, mapped := ?_,
      found := ?_, known := ?_ }
  · intro n hn
    have hbehind := h.behind
    have hpos := T.size_pos i
    rw [hkeeps.literals n (.inr (by omega)), hkeeps.info n (by omega)]
    exact h.ahead n (by omega)
  · intro c hc
    rcases mem_append.mp hc with hc | hc
    · exact ⟨Nat.lt_add_right _ (h.leaders c hc).1, (h.leaders c hc).2⟩
    · rw [mem_singleton.mp hc]
      exact ⟨Nat.lt_add_of_pos_right (T.size_pos i), hmarked⟩
  · intro before c hplaced
    rcases hplaced.of_append with hold | ⟨rfl, rfl⟩
    · exact h.stored_of_keeps hkeeps hold
    · rw [← h.count, ← h.cacheSlots]
      exact hkeeps.stored
  · intro before c hplaced
    rcases hplaced.of_append with hold | ⟨rfl, rfl⟩
    · exact (hmap c (h.leaders c hold.mem).1).trans (h.own before c hold)
    · exact hmapi
  · intro n hn hn'
    rcases lt_of_lt_group hgrouped hmarked hn hn' with hlt | rfl
    · obtain ⟨before, c, hplaced, hpoints, hsame⟩ := h.mapped n hlt hn'
      exact ⟨before, c, hplaced.append [i], (hmap n hlt).trans hpoints, hsame⟩
    · exact ⟨kept, n, hlast, hmapi, .inl rfl⟩
  · intro key pos hvalid hsome
    rw [hfind key hvalid] at hsome
    have hold : s.find key = some pos → ∃ before c,
        PlacedAt (kept ++ [i]) before c ∧ pos = totalSize T.size before ∧
          T.key c = some key := fun hsome => by
      obtain ⟨before, c, hplaced, hfacts⟩ := h.found key pos hvalid hsome
      exact ⟨before, c, hplaced.append [i], hfacts⟩
    split at hsome
    · case isTrue hkey =>
        cases hfound : s.find key with
        | some old =>
          rw [hfound] at hsome
          exact hold (hfound.trans hsome)
        | none =>
          rw [hfound] at hsome
          cases hsome
          exact ⟨kept, i, hlast, h.count, hkey⟩
    · exact hold hsome
  · intro n hn key hkey
    have hvalid := T.key_valid hkey
    rcases lt_of_lt_group hgrouped hmarked hn (marked_of_key hkey) with
      hlt | rfl
    · obtain ⟨before, c, hplaced, hfound, hpoints⟩ := h.known n hlt key hkey
      refine ⟨before, c, hplaced.append [i], ?_, fun htype =>
        (hmap n hlt).trans (hpoints htype)⟩
      rw [hfind key hvalid, hfound]
      split <;> rfl
    · have hfind' := hfind key hvalid
      rw [if_pos hkey] at hfind'
      cases hfound : s.find key with
      | none =>
        refine ⟨kept, n, hlast, ?_, fun _ => hmapi⟩
        rw [hfind', hfound, h.count]
        rfl
      | some pos =>
        obtain ⟨before, c, hplaced, rfl, -⟩ := h.found key pos hvalid hfound
        refine ⟨before, c, hplaced.append [n], ?_, fun htype => ?_⟩
        · rw [hfind', hfound]
          rfl
        · rw [hclash key before c hkey hplaced hfound] at htype
          cases htype

theorem constant_of_placed (hgrouped : T.Grouped) (hplaced : PlacedAt kept before c) :
    (literalAt s.literals (totalSize T.size before)).constant = T.constant c := by
  have hfirst := (h.stored before c hplaced).constants 0 (T.size_pos c)
  rw [add_zero, add_zero, constantAt_eq (hgrouped.lt_length (h.leaders c hplaced.mem).2)] at hfirst
  exact constant_of_constantAt hfirst

/-- A string that is not a member points at its own text. -/
theorem text_of_mapped (hgrouped : T.Grouped) (hn : n < i) {text : KeyBytes}
    (htext : T.constant n = .string text) (hinfo : infoAt T.info n = some info)
    (hobj : info.flags.exObj = false) (hclass : info.flags.exClass = false) :
    (literalAt s.literals (s.map.getD n 0)).constant.text = text := by
  obtain ⟨before, c, hplaced, hmap, hsame⟩ := h.mapped n hn (by simp [hinfo])
  rw [getD_eq_getElem?_getD, hmap, Option.getD_some, h.constant_of_placed hgrouped hplaced]
  rcases hsame with rfl | halike
  · rw [htext]
    rfl
  · obtain ⟨info', -, hflags, hkey, -⟩ :=
      halike.of_text hinfo (by rw [htext]; rfl)
    simp only [MarkedTable.arKey, hflags, hobj, hclass, htext] at hkey
    exact append_cancel_right hkey

theorem arKey_eq (hgrouped : T.Grouped) (hinfo : infoAt T.info i = some info) :
    s.arKey i info = T.arKey i info := by
  unfold MergeState.arKey MarkedTable.arKey
  rw [h.literalAt_eq (le_refl i)]
  by_cases hclass : info.flags.exClass = true
  · obtain ⟨text, classInfo, htext, hclassInfo, hobj, hplain⟩ :=
      hgrouped.classes i info hinfo hclass
    have hname : (literalAt s.literals (if info.num.toNat < i then
        s.map.getD info.num.toNat 0 else info.num.toNat)).constant.text =
        (T.constant info.num.toNat).text := by
      split
      · case isTrue hlt =>
          rw [h.text_of_mapped hgrouped hlt htext hclassInfo hobj hplain, htext]
          rfl
      · case isFalse hge =>
          rw [h.literalAt_eq (Nat.le_of_not_lt hge)]
          rfl
    simp only [hname]
    rfl
  · simp only [hclass]
    rfl

end

theorem find_of_enter (hkey : T.key i = some key)
    (hnew : key.bucket = none → s.find key = none) (hfind : s'.find = (s.enter key).find) :
    ∀ key', key'.Valid → s'.find key' = if T.key i = some key' then (s.find key').or (some s.j)
      else s.find key' := by
  intro key' hvalid
  rw [hfind, s.find_enter (T.key_valid hkey) hvalid hnew, hkey]
  simp only [Option.some.injEq]

section

variable (h : Merged T s i kept) (hgrouped : T.Grouped)
include h hgrouped

theorem mergeScalar (hmarked : infoAt T.info i ≠ none) (htext : (T.constant i).isText = false)
    (hscalar : (T.constant i).scalarKey = some key) :
    ∃ kept', Merged T (s.mergeScalar i key) (i + 1) kept' := by
  obtain ⟨info, hinfo⟩ := Option.ne_none_iff_exists'.mp hmarked
  have hi := hgrouped.lt_length hmarked
  have hkey : T.key i = some key := by
    simp [MarkedTable.key, hinfo, htext, hscalar]
  have hsize : T.size i = 1 := by simp [MarkedTable.size, hinfo, htext]
  have hslots : T.slots i = 0 := by simp [MarkedTable.slots, hinfo, htext]
  unfold MergeState.mergeScalar
  rw [← hsize]
  cases hfound : s.find key with
  | some pos =>
    obtain ⟨before, c, hplaced, rfl, hc⟩ :=
      h.found key pos (T.key_valid hkey) hfound
    have halike : T.Alike c i :=
      { key := hc.trans hkey.symm
        known := by rw [hkey]; simp
        type := fun hisText => by rw [htext] at hisText; cases hisText }
    refine ⟨kept, h.share hgrouped hi hmarked hplaced halike ?_⟩
    intro key' hkey'
    rw [hkey] at hkey'
    cases hkey'
    exact hfound
  | none =>
    have hkeeps := (h.toInPlace.enter key).keepLiteral_keeps hi hsize hslots
    refine ⟨kept ++ [i], h.keep hgrouped hi hmarked hkeeps.of_enter
      (find_of_enter hkey (fun _ => hfound) rfl) ?_⟩
    intro key' before c hkey' hplaced hsome
    rw [hkey] at hkey'
    cases hkey'
    rw [hfound] at hsome
    cases hsome

/-- A name that stays behind its entry in the hash table. -/
theorem keepName_enter (hinfo : infoAt T.info i = some info) (htext : (T.constant i).isText = true)
    {arKey : KeyBytes} (hkey : T.key i = some (.text info.flags arKey))
    (hclash : ∀ before c, PlacedAt kept before c →
      s.find (.text info.flags arKey) = some (totalSize T.size before) →
      (T.constant i).sameType (T.constant c) = false) : ∃ kept', Merged T
      (keepName (s.enter (.text info.flags arKey)) i info.flags).1
      ((keepName (s.enter (.text info.flags arKey)) i info.flags).2 + 1) kept' := by
  have hmarked : infoAt T.info i ≠ none := by rw [hinfo]; simp
  obtain ⟨hkeeps, hnext, hfind⟩ :=
    (h.toInPlace.enter (.text info.flags arKey)).keepName_keeps hgrouped hinfo htext
  rw [hnext]
  refine ⟨kept ++ [i], h.keep hgrouped (hgrouped.lt_length hmarked) hmarked
    hkeeps.of_enter (find_of_enter hkey nofun hfind) ?_⟩
  intro key before c hkey' hplaced hsome
  rw [hkey] at hkey'
  cases hkey'
  exact hclash before c hplaced hsome

theorem mergeName (hinfo : infoAt T.info i = some info) (htext : (T.constant i).isText = true) :
    ∃ kept', Merged T (PhpEngine.mergeName s i info).1
      ((PhpEngine.mergeName s i info).2 + 1) kept' := by
  have hmarked : infoAt T.info i ≠ none := by rw [hinfo]; simp
  have hi := hgrouped.lt_length hmarked
  have hsize : T.size i = info.flags.related.val - 1 + 1 := by
    simp [MarkedTable.size, hinfo, htext]
  unfold PhpEngine.mergeName
  by_cases hmerge : info.flags.mayMerge = true
  · have hkey := T.key_text hinfo htext hmerge
    rw [if_pos hmerge, h.arKey_eq hgrouped hinfo, h.literalAt_eq (le_refl i)]
    cases hfound : s.find (.text info.flags (T.arKey i info)) with
    | some pos =>
      obtain ⟨before, c, hplaced, rfl, hc⟩ :=
        h.found _ pos (T.key_valid hkey) hfound
      simp only [hfound, h.constant_of_placed hgrouped hplaced]
      split
      · case isTrue hsame =>
          have halike : T.Alike c i :=
            { key := hc.trans hkey.symm
              known := by rw [hkey]; simp
              type := fun _ => hsame.1 }
          refine ⟨kept, ?_⟩
          have hshare := h.share hgrouped hi hmarked hplaced halike (fun key hkey' => by
              rw [hkey] at hkey'
              cases hkey'
              exact hfound)
          rwa [hsize, ← add_assoc] at hshare
      · case isFalse hdiffer =>
          apply h.keepName_enter hgrouped hinfo htext hkey
          intro before' c' hplaced' hsome
          rw [hfound] at hsome
          obtain ⟨-, rfl⟩ := hplaced.eq_of_start_eq T.size
            (fun z _ => T.size_pos z) hplaced' (Option.some.inj hsome)
          -- the flags are part of the key, so it is the types that differ
          obtain ⟨info', hinfo', ⟨-, -, hflags⟩ | ⟨-, hscalar⟩⟩ :=
            T.key_cases hc
          · simp only [LiteralKey.text.injEq] at hflags
            rw [(h.stored before c hplaced).info, hinfo', Option.map_some, ← hflags.1] at hdiffer
            simpa [MarkedTable.constant] using hdiffer
          · exact absurd hscalar (MarkedTable.scalarKey_ne_text _ _ _)
    | none =>
      simp only [hfound]
      apply h.keepName_enter hgrouped hinfo htext hkey
      intro before c hplaced hsome
      rw [hfound] at hsome
      cases hsome
  · rw [if_neg hmerge]
    have hkey : T.key i = none := by
      simp [MarkedTable.key, hinfo, htext, hmerge]
    obtain ⟨hkeeps, hnext, hfind⟩ :=
      h.toInPlace.keepName_keeps hgrouped hinfo htext
    rw [hnext]
    refine ⟨kept ++ [i], h.keep hgrouped hi hmarked hkeeps ?_ ?_⟩
    · intro key hvalid
      rw [hfind, hkey]
      rfl
    · intro key before c hkey'
      rw [hkey] at hkey'
      cases hkey'

theorem keepOther (hinfo : infoAt T.info i = some info) {contents : α}
    (hother : T.constant i = .other contents) :
    ∃ kept', Merged T (s.keepLiteral i) (i + 1) kept' := by
  have hmarked : infoAt T.info i ≠ none := by rw [hinfo]; simp
  have hi := hgrouped.lt_length hmarked
  have htext : (T.constant i).isText = false := by rw [hother]; rfl
  have hkey : T.key i = none := by
    simp [MarkedTable.key, hinfo, hother, LiteralZval.isText, LiteralZval.scalarKey]
  have hsize : T.size i = 1 := by simp [MarkedTable.size, hinfo, htext]
  have hslots : T.slots i = 0 := by simp [MarkedTable.slots, hinfo, htext]
  have hkeeps := h.toInPlace.keepLiteral_keeps hi hsize hslots
  rw [← hsize]
  refine ⟨kept ++ [i], h.keep hgrouped hi hmarked hkeeps ?_ ?_⟩
  · intro key hvalid
    rw [hkey]
    rfl
  · intro key before c hkey'
    rw [hkey] at hkey'
    cases hkey'

theorem mergeLiteral :
    ∃ kept', Merged T (PhpEngine.mergeLiteral s i).1
      ((PhpEngine.mergeLiteral s i).2 + 1) kept' := by
  unfold PhpEngine.mergeLiteral
  rw [h.infoAt_eq (le_refl i), h.literalAt_eq (le_refl i)]
  cases hinfo : infoAt T.info i with
  | none => exact ⟨kept, h.skip hinfo⟩
  | some info =>
    have hmarked : infoAt T.info i ≠ none := by rw [hinfo]; simp
    have hscalar : (T.constant i).isText = false → ∀ key, (T.constant i).scalarKey = some key →
        ∃ kept', Merged T (s.mergeScalar i key) (i + 1) kept' :=
      fun htext _ => h.mergeScalar hgrouped hmarked htext
    have hname := h.mergeName hgrouped hinfo
    unfold MarkedTable.constant at hscalar hname
    cases hconstant : (literalAt T.literals i).constant with
    | null | bool b | long m | double bits =>
      rw [hconstant] at hscalar
      exact hscalar rfl _ rfl
    | string text | constant name =>
      rw [hconstant] at hname
      exact hname rfl
    | other contents => exact h.keepOther hgrouped hinfo hconstant

end

/-- The loop ends with a row of groups of the whole table. -/
theorem mergeLiterals (hgrouped : T.Grouped) (fuel : Nat)
    (h : Merged T s i kept) (hfuel : T.literals.length ≤ i + fuel) :
    ∃ kept' last, T.literals.length ≤ last ∧
      Merged T (PhpEngine.mergeLiterals T.literals.length fuel s i) last kept' := by
  induction fuel generalizing s i kept with
  | zero => exact ⟨kept, i, hfuel, h⟩
  | succ fuel ih =>
    rw [PhpEngine.mergeLiterals]
    split
    · obtain ⟨kept', hnext⟩ := h.mergeLiteral hgrouped
      have hgrows := mergeLiteral_le s i
      exact ih hnext (by omega)
    · case isFalse hend => exact ⟨kept, i, Nat.le_of_not_lt hend, h⟩

end Merged

end PhpEngine

/-
The serializer and the unserializer in step.  An entry of `var_hash`
designates the slot of the zval that was built from the first occurrence, and
what was built so far corresponds to what was written.
-/
import PhpEngine.PlainGraph

namespace PhpEngine

open List Function

def IsObject (v : UValue) : Prop :=
  ∃ h, v = .object h

namespace Pairing

/-- More pairs. -/
def Le (pr pr' : Pairing) : Prop :=
  (∀ p ∈ pr.zs, p ∈ pr'.zs) ∧ ∀ q ∈ pr.os, q ∈ pr'.os

theorem Le.refl (pr : Pairing) : pr.Le pr :=
  ⟨fun _ h => h, fun _ h => h⟩

theorem Le.trans {pr pr' pr'' : Pairing} (h : pr.Le pr') (h' : pr'.Le pr'') : pr.Le pr'' :=
  ⟨fun p hp => h'.1 p (h.1 p hp), fun q hq => h'.2 q (h.2 q hq)⟩

end Pairing

section Same

variable {g g' g'' : Graph} {pr pr' : Pairing}

theorem SameItems.mono {l l' : List (HashKey × Nat)}
    (h : SameItems pr l l') (hle : pr.Le pr') : SameItems pr' l l' :=
  h.imp fun _ _ hxy => ⟨hxy.1, hle.1 _ hxy.2⟩

theorem SameValue.mono {v v' : UValue} (h : SameValue g g' pr v v')
    (hle : pr.Le pr') (htables : ∀ t, v' = .array t → g''.tables t = g'.tables t) :
    SameValue g g'' pr' v v' := by
  cases v <;> cases v' <;> first
    | exact h
    | exact hle.2 _ h
    | (rw [SameValue, htables _ rfl]; exact SameItems.mono h hle)

theorem SameObject.mono {h k : Nat} (hsame : SameObject g g' pr h k)
    (hle : pr.Le pr') (hobject : g''.objects k = g'.objects k)
    (htable : g''.tables (g'.objects k).properties = g'.tables (g'.objects k).properties) :
    SameObject g g'' pr' h k := by
  rw [SameObject, hobject, htable]
  exact ⟨hsame.1, hsame.2.mono hle⟩

theorem SameValue.isObject {v v' : UValue} (h : SameValue g g' pr v v') :
    IsObject v ↔ IsObject v' := by
  constructor
  · rintro ⟨k, rfl⟩
    cases v' <;> first | exact ⟨_, rfl⟩ | exact absurd h (by simp [SameValue])
  · rintro ⟨k, rfl⟩
    cases v <;> first | exact ⟨_, rfl⟩ | exact absurd h (by simp [SameValue])

end Same

/-- The two numberings in step. -/
structure Numbered (g : Graph) (st : SerState) (s : UState) (pr : Pairing) :
    Prop where
  chunked : Chunked s.slots
  count : s.slots.flatten.length = st.count
  hashZval : ∀ a no, st.varHash (.zval a) = some no → ∃ (k : Nat) (b : Nat),
    no = (k : Int) + 1 ∧ s.slots.flatten[k]? = some b ∧ (a, b) ∈ pr.zs
  hashObject : ∀ h no, st.varHash (.object h) = some no →
    ∃ (k : Nat) (a b c : Nat), no = (k : Int) + 1 ∧ s.slots.flatten[k]? = some b ∧ (a, b) ∈ pr.zs ∧
      (s.zvals b).value = .object c ∧ (h, c) ∈ pr.os
  knownZval : ∀ p ∈ pr.zs, (g.zvals p.1).isRef = true → ∃ k : Nat,
    st.varHash (.zval p.1) = some ((k : Int) + 1) ∧ s.slots.flatten[k]? = some p.2
  knownObject : ∀ q ∈ pr.os, (st.varHash (.object q.1)).isSome

/-- What was built so far.  The arrays in `opens` and the objects in `oopens`
are not complete; ids from `base` on belong to this run. -/
structure Built (g : Graph) (base : Nat) (s : UState) (pr : Pairing)
    (opens oopens : List Nat) : Prop where
  value : ∀ p ∈ pr.zs, p.2 ∉ opens →
    SameValue g s.toGraph pr (g.zvals p.1).value (s.zvals p.2).value
  object : ∀ q ∈ pr.os, q.2 ∉ oopens → SameObject g s.toGraph pr q.1 q.2
  opened : ∀ b ∈ opens, b < s.next ∧ ∃ t, (s.zvals b).value = .array t
  identity : ∀ q ∈ pr.os, ∀ q' ∈ pr.os, q.1 = q'.1 ↔ q.2 = q'.2
  source : ∀ p ∈ pr.zs, ∀ p' ∈ pr.zs, p.2 = p'.2 →
    p.1 = p'.1 ∨ IsObject (g.zvals p.1).value ∧ IsObject (g.zvals p'.1).value
  plain : ∀ p ∈ pr.zs, IsObject (g.zvals p.1).value → (g.zvals p.1).isRef = false
  isRef : ∀ b, base ≤ b → b < s.next → (s.zvals b).isRef = true →
    ∃ a, (a, b) ∈ pr.zs ∧ (g.zvals a).isRef = true
  rangeZ : ∀ p ∈ pr.zs, base ≤ p.2 ∧ p.2 < s.next
  rangeO : ∀ q ∈ pr.os, base ≤ q.2 ∧ q.2 < s.next
  tableOf : ∀ b t, base ≤ b → b < s.next → (s.zvals b).value = .array t → base ≤ t ∧ t < s.next
  ownTable : ∀ b b' t, base ≤ b → b < s.next → base ≤ b' → b' < s.next →
    (s.zvals b).value = .array t → (s.zvals b').value = .array t → b = b'
  properties : ∀ q ∈ pr.os, (s.objects q.2).properties = q.2
  apart : ∀ b t, base ≤ b → b < s.next → (s.zvals b).value = .array t → ∀ q ∈ pr.os, q.2 ≠ t
  entry : ∀ t i b, base ≤ t → s.entry t i = some b → b < s.next
  once : ∀ t i t' i' b, base ≤ t → base ≤ t' → base ≤ b →
    s.entry t i = some b → s.entry t' i' = some b → (t, i) ≠ (t', i') →
    (s.zvals b).isRef = true ∨ IsObject (s.zvals b).value
  clean : ∀ b, s.next ≤ b → s.zvals b = ⟨.null, false⟩ ∧ s.tables b = OrderedMap.empty

/-- A zval that was given to a call and is in no use yet. -/
structure Fresh (base : Nat) (s : UState) (pr : Pairing) (rval : Nat) :
    Prop where
  range : base ≤ rval ∧ rval < s.next
  null : s.zvals rval = ⟨.null, false⟩
  unpaired : ∀ p ∈ pr.zs, p.2 ≠ rval
  unheld : ∀ t i, base ≤ t → s.entry t i ≠ some rval

/-- What a call on `rval` leaves alone: whatever was there, but for `rval`
itself and for marks of references; and it holds older zvals only as
references or objects. -/
structure Frame (base rval : Nat) (s s' : UState) : Prop where
  next : s.next ≤ s'.next
  value : ∀ b, b < s.next → b ≠ rval → (s'.zvals b).value = (s.zvals b).value
  isRef : ∀ b, b < s.next → b ≠ rval → (s.zvals b).isRef = true → (s'.zvals b).isRef = true
  tables : ∀ t, t < s.next → s'.tables t = s.tables t
  objects : ∀ c, c < s.next → s'.objects c = s.objects c
  held : ∀ t i b, s.next ≤ t → s'.entry t i = some b → base ≤ b →
    s.next ≤ b ∨ (s'.zvals b).isRef = true ∨ IsObject (s'.zvals b).value

section Frame

variable {g : Graph} {base rval rval' : Nat} {s s' s'' : UState} {pr pr' : Pairing}

/-- A change above `next`. -/
theorem Frame.of_new (hnext : s.next ≤ s'.next)
    (hzvals : ∀ b, b < s.next → b ≠ rval → s'.zvals b = s.zvals b)
    (htables : ∀ t, t < s.next → s'.tables t = s.tables t)
    (hobjects : ∀ c, c < s.next → s'.objects c = s.objects c)
    (hheld : ∀ t i b, s.next ≤ t → s'.entry t i = some b → b < base) : Frame base rval s s' where
  next := hnext
  value := fun b hb hne => by rw [hzvals b hb hne]
  isRef := fun b hb hne href => by rw [hzvals b hb hne, href]
  tables := htables
  objects := hobjects
  held := fun t i b ht hentry hb =>
    absurd hb (Nat.not_le_of_lt (hheld t i b ht hentry))

theorem Frame.trans (h : Frame base rval s s')
    (h' : Frame base rval' s' s'') (hnew : s.next ≤ rval') : Frame base rval s s'' := by
  have hlt : ∀ {b}, b < s.next → b < s'.next ∧ b ≠ rval' := by
    have hle := h.next
    omega
  refine ⟨le_trans h.next h'.next, ?_, ?_, ?_, ?_, ?_⟩
  · intro b hb hne
    rw [h'.value b (hlt hb).1 (hlt hb).2, h.value b hb hne]
  · intro b hb hne href
    exact h'.isRef b (hlt hb).1 (hlt hb).2 (h.isRef b hb hne href)
  · intro t ht
    rw [h'.tables t (hlt ht).1, h.tables t ht]
  · intro c hc
    rw [h'.objects c (hlt hc).1, h.objects c hc]
  · intro t i b ht hentry hb
    by_cases hold : t < s'.next
    · have hsame : s'.entry t i = some b := by
        rw [Graph.entry, ← h'.tables t hold]
        exact hentry
      rcases h.held t i b ht hsame hb with hnew | hrest
      · exact .inl hnew
      · by_cases hbnew : s.next ≤ b
        · exact .inl hbnew
        · have hb' := hlt (Nat.lt_of_not_le hbnew)
          refine .inr ?_
          rw [h'.value b hb'.1 hb'.2]
          exact hrest.imp (h'.isRef b hb'.1 hb'.2) id
    · rcases h'.held t i b (Nat.le_of_not_lt hold) hentry hb with hnew | hrest
      · exact .inl (le_trans h.next hnew)
      · exact .inr hrest

/-- An entry `b` is stored in a newer table. -/
theorem Frame.setTable {ht n b : Nat} {m : OrderedMap Nat}
    (h : Frame base rval s s') (hnew : s.next ≤ ht)
    (hold : ∀ i x, i ≠ n → m.items[i]?.map Prod.snd = some x → s'.entry ht i = some x)
    (hat : ∀ x, m.items[n]?.map Prod.snd = some x → x = b)
    (hb : s.next ≤ b ∨ (s'.zvals b).isRef = true ∨ IsObject (s'.zvals b).value) :
    Frame base rval s (s'.setTable ht m) := by
  refine ⟨h.next, h.value, h.isRef, ?_, h.objects, ?_⟩
  · intro t ht'
    have hne : t ≠ ht := by omega
    rw [← h.tables t ht']
    simp [UState.setTable, hne]
  · intro t i x hle hentry hx
    by_cases hne : t = ht
    · subst hne
      simp only [Graph.entry, UState.setTable, update_self] at hentry
      by_cases hi : i = n
      · subst hi
        rw [hat x hentry]
        exact hb
      · exact h.held t i x hle (hold i x hi hentry) hx
    · simp only [Graph.entry, UState.setTable, update_of_ne hne] at hentry
      exact h.held t i x hle hentry hx

end Frame

section Built

variable {g : Graph} {base rval : Nat} {st st' : SerState} {s s' : UState}
  {pr : Pairing} {opens oopens : List Nat}

theorem Numbered.congr (h : Numbered g st s pr) (hslots : s'.slots = s.slots)
    (hvalue : ∀ p ∈ pr.zs, (s'.zvals p.2).value = (s.zvals p.2).value)
    (hhash : st'.varHash = st.varHash) (hcount : st'.count = st.count) : Numbered g st' s' pr := by
  refine ⟨?_, ?_, ?_, ?_, ?_, ?_⟩
  · rw [hslots]
    exact h.chunked
  · rw [hslots, hcount]
    exact h.count
  · rw [hslots, hhash]
    exact h.hashZval
  · intro k no hno
    rw [hhash] at hno
    obtain ⟨i, a, b, c, hno, hslot, hpair, hobject, hos⟩ :=
      h.hashObject k no hno
    refine ⟨i, a, b, c, hno, ?_, hpair, ?_, hos⟩
    · rw [hslots]
      exact hslot
    · rw [hvalue _ hpair]
      exact hobject
  · rw [hslots, hhash]
    exact h.knownZval
  · rw [hhash]
    exact h.knownObject

/-- There is nothing in the tables that were not given out. -/
theorem Built.entry_new {t i b : Nat} (h : Built g base s pr opens oopens)
    (ht : s.next ≤ t) : s.entry t i ≠ some b := by
  rw [Graph.entry, (h.clean t ht).2]
  simp [OrderedMap.empty]

/-- The invariant says nothing of the cursor, the slots and the trace. -/
theorem Built.congr (h : Built g base s pr opens oopens)
    (hgraph : s'.toGraph = s.toGraph) (hnext : s'.next = s.next) :
    Built g base s' pr opens oopens := by
  obtain ⟨graph, p, slots, next, trace⟩ := s
  subst hgraph hnext
  exact ⟨h.value, h.object, h.opened, h.identity, h.source, h.plain, h.isRef,
    h.rangeZ, h.rangeO, h.tableOf, h.ownTable, h.properties, h.apart, h.entry,
    h.once, h.clean⟩

/-- A new id is given out for a zval that is no array, or for a table that
holds only older zvals. -/
theorem Built.alloc (h : Built g base s pr opens oopens)
    (hbase : base ≤ s.next) (hnext : s'.next = s.next + 1)
    (hzvals : ∀ b, b ≠ s.next → s'.zvals b = s.zvals b) (hnew : (s'.zvals s.next).isRef = false ∧
      ∀ t, (s'.zvals s.next).value ≠ .array t)
    (htables : ∀ t, t ≠ s.next → s'.tables t = s.tables t)
    (hheld : ∀ i b, s'.entry s.next i = some b → b < base)
    (hobjects : ∀ c, c < s.next → s'.objects c = s.objects c) :
    Built g base s' pr opens oopens := by
  have hold : ∀ {b t}, b < s'.next → (s'.zvals b).value = .array t →
      b < s.next ∧ (s.zvals b).value = .array t := by
    intro b t hb hvalue
    by_cases hlt : b < s.next
    · exact ⟨hlt, by rw [← hzvals b (by omega), hvalue]⟩
    · have heq : b = s.next := by omega
      subst heq
      exact absurd hvalue (hnew.2 t)
  have hentry : ∀ {t i b}, base ≤ b → s'.entry t i = some b → s.entry t i = some b := by
    intro t i b hb hheld'
    by_cases ht : t = s.next
    · subst ht
      exact absurd hb (Nat.not_le_of_lt (hheld i b hheld'))
    · rwa [Graph.entry, htables t ht] at hheld'
  refine ⟨?_, ?_, ?_, h.identity, h.source, h.plain, ?_, ?_, ?_, ?_, ?_, ?_, ?_, ?_, ?_, ?_⟩
  · intro p hp hopen
    have hrange := h.rangeZ p hp
    rw [hzvals p.2 (by omega)]
    refine (h.value p hp hopen).mono (Pairing.Le.refl pr) ?_
    intro t hvalue
    have ht := h.tableOf p.2 t hrange.1 hrange.2 hvalue
    exact htables t (by omega)
  · intro q hq hopen
    have hrange := h.rangeO q hq
    refine (h.object q hq hopen).mono (Pairing.Le.refl pr) (hobjects q.2 hrange.2) ?_
    rw [h.properties q hq]
    exact htables q.2 (by omega)
  · intro b hb
    obtain ⟨hlt, t, hvalue⟩ := h.opened b hb
    exact ⟨by omega, t, by rw [hzvals b (by omega), hvalue]⟩
  · intro b hb hlt href
    by_cases hlt' : b < s.next
    · rw [hzvals b (by omega)] at href
      exact h.isRef b hb hlt' href
    · have heq : b = s.next := by omega
      subst heq
      rw [hnew.1] at href
      cases href
  · intro p hp
    have hrange := h.rangeZ p hp
    omega
  · intro q hq
    have hrange := h.rangeO q hq
    omega
  · intro b t hb hlt hvalue
    obtain ⟨hlt, hvalue⟩ := hold hlt hvalue
    have ht := h.tableOf b t hb hlt hvalue
    omega
  · intro b b' t hb hlt hb' hlt' hvalue hvalue'
    obtain ⟨hlt, hvalue⟩ := hold hlt hvalue
    obtain ⟨hlt', hvalue'⟩ := hold hlt' hvalue'
    exact h.ownTable b b' t hb hlt hb' hlt' hvalue hvalue'
  · intro q hq
    rw [hobjects q.2 (h.rangeO q hq).2]
    exact h.properties q hq
  · intro b t hb hlt hvalue
    obtain ⟨hlt, hvalue⟩ := hold hlt hvalue
    exact h.apart b t hb hlt hvalue
  · intro t i b ht hheld'
    by_cases hb : base ≤ b
    · have hlt := h.entry t i b ht (hentry hb hheld')
      omega
    · omega
  · intro t i t' i' b ht ht' hb hheld₁ hheld₂ hne
    have hheld₁ := hentry hb hheld₁
    have hheld₂ := hentry hb hheld₂
    have hlt := h.entry t i b ht hheld₁
    rw [hzvals b (by omega)]
    exact h.once t i t' i' b ht ht' hb hheld₁ hheld₂ hne
  · intro b hb
    rw [hzvals b (by omega), htables b (by omega)]
    exact h.clean b (by omega)

/-- A table that is being filled: of an open array or of an open object. -/
def Building (base : Nat) (s : UState) (pr : Pairing) (opens oopens : List Nat) (ht : Nat) : Prop :=
  (∃ b ∈ opens, base ≤ b ∧ (s.zvals b).value = .array ht) ∨ (ht ∈ oopens ∧ ∃ q ∈ pr.os, q.2 = ht)

theorem Building.range {ht : Nat} (hopen : Building base s pr opens oopens ht)
    (h : Built g base s pr opens oopens) : base ≤ ht ∧ ht < s.next := by
  rcases hopen with ⟨b, hb, hbase, hvalue⟩ | ⟨_, q, hq, rfl⟩
  · exact h.tableOf b ht hbase (h.opened b hb).1 hvalue
  · exact h.rangeO q hq

/-- An entry `b` is stored at an index of a table that is being filled. -/
theorem Built.setTable {ht n b : Nat} {m : OrderedMap Nat} (h : Built g base s pr opens oopens)
    (hopen : Building base s pr opens oopens ht)
    (hold : ∀ i x, i ≠ n → m.items[i]?.map Prod.snd = some x → s.entry ht i = some x)
    (hat : ∀ x, m.items[n]?.map Prod.snd = some x → x = b) (hb : b < s.next)
    (honce : ∀ t i, base ≤ t → base ≤ b → s.entry t i = some b → (t, i) ≠ (ht, n) →
      (s.zvals b).isRef = true ∨ IsObject (s.zvals b).value) :
    Built g base (s.setTable ht m) pr opens oopens := by
  have hrange := hopen.range h
  have hentry : ∀ {t i x}, (s.setTable ht m).entry t i = some x →
      s.entry t i = some x ∧ (t, i) ≠ (ht, n) ∨ (t, i) = (ht, n) ∧ x = b := by
    intro t i x hx
    by_cases hne : t = ht
    · subst hne
      simp only [Graph.entry, UState.setTable, update_self] at hx
      by_cases hi : i = n
      · subst hi
        exact .inr ⟨rfl, hat x hx⟩
      · exact .inl ⟨hold i x hi hx, by simp [hi]⟩
    · simp only [Graph.entry, UState.setTable, update_of_ne hne] at hx
      exact .inl ⟨hx, by simp [hne]⟩
  refine ⟨?_, ?_, h.opened, h.identity, h.source, h.plain, h.isRef, h.rangeZ,
    h.rangeO, h.tableOf, h.ownTable, h.properties, h.apart, ?_, ?_, ?_⟩
  · intro p hp hclosed
    refine (h.value p hp hclosed).mono (Pairing.Le.refl pr) ?_
    intro t hvalue
    have hp' := h.rangeZ p hp
    have hne : t ≠ ht := by
      rintro rfl
      rcases hopen with ⟨b', hb', hbase, hvalue'⟩ | ⟨_, q, hq, heq⟩
      · have heq := h.ownTable p.2 b' t hp'.1 hp'.2 hbase (h.opened b' hb').1 hvalue hvalue'
        exact hclosed (heq ▸ hb')
      · exact h.apart p.2 t hp'.1 hp'.2 hvalue q hq heq
    simp [UState.setTable, hne]
  · intro q hq hclosed
    refine (h.object q hq hclosed).mono (Pairing.Le.refl pr) rfl ?_
    rw [h.properties q hq]
    have hne : q.2 ≠ ht := by
      rintro rfl
      rcases hopen with ⟨b', hb', hbase, hvalue'⟩ | ⟨hmem, _⟩
      · exact h.apart b' q.2 hbase (h.opened b' hb').1 hvalue' q hq rfl
      · exact hclosed hmem
    simp [UState.setTable, hne]
  · intro t i x ht' hx
    rcases hentry hx with ⟨hx, _⟩ | ⟨_, rfl⟩
    · exact h.entry t i x ht' hx
    · exact hb
  · intro t i t' i' x ht₁ ht₂ hx hx₁ hx₂ hne
    rcases hentry hx₁ with ⟨hx₁, hne₁⟩ | ⟨heq₁, rfl⟩
    · rcases hentry hx₂ with ⟨hx₂, _⟩ | ⟨_, rfl⟩
      · exact h.once t i t' i' x ht₁ ht₂ hx hx₁ hx₂ hne
      · exact honce t i ht₁ hx hx₁ hne₁
    · rcases hentry hx₂ with ⟨hx₂, hne₂⟩ | ⟨heq₂, _⟩
      · exact honce t' i' ht₂ hx hx₂ hne₂
      · exact absurd (heq₁.trans heq₂.symm) hne
  · intro t ht'
    have hne : t ≠ ht := by
      simp only [UState.setTable] at ht'
      omega
    simp only [UState.setTable, update_of_ne hne]
    exact h.clean t ht'

/-- An id that is the table of no array and no object. -/
structure Unused (base : Nat) (s : UState) (pr : Pairing) (c : Nat) :
    Prop where
  range : base ≤ c ∧ c < s.next
  array : ∀ b, base ≤ b → b < s.next → (s.zvals b).value ≠ .array c
  object : ∀ q ∈ pr.os, q.2 ≠ c

/-- The zval `rval` becomes the value of `z`.  An array is open from then on,
and so is an object, which `os` pairs with the one of `z`. -/
theorem Built.enter {z : Nat} {v : UValue} (now : List Nat)
    (os : List (Nat × Nat)) (h : Built g base s pr opens oopens) (hfresh : Fresh base s pr rval)
    (hplain : IsObject (g.zvals z).value → (g.zvals z).isRef = false)
    (hzvals : s'.zvals = update s.zvals rval ⟨v, false⟩)
    (htables : s'.tables = s.tables) (hobjects : s'.objects = s.objects) (hnext : s'.next = s.next)
    (hnow : ∀ b ∈ now, b = rval ∧ ∃ t, v = .array t) (hvalue : rval ∉ now → SameValue g s.toGraph
      ⟨(z, rval) :: pr.zs, os ++ pr.os⟩ (g.zvals z).value v)
    (harray : ∀ t, v = .array t → Unused base s pr t)
    (hos : ∀ q ∈ os, v = .object q.2 ∧ (g.zvals z).value = .object q.1 ∧
      Unused base s pr q.2 ∧ (s.objects q.2).properties = q.2 ∧ ∀ q' ∈ pr.os, q'.1 ≠ q.1) :
    Built g base s' ⟨(z, rval) :: pr.zs, os ++ pr.os⟩ (now ++ opens)
      (os.map Prod.snd ++ oopens) := by
  have hle : pr.Le ⟨(z, rval) :: pr.zs, os ++ pr.os⟩ :=
    ⟨fun _ hp => mem_cons_of_mem _ hp, fun _ hq => mem_append_right _ hq⟩
  have hself : s'.zvals rval = ⟨v, false⟩ := by
    rw [hzvals, update_self]
  have hother : ∀ {b}, b ≠ rval → s'.zvals b = s.zvals b := fun hne => by
    rw [hzvals, update_of_ne hne]
  have hentry : s'.entry = s.entry := by
    funext t i
    rw [Graph.entry, Graph.entry, htables]
  have hnotopen : rval ∉ opens := by
    intro hmem
    obtain ⟨_, t, ht⟩ := h.opened rval hmem
    rw [hfresh.null] at ht
    cases ht
  have hrange := hfresh.range
  refine ⟨?_, ?_, ?_, ?_, ?_, ?_, ?_, ?_, ?_, ?_, ?_, ?_, ?_, ?_, ?_, ?_⟩
  · intro p hp hclosed
    rw [mem_append, not_or] at hclosed
    rcases mem_cons.mp hp with rfl | hp
    · rw [hself]
      exact (hvalue hclosed.1).mono (Pairing.Le.refl _) fun t _ => congrFun htables t
    · rw [hother (hfresh.unpaired p hp)]
      exact (h.value p hp hclosed.2).mono hle fun t _ => congrFun htables t
  · intro q hq hclosed
    rw [mem_append, not_or] at hclosed
    rcases mem_append.mp hq with hq | hq
    · exact absurd (List.mem_map_of_mem hq) hclosed.1
    · exact (h.object q hq hclosed.2).mono hle (congrFun hobjects _) (congrFun htables _)
  · intro b hb
    rw [hnext]
    rcases mem_append.mp hb with hb | hb
    · obtain ⟨rfl, t, rfl⟩ := hnow b hb
      exact ⟨hrange.2, t, by rw [hself]⟩
    · have hne : b ≠ rval := fun heq => hnotopen (heq ▸ hb)
      rw [hother hne]
      exact h.opened b hb
  · intro q hq q' hq'
    rcases mem_append.mp hq with hq | hq <;> rcases mem_append.mp hq' with hq' | hq'
    · obtain ⟨hv, hz, _⟩ := hos q hq
      obtain ⟨hv', hz', _⟩ := hos q' hq'
      have h1 := UValue.object.inj (hz.symm.trans hz')
      have h2 := UValue.object.inj (hv.symm.trans hv')
      exact ⟨fun _ => h2, fun _ => h1⟩
    · obtain ⟨_, _, hunused, _, hnew⟩ := hos q hq
      exact ⟨fun heq => absurd heq.symm (hnew q' hq'),
        fun heq => absurd heq.symm (hunused.object q' hq')⟩
    · obtain ⟨_, _, hunused, _, hnew⟩ := hos q' hq'
      exact ⟨fun heq => absurd heq (hnew q hq), fun heq => absurd heq (hunused.object q hq)⟩
    · exact h.identity q hq q' hq'
  · intro p hp p' hp' heq
    rcases mem_cons.mp hp with rfl | hp <;> rcases mem_cons.mp hp' with rfl | hp'
    · exact .inl rfl
    · exact absurd heq.symm (hfresh.unpaired p' hp')
    · exact absurd heq (hfresh.unpaired p hp)
    · exact h.source p hp p' hp' heq
  · intro p hp
    rcases mem_cons.mp hp with rfl | hp
    · exact hplain
    · exact h.plain p hp
  · intro b hb hlt href
    by_cases hne : b = rval
    · subst hne
      rw [hself] at href
      cases href
    · rw [hother hne] at href
      rw [hnext] at hlt
      obtain ⟨a, ha, hisRef⟩ := h.isRef b hb hlt href
      exact ⟨a, hle.1 _ ha, hisRef⟩
  · intro p hp
    rw [hnext]
    rcases mem_cons.mp hp with rfl | hp
    · exact hrange
    · exact h.rangeZ p hp
  · intro q hq
    rw [hnext]
    rcases mem_append.mp hq with hq | hq
    · exact (hos q hq).2.2.1.range
    · exact h.rangeO q hq
  · intro b t hb hlt hval
    rw [hnext] at hlt ⊢
    by_cases hne : b = rval
    · subst hne
      rw [hself] at hval
      exact (harray t hval).range
    · rw [hother hne] at hval
      exact h.tableOf b t hb hlt hval
  · intro b b' t hb hlt hb' hlt' hval hval'
    rw [hnext] at hlt hlt'
    by_cases hne : b = rval <;> by_cases hne' : b' = rval
    · rw [hne, hne']
    · rw [hne, hself] at hval
      rw [hother hne'] at hval'
      exact absurd hval' ((harray t hval).array b' hb' hlt')
    · rw [hne', hself] at hval'
      rw [hother hne] at hval
      exact absurd hval ((harray t hval').array b hb hlt)
    · rw [hother hne] at hval
      rw [hother hne'] at hval'
      exact h.ownTable b b' t hb hlt hb' hlt' hval hval'
  · intro q hq
    rw [hobjects]
    rcases mem_append.mp hq with hq | hq
    · exact (hos q hq).2.2.2.1
    · exact h.properties q hq
  · intro b t hb hlt hval q hq
    rw [hnext] at hlt
    by_cases hne : b = rval
    · rw [hne, hself] at hval
      rcases mem_append.mp hq with hq | hq
      · have hobject := (hos q hq).1
        rw [show v = .array t from hval] at hobject
        cases hobject
      · exact (harray t hval).object q hq
    · rw [hother hne] at hval
      rcases mem_append.mp hq with hq | hq
      · rintro rfl
        exact (hos q hq).2.2.1.array b hb hlt hval
      · exact h.apart b t hb hlt hval q hq
  · intro t i b ht hheld
    rw [hentry] at hheld
    rw [hnext]
    exact h.entry t i b ht hheld
  · intro t i t' i' b ht ht' hb hheld hheld' hne
    rw [hentry] at hheld hheld'
    have hb' : b ≠ rval := by
      rintro rfl
      exact hfresh.unheld t i ht hheld
    rw [hother hb']
    exact h.once t i t' i' b ht ht' hb hheld hheld' hne
  · intro b hb
    rw [hnext] at hb
    rw [hother (by omega), htables]
    exact h.clean b hb

theorem phpAddVarHash_enter {z : Nat} (hmet : metBefore g z st = none)
    (hcount : st.count < 2 ^ 31) : ((phpAddVarHash g z st).2.count = st.count + 1) ∧
      ((phpAddVarHash g z st).2.varHash = st.varHash ∧ (st.varHash (varId g z)).isSome ∧
          (g.zvals z).isRef = false ∧ ¬ IsObject (g.zvals z).value ∨
        (phpAddVarHash g z st).2.varHash = update st.varHash
            (varId g z) (some ((st.count : Int) + 1)) ∧ st.varHash (varId g z) = none) := by
  cases hseen : st.varHash (varId g z) with
  | none =>
    simp only [phpAddVarHash, hseen]
    rw [intOf_of_lt hcount]
    exact ⟨trivial, .inr ⟨rfl, trivial⟩⟩
  | some no =>
    rw [metBefore, hseen] at hmet
    cases href : (g.zvals z).isRef with
    | true => simp [href] at hmet
    | false =>
      simp only [phpAddVarHash, hseen, href]
      refine ⟨rfl, .inl ⟨rfl, rfl, trivial, ?_⟩⟩
      rintro ⟨k, hk⟩
      simp [href, hk] at hmet

theorem Numbered.enter {z : Nat} (os : List (Nat × Nat))
    (h : Numbered g st s pr) (hmet : metBefore g z st = none) (hcount : st.count < 2 ^ 31)
    (hplain : IsObject (g.zvals z).value → (g.zvals z).isRef = false)
    (hslots : s'.slots = varPush s.slots rval)
    (hvalue : ∀ p ∈ pr.zs, (s'.zvals p.2).value = (s.zvals p.2).value)
    (hobject : ∀ k, (g.zvals z).value = .object k →
      ∃ c, (s'.zvals rval).value = .object c ∧ (k, c) ∈ os)
    (hos : ∀ q ∈ os, (g.zvals z).value = .object q.1) : Numbered g (phpAddVarHash g z st).2 s'
      ⟨(z, rval) :: pr.zs, os ++ pr.os⟩ := by
  obtain ⟨hchunked, hflat⟩ := varPush_chunked h.chunked rval
  rw [← hslots] at hchunked hflat
  have hslot : ∀ {k b : Nat}, s.slots.flatten[k]? = some b → s'.slots.flatten[k]? = some b := by
    intro k b hk
    rw [hflat, getElem?_append_left (List.getElem?_eq_some_iff.mp hk).1]
    exact hk
  have hlast : s'.slots.flatten[st.count]? = some rval := by
    rw [hflat, ← h.count]
    simp
  obtain ⟨hcount', hhash⟩ := phpAddVarHash_enter hmet hcount
  have hzval : ¬ IsObject (g.zvals z).value → varId g z = .zval z := by
    intro hno
    rw [varId]
    split
    next k hk => exact absurd ⟨k, hk⟩ hno
    next => rfl
  have hid : ∀ {k}, (g.zvals z).value = .object k →
      varId g z = .object k := fun hk => by rw [varId, hk]
  refine ⟨hchunked, ?_, ?_, ?_, ?_, ?_⟩
  · rw [hflat, hcount', ← h.count]
    simp
  · intro a no hno
    have hold : st.varHash (.zval a) = some no → ∃ (k b : Nat),
        no = (k : Int) + 1 ∧ s'.slots.flatten[k]? = some b ∧
        (a, b) ∈ (z, rval) :: pr.zs := by
      intro hno
      obtain ⟨k, b, hk, hb, hpair⟩ := h.hashZval a no hno
      exact ⟨k, b, hk, hslot hb, mem_cons_of_mem _ hpair⟩
    rcases hhash with ⟨hsame, _⟩ | ⟨hnew, _⟩
    · exact hold (hsame ▸ hno)
    · rw [hnew] at hno
      by_cases heq : VarId.zval a = varId g z
      · rw [heq, update_self] at hno
        have ha : a = z := by
          rw [varId] at heq
          split at heq
          · cases heq
          · exact VarId.zval.inj heq
        exact ⟨st.count, rval, (Option.some.inj hno).symm, hlast, ha ▸ mem_cons_self⟩
      · rw [update_of_ne heq] at hno
        exact hold hno
  · intro k no hno
    have hold : st.varHash (.object k) = some no → ∃ (i a b c : Nat),
        no = (i : Int) + 1 ∧ s'.slots.flatten[i]? = some b ∧
        (a, b) ∈ (z, rval) :: pr.zs ∧ (s'.zvals b).value = .object c ∧
        (k, c) ∈ os ++ pr.os := by
      intro hno
      obtain ⟨i, a, b, c, hi, hb, hpair, hvalue', hos'⟩ :=
        h.hashObject k no hno
      exact ⟨i, a, b, c, hi, hslot hb, mem_cons_of_mem _ hpair,
        by rw [hvalue _ hpair, hvalue'], mem_append_right _ hos'⟩
    rcases hhash with ⟨hsame, _⟩ | ⟨hnew, _⟩
    · exact hold (hsame ▸ hno)
    · rw [hnew] at hno
      by_cases heq : VarId.object k = varId g z
      · rw [heq, update_self] at hno
        have hk : (g.zvals z).value = .object k := by
          rw [varId] at heq
          split at heq
          next k' hk' => rw [hk', VarId.object.inj heq]
          next => cases heq
        obtain ⟨c, hc, hmem⟩ := hobject k hk
        exact ⟨st.count, z, rval, c, (Option.some.inj hno).symm, hlast,
          mem_cons_self, hc, mem_append_left _ hmem⟩
      · rw [update_of_ne heq] at hno
        exact hold hno
  · intro p hp href
    rcases mem_cons.mp hp with rfl | hp
    · have hno : ¬ IsObject (g.zvals z).value := by
        intro hobj
        rw [hplain hobj] at href
        cases href
      rcases hhash with ⟨_, _, hnot, _⟩ | ⟨hnew, _⟩
      · rw [show (g.zvals z).isRef = true from href] at hnot
        cases hnot
      · refine ⟨st.count, ?_, hlast⟩
        rw [hnew, ← hzval hno, update_self]
    · obtain ⟨k, hk, hb⟩ := h.knownZval p hp href
      refine ⟨k, ?_, hslot hb⟩
      rcases hhash with ⟨hsame, _⟩ | ⟨hnew, hnone⟩
      · rw [hsame, hk]
      · have hne : VarId.zval p.1 ≠ varId g z := by
          intro heq
          rw [← heq, hk] at hnone
          cases hnone
        rw [hnew, update_of_ne hne, hk]
  · intro q hq
    rcases hhash with ⟨hsame, _, _, hno⟩ | ⟨hnew, _⟩
    · rw [hsame]
      rcases mem_append.mp hq with hq | hq
      · exact absurd ⟨_, hos q hq⟩ hno
      · exact h.knownObject q hq
    · rw [hnew]
      by_cases heq : VarId.object q.1 = varId g z
      · rw [heq, update_self]
        rfl
      · rw [update_of_ne heq]
        rcases mem_append.mp hq with hq | hq
        · exact absurd (hid (hos q hq)).symm heq
        · exact h.knownObject q hq

/-- `R:` marks the zval that stands for a reference. -/
theorem Built.mark {a b : Nat} (h : Built g base s pr opens oopens)
    (hpair : (a, b) ∈ pr.zs) (href : (g.zvals a).isRef = true) :
    Built g base (s.setZval b { s.zvals b with isRef := true }) pr opens oopens := by
  have hvalue : ∀ x, ((s.setZval b { s.zvals b with isRef := true }).zvals
      x).value = (s.zvals x).value := by
    intro x
    by_cases hx : x = b
    · simp [UState.setZval, hx]
    · simp [UState.setZval, hx]
  have hrange := h.rangeZ (a, b) hpair
  refine ⟨?_, h.object, ?_, h.identity, h.source, h.plain, ?_, h.rangeZ,
    h.rangeO, ?_, ?_, h.properties, ?_, h.entry, ?_, ?_⟩
  · intro p hp hclosed
    rw [hvalue]
    exact h.value p hp hclosed
  · intro x hx
    rw [hvalue]
    exact h.opened x hx
  · intro x hx hlt hisRef
    by_cases hne : x = b
    · exact ⟨a, hne ▸ hpair, href⟩
    · simp only [UState.setZval, update_of_ne hne] at hisRef
      exact h.isRef x hx hlt hisRef
  · intro x t hx hlt
    rw [hvalue]
    exact h.tableOf x t hx hlt
  · intro x x' t hx hlt hx' hlt'
    rw [hvalue, hvalue]
    exact h.ownTable x x' t hx hlt hx' hlt'
  · intro x t hx hlt
    rw [hvalue]
    exact h.apart x t hx hlt
  · intro t i t' i' x ht ht' hx hheld hheld' hne
    rw [hvalue]
    refine (h.once t i t' i' x ht ht' hx hheld hheld' hne).imp ?_ id
    intro hisRef
    by_cases hxb : x = b
    · simp [UState.setZval, hxb]
    · simpa [UState.setZval, hxb] using hisRef
  · intro x hx
    have hne : x ≠ b := by
      simp only [UState.setZval] at hx
      omega
    simp only [UState.setZval, update_of_ne hne]
    exact h.clean x hx

/-- `r:` finds the zval of an object for one more zval. -/
theorem Built.addPair {z a b k c : Nat} (h : Built g base s pr opens oopens)
    (hpair : (a, b) ∈ pr.zs) (hb : (s.zvals b).value = .object c)
    (hz : (g.zvals z).value = .object k) (hos : (k, c) ∈ pr.os)
    (hplain : (g.zvals z).isRef = false) :
    Built g base s ⟨(z, b) :: pr.zs, pr.os⟩ opens oopens := by
  have hle : pr.Le ⟨(z, b) :: pr.zs, pr.os⟩ :=
    ⟨fun _ hp => mem_cons_of_mem _ hp, fun _ hq => hq⟩
  have hclosed : b ∉ opens := by
    intro hmem
    obtain ⟨_, t, ht⟩ := h.opened b hmem
    rw [hb] at ht
    cases ht
  have hobject : ∀ p ∈ pr.zs, p.2 = b → IsObject (g.zvals p.1).value := by
    rintro p hp rfl
    exact (h.value p hp hclosed).isObject.mpr ⟨c, hb⟩
  refine ⟨?_, ?_, h.opened, h.identity, ?_, ?_, ?_, ?_, h.rangeO, h.tableOf,
    h.ownTable, h.properties, h.apart, h.entry, h.once, h.clean⟩
  · intro p hp hopen
    rcases mem_cons.mp hp with rfl | hp
    · rw [hz, hb]
      exact hos
    · exact (h.value p hp hopen).mono hle fun _ _ => rfl
  · intro q hq hopen
    exact (h.object q hq hopen).mono hle rfl rfl
  · intro p hp p' hp' heq
    rcases mem_cons.mp hp with rfl | hp <;> rcases mem_cons.mp hp' with rfl | hp'
    · exact .inl rfl
    · exact .inr ⟨⟨k, hz⟩, hobject p' hp' heq.symm⟩
    · exact .inr ⟨hobject p hp heq, ⟨k, hz⟩⟩
    · exact h.source p hp p' hp' heq
  · intro p hp
    rcases mem_cons.mp hp with rfl | hp
    · exact fun _ => hplain
    · exact h.plain p hp
  · intro x hx hlt href
    obtain ⟨a', ha', href'⟩ := h.isRef x hx hlt href
    exact ⟨a', hle.1 _ ha', href'⟩
  · intro p hp
    rcases mem_cons.mp hp with rfl | hp
    · exact h.rangeZ (a, b) hpair
    · exact h.rangeZ p hp

theorem Built.object_not_isRef {a b c : Nat}
    (h : Built g base s pr opens oopens) (hpair : (a, b) ∈ pr.zs)
    (hb : (s.zvals b).value = .object c) : (s.zvals b).isRef = false := by
  have hrange := h.rangeZ (a, b) hpair
  rw [Bool.eq_false_iff]
  intro href
  obtain ⟨a', hpair', href'⟩ := h.isRef b hrange.1 hrange.2 href
  have hclosed : b ∉ opens := by
    intro hmem
    obtain ⟨_, t, ht⟩ := h.opened b hmem
    rw [hb] at ht
    cases ht
  have hobject := (h.value (a', b) hpair' hclosed).isObject.mpr ⟨c, hb⟩
  rw [h.plain (a', b) hpair' hobject] at href'
  cases href'

/-- The slot of `r:` itself is counted on both sides. -/
theorem Numbered.copy {z b : Nat} (h : Numbered g st s pr) (hplain : (g.zvals z).isRef = false)
    (hslots : s'.slots = varPush s.slots rval)
    (hzvals : s'.zvals = s.zvals) (hhash : st'.varHash = st.varHash)
    (hcount : st'.count = st.count + 1) : Numbered g st' s' ⟨(z, b) :: pr.zs, pr.os⟩ := by
  obtain ⟨hchunked, hflat⟩ := varPush_chunked h.chunked rval
  rw [← hslots] at hchunked hflat
  have hslot : ∀ {k b : Nat}, s.slots.flatten[k]? = some b → s'.slots.flatten[k]? = some b := by
    intro k b hk
    rw [hflat, getElem?_append_left (List.getElem?_eq_some_iff.mp hk).1]
    exact hk
  refine ⟨hchunked, ?_, ?_, ?_, ?_, ?_⟩
  · rw [hflat, hcount, ← h.count]
    simp
  · intro a no hno
    rw [hhash] at hno
    obtain ⟨k, b, hk, hb, hpair⟩ := h.hashZval a no hno
    exact ⟨k, b, hk, hslot hb, mem_cons_of_mem _ hpair⟩
  · intro k no hno
    rw [hhash] at hno
    obtain ⟨i, a, b, c, hi, hb, hpair, hvalue, hos⟩ := h.hashObject k no hno
    refine ⟨i, a, b, c, hi, hslot hb, mem_cons_of_mem _ hpair, ?_, hos⟩
    rw [hzvals, hvalue]
  · intro p hp href
    rcases mem_cons.mp hp with rfl | hp
    · rw [hplain] at href
      cases href
    · obtain ⟨k, hk, hb⟩ := h.knownZval p hp href
      exact ⟨k, by rw [hhash, hk], hslot hb⟩
  · rw [hhash]
    exact h.knownObject

end Built

end PhpEngine

/-
What a session handler writes, it reads back: the variables come out under
their names, in order, with the same values and the same references.  A name
that leads to the symbol table or to the session array breaks this: the
decoder skips the name and takes the value for the next name.
-/
import PhpEngine.Session
import PhpEngine.RoundTrip

namespace PhpEngine

open List Function Option

variable {call : Nat → SerState → Option SerState} {t i b : Nat} {r : Ret} {name : List UInt8}

/-! The session arrays before and after. -/

/-- Where a zval is held: under a name, or in a table. -/
inductive SessionPlace where
  | named (index : Nat)
  | element (table index : Nat)
deriving Repr, DecidableEq

def Graph.HeldInSession (g' : Graph) (pr : Pairing)
    (vars' : List (HashKey × Nat)) (b : Nat) : SessionPlace → Prop
  | .named i => vars'[i]?.map Prod.snd = some b
  | .element t i => InPairing g' pr t ∧ g'.entry t i = some b

/-- The same names in the same order, with the same values.  References
correspond one to one, and a zval that stands for one and is held in two
places is one. -/
structure SameSession (g g' : Graph) (vars vars' : List (HashKey × Nat)) (pr : Pairing) : Prop where
  items : SameItems pr vars vars'
  value : ∀ p ∈ pr.zs, SameValue g g' pr (g.zvals p.1).value (g'.zvals p.2).value
  object : ∀ q ∈ pr.os, SameObject g g' pr q.1 q.2
  identity : ∀ q ∈ pr.os, ∀ q' ∈ pr.os, q.1 = q'.1 ↔ q.2 = q'.2
  refTo : ∀ p ∈ pr.zs, ∀ p' ∈ pr.zs, p.1 = p'.1 → (g.zvals p.1).isRef = true → p.2 = p'.2
  refFrom : ∀ p ∈ pr.zs, ∀ p' ∈ pr.zs, p.2 = p'.2 →
    (g'.zvals p.2).isRef = true → p.1 = p'.1 ∧ (g.zvals p.1).isRef = true
  shared : ∀ p ∈ pr.zs, (g.zvals p.1).isRef = true → ∀ x y, x ≠ y →
    g'.HeldInSession pr vars' p.2 x → g'.HeldInSession pr vars' p.2 y →
    (g'.zvals p.2).isRef = true

/-- A zval that may be held in two places. -/
def UState.Shared (s : UState) (b : Nat) : Prop :=
  (s.zvals b).isRef = true ∨ IsObject (s.zvals b).value

def SessionState.entry (s : SessionState) (i : Nat) : Option Nat :=
  s.vars.items[i]?.map Prod.snd

/-- What was decoded when the encoder was at `st`, with `done` behind it. -/
structure Decoded (g : Graph) (base origin : Nat) (before : UState)
    (st : SerState) (s : SessionState) (pr : Pairing)
    (done : List (HashKey × Nat)) : Prop where
  p : s.heap.p = origin + st.buf.length
  numbered : Numbered g st s.heap pr
  built : Built g base s.heap pr [] []
  items : SameItems pr done s.vars.items
  next : base ≤ s.heap.next
  tables : ∀ t, t < base → s.heap.tables t = before.tables t
  values : ∀ b, b < base → (s.heap.zvals b).value = (before.zvals b).value
  once : ∀ i j b, i ≠ j → s.entry i = some b → s.entry j = some b → s.heap.Shared b
  held : ∀ i t k b, s.entry i = some b → base ≤ t → s.heap.entry t k = some b → s.heap.Shared b

section Step

variable {g : Graph} {handlers : SerializeUser} {classes : UserCode}
  {base : Nat} {nodes : Finset Nat} {mem : Nat → UInt8}
  {max origin fuel z : Nat} {before : UState} {st st' : SerState}
  {s : SessionState} {pr pr' : Pairing} {done : List (HashKey × Nat)}

theorem SameItems.paired {vars vars' : List (HashKey × Nat)}
    (h : SameItems pr vars vars') (hb : vars'[i]?.map Prod.snd = some b) : ∃ a, (a, b) ∈ pr.zs := by
  obtain ⟨y, hy, rfl⟩ := map_eq_some_iff.mp hb
  obtain ⟨hi, rfl⟩ := List.getElem?_eq_some_iff.mp hy
  have hi' : i < vars.length := by
    rw [h.length_eq]
    exact hi
  exact ⟨_, (h.get hi' hi).2⟩

theorem Decoded.range (h : Decoded g base origin before st s pr done)
    (hb : s.entry i = some b) : base ≤ b ∧ b < s.heap.next := by
  obtain ⟨a, ha⟩ := h.items.paired hb
  exact h.built.rangeZ _ ha

theorem Decoded.alloc (h : Decoded g base origin before st s pr done) :
    Built g base s.heap.allocZval pr [] [] ∧ Fresh base s.heap.allocZval pr s.heap.next ∧
      Numbered g st s.heap.allocZval pr := by
  have hother : ∀ {b}, b ≠ s.heap.next → s.heap.allocZval.zvals b = s.heap.zvals b :=
    fun hb => update_of_ne hb _ _
  refine ⟨?_, ?_, ?_⟩
  · refine h.built.alloc h.next rfl (fun b hb => hother hb) ?_ (fun _ _ => rfl) ?_ (fun _ _ => rfl)
    · simp [UState.allocZval]
    · exact fun i b hb =>
        absurd hb (h.built.entry_new le_rfl)
  · refine ⟨⟨h.next, Nat.lt_succ_self _⟩, update_self _ _ _, ?_, ?_⟩
    · exact fun p hp => ne_of_lt (h.built.rangeZ p hp).2
    · intro t i ht hheld
      exact absurd (h.built.entry t i _ ht hheld) (lt_irrefl _)
  · exact h.numbered.congr rfl (fun p hp => by rw [hother (ne_of_lt (h.built.rangeZ p hp).2)])
      rfl rfl

/-- Behind the call for a value an older zval that was shared still is. -/
theorem Reads.sharedStays (hreads : Reads g base origin mem st' s.heap.allocZval pr [] [] z
      s.heap.next r pr') (hb : b < s.heap.next) (hshared : s.heap.Shared b) : r.s.Shared b := by
  have hlt : b < s.heap.allocZval.next := Nat.lt_succ_of_lt hb
  have hne : b ≠ s.heap.next := ne_of_lt hb
  have hsame : s.heap.allocZval.zvals b = s.heap.zvals b :=
    update_of_ne hne _ _
  rcases hshared with href | ⟨k, hk⟩
  · exact .inl (hreads.frame.isRef b hlt hne (hsame ▸ href))
  · exact .inr ⟨k, by rw [hreads.frame.value b hlt hne, hsame, hk]⟩

section

variable (h : Decoded g base origin before st s pr done)
  (hreads : Reads g base origin mem st' s.heap.allocZval pr [] [] z s.heap.next r pr')
include h hreads

/-- A variable is held by no new table unless it is shared. -/
theorem Decoded.heldAfter {k : Nat} (hb : s.entry i = some b) (ht : base ≤ t)
    (hheld : r.s.entry t k = some b) : r.s.Shared b := by
  have hrange := h.range hb
  by_cases hold : t < s.heap.allocZval.next
  · rw [Graph.entry, hreads.frame.tables t hold] at hheld
    exact hreads.sharedStays hrange.2 (h.held i t k b hb ht hheld)
  · rcases hreads.frame.held t k b (Nat.le_of_not_lt hold) hheld hrange.1
      with hge | hshared
    · exact absurd (Nat.lt_succ_of_lt hrange.2) (Nat.not_lt_of_le hge)
    · exact hshared

/-- The zval that a call answers is new to all places, or shared. -/
theorem Reads.newHeld {k : Nat} (ht : base ≤ t) (hheld : r.s.entry t k = some r.rval) :
    r.s.Shared r.rval := by
  obtain ⟨_, hfresh, _⟩ := h.alloc
  rcases hreads.rval with hrval | hshared
  · rw [hrval] at hheld ⊢
    by_cases hold : t < s.heap.allocZval.next
    · rw [Graph.entry, hreads.frame.tables t hold] at hheld
      exact absurd hheld (hfresh.unheld t k ht)
    · rcases hreads.frame.held t k _ (Nat.le_of_not_lt hold) hheld h.next
        with hge | hshared
      · exact absurd (Nat.lt_succ_self _) (Nat.not_lt_of_le hge)
      · exact hshared
  · exact hshared

theorem Reads.newOnce (hb : s.entry i = some r.rval) : r.s.Shared r.rval := by
  rcases hreads.rval with hrval | hshared
  · exact absurd (hrval ▸ (h.range hb).2) (lt_irrefl _)
  · exact hshared

end

theorem entry_snoc {l : List (HashKey × Nat)} {key : HashKey} {x : Nat}
    (h : (l ++ [(key, b)])[i]?.map Prod.snd = some x) :
    l[i]?.map Prod.snd = some x ∨ i = l.length ∧ x = b := by
  by_cases hi : i = l.length
  · subst hi
    exact .inr ⟨rfl, stored_at h⟩
  · have hold : (l ++ [])[i]?.map Prod.snd = some x := stored_old hi h
    rw [append_nil] at hold
    exact .inl hold

/-- The value of a variable is read and stored under its name. -/
theorem Decoded.store (h : Decoded g base origin before st s pr done)
    (hreads : Reads g base origin mem st' s.heap.allocZval pr [] [] z s.heap.next r pr')
    (hname : HashKey.string (name ++ [0]) ∉ done.map Prod.fst) : Decoded g base origin before st'
      (phpSetSessionVar name r.rval { s with heap := r.s }) pr'
      (done ++ [(.string (name ++ [0]), z)]) := by
  have hnew : HashKey.string (name ++ [0]) ∉ s.vars.items.map Prod.fst := by
    rw [← h.items.keys]
    exact hname
  have hstore := store_items (b := r.rval) (append_nil s.vars.items).symm hnew (.inl rfl)
  have hentry : ∀ {i x}, (phpSetSessionVar name r.rval { s with heap := r.s }).entry i = some x →
      s.entry i = some x ∨ i = s.vars.items.length ∧ x = r.rval := by
    intro i x hx
    rw [SessionState.entry, phpSetSessionVar, hstore] at hx
    exact entry_snoc hx
  have hnext : s.heap.next ≤ r.s.next :=
    Nat.le_of_succ_le hreads.frame.next
  refine ⟨hreads.p, hreads.numbered, hreads.built, ?_, le_trans h.next hnext, ?_, ?_, ?_, ?_⟩
  · rw [phpSetSessionVar, hstore]
    exact h.items.snoc hreads.le hreads.pair
  · intro t ht
    rw [← h.tables t ht]
    exact hreads.frame.tables t (Nat.lt_succ_of_lt (lt_of_lt_of_le ht h.next))
  · intro b hb
    have hlt : b < s.heap.next := lt_of_lt_of_le hb h.next
    have hne : b ≠ s.heap.next := ne_of_lt hlt
    have hsame : s.heap.allocZval.zvals b = s.heap.zvals b :=
      update_of_ne hne _ _
    rw [← h.values b hb, ← hsame]
    exact hreads.frame.value b (Nat.lt_succ_of_lt hlt) hne
  · intro i j b hne hi hj
    rcases hentry hi with hi | ⟨hlast, rfl⟩
    · rcases hentry hj with hj | ⟨_, rfl⟩
      · exact hreads.sharedStays (h.range hi).2 (h.once i j b hne hi hj)
      · exact hreads.newOnce h hi
    · rcases hentry hj with hj | ⟨hlast', _⟩
      · exact hreads.newOnce h hj
      · exact absurd (hlast.trans hlast'.symm) hne
  · intro i t k b hi ht hheld
    rcases hentry hi with hi | ⟨_, rfl⟩
    · exact h.heldAfter hreads hi ht hheld
    · exact hreads.newHeld h ht hheld

theorem phpAddSessionVar_set (name : List UInt8) (b : Nat) (s : SessionState) :
    phpAddSessionVar name (phpSetSessionVar name b s) = phpSetSessionVar name b s := by
  have hfind : ∃ x, phpGetSessionVar (phpSetSessionVar name b s).vars name = some x := by
    apply isSome_iff_exists.mp
    rw [phpGetSessionVar, OrderedMap.find, isSome_map, find?_isSome, phpSetSessionVar]
    simp only [OrderedMap.store]
    split
    next hmem =>
      obtain ⟨item, hitem, hkey⟩ := List.mem_map.mp hmem
      refine ⟨_, List.mem_map_of_mem hitem, ?_⟩
      rw [if_pos hkey]
      exact decide_eq_true hkey
    · exact ⟨_, mem_append_right _ mem_cons_self, by simp⟩
  obtain ⟨x, hx⟩ := hfind
  rw [phpAddSessionVar, hx]

theorem psDecodeVar_decoded
    (hcall : CallReads g base nodes mem max origin call (phpVarUnserialize classes mem max fuel))
    (hz : z ∈ nodes) (hrun : call z st = some st') (hwithin : Within mem max origin st')
    (h : Decoded g base origin before st s pr done)
    (hname : HashKey.string (name ++ [0]) ∉ done.map Prod.fst) :
    ∃ s' pr', psDecodeVar classes mem max fuel name true s = .ok s' ∧
      Decoded g base origin before st' s' pr' (done ++ [(.string (name ++ [0]), z)]) := by
  obtain ⟨hbuilt, hfresh, hnumbered⟩ := h.alloc
  obtain ⟨r, pr', hread, hreads⟩ := hcall z hz st st' hrun hwithin
    s.heap.allocZval pr [] [] s.heap.next h.p hnumbered hbuilt hfresh
  refine ⟨_, pr', ?_, h.store hreads hname⟩
  rw [psDecodeVar, if_pos rfl, hread]
  simp only [hreads.ok, if_true, phpAddSessionVar_set]

end Step

/-! The names. -/

/-- What stands before a value. -/
def psHeader (handler : PsHandler) (name : List UInt8) : List UInt8 :=
  match handler with
  | .php => name ++ [psDelimiter]
  | .phpBinary => UInt8.ofNat name.length :: name

/-- The names that a handler can write. -/
def PsName (handler : PsHandler) (name : List UInt8) : Prop :=
  match handler with
  | .php => psDelimiter ∉ name ∧ psUndefMarker ∉ name
  | .phpBinary => name.length ≤ psBinMax

theorem psHeader_pos (handler : PsHandler) (name : List UInt8) :
    0 < (psHeader handler name).length := by
  cases handler with
  | php => simp [psHeader]
  | phpBinary => exact Nat.succ_pos _

section Names

variable {g : Graph} {handlers : SerializeUser} {eg : SessionGlobals}
  {user : UserCode} {mem : Nat → UInt8} {endptr fuel n : Nat}
  {handler : PsHandler} {name : List UInt8} {z : Nat} {st st' : SerState} {s : SessionState}

theorem phpVarSerialize_ok (h : phpVarSerialize g handlers fuel z st = .ok st') :
    phpVarSerializeIntern g handlers fuel z st = some st' := by
  rw [phpVarSerialize] at h
  split at h
  next hrun =>
    cases h
    exact hrun
  · cases h

/-- An encoder that ends writes the header and then the value. -/
theorem psEncodeVar_ok (hshort : handler = .phpBinary → name.length ≤ psBinMax)
    (h : psEncodeVar g handlers fuel handler name z st = .ok st') :
    PsName handler name ∧ phpVarSerializeIntern g handlers fuel z
      (st.append (psHeader handler name)) = some st' := by
  cases handler with
  | php =>
    simp only [psEncodeVar, phpEncodeVar] at h
    split at h
    · cases h
    next hfree =>
      rw [not_or] at hfree
      rw [append_append] at h
      exact ⟨hfree, phpVarSerialize_ok h⟩
  | phpBinary =>
    have hlength := hshort rfl
    simp only [psEncodeVar, phpBinaryEncodeVar] at h
    rw [if_neg (Nat.not_lt_of_le hlength), append_append] at h
    exact ⟨hlength, phpVarSerialize_ok h⟩

theorem scanDelimiter_holds {p : Nat} (hname : psDelimiter ∉ name)
    (hholds : HoldsAt mem p (name ++ [psDelimiter])) (hn : name.length < n) :
    scanDelimiter mem n p = some (p + name.length) := by
  induction name generalizing p n with
  | nil =>
    obtain ⟨m, rfl⟩ : ∃ m, n = m + 1 := ⟨n - 1, by simp at hn; omega⟩
    exact if_pos hholds.1
  | cons b rest ih =>
    obtain ⟨m, rfl⟩ : ∃ m, n = m + 1 := ⟨n - 1, by simp at hn; omega⟩
    obtain ⟨hb, hrest⟩ := hholds
    rw [mem_cons, not_or] at hname
    rw [scanDelimiter, if_neg (by rw [hb]; exact Ne.symm hname.1),
      ih hname.2 hrest (by simp at hn; omega), length_cons]
    congr 1
    omega

theorem psBinUndef_free : ∀ n < 128, (UInt8.ofNat n &&& ~~~psBinUndef).toNat = n ∧
      UInt8.ofNat n &&& psBinUndef = 0 := by
  decide

variable (user fuel) in
/-- A turn of the decoder at a header whose name is not protected. -/
theorem psDecodeLoop_turn (hname : PsName handler name)
    (hholds : HoldsAt mem s.heap.p (psHeader handler name))
    (hend : s.heap.p + (psHeader handler name).length ≤ endptr)
    (hfree : isProtected eg s.heap name = false) :
    psDecodeLoop eg user mem endptr fuel handler (n + 1) s =
      (psDecodeVar user mem endptr fuel name true { s with heap := { s.heap with
          p := s.heap.p + (psHeader handler name).length } }).bind
        (psDecodeLoop eg user mem endptr fuel handler n) := by
  have hpos := psHeader_pos handler name
  have hfree' : ∀ p, isProtected eg { s.heap with p := p } name = false :=
    fun _ => hfree
  cases handler with
  | php =>
    obtain ⟨hdelimiter, hundef⟩ := hname
    have hlength : (psHeader .php name).length = name.length + 1 := by
      simp [psHeader]
    rw [hlength] at hend ⊢
    have hscan := scanDelimiter_holds hdelimiter hholds
      (show name.length < endptr - s.heap.p by omega)
    have hvalue : mem s.heap.p ≠ psUndefMarker := by
      cases name with
      | nil =>
        rw [hholds.1]
        decide
      | cons b rest =>
        rw [hholds.1]
        rintro rfl
        exact hundef mem_cons_self
    have hread := readBytes_holdsAt ((holdsAt_append _ _).mp hholds).1
    rw [psDecodeLoop, phpDecodeLoop, if_neg (by omega)]
    simp only [hscan, hvalue, ne_eq, not_false_eq_true, if_true,
      Nat.add_sub_cancel_left, hread, hfree', Bool.false_eq_true, if_false,
      decide_true, Nat.add_assoc]
    rfl
  | phpBinary =>
    have hshort : name.length < 128 := Nat.lt_succ_of_le hname
    have hlength : (psHeader .phpBinary name).length = name.length + 1 := rfl
    rw [hlength] at hend ⊢
    obtain ⟨hbyte, hrest⟩ := hholds
    obtain ⟨hmask, hmark⟩ := psBinUndef_free _ hshort
    have hread := readBytes_holdsAt hrest
    rw [psDecodeLoop, phpBinaryDecodeLoop, if_neg (by omega)]
    simp only [hbyte, hmask, hmark, hread, hfree', Bool.false_eq_true,
      if_false, decide_true, Nat.add_assoc]
    rw [if_neg (by simp only [psBinMax]; omega)]
    rfl

end Names

/-! The loops. -/

/-- A session array: string keys, with values among `nodes`. -/
structure SessionArray (nodes : Finset Nat) (vars : OrderedMap Nat) :
    Prop where
  nodup : vars.keys.Nodup
  key : ∀ x ∈ vars.items, ∃ name, x.1 = .string (name ++ [0])
  node : ∀ x ∈ vars.items, x.2 ∈ nodes

/-- The symbol table is older than the parse. -/
structure SessionGlobals.Older (eg : SessionGlobals) (g : Graph) (base : Nat) : Prop where
  table : eg.symbolTable < base
  entry : ∀ x ∈ (g.tables eg.symbolTable).items, x.2 < base

section Loops

variable {g : Graph} {handlers : SerializeUser} {classes : UserCode}
  {base : Nat} {nodes : Finset Nat} {mem : Nat → UInt8}
  {endptr origin fuel : Nat} {eg : SessionGlobals} {before : UState}
  {st st' : SerState} {s : SessionState} {pr : Pairing}
  {done items : List (HashKey × Nat)} {vars : OrderedMap Nat} {handler : PsHandler}

theorem OrderedMap.find_item {x : HashKey × Nat} (hnodup : vars.keys.Nodup)
    (hx : x ∈ vars.items) : vars.find x.1 = some x.2 := by
  have hsome : (vars.items.find? fun item => decide (item.1 = x.1)) = some x := by
    rw [find?_eq_some_iff_append]
    obtain ⟨l₁, l₂, hsplit⟩ := append_of_mem hx
    refine ⟨by simp, l₁, l₂, hsplit, ?_⟩
    intro y hy
    rw [OrderedMap.keys, hsplit, map_append, nodup_append] at hnodup
    have hne := hnodup.2.2 y.1 (List.mem_map_of_mem hy) x.1 (List.mem_map_of_mem mem_cons_self)
    simpa using hne
  rw [OrderedMap.find, hsome]
  rfl

theorem Decoded.isProtected_eq (h : Decoded g base origin before st s pr done)
    (holder : eg.Older before.toGraph base) (name : List UInt8) :
    isProtected eg s.heap name = isProtected eg before name := by
  rw [isProtected, isProtected, h.tables _ holder.table]
  split
  next tmp htmp =>
    rw [OrderedMap.find, map_eq_some_iff] at htmp
    obtain ⟨x, hx, rfl⟩ := htmp
    rw [h.values _ (holder.entry x (mem_of_find?_eq_some hx))]
  · rfl

theorem psEncodeLoop_cons {z : Nat} (hfind : vars.find (.string (name ++ [0])) = some z)
    (hshort : handler = .phpBinary → name.length ≤ psBinMax)
    (h : psEncodeLoop vars (psEncodeVar g handlers fuel handler)
      (psEncodeUndef handler) ((.string (name ++ [0]), z) :: items) st = .ok st') :
    PsName handler name ∧ ∃ st₁, phpVarSerializeIntern g handlers fuel z
        (st.append (psHeader handler name)) = some st₁ ∧
      psEncodeLoop vars (psEncodeVar g handlers fuel handler)
        (psEncodeUndef handler) items st₁ = .ok st' := by
  have htake : (name ++ [(0 : UInt8)]).take ((name ++ [0]).length - 1) = name := by simp
  rw [psEncodeLoop] at h
  simp only [htake, phpGetSessionVar, hfind] at h
  cases hvar : psEncodeVar g handlers fuel handler name z st with
  | error e =>
    rw [hvar] at h
    cases h
  | ok st₁ =>
    rw [hvar] at h
    obtain ⟨hname, hrun⟩ := psEncodeVar_ok hshort hvar
    exact ⟨hname, st₁, hrun, h⟩

/-- What is known of the variables that are still to come. -/
def PsItems (nodes : Finset Nat) (handler : PsHandler)
    (vars : OrderedMap Nat) (items : List (HashKey × Nat)) : Prop :=
  ∀ x ∈ items, x.2 ∈ nodes ∧ vars.find x.1 = some x.2 ∧ ∃ name, x.1 = .string (name ++ [0]) ∧
      (handler = .phpBinary → name.length ≤ psBinMax)

theorem psEncodeLoop_grows (hplain : PlainGraph g handlers classes base nodes)
    (hitems : PsItems nodes handler vars items)
    (h : psEncodeLoop vars (psEncodeVar g handlers fuel handler)
      (psEncodeUndef handler) items st = .ok st') : Outgrows st st' := by
  induction items generalizing st with
  | nil =>
    cases h
    exact Outgrows.refl _
  | cons item rest ih =>
    obtain ⟨hz, hfind, name, hkey, hshort⟩ := hitems item mem_cons_self
    obtain ⟨key, z⟩ := item
    cases hkey
    obtain ⟨_, st₁, hrun, h⟩ := psEncodeLoop_cons hfind hshort h
    have hvalue := phpVarSerializeIntern_grows hplain fuel z hz _ _ hrun
    exact ((Outgrows.append st _).trans hvalue).trans
      (ih (fun x hx => hitems x (mem_cons_of_mem _ hx)) h)

/-- The decoder follows the encoder, variable by variable. -/
theorem psDecodeLoop_decoded {fuel' n : Nat} (hplain : PlainGraph g handlers classes base nodes)
    (hfuel : fuel < fuel') (hitems : PsItems nodes handler vars items)
    (hnodup : ((done ++ items).map Prod.fst).Nodup)
    (hfree : ∀ name z, (HashKey.string (name ++ [0]), z) ∈ items →
      isProtected eg before name = false) (holder : eg.Older before.toGraph base)
    (hrun : psEncodeLoop vars (psEncodeVar g handlers fuel handler)
      (psEncodeUndef handler) items st = .ok st') (hwithin : Within mem endptr origin st')
    (hend : endptr = origin + st'.buf.length) (hn : endptr ≤ s.heap.p + n)
    (h : Decoded g base origin before st s pr done) :
    ∃ s' pr', psDecodeLoop eg classes mem endptr fuel' handler n s = .ok s' ∧
      Decoded g base origin before st' s' pr' (done ++ items) := by
  induction items generalizing st s pr done n with
  | nil =>
    cases hrun
    have hstop : endptr ≤ s.heap.p := by
      rw [hend, h.p]
    refine ⟨s, pr, ?_, by rwa [append_nil]⟩
    cases handler with
    | php | phpBinary =>
      cases n with
      | zero => exact if_neg (Nat.not_lt_of_le hstop)
      | succ n => exact if_pos hstop
  | cons item rest ih =>
    obtain ⟨hz, hfind, name, hkey, hshort⟩ := hitems item mem_cons_self
    obtain ⟨key, z⟩ := item
    cases hkey
    have hrest : PsItems nodes handler vars rest :=
      fun x hx => hitems x (mem_cons_of_mem _ hx)
    obtain ⟨hname, st₁, hvalue, hrun⟩ := psEncodeLoop_cons hfind hshort hrun
    obtain ⟨new, hgrows, _⟩ := psEncodeLoop_grows hplain hrest hrun
    have hwithin₁ := hwithin.of_grows hgrows
    obtain ⟨new₁, hgrows₁, _⟩ := phpVarSerializeIntern_grows hplain fuel z hz _ _ hvalue
    obtain ⟨hheader, hmax⟩ := (hwithin₁.of_grows hgrows₁).text
    rw [← h.p] at hheader hmax
    have hpos := psHeader_pos handler name
    -- The turn of the decoder, and what it leaves.
    obtain ⟨m, rfl⟩ : ∃ m, n = m + 1 := ⟨n - 1, by omega⟩
    have hturn := psDecodeLoop_turn classes fuel' (n := m) hname hheader hmax (by
        rw [h.isProtected_eq holder]
        exact hfree name z mem_cons_self)
    have hbehind : Decoded g base origin before
        (st.append (psHeader handler name)) { s with heap := { s.heap with
          p := s.heap.p + (psHeader handler name).length } } pr done := by
      refine ⟨?_, h.numbered.congr rfl (fun _ _ => rfl) rfl rfl,
        h.built.congr rfl rfl, h.items, h.next, h.tables, h.values, h.once,
        h.held⟩
      simp only [SerState.append, length_append, h.p, add_assoc]
    have hnew : HashKey.string (name ++ [0]) ∉ done.map Prod.fst := by
      rw [map_append, nodup_append] at hnodup
      intro hmem
      exact hnodup.2.2 _ hmem _ mem_cons_self rfl
    obtain ⟨s₁, pr₁, hvar, h₁⟩ := psDecodeVar_decoded
      (phpVarSerializeIntern_reads hplain hfuel) hz hvalue hwithin₁ hbehind
      hnew
    have hprogress : s.heap.p + 1 ≤ s₁.heap.p := by
      rw [h₁.p, h.p, hgrows₁.buf]
      simp only [SerState.append, length_append]
      omega
    obtain ⟨s', pr', hloop, h'⟩ := ih hrest (by
        rw [append_assoc]
        exact hnodup)
      (fun name z hx => hfree name z (mem_cons_of_mem _ hx)) hrun
      (show endptr ≤ s₁.heap.p + m by omega) h₁
    refine ⟨s', pr', ?_, by rwa [append_assoc] at h'⟩
    rw [hturn, hvar]
    exact hloop

/-- The session array that was decoded is the one that was encoded. -/
theorem Decoded.sameSession (h : Decoded g base origin before st s pr done) :
    SameSession g s.heap.toGraph done s.vars.items pr := by
  have hbuilt := h.built
  refine ⟨h.items, fun q hq => hbuilt.value q hq (by simp),
    fun q hq => hbuilt.object q hq (by simp), hbuilt.identity,
    h.numbered.refTo, hbuilt.refFrom, ?_⟩
  intro q hq href x y hne hx hy
  apply hbuilt.isRef_of_shared hq href
  cases x with
  | named i =>
    cases y with
    | named j =>
      refine h.once i j q.2 ?_ hx hy
      rintro rfl
      exact hne rfl
    | element t k => exact h.held i t k q.2 hx (hbuilt.base_le hy.1) hy.2
  | element t k =>
    cases y with
    | named j => exact h.held j t k q.2 hy (hbuilt.base_le hx.1) hx.2
    | element t' k' =>
      refine hbuilt.once t k t' k' q.2 (hbuilt.base_le hx.1)
        (hbuilt.base_le hy.1) (hbuilt.rangeZ q hq).1 hx.2 hy.2 ?_
      intro heq
      cases heq
      exact hne rfl

theorem SessionArray.psItems (hvars : SessionArray nodes vars)
    (hshort : handler = .phpBinary → ∀ name z, (HashKey.string (name ++ [0]), z) ∈ vars.items →
      name.length ≤ psBinMax) : PsItems nodes handler vars vars.items := by
  intro x hx
  obtain ⟨name, hname⟩ := hvars.key x hx
  refine ⟨hvars.node x hx, OrderedMap.find_item hvars.nodup hx, name, hname,
    fun hbinary => hshort hbinary name x.2 ?_⟩
  rw [← hname]
  exact hx

theorem psEncodeLoop_ends (hplain : PlainGraph g handlers classes base nodes)
    (hfind : ∀ name z, vars.find (.string (name ++ [0])) = some z → z ∈ nodes)
    (hkey : ∀ x ∈ items, ∃ name, x.1 = .string (name ++ [0]))
    (hbudget : budget g nodes st + 1 < fuel) :
    psEncodeLoop vars (psEncodeVar g handlers fuel handler)
      (psEncodeUndef handler) items st ≠ .error .noFuel := by
  induction items generalizing st with
  | nil => simp [psEncodeLoop]
  | cons item rest ih =>
    obtain ⟨name, hname⟩ := hkey item mem_cons_self
    obtain ⟨key, y⟩ := item
    cases hname
    have htake : (name ++ [(0 : UInt8)]).take ((name ++ [0]).length - 1) = name := by simp
    have hnext : ∀ st₁, Settles st st₁ → psEncodeLoop vars (psEncodeVar g handlers fuel handler)
          (psEncodeUndef handler) rest st₁ ≠ .error .noFuel :=
      fun st₁ hsettles => ih (fun x hx => hkey x (mem_cons_of_mem _ hx))
        (lt_of_le_of_lt (Nat.succ_le_succ hsettles.budget_le) hbudget)
    -- A value is written to its end.
    have hvalue : ∀ z ∈ nodes, ∀ header, ∃ st₁,
        phpVarSerialize g handlers fuel z (st.append header) = .ok st₁ ∧ Settles st st₁ := by
      intro z hz header
      have hhash := phpAddVarHash_settles g z (st.append header)
      have hroom : budget g nodes (phpAddVarHash g z (st.append header)).2 + 1 < fuel :=
        lt_of_le_of_lt (Nat.succ_le_succ ((Settles.append st header).trans hhash).budget_le) hbudget
      obtain ⟨st₁, hrun, hsettles⟩ := phpVarSerializeIntern_ends hplain fuel
        z hz (st.append header) (by omega) (.inr hroom)
      exact ⟨st₁, by rw [phpVarSerialize, hrun], (Settles.append st header).trans hsettles⟩
    rw [psEncodeLoop]
    simp only [htake, phpGetSessionVar]
    cases hz : vars.find (.string (name ++ [0])) with
    | none =>
      apply hnext
      cases handler with
      | php => exact ⟨rfl, fun _ h => h⟩
      | phpBinary =>
        rw [psEncodeUndef, phpBinaryEncodeUndef]
        split
        · exact Settles.refl st
        · exact ⟨rfl, fun _ h => h⟩
    | some z =>
      have hz' := hfind name z hz
      cases handler with
      | php =>
        simp only [psEncodeVar, phpEncodeVar, append_append]
        split
        · exact fun h => by cases h
        · obtain ⟨st₁, hrun, hsettles⟩ :=
            hvalue z hz' (name ++ [psDelimiter])
          rw [hrun]
          exact hnext st₁ hsettles
      | phpBinary =>
        simp only [psEncodeVar, phpBinaryEncodeVar, append_append]
        split
        · exact hnext st (Settles.refl st)
        · obtain ⟨st₁, hrun, hsettles⟩ :=
            hvalue z hz' ([UInt8.ofNat name.length] ++ name)
          rw [hrun]
          exact hnext st₁ hsettles

end Loops

/-! The round trip. -/

/-- The state of a request whose session array is still empty: the values of
`before` have the ids below `base`. -/
def sessionStart (before : Graph) (base origin : Nat) : SessionState :=
  ⟨unserializeFrom before base origin, OrderedMap.empty⟩

/-- The decoded variables are those of the session array, but for some whose
names are protected. -/
def Restores (g : Graph) (vars : OrderedMap Nat) (eg : SessionGlobals)
    (start s : SessionState) : Prop :=
  ∃ pr kept, List.Sublist kept vars.items ∧
    (∀ name z, (HashKey.string (name ++ [0]), z) ∈ vars.items →
      (HashKey.string (name ++ [0]), z) ∈ kept ∨ isProtected eg start.heap name = true) ∧
    SameSession g s.heap.toGraph kept s.vars.items pr

section Whole

variable {g before : Graph} {handlers : SerializeUser} {classes : UserCode}
  {base origin : Nat} {nodes : Finset Nat} {eg : SessionGlobals}
  {vars : OrderedMap Nat} {handler : PsHandler}

theorem sessionStart_decoded : Decoded g base origin
    (unserializeFrom before base origin) serializeStart
    (sessionStart before base origin) ⟨[], []⟩ [] := by
  refine ⟨rfl, empty_numbered, empty_built, .nil, le_rfl, fun _ _ => rfl, fun _ _ => rfl, ?_, ?_⟩
  · intro i j b _ hi
    simp [sessionStart, SessionState.entry, OrderedMap.empty] at hi
  · intro i t k b hi
    simp [sessionStart, SessionState.entry, OrderedMap.empty] at hi

theorem unserializeFrom_older (holder : eg.Older before base) :
    eg.Older (unserializeFrom before base origin).toGraph base := by
  refine ⟨holder.table, ?_⟩
  have hsame : (unserializeFrom before base origin).tables eg.symbolTable =
      before.tables eg.symbolTable := if_pos holder.table
  rw [hsame]
  exact holder.entry

end Whole

/-! Two session arrays. -/

def sessionKey (name : String) : HashKey :=
  .string (bytesOf name ++ [0])

/-- A request: `$GLOBALS` is the symbol table, and `$_SESSION` is the array of
the session. -/
def requestGraph : Graph where
  zvals
    | 0 => ⟨.array 0, true⟩
    | _ => ⟨.null, true⟩
  tables _ := ⟨[(sessionKey "GLOBALS", 0), (sessionKey "_SESSION", 1)], none, 0⟩
  objects _ := ⟨standardClass, 0⟩

def requestGlobals : SessionGlobals :=
  ⟨0, 1⟩

theorem requestGlobals_older : requestGlobals.Older requestGraph 2 :=
  ⟨by decide, by decide⟩

def noClasses : UserCode where
  lookupClass _ _ := .incomplete
  unserialize _ _ := none
  wakeup _ s := s
  wakeupThrows _ := false

/-- `['a' => 5, 'b' => &$x, 'c' => &$x, 'd' => [1.5]]`. -/
def cartGraph : Graph where
  zvals
    | 1 => ⟨.long 5, false⟩
    | 2 => ⟨.long 7, true⟩
    | 3 => ⟨.array 3, false⟩
    | 4 => ⟨.double (bytesOf "1.5"), false⟩
    | _ => ⟨.null, false⟩
  tables
    | 3 => ⟨[(.long 0, 4)], none, 1⟩
    | _ => OrderedMap.empty
  objects _ := ⟨standardClass, 0⟩

def cartVars : OrderedMap Nat :=
  ⟨[(sessionKey "a", 1), (sessionKey "b", 2), (sessionKey "c", 2), (sessionKey "d", 3)], none, 0⟩

theorem cartGraph_plain : PlainGraph cartGraph noHandlers noClasses 2 {1, 2, 3, 4} := by
  intro z hz
  simp only [Finset.mem_insert, Finset.mem_singleton] at hz
  rcases hz with rfl | rfl | rfl | rfl
  · exact ⟨by decide, by decide⟩
  · exact ⟨by decide, by decide⟩
  · refine ⟨by decide, by decide, ?_, ?_⟩
    · simp [cartGraph, ArrayKey, ulongMod]
    · simp [cartGraph]
  · exact @DoubleText.number [] [byte '1'] [byte '.', byte '5'] []
      (.inl rfl) ⟨by decide, by decide +kernel⟩
      (.inr ⟨[byte '5'], rfl, by decide, by decide +kernel⟩) (.inl rfl)

theorem cartVars_session : SessionArray {1, 2, 3, 4} cartVars := by
  refine ⟨by decide, ?_, by decide⟩
  intro x hx
  simp only [cartVars, mem_cons, not_mem_nil, or_false] at hx
  rcases hx with rfl | rfl | rfl | rfl
  · exact ⟨bytesOf "a", rfl⟩
  · exact ⟨bytesOf "b", rfl⟩
  · exact ⟨bytesOf "c", rfl⟩
  · exact ⟨bytesOf "d", rfl⟩

def cartText : List UInt8 :=
  bytesOf "a|i:5;b|i:7;c|R:2;d|a:1:\x7bi:0;d:1.5;\x7d"

theorem cartVars_free : ∀ name z, (HashKey.string (name ++ [0]), z) ∈ cartVars.items →
    isProtected requestGlobals (sessionStart requestGraph 2 0).heap name = false := by
  intro name z hx
  have hfree : ∀ x ∈ cartVars.items, ∀ y ∈ (requestGraph.tables 0).items, y.1 ≠ x.1 := by decide
  have hnone : ((requestGraph.tables 0).items.find? fun item =>
      decide (item.1 = .string (name ++ [0]))) = none := by
    apply find?_eq_none.mpr
    intro y hy
    simpa using hfree _ hx y hy
  have htable : (sessionStart requestGraph 2 0).heap.tables 0 = requestGraph.tables 0 := rfl
  simp only [isProtected, OrderedMap.find, requestGlobals, htable, hnone, map_none]

theorem cartVars_text : (psEncode cartGraph noHandlers 3 .php cartVars).toOption.map
      (fun st => (st.buf, st.cut)) = some (cartText, false) := by
  decide

/-- `['_SESSION' => 5, 'a' => 1]`. -/
def takenVars : OrderedMap Nat :=
  ⟨[(sessionKey "_SESSION", 1), (sessionKey "a", 2)], none, 0⟩

def takenGraph : Graph where
  zvals
    | 1 => ⟨.long 5, false⟩
    | 2 => ⟨.long 1, false⟩
    | _ => ⟨.null, false⟩
  tables _ := OrderedMap.empty
  objects _ := ⟨standardClass, 0⟩

def takenText : List UInt8 :=
  bytesOf "_SESSION|i:5;a|i:1;"

theorem takenVars_run : (psEncode takenGraph noHandlers 3 .php takenVars).toOption.map
        (fun st => (st.buf, st.cut)) = some (takenText, false) ∧
      (psDecode .php requestGlobals noClasses (memoryOf takenText) (intOf takenText.length) 4
        (sessionStart requestGraph 2 0)).toOption.map (fun s => s.vars.keys) =
        some [sessionKey "i:5;a"] := by
  decide

end PhpEngine

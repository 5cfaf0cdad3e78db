/-
The loop over a table: the keys and the elements that the serializer wrote are
read back, each under its key and in order.
-/
import PhpEngine.SlotSync

namespace PhpEngine

open List Function

variable {done rest : List (HashKey × Nat)} {key : HashKey} {b rval ht : Nat} {objprops : Bool}
    {v : UValue}

/-- The keys come in order: a key is new, or it is the first one that is left
of those that were there. -/
theorem store_items {m : OrderedMap Nat}
     (hitems : m.items = done ++ rest) (hdone : key ∉ done.map Prod.fst)
    (hrest : rest = [] ∨ ∃ d more, rest = (key, d) :: more ∧ key ∉ more.map Prod.fst) :
    (m.store key b).items = done ++ (key, b) :: rest.tail := by
  have hother : ∀ l : List (HashKey × Nat), key ∉ l.map Prod.fst →
      l.map (fun item => if item.1 = key then (item.1, b) else item) = l := by
    intro l hl
    conv_rhs => rw [← List.map_id l]
    apply map_congr_left
    intro item hitem
    rw [if_neg]
    · rfl
    · rintro rfl
      exact hl (List.mem_map_of_mem hitem)
  rcases hrest with rfl | ⟨d, more, rfl, hmore⟩
  · have hnew : key ∉ m.keys := by
      rw [OrderedMap.keys, hitems]
      simpa using hdone
    rw [OrderedMap.store, if_neg hnew, hitems]
    simp
  · have hmem : key ∈ m.keys := by
      rw [OrderedMap.keys, hitems]
      simp
    rw [OrderedMap.store, if_pos hmem]
    simp only [hitems, map_append, map_cons, if_true,
      hother done hdone, hother more hmore, tail_cons]

theorem stored_at {x : Nat}
    (h : (done ++ (key, b) :: rest)[done.length]?.map Prod.snd = some x) : x = b := by
  simpa using h.symm

theorem stored_old {i x : Nat} (hi : i ≠ done.length)
    (h : (done ++ (key, b) :: rest.tail)[i]?.map Prod.snd = some x) :
    (done ++ rest)[i]?.map Prod.snd = some x := by
  rcases Nat.lt_or_gt_of_ne hi with hlt | hgt
  · rwa [getElem?_append_left hlt] at h ⊢
  · obtain ⟨j, rfl⟩ : ∃ j, i = done.length + (j + 1) :=
      ⟨i - done.length - 1, by omega⟩
    rw [getElem?_append_right (by omega), Nat.add_sub_cancel_left, getElem?_cons_succ] at h
    rw [getElem?_append_right (by omega), Nat.add_sub_cancel_left]
    cases rest with
    | nil => simp at h
    | cons first more => simpa using h

theorem defaultProperties_items {ce : ClassEntry} (hnodup : (defaultKeys ce).Nodup) :
    (UState.defaultProperties ce).items = ce.defaults.map fun d => (.string (d.1 ++ [0]), d.2) := by
  have hfold : ∀ (l : List (List UInt8 × Nat)) (m : OrderedMap Nat),
      (m.items.map Prod.fst ++ l.map fun d =>
        HashKey.string (d.1 ++ [0])).Nodup →
      (l.foldl (fun m d => m.store (.string (d.1 ++ [0])) d.2) m).items =
        m.items ++ l.map fun d => (.string (d.1 ++ [0]), d.2) := by
    intro l
    induction l with
    | nil => simp
    | cons d rest ih =>
      intro m hnodup
      have hnew : HashKey.string (d.1 ++ [0]) ∉ m.items.map Prod.fst := by
        intro hmem
        exact disjoint_of_nodup_append hnodup hmem (List.mem_map_of_mem mem_cons_self)
      have hstore := store_items (b := d.2) (append_nil m.items).symm hnew (.inl rfl)
      rw [foldl_cons, ih, hstore]
      · simp
      · rw [hstore]
        simpa using hnodup
  rw [UState.defaultProperties, hfold]
  · rfl
  · simpa [OrderedMap.empty, defaultKeys] using hnodup

section Keys

/-- What is a key in an array, and in the properties of an object. -/
def KeyFor : Bool → HashKey → Prop
  | false => ArrayKey
  | true => PropertyKey

def keyText : HashKey → List UInt8
  | .long h => longText (toLong h)
  | .string key => stringText (key.take (key.length - 1))

theorem serializeKey_eq (key : HashKey) (st : SerState) :
    serializeKey key st = st.append (keyText key) := by
  cases key with
  | long h => rw [serializeKey, phpVarSerializeLong_eq, keyText]
  | string key => rw [serializeKey, phpVarSerializeString_eq, keyText]

theorem keyText_pos (key : HashKey) : 0 < (keyText key).length := by
  cases key with
  | long h =>
    simp only [keyText, longText, length_append]
    have htag : (bytesOf "i:").length = 2 := rfl
    omega
  | string key =>
    simp only [keyText, stringText, quotedText, length_append]
    have htag : (bytesOf "s:").length = 2 := rfl
    omega

theorem isLong_toLong {h : Nat} (hh : h < ulongMod) :
    IsLong (toLong h) ∧ (toLong h % (ulongMod : Int)).toNat = h := by
  simp only [ulongMod] at hh ⊢
  by_cases hlt : h < 2 ^ 63
  · rw [toLong_of_lt hlt, IsLong]
    omega
  · rw [toLong_of_ge (by omega), IsLong]
    simp only [ulongMod]
    omega

variable {user : UserCode} {mem : Nat → UInt8} {max fuel rval : Nat} {s : UState}

/-- The state in which the token of a call is read. -/
def UState.began (s : UState) (mem : Nat → UInt8) (rval : Nat) (hash : Bool) : UState :=
  if hash ∧ mem s.p ≠ byte 'R' then
    (s.note (.called s.p hash)).pushSlot rval
  else s.note (.called s.p hash)

theorem phpVarUnserialize_token {hash : Bool} {r : Ret} (hmax : s.p < max)
    (htoken : unserializeToken user mem max (phpVarUnserialize user mem max fuel) s.p rval hash
      (s.began mem rval hash) = some r) (hok : r.ok = true) :
    phpVarUnserialize user mem max (fuel + 1) rval hash s =
      some { r with s := r.s.note (.returned s.p r.s.p) } := by
  rw [phpVarUnserialize, if_neg (by omega)]
  change Option.bind (unserializeToken user mem max _ s.p rval hash (s.began mem rval hash)) _ = _
  rw [htoken]
  simp [hok]

theorem token_key {start : Nat} {call : Nat → Bool → UState → Option Ret} {hash : Bool}
    (hkey : KeyFor objprops key) (hholds : HoldsAt mem start (keyText key))
    (hmax : start + (keyText key).length ≤ max) :
    ∃ v, elementKey objprops v = some key ∧ (∀ t, v ≠ .array t) ∧
      unserializeToken user mem max call start rval hash s =
        some (unserializeScalar v (start + (keyText key).length) rval s) := by
  cases key with
  | long h =>
    cases objprops with
    | true => exact absurd hkey id
    | false =>
      obtain ⟨hlong, hback⟩ := isLong_toLong hkey
      refine ⟨.long (toLong h), ?_, by simp, token_long hlong hholds hmax⟩
      rw [elementKey, hback]
      rfl
  | string key =>
    have hbytes : ∃ b : List UInt8, key = b ++ [0] ∧ b.length < 2 ^ 31 ∧
        elementKey objprops (.string b) = some (.string key) := by
      cases objprops with
      | true =>
        obtain ⟨b, rfl, hb⟩ := hkey
        exact ⟨b, rfl, hb, rfl⟩
      | false =>
        obtain ⟨b, rfl, hb, hnumeric⟩ := hkey
        refine ⟨b, rfl, hb, ?_⟩
        simp [elementKey, symtableKey, hnumeric]
    obtain ⟨b, rfl, hb, helement⟩ := hbytes
    have htext : keyText (.string (b ++ [0])) = stringText b := by
      simp [keyText]
    rw [htext] at hholds hmax ⊢
    exact ⟨.string b, helement, by simp, token_string hb hholds hmax⟩

variable (user fuel) in
theorem key_read (hkey : KeyFor objprops key) (hholds : HoldsAt mem s.p (keyText key))
    (hmax : s.p + (keyText key).length ≤ max) (hpos : s.p < max) :
    ∃ r v, phpVarUnserialize user mem max (fuel + 1) s.next false
        s.allocZval = some r ∧ r.ok = true ∧ r.rval = s.next ∧
      elementKey objprops v = some key ∧ (∀ t, v ≠ .array t) ∧ r.s.p = s.p + (keyText key).length ∧
      r.s.zvals = update s.zvals s.next ⟨v, false⟩ ∧
      r.s.tables = s.tables ∧ r.s.objects = s.objects ∧
      r.s.slots = s.slots ∧ r.s.next = s.next + 1 := by
  obtain ⟨v, helement, harray, htoken⟩ : ∃ v,
      elementKey objprops v = some key ∧ (∀ t, v ≠ .array t) ∧
      unserializeToken user mem max (phpVarUnserialize user mem max fuel) s.p
        s.next false (s.allocZval.began mem s.next false) =
        some (unserializeScalar v (s.p + (keyText key).length) s.next
          (s.allocZval.began mem s.next false)) :=
    token_key hkey hholds hmax
  refine ⟨_, v, phpVarUnserialize_token hpos htoken rfl, rfl, rfl, helement,
    harray, rfl, ?_, rfl, rfl, rfl, rfl⟩
  exact update_idem _ _ _

end Keys

/-- The memory holds what was written, no array was left out, and the values
can be numbered. -/
structure Within (mem : Nat → UInt8) (max origin : Nat) (st : SerState) :
    Prop where
  holds : HoldsAt mem origin st.buf
  max : origin + st.buf.length ≤ max
  cut : st.cut = false
  count : st.count < 2 ^ 31

/-- What the call for `z` on `rval` leaves. -/
structure Reads (g : Graph) (base origin : Nat) (mem : Nat → UInt8)
    (st' : SerState) (s : UState) (pr : Pairing) (opens oopens : List Nat)
    (z rval : Nat) (r : Ret) (pr' : Pairing) : Prop where
  ok : r.ok = true
  p : r.s.p = origin + st'.buf.length
  last : mem (r.s.p - 1) = byte ';' ∨ mem (r.s.p - 1) = byte '\x7d'
  numbered : Numbered g st' r.s pr'
  built : Built g base r.s pr' opens oopens
  le : pr.Le pr'
  pair : (z, r.rval) ∈ pr'.zs
  frame : Frame base rval s r.s
  rval : r.rval = rval ∨ (r.s.zvals r.rval).isRef = true ∨ IsObject (r.s.zvals r.rval).value

/-- From a state that has what was written so far, the call reads what one more zval adds. -/
def ReadsBack (g : Graph) (base origin : Nat) (mem : Nat → UInt8) (st st' : SerState) (z : Nat)
    (ucall : Nat → Bool → UState → Option Ret) : Prop :=
  ∀ s pr opens oopens rval, s.p = origin + st.buf.length →
    Numbered g st s pr → Built g base s pr opens oopens →
    Fresh base s pr rval →
    ∃ r pr', ucall rval true s = some r ∧ Reads g base origin mem st' s pr opens oopens z rval r pr'

/-- Every call of the serializer on a node is read back by the other call. -/
def CallReads (g : Graph) (base : Nat) (nodes : Finset Nat) (mem : Nat → UInt8) (max origin : Nat)
    (call : Nat → SerState → Option SerState) (ucall : Nat → Bool → UState → Option Ret) : Prop :=
  ∀ z ∈ nodes, ∀ st st', call z st = some st' → Within mem max origin st' →
    ReadsBack g base origin mem st st' z ucall

section Elements

theorem SameItems.keys {pr : Pairing} {l l' : List (HashKey × Nat)}
    (h : SameItems pr l l') : l.map Prod.fst = l'.map Prod.fst := by
  induction h with
  | nil => rfl
  | cons hxy _ ih => rw [map_cons, map_cons, hxy.1, ih]

theorem SameItems.snoc {pr pr' : Pairing} {l l' : List (HashKey × Nat)}
    {item : HashKey × Nat} (h : SameItems pr l l')
    (hle : pr.Le pr') (hpair : (item.2, b) ∈ pr'.zs) :
    SameItems pr' (l ++ [item]) (l' ++ [(item.1, b)]) :=
  rel_append (h.mono hle) (.cons ⟨rfl, hpair⟩ .nil)

theorem Frame.congr {base : Nat} {s s' s'' : UState}
    (h : Frame base rval s s') (hgraph : s''.toGraph = s'.toGraph)
    (hnext : s''.next = s'.next) : Frame base rval s s'' := by
  refine ⟨hnext ▸ h.next, ?_, ?_, ?_, ?_, ?_⟩
  · rw [hgraph]
    exact h.value
  · rw [hgraph]
    exact h.isRef
  · rw [hgraph]
    exact h.tables
  · rw [hgraph]
    exact h.objects
  · rw [hgraph]
    exact h.held

variable {g : Graph} {handlers : SerializeUser} {classes : UserCode}
  {base : Nat} {nodes : Finset Nat} {mem : Nat → UInt8} {max origin : Nat}
  {st st' : SerState} {s s' : UState} {pr pr' : Pairing} {opens oopens : List Nat}

theorem Within.of_grows {new : List UInt8} (h : Within mem max origin st')
    (hgrows : Grows st st' new) : Within mem max origin st := by
  have hholds := h.holds
  have hmax := h.max
  have hcount := h.count
  rw [hgrows.buf, holdsAt_append] at hholds
  rw [hgrows.buf, length_append] at hmax
  exact ⟨hholds.1, by omega, hgrows.cut h.cut, lt_of_le_of_lt hgrows.count hcount⟩

theorem Within.text {text : List UInt8} (h : Within mem max origin (st.append text)) :
    HoldsAt mem (origin + st.buf.length) text ∧ origin + st.buf.length + text.length ≤ max := by
  have hholds := h.holds
  have hmax := h.max
  simp only [SerState.append, holdsAt_append, length_append] at hholds hmax
  exact ⟨hholds.2, by omega⟩

/-- `serializeElement` with an array that is not left out. -/
theorem serializeElement_reads {call : Nat → SerState → Option SerState}
    {ucall : Nat → Bool → UState → Option Ret} {z : Nat}
    (hcall : CallReads g base nodes mem max origin call ucall)
    (hz : z ∈ nodes) (hrun : serializeElement g call z st = some st')
    (hwithin : Within mem max origin st') : ReadsBack g base origin mem st st' z ucall := by
  rw [serializeElement] at hrun
  split at hrun
  · exact hcall z hz st st' hrun hwithin
  · intro s pr opens oopens rval hp hnumbered hbuilt hfresh
    split at hrun
    · cases hrun
      exact absurd hwithin.cut (by simp)
    · obtain ⟨st₁, hinner, heq⟩ := Option.bind_eq_some_iff.mp hrun
      cases heq
      obtain ⟨r, pr', hread, hreads⟩ := hcall z hz _ st₁ hinner
        ⟨hwithin.holds, hwithin.max, hwithin.cut, hwithin.count⟩ s pr opens
        oopens rval hp (hnumbered.congr rfl (fun _ _ => rfl) rfl rfl) hbuilt
        hfresh
      exact ⟨r, pr', hread, hreads.ok, hreads.p, hreads.last,
        hreads.numbered.congr rfl (fun _ _ => rfl) rfl rfl, hreads.built,
        hreads.le, hreads.pair, hreads.frame, hreads.rval⟩

theorem Building.mono (h : Building base s pr opens oopens ht)
    (hvalue : ∀ b ∈ opens, (s'.zvals b).value = (s.zvals b).value)
    (hle : pr.Le pr') : Building base s' pr' opens oopens ht := by
  rcases h with ⟨b, hb, hbase, hval⟩ | ⟨hmem, q, hq, heq⟩
  · exact .inl ⟨b, hb, hbase, by rw [hvalue b hb, hval]⟩
  · exact .inr ⟨hmem, q, hle.2 q hq, heq⟩

/-- One element: the key, the value, and the byte behind it. -/
theorem processNestedData_step {call : Nat → Bool → UState → Option Ret}
    (ht n : Nat) {key data : Ret} {k : HashKey}
    (hkey : call s.next false s.allocZval = some key) (hkeyOk : key.ok = true)
    (helement : elementKey objprops (key.s.zvals key.rval).value = some k)
    (hdata : call key.s.next true key.s.allocZval = some data) (hdataOk : data.ok = true)
    (hlast : mem (data.s.p - 1) = byte ';' ∨ mem (data.s.p - 1) = byte '\x7d') :
    ∃ s' : UState, processNestedData mem call ht objprops (n + 1) s =
        processNestedData mem call ht objprops n s' ∧ s'.toGraph = (data.s.setTable ht
        ((data.s.tables ht).store k data.rval)).toGraph ∧
      s'.p = data.s.p ∧ s'.slots = data.s.slots ∧ s'.next = data.s.next := by
  have hbind : processNestedData mem call ht objprops (n + 1) s =
      (if 0 < n then processNestedData mem call ht objprops n
          ((data.s.setTable ht ((data.s.tables ht).store k data.rval)).note
            (.looked (data.s.p - 1)))
        else processNestedData mem call ht objprops n
          (data.s.setTable ht ((data.s.tables ht).store k data.rval))) := by
    rw [processNestedData]
    simp only [hkey, Option.bind_eq_bind, Option.bind_some, hkeyOk,
      Bool.not_true, Bool.false_eq_true, if_false, helement, hdata, hdataOk]
    by_cases hn : 0 < n
    · rw [if_pos hn, if_pos hn, if_neg]
      · rfl
      · rintro ⟨hne, hne'⟩
        exact hlast.elim hne hne'
    · rw [if_neg hn, if_neg hn]
  rw [hbind]
  by_cases hn : 0 < n
  · rw [if_pos hn]
    exact ⟨_, rfl, rfl, rfl, rfl, rfl⟩
  · rw [if_neg hn]
    exact ⟨_, rfl, rfl, rfl, rfl, rfl⟩

/-- Whatever was there before a key and a new zval. -/
structure Scratch (s s' : UState) (v : UValue) : Prop where
  zvals : s'.zvals = update (update s.zvals s.next ⟨v, false⟩) (s.next + 1) ⟨.null, false⟩
  tables : s'.tables = s.tables
  objects : s'.objects = s.objects
  slots : s'.slots = s.slots
  next : s'.next = s.next + 2

section

variable (h : Scratch s s' v)
include h

theorem Scratch.zvals_of_lt (hb : b < s.next) : s'.zvals b = s.zvals b := by
  rw [h.zvals, update_of_ne (by omega), update_of_ne (by omega)]

theorem Scratch.built (harray : ∀ t, v ≠ .array t) (hbase : base ≤ s.next)
    (hbuilt : Built g base s pr opens oopens) :
    Built g base s' pr opens oopens := by
  have hkey : Built g base { s with
      zvals := update s.zvals s.next ⟨v, false⟩
      next := s.next + 1 } pr opens oopens := by
    refine hbuilt.alloc hbase rfl ?_ ?_ (fun _ _ => rfl) ?_ (fun _ _ => rfl)
    · intro b hb
      simp [hb]
    · simpa using harray
    · intro i b hheld
      exact absurd hheld (hbuilt.entry_new le_rfl)
  refine hkey.alloc (Nat.le_succ_of_le hbase) h.next ?_ ?_ ?_ ?_ ?_
  · intro b hb
    rw [h.zvals, update_of_ne hb]
  · rw [h.zvals]
    simp
  · intro t _
    rw [h.tables]
  · intro i b hheld
    rw [Graph.entry, h.tables] at hheld
    exact absurd hheld (hbuilt.entry_new (Nat.le_succ _))
  · intro c _
    rw [h.objects]

theorem Scratch.fresh (hbase : base ≤ s.next) (hbuilt : Built g base s pr opens oopens) :
    Fresh base s' pr (s.next + 1) := by
  refine ⟨⟨by omega, by rw [h.next]; omega⟩, ?_, ?_, ?_⟩
  · rw [h.zvals, update_self]
  · intro p hp
    have hrange := hbuilt.rangeZ p hp
    omega
  · intro t i ht hheld
    rw [Graph.entry, h.tables] at hheld
    have hlt := hbuilt.entry t i _ ht hheld
    omega

theorem Scratch.frame (hbuilt : Built g base s pr opens oopens) (rval : Nat) :
    Frame base rval s s' := by
  refine Frame.of_new (by rw [h.next]; omega) ?_ ?_ ?_ ?_
  · exact fun b hb _ => h.zvals_of_lt hb
  · exact fun t _ => by rw [h.tables]
  · exact fun c _ => by rw [h.objects]
  · intro t i b ht hheld
    rw [Graph.entry, h.tables] at hheld
    exact absurd hheld (hbuilt.entry_new ht)

theorem Scratch.numbered (hbuilt : Built g base s pr opens oopens)
    (hnumbered : Numbered g st s pr) :
    Numbered g st s' pr :=
  hnumbered.congr h.slots (fun p hp => by rw [h.zvals_of_lt (hbuilt.rangeZ p hp).2]) rfl rfl

end

theorem store_reads {z : Nat} {r : Ret} {s₀ : UState} {rval₀ : Nat}
    (hreads : Reads g base origin mem st' s pr opens oopens z rval r pr')
    (hfresh : Fresh base s pr rval) (hopen : Building base s pr opens oopens ht)
    (hbuilt : Built g base s pr opens oopens) (hframe : Frame base rval₀ s₀ s) (hold : s₀.next ≤ ht)
    (hnew : s₀.next ≤ rval) (htable : (s.tables ht).items = done ++ rest)
    (hstore : ((s.tables ht).store key r.rval).items = done ++ (key, r.rval) :: rest.tail) :
    Built g base (r.s.setTable ht ((r.s.tables ht).store key r.rval)) pr' opens oopens ∧
      Frame base rval₀ s₀ (r.s.setTable ht ((r.s.tables ht).store key r.rval)) := by
  have hrange := hopen.range hbuilt
  have hsame : r.s.tables ht = s.tables ht := hreads.frame.tables ht hrange.2
  have hold' : ∀ i x, i ≠ done.length →
      ((r.s.tables ht).store key r.rval).items[i]?.map Prod.snd = some x →
      r.s.entry ht i = some x := by
    intro i x hi hx
    rw [hsame, hstore] at hx
    rw [Graph.entry, hsame, htable]
    exact stored_old hi hx
  have hat : ∀ x, ((r.s.tables ht).store key r.rval).items[done.length]?.map
      Prod.snd = some x → x = r.rval := by
    intro x hx
    rw [hsame, hstore] at hx
    exact stored_at hx
  have hne : ∀ b ∈ opens, b ≠ rval := by
    rintro b hb rfl
    obtain ⟨_, t, hvalue⟩ := hbuilt.opened b hb
    rw [hfresh.null] at hvalue
    cases hvalue
  have hopen' : Building base r.s pr' opens oopens ht :=
    hopen.mono (fun b hb => hreads.frame.value b (hbuilt.opened b hb).1 (hne b hb)) hreads.le
  constructor
  · refine hreads.built.setTable hopen' hold' hat (hreads.built.rangeZ _ hreads.pair).2 ?_
    intro t i ht' _ hheld _
    rcases hreads.rval with heq | hshared
    · rw [heq] at hheld ⊢
      by_cases hlt : t < s.next
      · rw [Graph.entry, hreads.frame.tables t hlt] at hheld
        exact absurd hheld (hfresh.unheld t i ht')
      · rcases hreads.frame.held t i rval (Nat.le_of_not_lt hlt) hheld
          hfresh.range.1 with hge | hshared
        · exact absurd hfresh.range.2 (Nat.not_lt_of_le hge)
        · exact hshared
    · exact hshared
  · refine (hframe.trans hreads.frame hnew).setTable hold hold' hat ?_
    rcases hreads.rval with heq | hshared
    · exact .inl (heq ▸ hnew)
    · exact .inr hshared

/-- The loop over a table.  The table that is built holds the elements that
were read, and behind them the defaults that were not reached. -/
theorem serializeElements_reads {call : Nat → SerState → Option SerState}
    {fuel : Nat} {s₀ : UState} (hgrows : CallGrows nodes call)
    (hcall : CallReads g base nodes mem max origin call
      (phpVarUnserialize classes mem max (fuel + 1))) {items done' : List (HashKey × Nat)}
    (hrun : serializeElements g call false items st = some st')
    (hwithin : Within mem max origin st') (hkeys : ∀ x ∈ items, KeyFor objprops x.1)
    (hnodes : ∀ x ∈ items, x.2 ∈ nodes) (hnodup : ((done ++ items).map Prod.fst).Nodup)
    (hp : s.p = origin + st.buf.length) (hnumbered : Numbered g st s pr)
    (hbuilt : Built g base s pr opens oopens) (hopen : Building base s pr opens oopens ht)
    (hframe : Frame base rval s₀ s) (hnew : s₀.next ≤ ht) (hdone : SameItems pr done done')
    (htable : (s.tables ht).items = done' ++ rest)
    (hrest : ∃ more, items.map Prod.fst = rest.map Prod.fst ++ more) :
    ∃ s' pr', processNestedData mem (phpVarUnserialize classes mem max
        (fuel + 1)) ht objprops items.length s = some (true, s') ∧
      s'.p = origin + st'.buf.length ∧ Numbered g st' s' pr' ∧
      Built g base s' pr' opens oopens ∧ pr.Le pr' ∧ Frame base rval s₀ s' ∧
      (∀ b ∈ opens, (s'.zvals b).value = (s.zvals b).value) ∧
      (∀ c, c < s.next → s'.objects c = s.objects c) ∧
      SameItems pr' (done ++ items) (s'.tables ht).items := by
  induction items generalizing st s pr done done' rest with
  | nil =>
    cases hrun
    obtain ⟨more, hmore⟩ := hrest
    have hnil : rest = [] := by
      cases rest with
      | nil => rfl
      | cons x l => simp at hmore
    refine ⟨s, pr, rfl, hp, hnumbered, hbuilt, Pairing.Le.refl pr, hframe,
      fun _ _ => rfl, fun _ _ => rfl, ?_⟩
    rw [htable, hnil, append_nil, append_nil]
    exact hdone
  | cons item items ih =>
    obtain ⟨st₁, helement, hrun⟩ := Option.bind_eq_some_iff.mp hrun
    have hmem : item ∈ item :: items := mem_cons_self
    have htail : ∀ {x}, x ∈ items → x ∈ item :: items :=
      fun hx => mem_cons_of_mem item hx
    obtain ⟨new, hgrows₁, _⟩ := serializeElements_grows hgrows (fun x hx => hnodes x (htail hx)) hrun
    have hwithin₁ := hwithin.of_grows hgrows₁
    obtain ⟨new₁, hgrows₂, _⟩ := serializeElement_grows hgrows (hnodes item hmem) helement
    have hwithin₂ := hwithin₁.of_grows hgrows₂
    rw [serializeKey_eq] at helement hwithin₂
    have hrange := hopen.range hbuilt
    have hbase : base ≤ s.next := by omega
    -- The key is read into a zval of its own.
    obtain ⟨hholds, hmax⟩ := hwithin₂.text
    rw [← hp] at hholds hmax
    have hlong : 0 < (keyText item.1).length := keyText_pos item.1
    obtain ⟨r, v, hkey, hok, hrval, hvkey, harray, hrp, hzvals, htables,
      hobjects, hslots, hnext⟩ := key_read classes fuel (hkeys item hmem) hholds hmax (by omega)
    have hscratch : Scratch s r.s.allocZval v := by
      refine ⟨?_, htables, hobjects, hslots, ?_⟩
      · simp only [UState.allocZval, hzvals, hnext]
      · simp only [UState.allocZval, hnext]
    have hbuilt₁ := hscratch.built harray hbase hbuilt
    have hfresh := hscratch.fresh hbase hbuilt
    have hopens : ∀ b ∈ opens, (r.s.allocZval.zvals b).value = (s.zvals b).value := fun b hb => by
      rw [hscratch.zvals_of_lt (hbuilt.opened b hb).1]
    have hopen₁ := hopen.mono hopens (Pairing.Le.refl pr)
    have hframe₁ := hframe.trans (hscratch.frame hbuilt s.next) hframe.next
    -- The value.
    obtain ⟨d, pr₁, hdata, hreads⟩ := serializeElement_reads hcall
      (hnodes item hmem) helement hwithin₁ _ _ _ _ _
      (show r.s.allocZval.p = _ by
        change r.s.p = _
        simp only [SerState.append, length_append]
        omega)
      ((hscratch.numbered hbuilt hnumbered).congr rfl (fun _ _ => rfl) rfl rfl) hbuilt₁ hfresh
    obtain ⟨s₁, hstep, hgraph, hs₁p, hs₁slots, hs₁next⟩ :=
      processNestedData_step ht items.length hkey hok
        (by rw [hrval, hzvals, update_self]; exact hvkey)
        (hnext ▸ hdata) hreads.ok hreads.last
    have hnodup₁ := hnodup
    rw [map_append, map_cons, nodup_append, nodup_cons] at hnodup₁
    obtain ⟨_, ⟨hitem, _⟩, hdisjoint⟩ := hnodup₁
    have hdone₁ : item.1 ∉ done'.map Prod.fst := by
      rw [← hdone.keys]
      intro hmem'
      exact hdisjoint item.1 hmem' item.1 mem_cons_self rfl
    obtain ⟨more, hmore⟩ := hrest
    have hrest₁ : rest = [] ∨ ∃ d more, rest = (item.1, d) :: more ∧
        item.1 ∉ more.map Prod.fst := by
      cases rest with
      | nil => exact .inl rfl
      | cons first rest =>
        obtain ⟨hfirst, hmore⟩ := List.cons.inj hmore
        refine .inr ⟨first.2, rest, by rw [hfirst], ?_⟩
        intro hmem'
        exact hitem (hmore ▸ mem_append_left more hmem')
    have hrest₂ : ∃ more, items.map Prod.fst = rest.tail.map Prod.fst ++ more := by
      cases rest with
      | nil => exact ⟨_, rfl⟩
      | cons first rest => exact ⟨more, (List.cons.inj hmore).2⟩
    have hstore := store_items (b := d.rval) htable hdone₁ hrest₁
    have htable₁ : (r.s.allocZval.tables ht).items = done' ++ rest := by
      rw [hscratch.tables, htable]
    obtain ⟨hbuilt₂, hframe₂⟩ := store_reads hreads hfresh hopen₁ hbuilt₁
      hframe₁ hnew (Nat.le_succ_of_le hframe.next) htable₁
      (by rw [hscratch.tables]; exact hstore)
    -- The rest of the table.
    have hitems : (s₁.tables ht).items = (done' ++ [(item.1, d.rval)]) ++ rest.tail := by
      rw [hgraph]
      simp only [UState.setTable, update_self]
      rw [hreads.frame.tables ht (by rw [hscratch.next]; omega),
        hscratch.tables, hstore, append_assoc]
      rfl
    have hvalues : ∀ b ∈ opens, (s₁.zvals b).value = (s.zvals b).value := by
      intro b hb
      have hlt := (hbuilt.opened b hb).1
      rw [hgraph, ← hopens b hb]
      exact hreads.frame.value b (by rw [hscratch.next]; omega) (by omega)
    obtain ⟨s₂, pr₂, hrun₂, hp₂, hnumbered₂, hbuilt₃, hle₂, hframe₃,
      hvalues₂, hobjects₂, hsame⟩ := ih hrun
        (fun x hx => hkeys x (htail hx)) (fun x hx => hnodes x (htail hx))
        (show ((done ++ [item] ++ items).map Prod.fst).Nodup by
          rwa [append_assoc])
        (hs₁p.trans hreads.p)
        (hreads.numbered.congr hs₁slots (fun _ _ => by rw [hgraph]; rfl) rfl rfl)
        (hbuilt₂.congr hgraph hs₁next) (hopen.mono hvalues hreads.le)
        (hframe₂.congr hgraph hs₁next) (hdone.snoc hreads.le hreads.pair)
        hitems hrest₂
    refine ⟨s₂, pr₂, hstep.trans hrun₂, hp₂, hnumbered₂, hbuilt₃,
      hreads.le.trans hle₂, hframe₃, ?_, ?_, ?_⟩
    · intro b hb
      rw [hvalues₂ b hb, hvalues b hb]
    · intro c hc
      have hle := hreads.frame.next
      rw [hscratch.next] at hle
      rw [hobjects₂ c (by rw [hs₁next]; omega), hgraph]
      change d.s.objects c = _
      rw [hreads.frame.objects c (by rw [hscratch.next]; omega), hscratch.objects]
    · rwa [append_assoc] at hsame

end Elements

end PhpEngine

/-
The unserializer reads what the serializer wrote and builds the same graph.
-/
import PhpEngine.NestedReads

namespace PhpEngine

open List Function Option

variable {k b t : Nat} {no : Int} {text : List UInt8} {call : Nat → SerState → Option SerState}

section Calls

variable {g : Graph} {handlers : SerializeUser} {classes : UserCode}
  {base : Nat} {nodes : Finset Nat} {mem : Nat → UInt8}
  {max origin fuel z rval : Nat} {st st' : SerState} {s : UState}
  {pr : Pairing} {opens oopens : List Nat}

theorem began_ref (h : mem s.p = byte 'R') : s.began mem rval true = s.note (.called s.p true) := by
  rw [UState.began, if_neg (by simp [h])]

theorem began_value (h : mem s.p ≠ byte 'R') :
    s.began mem rval true = (s.note (.called s.p true)).pushSlot rval := by
  rw [UState.began, if_pos ⟨rfl, h⟩]

/-- A text that was appended: the cursor behind it, and its last byte. -/
theorem Within.behind {body : List UInt8} {c : UInt8}
    (h : Within mem max origin (st.append (body ++ [c]))) (hp : s.p = origin + st.buf.length) :
    s.p < max ∧ s.p + (body ++ [c]).length = origin + (st.append (body ++ [c])).buf.length ∧
      mem (s.p + (body ++ [c]).length - 1) = c := by
  obtain ⟨hholds, hmax⟩ := h.text
  rw [← hp, holdsAt_append] at hholds
  simp only [SerState.append, length_append, length_singleton] at hmax ⊢
  refine ⟨by omega, by omega, ?_⟩
  exact hholds.2.1

theorem token_reads {r : Ret} {pr' : Pairing} (hmax : s.p < max)
    (htoken : unserializeToken classes mem max
      (phpVarUnserialize classes mem max fuel) s.p rval true (s.began mem rval true) = some r)
    (h : Reads g base origin mem st' s pr opens oopens z rval r pr') :
    ∃ r pr', phpVarUnserialize classes mem max (fuel + 1) rval true s = some r ∧
      Reads g base origin mem st' s pr opens oopens z rval r pr' :=
  ⟨_, pr', phpVarUnserialize_token hmax htoken h.ok, h.ok, h.p, h.last,
    h.numbered.congr rfl (fun _ _ => rfl) rfl rfl, h.built.congr rfl rfl,
    h.le, h.pair, h.frame.congr rfl rfl, h.rval⟩

theorem unserializeRef_slot {isRef : Bool} {start cursor : Nat}
    (hparse : parseIv mem max (start + 2) = (k : Int) + 1)
    (hchunked : Chunked s.slots) (hslot : s.slots.flatten[k]? = some b)
    (hne : isRef = true ∨ rval ≠ b) : unserializeRef mem max isRef start cursor rval true s =
      ⟨true, b, { s with p := cursor }.setZval b { s.zvals b with isRef := isRef }⟩ := by
  have hid : parseIv mem max (start + 2) - 1 = k := by omega
  have haccess : varAccess s.slots (k : Int) = some b := by
    rw [varAccess_eq hchunked, hslot]
  simp only [unserializeRef, hid, Bool.not_true, Bool.false_eq_true, if_false]
  rw [if_neg (by omega), haccess]
  dsimp only
  rw [if_neg]
  rintro ⟨hcopy, heq⟩
  rcases hne with rfl | hne
  · simp at hcopy
  · exact hne heq

theorem slot_isLong (hnumbered : Numbered g st s pr)
    (hcount : st.count < 2 ^ 31) (hslot : s.slots.flatten[k]? = some b) :
    IsLong ((k : Int) + 1) := by
  have hlt := (List.getElem?_eq_some_iff.mp hslot).1
  rw [hnumbered.count] at hlt
  rw [IsLong]
  omega

theorem refText_snoc (n : Int) : refText n = (bytesOf "R:" ++ printLong n) ++ [byte ';'] := by
  rfl

theorem copyText_snoc (n : Int) : copyText n = (bytesOf "r:" ++ printLong n) ++ [byte ';'] := by
  rfl

theorem met_ref_reads (href : (g.zvals z).isRef = true) (hseen : st.varHash (.zval z) = some no)
    (hwithin : Within mem max origin (st.append (refText no))) :
    ReadsBack g base origin mem st (st.append (refText no)) z
      (phpVarUnserialize classes mem max (fuel + 1)) := by
  intro s pr opens oopens rval hp hnumbered hbuilt hfresh
  obtain ⟨k, b, rfl, hslot, hpair⟩ := hnumbered.hashZval z no hseen
  obtain ⟨hholds, hmax⟩ := hwithin.text
  rw [← hp] at hholds hmax
  have hlong := slot_isLong hnumbered hwithin.count hslot
  rw [refText_snoc] at hwithin
  obtain ⟨hlt, hbehind, hlast⟩ := hwithin.behind hp
  have hbegan : s.began mem rval true = s.note (.called s.p true) :=
    began_ref hholds.1
  have hvalue : ∀ x, ((s.setZval b { s.zvals b with isRef := true }).zvals
      x).value = (s.zvals x).value := by
    intro x
    by_cases hx : x = b <;> simp [UState.setZval, hx]
  refine token_reads (r := ⟨true, b, { s.note (.called s.p true) with
      p := s.p + (refText ((k : Int) + 1)).length }.setZval b
        { s.zvals b with isRef := true }⟩) hlt ?_
    ⟨rfl, hbehind, .inl hlast, ?_, (hbuilt.mark hpair href).congr rfl rfl,
      Pairing.Le.refl pr, hpair, ?_, .inr (.inl ?_)⟩
  · have hparse := (lex_number hlong (c := 'R') rfl hholds hmax).2.2
    rw [(token_ref hlong hholds hmax).2, hbegan,
      unserializeRef_slot (s := s.note _) hparse hnumbered.chunked hslot (.inl rfl)]
    rfl
  · exact hnumbered.congr rfl (fun p _ => hvalue p.2) rfl rfl
  · refine ⟨le_rfl, fun x _ _ => hvalue x, ?_, fun _ _ => rfl, fun _ _ => rfl, ?_⟩
    · intro x _ _ hx
      by_cases hne : x = b <;> simp [UState.setZval, UState.note, hne, hx]
    · exact fun t i x ht hheld => absurd hheld (hbuilt.entry_new ht)
  · simp [UState.setZval]

theorem met_object_reads {h : Nat} (href : (g.zvals z).isRef = false)
    (hvalue : (g.zvals z).value = .object h)
    (hseen : st.varHash (.object h) = some no) (hhash : st'.varHash = st.varHash)
    (hcount : st'.count = st.count + 1) (hbuf : st'.buf = st.buf)
    (hwithin : Within mem max origin (st'.append (copyText no))) :
    ReadsBack g base origin mem st (st'.append (copyText no)) z
      (phpVarUnserialize classes mem max (fuel + 1)) := by
  intro s pr opens oopens rval hp hnumbered hbuilt hfresh
  obtain ⟨k, a, b, c, rfl, hslot, hpair, hb, hos⟩ :=
    hnumbered.hashObject h no hseen
  rw [← hbuf] at hp
  obtain ⟨hholds, hmax⟩ := hwithin.text
  rw [← hp] at hholds hmax
  have hlong := slot_isLong hnumbered (lt_trans (by rw [hcount]; exact Nat.lt_succ_self _)
      (show st'.count < _ from hwithin.count)) hslot
  rw [copyText_snoc] at hwithin
  obtain ⟨hlt, hbehind, hlast⟩ := hwithin.behind hp
  have hbegan : s.began mem rval true = (s.note (.called s.p true)).pushSlot rval :=
    began_value (by rw [hholds.1]; decide)
  have hne : rval ≠ b := fun heq => hfresh.unpaired (a, b) hpair heq.symm
  obtain ⟨hchunked, hflat⟩ := varPush_chunked hnumbered.chunked rval
  have hslot' : (varPush s.slots rval).flatten[k]? = some b := by
    rw [hflat, getElem?_append_left (List.getElem?_eq_some_iff.mp hslot).1]
    exact hslot
  -- The zval is no reference, so that nothing is changed.
  have hzvals : update s.zvals b { s.zvals b with isRef := false } = s.zvals := by
    have hisRef := hbuilt.object_not_isRef hpair hb
    rw [← hisRef]
    exact update_eq_self b s.zvals
  refine token_reads (r := ⟨true, b, { s.note (.called s.p true) with
      p := s.p + (copyText ((k : Int) + 1)).length
      slots := varPush s.slots rval }⟩) hlt ?_
    ⟨rfl, hbehind, .inl hlast, ?_, (hbuilt.addPair hpair hb hvalue hos href).congr rfl rfl,
      ⟨fun _ hp => mem_cons_of_mem _ hp, fun _ hq => hq⟩,
      mem_cons_self, ?_, .inr (.inr ⟨c, hb⟩)⟩
  · have hparse := (lex_number hlong (c := 'r') rfl hholds hmax).2.2
    rw [(token_copy hlong hholds hmax).2, hbegan, unserializeRef_slot
      (s := (s.note (.called s.p true)).pushSlot rval) hparse hchunked hslot'
      (.inr hne)]
    simp only [UState.setZval, UState.pushSlot, UState.note, hzvals]
  · exact hnumbered.copy href rfl rfl hhash hcount
  · refine Frame.of_new le_rfl (fun _ _ _ => rfl) (fun _ _ => rfl) (fun _ _ => rfl) ?_
    exact fun t i x ht hheld => absurd hheld (hbuilt.entry_new ht)

theorem met_reads (hplain : PlainValue g handlers classes base nodes (g.zvals z).isRef
      (g.zvals z).value) (hmet : metBefore g z st = some no) (hwithin : Within mem max origin
      ((phpAddVarHash g z st).2.append (backText g z no))) :
    ReadsBack g base origin mem st ((phpAddVarHash g z st).2.append (backText g z no)) z
      (phpVarUnserialize classes mem max (fuel + 1)) := by
  rw [metBefore] at hmet
  split at hmet
  next no' hseen href =>
    cases hmet
    have hid : varId g z = .zval z := by
      rw [varId]
      split
      next k hk =>
        rw [hk] at hplain
        rw [hplain.1] at href
        cases href
      next => rfl
    have hstate : (phpAddVarHash g z st).2 = st := by
      simp [phpAddVarHash, hseen, href]
    rw [hstate, backText, if_pos href] at hwithin ⊢
    exact met_ref_reads href (hid ▸ hseen) hwithin
  next no' k hseen href hkind =>
    cases hmet
    have hid : varId g z = .object k := by rw [varId, hkind]
    have hstate : (phpAddVarHash g z st).2 = { st with count := st.count + 1 } := by
      simp [phpAddVarHash, hseen, href]
    rw [hstate, backText, if_neg (by simp [href])] at hwithin ⊢
    rw [hid] at hseen
    exact met_object_reads href hkind hseen rfl rfl rfl hwithin
  next => cases hmet

/-- The text of a value without elements. -/
def scalarText : UValue → Option (List UInt8)
  | .null => some (bytesOf "N;")
  | .bool b => some (boolText b)
  | .long n => some (longText n)
  | .double text => some (doubleText text)
  | .string str => some (stringText str)
  | _ => none

theorem scalarText_snoc {v : UValue}
    (h : scalarText v = some text) : ∃ body, text = body ++ [byte ';'] := by
  cases v with
  | null =>
    cases h
    exact ⟨[byte 'N'], rfl⟩
  | bool b | long n =>
    cases h
    exact ⟨_, (append_assoc _ _ _).symm⟩
  | string str =>
    cases h
    refine ⟨bytesOf "s:" ++ (printLong (intOf str.length) ++
      (bytesOf ":\"" ++ (str ++ [byte '"']))), ?_⟩
    simp only [stringText, quotedText, append_assoc]
    rfl
  | double text =>
    cases h
    exact ⟨_, (append_assoc _ _ _).symm⟩
  | array t | object k => cases h

theorem token_scalar {v : UValue} {start : Nat}
    {isRef : Bool} {call : Nat → Bool → UState → Option Ret}
    (hplain : PlainValue g handlers classes base nodes isRef v)
    (htext : scalarText v = some text) (hholds : HoldsAt mem start text)
    (hmax : start + text.length ≤ max) : mem start ≠ byte 'R' ∧
      unserializeToken classes mem max call start rval true s =
        some (unserializeScalar v (start + text.length) rval s) := by
  cases v with
  | null =>
    cases htext
    exact ⟨by rw [hholds.1]; decide, token_null hholds⟩
  | bool b =>
    cases htext
    have hlength : (boolText b).length = 4 := by
      cases b <;> decide
    rw [hlength] at hmax ⊢
    exact ⟨by rw [hholds.1]; decide, token_bool hholds hmax⟩
  | long n =>
    cases htext
    exact ⟨by rw [hholds.1]; decide, token_long hplain hholds hmax⟩
  | string str =>
    cases htext
    exact ⟨by rw [hholds.1]; decide, token_string hplain hholds hmax⟩
  | double d =>
    cases htext
    exact ⟨by rw [hholds.1]; decide, token_double hplain hholds hmax⟩
  | array t | object k => cases htext

/-- A value without elements that was not met as a reference. -/
theorem scalar_reads
    (hplain : PlainValue g handlers classes base nodes (g.zvals z).isRef (g.zvals z).value)
    (hmet : metBefore g z st = none) (htext : scalarText (g.zvals z).value = some text)
    (hwithin : Within mem max origin ((phpAddVarHash g z st).2.append text)) :
    ReadsBack g base origin mem st ((phpAddVarHash g z st).2.append text) z
      (phpVarUnserialize classes mem max (fuel + 1)) := by
  intro s pr opens oopens rval hp hnumbered hbuilt hfresh
  have hcount : st.count < 2 ^ 31 := lt_of_le_of_lt (phpAddVarHash_grows g z st).count hwithin.count
  have hbuf : (phpAddVarHash g z st).2.buf = st.buf := by
    simpa using (phpAddVarHash_grows g z st).buf
  obtain ⟨hholds, hmax⟩ := hwithin.text
  rw [hbuf, ← hp] at hholds hmax
  obtain ⟨body, rfl⟩ := scalarText_snoc htext
  obtain ⟨hlt, hbehind, hlast⟩ := hwithin.behind (hbuf ▸ hp)
  have hobject : ¬ IsObject (g.zvals z).value := by
    rintro ⟨k, hk⟩
    rw [hk] at htext
    cases htext
  have harray : ∀ t, (g.zvals z).value ≠ .array t := by
    intro t ht
    rw [ht] at htext
    cases htext
  have hother : ∀ {b}, b ≠ rval → update s.zvals rval ⟨(g.zvals z).value, false⟩ b = s.zvals b :=
    fun hne => update_of_ne hne _ _
  have hsame : SameValue g s.toGraph ⟨(z, rval) :: pr.zs, [] ++ pr.os⟩
      (g.zvals z).value (g.zvals z).value := by
    cases hkind : (g.zvals z).value with
    | array t => exact absurd hkind (harray t)
    | object k => exact absurd ⟨k, hkind⟩ hobject
    | null | bool b | long n | double d | string str => rfl
  obtain ⟨htag, htoken⟩ : mem s.p ≠ byte 'R' ∧
      unserializeToken classes mem max (phpVarUnserialize classes mem max
        fuel) s.p rval true (s.began mem rval true) = _ :=
    token_scalar hplain htext hholds hmax
  refine token_reads hlt htoken ⟨rfl, hbehind, .inl hlast, ?_, ?_,
    (show pr.Le ⟨(z, rval) :: pr.zs, [] ++ pr.os⟩ from
      ⟨fun _ hp => mem_cons_of_mem _ hp, fun _ hq => hq⟩),
    mem_cons_self, ?_, .inl rfl⟩
  · rw [began_value htag]
    refine Numbered.congr (hnumbered.enter [] hmet hcount
      (fun h => absurd h hobject) rfl ?_ ?_ (by simp)) rfl (fun _ _ => rfl)
      rfl rfl
    · exact fun p hp =>
        congrArg UZval.value (hother (hfresh.unpaired p hp))
    · exact fun k hk => absurd ⟨k, hk⟩ hobject
  · rw [began_value htag]
    exact hbuilt.enter [] [] hfresh (fun h => absurd h hobject) rfl rfl rfl
      rfl (by simp) (fun _ => hsame) (fun t ht => absurd ht (harray t))
      (by simp)
  · rw [began_value htag]
    refine Frame.of_new le_rfl (fun b _ hne => hother hne) (fun _ _ => rfl) (fun _ _ => rfl) ?_
    exact fun t i x ht hheld => absurd hheld (hbuilt.entry_new ht)

/-- A new id for a table: its entries are older than this run. -/
theorem Built.allocTable (hbuilt : Built g base s pr opens oopens)
    (hbase : base ≤ s.next) (m : OrderedMap Nat) (o : UObject) (hold : ∀ x ∈ m.items, x.2 < base) :
    Built g base { s with
      tables := update s.tables s.next m
      objects := update s.objects s.next o
      next := s.next + 1 } pr opens oopens := by
  refine hbuilt.alloc hbase rfl (fun _ _ => rfl) ?_ ?_ ?_ ?_
  · rw [(hbuilt.clean s.next le_rfl).1]
    simp
  · intro t ht
    simp [ht]
  · intro i b hheld
    simp only [Graph.entry, update_self, map_eq_some_iff] at hheld
    obtain ⟨x, hx, rfl⟩ := hheld
    exact hold x (mem_of_getElem? hx)
  · intro c hc
    simp [ne_of_lt hc]

theorem Fresh.allocTable (hfresh : Fresh base s pr rval) (m : OrderedMap Nat)
    (o : UObject) (hold : ∀ x ∈ m.items, x.2 < base) : Fresh base { s with
      tables := update s.tables s.next m
      objects := update s.objects s.next o
      next := s.next + 1 } pr rval := by
  have hrange := hfresh.range
  refine ⟨⟨hrange.1, Nat.lt_succ_of_lt hrange.2⟩, hfresh.null, hfresh.unpaired, ?_⟩
  intro t i ht hheld
  by_cases hne : t = s.next
  · subst hne
    simp only [Graph.entry, update_self, map_eq_some_iff] at hheld
    obtain ⟨x, hx, heq⟩ := hheld
    have hlt := hold x (mem_of_getElem? hx)
    omega
  · simp only [Graph.entry, update_of_ne hne] at hheld
    exact hfresh.unheld t i ht hheld

theorem Unused.allocTable (hbuilt : Built g base s pr opens oopens)
    (hbase : base ≤ s.next) (m : OrderedMap Nat) (o : UObject) : Unused base { s with
      tables := update s.tables s.next m
      objects := update s.objects s.next o
      next := s.next + 1 } pr s.next := by
  refine ⟨⟨hbase, Nat.lt_succ_self _⟩, ?_, ?_⟩
  · intro b hb hlt hvalue
    by_cases heq : b = s.next
    · rw [heq, (hbuilt.clean s.next le_rfl).1] at hvalue
      cases hvalue
    · have hb' : b < s.next := by
        simp only at hlt
        omega
      have ht := hbuilt.tableOf b s.next hb hb' hvalue
      omega
  · intro q hq
    have hrange := hbuilt.rangeO q hq
    omega

theorem Frame.allocTable {s' : UState} (m : OrderedMap Nat)
    (hbuilt : Built g base s pr opens oopens)
    (hold : ∀ x ∈ m.items, x.2 < base) (hnext : s'.next = s.next + 1)
    (hzvals : ∀ b, b ≠ rval → s'.zvals b = s.zvals b)
    (htables : s'.tables = update s.tables s.next m)
    (hobjects : ∀ c, c < s.next → s'.objects c = s.objects c) : Frame base rval s s' := by
  refine Frame.of_new (by omega) (fun b _ hne => hzvals b hne) ?_ hobjects ?_
  · intro t ht
    rw [htables, update_of_ne (ne_of_lt ht)]
  · intro t i b ht hheld
    rw [Graph.entry, htables] at hheld
    by_cases hne : t = s.next
    · subst hne
      rw [update_self, map_eq_some_iff] at hheld
      obtain ⟨x, hx, rfl⟩ := hheld
      exact hold x (mem_of_getElem? hx)
    · rw [update_of_ne hne, (hbuilt.clean t ht).2] at hheld
      simp [OrderedMap.empty] at hheld

theorem Built.closeArray {t' : Nat} (h : Built g base s pr
      (rval :: opens) oopens) (hpair : (z, rval) ∈ pr.zs) (hz : (g.zvals z).value = .array t)
    (hrval : (s.zvals rval).value = .array t')
    (hitems : SameItems pr (g.tables t).items (s.tables t').items) :
    Built g base s pr opens oopens := by
  refine { h with value := ?_, opened := ?_ }
  · intro p hp hclosed
    by_cases heq : p.2 = rval
    · rcases h.source p hp (z, rval) hpair heq with hsource | ⟨_, k, hk⟩
      · rw [heq, hsource, hz, hrval]
        exact hitems
      · rw [hz] at hk
        cases hk
    · exact h.value p hp (by simp [heq, hclosed])
  · exact fun b hb => h.opened b (mem_cons_of_mem _ hb)

theorem Built.closeObject {c : Nat} (h : Built g base s pr opens
      (c :: oopens)) (hpair : (k, c) ∈ pr.os) (hsame : SameObject g s.toGraph pr k c) :
    Built g base s pr opens oopens := by
  refine { h with object := ?_ }
  intro q hq hclosed
  by_cases heq : q.2 = c
  · have hk : q.1 = k := (h.identity q hq (k, c) hpair).mpr heq
    rw [hk, heq]
    exact hsame
  · exact h.object q hq (by simp [heq, hclosed])

/-- The elements of a table behind its header, and the closing brace. -/
theorem serializeTable_reads {ht : Nat} {objprops : Bool} {s₀ : UState}
    {rest : List (HashKey × Nat)} (hgrows : CallGrows nodes call)
    (hcall : CallReads g base nodes mem max origin call
      (phpVarUnserialize classes mem max (fuel + 1)))
    (hitems : PlainItems nodes (KeyFor objprops) (g.tables t).items)
    (hrun : serializeTable g call false t st = some st') (hwithin : Within mem max origin st')
    (hp : s.p = origin + (st.append (printLong (g.tables t).items.length ++
      bytesOf ":\x7b")).buf.length) (hnumbered : Numbered g st s pr)
    (hbuilt : Built g base s pr opens oopens) (hopen : Building base s pr opens oopens ht)
    (hframe : Frame base rval s₀ s) (hnew : s₀.next ≤ ht) (htable : (s.tables ht).items = rest)
    (hrest : ∃ more, (g.tables t).items.map Prod.fst = rest.map Prod.fst ++ more) :
    ∃ s' pr', processNestedData mem (phpVarUnserialize classes mem max
        (fuel + 1)) ht objprops (g.tables t).items.length s = some (true, s') ∧
      mem s'.p = byte '\x7d' ∧ s'.p + 1 = origin + st'.buf.length ∧
      Numbered g st' s' pr' ∧ Built g base s' pr' opens oopens ∧ pr.Le pr' ∧ Frame base rval s₀ s' ∧
      (∀ b ∈ opens, (s'.zvals b).value = (s.zvals b).value) ∧
      (∀ c, c < s.next → s'.objects c = s.objects c) ∧
      SameItems pr' (g.tables t).items (s'.tables ht).items := by
  rw [serializeTable_eq call t hitems.length] at hrun
  obtain ⟨st₁, hloop, rfl⟩ := map_eq_some_iff.mp hrun
  obtain ⟨s₁, pr₁, hnested, hp₁, hnumbered₁, hbuilt₁, hle, hframe₁, hvalues,
    hobjects, hsame⟩ := serializeElements_reads hgrows hcall hloop
      (hwithin.of_grows (Grows.append st₁ _)) hitems.key hitems.node
      (show (([] ++ (g.tables t).items).map Prod.fst).Nodup from
        hitems.nodup) hp (hnumbered.congr rfl (fun _ _ => rfl) rfl rfl) hbuilt
      hopen hframe hnew .nil htable hrest
  obtain ⟨hholds, _⟩ := hwithin.text
  refine ⟨s₁, pr₁, hnested, ?_, ?_,
    hnumbered₁.congr rfl (fun _ _ => rfl) rfl rfl, hbuilt₁, hle, hframe₁,
    hvalues, hobjects, hsame⟩
  · rw [hp₁]
    exact hholds.1
  · rw [hp₁]
    simp only [SerState.append, length_append]
    rfl

theorem finish_eq {s : UState} (h : mem s.p = byte '\x7d') : finishNestedData mem s =
      (true, { s.note (.looked s.p) with p := s.p + 1 }) := by
  rw [finishNestedData, decide_eq_true h]

theorem serializeTable_header {isKey : HashKey → Prop} (hgrows : CallGrows nodes call)
    (hitems : PlainItems nodes isKey (g.tables t).items)
    (hrun : serializeTable g call false t ((phpAddVarHash g z st).2.append text) = some st')
    (hwithin : Within mem max origin st') (hp : s.p = origin + st.buf.length) :
    HoldsAt mem s.p (text ++ (printLong (g.tables t).items.length ++ bytesOf ":\x7b")) ∧
      s.p + (text ++ (printLong (g.tables t).items.length ++ bytesOf ":\x7b")).length ≤ max ∧
      s.p + (text ++ (printLong (g.tables t).items.length ++
        bytesOf ":\x7b")).length = origin + (((phpAddVarHash g z st).2.append text).append
          (printLong (g.tables t).items.length ++ bytesOf ":\x7b")).buf.length ∧
      st.count < 2 ^ 31 ∧ s.p < max := by
  have hadded := phpAddVarHash_grows g z st
  have hbuf : (phpAddVarHash g z st).2.buf = st.buf := by simpa using hadded.buf
  rw [← hbuf] at hp
  rw [serializeTable_eq call t hitems.length] at hrun
  obtain ⟨st₁, hloop, rfl⟩ := map_eq_some_iff.mp hrun
  obtain ⟨new, hgrows₁, _⟩ := serializeElements_grows hgrows hitems.node hloop
  have hwithin₁ := (hwithin.of_grows (Grows.append st₁ _)).of_grows hgrows₁
  rw [append_append] at hwithin₁ ⊢
  obtain ⟨hholds, hmax⟩ := hwithin₁.text
  rw [← hp] at hholds hmax
  refine ⟨hholds, hmax, ?_, lt_of_le_of_lt hadded.count hwithin₁.count, ?_⟩
  · simp only [hp, SerState.append, length_append]
    omega
  · have hbrace : (bytesOf ":\x7b").length = 2 := rfl
    simp only [length_append, hbrace] at hmax
    omega

section

variable (hgrows : CallGrows nodes call)
  (hcall : CallReads g base nodes mem max origin call
    (phpVarUnserialize classes mem max (fuel + 1)))
  (hmet : metBefore g z st = none)
include hgrows hcall hmet

theorem array_reads (hvalue : (g.zvals z).value = .array t)
    (hitems : PlainItems nodes ArrayKey (g.tables t).items) (hrun : serializeTable g call false t
      ((phpAddVarHash g z st).2.append (bytesOf "a:")) = some st')
    (hwithin : Within mem max origin st') :
    ReadsBack g base origin mem st st' z (phpVarUnserialize classes mem max (fuel + 2)) := by
  intro s pr opens oopens rval hp hnumbered hbuilt hfresh
  obtain ⟨hholds, hmax, hcursor, hcount, hlt⟩ := serializeTable_header hgrows hitems hrun hwithin hp
  have htag : mem s.p ≠ byte 'R' := by
    rw [hholds.1]
    decide
  have hbase : base ≤ s.next := by
    have hrange := hfresh.range
    omega
  have hplain : IsObject (g.zvals z).value → (g.zvals z).isRef = false := by
    rw [hvalue]
    rintro ⟨k, hk⟩
    cases hk
  have hempty : ∀ x ∈ (OrderedMap.empty : OrderedMap Nat).items,
      x.2 < base := by simp [OrderedMap.empty]
  have hother : ∀ {b}, b ≠ rval → update s.zvals rval ⟨.array s.next, false⟩ b = s.zvals b :=
    fun hne => update_of_ne hne _ _
  -- The state in which the elements are read.
  generalize hentered : ({ s.began mem rval true with
    p := s.p + (arrayText (g.tables t).items.length).length }.arrayInit rval) = s₁
  rw [began_value htag] at hentered
  have hbuilt₁ : Built g base s₁ ⟨(z, rval) :: pr.zs, pr.os⟩ (rval :: opens) oopens := by
    subst hentered
    refine (hbuilt.allocTable hbase OrderedMap.empty (s.objects s.next)
      hempty).enter [rval] [] (hfresh.allocTable _ _ hempty) hplain rfl rfl
      (update_eq_self s.next s.objects).symm rfl ?_ ?_ ?_ ?_
    · intro b hb
      exact ⟨mem_singleton.mp hb, _, rfl⟩
    · exact fun hclosed => absurd mem_cons_self hclosed
    · intro t' ht'
      cases ht'
      exact Unused.allocTable hbuilt hbase _ _
    · simp
  have hnumbered₁ : Numbered g (phpAddVarHash g z st).2 s₁ ⟨(z, rval) :: pr.zs, pr.os⟩ := by
    subst hentered
    refine hnumbered.enter [] hmet hcount hplain rfl ?_ ?_ (by simp)
    · exact fun p hp =>
        congrArg UZval.value (hother (hfresh.unpaired p hp))
    · intro k hk
      rw [hvalue] at hk
      cases hk
  have hframe₁ : Frame base rval s s₁ := by
    subst hentered
    exact Frame.allocTable OrderedMap.empty hbuilt hempty rfl
      (fun b hne => hother hne) rfl (fun _ _ => rfl)
  have hrval : (s₁.zvals rval).value = .array s.next := by
    subst hentered
    simp [UState.arrayInit, UState.pushSlot, UState.note]
  obtain ⟨s₂, pr₂, hnested, hbrace, hp₂, hnumbered₂, hbuilt₂, hle, hframe₂,
    hvalues, hobjects, hsame⟩ := serializeTable_reads hgrows hcall
      (show PlainItems nodes (KeyFor false) _ from hitems) hrun hwithin
        (show s₁.p = _ by subst hentered; exact hcursor)
      (hnumbered₁.congr rfl (fun _ _ => rfl) rfl rfl) hbuilt₁
      (.inl ⟨rval, mem_cons_self, hfresh.range.1, hrval⟩) hframe₁
      le_rfl
      (show (s₁.tables s.next).items = [] by
        subst hentered
        simp [UState.arrayInit, UState.pushSlot, UState.note, OrderedMap.empty])
      ⟨_, rfl⟩
  have hrval₂ : (s₂.zvals rval).value = .array s.next := by
    rw [hvalues rval mem_cons_self, hrval]
  refine token_reads (r := ⟨true, rval, { s₂.note (.looked s₂.p) with
      p := s₂.p + 1 }⟩) hlt ?_ ⟨rfl, hp₂, .inr hbrace,
    hnumbered₂.congr rfl (fun _ _ => rfl) rfl rfl,
    (hbuilt₂.closeArray (hle.1 _ mem_cons_self) hvalue hrval₂ hsame).congr rfl rfl,
    ⟨fun p hp => hle.1 p (mem_cons_of_mem _ hp), hle.2⟩,
    hle.1 _ mem_cons_self, hframe₂.congr rfl rfl, .inl rfl⟩
  rw [token_array hitems.length hholds hmax, began_value htag]
  rw [← hentered] at hnested
  refine (congrArg (Option.bind · _) hnested).trans ?_
  simp [finish_eq hbrace]

theorem object_reads {h : Nat} (href : (g.zvals z).isRef = false)
    (hvalue : (g.zvals z).value = .object h) (hclass : PlainClass classes base (g.objects h).ce)
    (hitems : PlainItems nodes PropertyKey (g.tables (g.objects h).properties).items)
    (hdefaults : ∃ rest, (g.tables (g.objects h).properties).items.map
      Prod.fst = defaultKeys (g.objects h).ce ++ rest)
    (hrun : serializeTable g call false (g.objects h).properties ((phpAddVarHash g z st).2.append
        (quotedText "O:" (g.objects h).ce.name "\":")) = some st')
    (hwithin : Within mem max origin st') :
    ReadsBack g base origin mem st st' z (phpVarUnserialize classes mem max (fuel + 2)) := by
  intro s pr opens oopens rval hp hnumbered hbuilt hfresh
  obtain ⟨hholds, hmax, hcursor, hcount, hlt⟩ := serializeTable_header hgrows hitems hrun hwithin hp
  have htag : mem s.p ≠ byte 'R' := by
    rw [hholds.1]
    decide
  have hbase : base ≤ s.next := by
    have hrange := hfresh.range
    omega
  have hnew : st.varHash (.object h) = none := by
    rw [metBefore, varId, hvalue, href] at hmet
    cases hseen : st.varHash (.object h) with
    | none => rfl
    | some no => simp [hseen] at hmet
  -- The declared properties come first, with values of the class.
  obtain ⟨more, hmore⟩ := hdefaults
  have hkeys : (defaultKeys (g.objects h).ce).Nodup := by
    have hnodup := hitems.nodup
    rw [hmore] at hnodup
    exact (nodup_append.mp hnodup).1
  have hproperties := defaultProperties_items hkeys
  have hold : ∀ x ∈ (UState.defaultProperties (g.objects h).ce).items, x.2 < base := by
    rw [hproperties]
    intro x hx
    obtain ⟨d, hd, rfl⟩ := List.mem_map.mp hx
    exact hclass.defaults d hd
  have hother : ∀ {b}, b ≠ rval → update (update s.zvals
      rval { s.zvals rval with isRef := false }) rval
      ⟨.object s.next, false⟩ b = s.zvals b := by
    intro b hne
    rw [update_of_ne hne, update_of_ne hne]
  generalize hentered : ({ (s.began mem rval true).setZval rval
      { (s.began mem rval true).zvals rval with isRef := false } with
    p := s.p + (objectText (g.objects h).ce.name
      (g.tables (g.objects h).properties).items.length).length }.objectInit
        rval (g.objects h).ce) = s₁
  rw [began_value htag] at hentered
  have hbuilt₁ : Built g base s₁ ⟨(z, rval) :: pr.zs, (h, s.next) :: pr.os⟩
      opens (s.next :: oopens) := by
    subst hentered
    refine (hbuilt.allocTable hbase (UState.defaultProperties
      (g.objects h).ce) ⟨(g.objects h).ce, s.next⟩ hold).enter [] [(h, s.next)]
      (hfresh.allocTable _ _ hold) (fun _ => href)
      (update_idem _ _ _) rfl rfl rfl (by simp) ?_ ?_ ?_
    · intro _
      rw [hvalue]
      exact mem_cons_self
    · intro t ht
      cases ht
    · intro q hq
      rw [mem_singleton] at hq
      subst hq
      refine ⟨rfl, hvalue, Unused.allocTable hbuilt hbase _ _, ?_, ?_⟩
      · simp
      · intro q' hq' heq
        have hsome := hnumbered.knownObject q' hq'
        rw [heq, hnew] at hsome
        cases hsome
  have hrval : (s₁.zvals rval).value = .object s.next := by
    subst hentered
    simp [UState.objectInit, UState.setZval, UState.pushSlot, UState.note]
  have hobject : s₁.objects s.next = ⟨(g.objects h).ce, s.next⟩ := by
    subst hentered
    simp [UState.objectInit, UState.setZval, UState.pushSlot, UState.note]
  have hnumbered₁ : Numbered g (phpAddVarHash g z st).2 s₁
      ⟨(z, rval) :: pr.zs, (h, s.next) :: pr.os⟩ := by
    subst hentered
    refine hnumbered.enter [(h, s.next)] hmet hcount (fun _ => href) rfl ?_ ?_ ?_
    · exact fun p hp =>
        congrArg UZval.value (hother (hfresh.unpaired p hp))
    · intro k hk
      rw [hvalue] at hk
      cases hk
      exact ⟨s.next, hrval, mem_cons_self⟩
    · intro q hq
      rw [mem_singleton.mp hq, hvalue]
  have hframe₁ : Frame base rval s s₁ := by
    subst hentered
    exact Frame.allocTable (UState.defaultProperties (g.objects h).ce) hbuilt
      hold rfl (fun b hne => hother hne) rfl
      (fun c hc => update_of_ne (ne_of_lt hc) _ _)
  obtain ⟨s₂, pr₂, hnested, hbrace, hp₂, hnumbered₂, hbuilt₂, hle, hframe₂,
    hvalues, hobjects, hsame⟩ := serializeTable_reads hgrows hcall
      (show PlainItems nodes (KeyFor true) _ from hitems) hrun hwithin
      (show s₁.p = _ by
        subst hentered
        rw [← hcursor]
        rfl)
      (hnumbered₁.congr rfl (fun _ _ => rfl) rfl rfl) hbuilt₁
      (.inr ⟨mem_cons_self, (h, s.next), mem_cons_self, rfl⟩)
      hframe₁ le_rfl
      (show (s₁.tables s.next).items = (UState.defaultProperties (g.objects h).ce).items by
        subst hentered
        simp [UState.objectInit, UState.setZval, UState.pushSlot, UState.note])
      ⟨more, by rw [hmore, hproperties, List.map_map]; rfl⟩
  have hpair : (h, s.next) ∈ pr₂.os := hle.2 _ mem_cons_self
  have hobject₂ : s₂.objects s.next = ⟨(g.objects h).ce, s.next⟩ := by
    rw [hobjects s.next (by subst hentered; exact Nat.lt_succ_self _), hobject]
  have hsameObject : SameObject g s₂.toGraph pr₂ h s.next := by
    rw [SameObject, hobject₂]
    exact ⟨rfl, hsame⟩
  refine token_reads (r := ⟨true, rval, { s₂.note (.looked s₂.p) with
      p := s₂.p + 1 }⟩) hlt ?_ ⟨rfl, hp₂, .inr hbrace,
    hnumbered₂.congr rfl (fun _ _ => rfl) rfl rfl,
    (hbuilt₂.closeObject hpair hsameObject).congr rfl rfl,
    ⟨fun p hp => hle.1 p (mem_cons_of_mem _ hp), fun q hq => hle.2 q (mem_cons_of_mem _ hq)⟩,
    hle.1 _ mem_cons_self, hframe₂.congr rfl rfl, .inl rfl⟩
  rw [token_object hclass.name.2 hclass.name.1 hclass.bytes hitems.length
    (hclass.found _) hclass.serialize hclass.abstract
    (by rw [objectText]; exact hholds) (by rw [objectText]; exact hmax),
    began_value htag]
  refine (congrArg (objectCommon2 classes mem _ _ _ _ _) hentered).trans ?_
  rw [objectCommon2, hrval]
  simp [hobject, hnested, hclass.wakeup, finish_eq hbrace]

end

theorem className_eq {name : List UInt8} : phpVarSerializeClassName name st =
      st.append (quotedText "O:" name "\":") := by
  simp only [phpVarSerializeClassName, SerState.appendLong, appendText_eq,
    append_append, quotedText, append_assoc]

/-- Every call of the serializer is read back, with a little more fuel. -/
theorem phpVarSerializeIntern_reads
    (hplain : PlainGraph g handlers classes base nodes) {fuel' : Nat} (hfuel : fuel < fuel') :
    CallReads g base nodes mem max origin (phpVarSerializeIntern g handlers fuel)
      (phpVarUnserialize classes mem max fuel') := by
  induction fuel generalizing fuel' with
  | zero =>
    intro z hz st st' hrun
    cases hrun
  | succ fuel ih =>
    obtain ⟨f, rfl⟩ : ∃ f, fuel' = f + 2 := ⟨fuel' - 2, by omega⟩
    have hcall := ih (show fuel < f + 1 by omega)
    have hgrows := phpVarSerializeIntern_grows hplain fuel
    intro z hz st st' hrun hwithin
    have hvalue := hplain z hz
    cases hmet : metBefore g z st with
    | some no =>
      rw [intern_met hmet] at hrun
      cases hrun
      exact met_reads hvalue hmet hwithin
    | none =>
      rw [intern_value hmet] at hrun
      cases hkind : (g.zvals z).value with
      | null | bool b | long n | double text | string str =>
        rw [hkind] at hrun
        cases hrun
        exact scalar_reads hvalue hmet (by rw [hkind]; rfl) hwithin
      | object h =>
        rw [hkind] at hrun hvalue
        obtain ⟨href, hhandles, hclass, hitems, hdefaults⟩ := hvalue
        simp only [hhandles, Bool.false_eq_true, if_false,
          classAttributes_plain hclass.complete, className_eq] at hrun
        exact object_reads hgrows hcall hmet href hkind hclass hitems hdefaults hrun hwithin
      | array t =>
        rw [hkind] at hrun hvalue
        exact array_reads hgrows hcall hmet hkind hvalue hrun hwithin

end Calls

/-! The round trip. -/

/-- The values that exist before the parse; ids from `next` on are not in
use. -/
def unserializeFrom (g : Graph) (next p : Nat) : UState where
  zvals z := if z < next then g.zvals z else ⟨.null, false⟩
  tables t := if t < next then g.tables t else OrderedMap.empty
  objects := g.objects
  p := p
  slots := []
  next := next
  trace := []

section Whole

variable {g before : Graph} {handlers : SerializeUser} {classes : UserCode}
  {base : Nat} {nodes : Finset Nat} {mem : Nat → UInt8} {max p root : Nat} {st : SerState}

theorem start_zvals {z : Nat} (h : base ≤ z) :
    (unserializeFrom before base p).allocZval.zvals z = ⟨.null, false⟩ := by
  by_cases heq : z = base
  · simp [UState.allocZval, unserializeFrom, heq]
  · simp [UState.allocZval, unserializeFrom, heq, Nat.not_lt_of_le h]

theorem start_tables (h : base ≤ t) : (unserializeFrom before base p).allocZval.tables t =
      OrderedMap.empty :=
  if_neg (Nat.not_lt_of_le h)

theorem empty_built : Built g base (unserializeFrom before base p) ⟨[], []⟩ [] [] := by
  have htables : ∀ {t}, base ≤ t → (unserializeFrom before base p).tables t = OrderedMap.empty :=
    fun ht => if_neg (Nat.not_lt_of_le ht)
  have hentry : ∀ {t i b}, base ≤ t → (unserializeFrom before base p).entry t i ≠ some b := by
    intro t i b ht
    rw [Graph.entry, htables ht]
    simp [OrderedMap.empty]
  refine ⟨by simp, by simp, by simp, by simp, by simp, by simp, ?_, by simp,
    by simp, ?_, ?_, by simp, by simp, ?_, ?_, ?_⟩
  · exact fun b hb hlt => absurd hlt (Nat.not_lt_of_le hb)
  · exact fun b t hb hlt => absurd hlt (Nat.not_lt_of_le hb)
  · exact fun b b' t hb hlt => absurd hlt (Nat.not_lt_of_le hb)
  · exact fun t i b ht hheld => absurd hheld (hentry ht)
  · exact fun t i t' i' b ht _ _ hheld => absurd hheld (hentry ht)
  · exact fun b hb => ⟨if_neg (Nat.not_lt_of_le hb), htables hb⟩

theorem empty_numbered : Numbered g serializeStart (unserializeFrom before base p) ⟨[], []⟩ := by
  refine ⟨trivial, rfl, ?_, ?_, by simp, by simp⟩
  · intro a no hno
    cases hno
  · intro h no hno
    cases hno

theorem start_built : Built g base (unserializeFrom before base p).allocZval ⟨[], []⟩ [] [] := by
  refine empty_built.alloc le_rfl rfl ?_ ?_ (fun _ _ => rfl) ?_ (fun _ _ => rfl)
  · exact fun b hb => update_of_ne hb _ _
  · simp [UState.allocZval]
  · intro i b hheld
    exact absurd hheld (empty_built.entry_new (g := g) le_rfl)

theorem start_numbered : Numbered g serializeStart
    (unserializeFrom before base p).allocZval ⟨[], []⟩ :=
  Numbered.congr (s := unserializeFrom before base p) empty_numbered rfl (by simp) rfl rfl

theorem start_fresh : Fresh base (unserializeFrom before base p).allocZval ⟨[], []⟩ base := by
  refine ⟨⟨le_rfl, Nat.lt_succ_self _⟩, start_zvals le_rfl, by simp, ?_⟩
  intro t i ht hheld
  rw [Graph.entry, start_tables ht] at hheld
  simp [OrderedMap.empty] at hheld

section Complete

variable {s : UState} {pr : Pairing}

theorem Numbered.refTo (h : Numbered g st s pr) :
    ∀ q ∈ pr.zs, ∀ q' ∈ pr.zs, q.1 = q'.1 → (g.zvals q.1).isRef = true → q.2 = q'.2 := by
  intro q hq q' hq' heq href
  obtain ⟨k, hk, hslot⟩ := h.knownZval q hq href
  obtain ⟨k', hk', hslot'⟩ := h.knownZval q' hq' (heq ▸ href)
  rw [heq, hk'] at hk
  have hkk : k' = k := by
    have hno := Option.some.inj hk
    omega
  rw [hkk, hslot] at hslot'
  exact Option.some.inj hslot'

theorem Built.refFrom (h : Built g base s pr [] []) :
    ∀ q ∈ pr.zs, ∀ q' ∈ pr.zs, q.2 = q'.2 → (s.zvals q.2).isRef = true →
      q.1 = q'.1 ∧ (g.zvals q.1).isRef = true := by
  intro q hq q' hq' heq href
  have hrange := h.rangeZ q hq
  obtain ⟨a, ha, hisRef⟩ := h.isRef q.2 hrange.1 hrange.2 href
  have hsource : ∀ x ∈ pr.zs, x.2 = q.2 → x.1 = a := by
    intro x hx hxq
    rcases h.source x hx (a, q.2) ha hxq with hsame | ⟨_, hobj⟩
    · exact hsame
    · rw [h.plain (a, q.2) ha hobj] at hisRef
      cases hisRef
  rw [hsource q hq rfl, hsource q' hq' heq.symm]
  exact ⟨rfl, hisRef⟩

theorem Built.isRef_of_shared (h : Built g base s pr [] []) {q : Nat × Nat}
    (hq : q ∈ pr.zs) (href : (g.zvals q.1).isRef = true)
    (hcase : (s.zvals q.2).isRef = true ∨ IsObject (s.zvals q.2).value) :
    (s.zvals q.2).isRef = true := by
  rcases hcase with hisRef | hobj
  · exact hisRef
  · have hsame := h.value q hq (by simp)
    rw [h.plain q hq (hsame.isObject.mpr hobj)] at href
    cases href

theorem Built.base_le (h : Built g base s pr [] []) (ht : InPairing s.toGraph pr t) : base ≤ t := by
  rcases ht with ⟨q, hq, hvalue⟩ | ⟨q, hq, hproperties⟩
  · have hrange := h.rangeZ q hq
    exact (h.tableOf q.2 t hrange.1 hrange.2 hvalue).1
  · rw [h.properties q hq] at hproperties
    exact hproperties ▸ (h.rangeO q hq).1

end Complete

/-- A complete graph is the same as the one that was written. -/
theorem Reads.isomorphic {r : Ret} {pr : Pairing}
    (h : Reads g base p mem st (unserializeFrom before base p).allocZval
      ⟨[], []⟩ [] [] root base r pr) : Isomorphic g r.s.toGraph root r.rval pr := by
  have hbuilt := h.built
  -- The zval of the whole value is held in a table only when it is shared.
  have hroot : ∀ q ∈ pr.zs, q.2 = r.rval → ∀ t i, base ≤ t → r.s.entry t i = some q.2 →
      (r.s.zvals q.2).isRef = true ∨ IsObject (r.s.zvals q.2).value := by
    intro q _ heq t i ht hheld
    rw [heq] at hheld ⊢
    rcases h.rval with hrval | hshared
    · rw [hrval] at hheld ⊢
      by_cases hlt : t < base + 1
      · have htables : r.s.tables t = OrderedMap.empty := by
          rw [h.frame.tables t hlt, start_tables ht]
        rw [Graph.entry, htables] at hheld
        simp [OrderedMap.empty] at hheld
      · rcases h.frame.held t i base (Nat.le_of_not_lt hlt) hheld le_rfl with hge | hshared
        · exact absurd hge (Nat.not_succ_le_self base)
        · exact hshared
    · exact hshared
  refine ⟨h.pair, fun q hq => hbuilt.value q hq (by simp),
    fun q hq => hbuilt.object q hq (by simp), hbuilt.identity,
    h.numbered.refTo, hbuilt.refFrom, ?_⟩
  intro q hq href x y hne hx hy
  apply hbuilt.isRef_of_shared hq href
  cases x with
  | root =>
    cases y with
    | root => exact absurd rfl hne
    | element t i => exact hroot q hq hx t i (hbuilt.base_le hy.1) hy.2
  | element t i =>
    cases y with
    | root => exact hroot q hq hy t i (hbuilt.base_le hx.1) hx.2
    | element t' i' =>
      refine hbuilt.once t i t' i' q.2 (hbuilt.base_le hx.1)
        (hbuilt.base_le hy.1) (hbuilt.rangeZ q hq).1 hx.2 hy.2 ?_
      intro heq
      cases heq
      exact hne rfl

variable (before p) in
/-- The serializer ends; and when it leaves out no array and numbers fewer
than 2^31 values, its output is read to the end, the graph that is built is
the same, and its numbers designate what was built from the first
occurrence. -/
theorem phpVarUnserialize_phpVarSerialize (hplain : PlainGraph g handlers classes base nodes)
    (hroot : root ∈ nodes) : (∃ fuel st, phpVarSerializeIntern g handlers fuel root serializeStart =
      some st) ∧ ∀ fuel st, phpVarSerializeIntern g handlers fuel root serializeStart =
        some st → st.cut = false → st.count < 2 ^ 31 →
      ∀ mem max, HoldsAt mem p st.buf → p + st.buf.length ≤ max → ∀ fuel', fuel < fuel' →
      ∃ r pr, phpVarUnserialize classes mem max fuel' base true
          (unserializeFrom before base p).allocZval = some r ∧
        r.ok = true ∧ r.s.p = p + st.buf.length ∧ Isomorphic g r.s.toGraph root r.rval pr ∧
        (∀ a no, st.varHash (.zval a) = some no →
          ∃ b, varAccess r.s.slots (no - 1) = some b ∧ (a, b) ∈ pr.zs) ∧
        ∀ h no, st.varHash (.object h) = some no → ∃ b c, varAccess r.s.slots (no - 1) = some b ∧
            (r.s.zvals b).value = .object c ∧ (h, c) ∈ pr.os := by
  constructor
  · obtain ⟨st, hrun, _⟩ := phpVarSerializeIntern_ends hplain
      (budget g nodes (phpAddVarHash g root serializeStart).2 + 2) root hroot
      serializeStart (Nat.succ_pos _) (Or.inr (Nat.lt_succ_self _))
    exact ⟨_, st, hrun⟩
  · intro fuel st hrun hcut hcount mem max hholds hmax fuel' hfuel
    obtain ⟨r, pr, hread, hreads⟩ := phpVarSerializeIntern_reads hplain hfuel
      root hroot serializeStart st hrun ⟨hholds, hmax, hcut, hcount⟩
      (unserializeFrom before base p).allocZval ⟨[], []⟩ [] [] base rfl
      start_numbered start_built start_fresh
    refine ⟨r, pr, hread, hreads.ok, hreads.p, hreads.isomorphic, ?_, ?_⟩
    · intro a no hno
      obtain ⟨k, b, rfl, hslot, hpair⟩ := hreads.numbered.hashZval a no hno
      refine ⟨b, ?_, hpair⟩
      rw [Int.add_sub_cancel, varAccess_eq hreads.numbered.chunked, hslot]
    · intro h no hno
      obtain ⟨k, a, b, c, rfl, hslot, _, hvalue, hos⟩ :=
        hreads.numbered.hashObject h no hno
      refine ⟨b, c, ?_, hvalue, hos⟩
      rw [Int.add_sub_cancel, varAccess_eq hreads.numbered.chunked, hslot]

end Whole

/-! Two graphs. -/

/-- A class with one declared property, whose default is the zval 0. -/
def pointClass : ClassEntry :=
  ⟨bytesOf "P", false, false, false, false, [(bytesOf "p", 0)]⟩

def pointOnly : UserCode where
  lookupClass _ name :=
    if name = pointClass.name then .found pointClass else .incomplete
  unserialize _ _ := none
  wakeup _ s := s
  wakeupThrows _ := false

def noHandlers : SerializeUser :=
  ⟨fun _ => false, fun _ st => st⟩

def keyP : HashKey :=
  .string (bytesOf "p" ++ [0])

/-- `[&$x, &$x, $o, $o]` where `$o->p` is `$x` again. -/
def sharedGraph : Graph where
  zvals
    | 1 => ⟨.array 1, false⟩
    | 2 => ⟨.long 7, true⟩
    | 3 => ⟨.object 1, false⟩
    | 4 => ⟨.object 1, false⟩
    | _ => ⟨.null, false⟩
  tables
    | 1 => ⟨[(.long 0, 2), (.long 1, 2), (.long 2, 3), (.long 3, 4)], none, 4⟩
    | 2 => ⟨[(keyP, 2)], none, 0⟩
    | _ => OrderedMap.empty
  objects _ := ⟨pointClass, 2⟩

theorem pointClass_plain : PlainClass pointOnly 1 pointClass where
  name := by decide
  bytes := by decide +kernel
  found _ := rfl
  serialize := rfl
  wakeup := rfl
  abstract := rfl
  complete := by decide
  defaults := by decide

theorem propertyKey_keyP : PropertyKey keyP :=
  ⟨bytesOf "p", rfl, by decide⟩

theorem sharedGraph_plain : PlainGraph sharedGraph noHandlers pointOnly 1 {1, 2, 3, 4} := by
  have hobject : PlainValue sharedGraph noHandlers pointOnly 1 {1, 2, 3, 4} false (.object 1) := by
    refine ⟨rfl, rfl, pointClass_plain, ⟨by decide, by decide, ?_, ?_⟩, [],
      rfl⟩
    · simp [sharedGraph, propertyKey_keyP]
    · simp [sharedGraph]
  intro z hz
  simp only [Finset.mem_insert, Finset.mem_singleton] at hz
  rcases hz with rfl | rfl | rfl | rfl
  · refine ⟨by decide, by decide, ?_, ?_⟩
    · simp [sharedGraph, ArrayKey, ulongMod]
    · simp [sharedGraph]
  · exact ⟨by decide, by decide⟩
  · exact hobject
  · exact hobject

def sharedText : List UInt8 :=
  bytesOf "a:4:\x7bi:0;i:7;i:1;R:2;i:2;O:1:\"P\":1:\x7bs:1:\"p\";R:2;\x7di:3;r:3;\x7d"

/-- The memory that holds a text, and NULs behind it. -/
def memoryOf (text : List UInt8) (i : Nat) : UInt8 :=
  text.getD i 0

theorem sharedGraph_text : (phpVarSerializeIntern sharedGraph noHandlers 4 1 serializeStart).map
      (fun st => (st.buf, st.cut, st.count)) = some (sharedText, false, 4) := by
  decide

theorem phpVarUnserialize_phpVarSerialize_shared :
    ∃ r pr, phpVarUnserialize pointOnly (memoryOf sharedText) sharedText.length 5 1 true
        (unserializeFrom sharedGraph 1 0).allocZval = some r ∧
      r.ok = true ∧ r.s.p = sharedText.length ∧ Isomorphic sharedGraph r.s.toGraph 1 r.rval pr := by
  obtain ⟨st, hrun, hst⟩ := map_eq_some_iff.mp sharedGraph_text
  obtain ⟨hbuf, hcut, hcount⟩ : st.buf = sharedText ∧ st.cut = false ∧
      st.count = 4 := by simpa using hst
  obtain ⟨r, pr, hread, hok, hp, hsame, _⟩ :=
    (phpVarUnserialize_phpVarSerialize sharedGraph 0
      sharedGraph_plain (by decide)).2 4 st hrun hcut (by omega)
      (memoryOf sharedText) sharedText.length
      (by rw [hbuf]; decide) (by rw [hbuf]; simp) 5 (by decide)
  exact ⟨r, pr, hread, hok, by rw [hp, hbuf, zero_add], hsame⟩

/-- `$a = [$o1, $o2, $o3]` with `$a` in the property of each. -/
def nestedGraph : Graph where
  zvals
    | 1 => ⟨.array 1, false⟩
    | 2 => ⟨.object 2, false⟩
    | 3 => ⟨.object 3, false⟩
    | 4 => ⟨.object 4, false⟩
    | _ => ⟨.null, false⟩
  tables
    | 1 => ⟨[(.long 0, 2), (.long 1, 3), (.long 2, 4)], none, 3⟩
    | 0 => OrderedMap.empty
    | _ => ⟨[(keyP, 1)], none, 0⟩
  objects h := ⟨pointClass, h⟩

theorem nestedGraph_plain : PlainGraph nestedGraph noHandlers pointOnly 1 {1, 2, 3, 4} := by
  have hobject : ∀ h, (nestedGraph.tables h).items = [(keyP, 1)] →
      PlainValue nestedGraph noHandlers pointOnly 1 {1, 2, 3, 4} false (.object h) := by
    intro h hitems
    have htable : (nestedGraph.tables (nestedGraph.objects h).properties).items
        = [(keyP, 1)] := hitems
    refine ⟨rfl, rfl, pointClass_plain, ⟨?_, ?_, ?_, ?_⟩, [], ?_⟩
    · rw [htable]
      decide
    · rw [htable]
      simp
    · rw [htable]
      simp [propertyKey_keyP]
    · rw [htable]
      simp
    · rw [htable]
      rfl
  intro z hz
  simp only [Finset.mem_insert, Finset.mem_singleton] at hz
  rcases hz with rfl | rfl | rfl | rfl
  · refine ⟨by decide, by decide, ?_, ?_⟩
    · simp [nestedGraph, ArrayKey, ulongMod]
    · simp [nestedGraph]
  · exact hobject 2 rfl
  · exact hobject 3 rfl
  · exact hobject 4 rfl

/-- The table that a value holds. -/
def Graph.tableOf (g : Graph) : UValue → Option Nat
  | .array t => some t
  | .object h => some (g.objects h).properties
  | _ => none

/-- The zval at the end of a path of indices. -/
def Graph.walk (g : Graph) : List Nat → Nat → Option Nat
  | [], z => some z
  | i :: path, z =>
    ((g.tableOf (g.zvals z).value).bind fun t => g.entry t i).bind (g.walk path)

theorem Isomorphic.walk {g g' : Graph} {root root' : Nat} {pr : Pairing}
    (h : Isomorphic g g' root root' pr) (path : List Nat) {a z z' : Nat}
    (hpair : (z, z') ∈ pr.zs) (ha : g.walk path z = some a)
    (hb : g'.walk path z' = some b) : (a, b) ∈ pr.zs := by
  induction path generalizing z z' with
  | nil =>
    cases ha
    cases hb
    exact hpair
  | cons i path ih =>
    simp only [Graph.walk, bind_eq_some_iff] at ha hb
    obtain ⟨x, ⟨t, ht, hx⟩, ha⟩ := ha
    obtain ⟨x', ⟨t', ht', hx'⟩, hb⟩ := hb
    refine ih ?_ ha hb
    have hitems : SameItems pr (g.tables t).items (g'.tables t').items := by
      have hvalue := h.value (z, z') hpair
      cases hkind : (g.zvals z).value <;> cases hkind' : (g'.zvals z').value <;>
        rw [hkind] at ht hvalue <;> rw [hkind'] at ht' hvalue <;>
        cases ht <;> cases ht' <;> first
          | exact hvalue
          | exact (h.object _ hvalue).2
          | exact absurd hvalue (by simp [SameValue])
    simp only [Graph.entry, map_eq_some_iff] at hx hx'
    obtain ⟨y, hy, rfl⟩ := hx
    obtain ⟨y', hy', rfl⟩ := hx'
    obtain ⟨hi, rfl⟩ := List.getElem?_eq_some_iff.mp hy
    obtain ⟨hi', rfl⟩ := List.getElem?_eq_some_iff.mp hy'
    exact (List.Forall₂.get hitems hi hi').2

theorem nestedGraph_run : (phpVarSerializeIntern nestedGraph noHandlers 9 1 serializeStart).bind
      (fun st => (phpVarUnserialize pointOnly (memoryOf st.buf) st.buf.length
        10 1 true (unserializeFrom nestedGraph 1 0).allocZval).map fun r =>
          (r.ok, decide (r.s.p = st.buf.length), (r.s.walk [0, 0, 1, 0, 2, 0] r.rval).map fun b =>
              (r.s.zvals b).value)) = some (true, true, some .null) := by
  decide +kernel

/-- The array is in a property of an object that is in the array, three times
over.  The third one is written as null: the graph that is built is not the
same. -/
theorem nested_array_written_as_null : PlainGraph nestedGraph noHandlers pointOnly 1 {1, 2, 3, 4} ∧
      ∃ st r, phpVarSerializeIntern nestedGraph noHandlers 9 1 serializeStart = some st ∧
        phpVarUnserialize pointOnly (memoryOf st.buf) st.buf.length 10 1 true
          (unserializeFrom nestedGraph 1 0).allocZval = some r ∧
        r.ok = true ∧ ¬ ∃ pr, Isomorphic nestedGraph r.s.toGraph 1 r.rval pr := by
  refine ⟨nestedGraph_plain, ?_⟩
  obtain ⟨st, hst, hrun⟩ := bind_eq_some_iff.mp nestedGraph_run
  obtain ⟨r, hr, hresult⟩ := map_eq_some_iff.mp hrun
  simp only [Prod.mk.injEq, map_eq_some_iff] at hresult
  obtain ⟨hok, _, b, hb, hnull⟩ := hresult
  refine ⟨st, r, hst, hr, hok, ?_⟩
  rintro ⟨pr, hsame⟩
  have hpair := hsame.walk [0, 0, 1, 0, 2, 0] hsame.root
    (show nestedGraph.walk [0, 0, 1, 0, 2, 0] 1 = some 1 by decide +kernel) hb
  have hvalue := hsame.value (1, b) hpair
  rw [hnull] at hvalue
  exact absurd hvalue (by simp [nestedGraph, SameValue])

end PhpEngine

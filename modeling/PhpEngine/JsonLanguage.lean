/-
The language of the parser compared with RFC 4627.  Both are parts of one
larger language; which part a text belongs to can be read off its points and
its names.
-/
import PhpEngine.JsonSound

namespace PhpEngine.Json

open List

/-- The larger language. -/
def lenient : Dialect := ⟨true, true⟩

section Scan

inductive ScanMode where
  | outside
  | inside (nul : Bool)
  | escaped (nul : Bool)
deriving Repr, DecidableEq

/-- How one unit changes the mode; `rest` is what follows it. -/
def ScanMode.next (mode : ScanMode) (u : UInt16) (rest : List UInt16) : ScanMode :=
  match mode with
  | .outside =>
    if u = unit '"' then .inside (decide (rest.take 6 = nulEscape))
    else .outside
  | .inside nul =>
    if u = unit '"' then .outside
    else if u = unit '\\' then .escaped nul
    else .inside nul
  | .escaped nul => .inside nul

/-- A point outside the strings that no digit follows. -/
def hasBarePoint : ScanMode → List UInt16 → Bool
  | _, [] => false
  | mode, u :: rest =>
    (decide (mode = .outside ∧ u = unit '.') && !(rest.head?.any isDigitUnit)) ||
      hasBarePoint (mode.next u rest) rest

/-- A string that starts with the escape of NUL and that a colon follows. -/
def hasNulName : ScanMode → List UInt16 → Bool
  | _, [] => false
  | mode, u :: rest =>
    (decide (mode = .inside true ∧ u = unit '"') &&
      (rest.dropWhile isWs).head? == some (unit ':')) || hasNulName (mode.next u rest) rest

/-- The two departures from RFC 4627 that occur in a text. -/
def marks (mode : ScanMode) (w : List UInt16) : Dialect :=
  ⟨hasBarePoint mode w, hasNulName mode w⟩

def Dialect.le (d e : Dialect) : Prop :=
  (d.bareFraction = true → e.bareFraction = true) ∧ (d.nulNames = true → e.nulNames = true)

def Dialect.sup (d e : Dialect) : Dialect :=
  ⟨d.bareFraction || e.bareFraction, d.nulNames || e.nulNames⟩

/-- What stands behind a value. -/
def Follows (r : List UInt16) : Prop :=
  (r.dropWhile isWs).head? ≠ some (unit ':') ∧ r.head?.any isDigitUnit = false

variable {w r : List UInt16} {u : UInt16}

theorem marks_plain (hquote : u ≠ unit '"') (hpoint : u ≠ unit '.') :
    marks .outside (u :: r) = marks .outside r := by
  simp [marks, hasBarePoint, hasNulName, ScanMode.next, hquote, hpoint]

theorem marks_plains (hw : ∀ u ∈ w, u ≠ unit '"' ∧ u ≠ unit '.') :
    marks .outside (w ++ r) = marks .outside r := by
  induction w with
  | nil => rfl
  | cons u rest ih =>
    obtain ⟨hu, hrest⟩ := forall_mem_cons.mp hw
    exact (marks_plain hu.1 hu.2).trans (ih hrest)

theorem isWs_plain (h : isWs u = true) : u ≠ unit '"' ∧ u ≠ unit '.' := by
  constructor <;> rintro rfl <;> cases h

theorem isDigitUnit_plain (h : isDigitUnit u = true) : u ≠ unit '"' ∧ u ≠ unit '.' := by
  constructor <;> rintro rfl <;> cases h

theorem marks_inside {nul : Bool} (hquote : u ≠ unit '"') (hbacks : u ≠ unit '\\') :
    marks (.inside nul) (u :: r) = marks (.inside nul) r := by
  simp [marks, hasBarePoint, hasNulName, ScanMode.next, hquote, hbacks]

theorem marks_escape {nul : Bool} :
    marks (.inside nul) (unit '\\' :: u :: r) = marks (.inside nul) r := by
  have hback : unit '\\' ≠ unit '"' := by decide
  simp [marks, hasBarePoint, hasNulName, ScanMode.next, hback]

theorem marks_char {nul : Bool} (hw : StringChar w) :
    marks (.inside nul) (w ++ r) = marks (.inside nul) r := by
  cases hw with
  | unescaped hlow hquote hbacks => exact marks_inside hquote hbacks
  | escape hu => exact marks_escape
  | @hex a b c d ha hb hc hd =>
    have hplain : ∀ {u}, isHexUnit u = true → ∀ r,
        marks (.inside nul) (u :: r) = marks (.inside nul) r := by
      intro u h r
      refine marks_inside ?_ ?_ <;> rintro rfl <;> cases h
    calc marks (.inside nul) ([unit '\\', unit 'u', a, b, c, d] ++ r)
        = marks (.inside nul) (a :: b :: c :: d :: r) := marks_escape
      _ = marks (.inside nul) r := by
          rw [hplain ha, hplain hb, hplain hc, hplain hd]

theorem marks_chars {nul : Bool} {chars : List (List UInt16)} (hchars : ∀ c ∈ chars, StringChar c) :
    marks (.inside nul) (chars.flatten ++ r) = marks (.inside nul) r := by
  induction chars with
  | nil => rfl
  | cons c rest ih =>
    obtain ⟨hc, hrest⟩ := forall_mem_cons.mp hchars
    rw [flatten_cons, append_assoc, marks_char hc, ih hrest]

/-- Whether a string starts with the escape of NUL can be seen at its
beginning. -/
theorem take_nulEscape {chars : List (List UInt16)} (hchars : ∀ c ∈ chars, StringChar c) :
    (chars.flatten ++ unit '"' :: r).take 6 = nulEscape ↔ chars.head? = some nulEscape := by
  have hnul : nulEscape = [unit '\\', unit 'u', unit '0', unit '0', unit '0', unit '0'] := by decide
  cases chars with
  | nil =>
    refine iff_of_false (fun h => ?_) nofun
    have hquote : unit '"' = unit '\\' := (List.cons.inj h).1
    revert hquote
    decide
  | cons c rest =>
    rw [head?_cons, Option.some.injEq, hnul]
    cases hchars c mem_cons_self with
    | @unescaped u hlow hquote hbacks => simp [hbacks]
    | @escape u hu =>
      have hne : u ≠ unit 'u' := by
        rintro rfl
        revert hu
        decide
      simp [hne]
    | @hex a b c d ha hb hc hd => simp

theorem marks_quoted {chars : List (List UInt16)} (hchars : ∀ c ∈ chars, StringChar c) :
    marks .outside (quoted chars ++ r) =
      Dialect.sup ⟨false, decide (chars.head? = some nulEscape) &&
        (r.dropWhile isWs).head? == some (unit ':')⟩ (marks .outside r) := by
  have hopen : marks .outside (quoted chars ++ r) =
      marks (.inside (decide (chars.head? = some nulEscape))) (chars.flatten ++ unit '"' :: r) := by
    have hpoint : unit '"' ≠ unit '.' := by decide
    simp [marks, hasBarePoint, hasNulName, ScanMode.next, quoted, hpoint, take_nulEscape hchars]
  rw [hopen, marks_chars hchars]
  simp [marks, hasBarePoint, hasNulName, ScanMode.next, Dialect.sup]

theorem intPart_plain (hw : IntPart w) : ∀ u ∈ w, u ≠ unit '"' ∧ u ≠ unit '.' := by
  cases hw with
  | zero => exact forall_units (by decide)
  | more hfirst hne hrest =>
    exact forall_mem_cons.mpr ⟨isDigitUnit_plain hfirst, fun u hu => isDigitUnit_plain (hrest u hu)⟩

theorem expPart_plain (hw : ExpPart w) : ∀ u ∈ w, u ≠ unit '"' ∧ u ≠ unit '.' := by
  cases hw with
  | none => nofun
  | @some e sign digits he hsign hdigits hne =>
    refine forall_mem_cons.mpr ⟨?_, ?_⟩
    · rcases he with rfl | rfl <;> decide
    · refine forall_mem_append.mpr ⟨?_, fun u hu => isDigitUnit_plain (hdigits u hu)⟩
      rcases hsign with rfl | rfl | rfl <;> exact forall_units (by decide)

theorem expPart_follows (hw : ExpPart w) (hr : Follows r) :
    (w ++ r).head?.any isDigitUnit = false := by
  cases hw with
  | none => exact hr.2
  | some he hsign hdigits hne =>
    rcases he with rfl | rfl <;> rfl

theorem marks_frac {d : Dialect} (hw : FracPart d w) : ∃ m : Dialect, m.le d ∧ FracPart m w ∧
      ∀ r : List UInt16, r.head?.any isDigitUnit = false →
        marks .outside (w ++ r) = m.sup (marks .outside r) := by
  cases hw with
  | none => exact ⟨⟨false, false⟩, ⟨nofun, nofun⟩, .none, fun _ _ => rfl⟩
  | @some digits hdigits hbare =>
    refine ⟨⟨decide (digits = []), false⟩, ⟨fun h => hbare (of_decide_eq_true h), nofun⟩,
      .some hdigits decide_eq_true, fun r hr => ?_⟩
    have hquote : unit '.' ≠ unit '"' := by decide
    have hpoint : marks .outside (unit '.' :: (digits ++ r)) =
        Dialect.sup ⟨!((digits ++ r).head?.any isDigitUnit), false⟩
          (marks .outside (digits ++ r)) := by
      simp [marks, hasBarePoint, hasNulName, ScanMode.next, Dialect.sup, hquote]
    have hskip : marks .outside (digits ++ r) = marks .outside r :=
      marks_plains fun u hu => isDigitUnit_plain (hdigits u hu)
    have hnext : (!((digits ++ r).head?.any isDigitUnit)) = decide (digits = []) := by
      cases digits with
      | nil =>
        rw [nil_append, hr]
        rfl
      | cons u rest => simp [hdigits u mem_cons_self]
    rw [cons_append, hpoint, hskip, hnext]

theorem marks_number {d : Dialect} (hw : Number d w) :
    ∃ m : Dialect, m.le d ∧ Number m w ∧ ∀ r, Follows r →
      marks .outside (w ++ r) = m.sup (marks .outside r) := by
  obtain @⟨minus, int, frac, exp, hminus, hint, hfrac, hexp⟩ := hw
  obtain ⟨m, hle, hfrac', hmarks⟩ := marks_frac hfrac
  refine ⟨m, hle, .mk hminus hint hfrac' hexp, fun r hr => ?_⟩
  have hminus' : ∀ u ∈ minus, u ≠ unit '"' ∧ u ≠ unit '.' := by
    rcases hminus with rfl | rfl <;> exact forall_units (by decide)
  calc marks .outside (minus ++ int ++ frac ++ exp ++ r)
      = marks .outside (minus ++ (int ++ (frac ++ (exp ++ r)))) := by simp
    _ = marks .outside (frac ++ (exp ++ r)) := by
        rw [marks_plains hminus', marks_plains (intPart_plain hint)]
    _ = m.sup (marks .outside r) := by
        rw [hmarks _ (expPart_follows hexp hr), marks_plains (expPart_plain hexp)]

theorem marks_ws (hw : Ws w) : marks .outside (w ++ r) = marks .outside r :=
  marks_plains fun u hu => isWs_plain (hw u hu)

theorem dropWhile_ws (hw : Ws w) : (w ++ r).dropWhile isWs = r.dropWhile isWs := by
  induction w with
  | nil => rfl
  | cons u rest ih =>
    obtain ⟨hu, hrest⟩ := forall_mem_cons.mp hw
    rw [cons_append, dropWhile_cons, if_pos hu, ih hrest]

theorem follows_ws (hw : Ws w) (hr : Follows r) : Follows (w ++ r) := by
  refine ⟨by rw [dropWhile_ws hw]; exact hr.1, ?_⟩
  cases w with
  | nil => exact hr.2
  | cons u rest =>
    have hu := hw u mem_cons_self
    have hdigit : isDigitUnit u = false := by
      rcases (isWs_iff u).mp hu with h | h <;>
        · rw [← Bool.not_eq_true, isDigitUnit_iff, h]
          nofun
    simp [hdigit]

theorem follows_cons (hu : u ∈ units ",]\x7d") : Follows (u :: r) := by
  have hclass : ∀ u ∈ units ",]\x7d", isWs u = false ∧ u ≠ unit ':' ∧
      isDigitUnit u = false := forall_units (by decide)
  obtain ⟨hws, hcolon, hdigit⟩ := hclass u hu
  exact ⟨by simp [hws, hcolon], by simp [hdigit]⟩

end Scan

section Language

variable {d e : Dialect} {symbol : Symbol} {n depth : Nat} {w r : List UInt16}

theorem Dialect.le_sup_left (d e : Dialect) : d.le (d.sup e) :=
  ⟨fun h => by simp [Dialect.sup, h], fun h => by simp [Dialect.sup, h]⟩

theorem Dialect.le_sup_right (d e : Dialect) : e.le (d.sup e) :=
  ⟨fun h => by simp [Dialect.sup, h], fun h => by simp [Dialect.sup, h]⟩

theorem Dialect.sup_le {f : Dialect} (hd : d.le f) (he : e.le f) : (d.sup e).le f := by
  simp only [Dialect.le, Dialect.sup, Bool.or_eq_true] at *
  exact ⟨fun h => h.elim hd.1 he.1, fun h => h.elim hd.2 he.2⟩

theorem Dialect.sup_assoc (d e f : Dialect) : (d.sup e).sup f = d.sup (e.sup f) := by
  simp [Dialect.sup, Bool.or_assoc]

theorem Number.mono (h : d.le e) (hw : Number d w) : Number e w := by
  obtain ⟨hminus, hint, hfrac, hexp⟩ := hw
  refine .mk hminus hint ?_ hexp
  cases hfrac with
  | none => exact .none
  | some hdigits hbare => exact .some hdigits fun hnil => h.1 (hbare hnil)

theorem Gen.mono (h : d.le e) (hw : Gen d symbol n w) : Gen e symbol n w := by
  induction hw with
  | literal hw => exact .literal hw
  | number hw => exact .number (hw.mono h)
  | string hw => exact .string hw
  | ofArray _ ih => exact .ofArray ih
  | ofObject _ ih => exact .ofObject ih
  | emptyArray ha => exact .emptyArray ha
  | array _ ih => exact .array ih
  | emptyObject ha => exact .emptyObject ha
  | object _ ih => exact .object ih
  | element ha _ hb ih => exact .element ha ih hb
  | oneElement _ ih => exact .oneElement ih
  | moreElements _ _ ihv ihw => exact .moreElements ihv ihw
  | member ha hname hb _ ih =>
    obtain ⟨chars, hchars, htext, hnul⟩ := hname
    exact .member ha ⟨chars, hchars, htext, fun hn => h.2 (hnul hn)⟩ hb ih
  | oneMember _ ih => exact .oneMember ih
  | moreMembers _ _ ihv ihw => exact .moreMembers ihv ihw

/-- The departures from RFC 4627 in a text are those of its derivation. -/
theorem marks_gen (hw : Gen d symbol n w) :
    ∃ m : Dialect, m.le d ∧ Gen m symbol n w ∧ ∀ r, Follows r →
      marks .outside (w ++ r) = m.sup (marks .outside r) := by
  have hempty : ∀ e : Dialect, Dialect.sup ⟨false, false⟩ e = e := fun _ => rfl
  have henclosed : ∀ {m : Dialect} {v : List UInt16} {first last : UInt16},
      first ≠ unit '"' ∧ first ≠ unit '.' → last ∈ units ",]\x7d" →
      (∀ r, Follows r → marks .outside (v ++ r) = m.sup (marks .outside r)) → ∀ r,
      marks .outside (first :: (v ++ [last]) ++ r) = m.sup (marks .outside r) := by
    intro m v first last hfirst hlast hv r
    have hplain : ∀ u ∈ units ",]\x7d", u ≠ unit '"' ∧ u ≠ unit '.' :=
      forall_units (by decide)
    calc marks .outside (first :: (v ++ [last]) ++ r) = marks .outside (v ++ last :: r) := by
          rw [cons_append, marks_plain hfirst.1 hfirst.2]
          simp
      _ = m.sup (marks .outside r) := by
          rw [hv _ (follows_cons hlast), marks_plain (hplain _ hlast).1 (hplain _ hlast).2]
  have hpair : ∀ {m₁ m₂ : Dialect} {v w : List UInt16}, (∀ r, Follows r → marks .outside (v ++ r) =
        m₁.sup (marks .outside r)) →
      (∀ r, Follows r → marks .outside (w ++ r) = m₂.sup (marks .outside r)) → ∀ r, Follows r →
      marks .outside (v ++ unit ',' :: w ++ r) = (m₁.sup m₂).sup (marks .outside r) := by
    intro m₁ m₂ v w hv hw r hr
    rw [append_assoc, cons_append, hv _ (follows_cons (by decide)),
      marks_plain (by decide) (by decide), hw r hr, Dialect.sup_assoc]
  induction hw with
  | literal hw =>
    refine ⟨⟨false, false⟩, ⟨nofun, nofun⟩, .literal hw, fun r _ => ?_⟩
    refine (marks_plains ?_).trans (hempty _).symm
    rcases hw with rfl | rfl | rfl <;> exact forall_units (by decide)
  | number hw =>
    obtain ⟨m, hle, hw', hmarks⟩ := marks_number hw
    exact ⟨m, hle, .number hw', hmarks⟩
  | string hw =>
    refine ⟨⟨false, false⟩, ⟨nofun, nofun⟩, .string hw, fun r hr => ?_⟩
    obtain ⟨chars, hchars, rfl⟩ := hw
    rw [marks_quoted hchars, beq_false_of_ne hr.1, Bool.and_false]
  | ofArray _ ih =>
    obtain ⟨m, hle, hw, hmarks⟩ := ih
    exact ⟨m, hle, .ofArray hw, hmarks⟩
  | ofObject _ ih =>
    obtain ⟨m, hle, hw, hmarks⟩ := ih
    exact ⟨m, hle, .ofObject hw, hmarks⟩
  | emptyArray ha =>
    exact ⟨⟨false, false⟩, ⟨nofun, nofun⟩, .emptyArray ha, fun r _ =>
      henclosed (by decide) (by decide) (fun r _ => marks_ws ha) r⟩
  | array _ ih =>
    obtain ⟨m, hle, hw, hmarks⟩ := ih
    exact ⟨m, hle, .array hw, fun r _ =>
      henclosed (by decide) (by decide) hmarks r⟩
  | emptyObject ha =>
    exact ⟨⟨false, false⟩, ⟨nofun, nofun⟩, .emptyObject ha, fun r _ =>
      henclosed (by decide) (by decide) (fun r _ => marks_ws ha) r⟩
  | object _ ih =>
    obtain ⟨m, hle, hw, hmarks⟩ := ih
    exact ⟨m, hle, .object hw, fun r _ =>
      henclosed (by decide) (by decide) hmarks r⟩
  | element ha _ hb ih =>
    obtain ⟨m, hle, hw, hmarks⟩ := ih
    refine ⟨m, hle, .element ha hw hb, fun r hr => ?_⟩
    rw [append_assoc, append_assoc, marks_ws ha, hmarks _ (follows_ws hb hr), marks_ws hb]
  | oneElement _ ih =>
    obtain ⟨m, hle, hw, hmarks⟩ := ih
    exact ⟨m, hle, .oneElement hw, hmarks⟩
  | moreElements _ _ ihv ihw =>
    obtain ⟨m₁, hle₁, hv, hmarks₁⟩ := ihv
    obtain ⟨m₂, hle₂, hw, hmarks₂⟩ := ihw
    exact ⟨m₁.sup m₂, Dialect.sup_le hle₁ hle₂,
      .moreElements (hv.mono (m₁.le_sup_left m₂)) (hw.mono (m₁.le_sup_right m₂)),
      hpair hmarks₁ hmarks₂⟩
  | @member _ a name b v ha hname hb _ ih =>
    obtain ⟨m, hle, hw, hmarks⟩ := ih
    obtain ⟨chars, hchars, rfl, hnul⟩ := hname
    refine ⟨Dialect.sup ⟨false, decide (chars.head? = some nulEscape)⟩ m,
      Dialect.sup_le ⟨nofun, fun h => hnul (of_decide_eq_true h)⟩ hle,
      .member ha ⟨chars, hchars, rfl, fun h => ?_⟩ hb
        (hw.mono (Dialect.le_sup_right _ m)), fun r hr => ?_⟩
    · simp [Dialect.sup, h]
    · have hcolon : ((b ++ unit ':' :: (v ++ r)).dropWhile isWs).head? = some (unit ':') := by
        rw [dropWhile_ws hb]
        rfl
      calc marks .outside (a ++ quoted chars ++ b ++ unit ':' :: v ++ r)
          = marks .outside (a ++ (quoted chars ++ (b ++ unit ':' :: (v ++ r)))) := by simp
        _ = Dialect.sup ⟨false, decide (chars.head? = some nulEscape)⟩
              (marks .outside (b ++ unit ':' :: (v ++ r))) := by
            rw [marks_ws ha, marks_quoted hchars, hcolon, beq_self_eq_true, Bool.and_true]
        _ = (Dialect.sup ⟨false, decide (chars.head? = some nulEscape)⟩ m).sup
              (marks .outside r) := by
            rw [marks_ws hb, marks_plain (by decide) (by decide), hmarks r hr, Dialect.sup_assoc]
  | oneMember _ ih =>
    obtain ⟨m, hle, hw, hmarks⟩ := ih
    exact ⟨m, hle, .oneMember hw, hmarks⟩
  | moreMembers _ _ ihv ihw =>
    obtain ⟨m₁, hle₁, hv, hmarks₁⟩ := ihv
    obtain ⟨m₂, hle₂, hw, hmarks₂⟩ := ihw
    exact ⟨m₁.sup m₂, Dialect.sup_le hle₁ hle₂,
      .moreMembers (hv.mono (m₁.le_sup_left m₂)) (hw.mono (m₁.le_sup_right m₂)),
      hpair hmarks₁ hmarks₂⟩

theorem marks_jsonText (hw : JsonText d n w) :
    (marks .outside w).le d ∧ JsonText (marks .outside w) n w := by
  obtain ⟨a, v, b, ha, hb, rfl, hv⟩ := hw
  have hend : Follows b := by
    have h := @follows_ws b [] hb ⟨nofun, rfl⟩
    rwa [append_nil] at h
  have hmarks : ∀ {m : Dialect}, (∀ r, Follows r →
      marks .outside (v ++ r) = m.sup (marks .outside r)) →
      marks .outside (a ++ v ++ b) = m := by
    intro m hm
    have hb' := @marks_ws b [] hb
    rw [append_nil] at hb'
    rw [append_assoc, marks_ws ha, hm b hend, hb']
    simp [marks, hasBarePoint, hasNulName, Dialect.sup]
  rcases hv with hv | hv | hv
  · obtain ⟨m, hle, hgen, hm⟩ := marks_gen hv
    rw [hmarks hm]
    exact ⟨hle, a, v, b, ha, hb, rfl, .inl hgen⟩
  · obtain ⟨m, hle, hgen, hm⟩ := marks_gen hv
    rw [hmarks hm]
    exact ⟨hle, a, v, b, ha, hb, rfl, .inr (.inl hgen)⟩
  · obtain ⟨chars, hchars, rfl⟩ := hv
    rw [@hmarks ⟨false, false⟩ fun r hr => by
      rw [marks_quoted hchars, beq_false_of_ne hr.1, Bool.and_false]]
    exact ⟨⟨nofun, nofun⟩, a, _, b, ha, hb, rfl, .inr (.inr ⟨chars, hchars, rfl⟩)⟩

theorem JsonText.mono (h : d.le e) (hw : JsonText d n w) : JsonText e n w := by
  obtain ⟨a, v, b, ha, hb, htext, hv⟩ := hw
  exact ⟨a, v, b, ha, hb, htext, hv.imp (Gen.mono h) (Or.imp (Gen.mono h) id)⟩

/-- A dialect consists of the texts of the larger language whose points and
names it allows. -/
theorem generates_iff_lenient : Generates d depth w ↔
      Generates lenient depth w ∧ (marks .outside w).le d := by
  constructor
  · rintro ⟨n, hn, hw⟩
    exact ⟨⟨n, hn, hw.mono ⟨fun _ => rfl, fun _ => rfl⟩⟩, (marks_jsonText hw).1⟩
  · rintro ⟨⟨n, hn, hw⟩, hle⟩
    exact ⟨n, hn, (marks_jsonText hw).2.mono hle⟩

variable {options : DecodeOptions}

/-- The parser accepts exactly the JSON texts, unless the text is one up to
points without a digit and just one of two things is the case: it has such a
point, or it has a name with a leading NUL and objects are built. -/
theorem parseJsonEx_rfc4627_iff (hdepth : 0 < depth) :
    ((∃ z, parseJsonEx options (.new depth) w = .ok z) ↔ Generates rfc4627 depth w) ↔
      (Generates lenient depth w → (hasBarePoint .outside w = false ↔
          (options.objectAsArray = true ∨ hasNulName .outside w = false))) := by
  have hparser : (∃ z, parseJsonEx options (.new depth) w = .ok z) ↔ Generates lenient depth w ∧
        (options.objectAsArray = true ∨ hasNulName .outside w = false) := by
    rw [parseJsonEx_iff_generates hdepth, generates_iff_lenient]
    simp only [Dialect.le, marks, parserDialect, implies_true, true_and]
    cases hasNulName .outside w <;> simp
  have hrfc : Generates rfc4627 depth w ↔
      Generates lenient depth w ∧ hasBarePoint .outside w = false := by
    rw [generates_iff_lenient]
    simp only [Dialect.le, marks, rfc4627, implies_true, and_true]
    cases hasBarePoint .outside w <;> simp
  rw [hparser, hrfc]
  constructor
  · intro h hlenient
    exact ⟨fun hbare => (h.mpr ⟨hlenient, hbare⟩).2, fun hname => (h.mp ⟨hlenient, hname⟩).2⟩
  · intro h
    exact ⟨fun ⟨hl, hname⟩ => ⟨hl, (h hl).mpr hname⟩, fun ⟨hl, hbare⟩ => ⟨hl, (h hl).mp hbare⟩⟩

end Language

/-- A text with numbers, names and nested containers is read as RFC 4627
says. -/
theorem parseJsonEx_rfc4627_iff_sample : (∃ z, parseJsonEx ⟨false, false⟩ (.new 3)
        (units "\x7b\"a\": [1.5e3, -0], \"b\": null\x7d") = .ok z) ↔ Generates rfc4627 3
        (units "\x7b\"a\": [1.5e3, -0], \"b\": null\x7d") :=
  (parseJsonEx_rfc4627_iff (by decide)).mpr fun _ => by decide

/-- `[1.]` is accepted, but a point needs a digit. -/
theorem bare_point_accepted :
    ¬ ((∃ z, parseJsonEx ⟨true, false⟩ (.new 512) (units "[1.]") = .ok z) ↔
      Generates rfc4627 512 (units "[1.]")) := by
  intro h
  have haccepted : ∃ z, parseJsonEx ⟨true, false⟩ (.new 512) (units "[1.]") = .ok z := ⟨_, rfl⟩
  have hmarks := (generates_iff_lenient.mp (h.mp haccepted)).2.1
  exact absurd (hmarks (by decide)) (by decide)

end PhpEngine.Json

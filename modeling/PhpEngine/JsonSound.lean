/-
The control accepts what the grammar generates.  Soundness is by induction on
the length of the text: behind each token the rest is accepted from the next
state, and the part in front of it has been derived.
-/
import PhpEngine.JsonControl
import Mathlib.Data.List.TakeWhile

namespace PhpEngine.Json

open List

/-- The grammar of the texts that the parser accepts. -/
def parserDialect (options : DecodeOptions) : Dialect :=
  ⟨true, options.objectAsArray⟩

section Steps

variable (options : DecodeOptions) (depth : Nat)

/-- What is accepted outside the strings. -/
def Accepted (s : State) (ms : List Mode) (w : List UInt16) : Prop :=
  (plain s ms).Accepts options depth w

variable {options depth} {c : Control} {s next : State} {ms : List Mode} {u : UInt16}
  {k : CharClass} {v w r : List UInt16}

theorem accepts_cons {e : Control} (h : c.step options depth u = some e) :
    c.Accepts options depth (u :: w) ↔ e.Accepts options depth w := by
  rw [Control.Accepts, h]
  constructor
  · rintro ⟨_, hc, hw⟩
    cases hc
    exact hw
  · exact fun hw => ⟨_, rfl, hw⟩

theorem step_class (hu : classOf u = some k) :
    c.step options depth u = c.act options depth u (tableEntry c.state k) := by
  rw [Control.step, hu]
  rfl

theorem accepts_class (h : c.Accepts options depth (u :: w)) :
    ∃ k, classOf u = some k ∧ tableEntry c.state k ≠ .error := by
  obtain ⟨c', hstep, -⟩ := h
  obtain ⟨k, hk, hact⟩ := Option.bind_eq_some_iff.mp hstep
  refine ⟨k, hk, fun hrow => ?_⟩
  rw [hrow] at hact
  cases hact

theorem class_of_accepts (h : c.Accepts options depth w) (hs : c.state ≠ .OK) :
    ∃ u rest k, w = u :: rest ∧ classOf u = some k ∧ tableEntry c.state k ≠ .error := by
  cases w with
  | nil => exact absurd h.1 hs
  | cons u rest =>
    obtain ⟨k, hk, hrow⟩ := accepts_class h
    exact ⟨u, rest, k, rfl, hk, hrow⟩

theorem accepted_goto (hu : classOf u = some k) (hrow : tableEntry s k = .goto next)
    (hs : s.quoted = false) :
    Accepted options depth s ms (u :: w) ↔ Accepted options depth next ms w := by
  refine accepts_cons ((step_class hu).trans ?_)
  rw [show tableEntry (plain s ms).state k = _ from hrow, Control.act, read_outside hs]
  rfl

theorem isWs_class (h : isWs u = true) :
    ∃ k, classOf u = some k ∧ (k = CharClass.space ∨ k = .white) := by
  rcases (isWs_iff u).mp h with h | h
  · exact ⟨_, h, .inl rfl⟩
  · exact ⟨_, h, .inr rfl⟩

theorem accepts_white (hs : c.state.between = true) (hu : isWs u = true) :
    c.Accepts options depth (u :: w) ↔ c.Accepts options depth w := by
  obtain ⟨k, hk, hc⟩ := isWs_class hu
  have hrow : tableEntry c.state k = .goto c.state := by
    revert hs
    generalize c.state = s
    rcases hc with rfl | rfl <;> cases s <;> first | (intro; rfl) | nofun
  refine accepts_cons ((step_class hk).trans ?_)
  rw [hrow, Control.act, read_outside (between_quoted hs)]

theorem accepts_ws (hs : c.state.between = true) (hv : Ws v) :
    c.Accepts options depth (v ++ w) ↔ c.Accepts options depth w := by
  induction v with
  | nil => rfl
  | cons u rest ih =>
    obtain ⟨hu, hrest⟩ := forall_mem_cons.mp hv
    exact (accepts_white hs hu).trans (ih hrest)

def NoWs (w : List UInt16) : Prop :=
  ∀ u ∈ w.head?, isWs u = false

theorem ws_split (w : List UInt16) : ∃ a r, Ws a ∧ w = a ++ r ∧ NoWs r := by
  refine ⟨w.takeWhile isWs, w.dropWhile isWs, fun u hu => mem_takeWhile_imp hu,
    (takeWhile_append_dropWhile).symm, fun u hu => ?_⟩
  have h := head?_dropWhile_not isWs w
  rw [Option.mem_def.mp hu] at h
  simpa using h

def CharClass.isWs (k : CharClass) : Bool :=
  k = .space || k = .white

theorem class_isWs (hk : classOf u = some k) : k.isWs = PhpEngine.Json.isWs u := by
  rw [Bool.eq_iff_iff, isWs_iff, hk]
  simp [CharClass.isWs]

theorem token_of_accepts (hs : c.state.idle = true) (h : c.Accepts options depth w) :
    ∃ a u rest k, Ws a ∧ w = a ++ u :: rest ∧ classOf u = some k ∧ k.isWs = false ∧
      tableEntry c.state k ≠ .error ∧ c.Accepts options depth (u :: rest) := by
  obtain ⟨a, r, ha, rfl, hr⟩ := ws_split w
  obtain ⟨hbetween, hOK⟩ : c.state.between = true ∧ c.state ≠ .OK := by
    revert hs
    generalize c.state = s
    cases s <;> decide
  have hw := (accepts_ws hbetween ha).mp h
  obtain ⟨u, rest, k, rfl, hk, hrow⟩ := class_of_accepts hw hOK
  exact ⟨a, u, rest, k, ha, rfl, hk, (class_isWs hk).trans (hr u rfl), hrow, hw⟩

end Steps

section Strings

variable {options : DecodeOptions} {depth : Nat} {s next : State} {ms : List Mode} {u : UInt16}
  {k : CharClass} {lead : Option Bool} {w r : List UInt16} {chars : List (List UInt16)}

/-- What is known of a string after further characters. -/
def readLead (lead : Option Bool) (chars : List (List UInt16)) : Option Bool :=
  chars.foldl (fun lead c => some (lead.getD (decodeChar c == 0))) lead

theorem readLead_nul (hchars : ∀ c ∈ chars, StringChar c) :
    readLead none chars = some true ↔ chars.head? = some nulEscape := by
  have hkeep : ∀ (b : Bool) (chars : List (List UInt16)), readLead (some b) chars = some b := by
    intro b chars
    induction chars with
    | nil => rfl
    | cons c rest ih => exact ih
  cases chars with
  | nil => exact iff_of_false nofun nofun
  | cons c rest =>
    have hfirst : readLead none (c :: rest) = some (decodeChar c == 0) := hkeep _ rest
    rw [hfirst, head?_cons, Option.some.injEq, Option.some.injEq, beq_iff_eq]
    exact decodeChar_eq_zero (hchars c mem_cons_self)

theorem step_hex {c : Control} (h : isHexUnit u = true) (hnext : c.state.afterHex = some next) :
    c.step options depth u = some { c.read u next with state := next } := by
  obtain ⟨k, huk, hk⟩ := (isHexUnit_iff u).mp h
  rw [step_class huk, (tableEntry_hex hnext).trans (if_pos hk)]
  rfl

theorem accepts_char {c : List UInt16} (hc : StringChar c) :
    (⟨.ST, ms, lead, 0⟩ : Control).Accepts options depth (c ++ w) ↔
      (⟨.ST, ms, some (lead.getD (decodeChar c == 0)), 0⟩ : Control).Accepts options depth w := by
  have hback : ∀ ms lead, (⟨.ST, ms, lead, 0⟩ : Control).step options depth (unit '\\') =
      some ⟨.ES, ms, lead, 0⟩ := fun _ _ => rfl
  cases hc with
  | @unescaped u hlow hquote hbacks =>
    obtain ⟨k, huk, hk⟩ := (unescaped_iff u).mp ⟨hlow, hquote, hbacks⟩
    exact accepts_cons ((step_class huk).trans (by
      rw [show tableEntry (Control.mk .ST ms lead 0).state k = _ from hk]
      rfl))
  | @escape u hu =>
    have hclass : ∀ u ∈ units "\"\\/bfnrt", (classOf u).any
        (fun k => decide (tableEntry .ES k = .goto .ST)) = true :=
      forall_units (by decide)
    obtain ⟨k, huk, hk⟩ := Option.any_eq_true _ _ |>.mp (hclass u hu)
    refine (accepts_cons (hback ms lead)).trans (accepts_cons ?_)
    rw [step_class huk, show tableEntry (Control.mk .ES ms lead 0).state k = _ from
      of_decide_eq_true hk]
    rfl
  | @hex a b c d ha hb hc hd =>
    have hu : (⟨.ES, ms, lead, 0⟩ : Control).step options depth (unit 'u') =
        some ⟨.U1, ms, lead, 0⟩ := rfl
    exact (accepts_cons (hback ms lead)).trans ((accepts_cons hu).trans
      ((accepts_cons (step_hex ha rfl)).trans ((accepts_cons (step_hex hb rfl)).trans
      ((accepts_cons (step_hex hc rfl)).trans (accepts_cons (step_hex hd rfl))))))

theorem hex_of_accepts {c : Control} (next : State) (h : c.Accepts options depth w)
    (hnext : c.state.afterHex = some next) : ∃ (u : UInt16) (rest : List UInt16) (c' : Control),
      w = u :: rest ∧ isHexUnit u = true ∧ c'.state = next ∧ c'.Accepts options depth rest := by
  have hs : c.state ≠ .OK := by
    intro hs
    rw [hs] at hnext
    cases hnext
  obtain ⟨u, rest, k, rfl, hk, hrow⟩ := class_of_accepts h hs
  rw [tableEntry_hex hnext] at hrow
  have hhex : isHexUnit u = true :=
    (isHexUnit_iff u).mpr ⟨k, hk, by_contra fun hnot => hrow (if_neg hnot)⟩
  exact ⟨u, rest, _, rfl, hhex, rfl, (accepts_cons (step_hex hhex hnext)).mp h⟩

theorem char_of_accepts (h : (⟨.ST, ms, lead, 0⟩ : Control).Accepts options depth w) :
    (∃ r, w = unit '"' :: r) ∨ ∃ c r, StringChar c ∧ w = c ++ r := by
  have hST : ∀ k, tableEntry .ST k ≠ .error →
      k = .quote ∨ k = .backs ∨ tableEntry .ST k = .goto .ST := by decide
  have hES : ∀ k, tableEntry .ES k ≠ .error →
      k = .lowU ∨ ∃ u ∈ units "\"\\/bfnrt", classUnit k = some u := by decide
  obtain ⟨u, rest, k, rfl, hk, hrow⟩ := class_of_accepts h nofun
  rcases hST k hrow with rfl | rfl | hrow
  · exact .inl ⟨rest, by rw [eq_of_classOf hk rfl]⟩
  · cases eq_of_classOf hk rfl
    have hES' := (accepts_cons (e := ⟨.ES, ms, lead, 0⟩) rfl).mp h
    obtain ⟨v, rest, k', rfl, hk', hrow⟩ := class_of_accepts hES' nofun
    rcases hES k' hrow with rfl | ⟨v', hv, hv'⟩
    · cases eq_of_classOf hk' rfl
      have hU1 := (accepts_cons (e := ⟨.U1, ms, lead, 0⟩) rfl).mp hES'
      obtain ⟨a, rest, c₁, rfl, ha, hs, hrest⟩ := hex_of_accepts .U2 hU1 rfl
      obtain ⟨b, rest, c₂, rfl, hb, hs, hrest⟩ := hex_of_accepts .U3 hrest (by rw [hs]; rfl)
      obtain ⟨c, rest, c₃, rfl, hc, hs, hrest⟩ := hex_of_accepts .U4 hrest (by rw [hs]; rfl)
      obtain ⟨d, rest, c₄, rfl, hd, -⟩ := hex_of_accepts .ST hrest (by rw [hs]; rfl)
      exact .inr ⟨_, rest, .hex ha hb hc hd, rfl⟩
    · cases eq_of_classOf hk' hv'
      exact .inr ⟨_, rest, .escape hv, rfl⟩
  · obtain ⟨hlow, hquote, hbacks⟩ := (unescaped_iff u).mpr ⟨k, hk, hrow⟩
    exact .inr ⟨[u], rest, .unescaped hlow hquote hbacks, rfl⟩

theorem accepts_string : (⟨.ST, ms, lead, 0⟩ : Control).Accepts options depth w ↔
      ∃ chars r c', (∀ c ∈ chars, StringChar c) ∧ w = chars.flatten ++ unit '"' :: r ∧
        (⟨.ST, ms, readLead lead chars, 0⟩ : Control).act options depth (unit '"') .endString =
          some c' ∧ c'.Accepts options depth r := by
  constructor
  · intro h
    induction hlen : w.length using Nat.strong_induction_on generalizing w lead with
    | h n ih =>
      rcases char_of_accepts h with ⟨r, rfl⟩ | ⟨c, r, hc, rfl⟩
      · obtain ⟨c', hstep, hrest⟩ := h
        exact ⟨[], r, c', nofun, rfl, hstep, hrest⟩
      · have hlt : r.length < n := by
          rw [← hlen, length_append]
          cases hc <;> simp
        obtain ⟨chars, r', c', hchars, rfl, hrest⟩ := ih _ hlt ((accepts_char hc).mp h) rfl
        exact ⟨c :: chars, r', c', forall_mem_cons.mpr ⟨hc, hchars⟩, by simp, hrest⟩
  · rintro ⟨chars, r, c', hchars, rfl, hact, hrest⟩
    induction chars generalizing lead with
    | nil =>
      have hstep : (⟨.ST, ms, lead, 0⟩ : Control).step options depth (unit '"') = some c' := hact
      exact (accepts_cons hstep).mpr hrest
    | cons c rest ih =>
      obtain ⟨hc, hchars⟩ := forall_mem_cons.mp hchars
      rw [flatten_cons, append_assoc]
      exact (accepts_char hc).mpr (ih hchars hact)

end Strings

section Scalars

variable {options : DecodeOptions} {depth : Nat} {s next : State} {ms : List Mode} {u : UInt16}
  {k : CharClass} {v w r : List UInt16}

/-- The units whose class has only one are read as that one. -/
def literalSteps : List (State × CharClass × State) :=
  [(.T1, .lowR, .T2), (.T2, .lowU, .T3), (.T3, .lowE, .OK),
    (.F1, .lowA, .F2), (.F2, .lowL, .F3), (.F3, .lowS, .F4), (.F4, .lowE, .OK),
    (.N1, .lowU, .N2), (.N2, .lowL, .N3), (.N3, .lowL, .OK)]

theorem accepted_letter {t : State} {l : List UInt16} (h : (s, k, t) ∈ literalSteps)
    (hu : classUnit k = some u) (hnext : ∀ w, Accepted options depth t ms w ↔
      ∃ r, w = l ++ r ∧ Accepted options depth .OK ms r) (w : List UInt16) :
    Accepted options depth s ms w ↔ ∃ r, w = u :: l ++ r ∧ Accepted options depth .OK ms r := by
  have hrow : ∀ step ∈ literalSteps, step.1.quoted = false ∧ step.1 ≠ .OK ∧
      (classUnit step.2.1).bind classOf = some step.2.1 ∧
      ∀ k, tableEntry step.1 k = if k = step.2.1 then .goto step.2.2 else .error := by decide
  obtain ⟨hquoted, hOK, hk, hrow⟩ := hrow _ h
  simp only [hu, Option.bind_some] at hk
  have hgoto := fun w => @accepted_goto options depth s t ms u k w hk
    (by rw [hrow, if_pos rfl]) hquoted
  constructor
  · intro hw
    obtain ⟨v, rest, k', rfl, hk', hrow'⟩ := class_of_accepts hw hOK
    have heq : k' = k := by_contra fun hne => hrow' ((hrow k').trans (if_neg hne))
    cases heq
    cases eq_of_classOf hk' hu
    obtain ⟨r, rfl, hr⟩ := (hnext rest).mp ((hgoto rest).mp hw)
    exact ⟨r, rfl, hr⟩
  · rintro ⟨r, rfl, hr⟩
    exact (hgoto _).mpr ((hnext _).mpr ⟨r, rfl, hr⟩)

theorem accepted_literal (w : List UInt16) :
    (Accepted options depth .T1 ms w ↔
      ∃ r, w = units "rue" ++ r ∧ Accepted options depth .OK ms r) ∧
    (Accepted options depth .F1 ms w ↔
      ∃ r, w = units "alse" ++ r ∧ Accepted options depth .OK ms r) ∧
    (Accepted options depth .N1 ms w ↔
      ∃ r, w = units "ull" ++ r ∧ Accepted options depth .OK ms r) := by
  have hdone : ∀ w, Accepted options depth .OK ms w ↔
      ∃ r, w = [] ++ r ∧ Accepted options depth .OK ms r := by simp
  refine ⟨?_, ?_, ?_⟩
  · exact accepted_letter (k := .lowR) (t := .T2) (by decide) rfl
      (accepted_letter (k := .lowU) (t := .T3) (by decide) rfl
      (accepted_letter (k := .lowE) (by decide) rfl hdone)) w
  · exact accepted_letter (k := .lowA) (t := .F2) (by decide) rfl
      (accepted_letter (k := .lowL) (t := .F3) (by decide) rfl
      (accepted_letter (k := .lowS) (t := .F4) (by decide) rfl
      (accepted_letter (k := .lowE) (by decide) rfl hdone))) w
  · exact accepted_letter (k := .lowU) (t := .N2) (by decide) rfl
      (accepted_letter (k := .lowL) (t := .N3) (by decide) rfl
      (accepted_letter (k := .lowL) (by decide) rfl hdone)) w

/-- The moves within a number. -/
def NumberStep (s : State) (k : CharClass) (next : State) : Prop :=
  (s = .MI ∧ k = .zero ∧ next = .ZE) ∨ (s = .MI ∧ k = .digit ∧ next = .IN) ∨
    ((s = .ZE ∨ s = .IN) ∧ k = .point ∧ next = .FR) ∨
    ((s = .IN ∨ s = .FR ∨ s = .E3) ∧ (k = .zero ∨ k = .digit) ∧ next = s) ∨
    ((s = .ZE ∨ s = .IN ∨ s = .FR) ∧ (k = .lowE ∨ k = .e) ∧ next = .E1) ∨
    (s = .E1 ∧ (k = .plus ∨ k = .minus) ∧ next = .E2) ∨
    ((s = .E1 ∨ s = .E2) ∧ (k = .zero ∨ k = .digit) ∧ next = .E3)

instance (s : State) (k : CharClass) (next : State) : Decidable (NumberStep s k next) := by
  unfold NumberStep
  infer_instance

/-- The rests of a number behind the digits of its integer part. -/
def Fraction (d : Dialect) (v : List UInt16) : Prop :=
  ∃ frac exp, FracPart d frac ∧ ExpPart exp ∧ v = frac ++ exp

/-- The rests of a number in a state. -/
def NumRest (d : Dialect) (v : List UInt16) : State → Prop
  | .MI => ∃ int rest, IntPart int ∧ Fraction d rest ∧ v = int ++ rest
  | .ZE => Fraction d v
  | .IN => ∃ digits rest, Digits digits ∧ Fraction d rest ∧ v = digits ++ rest
  | .FR => ∃ digits exp, Digits digits ∧ ExpPart exp ∧ v = digits ++ exp
  | .E1 => ∃ sign digits, (sign = [] ∨ sign = [unit '+'] ∨ sign = [unit '-']) ∧
      Digits digits ∧ digits ≠ [] ∧ v = sign ++ digits
  | .E2 => Digits v ∧ v ≠ []
  | .E3 => Digits v
  | _ => False

variable {d : Dialect}

theorem digitUnit_of_class (hu : classOf u = some k) (hk : k = .zero ∨ k = .digit) :
    isDigitUnit u = true := by
  rw [isDigitUnit_iff]
  rcases hk with rfl | rfl
  · exact .inl hu
  · exact .inr hu

theorem intPart_of_digit (hu : classOf u = some .digit) (hv : Digits v) : IntPart (u :: v) := by
  refine .more (digitUnit_of_class hu (.inr rfl)) ?_ hv
  rintro rfl
  cases hu

theorem numRest_step (hd : d.bareFraction = true) (hu : classOf u = some k)
    (h : NumberStep s k next) (hv : NumRest d v next) : NumRest d (u :: v) s := by
  have hdigit := fun hk => digitUnit_of_class hu hk
  rcases h with ⟨rfl, rfl, rfl⟩ | ⟨rfl, rfl, rfl⟩ | ⟨hs, rfl, rfl⟩ | ⟨hs, hk, rfl⟩ | ⟨hs, hk, rfl⟩ |
    ⟨rfl, hk, rfl⟩ | ⟨hs, hk, rfl⟩
  · cases eq_of_classOf hu rfl
    exact ⟨_, v, .zero, hv, rfl⟩
  · obtain ⟨digits, rest, hdigits, hrest, rfl⟩ := hv
    exact ⟨_, rest, intPart_of_digit hu hdigits, hrest, rfl⟩
  · obtain ⟨digits, exp, hdigits, hexp, rfl⟩ := hv
    cases eq_of_classOf hu rfl
    have hfrac : Fraction d (unit '.' :: (digits ++ exp)) :=
      ⟨_, exp, .some hdigits fun _ => hd, hexp, rfl⟩
    rcases hs with rfl | rfl
    · exact hfrac
    · exact ⟨[], _, nofun, hfrac, rfl⟩
  · rcases hs with rfl | rfl | rfl
    · obtain ⟨digits, rest, hdigits, hrest⟩ := hv
      exact ⟨u :: digits, rest, forall_mem_cons.mpr ⟨hdigit hk, hdigits⟩, hrest.1,
        congrArg (u :: ·) hrest.2⟩
    · obtain ⟨digits, exp, hdigits, hexp⟩ := hv
      exact ⟨u :: digits, exp, forall_mem_cons.mpr ⟨hdigit hk, hdigits⟩, hexp.1,
        congrArg (u :: ·) hexp.2⟩
    · exact forall_mem_cons.mpr ⟨hdigit hk, hv⟩
  · obtain ⟨sign, digits, hsign, hdigits, hne, rfl⟩ := hv
    have he : u = unit 'e' ∨ u = unit 'E' :=
      hk.imp (fun hk => eq_of_classOf (hk ▸ hu) rfl) fun hk => eq_of_classOf (hk ▸ hu) rfl
    have hexp := ExpPart.some he hsign hdigits hne
    rcases hs with rfl | rfl | rfl
    · exact ⟨[], _, .none, hexp, rfl⟩
    · exact ⟨[], _, nofun, ⟨[], _, .none, hexp, rfl⟩, rfl⟩
    · exact ⟨[], _, nofun, hexp, rfl⟩
  · refine ⟨[u], v, .inr (hk.imp ?_ ?_), hv.1, hv.2, rfl⟩
    · rintro rfl
      rw [eq_of_classOf hu rfl]
    · rintro rfl
      rw [eq_of_classOf hu rfl]
  · have hdigits : Digits (u :: v) := forall_mem_cons.mpr ⟨hdigit hk, hv⟩
    rcases hs with rfl | rfl
    · exact ⟨[], _, .inl rfl, hdigits, nofun, rfl⟩
    · exact ⟨hdigits, nofun⟩

/-- The states in which a number is read. -/
def State.inNumber : State → Bool
  | .MI | .ZE | .IN | .FR | .E1 | .E2 | .E3 => true
  | _ => false

/-- Outside the strings only the row of the table counts. -/
theorem step_row {t : State} (hs : s.quoted = false) (ht : t.quoted = false)
    (hrow : tableEntry s k = tableEntry t k) (hu : classOf u = some k) :
    (plain s ms).step options depth u = (plain t ms).step options depth u := by
  rw [step_class hu, step_class hu, show (plain s ms).state = s from rfl, hrow]
  cases hentry : tableEntry (plain t ms).state k with
  | goto next =>
    rw [show tableEntry t k = _ from hentry, Control.act, Control.act, read_outside hs,
      read_outside ht]
    rfl
  | _ =>
    rw [show tableEntry t k = _ from hentry]
    rfl

theorem complete_quoted (hs : s.complete = true) : s.quoted = false := by
  cases s <;> first | rfl | cases hs

theorem numRest_of_accepted (hd : d.bareFraction = true) (hs : s.inNumber = true)
    (h : Accepted options depth s ms w) :
    ∃ v r, w = v ++ r ∧ NumRest d v s ∧ Accepted options depth .OK ms r := by
  have htable : ∀ s k, s.inNumber = true → tableEntry s k = .error ∨
      (s.complete = true ∧ tableEntry s k = tableEntry .OK k) ∨
      ∃ next ∈ State.all, next.inNumber = true ∧ tableEntry s k = .goto next ∧
        NumberStep s k next := by
    decide
  induction w generalizing s with
  | nil =>
    have hOK : s = .OK := h.1
    rw [hOK] at hs
    cases hs
  | cons u rest ih =>
    obtain ⟨c', hstep, hrest⟩ := h
    obtain ⟨k, hk, hact⟩ := Option.bind_eq_some_iff.mp hstep
    rcases htable s k hs with hrow | ⟨hcomplete, hrow⟩ | ⟨next, -, hnext, hrow, hmove⟩
    · rw [show tableEntry (plain s ms).state k = _ from hrow] at hact
      cases hact
    · refine ⟨[], u :: rest, rfl, ?_, c', ?_, hrest⟩
      rotate_left
      · exact (step_row (complete_quoted hcomplete) rfl hrow hk).symm.trans hstep
      have hempty : Fraction d [] := ⟨[], [], .none, .none, rfl⟩
      cases s with
      | ZE => exact hempty
      | IN => exact ⟨[], [], nofun, hempty, rfl⟩
      | FR => exact ⟨[], [], nofun, .none, rfl⟩
      | E3 => exact nofun
      | _ => contradiction
    · have hquoted : s.quoted = false := by
        cases s <;> first | rfl | cases hs
      have hnextw := (accepted_goto hk hrow hquoted).mp ⟨c', hstep, hrest⟩
      obtain ⟨v, r, rfl, hv, hr⟩ := ih hnext hnextw
      exact ⟨u :: v, r, rfl, numRest_step hd hk hmove hv, hr⟩

theorem number_of_numRest (hu : classOf u = some k) (hv : NumRest d v next)
    (hmove : (k, next) ∈ [(.minus, .MI), (.zero, .ZE), (.digit, .IN)]) : Number d (u :: v) := by
  simp only [mem_cons, Prod.mk.injEq, not_mem_nil, or_false] at hmove
  rcases hmove with ⟨rfl, rfl⟩ | ⟨rfl, rfl⟩ | ⟨rfl, rfl⟩
  · obtain ⟨int, rest, hint, ⟨frac, exp, hfrac, hexp, rfl⟩, rfl⟩ := hv
    cases eq_of_classOf hu rfl
    simpa using Number.mk (.inr rfl) hint hfrac hexp
  · obtain ⟨frac, exp, hfrac, hexp, rfl⟩ := hv
    cases eq_of_classOf hu rfl
    simpa using Number.mk (.inl rfl) .zero hfrac hexp
  · obtain ⟨digits, rest, hdigits, ⟨frac, exp, hfrac, hexp, rfl⟩, rfl⟩ := hv
    simpa using Number.mk (.inl rfl) (intPart_of_digit hu hdigits) hfrac hexp

section Completeness

variable (hms : ms.head? ≠ some .done) (hr : Accepted options depth .OK ms r)
include hms hr

theorem accepted_complete (hs : s.complete = true) : Accepted options depth s ms r := by
  have htable : ∀ s k, s.complete = true → tableEntry .OK k = .error ∨
      tableEntry s k = tableEntry .OK k := by decide
  cases r with
  | nil => exact absurd hr.2 hms
  | cons u rest =>
    obtain ⟨c', hstep, hrest⟩ := hr
    obtain ⟨k, hk, hact⟩ := Option.bind_eq_some_iff.mp hstep
    rcases htable s k hs with hrow | hrow
    · rw [show tableEntry (plain .OK ms).state k = _ from hrow] at hact
      cases hact
    · exact ⟨c', (step_row (complete_quoted hs) rfl hrow hk).trans hstep, hrest⟩

omit hms hr in
theorem accepted_digits (hs : s = .IN ∨ s = .FR ∨ s = .E3) (hv : Digits v) :
    Accepted options depth s ms (v ++ w) ↔ Accepted options depth s ms w := by
  induction v with
  | nil => rfl
  | cons u rest ih =>
    obtain ⟨hu, hrest⟩ := forall_mem_cons.mp hv
    refine Iff.trans ?_ (ih hrest)
    rcases (isDigitUnit_iff u).mp hu with hk | hk <;>
      exact accepted_goto hk (by rcases hs with rfl | rfl | rfl <;> rfl)
        (by rcases hs with rfl | rfl | rfl <;> rfl)

theorem accepted_exp (hs : s = .ZE ∨ s = .IN ∨ s = .FR) (hv : ExpPart v) :
    Accepted options depth s ms (v ++ r) := by
  cases hv with
  | none => exact accepted_complete hms hr (by rcases hs with rfl | rfl | rfl <;> rfl)
  | @some e sign digits he hsign hdigits hne =>
    have hexponent : ∀ s, s = .E1 ∨ s = .E2 → Accepted options depth s ms (digits ++ r) := by
      intro s hs
      cases digits with
      | nil => exact absurd rfl hne
      | cons u rest =>
        obtain ⟨hu, hrest⟩ := forall_mem_cons.mp hdigits
        have hE3 := (accepted_digits (.inr (.inr rfl)) hrest).mpr (accepted_complete hms hr rfl)
        rcases (isDigitUnit_iff u).mp hu with hk | hk <;> rcases hs with rfl | rfl <;>
          exact (accepted_goto hk rfl rfl).mpr hE3
    have hE1 : Accepted options depth .E1 ms (sign ++ digits ++ r) := by
      rcases hsign with rfl | rfl | rfl
      · exact hexponent _ (.inl rfl)
      · exact (accepted_goto (k := .plus) rfl rfl rfl).mpr (hexponent _ (.inr rfl))
      · exact (accepted_goto (k := .minus) rfl rfl rfl).mpr (hexponent _ (.inr rfl))
    rcases he with rfl | rfl
    · rcases hs with rfl | rfl | rfl <;> exact (accepted_goto (k := .lowE) rfl rfl rfl).mpr hE1
    · rcases hs with rfl | rfl | rfl <;> exact (accepted_goto (k := .e) rfl rfl rfl).mpr hE1

theorem accepted_fraction (hs : s = .ZE ∨ s = .IN) (hv : Fraction d v) :
    Accepted options depth s ms (v ++ r) := by
  obtain ⟨frac, exp, hfrac, hexp, rfl⟩ := hv
  rw [append_assoc]
  cases hfrac with
  | none =>
    rw [nil_append]
    exact accepted_exp hms hr (hs.imp id .inl) hexp
  | some hdigits hbare =>
    have hFR := (accepted_digits (.inr (.inl rfl)) hdigits).mpr
      (accepted_exp hms hr (.inr (.inr rfl)) hexp)
    rcases hs with rfl | rfl <;> exact (accepted_goto (k := .point) rfl rfl rfl).mpr hFR

theorem accepted_number (hs : s = .VA ∨ s = .AR) (hv : Number d v) :
    Accepted options depth s ms (v ++ r) := by
  obtain @⟨minus, int, frac, exp, hminus, hint, hfrac, hexp⟩ := hv
  have hfraction : Fraction d (frac ++ exp) := ⟨frac, exp, hfrac, hexp, rfl⟩
  have hint : ∀ s, s = .VA ∨ s = .AR ∨ s = .MI →
      Accepted options depth s ms (int ++ (frac ++ exp ++ r)) := by
    intro s hs
    cases hint with
    | zero =>
      have hZE := accepted_fraction hms hr (.inl rfl) hfraction
      rcases hs with rfl | rfl | rfl <;> exact (accepted_goto (k := .zero) rfl rfl rfl).mpr hZE
    | @more first rest hfirst hne hrest =>
      have hIN := (accepted_digits (.inl rfl) hrest).mpr
        (accepted_fraction hms hr (.inr rfl) hfraction)
      have hk : classOf first = some .digit := by
        rcases (isDigitUnit_iff first).mp hfirst with hk | hk
        · exact absurd (eq_of_classOf hk rfl) hne
        · exact hk
      rcases hs with rfl | rfl | rfl <;> exact (accepted_goto hk rfl rfl).mpr hIN
  have htext : minus ++ int ++ frac ++ exp ++ r = minus ++ (int ++ (frac ++ exp ++ r)) := by simp
  rw [htext]
  rcases hminus with rfl | rfl
  · exact hint s (hs.imp id .inl)
  · have hMI := hint .MI (.inr (.inr rfl))
    rcases hs with rfl | rfl <;> exact (accepted_goto (k := .minus) rfl rfl rfl).mpr hMI

end Completeness

end Scalars

section Structure

variable {options : DecodeOptions} {depth n : Nat} {s next : State} {ms : List Mode} {u : UInt16}
  {v w r : List UInt16}

def InContainer (ms : List Mode) : Prop :=
  ms.head? = some .array ∨ ms.head? = some .object

theorem not_done (h : InContainer ms) : ms.head? ≠ some .done := by
  rcases h with h | h <;> rw [h] <;> nofun

/-- The states in which an array or object can begin. -/
def State.opens : State → Bool
  | .GO | .VA | .AR => true
  | _ => false

theorem opens_between (h : s.opens = true) : s.between = true := by
  cases s <;> first | rfl | cases h

theorem act_endString {lead : Option Bool} (hms : ms.head? ≠ some .key) (hne : ms ≠ []) :
    (⟨.ST, ms, lead, 0⟩ : Control).act options depth u .endString = some (plain .OK ms) := by
  cases ms with
  | nil => exact absurd rfl hne
  | cons top ms => cases top <;> first | rfl | exact absurd rfl hms

theorem accepted_string (hs : s.opens = true) (hms : ms.head? ≠ some .key) (hne : ms ≠ [])
    (hv : IsString v) (hr : Accepted options depth .OK ms r) :
    Accepted options depth s ms (v ++ r) := by
  obtain ⟨chars, hchars, rfl⟩ := hv
  have hrest : Accepted options depth .ST ms (chars.flatten ++ unit '"' :: r) := by
    exact accepts_string.mpr ⟨chars, r, _, hchars, rfl, act_endString hms hne, hr⟩
  have htext : quoted chars ++ r = unit '"' :: (chars.flatten ++ unit '"' :: r) := by
    simp [quoted]
  rw [htext]
  refine (accepted_goto (k := .quote) rfl ?_ ?_).mpr hrest
  · cases s <;> first | rfl | cases hs
  · cases s <;> first | rfl | cases hs

theorem accepted_name {name b : List UInt16} (hs : s = .OB ∨ s = .KE)
    (hname : Name (parserDialect options) name) (hb : Ws b)
    (hr : Accepted options depth .VA (.object :: ms) r) :
    Accepted options depth s (.key :: ms) (name ++ b ++ unit ':' :: r) := by
  obtain ⟨chars, hchars, rfl, hnul⟩ := hname
  have hlead : options.objectAsArray = true ∨ readLead none chars ≠ some true := by
    by_cases hfirst : chars.head? = some nulEscape
    · exact .inl (hnul hfirst)
    · exact .inr fun h => hfirst ((readLead_nul hchars).mp h)
  have hcolon : (⟨.CO, .key :: ms, readLead none chars, 0⟩ : Control).Accepts options depth
      (b ++ unit ':' :: r) := by
    have hstep : (⟨.CO, .key :: ms, readLead none chars, 0⟩ : Control).step options depth
        (unit ':') = some (plain .VA (.object :: ms)) := if_pos ⟨rfl, hlead⟩
    exact (accepts_ws rfl hb).mpr ((accepts_cons hstep).mpr hr)
  have hrest : Accepted options depth .ST (.key :: ms)
      (chars.flatten ++ unit '"' :: (b ++ unit ':' :: r)) :=
    accepts_string.mpr ⟨chars, _, _, hchars, rfl, rfl, hcolon⟩
  have htext : quoted chars ++ b ++ unit ':' :: r =
      unit '"' :: (chars.flatten ++ unit '"' :: (b ++ unit ':' :: r)) := by
    simp [quoted]
  rw [htext]
  rcases hs with rfl | rfl <;> exact (accepted_goto (k := .quote) rfl rfl rfl).mpr hrest

theorem accepted_open {m : Mode} {t : State} (hs : s.opens = true)
    (hm : (u, m, t) ∈ [(unit '[', Mode.array, State.AR), (unit '\x7b', .key, .OB)]) :
    Accepted options depth s ms (u :: w) ↔
      ms.length < depth ∧ Accepted options depth t (m :: ms) w := by
  simp only [mem_cons, Prod.mk.injEq, not_mem_nil, or_false] at hm
  have hstep : (plain s ms).step options depth u = (plain s ms).opened depth t m := by
    rcases hm with ⟨rfl, rfl, rfl⟩ | ⟨rfl, rfl, rfl⟩ <;> cases s <;> first | rfl | cases hs
  unfold Control.opened at hstep
  split at hstep
  next hlt => exact (accepts_cons hstep).trans (iff_and_self.mpr fun _ => hlt)
  next hlt => exact iff_of_false (fun ⟨_, h, _⟩ => by cases hstep.symm.trans h) fun h => hlt h.1

/-- What it means that the control reads the texts of a nonterminal. -/
def Reads (options : DecodeOptions) (depth : Nat) : Symbol → Nat → List UInt16 → Prop
  | .array, n, w | .object, n, w => ∀ s ms r, s.opens = true → n + ms.length ≤ depth →
      Accepted options depth .OK ms r → Accepted options depth s ms (w ++ r)
  | .value, n, w | .element, n, w => ∀ s ms r, s = .VA ∨ s = .AR → InContainer ms →
      n + ms.length ≤ depth → Accepted options depth .OK ms r →
      Accepted options depth s ms (w ++ r)
  | .elements, n, w => ∀ s ms r, s = .VA ∨ s = .AR → n + ms.length < depth →
      Accepted options depth .OK (.array :: ms) r → Accepted options depth s (.array :: ms) (w ++ r)
  | .member, n, w | .members, n, w => ∀ s ms r, s = .OB ∨ s = .KE → n + ms.length < depth →
      Accepted options depth .OK (.object :: ms) r → Accepted options depth s (.key :: ms) (w ++ r)

theorem reads_of_gen {symbol : Symbol} (h : Gen (parserDialect options) symbol n w) :
    Reads options depth symbol n w := by
  have hopens : ∀ {s : State}, s = .VA ∨ s = .AR → s.opens = true := by
    rintro s (rfl | rfl) <;> rfl
  induction h with
  | literal hw =>
    intro s ms r hs hms hn hr
    rcases hw with rfl | rfl | rfl
    · have hrest := (accepted_literal _).1.mpr ⟨r, rfl, hr⟩
      rcases hs with rfl | rfl <;> exact (accepted_goto (k := .lowT) rfl rfl rfl).mpr hrest
    · have hrest := (accepted_literal _).2.1.mpr ⟨r, rfl, hr⟩
      rcases hs with rfl | rfl <;> exact (accepted_goto (k := .lowF) rfl rfl rfl).mpr hrest
    · have hrest := (accepted_literal _).2.2.mpr ⟨r, rfl, hr⟩
      rcases hs with rfl | rfl <;> exact (accepted_goto (k := .lowN) rfl rfl rfl).mpr hrest
  | number hw =>
    intro s ms r hs hms hn hr
    exact accepted_number (not_done hms) hr hs hw
  | string hw =>
    intro s ms r hs hms hn hr
    refine accepted_string (hopens hs) ?_ ?_ hw hr
    · rcases hms with h | h <;> rw [h] <;> nofun
    · rintro rfl
      rcases hms with h | h <;> cases h
  | ofArray _ ih =>
    intro s ms r hs hms hn hr
    exact ih s ms r (hopens hs) hn hr
  | ofObject _ ih =>
    intro s ms r hs hms hn hr
    exact ih s ms r (hopens hs) hn hr
  | emptyArray ha =>
    intro s ms r hs hn hr
    rw [cons_append, append_assoc]
    refine (accepted_open (m := .array) (t := .AR) hs (by decide)).mpr
      ⟨by omega, (accepts_ws rfl ha).mpr ?_⟩
    exact (accepts_cons rfl).mpr hr
  | array _ ih =>
    intro s ms r hs hn hr
    rw [cons_append, append_assoc]
    refine (accepted_open (m := .array) (t := .AR) hs (by decide)).mpr
      ⟨by omega, ih _ ms _ (.inr rfl) (by omega) ?_⟩
    exact (accepts_cons rfl).mpr hr
  | emptyObject ha =>
    intro s ms r hs hn hr
    rw [cons_append, append_assoc]
    refine (accepted_open (m := .key) (t := .OB) hs (by decide)).mpr
      ⟨by omega, (accepts_ws rfl ha).mpr ?_⟩
    exact (accepts_cons rfl).mpr hr
  | object _ ih =>
    intro s ms r hs hn hr
    rw [cons_append, append_assoc]
    refine (accepted_open (m := .key) (t := .OB) hs (by decide)).mpr
      ⟨by omega, ih _ ms _ (.inl rfl) (by omega) ?_⟩
    exact (accepts_cons rfl).mpr hr
  | element ha _ hb ih =>
    intro s ms r hs hms hn hr
    rw [append_assoc, append_assoc]
    refine (accepts_ws (opens_between (hopens hs)) ha).mpr (ih s ms _ hs hms hn ?_)
    exact (accepts_ws rfl hb).mpr hr
  | oneElement _ ih =>
    intro s ms r hs hn hr
    exact ih s _ r hs (.inl rfl) hn hr
  | moreElements _ _ ihv ihw =>
    intro s ms r hs hn hr
    rw [append_assoc]
    refine ihv s ms _ hs hn ((accepts_cons rfl).mpr ?_)
    exact ihw _ _ r (.inl rfl) (.inl rfl) hn hr
  | member ha hname hb _ ih =>
    intro s ms r hs hn hr
    have hvalue := ih .VA (.object :: ms) r (.inl rfl) (.inr rfl) hn hr
    rw [append_assoc, append_assoc, append_assoc]
    refine (accepts_ws (by rcases hs with rfl | rfl <;> rfl) ha).mpr ?_
    have h := accepted_name hs hname hb hvalue
    rwa [append_assoc] at h
  | oneMember _ ih => exact ih
  | moreMembers _ _ ihv ihw =>
    intro s ms r hs hn hr
    rw [append_assoc]
    refine ihv s ms _ hs hn ((accepts_cons rfl).mpr ?_)
    exact ihw _ ms r (.inr rfl) hn hr

/-- A part of the text has been derived, and the rest is accepted behind a
value. -/
def Splits (options : DecodeOptions) (depth : Nat) (P : List UInt16 → Prop) (ms : List Mode)
    (w : List UInt16) : Prop :=
  ∃ v r, P v ∧ w = v ++ r ∧ Accepted options depth .OK ms r

/-- How the containers that are open end: the parts of the text that complete them. -/
structure Sound (options : DecodeOptions) (depth : Nat) (w : List UInt16) : Prop where
  array : ∀ ms, ms.length < depth → Accepted options depth .AR (.array :: ms) w →
    Splits options depth (fun v => Gen (parserDialect options) .array (depth - ms.length)
      (unit '[' :: v)) ms w
  object : ∀ ms, ms.length < depth → Accepted options depth .OB (.key :: ms) w →
    Splits options depth (fun v => Gen (parserDialect options) .object (depth - ms.length)
      (unit '\x7b' :: v)) ms w

/-- The values that can begin in a state. -/
def Value (options : DecodeOptions) (n : Nat) (s : State) (v : List UInt16) : Prop :=
  Gen (parserDialect options) .array n v ∨ Gen (parserDialect options) .object n v ∨
    IsString v ∨ (s ≠ .GO ∧ Gen (parserDialect options) .value n v)

/-- The first character of a number or literal. -/
def CharClass.starts : CharClass → Option State
  | .minus => some .MI
  | .zero => some .ZE
  | .digit => some .IN
  | .lowF => some .F1
  | .lowN => some .N1
  | .lowT => some .T1
  | _ => none

theorem splits_scalar (n : Nat) {k : CharClass} (hu : classOf u = some k)
    (hk : k.starts = some next) (h : Accepted options depth next ms w) :
    ∃ v r, w = v ++ r ∧ Gen (parserDialect options) .value n (u :: v) ∧
      Accepted options depth .OK ms r := by
  have hnumber : (k, next) ∈ [(.minus, .MI), (.zero, .ZE), (.digit, .IN)] →
      next.inNumber = true → ∃ v r, w = v ++ r ∧ Gen (parserDialect options) .value n (u :: v) ∧
        Accepted options depth .OK ms r := by
    intro hmove hin
    obtain ⟨v, r, rfl, hv, hr⟩ := numRest_of_accepted (d := parserDialect options) rfl hin h
    exact ⟨v, r, rfl, .number (number_of_numRest hu hv hmove), hr⟩
  cases k <;> cases hk
  · exact hnumber (by decide) rfl
  · exact hnumber (by decide) rfl
  · exact hnumber (by decide) rfl
  · obtain ⟨r, rfl, hr⟩ := (accepted_literal w).2.1.mp h
    cases eq_of_classOf hu rfl
    exact ⟨_, r, rfl, .literal (.inr (.inl rfl)), hr⟩
  · obtain ⟨r, rfl, hr⟩ := (accepted_literal w).2.2.mp h
    cases eq_of_classOf hu rfl
    exact ⟨_, r, rfl, .literal (.inr (.inr rfl)), hr⟩
  · obtain ⟨r, rfl, hr⟩ := (accepted_literal w).1.mp h
    cases eq_of_classOf hu rfl
    exact ⟨_, r, rfl, .literal (.inl rfl), hr⟩

/-- A value that begins with the unit `u`. -/
theorem splits_value {k : CharClass} (ih : Sound options depth w) (hs : s = .GO ∨ s = .VA)
    (hms : ms.head? ≠ some .key) (hne : ms ≠ []) (hk : classOf u = some k) (hws : k.isWs = false)
    (hrow : tableEntry s k ≠ .error) (h : Accepted options depth s ms (u :: w)) :
    Splits options depth (fun v => Value options (depth - ms.length) s (u :: v)) ms w := by
  have htable : ∀ s k, s = .GO ∨ s = .VA → k.isWs = false → tableEntry s k ≠ .error →
      k = .lsqrb ∨ k = .lcurb ∨ k = .quote ∨
        (s ≠ .GO ∧ k.starts.isSome ∧ tableEntry s k = .goto (k.starts.getD .GO)) := by
    decide
  have hopens : s.opens = true := by
    rcases hs with rfl | rfl <;> rfl
  have hquoted := between_quoted (opens_between hopens)
  rcases htable s k hs hws hrow with rfl | rfl | rfl | ⟨hGO, hstart, hrow⟩
  · cases eq_of_classOf hk rfl
    obtain ⟨hlt, hw⟩ := (accepted_open (m := .array) (t := .AR) hopens (by decide)).mp h
    obtain ⟨v, r, hv, rfl, hr⟩ := ih.array ms hlt hw
    exact ⟨v, r, .inl hv, rfl, hr⟩
  · cases eq_of_classOf hk rfl
    obtain ⟨hlt, hw⟩ := (accepted_open (m := .key) (t := .OB) hopens (by decide)).mp h
    obtain ⟨v, r, hv, rfl, hr⟩ := ih.object ms hlt hw
    exact ⟨v, r, .inr (.inl hv), rfl, hr⟩
  · cases eq_of_classOf hk rfl
    have hST := (accepted_goto hk (by rcases hs with rfl | rfl <;> rfl) hquoted).mp h
    obtain ⟨chars, r, c₂, hchars, rfl, hend, hr⟩ := accepts_string.mp hST
    cases (act_endString hms hne).symm.trans hend
    exact ⟨_, r, .inr (.inr (.inl ⟨chars, hchars, rfl⟩)), by simp, hr⟩
  · obtain ⟨next, hnext⟩ := Option.isSome_iff_exists.mp hstart
    rw [hnext] at hrow
    obtain ⟨v, r, rfl, hv, hr⟩ := splits_scalar (depth - ms.length) hk hnext
      ((accepted_goto hk hrow hquoted).mp h)
    exact ⟨v, r, .inr (.inr (.inr ⟨hGO, hv⟩)), rfl, hr⟩

/-- An item of a container with the whitespace around it. -/
def Items (options : DecodeOptions) (depth : Nat) (P : List UInt16 → Prop) (ms : List Mode)
    (w : List UInt16) : Prop :=
  ∃ v r, P v ∧ w = v ++ r ∧ Accepted options depth .OK ms r ∧ NoWs r

theorem items_element (ih : ∀ w', w'.length < w.length → Sound options depth w')
    (hms : InContainer ms) (h : Accepted options depth .VA ms w) :
    Items options depth (Gen (parserDialect options) .element (depth - ms.length)) ms w := by
  obtain ⟨a, u, rest, k, ha, rfl, hk, hws, hrow, hw⟩ := token_of_accepts rfl h
  have hkey : ms.head? ≠ some .key := by
    rcases hms with h | h <;> rw [h] <;> nofun
  have hne : ms ≠ [] := by
    rintro rfl
    rcases hms with h | h <;> cases h
  obtain ⟨v, r, hv, rfl, hrest⟩ := splits_value (ih rest (by simp; omega)) (.inr rfl) hkey hne hk
    hws hrow hw
  have hvalue : Gen (parserDialect options) .value (depth - ms.length) (u :: v) := by
    rcases hv with hv | hv | hv | hv
    · exact .ofArray hv
    · exact .ofObject hv
    · exact .string hv
    · exact hv.2
  obtain ⟨b, r, hb, rfl, hnot⟩ := ws_split r
  exact ⟨_, r, .element ha hvalue hb, by simp, (accepts_ws rfl hb).mp hrest, hnot⟩

theorem items_member (ih : ∀ w', w'.length < w.length → Sound options depth w')
    (h : Accepted options depth .KE (.key :: ms) w) :
    Items options depth (Gen (parserDialect options) .member (depth - (ms.length + 1)))
      (.object :: ms) w := by
  have hKE : ∀ k : CharClass, k.isWs = false → tableEntry .KE k ≠ .error → k = .quote := by decide
  have hCO : ∀ k : CharClass, k.isWs = false → tableEntry .CO k ≠ .error → k = .colon := by decide
  obtain ⟨a, u, rest, k, ha, rfl, hk, hws, hrow, hw⟩ := token_of_accepts rfl h
  cases hKE k hws hrow
  cases eq_of_classOf hk rfl
  obtain ⟨chars, r, c₂, hchars, rfl, hend, hname⟩ :=
    accepts_string.mp ((accepted_goto (s := .KE) hk rfl rfl).mp hw)
  cases hend
  obtain ⟨b, u, rest, k, hb, rfl, hk, hws, hrow, hw⟩ := token_of_accepts rfl hname
  cases hCO k hws hrow
  cases eq_of_classOf hk rfl
  by_cases hlead : options.objectAsArray = true ∨ readLead none chars ≠ some true
  · have hstep : (⟨.CO, .key :: ms, readLead none chars, 0⟩ : Control).step options depth
        (unit ':') = some (plain .VA (.object :: ms)) := if_pos ⟨rfl, hlead⟩
    obtain ⟨v, r, hv, rfl, hr, hnot⟩ := items_element
      (fun w' hlt => ih w' (by simp at hlt ⊢; omega)) (.inr rfl) ((accepts_cons hstep).mp hw)
    have hnul : chars.head? = some nulEscape → (parserDialect options).nulNames = true :=
      fun hfirst => hlead.resolve_right fun hne => hne ((readLead_nul hchars).mpr hfirst)
    refine ⟨_, r, .member ha ⟨chars, hchars, rfl, hnul⟩ hb hv, ?_, hr, hnot⟩
    simp [quoted]
  · obtain ⟨c', hstep, -⟩ := hw
    cases (if_neg fun h => hlead h.2).symm.trans hstep

section Containers

variable {Item Many : List UInt16 → Prop} {first next : State} {inner outer : List Mode}
  {close : UInt16} {bound : Nat}
  (hmore : ∀ v w, Many v → Item w → Many (v ++ unit ',' :: w))
  (hdone : outer.head? ≠ some .done)
  (hclose : ∀ u w, isWs u = false → Accepted options depth .OK outer (u :: w) →
    (u = close ∧ Accepted options depth .OK ms w) ∨
      (u = unit ',' ∧ Accepted options depth next inner w))
  (hitem : ∀ w, w.length < bound → Accepted options depth next inner w →
    Items options depth Item outer w)
include hmore hdone hclose hitem

/-- Behind an item there are further ones, each behind a comma. -/
theorem splits_more (hv : Many v) (hlen : w.length ≤ bound) (hws : NoWs w)
    (h : Accepted options depth .OK outer w) :
    ∃ t r, Many (v ++ t) ∧ w = t ++ close :: r ∧ Accepted options depth .OK ms r := by
  induction hn : w.length using Nat.strong_induction_on generalizing v w with
  | h n ih =>
    cases w with
    | nil => exact absurd h.2 hdone
    | cons u rest =>
      rcases hclose u rest (hws u rfl) h with ⟨rfl, hr⟩ | ⟨rfl, hrest⟩
      · exact ⟨[], rest, by rwa [append_nil], rfl, hr⟩
      · rw [length_cons] at hlen hn
        obtain ⟨x, r, hx, rfl, hr, hnot⟩ := hitem rest (by omega) hrest
        rw [length_append] at hlen hn
        obtain ⟨t, r', ht, rfl, hr'⟩ :=
          ih r.length (by omega) (hmore v x hv hx) (by omega) hnot hr rfl
        exact ⟨unit ',' :: x ++ t, r', by rwa [← append_assoc], by simp, hr'⟩

theorem splits_container (hone : ∀ v, Item v → Many v) (hfirst : first.idle = true)
    (hnext : next.between = true)
    (hempty : ∀ u w, isWs u = false → Accepted options depth first inner (u :: w) →
      (u = close ∧ Accepted options depth .OK ms w) ∨ Accepted options depth next inner (u :: w))
    (hlen : w.length < bound) (h : Accepted options depth first inner w) :
    ∃ v r, (Ws v ∨ Many v) ∧ w = v ++ close :: r ∧ Accepted options depth .OK ms r := by
  obtain ⟨a, u, rest, k, ha, rfl, hk, hws, -, hw⟩ :=
    token_of_accepts (c := plain first inner) hfirst h
  rcases hempty u rest ((class_isWs hk).symm.trans hws) hw with ⟨rfl, hrest⟩ | hrest
  · exact ⟨a, rest, .inl ha, rfl, hrest⟩
  · obtain ⟨x, r, hx, htext, hr, hnot⟩ := hitem _ hlen
      ((accepts_ws (c := plain next inner) hnext ha).mpr hrest)
    have hlen' : r.length ≤ bound := by
      rw [htext, length_append] at hlen
      omega
    obtain ⟨t, r', ht, rfl, hr'⟩ := splits_more hmore hdone hclose hitem (hone x hx) hlen' hnot hr
    exact ⟨x ++ t, r', .inr ht, by rw [htext, append_assoc], hr'⟩

end Containers

/-- The first state of a container has the row of the next one, but for the end. -/
theorem close_or_row {t : State} {k : CharClass} {x : UInt16} {st : List Mode}
    (hk : classUnit k = some x)
    (htable : s.quoted = false ∧ t.quoted = false ∧ ∀ c : CharClass, c.isWs = false →
      c = k ∨ tableEntry s c = tableEntry t c)
    (hstep : (plain s st).step options depth x = some (plain .OK ms)) (hws : isWs u = false)
    (h : Accepted options depth s st (u :: w)) :
    (u = x ∧ Accepted options depth .OK ms w) ∨ Accepted options depth t st (u :: w) := by
  obtain ⟨c, hc, -⟩ := accepts_class h
  rcases htable.2.2 c ((class_isWs hc).trans hws) with rfl | hrow
  · cases eq_of_classOf hc hk
    exact .inl ⟨rfl, (accepts_cons hstep).mp h⟩
  · obtain ⟨c', hstep, hrest⟩ := h
    exact .inr ⟨c', (step_row htable.1 htable.2.1 hrow hc).symm.trans hstep, hrest⟩

theorem unit_complete (hws : isWs u = false) (h : Accepted options depth .OK ms (u :: w)) :
    u = unit ']' ∨ u = unit '\x7d' ∨ u = unit ',' := by
  have htable : ∀ k : CharClass, k.isWs = false → tableEntry .OK k ≠ .error →
      k = .rsqrb ∨ k = .rcurb ∨ k = .comma := by decide
  obtain ⟨k, hk, hrow⟩ := accepts_class h
  rcases htable k ((class_isWs hk).trans hws) hrow with rfl | rfl | rfl
  · exact .inl (eq_of_classOf hk rfl)
  · exact .inr (.inl (eq_of_classOf hk rfl))
  · exact .inr (.inr (eq_of_classOf hk rfl))

/-- Behind an item stands the end of its container or a comma. -/
theorem close_or_comma {m i : Mode} {t : State} {x : UInt16}
    (hm : (m, x, t, i) ∈ [(Mode.array, unit ']', State.VA, Mode.array),
      (.object, unit '\x7d', .KE, .key)])
    (hws : isWs u = false) (h : Accepted options depth .OK (m :: ms) (u :: w)) :
    (u = x ∧ Accepted options depth .OK ms w) ∨
      (u = unit ',' ∧ Accepted options depth t (i :: ms) w) := by
  have hu := unit_complete hws h
  obtain ⟨c', hstep, hrest⟩ := h
  simp only [mem_cons, Prod.mk.injEq, not_mem_nil, or_false] at hm
  rcases hu with rfl | rfl | rfl <;>
    rcases hm with ⟨rfl, rfl, rfl, rfl⟩ | ⟨rfl, rfl, rfl, rfl⟩ <;> cases hstep
  · exact .inl ⟨rfl, hrest⟩
  · exact .inl ⟨rfl, hrest⟩
  · exact .inr ⟨rfl, hrest⟩
  · exact .inr ⟨rfl, hrest⟩

theorem sound (w : List UInt16) : Sound options depth w := by
  induction hn : w.length using Nat.strong_induction_on generalizing w with
  | h n ih =>
    have hshort : ∀ x : List UInt16, x.length < w.length + 1 → ∀ w' : List UInt16,
        w'.length < x.length → Sound options depth w' :=
      fun x hx w' hw' => ih w'.length (by omega) w' rfl
    constructor
    · intro ms hlt h
      obtain ⟨v, r, hv, rfl, hr⟩ := splits_container
        (fun _ _ hv hw => Gen.moreElements hv hw) (not_done (.inl rfl))
        (fun u w => close_or_comma (m := .array) (by decide))
        (fun x hx h => items_element (hshort x hx) (.inl rfl) h) (fun _ => .oneElement) rfl rfl
        (fun u w => close_or_row (s := .AR) (t := .VA) (k := .rsqrb) rfl (by decide) rfl)
        (Nat.lt_succ_self _) h
      refine ⟨v ++ [unit ']'], r, ?_, by simp, hr⟩
      rw [show depth - ms.length = depth - (ms.length + 1) + 1 by omega]
      exact hv.elim .emptyArray .array
    · intro ms hlt h
      obtain ⟨v, r, hv, rfl, hr⟩ := splits_container
        (fun _ _ hv hw => Gen.moreMembers hv hw) (not_done (.inr rfl))
        (fun u w => close_or_comma (m := .object) (by decide))
        (fun x hx h => items_member (hshort x hx) h) (fun _ => .oneMember) rfl rfl
        (fun u w => close_or_row (s := .OB) (t := .KE) (k := .rcurb) rfl (by decide) rfl)
        (Nat.lt_succ_self _) h
      refine ⟨v ++ [unit '\x7d'], r, ?_, by simp, hr⟩
      rw [show depth - ms.length = depth - (ms.length + 1) + 1 by omega]
      exact hv.elim .emptyObject .object

theorem accepted_iff_generates (hdepth : 0 < depth) :
    Accepted options depth .GO [.done] w ↔ Generates (parserDialect options) depth w := by
  constructor
  · intro h
    obtain ⟨a, u, rest, k, ha, rfl, hk, hws, hrow, hw⟩ := token_of_accepts rfl h
    have hkey : [Mode.done].head? ≠ some .key := nofun
    obtain ⟨v, r, hv, rfl, hrest⟩ :=
      splits_value (sound rest) (.inl rfl) hkey (cons_ne_nil _ _) hk hws hrow hw
    obtain ⟨b, r, hb, rfl, hr⟩ := ws_split r
    have hend := (accepts_ws (c := plain .OK [.done]) rfl hb).mp hrest
    cases r with
    | nil =>
      refine ⟨depth - 1, by omega, a, u :: v, b, ha, hb, by simp, ?_⟩
      exact hv.imp id (.imp id fun hv => hv.resolve_right fun hGO => hGO.1 rfl)
    | cons u rest =>
      have hu := unit_complete (hr u rfl) hend
      obtain ⟨c', hstep, -⟩ := hend
      rcases hu with rfl | rfl | rfl <;> cases hstep
  · rintro ⟨n, hn, a, v, b, ha, hb, rfl, hv⟩
    have hend : Accepted options depth .OK [.done] b := by
      have h : Accepted options depth .OK [.done] (b ++ []) := (accepts_ws rfl hb).mpr ⟨rfl, rfl⟩
      rwa [append_nil] at h
    rw [append_assoc]
    refine (accepts_ws (c := plain .GO [.done]) rfl ha).mpr ?_
    rcases hv with hv | hv | hv
    · exact reads_of_gen hv .GO [.done] b rfl hn hend
    · exact reads_of_gen hv .GO [.done] b rfl hn hend
    · exact accepted_string rfl nofun nofun hv hend

theorem parseJsonEx_iff_generates (hdepth : 0 < depth) :
    (∃ z, parseJsonEx options (.new depth) w = .ok z) ↔ Generates (parserDialect options) depth w :=
  (parseJsonEx_iff_accepts hdepth).trans (accepted_iff_generates hdepth)

end Structure

end PhpEngine.Json

/-
What decides whether a text is accepted: a pushdown automaton with the table of
the parser, which keeps of the values only whether the name that is read starts
with NUL.
-/
import PhpEngine.JsonSteps

namespace PhpEngine.Json

/-- `lead` says of the string that is read, and of a name before its colon,
whether it has begun and whether it starts with NUL. -/
structure Control where
  state : State
  stack : List Mode
  lead : Option Bool
  utf16 : UInt16
deriving Repr, DecidableEq

/-- The control outside the strings. -/
def plain (state : State) (stack : List Mode) : Control :=
  ⟨state, stack, none, 0⟩

def hexPart (u : UInt16) (shift : Nat) : UInt16 :=
  UInt16.ofInt (dehexchar u * 2 ^ shift)

namespace Control

variable (options : DecodeOptions) (depth : Nat) (c : Control)

def append (u : UInt16) : Control :=
  { c with lead := some (c.lead.getD (u == 0)), utf16 := 0 }

def read (u : UInt16) (next : State) : Control :=
  match c.state, next with
  | .ST, .ST => c.append u
  | .ES, .ST => c.append (escapeUnit u)
  | .U1, .U2 => { c with utf16 := 0 + hexPart u 12 }
  | .U2, .U3 => { c with utf16 := c.utf16 + hexPart u 8 }
  | .U3, .U4 => { c with utf16 := c.utf16 + hexPart u 4 }
  | .U4, .ST => c.append (c.utf16 + hexPart u 0)
  | _, _ => c

def opened (next : State) (mode : Mode) : Option Control :=
  if c.stack.length < depth then some (plain next (mode :: c.stack)) else none

def closed (mode : Mode) : Option Control :=
  if c.stack.head? = some mode then some (plain .OK c.stack.tail) else none

def act (u : UInt16) : Entry → Option Control
  | .goto next => some { c.read u next with state := next }
  | .emptyObject => c.closed .key
  | .closeObject => c.closed .object
  | .closeArray => c.closed .array
  | .openObject => c.opened depth .OB .key
  | .openArray => c.opened depth .AR .array
  | .endString =>
    match c.stack.head? with
    | some .key => some { c with state := .CO }
    | some _ => some (plain .OK c.stack)
    | none => none
  | .comma =>
    match c.stack.head? with
    | some .object => some (plain .KE (.key :: c.stack.tail))
    | some .array => some (plain .VA c.stack)
    | _ => none
  | .colon =>
    if c.stack.head? = some .key ∧ (options.objectAsArray = true ∨ c.lead ≠ some true) then
      some (plain .VA (.object :: c.stack.tail))
    else none
  | .error => none

def step (u : UInt16) : Option Control :=
  (classOf u).bind fun k => c.act options depth u (tableEntry c.state k)

def Accepts : Control → List UInt16 → Prop
  | c, [] => c.state = .OK ∧ c.stack.head? = some .done
  | c, u :: w => ∃ c', c.step options depth u = some c' ∧ Accepts c' w

end Control

section Simulation

def leadOf (buf : List UInt8) : Option Bool :=
  buf.head?.map (· == 0)

theorem leadOf_utf16ToUtf8 (buf : List UInt8) (u : UInt16) :
    leadOf (utf16ToUtf8 buf u) = some ((leadOf buf).getD (u == 0)) := by
  have hhead : ∀ {b : Bool}, ((utf16ToUtf8 buf u).head? = some 0 ↔ b = true) →
      leadOf (utf16ToUtf8 buf u) = some b := by
    intro b h
    cases hbytes : utf16ToUtf8 buf u with
    | nil => exact absurd hbytes (utf16ToUtf8_ne_nil buf u)
    | cons v rest =>
      rw [hbytes, List.head?_cons, Option.some.injEq, ← beq_iff_eq] at h
      exact congrArg some (Bool.eq_iff_iff.mpr h)
  cases buf with
  | nil => exact hhead ((head_utf16ToUtf8_nil u).trans beq_iff_eq.symm)
  | cons v rest =>
    refine hhead ((head_utf16ToUtf8 (List.cons_ne_nil v rest) u).trans ?_)
    simp [leadOf]

def Config.control (cfg : Config) : Control where
  state := cfg.jp.state
  stack := cfg.jp.stack
  lead := match cfg.jp.state with
    | .ST | .ES | .U1 | .U2 | .U3 | .U4 => leadOf cfg.buf
    | .CO => leadOf cfg.key
    | _ => none
  utf16 := match cfg.jp.state with
    | .U2 | .U3 | .U4 => cfg.utf16
    | _ => 0

/-- The name in `key` can be written. -/
def KeyOk (options : DecodeOptions) (cfg : Config) : Prop :=
  options.objectAsArray = true ∨ cfg.key.head? ≠ some 0

/-- The states between the tokens in which no value is complete. -/
def State.idle : State → Bool
  | .GO | .OB | .KE | .CO | .VA | .AR => true
  | _ => false

/-- What holds of the parser in every state. -/
structure Steady (options : DecodeOptions) (depth : Nat) (cfg : Config) : Prop where
  limit : cfg.jp.depth = depth
  room : cfg.jp.stack.length ≤ depth
  idle : cfg.jp.state.idle = true → cfg.type = -1 ∧ cfg.buf = []
  string : cfg.jp.state.quoted = true → cfg.type = isString
  key : cfg.jp.state ≠ .CO → KeyOk options cfg

/-- The states in which a value of an object can be, but not one of its names. -/
def State.inMember : State → Bool
  | .GO | .OB | .KE | .CO => false
  | _ => true

/-- The states in which the type of a scalar is known. -/
def State.typed : State → Bool
  | .OK | .ST | .ES | .U1 | .U2 | .U3 | .U4 | .ZE | .IN | .FR | .E1 | .E2 | .E3 => true
  | _ => false

/-- The value that is read cannot be added under its name. -/
structure Doomed (options : DecodeOptions) (depth : Nat) (cfg : Config) : Prop where
  limit : cfg.jp.depth = depth
  room : cfg.jp.stack.length ≤ depth
  mode : cfg.jp.stack.head? = some .object
  key : ¬ KeyOk options cfg
  state : cfg.jp.state.inMember = true
  type : cfg.jp.state.typed = true → 0 ≤ cfg.type

/-- The moves within a string. -/
def quotedMoves : List (State × State) :=
  [(.ST, .ST), (.ST, .ES), (.ES, .ST), (.ES, .U1), (.U1, .U2), (.U2, .U3), (.U3, .U4), (.U4, .ST)]

/-- The entries of the table in other words. -/
def Entry.fits (s : State) (c : CharClass) : Entry → Bool
  | .goto next =>
    (s == next && s.between && (c == .space || c == .white)) ||
      (s.idle && s != .CO && c == .quote && next == .ST) ||
      (!s.quoted && s != .CO && !next.quoted && !next.idle) || quotedMoves.contains (s, next)
  | .openArray | .openObject => s.idle && s != .CO
  | .endString => s == .ST
  | .colon => s == .CO
  | .error => true
  | _ => !s.quoted && s != .CO

theorem tableEntry_fits (s : State) (c : CharClass) : (tableEntry s c).fits s c = true := by
  revert s c
  decide

/-- What an entry does while the value of a member is read. -/
def Entry.fitsMember (s : State) (c : CharClass) : Entry → Bool
  | .goto next => next.inMember && (!next.typed || s.typed || c == .digit || c == .zero ||
      c == .quote || (next == .OK && (s == .T3 || s == .F4 || s == .N3)))
  | .emptyObject => false
  | .closeObject | .comma | .endString => s.typed
  | _ => true

theorem tableEntry_fitsMember (s : State) (c : CharClass) :
    s.inMember = true → (tableEntry s c).fitsMember s c = true := by
  revert s c
  decide +kernel

variable {options : DecodeOptions} {depth : Nat} {cfg cfg' : Config} {u : UInt16} {c : CharClass}
  {s : State}

theorem appendEscape_eq (cfg : Config) (u : UInt16) :
    cfg.appendEscape u = cfg.appendUtf16 (escapeUnit u) := by
  simp only [Config.appendEscape, escapeUnit]
  repeat' split
  all_goals rfl

theorem readInString_same (cfg : Config) (u : UInt16) (s : State) :
    (cfg.readInString u s).jp = cfg.jp ∧ (cfg.readInString u s).key = cfg.key ∧
      (cfg.readInString u s).type = cfg.type := by
  unfold Config.readInString
  simp only [appendEscape_eq]
  repeat' split
  all_goals exact ⟨rfl, rfl, rfl⟩

theorem readOutside_same (cfg : Config) (u : UInt16) (c : CharClass) (s : State) :
    (cfg.readOutside u c s).jp = cfg.jp ∧ (cfg.readOutside u c s).key = cfg.key := by
  unfold Config.readOutside
  repeat' split
  all_goals exact ⟨rfl, rfl⟩

theorem changeState_same : (cfg.changeState u c s).jp = { cfg.jp with state := s } ∧
    (cfg.changeState u c s).key = cfg.key := by
  simp only [Config.changeState, Config.goto]
  split
  · rw [(readInString_same cfg u s).1, (readInString_same cfg u s).2.1]
    exact ⟨rfl, rfl⟩
  · rw [(readOutside_same cfg u c s).1, (readOutside_same cfg u c s).2]
    exact ⟨rfl, rfl⟩

/-- A character of a scalar gives it a type, which it keeps. -/
theorem changeState_type (h : 0 ≤ cfg.type ∨ c = .digit ∨ c = .zero ∨ c = .quote ∨
      (s = .OK ∧ (cfg.jp.state = .T3 ∨ cfg.jp.state = .F4 ∨ cfg.jp.state = .N3))) :
    0 ≤ (cfg.changeState u c s).type := by
  simp only [Config.changeState, Config.goto]
  split
  next hstring =>
    rw [(readInString_same cfg u s).2.2, hstring]
    decide
  · have hcodes : isNull = 0 ∧ isLong = 1 ∧ isDouble = 2 ∧ isBool = 3 ∧ isString = 6 := by decide
    simp only [Config.readOutside, apply_ite Config.type, Config.appendc, Config.appendUtf16]
    grind

theorem changeState_white (hc : c = .space ∨ c = .white) (hs : cfg.jp.state.between = true) :
    cfg.changeState u c cfg.jp.state = cfg := by
  obtain ⟨⟨state, depth, stack⟩, type, buf, key, utf16, zstack, z⟩ := cfg
  rcases hc with rfl | rfl <;> cases state <;> first
    | cases hs; done
    | simp [Config.changeState, Config.readInString, Config.readOutside, Config.goto]

theorem memberSlot_ok (h : KeyOk options cfg) : ∃ slot, cfg.memberSlot options = .ok slot := by
  unfold Config.memberSlot
  by_cases hassoc : options.objectAsArray = true
  · exact ⟨_, if_pos hassoc⟩
  · have hnul := h.resolve_left hassoc
    rw [if_neg hassoc]
    by_cases hkey : cfg.key = []
    · exact ⟨_, by simp only [hkey, if_pos]; rfl⟩
    · refine ⟨.string (cfg.key ++ [0]), ?_⟩
      simp only [if_neg hkey, if_neg hnul]

theorem memberSlot_error (h : ¬ KeyOk options cfg) :
    cfg.memberSlot options = .error .fatalError := by
  obtain ⟨hassoc, hnul⟩ := not_or.mp h
  rw [not_not] at hnul
  have hkey : cfg.key ≠ [] := by
    intro hkey
    rw [hkey] at hnul
    cases hnul
  simp [Config.memberSlot, hassoc, hkey, hnul]

@[simp] theorem storeTop_same (slot : HashKey) (child : Zval) :
    (cfg.storeTop slot child).jp = cfg.jp ∧ (cfg.storeTop slot child).key = cfg.key ∧
      (cfg.storeTop slot child).buf = cfg.buf := by
  unfold Config.storeTop
  split <;> exact ⟨rfl, rfl, rfl⟩

theorem closeFrame_key : cfg.closeFrame.key = cfg.key := by
  unfold Config.closeFrame
  split
  · rfl
  · rfl
  · exact (storeTop_same _ _).2.1

theorem addMember_ok (h : KeyOk options cfg) :
    ∃ cfg', cfg.addMember options = .ok cfg' ∧ cfg'.jp = cfg.jp ∧ cfg'.key = [] := by
  obtain ⟨slot, hslot⟩ := memberSlot_ok h
  unfold Config.addMember
  rw [hslot]
  exact ⟨_, rfl, (storeTop_same _ _).1, rfl⟩

theorem addMember_error (h : ¬ KeyOk options cfg) :
    cfg.addMember options = .error .fatalError := by
  simp only [Config.addMember, memberSlot_error h]
  rfl

theorem openFrame_ok {isObject : Bool} (h : KeyOk options cfg) :
    ∃ cfg', cfg.openFrame options isObject = .ok cfg' ∧ cfg'.jp = cfg.jp ∧ cfg'.type = -1 ∧
      cfg'.buf = cfg.buf ∧ KeyOk options cfg' := by
  obtain ⟨slot, hslot⟩ := memberSlot_ok h
  unfold Config.openFrame
  simp only [hslot]
  split
  · exact ⟨_, rfl, by simp, rfl, by simp, by simpa [KeyOk] using h⟩
  · exact ⟨_, rfl, by simp, rfl, by simp, .inr (by simp)⟩
  · exact ⟨_, rfl, by simp, rfl, by simp, by simpa [KeyOk] using h⟩

theorem openFrame_error {isObject : Bool} (h : ¬ KeyOk options cfg)
    (hmode : cfg.jp.stack.tail.head? = some .object) :
    cfg.openFrame options isObject = .error .fatalError := by
  simp only [Config.openFrame, hmode, memberSlot_error h]
  rfl

/-- The control follows what a unit does to the parser, or gives up where no
text is accepted. -/
def Agrees (options : DecodeOptions) (depth : Nat) (result : Except Halt Config)
    (next : Option Control) : Prop :=
  (∃ cfg', result = .ok cfg' ∧ next = some cfg'.control ∧ Steady options depth cfg') ∨
    (next = none ∧ ∀ cfg', result = .ok cfg' → Doomed options depth cfg')

theorem agrees_refused (halt : Halt) : Agrees options depth (.error halt) none :=
  .inr ⟨rfl, nofun⟩

theorem tail_length {mode : Mode} (hroom : cfg.jp.stack.length ≤ depth)
    (hmode : cfg.jp.stack.head? = some mode) : cfg.jp.stack.tail.length < depth := by
  cases hstack : cfg.jp.stack with
  | nil =>
    rw [hstack] at hmode
    cases hmode
  | cons top ms =>
    rw [hstack] at hroom
    exact hroom

theorem pop_push {mode next : Mode} (hlimit : cfg.jp.depth = depth)
    (hroom : cfg.jp.stack.length ≤ depth) (hmode : cfg.jp.stack.head? = some mode) :
    (cfg.jp.pop mode).bind (·.push next) =
      .ok { cfg.jp with stack := next :: cfg.jp.stack.tail } := by
  unfold Parser.pop
  rw [if_neg (not_not_intro hmode)]
  exact if_neg (Nat.not_le.mpr (hlimit ▸ tail_length hroom hmode))

theorem read_outside {c : Control} {next : State} (h : c.state.quoted = false) :
    c.read u next = c := by
  obtain ⟨state, stack, lead, utf16⟩ := c
  cases state <;> first | rfl | cases h

theorem control_plain (hquoted : cfg.jp.state.quoted = false) (hco : cfg.jp.state ≠ .CO) :
    cfg.control = plain cfg.jp.state cfg.jp.stack := by
  obtain ⟨⟨state, depth, stack⟩, type, buf, key, utf16, zstack, z⟩ := cfg
  cases state <;> first | rfl | exact absurd rfl hco | cases hquoted

theorem idle_quoted (h : s.idle = true) : s.quoted = false := by
  cases s <;> first | rfl | cases h

theorem between_quoted (h : s.between = true) : s.quoted = false := by
  cases s <;> first | rfl | cases h

section

variable (h : Steady options depth cfg)
include h

theorem steady_changeState (hco : cfg.jp.state ≠ .CO) (hidle : s.idle = false)
    (htype : s.quoted = true → (cfg.changeState u c s).type = isString) :
    Steady options depth (cfg.changeState u c s) := by
  obtain ⟨hjp, hkey⟩ := @changeState_same cfg u c s
  refine ⟨?_, ?_, ?_, ?_, fun _ => ?_⟩
  · rw [hjp]
    exact h.limit
  · rw [hjp]
    exact h.room
  · rw [hjp, hidle]
    nofun
  · rw [hjp]
    exact htype
  · unfold KeyOk
    rw [hkey]
    exact h.key hco

theorem agrees_goto (hrow : (Entry.goto s).fits cfg.jp.state c = true) :
    Agrees options depth (.ok (cfg.changeState u c s))
      (some { cfg.control.read u s with state := s }) := by
  simp only [Entry.fits, Bool.or_eq_true, Bool.and_eq_true, beq_iff_eq, bne_iff_ne,
    Bool.not_eq_true', List.contains_iff_mem] at hrow
  rcases hrow with ((⟨⟨rfl, hs⟩, hc⟩ | ⟨⟨⟨hidle, hco⟩, rfl⟩, rfl⟩) |
    ⟨⟨⟨hquoted, hco⟩, hnext⟩, hidle⟩) | hmem
  · rw [changeState_white hc hs, read_outside (between_quoted hs)]
    exact .inl ⟨cfg, rfl, rfl, h⟩
  · obtain ⟨htype, hbuf⟩ := h.idle hidle
    have hquote : cfg.changeState u .quote .ST = { cfg with type := isString }.goto .ST := by
      simp [Config.changeState, Config.readOutside, htype, isString, isLong, isDouble]
    refine .inl ⟨_, rfl, ?_, steady_changeState h hco rfl fun _ => by rw [hquote]; rfl⟩
    rw [hquote, read_outside (idle_quoted hidle), control_plain (idle_quoted hidle) hco]
    simp only [Config.control, Config.goto, hbuf]
    rfl
  · have hs : s ≠ .CO := by
      rintro rfl
      cases hidle
    have hjp := (@changeState_same cfg u c s).1
    have hplain := @control_plain (cfg.changeState u c s) (by rw [hjp]; exact hnext)
      (by rw [hjp]; exact hs)
    refine .inl ⟨_, rfl, ?_, steady_changeState h hco hidle fun hq => ?_⟩
    rotate_left
    · rw [hq] at hnext
      cases hnext
    rw [read_outside hquoted, control_plain hquoted hco, hplain, hjp]
    rfl
  · obtain ⟨hin, hidle, hco⟩ : cfg.jp.state.quoted = true ∧ s.idle = false ∧
        cfg.jp.state ≠ .CO := by
      revert hmem
      generalize cfg.jp.state = state
      simp only [quotedMoves, List.mem_cons, Prod.mk.injEq, List.not_mem_nil, or_false]
      rintro (h | h | h | h | h | h | h | h) <;> rw [h.1, h.2] <;> exact ⟨rfl, rfl, nofun⟩
    have htype := h.string hin
    refine .inl ⟨_, rfl, ?_, steady_changeState h hco hidle fun _ => ?_⟩
    · simp only [Config.changeState, if_pos htype]
      obtain ⟨⟨state, depth, stack⟩, type, buf, key, utf16, zstack, z⟩ := cfg
      simp only [quotedMoves, List.mem_cons, Prod.mk.injEq, List.not_mem_nil, or_false] at hmem
      rcases hmem with ⟨rfl, rfl⟩ | ⟨rfl, rfl⟩ | ⟨rfl, rfl⟩ | ⟨rfl, rfl⟩ | ⟨rfl, rfl⟩ |
        ⟨rfl, rfl⟩ | ⟨rfl, rfl⟩ | ⟨rfl, rfl⟩ <;>
        simp [Config.readInString, Config.control, Control.read,
          Control.append, Config.goto, appendEscape_eq, Config.appendUtf16, Config.addHex,
          leadOf_utf16ToUtf8, hexPart]
    · simp only [Config.changeState, if_pos htype]
      exact (readInString_same cfg u s).2.2.trans htype

/-- The end of the three actions that close an array or object. -/
theorem agrees_closed {mode : Mode} (hjp : cfg'.jp = cfg.jp) (hkey : KeyOk options cfg') :
    Agrees options depth ((orReturn (cfg'.jp.pop mode)).bind fun jp =>
      .ok ({ cfg'.closeFrame with jp := jp }.goto .OK)) (cfg.control.closed mode) := by
  rw [hjp]
  unfold Parser.pop
  by_cases hmode : cfg.jp.stack.head? = some mode
  · rw [if_neg (not_not_intro hmode), show cfg.control.closed mode = _ from if_pos hmode]
    refine .inl ⟨_, rfl, rfl, h.limit, ?_, nofun, nofun, fun _ => ?_⟩
    · exact (tail_length h.room hmode).le
    · simpa only [KeyOk, Config.goto, closeFrame_key] using hkey
  · rw [if_pos hmode]
    exact .inr ⟨if_neg hmode, nofun⟩

theorem agrees_closeObject (hco : cfg.jp.state ≠ .CO) :
    Agrees options depth (closeObjectAction options cfg) (cfg.control.closed .object) := by
  unfold closeObjectAction
  split
  · obtain ⟨cfg₁, hmember, hjp, hkey⟩ := addMember_ok (h.key hco)
    rw [hmember]
    exact @agrees_closed options depth cfg { cfg₁ with buf := [], type := -1 } h _ hjp
      (.inr (by simp only [hkey]; nofun))
  · exact agrees_closed h rfl (h.key hco)

theorem agrees_closeArray (hco : cfg.jp.state ≠ .CO) :
    Agrees options depth (closeArrayAction options cfg) (cfg.control.closed .array) := by
  unfold closeArrayAction
  split
  · obtain ⟨hjp, hkey, -⟩ := @storeTop_same cfg cfg.nextIndex
      (jsonCreateZval cfg.buf cfg.type options)
    refine @agrees_closed options depth cfg
      { cfg.addNextIndex options with buf := [], type := -1 } h _ hjp ?_
    simp only [KeyOk, Config.addNextIndex, hkey]
    exact h.key hco
  · exact agrees_closed h rfl (h.key hco)

theorem agrees_opened {mode : Mode} {isObject : Bool} (hidle : cfg.jp.state.idle = true)
    (hco : cfg.jp.state ≠ .CO) (hs : s = .OB ∨ s = .AR) :
    Agrees options depth ((orReturn (cfg.jp.push mode)).bind fun jp =>
      ({ cfg with jp := jp }.goto s).openFrame options isObject)
        (cfg.control.opened depth s mode) := by
  unfold Parser.push
  by_cases hfull : cfg.jp.depth ≤ cfg.jp.stack.length
  · rw [if_pos hfull]
    rw [h.limit] at hfull
    exact .inr ⟨if_neg (Nat.not_lt.mpr hfull), nofun⟩
  · rw [if_neg hfull]
    have hlt := h.limit ▸ Nat.lt_of_not_le hfull
    rw [show cfg.control.opened depth s mode = _ from if_pos hlt]
    obtain ⟨cfg₁, hopen, hjp, htype, hbuf, hkey⟩ := @openFrame_ok options
      ({ cfg with jp := { cfg.jp with stack := mode :: cfg.jp.stack } }.goto s) isObject (h.key hco)
    refine .inl ⟨cfg₁, hopen, ?_, ?_, ?_, fun _ => ⟨htype, hbuf.trans (h.idle hidle).2⟩, ?_,
      fun _ => hkey⟩
    · have hplain := @control_plain cfg₁ (by rw [hjp]; rcases hs with rfl | rfl <;> rfl)
        (by rw [hjp]; rcases hs with rfl | rfl <;> nofun)
      rw [hplain, hjp]
      rfl
    · rw [hjp]
      exact h.limit
    · rw [hjp]
      exact hlt
    · rw [hjp]
      rcases hs with rfl | rfl <;> nofun

theorem agrees_endString (hs : cfg.jp.state = .ST) : Agrees options depth (endStringAction cfg)
      (cfg.control.act options depth u .endString) := by
  have hkey := h.key (by rw [hs]; nofun)
  have htype := h.string (by rw [hs]; rfl)
  have hvalue : ∀ cfg₁ : Config, cfg₁.jp = cfg.jp → cfg₁.key = cfg.key →
      Agrees options depth (.ok (cfg₁.goto .OK)) (some (plain .OK cfg.jp.stack)) := by
    intro cfg₁ hjp hkey₁
    refine .inl ⟨_, rfl, by rw [← hjp]; rfl, ?_, ?_, nofun, nofun, fun _ => ?_⟩
    · simpa only [Config.goto, hjp] using h.limit
    · simpa only [Config.goto, hjp] using h.room
    · simpa only [KeyOk, Config.goto, hkey₁] using hkey
  simp only [endStringAction, Control.act, Config.control, hs]
  cases hmode : cfg.jp.stack.head? with
  | none => exact .inr ⟨rfl, nofun⟩
  | some mode =>
    cases mode with
    | key =>
      exact .inl ⟨_, rfl, rfl, h.limit, h.room, fun _ => ⟨rfl, rfl⟩, nofun,
        fun hco => absurd rfl hco⟩
    | array | object => exact hvalue cfg rfl rfl
    | done =>
      simp only [htype, if_pos]
      exact hvalue _ rfl rfl

theorem agrees_comma (hco : cfg.jp.state ≠ .CO) : Agrees options depth (commaAction options cfg)
      (cfg.control.act options depth u .comma) := by
  simp only [commaAction, Control.act, Config.control]
  cases hmode : cfg.jp.stack.head? with
  | none => exact agrees_refused _
  | some mode =>
    cases mode with
    | done | key => exact agrees_refused _
    | array =>
      have hnext : ∀ cfg₁ : Config, cfg₁.jp = cfg.jp → cfg₁.key = cfg.key →
          Agrees options depth (.ok ({ cfg₁ with buf := [], type := -1 }.goto .VA))
            (some (plain .VA cfg.jp.stack)) := by
        intro cfg₁ hjp hkey
        refine .inl ⟨_, rfl, by rw [← hjp]; rfl, ?_, ?_, fun _ => ⟨rfl, rfl⟩, ?_, fun _ => ?_⟩
        · simpa only [Config.goto, hjp] using h.limit
        · simpa only [Config.goto, hjp] using h.room
        · rintro ⟨⟩
        · simpa only [KeyOk, Config.goto, hkey] using h.key hco
      simp only
      split
      · obtain ⟨hjp, hkey, -⟩ := @storeTop_same cfg cfg.nextIndex
          (jsonCreateZval cfg.buf cfg.type options)
        exact hnext _ hjp hkey
      · exact hnext cfg rfl rfl
    | object =>
      have hnext : ∀ cfg₁ : Config, KeyOk options cfg₁ → Agrees options depth
          (.ok ({ cfg₁ with
            jp := { cfg.jp with stack := .key :: cfg.jp.stack.tail }
            buf := []
            type := -1 }.goto .KE)) (some (plain .KE (.key :: cfg.jp.stack.tail))) := by
        intro cfg₁ hkey
        refine .inl ⟨_, rfl, rfl, h.limit, tail_length h.room hmode, fun _ => ⟨rfl, rfl⟩, ?_,
          fun _ => hkey⟩
        rintro ⟨⟩
      simp only [pop_push h.limit h.room hmode]
      split
      · obtain ⟨cfg₁, hmember, hjp, hkey⟩ := addMember_ok (h.key hco)
        rw [hmember]
        refine hnext cfg₁ (.inr ?_)
        rw [hkey]
        rintro ⟨⟩
      · exact hnext cfg (h.key hco)

theorem agrees_colon (hs : cfg.jp.state = .CO) : Agrees options depth (colonAction cfg)
      (cfg.control.act options depth u .colon) := by
  simp only [colonAction, Control.act, Config.control, hs]
  by_cases hmode : cfg.jp.stack.head? = some .key
  · rw [pop_push h.limit h.room hmode]
    obtain ⟨htype, hbuf⟩ := h.idle (by rw [hs]; rfl)
    have hlead : (options.objectAsArray = true ∨ leadOf cfg.key ≠ some true) ↔
        KeyOk options cfg := by
      unfold KeyOk leadOf
      cases cfg.key.head? <;> simp
    by_cases hkey : KeyOk options cfg
    · rw [if_pos ⟨hmode, hlead.mpr hkey⟩]
      exact .inl ⟨_, rfl, rfl, h.limit, tail_length h.room hmode, fun _ => ⟨htype, hbuf⟩, nofun,
        fun _ => hkey⟩
    · rw [if_neg fun hpos => hkey (hlead.mp hpos.2)]
      refine .inr ⟨rfl, fun cfg' hok => ?_⟩
      cases hok
      exact ⟨h.limit, tail_length h.room hmode, rfl, hkey, rfl, nofun⟩
  · rw [if_neg fun hpos => hmode hpos.1]
    unfold Parser.pop
    rw [if_pos hmode]
    exact .inr ⟨rfl, nofun⟩

theorem agrees_step (u : UInt16) :
    Agrees options depth (parseUnit options cfg u) (cfg.control.step options depth u) := by
  unfold parseUnit Control.step
  cases classOf u with
  | none => exact .inr ⟨rfl, nofun⟩
  | some c =>
    have hrow : (tableEntry cfg.control.state c).fits cfg.control.state c = true :=
      tableEntry_fits _ _
    have hstate : cfg.control.state = cfg.jp.state := rfl
    simp only [Option.bind_some, hstate] at hrow ⊢
    cases hentry : tableEntry cfg.jp.state c with
    | goto s => exact agrees_goto h (by rwa [hentry] at hrow)
    | error => exact .inr ⟨rfl, nofun⟩
    | _ =>
      simp only [hentry, Entry.fits, Bool.and_eq_true, beq_iff_eq, bne_iff_ne] at hrow
      first
      | exact agrees_opened h hrow.1 hrow.2 (.inl rfl)
      | exact agrees_opened h hrow.1 hrow.2 (.inr rfl)
      | exact agrees_endString h hrow
      | exact agrees_colon h hrow
      | exact agrees_closeObject h hrow.2
      | exact agrees_closeArray h hrow.2
      | exact agrees_comma h hrow.2
      | exact agrees_closed h rfl (h.key hrow.2)

end

theorem doomed_opened {mode : Mode} {isObject : Bool} (h : Doomed options depth cfg) :
    (orReturn (cfg.jp.push mode)).bind (fun jp =>
      ({ cfg with jp := jp }.goto s).openFrame options isObject) ≠ .ok cfg' := by
  unfold Parser.push
  split
  · nofun
  · have hframe : ({ cfg with jp := { cfg.jp with stack := mode :: cfg.jp.stack } }.goto
        s).openFrame options isObject = .error .fatalError := openFrame_error h.key h.mode
    intro hok
    cases hframe.symm.trans hok

theorem doomed_step (h : Doomed options depth cfg) (hunit : parseUnit options cfg u = .ok cfg') :
    Doomed options depth cfg' := by
  unfold parseUnit at hunit
  cases hclass : classOf u with
  | none =>
    rw [hclass] at hunit
    cases hunit
  | some c =>
    have hrow := tableEntry_fitsMember cfg.jp.state c h.state
    simp only [hclass] at hunit
    cases hentry : tableEntry cfg.jp.state c with
    | error =>
      rw [hentry] at hunit
      cases hunit
    | goto s =>
      rw [hentry] at hunit hrow
      cases hunit
      obtain ⟨hjp, hkey⟩ := @changeState_same cfg u c s
      simp only [Entry.fitsMember, Bool.or_eq_true, Bool.and_eq_true, Bool.not_eq_true', beq_iff_eq,
        or_assoc] at hrow
      refine ⟨?_, ?_, ?_, ?_, ?_, fun htyped => changeState_type ?_⟩
      · rw [hjp]
        exact h.limit
      · rw [hjp]
        exact h.room
      · rw [hjp]
        exact h.mode
      · simpa only [KeyOk, hkey] using h.key
      · rw [hjp]
        exact hrow.1
      · rw [hjp] at htyped
        rcases hrow.2 with hnot | hold | hnew
        · exact absurd htyped (by rw [hnot]; nofun)
        · exact .inl (h.type hold)
        · exact .inr hnew
    | emptyObject =>
      rw [hentry] at hrow
      cases hrow
    | closeObject =>
      simp only [hentry, closeObjectAction] at hunit hrow
      have htype := h.type hrow
      rw [if_pos ⟨by omega, h.mode⟩, addMember_error h.key] at hunit
      cases hunit
    | closeArray =>
      simp only [hentry, closeArrayAction] at hunit
      rw [if_neg fun hpos => by rw [h.mode] at hpos; cases hpos.2] at hunit
      simp only [Parser.pop, h.mode] at hunit
      cases hunit
    | openObject | openArray =>
      rw [hentry] at hunit
      exact absurd hunit (doomed_opened h)
    | endString =>
      simp only [hentry, endStringAction, h.mode] at hunit hrow
      cases hunit
      exact ⟨h.limit, h.room, h.mode, h.key, rfl, fun _ => h.type hrow⟩
    | comma =>
      simp only [hentry, commaAction, h.mode, pop_push h.limit h.room h.mode] at hunit hrow
      have htype := h.type hrow
      rw [if_pos (by omega), addMember_error h.key] at hunit
      cases hunit
    | colon =>
      simp only [hentry, colonAction, Parser.pop, h.mode] at hunit
      cases hunit

theorem doomed_parseUnits {w : List UInt16} {z : Zval} (h : Doomed options depth cfg) :
    (parseUnits options cfg w).bind finish ≠ .ok z := by
  induction w generalizing cfg with
  | nil =>
    simp only [parseUnits, Except.bind, finish, Parser.pop, h.mode]
    split <;> nofun
  | cons u rest ih =>
    rw [parseUnits]
    cases hunit : parseUnit options cfg u with
    | error halt => nofun
    | ok cfg' => exact ih (doomed_step h hunit)

theorem parseUnits_iff_accepts {w : List UInt16} (h : Steady options depth cfg) :
    (∃ z, (parseUnits options cfg w).bind finish = .ok z) ↔
      cfg.control.Accepts options depth w := by
  induction w generalizing cfg with
  | nil =>
    simp only [parseUnits, Except.bind, finish, Parser.pop, Control.Accepts, Config.control]
    by_cases hstate : cfg.jp.state = .OK <;> by_cases hmode : cfg.jp.stack.head? = some .done <;>
      simp [hstate, hmode]
  | cons u rest ih =>
    rw [parseUnits, Control.Accepts]
    rcases agrees_step h u with ⟨cfg', hunit, hstep, hsteady⟩ | ⟨hstep, hdoomed⟩
    · rw [hunit, hstep]
      refine (ih hsteady).trans ⟨fun hrest => ⟨_, rfl, hrest⟩, ?_⟩
      rintro ⟨c', hc, hrest⟩
      cases hc
      exact hrest
    · rw [hstep]
      refine iff_of_false ?_ nofun
      rintro ⟨z, hz⟩
      cases hunit : parseUnit options cfg u with
      | error halt =>
        rw [hunit] at hz
        cases hz
      | ok cfg' =>
        rw [hunit] at hz
        exact doomed_parseUnits (hdoomed cfg' hunit) hz

theorem parseJsonEx_iff_accepts {w : List UInt16} (hdepth : 0 < depth) :
    (∃ z, parseJsonEx options (.new depth) w = .ok z) ↔
      (plain .GO [.done]).Accepts options depth w :=
  parseUnits_iff_accepts ⟨rfl, hdepth, fun _ => ⟨rfl, rfl⟩, nofun, fun _ => .inr nofun⟩

end Simulation

end PhpEngine.Json

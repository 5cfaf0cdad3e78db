/-
What is written to the output layer is sent to the SAPI or lies in the buffers
of the handlers.
-/
import PhpEngine.Output

namespace PhpEngine

open List Function Option

variable {c : OutputContext} {g'' : OutputGlobals} {handler : OutputHandler} {f' : OutputFrame}
    {p : Nat} {input : List UInt8}

/-- A handler of the stack: where it lies, what it is, and the block and the
contents of its buffer. -/
structure OutputFrame where
  address : Nat
  handler : OutputHandler
  block : Nat
  bytes : List UInt8

namespace OutputFrame

/-- The frame describes a handler on the heap. -/
structure At (f : OutputFrame) (g : OutputGlobals) (level : Nat) : Prop where
  handler : g.handler f.address = some f.handler
  level : f.handler.level = level
  data : f.handler.buffer.data = some f.block
  used : f.handler.buffer.used = f.bytes.length
  holds : g.mem.Holds f.block f.handler.buffer.size f.bytes
  disabled : f.handler.flags.disabled = true → f.bytes = []
  address_lt : f.address < g.brk
  block_lt : f.block < g.mem.brk

end OutputFrame

/-- The buffer points to `bytes` in the block `p`, which is not for the context
to free. -/
structure OutputBuffer.Carries (buf : OutputBuffer) (mem : Blocks UInt8)
    (p : Nat) (bytes : List UInt8) : Prop where
  used : buf.used = bytes.length
  free : buf.free = false
  data : bytes ≠ [] → buf.data = some p ∧ ∃ size, mem.Holds p size bytes

theorem OutputBuffer.carries_nil (mem : Blocks UInt8) (p : Nat) :
    OutputBuffer.Carries {} mem p [] :=
  ⟨rfl, rfl, fun h => absurd rfl h⟩

@[simp] theorem OutputContext.efree_of_free {buf : OutputBuffer}
    (h : buf.free = false) (mem : Blocks UInt8) : OutputContext.efree buf mem = some mem := by
  simp [OutputContext.efree, h]

theorem OutputContext.dtor_of_free (hinp : c.inp.free = false) (hout : c.out.free = false)
    (mem : Blocks UInt8) : c.dtor mem = some mem := by
  simp [OutputContext.dtor, hinp, hout]

theorem lt_initbufSize (s : Nat) : s < initbufSize s := by
  unfold initbufSize
  split <;> omega

namespace OutputGlobals

variable {g g' : OutputGlobals} {f : OutputFrame} {level : Nat}

/-- Nothing but the handlers `hs` and the blocks `bs` was changed on the
heap. -/
structure Keeps (g g' : OutputGlobals) (hs bs : List Nat) : Prop where
  handler : ∀ h, h < g.brk → h ∉ hs → g'.handler h = g.handler h
  block : ∀ b, b < g.mem.brk → b ∉ bs → g'.mem.block b = g.mem.block b
  brk : g.brk ≤ g'.brk
  memBrk : g.mem.brk ≤ g'.mem.brk

theorem Keeps.refl (g : OutputGlobals) (hs bs : List Nat) : g.Keeps g hs bs :=
  ⟨fun _ _ _ => rfl, fun _ _ _ => rfl, Nat.le_refl _, Nat.le_refl _⟩

/-- The stack was left alone. -/
structure Stays (g g' : OutputGlobals) : Prop where
  handlers : g'.handlers = g.handlers
  active : g'.active = g.active
  running : g'.running = g.running
  activated : g'.flags.activated = g.flags.activated

theorem Stays.refl (g : OutputGlobals) : g.Stays g :=
  ⟨rfl, rfl, rfl, rfl⟩

theorem Stays.trans (h : g.Stays g') (h' : g'.Stays g'') : g.Stays g'' where
  handlers := h'.handlers.trans h.handlers
  active := h'.active.trans h.active
  running := h'.running.trans h.running
  activated := h'.activated.trans h.activated

/-- Nothing was sent. -/
structure Silent (g g' : OutputGlobals) : Prop where
  sapi : g'.sapi = g.sapi
  disabled : g'.flags.disabled = g.flags.disabled

theorem Silent.refl (g : OutputGlobals) : g.Silent g :=
  ⟨rfl, rfl⟩

theorem Silent.trans (h : g.Silent g') (h' : g'.Silent g'') : g.Silent g'' :=
  ⟨h'.sapi.trans h.sapi, h'.disabled.trans h.disabled⟩

theorem Keeps.frame {hs bs : List Nat} (h : g.Keeps g' hs bs)
    (hf : f.At g level) (ha : f.address ∉ hs) (hb : f.block ∉ bs) : f.At g' level where
  handler := (h.handler _ hf.address_lt ha).trans hf.handler
  level := hf.level
  data := hf.data
  used := hf.used
  holds := hf.holds.congr (h.block _ hf.block_lt hb)
  disabled := hf.disabled
  address_lt := Nat.lt_of_lt_of_le hf.address_lt h.brk
  block_lt := Nat.lt_of_lt_of_le hf.block_lt h.memBrk

/-- A buffer has room after it was grown, and nothing else has changed. -/
theorem phpOutputHandlerGrow_spec {b n : Nat}
    {bytes : List UInt8} {mem : Blocks UInt8} (hdata : handler.buffer.data = some b)
    (hused : handler.buffer.used = bytes.length)
    (hholds : mem.Holds b handler.buffer.size bytes) (hb : b < mem.brk) :
    ∃ b' size mem', phpOutputHandlerGrow handler n mem = some ({ handler with
        buffer := { handler.buffer with data := some b', size := size } }, mem') ∧
      mem'.Holds b' size bytes ∧ bytes.length + n ≤ size ∧
      (b' = b ∨ b' = mem.brk) ∧ b' < mem'.brk ∧ mem.brk ≤ mem'.brk ∧
      ∀ q, q < mem.brk → q ≠ b → mem'.block q = mem.block q := by
  have hlength := hholds.length_le
  by_cases hgrow : handler.buffer.size - handler.buffer.used ≤ n
  · let grow := max (initbufSize handler.size)
      (initbufSize (n - (handler.buffer.size - handler.buffer.used)))
    have hroom := lt_initbufSize (n - (handler.buffer.size - handler.buffer.used))
    obtain ⟨mem', hrealloc, hbrk, hholds', hkeep⟩ :=
      hholds.realloc (Nat.le_add_right handler.buffer.size grow)
    refine ⟨mem.brk, handler.buffer.size + grow, mem', ?_, hholds', by omega,
      .inr rfl, by omega, by omega, ?_⟩
    · rw [phpOutputHandlerGrow, if_pos hgrow, hdata]
      simp only [bind_eq_bind, hrealloc, bind_some, Option.pure_def, grow]
    · intro q hq hne
      exact hkeep q hne (Nat.ne_of_lt hq)
  · refine ⟨b, handler.buffer.size, mem, ?_, hholds, by omega, .inl rfl, hb,
      Nat.le_refl _, fun _ _ _ => rfl⟩
    rw [phpOutputHandlerGrow, if_neg hgrow, ← hdata]

/-- The frame `f` has become `f'`, and nothing else has changed. -/
structure Becomes (g g' : OutputGlobals) (f f' : OutputFrame) (level : Nat) :
    Prop where
  keeps : g.Keeps g' [f.address] [f.block]
  stays : g.Stays g'
  silent : g.Silent g'
  there : f'.At g' level
  address : f'.address = f.address
  block : f'.block = f.block ∨ g.mem.brk ≤ f'.block

theorem Becomes.refl (hf : f.At g level) : g.Becomes g f f level :=
  ⟨.refl _ _ _, .refl _, .refl _, hf, rfl, .inl rfl⟩

theorem Becomes.trans {f'' : OutputFrame} (hf : f.block < g.mem.brk) (h : g.Becomes g' f f' level)
    (h' : g'.Becomes g'' f' f'' level) : g.Becomes g'' f f'' level where
  stays := h.stays.trans h'.stays
  silent := h.silent.trans h'.silent
  keeps := {
    handler := by
      intro a hlt ha
      rw [h'.keeps.handler a (Nat.lt_of_lt_of_le hlt h.keeps.brk)
        (h.address ▸ ha), h.keeps.handler a hlt ha]
    block := by
      intro b hb hne
      have hne' : b ∉ [f'.block] := by
        rw [mem_singleton] at hne ⊢
        have := h.block
        omega
      rw [h'.keeps.block b (Nat.lt_of_lt_of_le hb h.keeps.memBrk) hne', h.keeps.block b hb hne]
    brk := Nat.le_trans h.keeps.brk h'.keeps.brk
    memBrk := Nat.le_trans h.keeps.memBrk h'.keeps.memBrk }
  there := h'.there
  address := h'.address.trans h.address
  block := by
    have := h.block
    have := h'.block
    have := h.keeps.memBrk
    omega

/-- The handler of a frame is set to another record over the same block. -/
theorem Becomes.of_setHandler (hf : f.At g level)
    {bytes : List UInt8} (hlevel : handler.level = f.handler.level)
    (hdata : handler.buffer.data = f.handler.buffer.data)
    (hsize : handler.buffer.size = f.handler.buffer.size)
    (hused : handler.buffer.used = bytes.length)
    (hholds : g.mem.Holds f.block f.handler.buffer.size bytes)
    (hdisabled : handler.flags.disabled = true → bytes = []) :
    g.Becomes (g.setHandler f.address handler g.mem) f
      { f with handler := handler, bytes := bytes } level where
  stays := ⟨rfl, rfl, rfl, rfl⟩
  silent := ⟨rfl, rfl⟩
  keeps := {
    handler := by
      intro a _ ha
      rw [mem_singleton] at ha
      exact update_of_ne ha _ _
    block := fun _ _ _ => rfl
    brk := Nat.le_refl _
    memBrk := Nat.le_refl _ }
  there := {
    handler := update_self _ _ _
    level := hlevel.trans hf.level
    data := hdata.trans hf.data
    used := hused
    holds := by
      rw [hsize]
      exact hholds
    disabled := hdisabled
    address_lt := hf.address_lt
    block_lt := hf.block_lt }
  address := rfl
  block := .inl rfl

/-- The input of a context goes behind what the handler has. -/
theorem phpOutputHandlerAppend_spec {buf : OutputBuffer}
    (hf : f.At g level) (hbuf : buf.Carries g.mem p input)
    (hp : input ≠ [] → p ≠ f.block ∧ p < g.mem.brk)
    (hdisabled : f.handler.flags.disabled = true → input = []) :
    ∃ stored g' f', g.phpOutputHandlerAppend f.address buf = some (stored, g') ∧
      g.Becomes g' f f' level ∧ f'.bytes = f.bytes ++ input ∧
      f'.handler.flags = f.handler.flags := by
  by_cases hnil : input = []
  · subst hnil
    have hused : buf.used = 0 := hbuf.used
    refine ⟨true, g, f, ?_, .refl hf, by simp, rfl⟩
    rw [phpOutputHandlerAppend, if_pos hused]
  · obtain ⟨hdata, size, hholds⟩ := hbuf.data hnil
    obtain ⟨hne, hlt⟩ := hp hnil
    have hused : buf.used ≠ 0 := by
      rw [hbuf.used, Ne, length_eq_zero_iff]
      exact hnil
    obtain ⟨b', size', mem', hgrow, hholds', hroom, hb', hlt', hbrk, hkeep⟩ :=
      phpOutputHandlerGrow_spec hf.data hf.used hf.holds hf.block_lt (n := buf.used)
    have hread : mem'.read p buf.used = some input := by
      rw [hbuf.used]
      exact (hholds.congr (hkeep p hlt hne)).read
    have hmore : f.bytes.length + input.length ≤ size' := hbuf.used ▸ hroom
    obtain ⟨mem'', hwrite, hbrk', hholds'', hkeep'⟩ :=
      hholds'.write hmore
    rw [← hf.used] at hwrite
    let handler : OutputHandler := { f.handler with
      buffer := { f.handler.buffer with
        data := some b', size := size'
        used := f.handler.buffer.used + buf.used } }
    refine ⟨!(decide (handler.size ≠ 0) &&
      decide (handler.size ≤ handler.buffer.used)) || g.running.isSome,
      { g.setHandler f.address handler mem'' with
      flags := { g.flags with written := true } },
      ⟨f.address, handler, b', f.bytes ++ input⟩, ?_, ?_, rfl, rfl⟩
    · rw [phpOutputHandlerAppend, if_neg hused, hf.handler]
      simp only [bind_eq_bind, bind_some, hgrow, hdata, hread, hwrite, Option.pure_def]
      rfl
    · refine ⟨⟨?_, ?_, Nat.le_refl _, ?_⟩, ⟨rfl, rfl, rfl, rfl⟩, ⟨rfl, rfl⟩, ?_, rfl, ?_⟩
      · intro a _ ha
        rw [mem_singleton] at ha
        exact update_of_ne ha _ _
      · intro q hq hqne
        rw [mem_singleton] at hqne
        exact (hkeep' q (by omega)).trans (hkeep q hq hqne)
      · show g.mem.brk ≤ mem''.brk
        omega
      · refine ⟨update_self _ _ _, hf.level, rfl, ?_, hholds'', ?_, hf.address_lt, ?_⟩
        · show f.handler.buffer.used + buf.used = _
          rw [hf.used, hbuf.used, length_append]
        · intro h
          exact absurd (hdisabled h) hnil
        · show b' < mem''.brk
          omega
      · show b' = f.block ∨ g.mem.brk ≤ b'
        omega

/-- The handler is given all that its buffer holds, and passes it on. -/
theorem phpOutputHandlerCall_eq (hf : f.At g level)
    (hrun : g.running = none) (hfree : c.inp.free = false) :
    ∃ op, g.phpOutputHandlerCall f.address c = some (if f.bytes = [] then .noData else .success,
        { op := op
          out := ⟨some f.block, f.handler.buffer.size, f.bytes.length, false⟩ },
        g.setHandler f.address { f.handler with
          flags := { f.handler.flags with started := true } } g.mem) := by
  refine ⟨if f.handler.flags.started then c.op else c.op ||| opStart, ?_⟩
  have hstatus : (if f.bytes.length ≠ 0 then OutputHandlerStatus.success
      else .noData) = if f.bytes = [] then .noData else .success := by
    by_cases hnil : f.bytes = []
    · simp [hnil]
    · simp [hnil, length_eq_zero_iff]
  simp only [phpOutputHandlerCall, hf.handler, bind_eq_bind,
    bind_some, OutputContext.feed, OutputContext.efree_of_free hfree,
    phpOutputHandlerDefaultFunc, OutputContext.pass, hf.data, hf.used,
    Option.pure_def, Bool.not_true, Bool.false_eq_true, if_false, hstatus,
    setHandler, hrun]

/-- What `php_output_handler_op` does to a handler: either the input stays in
the buffer, or the handler passes on all that it has. -/
theorem phpOutputHandlerOp_spec (hf : f.At g level) (hrun : g.running = none)
    (hinp : c.inp.Carries g.mem p input) (hout : c.out = {})
    (hp : input ≠ [] → p ≠ f.block ∧ p < g.mem.brk)
    (hdisabled : f.handler.flags.disabled = true → input = []) :
    ∃ status c' g' f', g.phpOutputHandlerOp f.address c = some (status, c', g') ∧
      g.Becomes g' f f' level ∧ c'.op = c.op ∧ c'.inp.free = false ∧
      f'.handler.flags.disabled = f.handler.flags.disabled ∧ (c.op ≠ 0 → f'.bytes = []) ∧
      ((status = .noData ∧ c'.out = {} ∧ f'.bytes = f.bytes ++ input) ∨
        (status = .success ∧ f'.bytes = [] ∧ f.bytes ++ input ≠ [] ∧
          c'.out.Carries g'.mem f'.block (f.bytes ++ input))) := by
  obtain ⟨stored, g₁, f₁, happend, hbecomes, hbytes, hflags⟩ :=
    phpOutputHandlerAppend_spec hf hinp hp hdisabled
  have hlock : g.phpOutputLockError c.op = false := by
    simp [phpOutputLockError, hrun]
  rw [phpOutputHandlerOp, hlock]
  simp only [Bool.false_eq_true, if_false, bind_eq_bind, happend, bind_some]
  by_cases hstored : (stored && decide (c.op = 0)) = true
  · rw [if_pos hstored]
    have hop : c.op = 0 := by simpa using (Bool.and_eq_true_iff.mp hstored).2
    refine ⟨.noData, c, g₁, f₁, rfl, hbecomes, rfl, hinp.free, by rw [hflags],
      fun h => absurd hop h, .inl ⟨rfl, hout, hbytes⟩⟩
  · rw [if_neg hstored]
    have hrun₁ : g₁.running = none := hbecomes.stays.running.trans hrun
    obtain ⟨op, hcall⟩ := phpOutputHandlerCall_eq hbecomes.there hrun₁ hinp.free
    rw [hbecomes.address] at hcall
    simp only [hcall, bind_some]
    let processed : OutputHandler := { f₁.handler with
      flags := { f₁.handler.flags with started := true, processed := true }
      buffer := { f₁.handler.buffer with used := 0 } }
    have hdone : g₁.Becomes (g₁.setHandler f₁.address processed g₁.mem) f₁
        { f₁ with handler := processed, bytes := [] } level :=
      .of_setHandler hbecomes.there rfl rfl rfl rfl hbecomes.there.holds.nil (fun _ => rfl)
    have hall := hbecomes.trans hf.block_lt hdone
    rw [hbecomes.address] at hall
    by_cases hnil : f₁.bytes = []
    · refine ⟨.noData, { op := c.op }, _, _, ?_, hall, rfl, rfl, ?_,
        fun _ => rfl, .inl ⟨rfl, rfl, ?_⟩⟩
      · simp [hnil, phpOutputHandlerResult, setHandler, OutputContext.reset,
          OutputContext.dtor, processed]
      · rw [← hflags]
      · rw [← hbytes, hnil]
    · refine ⟨.success, { op := c.op, out := ⟨some f₁.block,
        f₁.handler.buffer.size, f₁.bytes.length, false⟩ }, _, _, ?_, hall,
        rfl, rfl, ?_, fun _ => rfl, .inr ⟨rfl, rfl, hbytes ▸ hnil, ?_⟩⟩
      · simp [hnil, phpOutputHandlerResult, setHandler, processed]
      · rw [← hflags]
      · rw [← hbytes]
        exact ⟨rfl, rfl, fun _ => ⟨rfl, _, hbecomes.there.holds⟩⟩

variable {fs : List OutputFrame}

/-- The frames describe a stack of handlers with its top in front.  No two
handlers share an address or a block. -/
def Stacked (g : OutputGlobals) : List OutputFrame → Prop
  | [] => True
  | f :: fs => f.At g fs.length ∧
      (∀ f' ∈ fs, f'.address ≠ f.address ∧ f'.block ≠ f.block) ∧ g.Stacked fs

/-- What the buffers hold, from the bottom of the stack up. -/
def pending : List OutputFrame → List UInt8
  | [] => []
  | f :: fs => pending fs ++ f.bytes

theorem Keeps.stacked {hs bs : List Nat} (h : g.Keeps g' hs bs)
    (hfs : g.Stacked fs) (hne : ∀ f ∈ fs, f.address ∉ hs ∧ f.block ∉ bs) : g'.Stacked fs := by
  induction fs with
  | nil => trivial
  | cons f fs ih =>
    obtain ⟨hf, hdistinct, hfs⟩ := hfs
    obtain ⟨ha, hb⟩ := hne f mem_cons_self
    refine ⟨h.frame hf ha hb, hdistinct, ih hfs ?_⟩
    intro f' hf'
    exact hne f' (mem_cons_of_mem f hf')

theorem Stacked.address_lt (hfs : g.Stacked fs) : ∀ f ∈ fs, f.address < g.brk := by
  induction fs with
  | nil => simp
  | cons f fs ih =>
    obtain ⟨hf, -, hfs⟩ := hfs
    intro f' hf'
    rcases mem_cons.mp hf' with rfl | hmem
    · exact hf.address_lt
    · exact ih hfs f' hmem

theorem Stacked.block_lt (hfs : g.Stacked fs) : ∀ f ∈ fs, f.block < g.mem.brk := by
  induction fs with
  | nil => simp
  | cons f fs ih =>
    obtain ⟨hf, -, hfs⟩ := hfs
    intro f' hf'
    rcases mem_cons.mp hf' with rfl | hmem
    · exact hf.block_lt
    · exact ih hfs f' hmem

/-- The frames `fs` of a stack have become `fs'`, and nothing else on the heap
has changed. -/
structure Turns (g g' : OutputGlobals) (fs fs' : List OutputFrame) : Prop where
  keeps : g.Keeps g' (fs.map (·.address)) (fs.map (·.block))
  stacked : g'.Stacked fs'
  addresses : fs'.map (·.address) = fs.map (·.address)
  blocks : ∀ f ∈ fs', f.block ∈ fs.map (·.block) ∨ g.mem.brk ≤ f.block

theorem Turns.refl (hfs : g.Stacked fs) : g.Turns g fs fs :=
  ⟨.refl _ _ _, hfs, rfl, fun _ hf => .inl (List.mem_map_of_mem hf)⟩

/-- The rest of the stack is untouched while its top changes. -/
theorem Becomes.stacked (hfs : g.Stacked (f :: fs))
    (h : g.Becomes g' f f' level) : g'.Stacked fs := by
  obtain ⟨-, hdistinct, hfs⟩ := hfs
  apply h.keeps.stacked hfs
  intro f' hf'
  simpa using hdistinct f' hf'

theorem Becomes.cons {g₁ : OutputGlobals} {fs' : List OutputFrame} (hfs : g.Stacked (f :: fs))
    (h : g.Becomes g₁ f f' fs.length) (h' : g₁.Turns g' fs fs') :
    g.Turns g' (f :: fs) (f' :: fs') := by
  obtain ⟨hf, hdistinct, htail⟩ := hfs
  have hlength : fs'.length = fs.length := by
    simpa using congrArg List.length h'.addresses
  have haddress : f'.address ∉ fs.map (·.address) := by
    rw [h.address, List.mem_map]
    rintro ⟨f₀, hmem, heq⟩
    exact (hdistinct f₀ hmem).1 heq
  have hblock : f'.block ∉ fs.map (·.block) := by
    rw [List.mem_map]
    rintro ⟨f₀, hmem, heq⟩
    have hlt := htail.block_lt f₀ hmem
    have hne := (hdistinct f₀ hmem).2
    have := h.block
    omega
  have hlt := h.there.block_lt
  refine ⟨⟨?_, ?_, ?_, ?_⟩, ⟨?_, ?_, h'.stacked⟩, ?_, ?_⟩
  · intro a hlt ha
    rw [map_cons, mem_cons, not_or] at ha
    rw [h'.keeps.handler a (Nat.lt_of_lt_of_le hlt h.keeps.brk) ha.2,
      h.keeps.handler a hlt (by simpa using ha.1)]
  · intro b hb hne
    rw [map_cons, mem_cons, not_or] at hne
    rw [h'.keeps.block b (Nat.lt_of_lt_of_le hb h.keeps.memBrk) hne.2,
      h.keeps.block b hb (by simpa using hne.1)]
  · exact Nat.le_trans h.keeps.brk h'.keeps.brk
  · exact Nat.le_trans h.keeps.memBrk h'.keeps.memBrk
  · rw [hlength]
    exact h'.keeps.frame h.there haddress hblock
  · intro f₀ hmem
    constructor
    · intro heq
      apply haddress
      rw [← heq, ← h'.addresses]
      exact List.mem_map_of_mem hmem
    · intro heq
      rcases h'.blocks f₀ hmem with hold | hnew
      · exact hblock (heq ▸ hold)
      · omega
  · rw [map_cons, map_cons, h.address, h'.addresses]
  · intro f₀ hmem
    have hbrk := h.keeps.memBrk
    rw [map_cons, mem_cons]
    rcases mem_cons.mp hmem with rfl | hmem
    · have := h.block
      omega
    · rcases h'.blocks f₀ hmem with hold | hnew
      · exact .inl (.inr hold)
      · exact .inr (Nat.le_trans hbrk hnew)

/-- The topmost handler that takes part in a walk has something in its
buffer. -/
def TopFull (fs : List OutputFrame) : Prop :=
  ∃ f ∈ fs.find? (!·.handler.flags.disabled), f.bytes ≠ []

/-- How far a walk with another task than to write comes: to the bottom if it
starts with any bytes, and else not at all. -/
def Drains (fs fs' : List OutputFrame) (input output : List UInt8) : Prop :=
  (input ≠ [] ∨ TopFull fs → pending fs' = []) ∧ (input = [] → ¬TopFull fs → output = [])

/-- The input of a context lies in none of the buffers `fs`. -/
def Apart (g : OutputGlobals) (fs : List OutputFrame) (p : Nat) (input : List UInt8) : Prop :=
  input ≠ [] → p < g.mem.brk ∧ ∀ f ∈ fs, f.block ≠ p

/-- The walk down the stack: what a handler passes on is the input of the one
below it, and the bottom one passes its output on to the SAPI. -/
theorem zendStackApplyOp_spec (hfs : g.Stacked (f :: fs)) (hrun : g.running = none)
    (hinp : c.inp.Carries g.mem p input) (hout : c.out = {}) (hp : g.Apart (f :: fs) p input) :
    ∃ c' g' fs' q output, zendStackApplyOp g c ((f :: fs).map (·.address)) = some (c', g') ∧
      g.Turns g' (f :: fs) fs' ∧ g.Stays g' ∧ g.Silent g' ∧ c'.inp.free = false ∧
      c'.out.Carries g'.mem q output ∧ pending (f :: fs) ++ input = output ++ pending fs' ∧
      (c.op ≠ 0 → Drains (f :: fs) fs' input output) := by
  -- The induction is on the part of the stack below the handler.
  induction fs generalizing f g c p input with
  | nil =>
    obtain ⟨hf, hdistinct, htail⟩ := id hfs
    have hlevel : f.handler.level = 0 := hf.level
    by_cases hdisabled : f.handler.flags.disabled = true
    · refine ⟨c.pass, g, [f], p, input, ?_, .refl hfs, .refl _, .refl _, rfl, hinp, ?_, ?_⟩
      · simp [zendStackApplyOp, phpOutputStackApplyOp, hf.handler, hdisabled, hlevel]
      · simp [pending, hf.disabled hdisabled]
      · simp +contextual [Drains, pending, hf.disabled hdisabled]
    · obtain ⟨status, c', g', f', hop, hbecomes, -, hfree, -, hempty, hresult⟩ :=
        phpOutputHandlerOp_spec hf hrun hinp hout
          (fun h => ⟨((hp h).2 f mem_cons_self).symm, (hp h).1⟩)
          (fun h => absurd h hdisabled)
      have hturns := hbecomes.cons hfs (.refl trivial)
      have hfinal : zendStackApplyOp g c ([f].map (·.address)) = some (c', g') := by
        rcases hresult with ⟨rfl, -⟩ | ⟨rfl, -⟩ <;>
          simp [zendStackApplyOp, phpOutputStackApplyOp, hf.handler,
            hdisabled, hop, swapUnlessLast, hlevel]
      rcases hresult with ⟨-, hout', hbytes⟩ | ⟨-, hbytes, -, hcarries⟩
      · exact ⟨c', g', [f'], 0, [], hfinal, hturns, hbecomes.stays,
          hbecomes.silent, hfree, hout' ▸ OutputBuffer.carries_nil _ _, by simp [pending, hbytes],
          fun hne => ⟨fun _ => by simp [pending, hempty hne], fun _ _ => rfl⟩⟩
      · refine ⟨c', g', [f'], f'.block, _, hfinal, hturns, hbecomes.stays,
          hbecomes.silent, hfree, hcarries, by simp [pending, hbytes], fun _ => ⟨?_, ?_⟩⟩
        · simp [pending, hbytes]
        · intro hinput hfull
          simpa [TopFull, hdisabled, hinput] using hfull
  | cons f₂ fs ih =>
    obtain ⟨hf, hdistinct, htail⟩ := id hfs
    have hlevel : f.handler.level ≠ 0 := by
      rw [hf.level]
      simp
    by_cases hdisabled : f.handler.flags.disabled = true
    · obtain ⟨c', g', fs', q, output, hwalk, hturns, hstays, hsilent, hfree, hcarries, heq,
          hdrains⟩ := ih htail hrun hinp hout fun h =>
          ⟨(hp h).1, fun f' hf' => (hp h).2 f' (mem_cons_of_mem f hf')⟩
      refine ⟨c', g', f :: fs', q, output, ?_, (Becomes.refl hf).cons hfs hturns,
        hstays, hsilent, hfree, hcarries, ?_, ?_⟩
      · rw [map_cons, zendStackApplyOp]
        simpa [phpOutputStackApplyOp, hf.handler, hdisabled, hlevel] using hwalk
      · simpa [pending, hf.disabled hdisabled] using heq
      · simpa [Drains, TopFull, pending, hdisabled, hf.disabled hdisabled] using hdrains
    · obtain ⟨status, c₁, g₁, f₁, hop, hbecomes, hsame, hfree, -, hempty, hresult⟩ :=
        phpOutputHandlerOp_spec hf hrun hinp hout
          (fun h => ⟨((hp h).2 f mem_cons_self).symm, (hp h).1⟩)
          (fun h => absurd h hdisabled)
      have htail₁ := hbecomes.stacked hfs
      rcases hresult with ⟨rfl, hout', hbytes⟩ | ⟨rfl, hbytes, hne, hcarries⟩
      · refine ⟨c₁, g₁, f₁ :: f₂ :: fs, 0, [], ?_, hbecomes.cons hfs (.refl htail₁), hbecomes.stays,
          hbecomes.silent, hfree, hout' ▸ OutputBuffer.carries_nil _ _,
          by simp [pending, hbytes], fun hne => ⟨?_, fun _ _ => rfl⟩⟩
        · rw [map_cons, zendStackApplyOp]
          simp [phpOutputStackApplyOp, hf.handler, hdisabled, hop]
        · -- The handler had nothing, and the walk ends with it.
          have hnone := hbytes.symm.trans (hempty hne)
          rw [append_eq_nil_iff] at hnone
          simp [TopFull, hdisabled, hnone]
      · have happart : g₁.Apart (f₂ :: fs) f₁.block (f.bytes ++ input) := by
          intro _
          refine ⟨hbecomes.there.block_lt, ?_⟩
          intro f' hf'
          have hlt := htail.block_lt f' hf'
          have hdiff := (hdistinct f' hf').2
          have := hbecomes.block
          omega
        obtain ⟨c', g', fs', q, output, hwalk, hturns, hstays, hsilent, hfree', hcarries', heq,
          hdrains⟩ := ih (c := { c₁ with inp := c₁.out, out := {} }) htail₁
            (hbecomes.stays.running.trans hrun) hcarries rfl happart
        refine ⟨c', g', f₁ :: fs', q, output, ?_, hbecomes.cons hfs hturns,
          hbecomes.stays.trans hstays, hbecomes.silent.trans hsilent, hfree',
          hcarries', ?_, ?_⟩
        · rw [map_cons, zendStackApplyOp]
          simpa [phpOutputStackApplyOp, hf.handler, hdisabled, hop,
            swapUnlessLast, hlevel, OutputContext.swap, hfree] using hwalk
        · simpa [pending, hbytes] using heq
        · intro hop
          refine ⟨fun _ => ?_, fun hinput hfull => ?_⟩
          · simp [pending, hbytes, (hdrains (hsame.trans_ne hop)).1 (.inl hne)]
          · simp [TopFull, hdisabled, hinput] at hfull hne
            exact absurd hfull hne

theorem zendStackApplyOp_singleton {h : Nat}
    (hh : g.handler h = some handler) (hlevel : handler.level = 0) :
    zendStackApplyOp g c [h] = if !handler.flags.disabled then do
        let (_, c, g) ← g.phpOutputHandlerOp h c return (c, g) else some (c.pass, g) := by
  cases hdisabled : handler.flags.disabled with
  | true =>
    simp [zendStackApplyOp, phpOutputStackApplyOp, hh, hdisabled, hlevel]
  | false =>
    cases hop : g.phpOutputHandlerOp h c with
    | none =>
      simp [zendStackApplyOp, phpOutputStackApplyOp, hh, hdisabled, hop]
    | some result =>
      obtain ⟨status, c', g'⟩ := result
      cases status <;> simp [zendStackApplyOp, phpOutputStackApplyOp, hh, hdisabled, hop,
          swapUnlessLast, hlevel]

theorem phpOutputDispatch_spec (op : Nat) {len : Nat} {str : Option Nat}
    (hfs : g.Stacked fs) (hrun : g.running = none)
    (hstack : g.handlers = fs.map (·.address)) (hactive : fs ≠ [] → g.active.isSome = true)
    (hstr : OutputBuffer.Carries { data := str, used := len } g.mem p input)
    (hp : g.Apart fs p input) :
    ∃ c' g' fs' q output, g.phpOutputDispatch op str len = some (c', g') ∧ g.Turns g' fs fs' ∧
      g.Stays g' ∧ g.Silent g' ∧ c'.inp.free = false ∧ c'.out.Carries g'.mem q output ∧
      pending fs ++ input = output ++ pending fs' ∧ (op ≠ 0 → Drains fs fs' input output) := by
  cases fs with
  | nil =>
    refine ⟨{ op := op, out := { data := str, used := len } }, g, [], p, input,
      ?_, .refl trivial, .refl _, .refl _, rfl, hstr, by simp [pending],
      fun _ => ⟨fun _ => rfl, fun hinput _ => hinput⟩⟩
    simp [phpOutputDispatch, hstack]
  | cons f fs =>
    have hwalk := zendStackApplyOp_spec (c := { op := op, inp := { data := str, used := len } })
      hfs hrun hstr rfl hp
    have hdispatch : g.phpOutputDispatch op str len = zendStackApplyOp g
        { op := op, inp := { data := str, used := len } }
        ((f :: fs).map (·.address)) := by
      rw [phpOutputDispatch, hactive (cons_ne_nil f fs), hstack]
      cases fs with
      | nil =>
        obtain ⟨hf, -⟩ := hfs
        rw [map_singleton, zendStackApplyOp_singleton hf.handler hf.level]
        simp [hf.handler]
      | cons f₂ fs => simp
    rw [hdispatch]
    exact hwalk

end OutputGlobals

/-- `php_header` lets output through: the headers are out already, or the
request is not for the headers alone and they can be sent. -/
def OutputSapi.allows (sapi : OutputSapi) : Bool :=
  sapi.headersSent || !sapi.headersOnly &&
    (sapi.noHeaders || sapi.callbackRun || sapi.sendHeaders ≠ .sendFailed)

namespace OutputGlobals

variable {g g' : OutputGlobals} {f : OutputFrame} {level : Nat}
variable {fs fs' : List OutputFrame} {p len : Nat} {str : Option Nat}
variable {input : List UInt8}

theorem phpHeader_allows (sapi : OutputSapi) :
    (sapi.allows = true → (phpHeader sapi).2.allows = true) ∧
      (sapi.headersSent = false → (phpHeader sapi).1 = sapi.allows) := by
  obtain ⟨headersSent, noHeaders, callbackRun, headersOnly, sendHeaders, _, _⟩ :=
    sapi
  cases headersSent <;> cases headersOnly <;> cases noHeaders <;>
    cases callbackRun <;> cases sendHeaders <;>
    simp [phpHeader, sapiSendHeaders, OutputSapi.allows]

/-- The header is sent without a change to the stack or the heap; from then on
nothing is let through if nothing was allowed. -/
theorem phpOutputHeader_spec (g : OutputGlobals) : ∃ sapi disabled, g.phpOutputHeader =
        { g with sapi := sapi, flags := { g.flags with disabled := disabled } } ∧
      sapi.written = g.sapi.written ∧ (g.sapi.allows = true → sapi.allows = true) ∧
      disabled = (g.flags.disabled || !g.sapi.allows) := by
  by_cases hsent : g.sapi.headersSent = true
  · exact ⟨g.sapi, g.flags.disabled, by simp [phpOutputHeader, hsent], rfl, id,
      by simp [OutputSapi.allows, hsent]⟩
  · obtain ⟨hallows, hheader⟩ := phpHeader_allows g.sapi
    refine ⟨(phpHeader g.sapi).2, g.flags.disabled || !(phpHeader g.sapi).1, ?_, ?_, hallows, ?_⟩
    · cases hheader : phpHeader g.sapi with
      | mk sent sapi => cases sent <;> simp [phpOutputHeader, hsent, hheader]
    · simp only [phpHeader, sapiSendHeaders]
      split
      · rfl
      · cases g.sapi.sendHeaders <;> rfl
    · rw [hheader (by simpa using hsent)]

/-- What a write leaves: the frames `fs` have become `fs'`, and all that is not
in their buffers was sent. -/
structure Sends (g g' : OutputGlobals) (fs fs' : List OutputFrame) (input : List UInt8) : Prop where
  turns : g.Turns g' fs fs'
  stays : g.Stays g'
  conserves : g'.flags.disabled = false →
    g'.sapi.written ++ pending fs' = g.sapi.written ++ pending fs ++ input
  disabled : g.flags.disabled = true → g'.flags.disabled = true
  allows : g.sapi.allows = true → g'.sapi.allows = true ∧ g'.flags.disabled = g.flags.disabled

/-- The SAPI is handed all of the output, unless the layer is disabled. -/
theorem phpOutputSend_spec {out : OutputBuffer} {q : Nat} {output : List UInt8}
    (hout : out.Carries g.mem q output) : ∃ sapi flags, g.phpOutputSend out =
        some { g with sapi := sapi, flags := flags } ∧
      flags.activated = g.flags.activated ∧
      (flags.disabled = false → sapi.written = g.sapi.written ++ output) ∧
      (g.flags.disabled = true → flags.disabled = true) ∧
      (g.sapi.allows = true → sapi.allows = true ∧ flags.disabled = g.flags.disabled) ∧
      (sapi.written = g.sapi.written ++ output ↔
        output = [] ∨ g.sapi.allows = true ∧ g.flags.disabled = false) := by
  by_cases hnil : output = []
  · subst hnil
    have hused : out.used = 0 := hout.used
    refine ⟨g.sapi, g.flags, ?_, rfl, fun _ => (append_nil _).symm, id, fun h => ⟨h, rfl⟩, by simp⟩
    cases hdata : out.data with
    | none => simp [phpOutputSend, hdata]
    | some p => simp [phpOutputSend, hdata, hused]
  · obtain ⟨hdata, size, hholds⟩ := hout.data hnil
    have hused : out.used ≠ 0 := by
      rw [hout.used, Ne, length_eq_zero_iff]
      exact hnil
    obtain ⟨sapi, disabled, hheader, hwritten, hallows, hdisabled⟩ :=
      g.phpOutputHeader_spec
    have hread : g.mem.read q out.used = some output := by
      rw [hout.used]
      exact hholds.read
    have hkept : g.sapi.allows = true → sapi.allows = true ∧ disabled = g.flags.disabled :=
      fun h => ⟨hallows h, by rw [hdisabled, h, Bool.not_true, Bool.or_false]⟩
    have hstill : g.flags.disabled = true → disabled = true := by simp +contextual [hdisabled]
    simp only [phpOutputSend, hdata, if_neg hused, hheader]
    cases disabled with
    | true =>
      refine ⟨sapi, { g.flags with disabled := true }, rfl, rfl, nofun, fun _ => rfl, hkept, ?_⟩
      rw [hwritten, self_eq_append_right]
      refine iff_of_false hnil ?_
      rintro (h | ⟨h, h'⟩)
      · exact hnil h
      · rw [(hkept h).2.symm] at h'
        cases h'
    | false =>
      refine ⟨{ sapi with
          written := sapi.written ++ output
          flushes := sapi.flushes + if g.flags.implicitFlush then 1 else 0 },
        { g.flags with disabled := false, sent := true }, ?_, rfl, ?_, hstill, hkept, ?_⟩
      · simp only [Bool.false_eq_true, if_false, hread, bind_eq_bind, bind_some, Option.pure_def]
      · intro _
        rw [hwritten]
      · refine iff_of_true (by rw [hwritten]) (.inr ?_)
        simpa [and_comm] using hdisabled.symm

/-- `php_output_op` loses nothing, by whichever path the output goes; with
another task than to write it empties the buffers in one case only. -/
theorem phpOutputOp_spec (op : Nat) (hfs : g.Stacked fs)
    (hrun : g.running = none) (hstack : g.handlers = fs.map (·.address))
    (hactive : fs ≠ [] → g.active.isSome = true)
    (hstr : OutputBuffer.Carries { data := str, used := len } g.mem p input)
    (hp : g.Apart fs p input) :
    ∃ g' fs', g.phpOutputOp op str len = some g' ∧ g.Sends g' fs fs' input ∧
      (op ≠ 0 → input = [] →
        (pending fs' = [] ∧ g'.sapi.written = g.sapi.written ++ pending fs ↔ pending fs = [] ∨
          TopFull fs ∧ g.sapi.allows = true ∧ g.flags.disabled = false)) := by
  obtain ⟨c, g₁, fs', q, output, hdispatch, hturns, hstays, hsilent, hfree, hout, heq, hdrains⟩ :=
    phpOutputDispatch_spec op hfs hrun hstack hactive hstr hp
  obtain ⟨sapi, flags, hsend, hactivated, hwritten, hdisabled, hallows, hexact⟩ :=
    phpOutputSend_spec hout
  have hlock : g.phpOutputLockError op = false := by
    simp [phpOutputLockError, hrun]
  have hsame : g₁.Keeps { g₁ with sapi := sapi, flags := flags } [] [] :=
    ⟨fun _ _ _ => rfl, fun _ _ _ => rfl, Nat.le_refl _, Nat.le_refl _⟩
  refine ⟨{ g₁ with sapi := sapi, flags := flags }, fs', ?_, ?_, ?_⟩
  · rw [phpOutputOp, hlock]
    simp only [Bool.false_eq_true, if_false, bind_eq_bind, hdispatch,
      bind_some, hsend, OutputContext.dtor_of_free hfree hout.free,
      Option.pure_def]
  · have hkeeps := hturns.keeps
    refine ⟨⟨⟨hkeeps.handler, hkeeps.block, hkeeps.brk, hkeeps.memBrk⟩,
      hsame.stacked hturns.stacked (by simp), hturns.addresses, hturns.blocks⟩,
      ⟨hstays.handlers, hstays.active, hstays.running,
        hactivated.trans hstays.activated⟩, ?_, ?_, ?_⟩
    · intro h
      rw [hwritten h, hsilent.sapi, append_assoc, ← heq, append_assoc]
    · intro h
      exact hdisabled (hsilent.disabled.trans h)
    · intro h
      rw [← hsilent.sapi] at h
      obtain ⟨hallowed, heq'⟩ := hallows h
      exact ⟨hallowed, heq'.trans hsilent.disabled⟩
  · rintro hop rfl
    obtain ⟨hempty, hnone⟩ := hdrains hop
    rw [append_nil] at heq
    rw [hsilent.sapi, hsilent.disabled] at hexact
    constructor
    · rintro ⟨hpending, hsent⟩
      rw [hpending, append_nil] at heq
      rw [heq] at hsent ⊢
      by_cases hfull : TopFull fs
      · exact (hexact.mp hsent).imp id fun hable => ⟨hfull, hable⟩
      · exact .inl (hnone rfl hfull)
    · rintro (hpending | ⟨hfull, hable⟩)
      · rw [hpending, eq_comm, append_eq_nil_iff] at heq
        exact ⟨heq.2, by rw [hpending, hexact.mpr (.inl heq.1), heq.1]⟩
      · rw [hempty (.inr hfull), append_nil] at heq
        exact ⟨hempty (.inr hfull), heq ▸ hexact.mpr (.inr hable)⟩

theorem phpOutputWrite_spec (hfs : g.Stacked fs)
    (hrun : g.running = none) (hactivated : g.flags.activated = true)
    (hstack : g.handlers = fs.map (·.address)) (hactive : fs ≠ [] → g.active.isSome = true)
    (hstr : OutputBuffer.Carries { data := str, used := len } g.mem p input)
    (hp : g.Apart fs p input) :
    ∃ g' fs', g.phpOutputWrite str len = some g' ∧ g.Sends g' fs fs' input := by
  by_cases hdisabled : g.flags.disabled = true
  · refine ⟨g, fs, by simp [phpOutputWrite, hdisabled], .refl hfs, .refl _, ?_,
      id, fun h => ⟨h, rfl⟩⟩
    intro h
    rw [hdisabled] at h
    cases h
  · rw [phpOutputWrite, if_neg hdisabled, if_pos hactivated]
    obtain ⟨g', fs', hop, hsends, -⟩ := phpOutputOp_spec 0 hfs hrun hstack hactive hstr hp
    exact ⟨g', fs', hop, hsends⟩

/-- A handler that is told to do something other than to write gives up all
that it has. -/
theorem phpOutputHandlerOp_drain (op : Nat) (hop : op ≠ 0) (hf : f.At g level)
    (hrun : g.running = none) : ∃ status c g' f', g.phpOutputHandlerOp f.address { op := op } =
        some (status, c, g') ∧
      g.Becomes g' f f' level ∧ f'.bytes = [] ∧
      f'.handler.flags.disabled = f.handler.flags.disabled ∧
      c.inp.free = false ∧ c.out.Carries g'.mem f'.block f.bytes := by
  let told : OutputContext := { op := op }
  have hinp : told.inp.Carries g.mem 0 [] := OutputBuffer.carries_nil g.mem 0
  obtain ⟨status, c, g', f', heq, hbecomes, -, hfree, hdisabled, hempty, hresult⟩ :=
    phpOutputHandlerOp_spec hf hrun hinp rfl (fun h => absurd rfl h) (fun _ => rfl)
  refine ⟨status, c, g', f', heq, hbecomes, hempty hop, hdisabled, hfree, ?_⟩
  rcases hresult with ⟨-, hout, hbytes⟩ | ⟨-, -, -, hcarries⟩
  · rw [hempty hop, append_nil] at hbytes
    rw [hout, ← hbytes]
    exact OutputBuffer.carries_nil _ _
  · rwa [append_nil] at hcarries

end OutputGlobals

end PhpEngine

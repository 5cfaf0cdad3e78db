/-
The calls of the output layer, one after the other: what was sent, followed by
the buffers from the bottom of the stack to the top, is what was written, less
what was cleaned or discarded.
-/
import PhpEngine.OutputConserves

namespace PhpEngine.OutputGlobals

open List Function Option

variable {g g' : OutputGlobals} {f f' : OutputFrame}
variable {fs fs' : List OutputFrame} {kept input : List UInt8} {allowed : Prop}

/-- How a call finds the layer and leaves it. -/
structure Sound (g : OutputGlobals) (fs : List OutputFrame)
    (kept : List UInt8) (allowed : Prop) : Prop where
  running : g.running = none
  activated : g.flags.activated = true
  handlers : g.handlers = fs.map (·.address)
  active : g.active = (fs.map (·.address)).head?
  stacked : g.Stacked fs
  conserves : g.flags.disabled = false → g.sapi.written ++ pending fs = kept
  allows : allowed → g.sapi.allows = true ∧ g.flags.disabled = false

section

variable (h : g.Sound fs kept allowed)
include h

theorem Sound.isSome_active (hfs : fs ≠ []) :
    g.active.isSome = true := by
  cases fs with
  | nil => exact absurd rfl hfs
  | cons f fs => simp [h.active]

/-- What was sent and what the buffers hold is known after a write. -/
theorem Sound.of_sends (hs : g.Sends g' fs fs' input) : g'.Sound fs' (kept ++ input) allowed where
  running := hs.stays.running.trans h.running
  activated := hs.stays.activated.trans h.activated
  handlers := by rw [hs.stays.handlers, h.handlers, hs.turns.addresses]
  active := by rw [hs.stays.active, h.active, hs.turns.addresses]
  stacked := hs.turns.stacked
  conserves := by
    intro hdisabled
    rw [hs.conserves hdisabled, h.conserves]
    cases hbefore : g.flags.disabled with
    | false => rfl
    | true =>
      rw [hs.disabled hbefore] at hdisabled
      cases hdisabled
  allows := by
    intro ha
    obtain ⟨hallows, hdisabled⟩ := h.allows ha
    obtain ⟨hallows', hsame⟩ := hs.allows hallows
    exact ⟨hallows', hsame.trans hdisabled⟩

theorem Sound.of_keeps {hs bs : List Nat} (hk : g.Keeps g' hs bs) (hstays : g.Stays g')
    (hsilent : g.Silent g') (hne : ∀ f ∈ fs, f.address ∉ hs ∧ f.block ∉ bs) :
    g'.Sound fs kept allowed where
  running := hstays.running.trans h.running
  activated := hstays.activated.trans h.activated
  handlers := hstays.handlers.trans h.handlers
  active := hstays.active.trans h.active
  stacked := hk.stacked h.stacked hne
  conserves := by
    intro hdisabled
    rw [hsilent.sapi]
    exact h.conserves (hsilent.disabled.symm.trans hdisabled)
  allows := by
    intro ha
    rw [hsilent.sapi, hsilent.disabled]
    exact h.allows ha

/-- The string of the caller lies apart from all buffers, and goes when the
call is over. -/
theorem phpOutputWriteString_sound (str : List UInt8) :
    ∃ g' fs', g.phpOutputWriteString str = some g' ∧ g'.Sound fs' (kept ++ str) allowed := by
  let g₁ : OutputGlobals := { g with mem := (g.mem.alloc str).2 }
  have hlt := h.stacked.block_lt
  have halloc : g.Keeps g₁ [] [] := by
    refine ⟨fun _ _ _ => rfl, ?_, Nat.le_refl _, Nat.le_succ _⟩
    intro b hb _
    exact Blocks.block_alloc_of_ne (Nat.ne_of_lt hb) str
  have h₁ : g₁.Sound fs kept allowed :=
    h.of_keeps halloc ⟨rfl, rfl, rfl, rfl⟩ ⟨rfl, rfl⟩ (by simp)
  have hholds : g₁.mem.Holds g.mem.brk str.length str := .of_alloc g.mem str
  have hstr : OutputBuffer.Carries { data := some g.mem.brk, used := str.length }
      g₁.mem g.mem.brk str := ⟨rfl, rfl, fun _ => ⟨rfl, _, hholds⟩⟩
  obtain ⟨g₂, fs', hwrite, hsends⟩ := phpOutputWrite_spec
    h₁.stacked h₁.running h₁.activated h₁.handlers h₁.isSome_active hstr
    (fun _ => ⟨Nat.lt_succ_self _, fun f hf => Nat.ne_of_lt (hlt f hf)⟩)
  have h₂ := h₁.of_sends hsends
  have hapart : g.mem.brk ∉ fs.map (·.block) := by
    rw [List.mem_map]
    rintro ⟨f, hf, heq⟩
    exact absurd heq (Nat.ne_of_lt (hlt f hf))
  obtain ⟨mem, hfree, hbrk, hsame⟩ := (hholds.congr
    (hsends.turns.keeps.block _ (Nat.lt_succ_self _) hapart)).free
  refine ⟨{ g₂ with mem := mem }, fs', ?_, ?_⟩
  · have hwrite' : phpOutputWrite { g with mem := (g.mem.alloc str).2 }
        (some g.mem.brk) str.length = some g₂ := hwrite
    simp only [phpOutputWriteString, bind_eq_bind]
    rw [show (g.mem.alloc str).1 = g.mem.brk from rfl, hwrite', bind_some, hfree]
    rfl
  · have hkeeps : g₂.Keeps { g₂ with mem := mem } [] [g.mem.brk] := by
      refine ⟨fun _ _ _ => rfl, ?_, Nat.le_refl _, Nat.le_of_eq hbrk.symm⟩
      intro b _ hb
      exact hsame b (by simpa using hb)
    apply h₂.of_keeps hkeeps ⟨rfl, rfl, rfl, rfl⟩ ⟨rfl, rfl⟩
    intro f hf
    refine ⟨not_mem_nil, ?_⟩
    rw [mem_singleton]
    intro heq
    rcases hsends.turns.blocks f hf with hold | hnew
    · exact hapart (heq ▸ hold)
    · have : g.mem.brk + 1 ≤ f.block := hnew
      omega

theorem phpOutputFlushAll_sound :
    ∃ g' fs', g.phpOutputFlushAll = some g' ∧ g'.Sound fs' kept allowed ∧
      (pending fs' = [] ∧ g'.sapi.written = g.sapi.written ++ pending fs ↔ pending fs = [] ∨
        TopFull fs ∧ g.sapi.allows = true ∧ g.flags.disabled = false) := by
  by_cases hactive : g.active.isSome = true
  · have hstr : OutputBuffer.Carries { data := none, used := 0 } g.mem 0 [] :=
      OutputBuffer.carries_nil g.mem 0
    obtain ⟨g', fs', hop, hsends, hflushed⟩ := phpOutputOp_spec opFlush h.stacked h.running
      h.handlers h.isSome_active hstr (fun hne => absurd rfl hne)
    refine ⟨g', fs', ?_, by simpa using h.of_sends hsends, hflushed (by decide) rfl⟩
    rw [phpOutputFlushAll, if_pos hactive, hop]
  · have hnil : fs = [] := by
      by_contra hfs
      exact hactive (h.isSome_active hfs)
    subst hnil
    exact ⟨g, [], by rw [phpOutputFlushAll, if_neg hactive], h, by simp [pending]⟩

end

/-- The layer while the output of its top handler is on the way down: the stack
is without that handler. -/
def without (g : OutputGlobals) (fs : List OutputFrame) (active : Option Nat) : OutputGlobals :=
  { g with handlers := fs.map (·.address), active := active }

/-- What the top handler gave up is written to the rest of the stack, while the
buffer of that handler is still there. -/
theorem phpOutputWrite_drained {g₁ : OutputGlobals} {f₁ : OutputFrame}
    {out : OutputBuffer} (active : Option Nat) (h : g.Sound (f :: fs) kept allowed)
    (hbecomes : g.Becomes g₁ f f₁ fs.length) (hempty : f₁.bytes = [])
    (hout : out.Carries g₁.mem f₁.block f.bytes) (hactive : fs ≠ [] → active.isSome = true) :
    ∃ g' fs', (if out.data.isSome && out.used ≠ 0 then
          (g₁.without fs active).phpOutputWrite out.data out.used
        else some (g₁.without fs active)) = some g' ∧
      (g₁.without fs active).Stays g' ∧ g'.Stacked (f₁ :: fs') ∧
      fs'.map (·.address) = fs.map (·.address) ∧ (g'.flags.disabled = false →
        g'.sapi.written ++ pending (f₁ :: fs') = kept) ∧
      (allowed → g'.sapi.allows = true ∧ g'.flags.disabled = false) := by
  have hsame : g₁.Keeps (g₁.without fs active) [] [] :=
    ⟨fun _ _ _ => rfl, fun _ _ _ => rfl, Nat.le_refl _, Nat.le_refl _⟩
  have hturned := hbecomes.cons h.stacked (.refl (hbecomes.stacked h.stacked))
  have hstacked : (g₁.without fs active).Stacked (f₁ :: fs) :=
    hsame.stacked hturned.stacked (by simp)
  have happart : (g₁.without fs active).Apart fs f₁.block f.bytes :=
    fun _ => ⟨hstacked.1.block_lt, fun f' hf' => (hstacked.2.1 f' hf').2⟩
  obtain ⟨g', fs', hwrite, hsends⟩ : ∃ g' fs', (if out.data.isSome && out.used ≠ 0 then
          (g₁.without fs active).phpOutputWrite out.data out.used
        else some (g₁.without fs active)) = some g' ∧
      (g₁.without fs active).Sends g' fs fs' f.bytes := by
    by_cases hwritten : (out.data.isSome && decide (out.used ≠ 0)) = true
    · rw [if_pos hwritten]
      exact phpOutputWrite_spec hstacked.2.2 (hbecomes.stays.running.trans h.running)
        (hbecomes.stays.activated.trans h.activated) rfl hactive
        ⟨hout.used, rfl, hout.data⟩ happart
    · have hnil : f.bytes = [] := by
        by_contra hne
        apply hwritten
        simp [(hout.data hne).1, hout.used, hne]
      rw [if_neg hwritten, hnil]
      exact ⟨_, fs, rfl, .refl hstacked.2.2, .refl _, fun _ => by simp, id, fun ha => ⟨ha, rfl⟩⟩
  refine ⟨g', fs', hwrite, hsends.stays,
    ((Becomes.refl hstacked.1).cons hstacked hsends.turns).stacked,
    hsends.turns.addresses, ?_, ?_⟩
  · intro hdisabled
    have hbefore : g.flags.disabled = false := by
      cases hd : g.flags.disabled with
      | false => rfl
      | true =>
        rw [hsends.disabled (hbecomes.silent.disabled.trans hd)] at hdisabled
        cases hdisabled
    have hsapi : (g₁.without fs active).sapi = g.sapi := hbecomes.silent.sapi
    rw [pending, hempty, append_nil, hsends.conserves hdisabled, hsapi, append_assoc]
    exact h.conserves hbefore
  · intro ha
    obtain ⟨hallows, hdisabled⟩ := h.allows ha
    rw [← hbecomes.silent.sapi] at hallows
    obtain ⟨hallows', heq⟩ := hsends.allows hallows
    exact ⟨hallows', heq.trans (hbecomes.silent.disabled.trans hdisabled)⟩

theorem Sound.top (h : g.Sound (f :: fs) kept allowed) :
    g.active = some f.address ∧ g.handler f.address = some f.handler := by
  refine ⟨?_, h.stacked.1.handler⟩
  simpa using h.active

/-- A flush hands the contents of the top buffer to the stack below it. -/
theorem phpOutputFlush_sound (h : g.Sound fs kept allowed) :
    ∃ success g' fs', g.phpOutputFlush = some (success, g') ∧ g'.Sound fs' kept allowed := by
  cases fs with
  | nil =>
    have hactive : g.active = none := by simpa using h.active
    exact ⟨false, g, [], by simp [phpOutputFlush, hactive], h⟩
  | cons f fs =>
    obtain ⟨hactive, hhandler⟩ := h.top
    by_cases hflushable : f.handler.flags.flushable = true
    · obtain ⟨status, c, g₁, f₁, hop, hbecomes, hempty, -, hfree, hout⟩ :=
        phpOutputHandlerOp_drain opFlush (by decide) h.stacked.1 h.running
      obtain ⟨g₂, fs', hwrite, hstays, hstacked, haddresses, hconserves, hallows⟩ :=
        phpOutputWrite_drained g₁.active h hbecomes hempty hout
          fun _ => by rw [hbecomes.stays.active, hactive, isSome_some]
      have hhandlers : g₁.handlers = f.address :: fs.map (·.address) :=
        hbecomes.stays.handlers.trans h.handlers
      have hpush : g₁.phpOutputFlushWrite f.address c.out =
          some { g₂ with handlers := f.address :: g₂.handlers } := by
        have htail : { g₁ with handlers := g₁.handlers.tail } = g₁.without fs g₁.active := by
          rw [hhandlers]
          rfl
        rw [phpOutputFlushWrite, htail]
        by_cases hwritten : (c.out.data.isSome && decide (c.out.used ≠ 0)) = true
        · rw [if_pos hwritten] at hwrite ⊢
          rw [hwrite]
          rfl
        · rw [if_neg hwritten] at hwrite ⊢
          cases hwrite
          simp only [without, ← hhandlers]
      refine ⟨true, { g₂ with handlers := f.address :: g₂.handlers }, f₁ :: fs', ?_, ?_⟩
      · simp only [phpOutputFlush, hactive, hhandler, bind_eq_bind,
          bind_some, if_pos hflushable, hop, hpush,
          OutputContext.dtor_of_free hfree hout.free, Option.pure_def]
      · have hsame : g₂.Keeps { g₂ with handlers := f.address :: g₂.handlers } [] [] :=
          ⟨fun _ _ _ => rfl, fun _ _ _ => rfl, Nat.le_refl _, Nat.le_refl _⟩
        refine ⟨?_, ?_, ?_, ?_, hsame.stacked hstacked (by simp), hconserves,
          hallows⟩
        · exact (hstays.running.trans hbecomes.stays.running).trans h.running
        · exact (hstays.activated.trans hbecomes.stays.activated).trans h.activated
        · simp [hstays.handlers, without, hbecomes.address, haddresses]
        · simp [hstays.active, without, hbecomes.stays.active, hactive, hbecomes.address]
    · exact ⟨false, g, f :: fs, by simp [phpOutputFlush, hactive, hhandler, hflushable], h⟩

/-- What is left of the output without the contents of the top buffer. -/
def less (kept top : List UInt8) : List UInt8 :=
  kept.take (kept.length - top.length)

theorem Sound.conserves_less (h : g.Sound (f :: fs) kept allowed)
    (hdisabled : g.flags.disabled = false) : g.sapi.written ++ pending fs = less kept f.bytes := by
  rw [← h.conserves hdisabled, pending, ← append_assoc, less,
    length_append, Nat.add_sub_cancel, take_left]

/-- The contents of the top buffer are gone after a clean. -/
theorem phpOutputClean_sound (h : g.Sound (f :: fs) kept allowed)
    (hcleanable : f.handler.flags.cleanable = true) : ∃ g' f', g.phpOutputClean = some (true, g') ∧
      g'.Sound (f' :: fs) (less kept f.bytes) allowed := by
  obtain ⟨hactive, hhandler⟩ := h.top
  obtain ⟨status, c, g₁, f₁, hop, hbecomes, hempty, -, hfree, hout⟩ :=
    phpOutputHandlerOp_drain opClean (by decide) h.stacked.1 h.running
  refine ⟨g₁, f₁, ?_, ?_⟩
  · simp only [phpOutputClean, hactive, hhandler, bind_eq_bind, bind_some, if_pos hcleanable, hop,
      OutputContext.dtor_of_free hfree hout.free, Option.pure_def]
  · have hturns := hbecomes.cons h.stacked (.refl (hbecomes.stacked h.stacked))
    refine ⟨hbecomes.stays.running.trans h.running,
      hbecomes.stays.activated.trans h.activated, ?_, ?_, hturns.stacked, ?_, ?_⟩
    · rw [hbecomes.stays.handlers, h.handlers, hturns.addresses]
    · rw [hbecomes.stays.active, h.active, hturns.addresses]
    · intro hdisabled
      rw [hbecomes.silent.disabled] at hdisabled
      rw [hbecomes.silent.sapi, pending, hempty, append_nil, h.conserves_less hdisabled]
    · intro ha
      rw [hbecomes.silent.sapi, hbecomes.silent.disabled]
      exact h.allows ha

/-- The handler that leaves the stack gives up all that it has; a disabled one
has nothing. -/
theorem phpOutputFinalize_spec (h : g.Sound (f :: fs) kept allowed) (discard : Bool) :
    ∃ c g' f', g.phpOutputFinalize f.address f.handler discard = some (c, g') ∧
      g.Becomes g' f f' fs.length ∧ f'.bytes = [] ∧ c.inp.free = false ∧
      c.out.Carries g'.mem f'.block f.bytes := by
  have hf := h.stacked.1
  by_cases hdisabled : f.handler.flags.disabled = true
  · refine ⟨{ op := opFinal }, g, f, ?_, .refl hf, hf.disabled hdisabled, rfl, ?_⟩
    · simp [phpOutputFinalize, hdisabled]
    · rw [hf.disabled hdisabled]
      exact OutputBuffer.carries_nil _ _
  · obtain ⟨op, hop, hfinalize⟩ : ∃ op, op ≠ 0 ∧
        g.phpOutputFinalize f.address f.handler discard =
          (g.phpOutputHandlerOp f.address { op := op }).bind fun out => some out.2 := by
      refine ⟨_, ?_, by rw [phpOutputFinalize, if_neg hdisabled]; rfl⟩
      cases f.handler.flags.started <;> cases discard <;> decide
    obtain ⟨status, c, g₁, f₁, hrun, hbecomes, hempty, -, hfree, hout⟩ :=
      phpOutputHandlerOp_drain _ hop hf h.running
    refine ⟨c, g₁, f₁, ?_, hbecomes, hempty, hfree, hout⟩
    simp only [hfinalize, hrun, bind_some]

/-- A handler that is not on the stack can be freed, and the stack stays. -/
theorem phpOutputHandlerFree_spec {level : Nat} (hf : f.At g level)
    (hdistinct : ∀ f' ∈ fs, f'.address ≠ f.address ∧ f'.block ≠ f.block) (hfs : g.Stacked fs) :
    ∃ g', g.phpOutputHandlerFree f.address = some g' ∧ g'.Stacked fs ∧
      g.Stays g' ∧ g.Silent g' := by
  obtain ⟨mem, hfree, hbrk, hsame⟩ := hf.holds.free
  refine ⟨{ g with
    handler := update g.handler f.address none, mem := mem },
    ?_, ?_, ⟨rfl, rfl, rfl, rfl⟩, ⟨rfl, rfl⟩⟩
  · simp only [phpOutputHandlerFree, hf.handler, bind_eq_bind,
      bind_some, hf.data, hfree, Option.pure_def]
  · have hkeeps : g.Keeps { g with
        handler := update g.handler f.address none, mem := mem }
        [f.address] [f.block] := by
      refine ⟨?_, ?_, Nat.le_refl _, Nat.le_of_eq hbrk.symm⟩
      · intro a _ ha
        rw [mem_singleton] at ha
        exact update_of_ne ha _ _
      · intro b _ hb
        rw [mem_singleton] at hb
        exact hsame b hb
    apply hkeeps.stacked hfs
    intro f' hf'
    simpa using hdistinct f' hf'

/-- The top handler leaves the stack, and its output goes down the stack or is
dropped. -/
theorem phpOutputStackPop_sound (h : g.Sound (f :: fs) kept allowed)
    (hremovable : f.handler.flags.removable = true) (discard : Bool) :
    ∃ g' fs', g.phpOutputStackPop discard = some (true, g') ∧
      g'.Sound fs' (if discard then less kept f.bytes else kept) allowed := by
  obtain ⟨hactive, hhandler⟩ := h.top
  obtain ⟨c, g₁, f₁, hfinalize, hbecomes, hempty, hfree, hout⟩ :=
    phpOutputFinalize_spec h discard
  have htail : g₁.handlers.tail = fs.map (·.address) := by
    rw [hbecomes.stays.handlers, h.handlers, map_cons, tail_cons]
  obtain ⟨g₂, fs', hwrite, hstays, hstacked, haddresses, hconserves, hallows⟩ :
      ∃ g₂ fs', (g₁.without fs (fs.map (·.address)).head?).phpOutputPassAlong
          discard c.out = some g₂ ∧
        (g₁.without fs (fs.map (·.address)).head?).Stays g₂ ∧
        g₂.Stacked (f₁ :: fs') ∧
        fs'.map (·.address) = fs.map (·.address) ∧
        (g₂.flags.disabled = false → g₂.sapi.written ++ pending fs' =
          if discard then less kept f.bytes else kept) ∧
        (allowed → g₂.sapi.allows = true ∧ g₂.flags.disabled = false) := by
    cases discard with
    | false =>
      obtain ⟨g₂, fs', hwrite, hstays, hstacked, haddresses, hconserves, hallows⟩ :=
        phpOutputWrite_drained (fs.map (·.address)).head? h
          hbecomes hempty hout (by cases fs <;> simp)
      refine ⟨g₂, fs', by simpa [phpOutputPassAlong] using hwrite, hstays, hstacked, haddresses, ?_,
        hallows⟩
      intro hdisabled
      simpa [pending, hempty] using hconserves hdisabled
    | true =>
      have hsame : g₁.Keeps (g₁.without fs (fs.map (·.address)).head?) [] [] :=
        ⟨fun _ _ _ => rfl, fun _ _ _ => rfl, Nat.le_refl _, Nat.le_refl _⟩
      have hturns :=
        hbecomes.cons h.stacked (.refl (hbecomes.stacked h.stacked))
      refine ⟨_, fs, by simp [phpOutputPassAlong], .refl _,
        hsame.stacked hturns.stacked (by simp), rfl, ?_, ?_⟩
      · intro hdisabled
        have hbefore : g.flags.disabled = false :=
          hbecomes.silent.disabled.symm.trans hdisabled
        have hsapi : (g₁.without fs (fs.map (·.address)).head?).sapi =
            g.sapi := hbecomes.silent.sapi
        rw [hsapi, if_pos rfl, h.conserves_less hbefore]
      · intro ha
        show g₁.sapi.allows = true ∧ g₁.flags.disabled = false
        rw [hbecomes.silent.sapi, hbecomes.silent.disabled]
        exact h.allows ha
  obtain ⟨g₃, hfreed, hstacked₃, hstays₃, hsilent₃⟩ :=
    phpOutputHandlerFree_spec hstacked.1 hstacked.2.1 hstacked.2.2
  rw [hbecomes.address] at hfreed
  refine ⟨g₃, fs', ?_, ?_⟩
  · have hwrite' : phpOutputPassAlong { g₁ with
        handlers := g₁.handlers.tail
        active := g₁.handlers.tail.head? } discard c.out = some g₂ := by
      rw [htail]
      exact hwrite
    simp only [phpOutputStackPop, hactive, hhandler, bind_eq_bind,
      bind_some, hremovable, Bool.not_true, Bool.false_eq_true, if_false,
      hfinalize, hwrite', hfreed, OutputContext.dtor_of_free hfree hout.free,
      Option.pure_def]
  · have hstays' := hstays.trans hstays₃
    refine ⟨?_, ?_, ?_, ?_, hstacked₃, ?_, ?_⟩
    · exact (hstays'.running.trans hbecomes.stays.running).trans h.running
    · exact (hstays'.activated.trans hbecomes.stays.activated).trans h.activated
    · rw [hstays'.handlers, haddresses]
      rfl
    · rw [hstays'.active, haddresses]
      rfl
    · intro hdisabled
      rw [hsilent₃.sapi]
      exact hconserves (hsilent₃.disabled.symm.trans hdisabled)
    · intro ha
      rw [hsilent₃.sapi, hsilent₃.disabled]
      exact hallows ha

/-- A new handler lies apart from all others, with an empty buffer. -/
theorem phpOutputHandlerInit_spec (h : g.Sound fs kept allowed)
    (chunkSize : Nat) (flags : OutputHandlerFlags) : ∃ (f : OutputFrame) (g' : OutputGlobals),
      g.phpOutputHandlerInit chunkSize flags = (f.address, g') ∧
      f.At g' 0 ∧ f.bytes = [] ∧ g'.Sound fs kept allowed ∧
      ∀ f' ∈ fs, f'.address ≠ f.address ∧ f'.block ≠ f.block := by
  let size := initbufSize chunkSize
  let f : OutputFrame := ⟨g.brk, ⟨"default output handler", flags, 0, chunkSize,
    { data := some g.mem.brk, size := size }⟩, g.mem.brk, []⟩
  let mem := (g.mem.alloc (List.replicate size 0)).2
  have hkeeps : g.Keeps { g.setHandler g.brk f.handler mem with
      brk := g.brk + 1 } [] [] := by
    refine ⟨?_, ?_, Nat.le_succ _, Nat.le_succ _⟩
    · intro a ha _
      exact update_of_ne (Nat.ne_of_lt ha) _ _
    · intro b hb _
      exact Blocks.block_alloc_of_ne (Nat.ne_of_lt hb) _
  refine ⟨f, { g.setHandler g.brk f.handler mem with brk := g.brk + 1 }, rfl, ?_,
    rfl, h.of_keeps hkeeps ⟨rfl, rfl, rfl, rfl⟩ ⟨rfl, rfl⟩ (by simp), ?_⟩
  · have hholds := (Blocks.Holds.of_alloc g.mem (List.replicate size 0)).nil
    rw [length_replicate] at hholds
    exact ⟨update_self _ _ _, rfl, rfl, rfl, hholds, fun _ => rfl,
      Nat.lt_succ_self _, Nat.lt_succ_self _⟩
  · intro f' hf'
    exact ⟨Nat.ne_of_lt (h.stacked.address_lt f' hf'), Nat.ne_of_lt (h.stacked.block_lt f' hf')⟩

theorem phpOutputStartUser_sound (h : g.Sound fs kept allowed)
    (conflict : Bool) (chunkSize : Nat) (flags : OutputHandlerFlags) :
    ∃ success g' fs', g.phpOutputStartUser conflict chunkSize flags =
        some (success, g') ∧ g'.Sound fs' kept allowed := by
  obtain ⟨f, g₁, hinit, hf, hempty, h₁, hdistinct⟩ :=
    phpOutputHandlerInit_spec h chunkSize flags
  have hlock : g₁.phpOutputLockError opStart = false := by
    simp [phpOutputLockError, h₁.running]
  cases conflict with
  | true =>
    obtain ⟨g₂, hfreed, hstacked, hstays, hsilent⟩ :=
      phpOutputHandlerFree_spec hf hdistinct h₁.stacked
    refine ⟨false, g₂, fs, ?_, ?_⟩
    · simp [phpOutputStartUser, hinit, phpOutputHandlerStart, hlock, hfreed]
    · refine ⟨hstays.running.trans h₁.running,
        hstays.activated.trans h₁.activated, hstays.handlers.trans h₁.handlers,
        hstays.active.trans h₁.active, hstacked, ?_, ?_⟩
      · intro hdisabled
        rw [hsilent.sapi]
        exact h₁.conserves (hsilent.disabled.symm.trans hdisabled)
      · intro ha
        rw [hsilent.sapi, hsilent.disabled]
        exact h₁.allows ha
  | false =>
    let handler : OutputHandler := { f.handler with level := g₁.handlers.length }
    have hlength : g₁.handlers.length = fs.length := by
      rw [h₁.handlers, length_map]
    let g₂ : OutputGlobals := { g₁.setHandler f.address handler g₁.mem with
      handlers := f.address :: g₁.handlers
      active := some f.address }
    have hkeeps : g₁.Keeps g₂ [f.address] [] := by
      refine ⟨?_, fun _ _ _ => rfl, Nat.le_refl _, Nat.le_refl _⟩
      intro a _ ha
      rw [mem_singleton] at ha
      exact update_of_ne ha _ _
    refine ⟨true, g₂, { f with handler := handler } :: fs, ?_, h₁.running,
      h₁.activated, ?_, ?_, ⟨?_, hdistinct, ?_⟩, ?_, ?_⟩
    · simp only [phpOutputStartUser, hinit, phpOutputHandlerStart, hlock,
        hf.handler, Bool.false_eq_true, if_false, bind_eq_bind,
        bind_some, Option.pure_def, if_true]
      rfl
    · simp [g₂, h₁.handlers]
    · simp [g₂]
    · exact ⟨update_self _ _ _, hlength, hf.data, hf.used, hf.holds,
        hf.disabled, hf.address_lt, hf.block_lt⟩
    · apply hkeeps.stacked h₁.stacked
      intro f' hf'
      simpa using (hdistinct f' hf').1
    · intro hdisabled
      rw [pending, hempty, append_nil]
      exact h₁.conserves hdisabled
    · exact h₁.allows

theorem contents_of_at {level : Nat} (hf : f.At g level) : g.contents f.address = some f.bytes := by
  simp [contents, hf.handler, hf.data, hf.used, hf.holds.read]

/-- The buffers that the stack has are those of the frames. -/
theorem Stacked.buffered (hfs : g.Stacked fs) :
    g.buffered (fs.map (·.address)) = some (pending fs) := by
  induction fs with
  | nil => rfl
  | cons f fs ih =>
    obtain ⟨hf, -, htail⟩ := hfs
    simp [OutputGlobals.buffered, ih htail, contents_of_at hf, pending]

theorem pending_eq_nil : pending fs = [] ↔ ∀ f ∈ fs, f.bytes = [] := by
  induction fs with
  | nil => simp [pending]
  | cons f fs ih => simp [pending, ih, and_comm]

section

variable (h : g.Sound fs kept allowed)
include h

theorem Sound.notice (notices : List String) :
    Sound { g with notices := notices } fs kept allowed := by
  have hkeeps : g.Keeps { g with notices := notices } [] [] :=
    ⟨fun _ _ _ => rfl, fun _ _ _ => rfl, Nat.le_refl _, Nat.le_refl _⟩
  exact h.of_keeps hkeeps ⟨rfl, rfl, rfl, rfl⟩ ⟨rfl, rfl⟩ (by simp)

theorem phpOutputStackPop_call (discard : Bool) :
    ∃ success g' fs', g.phpOutputStackPop discard = some (success, g') ∧
      g'.Sound fs' (g.keep (if discard then .discard else .endTop) success kept) allowed := by
  cases fs with
  | nil =>
    have hactive : g.active = none := by simpa using h.active
    refine ⟨false, { g with notices := g.notices ++ [popNotice discard none] },
      [], by simp [phpOutputStackPop, hactive], ?_⟩
    cases discard <;> exact h.notice _
  | cons f fs =>
    obtain ⟨hactive, hhandler⟩ := h.top
    by_cases hremovable : f.handler.flags.removable = true
    · obtain ⟨g', fs', hpop, h'⟩ :=
        phpOutputStackPop_sound h hremovable discard
      refine ⟨true, g', fs', hpop, ?_⟩
      cases discard with
      | false => exact h'
      | true =>
        simpa [keep, less, h.handlers, contents_of_at h.stacked.1] using h'
    · refine ⟨false, { g with notices := g.notices ++ [popNotice discard f.handler] },
        f :: fs, by simp [phpOutputStackPop, hactive, hhandler, hremovable], ?_⟩
      cases discard <;> exact h.notice _

theorem call_sound (call : OutputCall) :
    ∃ success g' fs', g.call call = some (success, g') ∧
      g'.Sound fs' (g.keep call success kept) allowed := by
  cases call with
  | start conflict chunkSize flags =>
    exact phpOutputStartUser_sound h conflict chunkSize flags
  | write str =>
    obtain ⟨g', fs', hwrite, h'⟩ := phpOutputWriteString_sound h str
    exact ⟨true, g', fs', by simp [OutputGlobals.call, hwrite], h'⟩
  | flush => exact phpOutputFlush_sound h
  | flushAll =>
    obtain ⟨g', fs', hflush, h', -⟩ := phpOutputFlushAll_sound h
    exact ⟨true, g', fs', by simp [OutputGlobals.call, hflush], h'⟩
  | clean =>
    cases fs with
    | nil =>
      have hactive : g.active = none := by simpa using h.active
      exact ⟨false, g, [], by simp [OutputGlobals.call, phpOutputClean, hactive], h⟩
    | cons f fs =>
      obtain ⟨hactive, hhandler⟩ := h.top
      by_cases hcleanable : f.handler.flags.cleanable = true
      · obtain ⟨g', f', hclean, h'⟩ := phpOutputClean_sound h hcleanable
        refine ⟨true, g', f' :: fs, hclean, ?_⟩
        simpa [keep, less, h.handlers, contents_of_at h.stacked.1] using h'
      · exact ⟨false, g, f :: fs, by
          simp [OutputGlobals.call, phpOutputClean, hactive, hhandler, hcleanable], h⟩
  | endTop =>
    obtain ⟨success, g', fs', hpop, h'⟩ := phpOutputStackPop_call h false
    exact ⟨success, g', fs', hpop, h'⟩
  | discard =>
    obtain ⟨success, g', fs', hpop, h'⟩ := phpOutputStackPop_call h true
    exact ⟨success, g', fs', hpop, h'⟩

theorem run_sound (calls : List OutputCall) :
    ∃ g' fs' kept', g.run kept calls = some (g', kept') ∧ g'.Sound fs' kept' allowed := by
  induction calls generalizing g fs kept with
  | nil => exact ⟨g, fs, kept, rfl, h⟩
  | cons call calls ih =>
    obtain ⟨success, g₁, fs₁, hcall, h₁⟩ := call_sound h call
    obtain ⟨g', fs', kept', hrun, h'⟩ := ih h₁
    exact ⟨g', fs', kept', by simp [run, hcall, hrun], h'⟩

end

theorem phpOutputActivate_sound (g : OutputGlobals) :
    (phpOutputActivate g).Sound [] g.sapi.written (g.sapi.allows = true) where
  running := rfl
  activated := rfl
  handlers := rfl
  active := rfl
  stacked := trivial
  conserves := fun _ => append_nil _
  allows := fun h => ⟨h, rfl⟩

/-- No sequence of calls loses output: what the SAPI got, followed by what the
buffers hold from the bottom of the stack to the top, is what was written, less
the contents of the top buffer at each clean and discard.  This takes a SAPI
that lets output through; that the active handler is the top of the stack does
not. -/
theorem run_conserves (g : OutputGlobals) (calls : List OutputCall) : ∃ g' kept rest,
      (phpOutputActivate g).run g.sapi.written calls = some (g', kept) ∧
      g'.active = g'.handlers.head? ∧ g'.buffered g'.handlers = some rest ∧
      (g.sapi.allows = true → g'.sapi.written ++ rest = kept) := by
  obtain ⟨g', fs, kept, hrun, h⟩ := run_sound (phpOutputActivate_sound g) calls
  refine ⟨g', kept, pending fs, hrun, ?_, ?_, ?_⟩
  · rw [h.active, h.handlers]
  · rw [h.handlers]
    exact h.stacked.buffered
  · intro hallows
    exact h.conserves (h.allows hallows).2

theorem Stacked.contents (hfs : g.Stacked fs) : ∀ f ∈ fs, g.contents f.address = some f.bytes := by
  induction fs with
  | nil => simp
  | cons f fs ih => exact forall_mem_cons.mpr ⟨contents_of_at hfs.1, ih hfs.2.2⟩

/-- A handler that takes part in `php_output_flush_all`. -/
def takesPart (g : OutputGlobals) (h : Nat) : Bool :=
  (g.handler h).any (!·.flags.disabled)

theorem Stacked.topFull (hfs : g.Stacked fs) : TopFull fs ↔
    ∃ top, (fs.map (·.address)).find? g.takesPart = some top ∧ g.contents top ≠ some [] := by
  induction fs with
  | nil => simp [TopFull]
  | cons f fs ih =>
    obtain ⟨hf, -, htail⟩ := hfs
    have hpart : g.takesPart f.address = !f.handler.flags.disabled := by
      simp [takesPart, hf.handler]
    rw [TopFull, map_cons, find?_cons, find?_cons, hpart]
    cases f.handler.flags.disabled with
    | false => simp [contents_of_at hf]
    | true => exact ih htail

/-- After any calls, flushing all buffers leaves them empty and sends their
bytes from the bottom of the stack to the top exactly when they are empty
already, or the topmost handler that takes part has some bytes and output is let
through. -/
theorem phpOutputFlushAll_flushes_iff (g : OutputGlobals) (calls : List OutputCall) :
    ∃ g₁ kept rest g₂, (phpOutputActivate g).run g.sapi.written calls = some (g₁, kept) ∧
      g₁.buffered g₁.handlers = some rest ∧ g₁.phpOutputFlushAll = some g₂ ∧
      ((∀ h ∈ g₂.handlers, g₂.contents h = some []) ∧
        g₂.sapi.written = g₁.sapi.written ++ rest ↔ rest = [] ∨
          (∃ top, g₁.handlers.find? g₁.takesPart = some top ∧ g₁.contents top ≠ some []) ∧
          g₁.sapi.allows = true ∧ g₁.flags.disabled = false) := by
  obtain ⟨g₁, fs, kept, hrun, h⟩ := run_sound (phpOutputActivate_sound g) calls
  obtain ⟨g₂, fs', hflush, h', hflushed⟩ := phpOutputFlushAll_sound h
  refine ⟨g₁, kept, pending fs, g₂, hrun, ?_, hflush, ?_⟩
  · rw [h.handlers]
    exact h.stacked.buffered
  · have hempty : (∀ a ∈ g₂.handlers, g₂.contents a = some []) ↔ pending fs' = [] := by
      rw [pending_eq_nil, h'.handlers, List.forall_mem_map]
      exact forall₂_congr fun f hf => by rw [h'.stacked.contents f hf, some_inj]
    rw [hempty, h.handlers, ← h.stacked.topFull]
    exact hflushed

/-- A request for the headers alone (`HEAD`). -/
def headRequest : OutputGlobals where
  handlers := []
  active := none
  running := none
  flags := {}
  handler := fun _ => none
  brk := 0
  mem := .empty
  sapi := { headersOnly := true }
  direct := []
  notices := []

/-- A byte that is written in answer to a `HEAD` request is neither sent nor
kept in a buffer. -/
theorem headRequest_drops : ∃ g', (phpOutputActivate headRequest).run [] [.write [97]] =
        some (g', [97]) ∧ g'.buffered g'.handlers = some [] ∧ g'.sapi.written ++ [] ≠ [97] :=
  ⟨_, rfl, rfl, by decide⟩

/-- A byte is written to a buffer, and another one is started over it: the walk
ends at the empty one, and the byte stays where it is. -/
theorem flushAll_stops : ((phpOutputActivate { headRequest with sapi := {} }).run []
      [.start false 0 {}, .write [97], .start false 0 {}]).bind (fun result =>
        result.1.phpOutputFlushAll.map fun g => (result.1.buffered result.1.handlers,
          result.1.sapi.written, g.buffered g.handlers, g.sapi.written)) =
    some (some [97], [], some [97], []) := by
  decide +kernel

end PhpEngine.OutputGlobals

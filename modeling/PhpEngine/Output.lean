/-
The output layer (main/output.c) with internal handlers that pass their input
on (`php_output_handler_default_func`).  Handlers and buffers lie on a heap and
are handed on by their addresses.  `none` is a run that the process does not
survive: an access to memory that is not there, or the fatal error of
`php_output_lock_error`.
-/
import PhpEngine.Blocks

namespace PhpEngine

/-- `php_output_buffer` -/
structure OutputBuffer where
  data : Option Nat := none
  size : Nat := 0
  used : Nat := 0
  free : Bool := false
deriving DecidableEq

/-- The ability and status flags of a handler. -/
structure OutputHandlerFlags where
  cleanable : Bool := true
  flushable : Bool := true
  removable : Bool := true
  started : Bool := false
  disabled : Bool := false
  processed : Bool := false
deriving DecidableEq

/-- `php_output_handler` -/
structure OutputHandler where
  name : String
  flags : OutputHandlerFlags
  level : Nat
  size : Nat
  buffer : OutputBuffer
deriving DecidableEq

/-- `php_output_context` -/
structure OutputContext where
  op : Nat
  inp : OutputBuffer := {}
  out : OutputBuffer := {}
deriving DecidableEq

/-- `php_output_handler_status_t` -/
inductive OutputHandlerStatus where
  | failure
  | success
  | noData
deriving DecidableEq

/-- What `sapi_module.send_headers` answers. -/
inductive SapiHeaderResult where
  | sentSuccessfully
  | doSend
  | sendFailed
deriving DecidableEq

/-- What the output layer reads of the SAPI, and what it sent there. -/
structure OutputSapi where
  headersSent : Bool := false
  noHeaders : Bool := false
  callbackRun : Bool := false
  headersOnly : Bool := false
  sendHeaders : SapiHeaderResult := .sentSuccessfully
  written : List UInt8 := []
  flushes : Nat := 0
deriving DecidableEq

/-- The global flags. -/
structure OutputFlags where
  implicitFlush : Bool := false
  disabled : Bool := false
  written : Bool := false
  sent : Bool := false
  activated : Bool := false
deriving DecidableEq

/-- `OG`, the heap and the SAPI.  The stack of handlers has its top in front;
`direct` is what a layer that is not activated wrote past the SAPI. -/
structure OutputGlobals where
  handlers : List Nat
  active : Option Nat
  running : Option Nat
  flags : OutputFlags
  handler : Nat → Option OutputHandler
  brk : Nat
  mem : Blocks UInt8
  sapi : OutputSapi
  direct : List UInt8
  notices : List String

/-- The handler ops. -/
def opWrite : Nat := 0x00
def opStart : Nat := 0x01
def opClean : Nat := 0x02
def opFlush : Nat := 0x04
def opFinal : Nat := 0x08

/-- `PHP_OUTPUT_HANDLER_INITBUF_SIZE` -/
def initbufSize (s : Nat) : Nat :=
  if s > 1 then s + 0x1000 - s % 0x1000 else 0x4000

/-- `php_output_activate`, with what the SAPI has and what lies on the heap
left alone. -/
def phpOutputActivate (g : OutputGlobals) : OutputGlobals :=
  { g with
    handlers := []
    active := none
    running := none
    flags := { activated := true } }

namespace OutputContext

/-- Free what a buffer points to, if that is for the context to do. -/
def efree (buf : OutputBuffer) (mem : Blocks UInt8) : Option (Blocks UInt8) :=
  match buf.free, buf.data with
  | true, some p => mem.free p
  | _, _ => some mem

/-- `php_output_context_feed` -/
def feed (c : OutputContext) (data : Option Nat) (size used : Nat) (free : Bool)
    (mem : Blocks UInt8) : Option (OutputContext × Blocks UInt8) := do
  let mem ← efree c.inp mem
  return ({ c with inp := ⟨data, size, used, free⟩ }, mem)

/-- `php_output_context_swap` -/
def swap (c : OutputContext) (mem : Blocks UInt8) : Option (OutputContext × Blocks UInt8) := do
  let mem ← efree c.inp mem
  return ({ c with inp := c.out, out := {} }, mem)

/-- `php_output_context_pass` -/
def pass (c : OutputContext) : OutputContext :=
  { c with out := c.inp, inp := {} }

/-- `php_output_context_dtor` -/
def dtor (c : OutputContext) (mem : Blocks UInt8) : Option (Blocks UInt8) := do
  let mem ← efree c.inp mem
  efree c.out mem

/-- `php_output_context_reset` -/
def reset (c : OutputContext) (mem : Blocks UInt8) : Option (OutputContext × Blocks UInt8) := do
  let mem ← c.dtor mem
  return ({ op := c.op }, mem)

end OutputContext

namespace OutputGlobals

variable (g : OutputGlobals)

def setHandler (h : Nat) (handler : OutputHandler) (mem : Blocks UInt8) : OutputGlobals :=
  { g with handler := Function.update g.handler h (some handler), mem := mem }

/-- `php_output_lock_error`; the error ends the request. -/
def phpOutputLockError (op : Nat) : Bool :=
  op ≠ 0 && g.active.isSome && g.running.isSome

/-- `sapi_send_headers`, less the headers themselves and the callback of
`header_register_callback`. -/
def sapiSendHeaders (sapi : OutputSapi) : Bool × OutputSapi :=
  if sapi.headersSent || sapi.noHeaders || sapi.callbackRun then (true, sapi)
  else
    match sapi.sendHeaders with
    | .sentSuccessfully => (true, { sapi with headersSent := true })
    | .doSend => (true, { sapi with headersSent := true })
    | .sendFailed => (false, { sapi with headersSent := false })

/-- `php_header` -/
def phpHeader (sapi : OutputSapi) : Bool × OutputSapi :=
  match sapiSendHeaders sapi with
  | (sent, sapi) => (!(!sent || sapi.headersOnly), sapi)

/-- `php_output_header` -/
def phpOutputHeader : OutputGlobals :=
  if g.sapi.headersSent then g
  else
    match phpHeader g.sapi with
    | (true, sapi) => { g with sapi := sapi }
    | (false, sapi) => { g with sapi := sapi, flags.disabled := true }

/-- Make room for `used` more bytes (the first half of
`php_output_handler_append`). -/
def phpOutputHandlerGrow (handler : OutputHandler) (used : Nat)
    (mem : Blocks UInt8) : Option (OutputHandler × Blocks UInt8) :=
  if handler.buffer.size - handler.buffer.used ≤ used then do
    let growInt := initbufSize handler.size
    let growBuf := initbufSize (used - (handler.buffer.size - handler.buffer.used))
    let size := handler.buffer.size + max growInt growBuf
    let (data, mem) ← mem.realloc handler.buffer.data size
    return ({ handler with
      buffer := { handler.buffer with data := some data, size := size } }, mem)
  else some (handler, mem)

/-- `php_output_handler_append` -/
def phpOutputHandlerAppend (h : Nat) (buf : OutputBuffer) : Option (Bool × OutputGlobals) :=
  if buf.used = 0 then some (true, g)
  else do
    let handler ← g.handler h
    let (handler, mem) ← phpOutputHandlerGrow handler buf.used g.mem
    let dst ← handler.buffer.data
    let src ← buf.data
    let bytes ← mem.read src buf.used
    let mem ← mem.write dst handler.buffer.used bytes
    let used := handler.buffer.used + buf.used
    let handler := { handler with buffer := { handler.buffer with used := used } }
    let g := { g.setHandler h handler mem with flags.written := true }
    -- Output of a running handler is stored away, whatever the chunk size.
    return (!(handler.size ≠ 0 && handler.size ≤ used) || g.running.isSome, g)

/-- `php_output_handler_default_func`; it always succeeds. -/
def phpOutputHandlerDefaultFunc (c : OutputContext) : Bool × OutputContext :=
  (true, c.pass)

/-- The call of the handler in `php_output_handler_op`.  While it runs,
`OG(running)` is the handler; the default one does not look at it. -/
def phpOutputHandlerCall (h : Nat) (c : OutputContext) :
    Option (OutputHandlerStatus × OutputContext × OutputGlobals) := do
  let handler ← g.handler h
  let op := if handler.flags.started then c.op else c.op ||| opStart
  let (c, mem) ← { c with op := op }.feed handler.buffer.data
    handler.buffer.size handler.buffer.used false g.mem
  let (called, c) := phpOutputHandlerDefaultFunc c
  let status := if !called then .failure
    else if c.out.used ≠ 0 then .success else .noData
  let handler := { handler with flags := { handler.flags with started := true } }
  return (status, c, { g.setHandler h handler mem with running := none })

/-- The `switch` at the end of `php_output_handler_op`. -/
def phpOutputHandlerResult (h : Nat) (status : OutputHandlerStatus)
    (c : OutputContext) : Option (OutputContext × OutputGlobals) := do
  let handler ← g.handler h
  let processed := { handler with
    buffer := { handler.buffer with used := 0 }
    flags := { handler.flags with processed := true } }
  match status with
  | .failure =>
    let mem ← OutputContext.efree c.out g.mem
    let disabled := { handler with
      buffer := { handler.buffer with data := none, used := 0, size := 0 }
      flags := { handler.flags with disabled := true } }
    let out := { c.out with
      data := handler.buffer.data, used := handler.buffer.used, free := true }
    return ({ c with out := out }, g.setHandler h disabled mem)
  | .noData =>
    let (c, mem) ← c.reset g.mem
    return (c, g.setHandler h processed mem)
  | .success => return (c, g.setHandler h processed g.mem)

/-- `php_output_handler_op` -/
def phpOutputHandlerOp (h : Nat) (c : OutputContext) :
    Option (OutputHandlerStatus × OutputContext × OutputGlobals) :=
  if g.phpOutputLockError c.op then none
  else do
    let (stored, g) ← g.phpOutputHandlerAppend h c.inp
    if stored && c.op = 0 then return (.noData, c, g)
    else
      let (status, called, g) ← g.phpOutputHandlerCall h c
      let (called, g) ← g.phpOutputHandlerResult h status called
      return (status, { called with op := c.op }, g)

/-- `php_output_context_swap`, unless the handler is the last one in the
stack. -/
def swapUnlessLast (handler : OutputHandler) (c : OutputContext) :
    Option (OutputContext × OutputGlobals) :=
  if handler.level ≠ 0 then do
    let (c, mem) ← c.swap g.mem
    return (c, { g with mem := mem })
  else some (c, g)

/-- `php_output_stack_apply_op`; the result says whether the walk ends. -/
def phpOutputStackApplyOp (h : Nat) (c : OutputContext) :
    Option (Bool × OutputContext × OutputGlobals) := do
  let handler ← g.handler h
  if handler.flags.disabled then
    return (false, if handler.level = 0 then c.pass else c, g)
  else
    let (status, c, g) ← g.phpOutputHandlerOp h c
    match status with
    | .noData => return (true, c, g)
    | .success =>
      let (c, g) ← g.swapUnlessLast handler c
      return (false, c, g)
    | .failure =>
      let (c, g) ← g.swapUnlessLast handler c
      return (false, c, g)

/-- `zend_stack_apply_with_argument` with `ZEND_STACK_APPLY_TOPDOWN` -/
def zendStackApplyOp (g : OutputGlobals) (c : OutputContext) :
    List Nat → Option (OutputContext × OutputGlobals)
  | [] => some (c, g)
  | h :: hs => do
      let (stop, c, g) ← g.phpOutputStackApplyOp h c
      if stop then return (c, g) else zendStackApplyOp g c hs

/-- The choice that `php_output_op` makes between the one handler, the stack
and no handler at all. -/
def phpOutputDispatch (op : Nat) (str : Option Nat) (len : Nat) :
    Option (OutputContext × OutputGlobals) :=
  if g.active.isSome && g.handlers.length ≠ 0 then
    let c := { op := op, inp := { data := str, used := len } }
    match g.handlers with
    | [h] => do
        let handler ← g.handler h
        if !handler.flags.disabled then
          let (_, c, g) ← g.phpOutputHandlerOp h c
          return (c, g)
        else return (c.pass, g)
    | hs => zendStackApplyOp g c hs
  else some ({ op := op, out := { data := str, used := len } }, g)

/-- Hand the output of a context to the SAPI. -/
def phpOutputSend (out : OutputBuffer) : Option OutputGlobals :=
  match out.data with
  | none => some g
  | some p =>
    if out.used = 0 then some g
    else
      let g := g.phpOutputHeader
      if g.flags.disabled then some g
      else do
        let bytes ← g.mem.read p out.used
        let flushes := if g.flags.implicitFlush then 1 else 0
        return { g with
          sapi := { g.sapi with
            written := g.sapi.written ++ bytes
            flushes := g.sapi.flushes + flushes }
          flags := { g.flags with sent := true } }

/-- `php_output_op` -/
def phpOutputOp (op : Nat) (str : Option Nat) (len : Nat) : Option OutputGlobals :=
  if g.phpOutputLockError op then none
  else do
    let (c, g) ← g.phpOutputDispatch op str len
    let g ← g.phpOutputSend c.out
    let mem ← c.dtor g.mem
    return { g with mem := mem }

/-- `php_output_write` -/
def phpOutputWrite (str : Option Nat) (len : Nat) : Option OutputGlobals :=
  if g.flags.disabled then some g
  else if g.flags.activated then g.phpOutputOp opWrite str len
  else do
    let p ← str
    let bytes ← g.mem.read p len
    return { g with direct := g.direct ++ bytes }

/-- The `if` of `php_output_flush`: the output of the top handler is written
while that handler is off the stack. -/
def phpOutputFlushWrite (h : Nat) (out : OutputBuffer) : Option OutputGlobals :=
  if out.data.isSome && out.used ≠ 0 then do
    let g ← { g with handlers := g.handlers.tail }.phpOutputWrite out.data out.used
    return { g with handlers := h :: g.handlers }
  else some g

/-- `php_output_flush` -/
def phpOutputFlush : Option (Bool × OutputGlobals) :=
  match g.active with
  | none => some (false, g)
  | some h => do
      let handler ← g.handler h
      if handler.flags.flushable then
        let (_, c, g) ← g.phpOutputHandlerOp h { op := opFlush }
        let g ← g.phpOutputFlushWrite h c.out
        let mem ← c.dtor g.mem
        return (true, { g with mem := mem })
      else return (false, g)

/-- `php_output_flush_all` -/
def phpOutputFlushAll : Option OutputGlobals :=
  if g.active.isSome then g.phpOutputOp opFlush none 0 else some g

/-- `php_output_clean` -/
def phpOutputClean : Option (Bool × OutputGlobals) :=
  match g.active with
  | none => some (false, g)
  | some h => do
      let handler ← g.handler h
      if handler.flags.cleanable then
        let (_, c, g) ← g.phpOutputHandlerOp h { op := opClean }
        let mem ← c.dtor g.mem
        return (true, { g with mem := mem })
      else return (false, g)

/-- `php_output_handler_free` -/
def phpOutputHandlerFree (h : Nat) : Option OutputGlobals := do
  let handler ← g.handler h
  let mem ← match handler.buffer.data with
    | none => some g.mem
    | some p => g.mem.free p
  return { g with handler := Function.update g.handler h none, mem := mem }

/-- The notice of `php_output_stack_pop`. -/
def popNotice (discard : Bool) (orphan : Option OutputHandler) : String :=
  let verb := if discard then "discard" else "send"
  match orphan with
  | none => "failed to " ++ verb ++ " buffer. No buffer to " ++ verb
  | some handler => "failed to " ++ verb ++ " buffer of " ++ handler.name ++
      " (" ++ toString handler.level ++ ")"

/-- What `php_output_stack_pop` has the handler do before it goes. -/
def phpOutputFinalize (h : Nat) (handler : OutputHandler) (discard : Bool) :
    Option (OutputContext × OutputGlobals) :=
  if handler.flags.disabled then some ({ op := opFinal }, g)
  else do
    let op := if handler.flags.started then opFinal else opFinal ||| opStart
    let op := if discard then op ||| opClean else op
    let (_, c, g) ← g.phpOutputHandlerOp h { op := op }
    return (c, g)

/-- The output of a handler that was popped is passed along, unless it is to be
discarded. -/
def phpOutputPassAlong (discard : Bool) (out : OutputBuffer) : Option OutputGlobals :=
  if out.data.isSome && out.used ≠ 0 && !discard then
    g.phpOutputWrite out.data out.used
  else some g

/-- `php_output_stack_pop` with `PHP_OUTPUT_POP_TRY`, and with
`PHP_OUTPUT_POP_DISCARD` or not -/
def phpOutputStackPop (discard : Bool) : Option (Bool × OutputGlobals) :=
  match g.active with
  | none =>
    some (false, { g with notices := g.notices ++ [popNotice discard none] })
  | some h => do
      let orphan ← g.handler h
      if !orphan.flags.removable then
        return (false, { g with notices := g.notices ++ [popNotice discard (some orphan)] })
      else
        let (c, g) ← g.phpOutputFinalize h orphan discard
        let handlers := g.handlers.tail
        let g := { g with handlers := handlers, active := handlers.head? }
        let g ← g.phpOutputPassAlong discard c.out
        -- The handler goes after the write: its buffer is what was written.
        let g ← g.phpOutputHandlerFree h
        let mem ← c.dtor g.mem
        return (true, { g with mem := mem })

/-- `php_output_handler_init`, for a default handler -/
def phpOutputHandlerInit (chunkSize : Nat) (flags : OutputHandlerFlags) : Nat × OutputGlobals :=
  let size := initbufSize chunkSize
  let (data, mem) := g.mem.alloc (List.replicate size 0)
  let handler := {
    name := "default output handler"
    flags := flags
    level := 0
    size := chunkSize
    buffer := { data := some data, size := size } }
  (g.brk, { g.setHandler g.brk handler mem with brk := g.brk + 1 })

/-- `php_output_handler_start`.  `conflict` is the verdict of the conflict
checks that extensions registered for the handler's name. -/
def phpOutputHandlerStart (conflict : Bool) (h : Nat) : Option (Bool × OutputGlobals) :=
  if g.phpOutputLockError opStart then none
  else if conflict then some (false, g)
  else do
    let handler ← g.handler h
    let level := g.handlers.length
    return (true, { g.setHandler h { handler with level := level } g.mem with
        handlers := h :: g.handlers
        active := some h })

/-- `php_output_start_user` without a callback: a default handler is set up and
started, or freed when it could not be started. -/
def phpOutputStartUser (conflict : Bool) (chunkSize : Nat)
    (flags : OutputHandlerFlags) : Option (Bool × OutputGlobals) := do
  let (h, g) := g.phpOutputHandlerInit chunkSize flags
  let (started, g) ← g.phpOutputHandlerStart conflict h
  if started then return (true, g)
  else
    let g ← g.phpOutputHandlerFree h
    return (false, g)

end OutputGlobals

/-- The calls of the layer. -/
inductive OutputCall where
  | start (conflict : Bool) (chunkSize : Nat) (flags : OutputHandlerFlags)
  | write (str : List UInt8)
  | flush
  | flushAll
  | clean
  | endTop
  | discard
deriving DecidableEq

namespace OutputGlobals

/-- A caller writes a string of its own, and frees it afterwards. -/
def phpOutputWriteString (g : OutputGlobals) (str : List UInt8) : Option OutputGlobals := do
  let (p, mem) := g.mem.alloc str
  let g ← { g with mem := mem }.phpOutputWrite (some p) str.length
  let mem ← g.mem.free p
  return { g with mem := mem }

/-- One call; the result is `SUCCESS` or `FAILURE`. -/
def call (g : OutputGlobals) : OutputCall → Option (Bool × OutputGlobals)
  | .start conflict chunkSize flags =>
    g.phpOutputStartUser conflict chunkSize flags
  | .write str => do return (true, ← g.phpOutputWriteString str)
  | .flush => g.phpOutputFlush
  | .flushAll => do return (true, ← g.phpOutputFlushAll)
  | .clean => g.phpOutputClean
  | .endTop => g.phpOutputStackPop false
  | .discard => g.phpOutputStackPop true

/-- What the buffer of a handler holds. -/
def contents (g : OutputGlobals) (h : Nat) : Option (List UInt8) := do
  let handler ← g.handler h
  let p ← handler.buffer.data
  g.mem.read p handler.buffer.used

/-- The buffers of a stack with its top in front, from the bottom up. -/
def buffered (g : OutputGlobals) : List Nat → Option (List UInt8)
  | [] => some []
  | h :: hs => do
      let lower ← g.buffered hs
      let top ← g.contents h
      return lower ++ top

/-- What is to be kept of the output when a call was made: the bytes that were
written come to it, and the contents of the top buffer go from its end when the
buffer was cleaned or discarded. -/
def keep (g : OutputGlobals) (call : OutputCall) (success : Bool)
    (kept : List UInt8) : List UInt8 :=
  let top := (g.handlers.head?.bind g.contents).getD []
  match call with
  | .write str => kept ++ str
  | .clean => if success then kept.take (kept.length - top.length) else kept
  | .discard => if success then kept.take (kept.length - top.length) else kept
  | _ => kept

/-- A sequence of calls, with what is to be kept of the output. -/
def run (g : OutputGlobals) (kept : List UInt8) :
    List OutputCall → Option (OutputGlobals × List UInt8)
  | [] => some (g, kept)
  | call :: calls => do
      let (success, g') ← g.call call
      g'.run (g.keep call success kept) calls

end OutputGlobals

end PhpEngine

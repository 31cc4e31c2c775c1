import Pqwire.Spec.Events

/-!
# The context (`struct pqwire_ctx`), its queue and its output

A context here is a live one: the `magic` check of every public function passes.

Two fields are not in the source. `allocs` lists the outcomes of the next `malloc`,
`calloc` and `realloc` calls (`false` is a `NULL` return, and past its end every call
succeeds), so a statement about every pattern of failing allocations quantifies over
it and "allocation succeeds" is `allocs = []`. `log` is the history of all events
enqueued since creation or the last reset.

`inputBuf` is the part of the input buffer written so far, the stale bytes above
`inputLen` included: events keep pointers into it. `realloc` keeps the contents.
-/

namespace Pqwire

open ByteMem

inductive Role where
  | client
  | server
  deriving DecidableEq, Repr

inductive AuthState where
  | none
  | clientFirst
  | clientFinal
  | serverFirst
  | serverFinal
  | done
  deriving DecidableEq, Repr

inductive ProtoState where
  | startup
  | authenticating
  | ready
  | querying
  | error
  deriving DecidableEq, Repr

/-- `pqwire_config_t`. -/
structure Config where
  eventQueueSize : ℤ := 16
  maxMessageSize : ℕ := 0
  deriving DecidableEq

/-- An entry of `col_scratch`; `name` is an index into `col_name_scratch`. -/
structure ColDesc where
  name : Option ℕ := none
  oid : UInt32 := 0
  format : Int16 := 0
  deriving DecidableEq

instance : Inhabited ColDesc := ⟨{}⟩

structure Ctx where
  role : Role
  maxMessageSize : ℕ
  events : RingBuf Queued
  output : Bytes := []
  outputCap : ℕ := 4096
  inputBuf : Bytes := []
  inputLen : ℕ := 0
  inputCap : ℕ := 4096
  userScratch : CStr := CStr.empty
  dbScratch : CStr := CStr.empty
  sqlScratch : CStr := CStr.empty
  tagScratch : CStr := CStr.empty
  colScratch : List ColDesc := List.replicate maxRowColumns {}
  colNameScratch : List CStr := List.replicate maxRowColumns CStr.empty
  rowArena : Bytes := []
  rowArenaUsed : ℕ := 0
  authState : AuthState := .none
  protoState : ProtoState := .startup
  startupSeen : Bool := false
  allocs : List Bool := []
  log : List Queued := []
  deriving DecidableEq

namespace Ctx

/-- `event_queue_size`. -/
def queueSize (c : Ctx) : ℕ := c.events.size

/-- The unparsed input: the first `input_len` bytes of the input buffer. -/
def resid (c : Ctx) : Bytes := c.inputBuf.take c.inputLen

/-- Column `i` of `col_scratch`, its name followed. -/
def column (c : Ctx) (i : ℕ) : Option CStr × UInt32 × Int16 :=
  let d := c.colScratch.getD i default
  (d.name.map fun j => c.colNameScratch.getD j CStr.empty, d.oid, d.format)

/-- What the pointers of an event denote in the context as it is now. -/
def read (c : Ctx) : Event → View
  | .startup => { strs := [c.userScratch, c.dbScratch] }
  | .query => { strs := [c.sqlScratch] }
  | .commandComplete => { strs := [c.tagScratch] }
  | .rowDescription n => { cols := (List.range n).map c.column }
  | .dataRow r => { blobs := r.columns.map fun col => col.data.map fun p => slice c.rowArena p col.len }
  | .bind b =>
    { blobs := (List.range b.nParams).map fun i =>
        (b.param i).data.map fun p => slice c.inputBuf p (b.param i).length.toInt.toNat }
  | .parameterStatus p n => { blobs := [some (slice c.inputBuf p n)] }
  | _ => {}

/-! ## Allocation -/

/-- The outcome of the next allocation. -/
def allocOk (c : Ctx) : Bool := c.allocs.headD true

/-- The context after an allocation has been made. -/
def allocated (c : Ctx) : Ctx := { c with allocs := c.allocs.tail }

/-! ## Queue -/

/-- `enqueue_event`; `frame` is the message body the event comes from. -/
def enqueueEvent (c : Ctx) (ev : Event) (frame : Bytes) : Ctx :=
  let q : Queued := ⟨ev, frame, c.read ev⟩
  { c with events := c.events.enqueue q, log := c.log ++ [q] }

/-- `dequeue_event`: `none` is a return of 0. The arena is rewound when the queue is empty. -/
def dequeueEvent (c : Ctx) : Option (Queued × Ctx) :=
  match c.events.dequeue with
  | none => none
  | some (q, r) =>
    -- only a dequeue rewinds the arena: `pqwire_reset` does not
    let c' := { c with events := r }
    some (q, if r.count = 0 then { c' with rowArenaUsed := 0 } else c')

/-- `pqwire_next_event`. -/
def nextEvent (c : Ctx) : Option (Queued × Ctx) := c.dequeueEvent

/-! ## Output -/

/-- `ensure_output`: `none` is a failed `realloc` (a return of -1). -/
def ensureOutput (c : Ctx) (need : ℕ) : Option Ctx :=
  if c.output.length + need ≤ c.outputCap then some c
  else if c.allocOk then some { c.allocated with outputCap := c.outputCap * 2 + need + 1024 }
  else none

/-- `append_output`: nothing is appended when the buffer cannot grow. -/
def appendOutput (c : Ctx) (data : Bytes) : Ctx :=
  match c.ensureOutput data.length with
  | none => c.allocated
  | some c' => { c' with output := c'.output ++ data }

/-- The header of a typed message: type byte and `(uint32_t)(plen + 4)`. -/
def msgHeader (type : UInt8) (plen : ℕ) : Bytes := type :: wr32Be (plen + 4)

/-- `emit_msg`. It returns 0 whatever happens. -/
def emitMsg (c : Ctx) (type : UInt8) (payload : Bytes) : Ctx × ℤ :=
  let c₁ := c.appendOutput (msgHeader type payload.length)
  -- the header stays where the payload cannot be appended
  (if payload = [] then c₁ else c₁.appendOutput payload, 0)

/-- `pqwire_get_output`: the bytes copied and the context without them. -/
def getOutput (c : Ctx) (maxLen : ℕ) : Bytes × Ctx :=
  (c.output.take maxLen, { c with output := c.output.drop maxLen })

end Ctx

/-! ## Lifecycle -/

/-- `pqwire_create_with_config`: `calloc` of the context, then of the queue and both
buffers; `none` is `NULL`. -/
def createWithConfig (role : Role) (config : Config) (allocs : List Bool := []) : Option Ctx :=
  if config.eventQueueSize ≤ 0 then none
  else if (allocs.take 4).all id then
    some
      { role := role
        maxMessageSize := if config.maxMessageSize = 0 then 16 * 1024 * 1024 else config.maxMessageSize
        events := RingBuf.init config.eventQueueSize.toNat
        allocs := allocs.drop 4 }
  else none

/-- `pqwire_create`. -/
def create (role : Role) (allocs : List Bool := []) : Option Ctx := createWithConfig role {} allocs

/-- `pqwire_reset`. The scratch areas, the row arena and its fill mark are left as they are. -/
def reset (c : Ctx) : Ctx :=
  { c with
    events := c.events.clear
    output := []
    inputLen := 0
    authState := .none
    protoState := .startup
    startupSeen := false
    log := [] }

/-- `pqwire_current_state`. -/
def currentState (c : Ctx) : ProtoState := c.protoState

/-- `pqwire_note_ready`. -/
def noteReady (c : Ctx) : Ctx := { c with protoState := .ready }

end Pqwire

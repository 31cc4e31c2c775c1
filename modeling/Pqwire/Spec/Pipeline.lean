import Pqwire.Lib.LastWrite
import Pqwire.Spec.Grammar
import Pqwire.Spec.Run

/-!
# Mid-pipeline recovery

`pqwire_msg_peek`, the recovery status and the call that feeds one backend message into a
client and drains its events. `FeedsBackend` says that such a call returns, and what it
leaves and returns.
-/

namespace Pqwire

open ByteMem LastWrite

/-- `pqwire_msg_peek`: type and total length of the message at the front of the buffer;
`none` is a return of -1. -/
def msgPeek (buf : Bytes) : Option (UInt8 × ℕ) :=
  if buf.length < 5 then none
  else
    let mlen := rd32Be buf 1
    if mlen < 4 then none
    else
      let total := 1 + mlen
      if total > buf.length then none else some (buf.getD 0 0, total)

/-- `pqwire_pipeline_status_t`. The flags are 0 or 1; `n_msgs` is an `int`. -/
structure PipelineStatus where
  sawError : Bool := false
  sawRfq : Bool := false
  complete : Bool := false
  nMsgs : Int32 := 0
  lastError : PqError := {}
  deriving DecidableEq

/-- `pqwire_pipeline_status_init`. -/
def pipelineStatusInit : PipelineStatus := {}

/-- `parse_error_fields`, whose loop is that of `parse_error_response`. -/
def parseErrorFields (body : Bytes) : PqError := errorLoop body.length body {}

/-- `pqwire_pipeline_observe_msg`. -/
def pipelineObserveMsg (st : PipelineStatus) (msg : Bytes) : PipelineStatus × ℤ :=
  match msgPeek msg with
  | none => (st, -1)
  | some (type, total) =>
    -- one message at a time: bytes behind it are refused
    if total ≠ msg.length then (st, -1)
    else
      let st := { st with nMsgs := st.nMsgs + 1 }
      if type = ch 'E' ∧ total ≥ 5 then
        ({ st with sawError := true, lastError := parseErrorFields (slice msg 5 (total - 5)) }, 0)
      else if type = ch 'Z' then ({ st with sawRfq := true, complete := true }, 1)
      else (st, 0)

namespace Ctx

/-- `while (pqwire_next_event (...) == 1)` for at most `fuel` rounds. -/
def drainEvents : ℕ → Ctx → Option Ctx
  | 0, _ => none
  | fuel + 1, c =>
    match c.nextEvent with
    | none => some c
    | some (_, c') => drainEvents fuel c'

/-- `pqwire_pipeline_feed_backend_msg`: the context, the status and the return value; `none`
when a loop has not ended after `fuel` rounds. -/
def pipelineFeedBackendMsg (fuel : ℕ) (c : Ctx) (st : PipelineStatus) (msg : Bytes) : Option (Ctx × PipelineStatus × ℤ) :=
  if msg.length = 0 then some (c, st, -1)
  else
    match pipelineObserveMsg st msg with
    | (st, rfq) =>
      if rfq < 0 then some (c, st, -1)
      else do
        let (c, _) ← c.feedInput fuel msg
        let c ← drainEvents fuel c
        -- `pqwire_note_ready` even where the client has dropped the message
        let c := if rfq = 1 then noteReady c else c
        return (c, st, 0)

end Ctx

/-- The call returns `r`, leaving `c'` and `st'`. -/
def FeedsBackend (c : Ctx) (st : PipelineStatus) (msg : Bytes) (c' : Ctx) (st' : PipelineStatus) (r : ℤ) : Prop :=
  ∃ fuel, Ctx.pipelineFeedBackendMsg fuel c st msg = some (c', st', r)

/-- Successive calls, one for each byte string. -/
inductive PipelineRun (c : Ctx) (st : PipelineStatus) : List Bytes → Ctx → PipelineStatus → Prop
  | nil : PipelineRun c st [] c st
  | concat {msgs : List Bytes} {msg : Bytes} {c₁ c₂ : Ctx} {st₁ st₂ : PipelineStatus} {r : ℤ} :
      PipelineRun c st msgs c₁ st₁ → FeedsBackend c₁ st₁ msg c₂ st₂ r → PipelineRun c st (msgs ++ [msg]) c₂ st₂

/-- Exactly one complete frame. -/
def IsFrame (msg : Bytes) : Prop := ∃ f : Frame, msg = f.enc

/-- The error that an event reports. -/
def Event.error : Event → Option PqError
  | .errorResponse err => some err
  | _ => Option.none

/-- The status says what `n` accepted frames have made the client emit, the events `l`; the
counter has gone round where an `int` does. -/
structure PipelineStatus.Shows (st : PipelineStatus) (n : ℕ) (l : List Queued) : Prop where
  wrapped : st.nMsgs = Int32.ofNat n
  error : st.sawError = true ↔ ∃ q ∈ l, ∃ err, q.ev = .errorResponse err
  last : st.lastError = (lastOf (fun q : Queued => q.ev.error) l).getD {}
  complete : st.complete = st.sawRfq
  ready : st.sawRfq = true ↔ ∃ q ∈ l, q.ev = .readyForQuery

/-- The counter, too, is the number of the frames. -/
structure PipelineStatus.Mirrors (st : PipelineStatus) (n : ℕ) (l : List Queued) : Prop extends st.Shows n l where
  count : st.nMsgs.toInt = n

end Pqwire

import Pqwire.Spec.Pipeline

/-!
# Filtering a backend stream

A proxy observes the messages of a backend (`pqwire_pipeline_observe_msg`) and passes on to its
frontend those that `pqwire_pipeline_filter_backend_type` does not single out.
-/

namespace Pqwire

open ByteMem

/-- `pqwire_pipeline_filter_backend_type`; `true` is a return of 1. -/
def pipelineFilterBackendType (type : UInt8) (skipParseBindComplete : Bool) : Bool :=
  if skipParseBindComplete ∧ (type = ch '1' ∨ type = ch '2') then true
  -- ParameterStatus, NoticeResponse, BackendKeyData
  else if type = ch 'S' ∨ type = ch 'N' ∨ type = ch 'K' then true
  else false

/-- The message is passed on. -/
def Frame.passes (skip : Bool) (f : Frame) : Bool := !pipelineFilterBackendType f.type skip

/-- The event is that of a message that is passed on. -/
def Event.passes (skip : Bool) : Event → Bool
  | .parameterStatus _ _ | .noticeResponse => false
  | .parseComplete | .bindComplete => !skip
  | _ => true

/-- The context without its queue and its history. -/
def Ctx.sansQueue (c : Ctx) : Ctx := { c with events := RingBuf.init 0, log := [] }

/-- The status but for the number of messages. -/
def PipelineStatus.sansCount (st : PipelineStatus) : PipelineStatus := { st with nMsgs := 0 }

/-- `pqwire_pipeline_observe_msg` on messages one after the other. -/
def observeAll (st : PipelineStatus) (fs : List Frame) : PipelineStatus :=
  fs.foldl (fun st f => (pipelineObserveMsg st f.enc).1) st

end Pqwire

import Pqwire.Spec.Filter
import Pqwire.Spec.Trace

/-!
# Draining a backend

The loop in which a proxy drains a backend (`test_pipeline_recover.c`): `pqwire_msg_peek` finds the
message at the front of what has arrived, `pqwire_pipeline_feed_backend_msg` takes it, and the loop
goes on behind it. Where the test asserts that there is a message, the proxy waits for more.
-/

namespace Pqwire

open ByteMem

/-- The loop, on the bytes that have arrived: the context, the status and the bytes behind the last
message; `none` when a loop has not ended after `fuel` rounds. -/
def drainBackend : ℕ → Ctx → PipelineStatus → Bytes → Option (Ctx × PipelineStatus × Bytes)
  | 0, _, _, _ => none
  | fuel + 1, c, st, buf =>
    match msgPeek buf with
    | none => some (c, st, buf)
    | some (_, total) =>
      (c.pipelineFeedBackendMsg fuel st (buf.take total)).bind fun r => drainBackend fuel r.1 r.2.1 (buf.drop total)

/-- The loop returns. -/
def DrainsBackend (c : Ctx) (st : PipelineStatus) (buf : Bytes) (c' : Ctx) (st' : PipelineStatus) (rest : Bytes) : Prop :=
  ∃ fuel, drainBackend fuel c st buf = some (c', st', rest)

/-- The loop is run each time that bytes arrive, on what it left and on these. -/
inductive Arrivals : Ctx → PipelineStatus → Bytes → List Bytes → Ctx → PipelineStatus → Bytes → Prop
  | nil (c : Ctx) (st : PipelineStatus) (buf : Bytes) : Arrivals c st buf [] c st buf
  | cons {c c₁ c' : Ctx} {st st₁ st' : PipelineStatus} {buf buf₁ buf' d : Bytes} {ds : List Bytes} :
      DrainsBackend c st (buf ++ d) c₁ st₁ buf₁ → Arrivals c₁ st₁ buf₁ ds c' st' buf' → Arrivals c st buf (d :: ds) c' st' buf'

/-- The bytes are the beginning of a message, without its end. -/
def Unfinished (c : Ctx) (tail : Bytes) : Prop := ∃ g : Frame, g.Fits c ∧ ∃ u, u ≠ [] ∧ g.enc = tail ++ u

/-- The context without its input side, its queue, its history and its rows. -/
def Ctx.settled (c : Ctx) : Ctx :=
  { c with
    events := RingBuf.init 0, log := [], inputBuf := [], inputLen := 0, inputCap := 0, rowArena := [], rowArenaUsed := 0 }

end Pqwire

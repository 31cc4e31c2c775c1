import Pqwire.Lib.Machine
import Pqwire.Spec.Run

/-!
# What a caller sees

The public calls of a context with what each of them returns: return values, output bytes and
delivered events with their payloads. An address is not part of a payload; what stands there is,
and nothing does once `realloc` has moved the input buffer that the event points into.
-/

namespace Pqwire

open ByteMem

/-- A public call. -/
inductive PublicCall where
  | feed (data : Bytes)
  | next
  | send (m : Send)
  | output (maxLen : ℕ)
  | state
  | ready
  | reset

/-- The event without the addresses of its columns, which depend on the fill of the arena. -/
def Event.shape : Event → Event
  | .dataRow r => .dataRow ⟨r.columns.map fun col => { col with data := col.data.map fun _ => 0 }⟩
  | ev => ev

/-- The raw body that the event points to. -/
def Ctx.rawBody (c : Ctx) : Event → Bytes
  | .bind b => slice c.inputBuf b.rawBody b.rawBodyLen
  | _ => []

/-- The event points to bytes of the input buffer. -/
def Event.intoInput : Event → Bool
  | .bind b => 0 < b.rawBodyLen
  | .parameterStatus _ n => 0 < n
  | _ => false

/-- A delivered event: its fields and what is read through its pointers, the raw body of a Bind
included; `none` where they point into memory that has been given back. -/
structure Delivered where
  event : Event
  payload : Option (View × Bytes)
  deriving DecidableEq

/-- A context and its events enqueued when `realloc` last moved the input buffer. -/
structure Watched where
  ctx : Ctx
  moved : ℕ

namespace Watched

/-- The events enqueued by the last move, when `pqwire_feed_input` has got `data`. -/
def movedBy (w : Watched) (data : Bytes) : ℕ :=
  if w.ctx.inputCap < w.ctx.inputLen + data.length ∧ w.ctx.allocOk then w.ctx.log.length else w.moved

/-- The oldest event of the queue has been enqueued before the last move. -/
def stale (w : Watched) : Bool := w.ctx.log.length - w.ctx.events.count < w.moved

/-- Deliver the oldest event; `c` is the context that `pqwire_next_event` leaves. -/
def deliver (w : Watched) (c : Ctx) (ev : Event) : Delivered :=
  ⟨ev.shape, if w.stale ∧ ev.intoInput then none else some (c.read ev, c.rawBody ev)⟩

end Watched

/-- What a call returns. -/
inductive Outcome where
  | accepted (n : ℕ)
  | event (e : Option Delivered)
  | returned (r : ℤ)
  | bytes (b : Bytes)
  | state (s : ProtoState)
  | void
  deriving DecidableEq

/-- Make the call; `none` when `pqwire_feed_input` has not returned after `fuel` rounds. -/
def PublicCall.run (fuel : ℕ) (w : Watched) : PublicCall → Option (Outcome × Watched)
  | .feed data => (w.ctx.feedInput fuel data).map fun r => (.accepted r.2, ⟨r.1, w.movedBy data⟩)
  | .next =>
    match w.ctx.nextEvent with
    | none => some (.event none, w)
    | some (q, c) => some (.event (some (w.deliver c q.ev)), ⟨c, w.moved⟩)
  | .send m => some (.returned (m.run w.ctx).2, ⟨(m.run w.ctx).1, w.moved⟩)
  | .output maxLen => some (.bytes (w.ctx.getOutput maxLen).1, ⟨(w.ctx.getOutput maxLen).2, w.moved⟩)
  | .state => some (.state (currentState w.ctx), w)
  | .ready => some (.void, ⟨noteReady w.ctx, w.moved⟩)
  | .reset => some (.void, ⟨Pqwire.reset w.ctx, 0⟩)

/-- What a caller sees of a sequence of calls. -/
def Watched.observe (w : Watched) (fuel : ℕ) (calls : List PublicCall) : Option (List Outcome) :=
  Machine.observe (PublicCall.run fuel) w calls

/-- After `pqwire_reset`, no sequence of calls tells `c` from the context `f`, whose queue is empty. -/
def FreshStart (c f : Ctx) : Prop :=
  ∀ fuel calls, Watched.observe ⟨reset c, 0⟩ fuel calls = Watched.observe ⟨f, 0⟩ fuel calls

/-- The length field of the smallest frame whose event points into the input buffer: a
ParameterStatus with one byte on a client, a Bind of six on a server. -/
def smallestPointing : Role → ℕ
  | .client => 5
  | .server => 10

end Pqwire

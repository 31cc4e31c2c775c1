import Pqwire.Spec.Forward

/-!
# An identity proxy

What the identity helpers are for (`ARCHITECTURE.md`, "Application consumers"). A proxy gets the
messages of a frontend from a server context, forces the names and one parameter of each Bind, sends
every other message on as it is (`Event.resend`), and sends nothing else. What the backend answers
comes in through its client context; what it replies to the frontend goes out through the server
context.

The parameters of a Bind are read where `pqwire_feed_input` has left them, so events are dequeued
before more input is fed. Other frames of the same call may have been moved over them.
-/

namespace Pqwire

open ByteMem

/-- What is forced on a Bind. -/
structure Forced where
  portal : CStr
  statement : CStr
  slot : UInt16
  identity : CStr
  asBinary : Bool
  portal_lt : portal.length < maxPortalName
  statement_lt : statement.length < maxStmtName

/-- The call that the proxy makes for an event. `mem` is the input buffer into which a Bind points,
`v` what is read through the pointers of the event. -/
def Event.pass (mem : Bytes) (v : View) (fo : Forced) : Event → Option Send
  | .bind b => some (.bindRewriteIdentity mem b (some fo.portal) (some fo.statement) fo.slot fo.identity fo.asBinary)
  | ev => ev.resend v

/-- The bytes of parameter `i`: none where the pointer is `NULL`. -/
def View.blob (v : View) (i : ℕ) : Bytes := (v.blobs.getD i none).getD []

/-- The Bind `b'` that shows `v'` is the Bind `b` that showed `v`, with what was forced on it. -/
structure Enforced (fo : Forced) (b : BindMsg) (v : View) (b' : BindMsg) (v' : View) : Prop where
  portal : b'.portal = fo.portal
  statement : b'.statement = fo.statement
  nParams : b'.nParams = b.nParams
  slot : fo.slot.toNat < b.nParams
  length : (b'.param fo.slot.toNat).length.toInt = fo.identity.length
  identity : v'.blob fo.slot.toNat = fo.identity.bytes
  format : (b'.param fo.slot.toNat).format = if fo.asBinary then 1 else 0
  others : ∀ i < b.nParams, i ≠ fo.slot.toNat →
    ((b'.param i).length.toInt < 0 ↔ (b.param i).length.toInt < 0) ∧ v'.blob i = v.blob i ∧
      (b'.param i).format = formatFor b.nFormats b.formats i
  nResultFormats : b'.nResultFormats = b.nResultFormats
  resultFormats : ∀ i < b.nResultFormats, b'.resultFormat i = b.resultFormat i

/-- An event that was sent on, what it showed when it was dequeued, and what was forced on it. -/
structure Passed where
  event : Event
  view : View
  forced : Forced

/-- What the backend has to report for it. -/
def Passed.Honoured (p : Passed) (q : Queued) : Prop :=
  match p.event with
  | .bind b => ∃ b', q.ev = .bind b' ∧ Enforced p.forced b p.view b' q.seen
  | ev => ev.Same q.ev ∧ q.seen = p.view

/-- A proxy and its backend: the server context of the frontend, the client context of the backend,
the context that parses for the backend, and what has been sent on. -/
structure Proxy where
  front : Ctx
  back : Ctx
  backend : Ctx
  passed : List Passed

namespace Proxy

/-- A backend that has handled its startup message and takes what the proxy sends. -/
structure Started (d : Ctx) : Prop where
  reachable : Reachable d
  role : d.role = .server
  typed : d.awaitsStartup = false
  allocs : d.allocs = []
  resid : d.resid = []
  max : 8191 ≤ d.maxMessageSize

/-- The states of all interleavings, with the backend `d` at the start. Allocation succeeds. -/
inductive Reach (d : Ctx) : Proxy → Prop
  | create {config config' : Config} {front back : Ctx} : createWithConfig .server config [] = some front →
      createWithConfig .client config' [] = some back → Reach d ⟨front, back, d, []⟩
  | arrive {p : Proxy} {front : Ctx} {data : Bytes} {fuel n : ℕ} : Reach d p → p.front.events.count = 0 →
      p.front.feedInput fuel data = some (front, n) → Reach d { p with front := front }
  | pass {p : Proxy} {q : Queued} {front back : Ctx} {m : Send} (fo : Forced) : Reach d p →
      p.front.nextEvent = some (q, front) → q.ev.pass front.inputBuf (front.read q.ev) fo = some m →
      m.run p.back = (back, 0) →
      Reach d { p with front := front, back := back, passed := p.passed ++ [⟨q.ev, front.read q.ev, fo⟩] }
  | refuse {p : Proxy} {q : Queued} {front back : Ctx} {m : Send} {r : ℤ} (fo : Forced) : Reach d p →
      p.front.nextEvent = some (q, front) → q.ev.pass front.inputBuf (front.read q.ev) fo = some m →
      m.run p.back = (back, r) → r ≠ 0 → Reach d { p with front := front, back := back }
  | ignore {p : Proxy} {q : Queued} {front : Ctx} (fo : Forced) : Reach d p → p.front.nextEvent = some (q, front) →
      q.ev.pass front.inputBuf (front.read q.ev) fo = none → Reach d { p with front := front }
  | carry {p : Proxy} {backend : Ctx} (maxLen : ℕ) : Reach d p → Feeds p.backend (p.back.getOutput maxLen).1 backend →
      Reach d { p with back := (p.back.getOutput maxLen).2, backend := backend }
  | deliver {p : Proxy} {q : Queued} {backend : Ctx} : Reach d p → p.backend.nextEvent = some (q, backend) →
      Reach d { p with backend := backend }
  | answer {p : Proxy} {back : Ctx} {data : Bytes} {fuel n : ℕ} : Reach d p →
      p.back.feedInput fuel data = some (back, n) → Reach d { p with back := back }
  | nextAnswer {p : Proxy} {q : Queued} {back : Ctx} : Reach d p → p.back.nextEvent = some (q, back) →
      Reach d { p with back := back }
  | reply {p : Proxy} (m : Send) : Reach d p → Reach d { p with front := (m.run p.front).1 }
  | drain {p : Proxy} (maxLen : ℕ) : Reach d p → Reach d { p with front := (p.front.getOutput maxLen).2 }

end Proxy

end Pqwire

import Pqwire.Spec.Handshake
import Pqwire.Spec.Output

/-!
# Authentication during a session

Runs of the calls on one context with `pqwire_start_auth` among them. Nothing else sets
`auth_state` but an AuthenticationOk and a reset: the messages of SASL are not events, and a server
does not look at it.
-/

namespace Pqwire

open ByteMem

/-- A context with the bytes that have been drained since it was created or last reset. -/
structure Authing where
  ctx : Ctx
  drained : Bytes

/-- The states of all runs of a context of this role; `scram` says that its configuration asks for
SCRAM and has a password. Allocation succeeds. -/
inductive Authing.Reach (role : Role) (scram : Bool) : Authing → Prop
  | create {config : Config} {c : Ctx} : createWithConfig role config [] = some c → Reach role scram ⟨c, []⟩
  | startAuth {a : Authing} (rand : ℕ → ℕ) : Reach role scram a →
      Reach role scram { a with ctx := (a.ctx.startAuth scram rand).1 }
  | feed {a : Authing} {c : Ctx} {data : Bytes} {fuel n : ℕ} : Reach role scram a →
      a.ctx.feedInput fuel data = some (c, n) → Reach role scram { a with ctx := c }
  | next {a : Authing} {q : Queued} {c : Ctx} : Reach role scram a → a.ctx.nextEvent = some (q, c) →
      Reach role scram { a with ctx := c }
  | send {a : Authing} {m : Send} : Reach role scram a → m.Single →
      (m.run a.ctx).1.output.length < a.ctx.output.length + (5 + (2 ^ 32 - 4)) →
      Reach role scram { a with ctx := (m.run a.ctx).1 }
  | output {a : Authing} (maxLen : ℕ) : Reach role scram a →
      Reach role scram ⟨(a.ctx.getOutput maxLen).2, a.drained ++ (a.ctx.getOutput maxLen).1⟩
  | ready {a : Authing} : Reach role scram a → Reach role scram { a with ctx := noteReady a.ctx }
  | reset {a : Authing} : Reach role scram a → Reach role scram ⟨Pqwire.reset a.ctx, []⟩

/-- A message of type `p`. -/
def Message.isFirst : Message → Bool
  | .typed f => f.type = ch 'p'
  | .startup _ => false

/-- The client-first message with a new nonce, in full. -/
def Message.IsClientFirst (m : Message) : Prop :=
  ∃ (rand : ℕ → ℕ) (f : Frame), m = .typed f ∧ f.type = ch 'p' ∧ f.body = (scramSha256Init rand).firstText.toBytes ∧
    f.len = 41

/-- The history has an AuthenticationOk. -/
def Ctx.authenticated (c : Ctx) : Bool := c.log.any fun q => q.ev = .authenticationOk

/-- What `auth_state` has to be when a client-first message has been `started` and an
AuthenticationOk has arrived (`ok`) since creation or the last reset. -/
def authPhase (started ok : Bool) : AuthState := if ok then .done else if started then .clientFirst else .none

end Pqwire

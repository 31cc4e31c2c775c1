import Pqwire.Spec.Run
import Pqwire.Spec.Trace

/-!
# What a client still waits for

A client sends with the helpers of the frontend and is fed what a backend answers. Beside the
client, a `Conversation` keeps the requests that no ReadyForQuery has answered yet: a backend
answers a StartupMessage, a Query and a Sync with one ReadyForQuery each, in the order in which
it gets them.
-/

namespace Pqwire

open ByteMem

/-- The messages that a backend answers with a ReadyForQuery. -/
inductive Request where
  | startup
  | query
  | sync
  deriving DecidableEq

/-- `emit_msg` gets the whole message into the output. -/
def Ctx.Emits (c : Ctx) (type : UInt8) (payload : Bytes) : Prop :=
  (c.emitMsg type payload).1.output = c.output ++ (Ctx.msgHeader type payload.length ++ payload)

instance (c : Ctx) (type : UInt8) (payload : Bytes) : Decidable (c.Emits type payload) :=
  inferInstanceAs (Decidable (_ = _))

namespace Send

/-- The helpers of the frontend. -/
def isFrontend : Send → Bool
  | .startup _ _ => true
  | .query _ => true
  | .call _ => true
  | .terminate => true
  | .parse _ _ _ _ => true
  | .bind _ _ _ _ _ _ _ _ _ => true
  | .bindParams _ _ _ _ _ _ => true
  | .bindRewriteIdentity _ _ _ _ _ _ _ => true
  | .describe _ _ => true
  | .execute _ _ => true
  | .close _ _ => true
  | .sync => true
  | .flush => true
  | .unnamedPipeline _ _ _ _ _ _ _ _ _ _ _ => true
  | _ => false

/-- The requests that a call on `c` gets into the output. An allocation may fail without the
caller being told, so it is the output that counts. -/
def requests (c : Ctx) : Send → List Request
  | .startup user database => if (c.sendStartup user database).1.output = c.output then [] else [.startup]
  | .query (some sql) => if c.Emits (ch 'Q') sql.toBytes then [.query] else []
  | .call (some pr) => if c.Emits (ch 'Q') (copyCstr 512 (Ctx.cat Ctx.callPrefix pr)).toBytes then [.query] else []
  | .sync => if c.Emits (ch 'S') [] then [.sync] else []
  | .unnamedPipeline q oids nOids formats nFormats lengths values nParams results nResults maxRows =>
    let c₁ := (c.sendParse (some CStr.empty) q oids nOids).1
    let c₂ := (c₁.sendBind (some CStr.empty) (some CStr.empty) formats nFormats lengths values nParams results
      nResults).1
    let c₃ := (c₂.sendExecute (some CStr.empty) maxRows).1
    if (c.sendUnnamedPipeline q oids nOids formats nFormats lengths values nParams results nResults maxRows).2 = 0 ∧
        c₃.Emits (ch 'S') [] then [.sync]
    else []
  | _ => []

end Send

/-- The loop of a client handles messages of the given types, one after the other, and
returns, leaving `c'`. -/
inductive LoopTypes : Ctx → List UInt8 → Ctx → Prop
  | stop {c c' : Ctx} : c.feedStep = .stop c' → LoopTypes c [] c'
  | rejected {c c₁ c' : Ctx} {types : List UInt8} : c.badLen → c.feedStep = .again c₁ → LoopTypes c₁ types c' →
      LoopTypes c types c'
  | message {c c₁ c' : Ctx} {types : List UInt8} : ¬c.badLen → c.feedStep = .again c₁ → LoopTypes c₁ types c' →
      LoopTypes c (c.inputBuf.getD 0 0 :: types) c'

/-- A call of a client that returns. -/
inductive ClientStep : Ctx → Ctx → Prop
  | send {c : Ctx} {m : Send} : m.isFrontend = true → ClientStep c (m.run c).1
  | feed {c c' : Ctx} {data : Bytes} {fuel n : ℕ} : c.feedInput fuel data = some (c', n) → ClientStep c c'
  | next {c c' : Ctx} {q : Queued} : c.nextEvent = some (q, c') → ClientStep c c'
  | output (c : Ctx) (maxLen : ℕ) : ClientStep c (c.getOutput maxLen).2

/-- A client, the requests that are unanswered, the oldest first, and the number of
ReadyForQuery messages it has received. -/
structure Conversation where
  client : Ctx
  unanswered : List Request
  readies : ℕ

/-- A call on the client: a send, or input that completes messages of the given types. -/
inductive Move where
  | send (m : Send)
  | feed (types : List UInt8)
  | other

namespace Conversation

variable (k : Conversation)

/-- One call. -/
inductive Step : Conversation → Move → Conversation → Prop
  | send {k : Conversation} {m : Send} : m.isFrontend = true →
      Step k (.send m)
        { k with client := (m.run k.client).1, unanswered := k.unanswered ++ m.requests k.client }
  | feed {k : Conversation} {data : Bytes} {c₁ c' : Ctx} {types : List UInt8} :
      k.client.acceptInput data = some c₁ → LoopTypes c₁ types c' →
      Step k (.feed types)
        { client := c'
          unanswered := k.unanswered.drop (types.count BackType.readyForQuery.byte)
          readies := k.readies + types.count BackType.readyForQuery.byte }
  | refused {k : Conversation} {data : Bytes} : k.client.acceptInput data = none →
      Step k .other { k with client := k.client.allocated }
  | next {k : Conversation} {q : Queued} {c' : Ctx} : k.client.nextEvent = some (q, c') →
      Step k .other { k with client := c' }
  | output {k : Conversation} (maxLen : ℕ) : Step k .other { k with client := (k.client.getOutput maxLen).2 }

/-- A run from creation, with the conversation before each call. -/
inductive Run : List (Conversation × Move) → Conversation → Prop
  | create {config : Config} {allocs : List Bool} {c : Ctx} : createWithConfig .client config allocs = some c →
      Run [] ⟨c, [], 0⟩
  | step {steps : List (Conversation × Move)} {k k' : Conversation} {move : Move} : Run steps k →
      Step k move k' → Run (steps ++ [(k, move)]) k'

/-- No Query and no Sync is unanswered. -/
def Answered (rs : List Request) : Prop := ∀ r ∈ rs, r = .startup

instance (rs : List Request) : Decidable (Answered rs) := inferInstanceAs (Decidable (∀ r ∈ rs, r = _))

/-- READY is reported of an idle backend only. -/
def Idle : Prop := currentState k.client = .ready → 0 < k.readies ∧ Answered k.unanswered

/-- No Query and no Sync is sent while READY is reported. While another state is, input completes
a CommandComplete only together with a ReadyForQuery, and the ReadyForQuery messages that it
completes answer all there is to answer. -/
def Calm : Move → Prop
  | .send m => currentState k.client = .ready → Answered (m.requests k.client)
  | .feed types =>
    currentState k.client ≠ .ready →
      if BackType.readyForQuery.byte ∈ types then
        Answered (k.unanswered.drop (types.count BackType.readyForQuery.byte))
      else BackType.commandComplete.byte ∉ types
  | .other => True

end Conversation

end Pqwire

import Pqwire.Spec.Grammar
import Pqwire.Spec.Run

/-!
# A client and a server

A fresh client sends a startup message and then frontend messages, its output is carried
to a fresh server in pieces of any size, and the server's events are dequeued, in any
order of these steps. `mitm_step` is such a transfer, of at most 4096 bytes.

`Send.expected` is what the law promises for a message: its event, with exactly the fields
that were sent, and what is read through the pointers of the event.
-/

namespace Pqwire

open ByteMem

/-- The frontend message that a send helper is asked for. -/
def Send.message : Send → Option FrontMsg
  | .parse stmt (some sql) oids n =>
    some (.parse (stmt.getD CStr.empty) sql ((List.range n.toNat).map fun i => oids.elim 0 (·.getD i 0))
      (by rw [List.length_map, List.length_range]; exact n.toNat_lt))
  | .describe t name => some (.describe t (name.getD CStr.empty))
  | .execute portal maxRows => some (.execute (portal.getD CStr.empty) maxRows)
  | .close t name => some (.close t (name.getD CStr.empty))
  | .sync => some .sync
  | .flush => some .flush
  | .terminate => some .terminate
  | _ => none

/-- The event that reports a message. A Query and a Bind are reported by pointers. -/
def FrontMsg.event : FrontMsg → Option Event
  | .parse stmt sql oids _ => some (.parse ⟨stmt, sql, oids.length, oids⟩)
  | .describe t name => some (.describe ⟨t, name⟩)
  | .execute portal maxRows => some (.execute ⟨portal, maxRows⟩)
  | .close t name => some (.close ⟨t, name⟩)
  | .sync => some .sync
  | .flush => some .flush
  | .terminate => some .terminate
  | .query _ => none
  | .bind _ => none

/-- The fields fit the arrays of the event. -/
def FrontMsg.Small : FrontMsg → Prop
  | .parse stmt sql oids _ =>
    stmt.length < maxStmtName ∧ sql.length < maxQueryLen ∧ oids.length ≤ maxParamTypes
  | .describe _ name => name.length < maxStmtName
  | .execute portal _ => portal.length < maxPortalName
  | .close _ name => name.length < maxStmtName
  | _ => True

/-- The body of a startup message, behind its length. -/
def startupBody (user database : CStr) : Bytes :=
  wr32Be Ctx.proto30 ++ keyUser.toBytes ++ user.toBytes ++ keyDatabase.toBytes ++ database.toBytes ++ [0]

namespace Send

def isStartup : Send → Bool
  | .startup _ _ => true
  | _ => false

/-- The event of a message and what is read through its pointers. -/
def expected : Send → Option (Event × View)
  | .startup user database =>
    some (.startup, { strs := [user.getD CStr.empty, database.getD CStr.empty] })
  | m => (m.message.bind FrontMsg.event).map fun ev => (ev, {})

/-- The messages the law is about, for a server that takes messages of `max` bytes: a startup
with names of at most 127 bytes, or one of the seven message types within the limits. -/
def Allowed (max : ℕ) : Send → Prop
  | .startup user database =>
    (user.getD CStr.empty).length ≤ 127 ∧ (database.getD CStr.empty).length ≤ 127 ∧
      (startupBody (user.getD CStr.empty) (database.getD CStr.empty)).length + 4 ≤ max
  | m => ∃ x, m.message = some x ∧ x.Small ∧ x.body.length + 4 ≤ max

end Send

/-- A client, a server, what the client has sent and what the server has delivered: each
event with what its pointers denote when it is dequeued. -/
structure Dialog where
  client : Ctx
  server : Ctx
  sent : List Send
  delivered : List (Event × View)

/-- The states of all interleavings in which the server never has more undelivered events than
its queue has slots. Allocation succeeds. -/
inductive Dialog.Reach : Dialog → Prop
  | create {config config' : Config} {client server : Ctx} :
      createWithConfig .client config [] = some client → createWithConfig .server config' [] = some server →
      Reach ⟨client, server, [], []⟩
  | send {d : Dialog} {m : Send} {client : Ctx} : Reach d → m.isStartup = d.sent.isEmpty →
      m.Allowed d.server.maxMessageSize → m.run d.client = (client, 0) →
      Reach { d with client := client, sent := d.sent ++ [m] }
  | transfer {d : Dialog} {server : Ctx} (maxLen : ℕ) : Reach d →
      Feeds d.server (d.client.getOutput maxLen).1 server →
      server.log.length ≤ d.delivered.length + server.queueSize →
      Reach { d with client := (d.client.getOutput maxLen).2, server := server }
  | next {d : Dialog} {q : Queued} {server : Ctx} : Reach d → d.server.nextEvent = some (q, server) →
      Reach { d with server := server, delivered := d.delivered ++ [(q.ev, server.read q.ev)] }

end Pqwire

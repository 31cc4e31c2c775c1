import Pqwire.Spec.Dialog

/-!
# Limits of the encoders and of the decoders

The calls that send names, texts and lists of types, each with what the receiver's event has to
show of it, and the limits within which the receiver has room for it.
-/

namespace Pqwire

open ByteMem

/-- A call that sends texts. A null name is sent as the empty one; a null SQL text or procedure is
refused, so that there is none here. -/
inductive TextSend where
  | startup (user database : Option CStr)
  | query (sql : CStr)
  | call (procedure : CStr)
  | parse (statement : Option CStr) (sql : CStr) (oids : Option (List UInt32)) (n : UInt16)
  | describe (target : UInt8) (name : Option CStr)
  | close (target : UInt8) (name : Option CStr)
  | execute (portal : Option CStr) (maxRows : UInt32)

namespace TextSend

/-- Make the call. -/
def run (c : Ctx) : TextSend → Ctx × ℤ
  | startup user database => c.sendStartup user database
  | query sql => c.sendQuery (some sql)
  | call procedure => c.sendCall (some procedure)
  | parse statement sql oids n => c.sendParse statement (some sql) oids n
  | describe target name => c.sendDescribe target name
  | close target name => c.sendClose target name
  | execute portal maxRows => c.sendExecute portal maxRows

def isStartup : TextSend → Bool
  | startup _ _ => true
  | _ => false

/-- The value of the length field of the bytes emitted. -/
def frameLen (s : TextSend) (emitted : Bytes) : ℕ := if s.isStartup then emitted.length else emitted.length - 1

/-- The parameter types that `pqwire_send_parse` sends: zeros for a null pointer. -/
def sentOids (oids : Option (List UInt32)) (n : UInt16) : List UInt32 :=
  (List.range n.toNat).map fun i => oids.elim 0 (·.getD i 0)

/-- The event that was put into the queue shows the arguments of the call. -/
def ShownBy (q : Queued) : TextSend → Prop
  | startup user database => q.ev = .startup ∧ q.seen.strs = [user.getD CStr.empty, database.getD CStr.empty]
  | query sql => q.ev = .query ∧ q.seen.strs = [sql]
  | call procedure => q.ev = .query ∧ q.seen.strs = [Ctx.cat Ctx.callPrefix procedure]
  | parse statement sql oids n => q.ev = .parse ⟨statement.getD CStr.empty, sql, n.toNat, sentOids oids n⟩
  | describe target name => q.ev = .describe ⟨target, name.getD CStr.empty⟩
  | close target name => q.ev = .close ⟨target, name.getD CStr.empty⟩
  | execute portal maxRows => q.ev = .execute ⟨portal.getD CStr.empty, maxRows⟩

/-- The decoder has room for the arguments, and `pqwire_send_call` for the procedure. -/
def Within : TextSend → Prop
  | startup user database => (user.getD CStr.empty).length ≤ 127 ∧ (database.getD CStr.empty).length ≤ 127
  | query sql => sql.length ≤ 4095
  | call procedure => procedure.length ≤ 506
  | parse statement sql _ n => (statement.getD CStr.empty).length ≤ 63 ∧ sql.length ≤ 4095 ∧ n.toNat ≤ 16
  | describe _ name => (name.getD CStr.empty).length ≤ 63
  | close _ name => (name.getD CStr.empty).length ≤ 63
  | execute portal _ => (portal.getD CStr.empty).length ≤ 63

end TextSend

end Pqwire

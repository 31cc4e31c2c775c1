import Pqwire.Spec.Dialog

/-!
# Sending on what has been decoded

A proxy gets the events of its frontends from server contexts and sends what they report to a
backend. Of a Parse it keeps the record that `pqwire_prepared_from_parse` fills. A Bind is not sent
on as it is: its parameters are rewritten on the way.
-/

namespace Pqwire

open ByteMem

/-- `pqwire_prepared_stmt_t`. -/
structure PreparedStmt where
  name : CStr
  query : CStr
  nParamTypes : ℕ
  paramTypeOids : List UInt32
  identityParamSlot : Int16
  deriving DecidableEq

/-- `pqwire_prepared_from_parse`. -/
def preparedFromParse (parse : ParseMsg) : PreparedStmt :=
  let n := if parse.nParamTypes > maxParamTypes then maxParamTypes else parse.nParamTypes
  { name := copyCstr maxStmtName parse.statement
    query := copyCstr maxQueryLen parse.query
    nParamTypes := n
    -- the entries behind the copied ones are cleared
    paramTypeOids := (List.range n).map parse.oid ++ List.replicate (maxParamTypes - n) 0
    identityParamSlot := -1 }

/-- The call that sends what an event reports; `v` is what is read through its pointers. -/
def Event.resend (v : View) : Event → Option Send
  | .parse m =>
    let p := preparedFromParse m
    some (.parse (some p.name) (some p.query) (some p.paramTypeOids) (UInt16.ofNat p.nParamTypes))
  | .describe m => some (.describe m.target (some m.name))
  | .execute m => some (.execute (some m.portal) m.maxRows)
  | .close m => some (.close m.target (some m.name))
  | .sync => some .sync
  | .flush => some .flush
  | .terminate => some .terminate
  | .query => v.strs.head?.map fun sql => .query (some sql)
  | _ => Option.none

/-- The event with what it shows, as `pqwire_next_event` delivers it in some run of some context. -/
def IsDelivered (p : Event × View) : Prop :=
  ∃ s q s', Reachable s ∧ s.nextEvent = some (q, s') ∧ p = (q.ev, s'.read q.ev)

/-- What events report is sent on, and no call is refused. -/
inductive Forwards : Ctx → List (Event × View) → Ctx → Prop
  | nil (c : Ctx) : Forwards c [] c
  | cons {c c₁ c' : Ctx} {p : Event × View} {ps : List (Event × View)} {m : Send} :
      p.1.resend p.2 = some m → m.run c = (c₁, 0) → Forwards c₁ ps c' → Forwards c (p :: ps) c'

/-- The events report the same; of a Parse, all parameter types count, stored or not. -/
def Event.Same : Event → Event → Prop
  | .parse m, .parse m' =>
    m.statement = m'.statement ∧ m.query = m'.query ∧ m.nParamTypes = m'.nParamTypes ∧ ∀ i, m.oid i = m'.oid i
  | ev, ev' => ev = ev'

end Pqwire

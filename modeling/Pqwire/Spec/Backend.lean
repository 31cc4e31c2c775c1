import Pqwire.Spec.Grammar
import Pqwire.Spec.Run

/-!
# A server answers a client

A server sends backend messages, its output is carried to a fresh client in pieces of any
size, and the client's events are dequeued, in any order of these steps.

`BackMsg.Shown` is what the law promises for a message: an event of its type, the columns of
a row, the fields of an error, and the columns of a row description as long as no later one
has been parsed.
-/

namespace Pqwire

open ByteMem

/-- A column of a RowDescription: name, type and format code. -/
structure Column where
  name : CStr
  oid : UInt32
  format : Int16
  deriving DecidableEq

/-- A column on the wire: no table, no attribute number, a type length of 4 and no type modifier. -/
def Column.enc (col : Column) : Bytes :=
  col.name.toBytes ++ wr32Be 0 ++ wr16Be 0 ++ wr32Be col.oid.toNat ++ wr16Be 4 ++ wr32Be (2 ^ 32 - 1) ++
    encCode col.format

/-- The value of a field; a negative length is NULL. -/
def Field.value (f : Field) : Option Bytes := if f.len.toInt < 0 then none else some f.data

/-- A message from the backend, of those that the send helpers produce. -/
inductive BackMsg where
  | authOk
  | readyForQuery
  | parseComplete
  | bindComplete
  | closeComplete
  | noData
  | commandComplete (tag : CStr)
  | rowDescription (cols : List Column)
  | dataRow (values : List Field)
  | errorResponse (severity code message : CStr)
  deriving DecidableEq

namespace BackMsg

def type : BackMsg → BackType
  | .authOk => .authentication
  | .readyForQuery => .readyForQuery
  | .parseComplete => .parseComplete
  | .bindComplete => .bindComplete
  | .closeComplete => .closeComplete
  | .noData => .noData
  | .commandComplete _ => .commandComplete
  | .rowDescription _ => .rowDescription
  | .dataRow _ => .dataRow
  | .errorResponse _ _ _ => .errorResponse

def body : BackMsg → Bytes
  | .authOk => wr32Be 0
  | .readyForQuery => [ch 'I']
  | .commandComplete tag => tag.toBytes
  | .rowDescription cols => wr16Be cols.length ++ cols.flatMap Column.enc
  | .dataRow values => encFields values
  | .errorResponse severity code message =>
    ch 'S' :: severity.toBytes ++ ch 'C' :: code.toBytes ++ ch 'M' :: message.toBytes ++ [0]
  | _ => []

/-- The fields fit the arrays of the event. -/
def Small : BackMsg → Prop
  | .rowDescription cols => cols.length ≤ maxRowColumns ∧ ∀ col ∈ cols, col.name.length ≤ 63
  | .dataRow values => values.length ≤ maxRowColumns
  | .errorResponse severity code message => severity.length ≤ 31 ∧ code.length ≤ 7 ∧ message.length ≤ 255
  | _ => True

def isRowDescription : BackMsg → Bool
  | .rowDescription _ => true
  | _ => false

/-- The column bytes of a row. -/
def columnBytes : BackMsg → ℕ
  | .dataRow values => (values.map (·.data.length)).sum
  | _ => 0

end BackMsg

/-- Column `i` of `pqwire_send_data_row_multi`; `none` where a positive length comes without
that many bytes. -/
def sentColumn (lengths : Option (List Int32)) (values : Option (List (Option Bytes))) (i : ℕ) : Option Field :=
  let len : Int32 := lengths.elim (-1) (·.getD i 0)
  let v := (values.bind (·.getD i none)).getD []
  if h : len.toInt.toNat ≤ v.length then
    some ⟨len, v.take len.toInt.toNat, by rw [List.length_take, min_eq_left h]⟩
  else none

/-- The columns of `pqwire_send_data_row_multi` from column `i` on. -/
def sentColumns (lengths : Option (List Int32)) (values : Option (List (Option Bytes))) : ℕ → ℕ → Option (List Field)
  | 0, _ => some []
  | n + 1, i => do
    let f ← sentColumn lengths values i
    let fs ← sentColumns lengths values n (i + 1)
    return f :: fs

/-- The backend message that a send helper is asked for. -/
def Send.answer : Send → Option BackMsg
  | .authOk => some .authOk
  | .readyForQuery => some .readyForQuery
  | .parseComplete => some .parseComplete
  | .bindComplete => some .bindComplete
  | .closeComplete => some .closeComplete
  | .noData => some .noData
  | .commandComplete (some tag) => some (.commandComplete tag)
  | .rowDescription (some cols) =>
    some (.rowDescription (cols.map fun col => ⟨col.name.getD CStr.empty, col.oid, col.format⟩))
  | .dataRowMulti lengths values n => (sentColumns lengths values n.toNat 0).map .dataRow
  | .errorResponse severity sqlstate message =>
    some (.errorResponse (severity.getD Ctx.defaultSeverity) (sqlstate.getD Ctx.defaultSqlstate)
      (message.getD Ctx.defaultMessage))
  | _ => none

/-- An event as it is dequeued: with what its pointers denote then, and whether it is not
followed by a RowDescription that has been parsed already. -/
structure Delivery where
  ev : Event
  view : View
  current : Bool
  deriving DecidableEq

/-- What the law promises for a message. -/
def BackMsg.Shown : BackMsg → Delivery → Prop
  | .authOk, d => d.ev = .authenticationOk
  | .readyForQuery, d => d.ev = .readyForQuery
  | .parseComplete, d => d.ev = .parseComplete
  | .bindComplete, d => d.ev = .bindComplete
  | .closeComplete, d => d.ev = .closeComplete
  | .noData, d => d.ev = .noData
  | .commandComplete _, d => d.ev = .commandComplete
  | .rowDescription cols, d => d.ev = .rowDescription cols.length ∧
      (d.current = true → d.view.cols = cols.map fun col => (some col.name, col.oid, col.format))
  | .dataRow values, d => ∃ r, d.ev = .dataRow r ∧ d.view.blobs = values.map Field.value ∧
      r.columns.map (·.len) = values.map (·.data.length)
  | .errorResponse severity code message, d =>
    d.ev = .errorResponse { severity := severity, code := code, message := message }

def Event.isRowDescription : Event → Bool
  | .rowDescription _ => true
  | _ => false

/-- A server, a client, the messages sent and the events delivered. `mark` is the number of
messages parsed when a dequeue last left the client's queue empty, or 0. -/
structure Exchange where
  server : Ctx
  client : Ctx
  sent : List BackMsg
  delivered : List Delivery
  mark : ℕ

/-- The column bytes that the client has parsed since its queue was last emptied. -/
def Exchange.columnBytes (x : Exchange) : ℕ :=
  (((x.sent.take x.client.log.length).drop x.mark).map BackMsg.columnBytes).sum

/-- The states of all interleavings in which the client never has more undelivered events than
its queue has slots and never more column bytes than its arena holds. Allocation succeeds. -/
inductive Exchange.Reach : Exchange → Prop
  | create {config : Config} {server client : Ctx} : Reachable server → server.role = .server →
      server.output = [] → server.allocs = [] → createWithConfig .client config [] = some client →
      Reach ⟨server, client, [], [], 0⟩
  | send {x : Exchange} {m : Send} {b : BackMsg} {f : Frame} {server : Ctx} : Reach x → m.answer = some b → b.Small →
      f.type = b.type.byte → f.body = b.body → f.Fits x.client → m.run x.server = (server, 0) →
      Reach { x with server := server, sent := x.sent ++ [b] }
  | transfer {x : Exchange} {client : Ctx} (maxLen : ℕ) : Reach x →
      Feeds x.client (x.server.getOutput maxLen).1 client →
      client.log.length ≤ x.delivered.length + client.queueSize →
      Exchange.columnBytes { x with client := client } ≤ rowArenaSize →
      Reach { x with server := (x.server.getOutput maxLen).2, client := client }
  | next {x : Exchange} {q : Queued} {client : Ctx} : Reach x → x.client.nextEvent = some (q, client) →
      Reach
        { x with
          client := client
          delivered := x.delivered ++
            [⟨q.ev, client.read q.ev, (client.log.drop (x.delivered.length + 1)).all fun p => !p.ev.isRowDescription⟩]
          mark := if client.events.count = 0 then client.log.length else x.mark }

end Pqwire

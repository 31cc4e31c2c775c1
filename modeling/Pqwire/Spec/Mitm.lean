import Pqwire.Spec.Backend
import Pqwire.Spec.Dialog

/-!
# The harness between a client and a server (`mitm.c`)

`mitm_step` carries up to 4096 bytes of the client's output to the server and then up to
4096 bytes of the server's output to the client. It ignores what `pqwire_feed_input`
returns, and it does not look at the attacks that are enabled: they are kept in a table of
16 entries and nothing else is done with them.

`Relay` is a run of the whole system: both sides send, both dequeue their events, attacks
are enabled and disabled, and the harness steps, in any order.
-/

namespace Pqwire

open ByteMem

/-- `struct mitm_ctx`. -/
structure Mitm where
  client : Ctx
  server : Ctx
  enabledAttacks : List Int32
  attackCount : ℕ
  deriving DecidableEq

namespace Mitm

/-- `sizeof(buf)` in `mitm_step`. -/
def bufSize : ℕ := 4096

/-- The entries of `enabled_attacks`. -/
def tableSize : ℕ := 16

/-- `mitm_create`: `none` is a `NULL` return. `allocOk` is the outcome of `calloc`. -/
def create (client server : Option Ctx) (allocOk : Bool) : Option Mitm :=
  match client, server with
  | some client, some server =>
    if allocOk then some ⟨client, server, List.replicate tableSize 0, 0⟩ else none
  | _, _ => none

/-! ## Attacks -/

/-- `mitm_enable_attack`. -/
def enableAttack (m : Mitm) (attackId : Int32) : Mitm :=
  if m.attackCount ≥ tableSize then m
  else { m with enabledAttacks := m.enabledAttacks.set m.attackCount attackId, attackCount := m.attackCount + 1 }

/-- The inner loop of `mitm_disable_attack`, for `n` rounds from `j` on. -/
def shiftLoop : ℕ → ℕ → List Int32 → List Int32
  | 0, _, table => table
  | n + 1, j, table => shiftLoop n (j + 1) (table.set j (table.getD (j + 1) 0))

/-- The outer loop of `mitm_disable_attack`, for `n` rounds from `i` on. -/
def disableLoop (attackId : Int32) (m : Mitm) : ℕ → ℕ → Mitm
  | 0, _ => m
  | n + 1, i =>
    if m.enabledAttacks.getD i 0 = attackId then
      { m with
        enabledAttacks := shiftLoop (m.attackCount - 1 - i) i m.enabledAttacks
        attackCount := m.attackCount - 1 }
    else disableLoop attackId m n (i + 1)

/-- `mitm_disable_attack`. -/
def disableAttack (m : Mitm) (attackId : Int32) : Mitm := disableLoop attackId m m.attackCount 0

/-! ## Steps -/

/-- One direction of `mitm_step`: the two contexts after the transfer, the source first; `none`
when `pqwire_feed_input` has not returned after `fuel` rounds. -/
def move (fuel : ℕ) (source sink : Ctx) : Option (Ctx × Ctx) :=
  let r := source.getOutput bufSize
  if r.1.length > 0 then (sink.feedInput fuel r.1).map fun s => (r.2, s.1) else some (r.2, sink)

/-- `mitm_step`. -/
def step (fuel : ℕ) (m : Mitm) : Option Mitm :=
  (move fuel m.client m.server).bind fun r =>
    (move fuel r.2 r.1).map fun s => { m with client := s.2, server := s.1 }

/-- `n` calls of `mitm_step`, all of which return. -/
inductive Steps : ℕ → Mitm → Mitm → Prop
  | refl (m : Mitm) : Steps 0 m m
  | step {n fuel : ℕ} {m m₁ m' : Mitm} : m.step fuel = some m₁ → Steps n m₁ m' → Steps (n + 1) m m'

/-- The attacks that are enabled: the used entries of the table. -/
def attacks (m : Mitm) : List Int32 := m.enabledAttacks.take m.attackCount

end Mitm

/-- A call on the harness. -/
inductive HarnessCall where
  | step
  | enable (attackId : Int32)
  | disable (attackId : Int32)
  deriving DecidableEq

namespace HarnessCall

def run (fuel : ℕ) (m : Mitm) : HarnessCall → Option Mitm
  | .step => m.step fuel
  | .enable attackId => some (m.enableAttack attackId)
  | .disable attackId => some (m.disableAttack attackId)

/-- Calls one after the other; `none` when one of them has not returned. -/
def runAll (fuel : ℕ) (m : Mitm) (calls : List HarnessCall) : Option Mitm := calls.foldlM (run fuel) m

/-- What a call is meant to do to the list of enabled attacks: the first 16 are kept, and
disabling an attack takes back the oldest enabling of it. -/
def onAttacks (l : List Int32) : HarnessCall → List Int32
  | .step => l
  | .enable attackId => if l.length < Mitm.tableSize then l ++ [attackId] else l
  | .disable attackId => l.erase attackId

def isStep : HarnessCall → Bool
  | .step => true
  | _ => false

end HarnessCall

/-- The harness with what has been sent and delivered on both sides: the client's messages and
the events the server has delivered for them, the server's messages and the events the client
has delivered for them. `mark` is that of `Exchange`. -/
structure Relay where
  mitm : Mitm
  requests : List Send
  reported : List (Event × View)
  answers : List BackMsg
  shown : List Delivery
  mark : ℕ

namespace Relay

def client (r : Relay) : Ctx := r.mitm.client

def server (r : Relay) : Ctx := r.mitm.server

/-- The direction from the client to the server. -/
def dialog (r : Relay) : Dialog := ⟨r.client, r.server, r.requests, r.reported⟩

/-- The direction from the server to the client. -/
def exchange (r : Relay) : Exchange := ⟨r.server, r.client, r.answers, r.shown, r.mark⟩

/-- Neither side has more undelivered events than its queue has slots, and the client has parsed
no more column bytes than its arena holds. -/
structure Roomy (r : Relay) : Prop where
  server : r.server.log.length ≤ r.reported.length + r.server.queueSize
  client : r.client.log.length ≤ r.shown.length + r.client.queueSize
  arena : r.exchange.columnBytes ≤ rowArenaSize

/-- The states of all interleavings of sends, deliveries, attacks and steps of the harness in
which no queue and no arena overflows. Allocation succeeds. -/
inductive Reach : Relay → Prop
  | create {config config' : Config} {m : Mitm} :
      Mitm.create (createWithConfig .client config []) (createWithConfig .server config' []) true = some m →
      Reach ⟨m, [], [], [], [], 0⟩
  | request {r : Relay} {m : Send} {client : Ctx} : Reach r → m.isStartup = r.requests.isEmpty →
      m.Allowed r.server.maxMessageSize → m.run r.client = (client, 0) →
      Reach { r with mitm := { r.mitm with client := client }, requests := r.requests ++ [m] }
  | answer {r : Relay} {m : Send} {b : BackMsg} {f : Frame} {server : Ctx} : Reach r → m.answer = some b →
      b.Small → f.type = b.type.byte → f.body = b.body → f.Fits r.client → m.run r.server = (server, 0) →
      Reach { r with mitm := { r.mitm with server := server }, answers := r.answers ++ [b] }
  | step {r : Relay} {m : Mitm} {fuel : ℕ} : Reach r → r.mitm.step fuel = some m →
      Roomy { r with mitm := m } → Reach { r with mitm := m }
  | nextServer {r : Relay} {q : Queued} {server : Ctx} : Reach r → r.server.nextEvent = some (q, server) →
      Reach { r with mitm := { r.mitm with server := server }, reported := r.reported ++ [(q.ev, server.read q.ev)] }
  | nextClient {r : Relay} {q : Queued} {client : Ctx} : Reach r → r.client.nextEvent = some (q, client) →
      Reach
        { r with
          mitm := { r.mitm with client := client }
          shown := r.shown ++
            [⟨q.ev, client.read q.ev, (client.log.drop (r.shown.length + 1)).all fun p => !p.ev.isRowDescription⟩]
          mark := if client.events.count = 0 then client.log.length else r.mark }
  | enable {r : Relay} (attackId : Int32) : Reach r → Reach { r with mitm := r.mitm.enableAttack attackId }
  | disable {r : Relay} (attackId : Int32) : Reach r → Reach { r with mitm := r.mitm.disableAttack attackId }

end Relay

end Pqwire

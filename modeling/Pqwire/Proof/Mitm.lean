import Mathlib.Data.List.GetD
import Pqwire.Proof.Dialog
import Pqwire.Proof.Exchange
import Pqwire.Proof.Halves
import Pqwire.Proof.Pipeline
import Pqwire.Spec.Mitm

/-!
# The harness between a client and a server

* `harness_attacks`: the table holds the attacks that are enabled, and the traffic does not
  depend on it.
* `Relay.Linked`: the invariant of the whole system, the invariants of its two directions.
  Each direction is kept by the steps of the other one because the receiving half of a context
  does not depend on its output.
* `relay_law`: both sides report what the other side has sent, in order.
* `relay_drains`: enough steps empty both outputs, unless a queue or the arena overflows.
-/

namespace Pqwire

open ByteMem

namespace Mitm

/-! ## The table of attacks -/

theorem shiftLoop_length (n j : ℕ) (table : List Int32) : (shiftLoop n j table).length = table.length := by
  induction n generalizing j table with
  | zero => rfl
  | succ n ih =>
    unfold shiftLoop
    rw [ih, List.length_set]

/-- **The inner loop drops entry `j`** and moves the `n` entries behind it down. -/
theorem shiftLoop_take {n j : ℕ} {table : List Int32} (h : j + n < table.length) :
    (shiftLoop n j table).take (j + n) = table.take j ++ (table.drop (j + 1)).take n := by
  induction n generalizing j table with
  | zero => rw [shiftLoop, Nat.add_zero, List.take_zero, List.append_nil]
  | succ n ih =>
    set table' := table.set j (table.getD (j + 1) 0) with htable
    have hlen : table'.length = table.length := List.length_set
    have hih := @ih (j + 1) table' (by omega)
    have hhead : table'.take (j + 1) = table.take j ++ [table.getD (j + 1) 0] := by
      rw [htable, List.take_add_one, List.take_set_of_le le_rfl, List.getElem?_set_self (by omega)]
      rfl
    have htail : table'.drop (j + 1 + 1) = table.drop (j + 1 + 1) := by
      rw [htable, List.drop_set_of_lt (by omega)]
    have hcons : table.drop (j + 1) = table.getD (j + 1) 0 :: table.drop (j + 1 + 1) := by
      rw [List.getD_eq_getElem _ _ (by omega)]
      exact (List.cons_getElem_drop_succ ..).symm
    unfold shiftLoop
    rw [← htable, show j + (n + 1) = j + 1 + n by omega, hih, hhead, htail, hcons, List.take_succ_cons, List.append_assoc]
    rfl

/-- The table has 16 entries, of which `attack_count` are used. -/
structure TableOk (m : Mitm) : Prop where
  size : m.enabledAttacks.length = tableSize
  count : m.attackCount ≤ tableSize

theorem TableOk.attacks_length {m : Mitm} (h : m.TableOk) : m.attacks.length = m.attackCount := by
  have h1 := h.size
  have h2 := h.count
  unfold attacks
  rw [List.length_take]
  omega

theorem enableAttack_ok {m : Mitm} (h : m.TableOk) (attackId : Int32) :
    (m.enableAttack attackId).TableOk ∧
      (m.enableAttack attackId).attacks = HarnessCall.onAttacks m.attacks (.enable attackId) := by
  have hsize := h.size
  simp only [HarnessCall.onAttacks, h.attacks_length]
  unfold enableAttack
  split
  · rename_i hfull
    rw [if_neg (by omega)]
    exact ⟨h, rfl⟩
  · rename_i hroom
    rw [if_pos (by omega)]
    refine ⟨⟨?_, ?_⟩, ?_⟩
    · exact List.length_set.trans hsize
    · change m.attackCount + 1 ≤ tableSize
      omega
    · change (m.enabledAttacks.set m.attackCount attackId).take (m.attackCount + 1) = _
      rw [List.take_add_one, List.take_set_of_le le_rfl, List.getElem?_set_self (by omega)]
      rfl

/-- What the rounds from `i` on leave: none of the entries in front of `i` is the attack. -/
theorem disableLoop_ok {m : Mitm} (h : m.TableOk) (attackId : Int32) {n i : ℕ} (hn : i + n = m.attackCount)
    (hi : attackId ∉ m.enabledAttacks.take i) :
    (disableLoop attackId m n i).TableOk ∧ (disableLoop attackId m n i).attacks = m.attacks.erase attackId := by
  have hsize := h.size
  have hcount := h.count
  induction n generalizing i with
  | zero =>
    refine ⟨h, ?_⟩
    have hall : m.attacks = m.enabledAttacks.take i := by rw [attacks, ← hn, Nat.add_zero]
    rw [hall, List.erase_of_not_mem hi, ← hall]
    rfl
  | succ n ih =>
    unfold disableLoop
    split
    · -- the entry is found
      rename_i hfound
      have hget : m.enabledAttacks[i]? = some attackId := by
        rw [← hfound, List.getD_eq_getElem _ _ (by omega), List.getElem?_eq_getElem]
      have hsplit : m.attacks =
          m.enabledAttacks.take i ++ attackId :: (m.enabledAttacks.drop (i + 1)).take (m.attackCount - 1 - i) := by
        have hrest : m.attacks = m.attacks.take i ++ m.attacks.drop i := (List.take_append_drop _ _).symm
        have hdrop : m.enabledAttacks.drop i = attackId :: m.enabledAttacks.drop (i + 1) := by
          obtain ⟨hlt, hval⟩ := List.getElem?_eq_some_iff.1 hget
          rw [← hval]
          exact (List.cons_getElem_drop_succ ..).symm
        rw [hrest, attacks, List.take_take, Nat.min_eq_left (by omega), List.drop_take, hdrop,
          show m.attackCount - i = m.attackCount - 1 - i + 1 by omega, List.take_succ_cons]
      refine ⟨⟨(shiftLoop_length ..).trans hsize, (Nat.sub_le ..).trans hcount⟩, ?_⟩
      rw [hsplit, List.erase_append_right _ hi, List.erase_cons_head]
      change (shiftLoop (m.attackCount - 1 - i) i m.enabledAttacks).take (m.attackCount - 1) = _
      have hlt : i + (m.attackCount - 1 - i) < m.enabledAttacks.length := by omega
      have htake := shiftLoop_take hlt
      rwa [show i + (m.attackCount - 1 - i) = m.attackCount - 1 by omega] at htake
    · rename_i hother
      refine ih (i := i + 1) (by omega) ?_
      rw [List.take_add_one, List.mem_append]
      rintro (hmem | hmem)
      · exact hi hmem
      · rw [List.getElem?_eq_getElem (by omega), Option.toList_some, List.mem_singleton] at hmem
        rw [List.getD_eq_getElem _ _ (by omega)] at hother
        exact hother hmem.symm

theorem disableAttack_ok {m : Mitm} (h : m.TableOk) (attackId : Int32) :
    (m.disableAttack attackId).TableOk ∧
      (m.disableAttack attackId).attacks = HarnessCall.onAttacks m.attacks (.disable attackId) :=
  disableLoop_ok h attackId (Nat.zero_add _) (by simp)

/-- The contexts of a harness: all that the traffic depends on. -/
def contexts (m : Mitm) : Ctx × Ctx := (m.client, m.server)

theorem enableAttack_contexts (m : Mitm) (attackId : Int32) : (m.enableAttack attackId).contexts = m.contexts := by
  unfold enableAttack
  split <;> rfl

theorem disableLoop_contexts (attackId : Int32) (m : Mitm) (n i : ℕ) :
    (disableLoop attackId m n i).contexts = m.contexts := by
  induction n generalizing i with
  | zero => rfl
  | succ n ih =>
    unfold disableLoop
    split
    · rfl
    · exact ih (i + 1)

/-- A step moves bytes between the contexts and leaves the table alone. -/
theorem step_eq (fuel : ℕ) (m : Mitm) :
    m.step fuel = (step fuel ⟨m.client, m.server, [], 0⟩).map fun m' => { m with client := m'.client, server := m'.server } := by
  unfold step
  rw [Option.map_bind]
  refine Option.bind_congr fun r _ => ?_
  rw [Function.comp_apply, Option.map_map]
  rfl

end Mitm

namespace HarnessCall

/-- **A call does to the table what it is meant to do.** -/
theorem run_attacks {fuel : ℕ} {m m' : Mitm} {call : HarnessCall} (h : m.TableOk) (hr : call.run fuel m = some m') :
    m'.TableOk ∧ m'.attacks = call.onAttacks m.attacks := by
  cases call with
  | step =>
    simp only [run] at hr
    rw [Mitm.step_eq] at hr
    obtain ⟨m₁, -, rfl⟩ := Option.map_eq_some_iff.1 hr
    exact ⟨⟨h.size, h.count⟩, rfl⟩
  | enable attackId =>
    cases hr
    exact Mitm.enableAttack_ok h attackId
  | disable attackId =>
    cases hr
    exact Mitm.disableAttack_ok h attackId

theorem runAll_attacks {fuel : ℕ} {calls : List HarnessCall} {m m' : Mitm} (h : m.TableOk)
    (hr : runAll fuel m calls = some m') : m'.TableOk ∧ m'.attacks = calls.foldl onAttacks m.attacks := by
  induction calls generalizing m with
  | nil =>
    cases hr
    exact ⟨h, rfl⟩
  | cons call calls ih =>
    obtain ⟨m₁, hcall, hrest⟩ := Option.bind_eq_some_iff.1 hr
    obtain ⟨hok, hatt⟩ := run_attacks h hcall
    have := ih hok hrest
    rwa [hatt] at this

/-- The contexts after a step are the same for two harnesses with the same contexts. -/
theorem step_contexts {m₁ m₂ : Mitm} (fuel : ℕ) (h : m₁.contexts = m₂.contexts) :
    (m₁.step fuel).map Mitm.contexts = (m₂.step fuel).map Mitm.contexts := by
  obtain ⟨hc, hs⟩ := Prod.mk.inj h
  rw [Mitm.step_eq fuel m₁, Mitm.step_eq fuel m₂, hc, hs, Option.map_map, Option.map_map]
  rfl

/-- **The traffic does not depend on the attacks**: without the calls that enable and disable
them, the contexts are the same. -/
theorem runAll_contexts {m₁ m₂ : Mitm} (fuel : ℕ) (calls : List HarnessCall) (h : m₁.contexts = m₂.contexts) :
    (runAll fuel m₁ calls).map Mitm.contexts = (runAll fuel m₂ (calls.filter isStep)).map Mitm.contexts := by
  induction calls generalizing m₁ m₂ with
  | nil => exact congrArg some h
  | cons call calls ih =>
    cases call with
    | step =>
      have hstep := step_contexts fuel h
      change ((m₁.step fuel).bind fun m => runAll fuel m calls).map _ =
        ((m₂.step fuel).bind fun m => runAll fuel m (calls.filter isStep)).map _
      cases h₁ : m₁.step fuel with
      | none =>
        rw [h₁, Option.map_none, eq_comm, Option.map_eq_none_iff] at hstep
        rw [hstep]
        rfl
      | some n₁ =>
        rw [h₁, Option.map_some, eq_comm, Option.map_eq_some_iff] at hstep
        obtain ⟨n₂, h₂, hn⟩ := hstep
        rw [h₂]
        exact ih hn.symm
    | enable attackId => exact ih ((Mitm.enableAttack_contexts m₁ attackId).trans h)
    | disable attackId => exact ih ((Mitm.disableLoop_contexts attackId m₁ _ _).trans h)

end HarnessCall

/-- **The attacks of the harness.** After any calls the used entries of the table are the attacks
that are enabled, at most 16 of them, and what the two contexts have become does not depend on
the calls that enabled and disabled them. -/
theorem harness_attacks {client server : Option Ctx} {allocOk : Bool} {m m' : Mitm} {fuel : ℕ} {calls : List HarnessCall}
    (hm : Mitm.create client server allocOk = some m) (h : HarnessCall.runAll fuel m calls = some m') :
    m'.attacks = calls.foldl HarnessCall.onAttacks [] ∧ m'.attackCount = m'.attacks.length ∧ m'.attackCount ≤ 16 ∧
      ∃ m'', HarnessCall.runAll fuel m (calls.filter HarnessCall.isStep) = some m'' ∧ m''.contexts = m'.contexts := by
  have hok : m.TableOk ∧ m.attacks = [] := by
    unfold Mitm.create at hm
    split at hm
    · split at hm
      · cases hm
        exact ⟨⟨List.length_replicate, Nat.zero_le _⟩, rfl⟩
      · cases hm
    · cases hm
  obtain ⟨hok', hatt⟩ := HarnessCall.runAll_attacks hok.1 h
  rw [hok.2] at hatt
  refine ⟨hatt, hok'.attacks_length.symm, hok'.count, ?_⟩
  have hctx := HarnessCall.runAll_contexts fuel calls (rfl : m.contexts = m.contexts)
  rw [h, Option.map_some, eq_comm, Option.map_eq_some_iff] at hctx
  exact hctx

/-- Two attacks are enabled and one is disabled again around a step that carries a Sync. -/
theorem harness_attacks_one :
    ∃ m m', Mitm.create (some (tinyClient.sendSync).1) (some (freshServer 1 64)) true = some m ∧
      HarnessCall.runAll 2 m [.enable 3, .enable 5, .step, .disable 3] = some m' ∧ m'.attacks = [5] ∧
      m'.attackCount = m'.attacks.length ∧
      ∃ m'', HarnessCall.runAll 2 m [.step] = some m'' ∧ m''.contexts = m'.contexts := by
  refine ⟨_, _, rfl, rfl, ?_⟩
  obtain ⟨h1, h2, -, h4⟩ := @harness_attacks (some (tinyClient.sendSync).1) (some (freshServer 1 64)) true _ _ 2
    [.enable 3, .enable 5, .step, .disable 3] rfl rfl
  exact ⟨h1, h2, h4⟩

/-! ## A transfer -/

/-- A call of `pqwire_feed_input` that returns has accepted its bytes when allocation succeeds. -/
theorem feedInput_feeds {c c' : Ctx} {data : Bytes} {fuel n : ℕ} (hok : c.Ok) (ha : c.allocs = [])
    (h : c.feedInput fuel data = some (c', n)) : Feeds c data c' := by
  obtain ⟨c₁, hacc, -⟩ := acceptInput_core hok ha data
  unfold Ctx.feedInput at h
  rw [hacc] at h
  obtain ⟨d, hd, heq⟩ := Option.map_eq_some_iff.1 h
  cases heq
  exact ⟨c₁, hacc, fuel, hd⟩

theorem getOutput_nil {c : Ctx} (h : c.output = []) (n : ℕ) : c.getOutput n = ([], c) := by
  unfold Ctx.getOutput
  rw [h, List.take_nil, List.drop_nil, ← h]

namespace Mitm

/-- **One direction of a step**: nothing happens when there is no output, else the sink is fed. -/
theorem move_cases {fuel : ℕ} {source sink source' sink' : Ctx} (hok : sink.Ok) (ha : sink.allocs = [])
    (h : move fuel source sink = some (source', sink')) :
    source' = (source.getOutput bufSize).2 ∧
      (source.output = [] ∧ sink' = sink ∨ Feeds sink (source.getOutput bufSize).1 sink') := by
  unfold move at h
  dsimp only at h
  split at h
  · obtain ⟨r, hr, heq⟩ := Option.map_eq_some_iff.1 h
    cases heq
    exact ⟨rfl, Or.inr (feedInput_feeds (n := r.2) hok ha hr)⟩
  · rename_i hempty
    cases h
    refine ⟨rfl, Or.inl ⟨?_, rfl⟩⟩
    have hlen : (source.output.take bufSize).length = 0 := by
      have : (source.getOutput bufSize).1.length = 0 := by omega
      exact this
    rw [List.length_take] at hlen
    have hpos : bufSize = 4096 := rfl
    exact List.length_eq_zero_iff.1 (by omega)

/-- A transfer that a call of `pqwire_feed_input` with its bytes returns from. -/
theorem move_of_feeds {source sink sink' : Ctx} (h : Feeds sink (source.getOutput bufSize).1 sink') :
    ∃ fuel sink'', ∀ k, move (fuel + k) source sink = some ((source.getOutput bufSize).2, sink'') := by
  obtain ⟨fuel, hf⟩ := feeds_feedInput h
  unfold move
  dsimp only
  split
  · refine ⟨fuel, sink', ?_⟩
    intro k
    rw [feedInput_mono hf]
    rfl
  · exact ⟨0, sink, fun _ => rfl⟩

end Mitm

/-! ## What one direction needs of the other -/

/-- The client of a dialog may receive. -/
theorem Dialog.Linked.withClient {d : Dialog} {client : Ctx} (h : d.Linked) (hr : client.role = .client)
    (ha : client.allocs = []) (ho : client.output = d.client.output) : Linked { d with client := client } := by
  refine ⟨hr, ha, h.ok, h.waits, h.role, h.allocs, h.queue, h.shown, ?_⟩
  cases h.phase with
  | idle h1 h2 h3 h4 => exact .idle h1 h2 h3 (by rw [← h4, ← ho])
  | starting h1 h2 h3 h4 h5 h6 h7 h8 h9 h10 => exact .starting h1 h2 h3 h4 h5 h6 h7 h8 h9 (by rw [← h10, ← ho])
  | running h1 h2 h3 h4 h5 h6 h7 h8 h9 h10 => exact .running h1 h2 h3 h4 h5 h6 h7 h8 h9 (by rw [← h10, ← ho])

/-- The server of a dialog may send. -/
theorem Dialog.Linked.withServer {d : Dialog} {server : Ctx} (h : d.Linked) (ho : OutputOnly d.server server)
    (ha : server.allocs = []) : Linked { d with server := server } := by
  unfold OutputOnly at ho
  have hok : server.Ok := by
    rw [ho]
    exact ⟨h.ok.ring, h.ok.queue, h.ok.input, h.ok.cols, h.ok.names, h.ok.arena, h.ok.arenaSize⟩
  have hw : server.Waits := by
    rw [ho]
    exact h.waits.congr rfl rfl rfl rfl rfl
  have hq : server.Undelivered d.delivered.length := by
    rw [ho]
    exact h.queue
  have hr : server.role = .server := by
    rw [ho]
    exact h.role
  refine ⟨h.client, h.clientAllocs, hok, hw, hr, ha, hq, h.shown, ?_⟩
  rw [ho]
  cases h.phase with
  | idle h1 h2 h3 h4 => exact .idle h1 h2 h3 h4
  | starting h1 h2 h3 h4 h5 h6 h7 h8 h9 h10 => exact .starting h1 h2 h3 h4 h5 h6 h7 h8 h9 h10
  | running h1 h2 h3 h4 h5 h6 h7 h8 h9 h10 => exact .running h1 h2 h3 h4 h5 h6 h7 h8 h9 h10

/-- The server of an exchange may receive. -/
theorem Exchange.Linked.withServer {x : Exchange} {server : Ctx} (h : x.Linked) (ha : server.allocs = [])
    (ho : server.output = x.server.output) : Linked { x with server := server } := by
  obtain ⟨done, ms, G, hsp⟩ := h.split
  refine ⟨ha, h.run, h.role, h.allocs, h.queue, h.room, ⟨done, ms, G, ?_⟩, h.shown⟩
  refine ⟨hsp.sent, hsp.logged, hsp.described, hsp.framed, hsp.fits, ?_⟩
  rw [← hsp.bytes, ← ho]

/-! ## The invariant of the system -/

namespace Relay

/-- The client as if it had sent nothing. -/
def quietClient (r : Relay) : Ctx := r.client.setOutput [] 4096

/-- Both directions keep their invariants. That of the answers is about a client that has sent
nothing, which receives as the client does. -/
structure Linked (r : Relay) : Prop where
  requests : r.dialog.Linked
  answers : Exchange.Linked ⟨r.server, r.quietClient, r.answers, r.shown, r.mark⟩

theorem Linked.congr {r : Relay} {m : Mitm} (h : r.Linked) (hc : m.client = r.mitm.client) (hs : m.server = r.mitm.server) :
    Linked { r with mitm := m } := by
  obtain ⟨h1, h2⟩ := h
  simp only [Relay.dialog, Relay.quietClient, Relay.client, Relay.server] at h1 h2
  rw [← hc, ← hs] at h1 h2
  exact ⟨h1, h2⟩

theorem Linked.request {r : Relay} {m : Send} {client : Ctx} (h : r.Linked) (hs : m.isStartup = r.requests.isEmpty)
    (ha : m.Allowed r.server.maxMessageSize) (hm : m.run r.client = (client, 0)) :
    Linked { r with mitm := { r.mitm with client := client }, requests := r.requests ++ [m] } := by
  have hd := h.requests.send hs ha hm
  refine ⟨hd, ?_⟩
  have hne : m ≠ .readyForQuery := by
    rintro rfl
    obtain ⟨x, hx, -⟩ := ha
    cases hx
  have happ : AppendsOnly r.client client := by
    have := send_appendsOnly r.client hne
    rwa [hm] at this
  have hal : client.allocs = r.client.allocs := hd.clientAllocs.trans h.requests.clientAllocs.symm
  have hq : quietClient { r with mitm := { r.mitm with client := client }, requests := r.requests ++ [m] } =
      r.quietClient := by
    change client.setOutput [] 4096 = r.client.setOutput [] 4096
    unfold AppendsOnly at happ
    rw [happ, hal]
    rfl
  rw [hq]
  exact h.answers

theorem Linked.answer {r : Relay} {m : Send} {b : BackMsg} {f : Frame} {server : Ctx} (h : r.Linked)
    (hb : m.answer = some b) (hs : b.Small) (ht : f.type = b.type.byte) (hbody : f.body = b.body) (hf : f.Fits r.client)
    (hm : m.run r.server = (server, 0)) :
    Linked { r with mitm := { r.mitm with server := server }, answers := r.answers ++ [b] } := by
  have hx := h.answers.send hb hs ht hbody hf hm
  refine ⟨h.requests.withServer ?_ hx.serverAllocs, hx⟩
  have := send_outputOnly r.server m
  rwa [hm] at this

theorem Linked.nextServer {r : Relay} {q : Queued} {server : Ctx} (h : r.Linked)
    (hn : r.server.nextEvent = some (q, server)) :
    Linked { r with mitm := { r.mitm with server := server }, reported := r.reported ++ [(q.ev, server.read q.ev)] } := by
  have hd := h.requests.next hn
  refine ⟨hd, h.answers.withServer hd.allocs ?_⟩
  change server.output = r.server.output
  rw [(nextEvent_frame hn).1]

theorem Linked.nextClient {r : Relay} {q : Queued} {client : Ctx} (h : r.Linked)
    (hn : r.client.nextEvent = some (q, client)) :
    Linked
      { r with
        mitm := { r.mitm with client := client }
        shown := r.shown ++
          [⟨q.ev, client.read q.ev, (client.log.drop (r.shown.length + 1)).all fun p => !p.ev.isRowDescription⟩]
        mark := if client.events.count = 0 then client.log.length else r.mark } := by
  have hx := h.answers.next (nextEvent_setOutput hn)
  rw [read_setOutput] at hx
  refine ⟨h.requests.withClient ?_ ?_ ?_, hx⟩
  all_goals
    rw [(nextEvent_frame hn).1]
  · exact h.requests.client
  · exact h.requests.clientAllocs
  · rfl

/-! ### Steps of the harness -/

theorem setOutput_ok {c : Ctx} {out : Bytes} {cap : ℕ} (h : (c.setOutput out cap).Ok) : c.Ok :=
  ⟨h.ring, h.queue, h.input, h.cols, h.names, h.arena, h.arenaSize⟩

/-- The first half of a step. That the answers are delivered does not depend on room in the
server's queue. -/
theorem Linked.forward {r : Relay} {fuel : ℕ} {client server : Ctx} (h : r.Linked)
    (hm : Mitm.move fuel r.client r.server = some (client, server)) :
    Exchange.Linked ⟨server, client.setOutput [] 4096, r.answers, r.shown, r.mark⟩ ∧
      (server.log.length ≤ r.reported.length + server.queueSize →
        Dialog.Linked ⟨client, server, r.requests, r.reported⟩) := by
  obtain ⟨rfl, ⟨hout, rfl⟩ | hfeeds⟩ := Mitm.move_cases h.requests.ok h.requests.allocs hm
  · rw [getOutput_nil hout]
    exact ⟨h.answers, fun _ => h.requests⟩
  · have hrec := feeds_received h.requests.allocs hfeeds
    refine ⟨h.answers.withServer (hrec.allocs.trans h.requests.allocs) hrec.output, ?_⟩
    intro hle
    obtain ⟨server', hfeeds', hlinked⟩ := h.requests.transfer Mitm.bufSize
    obtain rfl := hfeeds.unique hfeeds'
    exact hlinked hle

/-- The second half of a step. -/
theorem back {fuel : ℕ} {client server client' server' : Ctx} {answers : List BackMsg} {shown : List Delivery} {mark : ℕ}
    (h : Exchange.Linked ⟨server, client.setOutput [] 4096, answers, shown, mark⟩)
    (hm : Mitm.move fuel server client = some (server', client')) :
    server' = (server.getOutput Mitm.bufSize).2 ∧ Received client client' ∧
      (client'.log.length ≤ shown.length + client'.queueSize →
        Exchange.columnBytes ⟨server', client', answers, shown, mark⟩ ≤ rowArenaSize →
        Exchange.Linked ⟨server', client'.setOutput [] 4096, answers, shown, mark⟩) := by
  have hok : client.Ok := setOutput_ok (reachable_ok h.run.reachable).1
  obtain ⟨rfl, ⟨hout, rfl⟩ | hfeeds⟩ := Mitm.move_cases hok h.allocs hm
  · rw [getOutput_nil hout]
    exact ⟨rfl, .refl _, fun _ _ => h⟩
  · refine ⟨rfl, feeds_received h.allocs hfeeds, ?_⟩
    obtain ⟨quiet, hquiet, hlinked⟩ := h.transfer Mitm.bufSize
    obtain rfl := hquiet.unique (feeds_setOutput hfeeds)
    exact hlinked

theorem Linked.step {r : Relay} {fuel : ℕ} {m : Mitm} (h : r.Linked) (hm : r.mitm.step fuel = some m)
    (hroom : Roomy { r with mitm := m }) : Linked { r with mitm := m } := by
  obtain ⟨⟨client, server⟩, hfwd, hm⟩ := Option.bind_eq_some_iff.1 hm
  obtain ⟨⟨server', client'⟩, hback, rfl⟩ := Option.map_eq_some_iff.1 hm
  obtain ⟨hx, hd⟩ := h.forward hfwd
  obtain ⟨rfl, hrec, hlinked⟩ := back hx hback
  have hd' := hd hroom.server
  refine ⟨?_, hlinked hroom.client hroom.arena⟩
  have hclient := hd'.withClient (hrec.role.trans hd'.client) (hrec.allocs.trans hd'.clientAllocs) hrec.output
  exact hclient.withServer rfl hd'.allocs

/-- **A step of the harness returns.** -/
theorem Linked.returns {r : Relay} (h : r.Linked) : ∃ fuel m, r.mitm.step fuel = some m := by
  obtain ⟨sink, hfeeds, -⟩ := h.requests.transfer Mitm.bufSize
  obtain ⟨fuel₁, server, hfwd⟩ := Mitm.move_of_feeds hfeeds
  obtain ⟨hx, -⟩ := h.forward (hfwd 0)
  obtain ⟨quiet, hquiet, -⟩ := hx.transfer Mitm.bufSize
  obtain ⟨fuel₂, client, hback⟩ := Mitm.move_of_feeds
    (@feeds_setOutput _ (r.client.getOutput Mitm.bufSize).2.output (r.client.getOutput Mitm.bufSize).2.outputCap _ _ hquiet)
  have hback' := hback fuel₁
  rw [Nat.add_comm] at hback'
  refine ⟨fuel₁ + fuel₂, { r.mitm with client := client, server := (server.getOutput Mitm.bufSize).2 }, ?_⟩
  refine Option.bind_eq_some_iff.2 ⟨_, hfwd fuel₂, ?_⟩
  exact Option.map_eq_some_iff.2 ⟨_, hback', rfl⟩

/-! ### Runs -/

theorem Reach.linked {r : Relay} (h : r.Reach) : r.Linked := by
  induction h with
  | @create config config' m hm =>
    unfold Mitm.create at hm
    split at hm
    · rename_i client server hclient hserver
      cases hm
      have hquiet : client.setOutput [] 4096 = client := by
        unfold createWithConfig at hclient
        split at hclient
        · cases hclient
        split at hclient
        · cases hclient
          rfl
        · cases hclient
      refine ⟨(Dialog.Reach.create hclient hserver).linked, ?_⟩
      change Exchange.Linked ⟨server, client.setOutput [] 4096, [], [], 0⟩
      rw [hquiet]
      obtain ⟨-, -, -, hout', -, hr', -⟩ := create_empty hserver
      exact (Exchange.Reach.create (.create hserver) hr' hout' (create_allocs hserver) hclient).linked
    · cases hm
  | request _ hs ha hm ih => exact ih.request hs ha hm
  | answer _ hb hs ht hbody hf hm ih => exact ih.answer hb hs ht hbody hf hm
  | step _ hm hroom ih => exact ih.step hm hroom
  | nextServer _ hn ih => exact ih.nextServer hn
  | nextClient _ hn ih => exact ih.nextClient hn
  -- the contexts are those of the harness before
  | @enable r attackId _ ih =>
    have hc := Mitm.enableAttack_contexts r.mitm attackId
    obtain ⟨hclient, hserver⟩ := Prod.mk.inj hc
    exact ih.congr hclient hserver
  | @disable r attackId _ ih =>
    have hc := Mitm.disableLoop_contexts attackId r.mitm r.mitm.attackCount 0
    obtain ⟨hclient, hserver⟩ := Prod.mk.inj hc
    exact ih.congr hclient hserver

/-- A step takes up to 4096 bytes from either output. -/
theorem Linked.step_outputs {r : Relay} {fuel : ℕ} {m : Mitm} (h : r.Linked) (hm : r.mitm.step fuel = some m) :
    m.client.output = r.client.output.drop Mitm.bufSize ∧ m.server.output = r.server.output.drop Mitm.bufSize := by
  obtain ⟨⟨client, server⟩, hfwd, hm⟩ := Option.bind_eq_some_iff.1 hm
  obtain ⟨⟨server', client'⟩, hback, rfl⟩ := Option.map_eq_some_iff.1 hm
  obtain ⟨hx, -⟩ := h.forward hfwd
  obtain ⟨rfl, hrec, -⟩ := back hx hback
  obtain ⟨hclient, hserver⟩ := Mitm.move_cases h.requests.ok h.requests.allocs hfwd
  have hout : server.output = r.server.output := by
    rcases hserver with ⟨-, rfl⟩ | hfeeds
    · rfl
    · exact (feeds_received h.requests.allocs hfeeds).output
  rw [hclient] at hrec
  refine ⟨hrec.output, ?_⟩
  change server.output.drop Mitm.bufSize = _
  rw [hout]

/-- **Enough steps empty both outputs**, unless a queue or the arena overflows on the way. -/
theorem Reach.drains {r : Relay} (h : r.Reach) (n : ℕ) :
    (∃ m, Mitm.Steps n r.mitm m ∧ Reach { r with mitm := m } ∧
        m.client.output = r.client.output.drop (Mitm.bufSize * n) ∧
        m.server.output = r.server.output.drop (Mitm.bufSize * n)) ∨
      ∃ k m, k ≤ n ∧ Mitm.Steps k r.mitm m ∧ ¬Roomy { r with mitm := m } := by
  induction n generalizing r with
  | zero =>
    refine Or.inl ⟨r.mitm, .refl _, h, ?_, ?_⟩
    · rw [Nat.mul_zero, List.drop_zero]
      rfl
    · rw [Nat.mul_zero, List.drop_zero]
      rfl
  | succ n ih =>
    obtain ⟨fuel, m₁, hstep⟩ := h.linked.returns
    by_cases hroom : Roomy { r with mitm := m₁ }
    · obtain ⟨hc, hs⟩ := h.linked.step_outputs hstep
      rcases ih (h.step hstep hroom) with ⟨m, hsteps, hreach, hc', hs'⟩ | ⟨k, m, hk, hsteps, hover⟩
      · refine Or.inl ⟨m, .step hstep hsteps, hreach, ?_, ?_⟩
        · rw [hc']
          change m₁.client.output.drop _ = _
          rw [hc, List.drop_drop, show Mitm.bufSize + Mitm.bufSize * n = Mitm.bufSize * (n + 1) by ring]
        · rw [hs']
          change m₁.server.output.drop _ = _
          rw [hs, List.drop_drop, show Mitm.bufSize + Mitm.bufSize * n = Mitm.bufSize * (n + 1) by ring]
      · exact Or.inr ⟨k + 1, m, by omega, .step hstep hsteps, hover⟩
    · exact Or.inr ⟨1, m₁, by omega, .step hstep (.refl _), hroom⟩

end Relay

/-- **The relay of a client and a server.** Whatever the order of sends on both sides, steps of
the harness, deliveries and attacks, the events that the server delivers are those of the
client's messages and the events that the client delivers show the server's messages, in order
and one for each; once the outputs are drained and the queues are empty they are all reported;
and every step of the harness returns. -/
theorem relay_law {r : Relay} (h : r.Reach) :
    r.reported.map some <+: r.requests.map Send.expected ∧
      List.Forall₂ BackMsg.Shown (r.answers.take r.shown.length) r.shown ∧
      (r.client.output = [] → r.server.events.count = 0 → r.reported.map some = r.requests.map Send.expected) ∧
      (r.server.output = [] → r.client.events.count = 0 → List.Forall₂ BackMsg.Shown r.answers r.shown) ∧
      ∃ fuel m, r.mitm.step fuel = some m := by
  have hl := h.linked
  refine ⟨hl.requests.shown, hl.answers.shown, ?_, ?_, hl.returns⟩
  · intro ho hc
    refine hl.requests.shown.eq_of_length ?_
    obtain ⟨dq, hdq, hn⟩ := hl.requests.queue
    have hlen := congrArg List.length hdq
    rw [List.length_append, RingBuf.toList_length, show r.dialog.server.events.count = 0 from hc] at hlen
    have hsent := hl.requests.drained ho
    rw [List.length_map, List.length_map]
    change r.dialog.delivered.length = r.dialog.sent.length
    omega
  · intro ho hc
    obtain ⟨dq, hdq, hn⟩ := hl.answers.queue
    have hlen := congrArg List.length hdq
    rw [List.length_append, RingBuf.toList_length, show r.quietClient.events.count = 0 from hc] at hlen
    have hsent := hl.answers.drained ho
    have hshown := hl.answers.shown
    rwa [List.take_of_length_le (by omega)] at hshown

/-- A relay in which a startup message and a Sync go one way and AuthenticationOk the other, in
one step and with an attack enabled. -/
theorem relay_law_duplex :
    ∃ r : Relay, r.Reach ∧ r.reported.map (·.1) = [.startup, .sync] ∧ r.shown.map (·.ev) = [.authenticationOk] ∧
      r.reported.map some = r.requests.map Send.expected ∧ List.Forall₂ BackMsg.Shown r.answers r.shown := by
  have h₀ := @Relay.Reach.create ⟨16, 64⟩ ⟨16, 64⟩ _ rfl
  have h₁ := h₀.request (m := .startup none none) rfl ⟨by decide, by decide, by decide⟩ rfl
  have h₂ := h₁.request (m := .sync) rfl ⟨.sync, rfl, trivial, by decide⟩ rfl
  have h₃ := h₂.answer (m := .authOk) (f := ⟨ch 'R', wr32Be 0, by decide⟩) rfl trivial rfl rfl (by decide) rfl
  have h₄ := @Relay.Reach.step _ _ 9 (h₃.enable 3) rfl ⟨by decide, by decide, by decide⟩
  have h₅ := ((h₄.nextServer rfl).nextServer rfl).nextClient rfl
  obtain ⟨-, -, hreq, hans, -⟩ := relay_law h₅
  exact ⟨_, h₅, rfl, rfl, hreq rfl rfl, hans rfl rfl⟩

/-- **Progress of the relay.** Enough steps in a row, unless a queue or the arena overflows on the
way, empty both outputs and bring every message sent on either side into the other side's
history. -/
theorem relay_drains {r : Relay} (h : r.Reach) {n : ℕ} (hc : r.client.output.length ≤ 4096 * n)
    (hs : r.server.output.length ≤ 4096 * n) :
    (∃ m, Mitm.Steps n r.mitm m ∧ m.client.output = [] ∧ m.server.output = [] ∧
        m.server.log.length = r.requests.length ∧ m.client.log.length = r.answers.length) ∨
      ∃ k m, k ≤ n ∧ Mitm.Steps k r.mitm m ∧ ¬Relay.Roomy { r with mitm := m } := by
  rcases h.drains n with ⟨m, hsteps, hreach, hco, hso⟩ | hover
  · have hco' : m.client.output = [] := by
      rw [hco]
      exact List.drop_of_length_le hc
    have hso' : m.server.output = [] := by
      rw [hso]
      exact List.drop_of_length_le hs
    have hl := hreach.linked
    exact Or.inl ⟨m, hsteps, hco', hso', (hl.requests.drained hco').symm, (hl.answers.drained hso').symm⟩
  · exact Or.inr hover

/-- One step is enough for a startup message. -/
theorem relay_drains_startup :
    ∃ r : Relay, r.Reach ∧ r.client.output.length = 25 ∧
      ((∃ m, Mitm.Steps 1 r.mitm m ∧ m.client.output = [] ∧ m.server.output = [] ∧
          m.server.log.length = r.requests.length ∧ m.client.log.length = r.answers.length) ∨
        ∃ k m, k ≤ 1 ∧ Mitm.Steps k r.mitm m ∧ ¬Relay.Roomy { r with mitm := m }) := by
  have h₀ := @Relay.Reach.create ⟨16, 64⟩ ⟨16, 64⟩ _ rfl
  have h₁ := h₀.request (m := .startup none none) rfl ⟨by decide, by decide, by decide⟩ rfl
  exact ⟨_, h₁, rfl, relay_drains h₁ (by decide) (by decide)⟩

end Pqwire

import Pqwire.Proof.Answers
import Pqwire.Proof.Link
import Pqwire.Proof.Rows

/-!
# The exchange of a server and a client

* `row_shown`: a row that is delivered shows exactly its values, as long as the values parsed
  since the queue was last emptied fit in the arena.
* `Exchange.Linked`: the invariant, kept by every step.
* `exchange_law`: the events delivered are those of the messages sent, in order.
-/

namespace Pqwire

open ByteMem LastWrite

/-! ## Rows that fit -/

/-- Values for which there is room are all stored. -/
theorem storeFields_fit (fs : List Field) (arena : Bytes) {used : ℕ}
    (h : used + (fs.map (·.data.length)).sum ≤ rowArenaSize) :
    List.Forall₂ (fun col f => col.len = f.data.length ∧ (col.data = none ↔ f.len.toInt < 0))
      (storeFields fs arena used).columns fs := by
  induction fs generalizing arena used with
  | nil => exact .nil
  | cons f fs ih =>
    rw [List.map_cons, List.sum_cons] at h
    rw [storeFields]
    split
    · rename_i hneg
      have h0 : f.data.length = 0 := by rw [f.ok]; omega
      exact .cons ⟨h0.symm, iff_of_true rfl hneg⟩ (ih arena (by omega))
    · rename_i hneg
      rw [if_neg (by omega)]
      exact .cons ⟨rfl, iff_of_false (by simp) hneg⟩ (ih _ (by omega))

theorem storeFields_stored_le (fs : List Field) (arena : Bytes) (used : ℕ) :
    DataRow.stored ⟨(storeFields fs arena used).columns⟩ ≤ (fs.map (·.data.length)).sum := by
  unfold DataRow.stored
  induction fs generalizing arena used with
  | nil => exact le_rfl
  | cons f fs ih =>
    rw [storeFields]
    split
    · have := ih arena used
      simp only [RowParse.cons, List.map_cons, List.sum_cons] at this ⊢
      omega
    split
    · have := ih arena used
      simp only [RowParse.cons, List.map_cons, List.sum_cons] at this ⊢
      omega
    · have := ih (blit arena used f.data) (used + f.data.length)
      simp only [RowParse.cons, List.map_cons, List.sum_cons] at this ⊢
      omega

/-- Columns that hold their values and have none dropped show them. -/
theorem columns_shown {arena : Bytes} {used : ℕ} {cols : List RowColumn} {fs : List Field}
    (h : List.Forall₂ (fun col f => col.len = f.data.length ∧ (col.data = none ↔ f.len.toInt < 0)) cols fs)
    (hh : List.Forall₂ (Holds arena used) cols fs) :
    (cols.map fun col => col.data.map fun p => slice arena p col.len) = fs.map Field.value ∧
      cols.map (·.len) = fs.map (·.data.length) := by
  induction h with
  | nil => exact ⟨rfl, rfl⟩
  | @cons col f cols fs hcol _ ih =>
    cases hh with
    | cons hhold hrest =>
      obtain ⟨ih1, ih2⟩ := ih hrest
      have hv : (col.data.map fun p => slice arena p col.len) = f.value := by
        unfold Field.value
        cases hd : col.data with
        | none => rw [if_pos (hcol.2.1 hd)]; rfl
        | some p =>
          have hpos : ¬f.len.toInt < 0 := fun hneg => by rw [hcol.2.2 hneg] at hd; cases hd
          rw [if_neg hpos, Option.map_some, (hhold p hd).2]
      exact ⟨by rw [List.map_cons, List.map_cons, hv, ih1], by rw [List.map_cons, List.map_cons, hcol.1, ih2]⟩

/-- The column bytes that were parsed for an event. -/
def Queued.parsed (q : Queued) : ℕ :=
  match q.ev with
  | .dataRow _ => ((rowValues q.frame).map (·.data.length)).sum
  | _ => 0

theorem RowLog.stored_le {c : Ctx} {m : ℕ} (h : RowLog m c) {q : Queued} (hq : q ∈ c.log.drop m) : q.stored ≤ q.parsed := by
  unfold Queued.stored Queued.parsed
  cases hev : q.ev with
  | dataRow r =>
    obtain ⟨k, hk⟩ := List.mem_iff_getElem?.1 hq
    obtain ⟨arena, hr⟩ := h.rows k q hk r hev
    have := storeFields_stored_le (rowValues q.frame) arena (storedBytes ((c.log.drop m).take k))
    rwa [← hr] at this
  | _ => exact le_rfl

/-- **A row that fits shows exactly its values**: a NULL, an empty value and a value with bytes
are kept apart. -/
theorem row_shown {c c' : Ctx} {m : ℕ} {q : Queued} {r : DataRow} {values : List Field} (h : RowRun c m)
    (hn : c.nextEvent = some (q, c')) (hq : q.ev = .dataRow r) (hg : q.frame = encFields values)
    (hl : values.length ≤ maxRowColumns) (hfit : ((c.log.drop m).map Queued.parsed).sum ≤ rowArenaSize) :
    (c'.read q.ev).blobs = values.map Field.value ∧ r.columns.map (·.len) = values.map (·.data.length) := by
  have hlog := rowRun_rowLog h
  obtain ⟨hlist, harena, -⟩ := nextEvent_cases (reachable_ok h.reachable).1 hn
  have hk := hlog.oldest hlist
  set k := (c.log.drop m).length - c.events.count
  obtain ⟨arena, hcols⟩ := hlog.rows k q hk r hq
  rw [hg, rowValues_enc hl] at hcols
  -- the rows in front of this one and the row itself fit
  have hsplit : c.log.drop m = (c.log.drop m).take k ++ q :: (c.log.drop m).drop (k + 1) := by
    obtain ⟨hlt, rfl⟩ := List.getElem?_eq_some_iff.1 hk
    rw [List.cons_getElem_drop_succ, List.take_append_drop]
  have hroom : storedBytes ((c.log.drop m).take k) + (values.map (·.data.length)).sum ≤ rowArenaSize := by
    have hparsed : q.parsed = (values.map (·.data.length)).sum := by
      unfold Queued.parsed
      rw [hq, hg, rowValues_enc hl]
    have hle : storedBytes ((c.log.drop m).take k) ≤ (((c.log.drop m).take k).map Queued.parsed).sum :=
      List.sum_le_sum fun p hp => hlog.stored_le (List.mem_of_mem_take hp)
    rw [hsplit, List.map_append, List.sum_append, List.map_cons, List.sum_cons, hparsed] at hfit
    omega
  have hfits := storeFields_fit values arena hroom
  rw [← hcols] at hfits
  have hmem : q ∈ c.events.toList := by rw [hlist]; exact List.mem_cons_self ..
  have hholds := reachable_rowsOk h.reachable q hmem r hq
  unfold Shown at hholds
  rw [hg, rowValues_enc hl, ← harena] at hholds
  rw [hq]
  exact columns_shown hfits hholds

/-! ## Events and messages -/

namespace BackMsg

theorem Logged.bytes {b : BackMsg} {q : Queued} (h : b.Logged q) : b.columnBytes = q.parsed := by
  unfold Queued.parsed
  cases b with
  | dataRow values =>
    obtain ⟨⟨r, hr⟩, hf, hl⟩ := h
    rw [hr, hf, rowValues_enc hl]
    rfl
  | _ => rw [show q.ev = _ from h]; rfl

theorem Logged.cols {b : BackMsg} {q : Queued} (h : b.Logged q) (hq : q.ev.isRowDescription = false) : b.cols = none := by
  cases b with
  | rowDescription cols =>
    rw [show q.ev = _ from h] at hq
    cases hq
  | _ => rfl

end BackMsg

/-- The column bytes of the messages are those parsed for the events. -/
theorem logged_bytes {done : List BackMsg} {l : List Queued} (h : List.Forall₂ BackMsg.Logged done l) :
    done.map BackMsg.columnBytes = l.map Queued.parsed := by
  induction h with
  | nil => rfl
  | cons hb _ ih => rw [List.map_cons, List.map_cons, hb.bytes, ih]

theorem logged_cols {done : List BackMsg} {l : List Queued} (h : List.Forall₂ BackMsg.Logged done l)
    (hc : ∀ p ∈ l, p.ev.isRowDescription = false) : ∀ b ∈ done, b.cols = none := by
  induction h with
  | nil => simp
  | cons hb _ ih =>
    intro b hmem
    rcases List.mem_cons.1 hmem with rfl | hmem
    · exact hb.cols (hc _ (List.mem_cons_self ..))
    · exact ih (fun p hp => hc p (List.mem_cons_of_mem _ hp)) b hmem

/-- A row description that no later one follows is the one in the scratch areas. -/
theorem logged_current {done : List BackMsg} {l : List Queued} {cols : List Column} {n : ℕ}
    (h : List.Forall₂ BackMsg.Logged done l) (hn : done[n]? = some (.rowDescription cols))
    (hc : ((l.drop (n + 1)).all fun p => !p.ev.isRowDescription) = true) : lastOf BackMsg.cols done = some cols := by
  have hsplit : done = done.take n ++ .rowDescription cols :: done.drop (n + 1) := by
    obtain ⟨hlt, hget⟩ := List.getElem?_eq_some_iff.1 hn
    rw [← hget, List.cons_getElem_drop_succ, List.take_append_drop]
  have hlater : lastOf BackMsg.cols (done.drop (n + 1)) = none := by
    refine lastOf_eq_none.2 (logged_cols (List.forall₂_drop (n + 1) h) fun p hp => ?_)
    have := List.all_eq_true.1 hc p hp
    rwa [Bool.not_eq_true'] at this
  rw [hsplit, lastOf_append, lastOf, hlater]
  rfl

/-! ## The invariant -/

namespace Exchange

/-- The messages `done` have been logged and the messages `ms` are underway. -/
structure Split (x : Exchange) (done ms : List BackMsg) (G : List Frame) : Prop where
  sent : x.sent = done ++ ms
  logged : List.Forall₂ BackMsg.Logged done x.client.log
  described : Described x.client done
  framed : List.Forall₂ BackMsg.Framed ms G
  fits : ∀ g ∈ G, g.Fits x.client
  bytes : x.client.resid ++ x.server.output = Frame.encAll G

structure Linked (x : Exchange) : Prop where
  serverAllocs : x.server.allocs = []
  run : RowRun x.client x.mark
  role : x.client.role = .client
  allocs : x.client.allocs = []
  queue : x.client.Undelivered x.delivered.length
  room : x.columnBytes ≤ rowArenaSize
  split : ∃ done ms G, x.Split done ms G
  shown : List.Forall₂ BackMsg.Shown (x.sent.take x.delivered.length) x.delivered

/-- The messages that have been logged are the first ones sent. -/
theorem Split.done_eq {x : Exchange} {done ms : List BackMsg} {G : List Frame} (h : x.Split done ms G) :
    x.sent.take x.client.log.length = done := by
  rw [h.sent, ← h.logged.length_eq, List.take_left]

theorem Split.columnBytes {x : Exchange} {done ms : List BackMsg} {G : List Frame} (h : x.Split done ms G) :
    x.columnBytes = ((x.client.log.drop x.mark).map Queued.parsed).sum := by
  unfold Exchange.columnBytes
  rw [h.done_eq, List.map_drop, logged_bytes h.logged, List.map_drop]

/-- No more events are delivered than messages are sent. -/
theorem Linked.delivered_le {x : Exchange} (h : x.Linked) : x.delivered.length ≤ x.sent.length := by
  have := h.shown.length_eq
  rw [List.length_take] at this
  omega

theorem Linked.send {x : Exchange} {m : Send} {b : BackMsg} {f : Frame} {server : Ctx} (h : x.Linked)
    (hb : m.answer = some b) (hs : b.Small) (ht : f.type = b.type.byte) (hbody : f.body = b.body) (hf : f.Fits x.client)
    (hm : m.run x.server = (server, 0)) : Linked { x with server := server, sent := x.sent ++ [b] } := by
  obtain ⟨ho, ha⟩ := send_answer h.serverAllocs hb hs hm
  obtain ⟨done, ms, G, hsp⟩ := h.split
  have hsplit : Split { x with server := server, sent := x.sent ++ [b] } done (ms ++ [b]) (G ++ [f]) := by
    refine ⟨?_, hsp.logged, hsp.described, List.rel_append hsp.framed (.cons ⟨hs, ht, hbody⟩ .nil), ?_, ?_⟩
    · change x.sent ++ [b] = _
      rw [hsp.sent, List.append_assoc]
    · intro g hg
      rcases List.mem_append.1 hg with hg | hg
      · exact hsp.fits g hg
      · rw [List.mem_singleton.1 hg]
        exact hf
    · change x.client.resid ++ server.output = _
      have henc : f.enc = Ctx.msgHeader b.type.byte b.body.length ++ b.body := by
        rw [Frame.enc, Frame.len, ht, hbody]
        rfl
      rw [ho, ← List.append_assoc, hsp.bytes, Frame.encAll_append, ← henc]
      congr 1
      exact (List.append_nil _).symm
  refine ⟨ha, h.run, h.role, h.allocs, h.queue, ?_, ⟨_, _, _, hsplit⟩, ?_⟩
  · rw [hsplit.columnBytes]
    have := h.room
    rwa [hsp.columnBytes] at this
  · change List.Forall₂ BackMsg.Shown ((x.sent ++ [b]).take x.delivered.length) x.delivered
    rw [List.take_append_of_le_length h.delivered_le]
    exact h.shown

/-- **A transfer returns, and keeps the invariant unless the queue or the arena overflows.** -/
theorem Linked.transfer {x : Exchange} (h : x.Linked) (maxLen : ℕ) :
    ∃ client, Feeds x.client (x.server.getOutput maxLen).1 client ∧
      (client.log.length ≤ x.delivered.length + client.queueSize →
        Exchange.columnBytes { x with client := client } ≤ rowArenaSize →
        Linked { x with server := (x.server.getOutput maxLen).2, client := client }) := by
  obtain ⟨done, ms, G, hsp⟩ := h.split
  obtain ⟨hok, -⟩ := reachable_ok h.run.reachable
  have hbt : x.server.output = (x.server.getOutput maxLen).1 ++ (x.server.getOutput maxLen).2.output :=
    (List.take_append_drop _ _).symm
  have hbytes := hsp.bytes
  rw [hbt] at hbytes
  have haw : x.client.awaitsStartup = false := awaits_of_client h.role
  -- the bytes complete the frames `G₁`; the frames `G₂` are still on the link
  obtain ⟨G₁, G₂, client, rfl, hfeeds, hok', -, hcore, hres⟩ := feeds_pending hok haw h.allocs hsp.fits hbytes
  refine ⟨client, hfeeds, ?_⟩
  intro hle hroom
  have hC := hsp.framed
  obtain ⟨l, hl, hlogged, hdesc⟩ := receiveAll_answers (c := x.client.core) ⟨h.role, hok.cols, hok.names⟩
    (List.forall₂_take_append _ _ _ hC)
  obtain ⟨hlog', hrole', hal', -⟩ := core_fields hcore
  obtain ⟨-, hmax₂, hal₂⟩ := receiveAll_same x.client.core G₁
  obtain ⟨-, -, hrole₂⟩ := receiveAll_count (c := x.client.core) hok.ring G₁
  obtain ⟨fuel, hfeed⟩ := feeds_feedInput hfeeds
  have hmax : client.maxMessageSize = x.client.maxMessageSize := by
    change client.core.maxMessageSize = _
    rw [hcore]
    exact hmax₂
  refine ⟨h.serverAllocs, h.run.feed hfeed, hrole'.trans (hrole₂.trans h.role), hal'.trans (hal₂.trans h.allocs), ?_, hroom,
    ⟨done ++ ms.take G₁.length, ms.drop G₁.length, G₂, ?_, ?_, ?_, List.forall₂_drop_append _ _ _ hC, ?_, hres⟩, h.shown⟩
  · have hq : x.client.core.Undelivered x.delivered.length := h.queue
    exact hq.receiveAll hok.ring hok' hcore hle
  · rw [List.append_assoc, List.take_append_drop]
    exact hsp.sent
  · change List.Forall₂ BackMsg.Logged _ client.log
    rw [hlog', hl]
    exact List.rel_append hsp.logged hlogged
  · have := hdesc done hsp.described
    rw [← hcore] at this
    exact this
  · intro g hg
    exact (hsp.fits g (List.mem_append_right _ hg)).trans (le_of_eq hmax.symm)

/-- The event that is dequeued next shows its message. -/
theorem Linked.deliver {x : Exchange} {q : Queued} {client : Ctx} (h : x.Linked)
    (hn : x.client.nextEvent = some (q, client)) :
    ∃ b, x.sent[x.delivered.length]? = some b ∧
      b.Shown ⟨q.ev, client.read q.ev,
        (client.log.drop (x.delivered.length + 1)).all fun p => !p.ev.isRowDescription⟩ := by
  obtain ⟨done, ms, G, hsp⟩ := h.split
  obtain ⟨hok, -⟩ := reachable_ok h.run.reachable
  obtain ⟨hq, -⟩ := h.queue.next hok hn
  obtain ⟨-, -, hlog, -⟩ := nextEvent_cases hok hn
  obtain ⟨hlt, hget⟩ := List.getElem?_eq_some_iff.1 hq
  obtain ⟨hlen, hall⟩ := List.forall₂_iff_get.1 hsp.logged
  have hdone : done[x.delivered.length]? = some (done.get ⟨x.delivered.length, by omega⟩) := List.getElem?_eq_getElem _
  have hb := hall x.delivered.length (by omega) hlt
  set b := done.get ⟨x.delivered.length, by omega⟩
  rw [show x.client.log.get ⟨x.delivered.length, hlt⟩ = q from hget] at hb
  refine ⟨b, ?_, ?_⟩
  · rw [hsp.sent, List.getElem?_append_left (by omega)]
    exact hdone
  · rw [hlog]
    cases hcase : b with
    | rowDescription cols =>
      rw [hcase] at hb hdone
      -- the scratch areas show these columns unless a later RowDescription is behind
      refine ⟨hb, ?_⟩
      intro hcur
      have hcol := hsp.described cols (logged_current hsp.logged hdone hcur)
      change (client.read q.ev).cols = _
      rw [nextEvent_read hn, show q.ev = .rowDescription cols.length from hb]
      refine List.ext_getElem (by simp [Ctx.read]) ?_
      intro j hj hj'
      rw [List.length_map] at hj'
      simp only [Ctx.read, List.getElem_map, List.getElem_range, hcol j hj']
    | dataRow values =>
      rw [hcase] at hb
      obtain ⟨⟨r, hr⟩, hframe, hl⟩ := hb
      -- all the rows since the mark fit the arena, so this one was stored whole
      have hroom := h.room
      rw [hsp.columnBytes] at hroom
      obtain ⟨h1, h2⟩ := row_shown h.run hn hr hframe hl hroom
      exact ⟨r, hr, h1, h2⟩
    | _ =>
      rw [hcase] at hb
      exact hb

theorem Linked.next {x : Exchange} {q : Queued} {client : Ctx} (h : x.Linked)
    (hn : x.client.nextEvent = some (q, client)) :
    Linked
      { x with
        client := client
        delivered := x.delivered ++
          [⟨q.ev, client.read q.ev, (client.log.drop (x.delivered.length + 1)).all fun p => !p.ev.isRowDescription⟩]
        mark := if client.events.count = 0 then client.log.length else x.mark } := by
  obtain ⟨done, ms, G, hsp⟩ := h.split
  obtain ⟨hok, -⟩ := reachable_ok h.run.reachable
  obtain ⟨b, hb, hshown⟩ := h.deliver hn
  obtain ⟨-, hu⟩ := h.queue.next hok hn
  obtain ⟨-, -, hlog, -⟩ := nextEvent_cases hok hn
  obtain ⟨hframe, -⟩ := nextEvent_frame hn
  set x' : Exchange :=
    { x with
      client := client
      delivered := x.delivered ++
        [⟨q.ev, client.read q.ev, (client.log.drop (x.delivered.length + 1)).all fun p => !p.ev.isRowDescription⟩]
      mark := if client.events.count = 0 then client.log.length else x.mark } with hx'
  -- dequeuing changes neither the link nor the log
  have hsplit : x'.Split done ms G := by
    refine ⟨hsp.sent, ?_, ?_, hsp.framed, ?_, ?_⟩
    · change List.Forall₂ _ _ client.log
      rw [hlog]
      exact hsp.logged
    · change Described client done
      rw [hframe]
      exact hsp.described
    · intro g hg
      change g.len ≤ client.maxMessageSize
      rw [hframe]
      exact hsp.fits g hg
    · change client.resid ++ _ = _
      rw [hframe]
      exact hsp.bytes
  refine ⟨h.serverAllocs, h.run.next hn, ?_, ?_, ?_, ?_, ⟨done, ms, G, hsplit⟩, ?_⟩
  · change client.role = _
    rw [hframe]
    exact h.role
  · change client.allocs = _
    rw [hframe]
    exact h.allocs
  · rw [hx', List.length_append]
    exact hu
  · rw [hsplit.columnBytes]
    change ((client.log.drop (if client.events.count = 0 then client.log.length else x.mark)).map Queued.parsed).sum ≤ _
    split
    · -- the queue is empty: the arena is reset and the mark moves to the end of the log
      rw [List.drop_length]
      exact Nat.zero_le _
    · rw [hlog, ← hsp.columnBytes]
      exact h.room
  · obtain ⟨hlt, hget⟩ := List.getElem?_eq_some_iff.1 hb
    change List.Forall₂ _ (x.sent.take (x.delivered ++ [_]).length) (x.delivered ++ [_])
    rw [List.length_append, List.length_singleton, List.take_add_one, hb]
    exact List.rel_append h.shown (.cons hshown .nil)

theorem Reach.linked {x : Exchange} (h : x.Reach) : x.Linked := by
  induction h with
  | create _ _ hout ha hclient =>
    obtain ⟨hev, hlog, hres, -, -, hr, -⟩ := create_empty hclient
    refine ⟨ha, .create hclient, hr, create_allocs hclient, ⟨[], by rw [hlog, hev]; rfl, rfl⟩, ?_,
      ⟨[], [], [], rfl, by rw [hlog]; exact .nil, (fun cols hc => by cases hc), .nil, by simp, ?_⟩, .nil⟩
    · simp [Exchange.columnBytes]
    · rw [hres, hout]
      rfl
  | send _ hb hs ht hbody hf hm ih => exact ih.send hb hs ht hbody hf hm
  | @transfer x client maxLen _ hf hle hroom ih =>
    obtain ⟨client', hf', hlinked⟩ := ih.transfer maxLen
    obtain rfl := hf.unique hf'
    exact hlinked hle hroom
  | next _ hn ih => exact ih.next hn

/-- A message that is complete in the client's input has been handled. -/
theorem Linked.drained {x : Exchange} (h : x.Linked) (ho : x.server.output = []) :
    x.sent.length = x.client.log.length := by
  obtain ⟨done, ms, G, hsp⟩ := h.split
  obtain ⟨hok, hw⟩ := reachable_ok h.run.reachable
  have hr := hsp.bytes
  have hC := hsp.framed
  rw [ho, List.append_nil] at hr
  cases G with
  | nil =>
    cases hC
    rw [hsp.sent, List.append_nil, hsp.logged.length_eq]
  | cons g G =>
    have haw : x.client.awaitsStartup = false := awaits_of_client h.role
    have hstep := (feedStep_frames hok haw (hsp.fits g (List.mem_cons_self ..)) hr).1
    rw [feedStep_eq (.wait hw)] at hstep
    cases hstep

end Exchange

/-- **The exchange of a server and a client.** Whatever the order of sends, transfers and
deliveries, the events delivered show the first messages sent, in order and one for each;
once the output is drained and the queue is empty they show all messages; and every transfer
returns. -/
theorem exchange_law {x : Exchange} (h : x.Reach) :
    List.Forall₂ BackMsg.Shown (x.sent.take x.delivered.length) x.delivered ∧
      (x.server.output = [] → x.client.events.count = 0 → List.Forall₂ BackMsg.Shown x.sent x.delivered) ∧
      ∀ maxLen, ∃ client, Feeds x.client (x.server.getOutput maxLen).1 client := by
  have hl := h.linked
  refine ⟨hl.shown, ?_, ?_⟩
  · intro ho hc
    obtain ⟨dq, hdq, hn⟩ := hl.queue
    have hlen := congrArg List.length hdq
    rw [List.length_append, RingBuf.toList_length, hc] at hlen
    have hsent := hl.drained ho
    have hshown := hl.shown
    rwa [List.take_of_length_le (by omega)] at hshown
  · intro maxLen
    obtain ⟨client, hf, -⟩ := hl.transfer maxLen
    exact ⟨client, hf⟩

/-- An exchange in which a row of a value and a NULL is delivered behind AuthenticationOk. -/
theorem exchange_law_row :
    ∃ x : Exchange, x.Reach ∧ x.delivered.map (·.view.blobs) = [[], [some [55], none]] ∧
      List.Forall₂ BackMsg.Shown x.sent x.delivered := by
  have hserver : Reachable (freshServer 16 64) := @Reachable.create .server ⟨16, 64⟩ [] _ rfl
  have h₀ := @Exchange.Reach.create {} _ _ hserver rfl rfl rfl rfl
  have h₁ := h₀.send (m := .authOk) (f := ⟨ch 'R', wr32Be 0, by decide⟩) rfl trivial rfl rfl (by decide) rfl
  have h₂ := h₁.send (m := .dataRowMulti (some [1, -1]) (some [some [55], none]) 2)
    (f := ⟨ch 'D', encFields [.byte 55, .null], by decide⟩) rfl (show 2 ≤ 16 by decide) rfl rfl (by decide) rfl
  have h₃ := h₂.transfer 4096 ⟨_, rfl, 3, rfl⟩ (by decide) (by decide)
  have h₄ := (h₃.next rfl).next rfl
  exact ⟨_, h₄, rfl, (exchange_law h₄).2.1 rfl rfl⟩

end Pqwire

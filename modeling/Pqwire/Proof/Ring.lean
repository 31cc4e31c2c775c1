import Pqwire.Lib.DropOldest
import Pqwire.Spec.Ctx

/-!
# The event ring

`enqueue_event`, `dequeue_event` and `pqwire_reset` on a context are the operations of a queue
that gives up its oldest entry.

* `EventQueue.step_refines`: one call, from any ring that keeps its invariant.
* `event_ring_refines`: every sequence of calls from creation.
-/

namespace Pqwire

open ByteMem DropOldest

/-- A call on the queue of a context; `frame` is the message body the event comes from. -/
inductive QueueCall where
  | enqueueEvent (ev : Event) (frame : Bytes)
  | dequeueEvent
  | reset

namespace QueueCall

/-- Make the call; a dequeue delivers the event it copies to `*out`. -/
def run (c : Ctx) : QueueCall → Ctx × Option Event
  | enqueueEvent ev frame => (c.enqueueEvent ev frame, none)
  | dequeueEvent =>
    match c.dequeueEvent with
    | none => (c, none)
    | some (q, c') => (c', some q.ev)
  | reset => (Pqwire.reset c, none)

/-- The operation of the queue that the call is to be. -/
def op : QueueCall → Op Event
  | enqueueEvent ev _ => .enqueue ev
  | dequeueEvent => .dequeue
  | reset => .reset

end QueueCall

/-- Enqueue events one after the other. -/
def enqueueAll (evs : List (Event × Bytes)) : List QueueCall := evs.map fun e => .enqueueEvent e.1 e.2

/-- The ring keeps its invariant, has `n` slots, and read from its head on is the queue `l`. -/
structure EventQueue (n : ℕ) (c : Ctx) (l : List Event) : Prop where
  ok : c.events.Ok
  size : c.events.size = n
  events : c.events.toList.map (·.ev) = l

namespace EventQueue

variable {n : ℕ} {c : Ctx} {l : List Event}

theorem length (h : EventQueue n c l) : l.length = c.events.count := by
  rw [← h.events, List.length_map, RingBuf.toList_length]

theorem pos (h : EventQueue n c l) : 0 < n := h.size ▸ h.ok.pos

theorem length_le (h : EventQueue n c l) : l.length ≤ n := by
  rw [h.length, ← h.size]
  exact h.ok.count

theorem enqueueEvent (h : EventQueue n c l) (ev : Event) (frame : Bytes) :
    EventQueue n (c.enqueueEvent ev frame) (DropOldest.step n l (.enqueue ev)).1 := by
  refine ⟨RingBuf.enqueue_ok h.ok _, (RingBuf.enqueue_size _ _).trans h.size, ?_⟩
  show ((c.events.enqueue _).toList).map (·.ev) = _
  rw [RingBuf.toList_enqueue h.ok, List.map_drop, List.map_append, h.events, step_enqueue h.length_le h.pos, List.rtake,
    List.length_append, List.length_singleton, h.length, h.size]
  rfl

/-- A ring with its entries in front of it: dequeuing takes the first one. -/
theorem dequeueEvent (h : EventQueue n c l) :
    EventQueue n (QueueCall.run c .dequeueEvent).1 l.tail ∧ (QueueCall.run c .dequeueEvent).2 = l.head? := by
  cases hd : c.events.dequeue with
  | none =>
    -- an empty ring: the call returns 0 and changes nothing
    have hrun : QueueCall.run c .dequeueEvent = (c, none) := by
      simp only [QueueCall.run, Ctx.dequeueEvent, hd]
    have hnil : l = [] := by
      rw [← List.length_eq_zero_iff, h.length]
      exact RingBuf.dequeue_none.1 hd
    subst hnil
    rw [hrun]
    exact ⟨h, rfl⟩
  | some r =>
    obtain ⟨q, ring⟩ := r
    obtain ⟨hlist, hsize, -⟩ := RingBuf.toList_dequeue h.ok hd
    have hl : l = q.ev :: ring.toList.map (·.ev) := by
      rw [← h.events, hlist]
      rfl
    -- the arena may be rewound as well, the ring is the same
    have hrun : (QueueCall.run c .dequeueEvent).1.events = ring ∧ (QueueCall.run c .dequeueEvent).2 = some q.ev := by
      simp only [QueueCall.run, Ctx.dequeueEvent, hd, and_true]
      split <;> rfl
    refine ⟨⟨?_, ?_, ?_⟩, ?_⟩
    · rw [hrun.1]
      exact RingBuf.dequeue_ok h.ok hd
    · rw [hrun.1, hsize, h.size]
    · rw [hrun.1, hl]
      rfl
    · rw [hrun.2, hl]
      rfl

theorem reset (h : EventQueue n c l) : EventQueue n (Pqwire.reset c) [] := by
  refine ⟨RingBuf.clear_ok h.ok, h.size, ?_⟩
  show (c.events.clear.toList).map (·.ev) = []
  rw [RingBuf.toList_clear]
  rfl

/-- **One call is one operation of the queue.** -/
theorem step_refines (h : EventQueue n c l) (call : QueueCall) :
    EventQueue n (call.run c).1 (DropOldest.step n l call.op).1 ∧ (call.run c).2 = (DropOldest.step n l call.op).2 := by
  cases call with
  | enqueueEvent ev frame => exact ⟨h.enqueueEvent ev frame, rfl⟩
  | dequeueEvent => exact h.dequeueEvent
  | reset => exact ⟨h.reset, rfl⟩

end EventQueue

theorem createWithConfig_queue {role : Role} {config : Config} {allocs : List Bool} {c : Ctx}
    (h : createWithConfig role config allocs = some c) : EventQueue config.eventQueueSize.toNat c [] := by
  unfold createWithConfig at h
  split at h
  · cases h
  rename_i hsize
  split at h
  · cases h
    refine ⟨RingBuf.init_ok (by omega), rfl, ?_⟩
    show (RingBuf.init _ : RingBuf Queued).toList.map (·.ev) = []
    rw [RingBuf.toList_init]
    rfl
  · cases h

theorem enqueueAll_op (evs : List (Event × Bytes)) (m : ℕ) :
    (enqueueAll evs ++ List.replicate m QueueCall.dequeueEvent).map QueueCall.op =
      (evs.map (·.1)).map .enqueue ++ List.replicate m .dequeue := by
  rw [List.map_append, List.map_replicate, enqueueAll, List.map_map, List.map_map]
  rfl

/-- **The event ring is a queue that gives up its oldest entry.** From creation, for every size of
the queue and every sequence of calls: head and tail are slots of the ring, the tail is `count`
slots behind the head, the entries from the head on are the queue, and the same events have been
delivered. Events enqueued then without a dequeue between them and drained are the last `n` of
what is held and them: from an empty queue, of `k` events the last `min k n`. -/
theorem event_ring_refines {role : Role} {config : Config} {allocs : List Bool} {c : Ctx}
    (h : createWithConfig role config allocs = some c) (calls : List QueueCall) :
    let n := config.eventQueueSize.toNat
    let r := deliver QueueCall.run c calls
    let q := DropOldest.run n [] (calls.map QueueCall.op)
    (1 ≤ n ∧ r.1.queueSize = n ∧ r.1.events.head < n ∧ r.1.events.tail < n ∧ r.1.events.count ≤ n ∧
      r.1.events.tail = (r.1.events.head + r.1.events.count) % n) ∧
    (r.1.events.toList.map (·.ev) = q.1 ∧ r.2 = q.2) ∧
    ∀ (evs : List (Event × Bytes)) (m : ℕ), n ≤ m →
      (deliver QueueCall.run r.1 (enqueueAll evs ++ List.replicate m .dequeueEvent)).2 = (q.1 ++ evs.map (·.1)).rtake n := by
  intro n r q
  have hsim : ∀ (c : Ctx) (l : List Event) (call : QueueCall), EventQueue n c l →
      EventQueue n (call.run c).1 (DropOldest.step n l call.op).1 ∧ (call.run c).2 = (DropOldest.step n l call.op).2 :=
    fun _ _ call hq => hq.step_refines call
  obtain ⟨hq, hout⟩ := deliver_simulates QueueCall.op hsim (createWithConfig_queue h) calls
  have hq : EventQueue n r.1 q.1 := hq
  have hpos := hq.pos
  refine ⟨⟨hpos, hq.size, ?_, ?_, ?_, ?_⟩, ⟨hq.events, hout⟩, ?_⟩
  · exact hq.size ▸ hq.ok.head
  · rw [hq.ok.tail, hq.size]
    exact Nat.mod_lt _ hpos
  · exact hq.size ▸ hq.ok.count
  · rw [hq.ok.tail, hq.size]
  · intro evs m hm
    rw [(deliver_simulates QueueCall.op hsim hq _).2, enqueueAll_op]
    exact run_drain hpos hq.length_le _ hm

/-- A ring of one slot holds the last event. -/
theorem event_ring_one : ∃ c, createWithConfig .client { eventQueueSize := 1 } = some c ∧
    (deliver QueueCall.run c (enqueueAll [(.query, []), (.noData, [])] ++ List.replicate 1 .dequeueEvent)).2 = [.noData] := by
  have hcreate : ∃ c, createWithConfig .client { eventQueueSize := 1 } = some c := ⟨_, rfl⟩
  obtain ⟨c, hc⟩ := hcreate
  exact ⟨c, hc, (event_ring_refines hc []).2.2 [(.query, []), (.noData, [])] 1 (by decide)⟩

end Pqwire

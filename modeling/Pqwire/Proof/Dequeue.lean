import Pqwire.Proof.Invariant

/-!
# Dequeuing

* `nextEvent_cases`: what one call of `pqwire_next_event` does.
* `dequeues_spec`, `dequeues_reach`: a sequence of calls delivers the queue from its front
  and changes nothing that events point to.
-/

namespace Pqwire

variable {c c' d d' : Ctx} {q : Queued}

theorem nextEvent_cases (hok : c.Ok) (h : c.nextEvent = some (q, c')) :
    c.events.toList = q :: c'.events.toList ∧ c'.rowArena = c.rowArena ∧ c'.log = c.log ∧
      c'.events.count + 1 = c.events.count ∧
      ((c'.events.count = 0 ∧ c'.rowArenaUsed = 0) ∨ (c'.events.count ≠ 0 ∧ c'.rowArenaUsed = c.rowArenaUsed)) := by
  unfold Ctx.nextEvent Ctx.dequeueEvent at h
  split at h
  · cases h
  · rename_i q' r hd
    obtain ⟨h1, -, h3⟩ := RingBuf.toList_dequeue hok.ring hd
    simp only [Option.some.injEq, Prod.mk.injEq] at h
    obtain ⟨rfl, rfl⟩ := h
    split
    · exact ⟨h1, rfl, rfl, h3, Or.inl ⟨‹_›, rfl⟩⟩
    · exact ⟨h1, rfl, rfl, h3, Or.inr ⟨‹_›, rfl⟩⟩

/-- The call changes the queue and the arena's fill mark only. -/
theorem nextEvent_frame (h : c.nextEvent = some (q, c')) :
    c' = { c with events := c'.events, rowArenaUsed := c'.rowArenaUsed } ∧ c'.queueSize = c.queueSize := by
  unfold Ctx.nextEvent Ctx.dequeueEvent at h
  split at h
  · cases h
  · rename_i q' r hd
    have hsize : r.size = c.events.size := by
      unfold RingBuf.dequeue at hd
      split at hd
      · cases hd
      · cases hd; rfl
    simp only [Option.some.injEq, Prod.mk.injEq] at h
    obtain ⟨-, rfl⟩ := h
    split
    · exact ⟨rfl, hsize⟩
    · exact ⟨rfl, hsize⟩

theorem nextEvent_read (h : c.nextEvent = some (q, c')) : c'.read = c.read := by
  rw [(nextEvent_frame h).1]
  rfl

/-- **The role and the configuration never change.** -/
theorem step_config (hs : Step c c') (h : c.Ok) :
    c'.role = c.role ∧ c'.maxMessageSize = c.maxMessageSize ∧ c'.queueSize = c.queueSize := by
  have hevents : ∀ {d d' : Ctx} {body : ByteMem.Bytes}, Handled d body d' → d'.queueSize = d.queueSize := by
    intro d d' body hh
    unfold Ctx.queueSize
    rcases hh.emit with ⟨-, he⟩ | ⟨q, -, -, -, he⟩
    · rw [he]
    · rw [he, RingBuf.enqueue_size]
  -- none of the operations of a feed writes any of the three
  have hkept : Kept fun d => d.role = c.role ∧ d.maxMessageSize = c.maxMessageSize ∧ d.queueSize = c.queueSize :=
    { input := fun _ _ _ hd => hd
      allocs := fun _ hd => hd
      message := fun type base body _ hd =>
        have hh := handleMessage_handled _ type base body
        ⟨hh.role.trans hd.1, hh.max.trans hd.2.1, (hevents hh).trans hd.2.2⟩
      startup := fun body _ hd =>
        have hh := parseStartupBody_handled _ body
        ⟨hh.role.trans hd.1, hh.max.trans hd.2.1, (hevents hh).trans hd.2.2⟩
      error := fun _ hd =>
        have hh := enqueueEvent_handled _ .protocolError []
        ⟨hd.1, hd.2.1, (hevents hh).trans hd.2.2⟩ }
  cases hs with
  | feed hf => exact hkept.feedInput hf h ⟨rfl, rfl, rfl⟩
  | next hn =>
    obtain ⟨hframe, hsize⟩ := nextEvent_frame hn
    exact ⟨by rw [hframe], by rw [hframe], hsize⟩
  | reset => exact ⟨rfl, rfl, rfl⟩
  | output n => exact ⟨rfl, rfl, rfl⟩
  | send s =>
    have hout := send_outputOnly c s
    exact ⟨by rw [hout], by rw [hout], by rw [hout]; rfl⟩
  | ready => exact ⟨rfl, rfl, rfl⟩

/-- An event is delivered as long as one is queued. -/
theorem nextEvent_isSome (h : c.events.count ≠ 0) : ∃ q c', c.nextEvent = some (q, c') := by
  unfold Ctx.nextEvent Ctx.dequeueEvent
  cases hd : c.events.dequeue with
  | none => exact absurd (RingBuf.dequeue_none.1 hd) h
  | some p => exact ⟨p.1, _, rfl⟩

/-- **What calls of `pqwire_next_event` do.** -/
theorem dequeues_spec (h : Dequeues c d) (hc : c.Ok) (hw : c.Waits) :
    d.Ok ∧ d.Waits ∧ d.read = c.read ∧ d.log = c.log ∧ ∃ l, c.events.toList = l ++ d.events.toList := by
  induction h with
  | refl => exact ⟨hc, hw, rfl, rfl, [], rfl⟩
  | next _ hn ih =>
    obtain ⟨h1, h2, h3, h4, l, h5⟩ := ih
    obtain ⟨h6, h7⟩ := step_ok (.next hn) h1 h2
    obtain ⟨hl, -, hlog, -⟩ := nextEvent_cases h1 hn
    exact ⟨h6, h7, (nextEvent_read hn).trans h3, hlog.trans h4, l ++ [_], by rw [h5, hl, List.append_assoc]; rfl⟩

/-- The event at the front of the queue is the next one. -/
theorem nextEvent_of_toList {l : List Queued} (hc : c.Ok) (h : c.events.toList = q :: l) :
    ∃ c', c.nextEvent = some (q, c') := by
  have hne : c.events.count ≠ 0 := by
    rw [← RingBuf.toList_length, h]
    exact Nat.succ_ne_zero _
  obtain ⟨q', c', hn⟩ := nextEvent_isSome hne
  obtain ⟨hl, -⟩ := nextEvent_cases hc hn
  rw [h] at hl
  obtain ⟨rfl, -⟩ := List.cons.inj hl
  exact ⟨c', hn⟩

/-- Every queued event is delivered when its turn comes. -/
theorem dequeues_reach {l l' : List Queued} (hc : c.Ok) (hw : c.Waits) (h : c.events.toList = l ++ q :: l') :
    ∃ d d', Dequeues c d ∧ d.nextEvent = some (q, d') ∧ d.events.toList = q :: l' := by
  -- from the back of `l`: the event before `q` is delivered first
  induction l using List.reverseRecOn generalizing q l' with
  | nil =>
    obtain ⟨d', hn⟩ := nextEvent_of_toList hc h
    exact ⟨c, d', .refl c, hn, h⟩
  | append_singleton l x ih =>
    rw [List.append_assoc] at h
    obtain ⟨d, d', hd, hn, hl⟩ := ih h
    obtain ⟨hok, hwait, -⟩ := dequeues_spec hd hc hw
    obtain ⟨hl', -⟩ := nextEvent_cases hok hn
    rw [hl] at hl'
    obtain ⟨-, ht⟩ := List.cons.inj hl'
    obtain ⟨d'', hn'⟩ := nextEvent_of_toList (step_ok (.next hn) hok hwait).1 ht.symm
    exact ⟨d', d'', .next hd hn, hn', ht.symm⟩

end Pqwire

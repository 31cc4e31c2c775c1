import Pqwire.Proof.Chunk
import Pqwire.Proof.Output
import Pqwire.Proof.Rewrite
import Pqwire.Spec.Atomic

/-!
# Which sends are atomic

* `emitMsg_atomic_iff`: a message is appended whole or not at all, as the return value says, exactly
  when the output buffer has the room or gets it.
* `send_comes`: every helper prepares its message and then refuses or emits it.
* `sendRun_whole`: in a run in which every message finds its room, the stream is whole messages.
-/

namespace Pqwire

open ByteMem

variable {c c₁ : Ctx}

/-! ## One message -/

theorem appendOutput_room {data : Bytes} (h : c.output.length + data.length ≤ c.outputCap) :
    c.appendOutput data = { c with output := c.output ++ data } := by
  unfold Ctx.appendOutput Ctx.ensureOutput
  rw [if_pos h]

theorem appendOutput_grown {data : Bytes} (h : ¬c.output.length + data.length ≤ c.outputCap)
    (hok : c.allocs.headD true = true) :
    c.appendOutput data = { c with
      output := c.output ++ data
      outputCap := c.outputCap * 2 + data.length + 1024
      allocs := c.allocs.tail } := by
  unfold Ctx.appendOutput Ctx.ensureOutput Ctx.allocOk
  rw [if_neg h, if_pos hok]
  rfl

theorem appendOutput_failed {data : Bytes} (h : ¬c.output.length + data.length ≤ c.outputCap)
    (hok : ¬c.allocs.headD true = true) : c.appendOutput data = { c with allocs := c.allocs.tail } := by
  unfold Ctx.appendOutput Ctx.ensureOutput Ctx.allocOk
  rw [if_neg h, if_neg hok]
  rfl

/-- The bytes are appended exactly when there is room for them or there will be. -/
theorem appendOutput_iff (c : Ctx) {data : Bytes} (hd : data ≠ []) :
    (c.appendOutput data).output = c.output ++ data ↔
      c.output.length + data.length ≤ c.outputCap ∨ c.allocs.headD true = true := by
  by_cases h : c.output.length + data.length ≤ c.outputCap
  · rw [appendOutput_room h]
    exact iff_of_true rfl (Or.inl h)
  by_cases hok : c.allocs.headD true = true
  · rw [appendOutput_grown h hok]
    exact iff_of_true rfl (Or.inr hok)
  · rw [appendOutput_failed h hok]
    refine iff_of_false (fun he => hd ?_) fun hor => hor.elim h hok
    exact List.self_eq_append_right.1 he

/-- The whole message is in the output exactly when `emit_msg` finds its room. -/
theorem emitMsg_whole_iff (c : Ctx) (type : UInt8) (payload : Bytes) :
    (c.emitMsg type payload).1.output = c.output ++ (Ctx.msgHeader type payload.length ++ payload) ↔
      c.RoomFor payload.length := by
  set hdr := Ctx.msgHeader type payload.length with hhdr
  have h5 : hdr.length = 5 := rfl
  have hne : hdr ≠ [] := List.cons_ne_nil _ _
  unfold Ctx.emitMsg Ctx.RoomFor
  dsimp only
  rw [← hhdr]
  by_cases hp : payload = []
  · rw [if_pos hp, hp, List.append_nil, appendOutput_iff c hne, h5]
    split
    · rename_i hfit
      exact iff_of_true (Or.inl hfit) (Or.inl rfl)
    · rename_i hfit
      exact ⟨fun h => ⟨h.resolve_left hfit, Or.inl rfl⟩, fun h => Or.inr h.1⟩
  have hlen : payload.length ≠ 0 := fun h => hp (List.eq_nil_of_length_eq_zero h)
  rw [if_neg hp, or_iff_right hlen, or_iff_right hlen]
  split
  · rename_i hfit
    have happ : c.appendOutput hdr = _ := appendOutput_room (by rw [h5]; exact hfit)
    rw [happ]
    have := appendOutput_iff { c with output := c.output ++ hdr } hp
    simpa only [List.length_append, h5, List.append_assoc] using this
  rename_i hfit
  -- the header does not fit, so the first allocation is spent on it
  by_cases hok : c.allocs.headD true = true
  · have happ : c.appendOutput hdr = _ := appendOutput_grown (by rw [h5]; exact hfit) hok
    rw [happ, and_iff_right hok]
    have := appendOutput_iff { c with
      output := c.output ++ hdr
      outputCap := c.outputCap * 2 + hdr.length + 1024
      allocs := c.allocs.tail } hp
    simpa only [List.length_append, h5, List.append_assoc] using this
  · -- without its header the message is not whole, whatever becomes of the payload
    refine iff_of_false ?_ fun h => hok h.1
    intro he
    have happ : c.appendOutput hdr = _ := appendOutput_failed (by rw [h5]; exact hfit) hok
    rw [happ] at he
    have hl := congrArg List.length he
    rcases appendOutput_cases { c with allocs := c.allocs.tail } payload with ⟨ho, -⟩ | ⟨-, ho, -⟩
    · rw [ho] at hl
      simp only [List.length_append, h5] at hl
      omega
    · rw [ho] at hl
      simp only [List.length_append, h5] at hl
      omega

/-- A message that the buffer has the room for. -/
theorem emitMsg_room {type : UInt8} {payload : Bytes} (h : c.output.length + 5 + payload.length ≤ c.outputCap) :
    (c.emitMsg type payload).1 = { c with output := c.output ++ wireMsg (type, payload) } := by
  have h5 : (Ctx.msgHeader type payload.length).length = 5 := rfl
  have happ : c.appendOutput (Ctx.msgHeader type payload.length) = _ := appendOutput_room (by omega)
  unfold Ctx.emitMsg wireMsg
  dsimp only
  rw [happ]
  split
  · rename_i hp
    rw [hp, List.append_nil]
  · rw [appendOutput_room (by rw [List.length_append, h5]; exact h)]
    simp only [List.append_assoc]

/-- **A message is emitted atomically exactly when `emit_msg` finds its room**: it returns 0 in any
case. -/
theorem emitMsg_atomic_iff (c : Ctx) (type : UInt8) (payload : Bytes) :
    Atomic c type payload (c.emitMsg type payload) ↔ c.RoomFor payload.length := by
  rw [← emitMsg_whole_iff c type payload]
  constructor
  · rintro (h | h)
    · exact h.1
    · exact absurd rfl h.2
  · intro h
    exact Or.inl ⟨h, rfl⟩

/-! ## The helpers -/

theorem Takes.prepares (h : Takes c c₁) : Prepares c c₁ := by
  obtain ⟨k, rfl⟩ := h
  exact ⟨k, c.protoState, rfl⟩

theorem Prepares.output (h : Prepares c c₁) : c₁.output = c.output := by
  obtain ⟨k, p, rfl⟩ := h
  rfl

/-- **Every helper prepares its message and then refuses or emits it.** -/
theorem send_comes {m : Send} (hm : m.ViaEmit) (c : Ctx) : ∃ c₁ msg, m.Comes c c₁ msg := by
  by_cases hz : m = .readyForQuery
  · subst hz
    exact ⟨_, some (ch 'Z', [ch 'I']), .emit ⟨0, .ready, rfl⟩ rfl⟩
  obtain ⟨t, ht⟩ := hm.type
  obtain ⟨c₁, htakes, hr | ⟨payload, hr⟩⟩ := (send_follows ht hm hz).comes c
  · exact ⟨c₁, none, .refuse htakes.prepares hr⟩
  · exact ⟨c₁, some (t, payload), .emit htakes.prepares hr⟩

/-! ## Runs -/

/-- **The stream of a run is whole messages**, behind what was in the output at the start. -/
theorem sendRun_whole {c c' : Ctx} {msgs : List (UInt8 × Bytes)} {out : Bytes} (h : SendRun c msgs out c') :
    out ++ c'.output = c.output ++ msgs.flatMap wireMsg := by
  induction h with
  | nil => exact (List.append_nil _).symm
  | refuse _ hm ih =>
    cases hm with
    | refuse hp hr => rw [hr, ← ih, hp.output]
  | emit _ hm hroom ih =>
    cases hm with
    | emit hp hr =>
      rw [hr, (emitMsg_whole_iff _ _ _).2 hroom, hp.output, ← List.append_assoc, ih, List.flatMap_append, List.append_assoc,
        List.flatMap_singleton]
      rfl
  | output maxLen _ ih =>
    rw [← ih, List.append_assoc]
    exact congrArg _ (List.take_append_drop _ _)

/-- **Sends under failing allocations.** A helper refuses and adds nothing, or it comes to `emit_msg`;
what it does then is atomic exactly when `emit_msg` finds the room for header and payload. In every
run in which it always does, whatever else fails, the stream is whole messages: each is a header and
all of its payload. The length field of a payload of `2 ^ 32 - 4` bytes or more wraps around. -/
theorem sends_atomic_iff (c : Ctx) :
    (∀ type payload, Atomic c type payload (c.emitMsg type payload) ↔ c.RoomFor payload.length) ∧
      (∀ m : Send, m.ViaEmit → ∃ c₁ msg, m.Comes c c₁ msg) ∧
      (∀ (m : Send) (c₁ : Ctx), m.Comes c c₁ none → (m.run c).2 = -1 ∧ (m.run c).1.output = c.output) ∧
      (∀ (m : Send) (c₁ : Ctx) (type : UInt8) (payload : Bytes), m.Comes c c₁ (some (type, payload)) →
        (Atomic c type payload (m.run c) ↔ c₁.RoomFor payload.length)) ∧
      ∀ (msgs : List (UInt8 × Bytes)) (out : Bytes) (c' : Ctx), SendRun c msgs out c' →
        out ++ c'.output = c.output ++ msgs.flatMap wireMsg := by
  refine ⟨emitMsg_atomic_iff c, fun m hm => send_comes hm c, fun m c₁ hm => ?_, fun m c₁ type payload hm => ?_,
    fun msgs out c' h => sendRun_whole h⟩
  · cases hm with
    | refuse hp hr =>
      rw [hr]
      exact ⟨rfl, hp.output⟩
  · cases hm with
    | emit hp hr =>
      rw [hr, ← emitMsg_atomic_iff, Atomic, Atomic, hp.output]

/-- A client whose next allocation fails. -/
def failingClient : Ctx := { tinyClient with allocs := [false] }

/-- A client whose next allocation succeeds. -/
def growingClient : Ctx := { tinyClient with allocs := [true, false] }

/-- A Query of any length is sent and some of the output drained. -/
theorem query_drained (q : CStr) (maxLen : ℕ) :
    SendRun growingClient [(ch 'Q', q.toBytes)] ((growingClient.emitMsg (ch 'Q') q.toBytes).1.getOutput maxLen).1
      ((growingClient.emitMsg (ch 'Q') q.toBytes).1.getOutput maxLen).2 := by
  have hcomes : (Send.query (some q)).Comes growingClient growingClient (some (ch 'Q', q.toBytes)) :=
    .emit (Takes.refl growingClient).prepares rfl
  have hroom : growingClient.RoomFor q.toBytes.length := by
    unfold Ctx.RoomFor
    rw [if_pos (by decide)]
    exact Or.inr (Or.inr rfl)
  exact (SendRun.nil.emit hcomes hroom).output maxLen

/-- The payload of a Query of 5000 characters makes the buffer grow. -/
theorem sends_atomic_grown :
    ((growingClient.emitMsg (ch 'Q') (longIdentity 5000).toBytes).1.getOutput 4000).1 ++
        ((growingClient.emitMsg (ch 'Q') (longIdentity 5000).toBytes).1.getOutput 4000).2.output =
      growingClient.output ++ [(ch 'Q', (longIdentity 5000).toBytes)].flatMap wireMsg := by
  generalize longIdentity 5000 = q
  have hwhole := (sends_atomic_iff growingClient).2.2.2.2 _ _ _ (query_drained q 4000)
  exact hwhole

/-- The failing client with a Query of `n` characters in its buffer. -/
def filledClient (n : ℕ) : Ctx := { failingClient with output := wireMsg (ch 'Q', (longIdentity n).toBytes) }

theorem filledClient_length (n : ℕ) : (filledClient n).output.length = 6 + n := by
  have hl : (longIdentity n).length = n := List.length_replicate
  have h5 : (Ctx.msgHeader (ch 'Q') (longIdentity n).toBytes.length).length = 5 := rfl
  show (Ctx.msgHeader (ch 'Q') (longIdentity n).toBytes.length ++ (longIdentity n).toBytes).length = 6 + n
  rw [List.length_append, h5, CStr.toBytes_length, hl]
  omega

theorem filledClient_reachable {n : ℕ} (hn : 6 + n ≤ 4096) : Reachable (filledClient n) := by
  have hl : (longIdentity n).length = n := List.length_replicate
  have hcreate : Reachable failingClient :=
    @Reachable.create .client { eventQueueSize := 1, maxMessageSize := 64 } [true, true, true, true, false] _ rfl
  have hroom : failingClient.output.length + 5 + (longIdentity n).toBytes.length ≤ failingClient.outputCap := by
    show 0 + 5 + (longIdentity n).toBytes.length ≤ 4096
    rw [CStr.toBytes_length, hl]
    omega
  have hsent : (Send.run failingClient (.query (some (longIdentity n)))).1 = filledClient n := emitMsg_room hroom
  rw [← hsent]
  exact hcreate.step (.send failingClient (.query (some (longIdentity n))))

/-- A buffer with the room for the header and no more, and a `realloc` that fails. -/
theorem emitMsg_half (type : UInt8) {payload : Bytes} (hlen : c.output.length + 5 = c.outputCap)
    (ha : c.allocs = [false]) (hp : payload ≠ []) :
    (c.emitMsg type payload).1.output = c.output ++ Ctx.msgHeader type payload.length ∧ ¬c.RoomFor payload.length := by
  have h5 : (Ctx.msgHeader type payload.length).length = 5 := rfl
  have hpos : payload.length ≠ 0 := fun h => hp (List.eq_nil_of_length_eq_zero h)
  have hfail : ¬c.allocs.headD true = true := by
    rw [ha]
    exact Bool.false_ne_true
  have happ : c.appendOutput (Ctx.msgHeader type payload.length) = _ := appendOutput_room (by omega)
  constructor
  · unfold Ctx.emitMsg
    dsimp only
    rw [if_neg hp, happ, appendOutput_failed]
    · show ¬(c.output ++ Ctx.msgHeader type payload.length).length + payload.length ≤ c.outputCap
      rw [List.length_append]
      omega
    · exact hfail
  · unfold Ctx.RoomFor
    rw [if_pos (by omega)]
    rintro (h | h | h)
    · exact hpos h
    · omega
    · exact hfail h

/-- **Half a frame**: the header of a Query is appended, its payload is not, and 0 is returned. -/
theorem query_half_frame : Reachable (filledClient 4085) ∧
    ((filledClient 4085).emitMsg (ch 'Q') [97, 0]).2 = 0 ∧
    ((filledClient 4085).emitMsg (ch 'Q') [97, 0]).1.output = (filledClient 4085).output ++ Ctx.msgHeader (ch 'Q') 2 ∧
    ¬Atomic (filledClient 4085) (ch 'Q') [97, 0] ((filledClient 4085).emitMsg (ch 'Q') [97, 0]) := by
  have hr : Reachable (filledClient 4085) := filledClient_reachable (by decide)
  have hlen : (filledClient 4085).output.length + 5 = (filledClient 4085).outputCap := by
    rw [filledClient_length]
    rfl
  have ha : (filledClient 4085).allocs = [false] := rfl
  generalize filledClient 4085 = c at hr hlen ha ⊢
  obtain ⟨hout, hroom⟩ := emitMsg_half (ch 'Q') hlen ha (List.cons_ne_nil _ _)
  exact ⟨hr, rfl, hout, fun h => hroom ((emitMsg_atomic_iff _ _ _).1 h)⟩

end Pqwire

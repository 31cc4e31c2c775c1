import Pqwire.Proof.Answers
import Pqwire.Proof.Pipeline
import Pqwire.Proof.Rewrite
import Pqwire.Spec.Output

/-!
# The output is a queue of whole messages

* `send_writes`: what a helper of one message returns and appends does not depend on the context.
* `send_adds`: it refuses and adds nothing, or adds its message.
* `output_fifo`: over every run of sends and drains, what was drained and what is still
  buffered are the messages of the sends that returned 0, in order.
-/

namespace Pqwire

open ByteMem

/-! ## What a helper writes -/

/-- What the call returns and appends wherever allocation succeeds: it does not depend on the
context. -/
def Writes (call : Ctx → Ctx × ℤ) (r : ℤ) (bs : Bytes) : Prop :=
  ∀ c : Ctx, c.allocs = [] → (call c).1.allocs = [] ∧ (call c).2 = r ∧ (call c).1.output = c.output ++ bs

/-- A helper of messages of type `t`: it refuses, or it writes a header and the payload that the
header counts. -/
def WritesMsg (t : UInt8) (call : Ctx → Ctx × ℤ) : Prop :=
  Writes call (-1) [] ∨ ∃ payload, Writes call 0 (Ctx.msgHeader t payload.length ++ payload)

theorem Follows.writes {t : UInt8} {call : Ctx → Ctx × ℤ} (h : Follows t call) : WritesMsg t call := by
  obtain ⟨o, ho⟩ := h.fixed
  cases o with
  | none =>
    refine Or.inl ?_
    intro c ha
    rw [ho c ha]
    exact ⟨ha, rfl, (List.append_nil _).symm⟩
  | some payload =>
    refine Or.inr ⟨payload, ?_⟩
    intro c ha
    rw [ho c ha]
    obtain ⟨hout, hal⟩ := emitMsg_output ha t payload
    exact ⟨hal, rfl, hout⟩

/-- **A helper of one typed message writes nothing or its message**, the same in every context. -/
theorem send_writes {m : Send} {t : UInt8} (ht : m.type = some t) : WritesMsg t fun c => m.run c := by
  cases m with
  | startup => cases ht
  | unnamedPipeline => cases ht
  | bindRewriteIdentity mem b p s slot identity bin =>
    cases ht
    simp only [Send.run, Ctx.sendBindRewriteIdentity]
    split
    · exact Follows.refused.writes
    · rename_i out hout
      obtain ⟨-, -, rfl⟩ := bindRewriteIdentityZerocopy_eq_some.1 hout
      refine Or.inr ⟨rewriteBody mem b (p.getD CStr.empty) (s.getD CStr.empty) slot.toNat identity bin, ?_⟩
      intro c ha
      obtain ⟨ho, hal⟩ := appendOutput_all ha _
      refine ⟨hal, rfl, ?_⟩
      rw [ho, Nat.add_comm 4]
      rfl
  | readyForQuery =>
    cases ht
    refine Or.inr ⟨[ch 'I'], ?_⟩
    intro c ha
    obtain ⟨ho, hal⟩ := emitMsg_output (c := { c with protoState := .ready }) ha (ch 'Z') [ch 'I']
    exact ⟨hal, rfl, ho⟩
  | _ => exact (send_follows ht trivial (by rintro ⟨⟩)).writes

/-- A call on `c` that emits messages of type `t`: it refuses and adds nothing, or it adds a
header and the payload that the header counts. -/
def Adds (c : Ctx) (t : UInt8) (res : Ctx × ℤ) : Prop :=
  res.1.allocs = [] ∧ ((res.2 = -1 ∧ res.1.output = c.output) ∨
    (res.2 = 0 ∧ ∃ payload, res.1.output = c.output ++ (Ctx.msgHeader t payload.length ++ payload)))

variable {c : Ctx} {t : UInt8}

/-- **A helper of one typed message refuses and adds nothing, or adds the message.** -/
theorem send_adds {m : Send} (ha : c.allocs = []) (ht : m.type = some t) : Adds c t (m.run c) := by
  rcases send_writes ht with h | ⟨payload, h⟩
  · obtain ⟨hal, hr, ho⟩ := h c ha
    exact ⟨hal, Or.inl ⟨hr, ho.trans (List.append_nil _)⟩⟩
  · obtain ⟨hal, hr, ho⟩ := h c ha
    exact ⟨hal, Or.inr ⟨hr, payload, ho⟩⟩

/-- The startup helper refuses and adds nothing, or adds a startup message. -/
theorem sendStartup_adds (ha : c.allocs = []) (user database : Option CStr) :
    (c.sendStartup user database).1.allocs = [] ∧
      (((c.sendStartup user database).2 = -1 ∧ (c.sendStartup user database).1.output = c.output) ∨
        ((c.sendStartup user database).2 = 0 ∧
          ∃ S : Startup, (c.sendStartup user database).1.output = c.output ++ S.enc)) := by
  have hlen := startupBody_length (user.getD CStr.empty) (database.getD CStr.empty)
  unfold Ctx.sendStartup
  split
  · exact ⟨ha, Or.inl ⟨rfl, rfl⟩⟩
  dsimp only
  split
  · exact ⟨ha, Or.inl ⟨rfl, rfl⟩⟩
  split
  · exact ⟨ha, Or.inl ⟨rfl, rfl⟩⟩
  · have hp : 4 + 4 + 5 + ((user.getD CStr.empty).length + 1) + 9 + ((database.getD CStr.empty).length + 1) + 1 =
        (startupBody (user.getD CStr.empty) (database.getD CStr.empty)).length + 4 := by
      rw [startupBody_length]
      omega
    rw [hp]
    refine ⟨(appendOutput_all ha _).2, Or.inr ⟨rfl,
      ⟨startupBody (user.getD CStr.empty) (database.getD CStr.empty), by omega, by omega⟩, ?_⟩⟩
    rw [(appendOutput_all ha _).1]
    simp only [Startup.enc, Startup.len, startupBody, List.append_assoc]

/-- **A helper of one message refuses and adds nothing, or adds one complete message** of its
kind. -/
theorem send_message_iff {m : Send} (ha : c.allocs = []) (hs : m.Single)
    (hp : (m.run c).1.output.length < c.output.length + (5 + (2 ^ 32 - 4))) :
    (m.run c).1.allocs = [] ∧ (((m.run c).2 = -1 ∧ (m.run c).1.output = c.output) ∨
      ((m.run c).2 = 0 ∧ ∃ msg, m.Emits msg ∧ (m.run c).1.output = c.output ++ msg.enc)) := by
  rcases hs with hs | hs
  · cases m with
    | startup user database =>
      obtain ⟨hal, h⟩ := sendStartup_adds ha user database
      refine ⟨hal, ?_⟩
      rcases h with h | ⟨hr, S, hS⟩
      · exact Or.inl h
      · exact Or.inr ⟨hr, .startup S, rfl, hS⟩
    | _ => cases hs
  · obtain ⟨t, ht⟩ := Option.isSome_iff_exists.1 hs
    obtain ⟨hal, h⟩ := send_adds ha ht
    refine ⟨hal, ?_⟩
    rcases h with h | ⟨hr, payload, ho⟩
    · exact Or.inl h
    · have hshort : payload.length + 4 < 2 ^ 32 := by
        have hh : (Ctx.msgHeader t payload.length).length = 5 := rfl
        rw [ho, List.length_append, List.length_append, hh] at hp
        omega
      exact Or.inr ⟨hr, .typed ⟨t, payload, hshort⟩, ht, ho⟩

/-! ## Runs -/

theorem drained_concat (calls : List Call) (call : Call) :
    drained (calls ++ [call]) = drained calls ++ drained [call] := List.flatMap_append

theorem accepted_concat (calls : List Call) (call : Call) :
    accepted (calls ++ [call]) = accepted calls ++ accepted [call] := List.filterMap_append

/-- Walking over typed messages finds each of them and goes on behind them. -/
theorem peekWalk_frames (fs : List Frame) (k : ℕ) (rest : Bytes) :
    peekWalk (fs.length + k) ((fs.map Message.typed).flatMap Message.enc ++ rest) =
      (fs.map fun f => (f.type, f.enc.length)) ++ peekWalk k rest := by
  induction fs with
  | nil => rw [List.length_nil, Nat.zero_add]; rfl
  | cons f fs ih =>
    have hb : ((f :: fs).map Message.typed).flatMap Message.enc ++ rest =
        f.enc ++ ((fs.map Message.typed).flatMap Message.enc ++ rest) := by
      rw [List.map_cons, List.flatMap_cons, List.append_assoc]
      rfl
    rw [hb, List.length_cons, Nat.add_right_comm, peekWalk, msgPeek_frame]
    dsimp only
    rw [List.drop_left, ih]
    rfl

/-- What the calls have added: one message for each send that returned 0. -/
theorem calls_messages {c c' : Ctx} {calls : List Call} (ha : c.allocs = []) (h : Calls c calls c') :
    c'.allocs = [] ∧ ∃ ms : List Message, List.Forall₂ Send.Emits (accepted calls) ms ∧
      drained calls ++ c'.output = c.output ++ ms.flatMap Message.enc := by
  induction h with
  | nil => exact ⟨ha, [], .nil, by rw [List.flatMap_nil, List.append_nil]; rfl⟩
  | @send calls c₁ c₂ m r _ hs hm hp ih =>
    obtain ⟨ha₁, ms, hms, hout⟩ := ih
    have hres : (m.run c₁).1 = c₂ ∧ (m.run c₁).2 = r := by rw [hm]; exact ⟨rfl, rfl⟩
    obtain ⟨hal, hcases⟩ := send_message_iff ha₁ hs (by rw [hres.1]; exact hp)
    rw [hres.1] at hal
    rw [hres.1, hres.2] at hcases
    refine ⟨hal, ?_⟩
    rw [drained_concat, accepted_concat]
    rcases hcases with ⟨rfl, ho⟩ | ⟨rfl, msg, hem, ho⟩
    · refine ⟨ms, ?_, ?_⟩
      · change List.Forall₂ _ (accepted calls ++ []) ms
        rwa [List.append_nil]
      · change drained calls ++ [] ++ _ = _
        rwa [List.append_nil, ho]
    · refine ⟨ms ++ [msg], List.rel_append hms (.cons hem .nil), ?_⟩
      change drained calls ++ [] ++ _ = _
      rw [List.append_nil, ho, ← List.append_assoc, hout, List.flatMap_append, List.append_assoc]
      congr 2
      exact (List.append_nil _).symm
  | @output calls c₁ maxLen _ ih =>
    obtain ⟨ha₁, ms, hms, hout⟩ := ih
    refine ⟨ha₁, ms, ?_, ?_⟩
    · rw [accepted_concat]
      change List.Forall₂ _ (accepted calls ++ []) ms
      rwa [List.append_nil]
    · have hsplit : (c₁.getOutput maxLen).1 ++ (c₁.getOutput maxLen).2.output = c₁.output := List.take_append_drop _ _
      rw [drained_concat, ← hout, ← hsplit, ← List.append_assoc]
      congr 2
      exact List.append_nil _

/-- **The output is a lossless queue of whole messages.** Over every run of sends and drains
the sends that return 0 correspond to messages, one each and in call order, and the bytes
drained so far followed by those still buffered are these messages, behind what was buffered
at the start; walking over a stretch of typed messages finds their boundaries and types; and a
send refuses with -1 and adds nothing, or returns 0 and adds one message. -/
theorem output_fifo {c c' : Ctx} {calls : List Call} (ha : c.allocs = []) (h : Calls c calls c') :
    (∃ ms : List Message, List.Forall₂ Send.Emits (accepted calls) ms ∧
      drained calls ++ c'.output = c.output ++ ms.flatMap Message.enc ∧
      ∀ (pre post : List Message) (fs : List Frame), ms = pre ++ fs.map .typed ++ post → ∀ k,
        peekWalk (fs.length + k) ((drained calls ++ c'.output).drop (c.output ++ pre.flatMap Message.enc).length) =
          (fs.map fun f => (f.type, f.enc.length)) ++ peekWalk k (post.flatMap Message.enc)) ∧
      ∀ m : Send, m.Single → (m.run c').1.output.length < c'.output.length + (5 + (2 ^ 32 - 4)) →
        ((m.run c').2 = -1 ∧ (m.run c').1.output = c'.output) ∨
          ((m.run c').2 = 0 ∧ ∃ msg, m.Emits msg ∧ (m.run c').1.output = c'.output ++ msg.enc) := by
  obtain ⟨ha', ms, hms, hout⟩ := calls_messages ha h
  refine ⟨⟨ms, hms, hout, ?_⟩, fun m hs hp => (send_message_iff ha' hs hp).2⟩
  intro pre post fs hsplit k
  have hbytes : drained calls ++ c'.output = (c.output ++ pre.flatMap Message.enc) ++
      ((fs.map Message.typed).flatMap Message.enc ++ post.flatMap Message.enc) := by
    rw [hout, hsplit, List.flatMap_append, List.flatMap_append]
    simp only [List.append_assoc]
  rw [hbytes, List.drop_left]
  exact peekWalk_frames fs k _

/-- A startup, a Sync, a drain of three bytes, a Parse without a query and a Terminate. -/
theorem output_fifo_parse :
    ∃ c', Calls tinyClient [.send (.startup none none) 0, .send .sync 0, .output [0, 0, 0],
        .send (.parse none none none 0) (-1), .send .terminate 0] c' ∧
      ∃ ms : List Message, List.Forall₂ Send.Emits [.startup none none, .sync, .terminate] ms ∧
        [0, 0, 0] ++ c'.output = ms.flatMap Message.enc := by
  have h₁ := Calls.nil.send (c := tinyClient) (m := .startup none none) (Or.inl rfl) rfl (by decide)
  have h₂ := h₁.send (m := .sync) (Or.inr rfl) rfl (by decide)
  have h₃ := h₂.output 3
  have h₄ := h₃.send (m := .parse none none none 0) (Or.inr rfl) rfl (by decide)
  have h₅ := h₄.send (m := .terminate) (Or.inr rfl) rfl (by decide)
  obtain ⟨⟨ms, hms, hout, -⟩, -⟩ := output_fifo rfl h₅
  exact ⟨_, h₅, ms, hms, hout⟩

end Pqwire

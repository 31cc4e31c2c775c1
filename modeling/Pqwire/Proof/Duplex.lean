import Pqwire.Proof.Bisim
import Pqwire.Proof.Halves
import Pqwire.Spec.Duplex

/-!
# The two directions do not meet

* `feedInput_unsent`: receiving depends neither on the output nor on the phase.
* `halves_independent`: in every run, what the calls of one direction return is what they return
  when the calls of the other are left out.
-/

namespace Pqwire

open ByteMem Machine

/-! ## Receiving -/

/-- The context without its output and its phase. -/
def Ctx.unsent (c : Ctx) : Ctx := { c with output := [], outputCap := 0, protoState := .startup }

theorem read_unsent (c : Ctx) (ev : Event) : c.unsent.read ev = c.read ev := by
  cases ev <;> rfl

theorem handleMessage_unsent (c : Ctx) (type : UInt8) (base : ℕ) (body : Bytes) :
    (handleMessage c.unsent type base body).unsent = (handleMessage c type base body).unsent := by
  have hrole : c.unsent.role = c.role := rfl
  by_cases hs : type ∈ stateful c.role
  · rcases stateful_cases hs with ⟨hr, rfl⟩ | ⟨hr, t, rfl⟩
    · rw [handleMessage_front hr, handleMessage_front (hrole.trans hr)]
      rfl
    · rw [handleMessage_back hr, handleMessage_back (hrole.trans hr)]
      rw [hr] at hs
      cases t with
      | authentication => simp only [handleBackend]; split <;> rfl
      | readyForQuery => rfl
      | rowDescription => simp only [handleBackend, parseRowDescription]; split <;> rfl
      | dataRow => simp only [handleBackend, parseDataRow]; split <;> rfl
      | commandComplete => rfl
      | _ => exact absurd hs (by decide)
  · rw [handleMessage_plain hs, handleMessage_plain (hrole ▸ hs), hrole]
    cases plainEvent c.role type base body with
    | none => rfl
    | some ev =>
      show (c.unsent.enqueueEvent ev body).unsent = (c.enqueueEvent ev body).unsent
      unfold Ctx.enqueueEvent
      rw [read_unsent]
      rfl

theorem parseStartupBody_unsent (c : Ctx) (body : Bytes) :
    (parseStartupBody c.unsent body).unsent = (parseStartupBody c body).unsent := by
  have hr : c.unsent.role = c.role := rfl
  unfold parseStartupBody
  rw [hr]
  split <;> rfl

/-- The round without the output and the phase. -/
def Round.unsent : Round → Round
  | .again c => .again c.unsent
  | .stop c => .stop c.unsent

/-- **A round of the loop.** -/
theorem feedStep_unsent (c : Ctx) : c.unsent.feedStep.unsent = c.feedStep.unsent := by
  have hlen : c.unsent.inputLen = c.inputLen := rfl
  have hbuf : c.unsent.inputBuf = c.inputBuf := rfl
  have hmax : c.unsent.maxMessageSize = c.maxMessageSize := rfl
  have haw : c.unsent.awaitsStartup = c.awaitsStartup := rfl
  unfold Ctx.feedStep
  rw [haw]
  split
  · unfold Ctx.startupStep
    dsimp only
    rw [hlen, hbuf, hmax]
    split
    · rfl
    split
    · rfl
    split
    · rfl
    · have h := congrArg (fun d : Ctx => d.consume (rd32Be c.inputBuf 0))
        (parseStartupBody_unsent c (slice c.inputBuf 4 (rd32Be c.inputBuf 0 - 4)))
      exact congrArg Round.again h
  · unfold Ctx.typedStep
    dsimp only
    rw [hlen, hbuf, hmax]
    split
    · rfl
    split
    · unfold Ctx.rejectFrame
      dsimp only
      rw [hlen]
      split <;> rfl
    split
    · rfl
    · have h := congrArg (fun d : Ctx => d.consume (1 + rd32Be c.inputBuf 1))
        (handleMessage_unsent c (c.inputBuf.getD 0 0) 5 (slice c.inputBuf 5 (rd32Be c.inputBuf 1 - 4)))
      exact congrArg Round.again h

/-- **The loop takes the same rounds.** -/
theorem feedLoop_unsent {c d : Ctx} (h : c.unsent = d.unsent) (fuel : ℕ) :
    (Ctx.feedLoop fuel c).map Ctx.unsent = (Ctx.feedLoop fuel d).map Ctx.unsent := by
  induction fuel generalizing c d with
  | zero => rfl
  | succ fuel ih =>
    have hround : c.feedStep.unsent = d.feedStep.unsent := by
      rw [← feedStep_unsent c, h, feedStep_unsent d]
    unfold Ctx.feedLoop
    generalize c.feedStep = r at hround
    generalize d.feedStep = r' at hround
    cases r with
    | again c' =>
      cases r' with
      | again d' => exact ih (Round.again.inj hround)
      | stop d' => cases hround
    | stop c' =>
      cases r' with
      | again d' => cases hround
      | stop d' => exact congrArg some (Round.stop.inj hround)

theorem acceptInput_unsent (c : Ctx) (data : Bytes) : c.unsent.acceptInput data = (c.acceptInput data).map Ctx.unsent := by
  have hlen : c.unsent.inputLen = c.inputLen := rfl
  have hcap : c.unsent.inputCap = c.inputCap := rfl
  have hok : c.unsent.allocOk = c.allocOk := rfl
  unfold Ctx.acceptInput
  rw [hlen, hcap, hok]
  split
  · split <;> rfl
  · rfl

/-- **Receiving depends neither on the output nor on the phase.** -/
theorem feedInput_unsent {c d c' : Ctx} {fuel n : ℕ} {data : Bytes} (h : c.unsent = d.unsent)
    (hc : c.feedInput fuel data = some (c', n)) : ∃ d', d.feedInput fuel data = some (d', n) ∧ c'.unsent = d'.unsent := by
  have hacc : (c.acceptInput data).map Ctx.unsent = (d.acceptInput data).map Ctx.unsent := by
    rw [← acceptInput_unsent, h, acceptInput_unsent]
  unfold Ctx.feedInput at hc ⊢
  cases hca : c.acceptInput data with
  | none =>
    rw [hca] at hc hacc
    rw [Option.map_eq_none_iff.1 hacc.symm]
    cases hc
    exact ⟨d.allocated, rfl, congrArg Ctx.allocated h⟩
  | some c₁ =>
    rw [hca] at hc hacc
    obtain ⟨d₁, hda, hd₁⟩ := Option.map_eq_some_iff.1 hacc.symm
    rw [hda]
    obtain ⟨c₂, hloop, heq⟩ := Option.map_eq_some_iff.1 hc
    cases heq
    have hmap := feedLoop_unsent hd₁.symm fuel
    rw [hloop] at hmap
    obtain ⟨d₂, hdl, hd₂⟩ := Option.map_eq_some_iff.1 hmap.symm
    refine ⟨d₂, ?_, hd₂.symm⟩
    show (Ctx.feedLoop fuel d₁).map (fun d' => (d', data.length)) = some (d₂, data.length)
    rw [hdl]
    rfl

theorem nextEvent_unsent {c d : Ctx} (h : c.unsent = d.unsent) :
    (c.nextEvent = none ∧ d.nextEvent = none) ∨
      ∃ q c' d', c.nextEvent = some (q, c') ∧ d.nextEvent = some (q, d') ∧ c'.unsent = d'.unsent := by
  have hev : c.events = d.events := by
    have := congrArg Ctx.events h
    exact this
  unfold Ctx.nextEvent Ctx.dequeueEvent
  rw [hev]
  cases d.events.dequeue with
  | none => exact Or.inl ⟨rfl, rfl⟩
  | some p =>
    refine Or.inr ⟨p.1, _, _, rfl, rfl, ?_⟩
    have hset := congrArg (fun e : Ctx => { e with events := p.2 }) h
    have hset₀ := congrArg (fun e : Ctx => { e with events := p.2, rowArenaUsed := 0 }) h
    split
    · exact hset₀
    · exact hset

theorem deliver_unsent {c d : Ctx} (h : c.unsent = d.unsent) (ev : Event) :
    c.read ev = d.read ev ∧ c.rawBody ev = d.rawBody ev := by
  have hraw : ∀ e : Ctx, e.unsent.rawBody ev = e.rawBody ev := by
    intro e
    cases ev <;> rfl
  refine ⟨?_, ?_⟩
  · rw [← read_unsent c, h, read_unsent]
  · rw [← hraw c, h, hraw]

/-! ## The calls -/

/-- Contexts that have received the same. -/
def SameInput (w v : Watched) : Prop := w.ctx.unsent = v.ctx.unsent ∧ w.ctx.allocs = [] ∧ w.moved = v.moved

/-- Contexts that have the same to send. -/
def SameOutput (w v : Watched) : Prop :=
  w.ctx.role = v.ctx.role ∧ w.ctx.output = v.ctx.output ∧ w.ctx.allocs = [] ∧ v.ctx.allocs = []

/-- While no allocation fails, a feed is accepted. -/
theorem feedInput_received {c c' : Ctx} {fuel n : ℕ} {data : Bytes} (ha : c.allocs = [])
    (h : c.feedInput fuel data = some (c', n)) : Received c c' := by
  unfold Ctx.feedInput at h
  cases hacc : c.acceptInput data with
  | none =>
    have hok : c.allocOk = true := by
      unfold Ctx.allocOk
      rw [ha]
      rfl
    unfold Ctx.acceptInput at hacc
    rw [hok, if_pos rfl] at hacc
    split at hacc
    · cases hacc
    · cases hacc
  | some c₁ =>
    rw [hacc] at h
    obtain ⟨c₂, hloop, heq⟩ := Option.map_eq_some_iff.1 h
    cases heq
    exact feeds_received ha ⟨c₁, hacc, fuel, hloop⟩

theorem send_unsent (c : Ctx) (m : Send) (ha : c.allocs = []) : (m.run c).1.unsent = c.unsent ∧ (m.run c).1.allocs = [] := by
  obtain ⟨-, hallocs, -, -⟩ := send_same m rfl ha ha
  refine ⟨?_, hallocs⟩
  have hframe := send_outputOnly c m
  unfold OutputOnly at hframe
  rw [hframe, hallocs, ← ha]
  rfl

/-- A call that has an outcome is made. -/
theorem runSpecified_run {fuel : ℕ} {w : Watched} {i : PublicCall} {r : Outcome × Watched}
    (h : i.runSpecified fuel w = some r) : i.specified = true ∧ i.run fuel w = some r := by
  unfold PublicCall.runSpecified at h
  split at h
  · exact ⟨‹_›, h⟩
  · cases h

/-- **A call of the receiving side does the same whatever has been sent.** -/
theorem SameInput.receive {fuel : ℕ} {w v w' : Watched} {i : PublicCall} {o : Outcome} (h : SameInput w v)
    (hi : i.receives = true) (hrun : i.run fuel w = some (o, w')) : ∃ v', i.run fuel v = some (o, v') ∧ SameInput w' v' := by
  obtain ⟨c, m⟩ := w
  obtain ⟨d, m'⟩ := v
  obtain ⟨hcd, ha, hm⟩ := h
  dsimp only at hcd ha hm
  subst hm
  cases i with
  | feed data =>
    obtain ⟨⟨c₁, n⟩, hfeed, heq⟩ := Option.map_eq_some_iff.1 hrun
    cases heq
    obtain ⟨d', hd, h'⟩ := feedInput_unsent hcd hfeed
    refine ⟨⟨d', Watched.movedBy ⟨d, m⟩ data⟩, ?_, h', (feedInput_received ha hfeed).allocs.trans ha, ?_⟩
    · simp only [PublicCall.run]
      rw [hd]
      rfl
    · have hmoved : Watched.movedBy ⟨c.unsent, m⟩ data = Watched.movedBy ⟨d.unsent, m⟩ data := by rw [hcd]
      exact hmoved
  | next =>
    simp only [PublicCall.run] at hrun ⊢
    rcases nextEvent_unsent hcd with ⟨hc, hd⟩ | ⟨q, c₁, d₁, hc, hd, h'⟩
    · rw [hc] at hrun
      rw [hd]
      cases hrun
      exact ⟨⟨d, m⟩, rfl, hcd, ha, rfl⟩
    · rw [hc] at hrun
      rw [hd]
      cases hrun
      have hstale : Watched.stale ⟨c.unsent, m⟩ = Watched.stale ⟨d.unsent, m⟩ := by rw [hcd]
      have hstale : Watched.stale ⟨c, m⟩ = Watched.stale ⟨d, m⟩ := hstale
      obtain ⟨hread, hraw⟩ := deliver_unsent h' q.ev
      obtain ⟨hframe, -⟩ := nextEvent_frame hc
      refine ⟨⟨d₁, m⟩, ?_, h', ?_, rfl⟩
      · unfold Watched.deliver
        rw [hstale, hread, hraw]
      · dsimp only
        rw [hframe]
        exact ha
  | reset =>
    cases hrun
    exact ⟨⟨reset d, 0⟩, rfl, congrArg reset hcd, ha, rfl⟩
  | _ => cases hi

/-- A call that does not receive leaves alone what has been received. -/
theorem SameInput.skip {fuel : ℕ} {w v w' : Watched} {i : PublicCall} {o : Outcome} (h : SameInput w v)
    (hi : i.receives = false) (hrun : i.run fuel w = some (o, w')) : SameInput w' v := by
  obtain ⟨hcd, ha, hm⟩ := h
  cases i with
  | send m =>
    cases hrun
    obtain ⟨hun, hallocs⟩ := send_unsent w.ctx m ha
    exact ⟨hun.trans hcd, hallocs, hm⟩
  | output maxLen =>
    cases hrun
    exact ⟨hcd, ha, hm⟩
  | state =>
    cases hrun
    exact ⟨hcd, ha, hm⟩
  | ready =>
    cases hrun
    exact ⟨hcd, ha, hm⟩
  | _ => cases hi

/-- **A call of the sending side does the same whatever has been received.** -/
theorem SameOutput.send {fuel : ℕ} {w v w' : Watched} {i : PublicCall} {o : Outcome} (h : SameOutput w v)
    (hi : i.sends = true) (hrun : i.run fuel w = some (o, w')) : ∃ v', i.run fuel v = some (o, v') ∧ SameOutput w' v' := by
  obtain ⟨c, n⟩ := w
  obtain ⟨d, n'⟩ := v
  obtain ⟨hrole, hout, hc, hd⟩ := h
  dsimp only at hrole hout hc hd
  cases i with
  | send m =>
    cases hrun
    obtain ⟨hr, ha, ha', bs, ho, ho'⟩ := send_same m hrole hc hd
    have hrole' : ∀ e : Ctx, (m.run e).1.role = e.role := by
      intro e
      rw [send_outputOnly e m]
    refine ⟨⟨(m.run d).1, n'⟩, ?_, ?_, ?_, ha, ha'⟩
    · simp only [PublicCall.run]
      rw [hr]
    · dsimp only
      rw [hrole', hrole', hrole]
    · dsimp only
      rw [ho, ho', hout]
  | output maxLen =>
    cases hrun
    refine ⟨⟨(d.getOutput maxLen).2, n'⟩, ?_, hrole, ?_, hc, hd⟩
    · simp only [PublicCall.run, Ctx.getOutput]
      rw [hout]
    · simp only [Ctx.getOutput]
      rw [hout]
  | reset =>
    cases hrun
    exact ⟨⟨reset d, 0⟩, rfl, hrole, rfl, hc, hd⟩
  | _ => cases hi

/-- A call that does not send leaves the output alone. -/
theorem SameOutput.skip {fuel : ℕ} {w v w' : Watched} {i : PublicCall} {o : Outcome} (h : SameOutput w v)
    (hi : i.sends = false) (hrun : i.run fuel w = some (o, w')) : SameOutput w' v := by
  obtain ⟨hrole, hout, hc, hd⟩ := h
  cases i with
  | feed data =>
    obtain ⟨⟨c₁, n⟩, hfeed, heq⟩ := Option.map_eq_some_iff.1 hrun
    cases heq
    have hrec := feedInput_received hc hfeed
    exact ⟨hrec.role.trans hrole, hrec.output.trans hout, hrec.allocs.trans hc, hd⟩
  | next =>
    simp only [PublicCall.run] at hrun
    cases hnext : w.ctx.nextEvent with
    | none =>
      rw [hnext] at hrun
      cases hrun
      exact ⟨hrole, hout, hc, hd⟩
    | some p =>
      rw [hnext] at hrun
      cases hrun
      obtain ⟨hframe, -⟩ := nextEvent_frame hnext
      unfold SameOutput
      dsimp only
      rw [hframe]
      exact ⟨hrole, hout, hc, hd⟩
  | state =>
    cases hrun
    exact ⟨hrole, hout, hc, hd⟩
  | ready =>
    cases hrun
    exact ⟨hrole, hout, hc, hd⟩
  | _ => cases hi

/-- **The two directions do not meet.** While no allocation fails, what the calls of one direction
return in a run is what they return in the run without the calls of the other. -/
theorem halves_independent {w : Watched} {fuel : ℕ} {calls : List PublicCall} {outs : List Outcome}
    (ha : w.ctx.allocs = []) (h : w.observeSpecified fuel calls = some outs) :
    w.observeSpecified fuel (calls.filter PublicCall.receives) = some (outputsAt PublicCall.receives calls outs) ∧
      w.observeSpecified fuel (calls.filter PublicCall.sends) = some (outputsAt PublicCall.sends calls outs) := by
  have hmade : ∀ {v : Watched} {i : PublicCall} {r : Outcome × Watched}, i.specified = true → i.run fuel v = some r →
      i.runSpecified fuel v = some r := by
    intro v i r hs hrun
    unfold PublicCall.runSpecified
    rw [if_pos hs]
    exact hrun
  refine ⟨?_, ?_⟩
  · have hww : SameInput w w := ⟨rfl, ha, rfl⟩
    refine observe_filter ?_ ?_ hww h
    · intro s t i hst hi o s' hrun
      obtain ⟨hs, hrun⟩ := runSpecified_run hrun
      obtain ⟨t', ht, hst'⟩ := hst.receive hi hrun
      exact ⟨t', hmade hs ht, hst'⟩
    · intro s t i hst hi o s' hrun
      exact hst.skip hi (runSpecified_run hrun).2
  · have hww : SameOutput w w := ⟨rfl, rfl, ha, ha⟩
    refine observe_filter ?_ ?_ hww h
    · intro s t i hst hi o s' hrun
      obtain ⟨hs, hrun⟩ := runSpecified_run hrun
      obtain ⟨t', ht, hst'⟩ := hst.send hi hrun
      exact ⟨t', hmade hs ht, hst'⟩
    · intro s t i hst hi o s' hrun
      exact hst.skip hi (runSpecified_run hrun).2

/-- A Sync drained while a ReadyForQuery arrives in two pieces. -/
theorem halves_independent_sync :
    ∃ d, Watched.observeSpecified ⟨tinyClient, 0⟩ 2 [.feed [90, 0], .feed [0, 0, 5, 73], .next] =
        some [.accepted 2, .accepted 4, .event (some d)] ∧
      d.event = .readyForQuery ∧
      Watched.observeSpecified ⟨tinyClient, 0⟩ 2 [.send .sync, .output 3, .output 9] =
        some [.returned 0, .bytes [83, 0, 0], .bytes [0, 4]] := by
  obtain ⟨hin, hout⟩ := @halves_independent ⟨tinyClient, 0⟩ 2
    [.send .sync, .feed [90, 0], .output 3, .feed [0, 0, 5, 73], .next, .output 9] _ rfl rfl
  exact ⟨_, hin, rfl, hout⟩

end Pqwire

import Pqwire.Proof.Dequeue
import Pqwire.Proof.Loop

/-!
# The receiving half of a context

What has been sent and not drained plays no part in receiving.

* `feeds_setOutput`, `nextEvent_setOutput`: `pqwire_feed_input` and `pqwire_next_event` do
  the same whatever the output is.
* `Received`: what receiving leaves alone, whatever the bytes.
-/

namespace Pqwire

open ByteMem

/-- The context with another output and other outcomes of its allocations. -/
def Ctx.setSent (c : Ctx) (out : Bytes) (cap : ℕ) (os : List Bool) : Ctx := { c with output := out, outputCap := cap, allocs := os }

/-- The context with another output. -/
def Ctx.setOutput (c : Ctx) (out : Bytes) (cap : ℕ) : Ctx := { c with output := out, outputCap := cap }

def Round.setOutput (out : Bytes) (cap : ℕ) : Round → Round
  | .again c => .again (c.setOutput out cap)
  | .stop c => .stop (c.setOutput out cap)

variable {c : Ctx} {out : Bytes} {cap : ℕ} {os : List Bool}

theorem read_setSent (ev : Event) : (c.setSent out cap os).read ev = c.read ev := by
  cases ev <;> rfl

theorem enqueueEvent_setSent (ev : Event) (body : Bytes) :
    (c.setSent out cap os).enqueueEvent ev body = (c.enqueueEvent ev body).setSent out cap os := by
  unfold Ctx.enqueueEvent
  rw [read_setSent]
  rfl

/-- **A message is handled the same way whatever the output is.** -/
theorem handleMessage_setSent (type : UInt8) (base : ℕ) (body : Bytes) :
    handleMessage (c.setSent out cap os) type base body = (handleMessage c type base body).setSent out cap os := by
  have hrole : (c.setSent out cap os).role = c.role := rfl
  by_cases hs : type ∈ stateful c.role
  · rcases stateful_cases hs with ⟨hr, rfl⟩ | ⟨hr, t, rfl⟩
    · rw [handleMessage_front hr, handleMessage_front (hrole.trans hr)]
      rfl
    · rw [handleMessage_back hr, handleMessage_back (hrole.trans hr)]
      rw [hr] at hs
      cases t with
      | authentication => simp only [handleBackend]; split <;> rfl
      | readyForQuery => rfl
      | rowDescription => simp only [handleBackend, parseRowDescription]; split <;> rfl
      | dataRow => simp only [handleBackend, parseDataRow]; split <;> rfl
      | commandComplete => rfl
      | _ => exact absurd hs (by decide)
  · rw [handleMessage_plain hs, handleMessage_plain (hrole ▸ hs), hrole]
    cases plainEvent c.role type base body with
    | none => rfl
    | some ev => exact enqueueEvent_setSent ev body

theorem parseStartupBody_setSent (body : Bytes) :
    parseStartupBody (c.setSent out cap os) body = (parseStartupBody c body).setSent out cap os := by
  unfold parseStartupBody
  have hr : (c.setSent out cap os).role = c.role := rfl
  rw [hr]
  split <;> rfl

theorem setOutput_eq {c' : Ctx} (ha : c'.allocs = c.allocs) : c'.setOutput out cap = c'.setSent out cap c.allocs := by
  rw [← ha]
  rfl

theorem read_setOutput (ev : Event) : (c.setOutput out cap).read ev = c.read ev := by
  cases ev <;> rfl

theorem handleMessage_setOutput (type : UInt8) (base : ℕ) (body : Bytes) :
    handleMessage (c.setOutput out cap) type base body = (handleMessage c type base body).setOutput out cap := by
  rw [setOutput_eq rfl, handleMessage_setSent, setOutput_eq (handleMessage_handled c type base body).allocs]

theorem parseStartupBody_setOutput (body : Bytes) :
    parseStartupBody (c.setOutput out cap) body = (parseStartupBody c body).setOutput out cap := by
  rw [setOutput_eq rfl, parseStartupBody_setSent, setOutput_eq (parseStartupBody_handled c body).allocs]

theorem rejectFrame_setOutput (mlen : ℕ) :
    (c.setOutput out cap).rejectFrame mlen = (c.rejectFrame mlen).setOutput out cap := by
  have hlen : (c.setOutput out cap).inputLen = c.inputLen := rfl
  unfold Ctx.rejectFrame
  dsimp only
  rw [hlen]
  split <;> rfl

/-! ## The loop -/

/-- **A round of the loop.** -/
theorem feedStep_setOutput : (c.setOutput out cap).feedStep = c.feedStep.setOutput out cap := by
  have hlen : (c.setOutput out cap).inputLen = c.inputLen := rfl
  have hbuf : (c.setOutput out cap).inputBuf = c.inputBuf := rfl
  have hmax : (c.setOutput out cap).maxMessageSize = c.maxMessageSize := rfl
  have haw : (c.setOutput out cap).awaitsStartup = c.awaitsStartup := rfl
  unfold Ctx.feedStep
  rw [haw]
  split
  · unfold Ctx.startupStep
    dsimp only
    rw [hlen, hbuf, hmax]
    split
    · rfl
    split
    · rfl
    split
    · rfl
    · rw [parseStartupBody_setOutput]
      rfl
  · unfold Ctx.typedStep
    dsimp only
    rw [hlen, hbuf, hmax]
    split
    · rfl
    split
    · rw [rejectFrame_setOutput]
      rfl
    split
    · rfl
    · rw [handleMessage_setOutput]
      rfl

theorem feedLoop_setOutput (fuel : ℕ) :
    Ctx.feedLoop fuel (c.setOutput out cap) = (Ctx.feedLoop fuel c).map fun c' => c'.setOutput out cap := by
  induction fuel generalizing c with
  | zero => rfl
  | succ fuel ih =>
    unfold Ctx.feedLoop
    rw [feedStep_setOutput]
    cases c.feedStep with
    | again c' => exact ih
    | stop c' => rfl

theorem acceptInput_setOutput (data : Bytes) :
    (c.setOutput out cap).acceptInput data = (c.acceptInput data).map fun c' => c'.setOutput out cap := by
  unfold Ctx.acceptInput
  have hlen : (c.setOutput out cap).inputLen = c.inputLen := rfl
  have hcap : (c.setOutput out cap).inputCap = c.inputCap := rfl
  have hok : (c.setOutput out cap).allocOk = c.allocOk := rfl
  rw [hlen, hcap, hok]
  split
  · split <;> rfl
  · rfl

/-- **A call of `pqwire_feed_input` does not depend on the output and leaves it alone.** -/
theorem feeds_setOutput {data : Bytes} {c' : Ctx} (h : Feeds c data c') :
    Feeds (c.setOutput out cap) data (c'.setOutput out cap) := by
  obtain ⟨c₁, hacc, fuel, hloop⟩ := h
  refine ⟨c₁.setOutput out cap, ?_, fuel, ?_⟩
  · rw [acceptInput_setOutput, hacc]
    rfl
  · rw [feedLoop_setOutput, hloop]
    rfl

theorem nextEvent_setOutput {q : Queued} {c' : Ctx} (h : c.nextEvent = some (q, c')) :
    (c.setOutput out cap).nextEvent = some (q, c'.setOutput out cap) := by
  unfold Ctx.nextEvent Ctx.dequeueEvent at h ⊢
  have hev : (c.setOutput out cap).events = c.events := rfl
  rw [hev]
  cases hd : c.events.dequeue with
  | none => rw [hd] at h; cases h
  | some p =>
    rw [hd] at h
    simp only [Option.some.injEq, Prod.mk.injEq] at h ⊢
    obtain ⟨rfl, rfl⟩ := h
    refine ⟨rfl, ?_⟩
    split <;> rfl

/-! ## What receiving leaves alone -/

/-- `c'` differs from `c` in what receiving changes. -/
structure Received (c c' : Ctx) : Prop where
  role : c'.role = c.role
  output : c'.output = c.output
  outputCap : c'.outputCap = c.outputCap
  allocs : c'.allocs = c.allocs

theorem Received.refl (c : Ctx) : Received c c := ⟨rfl, rfl, rfl, rfl⟩

theorem Received.trans {c₁ c₂ c₃ : Ctx} (h : Received c₁ c₂) (h' : Received c₂ c₃) : Received c₁ c₃ :=
  ⟨h'.role.trans h.role, h'.output.trans h.output, h'.outputCap.trans h.outputCap, h'.allocs.trans h.allocs⟩

theorem feedStep_received {c c' : Ctx} (h : c.feedStep = .again c' ∨ c.feedStep = .stop c') :
    Received c c' ∧ c'.inputCap = c.inputCap := by
  have hround := feedStep_rounds c
  generalize c.feedStep = r at h hround
  cases hround with
  | wait =>
    rcases h with h | h
    · cases h
    · cases h
      exact ⟨.refl c, rfl⟩
  | badStartup =>
    rcases h with h | h
    · cases h
    · cases h
      exact ⟨⟨rfl, rfl, rfl, rfl⟩, rfl⟩
  | startup =>
    rcases h with h | h
    · cases h
      have h := parseStartupBody_handled c (slice c.inputBuf 4 (c.startupLen - 4))
      exact ⟨⟨h.role, h.output, h.outputCap, h.allocs⟩, h.inputCap⟩
    · cases h
  | reject =>
    rcases h with h | h
    · cases h
      unfold Ctx.rejectFrame
      dsimp only
      split
      · exact ⟨⟨rfl, rfl, rfl, rfl⟩, rfl⟩
      · exact ⟨⟨rfl, rfl, rfl, rfl⟩, rfl⟩
    · cases h
  | message =>
    rcases h with h | h
    · cases h
      have h := handleMessage_handled c (c.inputBuf.getD 0 0) 5 (slice c.inputBuf 5 (c.typedLen - 4))
      exact ⟨⟨h.role, h.output, h.outputCap, h.allocs⟩, h.inputCap⟩
    · cases h

theorem loops_received {c c' : Ctx} (h : Loops c c') : Received c c' ∧ c'.inputCap = c.inputCap := by
  refine h.keeps (P := fun d => Received c d ∧ d.inputCap = c.inputCap) ?_ ⟨.refl c, rfl⟩
  rintro d d' ⟨hd, hcap⟩ hstep
  obtain ⟨hstep, hcap'⟩ := feedStep_received hstep
  exact ⟨hd.trans hstep, hcap'.trans hcap⟩

/-- **What a call of `pqwire_feed_input` leaves alone.** -/
theorem feeds_received {c c' : Ctx} {data : Bytes} (ha : c.allocs = []) (h : Feeds c data c') : Received c c' := by
  obtain ⟨c₁, hacc, hloop⟩ := h
  have h₁ : Received c c₁ := by
    unfold Ctx.acceptInput at hacc
    split at hacc
    · split at hacc
      · cases hacc
        refine ⟨rfl, rfl, rfl, ?_⟩
        change c.allocs.tail = c.allocs
        rw [ha]
        rfl
      · cases hacc
    · cases hacc
      exact ⟨rfl, rfl, rfl, rfl⟩
  exact h₁.trans (loops_received hloop).1

theorem acceptInput_sent {c c₁ : Ctx} {data : Bytes} (h : c.acceptInput data = some c₁) :
    c₁.output = c.output ∧ c₁.outputCap = c.outputCap := by
  unfold Ctx.acceptInput at h
  split at h
  · split at h
    · cases h
      exact ⟨rfl, rfl⟩
    · cases h
  · cases h
    exact ⟨rfl, rfl⟩

/-- What a feed leaves of the output, and the allocations it has made. -/
theorem feedInput_sent {c c' : Ctx} {fuel n : ℕ} {data : Bytes} (h : c.feedInput fuel data = some (c', n)) :
    c'.output = c.output ∧ c'.outputCap = c.outputCap ∧ c'.allocs = ((c.acceptInput data).getD c.allocated).allocs := by
  unfold Ctx.feedInput at h
  cases hacc : c.acceptInput data with
  | none =>
    rw [hacc] at h
    cases h
    exact ⟨rfl, rfl, rfl⟩
  | some c₁ =>
    rw [hacc] at h
    obtain ⟨c₂, hloop, heq⟩ := Option.map_eq_some_iff.1 h
    cases heq
    obtain ⟨hout, hcap⟩ := acceptInput_sent hacc
    obtain ⟨hrec, -⟩ := loops_received ⟨fuel, hloop⟩
    exact ⟨hrec.output.trans hout, hrec.outputCap.trans hcap, hrec.allocs⟩

end Pqwire

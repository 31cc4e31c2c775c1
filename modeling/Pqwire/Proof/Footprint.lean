import Pqwire.Proof.Halves
import Pqwire.Proof.Termination
import Pqwire.Spec.Footprint

/-!
# A peer cannot make a context grow or run without bound

* `SendClosed.send`: a relation that holds across allocations, appends and a change of the phase
  holds across every send helper.
* `feedLoop_work`: the framing loop on `n` bytes takes at most `n / 2 + 1` rounds and moves at most
  `n ^ 2 / 4` bytes.
* `paced_bounds`: the bounds in every state of a run, from the configuration, the longest feed and
  the most output that the caller leaves pending.
-/

namespace Pqwire

open ByteMem

/-! ## The output buffer -/

/-- Some sends later: the output is no shorter, and a buffer that has grown is at most three times
as large as the output. -/
def Widens (c c' : Ctx) : Prop :=
  c.output.length ≤ c'.output.length ∧ (c'.outputCap = c.outputCap ∨ c'.outputCap ≤ 3 * c'.output.length + 1024)

theorem Widens.trans {c₁ c₂ c₃ : Ctx} (h : Widens c₁ c₂) (h' : Widens c₂ c₃) : Widens c₁ c₃ := by
  obtain ⟨hlen, hcap⟩ := h
  obtain ⟨hlen', hcap'⟩ := h'
  refine ⟨hlen.trans hlen', ?_⟩
  rcases hcap' with hcap' | hcap'
  · rcases hcap with hcap | hcap
    · exact Or.inl (hcap'.trans hcap)
    · right
      omega
  · exact Or.inr hcap'

theorem appendOutput_widens (c : Ctx) (data : Bytes) : Widens c (c.appendOutput data) := by
  unfold Ctx.appendOutput Ctx.ensureOutput
  by_cases hroom : c.output.length + data.length ≤ c.outputCap
  · rw [if_pos hroom]
    refine ⟨?_, Or.inl rfl⟩
    rw [List.length_append]
    omega
  · rw [if_neg hroom]
    by_cases hok : c.allocOk = true
    · rw [if_pos hok]
      have hlen : (c.output ++ data).length = c.output.length + data.length := List.length_append
      refine ⟨?_, Or.inr ?_⟩
      · change c.output.length ≤ (c.output ++ data).length
        omega
      · -- the buffer was too small for the bytes that are now in it
        change c.outputCap * 2 + data.length + 1024 ≤ 3 * (c.output ++ data).length + 1024
        omega
    · rw [if_neg hok]
      exact ⟨le_rfl, Or.inl rfl⟩

/-- The relation holds across what the send helpers are made of. -/
structure SendClosed (R : Ctx → Ctx → Prop) : Prop where
  refl : ∀ c, R c c
  trans : ∀ a b c, R a b → R b c → R a c
  allocs : ∀ c k, R c { c with allocs := c.allocs.drop k }
  phase : ∀ c p, R c { c with protoState := p }
  append : ∀ c data, R c (c.appendOutput data)

namespace SendClosed

variable {R : Ctx → Ctx → Prop}

theorem emitMsg (hR : SendClosed R) (c : Ctx) (type : UInt8) (payload : Bytes) : R c (c.emitMsg type payload).1 := by
  unfold Ctx.emitMsg
  dsimp only
  split
  · exact hR.append c _
  · exact hR.trans _ _ _ (hR.append c _) (hR.append _ _)

theorem follows (hR : SendClosed R) {t : UInt8} {call : Ctx → Ctx × ℤ} (h : Follows t call) (c : Ctx) : R c (call c).1 := by
  obtain ⟨c₁, ⟨k, rfl⟩, hc | ⟨payload, hc⟩⟩ := h.comes c
  · rw [hc]
    exact hR.allocs c k
  · rw [hc]
    exact hR.trans _ _ _ (hR.allocs c k) (hR.emitMsg _ t payload)

/-- **A rule for the send helpers.** -/
theorem send (hR : SendClosed R) (c : Ctx) (s : Send) : R c (s.run c).1 := by
  by_cases hr : s = .readyForQuery
  · subst hr
    exact hR.trans _ _ _ (hR.phase c .ready) (hR.emitMsg _ _ _)
  by_cases hm : s.ViaEmit
  · obtain ⟨t, ht⟩ := hm.type
    exact hR.follows (send_follows ht hm hr) c
  cases s with
  | startup u d =>
    simp only [Send.run, Ctx.sendStartup]
    split
    · exact hR.refl c
    split
    · exact hR.refl c
    split
    · exact hR.refl c
    · exact hR.append c _
  | bindRewriteIdentity mem b p s slot i bin =>
    simp only [Send.run, Ctx.sendBindRewriteIdentity]
    split
    · exact hR.refl c
    · exact hR.append c _
  | unnamedPipeline q o no f nf l v n r nr m =>
    simp only [Send.run, Ctx.sendUnnamedPipeline]
    have h₁ := hR.follows (sendParse_follows (some CStr.empty) q o no) c
    split
    · exact h₁
    refine hR.trans _ _ _ h₁ ?_
    set c₁ := (c.sendParse (some CStr.empty) q o no).1
    have h₂ := hR.follows (sendBind_follows (some CStr.empty) (some CStr.empty) f nf l v n r nr) c₁
    split
    · exact h₂
    refine hR.trans _ _ _ h₂ ?_
    set c₂ := (c₁.sendBind (some CStr.empty) (some CStr.empty) f nf l v n r nr).1
    have h₃ := hR.follows (sendExecute_follows (some CStr.empty) m) c₂
    split
    · exact h₃
    · exact hR.trans _ _ _ h₃ (hR.emitMsg _ _ _)
  | _ => exact absurd trivial hm

end SendClosed

theorem widens_closed : SendClosed Widens where
  refl _ := ⟨le_rfl, Or.inl rfl⟩
  trans _ _ _ := Widens.trans
  allocs _ _ := ⟨le_rfl, Or.inl rfl⟩
  phase _ _ := ⟨le_rfl, Or.inl rfl⟩
  append := appendOutput_widens

/-! ## The framing loop -/

/-- **A round that goes on takes at least two bytes.** -/
theorem feedStep_takes {c c' : Ctx} (h : c.feedStep = .again c') (hlt : c.inputLen < 2 ^ 32) :
    c'.inputLen + 2 ≤ c.inputLen := by
  have hr := feedStep_rounds c
  rw [h] at hr
  cases hr with
  | startup hs h8 _ hl =>
    have hlen : c.afterStartup.inputLen = c.inputLen - c.startupLen := by
      unfold Ctx.afterStartup
      change (parseStartupBody c _).inputLen - _ = _
      rw [(parseStartupBody_handled c _).inputLen]
    omega
  | message hs h4 hm hl =>
    have hlen : c.afterMessage.inputLen = c.inputLen - (1 + c.typedLen) := by
      unfold Ctx.afterMessage
      change (handleMessage c _ _ _).inputLen - _ = _
      rw [(handleMessage_handled c _ _ _).inputLen]
    omega
  | reject hs h5 hbad =>
    rw [rejectFrame_inputLen]
    split
    · have h1 : (1 + c.typedLen) % 2 ^ 32 = 1 + c.typedLen := Nat.mod_eq_of_lt (by omega)
      omega
    · omega

/-- **The work of the framing loop.** -/
theorem feedLoop_work {fuel : ℕ} {c : Ctx} (hlt : c.inputLen < 2 ^ 32) (hf : c.inputLen / 2 + 1 ≤ fuel) :
    (∃ c', Ctx.feedLoop fuel c = some c') ∧ (c.feedWork fuel).1 ≤ c.inputLen / 2 + 1 ∧
      4 * (c.feedWork fuel).2 ≤ c.inputLen ^ 2 := by
  induction fuel generalizing c with
  | zero => omega
  | succ fuel ih =>
    unfold Ctx.feedLoop Ctx.feedWork
    cases hs : c.feedStep with
    | stop c' => exact ⟨⟨c', rfl⟩, Nat.le_add_left .., Nat.zero_le _⟩
    | again c' =>
      have htwo := feedStep_takes hs hlt
      obtain ⟨hret, hrounds, hmoved⟩ := ih (c := c') (by omega) (by omega)
      refine ⟨hret, ?_, ?_⟩
      · dsimp only
        omega
      · have hsq : (c'.inputLen + 2) ^ 2 ≤ c.inputLen ^ 2 := Nat.pow_le_pow_left htwo 2
        calc 4 * ((c'.feedWork fuel).2 + c'.inputLen) ≤ c'.inputLen ^ 2 + 4 * c'.inputLen := by omega
          _ ≤ (c'.inputLen + 2) ^ 2 := by nlinarith
          _ ≤ c.inputLen ^ 2 := hsq

/-! ## The input buffer -/

/-- The input buffer after a feed of at most `L` bytes, from a context that holds at most `R`. -/
theorem feedInput_inputCap {c c' : Ctx} {data : Bytes} {fuel n L R : ℕ} (hr : c.inputLen ≤ R) (hl : data.length ≤ L)
    (h : c.feedInput fuel data = some (c', n)) : c'.inputCap = c.inputCap ∨ c'.inputCap ≤ R + L + 1024 := by
  unfold Ctx.feedInput at h
  cases hacc : c.acceptInput data with
  | none =>
    rw [hacc] at h
    cases h
    exact Or.inl rfl
  | some c₁ =>
    rw [hacc] at h
    obtain ⟨c₂, hloop, heq⟩ := Option.map_eq_some_iff.1 h
    cases heq
    obtain ⟨-, hkeep⟩ := loops_received ⟨fuel, hloop⟩
    rw [hkeep]
    unfold Ctx.acceptInput at hacc
    split at hacc
    · split at hacc
      · cases hacc
        right
        change c.inputLen + data.length + 1024 ≤ R + L + 1024
        omega
      · cases hacc
    · cases hacc
      exact Or.inl rfl

/-! ## Runs -/

theorem Paced.reachable {config : Config} {L B : ℕ} {c : Ctx} (h : Paced config L B c) : Reachable c := by
  induction h with
  | create hc => exact .create hc
  | feed _ _ hf ih => exact .step ih (.feed hf)
  | next _ hn ih => exact .step ih (.next hn)
  | reset _ ih => exact .step ih (.reset _)
  | output maxLen _ ih => exact .step ih (.output _ maxLen)
  | send _ _ ih => exact .step ih (.send _ _)
  | ready _ ih => exact .step ih (.ready _)

/-- No call leaves more input than the longest message. -/
theorem Reachable.inputLen_le {c : Ctx} (h : Reachable c) : c.inputLen ≤ max c.maxMessageSize 4 := by
  obtain ⟨hok, hw⟩ := reachable_ok h
  have := (incomplete_of_waits hok hw).length_le
  rwa [resid_length hok] at this

/-- What a run keeps. -/
structure Bounds (config : Config) (L B : ℕ) (c : Ctx) : Prop where
  limit : c.maxMessageSize = config.limit
  queue : c.queueSize = config.eventQueueSize.toNat
  input : c.inputCap ≤ max 4096 (max config.limit 4 + L + 1024)
  output : c.outputCap ≤ max 4096 (3 * B + 1024)

theorem Paced.bounds {config : Config} {L B : ℕ} {c : Ctx} (h : Paced config L B c) : Bounds config L B c := by
  induction h with
  | create hc =>
    unfold createWithConfig at hc
    split at hc
    · cases hc
    split at hc
    · cases hc
      exact ⟨rfl, rfl, le_max_left .., le_max_left ..⟩
    · cases hc
  | @feed c c' data fuel n hc hl hf ih =>
    have hin := hc.reachable.inputLen_le
    rw [ih.limit] at hin
    obtain ⟨-, hmax, hqueue⟩ := step_config (.feed hf) (reachable_ok hc.reachable).1
    obtain ⟨-, hout, -⟩ := feedInput_sent hf
    refine ⟨hmax.trans ih.limit, hqueue.trans ih.queue, ?_, hout ▸ ih.output⟩
    rcases feedInput_inputCap hin hl hf with hcap | hcap
    · rw [hcap]
      exact ih.input
    · exact hcap.trans (le_max_right ..)
  | next hc hn ih =>
    obtain ⟨-, hmax, hqueue⟩ := step_config (.next hn) (reachable_ok hc.reachable).1
    obtain ⟨hframe, -⟩ := nextEvent_frame hn
    refine ⟨hmax.trans ih.limit, hqueue.trans ih.queue, ?_, ?_⟩
    · rw [hframe]
      exact ih.input
    · rw [hframe]
      exact ih.output
  | reset _ ih => exact ⟨ih.limit, ih.queue, ih.input, ih.output⟩
  | output maxLen _ ih => exact ⟨ih.limit, ih.queue, ih.input, ih.output⟩
  | @send c s _ hB ih =>
    have hout := send_outputOnly c s
    have hcap := (widens_closed.send c s).2
    unfold OutputOnly at hout
    refine ⟨?_, ?_, ?_, ?_⟩
    · rw [hout]
      exact ih.limit
    · rw [hout]
      exact ih.queue
    · rw [hout]
      exact ih.input
    · rcases hcap with hcap | hcap
      · rw [hcap]
        exact ih.output
      · omega
  | ready _ ih => exact ⟨ih.limit, ih.queue, ih.input, ih.output⟩

/-- **Bounded memory and bounded work.** In every state of a run with feeds of at most `L` bytes
and at most `B` bytes of output pending, whatever the peer sends: the queue is as large as it was
made, the input buffer is at most the longest message and one feed long, the output buffer at
most three times the pending output, and, below `2 ^ 32` bytes, a further feed of at most `L` bytes
returns after at most `N / 2 + 1` rounds, which move at most `N ^ 2 / 4` bytes, for `N` the longest
message and one feed. -/
theorem paced_bounds {config : Config} {L B : ℕ} {c : Ctx} (h : Paced config L B c) :
    c.queueSize = config.eventQueueSize.toNat ∧ c.inputCap ≤ max 4096 (max config.limit 4 + L + 1024) ∧
      c.outputCap ≤ max 4096 (3 * B + 1024) ∧
      (max config.limit 4 + L < 2 ^ 32 → ∀ data : Bytes, data.length ≤ L →
        (∃ c' n, c.feedInput ((max config.limit 4 + L) / 2 + 1) data = some (c', n)) ∧
          ∀ c₁, c.acceptInput data = some c₁ → ∀ fuel, (max config.limit 4 + L) / 2 + 1 ≤ fuel →
            (c₁.feedWork fuel).1 ≤ (max config.limit 4 + L) / 2 + 1 ∧
              4 * (c₁.feedWork fuel).2 ≤ (max config.limit 4 + L) ^ 2) := by
  have hb := h.bounds
  have hin := h.reachable.inputLen_le
  rw [hb.limit] at hin
  refine ⟨hb.queue, hb.input, hb.output, ?_⟩
  intro hsize data hl
  set N := max config.limit 4 + L
  have hacc : ∀ c₁, c.acceptInput data = some c₁ → c₁.inputLen ≤ N := by
    intro c₁ ha
    obtain ⟨cap, allocs, rfl⟩ := acceptInput_some ha
    change c.inputLen + data.length ≤ N
    omega
  have hhalf : ∀ c₁ : Ctx, c₁.inputLen ≤ N → c₁.inputLen / 2 + 1 ≤ N / 2 + 1 := by
    intro c₁ hle
    omega
  constructor
  · unfold Ctx.feedInput
    cases ha : c.acceptInput data with
    | none => exact ⟨_, _, rfl⟩
    | some c₁ =>
      have hle := hacc c₁ ha
      obtain ⟨⟨c', hloop⟩, -⟩ := feedLoop_work (by omega) (hhalf c₁ hle)
      refine ⟨c', data.length, ?_⟩
      dsimp only
      rw [hloop]
      rfl
  · intro c₁ ha fuel hf
    have hle := hacc c₁ ha
    obtain ⟨-, hrounds, hmoved⟩ := @feedLoop_work fuel c₁ (by omega) ((hhalf c₁ hle).trans hf)
    exact ⟨hrounds.trans (hhalf c₁ hle), hmoved.trans (Nat.pow_le_pow_left hle 2)⟩

/-- A client that has been fed half a header and has sent a Sync. -/
theorem paced_bounds_sync :
    ∃ c, Paced ⟨16, 64⟩ 8 5 c ∧ c.resid = [90, 0, 0] ∧ c.output.length = 5 ∧ c.inputCap ≤ 4096 ∧ c.outputCap ≤ 4096 ∧
      ∀ data : Bytes, data.length ≤ 8 → ∃ c' n, c.feedInput 37 data = some (c', n) := by
  have h₀ := @Paced.create ⟨16, 64⟩ 8 5 .client [] _ rfl
  have h₁ := @Paced.feed ⟨16, 64⟩ 8 5 _ _ [90, 0, 0] 1 _ h₀ (by decide) rfl
  have h₂ := h₁.send (s := .sync) (by decide)
  obtain ⟨-, hin, hout, hfeed⟩ := paced_bounds h₂
  exact ⟨_, h₂, rfl, rfl, hin, hout, fun data hl => (hfeed (by decide) data hl).1⟩

end Pqwire

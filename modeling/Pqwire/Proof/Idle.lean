import Pqwire.Spec.Idle
import Pqwire.Proof.Dequeue
import Pqwire.Proof.History

/-!
# When READY means idle

A client becomes READY with a CommandComplete as well as with a ReadyForQuery, and no call of a
send helper takes it out of this state.

* `send_protoState`, `LoopTypes.protoState`: what calls do to the state of a client.
* `ready_idle_iff`: in a run, READY is reported of an idle backend only if and only if the calls
  are `Calm`.
* `ready_unanswered`: a Query and a CommandComplete are enough to be told READY too early.
-/

namespace Pqwire

open ByteMem

/-! ## The state of a client -/

/-- A helper of the frontend leaves the state alone. -/
theorem send_protoState (c : Ctx) {m : Send} (h : m.isFrontend = true) : (m.run c).1.protoState = c.protoState := by
  have hm : m ≠ .readyForQuery := by
    intro he
    rw [he] at h
    cases h
  rw [send_appendsOnly c hm]

/-- READY comes with a CommandComplete or a ReadyForQuery, and with nothing else. -/
theorem handleMessage_protoState {c : Ctx} (hr : c.role = .client) (type : UInt8) (base : ℕ) (body : Bytes) :
    (handleMessage c type base body).protoState =
      if type = BackType.readyForQuery.byte ∨ type = BackType.commandComplete.byte then .ready else c.protoState := by
  have h := handleMessage_handling c type base body
  generalize handleMessage c type base body = c' at h ⊢
  have hother : type ∉ stateful c.role →
      ¬(type = BackType.readyForQuery.byte ∨ type = BackType.commandComplete.byte) := by
    rw [hr]
    rintro hs (rfl | rfl)
    · exact hs (by decide)
    · exact hs (by decide)
  cases h with
  | ignored hs => rw [if_neg (hother hs)]
  | event hs => exact (if_neg (hother hs)).symm
  | query hs => exact absurd (hr.symm.trans hs) (by decide)
  | ready _ ht => exact (if_pos (Or.inl ht)).symm
  | complete _ ht => exact (if_pos (Or.inr ht)).symm
  | authenticated _ ht =>
    subst ht
    rfl
  | authentication _ ht =>
    subst ht
    rfl
  | rowDescription _ ht =>
    subst ht
    unfold parseRowDescription
    split <;> rfl
  | dataRow _ ht =>
    subst ht
    unfold parseDataRow
    split <;> rfl

/-- **The state after the messages of a call.** -/
theorem LoopTypes.protoState {c c' : Ctx} {types : List UInt8} (h : LoopTypes c types c') (hr : c.role = .client) :
    c'.role = .client ∧ c'.protoState =
      if BackType.readyForQuery.byte ∈ types ∨ BackType.commandComplete.byte ∈ types then .ready
      else c.protoState := by
  induction h with
  | @stop c c' hs =>
    have hround := feedStep_rounds c
    rw [hs] at hround
    cases hround with
    | wait => exact ⟨hr, by simp⟩
    | badStartup ha => simp [Ctx.awaitsStartup, hr] at ha
  | @rejected c c₁ c' types hb hs _ ih =>
    have hround := feedStep_rounds c
    rw [hs] at hround
    cases hround with
    | startup ha => simp [Ctx.awaitsStartup, hr] at ha
    | message _ h1 h2 => unfold Ctx.badLen at hb; unfold Ctx.typedLen at h1 h2; omega
    | reject =>
      have hsame : (c.rejectFrame c.typedLen).role = c.role ∧ (c.rejectFrame c.typedLen).protoState = c.protoState := by
        unfold Ctx.rejectFrame
        dsimp only
        split <;> exact ⟨rfl, rfl⟩
      obtain ⟨hr', hp⟩ := ih (hsame.1.trans hr)
      exact ⟨hr', by rw [hp, hsame.2]⟩
  | @message c c₁ c' types hb hs _ ih =>
    have hround := feedStep_rounds c
    rw [hs] at hround
    cases hround with
    | startup ha => simp [Ctx.awaitsStartup, hr] at ha
    | reject _ _ hlen => exact absurd hlen hb
    | message =>
      obtain ⟨hr', hp⟩ := ih ((handleMessage_handled c _ 5 _).role.trans hr)
      refine ⟨hr', ?_⟩
      rw [hp]
      change (if _ then _ else (handleMessage c _ 5 _).protoState) = _
      rw [handleMessage_protoState hr]
      -- READY is not left again, so it does not matter which of the messages brings it
      by_cases hhead : c.inputBuf.getD 0 0 = BackType.readyForQuery.byte ∨
          c.inputBuf.getD 0 0 = BackType.commandComplete.byte
      · rw [if_pos hhead, ite_self, if_pos]
        simp only [List.mem_cons]
        rcases hhead with hz | hc
        · exact Or.inl (Or.inl hz.symm)
        · exact Or.inr (Or.inl hc.symm)
      · rw [if_neg hhead]
        have hz : BackType.readyForQuery.byte ≠ c.inputBuf.getD 0 0 := fun he => hhead (Or.inl he.symm)
        have hc : BackType.commandComplete.byte ≠ c.inputBuf.getD 0 0 := fun he => hhead (Or.inr he.symm)
        simp only [List.mem_cons, hz, hc, false_or]

/-- Every call that returns has its types. -/
theorem loops_types {c c' : Ctx} (h : Loops c c') : ∃ types, LoopTypes c types c' := by
  refine Loops.rec' (P := fun c => ∃ types, LoopTypes c types c') ?_ ?_ h
  · intro c hs
    exact ⟨[], .stop hs⟩
  · intro c c₁ hs _ ih
    obtain ⟨types, ht⟩ := ih
    by_cases hb : c.badLen
    · exact ⟨types, .rejected hb hs ht⟩
    · exact ⟨_, .message hb hs ht⟩

/-- **The loop on complete frames** has their types. -/
theorem LoopTypes.frames {c : Ctx} {fs : List Frame} (h : c.Ok) (ha : c.awaitsStartup = false) (hf : ∀ f ∈ fs, f.Fits c)
    (hr : c.resid = Frame.encAll fs) : LoopTypes c (fs.map Frame.type) (c.handleFrames fs) := by
  induction fs generalizing c with
  | nil =>
    have hempty : c.inputLen = 0 := (resid_length h).symm.trans (congrArg List.length hr)
    exact .stop (feedStep_eq (.wait (waits_of_empty hempty)))
  | cons f fs ih =>
    rw [Frame.encAll_cons] at hr
    have hfit := hf f List.mem_cons_self
    obtain ⟨htype, hlen, -, -⟩ := frame_front h hr
    obtain ⟨hstep, hok, hres⟩ := feedStep_frames h ha hfit hr
    obtain ⟨haw, hmax, -⟩ := handleFrame_same c f
    have hb : ¬c.badLen := by
      unfold Ctx.badLen
      unfold Ctx.typedLen at hlen
      unfold Frame.Fits at hfit
      have h4 : 4 ≤ f.len := Nat.le_add_left _ _
      omega
    have hrest := ih hok (haw.trans ha) (fun g hg => by unfold Frame.Fits; rw [hmax]; exact hf g (List.mem_cons_of_mem _ hg)) hres
    rw [List.map_cons, ← htype]
    exact .message hb hstep hrest

/-! ## Runs -/

theorem acceptInput_state {c c₁ : Ctx} {data : Bytes} (h : c.acceptInput data = some c₁) :
    c₁.role = c.role ∧ c₁.protoState = c.protoState := by
  obtain ⟨cap, allocs, rfl⟩ := acceptInput_some h
  exact ⟨rfl, rfl⟩

theorem create_protoState {role : Role} {config : Config} {allocs : List Bool} {c : Ctx}
    (h : createWithConfig role config allocs = some c) : c.protoState = .startup := by
  unfold createWithConfig at h
  split at h
  · cases h
  split at h
  · cases h
    rfl
  · cases h

namespace Conversation

/-- A client that has been sent a ReadyForQuery is READY, and stays so. -/
def Stays (k : Conversation) : Prop := k.client.role = .client ∧ (0 < k.readies → k.client.protoState = .ready)

theorem Step.stays {k k' : Conversation} {move : Move} (h : Step k move k') (hk : k.Stays) : k'.Stays := by
  obtain ⟨hr, hready⟩ := hk
  cases h with
  | @send m hm =>
    refine ⟨?_, fun h0 => (send_protoState k.client hm).trans (hready h0)⟩
    rw [send_outputOnly k.client m]
    exact hr
  | @feed data c₁ c' types ha hl =>
    obtain ⟨hr₁, hp₁⟩ := acceptInput_state ha
    obtain ⟨hr', hp⟩ := hl.protoState (hr₁.trans hr)
    refine ⟨hr', ?_⟩
    intro h0
    rw [hp, hp₁]
    split
    · rfl
    · rename_i hnone
      have hz : types.count BackType.readyForQuery.byte = 0 := List.count_eq_zero.2 fun hm => hnone (Or.inl hm)
      exact hready (by simpa [hz] using h0)
  | refused => exact ⟨hr, hready⟩
  | next hn =>
    rw [Stays, (nextEvent_frame hn).1]
    exact ⟨hr, hready⟩
  | output => exact ⟨hr, hready⟩

theorem Run.stays {k : Conversation} {steps : List (Conversation × Move)} (h : Run steps k) : k.Stays := by
  induction h with
  | create hc => exact ⟨(create_empty hc).2.2.2.2.2.1, fun h0 => absurd h0 (lt_irrefl 0)⟩
  | step _ hs ih => exact hs.stays ih

/-- **A call leaves an idle conversation idle exactly when it is calm.** -/
theorem Step.idle_iff {k k' : Conversation} {move : Move} (h : Step k move k') (hk : k.Stays) (hi : k.Idle) :
    k'.Idle ↔ k.Calm move := by
  cases h with
  | @send m hm =>
    have hp : currentState (m.run k.client).1 = currentState k.client := send_protoState k.client hm
    unfold Idle Calm
    dsimp only
    rw [hp]
    constructor
    · intro h hready r hr
      exact (h hready).2 r (List.mem_append_right _ hr)
    · intro h hready
      obtain ⟨h0, hans⟩ := hi hready
      refine ⟨h0, ?_⟩
      intro r hr
      rcases List.mem_append.1 hr with hr | hr
      · exact hans r hr
      · exact h hready r hr
  | @feed data c₁ c' types ha hl =>
    obtain ⟨hr₁, hp₁⟩ := acceptInput_state ha
    obtain ⟨-, hp⟩ := hl.protoState (hr₁.trans hk.1)
    unfold Idle Calm
    dsimp only [currentState]
    rw [hp, hp₁]
    by_cases hready : k.client.protoState = .ready
    · -- nothing is unanswered before the call, and answers do not change that
      obtain ⟨h0, hans⟩ := hi hready
      constructor
      · intro _ hne
        exact absurd hready hne
      · intro _ _
        exact ⟨Nat.add_pos_left h0 _, fun r hr => hans r (List.mem_of_mem_drop hr)⟩
    · -- no ReadyForQuery has come before the call
      have h0 : k.readies = 0 := by
        by_contra hne
        exact hready (hk.2 (Nat.pos_of_ne_zero hne))
      rw [h0, Nat.zero_add, List.count_pos_iff]
      by_cases hz : BackType.readyForQuery.byte ∈ types
      · simp [hz, hready]
      · by_cases hc : BackType.commandComplete.byte ∈ types
        · simp [hz, hc, hready]
        · simp [hz, hc, hready]
  | refused => exact iff_of_true hi trivial
  | next hn =>
    refine iff_of_true ?_ trivial
    unfold Idle
    rw [(nextEvent_frame hn).1]
    exact hi
  | output => exact iff_of_true hi trivial

/-- Every call of the client is a step of the conversation. -/
theorem step_of_call {k : Conversation} {c' : Ctx} (h : ClientStep k.client c') :
    ∃ move k', Step k move k' ∧ k'.client = c' := by
  cases h with
  | send hm => exact ⟨_, _, .send hm, rfl⟩
  | @feed _ data fuel n hf =>
    unfold Ctx.feedInput at hf
    cases ha : k.client.acceptInput data with
    | none =>
      rw [ha] at hf
      cases hf
      exact ⟨_, _, .refused ha, rfl⟩
    | some c₁ =>
      rw [ha] at hf
      obtain ⟨c₂, hl, heq⟩ := Option.map_eq_some_iff.1 hf
      cases heq
      obtain ⟨types, ht⟩ := loops_types ⟨fuel, hl⟩
      exact ⟨_, _, .feed ha ht, rfl⟩
  | next hn => exact ⟨_, _, .next hn, rfl⟩
  | output maxLen => exact ⟨_, _, .output maxLen, rfl⟩

/-- **READY means idle exactly in the runs whose calls are calm**: it is reported of an idle
backend only in every state of such a run, and of a run whose states all have this property the
calls are calm. Every call that returns makes a run longer. -/
theorem ready_idle_iff {k : Conversation} {steps : List (Conversation × Move)} (h : Run steps k) :
    (((∀ p ∈ steps, p.1.Idle) ∧ k.Idle) ↔ ∀ p ∈ steps, p.1.Calm p.2) ∧
      ∀ c', ClientStep k.client c' → ∃ move k', Run (steps ++ [(k, move)]) k' ∧ k'.client = c' := by
  refine ⟨?_, ?_⟩
  · induction h with
    | create hc =>
      refine iff_of_true ⟨by simp, ?_⟩ (by simp)
      intro hready
      have hstart := create_protoState hc
      rw [currentState, hstart] at hready
      cases hready
    | @step steps k k' move hrun hs ih =>
      simp only [List.forall_mem_append, List.forall_mem_singleton]
      rw [← ih]
      constructor
      · rintro ⟨⟨hsteps, hk⟩, hk'⟩
        exact ⟨⟨hsteps, hk⟩, (hs.idle_iff hrun.stays hk).1 hk'⟩
      · rintro ⟨⟨hsteps, hk⟩, hcalm⟩
        exact ⟨⟨hsteps, hk⟩, (hs.idle_iff hrun.stays hk).2 hcalm⟩
  · intro c' hcall
    obtain ⟨move, k', hs, hc'⟩ := step_of_call hcall
    exact ⟨move, k', h.step hs, hc'⟩

end Conversation

/-- A ReadyForQuery. -/
def readyFrame : Frame := ⟨BackType.readyForQuery.byte, [73], by decide⟩

/-- A CommandComplete of the tag `a`. -/
def completeFrame : Frame := ⟨BackType.commandComplete.byte, [97, 0], by decide⟩

/-- Complete frames are fed to a client that has no input left. -/
theorem Conversation.Step.frames {k : Conversation} {c₁ : Ctx} {fs : List Frame} (hk : Reachable k.client)
    (ha : k.client.awaitsStartup = false) (hf : ∀ f ∈ fs, f.Fits k.client) (hempty : k.client.resid = [])
    (hacc : k.client.acceptInput (Frame.encAll fs) = some c₁) :
    Conversation.Step k (.feed (fs.map Frame.type))
      { client := c₁.handleFrames fs
        unanswered := k.unanswered.drop ((fs.map Frame.type).count BackType.readyForQuery.byte)
        readies := k.readies + (fs.map Frame.type).count BackType.readyForQuery.byte } := by
  have hok := (reachable_ok hk).1
  obtain ⟨haw, -, hmax, -, -⟩ := acceptInput_same hacc
  have hres : c₁.resid = Frame.encAll fs := by rw [acceptInput_resid hok hacc, hempty, List.nil_append]
  refine .feed hacc (LoopTypes.frames (acceptInput_ok hok hacc) (haw.trans ha) ?_ hres)
  intro f hm
  unfold Frame.Fits
  rw [hmax]
  exact hf f hm

/-- A client sends a Query and a Sync before it gets the ReadyForQuery of both. -/
theorem ready_idle_first : ∃ steps k, Conversation.Run steps k ∧ currentState k.client = .ready ∧ k.readies = 2 ∧ k.Idle := by
  let query : Send := .query (some ⟨[97], by decide⟩)
  let asking : Ctx := (query.run tinyClient).1
  let waiting : Ctx := (Send.sync.run asking).1
  have hcreate : Conversation.Run [] ⟨tinyClient, [], 0⟩ :=
    .create (show createWithConfig .client ⟨1, 64⟩ [] = some tinyClient from rfl)
  have hquery : Conversation.Step ⟨tinyClient, [], 0⟩ (.send query) ⟨asking, [.query], 0⟩ := .send rfl
  have hsync : Conversation.Step ⟨asking, [.query], 0⟩ (.send .sync) ⟨waiting, [.query, .sync], 0⟩ := .send rfl
  have hrun := (hcreate.step hquery).step hsync
  have hreach : Reachable waiting := (tinyClient_reachable.step (.send _ query)).step (.send _ .sync)
  have hasking : currentState asking = .startup := rfl
  have hwaiting : currentState waiting = .startup := rfl
  have hstarted : waiting.awaitsStartup = false := rfl
  have hmax : waiting.maxMessageSize = 64 := rfl
  have hempty : waiting.resid = [] := rfl
  obtain ⟨c₁, hacc, -⟩ := acceptInput_core (reachable_ok hreach).1 rfl (Frame.encAll [readyFrame, readyFrame])
  -- what the client has in its output does not matter from here on
  clear_value waiting asking
  have hfits : ∀ f ∈ [readyFrame, readyFrame], f.Fits waiting := by
    unfold Frame.Fits
    rw [hmax]
    decide
  have hrun' := hrun.step (Conversation.Step.frames hreach hstarted hfits hempty hacc)
  have htypes : [readyFrame, readyFrame].map Frame.type = [90, 90] := rfl
  rw [htypes] at hrun'
  refine ⟨_, _, hrun', hrun'.stays.2 Nat.two_pos, rfl, ((Conversation.ready_idle_iff hrun').1.2 ?_).2⟩
  intro p hp
  simp only [List.nil_append, List.cons_append, List.mem_cons, List.not_mem_nil, or_false] at hp
  rcases hp with rfl | rfl | rfl
  · exact fun h => absurd h (by decide)
  · exact fun h => absurd (hasking.symm.trans h) (by decide)
  · intro _
    show if (90 : UInt8) ∈ [90, 90] then Conversation.Answered ([Request.query, Request.sync].drop 2) else _
    decide

/-! ## A CommandComplete is taken for the end -/

/-- **READY comes too early**: a fresh client that has sent a Query and gets a CommandComplete is
READY, while the Query is unanswered and no ReadyForQuery has come. -/
theorem ready_unanswered : ∃ steps k, Conversation.Run steps k ∧ currentState k.client = .ready ∧
    k.unanswered = [.query] ∧ k.readies = 0 ∧ ¬k.Idle := by
  let query : Send := .query (some ⟨[97], by decide⟩)
  let asking : Ctx := (query.run tinyClient).1
  have hcreate : Conversation.Run [] ⟨tinyClient, [], 0⟩ :=
    .create (show createWithConfig .client ⟨1, 64⟩ [] = some tinyClient from rfl)
  have hsend : Conversation.Step ⟨tinyClient, [], 0⟩ (.send query) ⟨asking, [.query], 0⟩ := .send rfl
  have hfits : ∀ f ∈ [completeFrame], f.Fits asking := by decide
  have hfeed := Conversation.Step.frames (k := ⟨asking, [.query], 0⟩) (tinyClient_reachable.step (.send _ query)) rfl hfits rfl rfl
  refine ⟨_, _, (hcreate.step hsend).step hfeed, rfl, rfl, rfl, ?_⟩
  intro hidle
  exact absurd (hidle rfl).1 (by decide)

end Pqwire

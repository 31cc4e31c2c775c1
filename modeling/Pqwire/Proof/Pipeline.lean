import Pqwire.Proof.Link
import Pqwire.Spec.Pipeline

/-!
# The recovery status follows the client

* `msgPeek_frame`, `msgPeek_iff`: the peek accepts a frame, and a whole string exactly when it
  is one.
* `feedsBackend_frame`: a call on a frame feeds it, drains its event and updates the status.
* `pipeline_simulates_iff`: over every run the status says what the client has emitted, and the
  number of frames below 2^31.
-/

namespace Pqwire

open ByteMem LastWrite

/-! ## Peeking -/

theorem msgPeek_frame (f : Frame) (rest : Bytes) : msgPeek (f.enc ++ rest) = some (f.type, f.enc.length) := by
  have hlen := f.enc_length
  have h4 : 4 ≤ f.len := Nat.le_add_left _ _
  unfold msgPeek
  rw [if_neg (by rw [List.length_append]; omega)]
  dsimp only
  rw [f.rd32Be_enc, if_neg (by omega), if_neg (by rw [List.length_append]; omega), hlen, Nat.add_comm]
  rfl

/-- The peek takes a whole string exactly when it is a frame. -/
theorem msgPeek_iff {msg : Bytes} {type : UInt8} :
    msgPeek msg = some (type, msg.length) ↔ ∃ f : Frame, f.type = type ∧ msg = f.enc := by
  constructor
  · intro h
    unfold msgPeek at h
    split at h
    · cases h
    rename_i h5
    dsimp only at h
    split at h
    · cases h
    rename_i h4
    split at h
    · cases h
    simp only [Option.some.injEq, Prod.mk.injEq] at h
    obtain ⟨ht, htotal⟩ := h
    have hlt := rd32Be_lt msg 1
    obtain ⟨t, rest, rfl⟩ : ∃ t rest, msg = t :: rest := by
      cases msg with
      | nil => exact absurd (Nat.zero_lt_succ 4) h5
      | cons t rest => exact ⟨t, rest, rfl⟩
    rw [List.length_cons] at h5 htotal
    have hw := wr32Be_rd32Be (p := rest) (by omega)
    have hmlen : rd32Be (t :: rest) 1 = rd32Be rest 0 := (rd32Be_drop (t :: rest) 1 0).symm
    have hbody : (rest.drop 4).length + 4 = rd32Be rest 0 := by rw [List.length_drop]; omega
    refine ⟨⟨t, rest.drop 4, by omega⟩, ht, ?_⟩
    change t :: rest = t :: (wr32Be ((rest.drop 4).length + 4) ++ rest.drop 4)
    rw [hbody, hw]
  · rintro ⟨f, rfl, rfl⟩
    have := msgPeek_frame f []
    rwa [List.append_nil] at this

theorem isFrame_iff (msg : Bytes) : IsFrame msg ↔ ∃ type, msgPeek msg = some (type, msg.length) := by
  constructor
  · rintro ⟨f, rfl⟩
    exact ⟨f.type, msgPeek_iff.2 ⟨f, rfl, rfl⟩⟩
  · rintro ⟨type, h⟩
    obtain ⟨f, -, hf⟩ := msgPeek_iff.1 h
    exact ⟨f, hf⟩

instance (msg : Bytes) : Decidable (IsFrame msg) :=
  decidable_of_iff (∃ type ∈ msg.head?, msgPeek msg = some (type, msg.length)) (by
    rw [isFrame_iff]
    refine ⟨fun ⟨t, _, h⟩ => ⟨t, h⟩, fun ⟨t, h⟩ => ⟨t, ?_, h⟩⟩
    obtain ⟨f, rfl, rfl⟩ := msgPeek_iff.1 h
    rfl)

/-! ## Observing -/

/-- The status after a frame. -/
def PipelineStatus.after (st : PipelineStatus) (f : Frame) : PipelineStatus :=
  if f.type = ch 'E' then
    { st with nMsgs := st.nMsgs + 1, sawError := true, lastError := parseErrorFields f.body }
  else if f.type = ch 'Z' then { st with nMsgs := st.nMsgs + 1, sawRfq := true, complete := true }
  else { st with nMsgs := st.nMsgs + 1 }

theorem observe_frame (st : PipelineStatus) (f : Frame) :
    pipelineObserveMsg st f.enc = (st.after f, if f.type = ch 'Z' then 1 else 0) := by
  have hpeek := msgPeek_frame f []
  rw [List.append_nil] at hpeek
  have hlen := f.enc_length
  have hbody : slice f.enc 5 (f.enc.length - 5) = f.body := by
    have hn : f.enc.length - 5 = f.body.length := by unfold Frame.len at hlen; omega
    rw [hn, f.slice_enc]
  have hne : ch 'E' ≠ ch 'Z' := by decide
  unfold pipelineObserveMsg PipelineStatus.after
  rw [hpeek]
  dsimp only
  rw [if_neg (by simp), hbody]
  by_cases hE : f.type = ch 'E'
  · have h5 : f.enc.length ≥ 5 := by unfold Frame.len at hlen; omega
    rw [if_pos ⟨hE, h5⟩, if_pos hE, if_neg (fun h => hne (hE.symm.trans h))]
  · rw [if_neg (fun h => hE h.1), if_neg hE]
    by_cases hZ : f.type = ch 'Z'
    · rw [if_pos hZ, if_pos hZ, if_pos hZ]
    · rw [if_neg hZ, if_neg hZ, if_neg hZ]

theorem observe_other {st : PipelineStatus} {msg : Bytes} (h : ¬IsFrame msg) : pipelineObserveMsg st msg = (st, -1) := by
  unfold pipelineObserveMsg
  split
  · rfl
  · rename_i type total hpeek
    rw [if_pos]
    rintro rfl
    exact h ((isFrame_iff msg).2 ⟨type, hpeek⟩)

/-! ## Draining -/

theorem drainEvents_mono {fuel : ℕ} {c c' : Ctx} (h : Ctx.drainEvents fuel c = some c') (k : ℕ) :
    Ctx.drainEvents (fuel + k) c = some c' := by
  induction fuel generalizing c with
  | zero => cases h
  | succ fuel ih =>
    rw [Nat.succ_add]
    simp only [Ctx.drainEvents] at h ⊢
    cases hn : c.nextEvent with
    | none => rw [hn] at h; exact h
    | some p => rw [hn] at h; exact ih h

/-- **Draining ends**, with an empty queue and nothing else changed but the arena's fill mark. -/
theorem drainEvents_all {c : Ctx} (hok : c.Ok) (hw : c.Waits) :
    ∃ fuel c', Ctx.drainEvents fuel c = some c' ∧ c'.Ok ∧ c'.events.count = 0 ∧
      c' = { c with events := c'.events, rowArenaUsed := c'.rowArenaUsed } := by
  -- the measure is the number of queued events
  induction hn : c.events.count generalizing c with
  | zero =>
    have hnone : c.nextEvent = none := by
      unfold Ctx.nextEvent Ctx.dequeueEvent
      rw [RingBuf.dequeue_none.2 hn]
    exact ⟨1, c, by simp only [Ctx.drainEvents, hnone], hok, hn, rfl⟩
  | succ n ih =>
    obtain ⟨q, c₁, hnext⟩ := nextEvent_isSome (c := c) (by omega)
    obtain ⟨hok₁, hw₁⟩ := step_ok (.next hnext) hok hw
    obtain ⟨-, -, -, hcount, -⟩ := nextEvent_cases hok hnext
    obtain ⟨hframe, -⟩ := nextEvent_frame hnext
    obtain ⟨fuel, c', hdrain, hok', h0, hsame⟩ := ih hok₁ hw₁ (by omega)
    refine ⟨fuel + 1, c', by simp only [Ctx.drainEvents, hnext]; exact hdrain, hok', h0, ?_⟩
    rw [hsame, hframe]

theorem feedInput_mono {fuel n : ℕ} {c c' : Ctx} {data : Bytes} (h : c.feedInput fuel data = some (c', n)) {k : ℕ} :
    c.feedInput (fuel + k) data = some (c', n) := by
  unfold Ctx.feedInput at h ⊢
  cases ha : c.acceptInput data with
  | none => rw [ha] at h; exact h
  | some c₁ =>
    rw [ha] at h
    dsimp only at h ⊢
    obtain ⟨d, hd, hr⟩ := Option.map_eq_some_iff.1 h
    rw [feedLoop_mono hd k, Option.map_some, hr]

theorem pipelineFeed_mono {fuel : ℕ} {c : Ctx} {st : PipelineStatus} {msg : Bytes} {res : Ctx × PipelineStatus × ℤ}
    (h : Ctx.pipelineFeedBackendMsg fuel c st msg = some res) (k : ℕ) :
    Ctx.pipelineFeedBackendMsg (fuel + k) c st msg = some res := by
  unfold Ctx.pipelineFeedBackendMsg at h ⊢
  split at h
  · rename_i h0
    rw [if_pos h0]
    exact h
  · rename_i h0
    rw [if_neg h0]
    cases hobs : pipelineObserveMsg st msg with
    | mk st' rfq =>
      rw [hobs] at h
      dsimp only at h ⊢
      split at h
      · rename_i hr
        rw [if_pos hr]
        exact h
      · rename_i hr
        rw [if_neg hr]
        simp only [Option.bind_eq_bind, Option.bind_eq_some_iff] at h ⊢
        obtain ⟨⟨c₁, n⟩, hfeed, c₂, hdrain, hres⟩ := h
        exact ⟨⟨c₁, n⟩, feedInput_mono hfeed, c₂, drainEvents_mono hdrain k, hres⟩

/-! ## One message -/

/-- A client between calls: its input buffer and its queue are empty. -/
structure Ctx.Idle (c : Ctx) : Prop where
  ok : c.Ok
  role : c.role = .client
  allocs : c.allocs = []
  input : c.inputLen = 0
  queue : c.events.count = 0

/-- What a frame adds to the history, as far as the status is concerned. -/
structure Emits (f : Frame) (l : List Queued) : Prop where
  error : lastOf (fun q : Queued => q.ev.error) l = if f.type = ch 'E' then some (parseErrorFields f.body) else none
  ready : (∃ q ∈ l, q.ev = .readyForQuery) ↔ f.type = ch 'Z'

theorem Emits.none {f : Frame} (hE : f.type ≠ ch 'E') (hZ : f.type ≠ ch 'Z') : Emits f [] :=
  ⟨by rw [if_neg hE]; rfl, by simp [hZ]⟩

theorem Emits.other {f : Frame} {q : Queued} (hE : f.type ≠ ch 'E') (hZ : f.type ≠ ch 'Z') (he : q.ev.error = .none)
    (hr : q.ev ≠ .readyForQuery) : Emits f [q] := by
  refine ⟨?_, ?_⟩
  · rw [if_neg hE, lastOf, lastOf, he]
    rfl
  · simp [hZ, hr]

theorem plainEvent_error {type : UInt8} {base : ℕ} {body : Bytes} {ev : Event}
    (h : plainEvent .client type base body = some ev) :
    ev.error = if type = ch 'E' then some (parseErrorFields body) else none := by
  rcases plainEvent_some h with ⟨-, hr, -⟩ | ⟨t, -, rfl, hp⟩
  · cases hr
  · cases t with
    | notification =>
      obtain ⟨m, -, rfl⟩ := Option.map_eq_some_iff.1 hp
      rfl
    | _ => cases hp <;> rfl

/-- **What the client emits for a frame.** -/
theorem handleFrame_emits {c : Ctx} (hr : c.role = .client) (f : Frame) :
    ∃ l, (c.handleFrame f).log = c.log ++ l ∧ Emits f l := by
  have key : ∃ l, (handleMessage c f.type 5 f.body).log = c.log ++ l ∧ Emits f l := by
    have h := handleMessage_handling c f.type 5 f.body
    generalize handleMessage c f.type 5 f.body = c' at h ⊢
    have hZ : f.type ∉ stateful c.role → f.type ≠ ch 'Z' := by
      rw [hr]
      rintro hs ht
      exact hs (by rw [ht]; decide)
    cases h with
    | ignored hs hp =>
      refine ⟨[], (List.append_nil _).symm, .none ?_ (hZ hs)⟩
      intro hE
      rw [hr, hE] at hp
      cases hp
    | event hs hp =>
      rw [hr] at hp
      refine ⟨[_], rfl, ?_, ?_⟩
      · rw [← plainEvent_error hp, lastOf, lastOf]
        cases Event.error _ <;> rfl
      · simp [hZ hs, (plainEvent_ne hp).2.1]
    | query hs => exact absurd (hr.symm.trans hs) (by decide)
    | authentication _ ht =>
      exact ⟨[], (List.append_nil _).symm, .none (by rw [ht]; decide) (by rw [ht]; decide)⟩
    | ready _ ht =>
      refine ⟨[_], rfl, ?_, ?_⟩
      · rw [if_neg (by rw [ht]; decide)]; rfl
      · simp [ht]
    | rowDescription _ ht =>
      unfold parseRowDescription
      split
      · exact ⟨[], (List.append_nil _).symm, .none (by rw [ht]; decide) (by rw [ht]; decide)⟩
      · exact ⟨[_], rfl, .other (by rw [ht]; decide) (by rw [ht]; decide) rfl (by simp)⟩
    | dataRow _ ht =>
      unfold parseDataRow
      split
      · exact ⟨[], (List.append_nil _).symm, .none (by rw [ht]; decide) (by rw [ht]; decide)⟩
      · exact ⟨[_], rfl, .other (by rw [ht]; decide) (by rw [ht]; decide) rfl (by simp)⟩
    | authenticated _ ht => exact ⟨[_], rfl, .other (by rw [ht]; decide) (by rw [ht]; decide) rfl (by simp)⟩
    | complete _ ht => exact ⟨[_], rfl, .other (by rw [ht]; decide) (by rw [ht]; decide) rfl (by simp)⟩
  exact key

/-- **A call on a frame** feeds it, drains its event and updates the status. -/
theorem feedsBackend_frame {c : Ctx} (st : PipelineStatus) {f : Frame} (h : c.Idle) (hf : f.Fits c) :
    ∃ c' l, FeedsBackend c st f.enc c' (st.after f) 0 ∧ c'.Idle ∧ c'.maxMessageSize = c.maxMessageSize ∧
      c'.log = c.log ++ l ∧ Emits f l ∧ (f.type = ch 'Z' → currentState c' = .ready) := by
  have haw : c.awaitsStartup = false := awaits_of_client h.role
  have hres : c.resid = [] := by unfold Ctx.resid; rw [h.input, List.take_zero]
  obtain ⟨c₁, hacc, hok₁, hcore₁, hres₁⟩ := acceptInput_core h.ok h.allocs f.enc
  rw [hres, List.nil_append] at hres₁
  obtain ⟨haw₁, hrole₁, hmax₁, hlog₁, -⟩ := acceptInput_same hacc
  obtain ⟨-, -, hal₁, -⟩ := core_fields hcore₁
  -- the loop handles the frame and stops behind it
  have hfits : ∀ g ∈ [f], g.Fits c := fun g hg => by rw [List.mem_singleton.1 hg]; exact hf
  have hfeeds : Feeds c f.enc (c₁.handleFrame f) :=
    feeds_frames h.ok haw hacc hfits (by rw [hres]; exact (List.append_nil _).symm)
  obtain ⟨-, hok₂, hres₂⟩ := feedStep_frames hok₁ (haw₁.trans haw) (hf.trans (le_of_eq hmax₁.symm))
    (hres₁.trans (List.append_nil _).symm)
  obtain ⟨-, hmax₂, hrole₂, hal₂, -⟩ := handleFrame_same c₁ f
  obtain ⟨l, hl, hem⟩ := handleFrame_emits (hrole₁.trans h.role) f
  set c₂ := c₁.handleFrame f
  have hlen₂ : c₂.inputLen = 0 := by rw [← resid_length hok₂, hres₂]; rfl
  obtain ⟨fuel₁, hfeed⟩ := feeds_feedInput hfeeds
  obtain ⟨fuel₂, c₃, hdrain, hok₃, hcount₃, hsame₃⟩ := drainEvents_all hok₂ (waits_of_empty hlen₂)
  have hcall : ∀ r : ℤ, pipelineObserveMsg st f.enc = (st.after f, r) → 0 ≤ r →
      FeedsBackend c st f.enc (if r = 1 then noteReady c₃ else c₃) (st.after f) 0 := by
    intro r hobs hr
    refine ⟨fuel₁ + fuel₂, ?_⟩
    unfold Ctx.pipelineFeedBackendMsg
    rw [if_neg (by rw [f.enc_length]; omega), hobs]
    dsimp only
    rw [if_neg (by omega), feedInput_mono hfeed]
    change (do
      let c ← Ctx.drainEvents (fuel₁ + fuel₂) c₂
      return ((if r = 1 then noteReady c else c), st.after f, (0 : ℤ))) = _
    rw [Nat.add_comm, drainEvents_mono hdrain]
    rfl
  have hidle : c₃.Idle := by
    refine ⟨hok₃, ?_, ?_, ?_, hcount₃⟩
    · rw [hsame₃]; exact hrole₂.trans (hrole₁.trans h.role)
    · rw [hsame₃]; exact hal₂.trans (hal₁.trans h.allocs)
    · rw [hsame₃]; exact hlen₂
  have hmax₃ : c₃.maxMessageSize = c.maxMessageSize := by rw [hsame₃]; exact hmax₂.trans hmax₁
  have hlog₃ : c₃.log = c.log ++ l := by rw [hsame₃, ← hlog₁]; exact hl
  by_cases hZ : f.type = ch 'Z'
  · refine ⟨noteReady c₃, l, ?_, ?_, hmax₃, hlog₃, hem, fun _ => rfl⟩
    · have := hcall 1 (by rw [observe_frame, if_pos hZ]) (by decide)
      rwa [if_pos rfl] at this
    · exact ⟨⟨hok₃.ring, hok₃.queue, hok₃.input, hok₃.cols, hok₃.names, hok₃.arena, hok₃.arenaSize⟩, hidle.role,
        hidle.allocs, hidle.input, hidle.queue⟩
  · refine ⟨c₃, l, ?_, hidle, hmax₃, hlog₃, hem, fun h => absurd h hZ⟩
    have := hcall 0 (by rw [observe_frame, if_neg hZ]) le_rfl
    rwa [if_neg (by decide)] at this

/-- A call on anything else changes nothing. -/
theorem feedsBackend_other (c : Ctx) (st : PipelineStatus) {msg : Bytes} (h : ¬IsFrame msg) :
    FeedsBackend c st msg c st (-1) := by
  refine ⟨0, ?_⟩
  unfold Ctx.pipelineFeedBackendMsg
  split
  · rfl
  · rw [observe_other h]
    rfl

/-- A call has one outcome. -/
theorem FeedsBackend.unique {c c₁ c₂ : Ctx} {st st₁ st₂ : PipelineStatus} {msg : Bytes} {r₁ r₂ : ℤ}
    (h₁ : FeedsBackend c st msg c₁ st₁ r₁) (h₂ : FeedsBackend c st msg c₂ st₂ r₂) :
    c₁ = c₂ ∧ st₁ = st₂ ∧ r₁ = r₂ := by
  obtain ⟨m, h₁⟩ := h₁
  obtain ⟨n, h₂⟩ := h₂
  have e₁ := pipelineFeed_mono h₁ n
  have e₂ := pipelineFeed_mono h₂ m
  rw [Nat.add_comm n m, e₁] at e₂
  simpa using e₂

/-! ## Runs -/

theorem error_isSome {l : List Queued} :
    (∃ q ∈ l, ∃ err, q.ev = .errorResponse err) ↔ (lastOf (fun q : Queued => q.ev.error) l).isSome = true := by
  have herr : ∀ ev : Event, (∃ err, ev = .errorResponse err) ↔ ev.error ≠ .none := by
    intro ev
    cases ev <;> simp [Event.error]
  rw [← not_iff_not, Option.not_isSome_iff_eq_none, lastOf_eq_none]
  simp only [not_exists, not_and]
  refine forall₂_congr ?_
  intro q _
  rw [← not_exists, herr, not_not]

theorem shows_init : pipelineStatusInit.Shows 0 [] :=
  ⟨rfl, by simp [pipelineStatusInit], rfl, rfl, by simp [pipelineStatusInit]⟩

/-- A frame and what it makes the client emit. -/
theorem PipelineStatus.Shows.frame {st : PipelineStatus} {n : ℕ} {l l' : List Queued} {f : Frame} (h : st.Shows n l)
    (he : Emits f l') : (st.after f).Shows (n + 1) (l ++ l') := by
  have hcount : st.nMsgs + 1 = Int32.ofNat (n + 1) := by
    rw [h.wrapped]
    exact (Int32.ofNat_add n 1).symm
  have hready : (∃ q ∈ l ++ l', q.ev = .readyForQuery) ↔ st.sawRfq = true ∨ f.type = ch 'Z' := by
    rw [h.ready, ← he.ready]
    constructor
    · rintro ⟨q, hq, hev⟩
      rcases List.mem_append.1 hq with hq | hq
      · exact Or.inl ⟨q, hq, hev⟩
      · exact Or.inr ⟨q, hq, hev⟩
    · rintro (⟨q, hq, hev⟩ | ⟨q, hq, hev⟩)
      · exact ⟨q, List.mem_append_left _ hq, hev⟩
      · exact ⟨q, List.mem_append_right _ hq, hev⟩
  have hlast : lastOf (fun q : Queued => q.ev.error) (l ++ l') =
      if f.type = ch 'E' then some (parseErrorFields f.body) else lastOf (fun q : Queued => q.ev.error) l := by
    rw [lastOf_append, he.error]
    split
    · rfl
    · rfl
  have herror := h.error
  rw [error_isSome] at herror
  unfold PipelineStatus.after
  split
  · rename_i hE
    have hZ : f.type ≠ ch 'Z' := by rw [hE]; decide
    refine ⟨hcount, ?_, ?_, h.complete, ?_⟩
    · rw [error_isSome, hlast, if_pos hE]
      simp
    · rw [hlast, if_pos hE]
      rfl
    · rw [hready]
      simp [hZ]
  · rename_i hE
    rw [if_neg hE] at hlast
    split
    · rename_i hZ
      refine ⟨hcount, ?_, ?_, rfl, ?_⟩
      · rw [error_isSome, hlast]; exact herror
      · rw [hlast]; exact h.last
      · rw [hready]
        simp [hZ]
    · rename_i hZ
      refine ⟨hcount, ?_, ?_, h.complete, ?_⟩
      · rw [error_isSome, hlast]; exact herror
      · rw [hlast]; exact h.last
      · rw [hready]
        simp [hZ]

theorem PipelineRun.unique {c c₁ c₂ : Ctx} {st st₁ st₂ : PipelineStatus} {msgs : List Bytes}
    (h₁ : PipelineRun c st msgs c₁ st₁) (h₂ : PipelineRun c st msgs c₂ st₂) : c₁ = c₂ ∧ st₁ = st₂ := by
  induction h₁ generalizing c₂ st₂ with
  | nil =>
    generalize hm : ([] : List Bytes) = msgs at h₂
    cases h₂ with
    | nil => exact ⟨rfl, rfl⟩
    | concat => simp at hm
  | @concat msgs msg d d' s s' r _ hf ih =>
    generalize hm : msgs ++ [msg] = msgs' at h₂
    cases h₂ with
    | nil => simp at hm
    | concat hrun hf' =>
      obtain ⟨rfl, he⟩ := List.append_inj' hm rfl
      cases he
      obtain ⟨rfl, rfl⟩ := ih hrun
      obtain ⟨h1, h2, -⟩ := hf.unique hf'
      exact ⟨h1, h2⟩

/-- The run over any byte strings, by induction from the last one. -/
theorem pipelineRun_shows {c : Ctx} (h : c.Idle) (msgs : List Bytes) (hm : ∀ m ∈ msgs, m.length ≤ c.maxMessageSize) :
    ∃ c' st l, PipelineRun c pipelineStatusInit msgs c' st ∧ c'.Idle ∧ c'.maxMessageSize = c.maxMessageSize ∧
      c'.log = c.log ++ l ∧ st.Shows (msgs.countP IsFrame) l := by
  induction msgs using List.reverseRecOn with
  | nil => exact ⟨c, _, [], .nil, h, rfl, (List.append_nil _).symm, shows_init⟩
  | append_singleton msgs msg ih =>
    obtain ⟨c₁, st, l, hrun, hidle, hmax, hlog, hshow⟩ := ih fun m hmem => hm m (List.mem_append_left _ hmem)
    rw [List.countP_append]
    by_cases hf : IsFrame msg
    · obtain ⟨f, rfl⟩ := hf
      have hlen := hm f.enc (by simp)
      have hfits : f.Fits c₁ := by
        unfold Frame.Fits
        rw [f.enc_length] at hlen
        omega
      obtain ⟨c₂, l', hfeed, hidle₂, hmax₂, hlog₂, hem, -⟩ := feedsBackend_frame st hidle hfits
      refine ⟨c₂, _, l ++ l', .concat hrun hfeed, hidle₂, hmax₂.trans hmax, ?_, ?_⟩
      · rw [hlog₂, hlog, List.append_assoc]
      · have hone : [f.enc].countP IsFrame = 1 := by simp [IsFrame]
        rw [hone]
        exact hshow.frame hem
    · refine ⟨c₁, st, l, .concat hrun (feedsBackend_other c₁ st hf), hidle, hmax, hlog, ?_⟩
      have hzero : [msg].countP IsFrame = 0 := by simp [hf]
      rw [hzero]
      exact hshow

/-- An `int` holds the number below 2^31 only. -/
theorem Int32.toInt_ofNat_iff (n : ℕ) : (Int32.ofNat n).toInt = n ↔ n < 2 ^ 31 := by
  constructor
  · intro h
    have hlt := (Int32.ofNat n).toInt_lt
    rw [h] at hlt
    omega
  · intro h
    exact Int32.toInt_ofNat_of_lt h

theorem PipelineStatus.Shows.mirrors_iff {st : PipelineStatus} {n : ℕ} {l : List Queued} (h : st.Shows n l) :
    st.Mirrors n l ↔ n < 2 ^ 31 := by
  rw [← Int32.toInt_ofNat_iff, ← h.wrapped]
  exact ⟨fun hm => hm.count, fun hc => ⟨h, hc⟩⟩

/-- **When the recovery status simulates the client.** Whatever byte strings are passed, the
calls return and leave the input buffer and the queue empty. A string that is not one frame is
refused and changes nothing; after a ReadyForQuery the client is READY. The status says what
the frames have made the client emit, and how many they were as long as an `int` can. -/
theorem pipeline_simulates_iff {c : Ctx} (hc : Reachable c) (hrole : c.role = .client) (hin : c.inputLen = 0)
    (hq : c.events.count = 0) (ha : c.allocs = []) (msgs : List Bytes)
    (hm : ∀ m ∈ msgs, m.length ≤ c.maxMessageSize) :
    ∃ c' st l, PipelineRun c pipelineStatusInit msgs c' st ∧
      (∀ c'' st', PipelineRun c pipelineStatusInit msgs c'' st' → c'' = c' ∧ st' = st) ∧
      c'.inputLen = 0 ∧ c'.events.count = 0 ∧ c'.log = c.log ++ l ∧ st.Shows (msgs.countP IsFrame) l ∧
      (st.Mirrors (msgs.countP IsFrame) l ↔ msgs.countP IsFrame < 2 ^ 31) ∧
      ∀ msg : Bytes, msg.length ≤ c.maxMessageSize →
        (¬IsFrame msg → FeedsBackend c' st msg c' st (-1)) ∧
        ∀ f : Frame, msg = f.enc → ∃ c'' st', FeedsBackend c' st msg c'' st' 0 ∧
          (f.type = ch 'Z' → currentState c'' = .ready) := by
  obtain ⟨c', st, l, hrun, hidle, hmax, hlog, hshow⟩ :=
    pipelineRun_shows ⟨(reachable_ok hc).1, hrole, ha, hin, hq⟩ msgs hm
  refine ⟨c', st, l, hrun, fun c'' st' h => h.unique hrun, hidle.input, hidle.queue, hlog, hshow, hshow.mirrors_iff,
    fun msg hlen => ?_⟩
  refine ⟨feedsBackend_other c' st, ?_⟩
  rintro f rfl
  have hfits : f.Fits c' := by
    unfold Frame.Fits
    rw [f.enc_length] at hlen
    omega
  obtain ⟨c'', -, hfeed, -, -, -, -, hZ⟩ := feedsBackend_frame st hidle hfits
  exact ⟨c'', _, hfeed, hZ⟩

/-- An ErrorResponse without fields, two stray bytes and ReadyForQuery. -/
theorem pipeline_simulates_error :
    ∃ c' st l, PipelineRun tinyClient pipelineStatusInit [[69, 0, 0, 0, 5, 0], [1, 2], [90, 0, 0, 0, 5, 73]] c' st ∧
      c'.log = tinyClient.log ++ l ∧ st.Mirrors 2 l := by
  obtain ⟨c', st, l, hrun, -, -, -, hlog, -, hiff, -⟩ := pipeline_simulates_iff tinyClient_reachable rfl rfl rfl rfl
    [[69, 0, 0, 0, 5, 0], [1, 2], [90, 0, 0, 0, 5, 73]] (by decide)
  exact ⟨c', st, l, hrun, hlog, hiff.2 (by decide)⟩

/-- ReadyForQuery, `n` times. -/
theorem countP_ready (n : ℕ) : (List.replicate n ([90, 0, 0, 0, 5, 73] : Bytes)).countP IsFrame = n := by
  rw [List.countP_replicate, if_pos (by decide)]

/-- **The counter overflows.** After 2^31 ReadyForQuery messages, all of them accepted, `n_msgs` is -2^31. -/
theorem pipeline_count_wraps :
    ∃ c' st l, PipelineRun tinyClient pipelineStatusInit (List.replicate (2 ^ 31) [90, 0, 0, 0, 5, 73]) c' st ∧
      (List.replicate (2 ^ 31) ([90, 0, 0, 0, 5, 73] : Bytes)).countP IsFrame = 2 ^ 31 ∧
      c'.log = tinyClient.log ++ l ∧ st.nMsgs.toInt = -2 ^ 31 ∧ ¬st.Mirrors (2 ^ 31) l := by
  have hsize : ∀ m ∈ List.replicate (2 ^ 31) ([90, 0, 0, 0, 5, 73] : Bytes), m.length ≤ tinyClient.maxMessageSize := by
    intro m hm
    rw [List.eq_of_mem_replicate hm]
    decide
  obtain ⟨c', st, l, hrun, -, -, hlog, hshow⟩ :=
    pipelineRun_shows ⟨(reachable_ok tinyClient_reachable).1, rfl, rfl, rfl, rfl⟩ _ hsize
  rw [countP_ready] at hshow
  refine ⟨c', st, l, hrun, countP_ready _, hlog, ?_, ?_⟩
  · rw [hshow.wrapped]
    decide
  · rw [hshow.mirrors_iff]
    exact lt_irrefl _

end Pqwire

import Pqwire.Proof.Chunk
import Pqwire.Proof.Frames
import Pqwire.Spec.Trace

/-!
# Recovery from an oversized frame

A frame whose length field is out of range is skipped only when all of it is buffered; else
what is buffered of it is dropped and the rest of it is read as messages.

* `loopActs_frames`, `feedsActs_frames`: on a stream of frames, the loop acts on each of
  them at its place, however the stream is cut.
* `reject_recovers_iff`: when a stream that begins with an oversized frame is read as it
  should be.
-/

namespace Pqwire

open ByteMem

/-! ## Located runs -/

theorem LoopActs.loops {c c' : Ctx} {pos pos' : ℕ} {acts : List Act} (h : LoopActs c pos acts c' pos') : Loops c c' := by
  induction h with
  | stop _ hs => exact .stop hs
  | again _ hs _ ih => exact .again hs ih

theorem FeedsActs.feedsAll {c c' : Ctx} {pos pos' : ℕ} {ds : List Bytes} {acts : List Act}
    (h : FeedsActs c pos ds acts c' pos') : FeedsAll c ds c' := by
  induction h with
  | nil c => exact .nil c
  | cons ha hl _ ih => exact .cons ⟨_, ha, hl.loops⟩ ih

theorem LoopActs.unique {c c₁ c₂ : Ctx} {pos p₁ p₂ : ℕ} {a₁ a₂ : List Act} (h₁ : LoopActs c pos a₁ c₁ p₁)
    (h₂ : LoopActs c pos a₂ c₂ p₂) : a₁ = a₂ ∧ c₁ = c₂ ∧ p₁ = p₂ := by
  induction h₁ generalizing a₂ with
  | stop _ hs =>
    cases h₂ with
    | stop _ hs' => rw [hs] at hs'; cases hs'; exact ⟨rfl, rfl, rfl⟩
    | again _ hs' _ => rw [hs] at hs'; cases hs'
  | again _ hs _ ih =>
    cases h₂ with
    | stop _ hs' => rw [hs] at hs'; cases hs'
    | again _ hs' hl =>
      rw [hs] at hs'
      cases hs'
      obtain ⟨rfl, rfl, rfl⟩ := ih hl
      exact ⟨rfl, rfl, rfl⟩

theorem badLen_iff (c : Ctx) : c.badLen ↔ c.typedLen < 4 ∨ c.maxMessageSize < c.typedLen := Iff.rfl

theorem taken_message {c : Ctx} (h : ¬c.badLen) : c.taken = 1 + c.typedLen := by
  unfold Ctx.taken
  rw [if_neg (fun hh => h hh.1)]
  rfl

theorem act_message {c : Ctx} (h : ¬c.badLen) (pos : ℕ) : c.act pos = .message pos := if_neg h

theorem act_rejected {c : Ctx} (h : c.badLen) (pos : ℕ) : c.act pos = .rejected pos := if_pos h

/-! ## Streams of frames -/

theorem messageActs_append (pos : ℕ) (fs gs : List Frame) :
    messageActs pos (fs ++ gs) = messageActs pos fs ++ messageActs (pos + (Frame.encAll fs).length) gs := by
  induction fs generalizing pos with
  | nil => rfl
  | cons f fs ih =>
    rw [List.cons_append, messageActs, ih, messageActs, Frame.encAll_cons, List.length_append, Nat.add_assoc]
    rfl

/-- What receiving messages keeps. -/
theorem receiveAll_same (c : Ctx) (fs : List Frame) :
    (c.receiveAll fs).awaitsStartup = c.awaitsStartup ∧ (c.receiveAll fs).maxMessageSize = c.maxMessageSize ∧
      (c.receiveAll fs).allocs = c.allocs := by
  induction fs generalizing c with
  | nil => exact ⟨rfl, rfl, rfl⟩
  | cons f fs ih =>
    have hh := handleMessage_handled (c.load f.enc) f.type 5 f.body
    obtain ⟨h1, h2, h3⟩ := ih (c.receive f)
    exact ⟨h1.trans (handleMessage_awaits (c.load f.enc) f.type 5 f.body), h2.trans hh.max, h3.trans hh.allocs⟩

/-- A frame is handled at the front of a stream as it is on its own. -/
theorem handleFrame_core {c : Ctx} {f : Frame} {rest : Bytes} (h : c.Ok) (hr : c.resid = f.enc ++ rest) :
    (c.handleFrame f).core = c.core.receive f := by
  have hagree : AgreeAt 5 f.body.length f.enc c.inputBuf := by
    intro p k hp hk
    refine (slice_of_resid h hr ?_).symm
    rw [f.enc_length]
    unfold Frame.len
    omega
  have hset : handleMessage (c.setInput f.enc f.enc.length 0) f.type 5 f.body =
      (handleMessage c f.type 5 f.body).setInput f.enc f.enc.length 0 := handleMessage_setInput f.type hagree
  exact (congrArg Ctx.core hset).symm

/-- The length field of the frame at the front, once its header is there. -/
theorem header_front {c : Ctx} {f : Frame} {t u : Bytes} (h : c.Ok) (h5 : 5 ≤ c.inputLen)
    (hr : c.resid ++ t = f.enc ++ u) : c.typedLen = f.len := by
  have hlen := resid_length h
  have h1 : rd32Be c.resid 1 = c.typedLen := rd32Be_take (p := c.inputBuf) (by omega)
  have h2 : rd32Be (c.resid ++ t) 1 = rd32Be c.resid 1 := rd32Be_append_left t (by omega)
  rw [← h1, ← h2, hr, f.rd32Be_enc]

theorem append_split {α : Type*} {b t f u : List α} (h : b ++ t = f ++ u) (hl : f.length ≤ b.length) :
    ∃ rest, b = f ++ rest := by
  have hb : b <+: f ++ u := by
    rw [← h]
    exact List.prefix_append b t
  obtain ⟨rest, hrest⟩ := List.prefix_of_prefix_length_le (List.prefix_append f u) hb hl
  exact ⟨rest, hrest.symm⟩

/-- **The loop acts on the frames that are complete**, each at its place, and waits inside the
first one that is not. -/
theorem loopActs_frames {G : List Frame} {c : Ctx} {t : Bytes} (h : c.Ok) (hs : c.awaitsStartup = false)
    (hf : ∀ g ∈ G, g.Fits c) (hr : c.resid ++ t = Frame.encAll G) (pos : ℕ) :
    ∃ G₁ G₂ c', G = G₁ ++ G₂ ∧ LoopActs c pos (messageActs pos G₁) c' (pos + (Frame.encAll G₁).length) ∧ c'.Ok ∧
      c'.core = c.core.receiveAll G₁ ∧ c'.resid ++ t = Frame.encAll G₂ ∧
      ∀ g G₃, G₂ = g :: G₃ → c'.resid.length < g.enc.length := by
  have hlen := resid_length h
  induction G generalizing c pos with
  | nil =>
    have hnil : c.resid = [] := (List.append_eq_nil_iff.1 hr).1
    rw [hnil] at hlen
    refine ⟨[], [], c, rfl, .stop hs (feedStep_eq (.wait (waits_of_empty hlen.symm))), h, rfl, hr, ?_⟩
    intro g G₃ he
    cases he
  | cons g G ih =>
    rw [Frame.encAll_cons] at hr
    by_cases hg : g.enc.length ≤ c.resid.length
    · -- the frame is complete
      obtain ⟨rest, hrest⟩ := append_split hr hg
      have hfit := hf g (List.mem_cons_self ..)
      obtain ⟨hstep, hok, hres⟩ := feedStep_frames h hs hfit hrest
      obtain ⟨haw, hmax, -⟩ := handleFrame_same c g
      obtain ⟨-, hl, -, -⟩ := frame_front h hrest
      rw [hrest, List.append_assoc, List.append_cancel_left_eq, ← hres] at hr
      obtain ⟨G₁, G₂, c', h1, h2, h3, h4, h5, h6⟩ := ih hok (haw.trans hs) (fun f hm => by
        unfold Frame.Fits
        rw [hmax]
        exact hf f (List.mem_cons_of_mem _ hm)) hr (pos + g.enc.length) (resid_length hok)
      have hgood : ¬c.badLen := by
        rw [badLen_iff, hl]
        have : g.len ≤ c.maxMessageSize := hfit
        have : 4 ≤ g.len := Nat.le_add_left _ _
        omega
      have htaken : c.taken = g.enc.length := by rw [taken_message hgood, hl, g.enc_length, Nat.add_comm]
      rw [← htaken] at h2
      have hacts := LoopActs.again hs hstep h2
      rw [act_message hgood, htaken, Nat.add_assoc, ← List.length_append] at hacts
      refine ⟨g :: G₁, G₂, c', by rw [h1]; rfl, hacts, h3, ?_, h5, h6⟩
      rw [h4, handleFrame_core h hrest]
      rfl
    · refine ⟨[], g :: G, c, rfl, .stop hs (feedStep_eq (.wait ?_)), h, rfl, hr, ?_⟩
      · unfold Ctx.Waits
        rw [if_neg (by simp [hs])]
        by_cases h5 : c.inputLen < 5
        · exact Or.inl h5
        · have hl := header_front h (by omega) hr
          have hfit : g.len ≤ c.maxMessageSize := hf g (List.mem_cons_self ..)
          have h4 : 4 ≤ g.len := Nat.le_add_left _ _
          rw [g.enc_length, hlen] at hg
          exact Or.inr ⟨by omega, by omega, by omega⟩
      · intro g' G₃ he
        cases he
        omega

/-- **On a stream of frames every frame is acted on at its place, however the stream is cut.** -/
theorem feedsActs_frames {ds : List Bytes} {G : List Frame} {c : Ctx} (h : c.Ok) (hs : c.awaitsStartup = false)
    (ha : c.allocs = []) (hf : ∀ g ∈ G, g.Fits c) (hr : c.resid ++ ds.flatten = Frame.encAll G) (pos : ℕ) :
    ∃ a₁ c₁ p₁ a₂ c' p', LoopActs c pos a₁ c₁ p₁ ∧ FeedsActs c₁ p₁ ds a₂ c' p' ∧
      a₁ ++ a₂ = messageActs pos G ∧ c'.resid = [] ∧ c'.Ok ∧ c'.core = c.core.receiveAll G := by
  induction ds generalizing G c pos with
  | nil =>
    obtain ⟨G₁, G₂, c', rfl, h2, h3, h4, h5, h6⟩ := loopActs_frames h hs hf hr pos
    rw [List.flatten_nil, List.append_nil] at h5
    cases G₂ with
    | nil =>
      refine ⟨_, c', _, [], c', _, h2, .nil _ _, ?_, h5, h3, by rw [List.append_nil]; exact h4⟩
      rw [List.append_nil, List.append_nil]
    | cons g G₂ =>
      have := h6 g G₂ rfl
      rw [h5, Frame.encAll_cons, List.length_append] at this
      omega
  | cons d ds ih =>
    obtain ⟨G₁, G₂, c₁, rfl, h2, h3, h4, h5, -⟩ := loopActs_frames h hs hf hr pos
    obtain ⟨haw, hmax, hal⟩ := receiveAll_same c.core G₁
    rw [← h4] at haw hmax hal
    obtain ⟨c₂, hacc, hok₂, hcore₂, hres₂⟩ := acceptInput_core h3 (hal.trans ha) d
    obtain ⟨haw₂, -, hmax₂, -⟩ := acceptInput_same hacc
    have hal₂ : c₂.core.allocs = c₁.core.allocs := by rw [hcore₂]
    rw [List.flatten_cons, ← List.append_assoc, ← hres₂] at h5
    obtain ⟨a₁, c₃, p₁, a₂, c', p', k1, k2, k3, k4, k5, k6⟩ := ih hok₂ (haw₂.trans (haw.trans hs))
      (hal₂.trans (hal.trans ha)) (fun f hm => by
        unfold Frame.Fits
        rw [hmax₂]
        exact (hf f (List.mem_append_right _ hm)).trans (le_of_eq hmax.symm)) h5 (pos + (Frame.encAll G₁).length)
    refine ⟨_, c₁, _, _, c', p', h2, .cons hacc k1 k2, ?_, k4, k5, ?_⟩
    · rw [k3, messageActs_append]
    · rw [k6, hcore₂, h4]
      unfold Ctx.receiveAll
      rw [List.foldl_append]

/-! ## What any run does -/

theorem stop_same {c c' : Ctx} (hs : c.awaitsStartup = false) (h : c.feedStep = .stop c') : c' = c := by
  have hr := feedStep_rounds c
  rw [h] at hr
  cases hr with
  | wait => rfl
  | badStartup ha => rw [hs] at ha; cases ha

theorem acceptInput_len {c c₁ : Ctx} {d : Bytes} (h : c.acceptInput d = some c₁) :
    c₁.inputLen = c.inputLen + d.length := by
  obtain ⟨cap, allocs, rfl⟩ := acceptInput_some h
  rfl

/-- With less than a header in the buffer, the loop waits. -/
theorem loopActs_short {c : Ctx} (hs : c.awaitsStartup = false) (h5 : c.inputLen < 5) (pos : ℕ) :
    LoopActs c pos [] c pos := by
  refine .stop hs (feedStep_eq (.wait ?_))
  unfold Ctx.Waits
  rw [if_neg (by simp [hs])]
  exact Or.inl h5

/-- Calls that bring less than a header altogether wait. -/
theorem feedsActs_short {ds : List Bytes} {c : Ctx} (h : c.Ok) (hs : c.awaitsStartup = false) (ha : c.allocs = [])
    (h5 : c.inputLen + ds.flatten.length < 5) (pos : ℕ) :
    ∃ c', FeedsActs c pos ds [] c' pos ∧ c'.inputLen < 5 ∧ c'.core = c.core := by
  induction ds generalizing c with
  | nil => exact ⟨c, .nil c pos, by omega, rfl⟩
  | cons d ds ih =>
    rw [List.flatten_cons, List.length_append] at h5
    obtain ⟨c₁, hacc, hok₁, hcore₁, -⟩ := acceptInput_core h ha d
    obtain ⟨haw₁, -⟩ := acceptInput_same hacc
    have hlen₁ := acceptInput_len hacc
    have hal₁ : c₁.core.allocs = c.core.allocs := by rw [hcore₁]
    obtain ⟨c', hf, hlt, hcore⟩ := ih hok₁ (haw₁.trans hs) (hal₁.trans ha) (by omega)
    exact ⟨c', .cons hacc (loopActs_short (haw₁.trans hs) (by omega) pos) hf, hlt, hcore.trans hcore₁⟩

/-- Calls act on nothing and pile up the input, or first on the header at the front. -/
theorem FeedsActs.first {c c' : Ctx} {pos pos' : ℕ} {ds : List Bytes} {acts : List Act}
    (h : FeedsActs c pos ds acts c' pos') :
    (acts = [] ∧ c'.inputLen = c.inputLen + ds.flatten.length) ∨
      ∃ acts', acts = .message pos :: acts' ∨ acts = .rejected pos :: acts' := by
  induction h with
  | nil => exact Or.inl ⟨rfl, rfl⟩
  | @cons c c₁ c₂ c' pos pos₁ pos' d ds acts acts' ha hl _ ih =>
    cases hl with
    | stop hs hstop =>
      rw [stop_same hs hstop, acceptInput_len ha] at ih
      rw [List.nil_append, List.flatten_cons, List.length_append, ← Nat.add_assoc]
      exact ih
    | @again _ _ _ _ _ acts₁ _ _ _ =>
      refine Or.inr ⟨acts₁ ++ acts', ?_⟩
      unfold Ctx.act
      split
      · exact Or.inr rfl
      · exact Or.inl rfl

/-- **Messages are taken from the buffer as they are from the stream**, and the last of them
ends at most a message's length behind its header: `B` bounds the places of the headers. -/
theorem LoopActs.messages {c c' : Ctx} {pos pos' B : ℕ} {acts : List Act} (h : LoopActs c pos acts c' pos')
    (hm : ∀ a ∈ acts, ∃ p ≤ B, a = .message p) :
    pos' + c'.inputLen = pos + c.inputLen ∧ (pos' ≤ pos ∨ pos' ≤ B + 1 + c.maxMessageSize) ∧
      c'.maxMessageSize = c.maxMessageSize := by
  induction h with
  | stop hs hstop => rw [stop_same hs hstop]; exact ⟨rfl, Or.inl le_rfl, rfl⟩
  | @again c c₁ c' pos pos' acts hs hstep _ ih =>
    obtain ⟨p, hp, hact⟩ := hm _ (List.mem_cons_self ..)
    have hgood : ¬c.badLen := fun hb => by rw [act_rejected hb] at hact; cases hact
    rw [act_message hgood] at hact
    cases hact
    have hround := feedStep_rounds c
    rw [hstep] at hround
    cases hround with
    | startup ha => rw [hs] at ha; cases ha
    | reject _ _ hb => exact absurd hb hgood
    | message _ h4 hmax hlen =>
      have hh := handleMessage_handled c (c.inputBuf.getD 0 0) 5 (slice c.inputBuf 5 (c.typedLen - 4))
      have hl : c.afterMessage.inputLen = c.inputLen - (1 + c.typedLen) := by
        unfold Ctx.afterMessage Ctx.consume
        rw [hh.inputLen]
      have hmx : c.afterMessage.maxMessageSize = c.maxMessageSize := hh.max
      obtain ⟨h1, h2, h3⟩ := ih fun a ha => hm a (List.mem_cons_of_mem _ ha)
      rw [taken_message hgood] at h1 h2
      rw [hl] at h1
      rw [hmx] at h2 h3
      exact ⟨by omega, by omega, h3⟩

theorem FeedsActs.messages {c c' : Ctx} {pos pos' B : ℕ} {ds : List Bytes} {acts : List Act}
    (h : FeedsActs c pos ds acts c' pos') (hm : ∀ a ∈ acts, ∃ p ≤ B, a = .message p) :
    pos' + c'.inputLen = pos + c.inputLen + ds.flatten.length ∧ (pos' ≤ pos ∨ pos' ≤ B + 1 + c.maxMessageSize) := by
  induction h with
  | nil => exact ⟨rfl, Or.inl le_rfl⟩
  | @cons c c₁ c₂ c' pos pos₁ pos' d ds acts acts' ha hl _ ih =>
    obtain ⟨h1, h2, h3⟩ := hl.messages fun a hmem => hm a (List.mem_append_left _ hmem)
    obtain ⟨h4, h5⟩ := ih fun a hmem => hm a (List.mem_append_right _ hmem)
    obtain ⟨-, -, hmax, -⟩ := acceptInput_same ha
    rw [acceptInput_len ha] at h1
    rw [h3, hmax] at h5
    rw [hmax] at h2
    rw [List.flatten_cons, List.length_append]
    exact ⟨by omega, by omega⟩

theorem mem_messageActs {a : Act} {pos : ℕ} {G : List Frame} (h : a ∈ messageActs pos G) :
    ∃ p ≤ pos + (Frame.encAll G).length - 5, a = .message p := by
  induction G generalizing pos with
  | nil => cases h
  | cons g G ih =>
    have hg := g.enc_length
    have h4 : 4 ≤ g.len := Nat.le_add_left _ _
    rw [Frame.encAll_cons, List.length_append]
    rcases List.mem_cons.1 h with rfl | h
    · exact ⟨pos, by omega, rfl⟩
    · obtain ⟨p, hp, he⟩ := ih h
      exact ⟨p, by omega, he⟩

/-! ## The oversized frame -/

/-- The calls read `F` as one rejected frame and then the frames `G`: they act on the header of
`F` and on those of `G`, each at its place in the stream, and on no other; no further header is
left in the buffer; and the events are the error and then those of `G`. -/
def Recovered (c : Ctx) (F : Frame) (G : List Frame) (chunks : List Bytes) : Prop :=
  ∃ c' pos, FeedsActs c 0 chunks (.rejected 0 :: messageActs F.enc.length G) c' pos ∧ c'.inputLen < 5 ∧
    c'.log = ((c.enqueueEvent .protocolError []).receiveAll G).log

theorem receiveAll_log_core {c c₁ : Ctx} (h : c₁.core = c.core) (G : List Frame) :
    (c₁.receiveAll G).log = (c.receiveAll G).log := by
  cases G with
  | nil =>
    have hlog : c₁.core.log = c.core.log := by rw [h]
    exact hlog
  | cons g G =>
    have hg : c₁.core.receive g = c.core.receive g := by rw [h]
    exact congrArg (fun c : Ctx => (c.receiveAll G).log) hg

/-- The input behind a frame that is skipped. -/
theorem rejectFrame_skip {c : Ctx} {F : Frame} {rest : Bytes} (h : c.Ok) (hr : c.resid = F.enc ++ rest)
    (hF : F.len ≠ 2 ^ 32 - 1) : (c.rejectFrame F.len).resid = rest := by
  obtain ⟨-, -, -, hlen⟩ := frame_front h hr
  have hin := h.input
  have h4 : 4 ≤ F.len := Nat.le_add_left _ _
  have hshort : F.len < 2 ^ 32 := F.short
  have hmod : (1 + F.len) % 2 ^ 32 = 1 + F.len := Nat.mod_eq_of_lt (by omega)
  have hsub : c.inputLen - 1 - F.len = c.inputLen - (1 + F.len) := by omega
  have hcons : (c.consume (1 + F.len)).resid = c.resid.drop (1 + F.len) := consume_resid (by omega) hin
  unfold Ctx.rejectFrame
  rw [if_pos ⟨by omega, by omega⟩, hmod, hsub]
  refine hcons.trans ?_
  rw [hr, Nat.add_comm, ← F.enc_length, List.drop_left]

theorem error_core {c c₁ : Ctx} (h : c₁.core = c.core) :
    (c₁.enqueueEvent .protocolError []).core = (c.enqueueEvent .protocolError []).core :=
  congrArg (fun c : Ctx => c.enqueueEvent .protocolError []) h

/-- `Recovered`, seen from inside a call: the loop has just been entered. -/
def Recovers (c : Ctx) (F : Frame) (G : List Frame) (ds : List Bytes) : Prop :=
  ∃ a₁ c₁ p₁ a₂ c' pos, LoopActs c 0 a₁ c₁ p₁ ∧ FeedsActs c₁ p₁ ds a₂ c' pos ∧
    a₁ ++ a₂ = .rejected 0 :: messageActs F.enc.length G ∧ c'.inputLen < 5 ∧
    c'.log = ((c.enqueueEvent .protocolError []).receiveAll G).log

theorem recovered_cons_iff {c c₁ : Ctx} {F : Frame} {G : List Frame} {d : Bytes} {ds : List Bytes}
    (ha : c.acceptInput d = some c₁) (hc : c₁.core = c.core) : Recovered c F G (d :: ds) ↔ Recovers c₁ F G ds := by
  have hlog : ((c₁.enqueueEvent .protocolError []).receiveAll G).log =
      ((c.enqueueEvent .protocolError []).receiveAll G).log :=
    receiveAll_log_core (error_core hc) G
  unfold Recovered Recovers
  rw [hlog]
  constructor
  · rintro ⟨c', pos, hf, hrest⟩
    generalize Act.rejected 0 :: messageActs F.enc.length G = acts at hf ⊢
    cases hf with
    | cons ha' hl hf =>
      rw [ha] at ha'
      cases ha'
      exact ⟨_, _, _, _, c', pos, hl, hf, rfl, hrest⟩
  · rintro ⟨a₁, c₂, p₁, a₂, c', pos, hl, hf, hacts, hrest⟩
    refine ⟨c', pos, ?_, hrest⟩
    rw [← hacts]
    exact .cons ha hl hf

section

variable {F : Frame} {G : List Frame} {ds : List Bytes} {c : Ctx} (h : c.Ok) (hs : c.awaitsStartup = false)
  (h5 : 5 ≤ c.inputLen) (hF : c.maxMessageSize < F.len) (hr : c.resid ++ ds.flatten = F.enc ++ Frame.encAll G)

include h hs h5 hF hr

/-- The round on the oversized frame. -/
theorem reject_round : c.badLen ∧ c.feedStep = .again (c.rejectFrame F.len) := by
  have hl := header_front h h5 hr
  have hbad : c.badLen := by
    rw [badLen_iff, hl]
    exact Or.inr hF
  refine ⟨hbad, ?_⟩
  rw [← hl]
  exact feedStep_eq (.reject hs h5 hbad)

/-- Behind that round. -/
theorem recovers_iff : Recovers c F G ds ↔
    ∃ a₁ c₁ p₁ a₂ c' pos, LoopActs (c.rejectFrame F.len) c.taken a₁ c₁ p₁ ∧ FeedsActs c₁ p₁ ds a₂ c' pos ∧
      a₁ ++ a₂ = messageActs F.enc.length G ∧ c'.inputLen < 5 ∧
      c'.log = ((c.enqueueEvent .protocolError []).receiveAll G).log := by
  obtain ⟨hbad, hstep⟩ := reject_round h hs h5 hF hr
  constructor
  · rintro ⟨a₁, c₁, p₁, a₂, c', pos, hl, hf, hacts, hrest⟩
    cases hl with
    | stop _ hstop => rw [hstep] at hstop; cases hstop
    | again _ hstep' hl =>
      rw [hstep] at hstep'
      cases hstep'
      rw [Nat.zero_add] at hl
      exact ⟨_, c₁, p₁, a₂, c', pos, hl, hf, (List.cons.inj hacts).2, hrest⟩
  · rintro ⟨a₁, c₁, p₁, a₂, c', pos, hl, hf, hacts, hrest⟩
    rw [← Nat.zero_add c.taken] at hl
    refine ⟨_, c₁, p₁, a₂, c', pos, .again hs hstep hl, hf, ?_, hrest⟩
    rw [act_rejected hbad, List.cons_append, hacts]

/-- **All of the frame is there and its length does not wrap**: it is skipped. -/
theorem recovers_skip (ha : c.allocs = []) (hG : ∀ g ∈ G, g.Fits c) (hn : F.enc.length ≤ c.inputLen)
    (hw : F.len ≠ 2 ^ 32 - 1) : Recovers c F G ds := by
  rw [recovers_iff h hs h5 hF hr]
  have hl := header_front h h5 hr
  have hFl := F.enc_length
  obtain ⟨rest, hrest⟩ := append_split hr (by rw [resid_length h]; exact hn)
  rw [hrest, List.append_assoc, List.append_cancel_left_eq, ← rejectFrame_skip h hrest hw] at hr
  have htaken : c.taken = F.enc.length := by
    unfold Ctx.taken
    change (if c.badLen ∧ ¬(0 < c.typedLen ∧ c.typedLen + 1 ≤ c.inputLen) then c.inputLen else 1 + c.typedLen) = _
    rw [hl, if_neg (by omega)]
    omega
  have hcore : (c.rejectFrame F.len).core = (c.enqueueEvent .protocolError []).core := by
    unfold Ctx.rejectFrame
    dsimp only
    split <;> rfl
  have hmax : (c.rejectFrame F.len).core.maxMessageSize = c.maxMessageSize := by rw [hcore]; rfl
  have haw : (c.rejectFrame F.len).core.awaitsStartup = c.awaitsStartup := by rw [hcore]; rfl
  have hal : (c.rejectFrame F.len).core.allocs = c.allocs := by rw [hcore]; rfl
  obtain ⟨a₁, c₁, p₁, a₂, c', p', k1, k2, k3, k4, k5, k6⟩ := feedsActs_frames (rejectFrame_ok h F.len)
    (haw.trans hs) (hal.trans ha) (fun g hg => (hG g hg).trans (le_of_eq hmax.symm)) hr c.taken
  rw [htaken] at k1 k3
  rw [← htaken] at k1
  have hlen' := resid_length k5
  rw [k4] at hlen'
  refine ⟨a₁, c₁, p₁, a₂, c', p', k1, k2, k3, ?_, ?_⟩
  · rw [← hlen']
    decide
  · have hlog : c'.core.log = ((c.rejectFrame F.len).core.receiveAll G).log := by rw [k6]
    refine hlog.trans (receiveAll_log_core ?_ G)
    exact hcore

/-- **The length wraps**: the frame is skipped but stays counted, and the loop runs on into it. -/
theorem recovers_wrap (hn : F.enc.length ≤ c.inputLen) (hw : F.len = 2 ^ 32 - 1) : ¬Recovers c F G ds := by
  rw [recovers_iff h hs h5 hF hr]
  rintro ⟨a₁, c₁, p₁, a₂, c', pos, hl, hf, hacts, hlt, -⟩
  have hlen := congrArg List.length hr
  rw [List.length_append, List.length_append, resid_length h] at hlen
  have hlf := header_front h h5 hr
  have hFl := F.enc_length
  have htaken : c.taken = F.enc.length := by
    unfold Ctx.taken
    change (if c.badLen ∧ ¬(0 < c.typedLen ∧ c.typedLen + 1 ≤ c.inputLen) then c.inputLen else 1 + c.typedLen) = _
    rw [hlf, if_neg (by omega)]
    omega
  have hkeep : (c.rejectFrame F.len).inputLen = c.inputLen ∧
      (c.rejectFrame F.len).maxMessageSize = c.maxMessageSize := by
    unfold Ctx.rejectFrame
    rw [if_pos ⟨by omega, by omega⟩, hw]
    exact ⟨Nat.sub_zero _, rfl⟩
  have hm : ∀ a ∈ a₁ ++ a₂, ∃ p ≤ F.enc.length + (Frame.encAll G).length - 5, a = .message p := by
    rw [hacts]
    intro a hmem
    exact mem_messageActs hmem
  obtain ⟨h1, h2, h3⟩ := hl.messages fun a hmem => hm a (List.mem_append_left _ hmem)
  obtain ⟨h4, h6⟩ := hf.messages fun a hmem => hm a (List.mem_append_right _ hmem)
  rw [hkeep.1, htaken] at h1
  rw [hkeep.2, htaken] at h2
  rw [h3, hkeep.2] at h6
  omega

/-- **Some of the frame is missing**: what is there is dropped, and the rest must be too short to
hold a header. -/
theorem recovers_drop (ha : c.allocs = []) (hn : c.inputLen < F.enc.length) :
    Recovers c F G ds ↔ G = [] ∧ F.enc.length ≤ c.inputLen + 4 := by
  rw [recovers_iff h hs h5 hF hr]
  have hlen := congrArg List.length hr
  rw [List.length_append, List.length_append, resid_length h] at hlen
  have hlf := header_front h h5 hr
  have hFl := F.enc_length
  have hbad := (reject_round h hs h5 hF hr).1
  have htaken : c.taken = c.inputLen := by
    unfold Ctx.taken
    change (if c.badLen ∧ ¬(0 < c.typedLen ∧ c.typedLen + 1 ≤ c.inputLen) then c.inputLen else 1 + c.typedLen) = _
    rw [hlf, if_pos ⟨hbad, by omega⟩]
  have hdrop : c.rejectFrame F.len = { c.enqueueEvent .protocolError [] with inputLen := 0 } := by
    unfold Ctx.rejectFrame
    rw [if_neg (by omega)]
  set c₀ : Ctx := { c.enqueueEvent .protocolError [] with inputLen := 0 } with hc₀
  have hok₀ : c₀.Ok := by rw [← hdrop]; exact rejectFrame_ok h F.len
  have hzero : c₀.inputLen = 0 := rfl
  have hwait := loopActs_short (c := c₀) hs (by rw [hzero]; decide) c.inputLen
  rw [hdrop, htaken]
  constructor
  · rintro ⟨a₁, c₁, p₁, a₂, c', pos, hl, hf, hacts, hlt, -⟩
    obtain ⟨rfl, rfl, rfl⟩ := hwait.unique hl
    rw [List.nil_append] at hacts
    rcases hf.first with ⟨rfl, hpile⟩ | ⟨acts', hfirst⟩
    · cases G with
      | nil =>
        refine ⟨rfl, ?_⟩
        have hnil : (Frame.encAll []).length = 0 := rfl
        omega
      | cons g G => cases hacts
    · -- the next header is read inside the frame
      rw [hacts] at hfirst
      cases G with
      | nil => rcases hfirst with hfirst | hfirst <;> cases hfirst
      | cons g G =>
        rcases hfirst with hfirst | hfirst
        · have hpos := Act.message.inj (List.cons.inj hfirst).1
          omega
        · cases hfirst
  · rintro ⟨rfl, hle⟩
    have hnil : (Frame.encAll []).length = 0 := rfl
    obtain ⟨c', hf, hlt, hcore⟩ := feedsActs_short hok₀ hs ha (by omega : c₀.inputLen + ds.flatten.length < 5) c.inputLen
    refine ⟨[], c₀, c.inputLen, [], c', _, hwait, hf, rfl, hlt, ?_⟩
    have hlog : c'.core.log = c₀.core.log := by rw [hcore]
    exact hlog

end

/-- **When a stream that begins with an oversized frame is read as it should be**, seen from any
point before the header of that frame is complete. -/
theorem reject_recovers {F : Frame} {G : List Frame} {ds : List Bytes} {c : Ctx} (h : c.Ok)
    (hs : c.awaitsStartup = false) (ha : c.allocs = []) (h5 : c.inputLen < 5) (hF : c.maxMessageSize < F.len)
    (hG : ∀ g ∈ G, g.Fits c) (hr : c.resid ++ ds.flatten = F.enc ++ Frame.encAll G) :
    Recovered c F G ds ↔
      (F.len ≠ 2 ^ 32 - 1 ∧ F.enc.length ≤ headerDelivered c.inputLen ds) ∨
        (G = [] ∧ headerDelivered c.inputLen ds < F.enc.length ∧
          F.enc.length ≤ headerDelivered c.inputLen ds + 4) := by
  have hFl := F.enc_length
  have h4 : 4 ≤ F.len := Nat.le_add_left _ _
  induction ds generalizing c with
  | nil =>
    have hlen := congrArg List.length hr
    rw [List.flatten_nil, List.append_nil, resid_length h, List.length_append] at hlen
    omega
  | cons d ds ih =>
    obtain ⟨c₁, hacc, hok₁, hcore₁, hres₁⟩ := acceptInput_core h ha d
    obtain ⟨haw₁, -, hmax₁, -⟩ := acceptInput_same hacc
    have hlen₁ := acceptInput_len hacc
    have hs₁ := haw₁.trans hs
    have hal₁ : c₁.core.allocs = c.core.allocs := by rw [hcore₁]
    have hF₁ : c₁.maxMessageSize < F.len := by rw [hmax₁]; exact hF
    have hG₁ : ∀ g ∈ G, g.Fits c₁ := fun g hg => (hG g hg).trans (le_of_eq hmax₁.symm)
    rw [List.flatten_cons, ← List.append_assoc, ← hres₁] at hr
    rw [recovered_cons_iff hacc hcore₁, headerDelivered, ← hlen₁]
    by_cases hn : 5 ≤ c₁.inputLen
    · rw [if_pos hn]
      by_cases hall : F.enc.length ≤ c₁.inputLen
      · by_cases hw : F.len = 2 ^ 32 - 1
        · refine iff_of_false (recovers_wrap hok₁ hs₁ hn hF₁ hr hall hw) ?_
          omega
        · exact iff_of_true (recovers_skip hok₁ hs₁ hn hF₁ hr (hal₁.trans ha) hG₁ hall hw) (Or.inl ⟨hw, hall⟩)
      · rw [recovers_drop hok₁ hs₁ hn hF₁ hr (hal₁.trans ha) (by omega)]
        constructor
        · rintro ⟨hnil, hle⟩
          exact Or.inr ⟨hnil, by omega, hle⟩
        · rintro (⟨-, hle⟩ | ⟨hnil, -, hle⟩)
          · omega
          · exact ⟨hnil, hle⟩
    · -- the header is still incomplete and the call waits
      rw [if_neg hn]
      refine Iff.trans ?_ (ih hok₁ hs₁ (hal₁.trans ha) (by omega) hF₁ hG₁ hr)
      have hwait := loopActs_short hs₁ (by omega : c₁.inputLen < 5) 0
      constructor
      · rintro ⟨a₁, c₂, p₁, a₂, c', pos, hl, hf, hacts, hrest⟩
        obtain ⟨rfl, rfl, rfl⟩ := hwait.unique hl
        rw [List.nil_append] at hacts
        subst hacts
        exact ⟨c', pos, hf, hrest⟩
      · rintro ⟨c', pos, hf, hrest⟩
        exact ⟨[], c₁, 0, _, c', pos, hwait, hf, rfl, hrest⟩

/-- **Which divisions of an oversized frame and what follows it are read as they should be.** `c` is
any context past startup with no input left over; the bytes of `F` and `G` arrive in any number
of calls, and allocation succeeds. -/
theorem reject_recovers_iff {F : Frame} {G : List Frame} {chunks : List Bytes} {c : Ctx} (hc : Reachable c)
    (hs : c.awaitsStartup = false) (ha : c.allocs = []) (hres : c.resid = []) (hF : c.maxMessageSize < F.len)
    (hG : ∀ g ∈ G, g.Fits c) (hcut : chunks.flatten = F.enc ++ Frame.encAll G) :
    Recovered c F G chunks ↔
      (F.len ≠ 2 ^ 32 - 1 ∧ F.enc.length ≤ headerDelivered 0 chunks) ∨
        (G = [] ∧ headerDelivered 0 chunks < F.enc.length ∧ F.enc.length ≤ headerDelivered 0 chunks + 4) := by
  obtain ⟨hok, -⟩ := reachable_ok hc
  have hlen := resid_length hok
  rw [hres] at hlen
  have hzero : c.inputLen = 0 := hlen.symm
  have hr : c.resid ++ chunks.flatten = F.enc ++ Frame.encAll G := by rw [hres, List.nil_append, hcut]
  have key := reject_recovers hok hs ha (by omega) hF hG hr
  rw [hzero] at key
  exact key

/-- A frame of nine bytes behind its type, with the bytes of a Terminate message as its payload. -/
def wrappedTerminate : Frame := ⟨ch 'X', [88, 0, 0, 0, 4], by decide⟩

def syncFrame : Frame := ⟨ch 'S', [], by decide⟩

theorem reject_recovers_whole :
    Recovered (startedServer 16 8) wrappedTerminate [syncFrame] [wrappedTerminate.enc ++ syncFrame.enc] :=
  (reject_recovers_iff (startedServer_reachable (by decide) (by decide)) rfl rfl (by decide) (by decide) (by decide)
    (by decide)).2 (Or.inl ⟨by decide, by decide⟩)

/-- Cut behind its header, the frame is dropped so far and its payload is read as a Terminate. -/
theorem reject_smuggles :
    Reachable (startedServer 16 8) ∧ (startedServer 16 8).maxMessageSize < wrappedTerminate.len ∧
    (∃ c', FeedsAll (startedServer 16 8) [wrappedTerminate.enc.take 5, wrappedTerminate.enc.drop 5 ++ syncFrame.enc] c' ∧
      c'.log.map (·.ev) = [.startup, .protocolError, .terminate, .sync]) ∧
    ¬Recovered (startedServer 16 8) wrappedTerminate [syncFrame]
      [wrappedTerminate.enc.take 5, wrappedTerminate.enc.drop 5 ++ syncFrame.enc] := by
  have hr : Reachable (startedServer 16 8) := startedServer_reachable (by decide) (by decide)
  refine ⟨hr, by decide, ⟨_, .cons ⟨_, rfl, 2, rfl⟩ (.cons ⟨_, rfl, 3, rfl⟩ (.nil _)), by decide⟩, ?_⟩
  intro h
  have hcond := (reject_recovers (reachable_ok hr).1 rfl rfl (by decide) (by decide) (by decide) (by decide)).1 h
  revert hcond
  decide

end Pqwire

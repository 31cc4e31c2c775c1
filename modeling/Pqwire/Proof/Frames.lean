import Pqwire.Spec.Grammar
import Pqwire.Proof.Chunk

/-!
# Feeding well-formed frames

On input that starts with a frame whose length is in range, a round of the loop handles
that frame and moves the rest down (`feedStep_frames`); on a sequence of frames the loop
handles them one after the other and stops (`loops_frames`).
-/

namespace Pqwire

open ByteMem

theorem Frame.enc_length (f : Frame) : f.enc.length = f.len + 1 := by
  simp only [Frame.enc, Frame.len, List.length_append, List.length_cons, wr32Be_length]; omega

/-- The length field of a frame. -/
theorem Frame.rd32Be_enc (f : Frame) (rest : Bytes) : rd32Be (f.enc ++ rest) 1 = f.len := by
  have h := rd32Be_at [f.type] f.len (f.body ++ rest)
  rw [Nat.mod_eq_of_lt (show f.len < 2 ^ 32 from f.short)] at h
  rw [← h]
  simp only [Frame.enc, List.cons_append, List.nil_append, List.append_assoc]
  rfl

/-- The body of a frame. -/
theorem Frame.slice_enc (f : Frame) : slice f.enc 5 f.body.length = f.body := by
  have := slice_append_mid (f.type :: wr32Be f.len) f.body []
  rwa [List.append_nil] at this

theorem Startup.enc_length (s : Startup) : s.enc.length = s.len := by
  simp only [Startup.enc, Startup.len, List.length_append, wr32Be_length]; omega

/-- The length field of a startup message. -/
theorem Startup.rd32Be_enc (s : Startup) (rest : Bytes) : rd32Be (s.enc ++ rest) 0 = s.len := by
  rw [Startup.enc, List.append_assoc, rd32Be_wr32Be, Nat.mod_eq_of_lt (show s.len < 2 ^ 32 from s.short)]

theorem Frame.encAll_cons (f : Frame) (fs : List Frame) : Frame.encAll (f :: fs) = f.enc ++ Frame.encAll fs := rfl

theorem Frame.encAll_append (fs gs : List Frame) : Frame.encAll (fs ++ gs) = Frame.encAll fs ++ Frame.encAll gs :=
  List.flatMap_append

/-- What the input buffer holds where the unparsed input is known. -/
theorem slice_of_resid {c : Ctx} (h : c.Ok) {p rest : Bytes} (hr : c.resid = p ++ rest) {off n : ℕ}
    (hn : off + n ≤ p.length) : slice c.inputBuf off n = slice p off n := by
  have hlen := resid_length h
  have hin := h.input
  rw [hr, List.length_append] at hlen
  have hle : off + n ≤ c.inputLen := by omega
  rw [agreeAt_take hle hin off n le_rfl le_rfl]
  change slice c.resid off n = _
  rw [hr, slice_append_left hn]

/-- The header and the body of the frame at the front of the input. -/
theorem frame_front {c : Ctx} (h : c.Ok) {f : Frame} {rest : Bytes} (hr : c.resid = f.enc ++ rest) :
    c.inputBuf.getD 0 0 = f.type ∧ c.typedLen = f.len ∧ slice c.inputBuf 5 f.body.length = f.body ∧
      f.len + 1 + rest.length = c.inputLen := by
  have hlen := resid_length h
  have hin := h.input
  have hel := f.enc_length
  have h4 : 4 ≤ f.len := Nat.le_add_left _ _
  rw [hr, List.length_append, hel] at hlen
  refine ⟨?_, ?_, ?_, hlen⟩
  · have : c.resid[0]? = c.inputBuf[0]? := List.getElem?_take_of_lt (by omega)
    rw [List.getD_eq_getElem?_getD, ← this, hr]
    rfl
  · have : rd32Be c.resid 1 = c.typedLen := rd32Be_take (p := c.inputBuf) (by omega)
    rw [← this, hr, f.rd32Be_enc]
  · rw [slice_of_resid h hr (by rw [hel]; unfold Frame.len; omega), f.slice_enc]

namespace Ctx

/-- Handle the frame at the front of the input and move the rest down. -/
def handleFrame (c : Ctx) (f : Frame) : Ctx := (handleMessage c f.type 5 f.body).consume f.enc.length

/-- Handle frames one after the other. -/
def handleFrames (c : Ctx) (fs : List Frame) : Ctx := fs.foldl handleFrame c

end Ctx

theorem awaits_of_client {c : Ctx} (h : c.role = .client) : c.awaitsStartup = false := by simp [Ctx.awaitsStartup, h]

theorem awaits_of_seen {c : Ctx} (h : c.startupSeen = true) : c.awaitsStartup = false := by simp [Ctx.awaitsStartup, h]

theorem handleMessage_awaits (c : Ctx) (type : UInt8) (base : ℕ) (body : Bytes) :
    (handleMessage c type base body).awaitsStartup = c.awaitsStartup := by
  unfold Ctx.awaitsStartup
  rw [(handleMessage_handled c type base body).role, handleMessage_startupSeen]

/-- What handling a frame keeps. -/
theorem handleFrame_same (c : Ctx) (f : Frame) :
    (c.handleFrame f).awaitsStartup = c.awaitsStartup ∧ (c.handleFrame f).maxMessageSize = c.maxMessageSize ∧
      (c.handleFrame f).role = c.role ∧ (c.handleFrame f).allocs = c.allocs ∧
      (c.handleFrame f).log = (handleMessage c f.type 5 f.body).log ∧
      (c.handleFrame f).events = (handleMessage c f.type 5 f.body).events := by
  have hh := handleMessage_handled c f.type 5 f.body
  exact ⟨handleMessage_awaits c _ _ _, hh.max, hh.role, hh.allocs, rfl, rfl⟩

variable {c : Ctx} {f : Frame} {rest : Bytes}

/-- **A round on a frame handles it.** -/
theorem feedStep_frames (h : c.Ok) (hs : c.awaitsStartup = false) (hf : f.Fits c) (hr : c.resid = f.enc ++ rest) :
    c.feedStep = .again (c.handleFrame f) ∧ (c.handleFrame f).Ok ∧ (c.handleFrame f).resid = rest := by
  obtain ⟨ht, hl, hb, hlen⟩ := frame_front h hr
  have h4 : 4 ≤ f.len := Nat.le_add_left _ _
  have hround := feedStep_eq (.message (c := c) hs (by rw [hl]; exact h4) (by rw [hl]; exact hf)
    (by rw [hl]; omega))
  have hafter : c.afterMessage = c.handleFrame f := by
    have hn : f.len - 4 = f.body.length := by unfold Frame.len; omega
    unfold Ctx.afterMessage Ctx.handleFrame
    rw [ht, hl, hn, hb, f.enc_length, Nat.add_comm 1]
  rw [hafter] at hround
  refine ⟨hround, feedStep_ok h (Or.inl hround), ?_⟩
  rw [← hafter, afterMessage_resid h (by rw [hl]; omega), hl, hr, Nat.add_comm 1, ← f.enc_length, List.drop_left]

theorem handleFrames_ok {fs : List Frame} (h : c.Ok) (hs : c.awaitsStartup = false) (hf : ∀ f ∈ fs, f.Fits c)
    (hr : c.resid = Frame.encAll fs ++ rest) :
    (c.handleFrames fs).Ok ∧ (c.handleFrames fs).resid = rest ∧ (c.handleFrames fs).awaitsStartup = false := by
  induction fs generalizing c with
  | nil => exact ⟨h, hr, hs⟩
  | cons f fs ih =>
    rw [Frame.encAll_cons, List.append_assoc] at hr
    obtain ⟨-, h2, h3⟩ := feedStep_frames h hs (hf f (List.mem_cons_self ..)) hr
    obtain ⟨ha, hm, -⟩ := handleFrame_same c f
    refine ih h2 (ha.trans hs) ?_ h3
    intro g hg
    unfold Frame.Fits
    rw [hm]
    exact hf g (List.mem_cons_of_mem _ hg)

/-- **The loop handles the frames one after the other.** -/
theorem loops_frames_append {fs : List Frame} {c' : Ctx} (h : c.Ok) (hs : c.awaitsStartup = false)
    (hf : ∀ f ∈ fs, f.Fits c) (hr : c.resid = Frame.encAll fs ++ rest) (hl : Loops (c.handleFrames fs) c') :
    Loops c c' := by
  induction fs generalizing c with
  | nil => exact hl
  | cons f fs ih =>
    rw [Frame.encAll_cons, List.append_assoc] at hr
    obtain ⟨h1, h2, h3⟩ := feedStep_frames h hs (hf f (List.mem_cons_self ..)) hr
    obtain ⟨ha, hm, -⟩ := handleFrame_same c f
    refine .again h1 (ih h2 (ha.trans hs) ?_ h3 hl)
    intro g hg
    unfold Frame.Fits
    rw [hm]
    exact hf g (List.mem_cons_of_mem _ hg)

/-- On input that ends with the last frame, the loop stops behind it. -/
theorem loops_frames {fs : List Frame} (h : c.Ok) (hs : c.awaitsStartup = false) (hf : ∀ f ∈ fs, f.Fits c)
    (hr : c.resid = Frame.encAll fs) : Loops c (c.handleFrames fs) := by
  rw [← List.append_nil (Frame.encAll fs)] at hr
  obtain ⟨h1, h2, -⟩ := handleFrames_ok h hs hf hr
  have := resid_length h1
  rw [h2] at this
  exact loops_frames_append h hs hf hr (.wait (waits_of_empty this.symm))

/-- The startup message at the front of the input. -/
theorem startup_front {s : Startup} (h : c.Ok) (hr : c.resid = s.enc ++ rest) :
    c.startupLen = s.len ∧ slice c.inputBuf 4 s.body.length = s.body ∧ s.len + rest.length = c.inputLen := by
  have hlen := resid_length h
  have hel := s.enc_length
  have h4 : s.len = s.body.length + 4 := rfl
  rw [hr, List.length_append, hel] at hlen
  refine ⟨?_, ?_, hlen⟩
  · have h1 : rd32Be c.resid 0 = c.startupLen := rd32Be_take (p := c.inputBuf) (by omega)
    rw [← h1, hr, s.rd32Be_enc]
  · rw [slice_of_resid h hr (by rw [hel]; omega)]
    have := slice_append_mid (wr32Be s.len) s.body []
    rwa [List.append_nil] at this

/-- **A round on the startup message parses it.** -/
theorem feedStep_startup {s : Startup} (h : c.Ok) (hs : c.awaitsStartup = true) (hf : s.Fits c)
    (hr : c.resid = s.enc ++ rest) :
    c.feedStep = .again ((parseStartupBody c s.body).consume s.len) ∧
      ((parseStartupBody c s.body).consume s.len).Ok ∧ ((parseStartupBody c s.body).consume s.len).resid = rest := by
  obtain ⟨hl, hb, hlen⟩ := startup_front h hr
  have h4 : s.len = s.body.length + 4 := rfl
  have hv := s.version
  have hround := feedStep_eq (.startup (c := c) hs (by omega) (by rw [hl]; exact hf) (by omega))
  have hafter : c.afterStartup = (parseStartupBody c s.body).consume s.len := by
    have hn : s.len - 4 = s.body.length := by omega
    unfold Ctx.afterStartup
    rw [hl, hn, hb]
  rw [hafter] at hround
  refine ⟨hround, feedStep_ok h (Or.inl hround), ?_⟩
  rw [← hafter, afterStartup_resid h (by omega), hl, hr, ← s.enc_length, List.drop_left]

/-- What the startup message changes, apart from the input and the phase. -/
theorem handleStartup_same (c : Ctx) (body : Bytes) (n : ℕ) :
    ∃ q : Queued, q.ev = .startup ∧ q.frame = body ∧ ((parseStartupBody c body).consume n).log = c.log ++ [q] ∧
      ((parseStartupBody c body).consume n).events = c.events.enqueue q ∧
      ((parseStartupBody c body).consume n).awaitsStartup = false ∧
      ((parseStartupBody c body).consume n).role = c.role ∧
      ((parseStartupBody c body).consume n).maxMessageSize = c.maxMessageSize := by
  unfold parseStartupBody
  dsimp only
  split
  · exact ⟨_, rfl, rfl, rfl, rfl, by simp [Ctx.awaitsStartup, Ctx.consume], rfl, rfl⟩
  · exact ⟨_, rfl, rfl, rfl, rfl, by simp [Ctx.awaitsStartup, Ctx.consume], rfl, rfl⟩

/-! ## Calls -/

/-- What accepting input does, whether or not the buffer has to grow. -/
theorem acceptInput_some {data : Bytes} {c₁ : Ctx} (h : c.acceptInput data = some c₁) :
    ∃ cap allocs, c₁ = { c.setInput (blit c.inputBuf c.inputLen data) (c.inputLen + data.length) cap with
      allocs := allocs } := by
  unfold Ctx.acceptInput at h
  split at h
  · split at h
    · exact ⟨_, _, (Option.some_inj.1 h).symm⟩
    · cases h
  · exact ⟨_, _, (Option.some_inj.1 h).symm⟩

theorem acceptInput_resid {data : Bytes} {c₁ : Ctx} (hc : c.Ok) (h : c.acceptInput data = some c₁) :
    c₁.resid = c.resid ++ data := by
  obtain ⟨cap, allocs, rfl⟩ := acceptInput_some h
  exact blit_take hc.input data

theorem acceptInput_same {data : Bytes} {c₁ : Ctx} (h : c.acceptInput data = some c₁) :
    c₁.awaitsStartup = c.awaitsStartup ∧ c₁.role = c.role ∧ c₁.maxMessageSize = c.maxMessageSize ∧
      c₁.log = c.log ∧ c₁.events = c.events := by
  obtain ⟨cap, allocs, rfl⟩ := acceptInput_some h
  exact ⟨rfl, rfl, rfl, rfl, rfl⟩

/-- **A call that completes frames handles them and returns.** -/
theorem feeds_frames {data : Bytes} {c₁ : Ctx} {fs : List Frame} (hc : c.Ok) (hs : c.awaitsStartup = false)
    (ha : c.acceptInput data = some c₁) (hf : ∀ f ∈ fs, f.Fits c) (hr : c.resid ++ data = Frame.encAll fs) :
    Feeds c data (c₁.handleFrames fs) := by
  obtain ⟨h1, -, h3, -⟩ := acceptInput_same ha
  refine ⟨c₁, ha, loops_frames (acceptInput_ok hc ha) (h1.trans hs) ?_ ?_⟩
  · intro f hm
    unfold Frame.Fits
    rw [h3]
    exact hf f hm
  · rw [acceptInput_resid hc ha, hr]

theorem feeds_feedInput {c' : Ctx} {data : Bytes} (h : Feeds c data c') : ∃ fuel, c.feedInput fuel data = some (c', data.length) := by
  obtain ⟨c₁, ha, fuel, hl⟩ := h
  refine ⟨fuel, ?_⟩
  unfold Ctx.feedInput
  rw [ha]
  dsimp only
  rw [hl]
  rfl

/-! ## A server past startup -/

/-- A fresh server. -/
def freshServer (size max : ℕ) : Ctx := { role := .server, maxMessageSize := max, events := RingBuf.init size }

/-- A StartupMessage without parameters. -/
def startupBytes : Bytes := [0, 0, 0, 8, 0, 3, 0, 0]

/-- The server that has received it. -/
def startedServer (size max : ℕ) : Ctx := ((freshServer size max).setInput startupBytes 8 4096).afterStartup

theorem freshServer_reachable {size max : ℕ} (hs : 0 < size) (hm : 0 < max) : Reachable (freshServer size max) := by
  have hcreate : createWithConfig .server ⟨size, max⟩ [] = some (freshServer size max) := by
    unfold createWithConfig
    rw [if_neg (by simp only; omega), if_pos (by simp), if_neg (by simp only; omega)]
    rfl
  exact .create hcreate

theorem startedServer_reachable {size max : ℕ} (hs : 0 < size) (hm : 8 ≤ max) : Reachable (startedServer size max) := by
  set c₁ := (freshServer size max).setInput startupBytes 8 4096
  have hlen : c₁.startupLen = 8 := rfl
  have h1 : c₁.feedStep = .again (startedServer size max) :=
    feedStep_eq (.startup rfl (le_of_eq hlen.symm) hm le_rfl)
  have h2 : (startedServer size max).feedStep = .stop (startedServer size max) :=
    feedStep_eq (.wait (waits_of_empty rfl))
  have hmax : 0 < max := by omega
  refine .step (freshServer_reachable hs hmax) (@Step.feed _ _ startupBytes 2 8 ?_)
  have hacc : (freshServer size max).acceptInput startupBytes = some c₁ := rfl
  unfold Ctx.feedInput
  rw [hacc]
  simp only [Ctx.feedLoop, h1, h2, Option.map_some]
  rfl

/-- A started server accepts any input. -/
theorem startedServer_accepts (size max : ℕ) (data : Bytes) : ∃ d₁, (startedServer size max).acceptInput data = some d₁ := by
  have hok : (startedServer size max).allocOk = true := rfl
  unfold Ctx.acceptInput
  rw [if_pos hok]
  split
  · exact ⟨_, rfl⟩
  · exact ⟨_, rfl⟩

end Pqwire

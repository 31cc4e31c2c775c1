import Pqwire.Proof.Faithful
import Pqwire.Proof.Scratch

/-!
# Bind views at the end of a call

A BIND event points into the input buffer, and the loop moves what follows a frame to the
front of that buffer. `bind_views_iff` says for which sequences of frames the views still
show their parameters when the call returns.
-/

namespace Pqwire

open ByteMem

/-! ## A frame inside a sequence -/

/-- The context in which the frame `f` of a sequence is reached. -/
structure Reached (c : Ctx) (fs pre : List Frame) (f : Frame) (post : List Frame) : Prop where
  ok : (c.handleFrames pre).Ok
  typed : (c.handleFrames pre).awaitsStartup = false
  resid : (c.handleFrames pre).resid = Frame.encAll (f :: post)
  fits : ∀ g ∈ f :: post, g.Fits (c.handleFrames pre)
  role : (c.handleFrames pre).role = c.role
  rest : c.handleFrames fs = (c.handleFrames pre).handleFrames (f :: post)

theorem handleFrames_max (c : Ctx) (fs : List Frame) : (c.handleFrames fs).maxMessageSize = c.maxMessageSize := by
  induction fs generalizing c with
  | nil => rfl
  | cons f fs ih =>
    obtain ⟨-, hm, -⟩ := handleFrame_same c f
    exact (ih (c.handleFrame f)).trans hm

section

variable {c : Ctx} {fs pre post : List Frame} {f : Frame} (h : c.Ok) (hs : c.awaitsStartup = false)
  (hf : ∀ f ∈ fs, f.Fits c) (hr : c.resid = Frame.encAll fs)

include h hs hf hr

theorem reached (hsp : fs = pre ++ f :: post) : Reached c fs pre f post := by
  subst hsp
  rw [Frame.encAll_append] at hr
  obtain ⟨h1, h2, h3⟩ := handleFrames_ok h hs (fun g hg => hf g (List.mem_append_left _ hg)) hr
  obtain ⟨-, -, -, h4⟩ := handleFrames_count h.ring pre
  refine ⟨h1, h3, h2, fun g hg => ?_, h4, handleFrames_append _ _⟩
  unfold Frame.Fits
  rw [handleFrames_max]
  exact hf g (List.mem_append_right _ hg)

/-- The event of a frame, and where it stands when all frames are handled. -/
theorem event_at (hsp : fs = pre ++ f :: post) (he : f.emits c.role = true) :
    ∃ q l', (c.handleFrames fs).log = (c.handleFrames pre).log ++ q :: l' ∧
      ((c.handleFrames pre).handleFrame f).log = (c.handleFrames pre).log ++ [q] ∧ q.frame = f.body ∧
      c.log.length ≤ (c.handleFrames pre).log.length ∧ l'.length = emitted c.role post ∧
      (l'.length < (c.handleFrames fs).events.count ↔ emitted c.role post < c.queueSize) := by
  have hre := reached h hs hf hr hsp
  obtain ⟨⟨l₀, hl₀, -⟩, -, hsize, -⟩ := handleFrames_count h.ring pre
  have hem := handleFrame_emitted (c.handleFrames pre) f
  unfold Emitted at hem
  rw [hre.role, if_pos he] at hem
  obtain ⟨q, hfr, hlog, -⟩ := hem
  obtain ⟨⟨l', hl', hn⟩, -⟩ := handleFrames_count (c := (c.handleFrames pre).handleFrame f)
    (handleFrame_ring hre.ok.ring) post
  obtain ⟨-, hcount, -⟩ := handleFrames_count hre.ok.ring (f :: post)
  obtain ⟨-, -, hrole, -⟩ := handleFrame_same (c.handleFrames pre) f
  rw [hrole, hre.role] at hn
  rw [hre.role, emitted_cons, if_pos he, hsize, ← hre.rest] at hcount
  refine ⟨q, l', ?_, hlog, hfr, by rw [hl₀, List.length_append]; omega, hn, ?_⟩
  · rw [hre.rest]
    change (((c.handleFrames pre).handleFrame f).handleFrames post).log = _
    rw [hl', hlog, List.append_assoc]
    rfl
  · rw [hcount, hn]; omega

end

/-! ## Bind -/

/-- What a parameter of the Bind in frame `f` shows once the frames `post` behind it are
handled. -/
def BindParamView.after (f : Frame) (post : List Frame) (v : BindParamView) : Bytes :=
  match v.data with
  | none => []
  | some p => f.seenAfter post p v.length.toInt.toNat

/-- Every queued BIND event whose frame was handled on the way from `c` to `c'` shows its own
parameters: for `i < n_params` with a length that is not negative, the bytes its view denotes
are those of parameter `i` of its frame. -/
def ViewsIntact (c c' : Ctx) : Prop :=
  ∀ l q l', c'.log = l ++ q :: l' → c.log.length ≤ l.length → l'.length < c'.events.count →
    ∀ b x, q.ev = .bind b → q.frame = BindBody.enc x →
      ∀ i < b.nParams, 0 ≤ (b.param i).length.toInt →
        ∃ g, x.params[i]? = some g ∧ (b.param i).bytes c'.inputBuf = g.data

/-- The same, read off the frames: for every Bind behind which fewer frames with an event
follow than the queue has slots, the bytes left at the place of each parameter are its own. -/
def BindsUndisturbed (size : ℕ) (fs : List Frame) : Prop :=
  ∀ pre f post, fs = pre ++ f :: post → f.type = ch 'B' → emitted .server post < size →
    ∀ b x, bindOf 5 f.body = some b → f.body = BindBody.enc x →
      ∀ i < b.nParams, 0 ≤ (b.param i).length.toInt →
        ∃ g, x.params[i]? = some g ∧ (b.param i).after f post = g.data

/-- What the views of a Bind show when the frames behind it are handled. -/
theorem bytes_after {c : Ctx} {fs pre post : List Frame} {f : Frame} {b : BindMsg} (h : Reached c fs pre f post)
    (hb : bindOf 5 f.body = some b) (i : ℕ) :
    (b.param i).bytes (c.handleFrames fs).inputBuf = (b.param i).after f post := by
  unfold BindParamView.bytes BindParamView.after
  cases hp : (b.param i).data with
  | none => rfl
  | some p =>
    obtain ⟨h1, h2⟩ := bindOf_view hb i hp
    dsimp only
    rw [h.rest]
    refine slice_handleFrames h.ok h.typed h.fits h.resid ?_
    rw [f.enc_length]
    unfold Frame.len
    omega

theorem emits_bind {f : Frame} {b : BindMsg} (ht : f.type = ch 'B') (hb : bindOf 5 f.body = some b) :
    f.emits .server = true := by
  rw [Frame.emits_front (t := .bind) ht, FrontType.emits, hb]
  rfl

/-- **The views survive exactly the undisturbed sequences.** `c` is any server past startup,
`fs` the frames that the call completes; the call returns. -/
theorem bind_views_iff {c c₁ : Ctx} {data : Bytes} {fs : List Frame} (hc : Reachable c) (hrole : c.role = .server)
    (hs : c.startupSeen = true) (ha : c.acceptInput data = some c₁) (hres : c.resid ++ data = Frame.encAll fs)
    (hf : ∀ f ∈ fs, f.Fits c) :
    ∃ c', Feeds c data c' ∧ (ViewsIntact c c' ↔ BindsUndisturbed c.queueSize fs) := by
  obtain ⟨hok, -⟩ := reachable_ok hc
  have haw : c.awaitsStartup = false := awaits_of_seen hs
  have hok₁ := acceptInput_ok hok ha
  obtain ⟨haw₁, hrole₁, hmax₁, hlog₁, hev₁⟩ := acceptInput_same ha
  have hf₁ : ∀ f ∈ fs, f.Fits c₁ := fun f hm => by unfold Frame.Fits; rw [hmax₁]; exact hf f hm
  have hres₁ : c₁.resid = Frame.encAll fs := by rw [acceptInput_resid hok ha, hres]
  have hsize : c₁.queueSize = c.queueSize := by unfold Ctx.queueSize; rw [hev₁]
  refine ⟨c₁.handleFrames fs, feeds_frames hok haw ha hf hres, ?_, ?_⟩
  · intro hP pre f post hsp ht hq b x hb hx i hi hpos
    have hre := reached hok₁ (haw₁.trans haw) hf₁ hres₁ hsp
    have he : f.emits c₁.role = true := by rw [hrole₁, hrole]; exact emits_bind ht hb
    obtain ⟨q, l', h1, h2, h3, h4, h5, h6⟩ := event_at hok₁ (haw₁.trans haw) hf₁ hres₁ hsp he
    have hev : q.ev = .bind b := by
      refine event_of_log (r := ⟨.bind b, f.body, (c₁.handleFrames pre).read (.bind b)⟩) ?_ h2
      change (handleMessage (c₁.handleFrames pre) f.type 5 f.body).log = _
      rw [ht]
      change (handleMessage (c₁.handleFrames pre) FrontType.bind.byte 5 f.body).log = _
      rw [handleMessage_front (hre.role.trans (hrole₁.trans hrole))]
      exact parseBindMsg_log hb
    obtain ⟨g, hg, hd⟩ := hP _ q l' h1 (by rw [← hlog₁]; exact h4)
      (h6.2 (by rw [hrole₁, hrole, hsize]; exact hq)) b x hev (h3.trans hx) i hi hpos
    exact ⟨g, hg, by rw [← bytes_after hre hb]; exact hd⟩
  · intro hC l q l' hl hle hcount b x hev hfr i hi hpos
    rw [← hlog₁] at hle
    obtain ⟨pre, f, post, hsp, h2, h3, h4, h5, h6⟩ := log_split hok₁.ring hl hle
    have hre := reached hok₁ (haw₁.trans haw) hf₁ hres₁ hsp
    rw [← h2] at h3
    have hof := handleFrame_event hre.ok.cols hre.ok.names h3
    rw [hev] at hof
    obtain ⟨-, ht, hb⟩ := hof
    obtain ⟨-, hcnt, -⟩ := handleFrames_count hok₁.ring fs
    obtain ⟨g, hg, hd⟩ := hC pre f post hsp ht (by rw [hrole₁, hrole] at h6; omega) b x hb (h5.symm.trans hfr) i hi hpos
    exact ⟨g, hg, by rw [bytes_after hre hb]; exact hd⟩

/-- A Bind with one text parameter of one character. -/
def oneParam (v : UInt8) : BindBody := .ofParams [.byte v] (by simp)

def oneBind (v : UInt8) : Frame := ⟨ch 'B', (oneParam v).enc, show 19 < 2 ^ 32 by decide⟩

/-- A body this short is within the limits. -/
theorem inLimits_of_short {x : BindBody} (h : x.enc.length ≤ 64) : x.InLimits := by
  have hparams : ∀ fs : List Field, 4 * fs.length ≤ (fs.flatMap Field.enc).length := by
    intro fs
    induction fs with
    | nil => exact Nat.zero_le _
    | cons f fs ih =>
      rw [List.flatMap_cons, List.length_append, f.enc_length, List.length_cons]
      omega
  have hp := hparams x.params
  unfold BindBody.enc encCodes encFields at h
  simp only [List.length_append, flatMap_encCode_length] at h
  unfold BindBody.InLimits maxBindParams
  omega

/-- Behind a frame of a pair there is nothing, or the same frame. -/
theorem pair_split {a f : Frame} {pre post : List Frame} (h : [a, a] = pre ++ f :: post) : f = a ∧ (post = [] ∨ post = [a]) := by
  rcases pre with _ | ⟨_, _ | ⟨_, _⟩⟩
  · cases h
    exact ⟨rfl, Or.inr rfl⟩
  · cases h
    exact ⟨rfl, Or.inl rfl⟩
  · simp at h

/-- Two equal Binds in one call show their parameters. -/
theorem bind_views_pair : ∃ c', Feeds (startedServer 16 64) (Frame.encAll [oneBind 55, oneBind 55]) c' ∧
    ViewsIntact (startedServer 16 64) c' := by
  obtain ⟨c₁, ha⟩ := startedServer_accepts 16 64 (Frame.encAll [oneBind 55, oneBind 55])
  have hfits : ∀ f ∈ [oneBind 55, oneBind 55], f.Fits (startedServer 16 64) := by decide
  obtain ⟨c', hfeed, hiff⟩ :=
    bind_views_iff (startedServer_reachable (by decide) (by decide)) rfl rfl ha rfl hfits
  refine ⟨c', hfeed, hiff.2 ?_⟩
  intro pre f post hsp _ _ b x hb hx i hi _
  obtain ⟨rfl, hpost⟩ := pair_split hsp
  have hown : bindOf 5 (oneBind 55).body = some ((oneParam 55).msg 5) := by decide
  have hx' := bindOf_enc (x := x) (inLimits_of_short (by rw [← hx]; decide)) 5
  rw [← hx, hown] at hx'
  rw [hown] at hb
  have hmem : slice (oneBind 55).enc 5 x.enc.length = x.enc := by
    rw [← hx]
    decide
  cases hb
  have hi0 : i = 0 := Nat.lt_one_iff.1 hi
  subst hi0
  have hn : ((oneParam 55).msg 5).nParams = x.params.length := congrArg BindMsg.nParams (Option.some.inj hx')
  have hn' : 0 < x.params.length := by
    rw [← hn]
    exact hi
  have hget : x.params[0]? = some (x.params.get ⟨0, hn'⟩) := List.getElem?_eq_getElem hn'
  have hbytes := x.msg_bytes hmem hget
  rw [← Option.some.inj hx'] at hbytes
  refine ⟨_, hget, ?_⟩
  rw [← hbytes]
  rcases hpost with rfl | rfl
  · decide
  · decide

/-- The parameter `7` of a Bind is read as `8` when a second Bind follows in the same call. -/
theorem bind_views_overwritten : Reachable (startedServer 16 64) ∧
    ∃ c', Feeds (startedServer 16 64) (Frame.encAll [oneBind 55, oneBind 56]) c' ∧
      ¬ViewsIntact (startedServer 16 64) c' := by
  have hr : Reachable (startedServer 16 64) := startedServer_reachable (by decide) (by decide)
  obtain ⟨c₁, ha⟩ := startedServer_accepts 16 64 (Frame.encAll [oneBind 55, oneBind 56])
  have hfit : ∀ f ∈ [oneBind 55, oneBind 56], f.Fits (startedServer 16 64) := by decide
  have hfeed := feeds_frames (reachable_ok hr).1 rfl ha hfit rfl
  have hc₁ : c₁ = (startedServer 16 64).setInput (blit startupBytes 0 (Frame.encAll [oneBind 55, oneBind 56])) 40 4096 :=
    Option.some_inj.1 (ha.symm.trans rfl)
  refine ⟨hr, _, hfeed, ?_⟩
  intro h
  obtain ⟨g, hg, hd⟩ := h [⟨.startup, [0, 3, 0, 0], { strs := [CStr.empty, CStr.empty] }⟩]
    ⟨.bind ((oneParam 55).msg 5), (oneParam 55).enc, { blobs := [some [55]] }⟩
    [⟨.bind ((oneParam 56).msg 5), (oneParam 56).enc, { blobs := [some [56]] }⟩]
    (by rw [hc₁]; decide) (by decide) (by rw [hc₁]; decide) _ (oneParam 55) rfl rfl 0 (by decide) (by decide)
  have hseven : g = ⟨1, [55], rfl⟩ := (Option.some_inj.1 hg).symm
  rw [hc₁, hseven] at hd
  exact absurd hd (by decide)

end Pqwire

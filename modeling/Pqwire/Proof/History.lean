import Pqwire.Lib.LastWrite
import Pqwire.Proof.Frames

/-!
# What a sequence of frames leaves behind

Handling frames one after the other appends to the history one event for each frame that
has one (`handleFrames_count`, `log_split`), and overwrites what earlier events point to:
the input buffer is moved down behind every frame (`handleFrames_inputBuf`) and the scratch
areas hold what the last frame of their kind wrote (`handleFrames_sql`, ...).
-/

namespace Pqwire

open ByteMem LastWrite

/-! ## Events -/

/-- A frontend message that a server has an event for. -/
def FrontType.emits (body : Bytes) : FrontType → Bool
  | .parse => (parseOf body).isSome
  | .bind => (bindOf 5 body).isSome
  | .describe => (targetName body).isSome
  | .execute => (executeOf body).isSome
  | .close => (targetName body).isSome
  | _ => true

/-- A backend message that a client has an event for. -/
def BackType.emits (body : Bytes) : BackType → Bool
  | .authentication => 4 ≤ body.length ∧ rd32Be body 0 = 0
  | .rowDescription => 2 ≤ body.length
  | .dataRow => 2 ≤ body.length
  | .notification => (notificationOf body).isSome
  | .backendKeyData => false
  | _ => true

/-- The frame makes a context of this role enqueue an event. -/
def Frame.emits (role : Role) (f : Frame) : Bool :=
  match role with
  | .server => ((FrontType.all.find? (·.byte = f.type)).map (·.emits f.body)).getD false
  | .client => ((BackType.all.find? (·.byte = f.type)).map (·.emits f.body)).getD false

/-- Whether an event is enqueued. -/
def Emitted (c : Ctx) (body : Bytes) (emits : Bool) (c' : Ctx) : Prop :=
  if emits then ∃ q : Queued, q.frame = body ∧ c'.log = c.log ++ [q] ∧ c'.events = c.events.enqueue q
  else c'.log = c.log ∧ c'.events = c.events

theorem enqueueEvent_emitted (c : Ctx) (ev : Event) (body : Bytes) : Emitted c body true (c.enqueueEvent ev body) :=
  ⟨_, rfl, rfl, rfl⟩

section

variable {f : Frame}

theorem Frame.emits_front {t : FrontType} (ht : f.type = t.byte) : f.emits .server = t.emits f.body := by
  unfold Frame.emits
  rw [ht]
  dsimp only
  rw [front_find]
  rfl

theorem Frame.emits_back {t : BackType} (ht : f.type = t.byte) : f.emits .client = t.emits f.body := by
  unfold Frame.emits
  rw [ht]
  dsimp only
  rw [back_find]
  rfl

/-- A message that does nothing but enqueue its event. -/
theorem Frame.emits_plain {role : Role} (h : f.type ∉ stateful role) :
    f.emits role = (plainEvent role f.type 5 f.body).isSome := by
  unfold Frame.emits plainEvent
  cases role with
  | server =>
    dsimp only
    cases hf : FrontType.all.find? (·.byte = f.type) with
    | none => rfl
    | some t =>
      rw [← front_find_some hf] at h
      cases t with
      | query => exact absurd (by decide) h
      | _ => simp only [Option.map_some, Option.getD_some, Option.bind_some, FrontType.emits, FrontType.plain,
          Option.isSome_map, Option.isSome_some]
  | client =>
    dsimp only
    cases hf : BackType.all.find? (·.byte = f.type) with
    | none => rfl
    | some t =>
      rw [← back_find_some hf] at h
      cases t with
      | authentication => exact absurd (by decide) h
      | readyForQuery => exact absurd (by decide) h
      | rowDescription => exact absurd (by decide) h
      | dataRow => exact absurd (by decide) h
      | commandComplete => exact absurd (by decide) h
      | notification => simp only [Option.map_some, Option.getD_some, Option.bind_some, BackType.emits, BackType.plain,
          Option.isSome_map]
      | _ => rfl

end

/-- **A frame adds an event to the history exactly when it has one.** -/
theorem handleFrame_emitted (c : Ctx) (f : Frame) : Emitted c f.body (f.emits c.role) (c.handleFrame f) := by
  have key : Emitted c f.body (f.emits c.role) (handleMessage c f.type 5 f.body) := by
    have h := handleMessage_handling c f.type 5 f.body
    generalize handleMessage c f.type 5 f.body = c' at h ⊢
    cases h with
    | ignored hs hp =>
      rw [Frame.emits_plain hs, hp]
      exact ⟨rfl, rfl⟩
    | event hs hp =>
      rw [Frame.emits_plain hs, hp]
      exact enqueueEvent_emitted c _ f.body
    | query hr ht =>
      rw [hr, Frame.emits_front (t := .query) ht]
      exact ⟨_, rfl, rfl, rfl⟩
    | authenticated hr ht hok =>
      rw [hr, Frame.emits_back (t := .authentication) ht, BackType.emits, decide_eq_true hok]
      exact ⟨_, rfl, rfl, rfl⟩
    | authentication hr ht hok =>
      rw [hr, Frame.emits_back (t := .authentication) ht, BackType.emits, decide_eq_false hok]
      exact ⟨rfl, rfl⟩
    | ready hr ht =>
      rw [hr, Frame.emits_back (t := .readyForQuery) ht]
      exact ⟨_, rfl, rfl, rfl⟩
    | rowDescription hr ht =>
      rw [hr, Frame.emits_back (t := .rowDescription) ht, BackType.emits]
      unfold parseRowDescription
      split
      · rw [decide_eq_false (by omega)]
        exact ⟨rfl, rfl⟩
      · rw [decide_eq_true (by omega)]
        exact ⟨_, rfl, rfl, rfl⟩
    | dataRow hr ht =>
      rw [hr, Frame.emits_back (t := .dataRow) ht, BackType.emits]
      unfold parseDataRow
      split
      · rw [decide_eq_false (by omega)]
        exact ⟨rfl, rfl⟩
      · rw [decide_eq_true (by omega)]
        exact ⟨_, rfl, rfl, rfl⟩
    | complete hr ht =>
      rw [hr, Frame.emits_back (t := .commandComplete) ht]
      exact ⟨_, rfl, rfl, rfl⟩
  exact key

/-- The number of events that frames add. -/
def emitted (role : Role) (fs : List Frame) : ℕ := (fs.filter (·.emits role)).length

theorem emitted_cons (role : Role) (f : Frame) (fs : List Frame) :
    emitted role (f :: fs) = (if f.emits role then 1 else 0) + emitted role fs := by
  unfold emitted
  rw [List.filter_cons]
  split
  · rw [List.length_cons, Nat.add_comm]
  · rw [Nat.zero_add]

theorem enqueue_count {r : RingBuf Queued} (h : r.Ok) (q : Queued) : (r.enqueue q).count = min r.size (r.count + 1) := by
  rw [← RingBuf.toList_length, RingBuf.toList_enqueue h, List.length_drop, List.length_append, RingBuf.toList_length,
    List.length_singleton]
  omega

variable {c : Ctx}

theorem handleFrame_size (c : Ctx) (f : Frame) : (c.handleFrame f).queueSize = c.queueSize := by
  have h := handleFrame_emitted c f
  unfold Emitted at h
  unfold Ctx.queueSize
  split at h
  · obtain ⟨q, -, -, he⟩ := h
    rw [he, RingBuf.enqueue_size]
  · rw [h.2]

/-- A frame is handled in a context that satisfies the invariant. -/
theorem handleFrame_ring {f : Frame} (h : c.events.Ok) : (c.handleFrame f).events.Ok := by
  have he := handleFrame_emitted c f
  unfold Emitted at he
  split at he
  · obtain ⟨q, -, -, he⟩ := he
    rw [he]; exact RingBuf.enqueue_ok h q
  · rw [he.2]; exact h

theorem handleFrames_ring (h : c.events.Ok) (fs : List Frame) : (c.handleFrames fs).events.Ok := by
  induction fs generalizing c with
  | nil => exact h
  | cons f fs ih => exact ih (handleFrame_ring h)

/-- **The history and the queue after a sequence of frames.** -/
theorem handleFrames_count (h : c.events.Ok) (fs : List Frame) :
    (∃ l, (c.handleFrames fs).log = c.log ++ l ∧ l.length = emitted c.role fs) ∧
      (c.handleFrames fs).events.count = min c.queueSize (c.events.count + emitted c.role fs) ∧
      (c.handleFrames fs).queueSize = c.queueSize ∧ (c.handleFrames fs).role = c.role := by
  induction fs generalizing c with
  | nil =>
    refine ⟨⟨[], (List.append_nil _).symm, rfl⟩, ?_, rfl, rfl⟩
    exact (min_eq_right h.count).symm
  | cons f fs ih =>
    obtain ⟨⟨l, hl, hn⟩, hc, hs, hr⟩ := ih (handleFrame_ring (f := f) h)
    obtain ⟨-, -, hrole, -⟩ := handleFrame_same c f
    rw [hrole] at hn hc hr
    rw [handleFrame_size] at hc hs
    have he := handleFrame_emitted c f
    unfold Emitted at he
    rw [emitted_cons]
    refine ⟨?_, ?_, hs, hr⟩
    · split_ifs at he ⊢
      · obtain ⟨q, -, hlog, -⟩ := he
        refine ⟨q :: l, ?_, by rw [List.length_cons, hn]; omega⟩
        change ((c.handleFrame f).handleFrames fs).log = _
        rw [hl, hlog, List.append_assoc]
        rfl
      · refine ⟨l, ?_, by rw [hn, Nat.zero_add]⟩
        change ((c.handleFrame f).handleFrames fs).log = _
        rw [hl, he.1]
    · change ((c.handleFrame f).handleFrames fs).events.count = _
      rw [hc]
      split_ifs at he ⊢
      · obtain ⟨q, -, -, hev⟩ := he
        rw [hev, enqueue_count h]
        unfold Ctx.queueSize
        omega
      · rw [he.2, Nat.zero_add]

theorem handleFrames_append (fs gs : List Frame) : c.handleFrames (fs ++ gs) = (c.handleFrames fs).handleFrames gs :=
  List.foldl_append

/-- **Every event of the sequence comes from one of its frames**: `l` is the history when
that frame is reached. -/
theorem log_split {fs : List Frame} {l l' : List Queued} {q : Queued} (hr : c.events.Ok)
    (h : (c.handleFrames fs).log = l ++ q :: l') (hl : c.log.length ≤ l.length) :
    ∃ pre f post, fs = pre ++ f :: post ∧ (c.handleFrames pre).log = l ∧
      ((c.handleFrames pre).handleFrame f).log = l ++ [q] ∧ f.emits c.role = true ∧ q.frame = f.body ∧
      emitted c.role post = l'.length := by
  induction fs generalizing c with
  | nil =>
    have hlen : c.log.length = (l ++ q :: l').length := congrArg List.length h
    rw [List.length_append, List.length_cons] at hlen
    omega
  | cons f fs ih =>
    obtain ⟨-, -, hrole, -⟩ := handleFrame_same c f
    have he := handleFrame_emitted c f
    obtain ⟨⟨m, hm, hmn⟩, -⟩ := handleFrames_count (c := c.handleFrame f) (handleFrame_ring hr) fs
    change ((c.handleFrame f).handleFrames fs).log = _ at h
    have hrec : (c.handleFrame f).log.length ≤ l.length → _ := ih (c := c.handleFrame f) (handleFrame_ring hr) h
    by_cases hle : (c.handleFrame f).log.length ≤ l.length
    · obtain ⟨pre, g, post, h1, h2, h3, h4, h5, h6⟩ := hrec hle
      rw [hrole] at h4 h6
      exact ⟨f :: pre, g, post, by rw [h1]; rfl, h2, h3, h4, h5, h6⟩
    · -- the frame at the front is the one that adds `q`
      unfold Emitted at he
      split at he
      · rename_i hem
        obtain ⟨q₁, hfr, hlog, -⟩ := he
        rw [hlog, List.length_append, List.length_singleton] at hle
        rw [hm, hlog, List.append_assoc] at h
        obtain ⟨h1, h2⟩ := List.append_inj h (by omega)
        simp only [List.singleton_append, List.cons.injEq] at h2
        obtain ⟨rfl, rfl⟩ := h2
        rw [hrole] at hmn
        exact ⟨[], f, fs, rfl, h1, by rw [← h1]; exact hlog, hem, hfr, hmn.symm⟩
      · rw [he.1] at hle
        omega

/-! ## The input buffer -/

/-- What the frames leave at position `p` of the input buffer they start at: the loop moves
every remainder of the stream to the front, and the last one that reaches `p` stays. -/
def Frame.lastAt : List Frame → ℕ → Option UInt8
  | [], _ => none
  | f :: fs, p => (lastAt fs p).or (Frame.encAll (f :: fs))[p]?

theorem lastAt_eq_none {fs : List Frame} {p : ℕ} (h : (Frame.encAll fs).length ≤ p) : Frame.lastAt fs p = none := by
  induction fs with
  | nil => rfl
  | cons f fs ih =>
    have hlen : (Frame.encAll (f :: fs)).length = f.enc.length + (Frame.encAll fs).length := by
      rw [Frame.encAll_cons, List.length_append]
    rw [Frame.lastAt, ih (by omega), List.getElem?_eq_none h]
    rfl

theorem lastAt_isSome {fs : List Frame} {p : ℕ} (h : p < (Frame.encAll fs).length) :
    ∃ v, Frame.lastAt fs p = some v := by
  cases fs with
  | nil => cases h
  | cons f fs =>
    rw [Frame.lastAt, List.getElem?_eq_getElem h]
    cases Frame.lastAt fs p with
    | none => exact ⟨_, rfl⟩
    | some v => exact ⟨v, rfl⟩

theorem getElem?_of_resid (h : c.Ok) {b : Bytes} (hr : c.resid = b) {p : ℕ} (hp : p < b.length) :
    c.inputBuf[p]? = b[p]? := by
  have hlen := resid_length h
  rw [hr] at hlen
  rw [← hr, Ctx.resid, List.getElem?_take_of_lt (by omega)]

/-- **The input buffer after a sequence of frames.** -/
theorem handleFrames_inputBuf {fs : List Frame} (h : c.Ok) (hs : c.awaitsStartup = false) (hf : ∀ f ∈ fs, f.Fits c)
    (hr : c.resid = Frame.encAll fs) (p : ℕ) :
    (c.handleFrames fs).inputBuf[p]? = (Frame.lastAt fs p).or c.inputBuf[p]? := by
  induction fs generalizing c with
  | nil => rfl
  | cons f fs ih =>
    have hlen := resid_length h
    have hin := h.input
    have hall : (Frame.encAll (f :: fs)).length = f.enc.length + (Frame.encAll fs).length := by
      rw [Frame.encAll_cons, List.length_append]
    rw [hr, hall] at hlen
    obtain ⟨-, h2, h3⟩ := feedStep_frames h hs (hf f (List.mem_cons_self ..)) hr
    obtain ⟨ha, hm, -⟩ := handleFrame_same c f
    have hrec := ih h2 (ha.trans hs) (fun g hg => by unfold Frame.Fits; rw [hm]; exact hf g (List.mem_cons_of_mem _ hg)) h3
    change ((c.handleFrame f).handleFrames fs).inputBuf[p]? = _
    rw [hrec, Frame.lastAt]
    by_cases hp : p < (Frame.encAll fs).length
    · -- the remainder behind `f` reaches `p`
      obtain ⟨v, hv⟩ := lastAt_isSome hp
      rw [hv]; rfl
    · rw [lastAt_eq_none (by omega)]
      simp only [Option.none_or]
      have hbuf : (c.handleFrame f).inputBuf[p]? = c.inputBuf[p]? := by
        have hh := handleMessage_handled c f.type 5 f.body
        have he : (c.handleFrame f).inputBuf = shiftDown c.inputBuf f.enc.length (c.inputLen - f.enc.length) := by
          unfold Ctx.handleFrame Ctx.consume
          rw [hh.inputBuf, hh.inputLen]
        rw [he, shiftDown_getElem? (by omega), if_neg (by omega)]
      rw [hbuf]
      by_cases hp' : p < (Frame.encAll (f :: fs)).length
      · rw [getElem?_of_resid h hr hp', List.getElem?_eq_getElem hp']
        rfl
      · have hnone : (Frame.encAll (f :: fs))[p]? = none := List.getElem?_eq_none (by omega)
        rw [hnone]
        rfl

/-- What a pointer into frame `f` denotes once the frames `post` behind it are handled. -/
def Frame.seenAfter (f : Frame) (post : List Frame) (p n : ℕ) : Bytes :=
  (List.range n).map fun j => ((Frame.lastAt post (p + j)).or f.enc[p + j]?).getD 0

/-- **What a pointer into a frame denotes** in the context that the frames behind it leave. -/
theorem slice_handleFrames {f : Frame} {post : List Frame} (h : c.Ok) (hs : c.awaitsStartup = false)
    (hf : ∀ g ∈ f :: post, g.Fits c) (hr : c.resid = Frame.encAll (f :: post)) {p n : ℕ} (hp : p + n ≤ f.enc.length) :
    slice (c.handleFrames (f :: post)).inputBuf p n = f.seenAfter post p n := by
  apply List.ext_getElem?
  intro j
  rw [slice_getElem?, Frame.seenAfter, List.getElem?_map]
  by_cases hj : j < n
  · have hfr : f.enc[p + j]? = some f.enc[p + j] := List.getElem?_eq_getElem (by omega)
    have hall : (Frame.encAll (f :: post))[p + j]? = f.enc[p + j]? := by
      rw [Frame.encAll_cons, List.getElem?_append_left (by omega)]
    rw [if_pos hj, List.getElem?_range hj, handleFrames_inputBuf h hs hf hr, Frame.lastAt, hall, Option.map_some, hfr]
    cases Frame.lastAt post (p + j) with
    | none => rfl
    | some v => rfl
  · rw [if_neg hj, List.getElem?_eq_none (by rw [List.length_range]; omega)]
    rfl

end Pqwire

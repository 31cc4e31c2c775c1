import Pqwire.Proof.Dequeue
import Pqwire.Proof.Views

/-!
# What queued events show when they are dequeued

QUERY, COMMAND_COMPLETE, ROW_DESCRIPTION and PARAMETER_STATUS events are read through
pointers to areas that later frames of the same call write again.

* `read_iff`: an event shows its own payload exactly when no frame behind its own has left
  something else there.
* `payloads_kept_iff`: the same for all events of a call, dequeued one after the other.
-/

namespace Pqwire

open ByteMem LastWrite

/-- The events the payloads of which are read through the context. -/
def Event.pointing : Event → Bool
  | .query => true
  | .commandComplete => true
  | .rowDescription _ => true
  | .parameterStatus _ _ => true
  | _ => false

/-- What the parser read from the body of an event. -/
def ownPayload (body : Bytes) : Event → View
  | .query => { strs := [scratchStr maxQueryLen body] }
  | .commandComplete => { strs := [scratchStr 64 body] }
  | .rowDescription n =>
    { cols := (List.range n).map fun j =>
        ((rowCols body).1[j]?, ((rowCols body).2.getD j (0, 0)).1, ((rowCols body).2.getD j (0, 0)).2) }
  | .parameterStatus _ _ => { blobs := [some body] }
  | _ => {}

/-- The frames `post` leave the payload of event `ev` of frame `f` as it is: the last of them
that writes to a place of the payload writes there what `f` wrote. -/
def Undisturbed (role : Role) (f : Frame) (post : List Frame) : Event → Prop
  | .query => ∀ s, lastOf (Frame.sql role) post = some s → s = scratchStr maxQueryLen f.body
  | .commandComplete => ∀ s, lastOf (Frame.tag role) post = some s → s = scratchStr 64 f.body
  | .rowDescription n => ∀ j < n,
      (∀ s, lastOf (fun g => Frame.colName role g j) post = some s → f.colName role j = some s) ∧
      ∀ d, lastOf (fun g => Frame.colDesc role g j) post = some d → f.colDesc role j = some d
  | .parameterStatus p n => ∀ k, p ≤ k → k < p + n → ∀ v, Frame.lastAt post k = some v → f.enc[k]? = some v
  | _ => True

/-! ## One event -/

/-- A pointer into a frame still denotes its bytes exactly when nothing else was left there. -/
theorem seenAfter_eq_iff {f : Frame} {p n : ℕ} (h : p + n ≤ f.enc.length) (post : List Frame) :
    f.seenAfter post p n = slice f.enc p n ↔
      ∀ k, p ≤ k → k < p + n → ∀ v, Frame.lastAt post k = some v → f.enc[k]? = some v := by
  have hat : ∀ j < n, ∃ u, f.enc[p + j]? = some u ∧ (slice f.enc p n)[j]? = some u ∧
      (f.seenAfter post p n)[j]? = some ((Frame.lastAt post (p + j)).getD u) := by
    intro j hj
    have hu : f.enc[p + j]? = some f.enc[p + j] := List.getElem?_eq_getElem (by omega)
    refine ⟨f.enc[p + j], hu, by rw [slice_getElem?, if_pos hj, hu], ?_⟩
    rw [Frame.seenAfter, List.getElem?_map, List.getElem?_range hj, Option.map_some, hu, Option.getD_or]
    rfl
  constructor
  · intro heq k hk hlt v hv
    obtain ⟨j, rfl⟩ : ∃ j, k = p + j := ⟨k - p, by omega⟩
    obtain ⟨u, h1, h2, h3⟩ := hat j (by omega)
    rw [heq, h2, hv] at h3
    rw [h1]
    exact h3
  · intro hk
    apply List.ext_getElem?
    intro j
    by_cases hj : j < n
    · obtain ⟨u, h1, h2, h3⟩ := hat j hj
      rw [h2, h3]
      have hkeep : (Frame.lastAt post (p + j)).getD u = u := by
        refine getD_eq_iff.2 ?_
        intro v hv
        have := hk (p + j) (by omega) (by omega) v hv
        rw [h1] at this
        exact (Option.some_inj.1 this).symm
      rw [hkeep]
    · rw [slice_getElem?, if_neg hj, List.getElem?_eq_none]
      rw [Frame.seenAfter, List.length_map, List.length_range]
      omega

/-- A description that was written at index `j` has its name at index `j`. -/
theorem lastOf_colDesc_name {role : Role} {post : List Frame} {j : ℕ} {d : ColDesc}
    (h : lastOf (fun g => Frame.colDesc role g j) post = some d) : d.name = some j := by
  induction post with
  | nil => cases h
  | cons g post ih =>
    rw [lastOf] at h
    cases hl : lastOf (fun g => Frame.colDesc role g j) post with
    | some d' =>
      rw [hl] at h
      exact ih (hl.trans h)
    | none =>
      rw [hl, Option.none_or, Frame.colDesc] at h
      split at h
      · obtain ⟨r, -, rfl⟩ := Option.map_eq_some_iff.1 h
        rfl
      · cases h

/-- Column `j` once the frames `post` behind a RowDescription are handled. -/
theorem column_iff {c : Ctx} {f : Frame} (h : ScratchOk .client c) (ht : f.type = ch 'T') (post : List Frame) {j : ℕ}
    (hj : j < (rowCols f.body).2.length) :
    ((c.handleFrame f).handleFrames post).column j =
        ((rowCols f.body).1[j]?, ((rowCols f.body).2.getD j (0, 0)).1, ((rowCols f.body).2.getD j (0, 0)).2) ↔
      (∀ s, lastOf (fun g => Frame.colName .client g j) post = some s → f.colName .client j = some s) ∧
      ∀ d, lastOf (fun g => Frame.colDesc .client g j) post = some d → f.colDesc .client j = some d := by
  have hle := (rowCols_length f.body).1
  have hn : (rowCols f.body).1[j]? = some (rowCols f.body).1[j] := List.getElem?_eq_getElem (by omega)
  have hd : (rowCols f.body).2[j]? = some (rowCols f.body).2[j] := List.getElem?_eq_getElem hj
  have hname : f.colName .client j = some (rowCols f.body).1[j] := by rw [Frame.colName, if_pos ⟨rfl, ht⟩, hn]
  have hdesc : f.colDesc .client j = some ⟨some j, (rowCols f.body).2[j].1, (rowCols f.body).2[j].2⟩ := by
    rw [Frame.colDesc, if_pos ⟨rfl, ht⟩, hd, Option.map_some]
  have hsc := handleFrame_scratched h.cols h.names f
  have hok := handleFrame_scratchOk h f
  have h1 := handleFrames_name hok post j
  have h2 := handleFrames_desc hok post j
  rw [hsc.name, h.role, hname, Option.getD_some] at h1
  rw [hsc.desc, h.role, hdesc, Option.getD_some] at h2
  set o := lastOf (fun g => Frame.colDesc .client g j) post with ho
  have hat : (o.getD ⟨some j, (rowCols f.body).2[j].1, (rowCols f.body).2[j].2⟩).name = some j := by
    cases hl : o with
    | none => rfl
    | some d => exact lastOf_colDesc_name hl
  have hcol : ((c.handleFrame f).handleFrames post).column j =
      (some ((lastOf (fun g => Frame.colName .client g j) post).getD (rowCols f.body).1[j]),
        (o.getD ⟨some j, (rowCols f.body).2[j].1, (rowCols f.body).2[j].2⟩).oid,
        (o.getD ⟨some j, (rowCols f.body).2[j].1, (rowCols f.body).2[j].2⟩).format) := by
    unfold Ctx.column
    dsimp only
    rw [h2, hat, Option.map_some, h1]
  rw [hcol, hname, hdesc, hn, List.getD_eq_getElem?_getD, hd, Option.getD_some, Prod.mk.injEq, Prod.mk.injEq,
    Option.some_inj, getD_eq_iff]
  constructor
  · rintro ⟨hk, hoid, hfmt⟩
    refine ⟨fun s hs => by rw [hk s hs], fun d hl => ?_⟩
    rw [hl] at hat hoid hfmt
    cases d
    cases hat
    cases hoid
    cases hfmt
    rfl
  · rintro ⟨hk, hkd⟩
    have hown : o.getD ⟨some j, (rowCols f.body).2[j].1, (rowCols f.body).2[j].2⟩ =
        ⟨some j, (rowCols f.body).2[j].1, (rowCols f.body).2[j].2⟩ :=
      getD_eq_iff.2 fun d hl => (Option.some_inj.1 (hkd d hl)).symm
    rw [hown]
    exact ⟨fun s hs => (Option.some_inj.1 (hk s hs)).symm, rfl, rfl⟩

/-- **An event shows its own payload exactly when it is undisturbed.** -/
theorem read_iff {c : Ctx} {fs pre post : List Frame} {f : Frame} {ev : Event} (h : Reached c fs pre f post)
    (he : EventOf c.role f ev) (hp : ev.pointing = true) :
    (c.handleFrames fs).read ev = ownPayload f.body ev ↔ Undisturbed c.role f post ev := by
  have hc : ScratchOk c.role (c.handleFrames pre) := ⟨h.role, h.ok.cols, h.ok.names⟩
  have hok := handleFrame_scratchOk hc f
  have hsc := handleFrame_scratched hc.cols hc.names f
  have hrest : c.handleFrames fs = ((c.handleFrames pre).handleFrame f).handleFrames post := h.rest
  cases ev with
  | query =>
    obtain ⟨hr, ht⟩ := he
    have hown : ((c.handleFrames pre).handleFrame f).sqlScratch = scratchStr maxQueryLen f.body := by
      rw [hsc.sql, h.role, Frame.sql, if_pos ⟨hr, ht⟩]
      rfl
    have hread := handleFrames_sql hok post
    rw [hown] at hread
    simp only [Ctx.read, ownPayload, Undisturbed, View.mk.injEq, List.cons.injEq, and_true]
    rw [hrest, hread]
    exact getD_eq_iff
  | commandComplete =>
    obtain ⟨hr, ht⟩ := he
    have hown : ((c.handleFrames pre).handleFrame f).tagScratch = scratchStr 64 f.body := by
      rw [hsc.tag, h.role, Frame.tag, if_pos ⟨hr, ht⟩]
      rfl
    have hread := handleFrames_tag hok post
    rw [hown] at hread
    simp only [Ctx.read, ownPayload, Undisturbed, View.mk.injEq, List.cons.injEq, and_true]
    rw [hrest, hread]
    exact getD_eq_iff
  | rowDescription n =>
    obtain ⟨hr, ht, rfl⟩ := he
    rw [hr] at hc
    simp only [Ctx.read, ownPayload, Undisturbed, View.mk.injEq, true_and, and_true]
    rw [List.map_inj_left, hrest, hr]
    constructor
    · intro hall j hj
      exact (column_iff hc ht post hj).1 (hall j (List.mem_range.2 hj))
    · intro hall j hj
      exact (column_iff hc ht post (List.mem_range.1 hj)).2 (hall j (List.mem_range.1 hj))
  | parameterStatus p n =>
    obtain ⟨-, -, rfl, rfl⟩ := he
    have hlen : 5 + f.body.length ≤ f.enc.length := by rw [f.enc_length]; unfold Frame.len; omega
    simp only [Ctx.read, ownPayload, Undisturbed, View.mk.injEq, List.cons.injEq, and_true, true_and, Option.some_inj]
    rw [h.rest, slice_handleFrames h.ok h.typed h.fits h.resid hlen]
    nth_rewrite 2 [← f.slice_enc]
    exact seenAfter_eq_iff hlen post
  | _ => cases hp

/-- A frame with a pointing event, handled: the event it adds is that one. -/
theorem pointing_event {c : Ctx} {f : Frame} {ev : Event} {q : Queued} (hc : c.Ok) (he : EventOf c.role f ev)
    (hp : ev.pointing = true) (hq : (c.handleFrame f).log = c.log ++ [q]) : q.ev = ev := by
  change (handleMessage c f.type 5 f.body).log = c.log ++ [q] at hq
  cases ev with
  | query =>
    obtain ⟨hr, ht⟩ := he
    rw [ht] at hq
    change (handleMessage c FrontType.query.byte 5 f.body).log = _ at hq
    rw [handleMessage_front hr] at hq
    exact event_of_log (c := c) rfl hq
  | commandComplete =>
    obtain ⟨hr, ht⟩ := he
    rw [ht] at hq
    change (handleMessage c BackType.commandComplete.byte 5 f.body).log = _ at hq
    rw [handleMessage_back hr] at hq
    exact event_of_log (c := c) rfl hq
  | rowDescription n =>
    obtain ⟨hr, ht, rfl⟩ := he
    rw [ht] at hq
    change (handleMessage c BackType.rowDescription.byte 5 f.body).log = _ at hq
    rw [handleMessage_back hr] at hq
    exact (parseRowDescription_spec hc.cols hc.names f.body).2.2 q hq
  | parameterStatus p n =>
    obtain ⟨hr, ht, rfl, rfl⟩ := he
    rw [ht] at hq
    change (handleMessage c BackType.parameterStatus.byte 5 f.body).log = _ at hq
    rw [handleMessage_back hr] at hq
    exact event_of_log (c := c) rfl hq
  | _ => cases hp

/-- A frame that adds no event has no payload either. -/
theorem undisturbed_of_silent {role : Role} {f : Frame} {ev : Event} (he : EventOf role f ev)
    (hs : f.emits role = false) (post : List Frame) : Undisturbed role f post ev := by
  cases ev with
  | query =>
    obtain ⟨rfl, ht⟩ := he
    rw [Frame.emits_front (t := .query) ht] at hs
    cases hs
  | commandComplete =>
    obtain ⟨rfl, ht⟩ := he
    rw [Frame.emits_back (t := .commandComplete) ht] at hs
    cases hs
  | rowDescription n =>
    obtain ⟨rfl, ht, rfl⟩ := he
    rw [Frame.emits_back (t := .rowDescription) ht] at hs
    have hshort : f.body.length < 2 := by simpa [BackType.emits] using hs
    intro j hj
    rw [rowCols, if_pos hshort] at hj
    cases hj
  | parameterStatus p n =>
    obtain ⟨rfl, ht, -⟩ := he
    rw [Frame.emits_back (t := .parameterStatus) ht] at hs
    cases hs
  | _ => trivial

/-! ## A call -/

/-- A call of `pqwire_feed_input` on `data` completes the frames `fs`: behind the startup
message, if the context still waits for it. -/
inductive Completes (c : Ctx) (data : Bytes) (fs : List Frame) : Prop
  | typed : c.awaitsStartup = false → c.resid ++ data = Frame.encAll fs → Completes c data fs
  | startup (s : Startup) : c.awaitsStartup = true → s.Fits c → c.resid ++ data = s.enc ++ Frame.encAll fs →
      Completes c data fs

/-- Events of the call that leads from `c` to `c'`, dequeued from `c'`, show what the parser
read from their frames. -/
def PayloadsKept (c c' : Ctx) : Prop :=
  ∀ d d' q, Dequeues c' d → d.nextEvent = some (q, d') → c.log.length + d.events.count ≤ d.log.length →
    q.ev.pointing = true → d'.read q.ev = ownPayload q.frame q.ev

/-- The context at the first typed frame of a call. -/
theorem completes_call {c c₁ : Ctx} {data : Bytes} {fs : List Frame} (hok : c.Ok) (ha : c.acceptInput data = some c₁)
    (h : Completes c data fs) (hf : ∀ f ∈ fs, f.Fits c) :
    ∃ c₂, Feeds c data (c₂.handleFrames fs) ∧ c₂.Ok ∧ c₂.awaitsStartup = false ∧ (∀ f ∈ fs, f.Fits c₂) ∧
      c₂.resid = Frame.encAll fs ∧ c₂.role = c.role ∧ c₂.queueSize = c.queueSize ∧
      ∃ l, c₂.log = c.log ++ l ∧ ∀ q ∈ l, q.ev.pointing = false := by
  have hok₁ := acceptInput_ok hok ha
  have hres₁ := acceptInput_resid hok ha
  obtain ⟨haw, hrole, hmax, hlog, hev⟩ := acceptInput_same ha
  have hsize : c₁.queueSize = c.queueSize := by unfold Ctx.queueSize; rw [hev]
  cases h with
  | typed hs hr =>
    rw [hr] at hres₁
    refine ⟨c₁, feeds_frames hok hs ha hf hr, hok₁, haw.trans hs, ?_, hres₁, hrole, hsize, [], ?_, ?_⟩
    · intro f hm
      unfold Frame.Fits
      rw [hmax]
      exact hf f hm
    · rw [hlog, List.append_nil]
    · intro q hq
      cases hq
  | startup s hs hfit hr =>
    rw [hr] at hres₁
    have hfit₁ : s.Fits c₁ := by
      unfold Startup.Fits
      rw [hmax]
      exact hfit
    obtain ⟨hstep, hok₂, hres₂⟩ := feedStep_startup hok₁ (haw.trans hs) hfit₁ hres₁
    obtain ⟨q, hq, -, hlog₂, hev₂, haw₂, hrole₂, hmax₂⟩ := handleStartup_same c₁ s.body s.len
    have hfit₂ : ∀ f ∈ fs, f.Fits ((parseStartupBody c₁ s.body).consume s.len) := by
      intro f hm
      unfold Frame.Fits
      rw [hmax₂, hmax]
      exact hf f hm
    refine ⟨_, ⟨c₁, ha, .again hstep (loops_frames hok₂ haw₂ hfit₂ hres₂)⟩, hok₂, haw₂, hfit₂, hres₂,
      hrole₂.trans hrole, ?_, [q], by rw [hlog₂, hlog], ?_⟩
    · unfold Ctx.queueSize
      rw [hev₂, RingBuf.enqueue_size, hev]
    · intro q' hq'
      rw [List.mem_singleton.1 hq', hq]
      rfl

theorem suffix_split {α : Type*} {s xs a l : List α} {x : α} (h : s ++ xs = a ++ x :: l) (hl : l.length < xs.length) :
    ∃ k, xs = k ++ x :: l := by
  have hsuf : x :: l <:+ xs := by
    have h1 : x :: l <:+ s ++ xs := by rw [h]; exact List.suffix_append _ _
    exact List.suffix_of_suffix_length_le h1 (List.suffix_append _ _) hl
  obtain ⟨k, hk⟩ := hsuf
  exact ⟨k, hk.symm⟩

/-- **Which events of a call show their own payload.** `c` is any context of either role;
the call returns, and the events are dequeued with no further feed. -/
theorem payloads_kept_iff {c c₁ : Ctx} {data : Bytes} {fs : List Frame} (hc : Reachable c)
    (ha : c.acceptInput data = some c₁) (h : Completes c data fs) (hf : ∀ f ∈ fs, f.Fits c) :
    ∃ c', Feeds c data c' ∧ (PayloadsKept c c' ↔
      ∀ pre f post, fs = pre ++ f :: post → emitted c.role post < c.queueSize →
        ∀ ev, EventOf c.role f ev → Undisturbed c.role f post ev) := by
  obtain ⟨hok, hw⟩ := reachable_ok hc
  obtain ⟨c₂, hfeed, hok₂, haw₂, hfit₂, hres₂, hrole, hsize, l₀, hlog, hl₀⟩ := completes_call hok ha h hf
  have hend : (c₂.handleFrames fs).Ok ∧ (c₂.handleFrames fs).Waits := by
    obtain ⟨fuel, hfi⟩ := feeds_feedInput hfeed
    exact step_ok (.feed hfi) hok hw
  obtain ⟨⟨m, hm, -⟩, hcount, -⟩ := handleFrames_count hok₂.ring fs
  obtain ⟨s, hs⟩ := hend.1.queue
  refine ⟨_, hfeed, ?_, ?_⟩
  · intro hP pre f post hsp hq ev he
    by_cases hem : f.emits c.role = true
    · cases hp : ev.pointing with
      | true =>
        rw [← hrole] at hem he hq
        rw [← hrole]
        have hre := reached hok₂ haw₂ hfit₂ hres₂ hsp
        obtain ⟨q, l', h1, h2, h3, h4, -, h6⟩ := event_at hok₂ haw₂ hfit₂ hres₂ hsp hem
        have hev := pointing_event hre.ok (by rw [hre.role]; exact he) hp h2
        -- the queue holds the end of the history, and so the event
        obtain ⟨k, hk⟩ := suffix_split (hs.trans h1) (by rw [RingBuf.toList_length]; exact h6.2 (by rw [hsize]; exact hq))
        obtain ⟨d, d', hd, hn, hl⟩ := dequeues_reach hend.1 hend.2 hk
        obtain ⟨-, -, hread, hlogd, -⟩ := dequeues_spec hd hend.1 hend.2
        have hcnt : d.events.count = l'.length + 1 := by rw [← RingBuf.toList_length, hl]; rfl
        have hpay := hP d d' q hd hn (by
          rw [hlogd, h1, hcnt, List.length_append, List.length_cons]
          rw [hlog, List.length_append] at h4
          omega) (by rw [hev]; exact hp)
        rw [nextEvent_read hn, hread, hev, h3] at hpay
        exact (read_iff hre he hp).1 hpay
      | false => cases ev <;> trivial
    · exact undisturbed_of_silent he (by simpa using hem) post
  · intro hC d d' q hd hn hle hp
    obtain ⟨hokd, -, hread, hlogd, l, hl⟩ := dequeues_spec hd hend.1 hend.2
    obtain ⟨hl', -⟩ := nextEvent_cases hokd hn
    rw [hl'] at hl
    have hlen : d.events.count = d'.events.toList.length + 1 := by rw [← RingBuf.toList_length, hl']; rfl
    have hqlen : l.length + d.events.count ≤ c₂.queueSize := by
      have := congrArg List.length hl
      rw [RingBuf.toList_length, List.length_append, List.length_cons, ← hlen] at this
      omega
    have hall : (c₂.handleFrames fs).log = (s ++ l) ++ q :: d'.events.toList := by
      rw [← hs, hl, List.append_assoc]
    rw [hlogd, hall, hlen, List.length_append, List.length_cons] at hle
    -- an event of the call that points somewhere comes from a typed frame
    have hle₂ : c₂.log.length ≤ (s ++ l).length := by
      by_contra hlt
      have hat : (c.log ++ l₀ ++ m)[(s ++ l).length]? = some q := by
        rw [← hlog, ← hm, hall, List.getElem?_append_right le_rfl, Nat.sub_self]
        rfl
      rw [List.getElem?_append_left (by rw [← hlog]; omega), List.getElem?_append_right (by omega)] at hat
      rw [hl₀ q (List.mem_of_getElem? hat)] at hp
      cases hp
    obtain ⟨pre, f, post, hsp, h2, h3, -, h5, h6⟩ := log_split hok₂.ring hall hle₂
    have hre := reached hok₂ haw₂ hfit₂ hres₂ hsp
    rw [← h2] at h3
    have hof := handleFrame_event hre.ok.cols hre.ok.names h3
    rw [hre.role, hrole] at hof
    have hkeep := hC pre f post hsp (by rw [← hrole, h6, ← hsize]; omega) _ hof
    rw [nextEvent_read hn, hread, h5]
    rw [← hrole] at hof hkeep
    exact (read_iff hre hof hp).2 hkeep

/-- A Query of one character. -/
def oneQuery (v : UInt8) : Frame := ⟨ch 'Q', [v, 0], show 6 < 2 ^ 32 by decide⟩

/-- Two Queries of the same text in one call keep it. -/
theorem payloads_kept_pair : ∃ c', Feeds (startedServer 16 64) (Frame.encAll [oneQuery 97, oneQuery 97]) c' ∧
    PayloadsKept (startedServer 16 64) c' := by
  obtain ⟨c₁, ha⟩ := startedServer_accepts 16 64 (Frame.encAll [oneQuery 97, oneQuery 97])
  have hfits : ∀ f ∈ [oneQuery 97, oneQuery 97], f.Fits (startedServer 16 64) := by decide
  obtain ⟨c', hfeed, hiff⟩ :=
    payloads_kept_iff (startedServer_reachable (by decide) (by decide)) ha (.typed rfl rfl) hfits
  refine ⟨c', hfeed, hiff.2 ?_⟩
  intro pre f post hsp _ ev hev
  obtain ⟨rfl, hpost⟩ := pair_split hsp
  cases ev with
  | query =>
    intro s hs
    rcases hpost with rfl | rfl
    · cases hs
    · exact Option.some.inj (hs.symm.trans (by decide))
  | commandComplete => exact absurd hev.1 (by decide)
  | rowDescription n => exact absurd hev.1 (by decide)
  | parameterStatus p n => exact absurd hev.1 (by decide)
  | _ => trivial

/-- The text of a Query is read as that of the next one in the same call. -/
theorem payloads_lost_two : Reachable (startedServer 16 64) ∧
    ∃ c', Feeds (startedServer 16 64) (Frame.encAll [oneQuery 97, oneQuery 98]) c' ∧
      c'.events.count ≤ c'.queueSize ∧ ¬PayloadsKept (startedServer 16 64) c' := by
  have hr : Reachable (startedServer 16 64) := startedServer_reachable (by decide) (by decide)
  obtain ⟨c₁, ha⟩ := startedServer_accepts 16 64 (Frame.encAll [oneQuery 97, oneQuery 98])
  have hfit : ∀ f ∈ [oneQuery 97, oneQuery 98], f.Fits (startedServer 16 64) := by decide
  have hfeed := feeds_frames (reachable_ok hr).1 rfl ha hfit rfl
  obtain ⟨fuel, hfi⟩ := feeds_feedInput hfeed
  obtain ⟨hok, hw⟩ := reachable_ok (hr.step (.feed hfi))
  have hc₁ : c₁ = (startedServer 16 64).setInput (blit startupBytes 0 (Frame.encAll [oneQuery 97, oneQuery 98])) 14 4096 :=
    Option.some_inj.1 (ha.symm.trans rfl)
  have hl : (c₁.handleFrames [oneQuery 97, oneQuery 98]).events.toList =
      [⟨.startup, [0, 3, 0, 0], { strs := [CStr.empty, CStr.empty] }⟩] ++
      ⟨.query, [97, 0], { strs := [scratchStr maxQueryLen [97, 0]] }⟩ ::
      [⟨.query, [98, 0], { strs := [scratchStr maxQueryLen [98, 0]] }⟩] := by
    rw [hc₁]; decide
  have hlog : (c₁.handleFrames [oneQuery 97, oneQuery 98]).log.length = 3 := by rw [hc₁]; decide
  refine ⟨hr, _, hfeed, hok.ring.count, ?_⟩
  intro h
  obtain ⟨d, d', hd, hn, hq⟩ := dequeues_reach hok hw hl
  obtain ⟨-, -, hread, hlogd, -⟩ := dequeues_spec hd hok hw
  have hcount : d.events.count = 2 := by rw [← RingBuf.toList_length, hq]; rfl
  have hshown := h d d' _ hd hn (by rw [hlogd, hlog, hcount]; decide) rfl
  rw [nextEvent_read hn, hread, hc₁] at hshown
  exact absurd hshown (by decide)

end Pqwire

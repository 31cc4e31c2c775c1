import Pqwire.Lib.DropOldest
import Pqwire.Proof.Pipeline
import Pqwire.Proof.Recovery
import Pqwire.Spec.Filter

/-!
# Filtering leaves everything but the filtered events alone

* `handleBackend_queue`: what a backend message does to the queue and what it does to the rest of
  a client do not depend on each other; a message that is filtered does nothing to the rest.
* `filtered_stream`: a client that gets the filtered stream differs from one that gets all of it
  in the events of the filtered messages.
-/

namespace Pqwire

open ByteMem LastWrite

/-! ## The queue -/

/-- The context with another queue and another history. -/
def Ctx.setQueue (c : Ctx) (events : RingBuf Queued) (log : List Queued) : Ctx := { c with events := events, log := log }

/-- The context after the events `l`. -/
def Ctx.emit (c : Ctx) (l : List Queued) : Ctx := c.setQueue (l.foldl RingBuf.enqueue c.events) (c.log ++ l)

/-- **Enqueuing keeps the last entries.** -/
theorem toList_enqueues {r : RingBuf Queued} (h : r.Ok) (l : List Queued) :
    (l.foldl RingBuf.enqueue r).toList = (r.toList ++ l).rtake r.size ∧ (l.foldl RingBuf.enqueue r).Ok := by
  induction l generalizing r with
  | nil =>
    refine ⟨?_, h⟩
    have hc := h.count
    rw [List.append_nil, List.rtake, RingBuf.toList_length, Nat.sub_eq_zero_of_le hc]
    rfl
  | cons q l ih =>
    obtain ⟨hl, hok⟩ := ih (RingBuf.enqueue_ok h q)
    refine ⟨?_, hok⟩
    have hone : (r.enqueue q).toList = (r.toList ++ [q]).rtake r.size := by
      rw [RingBuf.toList_enqueue h, List.rtake, List.length_append, RingBuf.toList_length]
      rfl
    rw [List.foldl_cons, hl, RingBuf.enqueue_size, hone, DropOldest.rtake_append_rtake, List.append_assoc]
    rfl

/-! ## One message -/

/-- What a handler does, apart from the queue and to the queue. -/
structure Emitting (handle : Ctx → Ctx) (c : Ctx) (type : UInt8) (l : List Queued) : Prop where
  queue : ∀ events log, handle (c.setQueue events log) = ((handle c).setQueue events log).emit l
  passes : ∀ skip, ∀ q ∈ l, q.ev.passes skip = !pipelineFilterBackendType type skip
  filtered : ∀ skip, pipelineFilterBackendType type skip = true → handle c = c.emit l

theorem read_setQueue {c : Ctx} (events : RingBuf Queued) (log : List Queued) (ev : Event) :
    (c.setQueue events log).read ev = c.read ev := by
  cases ev <;> rfl

theorem Emitting.congr {handle handle' : Ctx → Ctx} {c : Ctx} {type : UInt8} {l : List Queued} (h : Emitting handle c type l)
    (heq : ∀ events log, handle' (c.setQueue events log) = handle (c.setQueue events log)) : Emitting handle' c type l := by
  have hself : handle' c = handle c := heq c.events c.log
  refine ⟨?_, h.passes, ?_⟩
  · intro events log
    rw [heq, hself]
    exact h.queue events log
  · intro skip hskip
    rw [hself]
    exact h.filtered skip hskip

/-- The queue and the history that a handler leaves. -/
theorem Emitting.self {handle : Ctx → Ctx} {c : Ctx} {type : UInt8} {l : List Queued} (h : Emitting handle c type l) :
    (handle c).events = l.foldl RingBuf.enqueue c.events ∧ (handle c).log = c.log ++ l := by
  have hself : handle c = ((handle c).setQueue c.events c.log).emit l := h.queue c.events c.log
  rw [hself]
  exact ⟨rfl, rfl⟩

/-- A message that is ignored. -/
theorem Emitting.ignored {c : Ctx} {type : UInt8} : Emitting (fun c => c) c type [] := by
  refine ⟨?_, ?_, ?_⟩
  · intro events log
    unfold Ctx.emit Ctx.setQueue
    rw [List.append_nil]
    rfl
  · intro skip q hq
    cases hq
  · intro skip _
    unfold Ctx.emit Ctx.setQueue
    rw [List.append_nil]
    rfl

/-- A message that is one event and nothing else. -/
theorem Emitting.event {c : Ctx} {type : UInt8} {ev : Event} (body : Bytes)
    (hp : ∀ skip, ev.passes skip = !pipelineFilterBackendType type skip) :
    Emitting (fun c => c.enqueueEvent ev body) c type [⟨ev, body, c.read ev⟩] := by
  refine ⟨?_, ?_, fun _ _ => rfl⟩
  · intro events log
    unfold Ctx.enqueueEvent
    rw [read_setQueue]
    rfl
  · intro skip q hq
    rw [List.mem_singleton.1 hq]
    exact hp skip

/-- A message that is never filtered: the rest of the context is changed by `f` and `g`, before and
behind its event. -/
theorem Emitting.passed {c : Ctx} {type : UInt8} {f g : Ctx → Ctx} {e : Ctx → Event} (body : Bytes)
    (hf : ∀ c events log, f (c.setQueue events log) = (f c).setQueue events log)
    (hg : ∀ c events log, g (c.setQueue events log) = (g c).setQueue events log)
    (he : ∀ c events log, e (c.setQueue events log) = e c)
    (hev : ∀ c skip, (e c).passes skip = true) (ht : ∀ skip, pipelineFilterBackendType type skip = false) :
    Emitting (fun c => g ((f c).enqueueEvent (e c) body)) c type [⟨e c, body, (f c).read (e c)⟩] := by
  have henq : ∀ (d : Ctx) (ev : Event), d.enqueueEvent ev body = d.setQueue (d.events.enqueue ⟨ev, body, d.read ev⟩)
      (d.log ++ [⟨ev, body, d.read ev⟩]) := fun _ _ => rfl
  refine ⟨?_, ?_, ?_⟩
  · intro events log
    rw [hf, he, henq, henq, read_setQueue, hg, hg, hg]
    rfl
  · intro skip q hq
    rw [List.mem_singleton.1 hq, hev, ht]
    rfl
  · intro skip h
    rw [ht] at h
    cases h

/-- The types that are filtered. -/
theorem filter_types (t : BackType) (skip : Bool) : pipelineFilterBackendType t.byte skip =
    match t with
    | .parameterStatus | .noticeResponse | .backendKeyData => true
    | .parseComplete | .bindComplete => skip
    | _ => false := by
  cases t <;> cases skip <;> rfl

/-- **A backend message acts on the queue and on the rest of a client separately.** -/
theorem handleBackend_emitting (c : Ctx) (base : ℕ) (body : Bytes) (t : BackType) :
    ∃ l, Emitting (fun c => handleBackend c base body t) c t.byte l := by
  have hid : ∀ (c : Ctx) (events : RingBuf Queued) (log : List Queued),
      id (c.setQueue events log) = (id c).setQueue events log := fun _ _ _ => rfl
  cases t with
  | authentication =>
    by_cases hok : 4 ≤ body.length ∧ rd32Be body 0 = 0
    · have heq : (fun c => handleBackend c base body .authentication) =
          fun c => { (id c).enqueueEvent .authenticationOk body with authState := .done } := funext fun _ => if_pos hok
      rw [heq]
      exact ⟨_, .passed (g := fun c => { c with authState := .done }) body hid (fun _ _ _ => rfl) (fun _ _ _ => rfl)
        (fun _ _ => rfl) (filter_types .authentication)⟩
    · have heq : (fun c => handleBackend c base body .authentication) = fun c => c := funext fun _ => if_neg hok
      rw [heq]
      exact ⟨_, .ignored⟩
  | readyForQuery =>
    exact ⟨_, .passed (g := fun c => { c with protoState := .ready }) (e := fun _ => .readyForQuery) body hid
      (fun _ _ _ => rfl) (fun _ _ _ => rfl) (fun _ _ => rfl) (filter_types .readyForQuery)⟩
  | rowDescription =>
    by_cases hshort : body.length < 2
    · have heq : (fun c => handleBackend c base body .rowDescription) = fun c => c := funext fun _ => if_pos hshort
      rw [heq]
      exact ⟨_, .ignored⟩
    · set cols := fun c : Ctx => rowDescLoop body (min (rd16Be body 0) maxRowColumns) 0 2 c.colScratch c.colNameScratch
      have heq : (fun c => handleBackend c base body .rowDescription) = fun c =>
          id ({ c with colScratch := (cols c).1, colNameScratch := (cols c).2.1 }.enqueueEvent
            (.rowDescription (cols c).2.2) body) := funext fun _ => if_neg hshort
      rw [heq]
      exact ⟨_, .passed (f := fun c => { c with colScratch := (cols c).1, colNameScratch := (cols c).2.1 })
        (e := fun c => .rowDescription (cols c).2.2) body (fun _ _ _ => rfl) hid (fun _ _ _ => rfl) (fun _ _ => rfl)
        (filter_types .rowDescription)⟩
  | dataRow =>
    by_cases hshort : body.length < 2
    · have heq : (fun c => handleBackend c base body .dataRow) = fun c => c := funext fun _ => if_pos hshort
      rw [heq]
      exact ⟨_, .ignored⟩
    · set row := fun c : Ctx => dataRowLoop body (min (rd16Be body 0) maxRowColumns) 2 c.rowArena c.rowArenaUsed
      have heq : (fun c => handleBackend c base body .dataRow) = fun c =>
          id ({ c with rowArena := (row c).arena, rowArenaUsed := (row c).used }.enqueueEvent
            (.dataRow ⟨(row c).columns⟩) body) := funext fun _ => if_neg hshort
      rw [heq]
      exact ⟨_, .passed (f := fun c => { c with rowArena := (row c).arena, rowArenaUsed := (row c).used })
        (e := fun c => .dataRow ⟨(row c).columns⟩) body (fun _ _ _ => rfl) hid (fun _ _ _ => rfl) (fun _ _ => rfl)
        (filter_types .dataRow)⟩
  | commandComplete =>
    exact ⟨_, .passed (f := fun c => { c with tagScratch := scratchStr 64 body }) (g := fun c => { c with protoState := .ready })
      (e := fun _ => .commandComplete) body (fun _ _ _ => rfl) (fun _ _ _ => rfl) (fun _ _ _ => rfl) (fun _ _ => rfl)
      (filter_types .commandComplete)⟩
  | notification =>
    cases hn : notificationOf body with
    | none =>
      have heq : (fun c => handleBackend c base body .notification) = fun c => c := by
        funext c
        simp only [handleBackend, parseNotificationResponse, hn]
      rw [heq]
      exact ⟨_, .ignored⟩
    | some n =>
      have heq : (fun c => handleBackend c base body .notification) = fun c => c.enqueueEvent (.notification n) body := by
        funext c
        simp only [handleBackend, parseNotificationResponse, hn]
      rw [heq]
      exact ⟨_, .event body fun skip => by rw [filter_types]; rfl⟩
  | backendKeyData => exact ⟨_, .ignored⟩
  | _ => exact ⟨_, .event body fun skip => by rw [filter_types]; rfl⟩

/-- **The same for a message that a client receives.** -/
theorem receive_emitting {c : Ctx} (hr : c.role = .client) (hc : c.core = c) (f : Frame) :
    ∃ l, Emitting (fun c => c.receive f) c f.type l := by
  set load : Ctx → Ctx := fun c => { c with inputBuf := f.enc, inputLen := f.enc.length, inputCap := 0 }
  obtain ⟨l, hl⟩ : ∃ l, Emitting (fun c => handleMessage c f.type 5 f.body) (load c) f.type l := by
    cases hfind : BackType.all.find? (·.byte = f.type) with
    | none =>
      refine ⟨[], Emitting.ignored.congr ?_⟩
      intro events log
      have hrole : ((load c).setQueue events log).role = .client := hr
      unfold handleMessage
      rw [hrole, hfind]
    | some t =>
      obtain ⟨l, hl⟩ := handleBackend_emitting (load c) 5 f.body t
      rw [back_find_some hfind] at hl
      refine ⟨l, hl.congr ?_⟩
      intro events log
      have hrole : ((load c).setQueue events log).role = .client := hr
      rw [← back_find_some hfind, handleMessage_back hrole]
  refine ⟨l, ?_, hl.passes, ?_⟩
  · intro events log
    have h := congrArg Ctx.core (hl.queue events log)
    exact h
  · intro skip hskip
    have h := congrArg Ctx.core (hl.filtered skip hskip)
    change c.receive f = (c.core).emit l at h
    rw [h, hc]

/-! ## Streams -/

theorem setQueue_of_sansQueue {c d : Ctx} (h : c.sansQueue = d.sansQueue) : d = c.setQueue d.events d.log := by
  have hd : d.sansQueue.setQueue d.events d.log = c.sansQueue.setQueue d.events d.log := by rw [h]
  exact hd

/-- **Two clients that agree but for their queues**, of which one receives all messages and the
other those that are passed on. -/
theorem receiveAll_filter (skip : Bool) {c d : Ctx} (hr : c.role = .client) (hc : c.core = c) (hcd : c.sansQueue = d.sansQueue)
    (fs : List Frame) :
    ∃ l, (c.receiveAll fs).sansQueue = (d.receiveAll (fs.filter (Frame.passes skip))).sansQueue ∧
      (c.receiveAll fs).log = c.log ++ l ∧ (c.receiveAll fs).events = l.foldl RingBuf.enqueue c.events ∧
      (d.receiveAll (fs.filter (Frame.passes skip))).log = d.log ++ l.filter (fun q => q.ev.passes skip) ∧
      (d.receiveAll (fs.filter (Frame.passes skip))).events =
        (l.filter (fun q => q.ev.passes skip)).foldl RingBuf.enqueue d.events := by
  induction fs generalizing c d with
  | nil => exact ⟨[], hcd, (List.append_nil _).symm, rfl, (List.append_nil _).symm, rfl⟩
  | cons f fs ih =>
    obtain ⟨l₁, hl⟩ := receive_emitting hr hc f
    obtain ⟨hev, hlog⟩ := hl.self
    have hr' : (c.receive f).role = .client := (handleMessage_handled (c.load f.enc) f.type 5 f.body).role.trans hr
    have hfold : ∀ x : Ctx, x.receiveAll (f :: fs) = (x.receive f).receiveAll fs := fun _ => rfl
    rw [hfold]
    by_cases hp : f.passes skip = true
    · -- both receive it
      have hpass : l₁.filter (fun q => q.ev.passes skip) = l₁ := by
        refine List.filter_eq_self.2 ?_
        intro q hq
        exact (hl.passes skip q hq).trans hp
      have hd : d.receive f = ((c.receive f).setQueue d.events d.log).emit l₁ := by
        have hq := hl.queue d.events d.log
        rw [← setQueue_of_sansQueue hcd] at hq
        exact hq
      rw [List.filter_cons_of_pos hp]
      have hfold' : d.receiveAll (f :: fs.filter (Frame.passes skip)) = (d.receive f).receiveAll (fs.filter (Frame.passes skip)) := rfl
      rw [hfold']
      have hcd' : (c.receive f).sansQueue = (d.receive f).sansQueue := by
        rw [hd]
        rfl
      obtain ⟨l, h1, h2, h3, h4, h5⟩ := ih hr' rfl hcd'
      refine ⟨l₁ ++ l, h1, ?_, ?_, ?_, ?_⟩
      · rw [h2, hlog, List.append_assoc]
      · rw [h3, hev, List.foldl_append]
      · rw [h4, hd, List.filter_append, hpass, ← List.append_assoc]
        rfl
      · rw [h5, hd, List.filter_append, hpass, List.foldl_append]
        rfl
    · have hp' : pipelineFilterBackendType f.type skip = true := by
        unfold Frame.passes at hp
        simpa using hp
      have hdrop : l₁.filter (fun q => q.ev.passes skip) = [] := by
        refine List.filter_eq_nil_iff.2 ?_
        intro q hq
        rw [hl.passes skip q hq, hp']
        exact Bool.false_ne_true
      rw [List.filter_cons_of_neg hp]
      have hcd' : (c.receive f).sansQueue = d.sansQueue := by
        rw [← hcd, hl.filtered skip hp']
        rfl
      obtain ⟨l, h1, h2, h3, h4, h5⟩ := ih hr' rfl hcd'
      refine ⟨l₁ ++ l, h1, ?_, ?_, ?_, ?_⟩
      · rw [h2, hlog, List.append_assoc]
      · rw [h3, hev, List.foldl_append]
      · rw [h4, List.filter_append, hdrop, List.nil_append]
      · rw [h5, List.filter_append, hdrop, List.nil_append]

/-! ## The status -/

theorem after_sansCount {st st' : PipelineStatus} (h : st.sansCount = st'.sansCount) (f : Frame) :
    (st.after f).sansCount = (st'.after f).sansCount := by
  have hcongr : (st.sansCount.after f).sansCount = (st'.sansCount.after f).sansCount := by rw [h]
  have hdrop : ∀ s : PipelineStatus, (s.after f).sansCount = (s.sansCount.after f).sansCount := by
    intro s
    unfold PipelineStatus.after
    split
    · rfl
    split
    · rfl
    · rfl
  rw [hdrop st, hcongr, ← hdrop st']

/-- A message that is filtered is counted, and that is all. -/
theorem after_filtered {f : Frame} {skip : Bool} (h : pipelineFilterBackendType f.type skip = true) (st : PipelineStatus) :
    (st.after f).sansCount = st.sansCount := by
  have hE : f.type ≠ ch 'E' := by
    intro hE
    rw [hE] at h
    cases skip <;> cases h
  have hZ : f.type ≠ ch 'Z' := by
    intro hZ
    rw [hZ] at h
    cases skip <;> cases h
  unfold PipelineStatus.after
  rw [if_neg hE, if_neg hZ]
  rfl

theorem observeAll_sansCount (skip : Bool) {st st' : PipelineStatus} (h : st.sansCount = st'.sansCount) (fs : List Frame) :
    (observeAll st fs).sansCount = (observeAll st' (fs.filter (Frame.passes skip))).sansCount := by
  induction fs generalizing st st' with
  | nil => exact h
  | cons f fs ih =>
    have hstep : ∀ (s : PipelineStatus) (gs : List Frame), observeAll s (f :: gs) = observeAll (s.after f) gs := by
      intro s gs
      unfold observeAll
      rw [List.foldl_cons, observe_frame]
    rw [hstep]
    by_cases hp : f.passes skip = true
    · rw [List.filter_cons_of_pos hp, hstep]
      exact ih (after_sansCount h f)
    · rw [List.filter_cons_of_neg hp]
      have hp' : pipelineFilterBackendType f.type skip = true := by
        unfold Frame.passes at hp
        simpa using hp
      exact ih ((after_filtered hp' st).trans h)

/-! ## The two streams -/

/-- Frames that are fed to a client between messages, in any pieces. -/
theorem feedsAll_frames {c : Ctx} {fs : List Frame} {chunks : List Bytes} (hok : c.Ok) (hw : c.Waits)
    (hs : c.awaitsStartup = false) (ha : c.allocs = []) (hin : c.resid = []) (hf : ∀ f ∈ fs, f.Fits c)
    (hcut : chunks.flatten = Frame.encAll fs) :
    ∃ c', FeedsAll c chunks c' ∧ c'.resid = [] ∧ c'.core = c.core.receiveAll fs := by
  have hr : c.resid ++ chunks.flatten = Frame.encAll fs := by rw [hin, List.nil_append, hcut]
  obtain ⟨a₁, c₁, p₁, a₂, c', p', hloop, hacts, -, hres, -, hcore⟩ := feedsActs_frames hok hs ha hf hr 0
  have hwait : c.feedStep = .stop c := feedStep_eq (.wait hw)
  have hc₁ : c₁ = c := by
    cases hloop with
    | stop _ hstep =>
      rw [hwait] at hstep
      cases hstep
      rfl
    | again _ hstep =>
      rw [hwait] at hstep
      cases hstep
  rw [hc₁] at hacts
  exact ⟨c', hacts.feedsAll, hres, hcore⟩

/-- **Filtering a backend stream.** A client gets the messages of a backend, or only those that
`pqwire_pipeline_filter_backend_type` passes on, both cut into feeds in any way. Both calls
return, with the same phase, scratch areas and rows. The history of the second client is that of
the first without the events of the filtered messages, its queue holds at least the other events
that the first one's queue holds, and exactly them where nothing overflows. The status that
observes the filtered messages differs in the number of messages only. -/
theorem filtered_stream {c : Ctx} (hc : Reachable c) (hr : c.role = .client) (ha : c.allocs = []) (hin : c.resid = [])
    {fs : List Frame} (hf : ∀ f ∈ fs, f.Fits c) (skip : Bool) {chunks chunks' : List Bytes}
    (hcut : chunks.flatten = Frame.encAll fs) (hcut' : chunks'.flatten = Frame.encAll (fs.filter (Frame.passes skip)))
    (st : PipelineStatus) :
    ∃ c₁ c₂ l, FeedsAll c chunks c₁ ∧ FeedsAll c chunks' c₂ ∧ c₁.resid = [] ∧ c₂.resid = [] ∧
      c₁.core.sansQueue = c₂.core.sansQueue ∧
      c₁.log = c.log ++ l ∧ c₂.log = c.log ++ l.filter (fun q => q.ev.passes skip) ∧
      c₁.events.toList.filter (fun q => q.ev.passes skip) <:+ c₂.events.toList.filter (fun q => q.ev.passes skip) ∧
      (c.events.count + l.length ≤ c.queueSize →
        c₂.events.toList = c.events.toList ++ l.filter (fun q => q.ev.passes skip)) ∧
      (observeAll st fs).sansCount = (observeAll st (fs.filter (Frame.passes skip))).sansCount := by
  obtain ⟨hok, hw⟩ := reachable_ok hc
  have hs := awaits_of_client hr
  have hf' : ∀ f ∈ fs.filter (Frame.passes skip), f.Fits c := fun f hm => hf f (List.mem_of_mem_filter hm)
  obtain ⟨c₁, hfeeds₁, hres₁, hcore₁⟩ := feedsAll_frames hok hw hs ha hin hf hcut
  obtain ⟨c₂, hfeeds₂, hres₂, hcore₂⟩ := feedsAll_frames hok hw hs ha hin hf' hcut'
  obtain ⟨l, hsans, hlog₁, hev₁, hlog₂, hev₂⟩ := @receiveAll_filter skip c.core c.core hr rfl rfl fs
  rw [← hcore₁] at hsans hlog₁ hev₁
  rw [← hcore₂] at hsans hlog₂ hev₂
  have hring : c.events.Ok := hok.ring
  have hq₁ : c₁.events.toList = (c.events.toList ++ l).rtake c.queueSize := by
    rw [show c₁.events = l.foldl RingBuf.enqueue c.events from hev₁]
    exact (toList_enqueues hring l).1
  have hq₂ : c₂.events.toList = (c.events.toList ++ l.filter (fun q => q.ev.passes skip)).rtake c.queueSize := by
    rw [show c₂.events = (l.filter fun q => q.ev.passes skip).foldl RingBuf.enqueue c.events from hev₂]
    exact (toList_enqueues hring _).1
  refine ⟨c₁, c₂, l, hfeeds₁, hfeeds₂, hres₁, hres₂, hsans, hlog₁, hlog₂, ?_, ?_, observeAll_sansCount skip rfl fs⟩
  · rw [hq₁, hq₂]
    exact DropOldest.rtake_filter_suffix _ _ _
  · intro hroom
    have hle := List.length_filter_le (fun q : Queued => q.ev.passes skip) l
    rw [hq₂, List.rtake, List.length_append, RingBuf.toList_length, Nat.sub_eq_zero_of_le (by omega), List.drop_zero]

/-- A ParameterStatus and a ReadyForQuery for a client with one queue slot. -/
theorem filtered_stream_status :
    ∃ c₁ c₂ l, FeedsAll tinyClient [[83, 0, 0, 0, 8, 97, 0], [98, 0, 90, 0, 0], [0, 5, 73]] c₁ ∧
      FeedsAll tinyClient [[90, 0, 0, 0, 5], [73]] c₂ ∧ c₁.core.sansQueue = c₂.core.sansQueue ∧
      c₁.log = l ∧ c₂.log = l.filter (fun q => q.ev.passes false) ∧
      c₁.events.toList.filter (fun q => q.ev.passes false) <:+ c₂.events.toList.filter (fun q => q.ev.passes false) := by
  have hfits : ∀ f ∈ [(⟨ch 'S', [97, 0, 98, 0], by decide⟩ : Frame), ⟨ch 'Z', [73], by decide⟩], f.Fits tinyClient := by
    rintro f (_ | ⟨_, _ | ⟨_, h⟩⟩)
    · decide
    · decide
    · cases h
  obtain ⟨c₁, c₂, l, h1, h2, -, -, hsans, hlog, hlog', hqueue, -⟩ :=
    @filtered_stream tinyClient tinyClient_reachable rfl rfl rfl _ hfits false
      [[83, 0, 0, 0, 8, 97, 0], [98, 0, 90, 0, 0], [0, 5, 73]] [[90, 0, 0, 0, 5], [73]] rfl rfl pipelineStatusInit
  exact ⟨c₁, c₂, l, h1, h2, hsans, hlog, hlog', hqueue⟩

end Pqwire

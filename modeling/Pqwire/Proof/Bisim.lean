import Pqwire.Proof.Alike
import Pqwire.Proof.Halves

/-!
# Calls on alike contexts

* `send_same`: what a send helper appends and returns depends on its arguments and the role.
* `feedInput_moves`: `pqwire_feed_input` moves the input buffer exactly where `movedBy` says.
* `PointsOk.feedInput`: only large enough frames make events that point into the input buffer.
* `twins_bisimulation`: no call tells apart alike contexts whose buffers move alike, or whose events
  do not point into them.
-/

namespace Pqwire

open ByteMem

variable {c f : Ctx}

/-! ## Sends -/

/-- Two calls that return the same and append the same. -/
def SameSend (c f : Ctx) (x y : Ctx × ℤ) : Prop :=
  x.2 = y.2 ∧ x.1.allocs = [] ∧ y.1.allocs = [] ∧ ∃ bs, x.1.output = c.output ++ bs ∧ y.1.output = f.output ++ bs

/-- A call that writes the same everywhere does so in both. -/
theorem Writes.same {call : Ctx → Ctx × ℤ} {r : ℤ} {bs : Bytes} (h : Writes call r bs) (hc : c.allocs = [])
    (hf : f.allocs = []) : SameSend c f (call c) (call f) := by
  obtain ⟨ha, hr, ho⟩ := h c hc
  obtain ⟨ha', hr', ho'⟩ := h f hf
  exact ⟨hr.trans hr'.symm, ha, ha', bs, ho, ho'⟩

theorem WritesMsg.same {t : UInt8} {call : Ctx → Ctx × ℤ} (h : WritesMsg t call) (hc : c.allocs = [])
    (hf : f.allocs = []) : SameSend c f (call c) (call f) := by
  rcases h with h | ⟨payload, h⟩
  · exact h.same hc hf
  · exact h.same hc hf

theorem SameSend.trans {x y x' y' : Ctx × ℤ} (h : SameSend c f x y) (h' : SameSend x.1 y.1 x' y') : SameSend c f x' y' := by
  obtain ⟨-, -, -, bs, ho, ho'⟩ := h
  obtain ⟨hr, ha, ha', bs', hx, hy⟩ := h'
  exact ⟨hr, ha, ha', bs ++ bs', by rw [hx, ho, List.append_assoc], by rw [hy, ho', List.append_assoc]⟩

/-- One call after the other, as `pqwire_send_unnamed_pipeline` makes them. -/
theorem SameSend.andThen {x y : Ctx × ℤ} (h : SameSend c f x y) {g : Ctx → Ctx × ℤ}
    (hg : ∀ {c f : Ctx}, c.allocs = [] → f.allocs = [] → SameSend c f (g c) (g f)) :
    SameSend c f (if x.2 ≠ 0 then (x.1, -1) else g x.1) (if y.2 ≠ 0 then (y.1, -1) else g y.1) := by
  obtain ⟨hr, ha, ha', hout⟩ := h
  rw [hr]
  split
  · exact ⟨rfl, ha, ha', hout⟩
  · exact SameSend.trans ⟨hr, ha, ha', hout⟩ (hg ha ha')

theorem sendStartup_same (user database : Option CStr) (hrole : c.role = f.role) (hc : c.allocs = []) (hf : f.allocs = []) :
    SameSend c f (c.sendStartup user database) (f.sendStartup user database) := by
  have hrefused : SameSend c f (c, -1) (f, -1) :=
    ⟨rfl, hc, hf, [], (List.append_nil _).symm, (List.append_nil _).symm⟩
  unfold Ctx.sendStartup
  rw [hrole]
  dsimp only
  split
  · exact hrefused
  split
  · exact hrefused
  split
  · exact hrefused
  · obtain ⟨ho, ha⟩ := appendOutput_all hc _
    obtain ⟨ho', ha'⟩ := appendOutput_all hf _
    exact ⟨rfl, ha, ha', _, ho, ho'⟩

/-- **What a send appends and returns depends on its arguments and the role only.** -/
theorem send_same (m : Send) (hrole : c.role = f.role) (hc : c.allocs = []) (hf : f.allocs = []) :
    SameSend c f (m.run c) (m.run f) := by
  cases ht : m.type with
  | some t => exact (send_writes ht).same hc hf
  | none =>
    -- the two helpers that do not emit one typed message
    cases m with
    | startup user database => exact sendStartup_same user database hrole hc hf
    | unnamedPipeline q o no fm nf l v n r nr n' =>
      exact ((sendParse_follows (some CStr.empty) q o no).writes.same hc hf).andThen fun hc hf =>
        ((sendBind_follows (some CStr.empty) (some CStr.empty) fm nf l v n r nr).writes.same hc hf).andThen fun hc hf =>
          ((sendExecute_follows (some CStr.empty) n').writes.same hc hf).andThen fun hc hf =>
            (Follows.emit (t := ch 'S') []).writes.same hc hf
    | _ => cases ht

namespace Alike

/-! ## Calls -/

theorem nextEvent (h : Alike c f) : (c.nextEvent = none ∧ f.nextEvent = none) ∨
    ∃ q c' f', c.nextEvent = some (q, c') ∧ f.nextEvent = some (q, f') ∧ Alike c' f' ∧ q ∈ f.log ∧
      c'.read q.ev = f'.read q.ev ∧ c'.rawBody q.ev = f'.rawBody q.ev := by
  have hcount : c.events.count = f.events.count := by
    rw [← RingBuf.toList_length, h.queue, RingBuf.toList_length]
  by_cases h0 : f.events.count = 0
  · have hnone : ∀ {g : Ctx}, g.events.count = 0 → g.nextEvent = none := by
      intro g hg
      unfold Ctx.nextEvent Ctx.dequeueEvent
      rw [RingBuf.dequeue_none.2 hg]
    exact Or.inl ⟨hnone (hcount.trans h0), hnone h0⟩
  · obtain ⟨q, c', hc⟩ := nextEvent_isSome (hcount.symm ▸ h0 : c.events.count ≠ 0)
    obtain ⟨q', f', hf⟩ := nextEvent_isSome h0
    obtain ⟨hcl, -, -, hcn, hcu⟩ := nextEvent_cases h.okc hc
    obtain ⟨hfl, -, -, hfn, hfu⟩ := nextEvent_cases h.okf hf
    -- both queues have the same events, so the same one comes first
    have hlist : q :: c'.events.toList = q' :: f'.events.toList := by rw [← hcl, ← hfl, h.queue]
    obtain ⟨rfl, hrest⟩ := List.cons.inj hlist
    have hused : c'.rowArenaUsed = f'.rowArenaUsed := by
      have := h.used
      omega
    obtain ⟨hcf, hcs⟩ := nextEvent_frame hc
    obtain ⟨hff, hfs⟩ := nextEvent_frame hf
    have hq : q ∈ f.log := h.okf.queue.subset (by rw [hfl]; exact List.mem_cons_self)
    have hokc := nextEvent_ok h.okc hc
    have hokf := nextEvent_ok h.okf hf
    have hsize := hcs.trans (h.size.trans hfs.symm)
    obtain ⟨e, u, rfl⟩ : ∃ e u, c' = { c with events := e, rowArenaUsed := u } := ⟨_, _, hcf⟩
    obtain ⟨e', u', rfl⟩ : ∃ e' u', f' = { f with events := e', rowArenaUsed := u' } := ⟨_, _, hff⟩
    have hkeeps : Keeps c f { c with events := e, rowArenaUsed := u } { f with events := e', rowArenaUsed := u' } :=
      ⟨id, id, id, fun _ => id, le_rfl, le_rfl⟩
    refine Or.inr ⟨q, _, _, hc, hf, ?_, hq, (hkeeps.sameFor (h.shows q hq)).shows h.input h.arena⟩
    exact ⟨hokc, hokf, h.callocs, h.fallocs, h.role, h.max, hsize, h.output, h.inputLen, hused, h.state, h.seen, hrest,
      h.log, h.input, h.arena, fun q hq => hkeeps.sameFor (h.shows q hq)⟩

/-- The output and the phase may be set. -/
theorem setOutput (h : Alike c f) {o o' : Bytes} {n n' : ℕ} {as as' : List Bool} {p p' : ProtoState} (ho : o = o')
    (ha : as = []) (ha' : as' = []) (hp : p = p') :
    Alike { c with output := o, outputCap := n, allocs := as, protoState := p }
      { f with output := o', outputCap := n', allocs := as', protoState := p' } := by
  have hkeeps : Keeps c f { c with output := o, outputCap := n, allocs := as, protoState := p }
      { f with output := o', outputCap := n', allocs := as', protoState := p' } :=
    ⟨id, id, id, fun _ => id, le_rfl, le_rfl⟩
  exact ⟨⟨h.okc.ring, h.okc.queue, h.okc.input, h.okc.cols, h.okc.names, h.okc.arena, h.okc.arenaSize⟩,
    ⟨h.okf.ring, h.okf.queue, h.okf.input, h.okf.cols, h.okf.names, h.okf.arena, h.okf.arenaSize⟩,
    ha, ha', h.role, h.max, h.size, ho, h.inputLen, h.used, hp, h.seen, h.queue, h.log, h.input, h.arena,
    fun q hq => hkeeps.sameFor (h.shows q hq)⟩

theorem send (h : Alike c f) (m : Send) : (m.run c).2 = (m.run f).2 ∧ Alike (m.run c).1 (m.run f).1 := by
  obtain ⟨hr, ha, ha', bs, ho, ho'⟩ := send_same m h.role h.callocs h.fallocs
  have hout : (m.run c).1.output = (m.run f).1.output := by rw [ho, ho', h.output]
  have hstate : (m.run c).1.protoState = (m.run f).1.protoState := by
    by_cases hm : m = .readyForQuery
    · have hready : ∀ g : Ctx, (m.run g).1.protoState = .ready := by
        intro g
        subst hm
        simp only [Send.run, Ctx.sendReadyForQuery]
        rw [emitMsg_appendsOnly]
      rw [hready, hready]
    · rw [send_appendsOnly c hm, send_appendsOnly f hm]
      exact h.state
  refine ⟨hr, ?_⟩
  rw [send_outputOnly c m, send_outputOnly f m]
  exact h.setOutput hout ha ha' hstate

/-- After a reset of both. -/
theorem reset (h : Alike c f) : Alike (Pqwire.reset c) (Pqwire.reset f) := by
  refine ⟨reset_ok h.okc, reset_ok h.okf, h.callocs, h.fallocs, h.role, h.max, h.size, rfl, rfl, h.used, rfl, rfl, ?_, rfl,
    h.input, h.arena, fun q hq => absurd hq List.not_mem_nil⟩
  exact (RingBuf.toList_clear _).trans (RingBuf.toList_clear _).symm

end Alike

/-! ## Pointers into the input buffer -/

/-- While no allocation fails, the input buffer is moved exactly where it has to grow. -/
theorem feedInput_moves {n fuel : ℕ} {data : Bytes} (ha : c.allocs = []) (h : c.feedInput fuel data = some (c', n)) :
    c'.inputCap = if c.inputCap < c.inputLen + data.length then c.inputLen + data.length + 1024 else c.inputCap := by
  have hcap : ∀ {d : Ctx}, (Ctx.feedLoop fuel d).map (fun e => (e, data.length)) = some (c', n) →
      c'.inputCap = d.inputCap := by
    intro d hmap
    obtain ⟨c₂, hloop, heq⟩ := Option.map_eq_some_iff.1 hmap
    cases heq
    exact (loops_received ⟨fuel, hloop⟩).2
  unfold Ctx.feedInput Ctx.acceptInput at h
  rw [allocOk_of_nil ha] at h
  split
  · rw [if_pos ‹_›] at h
    exact hcap (d := { c.allocated with
      inputCap := c.inputLen + data.length + 1024
      inputBuf := blit c.inputBuf c.inputLen data
      inputLen := c.inputLen + data.length }) h
  · rw [if_neg ‹_›] at h
    exact hcap (d := { c with inputBuf := blit c.inputBuf c.inputLen data, inputLen := c.inputLen + data.length }) h

/-- Events that point into the input buffer come from frames that the context is large enough for. -/
def PointsOk (c : Ctx) : Prop := ∀ q ∈ c.log, q.ev.intoInput = true → smallestPointing c.role ≤ c.maxMessageSize

theorem PointsOk.congr (h : PointsOk c) (hl : c'.log = c.log) (hr : c'.role = c.role)
    (hm : c'.maxMessageSize = c.maxMessageSize) : PointsOk c' := by
  unfold PointsOk
  rw [hl, hr, hm]
  exact h

/-- One more event. -/
theorem PointsOk.emit (h : PointsOk c) {q : Queued} (hq : q.ev.intoInput = true → smallestPointing c.role ≤ c.maxMessageSize)
    (hl : c'.log = c.log ++ [q]) (hr : c'.role = c.role) (hm : c'.maxMessageSize = c.maxMessageSize) : PointsOk c' := by
  unfold PointsOk
  rw [hl, hr, hm]
  intro q' hq' hi
  rcases List.mem_append.1 hq' with hq' | hq'
  · exact h q' hq' hi
  · rw [List.mem_singleton.1 hq'] at hi
    exact hq hi

/-- Two events point into the body, and its size is that of the frame without the length field. -/
theorem plainEvent_points {type : UInt8} {base : ℕ} {body : Bytes} {ev : Event}
    (h : plainEvent c.role type base body = some ev) (hi : ev.intoInput = true) :
    smallestPointing c.role ≤ body.length + 4 := by
  rcases plainEvent_cases h with ⟨b, rfl, hr, -, hb⟩ | ⟨rfl, hr, -⟩ | hv
  · rw [hr]
    have := bindOf_length hb
    simp only [smallestPointing]
    omega
  · rw [hr]
    simp only [Event.intoInput, decide_eq_true_eq] at hi
    simp only [smallestPointing]
    omega
  · cases ev <;> first | cases hi | cases hv

theorem PointsOk.handleMessage (h : PointsOk c) (type : UInt8) (base : ℕ) {body : Bytes}
    (hb : body.length + 4 ≤ c.maxMessageSize) : PointsOk (Pqwire.handleMessage c type base body) := by
  have hh := handleMessage_handling c type base body
  generalize Pqwire.handleMessage c type base body = c' at hh ⊢
  cases hh with
  | ignored => exact h
  | authentication => exact h
  | event _ hp => exact h.emit (fun hi => (plainEvent_points hp hi).trans hb) rfl rfl rfl
  -- the other events show values, or point to the scratch areas and the arena
  | query => exact h.emit (fun hi => by cases hi) rfl rfl rfl
  | authenticated => exact h.emit (fun hi => by cases hi) rfl rfl rfl
  | ready => exact h.emit (fun hi => by cases hi) rfl rfl rfl
  | complete => exact h.emit (fun hi => by cases hi) rfl rfl rfl
  | rowDescription =>
    unfold parseRowDescription
    split
    · exact h
    · exact h.emit (fun hi => by cases hi) rfl rfl rfl
  | dataRow =>
    unfold parseDataRow
    split
    · exact h
    · exact h.emit (fun hi => by cases hi) rfl rfl rfl

theorem PointsOk.round (h : PointsOk c) {r : Round} (hr : Rounds c r) (hc : r = .again c' ∨ r = .stop c') : PointsOk c' := by
  cases hr with
  | wait =>
    obtain rfl : c = c' := by simpa using hc
    exact h
  | badStartup =>
    obtain rfl : _ = c' := by simpa using hc
    exact h.emit (fun hi => by cases hi) rfl rfl rfl
  | startup =>
    obtain rfl : _ = c' := by simpa using hc
    unfold Ctx.afterStartup parseStartupBody
    split
    · exact h.emit (fun hi => by cases hi) rfl rfl rfl
    · exact h.emit (fun hi => by cases hi) rfl rfl rfl
  | reject =>
    obtain rfl : _ = c' := by simpa using hc
    unfold Ctx.rejectFrame
    dsimp only
    split
    · exact h.emit (fun hi => by cases hi) rfl rfl rfl
    · exact h.emit (fun hi => by cases hi) rfl rfl rfl
  | message _ h4 hm =>
    obtain rfl : _ = c' := by simpa using hc
    have hlen : (slice c.inputBuf 5 (c.typedLen - 4)).length ≤ c.typedLen - 4 := by
      rw [slice, List.length_take]
      exact min_le_left _ _
    exact (@PointsOk.handleMessage c h _ 5 (slice c.inputBuf 5 (c.typedLen - 4)) (by omega)).congr rfl rfl rfl

theorem PointsOk.feedInput (h : PointsOk c) {fuel n : ℕ} {data : Bytes} (hf : c.feedInput fuel data = some (c', n)) :
    PointsOk c' := by
  unfold Ctx.feedInput at hf
  split at hf
  · cases hf
    exact h.congr rfl rfl rfl
  · rename_i c₁ ha
    obtain ⟨c₂, hl, he⟩ := Option.map_eq_some_iff.1 hf
    cases he
    obtain ⟨cap, allocs, rfl⟩ := acceptInput_some ha
    exact Loops.keeps (fun c _ h hs => h.round (feedStep_rounds c) hs) ⟨fuel, hl⟩ (h.congr rfl rfl rfl)

/-! ## Bisimulation -/

/-- Alike contexts whose input buffers have moved alike and will, or whose events do not point into
them. -/
structure Twins (w v : Watched) : Prop where
  alike : Alike w.ctx v.ctx
  points : PointsOk v.ctx
  moves : (w.ctx.inputCap = v.ctx.inputCap ∧ w.moved = v.moved) ∨ v.ctx.maxMessageSize < smallestPointing v.ctx.role

theorem Twins.count {w v : Watched} (h : Twins w v) : w.ctx.events.count = v.ctx.events.count := by
  rw [← RingBuf.toList_length, h.alike.queue, RingBuf.toList_length]

/-- **Twins deliver the same.** -/
theorem Twins.deliver {w v : Watched} (h : Twins w v) {q : Queued} (hq : q ∈ v.ctx.log)
    (hs : c.read q.ev = f.read q.ev ∧ c.rawBody q.ev = f.rawBody q.ev) : w.deliver c q.ev = v.deliver f q.ev := by
  unfold Watched.deliver
  rw [hs.1, hs.2]
  congr 1
  rcases h.moves with ⟨-, hm⟩ | hm
  · -- the same events are stale
    have hstale : w.stale = v.stale := by
      unfold Watched.stale
      rw [hm, h.alike.log, h.count]
    rw [hstale]
  · -- no event points into the buffer
    have hi : q.ev.intoInput = false := by
      by_contra hne
      exact absurd (h.points q hq (Bool.eq_true_of_not_eq_false hne)) (Nat.not_le.2 hm)
    simp only [hi, Bool.false_eq_true, and_false, if_false]

/-- A call that keeps the configuration, the log and the input buffer. -/
theorem Twins.keep {w v : Watched} (h : Twins w v) (ha : Alike c f) (hc : c.inputCap = w.ctx.inputCap)
    (hf : f.inputCap = v.ctx.inputCap ∧ f.log = v.ctx.log ∧ f.role = v.ctx.role ∧ f.maxMessageSize = v.ctx.maxMessageSize) :
    Twins ⟨c, w.moved⟩ ⟨f, v.moved⟩ := by
  obtain ⟨hcap, hlog, hrole, hmax⟩ := hf
  refine ⟨ha, h.points.congr hlog hrole hmax, ?_⟩
  rw [hc, hcap, hmax, hrole]
  exact h.moves

/-- **No call tells twins apart.** -/
theorem twins_bisimulation (fuel : ℕ) : Machine.Bisimulation (PublicCall.run fuel) Twins := by
  rintro ⟨c, m⟩ ⟨f, m'⟩ call h
  have ha : Alike c f := h.alike
  cases call with
  | feed data =>
    simp only [PublicCall.run]
    rcases ha.feedInput fuel data with ⟨hc, hf⟩ | ⟨n, c', f', hc, hf, h'⟩
    · rw [hc, hf]
      exact Or.inl ⟨rfl, rfl⟩
    · rw [hc, hf]
      refine Or.inr ⟨_, _, _, rfl, rfl, h', h.points.feedInput hf, ?_⟩
      rcases h.moves with ⟨hcap, hm⟩ | hm
      · -- both buffers grow, or neither does
        left
        have hcap : c.inputCap = f.inputCap := hcap
        have hm : m = m' := hm
        unfold Watched.movedBy
        dsimp only
        rw [feedInput_moves ha.callocs hc, feedInput_moves ha.fallocs hf, ha.inputLen, hcap, hm, ha.log,
          allocOk_of_nil ha.callocs, allocOk_of_nil ha.fallocs]
        exact ⟨rfl, rfl⟩
      · obtain ⟨hrole, hmax, -⟩ := step_config (.feed hf) ha.okf
        right
        dsimp only
        rw [hrole, hmax]
        exact hm
  | next =>
    simp only [PublicCall.run]
    rcases ha.nextEvent with ⟨hc, hf⟩ | ⟨q, c', f', hc, hf, h', hq, hs⟩
    · rw [hc, hf]
      exact Or.inr ⟨_, _, _, rfl, rfl, h⟩
    · rw [hc, hf]
      dsimp only
      rw [h.deliver hq hs]
      refine Or.inr ⟨_, _, _, rfl, rfl, h.keep h' ?_ ?_⟩
      · rw [(nextEvent_frame hc).1]
      · rw [(nextEvent_frame hf).1]
        exact ⟨rfl, rfl, rfl, rfl⟩
  | send m =>
    obtain ⟨hr, h'⟩ := ha.send m
    simp only [PublicCall.run]
    rw [hr]
    refine Or.inr ⟨_, _, _, rfl, rfl, h.keep h' ?_ ?_⟩
    · rw [send_outputOnly c m]
    · rw [send_outputOnly f m]
      exact ⟨rfl, rfl, rfl, rfl⟩
  -- the output is the same, so the same part of it is drained
  | output maxLen =>
    simp only [PublicCall.run, Ctx.getOutput]
    rw [ha.output]
    exact Or.inr ⟨_, _, _, rfl, rfl, h.keep (ha.setOutput rfl ha.callocs ha.fallocs ha.state) rfl ⟨rfl, rfl, rfl, rfl⟩⟩
  | state =>
    simp only [PublicCall.run, currentState]
    rw [ha.state]
    exact Or.inr ⟨_, _, _, rfl, rfl, h⟩
  | ready => exact Or.inr ⟨_, _, _, rfl, rfl, h.keep (ha.setState rfl ha.seen) rfl ⟨rfl, rfl, rfl, rfl⟩⟩
  | reset =>
    refine Or.inr ⟨_, _, _, rfl, rfl, ha.reset, fun q hq => absurd hq List.not_mem_nil, ?_⟩
    rcases h.moves with ⟨hcap, -⟩ | hm
    · exact Or.inl ⟨hcap, rfl⟩
    · exact Or.inr hm

end Pqwire

import Pqwire.Proof.Helpers
import Pqwire.Proof.Loop

/-!
# The invariant of a context

`Ctx.Ok` holds of every reachable context (`reachable_ok`): the ring is well formed
and holds the latest events of the history, the unparsed input lies inside what has
been written of the buffer, the scratch arrays have their sizes and the arena's fill
mark is inside what has been written of it. Between calls the framing loop has
nothing left to do (`Ctx.Waits`).
-/

namespace Pqwire

open ByteMem

structure Ctx.Ok (c : Ctx) : Prop where
  ring : c.events.Ok
  queue : c.events.toList <:+ c.log
  input : c.inputLen ≤ c.inputBuf.length
  cols : c.colScratch.length = maxRowColumns
  names : c.colNameScratch.length = maxRowColumns
  arena : c.rowArenaUsed ≤ c.rowArena.length
  arenaSize : c.rowArena.length ≤ rowArenaSize

/-! ## Sends touch the output only -/

/-- `c'` differs from `c` in its output, its pending allocations and its phase only. -/
def OutputOnly (c c' : Ctx) : Prop :=
  c' = { c with output := c'.output, outputCap := c'.outputCap, allocs := c'.allocs, protoState := c'.protoState }

/-- `c'` differs from `c` in its output and its pending allocations only. -/
def AppendsOnly (c c' : Ctx) : Prop :=
  c' = { c with output := c'.output, outputCap := c'.outputCap, allocs := c'.allocs }

theorem AppendsOnly.refl (c : Ctx) : AppendsOnly c c := rfl

theorem AppendsOnly.trans {c₁ c₂ c₃ : Ctx} (h : AppendsOnly c₁ c₂) (h' : AppendsOnly c₂ c₃) : AppendsOnly c₁ c₃ := by
  unfold AppendsOnly at *
  rw [h', h]

theorem appendOutput_appendsOnly (c : Ctx) (data : Bytes) : AppendsOnly c (c.appendOutput data) := by
  unfold Ctx.appendOutput Ctx.ensureOutput
  split
  · rfl
  · rename_i c' h
    split at h
    · cases h; rfl
    · split at h
      · cases h; rfl
      · cases h

theorem emitMsg_appendsOnly (c : Ctx) (type : UInt8) (payload : Bytes) :
    AppendsOnly c (c.emitMsg type payload).1 := by
  unfold Ctx.emitMsg
  dsimp only
  split
  · exact appendOutput_appendsOnly c _
  · exact (appendOutput_appendsOnly c _).trans (appendOutput_appendsOnly _ _)

theorem Takes.appendsOnly {c c₁ : Ctx} (h : Takes c c₁) : AppendsOnly c c₁ := by
  obtain ⟨k, rfl⟩ := h
  rfl

theorem Follows.appendsOnly {t : UInt8} {call : Ctx → Ctx × ℤ} (h : Follows t call) (c : Ctx) :
    AppendsOnly c (call c).1 := by
  obtain ⟨c₁, htakes, hc | ⟨payload, hc⟩⟩ := h.comes c
  · rw [hc]
    exact htakes.appendsOnly
  · rw [hc]
    exact htakes.appendsOnly.trans (emitMsg_appendsOnly c₁ t payload)

/-- A send helper touches the output and nothing else, `pqwire_send_ready_for_query` apart. -/
theorem send_appendsOnly (c : Ctx) {s : Send} (hs : s ≠ .readyForQuery) : AppendsOnly c (s.run c).1 := by
  by_cases hm : s.ViaEmit
  · obtain ⟨t, ht⟩ := hm.type
    exact (send_follows ht hm hs).appendsOnly c
  cases s with
  | startup u d =>
    simp only [Send.run, Ctx.sendStartup]
    split
    · exact .refl c
    split
    · exact .refl c
    split
    · exact .refl c
    · exact appendOutput_appendsOnly c _
  | bindRewriteIdentity mem b p s slot i bin =>
    simp only [Send.run, Ctx.sendBindRewriteIdentity]
    split
    · exact .refl c
    · exact appendOutput_appendsOnly c _
  | unnamedPipeline q o no f nf l v n r nr m =>
    simp only [Send.run, Ctx.sendUnnamedPipeline]
    have h₁ := (sendParse_follows (some CStr.empty) q o no).appendsOnly c
    split
    · exact h₁
    refine h₁.trans ?_
    set c₁ := (c.sendParse (some CStr.empty) q o no).1
    have h₂ := (sendBind_follows (some CStr.empty) (some CStr.empty) f nf l v n r nr).appendsOnly c₁
    split
    · exact h₂
    refine h₂.trans ?_
    set c₂ := (c₁.sendBind (some CStr.empty) (some CStr.empty) f nf l v n r nr).1
    have h₃ := (sendExecute_follows (some CStr.empty) m).appendsOnly c₂
    split
    · exact h₃
    · exact h₃.trans (emitMsg_appendsOnly _ _ _)
  | _ => exact absurd trivial hm

theorem AppendsOnly.outputOnly {c c' : Ctx} (h : AppendsOnly c c') : OutputOnly c c' := by
  unfold AppendsOnly at h
  unfold OutputOnly
  rw [h]

/-- **A send helper touches the output, the phase and nothing else.** -/
theorem send_outputOnly (c : Ctx) (s : Send) : OutputOnly c (s.run c).1 := by
  by_cases hs : s = .readyForQuery
  · subst hs
    have h := emitMsg_appendsOnly { c with protoState := .ready } (ch 'Z') [ch 'I']
    unfold AppendsOnly at h
    unfold OutputOnly
    simp only [Send.run, Ctx.sendReadyForQuery]
    rw [h]
  · exact (send_appendsOnly c hs).outputOnly

/-! ## Handling a message -/

theorem rowDescLoop_length (body : Bytes) : ∀ (n i off : ℕ) (cols : List ColDesc) (names : List CStr),
    (rowDescLoop body n i off cols names).1.length = cols.length ∧
      (rowDescLoop body n i off cols names).2.1.length = names.length := by
  intro n
  induction n with
  | zero => intro i off cols names; exact ⟨rfl, rfl⟩
  | succ n ih =>
    intro i off cols names
    simp only [rowDescLoop]
    split
    · split
      · exact ⟨rfl, rfl⟩
      split
      · exact ⟨rfl, List.length_set⟩
      · obtain ⟨h1, h2⟩ := ih (i + 1) _ (cols.set i _) (names.set i _)
        exact ⟨h1.trans List.length_set, h2.trans List.length_set⟩
    · exact ⟨rfl, rfl⟩

theorem dataRowLoop_arena (body : Bytes) : ∀ (n off : ℕ) (arena : Bytes) (used : ℕ),
    used ≤ arena.length → arena.length ≤ rowArenaSize →
      (dataRowLoop body n off arena used).used ≤ (dataRowLoop body n off arena used).arena.length ∧
      (dataRowLoop body n off arena used).arena.length ≤ rowArenaSize := by
  intro n
  induction n with
  | zero => intro off arena used h1 h2; exact ⟨h1, h2⟩
  | succ n ih =>
    intro off arena used h1 h2
    simp only [dataRowLoop]
    split
    · split
      · exact ih _ _ _ h1 h2
      split
      · exact ⟨h1, h2⟩
      rename_i hoff
      split
      · exact ih _ _ _ h1 h2
      · rename_i hfit
        have hs : (slice body (off + 4) (toI32 (rd32Be body off)).toInt.toNat).length = _ := slice_length (by omega)
        have hl := blit_length h1 (slice body (off + 4) (toI32 (rd32Be body off)).toInt.toNat)
        apply ih <;> rw [hl, hs] <;> omega
    · exact ⟨h1, h2⟩

/-- The scratch arrays keep their sizes and the arena its bounds. -/
theorem handleMessage_scratch {c : Ctx} (h : c.Ok) (type : UInt8) (base : ℕ) (body : Bytes) :
    (handleMessage c type base body).colScratch.length = maxRowColumns ∧
      (handleMessage c type base body).colNameScratch.length = maxRowColumns ∧
      (handleMessage c type base body).rowArenaUsed ≤ (handleMessage c type base body).rowArena.length ∧
      (handleMessage c type base body).rowArena.length ≤ rowArenaSize := by
  have hc : c.colScratch.length = maxRowColumns ∧ c.colNameScratch.length = maxRowColumns ∧
      c.rowArenaUsed ≤ c.rowArena.length ∧ c.rowArena.length ≤ rowArenaSize :=
    ⟨h.cols, h.names, h.arena, h.arenaSize⟩
  have hh := handleMessage_handling c type base body
  generalize handleMessage c type base body = c' at hh ⊢
  cases hh with
  | rowDescription =>
    unfold parseRowDescription
    split
    · exact hc
    · obtain ⟨h1, h2⟩ := rowDescLoop_length body (min (rd16Be body 0) maxRowColumns) 0 2 c.colScratch c.colNameScratch
      exact ⟨h1.trans h.cols, h2.trans h.names, h.arena, h.arenaSize⟩
  | dataRow =>
    unfold parseDataRow
    split
    · exact hc
    · exact ⟨h.cols, h.names, dataRowLoop_arena body _ 2 _ _ h.arena h.arenaSize⟩
  | _ => exact hc

theorem enqueue_suffix {r : RingBuf Queued} (h : r.Ok) {log : List Queued} (hq : r.toList <:+ log) (q : Queued) :
    (r.enqueue q).toList <:+ log ++ [q] := by
  rw [RingBuf.toList_enqueue h]
  obtain ⟨t, rfl⟩ := hq
  exact (List.drop_suffix _ _).trans ⟨t, by rw [List.append_assoc]⟩

theorem Handled.ring_ok {c c' : Ctx} {body : Bytes} (h : Handled c body c') (hc : c.Ok) :
    c'.events.Ok ∧ c'.events.toList <:+ c'.log := by
  rcases h.emit with ⟨hl, he⟩ | ⟨q, -, -, hl, he⟩
  · rw [hl, he]; exact ⟨hc.ring, hc.queue⟩
  · rw [hl, he]; exact ⟨RingBuf.enqueue_ok hc.ring q, enqueue_suffix hc.ring hc.queue q⟩

theorem handleMessage_ok {c : Ctx} (h : c.Ok) (type : UInt8) (base : ℕ) (body : Bytes) :
    (handleMessage c type base body).Ok := by
  have hh := handleMessage_handled c type base body
  obtain ⟨h1, h2, h3, h4⟩ := handleMessage_scratch h type base body
  obtain ⟨h5, h6⟩ := hh.ring_ok h
  exact ⟨h5, h6, by rw [hh.inputLen, hh.inputBuf]; exact h.input, h1, h2, h3, h4⟩

theorem parseStartupBody_ok {c : Ctx} (h : c.Ok) (body : Bytes) : (parseStartupBody c body).Ok := by
  have hh := parseStartupBody_handled c body
  obtain ⟨h5, h6⟩ := hh.ring_ok h
  refine ⟨h5, h6, by rw [hh.inputLen, hh.inputBuf]; exact h.input, ?_, ?_, ?_, ?_⟩
  all_goals unfold parseStartupBody; split
  · exact h.cols
  · exact h.cols
  · exact h.names
  · exact h.names
  · exact h.arena
  · exact h.arena
  · exact h.arenaSize
  · exact h.arenaSize

theorem enqueueEvent_ok {c : Ctx} (h : c.Ok) (ev : Event) (frame : Bytes) : (c.enqueueEvent ev frame).Ok := by
  obtain ⟨h5, h6⟩ := (enqueueEvent_handled c ev frame).ring_ok h
  exact ⟨h5, h6, h.input, h.cols, h.names, h.arena, h.arenaSize⟩

/-! ## The framing loop -/

/-- The input side of a context may be replaced by any other with its length inside. -/
theorem Ctx.Ok.withInput {c : Ctx} (h : c.Ok) {buf : Bytes} {len : ℕ} (cap : ℕ) (hl : len ≤ buf.length) :
    (c.setInput buf len cap).Ok := ⟨h.ring, h.queue, hl, h.cols, h.names, h.arena, h.arenaSize⟩

theorem consume_ok {c : Ctx} (h : c.Ok) {n : ℕ} (hn : n ≤ c.inputLen) : (c.consume n).Ok := by
  have hin := h.input
  have hl : (shiftDown c.inputBuf n (c.inputLen - n)).length = c.inputBuf.length :=
    shiftDown_length (by omega)
  exact h.withInput c.inputCap (by rw [hl]; omega)

theorem rejectFrame_ok {c : Ctx} (h : c.Ok) (mlen : ℕ) : (c.rejectFrame mlen).Ok := by
  have hin := h.input
  have he := enqueueEvent_ok h .protocolError []
  unfold Ctx.rejectFrame
  dsimp only
  split
  · have hl : (shiftDown c.inputBuf (1 + mlen) (c.inputLen - 1 - mlen)).length = c.inputBuf.length :=
      shiftDown_length (by omega)
    exact he.withInput c.inputCap (by rw [hl]; omega)
  · exact he.withInput c.inputCap (Nat.zero_le c.inputBuf.length)

theorem afterStartup_ok {c : Ctx} (h : c.Ok) (hl : c.startupLen ≤ c.inputLen) : c.afterStartup.Ok := by
  refine consume_ok (parseStartupBody_ok h _) ?_
  rw [(parseStartupBody_handled c _).inputLen]; exact hl

theorem afterMessage_ok {c : Ctx} (h : c.Ok) (hl : 1 + c.typedLen ≤ c.inputLen) : c.afterMessage.Ok := by
  refine consume_ok (handleMessage_ok h _ _ _) ?_
  rw [(handleMessage_handled c _ _ _).inputLen]; exact hl

/-- **A round of the loop keeps the invariant**, whether it continues or breaks. -/
theorem feedStep_ok {c c' : Ctx} (h : c.Ok) (hs : c.feedStep = .again c' ∨ c.feedStep = .stop c') : c'.Ok := by
  have hr := feedStep_rounds c
  rcases hs with hs | hs
  · rw [hs] at hr
    cases hr with
    | startup _ _ _ hl => exact afterStartup_ok h hl
    | reject => exact rejectFrame_ok h _
    | message _ _ _ hl => exact afterMessage_ok h hl
  · rw [hs] at hr
    cases hr with
    | wait => exact h
    | badStartup =>
      exact (enqueueEvent_ok h .protocolError []).withInput c.inputCap (Nat.zero_le c.inputBuf.length)

theorem waits_of_empty {c : Ctx} (h : c.inputLen = 0) : c.Waits := by
  unfold Ctx.Waits; split <;> (rw [h]; exact Or.inl (by omega))

/-- A loop breaks off only where it has nothing left to do. -/
theorem feedStep_stop_waits {c c' : Ctx} (h : c.feedStep = .stop c') : c'.Waits := by
  have hr := feedStep_rounds c
  rw [h] at hr
  cases hr with
  | wait hw => exact hw
  | badStartup => exact waits_of_empty rfl

theorem loops_ok {c c' : Ctx} (h : Loops c c') (hc : c.Ok) : c'.Ok ∧ c'.Waits := by
  refine Loops.rec' (P := fun c => c.Ok → c'.Ok ∧ c'.Waits) ?_ ?_ h hc
  · intro c hs hc
    exact ⟨feedStep_ok hc (Or.inr hs), feedStep_stop_waits hs⟩
  · intro c c₁ hs _ ih hc
    exact ih (feedStep_ok hc (Or.inl hs))

theorem acceptInput_ok {c c' : Ctx} {data : Bytes} (h : c.Ok) (ha : c.acceptInput data = some c') : c'.Ok := by
  have hl := blit_length h.input data
  unfold Ctx.acceptInput at ha
  split at ha
  · split at ha
    · cases ha
      exact ⟨h.ring, h.queue, by simp only; rw [hl]; omega, h.cols, h.names, h.arena, h.arenaSize⟩
    · cases ha
  · cases ha
    exact ⟨h.ring, h.queue, by simp only; rw [hl]; omega, h.cols, h.names, h.arena, h.arenaSize⟩

/-! ## Every call -/

theorem Ctx.Waits.congr {c c' : Ctx} (h : c.Waits) (hr : c'.role = c.role)
    (hs : c'.startupSeen = c.startupSeen) (hm : c'.maxMessageSize = c.maxMessageSize)
    (hb : c'.inputBuf = c.inputBuf) (hl : c'.inputLen = c.inputLen) : c'.Waits := by
  unfold Ctx.Waits Ctx.awaitsStartup Ctx.startupLen Ctx.typedLen at *
  rw [hr, hs, hm, hb, hl]; exact h

theorem nextEvent_ok {c c' : Ctx} {q : Queued} (h : c.Ok) (hn : c.nextEvent = some (q, c')) : c'.Ok := by
  unfold Ctx.nextEvent Ctx.dequeueEvent at hn
  split at hn
  · cases hn
  · rename_i q' r hd
    have hr := RingBuf.dequeue_ok h.ring hd
    have hq : r.toList <:+ c.log := by
      have := h.queue
      rw [(RingBuf.toList_dequeue h.ring hd).1] at this
      exact (List.suffix_cons _ _).trans this
    simp only [Option.some.injEq, Prod.mk.injEq] at hn
    obtain ⟨-, rfl⟩ := hn
    split
    · exact ⟨hr, hq, h.input, h.cols, h.names, Nat.zero_le _, h.arenaSize⟩
    · exact ⟨hr, hq, h.input, h.cols, h.names, h.arena, h.arenaSize⟩

theorem nextEvent_waits {c c' : Ctx} {q : Queued} (h : c.Waits) (hn : c.nextEvent = some (q, c')) : c'.Waits := by
  unfold Ctx.nextEvent Ctx.dequeueEvent at hn
  split at hn
  · cases hn
  · simp only [Option.some.injEq, Prod.mk.injEq] at hn
    obtain ⟨-, rfl⟩ := hn
    split
    · exact h.congr rfl rfl rfl rfl rfl
    · exact h.congr rfl rfl rfl rfl rfl

theorem reset_ok {c : Ctx} (h : c.Ok) : (reset c).Ok := by
  refine ⟨RingBuf.clear_ok h.ring, ?_, Nat.zero_le _, h.cols, h.names, h.arena, h.arenaSize⟩
  simp only [reset, RingBuf.toList_clear]
  exact List.nil_suffix

/-- **A public call keeps the invariant**, and leaves the loop with nothing to do. -/
theorem step_ok {c c' : Ctx} (hs : Step c c') (h : c.Ok) (hw : c.Waits) : c'.Ok ∧ c'.Waits := by
  cases hs with
  | @feed _ data fuel n hf =>
    unfold Ctx.feedInput at hf
    split at hf
    · cases hf
      exact ⟨⟨h.ring, h.queue, h.input, h.cols, h.names, h.arena, h.arenaSize⟩, hw.congr rfl rfl rfl rfl rfl⟩
    · rename_i c₁ ha
      obtain ⟨c₂, hl, he⟩ := Option.map_eq_some_iff.1 hf
      cases he
      exact loops_ok ⟨_, hl⟩ (acceptInput_ok h ha)
  | next hn => exact ⟨nextEvent_ok h hn, nextEvent_waits hw hn⟩
  | reset => exact ⟨reset_ok h, waits_of_empty rfl⟩
  | output n =>
    exact ⟨⟨h.ring, h.queue, h.input, h.cols, h.names, h.arena, h.arenaSize⟩, hw.congr rfl rfl rfl rfl rfl⟩
  | send s =>
    have ho := send_outputOnly c s
    unfold OutputOnly at ho
    rw [ho]
    exact ⟨⟨h.ring, h.queue, h.input, h.cols, h.names, h.arena, h.arenaSize⟩, hw.congr rfl rfl rfl rfl rfl⟩
  | ready =>
    exact ⟨⟨h.ring, h.queue, h.input, h.cols, h.names, h.arena, h.arenaSize⟩, hw.congr rfl rfl rfl rfl rfl⟩

theorem create_ok {role : Role} {config : Config} {allocs : List Bool} {c : Ctx}
    (h : createWithConfig role config allocs = some c) : c.Ok ∧ c.Waits := by
  unfold createWithConfig at h
  split at h
  · cases h
  rename_i hq
  split at h
  · cases h
    refine ⟨⟨RingBuf.init_ok (by omega), ?_, Nat.zero_le _, by simp, by simp, Nat.zero_le _, by simp⟩,
      waits_of_empty rfl⟩
    simp [RingBuf.toList_init]
  · cases h

/-- A created context is empty. -/
theorem create_empty {role : Role} {config : Config} {allocs : List Bool} {c : Ctx}
    (h : createWithConfig role config allocs = some c) :
    c.events.toList = [] ∧ c.log = [] ∧ c.resid = [] ∧ c.output = [] ∧ c.rowArenaUsed = 0 ∧ c.role = role ∧
      c.startupSeen = false := by
  unfold createWithConfig at h
  split at h
  · cases h
  split at h
  · cases h
    exact ⟨RingBuf.toList_init _, rfl, rfl, rfl, rfl, rfl, rfl⟩
  · cases h

theorem create_allocs {role : Role} {config : Config} {allocs : List Bool} {c : Ctx}
    (h : createWithConfig role config allocs = some c) : c.allocs = allocs.drop 4 := by
  unfold createWithConfig at h
  split at h
  · cases h
  split at h
  · cases h
    rfl
  · cases h

/-- **The invariant holds in every reachable context.** -/
theorem reachable_ok {c : Ctx} (h : Reachable c) : c.Ok ∧ c.Waits := by
  induction h with
  | create h => exact create_ok h
  | step _ hs ih => exact step_ok hs ih.1 ih.2

/-! ## A rule for invariants -/

/-- `P` does not depend on the input side and is kept by what a round of the loop does. -/
structure Kept (P : Ctx → Prop) : Prop where
  input : ∀ {c : Ctx} (buf : Bytes) (len cap : ℕ), P c → P (c.setInput buf len cap)
  allocs : ∀ {c : Ctx} (allocs : List Bool), P c → P { c with allocs := allocs }
  message : ∀ {c : Ctx} (type : UInt8) (base : ℕ) (body : Bytes), c.Ok → P c → P (handleMessage c type base body)
  startup : ∀ {c : Ctx} (body : Bytes), c.Ok → P c → P (parseStartupBody c body)
  error : ∀ {c : Ctx}, c.Ok → P c → P (c.enqueueEvent .protocolError [])

variable {P : Ctx → Prop} {c c' : Ctx}

theorem Kept.consume (hP : Kept P) (hc : P c) (n : ℕ) : P (c.consume n) :=
  hP.input (shiftDown c.inputBuf n (c.inputLen - n)) (c.inputLen - n) c.inputCap hc

theorem Kept.drop (hP : Kept P) (hc : P c) : P { c with inputLen := 0 } := hP.input c.inputBuf 0 c.inputCap hc

theorem Kept.feedStep (hP : Kept P) (h : c.Ok) (hc : P c) (hs : c.feedStep = .again c' ∨ c.feedStep = .stop c') :
    P c' := by
  have hr := feedStep_rounds c
  rcases hs with hs | hs
  · rw [hs] at hr
    cases hr with
    | startup => exact hP.consume (hP.startup _ h hc) _
    | reject =>
      have he := hP.error h hc
      unfold Ctx.rejectFrame
      dsimp only
      split
      · exact hP.input (shiftDown c.inputBuf (1 + c.typedLen) (c.inputLen - 1 - c.typedLen))
          (c.inputLen - (1 + c.typedLen) % 2 ^ 32) c.inputCap he
      · exact hP.drop he
    | message => exact hP.consume (hP.message _ _ _ h hc) _
  · rw [hs] at hr
    cases hr with
    | wait => exact hc
    | badStartup => exact hP.drop (hP.error h hc)

/-- **An invariant kept by rounds is kept by the loop.** -/
theorem Kept.loops (hP : Kept P) (hl : Loops c c') (h : c.Ok) (hc : P c) : P c' := by
  have hround : ∀ c c₁ : Ctx, c.Ok ∧ P c → c.feedStep = .again c₁ ∨ c.feedStep = .stop c₁ → c₁.Ok ∧ P c₁ := by
    rintro c c₁ ⟨h, hc⟩ hs
    exact ⟨feedStep_ok h hs, hP.feedStep h hc hs⟩
  exact (hl.keeps hround ⟨h, hc⟩).2

theorem Kept.acceptInput (hP : Kept P) {data : Bytes} (ha : c.acceptInput data = some c') (hc : P c) : P c' := by
  unfold Ctx.acceptInput at ha
  split at ha
  · split at ha
    · cases ha
      exact hP.allocs c.allocs.tail (hP.input (blit c.inputBuf c.inputLen data) (c.inputLen + data.length)
        (c.inputLen + data.length + 1024) hc)
    · cases ha
  · cases ha
    exact hP.input (blit c.inputBuf c.inputLen data) (c.inputLen + data.length) c.inputCap hc

/-- An invariant kept by rounds is kept by a call that accepts its bytes. -/
theorem Kept.feeds (hP : Kept P) {data : Bytes} (hf : Feeds c data c') (h : c.Ok) (hc : P c) : P c' := by
  obtain ⟨c₁, ha, hl⟩ := hf
  exact hP.loops hl (acceptInput_ok h ha) (hP.acceptInput ha hc)

/-- An invariant kept by rounds is kept by every call of `pqwire_feed_input`. -/
theorem Kept.feedInput (hP : Kept P) {data : Bytes} {fuel n : ℕ} (hf : c.feedInput fuel data = some (c', n)) (h : c.Ok)
    (hc : P c) : P c' := by
  unfold Ctx.feedInput at hf
  split at hf
  · cases hf
    exact hP.allocs c.allocs.tail hc
  · rename_i c₁ ha
    obtain ⟨c₂, hl, he⟩ := Option.map_eq_some_iff.1 hf
    cases he
    exact hP.feeds ⟨c₁, ha, fuel, hl⟩ h hc

end Pqwire

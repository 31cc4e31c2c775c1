import Pqwire.Proof.Bisim

/-!
# Reading after the input buffer has moved

An event that points into the input buffer can be read until a later feed makes the buffer grow. A
buffer that has grown before does not grow again for the same feed, so such an event tells the
context from a fresh one.

* `reachable_cap`: the input buffer has its first size or is more than 1024 bytes larger.
* `Between.feed`: a feed of whole frames on a context that has none to finish.
* `observe_moved`: whether an event can be read after a feed of 4100 bytes.
-/

namespace Pqwire

open ByteMem

variable {c c' : Ctx}

/-! ## The size of the input buffer -/

/-- The input buffer has never grown, or by more than 1024 bytes. -/
def CapOk (c : Ctx) : Prop := c.inputCap = 4096 ∨ 5120 < c.inputCap

theorem step_cap (hs : Step c c') (h : CapOk c) : CapOk c' := by
  unfold CapOk at h ⊢
  cases hs with
  | @feed _ data fuel n hf =>
    unfold Ctx.feedInput at hf
    split at hf
    · cases hf
      exact h
    · rename_i c₁ ha
      obtain ⟨c₂, hl, he⟩ := Option.map_eq_some_iff.1 hf
      cases he
      rw [(loops_received ⟨fuel, hl⟩).2]
      unfold Ctx.acceptInput at ha
      split at ha
      · -- what does not fit is larger than what was there
        split at ha
        · cases ha
          dsimp only
          omega
        · cases ha
      · cases ha
        exact h
  | next hn =>
    rw [(nextEvent_frame hn).1]
    exact h
  | reset => exact h
  | output n => exact h
  | send m =>
    rw [send_outputOnly c m]
    exact h
  | ready => exact h

theorem reachable_cap (hc : Reachable c) : CapOk c := by
  induction hc with
  | create h =>
    unfold createWithConfig at h
    split at h
    · cases h
    split at h
    · cases h
      exact Or.inl rfl
    · cases h
  | step _ hs ih => exact step_cap hs ih

/-! ## Frames -/

/-- A frame that no context makes an event of. -/
def quietFrame : Frame := ⟨0, [], show 4 < 2 ^ 32 by decide⟩

/-- 4100 bytes of them. -/
def noise : List Frame := List.replicate 820 quietFrame

theorem noise_length : (Frame.encAll noise).length = 4100 := by
  unfold noise Frame.encAll
  rw [List.length_flatMap, List.map_replicate, List.sum_replicate]
  rfl

/-- The smallest frame whose event points into the input buffer. -/
def pointingFrame : Role → Frame
  | .client => ⟨ch 'S', [97], show 5 < 2 ^ 32 by decide⟩
  | .server => ⟨ch 'B', [0, 0, 0, 0, 0, 0], show 10 < 2 ^ 32 by decide⟩

theorem handleFrame_quiet (c : Ctx) :
    (c.handleFrame quietFrame).log = c.log ∧ (c.handleFrame quietFrame).events = c.events := by
  have h : handleMessage c 0 5 [] = c := by
    have hs : (0 : UInt8) ∉ stateful c.role := by cases c.role <;> decide
    have hp : plainEvent c.role 0 5 [] = none := by cases c.role <;> rfl
    rw [handleMessage_plain hs, hp]
    rfl
  unfold Ctx.handleFrame quietFrame
  rw [h]
  exact ⟨rfl, rfl⟩

theorem handleFrames_noise (c : Ctx) : (c.handleFrames noise).log = c.log ∧ (c.handleFrames noise).events = c.events := by
  unfold noise
  generalize 820 = n
  induction n generalizing c with
  | zero => exact ⟨rfl, rfl⟩
  | succ n ih =>
    obtain ⟨hl, he⟩ := handleFrame_quiet c
    obtain ⟨hl', he'⟩ := ih (c.handleFrame quietFrame)
    exact ⟨hl'.trans hl, he'.trans he⟩

theorem handleFrame_pointing (c : Ctx) : ∃ q : Queued, (c.handleFrame (pointingFrame c.role)).log = c.log ++ [q] ∧
    (c.handleFrame (pointingFrame c.role)).events = c.events.enqueue q ∧ q.ev.intoInput = true := by
  have key : ∀ {f : Frame} {ev : Event}, f.type ∉ stateful c.role → plainEvent c.role f.type 5 f.body = some ev →
      ev.intoInput = true → ∃ q : Queued, (c.handleFrame f).log = c.log ++ [q] ∧
        (c.handleFrame f).events = c.events.enqueue q ∧ q.ev.intoInput = true := by
    intro f ev hs hp hi
    unfold Ctx.handleFrame
    rw [handleMessage_plain hs, hp]
    exact ⟨_, rfl, rfl, hi⟩
  cases hr : c.role with
  | client =>
    refine @key (pointingFrame .client) (.parameterStatus 5 1) ?_ ?_ rfl
    · rw [hr]
      decide
    · rw [hr]
      rfl
  | server =>
    refine @key (pointingFrame .server)
      (.bind ⟨CStr.empty, CStr.empty, 0, [], 0, [], 0, [], 5, 6⟩) ?_ ?_ rfl
    · rw [hr]
      decide
    · rw [hr]
      rfl

/-! ## Feeds of whole frames -/

/-- A context that is past startup, has no message to finish and whose allocations succeed. -/
structure Between (c : Ctx) : Prop where
  ok : c.Ok
  started : c.awaitsStartup = false
  allocs : c.allocs = []
  input : c.inputLen = 0

/-- **A feed of whole frames handles them.** -/
theorem Between.feed (h : Between c) {fs : List Frame} (hf : ∀ g ∈ fs, g.Fits c) :
    ∃ (fuel : ℕ) (c₁ : Ctx), c.feedInput fuel (Frame.encAll fs) = some (c₁.handleFrames fs, (Frame.encAll fs).length) ∧
      Between (c₁.handleFrames fs) ∧ c₁.role = c.role ∧ c₁.maxMessageSize = c.maxMessageSize ∧ c₁.log = c.log ∧
      c₁.events = c.events ∧ c₁.rowArenaUsed = c.rowArenaUsed ∧ c₁.Ok := by
  have hres : c.resid = [] := by
    unfold Ctx.resid
    rw [h.input, List.take_zero]
  obtain ⟨c₁, hacc, hok₁, -, hres₁⟩ := acceptInput_core h.ok h.allocs (Frame.encAll fs)
  obtain ⟨hs, hr, hm, hl, he⟩ := acceptInput_same hacc
  have hfeeds := feeds_frames h.ok h.started hacc hf (by rw [hres, List.nil_append])
  obtain ⟨fuel, hfeed⟩ := feeds_feedInput hfeeds
  have hfits : ∀ g ∈ fs, g.Fits c₁ := by
    intro g hg
    unfold Frame.Fits
    rw [hm]
    exact hf g hg
  obtain ⟨hok, hresid, haw⟩ := @handleFrames_ok c₁ [] fs hok₁ (hs.trans h.started) hfits
    (by rw [hres₁, hres, List.nil_append, List.append_nil])
  have hu : c₁.rowArenaUsed = c.rowArenaUsed := by
    obtain ⟨cap, allocs, rfl⟩ := acceptInput_some hacc
    rfl
  refine ⟨fuel, c₁, hfeed, ⟨hok, haw, (feeds_received h.allocs hfeeds).allocs.trans h.allocs, ?_⟩, hr, hm, hl, he, hu, hok₁⟩
  rw [← resid_length hok, hresid, List.length_nil]

/-! ## A queue with one event -/

theorem enqueue_single {r : RingBuf Queued} (h : r.Ok) (h0 : r.count = 0) (q : Queued) : (r.enqueue q).toList = [q] := by
  have hempty : r.toList = [] := by rw [← List.length_eq_zero_iff, RingBuf.toList_length, h0]
  have hpos := h.pos
  rw [RingBuf.toList_enqueue h, hempty, h0, Nat.sub_eq_zero_of_le (by omega), List.drop_zero, List.nil_append]

/-- The only event is taken. -/
theorem nextEvent_single (h : c.Ok) {q : Queued} (hq : c.events.toList = [q]) :
    ∃ c', c.nextEvent = some (q, c') ∧ c'.Ok ∧ c'.events.count = 0 ∧
      c' = { c with events := c'.events, rowArenaUsed := c'.rowArenaUsed } := by
  have hcount : c.events.count = 1 := by
    rw [← RingBuf.toList_length, hq]
    rfl
  obtain ⟨q', c', hn⟩ := @nextEvent_isSome c (by rw [hcount]; decide)
  obtain ⟨hl, -, -, hleft, -⟩ := nextEvent_cases h hn
  rw [hq] at hl
  obtain ⟨rfl, -⟩ := List.cons.inj hl
  exact ⟨c', hn, nextEvent_ok h hn, by omega, (nextEvent_frame hn).1⟩

/-! ## What a caller sees -/

theorem observe_cons {fuel : ℕ} {w w' : Watched} {call : PublicCall} {o : Outcome} {calls : List PublicCall}
    {os : List Outcome} (h : call.run fuel w = some (o, w')) (h' : w'.observe fuel calls = some os) :
    w.observe fuel (call :: calls) = some (o :: os) := by
  unfold Watched.observe at h' ⊢
  simp only [Machine.observe, h, Option.bind_some, h', Option.map_some]

theorem run_feed {c c' : Ctx} {fuel n : ℕ} {data : Bytes} (h : c.feedInput fuel data = some (c', n)) (k m : ℕ) :
    (PublicCall.feed data).run (fuel + k) ⟨c, m⟩ = some (.accepted n, ⟨c', Watched.movedBy ⟨c, m⟩ data⟩) := by
  simp only [PublicCall.run, feedInput_mono h, Option.map_some]

/-- A feed that leaves an event pointing into the input, one of 4100 bytes, and the event. -/
def movedCalls (r : Role) : List PublicCall := [.feed (Frame.encAll [pointingFrame r]), .feed (Frame.encAll noise), .next]

theorem noise_fits (h4 : 4 ≤ c.maxMessageSize) : ∀ g ∈ noise, g.Fits c := by
  intro g hg
  rw [List.eq_of_mem_replicate hg]
  exact h4

/-- What is left of the only event of the queue after 4100 bytes. -/
theorem Between.observe_noise (h : Between c) {q : Queued} (hq : c.events.toList = [q]) (hi : q.ev.intoInput = true)
    (h4 : 4 ≤ c.maxMessageSize) (m : ℕ) :
    ∃ fuel, ∀ k, ∃ d, Watched.observe ⟨c, m⟩ (fuel + k) [.feed (Frame.encAll noise), .next] =
        some [.accepted 4100, .event (some d)] ∧
      (d.payload = none ↔ c.log.length - 1 < if c.inputCap < 4100 then c.log.length else m) := by
  obtain ⟨fuel, c₁, hf, hb, -, -, hl₁, he₁, -, -⟩ := h.feed (noise_fits h4)
  obtain ⟨hl, he⟩ := handleFrames_noise c₁
  generalize c₁.handleFrames noise = e at *
  rw [noise_length] at hf
  have hlist : e.events.toList = [q] := by rw [he, he₁, hq]
  have hcount : e.events.count = 1 := by
    rw [← RingBuf.toList_length, hlist]
    rfl
  obtain ⟨e', hn, -⟩ := nextEvent_single hb.ok hlist
  have hnext : PublicCall.next.run fuel ⟨e, Watched.movedBy ⟨c, m⟩ (Frame.encAll noise)⟩ =
      some (.event (some (Watched.deliver ⟨e, Watched.movedBy ⟨c, m⟩ (Frame.encAll noise)⟩ e' q.ev)),
        ⟨e', Watched.movedBy ⟨c, m⟩ (Frame.encAll noise)⟩) := by
    simp only [PublicCall.run, hn]
  refine ⟨fuel, ?_⟩
  intro k
  refine ⟨_, observe_cons (run_feed hf k m) (observe_cons hnext rfl), ?_⟩
  have hmoved : Watched.movedBy ⟨c, m⟩ (Frame.encAll noise) = if c.inputCap < 4100 then c.log.length else m := by
    unfold Watched.movedBy
    dsimp only
    rw [noise_length, h.input, allocOk_of_nil h.allocs]
    simp
  rw [hmoved]
  unfold Watched.deliver Watched.stale
  simp only [hl, hl₁, hcount, hi, and_true, decide_eq_true_eq, ite_eq_left_iff, reduceCtorEq, imp_false, not_not]

/-- **The event can be read unless the second feed has to grow the buffer.** -/
theorem Between.observe_moved (h : Between c) (hq : c.events.count = 0) (hcap : 4096 ≤ c.inputCap)
    (hmax : smallestPointing c.role ≤ c.maxMessageSize) {m : ℕ} (hm : m ≤ c.log.length) :
    ∃ fuel, ∀ k, ∃ os d, Watched.observe ⟨c, m⟩ (fuel + k) (movedCalls c.role) = some (os ++ [.event (some d)]) ∧
      (d.payload = none ↔ c.inputCap < 4100) := by
  have h4 : 4 ≤ c.maxMessageSize := by
    refine le_trans ?_ hmax
    cases c.role <;> decide
  have hlen : (Frame.encAll [pointingFrame c.role]).length ≤ 11 := by
    cases c.role <;> decide
  have hfits : ∀ g ∈ [pointingFrame c.role], g.Fits c := by
    intro g hg
    rw [List.mem_singleton.1 hg]
    refine le_trans ?_ hmax
    cases c.role <;> decide
  -- the event is queued
  obtain ⟨fuel₁, c₁, hf₁, hb₁, hr₁, hm₁, hl₁, he₁, -, -⟩ := h.feed hfits
  have hfr : c₁.handleFrames [pointingFrame c.role] = c₁.handleFrame (pointingFrame c₁.role) := by
    rw [hr₁]
    rfl
  obtain ⟨q, hlog, hev, hinto⟩ := handleFrame_pointing c₁
  have hmax₁ := (handleFrame_same c₁ (pointingFrame c₁.role)).2.1
  rw [hfr] at hf₁ hb₁
  generalize c₁.handleFrame (pointingFrame c₁.role) = d at *
  have hlist : d.events.toList = [q] := by rw [hev, he₁, enqueue_single h.ok.ring hq]
  have hcap₁ := feedInput_moves h.allocs hf₁
  rw [h.input, if_neg (by omega)] at hcap₁
  -- and does not move with 4100 bytes more, if there is room
  obtain ⟨fuel₂, ho⟩ := hb₁.observe_noise hlist hinto (by rw [hmax₁, hm₁]; exact h4) m
  refine ⟨fuel₁ + fuel₂, ?_⟩
  intro k
  obtain ⟨e, ho, hp⟩ := ho (fuel₁ + k)
  have hmoved : Watched.movedBy ⟨c, m⟩ (Frame.encAll [pointingFrame c.role]) = m := by
    unfold Watched.movedBy
    dsimp only
    rw [h.input, if_neg (by omega)]
  refine ⟨[.accepted _, .accepted 4100], e, observe_cons (by rw [Nat.add_assoc]; exact run_feed hf₁ _ m) ?_, ?_⟩
  · rw [hmoved, show fuel₁ + fuel₂ + k = fuel₂ + (fuel₁ + k) by omega]
    exact ho
  · rw [hp, hcap₁, hlog, hl₁, List.length_append, List.length_singleton, Nat.add_sub_cancel]
    split
    · exact ⟨fun _ => ‹_›, fun _ => Nat.lt_succ_self _⟩
    · exact ⟨fun h => absurd h (Nat.not_lt.2 hm), fun h => absurd h ‹_›⟩

/-! ## From a fresh start -/

/-- A StartupMessage without parameters. -/
def bareStartup : Startup := ⟨[0, 3, 0, 0], by decide, by decide⟩

/-- The calls from a fresh start on: a server wants its StartupMessage first. -/
def tellingCalls : Role → List PublicCall
  | .client => movedCalls .client
  | .server => .feed bareStartup.enc :: .next :: movedCalls .server

/-- A context as `pqwire_reset` and `pqwire_create` leave it. -/
structure Blank (c : Ctx) : Prop where
  ok : c.Ok
  allocs : c.allocs = []
  input : c.inputLen = 0
  seen : c.startupSeen = false
  queue : c.events.count = 0
  cap : 4096 ≤ c.inputCap

theorem create_blank {role : Role} {config : Config} (h : createWithConfig role config [] = some c) :
    Blank c ∧ c.rowArenaUsed = 0 ∧ c.inputCap = 4096 ∧ c.role = role := by
  have hok := (create_ok h).1
  unfold createWithConfig at h
  split at h
  · cases h
  split at h
  · cases h
    exact ⟨⟨hok, rfl, rfl, rfl, rfl, le_rfl⟩, rfl, rfl, rfl⟩
  · cases h

/-- **A server gets past startup**, with the buffer it has. -/
theorem Blank.startup (h : Blank c) (hr : c.role = .server) (hmax : 8 ≤ c.maxMessageSize) :
    ∃ fuel o d, (∀ k, ∃ w, (PublicCall.feed bareStartup.enc).run (fuel + k) ⟨c, 0⟩ = some (.accepted 8, w) ∧
        PublicCall.next.run (fuel + k) w = some (o, ⟨d, 0⟩)) ∧
      Between d ∧ d.role = c.role ∧ d.maxMessageSize = c.maxMessageSize ∧ d.events.count = 0 ∧ d.inputCap = c.inputCap := by
  have haw : c.awaitsStartup = true := by simp [Ctx.awaitsStartup, hr, h.seen]
  have hres : c.resid = [] := by
    unfold Ctx.resid
    rw [h.input, List.take_zero]
  have hlen : bareStartup.enc.length = 8 := by decide
  obtain ⟨c₁, hacc, hok₁, -, hres₁⟩ := acceptInput_core h.ok h.allocs bareStartup.enc
  obtain ⟨hs₁, hr₁, hm₁, -, he₁⟩ := acceptInput_same hacc
  rw [hres, List.nil_append, ← List.append_nil bareStartup.enc] at hres₁
  obtain ⟨hround, hok, hresid⟩ := feedStep_startup hok₁ (hs₁.trans haw) (by unfold Startup.Fits; rw [hm₁]; exact hmax) hres₁
  obtain ⟨q, -, -, -, hev, hstarted, hrole, hm⟩ := handleStartup_same c₁ bareStartup.body bareStartup.len
  generalize (parseStartupBody c₁ bareStartup.body).consume bareStartup.len = e at *
  have hin : e.inputLen = 0 := by
    rw [← resid_length hok, hresid, List.length_nil]
  have hfeeds : Feeds c bareStartup.enc e := ⟨c₁, hacc, .again hround (.wait (waits_of_empty hin))⟩
  obtain ⟨fuel, hf⟩ := feeds_feedInput hfeeds
  have hallocs : e.allocs = [] := (feeds_received h.allocs hfeeds).allocs.trans h.allocs
  have hcap := feedInput_moves h.allocs hf
  have hcap₀ := h.cap
  rw [h.input, hlen, if_neg (by omega)] at hcap
  rw [hlen] at hf
  -- the event is taken from the queue
  have hlist : e.events.toList = [q] := by rw [hev, he₁, enqueue_single h.ok.ring h.queue]
  obtain ⟨d, hn, hokd, hcount, hframe⟩ := nextEvent_single hok hlist
  have hmoved : Watched.movedBy ⟨c, 0⟩ bareStartup.enc = 0 := by
    unfold Watched.movedBy
    dsimp only
    rw [h.input, hlen, if_neg (by omega)]
  refine ⟨fuel, .event (some (Watched.deliver ⟨e, 0⟩ d q.ev)), d, ?_, ⟨hokd, ?_, ?_, ?_⟩, ?_, ?_, hcount, ?_⟩
  · intro k
    refine ⟨_, run_feed hf k 0, ?_⟩
    rw [hmoved]
    simp only [PublicCall.run, hn]
  all_goals rw [hframe]
  · exact hstarted
  · exact hallocs
  · exact hin
  · exact hrole.trans hr₁
  · exact hm.trans hm₁
  · exact hcap

/-- **Whether the event can be read tells the size of the buffer.** -/
theorem Blank.observe_telling (h : Blank c) (hmax : smallestPointing c.role ≤ c.maxMessageSize) :
    ∃ fuel, ∀ k, ∃ os d, Watched.observe ⟨c, 0⟩ (fuel + k) (tellingCalls c.role) = some (os ++ [.event (some d)]) ∧
      (d.payload = none ↔ c.inputCap < 4100) := by
  cases hr : c.role with
  | client =>
    have hb : Between c := ⟨h.ok, awaits_of_client hr, h.allocs, h.input⟩
    rw [hr] at hmax
    have := hb.observe_moved h.queue h.cap (hr.symm ▸ hmax) (Nat.zero_le _)
    rw [hr] at this
    exact this
  | server =>
    rw [hr] at hmax
    have h10 : 10 ≤ c.maxMessageSize := hmax
    obtain ⟨fuel₁, o, d, hrun, hb, hrole, hm, hq, hcap⟩ := h.startup hr (by omega)
    have hmaxd : smallestPointing d.role ≤ d.maxMessageSize := by
      rw [hrole, hr, hm]
      exact hmax
    obtain ⟨fuel₂, ho⟩ := hb.observe_moved hq (hcap.symm ▸ h.cap) hmaxd (Nat.zero_le _)
    refine ⟨fuel₁ + fuel₂, ?_⟩
    intro k
    obtain ⟨os, e, ho, hp⟩ := ho (fuel₁ + k)
    obtain ⟨w, h1, h2⟩ := hrun (fuel₂ + k)
    rw [hrole, hr, show fuel₂ + (fuel₁ + k) = fuel₁ + (fuel₂ + k) by omega] at ho
    rw [hcap] at hp
    refine ⟨.accepted 8 :: o :: os, e, ?_, hp⟩
    rw [Nat.add_assoc]
    exact observe_cons h1 (observe_cons h2 ho)

end Pqwire

import Pqwire.Proof.Chunk
import Pqwire.Proof.Dequeue
import Pqwire.Proof.History

/-!
# The order of a server's session

* `SessionOrder`: errors of the framing, then one startup, then anything but a startup.
* `session_order`: the events that a server has enqueued since creation or the last reset are
  in this order, between calls and in the middle of a call.
-/

namespace Pqwire

open ByteMem

/-- Zero or more PROTOCOL_ERROR events, optionally followed by one STARTUP event, behind which
any events but STARTUP may follow. -/
def SessionOrder (evs : List Event) : Prop :=
  ∃ errors, (∀ e ∈ errors, e = .protocolError) ∧
    (evs = errors ∨ ∃ rest, evs = errors ++ .startup :: rest ∧ ∀ e ∈ rest, e ≠ .startup)

/-- How far the session has got, in terms of `startup_seen`. -/
def Session (c : Ctx) : Prop :=
  ∃ errors, (∀ e ∈ errors, e = .protocolError) ∧
    if c.startupSeen then ∃ rest, c.log.map (·.ev) = errors ++ .startup :: rest ∧ ∀ e ∈ rest, e ≠ .startup
    else c.log.map (·.ev) = errors

theorem Session.order {c : Ctx} (h : Session c) : SessionOrder (c.log.map (·.ev)) := by
  obtain ⟨errors, herr, hlog⟩ := h
  refine ⟨errors, herr, ?_⟩
  split at hlog
  · exact Or.inr hlog
  · exact Or.inl hlog

theorem Session.congr {c c' : Ctx} (h : Session c) (hs : c'.startupSeen = c.startupSeen) (hl : c'.log = c.log) :
    Session c' := by
  unfold Session
  rw [hs, hl]
  exact h

/-- There is one startup at most. -/
theorem SessionOrder.startup_once {evs : List Event} (h : SessionOrder evs) : evs.count .startup ≤ 1 := by
  obtain ⟨errors, herr, hevs⟩ := h
  have hnone : errors.count .startup = 0 := List.count_eq_zero.2 fun hm => absurd (herr _ hm) (by decide)
  rcases hevs with rfl | ⟨rest, rfl, hrest⟩
  · omega
  · have hrest' : rest.count .startup = 0 := List.count_eq_zero.2 fun hm => hrest _ hm rfl
    rw [List.count_append, List.count_cons_self, hnone, hrest']

/-- Only errors stand in front of the startup. -/
theorem SessionOrder.startup_first {pre post : List Event} {e : Event} (h : SessionOrder (pre ++ e :: post))
    (he : e ≠ .protocolError) : e = .startup ∨ .startup ∈ pre := by
  obtain ⟨errors, herr, hevs⟩ := h
  rcases hevs with hevs | ⟨rest, hevs, -⟩
  · exact absurd (herr e (by rw [← hevs]; simp)) he
  · rcases List.append_eq_append_iff.1 hevs with ⟨l, hpre, hl⟩ | ⟨l, hpre, hl⟩
    · -- `errors` reaches behind `pre`, so `e` is the startup or one of the errors
      cases l with
      | nil => exact Or.inl (List.cons.inj hl).1
      | cons a l =>
        have ha : e = a := (List.cons.inj hl).1
        exact absurd (herr e (by rw [hpre, ha]; simp)) he
    · cases l with
      | nil => exact Or.inl (List.cons.inj hl).1.symm
      | cons a l =>
        have ha : Event.startup = a := (List.cons.inj hl).1
        exact Or.inr (by rw [hpre, ha]; simp)

/-! ## One event -/

/-- While the startup is awaited, an error may follow. -/
theorem Session.error {c c' : Ctx} {q : Queued} (h : Session c) (hseen : c.startupSeen = false)
    (hs : c'.startupSeen = false) (hl : c'.log = c.log ++ [q]) (hq : q.ev = .protocolError) : Session c' := by
  obtain ⟨errors, herr, hlog⟩ := h
  rw [hseen, if_neg (by decide)] at hlog
  refine ⟨errors ++ [.protocolError], ?_, ?_⟩
  · intro e he
    rcases List.mem_append.1 he with he | he
    · exact herr e he
    · exact List.mem_singleton.1 he
  · rw [hs, if_neg (by decide), hl, List.map_append, hlog, List.map_singleton, hq]

/-- The startup is seen. -/
theorem Session.startup {c c' : Ctx} {q : Queued} (h : Session c) (hseen : c.startupSeen = false)
    (hs : c'.startupSeen = true) (hl : c'.log = c.log ++ [q]) (hq : q.ev = .startup) : Session c' := by
  obtain ⟨errors, herr, hlog⟩ := h
  rw [hseen, if_neg (by decide)] at hlog
  refine ⟨errors, herr, ?_⟩
  rw [hs, if_pos rfl, hl, List.map_append, hlog, List.map_singleton, hq]
  exact ⟨[], rfl, by simp⟩

/-- Behind the startup, anything else may follow. -/
theorem Session.other {c c' : Ctx} {q : Queued} (h : Session c) (hseen : c.startupSeen = true)
    (hs : c'.startupSeen = true) (hl : c'.log = c.log ++ [q]) (hq : q.ev ≠ .startup) : Session c' := by
  obtain ⟨errors, herr, hlog⟩ := h
  rw [hseen, if_pos rfl] at hlog
  obtain ⟨rest, hlog, hrest⟩ := hlog
  refine ⟨errors, herr, ?_⟩
  rw [hs, if_pos rfl, hl, List.map_append, hlog, List.append_assoc]
  refine ⟨rest ++ [q.ev], rfl, ?_⟩
  intro e he
  rcases List.mem_append.1 he with he | he
  · exact hrest e he
  · rw [List.mem_singleton.1 he]
    exact hq

/-- A typed message is never reported as a startup. -/
theorem handleMessage_not_startup {c : Ctx} {type : UInt8} {base : ℕ} {body : Bytes} {q : Queued}
    (h : (handleMessage c type base body).log = c.log ++ [q]) : q.ev ≠ .startup := by
  have key : ∀ {d : Ctx}, (d.log = c.log ∨ ∃ r, d.log = c.log ++ [r] ∧ r.ev ≠ .startup) → d.log = c.log ++ [q] →
      q.ev ≠ .startup := by
    intro d hd hq
    rcases hd with hd | ⟨r, hd, hr⟩
    · have := congrArg List.length (hd.symm.trans hq)
      simp at this
    · rw [hd] at hq
      rwa [← List.singleton_inj.1 (List.append_cancel_left hq)]
  refine key ?_ h
  have hh := handleMessage_handling c type base body
  generalize handleMessage c type base body = c' at hh ⊢
  cases hh with
  | ignored => exact Or.inl rfl
  | event _ hp => exact Or.inr ⟨_, rfl, (plainEvent_ne hp).1⟩
  | authentication => exact Or.inl rfl
  | rowDescription => unfold parseRowDescription; split; exacts [Or.inl rfl, Or.inr ⟨_, rfl, by simp⟩]
  | dataRow => unfold parseDataRow; split; exacts [Or.inl rfl, Or.inr ⟨_, rfl, by simp⟩]
  | _ => exact Or.inr ⟨_, rfl, by simp⟩

/-! ## Rounds and calls -/

/-- **A round keeps the order.** -/
theorem Session.round {c : Ctx} {r : Round} (hr : c.role = .server) (h : Session c) (hs : Rounds c r) :
    ∀ c', r = .again c' ∨ r = .stop c' → Session c' ∧ c'.role = .server := by
  have hawait : c.awaitsStartup = !c.startupSeen := by
    unfold Ctx.awaitsStartup
    cases c.startupSeen <;> simp [hr]
  intro c' hc
  cases hs with
  | wait =>
    obtain rfl : c = c' := by simpa using hc
    exact ⟨h, hr⟩
  | badStartup ha =>
    obtain rfl : _ = c' := by simpa using hc
    have hseen : c.startupSeen = false := by simpa [hawait] using ha
    exact ⟨h.error hseen hseen rfl rfl, hr⟩
  | startup ha =>
    obtain rfl : _ = c' := by simpa using hc
    have hseen : c.startupSeen = false := by simpa [hawait] using ha
    unfold Ctx.afterStartup parseStartupBody
    rw [if_pos hr]
    exact ⟨h.startup hseen rfl rfl rfl, hr⟩
  | reject ha =>
    obtain rfl : _ = c' := by simpa using hc
    have hseen : c.startupSeen = true := by simpa [hawait] using ha
    unfold Ctx.rejectFrame
    dsimp only
    split
    · exact ⟨h.other hseen hseen rfl (by simp), hr⟩
    · exact ⟨h.other hseen hseen rfl (by simp), hr⟩
  | message ha =>
    obtain rfl : _ = c' := by simpa using hc
    have hseen : c.startupSeen = true := by simpa [hawait] using ha
    have hh := handleMessage_handled c (c.inputBuf.getD 0 0) 5 (slice c.inputBuf 5 (c.typedLen - 4))
    have hseen' := handleMessage_startupSeen c (c.inputBuf.getD 0 0) 5 (slice c.inputBuf 5 (c.typedLen - 4))
    refine ⟨?_, hh.role.trans hr⟩
    rcases hh.emit with ⟨hl, -⟩ | ⟨q, -, -, hl, -⟩
    · exact h.congr hseen' hl
    · exact h.other hseen (hseen'.trans hseen) hl (handleMessage_not_startup hl)

theorem Session.reaches {c d : Ctx} (hd : c.Reaches d) (hr : c.role = .server) (h : Session c) :
    Session d ∧ d.role = .server := by
  induction hd with
  | refl => exact ⟨h, hr⟩
  | @tail d d' _ hs ih => exact ih.1.round ih.2 (feedStep_rounds d) d' (Or.inl hs)

theorem Session.loops {c c' : Ctx} (hl : Loops c c') (hr : c.role = .server) (h : Session c) : Session c' := by
  have hround : ∀ c c₁ : Ctx, Session c ∧ c.role = .server → c.feedStep = .again c₁ ∨ c.feedStep = .stop c₁ →
      Session c₁ ∧ c₁.role = .server := by
    rintro c c₁ ⟨h, hr⟩ hs
    exact h.round hr (feedStep_rounds c) c₁ hs
  exact (hl.keeps hround ⟨h, hr⟩).1

theorem Session.accept {c c₁ : Ctx} {data : Bytes} (ha : c.acceptInput data = some c₁) (hr : c.role = .server)
    (h : Session c) : Session c₁ ∧ c₁.role = .server := by
  obtain ⟨cap, allocs, rfl⟩ := acceptInput_some ha
  exact ⟨h.congr rfl rfl, hr⟩

/-- **A public call keeps the order.** -/
theorem step_session {c c' : Ctx} (hs : Step c c') (hr : c.role = .server) (h : Session c) : Session c' := by
  cases hs with
  | @feed _ data fuel n hf =>
    unfold Ctx.feedInput at hf
    split at hf
    · cases hf
      exact h.congr rfl rfl
    · rename_i c₁ ha
      obtain ⟨c₂, hl, he⟩ := Option.map_eq_some_iff.1 hf
      cases he
      obtain ⟨h₁, hr₁⟩ := h.accept ha hr
      exact Session.loops ⟨fuel, hl⟩ hr₁ h₁
  | next hn =>
    rw [(nextEvent_frame hn).1]
    exact h.congr rfl rfl
  | reset => exact ⟨[], by simp, rfl⟩
  | output n => exact h.congr rfl rfl
  | send s =>
    rw [send_outputOnly c s]
    exact h.congr rfl rfl
  | ready => exact h.congr rfl rfl

theorem reachable_session {c : Ctx} (hc : Reachable c) (hr : c.role = .server) : Session c := by
  induction hc with
  | create h =>
    obtain ⟨-, hlog, -, -, -, -, hseen⟩ := create_empty h
    refine ⟨[], by simp, ?_⟩
    rw [hseen, hlog]
    rfl
  | @step c c' hc' hs ih =>
    have hr' : c.role = .server := (step_config hs (reachable_ok hc').1).1.symm.trans hr
    exact step_session hs hr' (ih hr')

/-- **The events of a server's session are in order**: errors of the framing, then at most one
startup, then anything else. This holds between any two calls and, since a call may not return, in the
middle of a call as well. -/
theorem session_order {c : Ctx} (hc : Reachable c) (hr : c.role = .server) :
    SessionOrder (c.log.map (·.ev)) ∧
      (c.log.map (·.ev)).count .startup ≤ 1 ∧
      (∀ pre e post, c.log.map (·.ev) = pre ++ e :: post → e ≠ .protocolError → e = .startup ∨ .startup ∈ pre) ∧
      ∀ data c₁ d, c.acceptInput data = some c₁ → c₁.Reaches d → SessionOrder (d.log.map (·.ev)) := by
  have h := reachable_session hc hr
  refine ⟨h.order, h.order.startup_once, ?_, ?_⟩
  · intro pre e post hevs he
    exact SessionOrder.startup_first (hevs ▸ h.order) he
  · intro data c₁ d ha hd
    obtain ⟨h₁, hr₁⟩ := h.accept ha hr
    exact (Session.reaches hd hr₁ h₁).1.order

/-- A server that has received its startup message. -/
theorem session_order_started : SessionOrder ((startedServer 16 64).log.map (·.ev)) :=
  (session_order (startedServer_reachable (by decide) (by decide)) rfl).1

end Pqwire

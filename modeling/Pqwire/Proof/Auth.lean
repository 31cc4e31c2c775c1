import Pqwire.Proof.Duplex
import Pqwire.Proof.Fifo
import Pqwire.Proof.Handshake
import Pqwire.Spec.Auth

/-!
# The authentication of a session

* `feedInput_auth`: the input moves the state to done, with an AuthenticationOk, or not at all.
* `startAuth_cases`: what `pqwire_start_auth` does, in four cases.
* `Authing.Law`: the invariant of a run.
* `auth_law`: there is at most one client-first message between two resets, and it is whole; the
  state says whether it has been written and whether an AuthenticationOk has arrived.
-/

namespace Pqwire

open ByteMem

/-! ## Input -/

/-- The state is done exactly behind an AuthenticationOk, and `a` where it is not. -/
structure Settles (a : AuthState) (c : Ctx) : Prop where
  done : c.authState = .done ↔ c.authenticated = true
  kept : c.authState = a ∨ c.authState = .done

variable {a : AuthState} {c c' : Ctx}

/-- Any other event. -/
theorem Settles.event (h : Settles a c) {q : Queued} (hq : q.ev ≠ .authenticationOk) (hlog : c'.log = c.log ++ [q])
    (hs : c'.authState = c.authState) : Settles a c' := by
  have hsame : c'.authenticated = c.authenticated := by
    unfold Ctx.authenticated
    rw [hlog, List.any_append, List.any_cons, List.any_nil, decide_eq_false hq, Bool.or_false, Bool.or_false]
  refine ⟨?_, hs ▸ h.kept⟩
  rw [hs, hsame]
  exact h.done

theorem settles_kept (a : AuthState) : Kept (Settles a) where
  input _ _ _ h := ⟨h.done, h.kept⟩
  allocs _ h := ⟨h.done, h.kept⟩
  message {c} type base body _ h := by
    have hh := handleMessage_handling c type base body
    generalize handleMessage c type base body = c' at hh ⊢
    cases hh with
    | ignored => exact h
    | event _ hp =>
      refine h.event ?_ rfl rfl
      rcases plainEvent_cases hp with ⟨b, rfl, -⟩ | ⟨rfl, -⟩ | hv
      · rintro ⟨⟩
      · rintro ⟨⟩
      · rintro hev
        dsimp only at hev
        rw [hev] at hv
        cases hv
    | query => exact h.event (by rintro ⟨⟩) rfl rfl
    | authenticated =>
      refine ⟨⟨fun _ => ?_, fun _ => rfl⟩, Or.inr rfl⟩
      apply List.any_eq_true.2
      exact ⟨_, List.mem_append_right _ (List.mem_singleton.2 rfl), rfl⟩
    | authentication => exact h
    | ready => exact h.event (by rintro ⟨⟩) rfl rfl
    | rowDescription =>
      unfold parseRowDescription
      split
      · exact h
      · exact h.event (by rintro ⟨⟩) rfl rfl
    | dataRow =>
      unfold parseDataRow
      split
      · exact h
      · exact h.event (by rintro ⟨⟩) rfl rfl
    | complete => exact h.event (by rintro ⟨⟩) rfl rfl
  startup body _ h := by
    unfold parseStartupBody
    split
    · exact h.event (by rintro ⟨⟩) rfl rfl
    · exact h.event (by rintro ⟨⟩) rfl rfl
  error _ h := h.event (by rintro ⟨⟩) rfl rfl

/-! ## The call -/

theorem firstText_length (rand : ℕ → ℕ) : (scramSha256Init rand).firstText.length = 36 :=
  (scramSha256Init_formed rand).texts.1

/-- **What `pqwire_start_auth` does**: it refuses behind another call or an AuthenticationOk, does
nothing where no SCRAM is configured, and writes one whole client-first message otherwise. -/
theorem startAuth_cases (ha : c.allocs = []) (scram : Bool) (rand : ℕ → ℕ) :
    (c.authState ≠ .none ∧ c.startAuth scram rand = (c, -1)) ∨
      (c.authState = .none ∧ ¬(c.role = .client ∧ scram = true) ∧ c.startAuth scram rand = (c, 0)) ∨
      (c.authState = .none ∧ (c.role = .client ∧ scram = true) ∧
        ∃ (m : Message) (cap : ℕ), m.IsClientFirst ∧ c.startAuth scram rand =
          ({ c with authState := .clientFirst, output := c.output ++ m.enc, outputCap := cap, allocs := [] }, 0)) := by
  by_cases hs : c.authState = .none
  · by_cases hr : c.role = .client ∧ scram = true
    · refine Or.inr (Or.inr ⟨hs, hr, ?_⟩)
      have hlen := firstText_length rand
      have hbody : (scramSha256Init rand).firstText.toBytes.length = 37 := by rw [CStr.toBytes_length, hlen]
      have hfirst : clientFirst (scramSha256Init rand) 256 = some (scramSha256Init rand).firstText := by
        unfold clientFirst
        exact if_pos (show (scramSha256Init rand).firstText.length < 256 by omega)
      set c₁ : Ctx := { c with authState := .clientFirst }
      set f : Frame := ⟨ch 'p', (scramSha256Init rand).firstText.toBytes, by omega⟩
      have hf : ch 'p' :: wr32Be (4 + (scramSha256Init rand).firstText.length + 1) ++
          (scramSha256Init rand).firstText.toBytes = f.enc := by
        show _ = ch 'p' :: wr32Be ((scramSha256Init rand).firstText.toBytes.length + 4) ++ _
        rw [hlen, hbody]
      have hal : c₁.allocs = [] := ha
      obtain ⟨hout, hal'⟩ := appendOutput_all hal f.enc
      have hframe := appendOutput_appendsOnly c₁ f.enc
      unfold AppendsOnly at hframe
      refine ⟨.typed f, (c₁.appendOutput f.enc).outputCap, ⟨rand, f, rfl, rfl, rfl, ?_⟩, ?_⟩
      · show (scramSha256Init rand).firstText.toBytes.length + 4 = 41
        omega
      · unfold Ctx.startAuth
        rw [if_neg (not_not_intro hs), if_pos hr]
        dsimp only
        rw [hfirst]
        dsimp only
        rw [hf, hframe, hout, hal']
        rfl
    · refine Or.inr (Or.inl ⟨hs, hr, ?_⟩)
      unfold Ctx.startAuth
      rw [if_neg (not_not_intro hs), if_neg hr]
  · refine Or.inl ⟨hs, ?_⟩
    unfold Ctx.startAuth
    rw [if_pos hs]

/-! ## Runs -/

theorem authPhase_done (started ok : Bool) : authPhase started ok = .done ↔ ok = true := by
  cases ok
  · cases started
    · decide
    · decide
  · exact ⟨fun _ => rfl, fun _ => rfl⟩

/-- **Input** moves the state to done, with an AuthenticationOk, or not at all. -/
theorem feedInput_auth {fuel n : ℕ} {data : Bytes} {started : Bool} (hok : c.Ok) (h : c.feedInput fuel data = some (c', n))
    (hs : c.authState = authPhase started c.authenticated) : c'.authState = authPhase started c'.authenticated := by
  have hbefore : Settles c.authState c := by
    refine ⟨?_, Or.inl rfl⟩
    rw [hs]
    apply authPhase_done
  have hafter := (settles_kept c.authState).feedInput h hok hbefore
  by_cases hok' : c'.authenticated = true
  · rw [hafter.done.2 hok', hok']
    rfl
  · have hnot : c'.authState ≠ .done := fun hd => hok' (hafter.done.1 hd)
    rcases hafter.kept with hkept | hd
    · -- the state has not moved, so there was no AuthenticationOk before either
      have hno : c.authenticated ≠ true := fun hyes => hnot (hkept.trans (hbefore.done.2 hyes))
      rw [hkept, hs, Bool.eq_false_of_not_eq_true hno, Bool.eq_false_of_not_eq_true hok']
    · exact absurd hd hnot

/-- No send helper emits a message of type `p`. -/
theorem Send.Emits.not_first {m : Send} {msg : Message} (h : m.Emits msg) : msg.isFirst = false := by
  cases msg with
  | startup S => rfl
  | typed f =>
    have htype : m.type = some f.type := h
    apply decide_eq_false
    intro hp
    rw [hp] at htype
    cases m with
    | startup => cases htype
    | unnamedPipeline => cases htype
    | _ => exact absurd (Option.some.inj htype) (by decide)

namespace Authing

/-- The invariant of a run. `ms` are the messages written since creation or the last reset. -/
structure Law (role : Role) (scram : Bool) (a : Authing) (ms : List Message) : Prop where
  ok : a.ctx.Ok
  waits : a.ctx.Waits
  allocs : a.ctx.allocs = []
  side : a.ctx.role = role
  bytes : a.drained ++ a.ctx.output = ms.flatMap Message.enc
  whole : ∀ m ∈ ms, m.isFirst = true → m.IsClientFirst
  once : (ms.filter Message.isFirst).length ≤ 1
  configured : ms.any Message.isFirst = true → role = .client ∧ scram = true
  state : a.ctx.authState = authPhase (ms.any Message.isFirst) a.ctx.authenticated

variable {role : Role} {scram : Bool} {a : Authing} {ms : List Message}

/-- A step that writes nothing and leaves the history alone. -/
theorem Law.keeps (h : Law role scram a ms) {c : Ctx} (hok : c.Ok) (hw : c.Waits) (ha : c.allocs = []) (hr : c.role = a.ctx.role)
    (ho : c.output = a.ctx.output) (hs : c.authState = authPhase (ms.any Message.isFirst) c.authenticated) :
    Law role scram { a with ctx := c } ms := by
  refine ⟨hok, hw, ha, hr.trans h.side, ?_, h.whole, h.once, h.configured, hs⟩
  show a.drained ++ c.output = _
  rw [ho]
  exact h.bytes

/-- A step that writes a message. -/
theorem Law.writes (h : Law role scram a ms) {c : Ctx} {m : Message} (hok : c.Ok) (hw : c.Waits) (ha : c.allocs = [])
    (hr : c.role = a.ctx.role) (ho : c.output = a.ctx.output ++ m.enc)
    (hfirst : m.isFirst = true → m.IsClientFirst ∧ ms.any Message.isFirst = false ∧ role = .client ∧ scram = true)
    (hs : c.authState = authPhase (ms.any Message.isFirst || m.isFirst) c.authenticated) :
    Law role scram { a with ctx := c } (ms ++ [m]) := by
  have hany : (ms ++ [m]).any Message.isFirst = (ms.any Message.isFirst || m.isFirst) := by
    rw [List.any_append, List.any_cons, List.any_nil, Bool.or_false]
  refine ⟨hok, hw, ha, hr.trans h.side, ?_, ?_, ?_, ?_, ?_⟩
  · show a.drained ++ c.output = _
    rw [ho, ← List.append_assoc, h.bytes, List.flatMap_append]
    congr 1
    exact (List.append_nil _).symm
  · intro m' hm hf
    rcases List.mem_append.1 hm with hm | hm
    · exact h.whole m' hm hf
    · rw [List.mem_singleton.1 hm] at hf ⊢
      exact (hfirst hf).1
  · rw [List.filter_append, List.length_append]
    by_cases hf : m.isFirst = true
    · have hnone : ms.filter Message.isFirst = [] := by
        have hall := List.any_eq_false.1 (hfirst hf).2.1
        exact List.filter_eq_nil_iff.2 hall
      rw [hnone, List.length_nil, Nat.zero_add]
      exact List.length_filter_le ..
    · rw [List.filter_cons_of_neg hf]
      exact h.once
  · intro hyes
    rw [hany, Bool.or_eq_true] at hyes
    rcases hyes with hyes | hyes
    · exact h.configured hyes
    · exact (hfirst hyes).2.2
  · show c.authState = _
    rw [hany]
    exact hs

theorem Law.startAuth (h : Law role scram a ms) (rand : ℕ → ℕ) :
    ∃ ms', Law role scram { a with ctx := (a.ctx.startAuth scram rand).1 } ms' := by
  rcases startAuth_cases h.allocs scram rand with ⟨-, heq⟩ | ⟨-, -, heq⟩ | ⟨hnone, hconf, m, cap, hm, heq⟩
  · rw [heq]
    exact ⟨ms, h⟩
  · rw [heq]
    exact ⟨ms, h⟩
  · have hphase := h.state
    rw [hnone] at hphase
    -- nothing has been started, and no AuthenticationOk has arrived
    have hbefore : ms.any Message.isFirst = false ∧ a.ctx.authenticated = false := by
      generalize ms.any Message.isFirst = s at hphase ⊢
      generalize a.ctx.authenticated = o at hphase ⊢
      cases o
      · cases s
        · exact ⟨rfl, rfl⟩
        · cases hphase
      · cases hphase
    have hfirst : m.isFirst = true := by
      obtain ⟨-, f, rfl, hf, -⟩ := hm
      exact decide_eq_true hf
    rw [h.side] at hconf
    rw [heq]
    refine ⟨ms ++ [m], h.writes ?_ h.waits rfl rfl rfl (fun _ => ⟨hm, hbefore.1, hconf⟩) ?_⟩
    · exact ⟨h.ok.ring, h.ok.queue, h.ok.input, h.ok.cols, h.ok.names, h.ok.arena, h.ok.arenaSize⟩
    · show AuthState.clientFirst = authPhase (ms.any Message.isFirst || m.isFirst) a.ctx.authenticated
      rw [hfirst, hbefore.2, Bool.or_true]
      rfl

theorem Law.send (h : Law role scram a ms) {m : Send} (hm : m.Single)
    (hp : (m.run a.ctx).1.output.length < a.ctx.output.length + (5 + (2 ^ 32 - 4))) :
    ∃ ms', Law role scram { a with ctx := (m.run a.ctx).1 } ms' := by
  obtain ⟨hok, hw⟩ := step_ok (.send a.ctx m) h.ok h.waits
  obtain ⟨hal, hcases⟩ := send_message_iff h.allocs hm hp
  have hframe := send_outputOnly a.ctx m
  unfold OutputOnly at hframe
  have hrole : (m.run a.ctx).1.role = a.ctx.role := by rw [hframe]
  have hauth : (m.run a.ctx).1.authState = a.ctx.authState := by rw [hframe]
  have hlog : (m.run a.ctx).1.authenticated = a.ctx.authenticated := by
    unfold Ctx.authenticated
    rw [hframe]
  rcases hcases with ⟨-, hout⟩ | ⟨-, msg, hemits, hout⟩
  · refine ⟨ms, h.keeps hok hw hal hrole hout ?_⟩
    rw [hauth, hlog]
    exact h.state
  · have hnot := hemits.not_first
    refine ⟨ms ++ [msg], h.writes hok hw hal hrole hout ?_ ?_⟩
    · intro hyes
      rw [hnot] at hyes
      cases hyes
    · rw [hnot, Bool.or_false, hauth, hlog]
      exact h.state

theorem create_authState {config : Config} {c : Ctx} (h : createWithConfig role config [] = some c) : c.authState = .none := by
  unfold createWithConfig at h
  split at h
  · cases h
  split at h
  · cases h
    rfl
  · cases h

/-- **The invariant holds in every state.** -/
theorem Reach.law (h : Reach role scram a) : ∃ ms, Law role scram a ms := by
  induction h with
  | create hc =>
    obtain ⟨hok, hw⟩ := create_ok hc
    obtain ⟨-, hlog, -, hout, -, hr, -⟩ := create_empty hc
    refine ⟨[], hok, hw, create_allocs hc, hr, ?_, List.forall_mem_nil _, Nat.zero_le _, ?_, ?_⟩
    · rw [hout]
      rfl
    · rintro ⟨⟩
    · rw [create_authState hc]
      unfold Ctx.authenticated
      rw [hlog]
      rfl
  | startAuth rand _ ih =>
    obtain ⟨ms, h⟩ := ih
    exact h.startAuth rand
  | feed _ hf ih =>
    obtain ⟨ms, h⟩ := ih
    obtain ⟨hok, hw⟩ := step_ok (.feed hf) h.ok h.waits
    have hrec := feedInput_received h.allocs hf
    exact ⟨ms, h.keeps hok hw (hrec.allocs.trans h.allocs) hrec.role hrec.output (feedInput_auth h.ok hf h.state)⟩
  | next _ hn ih =>
    obtain ⟨ms, h⟩ := ih
    obtain ⟨hok, hw⟩ := step_ok (.next hn) h.ok h.waits
    obtain ⟨hframe, -⟩ := nextEvent_frame hn
    rw [hframe] at hok hw ⊢
    exact ⟨ms, h.keeps hok hw h.allocs rfl rfl h.state⟩
  | send _ hm hp ih =>
    obtain ⟨ms, h⟩ := ih
    exact h.send hm hp
  | @output a maxLen _ ih =>
    obtain ⟨ms, h⟩ := ih
    obtain ⟨hok, hw⟩ := step_ok (.output a.ctx maxLen) h.ok h.waits
    refine ⟨ms, hok, hw, h.allocs, h.side, ?_, h.whole, h.once, h.configured, h.state⟩
    show a.drained ++ a.ctx.output.take maxLen ++ a.ctx.output.drop maxLen = _
    rw [List.append_assoc, List.take_append_drop]
    exact h.bytes
  | @ready a _ ih =>
    obtain ⟨ms, h⟩ := ih
    obtain ⟨hok, hw⟩ := step_ok (.ready a.ctx) h.ok h.waits
    exact ⟨ms, h.keeps hok hw h.allocs rfl rfl h.state⟩
  | @reset a _ ih =>
    obtain ⟨ms, h⟩ := ih
    obtain ⟨hok, hw⟩ := step_ok (.reset a.ctx) h.ok h.waits
    refine ⟨[], hok, hw, h.allocs, h.side, rfl, List.forall_mem_nil _, Nat.zero_le _, ?_, rfl⟩
    rintro ⟨⟩

end Authing

/-- **The authentication of a session.** In every run, what has been written since creation or the
last reset is a stream of whole messages with at most one client-first message, which only a client
that is configured for SCRAM writes; `auth_state` says whether that message has been written and
whether an AuthenticationOk has arrived since; and `pqwire_start_auth` is refused exactly behind
either, and writes that message whole on the first call. -/
theorem auth_law {role : Role} {scram : Bool} {a : Authing} (h : Authing.Reach role scram a) :
    ∃ ms : List Message, a.drained ++ a.ctx.output = ms.flatMap Message.enc ∧
      (ms.filter Message.isFirst).length ≤ 1 ∧ (∀ m ∈ ms, m.isFirst = true → m.IsClientFirst) ∧
      (ms.any Message.isFirst = true → role = .client ∧ scram = true) ∧
      a.ctx.authState = authPhase (ms.any Message.isFirst) a.ctx.authenticated ∧
      ∀ rand, ((a.ctx.startAuth scram rand).2 = -1 ↔ ms.any Message.isFirst = true ∨ a.ctx.authenticated = true) ∧
        ((a.ctx.startAuth scram rand).2 = 0 → role = .client → scram = true →
          ∃ m : Message, m.IsClientFirst ∧ (a.ctx.startAuth scram rand).1.output = a.ctx.output ++ m.enc) := by
  obtain ⟨ms, hl⟩ := h.law
  refine ⟨ms, hl.bytes, hl.once, hl.whole, hl.configured, hl.state, ?_⟩
  intro rand
  have hphase : a.ctx.authState ≠ .none ↔ ms.any Message.isFirst = true ∨ a.ctx.authenticated = true := by
    rw [hl.state]
    generalize ms.any Message.isFirst = s
    generalize a.ctx.authenticated = o
    cases o
    · cases s
      · decide
      · decide
    · cases s
      · decide
      · decide
  rw [← hphase]
  rcases startAuth_cases hl.allocs scram rand with ⟨hne, heq⟩ | ⟨hnone, hconf, heq⟩ | ⟨hnone, -, m, cap, hm, heq⟩
  · rw [heq]
    refine ⟨⟨fun _ => hne, fun _ => rfl⟩, ?_⟩
    rintro ⟨⟩
  · rw [heq]
    refine ⟨⟨?_, fun hne => absurd hnone hne⟩, ?_⟩
    · rintro ⟨⟩
    · intro _ hr hs
      rw [hl.side] at hconf
      exact absurd ⟨hr, hs⟩ hconf
  · rw [heq]
    refine ⟨⟨?_, fun hne => absurd hnone hne⟩, ?_⟩
    · rintro ⟨⟩
    · intro _ _ _
      exact ⟨m, hm, rfl⟩

/-- Two calls, a drain of four bytes and an AuthenticationOk in two pieces. -/
theorem auth_law_twice :
    ∃ (a : Authing) (ms : List Message), Authing.Reach .client true a ∧ a.ctx.authState = .done ∧ a.drained = [112, 0, 0, 0] ∧
      a.drained ++ a.ctx.output = ms.flatMap Message.enc ∧ (ms.filter Message.isFirst).length ≤ 1 ∧
      a.ctx.authState = authPhase (ms.any Message.isFirst) a.ctx.authenticated := by
  have h₀ := @Authing.Reach.create .client true ⟨16, 64⟩ _ rfl
  have h₁ := (h₀.startAuth fun _ => 0).startAuth fun _ => 1
  have h₂ := h₁.output 4
  have h₃ := @Authing.Reach.feed _ _ _ _ [82, 0, 0, 0, 8] 1 _ h₂ rfl
  have h₄ := @Authing.Reach.feed _ _ _ _ [0, 0, 0, 0] 2 _ h₃ rfl
  obtain ⟨ms, hbytes, honce, -, -, hstate, -⟩ := auth_law h₄
  exact ⟨_, ms, h₄, rfl, rfl, hbytes, honce, hstate⟩

end Pqwire

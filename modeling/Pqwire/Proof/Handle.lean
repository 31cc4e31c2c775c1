import Pqwire.Proof.Dispatch

/-!
# What handling one message can do

* `bindOf_view`: every parameter view of a parsed Bind lies inside its body.
* `handleMessage_handled`: handling a message leaves the input, the output and the
  configuration alone and enqueues at most one event, whose recorded view is what its
  pointers denote in the context left behind.
* `handleMessage_setInput`: it depends on the input buffer only through the body.
-/

namespace Pqwire

open ByteMem

/-! ## Views of a parsed Bind -/

theorem readParams_view {base : ℕ} {body : Bytes} {fmt : ℕ → Int16} :
    ∀ {n i off : ℕ} {vs : List BindParamView} {e : ℕ}, readParams base body fmt n i off = some (vs, e) →
      ∀ v ∈ vs, ∀ p, v.data = some p → base ≤ p ∧ p + v.length.toInt.toNat ≤ base + body.length := by
  intro n
  induction n with
  | zero =>
    intro i off vs e h v hv
    simp only [readParams, Option.some.injEq, Prod.mk.injEq] at h
    obtain ⟨rfl, -⟩ := h
    cases hv
  | succ n ih =>
    intro i off vs e h v hv p hp
    simp only [readParams] at h
    split at h
    · split at h
      · -- a NULL parameter has no pointer
        simp only [Option.bind_eq_bind, Option.bind_eq_some_iff] at h
        obtain ⟨⟨vs', e'⟩, hr, h⟩ := h
        simp only [Option.pure_def, Option.some.injEq, Prod.mk.injEq] at h
        obtain ⟨rfl, rfl⟩ := h
        rcases List.mem_cons.1 hv with rfl | hv
        · cases hp
        · exact ih hr v hv p hp
      · split at h
        · cases h
        · simp only [Option.bind_eq_bind, Option.bind_eq_some_iff] at h
          obtain ⟨⟨vs', e'⟩, hr, h⟩ := h
          simp only [Option.pure_def, Option.some.injEq, Prod.mk.injEq] at h
          obtain ⟨rfl, rfl⟩ := h
          rcases List.mem_cons.1 hv with rfl | hv
          · simp only [Option.some.injEq] at hp
            subst hp
            exact ⟨by omega, by simp only; omega⟩
          · exact ih hr v hv p hp
    · simp only [Option.some.injEq, Prod.mk.injEq] at h
      obtain ⟨rfl, -⟩ := h
      cases hv

/-- **What a parsed Bind consists of**: its parameters were read from some offset on, with its
own formats, and its raw body is the body. -/
theorem bindOf_inv {base : ℕ} {body : Bytes} {b : BindMsg} (h : bindOf base body = some b) :
    ∃ off e, off ≤ body.length ∧
      readParams base body (formatFor b.nFormats b.formats) b.nParams 0 off = some (b.params, e) ∧
      b.rawBody = base ∧ b.rawBodyLen = body.length := by
  unfold bindOf at h
  simp only [Option.bind_eq_bind, Option.bind_eq_some_iff] at h
  obtain ⟨⟨portal, c⟩, -, ⟨stmt, c'⟩, -, h⟩ := h
  split at h
  · cases h
  simp only [Option.pure_def] at h
  split at h
  · cases h
  rename_i hlen
  simp only [Option.bind_eq_some_iff] at h
  obtain ⟨⟨params, e⟩, hr, h⟩ := h
  simp only at hlen h
  -- with result formats, or at the end of the body
  split at h
  all_goals
    simp only [Option.some.injEq] at h
    subst h
    exact ⟨_, e, Nat.le_of_not_lt hlen, hr, rfl, rfl⟩

/-- The smallest Bind: two terminators and two counts. -/
theorem bindOf_length {base : ℕ} {body : Bytes} {b : BindMsg} (h : bindOf base body = some b) : 6 ≤ body.length := by
  unfold bindOf at h
  simp only [Option.bind_eq_bind, Option.bind_eq_some_iff] at h
  obtain ⟨⟨portal, n⟩, hp, ⟨stmt, m⟩, hs, h⟩ := h
  have hn := (readCstr_some hp).1
  have hm := (readCstr_some hs).1
  split at h
  · cases h
  simp only [Option.pure_def] at h
  split at h
  · cases h
  rename_i hlen
  omega

/-- **Every parameter view lies inside the body.** -/
theorem bindOf_view {base : ℕ} {body : Bytes} {b : BindMsg} (h : bindOf base body = some b) (i : ℕ) {p : ℕ}
    (hp : (b.param i).data = some p) : base ≤ p ∧ p + (b.param i).length.toInt.toNat ≤ base + body.length := by
  obtain ⟨off, e, -, hr, -, -⟩ := bindOf_inv h
  unfold BindMsg.param at hp ⊢
  rw [List.getD_eq_getElem?_getD] at hp ⊢
  cases hi : b.params[i]? with
  | none => rw [hi] at hp; cases hp
  | some v =>
    rw [hi] at hp
    exact readParams_view hr v (List.mem_of_getElem? hi) p hp

/-! ## The effect of a message -/

/-- Handling a message with body `body` takes `c` to `c'`. -/
structure Handled (c : Ctx) (body : Bytes) (c' : Ctx) : Prop where
  role : c'.role = c.role
  max : c'.maxMessageSize = c.maxMessageSize
  output : c'.output = c.output
  outputCap : c'.outputCap = c.outputCap
  inputBuf : c'.inputBuf = c.inputBuf
  inputLen : c'.inputLen = c.inputLen
  inputCap : c'.inputCap = c.inputCap
  allocs : c'.allocs = c.allocs
  /-- at most one event, recorded as the context left behind shows it -/
  emit : (c'.log = c.log ∧ c'.events = c.events) ∨
    ∃ q : Queued, q.frame = body ∧ q.seen = c'.read q.ev ∧
      c'.log = c.log ++ [q] ∧ c'.events = c.events.enqueue q

theorem Handled.refl (c : Ctx) (body : Bytes) : Handled c body c :=
  ⟨rfl, rfl, rfl, rfl, rfl, rfl, rfl, rfl, Or.inl ⟨rfl, rfl⟩⟩

theorem enqueueEvent_handled (c : Ctx) (ev : Event) (body : Bytes) : Handled c body (c.enqueueEvent ev body) := by
  refine ⟨rfl, rfl, rfl, rfl, rfl, rfl, rfl, rfl, Or.inr ⟨_, rfl, ?_, rfl, rfl⟩⟩
  cases ev <;> rfl

/-- What an event shows does not depend on the protocol phase. -/
theorem read_state (c : Ctx) (p : ProtoState) (a : AuthState) (s : Bool) (ev : Event) :
    Ctx.read { c with protoState := p, authState := a, startupSeen := s } ev = c.read ev := by
  cases ev <;> rfl

theorem Handled.state {c c' : Ctx} {body : Bytes} (h : Handled c body c') (p : ProtoState) (a : AuthState)
    (s : Bool) : Handled c body { c' with protoState := p, authState := a, startupSeen := s } := by
  refine ⟨h.role, h.max, h.output, h.outputCap, h.inputBuf, h.inputLen, h.inputCap, h.allocs, ?_⟩
  rcases h.emit with he | ⟨q, h1, h2, h3, h4⟩
  · exact Or.inl he
  · exact Or.inr ⟨q, h1, by rw [read_state]; exact h2, h3, h4⟩

theorem Handling.handled {c c' : Ctx} {type : UInt8} {base : ℕ} {body : Bytes} (h : Handling c type base body c') :
    Handled c body c' := by
  cases h with
  | ignored => exact .refl c body
  | event => exact enqueueEvent_handled c _ body
  | query =>
    have h := enqueueEvent_handled { c with sqlScratch := scratchStr maxQueryLen body } .query body
    exact ⟨h.role, h.max, h.output, h.outputCap, h.inputBuf, h.inputLen, h.inputCap, h.allocs,
      (h.state .querying c.authState c.startupSeen).emit⟩
  | authenticated => exact (enqueueEvent_handled c .authenticationOk body).state c.protoState .done c.startupSeen
  | authentication => exact .refl c body
  | ready => exact (enqueueEvent_handled c .readyForQuery body).state .ready c.authState c.startupSeen
  | rowDescription =>
    unfold parseRowDescription
    split
    · exact .refl c body
    · have h := enqueueEvent_handled { c with
        colScratch := (rowDescLoop body (min (rd16Be body 0) maxRowColumns) 0 2 c.colScratch c.colNameScratch).1
        colNameScratch :=
          (rowDescLoop body (min (rd16Be body 0) maxRowColumns) 0 2 c.colScratch c.colNameScratch).2.1 }
        (.rowDescription
          (rowDescLoop body (min (rd16Be body 0) maxRowColumns) 0 2 c.colScratch c.colNameScratch).2.2) body
      exact ⟨h.role, h.max, h.output, h.outputCap, h.inputBuf, h.inputLen, h.inputCap, h.allocs, h.emit⟩
  | dataRow =>
    unfold parseDataRow
    split
    · exact .refl c body
    · set r := dataRowLoop body (min (rd16Be body 0) maxRowColumns) 2 c.rowArena c.rowArenaUsed
      have h := enqueueEvent_handled { c with rowArena := r.arena, rowArenaUsed := r.used }
        (.dataRow ⟨r.columns⟩) body
      exact ⟨h.role, h.max, h.output, h.outputCap, h.inputBuf, h.inputLen, h.inputCap, h.allocs, h.emit⟩
  | complete =>
    have h := enqueueEvent_handled { c with tagScratch := scratchStr 64 body } .commandComplete body
    exact ⟨h.role, h.max, h.output, h.outputCap, h.inputBuf, h.inputLen, h.inputCap, h.allocs,
      (h.state .ready c.authState c.startupSeen).emit⟩

/-- **Handling a message enqueues at most one event** and leaves the input, the output
and the configuration alone. -/
theorem handleMessage_handled (c : Ctx) (type : UInt8) (base : ℕ) (body : Bytes) :
    Handled c body (handleMessage c type base body) := (handleMessage_handling c type base body).handled

theorem handleMessage_startupSeen (c : Ctx) (type : UInt8) (base : ℕ) (body : Bytes) :
    (handleMessage c type base body).startupSeen = c.startupSeen := by
  have h := handleMessage_handling c type base body
  generalize handleMessage c type base body = c' at h ⊢
  cases h with
  | rowDescription => unfold parseRowDescription; split <;> rfl
  | dataRow => unfold parseDataRow; split <;> rfl
  | _ => rfl

theorem parseStartupBody_handled (c : Ctx) (body : Bytes) : Handled c body (parseStartupBody c body) := by
  have h := enqueueEvent_handled { c with
    userScratch := (startupLoop body body.length 4 CStr.empty CStr.empty).1
    dbScratch := (startupLoop body body.length 4 CStr.empty CStr.empty).2 } .startup body
  unfold parseStartupBody
  split
  · exact ⟨h.role, h.max, h.output, h.outputCap, h.inputBuf, h.inputLen, h.inputCap, h.allocs,
      (h.state .authenticating c.authState true).emit⟩
  · exact ⟨h.role, h.max, h.output, h.outputCap, h.inputBuf, h.inputLen, h.inputCap, h.allocs,
      (h.state c.protoState c.authState true).emit⟩

/-! ## Independence of the input buffer -/

/-- The context with another input buffer. -/
def Ctx.setInput (c : Ctx) (buf : Bytes) (len cap : ℕ) : Ctx :=
  { c with inputBuf := buf, inputLen := len, inputCap := cap }

/-- Two buffers agree on the `n` bytes from `base` on. -/
def AgreeAt (base n : ℕ) (buf buf' : Bytes) : Prop :=
  ∀ p k, base ≤ p → p + k ≤ base + n → slice buf p k = slice buf' p k

theorem enqueueEvent_setInput {c : Ctx} {ev : Event} {buf : Bytes} {len cap : ℕ} (body : Bytes)
    (h : (c.setInput buf len cap).read ev = c.read ev) :
    (c.setInput buf len cap).enqueueEvent ev body = (c.enqueueEvent ev body).setInput buf len cap := by
  unfold Ctx.enqueueEvent
  rw [h]; rfl

theorem read_bind_setInput {c : Ctx} {base : ℕ} {body buf : Bytes} {b : BindMsg} (len cap : ℕ)
    (hb : bindOf base body = some b) (h : AgreeAt base body.length buf c.inputBuf) :
    (c.setInput buf len cap).read (.bind b) = c.read (.bind b) := by
  simp only [Ctx.read, View.mk.injEq, true_and]
  apply List.map_congr_left
  intro i _
  cases hp : (b.param i).data with
  | none => rfl
  | some p =>
    obtain ⟨h1, h2⟩ := bindOf_view hb i hp
    exact congrArg some (h p _ h1 h2)

variable {c : Ctx} {base : ℕ} {body buf : Bytes} {len cap : ℕ}

theorem read_plain_setInput {role : Role} {type : UInt8} {ev : Event} (len cap : ℕ)
    (hp : plainEvent role type base body = some ev) (h : AgreeAt base body.length buf c.inputBuf) :
    (c.setInput buf len cap).read ev = c.read ev := by
  rcases plainEvent_cases hp with ⟨b, rfl, -, -, hb⟩ | ⟨rfl, -⟩ | hv
  · exact read_bind_setInput len cap hb h
  · simp only [Ctx.read, View.mk.injEq, true_and, List.cons.injEq, Option.some.injEq, and_true]
    exact h base _ le_rfl le_rfl
  · cases ev <;> first | rfl | cases hv

/-- **A message is handled the same way whatever else is in the input buffer.** -/
theorem handleMessage_setInput (type : UInt8) (h : AgreeAt base body.length buf c.inputBuf) :
    handleMessage (c.setInput buf len cap) type base body =
      (handleMessage c type base body).setInput buf len cap := by
  have hrole : (c.setInput buf len cap).role = c.role := rfl
  by_cases hs : type ∈ stateful c.role
  · rcases stateful_cases hs with ⟨hr, rfl⟩ | ⟨hr, t, rfl⟩
    · rw [handleMessage_front hr, handleMessage_front (hrole.trans hr)]
      rfl
    · rw [handleMessage_back hr, handleMessage_back (hrole.trans hr)]
      rw [hr] at hs
      cases t with
      | authentication => simp only [handleBackend]; split <;> rfl
      | readyForQuery => rfl
      | rowDescription => simp only [handleBackend, parseRowDescription]; split <;> rfl
      | dataRow => simp only [handleBackend, parseDataRow]; split <;> rfl
      | commandComplete => rfl
      | _ => exact absurd hs (by decide)
  · rw [handleMessage_plain hs, handleMessage_plain (hrole ▸ hs), hrole]
    cases hp : plainEvent c.role type base body with
    | none => rfl
    | some ev => exact enqueueEvent_setInput body (read_plain_setInput len cap hp h)

theorem parseStartupBody_setInput :
    parseStartupBody (c.setInput buf len cap) body = (parseStartupBody c body).setInput buf len cap := by
  unfold parseStartupBody
  have hr : (c.setInput buf len cap).role = c.role := rfl
  rw [hr]
  split <;> rfl

end Pqwire

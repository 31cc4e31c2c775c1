import Pqwire.Spec.Feed

/-!
# How a message is dispatched

Most messages are plain: they are ignored, or their event is enqueued and nothing else is done
(`plainEvent`). The others are the stateful ones: they write to the scratch areas or to the
arena, or they set the phase.

`Handling` lists what `handle_message` can do, with the conditions under which it does it, and
`handleMessage_handling` says that the list is complete. What messages keep or change is read off
this list.
-/

namespace Pqwire

open ByteMem

/-! ## Types -/

theorem front_find (t : FrontType) : FrontType.all.find? (·.byte = t.byte) = some t := by cases t <;> decide

theorem back_find (t : BackType) : BackType.all.find? (·.byte = t.byte) = some t := by cases t <;> decide

theorem front_find_some {type : UInt8} {t : FrontType} (h : FrontType.all.find? (·.byte = type) = some t) :
    t.byte = type := by
  have := List.find?_some h
  simpa using this

theorem back_find_some {type : UInt8} {t : BackType} (h : BackType.all.find? (·.byte = type) = some t) :
    t.byte = type := by
  have := List.find?_some h
  simpa using this

theorem handleMessage_front {c : Ctx} (hr : c.role = .server) (t : FrontType) (base : ℕ) (body : Bytes) :
    handleMessage c t.byte base body = handleFrontend c base body t := by
  unfold handleMessage
  rw [hr, front_find]

theorem handleMessage_back {c : Ctx} (hr : c.role = .client) (t : BackType) (base : ℕ) (body : Bytes) :
    handleMessage c t.byte base body = handleBackend c base body t := by
  unfold handleMessage
  rw [hr, back_find]

/-! ## Plain messages -/

/-- The event of a frontend message, if it is enqueued and nothing else is done. -/
def FrontType.plain (base : ℕ) (body : Bytes) : FrontType → Option Event
  | .query => none
  | .parse => (parseOf body).map .parse
  | .bind => (bindOf base body).map .bind
  | .describe => (targetName body).map fun m => .describe ⟨m.1, m.2⟩
  | .execute => (executeOf body).map .execute
  | .close => (targetName body).map fun m => .close ⟨m.1, m.2⟩
  | .sync => some .sync
  | .flush => some .flush
  | .terminate => some .terminate

/-- The event of a backend message, if it is enqueued and nothing else is done. -/
def BackType.plain (base : ℕ) (body : Bytes) : BackType → Option Event
  | .errorResponse => some (.errorResponse (errorLoop body.length body {}))
  | .parseComplete => some .parseComplete
  | .bindComplete => some .bindComplete
  | .closeComplete => some .closeComplete
  | .noData => some .noData
  | .portalSuspended => some .portalSuspended
  | .parameterStatus => some (.parameterStatus base body.length)
  | .noticeResponse => some .noticeResponse
  | .notification => (notificationOf body).map .notification
  | _ => none

/-- The same by the role of the context and the type byte. -/
def plainEvent (role : Role) (type : UInt8) (base : ℕ) (body : Bytes) : Option Event :=
  match role with
  | .server => (FrontType.all.find? (·.byte = type)).bind (·.plain base body)
  | .client => (BackType.all.find? (·.byte = type)).bind (·.plain base body)

/-- The type behind such an event. -/
theorem plainEvent_some {role : Role} {type : UInt8} {base : ℕ} {body : Bytes} {ev : Event}
    (h : plainEvent role type base body = some ev) :
    (∃ t : FrontType, role = .server ∧ type = t.byte ∧ t.plain base body = some ev) ∨
      ∃ t : BackType, role = .client ∧ type = t.byte ∧ t.plain base body = some ev := by
  unfold plainEvent at h
  cases role with
  | server =>
    obtain ⟨t, hf, ht⟩ := Option.bind_eq_some_iff.1 h
    exact Or.inl ⟨t, rfl, (front_find_some hf).symm, ht⟩
  | client =>
    obtain ⟨t, hf, ht⟩ := Option.bind_eq_some_iff.1 h
    exact Or.inr ⟨t, rfl, (back_find_some hf).symm, ht⟩

/-- An event that holds its data itself, of a message that does nothing else. -/
def Event.isValue : Event → Bool
  | .parse _ | .describe _ | .execute _ | .close _ | .sync | .flush | .terminate => true
  | .errorResponse _ | .noticeResponse | .parseComplete | .bindComplete | .closeComplete => true
  | .noData | .portalSuspended | .notification _ => true
  | _ => false

/-- Only two of these events point into the body. -/
theorem plainEvent_cases {role : Role} {type : UInt8} {base : ℕ} {body : Bytes} {ev : Event}
    (h : plainEvent role type base body = some ev) :
    (∃ b, ev = .bind b ∧ role = .server ∧ type = ch 'B' ∧ bindOf base body = some b) ∨
      (ev = .parameterStatus base body.length ∧ role = .client ∧ type = ch 'S') ∨ ev.isValue = true := by
  rcases plainEvent_some h with ⟨t, hr, ht, hp⟩ | ⟨t, hr, ht, hp⟩
  · cases t with
    | query => cases hp
    | bind =>
      obtain ⟨b, hb, rfl⟩ := Option.map_eq_some_iff.1 hp
      exact Or.inl ⟨b, rfl, hr, ht, hb⟩
    | parse =>
      obtain ⟨m, -, rfl⟩ := Option.map_eq_some_iff.1 hp
      exact Or.inr (Or.inr rfl)
    | describe =>
      obtain ⟨m, -, rfl⟩ := Option.map_eq_some_iff.1 hp
      exact Or.inr (Or.inr rfl)
    | execute =>
      obtain ⟨m, -, rfl⟩ := Option.map_eq_some_iff.1 hp
      exact Or.inr (Or.inr rfl)
    | close =>
      obtain ⟨m, -, rfl⟩ := Option.map_eq_some_iff.1 hp
      exact Or.inr (Or.inr rfl)
    -- the rest have no payload
    | _ =>
      cases hp
      exact Or.inr (Or.inr rfl)
  · cases t with
    | parameterStatus =>
      cases hp
      exact Or.inr (Or.inl ⟨rfl, hr, ht⟩)
    | notification =>
      obtain ⟨m, -, rfl⟩ := Option.map_eq_some_iff.1 hp
      exact Or.inr (Or.inr rfl)
    | _ => cases hp <;> exact Or.inr (Or.inr rfl)

theorem plainEvent_ne {role : Role} {type : UInt8} {base : ℕ} {body : Bytes} {ev : Event}
    (h : plainEvent role type base body = some ev) : ev ≠ .startup ∧ ev ≠ .readyForQuery ∧ ∀ r, ev ≠ .dataRow r := by
  rcases plainEvent_cases h with ⟨b, rfl, -⟩ | ⟨rfl, -⟩ | hv
  · simp
  · simp
  · refine ⟨?_, ?_, fun r => ?_⟩ <;> rintro rfl <;> cases hv

/-! ## Stateful messages -/

/-- The messages that do more than that. -/
def stateful : Role → List UInt8
  | .server => [ch 'Q']
  | .client => [ch 'R', ch 'Z', ch 'T', ch 'D', ch 'C']

theorem stateful_cases {role : Role} {type : UInt8} (h : type ∈ stateful role) :
    (role = .server ∧ type = FrontType.query.byte) ∨ (role = .client ∧ ∃ t : BackType, type = t.byte) := by
  cases role with
  | server => exact Or.inl ⟨rfl, List.mem_singleton.1 h⟩
  | client =>
    refine Or.inr ⟨rfl, ?_⟩
    simp only [stateful, List.mem_cons, List.not_mem_nil, or_false] at h
    rcases h with rfl | rfl | rfl | rfl | rfl
    · exact ⟨.authentication, rfl⟩
    · exact ⟨.readyForQuery, rfl⟩
    · exact ⟨.rowDescription, rfl⟩
    · exact ⟨.dataRow, rfl⟩
    · exact ⟨.commandComplete, rfl⟩

/-- What handling a message can do, with the conditions under which it does it. -/
inductive Handling (c : Ctx) (type : UInt8) (base : ℕ) (body : Bytes) : Ctx → Prop
  | ignored : type ∉ stateful c.role → plainEvent c.role type base body = none → Handling c type base body c
  | event {ev : Event} : type ∉ stateful c.role → plainEvent c.role type base body = some ev →
      Handling c type base body (c.enqueueEvent ev body)
  | query : c.role = .server → type = ch 'Q' → Handling c type base body (parseQueryMsg c body)
  | authenticated : c.role = .client → type = ch 'R' → 4 ≤ body.length ∧ rd32Be body 0 = 0 →
      Handling c type base body { c.enqueueEvent .authenticationOk body with authState := .done }
  | authentication : c.role = .client → type = ch 'R' → ¬(4 ≤ body.length ∧ rd32Be body 0 = 0) →
      Handling c type base body c
  | ready : c.role = .client → type = ch 'Z' →
      Handling c type base body { c.enqueueEvent .readyForQuery body with protoState := .ready }
  | rowDescription : c.role = .client → type = ch 'T' → Handling c type base body (parseRowDescription c body)
  | dataRow : c.role = .client → type = ch 'D' → Handling c type base body (parseDataRow c body)
  | complete : c.role = .client → type = ch 'C' → Handling c type base body (parseCommandComplete c body)

theorem handleFrontend_plain (c : Ctx) (base : ℕ) (body : Bytes) {t : FrontType} (ht : t ≠ .query) :
    handleFrontend c base body t = (t.plain base body).elim c fun ev => c.enqueueEvent ev body := by
  cases t with
  | query => exact absurd rfl ht
  | parse =>
    simp only [handleFrontend, parseParseMsg, FrontType.plain]
    cases parseOf body with
    | none => rfl
    | some m => rfl
  | bind =>
    simp only [handleFrontend, parseBindMsg, FrontType.plain]
    cases bindOf base body with
    | none => rfl
    | some m => rfl
  | describe =>
    simp only [handleFrontend, parseDescribeMsg, FrontType.plain]
    cases targetName body with
    | none => rfl
    | some m => rfl
  | execute =>
    simp only [handleFrontend, parseExecuteMsg, FrontType.plain]
    cases executeOf body with
    | none => rfl
    | some m => rfl
  | close =>
    simp only [handleFrontend, parseCloseMsg, FrontType.plain]
    cases targetName body with
    | none => rfl
    | some m => rfl
  | _ => rfl

theorem handleBackend_plain (c : Ctx) (base : ℕ) (body : Bytes) {t : BackType} (ht : t.byte ∉ stateful .client) :
    handleBackend c base body t = (t.plain base body).elim c fun ev => c.enqueueEvent ev body := by
  cases t with
  | notification =>
    simp only [handleBackend, parseNotificationResponse, BackType.plain]
    cases notificationOf body with
    | none => rfl
    | some m => rfl
  | errorResponse => rfl
  | parseComplete => rfl
  | bindComplete => rfl
  | closeComplete => rfl
  | noData => rfl
  | portalSuspended => rfl
  | parameterStatus => rfl
  | noticeResponse => rfl
  | backendKeyData => rfl
  | _ => exact absurd (by decide) ht

theorem Handling.plain {c c' : Ctx} {type : UInt8} {base : ℕ} {body : Bytes} (hs : type ∉ stateful c.role)
    (h : c' = (plainEvent c.role type base body).elim c fun ev => c.enqueueEvent ev body) :
    Handling c type base body c' := by
  subst h
  cases hp : plainEvent c.role type base body with
  | none => exact .ignored hs hp
  | some ev => exact .event hs hp

/-- **What handling a message can do.** -/
theorem handleMessage_handling (c : Ctx) (type : UInt8) (base : ℕ) (body : Bytes) :
    Handling c type base body (handleMessage c type base body) := by
  unfold handleMessage
  split
  · rename_i hr
    split
    · rename_i hf
      -- a type that the server does not know
      refine .plain ?_ ?_
      · rw [hr]
        intro hm
        obtain ⟨-, rfl⟩ | ⟨hc, -⟩ := stateful_cases hm
        · rw [front_find] at hf
          cases hf
        · cases hc
      · rw [hr, plainEvent, hf]
        rfl
    · rename_i t hf
      have ht := front_find_some hf
      subst ht
      by_cases hq : t = .query
      · subst hq
        exact .query hr rfl
      refine .plain ?_ ?_
      · rw [hr]
        revert hq
        cases t <;> decide
      · rw [handleFrontend_plain c base body hq, hr, plainEvent, hf]
        rfl
  · rename_i hr
    split
    · rename_i hf
      -- a type that the client does not know
      refine .plain ?_ ?_
      · rw [hr]
        intro hm
        obtain ⟨hc, -⟩ | ⟨-, t, rfl⟩ := stateful_cases hm
        · cases hc
        · rw [back_find] at hf
          cases hf
      · rw [hr, plainEvent, hf]
        rfl
    · rename_i t hf
      have ht := back_find_some hf
      subst ht
      by_cases hs : t.byte ∈ stateful .client
      · cases t with
        | authentication =>
          by_cases hok : 4 ≤ body.length ∧ rd32Be body 0 = 0
          · rw [handleBackend, if_pos hok]
            exact .authenticated hr rfl hok
          · rw [handleBackend, if_neg hok]
            exact .authentication hr rfl hok
        | readyForQuery => exact .ready hr rfl
        | rowDescription => exact .rowDescription hr rfl
        | dataRow => exact .dataRow hr rfl
        | commandComplete => exact .complete hr rfl
        | _ => exact absurd hs (by decide)
      -- the other types only queue their event
      refine .plain (by rw [hr]; exact hs) ?_
      rw [handleBackend_plain c base body hs, hr, plainEvent, hf]
      rfl

/-- A message that is not stateful. -/
theorem handleMessage_plain {c : Ctx} {type : UInt8} (hs : type ∉ stateful c.role) (base : ℕ) (body : Bytes) :
    handleMessage c type base body = (plainEvent c.role type base body).elim c fun ev => c.enqueueEvent ev body := by
  have h := handleMessage_handling c type base body
  generalize handleMessage c type base body = c' at h ⊢
  cases h with
  | ignored _ hp => rw [hp]; rfl
  | event _ hp => rw [hp]; rfl
  | query hr ht => exact absurd (by rw [hr, ht]; decide) hs
  | authenticated hr ht => exact absurd (by rw [hr, ht]; decide) hs
  | authentication hr ht => exact absurd (by rw [hr, ht]; decide) hs
  | ready hr ht => exact absurd (by rw [hr, ht]; decide) hs
  | rowDescription hr ht => exact absurd (by rw [hr, ht]; decide) hs
  | dataRow hr ht => exact absurd (by rw [hr, ht]; decide) hs
  | complete hr ht => exact absurd (by rw [hr, ht]; decide) hs

end Pqwire

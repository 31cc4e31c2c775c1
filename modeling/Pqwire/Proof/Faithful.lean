import Pqwire.Proof.Bind

/-!
# Which Bind bodies are reported as they are

`parse_bind_msg` clamps every count to `PQWIRE_MAX_BIND_PARAMS` and leaves each of its
loops early when the body ends, without turning the message away.

* `bindOf_none_iff`: `BindRejected` lists the bodies that are turned away.
* `parseBindMsg_faithful_iff`: an event never misreports its body exactly on those, and on
  the complete bodies within the limits.
-/

namespace Pqwire

open ByteMem

/-- The bodies that `parse_bind_msg` turns away: a name without terminator, no room for a
count, or a parameter that is longer than what is left. -/
inductive BindRejected : Bytes → Prop
  | noPortal {body : Bytes} : 0 ∉ body → BindRejected body
  | noStatement (portal : CStr) {rest : Bytes} : 0 ∉ rest → BindRejected (portal.toBytes ++ rest)
  | noFormats (portal stmt : CStr) {rest : Bytes} : rest.length < 2 →
      BindRejected (portal.toBytes ++ stmt.toBytes ++ rest)
  | noParams (portal stmt : CStr) {nf : ℕ} {rest : Bytes} : nf < 2 ^ 16 →
      rest.length < 2 * min nf maxBindParams + 2 →
      BindRejected (portal.toBytes ++ stmt.toBytes ++ wr16Be nf ++ rest)
  | overrun (portal stmt : CStr) {nf np : ℕ} {formats : List Int16} {fs : List Field} {len : Int32} {rest : Bytes} :
      nf < 2 ^ 16 → np < 2 ^ 16 → formats.length = min nf maxBindParams → fs.length < min np maxBindParams →
      rest.length < len.toInt.toNat →
      BindRejected (bindHead portal stmt nf np formats ++ fs.flatMap Field.enc ++ wr32Be len.toUInt32.toNat ++ rest)

theorem bindOf_rejected {body : Bytes} (h : BindRejected body) (base : ℕ) : bindOf base body = none := by
  cases h with
  | noPortal h =>
    unfold bindOf
    rw [readCstr_none.2 h]; rfl
  | @noStatement portal rest h =>
    have h2 : readCstr ((portal.toBytes ++ rest).drop (portal.length + 1)) = none := by
      rw [← CStr.toBytes_length, List.drop_left]; exact readCstr_none.2 h
    unfold bindOf
    rw [readCstr_toBytes]
    simp only [Option.bind_eq_bind, Option.bind_some, h2]
    rfl
  | noFormats portal stmt h => exact bindOf_noFormats portal stmt h
  | noParams portal stmt hnf h => exact bindOf_noParams portal stmt hnf h
  | @overrun portal stmt nf np formats fs len rest hnf hnp hf hfs h =>
    -- the loop reads the values `fs`, then meets the overlong one
    obtain ⟨k, hk⟩ : ∃ k, min np maxBindParams = fs.length + (k + 1) := ⟨min np maxBindParams - fs.length - 1, by omega⟩
    set head := bindHead portal stmt nf np formats
    have hps := readParams_enc base (formatFor (min nf maxBindParams) formats) (wr32Be len.toUInt32.toNat ++ rest)
      (k + 1) fs head 0
    have hover := readParams_overrun base (formatFor (min nf maxBindParams) formats) (head ++ fs.flatMap Field.enc)
      rest k (0 + fs.length) h
    rw [← List.append_assoc] at hps
    rw [List.length_append] at hover
    rw [hover, Option.map_none, ← hk] at hps
    have hhead := bindOf_head portal stmt base hnf hnp hf (fs.flatMap Field.enc ++ wr32Be len.toUInt32.toNat ++ rest)
    simp only [← List.append_assoc] at hhead
    rw [hhead, hps, Option.map_none]

/-- A body that is not turned away for its names and counts has a head. -/
theorem bindHead_or_rejected (body : Bytes) :
    BindRejected body ∨ ∃ (portal stmt : CStr) (nf np : ℕ) (formats : List Int16) (rest : Bytes),
      nf < 2 ^ 16 ∧ np < 2 ^ 16 ∧ formats.length = min nf maxBindParams ∧
      body = bindHead portal stmt nf np formats ++ rest := by
  cases h1 : readCstr body with
  | none => exact Or.inl (.noPortal (readCstr_none.1 h1))
  | some r =>
    obtain ⟨portal, c₁⟩ := r
    obtain ⟨-, hb₁⟩ := readCstr_some h1
    cases h2 : readCstr (body.drop c₁) with
    | none => rw [hb₁]; exact Or.inl (.noStatement portal (readCstr_none.1 h2))
    | some r =>
      obtain ⟨stmt, c₂⟩ := r
      obtain ⟨-, hb₂⟩ := readCstr_some h2
      set rest := (body.drop c₁).drop c₂
      rw [hb₂, ← List.append_assoc] at hb₁
      rw [hb₁]
      by_cases hl : rest.length < 2
      · exact Or.inl (.noFormats portal stmt hl)
      have hw := wr16Be_rd16Be (p := rest) (by omega)
      set nf := rd16Be rest 0
      set rest' := rest.drop 2
      have hnf : nf < 2 ^ 16 := rd16Be_lt _ _
      rw [← hw, ← List.append_assoc]
      by_cases hl' : rest'.length < 2 * min nf maxBindParams + 2
      · exact Or.inl (.noParams portal stmt hnf hl')
      refine Or.inr ⟨portal, stmt, nf, rd16Be rest' (2 * min nf maxBindParams),
        readCodes rest' (min nf maxBindParams) 0, rest'.drop (2 * min nf maxBindParams + 2), hnf, rd16Be_lt _ _, ?_, ?_⟩
      · rw [readCodes_length]; omega
      · have hlen : (readCodes rest' (min nf maxBindParams) 0).length = min nf maxBindParams := by
          rw [readCodes_length]; omega
        have hwire := readCodes_wire rest' (min nf maxBindParams) 0 (by rw [hlen]; omega)
        rw [hlen, slice, List.drop_zero] at hwire
        have hnp := wr16Be_rd16Be (p := rest'.drop (2 * min nf maxBindParams)) (by rw [List.length_drop]; omega)
        rw [rd16Be_drop, Nat.add_zero, List.drop_drop] at hnp
        rw [bindHead, ← hwire]
        simp only [List.append_assoc]
        rw [hnp, List.take_append_drop]

/-- **The bodies that are turned away.** -/
theorem bindOf_none_iff (base : ℕ) (body : Bytes) : bindOf base body = none ↔ BindRejected body := by
  refine ⟨fun h => ?_, fun h => bindOf_rejected h base⟩
  rcases bindHead_or_rejected body with hr | ⟨portal, stmt, nf, np, formats, rest, hnf, hnp, hf, rfl⟩
  · exact hr
  rw [bindOf_head portal stmt _ hnf hnp hf, Option.map_eq_none_iff] at h
  obtain ⟨fs, len, rest', h1, h2, h3⟩ := readParams_none h
  rw [List.drop_left] at h3
  rw [h3, ← List.append_assoc, ← List.append_assoc]
  exact .overrun portal stmt hnf hnp hf h1 h2

/-! ## Faithful events -/

/-- An event that `parse_bind_msg` enqueues for `body` reports a complete body, and reports
it exactly. -/
def BindFaithful (c : Ctx) (base : ℕ) (body : Bytes) : Prop :=
  ∀ q, (parseBindMsg c base body).log = c.log ++ [q] →
    ∃ b x, q.ev = .bind b ∧ body = BindBody.enc x ∧ Reports c.inputBuf b x

theorem parseBindMsg_log {c : Ctx} {base : ℕ} {body : Bytes} {b : BindMsg} (h : bindOf base body = some b) :
    (parseBindMsg c base body).log = c.log ++ [⟨.bind b, body, c.read (.bind b)⟩] := by
  unfold parseBindMsg
  rw [h]; rfl

/-- No count of an event is over the limit. -/
theorem bindOf_limits {base : ℕ} {body : Bytes} {b : BindMsg} (h : bindOf base body = some b) :
    b.nFormats ≤ maxBindParams ∧ b.nParams ≤ maxBindParams ∧ b.nResultFormats ≤ maxBindParams := by
  rcases bindHead_or_rejected body with hr | ⟨portal, stmt, nf, np, formats, rest, hnf, hnp, hf, rfl⟩
  · rw [bindOf_rejected hr] at h; cases h
  rw [bindOf_head portal stmt _ hnf hnp hf] at h
  obtain ⟨r, -, rfl⟩ := Option.map_eq_some_iff.1 h
  refine ⟨Nat.min_le_right _ _, Nat.min_le_right _ _, ?_⟩
  simp only [bindEnd]
  split
  · exact Nat.min_le_right _ _
  · exact Nat.zero_le _

/-- **A Bind is reported as it is exactly when it is turned away or complete within the
limits.** `body` lies at offset `base` of the input buffer. -/
theorem parseBindMsg_faithful_iff {c : Ctx} {base : ℕ} {body : Bytes}
    (hm : slice c.inputBuf base body.length = body) :
    BindFaithful c base body ↔ BindRejected body ∨ ∃ x : BindBody, x.InLimits ∧ body = x.enc := by
  constructor
  · intro h
    cases hb : bindOf base body with
    | none => exact Or.inl ((bindOf_none_iff base body).1 hb)
    | some b =>
      obtain ⟨b', x, he, hx, hr⟩ := h _ (parseBindMsg_log hb)
      cases he
      obtain ⟨h1, h2, h3⟩ := bindOf_limits hb
      rw [hr.nFormats] at h1
      rw [hr.nParams] at h2
      rw [hr.nResultFormats] at h3
      exact Or.inr ⟨x, ⟨h1, h2, h3⟩, hx⟩
  · rintro (h | ⟨x, hx, rfl⟩) q hq
    · -- nothing is enqueued
      unfold parseBindMsg at hq
      rw [bindOf_rejected h base] at hq
      have := congrArg List.length hq
      simp at this
    · rw [parseBindMsg_log (bindOf_enc hx base)] at hq
      have hq' := List.append_cancel_left hq
      cases hq'
      exact ⟨x.msg base, x, rfl, rfl, x.msg_reports hm⟩

/-- A server with `frame` in its input buffer. -/
def holding (frame : Bytes) : Ctx :=
  { role := .server, maxMessageSize := 64, events := RingBuf.init 1, startupSeen := true,
    inputBuf := frame, inputLen := frame.length }

/-- One text parameter, `7`. -/
def sevenBind : BindBody := .ofParams [.byte 55] (by decide)

theorem parseBindMsg_faithful_seven :
    slice (holding ([66, 0, 0, 0, 19] ++ sevenBind.enc)).inputBuf 5 sevenBind.enc.length = sevenBind.enc ∧
      BindFaithful (holding ([66, 0, 0, 0, 19] ++ sevenBind.enc)) 5 sevenBind.enc :=
  ⟨by decide, (parseBindMsg_faithful_iff (by decide)).2 (Or.inr ⟨sevenBind, by decide, rfl⟩)⟩

/-- A body that ends behind its parameter count: the event reports one empty parameter,
the body carries none. -/
theorem parseBindMsg_invents : slice (holding [66, 0, 0, 0, 10, 0, 0, 0, 0, 0, 1]).inputBuf 5 6 = [0, 0, 0, 0, 0, 1] ∧
    ¬BindFaithful (holding [66, 0, 0, 0, 10, 0, 0, 0, 0, 0, 1]) 5 [0, 0, 0, 0, 0, 1] := by
  refine ⟨by decide, ?_⟩
  intro h
  obtain ⟨b, x, he, hx, hr⟩ := h _ (parseBindMsg_log (b := ⟨CStr.empty, CStr.empty, 0, [], 1, [], 0, [], 5, 6⟩) (by decide))
  cases he
  have hn := hr.nParams
  have hlen := congrArg List.length hx
  obtain ⟨f, hf⟩ : ∃ f, x.params = [f] := List.length_eq_one_iff.1 hn.symm
  rw [x.enc_length, hf, List.flatMap_singleton, f.enc_length, BindBody.head, bindHead_length] at hlen
  simp only [List.length_cons, List.length_nil] at hlen
  omega

end Pqwire

import Pqwire.Proof.Frames

/-!
# Termination of the framing loop and the input it leaves

A round that continues takes bytes from the input, with one exception: where a frame is
rejected whose length field is `0xFFFFFFFF` and all of it is buffered, `1 + mlen` is zero in
`uint32_t` and `input_len` stays as it is (`Ctx.Wraps`).

* `feedStep_decreases_iff`: a round that continues shrinks the input unless it wraps.
* `feed_terminates`: a call whose rounds do not wrap returns.
* `residual_incomplete`: what a call leaves is an incomplete frame with a length in range.
-/

namespace Pqwire

open ByteMem

/-- The front of the input is a rejected frame whose length field is `0xFFFFFFFF`, and all of
it is buffered. -/
def Ctx.Wraps (c : Ctx) : Prop :=
  c.awaitsStartup = false ∧ c.typedLen = 2 ^ 32 - 1 ∧ c.maxMessageSize < 2 ^ 32 - 1 ∧ 2 ^ 32 ≤ c.inputLen

/-! ## One round -/

theorem rejectFrame_inputLen (c : Ctx) :
    (c.rejectFrame c.typedLen).inputLen =
      if c.typedLen > 0 ∧ c.inputLen ≥ c.typedLen + 1 then c.inputLen - (1 + c.typedLen) % 2 ^ 32 else 0 := by
  unfold Ctx.rejectFrame
  dsimp only
  split
  · rfl
  · rfl

/-- **A round that continues shrinks the input**, unless the length it subtracts wraps. -/
theorem feedStep_decreases_iff {c c' : Ctx} (h : c.feedStep = .again c') : c'.inputLen < c.inputLen ↔ ¬c.Wraps := by
  have hr := feedStep_rounds c
  rw [h] at hr
  cases hr with
  | startup hs h8 _ hl =>
    have hlen : c.afterStartup.inputLen = c.inputLen - c.startupLen := by
      unfold Ctx.afterStartup
      change (parseStartupBody c _).inputLen - _ = _
      rw [(parseStartupBody_handled c _).inputLen]
    refine iff_of_true (by omega) ?_
    rintro ⟨hw, -⟩
    rw [hs] at hw
    cases hw
  | message hs h4 hm hl =>
    have hlen : c.afterMessage.inputLen = c.inputLen - (1 + c.typedLen) := by
      unfold Ctx.afterMessage
      change (handleMessage c _ _ _).inputLen - _ = _
      rw [(handleMessage_handled c _ _ _).inputLen]
    refine iff_of_true (by omega) ?_
    rintro ⟨-, hw, hmax, -⟩
    omega
  | reject hs h5 hbad =>
    have hlt : c.typedLen < 2 ^ 32 := rd32Be_lt _ _
    rw [rejectFrame_inputLen]
    split
    · rename_i hskip
      by_cases hw : c.typedLen = 2 ^ 32 - 1
      · -- the sum is zero: nothing is subtracted
        have h0 : (1 + c.typedLen) % 2 ^ 32 = 0 := by rw [hw]; decide
        refine iff_of_false (by omega) (not_not.2 ⟨hs, hw, ?_, by omega⟩)
        rcases hbad with hbad | hbad
        · omega
        · omega
      · have h1 : (1 + c.typedLen) % 2 ^ 32 = 1 + c.typedLen := Nat.mod_eq_of_lt (by omega)
        refine iff_of_true (by omega) ?_
        rintro ⟨-, hw', -⟩
        exact hw hw'
    · rename_i hdrop
      refine iff_of_true (by omega) ?_
      rintro ⟨-, hw, -, hlen⟩
      apply hdrop
      omega

/-- A round that wraps continues. -/
theorem wraps_again {c : Ctx} (h : c.Wraps) : c.feedStep = .again (c.rejectFrame c.typedLen) := by
  obtain ⟨hs, hw, hmax, hlen⟩ := h
  exact feedStep_eq (.reject hs (by omega) (Or.inr (by omega)))

/-! ## Calls -/

/-- **A loop whose rounds do not wrap ends**: by induction on the input left. -/
theorem loops_of_not_wraps {c : Ctx} (h : ∀ d, c.Reaches d → ¬d.Wraps) : ∃ c', Loops c c' := by
  induction hn : c.inputLen using Nat.strong_induction_on generalizing c with
  | _ n ih =>
    cases hs : c.feedStep with
    | stop c' => exact ⟨c', .stop hs⟩
    | again c₁ =>
      have hlt := (feedStep_decreases_iff hs).2 (h c .refl)
      obtain ⟨c', hl⟩ := ih c₁.inputLen (by omega) (fun d hd => h d (.head hs hd)) rfl
      exact ⟨c', .again hs hl⟩

/-- What a round keeps and never increases. -/
theorem feedStep_bounds {c c' : Ctx} (h : c.feedStep = .again c') :
    c'.inputLen ≤ c.inputLen ∧ c'.maxMessageSize = c.maxMessageSize := by
  have hr := feedStep_rounds c
  rw [h] at hr
  cases hr with
  | startup =>
    unfold Ctx.afterStartup
    have hh := parseStartupBody_handled c (slice c.inputBuf 4 (c.startupLen - 4))
    exact ⟨(Nat.sub_le _ _).trans (le_of_eq hh.inputLen), hh.max⟩
  | message =>
    unfold Ctx.afterMessage
    have hh := handleMessage_handled c (c.inputBuf.getD 0 0) 5 (slice c.inputBuf 5 (c.typedLen - 4))
    exact ⟨(Nat.sub_le _ _).trans (le_of_eq hh.inputLen), hh.max⟩
  | reject =>
    refine ⟨?_, ?_⟩
    · rw [rejectFrame_inputLen]
      split
      · exact Nat.sub_le _ _
      · exact Nat.zero_le _
    · unfold Ctx.rejectFrame
      dsimp only
      split
      · rfl
      · rfl

theorem reaches_bounds {c d : Ctx} (h : c.Reaches d) : d.inputLen ≤ c.inputLen ∧ d.maxMessageSize = c.maxMessageSize := by
  induction h with
  | refl => exact ⟨le_rfl, rfl⟩
  | tail _ hs ih =>
    obtain ⟨h1, h2⟩ := feedStep_bounds hs
    exact ⟨h1.trans ih.1, h2.trans ih.2⟩

/-- No round wraps while less than 4 GiB are buffered, or where such a length is in range. -/
theorem not_wraps {c : Ctx} (h : c.inputLen < 2 ^ 32 ∨ 2 ^ 32 - 1 ≤ c.maxMessageSize) :
    ∀ d, c.Reaches d → ¬d.Wraps := by
  rintro d hd ⟨-, -, hmax, hlen⟩
  obtain ⟨h1, h2⟩ := reaches_bounds hd
  omega

/-- **When the framing loop ends.** A call that accepts its bytes enters the loop in `c₁`. Every
round that continues shrinks the input, and the call returns, exactly when no round that the
loop reaches wraps; and none does while less than 4 GiB are buffered or where
`max_message_size` is at least `0xFFFFFFFF`. -/
theorem feed_terminates_iff {c c₁ : Ctx} {data : Bytes} (ha : c.acceptInput data = some c₁) :
    (((∀ d d', c₁.Reaches d → d.feedStep = .again d' → d'.inputLen < d.inputLen) ∧ ∃ c', Feeds c data c') ↔
        ∀ d, c₁.Reaches d → ¬d.Wraps) ∧
      (c.inputLen + data.length < 2 ^ 32 ∨ 2 ^ 32 - 1 ≤ c.maxMessageSize → ∀ d, c₁.Reaches d → ¬d.Wraps) := by
  refine ⟨⟨?_, fun h => ⟨?_, ?_⟩⟩, ?_⟩
  · rintro ⟨hdec, -⟩ d hd hw
    exact (feedStep_decreases_iff (wraps_again hw)).1 (hdec d _ hd (wraps_again hw)) hw
  · intro d d' hd hs
    exact (feedStep_decreases_iff hs).2 (h d hd)
  · obtain ⟨c', hl⟩ := loops_of_not_wraps h
    exact ⟨c', c₁, ha, hl⟩
  · intro h
    obtain ⟨cap, allocs, rfl⟩ := acceptInput_some ha
    exact not_wraps h

theorem feed_terminates_ready :
    ∃ c₁, tinyClient.acceptInput [90, 0, 0, 0, 5, 73] = some c₁ ∧
      (∀ d d', c₁.Reaches d → d.feedStep = .again d' → d'.inputLen < d.inputLen) ∧
      ∃ c', Feeds tinyClient [90, 0, 0, 0, 5, 73] c' := by
  obtain ⟨hiff, hbelow⟩ := @feed_terminates_iff tinyClient _ [90, 0, 0, 0, 5, 73] rfl
  exact ⟨_, rfl, hiff.2 (hbelow (Or.inl (by decide)))⟩

/-- A frame header with the length `0xFFFFFFFF` in front of enough bytes for it. -/
def endless : Bytes := [0] ++ wr32Be (2 ^ 32 - 1) ++ List.replicate (2 ^ 32 - 5) 0

/-- A context whose input is exactly as long as the rejected frame stays as it is. -/
theorem loops_endless {c c' : Ctx} (hl : Loops c c') : ¬(c.Wraps ∧ c.inputLen = 2 ^ 32) := by
  refine Loops.rec' (P := fun c => ¬(c.Wraps ∧ c.inputLen = 2 ^ 32)) ?_ ?_ hl
  · rintro c hs ⟨hw, -⟩
    rw [wraps_again hw] at hs
    cases hs
  · rintro c c₁ hs - ih ⟨hw, hlen⟩
    rw [wraps_again hw] at hs
    obtain ⟨ha, ht, hmax, -⟩ := hw
    cases hs
    apply ih
    -- the sum is zero and no byte is moved
    have hsame : (c.rejectFrame c.typedLen).inputBuf = c.inputBuf ∧ (c.rejectFrame c.typedLen).inputLen = 2 ^ 32 := by
      unfold Ctx.rejectFrame
      dsimp only
      rw [if_pos ⟨by omega, by omega⟩, ht, hlen]
      exact ⟨rfl, rfl⟩
    have hctx : (c.rejectFrame c.typedLen).awaitsStartup = c.awaitsStartup ∧
        (c.rejectFrame c.typedLen).maxMessageSize = c.maxMessageSize := by
      unfold Ctx.rejectFrame
      dsimp only
      split
      · exact ⟨rfl, rfl⟩
      · exact ⟨rfl, rfl⟩
    refine ⟨⟨hctx.1.trans ha, ?_, by rw [hctx.2]; exact hmax, le_of_eq hsame.2.symm⟩, hsame.2⟩
    change rd32Be (c.rejectFrame c.typedLen).inputBuf 1 = _
    rw [hsame.1]
    exact ht

/-- **The loop can run forever**: a client fed 4 GiB behind such a header never returns. -/
theorem feed_endless :
    Reachable tinyClient ∧ (∃ c₁, tinyClient.acceptInput endless = some c₁) ∧ ¬∃ c', Feeds tinyClient endless c' := by
  obtain ⟨hok, -⟩ := reachable_ok tinyClient_reachable
  have hlen : endless.length = 2 ^ 32 := by
    simp only [endless, List.length_append, wr32Be_length, List.length_replicate, List.length_singleton]
    omega
  have hrd : rd32Be endless 1 = 2 ^ 32 - 1 := by
    have := rd32Be_at [0] (2 ^ 32 - 1) (List.replicate (2 ^ 32 - 5) 0)
    rwa [Nat.mod_eq_of_lt (by decide)] at this
  obtain ⟨c₁, hacc, hok₁, -, hres⟩ := acceptInput_core hok rfl endless
  refine ⟨tinyClient_reachable, ⟨c₁, hacc⟩, ?_⟩
  rintro ⟨c', c₂, hacc', hl⟩
  obtain rfl := Option.some_inj.1 (hacc.symm.trans hacc')
  obtain ⟨haw, -, hmax, -⟩ := acceptInput_same hacc
  have hin : c₁.inputLen = 2 ^ 32 := by
    rw [← resid_length hok₁, hres, List.length_append, hlen]
    rfl
  have ht : c₁.typedLen = 2 ^ 32 - 1 := by
    have h1 : rd32Be c₁.resid 1 = c₁.typedLen := rd32Be_take (p := c₁.inputBuf) (by omega)
    rw [← h1, hres]
    exact hrd
  exact loops_endless hl ⟨⟨haw, ht, by rw [hmax]; decide, le_of_eq hin.symm⟩, hin⟩

/-! ## What is left -/

/-- The input left over is an incomplete frame with a length in range: too short for its header,
or shorter than the length it announces. -/
def Ctx.Incomplete (c : Ctx) : Prop :=
  if c.awaitsStartup then
    c.resid.length < 4 ∨ (8 ≤ rd32Be c.resid 0 ∧ rd32Be c.resid 0 ≤ c.maxMessageSize ∧ c.resid.length < rd32Be c.resid 0)
  else
    c.resid.length < 5 ∨
      (4 ≤ rd32Be c.resid 1 ∧ rd32Be c.resid 1 ≤ c.maxMessageSize ∧ c.resid.length < rd32Be c.resid 1 + 1)

theorem incomplete_of_waits {c : Ctx} (h : c.Ok) (hw : c.Waits) : c.Incomplete := by
  have hlen := resid_length h
  unfold Ctx.Waits at hw
  unfold Ctx.Incomplete
  rw [hlen]
  split at hw
  · rename_i hs
    rw [if_pos hs]
    rcases Nat.lt_or_ge c.inputLen 4 with h4 | h4
    · exact Or.inl h4
    · have hrd : rd32Be c.resid 0 = c.startupLen := rd32Be_take (p := c.inputBuf) (by omega)
      rw [hrd]
      exact hw
  · rename_i hs
    rw [if_neg hs]
    rcases Nat.lt_or_ge c.inputLen 5 with h5 | h5
    · exact Or.inl h5
    · have hrd : rd32Be c.resid 1 = c.typedLen := rd32Be_take (p := c.inputBuf) (by omega)
      rw [hrd, Nat.add_comm]
      exact hw

theorem Ctx.Incomplete.length_le {c : Ctx} (h : c.Incomplete) : c.resid.length ≤ max c.maxMessageSize 4 := by
  unfold Ctx.Incomplete at h
  split at h
  · rcases h with h | ⟨-, h1, h2⟩
    · omega
    · omega
  · rcases h with h | ⟨-, h1, h2⟩
    · omega
    · omega

/-- No complete message is at its front, whatever its length. -/
theorem Ctx.Incomplete.no_frame {c : Ctx} (h : c.Incomplete) :
    (c.awaitsStartup = false → ∀ f : Frame, ¬f.enc <+: c.resid) ∧
      (c.awaitsStartup = true → ∀ s : Startup, ¬s.enc <+: c.resid) := by
  unfold Ctx.Incomplete at h
  constructor
  · rintro hs f ⟨t, ht⟩
    rw [if_neg (by simp [hs])] at h
    have hrd : rd32Be c.resid 1 = f.len := by rw [← ht, f.rd32Be_enc]
    have hlen := congrArg List.length ht
    have h4 : 4 ≤ f.len := Nat.le_add_left _ _
    rw [List.length_append, f.enc_length] at hlen
    rcases h with h | ⟨-, -, h⟩
    · omega
    · omega
  · rintro hs S ⟨t, ht⟩
    rw [if_pos hs] at h
    have hrd : rd32Be c.resid 0 = S.len := by rw [← ht, S.rd32Be_enc]
    have hlen := congrArg List.length ht
    have hel := S.enc_length
    have h4 : 4 ≤ S.len := Nat.le_add_left _ _
    rw [List.length_append, hel] at hlen
    rcases h with h | ⟨-, -, h⟩
    · omega
    · omega

/-- A call returns when the input stays below 4 GiB. -/
theorem feedInput_returns {c : Ctx} {data : Bytes} (hlen : c.inputLen + data.length < 2 ^ 32) :
    ∃ fuel c' n, c.feedInput fuel data = some (c', n) := by
  cases ha : c.acceptInput data with
  | none => exact ⟨0, c.allocated, 0, by unfold Ctx.feedInput; rw [ha]⟩
  | some c₁ =>
    have hin : c₁.inputLen < 2 ^ 32 := by
      obtain ⟨cap, allocs, rfl⟩ := acceptInput_some ha
      exact hlen
    obtain ⟨c', hl⟩ := loops_of_not_wraps (not_wraps (Or.inl hin))
    obtain ⟨fuel, hf⟩ := feeds_feedInput ⟨c₁, ha, hl⟩
    exact ⟨fuel, c', data.length, hf⟩

/-- **Maximal parse and bounded buffering.** In every reachable context, and so after every call,
what is left of the input is an incomplete frame with a length in range: no complete message is
left behind, and at most `max (max_message_size, 4)` bytes are kept. A call below 4 GiB returns. -/
theorem residual_incomplete {c : Ctx} {data : Bytes} (hc : Reachable c) (hlen : c.inputLen + data.length < 2 ^ 32) :
    (∃ fuel c' n, c.feedInput fuel data = some (c', n)) ∧
      ∀ fuel c' n, c.feedInput fuel data = some (c', n) →
        c'.Incomplete ∧ c'.resid.length ≤ max c'.maxMessageSize 4 ∧
          (c'.awaitsStartup = false → ∀ f : Frame, ¬f.enc <+: c'.resid) ∧
          (c'.awaitsStartup = true → ∀ s : Startup, ¬s.enc <+: c'.resid) := by
  refine ⟨feedInput_returns hlen, ?_⟩
  intro fuel c' n hf
  obtain ⟨hok, hw⟩ := reachable_ok (.step hc (.feed hf))
  have hin := incomplete_of_waits hok hw
  exact ⟨hin, hin.length_le, hin.no_frame⟩

theorem residual_incomplete_half :
    (∃ fuel c' n, tinyClient.feedInput fuel [90, 0, 0] = some (c', n)) ∧
      ∀ fuel c' n, tinyClient.feedInput fuel [90, 0, 0] = some (c', n) → c'.resid.length ≤ max c'.maxMessageSize 4 :=
  ⟨(residual_incomplete tinyClient_reachable (by decide)).1, fun fuel c' n h =>
    ((residual_incomplete tinyClient_reachable (by decide)).2 fuel c' n h).2.1⟩

end Pqwire

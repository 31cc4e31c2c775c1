import Pqwire.Proof.Handle

/-!
# The rounds of the framing loop

`Rounds c r` lists what a round of the loop can do on `c`, with the conditions under
which it does it; `feedStep_rounds` says that the list is complete. `Ctx.Waits` is the
one case in which a round changes nothing: the input ends inside a header or inside a
frame whose length is in range.
-/

namespace Pqwire

open ByteMem

/-- The length field of a startup message. -/
def Ctx.startupLen (c : Ctx) : ℕ := rd32Be c.inputBuf 0

/-- The length field of a typed message. -/
def Ctx.typedLen (c : Ctx) : ℕ := rd32Be c.inputBuf 1

/-- The loop can do nothing before more input arrives. -/
def Ctx.Waits (c : Ctx) : Prop :=
  if c.awaitsStartup then
    c.inputLen < 4 ∨ (8 ≤ c.startupLen ∧ c.startupLen ≤ c.maxMessageSize ∧ c.inputLen < c.startupLen)
  else c.inputLen < 5 ∨ (4 ≤ c.typedLen ∧ c.typedLen ≤ c.maxMessageSize ∧ c.inputLen < 1 + c.typedLen)

/-- The context after a startup message at the front of the buffer. -/
def Ctx.afterStartup (c : Ctx) : Ctx :=
  (parseStartupBody c (slice c.inputBuf 4 (c.startupLen - 4))).consume c.startupLen

/-- The context after a typed message at the front of the buffer. -/
def Ctx.afterMessage (c : Ctx) : Ctx :=
  (handleMessage c (c.inputBuf.getD 0 0) 5 (slice c.inputBuf 5 (c.typedLen - 4))).consume (1 + c.typedLen)

/-- What a round of the loop can do. -/
inductive Rounds (c : Ctx) : Round → Prop
  | wait : c.Waits → Rounds c (.stop c)
  | badStartup : c.awaitsStartup = true → 4 ≤ c.inputLen →
      (c.startupLen < 8 ∨ c.maxMessageSize < c.startupLen) →
      Rounds c (.stop { c.enqueueEvent .protocolError [] with inputLen := 0 })
  | startup : c.awaitsStartup = true → 8 ≤ c.startupLen → c.startupLen ≤ c.maxMessageSize →
      c.startupLen ≤ c.inputLen → Rounds c (.again c.afterStartup)
  | reject : c.awaitsStartup = false → 5 ≤ c.inputLen →
      (c.typedLen < 4 ∨ c.maxMessageSize < c.typedLen) → Rounds c (.again (c.rejectFrame c.typedLen))
  | message : c.awaitsStartup = false → 4 ≤ c.typedLen → c.typedLen ≤ c.maxMessageSize →
      1 + c.typedLen ≤ c.inputLen → Rounds c (.again c.afterMessage)

/-- **The list is complete.** -/
theorem feedStep_rounds (c : Ctx) : Rounds c c.feedStep := by
  unfold Ctx.feedStep
  split
  · rename_i ha
    unfold Ctx.startupStep
    dsimp only
    split
    · refine .wait ?_
      unfold Ctx.Waits; rw [if_pos ha]; exact Or.inl ‹_›
    split
    · exact .badStartup ha (by omega) ‹_›
    rename_i hlen hr
    have hr' : 8 ≤ c.startupLen ∧ c.startupLen ≤ c.maxMessageSize := by
      unfold Ctx.startupLen; omega
    split
    · refine .wait ?_
      unfold Ctx.Waits; rw [if_pos ha]; exact Or.inr ⟨hr'.1, hr'.2, ‹_›⟩
    · exact .startup ha hr'.1 hr'.2 (by unfold Ctx.startupLen; omega)
  · rename_i ha
    have ha' : c.awaitsStartup = false := by simpa using ha
    unfold Ctx.typedStep
    dsimp only
    split
    · refine .wait ?_
      unfold Ctx.Waits; rw [if_neg ha]; exact Or.inl ‹_›
    split
    · exact .reject ha' (by omega) ‹_›
    rename_i hlen hr
    have hr' : 4 ≤ c.typedLen ∧ c.typedLen ≤ c.maxMessageSize := by
      unfold Ctx.typedLen; omega
    split
    · refine .wait ?_
      unfold Ctx.Waits; rw [if_neg ha]; exact Or.inr ⟨hr'.1, hr'.2, ‹_›⟩
    · exact .message ha' hr'.1 hr'.2 (by unfold Ctx.typedLen; omega)

/-- A round determined by its case. -/
theorem Rounds.unique {c : Ctx} {r r' : Round} (h : Rounds c r) (h' : Rounds c r') : r = r' := by
  cases h with
  | wait hw =>
    unfold Ctx.Waits at hw
    cases h' with
    | wait _ => rfl
    | badStartup ha _ _ => rw [if_pos ha] at hw; omega
    | startup ha _ _ _ => rw [if_pos ha] at hw; omega
    | reject ha _ _ => rw [if_neg (by simp [ha])] at hw; omega
    | message ha _ _ _ => rw [if_neg (by simp [ha])] at hw; omega
  | badStartup ha _ _ =>
    cases h' with
    | wait hw => unfold Ctx.Waits at hw; rw [if_pos ha] at hw; omega
    | badStartup _ _ _ => rfl
    | startup _ _ _ _ => omega
    | reject hb _ _ => rw [ha] at hb; cases hb
    | message hb _ _ _ => rw [ha] at hb; cases hb
  | startup ha _ _ _ =>
    cases h' with
    | wait hw => unfold Ctx.Waits at hw; rw [if_pos ha] at hw; omega
    | badStartup _ _ _ => omega
    | startup _ _ _ _ => rfl
    | reject hb _ _ => rw [ha] at hb; cases hb
    | message hb _ _ _ => rw [ha] at hb; cases hb
  | reject ha _ _ =>
    cases h' with
    | wait hw => unfold Ctx.Waits at hw; rw [if_neg (by simp [ha])] at hw; omega
    | badStartup hb _ _ => rw [ha] at hb; cases hb
    | startup hb _ _ _ => rw [ha] at hb; cases hb
    | reject _ _ _ => rfl
    | message _ _ _ _ => omega
  | message ha _ _ _ =>
    cases h' with
    | wait hw => unfold Ctx.Waits at hw; rw [if_neg (by simp [ha])] at hw; omega
    | badStartup hb _ _ => rw [ha] at hb; cases hb
    | startup hb _ _ _ => rw [ha] at hb; cases hb
    | reject _ _ _ => omega
    | message _ _ _ _ => rfl

/-- **The round made is the one whose case applies.** -/
theorem feedStep_eq {c : Ctx} {r : Round} (h : Rounds c r) : c.feedStep = r := (feedStep_rounds c).unique h

/-! ## Loops -/

theorem feedLoop_mono {fuel : ℕ} {c c' : Ctx} (h : Ctx.feedLoop fuel c = some c') (k : ℕ) :
    Ctx.feedLoop (fuel + k) c = some c' := by
  induction fuel generalizing c with
  | zero => cases h
  | succ fuel ih =>
    rw [Nat.succ_add]
    simp only [Ctx.feedLoop] at h ⊢
    split
    · rename_i hs; rw [hs] at h; exact h
    · rename_i hs; rw [hs] at h; exact ih h

theorem Loops.unique {c c₁ c₂ : Ctx} (h₁ : Loops c c₁) (h₂ : Loops c c₂) : c₁ = c₂ := by
  obtain ⟨m, h₁⟩ := h₁
  obtain ⟨n, h₂⟩ := h₂
  have e₁ := feedLoop_mono h₁ n
  have e₂ := feedLoop_mono h₂ m
  rw [Nat.add_comm n m, e₁] at e₂
  exact Option.some_inj.1 e₂

theorem Loops.stop {c c' : Ctx} (h : c.feedStep = .stop c') : Loops c c' :=
  ⟨1, by simp only [Ctx.feedLoop, h]⟩

theorem Loops.again {c c₁ c' : Ctx} (h : c.feedStep = .again c₁) (hl : Loops c₁ c') : Loops c c' := by
  obtain ⟨fuel, hf⟩ := hl
  exact ⟨fuel + 1, by simp only [Ctx.feedLoop, h]; exact hf⟩

theorem Loops.wait {c : Ctx} (h : c.Waits) : Loops c c := .stop (feedStep_eq (.wait h))

/-- **Induction over the rounds of a loop that returns.** -/
theorem Loops.rec' {P : Ctx → Prop} {c' : Ctx} (stop : ∀ c, c.feedStep = .stop c' → P c)
    (again : ∀ c c₁, c.feedStep = .again c₁ → Loops c₁ c' → P c₁ → P c) {c : Ctx} (h : Loops c c') : P c := by
  obtain ⟨fuel, h⟩ := h
  induction fuel generalizing c with
  | zero => cases h
  | succ fuel ih =>
    simp only [Ctx.feedLoop] at h
    split at h
    · rename_i hs; cases h; exact stop c hs
    · rename_i hs; exact again c _ hs ⟨fuel, h⟩ (ih h)

/-- **What every round keeps, the loop keeps.** -/
theorem Loops.keeps {P : Ctx → Prop} (round : ∀ c c₁, P c → c.feedStep = .again c₁ ∨ c.feedStep = .stop c₁ → P c₁)
    {c c' : Ctx} (h : Loops c c') (hc : P c) : P c' := by
  refine Loops.rec' (P := fun c => P c → P c') ?_ ?_ h hc
  · intro c hs hc
    exact round c c' hc (Or.inr hs)
  · intro c c₁ hs _ ih hc
    exact ih (round c c₁ hc (Or.inl hs))

theorem Feeds.unique {c c₁ c₂ : Ctx} {data : Bytes} (h₁ : Feeds c data c₁) (h₂ : Feeds c data c₂) : c₁ = c₂ := by
  obtain ⟨d₁, ha₁, hl₁⟩ := h₁
  obtain ⟨d₂, ha₂, hl₂⟩ := h₂
  rw [ha₁] at ha₂
  cases ha₂
  exact hl₁.unique hl₂

theorem FeedsAll.unique {c c₁ c₂ : Ctx} {ds : List Bytes} (h₁ : FeedsAll c ds c₁) (h₂ : FeedsAll c ds c₂) :
    c₁ = c₂ := by
  induction h₁ with
  | nil => cases h₂; rfl
  | cons hf _ ih =>
    cases h₂ with
    | cons hf' hr => rw [hf.unique hf'] at ih; exact ih hr

end Pqwire

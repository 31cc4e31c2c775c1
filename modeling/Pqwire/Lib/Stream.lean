import Mathlib.Tactic

/-!
# Incremental consumers of a stream

A consumer keeps a state and a buffer of input it has not used yet; `step` uses up a
front part of the buffer, or is `none` when it needs more input. It is `Local` when
input that arrives later never changes what a step does, and `Shrinking` when every
step uses up some input.

* `Drains s b s' b'`: stepping from `(s, b)` as long as possible ends in `(s', b')`.
* `drains_append`: a local consumer may be run before or after more input arrives.
* `exists_drains`: a shrinking consumer stops.
* `Always P s b`: `P` holds in every configuration that `(s, b)` steps to; it survives
  both cutting the input and running on a front part of it.
-/

namespace Stream

variable {σ β : Type*}

section

variable (step : σ → List β → Option (σ × List β))

/-- Later input does not change a step. -/
def Local : Prop :=
  ∀ ⦃s b s' b'⦄, step s b = some (s', b') → ∀ t, step s (b ++ t) = some (s', b' ++ t)

/-- A step uses up input. -/
def Shrinking : Prop := ∀ ⦃s b s' b'⦄, step s b = some (s', b') → b'.length < b.length

/-- Some number of steps. -/
inductive Steps : σ → List β → σ → List β → Prop
  | refl (s : σ) (b : List β) : Steps s b s b
  | next {s s₁ s' : σ} {b b₁ b' : List β} :
      step s b = some (s₁, b₁) → Steps s₁ b₁ s' b' → Steps s b s' b'

/-- Stepping as long as possible. -/
inductive Drains : σ → List β → σ → List β → Prop
  | done {s : σ} {b : List β} : step s b = none → Drains s b s b
  | next {s s₁ s' : σ} {b b₁ b' : List β} :
      step s b = some (s₁, b₁) → Drains s₁ b₁ s' b' → Drains s b s' b'

/-- `P` holds now and after any number of steps. -/
def Always (P : σ → List β → Prop) (s : σ) (b : List β) : Prop := ∀ s' b', Steps step s b s' b' → P s' b'

end

variable {step : σ → List β → Option (σ × List β)} {s s₁ s' : σ} {b b₁ b' : List β}

/-- A drained stream has no step left. -/
theorem Drains.stuck (h : Drains step s b s' b') : step s' b' = none := by
  induction h with
  | done h => exact h
  | next _ _ ih => exact ih

theorem Drains.of_stuck (h : step s b = none) (hd : Drains step s b s' b') : s' = s ∧ b' = b := by
  cases hd with
  | done _ => exact ⟨rfl, rfl⟩
  | next h' _ => rw [h] at h'; cases h'

/-- **A local consumer may be run before or after more input arrives.** -/
theorem drains_append (hl : Local step) (h : Drains step s b s₁ b₁) (t : List β) :
    Drains step s (b ++ t) s' b' ↔ Drains step s₁ (b₁ ++ t) s' b' := by
  induction h with
  | done _ => rfl
  | next hs _ ih =>
    rw [← ih]
    constructor
    · intro hd
      cases hd with
      | done h₂ => rw [hl hs t] at h₂; cases h₂
      | next h₂ hd =>
        rw [hl hs t] at h₂
        simp only [Option.some.injEq, Prod.mk.injEq] at h₂
        obtain ⟨rfl, rfl⟩ := h₂
        exact hd
    · exact .next (hl hs t)

/-- **A shrinking consumer stops.** -/
theorem exists_drains (hf : Shrinking step) (s : σ) (b : List β) : ∃ s' b', Drains step s b s' b' := by
  induction hn : b.length using Nat.strongRecOn generalizing s b with
  | _ n ih =>
    cases hs : step s b with
    | none => exact ⟨s, b, .done hs⟩
    | some r =>
      obtain ⟨s₁, b₁⟩ := r
      obtain ⟨s₂, b₂, hd⟩ := ih _ (hn ▸ hf hs) s₁ b₁ rfl
      exact ⟨s₂, b₂, .next hs hd⟩

/-- Steps do not depend on what follows. -/
theorem Steps.append (hl : Local step) (h : Steps step s b s' b') (t : List β) :
    Steps step s (b ++ t) s' (b' ++ t) := by
  induction h with
  | refl s b => exact .refl s _
  | next hs _ ih => exact .next (hl hs t) ih

/-- Runs of steps compose. -/
theorem Steps.trans {s₂ : σ} {b₂ : List β} (h : Steps step s b s₁ b₁) (h' : Steps step s₁ b₁ s₂ b₂) :
    Steps step s b s₂ b₂ := by
  induction h with
  | refl => exact h'
  | next hs _ ih => exact .next hs (ih h')

/-- A drained stream got there by steps. -/
theorem Drains.steps (h : Drains step s b s' b') : Steps step s b s' b' := by
  induction h with
  | done _ => exact .refl _ _
  | next hs _ ih => exact .next hs ih

variable {P : σ → List β → Prop}

theorem Always.here (h : Always step P s b) : P s b := h s b (.refl s b)

theorem Always.next (h : Always step P s b) (hs : step s b = some (s₁, b₁)) : Always step P s₁ b₁ :=
  fun s' b' hst => h s' b' (.next hs hst)

/-- Cutting the input keeps a property that holds of front parts. -/
theorem Always.of_append (hl : Local step) (hP : ∀ s b t, P s (b ++ t) → P s b) {t : List β}
    (h : Always step P s (b ++ t)) : Always step P s b :=
  fun s' b' hst => hP s' b' t (h s' (b' ++ t) (hst.append hl t))

/-- So does running on a front part of the input. -/
theorem Always.drains (hl : Local step) {t : List β} (h : Always step P s (b ++ t))
    (hd : Drains step s b s₁ b₁) : Always step P s₁ (b₁ ++ t) :=
  fun s' b' hst => h s' b' ((hd.steps.append hl t).trans hst)

end Stream

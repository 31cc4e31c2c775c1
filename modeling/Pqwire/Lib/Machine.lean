import Mathlib.Tactic

/-!
# What a machine lets an observer see

A machine takes inputs one after the other, and for each gives an output or never returns
(`none`). `observe` is the list of outputs for a list of inputs.

* `Bisimulation`: a relation of states that every input keeps, with the same output.
* `Bisimulation.observe_eq`: related states cannot be told apart.
* `observe_filter`: where some inputs do nothing to what the others see, they may be left out.
-/

namespace Machine

variable {σ ι ω : Type*} (run : σ → ι → Option (ω × σ))

/-- The outputs for a list of inputs; `none` when one of the inputs does not return. -/
def observe : σ → List ι → Option (List ω)
  | _, [] => some []
  | s, i :: is => (run s i).bind fun r => (observe r.2 is).map (r.1 :: ·)

variable {run}

/-- Every input keeps the relation and has the same output in related states. -/
def Bisimulation (run : σ → ι → Option (ω × σ)) (R : σ → σ → Prop) : Prop :=
  ∀ s t i, R s t →
    (run s i = none ∧ run t i = none) ∨ ∃ o s' t', run s i = some (o, s') ∧ run t i = some (o, t') ∧ R s' t'

/-- **Related states cannot be told apart.** -/
theorem Bisimulation.observe_eq {R : σ → σ → Prop} (h : Bisimulation run R) {s t : σ} (hst : R s t) (is : List ι) :
    observe run s is = observe run t is := by
  induction is generalizing s t with
  | nil => rfl
  | cons i is ih =>
    unfold observe
    rcases h s t i hst with ⟨hs, ht⟩ | ⟨o, s', t', hs, ht, hR⟩
    · rw [hs, ht]
    · rw [hs, ht, Option.bind_some, Option.bind_some, ih hR]

/-- The outputs at the inputs that `p` selects. -/
def outputsAt (p : ι → Bool) (is : List ι) (os : List ω) : List ω := ((is.zip os).filter fun io => p io.1).map Prod.snd

/-- **Inputs that may be left out.** `R` relates the state of a run to the state of the run with the
selected inputs only: a selected input keeps it, with the same output, and any other input keeps it
although the second run does not see it. -/
theorem observe_filter {R : σ → σ → Prop} {p : ι → Bool}
    (hsame : ∀ s t i, R s t → p i = true → ∀ o s', run s i = some (o, s') → ∃ t', run t i = some (o, t') ∧ R s' t')
    (hskip : ∀ s t i, R s t → p i = false → ∀ o s', run s i = some (o, s') → R s' t) {s t : σ} (hst : R s t) {is : List ι}
    {os : List ω} (h : observe run s is = some os) : observe run t (is.filter p) = some (outputsAt p is os) := by
  induction is generalizing s t os with
  | nil =>
    cases h
    rfl
  | cons i is ih =>
    unfold observe at h
    obtain ⟨⟨o, s'⟩, hrun, hrest⟩ := Option.bind_eq_some_iff.1 h
    obtain ⟨os', hos', rfl⟩ := Option.map_eq_some_iff.1 hrest
    by_cases hp : p i = true
    · obtain ⟨t', ht', hR⟩ := hsame s t i hst hp o s' hrun
      have hout : outputsAt p (i :: is) (o :: os') = o :: outputsAt p is os' := by
        unfold outputsAt
        rw [List.zip_cons_cons, List.filter_cons, if_pos hp]
        rfl
      rw [List.filter_cons_of_pos hp, hout]
      unfold observe
      rw [ht', Option.bind_some, ih hR hos']
      rfl
    · have hout : outputsAt p (i :: is) (o :: os') = outputsAt p is os' := by
        unfold outputsAt
        rw [List.zip_cons_cons, List.filter_cons, if_neg hp]
      rw [List.filter_cons_of_neg hp, hout]
      exact ih (hskip s t i hst (Bool.eq_false_of_not_eq_true hp) o s' hrun) hos'

end Machine

import Mathlib.Tactic

/-!
# The last write wins

A cell that some of the entries of a list write: after all of them it holds the last value
written, or what it held before.

* `foldl_lastOf`: the cell of a state that is stepped along a list.
* `lastOf_append`: a later part of the list counts before an earlier one.
-/

namespace LastWrite

variable {ι α σ : Type*}

/-- The last value that `w` writes along a list. -/
def lastOf (w : ι → Option α) : List ι → Option α
  | [] => none
  | x :: xs => (lastOf w xs).or (w x)

/-- The last write of two lists is that of the second, if it has one. -/
theorem lastOf_append (w : ι → Option α) (xs ys : List ι) :
    lastOf w (xs ++ ys) = (lastOf w ys).or (lastOf w xs) := by
  induction xs with
  | nil => rw [List.nil_append, lastOf, Option.or_none]
  | cons x xs ih => rw [List.cons_append, lastOf, ih, lastOf, Option.or_assoc]

/-- Nothing is written exactly when no step writes. -/
theorem lastOf_eq_none {w : ι → Option α} {xs : List ι} : lastOf w xs = none ↔ ∀ x ∈ xs, w x = none := by
  induction xs with
  | nil => simp [lastOf]
  | cons x xs ih => rw [lastOf, Option.or_eq_none_iff, ih, List.forall_mem_cons, and_comm]

theorem lastOf_map {β : Type*} (f : α → β) (w : ι → Option α) (xs : List ι) :
    lastOf (fun x => (w x).map f) xs = (lastOf w xs).map f := by
  induction xs with
  | nil => rfl
  | cons x xs ih =>
    rw [lastOf, ih, lastOf]
    cases lastOf w xs with
    | none => rfl
    | some v => rfl

/-- **A cell after a list of steps**: `I` is an invariant of the state that the steps keep
and under which a step writes the cell as `w` says. -/
theorem foldl_lastOf {step : σ → ι → σ} (cell : σ → α) {w : ι → Option α} (I : σ → Prop)
    (hI : ∀ s x, I s → I (step s x)) (hw : ∀ s x, I s → cell (step s x) = (w x).getD (cell s))
    (xs : List ι) {s : σ} (h : I s) : cell (xs.foldl step s) = (lastOf w xs).getD (cell s) := by
  induction xs generalizing s with
  | nil => rfl
  | cons x xs ih => rw [List.foldl_cons, ih (hI s x h), hw s x h, lastOf, Option.getD_or]

/-- What was written first is still there exactly when the last write repeats it. -/
theorem getD_eq_iff {o : Option α} {v : α} : o.getD v = v ↔ ∀ u, o = some u → u = v := by
  cases o with
  | none => simp
  | some u => simp

end LastWrite

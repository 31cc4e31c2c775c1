import Mathlib.Data.List.DropRight
import Mathlib.Tactic

/-!
# A queue that gives up its oldest entry

The queue that a ring of `n` slots is to be: enqueuing appends, and on a full queue gives up the
oldest entry; dequeuing delivers the oldest.

* `deliver_simulates`: machines that take related steps deliver the same.
* `run_enqueues`: entries without a dequeue between them leave the last `n`.
* `run_dequeues`: dequeuing delivers what is held, in order.
* `rtake_filter_suffix`: leaving entries out loses none of the others.
-/

namespace DropOldest

variable {σ τ ι κ α : Type*}

/-- Take the steps of a machine one after the other, and collect what it delivers. -/
def deliver (step : σ → ι → σ × Option α) : σ → List ι → σ × List α
  | s, [] => (s, [])
  | s, i :: is =>
    let r := deliver step (step s i).1 is
    (r.1, (step s i).2.toList ++ r.2)

/-- A run in two parts. -/
theorem deliver_append (step : σ → ι → σ × Option α) (s : σ) (is js : List ι) :
    deliver step s (is ++ js) = ((deliver step (deliver step s is).1 js).1,
      (deliver step s is).2 ++ (deliver step (deliver step s is).1 js).2) := by
  induction is generalizing s with
  | nil => rfl
  | cons i is ih =>
    rw [List.cons_append, deliver, deliver, ih]
    simp only [List.append_assoc]

/-- **Machines that take related steps**, delivering the same, end in related states and have
delivered the same. -/
theorem deliver_simulates {R : σ → τ → Prop} {stepS : σ → ι → σ × Option α} {stepT : τ → κ → τ × Option α} (op : ι → κ)
    (h : ∀ s t i, R s t → R (stepS s i).1 (stepT t (op i)).1 ∧ (stepS s i).2 = (stepT t (op i)).2)
    {s : σ} {t : τ} (hst : R s t) (is : List ι) :
    R (deliver stepS s is).1 (deliver stepT t (is.map op)).1 ∧
      (deliver stepS s is).2 = (deliver stepT t (is.map op)).2 := by
  induction is generalizing s t with
  | nil => exact ⟨hst, rfl⟩
  | cons i is ih =>
    obtain ⟨hR, hout⟩ := h s t i hst
    obtain ⟨hend, hrest⟩ := ih hR
    refine ⟨hend, ?_⟩
    show _ ++ _ = _ ++ _
    rw [hout, hrest]

/-! ## The queue -/

inductive Op (α : Type*) where
  | enqueue (x : α)
  | dequeue
  | reset

/-- One operation on a queue of at most `n` entries, oldest first. -/
def step (n : ℕ) (l : List α) : Op α → List α × Option α
  | .enqueue x => (if l.length < n then l ++ [x] else l.tail ++ [x], none)
  | .dequeue => (l.tail, l.head?)
  | .reset => ([], none)

def run (n : ℕ) : List α → List (Op α) → List α × List α := deliver (step n)

variable {n : ℕ} {l : List α}

theorem step_length (hn : 0 < n) (h : l.length ≤ n) (op : Op α) : (step n l op).1.length ≤ n := by
  cases op with
  | enqueue x =>
    show (if l.length < n then l ++ [x] else l.tail ++ [x]).length ≤ n
    split
    · rw [List.length_append, List.length_singleton]
      omega
    · rw [List.length_append, List.length_singleton, List.length_tail]
      omega
  | dequeue =>
    show l.tail.length ≤ n
    rw [List.length_tail]
    omega
  | reset => exact Nat.zero_le n

/-- An entry more, then the oldest one given up if there are too many. -/
theorem step_enqueue (h : l.length ≤ n) (hn : 0 < n) (x : α) : (step n l (.enqueue x)).1 = (l ++ [x]).rtake n := by
  show (if l.length < n then l ++ [x] else l.tail ++ [x]) = _
  rw [List.rtake, List.length_append, List.length_singleton]
  split
  · rw [Nat.sub_eq_zero_of_le (by omega), List.drop_zero]
  · have hone : l.length + 1 - n = 1 := by omega
    rw [hone, List.drop_append_of_le_length (by omega), List.drop_one]

theorem rtake_append_rtake (a b : List α) : (a.rtake n ++ b).rtake n = (a ++ b).rtake n := by
  have hfront : a.rtake n ++ b = (a ++ b).drop (a.length - n) := by
    rw [List.rtake, List.drop_append_of_le_length (Nat.sub_le _ _)]
  rw [hfront, List.rtake, List.rtake, List.length_drop, List.drop_drop, List.length_append]
  congr 1
  omega

/-- A short suffix is among the last `n` entries. -/
theorem suffix_rtake {s a : List α} (h : s <:+ a) (hs : s.length ≤ n) : s <:+ a.rtake n := by
  refine List.suffix_of_suffix_length_le h (List.drop_suffix _ _) ?_
  have := h.length_le
  rw [List.rtake, List.length_drop]
  omega

/-- **What is not enqueued pushes nothing out**: of the entries that pass, the queue that gets only
these holds at least those that the queue of all entries holds. -/
theorem rtake_filter_suffix (p : α → Bool) (a b : List α) :
    ((a ++ b).rtake n).filter p <:+ ((a ++ b.filter p).rtake n).filter p := by
  set k := (a ++ b).length - n with hk
  have hsplit : (a ++ b).rtake n = a.drop k ++ b.drop (k - a.length) := by
    rw [List.rtake, ← hk, List.drop_append]
  have hlen : (a.drop k ++ b.drop (k - a.length)).length ≤ n := by
    rw [← hsplit, List.rtake, List.length_drop]
    omega
  have hsuf : a.drop k ++ (b.drop (k - a.length)).filter p <:+ a ++ b.filter p := by
    rcases Nat.le_total k a.length with hle | hle
    · -- the suffix begins in `a`
      rw [Nat.sub_eq_zero_of_le hle, List.drop_zero, ← List.drop_append_of_le_length hle]
      exact List.drop_suffix _ _
    · rw [List.drop_eq_nil_of_le hle, List.nil_append]
      exact ((List.drop_suffix _ _).filter p).trans (List.suffix_append _ _)
  have hshort : (a.drop k ++ (b.drop (k - a.length)).filter p).length ≤ n := by
    have := List.length_filter_le p (b.drop (k - a.length))
    rw [List.length_append] at hlen ⊢
    omega
  have hkept := (suffix_rtake hsuf hshort).filter p
  rw [List.filter_append, List.filter_filter] at hkept
  simp only [Bool.and_self] at hkept
  rw [hsplit, List.filter_append]
  exact hkept

/-- **Enqueuing without a dequeue leaves the last `n` entries.** -/
theorem run_enqueues (hn : 0 < n) (h : l.length ≤ n) (xs : List α) :
    run n l (xs.map .enqueue) = ((l ++ xs).rtake n, []) := by
  induction xs generalizing l with
  | nil =>
    show (l, []) = _
    rw [List.append_nil, List.rtake, Nat.sub_eq_zero_of_le h, List.drop_zero]
  | cons x xs ih =>
    have hstep := step_enqueue h hn x
    have hrest := ih (step_length hn h (.enqueue x))
    rw [hstep] at hrest
    show ((run n (step n l (.enqueue x)).1 (xs.map .enqueue)).1, _ ++ (run n (step n l (.enqueue x)).1 (xs.map .enqueue)).2) = _
    rw [hstep, hrest]
    -- what the first step gave up would not be among the last `n` either
    rw [rtake_append_rtake, List.append_assoc, List.singleton_append]
    rfl

/-- **Dequeuing delivers what is held**, oldest first. -/
theorem run_dequeues (l : List α) (m : ℕ) : run n l (List.replicate m .dequeue) = (l.drop m, l.take m) := by
  induction m generalizing l with
  | zero => rfl
  | succ m ih =>
    rw [List.replicate_succ]
    show ((run n l.tail (List.replicate m .dequeue)).1, l.head?.toList ++ (run n l.tail (List.replicate m .dequeue)).2) = _
    rw [ih]
    cases l with
    | nil => simp
    | cons x l => rfl

/-- Enqueue, then dequeue until nothing is left. -/
theorem run_drain (hn : 0 < n) (h : l.length ≤ n) (xs : List α) {m : ℕ} (hm : n ≤ m) :
    (run n l (xs.map .enqueue ++ List.replicate m .dequeue)).2 = (l ++ xs).rtake n := by
  have henq := run_enqueues hn h xs
  unfold run at henq ⊢
  rw [deliver_append, henq]
  show [] ++ (run n _ _).2 = _
  rw [run_dequeues, List.nil_append]
  refine List.take_of_length_le ?_
  rw [List.rtake, List.length_drop]
  omega

end DropOldest

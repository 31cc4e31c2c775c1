import Mathlib.Tactic

/-!
# A buffer that grows in places

An encoder lays out its output piece by piece. A `fixed` piece is refused when it does not fit
the capacity; an `elastic` one makes the buffer grow, to `slack` bytes behind the piece. Only
the sizes of the pieces decide whether the layout goes through.

* `fits_append`: a layout in two parts.
* `fits_of_le`: a layout that fits the first capacity as a whole never grows.
-/

namespace Growth

inductive Piece where
  | fixed (n : ℕ)
  | elastic (n : ℕ)
  deriving DecidableEq

def Piece.size : Piece → ℕ
  | .fixed n => n
  | .elastic n => n

/-- The size of the pieces together. -/
def total (ps : List Piece) : ℕ := (ps.map Piece.size).sum

/-- The capacity behind an elastic piece of `n` bytes at offset `off`. -/
def grown (slack cap off n : ℕ) : ℕ := if off + n > cap then off + n + slack else cap

/-- **Every fixed piece fits**, from offset `off` on in a buffer of capacity `cap`. -/
def Fits (slack : ℕ) : ℕ → ℕ → List Piece → Prop
  | _, _, [] => True
  | cap, off, .fixed n :: ps => off + n ≤ cap ∧ Fits slack cap (off + n) ps
  | cap, off, .elastic n :: ps => Fits slack (grown slack cap off n) (off + n) ps

/-- The capacity behind the pieces. -/
def capAfter (slack : ℕ) : ℕ → ℕ → List Piece → ℕ
  | cap, _, [] => cap
  | cap, off, .fixed n :: ps => capAfter slack cap (off + n) ps
  | cap, off, .elastic n :: ps => capAfter slack (grown slack cap off n) (off + n) ps

instance decidableFits (slack : ℕ) : ∀ cap off ps, Decidable (Fits slack cap off ps)
  | _, _, [] => .isTrue trivial
  | cap, off, .fixed n :: ps =>
    have := decidableFits slack cap (off + n) ps
    inferInstanceAs (Decidable (off + n ≤ cap ∧ Fits slack cap (off + n) ps))
  | cap, off, .elastic n :: ps => decidableFits slack (grown slack cap off n) (off + n) ps

variable {slack cap off : ℕ} {ps qs : List Piece}

@[simp] theorem total_nil : total [] = 0 := rfl

@[simp] theorem total_cons (p : Piece) (ps : List Piece) : total (p :: ps) = p.size + total ps := List.sum_cons

@[simp] theorem total_append (ps qs : List Piece) : total (ps ++ qs) = total ps + total qs := by
  unfold total
  rw [List.map_append, List.sum_append]

@[simp] theorem fits_nil : Fits slack cap off [] := trivial

/-- A piece of fixed size has to fit as the buffer is. -/
@[simp] theorem fits_fixed {n : ℕ} : Fits slack cap off (.fixed n :: ps) ↔ off + n ≤ cap ∧ Fits slack cap (off + n) ps :=
  .rfl

/-- An elastic piece makes the buffer grow where it does not fit. -/
@[simp] theorem fits_elastic {n : ℕ} :
    Fits slack cap off (.elastic n :: ps) ↔ Fits slack (grown slack cap off n) (off + n) ps := .rfl

/-- A layout in two parts: the second starts where the first ends, in the buffer that it leaves. -/
theorem fits_append : Fits slack cap off (ps ++ qs) ↔
    Fits slack cap off ps ∧ Fits slack (capAfter slack cap off ps) (off + total ps) qs := by
  induction ps generalizing cap off with
  | nil => exact (and_iff_right trivial).symm
  | cons p ps ih =>
    rw [total_cons, ← Nat.add_assoc]
    cases p with
    | fixed n =>
      rw [List.cons_append, fits_fixed, fits_fixed, ih, and_assoc]
      rfl
    | elastic n =>
      rw [List.cons_append, fits_elastic, fits_elastic, ih]
      rfl

/-- A layout that fits the capacity as a whole. -/
theorem fits_of_le (h : off + total ps ≤ cap) : Fits slack cap off ps := by
  induction ps generalizing off with
  | nil => trivial
  | cons p ps ih =>
    rw [total_cons] at h
    cases p with
    | fixed n =>
      have hn : (Piece.fixed n).size = n := rfl
      exact ⟨by omega, ih (by omega)⟩
    | elastic n =>
      have hn : (Piece.elastic n).size = n := rfl
      have hg : grown slack cap off n = cap := if_neg (by omega)
      rw [fits_elastic, hg]
      exact ih (by omega)

end Growth

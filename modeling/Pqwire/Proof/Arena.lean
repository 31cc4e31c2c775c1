import Pqwire.Spec.Grammar
import Pqwire.Proof.Bind

/-!
# The row arena

`parse_data_row` reads the values of a row off the body (`rowFields`) and stores them one
behind the other (`storeFields`), dropping those for which there is no room.

* `dataRowLoop_eq`: the loop of the source does the two at once.
* `storeFields_holds`: every column that has data denotes its value.
* `storeFields_below`: what was stored before stays as it is.
-/

namespace Pqwire

open ByteMem

/-! ## The values of a row -/

/-- The values that the column loop meets: at most `n` of them from `off` on. -/
def rowFields (body : Bytes) : ℕ → ℕ → List Field
  | 0, _ => []
  | n + 1, off =>
    if off + 4 ≤ body.length then
      let plen := toI32 (rd32Be body off)
      if h : off + 4 + plen.toInt.toNat ≤ body.length then
        ⟨plen, slice body (off + 4) plen.toInt.toNat, slice_length h⟩ ::
          rowFields body n (off + 4 + plen.toInt.toNat)
      else []
    else []

/-- Store values one behind the other, as `parse_data_row` does. -/
def storeFields : List Field → Bytes → ℕ → RowParse
  | [], arena, used => ⟨[], arena, used⟩
  | f :: fs, arena, used =>
    if f.len.toInt < 0 then .cons { data := none, len := 0 } (storeFields fs arena used)
    else if used + f.data.length > rowArenaSize then .cons { data := none, len := 0 } (storeFields fs arena used)
    else .cons { data := some used, len := f.data.length }
      (storeFields fs (blit arena used f.data) (used + f.data.length))

/-- **The column loop reads the values and stores them.** -/
theorem dataRowLoop_eq (body : Bytes) (n off : ℕ) (arena : Bytes) (used : ℕ) :
    dataRowLoop body n off arena used = storeFields (rowFields body n off) arena used := by
  induction n generalizing off arena used with
  | zero => rfl
  | succ n ih =>
    simp only [dataRowLoop, rowFields]
    split
    · split
      · rename_i hneg
        have h0 : (toI32 (rd32Be body off)).toInt.toNat = 0 := by omega
        rw [dif_pos (by omega), storeFields, if_pos hneg, ih]
        simp only [h0, Nat.add_zero]
      · rename_i hneg
        split
        · rename_i hover
          rw [dif_neg (by omega)]
          rfl
        · rename_i hfit
          have hl : off + 4 + (toI32 (rd32Be body off)).toInt.toNat ≤ body.length := by omega
          have hs := slice_length hl
          rw [dif_pos hl, storeFields, if_neg hneg]
          simp only [hs]
          split
          · rw [ih]
          · rw [ih]
    · rfl

/-- The values lie one behind the other on the wire. -/
theorem rowFields_wire (body : Bytes) (n off : ℕ) :
    ∃ rest, body.drop off = (rowFields body n off).flatMap Field.enc ++ rest := by
  induction n generalizing off with
  | zero => exact ⟨body.drop off, rfl⟩
  | succ n ih =>
    simp only [rowFields]
    split
    · rename_i hl
      split
      · rename_i hfit
        set len := toI32 (rd32Be body off)
        obtain ⟨rest, hr⟩ := ih (off + 4 + len.toInt.toNat)
        refine ⟨rest, ?_⟩
        have hw := wr32Be_rd32Be (p := body.drop off) (by rw [List.length_drop]; omega)
        rw [rd32Be_drop, Nat.add_zero, List.drop_drop] at hw
        have hu : len.toUInt32.toNat = rd32Be body off := toUInt32_toI32 (rd32Be_lt _ _)
        have hd : body.drop (off + 4) = slice body (off + 4) len.toInt.toNat ++ body.drop (off + 4 + len.toInt.toNat) := by
          unfold slice
          rw [← List.drop_drop (i := len.toInt.toNat), List.take_append_drop]
        rw [List.flatMap_cons, List.append_assoc, ← hr, Field.enc, List.append_assoc, ← hd, hu, hw]
      · exact ⟨body.drop off, rfl⟩
    · exact ⟨body.drop off, rfl⟩

/-- Values on the wire are met as they are. -/
theorem rowFields_enc (fs : List Field) (pre rest : Bytes) :
    rowFields (pre ++ fs.flatMap Field.enc ++ rest) fs.length pre.length = fs := by
  induction fs generalizing pre with
  | nil => rfl
  | cons f fs ih =>
    have hb : pre ++ (f :: fs).flatMap Field.enc ++ rest = (pre ++ f.enc) ++ fs.flatMap Field.enc ++ rest := by
      simp only [List.flatMap_cons, List.append_assoc]
    have hb' : pre ++ (f :: fs).flatMap Field.enc ++ rest =
        pre ++ wr32Be f.len.toUInt32.toNat ++ (f.data ++ (fs.flatMap Field.enc ++ rest)) := by
      simp only [List.flatMap_cons, Field.enc, List.append_assoc]
    have hv := rd32Be_at pre f.len.toUInt32.toNat (f.data ++ (fs.flatMap Field.enc ++ rest))
    rw [← hb'] at hv
    have hlen : (pre ++ (f :: fs).flatMap Field.enc ++ rest).length =
        pre.length + 4 + f.len.toInt.toNat + (fs.flatMap Field.enc).length + rest.length := by
      rw [hb]; simp only [List.length_append, Field.enc_length]; omega
    have hrec := ih (pre ++ f.enc)
    rw [← hb, List.length_append, Field.enc_length, ← Nat.add_assoc] at hrec
    have hdata := slice_append_mid (pre ++ wr32Be f.len.toUInt32.toNat) f.data (fs.flatMap Field.enc ++ rest)
    rw [List.append_assoc, ← hb', List.length_append, wr32Be_length, f.ok] at hdata
    simp only [List.length_cons, rowFields, hv, toI32_toUInt32]
    rw [if_pos (by rw [hlen]; omega), dif_pos (by rw [hlen]; omega), hrec]
    congr 1
    obtain ⟨len, data, hok⟩ := f
    simp only at hdata ⊢
    simp only [hdata]

/-! ## The arena -/

/-- A column denotes the value `f`, and lies below the fill mark. -/
def Holds (arena : Bytes) (used : ℕ) (col : RowColumn) (f : Field) : Prop :=
  ∀ p, col.data = some p → p + col.len ≤ used ∧ slice arena p col.len = f.data

/-- Below `used`, the two arenas are the same. -/
def SameBelow (used : ℕ) (arena arena' : Bytes) : Prop :=
  ∀ p k, p + k ≤ used → slice arena' p k = slice arena p k

theorem Holds.mono {arena arena' : Bytes} {used used' : ℕ} {col : RowColumn} {f : Field} (h : Holds arena used col f)
    (hu : used ≤ used') (hs : SameBelow used arena arena') : Holds arena' used' col f := by
  intro p hp
  obtain ⟨h1, h2⟩ := h p hp
  exact ⟨by omega, by rw [hs p _ h1, h2]⟩

/-- **What was stored before stays as it is**, and the fill mark only rises. -/
theorem storeFields_below (fs : List Field) {arena : Bytes} {used : ℕ} (h : used ≤ arena.length) :
    used ≤ (storeFields fs arena used).used ∧ SameBelow used arena (storeFields fs arena used).arena := by
  induction fs generalizing arena used with
  | nil => exact ⟨le_rfl, fun _ _ _ => rfl⟩
  | cons f fs ih =>
    rw [storeFields]
    split
    · exact ih h
    split
    · exact ih h
    · have hl : used + f.data.length ≤ (blit arena used f.data).length := by rw [blit_length h]; omega
      obtain ⟨h1, h2⟩ := ih hl
      refine ⟨by simp only [RowParse.cons]; omega, ?_⟩
      intro p k hp
      exact (h2 p k (by omega)).trans (slice_blit_below hp h)

/-- **Every column that has data denotes its value.** -/
theorem storeFields_holds (fs : List Field) {arena : Bytes} {used : ℕ} (h : used ≤ arena.length) :
    List.Forall₂ (Holds (storeFields fs arena used).arena (storeFields fs arena used).used)
      (storeFields fs arena used).columns fs := by
  induction fs generalizing arena used with
  | nil => exact .nil
  | cons f fs ih =>
    rw [storeFields]
    split
    · exact .cons (fun p hp => by cases hp) (ih h)
    split
    · exact .cons (fun p hp => by cases hp) (ih h)
    · have hl : used + f.data.length ≤ (blit arena used f.data).length := by rw [blit_length h]; omega
      obtain ⟨h1, h2⟩ := storeFields_below fs hl
      refine .cons ?_ (ih hl)
      intro p hp
      cases hp
      exact ⟨h1, (h2 used _ le_rfl).trans (slice_blit_self h)⟩

/-- The bytes that a row takes in the arena. -/
def DataRow.stored (r : DataRow) : ℕ := (r.columns.map (·.len)).sum

theorem storeFields_used (fs : List Field) (arena : Bytes) (used : ℕ) :
    (storeFields fs arena used).used = used + DataRow.stored ⟨(storeFields fs arena used).columns⟩ := by
  induction fs generalizing arena used with
  | nil => rfl
  | cons f fs ih =>
    rw [storeFields]
    split
    · have := ih arena used
      simp only [RowParse.cons, DataRow.stored, List.map_cons, List.sum_cons] at this ⊢
      omega
    split
    · have := ih arena used
      simp only [RowParse.cons, DataRow.stored, List.map_cons, List.sum_cons] at this ⊢
      omega
    · have := ih (blit arena used f.data) (used + f.data.length)
      simp only [RowParse.cons, DataRow.stored, List.map_cons, List.sum_cons] at this ⊢
      omega

/-- Which columns have no data: the NULLs, and those that did not fit behind what was
stored before them. -/
theorem storeFields_null (fs : List Field) (arena : Bytes) (used : ℕ) {i : ℕ} {col : RowColumn} {f : Field}
    (hc : (storeFields fs arena used).columns[i]? = some col) (hf : fs[i]? = some f) :
    col.data = none ↔ f.len.toInt < 0 ∨
      used + DataRow.stored ⟨(storeFields fs arena used).columns.take i⟩ + f.data.length > rowArenaSize := by
  induction fs generalizing arena used i with
  | nil => cases hf
  | cons g gs ih =>
    cases i with
    | zero =>
      simp only [List.getElem?_cons_zero, Option.some.injEq] at hf
      subst hf
      simp only [List.take_zero, DataRow.stored, List.map_nil, List.sum_nil, Nat.add_zero]
      rw [storeFields] at hc
      -- the column itself: NULL, too long for the arena, or stored
      split at hc
      · rename_i hneg
        cases hc
        exact iff_of_true rfl (Or.inl hneg)
      split at hc
      · rename_i hfull
        cases hc
        exact iff_of_true rfl (Or.inr hfull)
      · rename_i hneg hfit
        cases hc
        exact iff_of_false (by simp) (by tauto)
    | succ i =>
      -- a later column: only a stored one moves the offset
      rw [List.getElem?_cons_succ] at hf
      rw [storeFields] at hc ⊢
      split at hc
      · rename_i hneg
        have := ih arena used (i := i) hc hf
        rw [if_pos hneg]
        simp only [RowParse.cons, List.take_succ_cons, DataRow.stored, List.map_cons, List.sum_cons, Nat.zero_add] at this ⊢
        exact this
      rename_i hneg
      split at hc
      · rename_i hfull
        have := ih arena used (i := i) hc hf
        rw [if_neg hneg, if_pos hfull]
        simp only [RowParse.cons, List.take_succ_cons, DataRow.stored, List.map_cons, List.sum_cons, Nat.zero_add] at this ⊢
        exact this
      · rename_i hfit
        have := ih (blit arena used g.data) (used + g.data.length) (i := i) hc hf
        rw [if_neg hneg, if_neg hfit]
        simp only [RowParse.cons, List.take_succ_cons, DataRow.stored, List.map_cons, List.sum_cons] at this ⊢
        rw [this, ← Nat.add_assoc]

end Pqwire

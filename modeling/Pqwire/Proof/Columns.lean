import Pqwire.Proof.Room

/-!
# The rows that are sent

`pqwire_send_data_row_multi` writes the length of a column whatever it is, but the value only
where it has one (`sendDataRowMulti_payload`). So the row is one of the grammar, with the lengths
given, exactly when no column with a positive length lacks its value and the row fits a frame
(`row_form_iff`).
-/

namespace Pqwire

open ByteMem

variable {lengths : Option (List Int32)} {values : Option (List (Option Bytes))} {c c₁ : Ctx}

/-- A column as it is written, from its length and its value. -/
def wireColumn (len : Int32) (val : Option Bytes) : Bytes :=
  wr32Be len.toUInt32.toNat ++ if len.toInt > 0 then (val.getD []).take len.toInt.toNat else []

theorem rowField_enc (lengths : Option (List Int32)) (values : Option (List (Option Bytes))) (i : ℕ) :
    (rowField lengths values i).enc = wireColumn (columnLength lengths i) (columnValue values i) := by
  unfold rowField HeapField.enc wireColumn columnLength columnValue
  dsimp only
  split
  · cases values.bind (·.getD i none) with
    | none => rw [Option.getD_none, List.take_nil]; rfl
    | some v => rfl
  · rfl

/-- The column loop writes the columns one after the other. -/
theorem dataRowCols_some {n i cap : ℕ} {p p' : Bytes}
    (h : Ctx.dataRowCols lengths values n i c p cap = (c₁, some p')) :
    NoFailure c c₁ ∧ c₁.output = c.output ∧
      p' = p ++ (List.range' i n).flatMap fun j => wireColumn (columnLength lengths j) (columnValue values j) := by
  rw [dataRowCols_eq] at h
  have hc : (putFields ((List.range' i n).map (rowField lengths values)) c p cap).1 = c₁ := congrArg Prod.fst h
  obtain ⟨q, hq, rfl⟩ := Option.map_eq_some_iff.1 (congrArg Prod.snd h)
  have hp : q.1 = _ := putFields_some hq
  rw [List.flatMap_map] at hp
  simp only [rowField_enc] at hp
  refine ⟨?_, ?_, hp⟩
  · rw [← hc]
    exact putFields_noFailure hq
  · rw [← hc]
    exact (putFields_takes _ _ _ _).output

/-- The payload of the row. -/
def rowPayload (lengths : Option (List Int32)) (values : Option (List (Option Bytes))) (n : ℕ) : Bytes :=
  wr16Be n ++ (List.range n).flatMap fun i => wireColumn (columnLength lengths i) (columnValue values i)

/-- **A row that is sent**: `emit_msg` gets the payload, in a context that differs in the
allocations made. -/
theorem sendDataRowMulti_payload {n : UInt16} (h : c.sendDataRowMulti lengths values n = (c₁, 0)) :
    ∃ c₂, NoFailure c c₂ ∧ c₂.output = c.output ∧
      c₁ = (c₂.emitMsg (ch 'D') (rowPayload lengths values n.toNat)).1 := by
  have hne : (-1 : ℤ) ≠ 0 := by decide
  unfold Ctx.sendDataRowMulti at h
  split at h
  · exact absurd (congrArg Prod.snd h) hne
  rename_i hok
  split at h
  · exact absurd (congrArg Prod.snd h) hne
  rename_i c₂ p hl
  obtain ⟨h1, h2, h3⟩ := dataRowCols_some hl
  refine ⟨c₂, (NoFailure.allocated (by simpa using hok)).trans h1, h2, ?_⟩
  have h4 : _ = c₁ := congrArg Prod.fst h
  rw [h3, ← List.range_eq_range'] at h4
  exact h4.symm

/-- **The frame appended is a row of the grammar**: its body, all that its length field covers,
is `n` columns with the lengths given, each with as many bytes as its length says, and nothing
else. -/
def RowForm (lengths : Option (List Int32)) (n : ℕ) (c c₁ : Ctx) : Prop :=
  ∃ (f : Frame) (fs : List Field), f.type = ch 'D' ∧ f.body = encFields fs ∧ fs.length = n ∧
    (∀ i < n, ∃ g, fs[i]? = some g ∧ g.len = columnLength lengths i) ∧ c₁.output = c.output ++ f.enc

/-- The size of a row with the lengths given. -/
def rowSize (lengths : Option (List Int32)) (n : ℕ) : ℕ :=
  2 + ((List.range n).map fun i => 4 + (columnLength lengths i).toInt.toNat).sum

theorem wireColumn_length (len : Int32) (val : Option Bytes) : (wireColumn len val).length =
    4 + min len.toInt.toNat (val.getD []).length := by
  unfold wireColumn
  rw [List.length_append, wr32Be_length]
  split
  · rw [List.length_take]
  · rw [List.length_nil]
    omega

theorem wireColumn_field {len : Int32} {val : Option Bytes} (hr : ∀ v, val = some v → len.toInt.toNat ≤ v.length)
    (hg : 0 < len.toInt → val ≠ none) : ∃ f : Field, f.enc = wireColumn len val ∧ f.len = len := by
  unfold wireColumn
  by_cases hpos : len.toInt > 0
  · obtain ⟨v, rfl⟩ := Option.ne_none_iff_exists'.1 (hg hpos)
    refine ⟨⟨len, v.take len.toInt.toNat, ?_⟩, ?_, rfl⟩
    · rw [List.length_take, min_eq_left (hr v rfl)]
    · rw [if_pos hpos, Option.getD_some]
      rfl
  · refine ⟨⟨len, [], ?_⟩, ?_, rfl⟩
    · rw [List.length_nil]
      omega
    · rw [if_neg hpos]
      rfl

/-- What is in the output behind a row that is sent without a failing allocation. -/
theorem sendDataRowMulti_output {n : UInt16} (h : c.sendDataRowMulti lengths values n = (c₁, 0)) (hno : NoFailure c c₁) :
    c₁.output = c.output ++ (Ctx.msgHeader (ch 'D') (rowPayload lengths values n.toNat).length ++
      rowPayload lengths values n.toNat) := by
  obtain ⟨c₂, h1, h2, rfl⟩ := sendDataRowMulti_payload h
  have hne : rowPayload lengths values n.toNat ≠ [] := List.cons_ne_nil _ _
  rw [← h2]
  rcases emitMsg_cases h1 (ch 'D') hne with ⟨-, ho⟩ | ⟨hf, -⟩
  · exact ho
  · exact absurd hno hf

/-- The sizes of columns in the grammar. -/
theorem fields_size {fs : List Field} {n : ℕ} (hn : fs.length = n)
    (hl : ∀ i < n, ∃ f, fs[i]? = some f ∧ f.len = columnLength lengths i) :
    (encFields fs).length = rowSize lengths n := by
  unfold encFields rowSize
  rw [List.length_append, wr16Be_length, List.length_flatMap]
  congr 2
  refine List.ext_getElem? ?_
  intro i
  rw [List.getElem?_map, List.getElem?_map]
  by_cases hi : i < n
  · obtain ⟨f, hf, hlen⟩ := hl i hi
    rw [hf, List.getElem?_range hi, Option.map_some, Option.map_some, f.enc_length, hlen]
  · rw [List.getElem?_eq_none (by omega), List.getElem?_eq_none (by rw [List.length_range]; omega)]
    rfl

/-- A row with every value is as large as its lengths say. -/
theorem rowPayload_length_iff (hr : Readable lengths values n) :
    (rowPayload lengths values n).length = rowSize lengths n ↔ AllGiven lengths values n := by
  have hle : ∀ i ∈ Finset.range n, 4 + min (columnLength lengths i).toInt.toNat ((columnValue values i).getD []).length ≤
      4 + (columnLength lengths i).toInt.toNat := fun i _ => Nat.add_le_add_left (min_le_left _ _) 4
  have hsum : (rowPayload lengths values n).length = rowSize lengths n ↔
      ∑ i ∈ Finset.range n, (4 + min (columnLength lengths i).toInt.toNat ((columnValue values i).getD []).length) =
        ∑ i ∈ Finset.range n, (4 + (columnLength lengths i).toInt.toNat) := by
    simp only [rowPayload, rowSize, List.length_append, wr16Be_length, List.length_flatMap, wireColumn_length,
      Nat.add_left_cancel_iff]
    rfl
  rw [hsum, Finset.sum_eq_sum_iff_of_le hle]
  constructor
  · intro hall i hi hpos hnone
    have hi' := hall i (Finset.mem_range.2 hi)
    rw [hnone, Option.getD_none, List.length_nil] at hi'
    omega
  · intro hg i hi
    have hi' := Finset.mem_range.1 hi
    by_cases hpos : 0 < (columnLength lengths i).toInt
    · obtain ⟨v, hv⟩ := Option.ne_none_iff_exists'.1 (hg i hi' hpos)
      have hlen : (columnLength lengths i).toInt.toNat ≤ v.length := hr i hi' v hv
      rw [hv, Option.getD_some, min_eq_left hlen]
    · rw [show (columnLength lengths i).toInt.toNat = 0 by omega, Nat.zero_min]

/-- The columns of a row with every value. -/
theorem rowPayload_fields (hr : Readable lengths values n) (hg : AllGiven lengths values n) :
    ∃ fs : List Field, encFields fs = rowPayload lengths values n ∧ fs.length = n ∧
      ∀ i < n, ∃ g, fs[i]? = some g ∧ g.len = columnLength lengths i := by
  have hfield : ∀ i, ∃ f : Field, i < n →
      f.enc = wireColumn (columnLength lengths i) (columnValue values i) ∧ f.len = columnLength lengths i := by
    intro i
    by_cases hi : i < n
    · obtain ⟨f, hf⟩ := wireColumn_field (hr i hi) (hg i hi)
      exact ⟨f, fun _ => hf⟩
    · exact ⟨.byte 0, fun h => absurd h hi⟩
  choose g hg' using hfield
  have hfs : ((List.range n).map g).length = n := by rw [List.length_map, List.length_range]
  refine ⟨(List.range n).map g, ?_, hfs, fun i hi => ⟨g i, ?_, (hg' i hi).2⟩⟩
  · unfold encFields rowPayload
    rw [hfs, List.flatMap_map]
    congr 1
    exact List.flatMap_congr fun i hi => (hg' i (List.mem_range.1 hi)).1
  · rw [List.getElem?_map, List.getElem?_range hi, Option.map_some]

/-- **A row that is sent is one of the grammar exactly when every column with a positive length has
a value and the row fits the length field of its frame.** -/
theorem row_form_iff {n : UInt16} (hr : Readable lengths values n.toNat)
    (h : c.sendDataRowMulti lengths values n = (c₁, 0)) (hno : NoFailure c c₁) :
    RowForm lengths n.toNat c c₁ ↔ AllGiven lengths values n.toNat ∧ rowSize lengths n.toNat + 4 < 2 ^ 32 := by
  have hout := sendDataRowMulti_output h hno
  constructor
  · rintro ⟨f, fs, -, hb, hn, hl, ho⟩
    -- both rows are in the output, so they are as long as each other
    have hlen := congrArg List.length (hout.symm.trans ho)
    have hhead : ∀ k, (Ctx.msgHeader (ch 'D') k).length = 5 := fun _ => rfl
    have hsize := fields_size hn hl
    rw [← hb] at hsize
    rw [List.length_append, List.length_append, List.length_append, hhead, f.enc_length, Frame.len] at hlen
    refine ⟨(rowPayload_length_iff hr).1 (by omega), ?_⟩
    have := f.short
    omega
  · rintro ⟨hg, hfit⟩
    obtain ⟨fs, henc, hfs, hl⟩ := rowPayload_fields hr hg
    have hlen := (rowPayload_length_iff hr).2 hg
    refine ⟨⟨ch 'D', rowPayload lengths values n.toNat, by rw [hlen]; omega⟩, fs, rfl, henc.symm, hfs, hl, hout⟩

/-- A value and a NULL. -/
theorem row_form_pair : ∃ c₁, tinyClient.sendDataRowMulti pairArgs.lengths pairArgs.values 2 = (c₁, 0) ∧
    RowForm pairArgs.lengths 2 tinyClient c₁ := by
  have hsend : tinyClient.sendDataRowMulti pairArgs.lengths pairArgs.values 2 =
      ((tinyClient.sendDataRowMulti pairArgs.lengths pairArgs.values 2).1, 0) := Prod.ext rfl (by decide)
  refine ⟨_, hsend, (row_form_iff pairArgs_readable hsend ⟨0, by decide, by simp⟩).2 ⟨?_, by decide⟩⟩
  intro i hi hpos
  match i, hi with
  | 0, _ => exact Option.some_ne_none _
  | 1, _ => exact absurd hpos (by decide)

/-- A length of 1 without a value: the row ends behind the length. -/
theorem row_cut_short : ∃ c₁, tinyClient.sendDataRowMulti (some [1]) none 1 = (c₁, 0) ∧ NoFailure tinyClient c₁ ∧
    ¬∃ fs : List Field, fs.length = 1 ∧
      c₁.output = tinyClient.output ++ (Ctx.msgHeader (ch 'D') (encFields fs).length ++ encFields fs) := by
  refine ⟨(tinyClient.sendDataRowMulti (some [1]) none 1).1, Prod.ext rfl (by decide), ⟨0, by decide, by simp⟩, ?_⟩
  rintro ⟨fs, hn, ho⟩
  obtain ⟨f, rfl⟩ := List.length_eq_one_iff.1 hn
  have hbytes : (tinyClient.sendDataRowMulti (some [1]) none 1).1.output = [68, 0, 0, 0, 10, 0, 1, 0, 0, 0, 1] := by decide
  rw [hbytes] at ho
  have henc : encFields [f] = wr16Be 1 ++ (wr32Be f.len.toUInt32.toNat ++ f.data) := by
    rw [encFields, List.flatMap_singleton]
    rfl
  -- the length field is 1, so that a byte would have to follow it
  have hread : f.len.toUInt32.toNat % 2 ^ 32 = 1 := by
    have hat := rd32Be_at (Ctx.msgHeader (ch 'D') (encFields [f]).length ++ wr16Be 1) f.len.toUInt32.toNat f.data
    rw [List.append_assoc, List.append_assoc, ← henc] at hat
    exact (hat.symm.trans (congrArg (rd32Be · 7) ho).symm).trans (by decide)
  have hone : f.len = 1 := by
    rw [← toI32_toUInt32 f.len, hread]
    rfl
  have hlen := congrArg List.length ho
  rw [henc, hone] at hlen
  have hdata := f.ok
  rw [hone] at hdata
  simp only [List.length_append, List.length_cons, List.length_nil, wr16Be_length, wr32Be_length, hdata] at hlen
  exact absurd hlen (by decide)

end Pqwire

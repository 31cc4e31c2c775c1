import Pqwire.Proof.Fifo
import Pqwire.Proof.Inverse
import Pqwire.Spec.Room

/-!
# What the growing encoders accept

* `putFields_lays`: the loop over the fields goes through exactly when their pieces fit.
* `send_room_iff`: `pqwire_send_bind` and `pqwire_send_data_row_multi` return 0 exactly then.
* `pipeline_whole_iff`: the pipeline helper is all-or-nothing exactly when its Parse is refused
  or its Bind goes through.
-/

namespace Pqwire

open ByteMem Growth

/-! ## The loop -/

/-- The pieces of a field: its length is refused where it does not fit, its value makes the
buffer grow. -/
def HeapField.pieces (f : HeapField) : List Piece :=
  .fixed 4 :: f.value.elim [] fun _ => [.elastic f.len.toInt.toNat]

/-- The value takes up its length. -/
def HeapField.Exact (f : HeapField) : Prop := ∀ v, f.value = some v → v.length = f.len.toInt.toNat

/-- What a run over pieces comes to: all of them and the capacity behind them, or nothing. -/
def Lays (cap off : ℕ) (ps : List Piece) (res : Option (Bytes × ℕ)) : Prop :=
  (Fits heapSlack cap off ps → ∃ p, res = some (p, capAfter heapSlack cap off ps) ∧ p.length = off + total ps) ∧
    (¬Fits heapSlack cap off ps → res = none)

/-- The length field alone. -/
theorem Lays.field {cap off : ℕ} {ps : List Piece} {res : Option (Bytes × ℕ)} (h : off + 4 ≤ cap)
    (hl : Lays cap (off + 4) ps res) : Lays cap off (.fixed 4 :: ps) res := by
  refine ⟨fun hf => ?_, fun hf => hl.2 fun h' => hf ⟨h, h'⟩⟩
  obtain ⟨p, hp, hlen⟩ := hl.1 hf.2
  refine ⟨p, hp, ?_⟩
  rw [total_cons, hlen]
  exact Nat.add_assoc _ _ _

/-- The value behind it. -/
theorem Lays.value {cap off k : ℕ} {ps : List Piece} {res : Option (Bytes × ℕ)}
    (hl : Lays (grown heapSlack cap off k) (off + k) ps res) : Lays cap off (.elastic k :: ps) res := by
  refine ⟨fun hf => ?_, fun hf => hl.2 hf⟩
  obtain ⟨p, hp, hlen⟩ := hl.1 hf
  refine ⟨p, hp, ?_⟩
  rw [total_cons, hlen]
  exact Nat.add_assoc _ _ _

theorem Lays.refused {cap off : ℕ} {ps : List Piece} (h : ¬off + 4 ≤ cap) : Lays cap off (.fixed 4 :: ps) none :=
  ⟨fun hf => absurd hf.1 h, fun _ => rfl⟩

/-- The loop goes through, with or without the capacity behind it, exactly when the pieces fit. -/
theorem Lays.isSome_iff {cap off : ℕ} {ps : List Piece} {res : Option (Bytes × ℕ)} (hl : Lays cap off ps res) :
    res.isSome = true ↔ Fits heapSlack cap off ps := by
  by_cases hf : Fits heapSlack cap off ps
  · obtain ⟨p, hp, -⟩ := hl.1 hf
    rw [hp]
    exact iff_of_true rfl hf
  · rw [hl.2 hf]
    exact iff_of_false Bool.false_ne_true hf

/-- **The loop over the fields goes through exactly when their pieces fit.** -/
theorem putFields_lays {c : Ctx} (ha : c.allocs = []) {fs : List HeapField} (hfs : ∀ f ∈ fs, f.Exact) (p : Bytes)
    (cap : ℕ) : Lays cap p.length (fs.flatMap HeapField.pieces) (putFields fs c p cap).2 := by
  induction fs generalizing p cap with
  | nil => exact ⟨fun _ => ⟨p, rfl, rfl⟩, fun h => absurd trivial h⟩
  | cons f fs ih =>
    have ih := ih fun f' hf' => hfs f' (List.mem_cons_of_mem f hf')
    rw [List.flatMap_cons, HeapField.pieces, List.cons_append]
    simp only [putFields]
    by_cases h4 : p.length + 4 > cap
    · rw [if_pos h4]
      exact .refused (by omega)
    rw [if_neg h4]
    refine .field (by omega) ?_
    have hp4 : (p ++ wr32Be f.len.toUInt32.toNat).length = p.length + 4 := by rw [List.length_append, wr32Be_length]
    cases hv : f.value with
    | none =>
      rw [← hp4]
      exact ih _ _
    | some v =>
      have hpv : (p ++ wr32Be f.len.toUInt32.toNat ++ v).length = p.length + 4 + f.len.toInt.toNat := by
        rw [List.length_append, hp4, hfs f List.mem_cons_self v hv]
      refine .value ?_
      unfold grown
      dsimp only
      rw [← hpv]
      by_cases hcap : (p ++ wr32Be f.len.toUInt32.toNat ++ v).length > cap
      · rw [if_pos hcap, if_pos hcap, allocOk_of_nil ha, if_pos rfl, allocated_self ha]
        exact ih _ _
      · rw [if_neg hcap, if_neg hcap]
        exact ih _ _

section

variable (lengths : Option (List Int32)) (values : Option (List (Option Bytes)))

theorem bindField_pieces (i : ℕ) :
    (bindField lengths values i).pieces = fieldPieces (lengths.elim (-1) (·.getD i 0)) true := by
  unfold bindField HeapField.pieces fieldPieces
  dsimp only
  by_cases hpos : (lengths.elim (-1) (·.getD i 0) : Int32).toInt > 0
  · rw [if_pos hpos, if_pos ⟨hpos, rfl⟩]
    rfl
  · rw [if_neg hpos, if_neg fun h => hpos h.1]
    rfl

theorem rowField_pieces (i : ℕ) : (rowField lengths values i).pieces =
    fieldPieces (lengths.elim (-1) (·.getD i 0)) (values.bind (·.getD i none)).isSome := by
  unfold rowField HeapField.pieces fieldPieces
  dsimp only
  by_cases hpos : (lengths.elim (-1) (·.getD i 0) : Int32).toInt > 0
  · rw [if_pos hpos]
    cases values.bind (·.getD i none) with
    | none => exact (if_neg fun h => Bool.false_ne_true h.2).symm
    | some v => exact (if_pos ⟨hpos, rfl⟩).symm
  · rw [if_neg hpos, if_neg fun h => hpos h.1]
    rfl

variable {lengths values} {n : ℕ}

theorem bindField_exact (hr : Readable lengths values n) : ∀ f ∈ (List.range' 0 n).map (bindField lengths values),
    f.Exact := by
  intro f hf v hv
  obtain ⟨i, hi, rfl⟩ := List.mem_map.1 hf
  have hri := hr i (by have := List.mem_range'_1.1 hi; omega)
  unfold bindField at hv ⊢
  dsimp only at hv ⊢
  split at hv
  · cases Option.some_inj.1 hv
    cases hval : values.bind (·.getD i none) with
    | none => exact List.length_replicate
    | some u => exact List.length_take.trans (min_eq_left (hri u hval))
  · cases hv

theorem rowField_exact (hr : Readable lengths values n) : ∀ f ∈ (List.range' 0 n).map (rowField lengths values),
    f.Exact := by
  intro f hf v hv
  obtain ⟨i, hi, rfl⟩ := List.mem_map.1 hf
  have hri := hr i (by have := List.mem_range'_1.1 hi; omega)
  unfold rowField at hv ⊢
  dsimp only at hv ⊢
  split at hv
  · obtain ⟨u, hval, rfl⟩ := Option.map_eq_some_iff.1 hv
    exact List.length_take.trans (min_eq_left (hri u hval))
  · cases hv

end

/-! ## The calls -/

variable {c : Ctx}

theorem codeBytes_length (codes : Option (List Int16)) (n : ℕ) : (Ctx.codeBytes codes n).length = n * 2 := by
  rw [codeBytes_eq codes n _ fun _ _ => rfl, flatMap_encCode_length, List.length_map, List.length_range, Nat.mul_comm]

/-- The pieces of the parameters. -/
theorem BindArgs.paramPieces_eq (a : BindArgs) :
    ((List.range' 0 a.nParams.toNat).map (bindField a.lengths a.values)).flatMap HeapField.pieces = a.paramPieces := by
  rw [List.flatMap_map, ← List.range_eq_range']
  simp only [bindField_pieces]
  rfl

/-- **`pqwire_send_bind` returns 0 exactly when its message goes through the heap buffer.** -/
theorem BindArgs.send_room_iff {a : BindArgs} (ha : c.allocs = []) (hr : Readable a.lengths a.values a.nParams.toNat) :
    (a.send c).2 = 0 ↔ a.Room := by
  have hne : (-1 : ℤ) ≠ 0 := by decide
  have hloop := putFields_lays ha (bindField_exact hr)
    ((a.portal.getD CStr.empty).toBytes ++ (a.statement.getD CStr.empty).toBytes ++ wr16Be a.nFormats.toNat ++
      Ctx.codeBytes a.formats a.nFormats.toNat ++ wr16Be a.nParams.toNat) (heapCap a.nParams.toNat)
  rw [a.paramPieces_eq] at hloop
  unfold Room pieces
  rw [List.append_assoc]
  simp only [List.cons_append, List.nil_append, fits_fixed, fits_append, fits_nil, and_true, Nat.zero_add]
  unfold send Ctx.sendBind
  rw [if_neg (by rw [allocOk_of_nil ha]; decide), allocated_self ha]
  unfold heapCap at hloop ⊢
  simp only [List.length_append, CStr.toBytes_length, wr16Be_length, codeBytes_length] at hloop ⊢
  set names := (a.portal.getD CStr.empty).length + 1 + ((a.statement.getD CStr.empty).length + 1) with hnames
  set cap := 64 + a.nParams.toNat * 256 with hcap
  by_cases h1 : names > cap
  · rw [if_pos h1]
    exact iff_of_false hne fun h => absurd h.1 (by omega)
  by_cases h2 : names + 2 + a.nFormats.toNat * 2 > cap
  · rw [if_neg h1, if_pos h2]
    exact iff_of_false hne fun h => absurd h.2.1 (by omega)
  by_cases h3 : names + 2 + a.nFormats.toNat * 2 + 2 > cap
  · rw [if_neg h1, if_neg h2, if_pos h3]
    exact iff_of_false hne fun h => absurd h.2.2.1 (by omega)
  rw [if_neg h1, if_neg h2, if_neg h3, ← Nat.add_assoc names 2, and_iff_right (by omega), and_iff_right (by omega),
    and_iff_right (by omega)]
  rw [bindParamLoop_eq]
  generalize putFields ((List.range' 0 a.nParams.toNat).map (bindField a.lengths a.values)) c _ cap = res at hloop ⊢
  obtain ⟨c₁, r⟩ := res
  by_cases hfit : Fits heapSlack cap (names + 2 + a.nFormats.toNat * 2 + 2) a.paramPieces
  · obtain ⟨p, hp, hlen⟩ := hloop.1 hfit
    dsimp only at hp
    rw [hp, and_iff_right hfit, ← hlen]
    dsimp only
    by_cases h4 : p.length + 2 + a.nResultFormats.toNat * 2 >
        capAfter heapSlack cap (names + 2 + a.nFormats.toNat * 2 + 2) a.paramPieces
    · rw [if_pos h4]
      exact iff_of_false hne (by omega)
    · rw [if_neg h4]
      exact iff_of_true rfl (by omega)
  · have hp := hloop.2 hfit
    dsimp only at hp
    rw [hp]
    exact iff_of_false hne fun h => hfit h.1

/-- **`pqwire_send_data_row_multi` returns 0 exactly when its message goes through the heap buffer.** -/
theorem sendDataRowMulti_room_iff {lengths : Option (List Int32)} {values : Option (List (Option Bytes))} {n : UInt16}
    (ha : c.allocs = []) (hr : Readable lengths values n.toNat) :
    (c.sendDataRowMulti lengths values n).2 = 0 ↔ RowRoom lengths values n.toNat := by
  have hloop := (putFields_lays ha (rowField_exact hr) (wr16Be n.toNat) (heapCap n.toNat)).isSome_iff
  rw [List.flatMap_map, ← List.range_eq_range', wr16Be_length] at hloop
  simp only [rowField_pieces] at hloop
  have h2 : 0 + 2 ≤ heapCap n.toNat := by
    unfold heapCap
    omega
  unfold RowRoom rowPieces
  rw [fits_fixed, and_iff_right h2, Nat.zero_add, ← hloop]
  unfold Ctx.sendDataRowMulti
  rw [if_neg (by rw [allocOk_of_nil ha]; decide), allocated_self ha]
  unfold heapCap
  rw [dataRowCols_eq, ← List.range_eq_range']
  generalize putFields ((List.range n.toNat).map (rowField lengths values)) c _ _ = res
  obtain ⟨c₁, r⟩ := res
  cases r with
  | none => exact iff_of_false (by decide : (-1 : ℤ) ≠ 0) Bool.false_ne_true
  | some q => exact iff_of_true rfl rfl

/-- A message that is no larger than the first capacity as a whole always goes through. -/
theorem BindArgs.room_of_le {a : BindArgs} (h : total a.pieces ≤ heapCap a.nParams.toNat) : a.Room :=
  fits_of_le (by omega)

theorem rowRoom_of_le {lengths : Option (List Int32)} {values : Option (List (Option Bytes))} {n : ℕ}
    (h : total (rowPieces lengths values n) ≤ heapCap n) : RowRoom lengths values n :=
  fits_of_le (by omega)

/-- **What the growing encoders accept.** Where allocation succeeds, each returns 0 exactly when
every field of fixed size lies within the buffer as it is then: the first capacity, or 1024 bytes
behind the last value that made it grow. A message that is no larger than the first capacity as a
whole always goes through. -/
theorem growing_encoders_iff (ha : c.allocs = []) :
    (∀ a : BindArgs, Readable a.lengths a.values a.nParams.toNat → ((a.send c).2 = 0 ↔ a.Room)) ∧
      (∀ (lengths : Option (List Int32)) (values : Option (List (Option Bytes))) (n : UInt16),
        Readable lengths values n.toNat →
        ((c.sendDataRowMulti lengths values n).2 = 0 ↔ RowRoom lengths values n.toNat)) ∧
      (∀ a : BindArgs, total a.pieces ≤ heapCap a.nParams.toNat → a.Room) ∧
      ∀ (lengths : Option (List Int32)) (values : Option (List (Option Bytes))) (n : ℕ),
        total (rowPieces lengths values n) ≤ heapCap n → RowRoom lengths values n :=
  ⟨fun _ hr => BindArgs.send_room_iff ha hr, fun _ _ _ hr => sendDataRowMulti_room_iff ha hr,
    fun _ h => BindArgs.room_of_le h, fun _ _ _ h => rowRoom_of_le h⟩

theorem pairArgs_readable : Readable pairArgs.lengths pairArgs.values pairArgs.nParams.toNat := by
  intro i hi v hv
  match i, hi with
  | 0, _ =>
    cases hv
    decide
  | 1, _ => cases hv

theorem growing_encoders_pair : (pairArgs.send tinyClient).2 = 0 ∧
    (tinyClient.sendDataRowMulti pairArgs.lengths pairArgs.values 2).2 = 0 := by
  obtain ⟨h1, h2, hbind, hrow⟩ := growing_encoders_iff (c := tinyClient) rfl
  exact ⟨(h1 pairArgs pairArgs_readable).2 (hbind _ (by decide)), (h2 _ _ 2 pairArgs_readable).2 (hrow _ _ 2 (by decide))⟩

/-- Two names of 63 bytes and nothing else. -/
def namesArgs : BindArgs :=
  { portal := some ⟨List.replicate 63 112, by decide⟩
    statement := some ⟨List.replicate 63 115, by decide⟩
    formats := none
    nFormats := 0
    lengths := none
    values := none
    nParams := 0
    resultFormats := none
    nResultFormats := 0 }

/-- Both encoders refuse a message for lack of room: the Bind of two names within the limits, and
a row whose first value ends where the buffer does. -/
theorem growing_encoders_refuse : (namesArgs.InLimits ∧ (namesArgs.send tinyClient).2 ≠ 0) ∧
    Readable (some [570, -1]) (some [some (List.replicate 570 0), none]) 2 ∧
    (tinyClient.sendDataRowMulti (some [570, -1]) (some [some (List.replicate 570 0), none]) 2).2 ≠ 0 := by
  have hr : Readable (some [570, -1]) (some [some (List.replicate 570 0), none]) 2 := by
    intro i hi v hv
    match i, hi with
    | 0, _ =>
      cases hv
      rw [List.length_replicate]
      decide
    | 1, _ => cases hv
  have hnone : Readable namesArgs.lengths namesArgs.values namesArgs.nParams.toNat := fun i hi => absurd hi (Nat.not_lt_zero i)
  refine ⟨⟨⟨by decide, by decide, by decide, by decide, by decide, fun i hi => absurd hi (Nat.not_lt_zero i)⟩, ?_⟩, hr, ?_⟩
  · intro h
    exact absurd ((BindArgs.send_room_iff rfl hnone).1 h) (by decide)
  · intro h
    exact absurd ((sendDataRowMulti_room_iff rfl hr).1 h) (by decide)

/-! ## The pipeline helper -/

/-- What an all-or-nothing helper does on `c`: all four messages, or none. -/
def PipelineArgs.Whole (a : PipelineArgs) (c : Ctx) : Prop :=
  ((a.send c).2 = 0 → ∃ query, a.query = some query ∧ ∃ P B E S : Frame,
    (P.type = ch 'P' ∧ P.body = a.parseBody query) ∧ (B.type = ch 'B' ∧ B.body = a.bind.payload) ∧
    (E.type = ch 'E' ∧ E.body = a.executeBody) ∧ (S.type = ch 'S' ∧ S.body = []) ∧
    (a.send c).1.output = c.output ++ Frame.encAll [P, B, E, S]) ∧
  ((a.send c).2 = -1 → (a.send c).1.output = c.output)

/-- The fields take up the size of their pieces. -/
theorem heapFields_size {fs : List HeapField} (hfs : ∀ f ∈ fs, f.Exact) :
    (fs.flatMap HeapField.enc).length = total (fs.flatMap HeapField.pieces) := by
  induction fs with
  | nil => rfl
  | cons f fs ih =>
    rw [List.flatMap_cons, List.flatMap_cons, List.length_append, total_append,
      ih fun f' hf' => hfs f' (List.mem_cons_of_mem f hf'), HeapField.enc, HeapField.pieces, List.length_append,
      wr32Be_length, total_cons]
    cases hv : f.value with
    | none => rfl
    | some v =>
      rw [Option.getD_some, hfs f List.mem_cons_self v hv]
      rfl

/-- The size of the Bind that is sent. -/
theorem BindArgs.payload_size {a : BindArgs} (hr : Readable a.lengths a.values a.nParams.toNat) :
    a.payload.length = total a.pieces := by
  have hp := heapFields_size (bindField_exact hr)
  rw [a.paramPieces_eq, List.flatMap_map, ← List.range_eq_range'] at hp
  simp only [bindField_enc] at hp
  unfold payload bindPayload pieces
  simp only [List.length_append, CStr.toBytes_length, wr16Be_length, codeBytes_length, hp, total_append, total_cons,
    total_nil, Piece.size]
  omega

namespace PipelineArgs

variable {a : PipelineArgs}

theorem send_refused (h : a.ParseRefused) : a.send c = (c, -1) := by
  have hparse : c.sendParse (some CStr.empty) a.query a.oids a.nOids = (c, -1) := by
    unfold Ctx.sendParse
    cases hq : a.query with
    | none => rfl
    | some query => exact if_pos (h query hq)
  unfold send Ctx.sendUnnamedPipeline
  rw [hparse]
  rfl

/-- What the helper does behind a Parse that has been emitted. -/
def afterParse (a : PipelineArgs) (c : Ctx) : Ctx × ℤ :=
  if (a.bind.send c).2 ≠ 0 then ((a.bind.send c).1, -1)
  else (((a.bind.send c).1.emitMsg (ch 'E') a.executeBody).1.emitMsg (ch 'S') [])

theorem send_parsed {query : CStr} (hq : a.query = some query)
    (h : 1 + (query.length + 1) + 2 + a.nOids.toNat * 4 ≤ maxQueryLen + 256) :
    a.send c = a.afterParse (c.emitMsg (ch 'P') (a.parseBody query)).1 := by
  have hparse : c.sendParse (some CStr.empty) a.query a.oids a.nOids = c.emitMsg (ch 'P') (a.parseBody query) := by
    unfold Ctx.sendParse
    rw [hq]
    exact if_neg (Nat.not_lt.2 h)
  unfold send Ctx.sendUnnamedPipeline
  rw [hparse]
  rfl

/-- A Bind that is refused leaves the output as it is. -/
theorem afterParse_refused (ha : c.allocs = []) (h : (a.bind.send c).2 ≠ 0) :
    (a.afterParse c).2 = -1 ∧ (a.afterParse c).1.output = c.output := by
  have hadds := send_adds (m := .bind (some CStr.empty) (some CStr.empty) a.formats a.nFormats a.lengths a.values
    a.nParams a.resultFormats a.nResultFormats) ha rfl
  unfold afterParse
  rw [if_pos h]
  refine ⟨rfl, ?_⟩
  rcases hadds.2 with ⟨-, ho⟩ | ⟨h0, -⟩
  · exact ho
  · exact absurd h0 h

/-- A Bind that is sent is followed by the Execute and the Sync. -/
theorem afterParse_sent (ha : c.allocs = []) (h : (a.bind.send c).2 = 0) :
    (a.afterParse c).2 = 0 ∧ (a.afterParse c).1.output = c.output ++
      (Ctx.msgHeader (ch 'B') a.bind.payload.length ++ a.bind.payload) ++
      (Ctx.msgHeader (ch 'E') a.executeBody.length ++ a.executeBody) ++ Ctx.msgHeader (ch 'S') 0 := by
  have hadds := send_adds (m := .bind (some CStr.empty) (some CStr.empty) a.formats a.nFormats a.lengths a.values
    a.nParams a.resultFormats a.nResultFormats) ha rfl
  have hal : (a.bind.send c).1.allocs = [] := hadds.1
  have hno : NoFailure c (a.bind.send c).1 := ⟨0, by rw [hal, ha]; rfl, by simp⟩
  have hbind := (BindArgs.send_emits (Prod.ext rfl h : a.bind.send c = ((a.bind.send c).1, 0))).2.2 hno
  obtain ⟨hex, hal'⟩ := emitMsg_output hal (ch 'E') a.executeBody
  obtain ⟨hsync, -⟩ := emitMsg_output hal' (ch 'S') []
  unfold afterParse
  rw [if_neg fun hne => hne h]
  refine ⟨rfl, ?_⟩
  rw [hsync, hex, hbind, List.append_nil]
  rfl

theorem parseBody_length (a : PipelineArgs) (query : CStr) :
    (a.parseBody query).length = 1 + (query.length + 1) + 2 + a.nOids.toNat * 4 := by
  have hoids : ((List.range a.nOids.toNat).flatMap fun i => wr32Be (a.oids.elim 0 (·.getD i 0)).toNat).length =
      a.nOids.toNat * 4 := by
    rw [List.length_flatMap]
    simp only [wr32Be_length, List.map_const', List.length_range, List.sum_replicate, smul_eq_mul]
  simp only [parseBody, List.length_append, CStr.toBytes_length, wr16Be_length, hoids]
  rfl

/-- **The pipeline helper is all-or-nothing exactly when** its Parse is refused, or its Bind goes
through the heap buffer and its length fits the length field. -/
theorem whole_iff (ha : c.allocs = []) (hr : Readable a.lengths a.values a.nParams.toNat) :
    a.Whole c ↔ a.ParseRefused ∨ (a.bind.Room ∧ total a.bind.pieces + 4 < 2 ^ 32) := by
  have hsize : a.bind.payload.length = total a.bind.pieces := BindArgs.payload_size hr
  by_cases href : a.ParseRefused
  · rw [Whole, send_refused href]
    refine iff_of_true ⟨fun h => ?_, fun _ => rfl⟩ (Or.inl href)
    exact absurd h (show (-1 : ℤ) ≠ 0 by decide)
  obtain ⟨query, hq, hfit⟩ : ∃ query, a.query = some query ∧
      1 + (query.length + 1) + 2 + a.nOids.toNat * 4 ≤ maxQueryLen + 256 := by
    unfold ParseRefused at href
    push Not at href
    exact href
  obtain ⟨hout, hal⟩ := emitMsg_output ha (ch 'P') (a.parseBody query)
  have hroom := BindArgs.send_room_iff (a := a.bind) hal hr
  rw [Whole, send_parsed hq hfit, or_iff_right href]
  set c₁ := (c.emitMsg (ch 'P') (a.parseBody query)).1
  by_cases hb : (a.bind.send c₁).2 = 0
  · obtain ⟨h0, ho⟩ := afterParse_sent hal hb
    rw [hout] at ho
    constructor
    · rintro ⟨hall, -⟩
      obtain ⟨-, -, -, B, -, -, -, ⟨-, hB⟩, -⟩ := hall h0
      refine ⟨hroom.1 hb, ?_⟩
      rw [← hsize, ← hB]
      exact B.short
    · rintro ⟨-, hshort⟩
      have hparse : (a.parseBody query).length + 4 < 2 ^ 32 := by
        have hmax : maxQueryLen = 4096 := rfl
        rw [parseBody_length]
        omega
      refine ⟨fun _ => ⟨query, hq, ⟨ch 'P', a.parseBody query, hparse⟩, ⟨ch 'B', a.bind.payload, by omega⟩,
        ⟨ch 'E', a.executeBody, show 5 + 4 < 2 ^ 32 by decide⟩, ⟨ch 'S', [], by decide⟩, ⟨rfl, rfl⟩, ⟨rfl, rfl⟩,
        ⟨rfl, rfl⟩, ⟨rfl, rfl⟩, ?_⟩, fun h => ?_⟩
      · rw [ho]
        simp only [Frame.encAll, List.flatMap_cons, List.flatMap_nil, List.append_nil, List.append_assoc]
        rfl
      · exact absurd (h0.symm.trans h) (by decide)
  · obtain ⟨h1, ho⟩ := afterParse_refused hal hb
    refine iff_of_false ?_ fun h => hb (hroom.2 h.1)
    intro h
    -- the Parse is still there
    have hsame := h.2 h1
    rw [ho, hout] at hsame
    have hl := congrArg List.length hsame
    rw [List.length_append, List.length_append] at hl
    have h5 : (Ctx.msgHeader (ch 'P') (a.parseBody query).length).length = 5 := rfl
    omega

/-- A query without parameters that asks for `n` result formats. -/
def asking (n : UInt16) : PipelineArgs :=
  { query := some ⟨[97], by decide⟩
    oids := none
    nOids := 0
    formats := none
    nFormats := 0
    lengths := none
    values := none
    nParams := 0
    resultFormats := none
    nResultFormats := n
    maxRows := 0 }

theorem whole_one : (asking 1).Whole tinyClient :=
  (whole_iff (a := asking 1) rfl fun i hi => absurd hi (Nat.not_lt_zero i)).2 (Or.inr (by decide))

/-- With 29 result formats the Bind is refused and the Parse stays in the output. -/
theorem not_whole_parse : ¬(asking 29).Whole tinyClient := by
  have hr : ((asking 29).send tinyClient).2 = -1 := by decide
  have ho : ((asking 29).send tinyClient).1.output ≠ tinyClient.output := by decide
  intro h
  exact ho (h.2 hr)

end PipelineArgs

end Pqwire

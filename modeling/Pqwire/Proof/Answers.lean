import Pqwire.Proof.Wire
import Pqwire.Proof.Scratch
import Pqwire.Proof.Recovery
import Pqwire.Spec.Backend

/-!
# Encoders and decoders of the backend messages

* `send_answer`: what the server appends to its output for a message.
* `receive_answer`: how the client reports a message whose fields are within its limits.
-/

namespace Pqwire

open ByteMem LastWrite

/-! ## Encoders -/

theorem rowDescCols_some {cols : List Ctx.ColumnArg} {p p' : Bytes} (h : Ctx.rowDescCols cols p = some p') :
    p' = p ++ cols.flatMap fun col => Column.enc ⟨col.name.getD CStr.empty, col.oid, col.format⟩ := by
  induction cols generalizing p with
  | nil =>
    cases h
    exact (List.append_nil _).symm
  | cons col cols ih =>
    simp only [Ctx.rowDescCols] at h
    split at h
    · cases h
    · rw [ih h]
      simp only [List.flatMap_cons, Column.enc, encCode, List.append_assoc]

theorem sentColumn_some {lengths : Option (List Int32)} {values : Option (List (Option Bytes))} {i : ℕ} {f : Field}
    (h : sentColumn lengths values i = some f) :
    f.len = lengths.elim (-1) (·.getD i 0) ∧
      f.data = ((values.bind (·.getD i none)).getD []).take f.len.toInt.toNat := by
  unfold sentColumn at h
  dsimp only at h
  split at h
  · cases h
    exact ⟨rfl, rfl⟩
  · cases h

theorem sentColumns_length {lengths : Option (List Int32)} {values : Option (List (Option Bytes))} {n i : ℕ}
    {fs : List Field} (h : sentColumns lengths values n i = some fs) : fs.length = n := by
  induction n generalizing i fs with
  | zero =>
    cases h
    rfl
  | succ n ih =>
    simp only [sentColumns, Option.bind_eq_bind, Option.bind_eq_some_iff, Option.pure_def, Option.some.injEq] at h
    obtain ⟨f, -, fs, hfs, rfl⟩ := h
    rw [List.length_cons, ih hfs]

/-- A column that is sent is a field of the row. -/
theorem rowField_enc_sent {lengths : Option (List Int32)} {values : Option (List (Option Bytes))} {i : ℕ} {f : Field}
    (h : sentColumn lengths values i = some f) : (rowField lengths values i).enc = f.enc := by
  obtain ⟨hlen, hdata⟩ := sentColumn_some h
  unfold rowField HeapField.enc Field.enc
  dsimp only
  rw [← hlen, hdata]
  congr 1
  by_cases hpos : f.len.toInt > 0
  · rw [if_pos hpos]
    cases values.bind (·.getD i none) with
    | none => exact List.take_nil.symm
    | some v => rfl
  · rw [if_neg hpos, show f.len.toInt.toNat = 0 by omega, List.take_zero]
    rfl

/-- The columns that are sent, one behind the other. -/
theorem rowFields_enc_sent {lengths : Option (List Int32)} {values : Option (List (Option Bytes))} {n i : ℕ}
    {fs : List Field} (hf : sentColumns lengths values n i = some fs) :
    ((List.range' i n).map (rowField lengths values)).flatMap HeapField.enc = fs.flatMap Field.enc := by
  induction n generalizing i fs with
  | zero =>
    cases hf
    rfl
  | succ n ih =>
    simp only [sentColumns, Option.bind_eq_bind, Option.bind_eq_some_iff, Option.pure_def, Option.some.injEq] at hf
    obtain ⟨f, hcol, fs, hfs, rfl⟩ := hf
    rw [List.range'_succ, List.map_cons, List.flatMap_cons, List.flatMap_cons, rowField_enc_sent hcol, ih hfs]

theorem putField_some {code : UInt8} {s : CStr} {p p' : Bytes} (h : Ctx.putField code s p = some p') :
    p' = p ++ [code] ++ s.toBytes := by
  unfold Ctx.putField at h
  split at h
  · cases h
  · exact (Option.some_inj.1 h).symm

/-- **What the server appends for a message.** -/
theorem send_answer {c c' : Ctx} {m : Send} {b : BackMsg} (ha : c.allocs = []) (hb : m.answer = some b) (hs : b.Small)
    (h : m.run c = (c', 0)) :
    c'.output = c.output ++ (Ctx.msgHeader b.type.byte b.body.length ++ b.body) ∧ c'.allocs = [] := by
  cases m with
  | authOk => cases hb; exact emitMsg_all ha h
  | readyForQuery =>
    cases hb
    exact emitMsg_all (c := { c with protoState := .ready }) ha h
  | parseComplete => cases hb; exact emitMsg_all ha h
  | bindComplete => cases hb; exact emitMsg_all ha h
  | closeComplete => cases hb; exact emitMsg_all ha h
  | noData => cases hb; exact emitMsg_all ha h
  | commandComplete tag =>
    cases tag with
    | none => cases hb
    | some tag => cases hb; exact emitMsg_all ha h
  | rowDescription cols =>
    cases cols with
    | none => cases hb
    | some cols =>
      cases hb
      obtain ⟨hlen, -⟩ := hs
      rw [List.length_map] at hlen
      change c.sendRowDescription (some cols) = _ at h
      unfold Ctx.sendRowDescription at h
      dsimp only at h
      -- no column is cut off
      rw [List.take_of_length_le hlen] at h
      cases hp : Ctx.rowDescCols cols (wr16Be cols.length) with
      | none =>
        rw [hp] at h
        exact absurd (Prod.ext_iff.1 h).2 (show (-1 : ℤ) ≠ 0 by decide)
      | some p =>
        rw [hp] at h
        have hbody : p = BackMsg.body (.rowDescription
            (cols.map fun col => ⟨col.name.getD CStr.empty, col.oid, col.format⟩)) := by
          rw [rowDescCols_some hp, BackMsg.body, List.length_map, List.flatMap_map]
        rw [← hbody]
        exact emitMsg_all ha h
  | dataRowMulti lengths values n =>
    simp only [Send.answer, Option.map_eq_some_iff] at hb
    obtain ⟨fs, hfs, rfl⟩ := hb
    change c.sendDataRowMulti lengths values n = _ at h
    unfold Ctx.sendDataRowMulti at h
    rw [if_neg (by rw [allocOk_of_nil ha]; decide), allocated_self ha, dataRowCols_eq] at h
    obtain ⟨r, hr⟩ := putFields_fixed ((List.range' 0 n.toNat).map (rowField lengths values)) (wr16Be n.toNat)
      (64 + n.toNat * 256)
    rw [hr c ha] at h
    cases r with
    | none => exact absurd (Prod.ext_iff.1 h).2 (show (-1 : ℤ) ≠ 0 by decide)
    | some q =>
      have hp : q.1 = _ := putFields_some (congrArg Prod.snd (hr c ha))
      have hn : fs.length = n.toNat := sentColumns_length hfs
      have hbody : q.1 = BackMsg.body (.dataRow fs) := by rw [hp, rowFields_enc_sent hfs, BackMsg.body, encFields, hn]
      rw [← hbody]
      exact emitMsg_all ha h
  | errorResponse severity sqlstate message =>
    cases hb
    change c.sendErrorResponse severity sqlstate message = _ at h
    unfold Ctx.sendErrorResponse at h
    dsimp only at h
    split at h
    · exact absurd (Prod.ext_iff.1 h).2 (show (-1 : ℤ) ≠ 0 by decide)
    · rename_i p hp
      simp only [Option.bind_eq_bind, Option.bind_eq_some_iff] at hp
      obtain ⟨p₁, h1, p₂, h2, h3⟩ := hp
      have hbody : p ++ [0] = BackMsg.body (.errorResponse (severity.getD Ctx.defaultSeverity)
          (sqlstate.getD Ctx.defaultSqlstate) (message.getD Ctx.defaultMessage)) := by
        rw [putField_some h3, putField_some h2, putField_some h1]
        simp only [BackMsg.body, List.nil_append, List.append_assoc, List.cons_append]
      rw [← hbody]
      exact emitted_of_zero ha h
  | _ => cases hb

/-! ## Decoders -/

theorem Column.enc_length (col : Column) : col.enc.length = col.name.length + 1 + 18 := by
  simp only [Column.enc, List.length_append, CStr.toBytes_length, wr32Be_length, wr16Be_length, encCode_length]

/-- Columns on the wire are read as they are. -/
theorem readCols_enc {cols : List Column} (hs : ∀ col ∈ cols, col.name.length ≤ 63) (pre : Bytes) :
    readCols (pre ++ cols.flatMap Column.enc) cols.length pre.length =
      (cols.map (·.name), cols.map fun col => (col.oid, col.format)) := by
  induction cols generalizing pre with
  | nil => rfl
  | cons col cols ih =>
    set rest := cols.flatMap Column.enc with hrest
    have hb : pre ++ (col :: cols).flatMap Column.enc = pre ++ (col.name.toBytes ++ (wr32Be 0 ++ wr16Be 0 ++
        wr32Be col.oid.toNat ++ wr16Be 4 ++ wr32Be (2 ^ 32 - 1) ++ encCode col.format ++ rest)) := by
      simp only [List.flatMap_cons, Column.enc, List.append_assoc, hrest]
    have hb' : pre ++ (col :: cols).flatMap Column.enc = (pre ++ col.enc) ++ rest := by
      simp only [List.flatMap_cons, List.append_assoc, hrest]
    have hlen : (pre ++ (col :: cols).flatMap Column.enc).length = pre.length + (col.name.length + 1 + 18) + rest.length := by
      rw [hb', List.length_append, List.length_append, Column.enc_length]
    -- the three reads of the loop, at their offsets in the encoded column
    have hname : readCstr ((pre ++ (col :: cols).flatMap Column.enc).drop pre.length) =
        some (col.name, col.name.length + 1) := by
      rw [hb, List.drop_left]
      exact readCstr_toBytes _ _
    have hoid : rd32Be (pre ++ (col :: cols).flatMap Column.enc) (pre.length + (col.name.length + 1) + 6) =
        col.oid.toNat := by
      have h := rd32Be_at (pre ++ col.name.toBytes ++ wr32Be 0 ++ wr16Be 0) col.oid.toNat
        (wr16Be 4 ++ wr32Be (2 ^ 32 - 1) ++ encCode col.format ++ rest)
      simp only [List.length_append, CStr.toBytes_length, wr32Be_length, wr16Be_length,
        Nat.mod_eq_of_lt col.oid.toNat_lt] at h
      rw [hb]
      refine Eq.trans ?_ h
      simp only [List.append_assoc]
    have hfmt : rd16Be (pre ++ (col :: cols).flatMap Column.enc) (pre.length + (col.name.length + 1) + 16) =
        col.format.toUInt16.toNat % 2 ^ 16 := by
      have h := rd16Be_at (pre ++ col.name.toBytes ++ wr32Be 0 ++ wr16Be 0 ++ wr32Be col.oid.toNat ++ wr16Be 4 ++
        wr32Be (2 ^ 32 - 1)) col.format.toUInt16.toNat rest
      simp only [List.length_append, CStr.toBytes_length, wr32Be_length, wr16Be_length] at h
      rw [hb, ← h]
      simp only [List.append_assoc, encCode]
    have hrec := ih (fun col hc => hs col (List.mem_cons_of_mem _ hc)) (pre ++ col.enc)
    rw [← hb', List.length_append, Column.enc_length, ← Nat.add_assoc] at hrec
    simp only [List.length_cons, readCols, hname, hoid, hfmt, hrec, toI16_encCode, UInt32.ofNat_toNat, List.map_cons]
    rw [if_pos (by omega), if_neg (by omega), copyCstr_self (by have := hs col (List.mem_cons_self ..); omega)]

theorem rowCols_enc {cols : List Column} (hl : cols.length ≤ maxRowColumns) (hs : ∀ col ∈ cols, col.name.length ≤ 63) :
    rowCols (BackMsg.body (.rowDescription cols)) =
      (cols.map (·.name), cols.map fun col => (col.oid, col.format)) := by
  have hmax : maxRowColumns = 16 := rfl
  have hn : rd16Be (wr16Be cols.length ++ cols.flatMap Column.enc) 0 = cols.length := by
    rw [rd16Be_wr16Be, Nat.mod_eq_of_lt (by omega)]
  have := readCols_enc hs (wr16Be cols.length)
  unfold rowCols
  rw [if_neg (by simp only [BackMsg.body, List.length_append, wr16Be_length]; omega), BackMsg.body, hn, min_eq_left hl]
  exact this

/-- A RowDescription leaves its columns in the scratch areas. -/
theorem parseRowDescription_enc {c : Ctx} {cols : List Column} (hc : c.colScratch.length = maxRowColumns)
    (hn : c.colNameScratch.length = maxRowColumns) (hl : cols.length ≤ maxRowColumns)
    (hs : ∀ col ∈ cols, col.name.length ≤ 63) :
    ∃ q, (parseRowDescription c (BackMsg.body (.rowDescription cols))).log = c.log ++ [q] ∧
      q.ev = .rowDescription cols.length ∧
      ∀ j (hj : j < cols.length), (parseRowDescription c (BackMsg.body (.rowDescription cols))).column j =
        (some cols[j].name, cols[j].oid, cols[j].format) := by
  obtain ⟨h1, h2, h3⟩ := parseRowDescription_spec hc hn (BackMsg.body (.rowDescription cols))
  have hlog : ∃ q, (parseRowDescription c (BackMsg.body (.rowDescription cols))).log = c.log ++ [q] := by
    unfold parseRowDescription
    rw [if_neg (by simp only [BackMsg.body, List.length_append, wr16Be_length]; omega)]
    exact ⟨_, rfl⟩
  obtain ⟨q, hq⟩ := hlog
  have hev := h3 q hq
  rw [rowCols_enc hl hs] at h1 h2 hev
  rw [List.length_map] at hev
  refine ⟨q, hq, hev, ?_⟩
  intro j hj
  have hdesc : colDescAt 0 (cols.map fun col => (col.oid, col.format)) j = some ⟨some j, cols[j].oid, cols[j].format⟩ := by
    unfold colDescAt
    rw [if_pos (Nat.zero_le _), Nat.sub_zero, List.getElem?_map, List.getElem?_eq_getElem hj]
    rfl
  have hname : colNameAt 0 (cols.map (·.name)) j = some cols[j].name := by
    unfold colNameAt
    rw [if_pos (Nat.zero_le _), Nat.sub_zero, List.getElem?_map, List.getElem?_eq_getElem hj]
    rfl
  unfold Ctx.column
  rw [h1, hdesc]
  simp only [Option.getD_some, Option.map_some, h2, hname]

/-- One field of an error. -/
theorem errorLoop_field {field : UInt8} (hf : field ≠ 0) (val : CStr) (rest : Bytes) (n : ℕ) (e : PqError) :
    errorLoop (n + 1) (field :: (val.toBytes ++ rest)) e = errorLoop n rest (e.setField field val) := by
  have hd : (val.toBytes ++ rest).drop (val.length + 1) = rest := by
    rw [← CStr.toBytes_length, List.drop_left]
  rw [errorLoop, if_neg hf, readCstr_toBytes]
  dsimp only
  rw [hd]

theorem errorLoop_enc {severity code message : CStr} (h1 : severity.length ≤ 31) (h2 : code.length ≤ 7)
    (h3 : message.length ≤ 255) :
    errorLoop (BackMsg.body (.errorResponse severity code message)).length
        (BackMsg.body (.errorResponse severity code message)) {} =
      { severity := severity, code := code, message := message } := by
  have hb : BackMsg.body (.errorResponse severity code message) =
      ch 'S' :: (severity.toBytes ++ (ch 'C' :: (code.toBytes ++ (ch 'M' :: (message.toBytes ++ [0]))))) := by
    simp only [BackMsg.body, List.append_assoc, List.cons_append]
  obtain ⟨n, hn⟩ : ∃ n, (BackMsg.body (.errorResponse severity code message)).length = n + 1 + 1 + 1 + 1 := by
    refine ⟨severity.length + code.length + message.length + 3, ?_⟩
    rw [hb]
    simp only [List.length_cons, List.length_append, CStr.toBytes_length, List.length_nil]
    omega
  have hS : ∀ e : PqError, e.setField (ch 'S') severity = { e with severity := severity } := by
    intro e
    rw [PqError.setField, if_pos rfl, copyCstr_self (by omega)]
  have hC : ∀ e : PqError, e.setField (ch 'C') code = { e with code := code } := by
    intro e
    rw [PqError.setField, if_neg (by decide), if_pos rfl, copyCstr_self (by omega)]
  have hM : ∀ e : PqError, e.setField (ch 'M') message = { e with message := message } := by
    intro e
    rw [PqError.setField, if_neg (by decide), if_neg (by decide), if_pos rfl, copyCstr_self (by omega)]
  rw [hn, hb, errorLoop_field (by decide), errorLoop_field (by decide), errorLoop_field (by decide), errorLoop,
    if_pos rfl, hS, hC, hM]

/-! ## Messages and their frames -/

namespace BackMsg

/-- `q` is the event that reports the message. -/
def Logged : BackMsg → Queued → Prop
  | .authOk, q => q.ev = .authenticationOk
  | .readyForQuery, q => q.ev = .readyForQuery
  | .parseComplete, q => q.ev = .parseComplete
  | .bindComplete, q => q.ev = .bindComplete
  | .closeComplete, q => q.ev = .closeComplete
  | .noData, q => q.ev = .noData
  | .commandComplete _, q => q.ev = .commandComplete
  | .rowDescription cols, q => q.ev = .rowDescription cols.length
  | .dataRow values, q => (∃ r, q.ev = .dataRow r) ∧ q.frame = encFields values ∧ values.length ≤ maxRowColumns
  | .errorResponse severity code message, q =>
    q.ev = .errorResponse { severity := severity, code := code, message := message }

/-- `f` is the frame of the message, which is within the limits. -/
def Framed (b : BackMsg) (f : Frame) : Prop := b.Small ∧ f.type = b.type.byte ∧ f.body = b.body

/-- The columns that the message leaves in the scratch areas. -/
def cols : BackMsg → Option (List Column)
  | .rowDescription cols => some cols
  | _ => none

end BackMsg

/-- The scratch areas hold the columns of the last of the messages that writes them. -/
def Described (c : Ctx) (done : List BackMsg) : Prop :=
  ∀ cols, lastOf BackMsg.cols done = some cols →
    ∀ j (hj : j < cols.length), c.column j = (some cols[j].name, cols[j].oid, cols[j].format)

/-- **How the client reports a message.** -/
theorem receive_answer {c : Ctx} {b : BackMsg} {f : Frame} (hc : ScratchOk .client c) (h : b.Framed f) :
    ∃ q, (c.receive f).log = c.log ++ [q] ∧ b.Logged q ∧ ScratchOk .client (c.receive f) ∧
      ∀ done, Described c done → Described (c.receive f) (done ++ [b]) := by
  obtain ⟨hs, ht, hb⟩ := h
  have hsc : ScratchOk .client (c.receive f) := by
    obtain ⟨h1, h2, h3⟩ := handleFrame_scratchOk (c := c.load f.enc) ⟨hc.role, hc.cols, hc.names⟩ f
    exact ⟨h1, h2, h3⟩
  have hrec : c.receive f = (handleBackend (c.load f.enc) 5 b.body b.type).core := by
    rw [← handleMessage_back (c := c.load f.enc) hc.role, ← ht, ← hb]
    rfl
  rw [hrec] at hsc ⊢
  cases b with
  | rowDescription cols =>
    obtain ⟨hl, hn⟩ := hs
    obtain ⟨q, hlog, hev, hcol⟩ := parseRowDescription_enc (c := c.load f.enc) hc.cols hc.names hl hn
    refine ⟨q, hlog, hev, hsc, ?_⟩
    intro done _ cols' hlast
    rw [lastOf_append] at hlast
    cases hlast
    exact hcol
  -- only a RowDescription changes what the scratch areas describe
  | dataRow values =>
    have hlong : ¬(encFields values).length < 2 := by rw [encFields, List.length_append, wr16Be_length]; omega
    have hrow : (handleBackend (c.load f.enc) 5 (BackMsg.body (.dataRow values)) (BackMsg.type (.dataRow values))) =
        parseDataRow (c.load f.enc) (encFields values) := rfl
    rw [hrow, parseDataRow, if_neg hlong] at hsc ⊢
    exact ⟨_, rfl, ⟨⟨_, rfl⟩, rfl, hs⟩, hsc, fun done hd cols hlast => hd cols (by rwa [lastOf_append] at hlast)⟩
  | errorResponse severity code message =>
    obtain ⟨h1, h2, h3⟩ := hs
    refine ⟨_, rfl, ?_, hsc, fun done hd cols hlast => hd cols (by rwa [lastOf_append] at hlast)⟩
    exact congrArg Event.errorResponse (errorLoop_enc h1 h2 h3)
  | _ => exact ⟨_, rfl, rfl, hsc, fun done hd cols hlast => hd cols (by rwa [lastOf_append] at hlast)⟩

/-- **The client reports the messages whose frames it receives.** -/
theorem receiveAll_answers {ms : List BackMsg} {G : List Frame} {c : Ctx} (hc : ScratchOk .client c)
    (h : List.Forall₂ BackMsg.Framed ms G) :
    ∃ l, (c.receiveAll G).log = c.log ++ l ∧ List.Forall₂ BackMsg.Logged ms l ∧
      ∀ done, Described c done → Described (c.receiveAll G) (done ++ ms) := by
  induction h generalizing c with
  | nil => exact ⟨[], (List.append_nil _).symm, .nil, fun done hd => by rwa [List.append_nil]⟩
  | @cons b f ms G hb _ ih =>
    obtain ⟨q, hlog, hq, hsc, hd⟩ := receive_answer hc hb
    obtain ⟨l, hl, hls, hd'⟩ := ih hsc
    refine ⟨q :: l, ?_, .cons hq hls, ?_⟩
    · change ((c.receive f).receiveAll G).log = _
      rw [hl, hlog, List.append_assoc]
      rfl
    · intro done h
      have := hd' _ (hd done h)
      rwa [List.append_assoc] at this

end Pqwire

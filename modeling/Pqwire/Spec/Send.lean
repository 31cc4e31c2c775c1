import Pqwire.Spec.Parse

/-!
# Send helpers (`pqwire_send_*`)

Each helper returns the context and the C return value, 0 or -1. A string argument
is `none` for a null pointer. An array argument is a list, `none` for a null pointer,
with its own count beside it, as in the source. What a helper writes into its local
buffer is the payload built so far; the checks against the buffer's size stand where
the source has them.
-/

namespace Pqwire

open ByteMem

namespace Ctx

variable (c : Ctx)

/-- `n` format codes from an array, 0 where the pointer is null. -/
def codeBytes (codes : Option (List Int16)) (n : ℕ) : Bytes :=
  (List.range n).flatMap fun i => wr16Be ((codes.elim 0 (·.getD i 0)).toUInt16.toNat)

/-! ## Frontend -/

def proto30 : ℕ := 0x00030000

/-- `pqwire_send_startup`, with its 512-byte buffer. -/
def sendStartup (user database : Option CStr) : Ctx × ℤ :=
  if c.role ≠ .client then (c, -1)
  else
    let user := user.getD CStr.empty
    let database := database.getD CStr.empty
    let p := 4 + 4 + 5
    let ulen := user.length + 1
    if p + ulen ≥ 512 then (c, -1)
    else
      let p := p + ulen + 9
      let dlen := database.length + 1
      if p + dlen + 1 ≥ 512 then (c, -1)
      else
        let p := p + dlen + 1
        (c.appendOutput (wr32Be p ++ wr32Be proto30 ++ keyUser.toBytes ++ user.toBytes ++
          keyDatabase.toBytes ++ database.toBytes ++ [0]), 0)

/-- `pqwire_send_query`. -/
def sendQuery (sql : Option CStr) : Ctx × ℤ :=
  match sql with
  | none => (c, -1)
  | some sql => c.emitMsg (ch 'Q') sql.toBytes

def callPrefix : CStr := ⟨[ch 'C', ch 'A', ch 'L', ch 'L', ch ' '], by decide⟩

/-- String concatenation. -/
def cat (s t : CStr) : CStr := ⟨s.bytes ++ t.bytes, by simpa using ⟨s.noNul, t.noNul⟩⟩

/-- `pqwire_send_call`: `snprintf` into 512 bytes. -/
def sendCall (procedure : Option CStr) : Ctx × ℤ :=
  match procedure with
  | none => (c, -1)
  | some pr => c.sendQuery (some (copyCstr 512 (cat callPrefix pr)))

/-- `pqwire_send_terminate`. -/
def sendTerminate : Ctx × ℤ := c.emitMsg (ch 'X') []

/-- `pqwire_send_parse`, with its buffer of `PQWIRE_MAX_QUERY_LEN + 256` bytes. -/
def sendParse (statement query : Option CStr) (oids : Option (List UInt32)) (n : UInt16) : Ctx × ℤ :=
  match query with
  | none => (c, -1)
  | some query =>
    let statement := statement.getD CStr.empty
    if (statement.length + 1) + (query.length + 1) + 2 + n.toNat * 4 > maxQueryLen + 256 then (c, -1)
    else
      c.emitMsg (ch 'P') (statement.toBytes ++ query.toBytes ++ wr16Be n.toNat ++
        (List.range n.toNat).flatMap fun i => wr32Be (oids.elim 0 (·.getD i 0)).toNat)

/-- The parameter loop of `pqwire_send_bind` from parameter `i`, with the bytes written
and the capacity of the heap buffer; `none` is a return of -1. A positive length
without a value skips over that many bytes of the buffer as `malloc` returned them:
here they are zero. -/
def bindParamLoop (lengths : Option (List Int32)) (values : Option (List (Option Bytes))) :
    ℕ → ℕ → Ctx → Bytes → ℕ → Ctx × Option (Bytes × ℕ)
  | 0, _, c, p, cap => (c, some (p, cap))
  | n + 1, i, c, p, cap =>
    let plen : Int32 := lengths.elim (-1) (·.getD i 0)
    if p.length + 4 > cap then (c, none)
    else
      let p := p ++ wr32Be plen.toUInt32.toNat
      if plen.toInt > 0 then
        let k := plen.toInt.toNat
        let val := match values.bind (·.getD i none) with
          | some v => v.take k
          | none => List.replicate k 0
        if p.length + k > cap then
          if c.allocOk then
            -- `realloc` to what is needed now and 1024 bytes more
            bindParamLoop lengths values n (i + 1) c.allocated (p ++ val) (p.length + k + 1024)
          else (c.allocated, none)
        else bindParamLoop lengths values n (i + 1) c (p ++ val) cap
      else bindParamLoop lengths values n (i + 1) c p cap

/-- `pqwire_send_bind`, with its heap buffer of `64 + n_params * 256` bytes. -/
def sendBind (portal statement : Option CStr) (formats : Option (List Int16)) (nFormats : UInt16)
    (lengths : Option (List Int32)) (values : Option (List (Option Bytes))) (nParams : UInt16)
    (resultFormats : Option (List Int16)) (nResultFormats : UInt16) : Ctx × ℤ :=
  let cap := 64 + nParams.toNat * 256
  if ¬c.allocOk then (c.allocated, -1)
  else
    let c := c.allocated
    let p := (portal.getD CStr.empty).toBytes ++ (statement.getD CStr.empty).toBytes
    if p.length > cap then (c, -1)
    else if p.length + 2 + nFormats.toNat * 2 > cap then (c, -1)
    else
      let p := p ++ wr16Be nFormats.toNat ++ codeBytes formats nFormats.toNat
      if p.length + 2 > cap then (c, -1)
      else
        match bindParamLoop lengths values nParams.toNat 0 c (p ++ wr16Be nParams.toNat) cap with
        | (c, none) => (c, -1)
        | (c, some (p, cap)) =>
          if p.length + 2 + nResultFormats.toNat * 2 > cap then (c, -1)
          else
            c.emitMsg (ch 'B')
              (p ++ wr16Be nResultFormats.toNat ++ codeBytes resultFormats nResultFormats.toNat)

/-- `pqwire_send_describe` and `pqwire_send_close`: a target byte and a name in a
buffer of `PQWIRE_MAX_STMT_NAME + 2` bytes. -/
def sendTarget (type target : UInt8) (name : Option CStr) : Ctx × ℤ :=
  let name := name.getD CStr.empty
  if 1 + (name.length + 1) > maxStmtName + 2 then (c, -1)
  else c.emitMsg type (target :: name.toBytes)

/-- `pqwire_send_describe`. -/
def sendDescribe (target : UInt8) (name : Option CStr) : Ctx × ℤ := c.sendTarget (ch 'D') target name

/-- `pqwire_send_close`. -/
def sendClose (target : UInt8) (name : Option CStr) : Ctx × ℤ := c.sendTarget (ch 'C') target name

/-- `pqwire_send_execute`, with its buffer of `PQWIRE_MAX_PORTAL_NAME + 8` bytes. -/
def sendExecute (portal : Option CStr) (maxRows : UInt32) : Ctx × ℤ :=
  let portal := portal.getD CStr.empty
  if (portal.length + 1) + 4 > maxPortalName + 8 then (c, -1)
  else c.emitMsg (ch 'E') (portal.toBytes ++ wr32Be maxRows.toNat)

/-- `pqwire_send_sync`. -/
def sendSync : Ctx × ℤ := c.emitMsg (ch 'S') []

/-- `pqwire_send_flush`. -/
def sendFlush : Ctx × ℤ := c.emitMsg (ch 'H') []

/-- `pqwire_send_unnamed_pipeline`: the messages before a failing one stay in the output. -/
def sendUnnamedPipeline (query : Option CStr) (oids : Option (List UInt32)) (nOids : UInt16)
    (formats : Option (List Int16)) (nFormats : UInt16)
    (lengths : Option (List Int32)) (values : Option (List (Option Bytes))) (nParams : UInt16)
    (resultFormats : Option (List Int16)) (nResultFormats : UInt16) (maxRows : UInt32) : Ctx × ℤ :=
  let (c₁, r) := c.sendParse (some CStr.empty) query oids nOids
  if r ≠ 0 then (c₁, -1)
  else
    -- the Parse stays in the output when the Bind is refused
    let (c₂, r) := c₁.sendBind (some CStr.empty) (some CStr.empty) formats nFormats lengths values nParams
      resultFormats nResultFormats
    if r ≠ 0 then (c₂, -1)
    else
      let (c₃, r) := c₂.sendExecute (some CStr.empty) maxRows
      if r ≠ 0 then (c₃, -1) else c₃.sendSync

/-! ## Backend -/

/-- `pqwire_send_auth_ok`. -/
def sendAuthOk : Ctx × ℤ := c.emitMsg (ch 'R') (wr32Be 0)

/-- `pqwire_send_ready_for_query`. -/
def sendReadyForQuery : Ctx × ℤ := { c with protoState := .ready }.emitMsg (ch 'Z') [ch 'I']

/-- `pq_column_desc_t` as an argument. -/
structure ColumnArg where
  name : Option CStr
  oid : UInt32
  format : Int16
  deriving DecidableEq

/-- The column loop of `pqwire_send_row_description`, with its 2048-byte buffer. -/
def rowDescCols : List ColumnArg → Bytes → Option Bytes
  | [], p => some p
  | col :: cols, p =>
    let name := col.name.getD CStr.empty
    if p.length + (name.length + 1) + 18 > 2048 then none
    else
      rowDescCols cols (p ++ name.toBytes ++ wr32Be 0 ++ wr16Be 0 ++ wr32Be col.oid.toNat ++ wr16Be 4 ++
        wr32Be (2 ^ 32 - 1) ++ wr16Be col.format.toUInt16.toNat)

/-- `pqwire_send_row_description`; the count is the length of the array. -/
def sendRowDescription (cols : Option (List ColumnArg)) : Ctx × ℤ :=
  match cols with
  | none => (c, -1)
  | some cols =>
    -- columns past `PQWIRE_MAX_ROW_COLUMNS` are cut off, not refused
    let cols := cols.take maxRowColumns
    match rowDescCols cols (wr16Be cols.length) with
    | none => (c, -1)
    | some p => c.emitMsg (ch 'T') p

/-- `pqwire_send_data_row`, with its 4096-byte buffer; format and OID are ignored. -/
def sendDataRow (data : Option Bytes) (_format : Int16) (_oid : UInt32) : Ctx × ℤ :=
  match data with
  | none => c.emitMsg (ch 'D') (wr16Be 1 ++ wr32Be (2 ^ 32 - 1))
  | some d =>
    if 2 + 4 + d.length > 4096 then (c, -1)
    else c.emitMsg (ch 'D') (wr16Be 1 ++ wr32Be d.length ++ d)

/-- The column loop of `pqwire_send_data_row_multi` from column `i`: a positive length
without a value writes the length only. -/
def dataRowCols (lengths : Option (List Int32)) (values : Option (List (Option Bytes))) :
    ℕ → ℕ → Ctx → Bytes → ℕ → Ctx × Option Bytes
  | 0, _, c, p, _ => (c, some p)
  | n + 1, i, c, p, cap =>
    let plen : Int32 := lengths.elim (-1) (·.getD i 0)
    if p.length + 4 > cap then (c, none)
    else
      let p := p ++ wr32Be plen.toUInt32.toNat
      match values.bind (·.getD i none) with
      -- the length is on the wire, whatever it is
      | none => dataRowCols lengths values n (i + 1) c p cap
      | some v =>
        if plen.toInt > 0 then
          let k := plen.toInt.toNat
          if p.length + k > cap then
            if c.allocOk then
              dataRowCols lengths values n (i + 1) c.allocated (p ++ v.take k) (p.length + k + 1024)
            else (c.allocated, none)
          else dataRowCols lengths values n (i + 1) c (p ++ v.take k) cap
        else dataRowCols lengths values n (i + 1) c p cap

/-- `pqwire_send_data_row_multi`, with its heap buffer of `64 + n_cols * 256` bytes. -/
def sendDataRowMulti (lengths : Option (List Int32)) (values : Option (List (Option Bytes)))
    (nCols : UInt16) : Ctx × ℤ :=
  if ¬c.allocOk then (c.allocated, -1)
  else
    match dataRowCols lengths values nCols.toNat 0 c.allocated (wr16Be nCols.toNat) (64 + nCols.toNat * 256) with
    | (c, none) => (c, -1)
    | (c, some p) => c.emitMsg (ch 'D') p

/-- `pqwire_send_command_complete`. -/
def sendCommandComplete (tag : Option CStr) : Ctx × ℤ :=
  match tag with
  | none => (c, -1)
  | some tag => c.emitMsg (ch 'C') tag.toBytes

/-- `PUT_FIELD` into the 512-byte buffer of `pqwire_send_error_response`. -/
def putField (code : UInt8) (s : CStr) (p : Bytes) : Option Bytes :=
  if p.length + 1 + (s.length + 1) ≥ 512 then none else some (p ++ [code] ++ s.toBytes)

def defaultSeverity : CStr := ⟨[ch 'E', ch 'R', ch 'R', ch 'O', ch 'R'], by decide⟩
def defaultSqlstate : CStr := ⟨[ch 'X', ch 'X', ch '0', ch '0', ch '0'], by decide⟩
def defaultMessage : CStr := ⟨[ch 'e', ch 'r', ch 'r', ch 'o', ch 'r'], by decide⟩

/-- `pqwire_send_error_response`. -/
def sendErrorResponse (severity sqlstate message : Option CStr) : Ctx × ℤ :=
  let fields := do
    let p ← putField (ch 'S') (severity.getD defaultSeverity) []
    let p ← putField (ch 'C') (sqlstate.getD defaultSqlstate) p
    putField (ch 'M') (message.getD defaultMessage) p
  match fields with
  | none => (c, -1)
  | some p => if p.length + 1 ≥ 512 then (c, -1) else c.emitMsg (ch 'E') (p ++ [0])

/-- `pqwire_send_parse_complete`. -/
def sendParseComplete : Ctx × ℤ := c.emitMsg (ch '1') []

/-- `pqwire_send_bind_complete`. -/
def sendBindComplete : Ctx × ℤ := c.emitMsg (ch '2') []

/-- `pqwire_send_close_complete`. -/
def sendCloseComplete : Ctx × ℤ := c.emitMsg (ch '3') []

/-- `pqwire_send_no_data`. -/
def sendNoData : Ctx × ℤ := c.emitMsg (ch 'n') []

end Ctx

/-! ## Lengths and values -/

/-- The length of value `i`; without an array every value is NULL. -/
def columnLength (lengths : Option (List Int32)) (i : ℕ) : Int32 := lengths.elim (-1) (·.getD i 0)

/-- What pointer `i` points to. -/
def columnValue (values : Option (List (Option Bytes))) (i : ℕ) : Option Bytes := values.bind (·.getD i none)

/-- Every positive length has a value. -/
def AllGiven (lengths : Option (List Int32)) (values : Option (List (Option Bytes))) (n : ℕ) : Prop :=
  ∀ i < n, 0 < (columnLength lengths i).toInt → columnValue values i ≠ none

instance (lengths : Option (List Int32)) (values : Option (List (Option Bytes))) (n : ℕ) :
    Decidable (AllGiven lengths values n) := by
  unfold AllGiven
  infer_instance

end Pqwire

import Pqwire.Lib.Scan
import Pqwire.Spec.Ctx

/-!
# Message parsers and `handle_message`

Each parser of the source is a pure reader of the body (`bindOf`, `parseOf`, ...),
written with the source's moving offset and its checks in the source's order,
followed by the enqueue. `base` is the offset of the body in the input buffer, for
the pointers that an event keeps into it. The loops
`for (i = 0; i < n && off + w <= body_len; i++)` recurse on the number of rounds left.
-/

namespace Pqwire

open ByteMem

/-- An ASCII character as a byte. -/
def ch (c : Char) : UInt8 := UInt8.ofNat c.toNat

/-- `(int16_t)v`. -/
def toI16 (v : ℕ) : Int16 := (UInt16.ofNat v).toInt16

/-- `(int32_t)v`. -/
def toI32 (v : ℕ) : Int32 := (UInt32.ofNat v).toInt32

/-- `copy_cstr` into an array of `sz` bytes. -/
def copyCstr (sz : ℕ) (s : CStr) : CStr := s.take (sz - 1)

/-! ## Startup -/

def keyUser : CStr := ⟨[ch 'u', ch 's', ch 'e', ch 'r'], by decide⟩

def keyDatabase : CStr :=
  ⟨[ch 'd', ch 'a', ch 't', ch 'a', ch 'b', ch 'a', ch 's', ch 'e'], by decide⟩

/-- The key/value loop of `parse_startup_body` from offset `off`, with the two scratch
strings; every round takes at least three bytes, so `body.length` rounds are enough. -/
def startupLoop (body : Bytes) : ℕ → ℕ → CStr → CStr → CStr × CStr
  | 0, _, user, db => (user, db)
  | n + 1, off, user, db =>
    if off + 1 < body.length then
      match readCstr (body.drop off) with
      | none => (user, db)
      | some (key, c1) =>
        -- an empty key ends the list
        if c1 ≤ 1 then (user, db)
        else
          let off := off + c1
          match readCstr (body.drop off) with
          | none => (user, db)
          | some (val, c2) =>
            let off := off + c2
            -- any other key is skipped with its value
            if key = keyUser then startupLoop body n off (copyCstr 128 val) db
            else if key = keyDatabase then startupLoop body n off user (copyCstr 128 val)
            else startupLoop body n off user db
    else (user, db)

/-- `parse_startup_body`: the body starts at the protocol version. -/
def parseStartupBody (c : Ctx) (body : Bytes) : Ctx :=
  let r := startupLoop body body.length 4 CStr.empty CStr.empty
  let c₁ := { c with userScratch := r.1, dbScratch := r.2 }
  let c₂ := { c₁.enqueueEvent .startup body with startupSeen := true }
  if c.role = .server then { c₂ with protoState := .authenticating } else c₂

/-! ## Frontend messages -/

/-- At most `n` 32-bit words from `off`. -/
def readOids (body : Bytes) : ℕ → ℕ → List UInt32
  | 0, _ => []
  | n + 1, off =>
    if off + 4 ≤ body.length then UInt32.ofNat (rd32Be body off) :: readOids body n (off + 4) else []

def parseOf (body : Bytes) : Option ParseMsg := do
  let (name, c) ← readCstr body
  let off := c
  let (query, c) ← readCstr (body.drop off)
  let off := off + c
  let stmt := copyCstr maxStmtName name
  let sql := copyCstr maxQueryLen query
  if off + 2 ≤ body.length then
    let n := min (rd16Be body off) maxParamTypes
    return ⟨stmt, sql, n, readOids body n (off + 2)⟩
  -- no room for a count: the cleared event says 0
  else return ⟨stmt, sql, 0, []⟩

/-- `parse_parse_msg`. -/
def parseParseMsg (c : Ctx) (body : Bytes) : Ctx :=
  match parseOf body with
  | none => c
  | some m => c.enqueueEvent (.parse m) body

/-- At most `n` format codes from `off`. -/
def readCodes (body : Bytes) : ℕ → ℕ → List Int16
  | 0, _ => []
  | n + 1, off =>
    if off + 2 ≤ body.length then toI16 (rd16Be body off) :: readCodes body n (off + 2) else []

/-- The format of parameter `i`: none given is text, one is shared, several are per index. -/
def formatFor (nFormats : ℕ) (formats : List Int16) (i : ℕ) : Int16 :=
  if nFormats = 0 then 0
  else if nFormats = 1 then formats.getD 0 0
  else if i < nFormats then formats.getD i 0 else 0

/-- The parameter loop of `parse_bind_msg`, from parameter `i` at offset `off`: the
views and the offset reached, or `none` for the `return` on an overlong value. -/
def readParams (base : ℕ) (body : Bytes) (fmt : ℕ → Int16) : ℕ → ℕ → ℕ → Option (List BindParamView × ℕ)
  | 0, _, off => some ([], off)
  | n + 1, i, off =>
    if off + 4 ≤ body.length then
      let plen := toI32 (rd32Be body off)
      let off := off + 4
      if plen.toInt < 0 then do
        let (vs, e) ← readParams base body fmt n (i + 1) off
        return (⟨plen, none, fmt i⟩ :: vs, e)
      -- a value that runs over the body gives the whole Bind up
      else if off + plen.toInt.toNat > body.length then none
      else do
        let (vs, e) ← readParams base body fmt n (i + 1) (off + plen.toInt.toNat)
        return (⟨plen, some (base + off), fmt i⟩ :: vs, e)
    -- the body ends before the count does: the slots left stay cleared
    else some ([], off)

def bindOf (base : ℕ) (body : Bytes) : Option BindMsg := do
  let (portal, c) ← readCstr body
  let off := c
  let (stmt, c) ← readCstr (body.drop off)
  let off := off + c
  if off + 2 > body.length then none
  let nFormats := min (rd16Be body off) maxBindParams
  let off := off + 2
  let formats := readCodes body nFormats off
  -- the loop has moved by what it stored, which may be less than was announced
  let off := off + 2 * formats.length
  if off + 2 > body.length then none
  let nParams := min (rd16Be body off) maxBindParams
  let off := off + 2
  let (params, off) ← readParams base body (formatFor nFormats formats) nParams 0 off
  let portal := copyCstr maxPortalName portal
  let stmt := copyCstr maxStmtName stmt
  if off + 2 ≤ body.length then
    let n := min (rd16Be body off) maxBindParams
    return ⟨portal, stmt, nFormats, formats, nParams, params, n, readCodes body n (off + 2), base, body.length⟩
  else return ⟨portal, stmt, nFormats, formats, nParams, params, 0, [], base, body.length⟩

/-- `parse_bind_msg`. -/
def parseBindMsg (c : Ctx) (base : ℕ) (body : Bytes) : Ctx :=
  match bindOf base body with
  | none => c
  | some b => c.enqueueEvent (.bind b) body

/-- The target byte and the name, empty where no terminator follows, as
`parse_describe_msg` and `parse_close_msg` both read them. -/
def targetName (body : Bytes) : Option (UInt8 × CStr) :=
  match body with
  | [] => none
  | t :: rest =>
    match readCstr rest with
    -- an event all the same, with the cleared name
    | none => some (t, CStr.empty)
    | some (name, _) => some (t, copyCstr maxStmtName name)

/-- `parse_describe_msg`. -/
def parseDescribeMsg (c : Ctx) (body : Bytes) : Ctx :=
  match targetName body with
  | none => c
  | some (t, name) => c.enqueueEvent (.describe ⟨t, name⟩) body

/-- `parse_close_msg`. -/
def parseCloseMsg (c : Ctx) (body : Bytes) : Ctx :=
  match targetName body with
  | none => c
  | some (t, name) => c.enqueueEvent (.close ⟨t, name⟩) body

def executeOf (body : Bytes) : Option ExecuteMsg := do
  let (portal, off) ← readCstr body
  let portal := copyCstr maxPortalName portal
  if off + 4 ≤ body.length then return ⟨portal, UInt32.ofNat (rd32Be body off)⟩
  else return ⟨portal, 0⟩

/-- `parse_execute_msg`. -/
def parseExecuteMsg (c : Ctx) (body : Bytes) : Ctx :=
  match executeOf body with
  | none => c
  | some m => c.enqueueEvent (.execute m) body

/-- The string that `parse_query_msg` and `parse_command_complete` copy into a scratch
array of `sz` bytes: empty when the body has no terminator. -/
def scratchStr (sz : ℕ) (body : Bytes) : CStr :=
  match readCstr body with
  | none => CStr.empty
  | some (s, _) => copyCstr sz s

/-- `parse_query_msg`. -/
def parseQueryMsg (c : Ctx) (body : Bytes) : Ctx :=
  let c₁ := { c with sqlScratch := scratchStr maxQueryLen body }
  { c₁.enqueueEvent .query body with protoState := .querying }

/-! ## Backend messages -/

/-- `atoi`: what `strtol` gives, 0 without a number, in the 32 bits of an `int`. -/
def atoi (s : CStr) : Int32 := Int32.ofInt (((CText.scanNumber s.bytes).map fun r => CText.strtol r.1 r.2).getD 0)

/-- The `switch (field)` of the two error-field parsers. -/
def PqError.setField (e : PqError) (field : UInt8) (val : CStr) : PqError :=
  if field = ch 'S' then { e with severity := copyCstr 32 val }
  else if field = ch 'C' then { e with code := copyCstr 8 val }
  else if field = ch 'M' then { e with message := copyCstr 256 val }
  else if field = ch 'D' then { e with detail := copyCstr 256 val }
  else if field = ch 'H' then { e with hint := copyCstr 256 val }
  else if field = ch 'P' then { e with position := atoi val }
  else e

/-- The field loop of the error parsers, on the bytes from the offset on; every round
takes at least two bytes. -/
def errorLoop : ℕ → Bytes → PqError → PqError
  | 0, _, e => e
  | _ + 1, [], e => e
  | n + 1, field :: rest, e =>
    -- the zero byte behind the last field
    if field = 0 then e
    else match readCstr rest with
      | none => e
      | some (val, c) => errorLoop n (rest.drop c) (e.setField field val)

/-- `parse_error_response`. -/
def parseErrorResponse (c : Ctx) (body : Bytes) : Ctx :=
  c.enqueueEvent (.errorResponse (errorLoop body.length body {})) body

/-- The column loop of `parse_row_description`: `i` columns are done, `off` is reached. -/
def rowDescLoop (body : Bytes) : ℕ → ℕ → ℕ → List ColDesc → List CStr → List ColDesc × List CStr × ℕ
  | 0, i, _, cols, names => (cols, names, i)
  | n + 1, i, off, cols, names =>
    if off < body.length then
      match readCstr (body.drop off) with
      | none => (cols, names, i)
      | some (name, c) =>
        let names := names.set i (copyCstr 64 name)
        let off := off + c
        -- `break` with the name already overwritten
        if off + 18 > body.length then (cols, names, i)
        else
          let desc : ColDesc :=
            ⟨some i, UInt32.ofNat (rd32Be body (off + 6)), toI16 (rd16Be body (off + 16))⟩
          rowDescLoop body n (i + 1) (off + 18) (cols.set i desc) names
    else (cols, names, i)

/-- `parse_row_description`. -/
def parseRowDescription (c : Ctx) (body : Bytes) : Ctx :=
  if body.length < 2 then c
  else
    let n := min (rd16Be body 0) maxRowColumns
    let r := rowDescLoop body n 0 2 c.colScratch c.colNameScratch
    { c with colScratch := r.1, colNameScratch := r.2.1 }.enqueueEvent (.rowDescription r.2.2) body

/-- The result of the column loop of `parse_data_row`. -/
structure RowParse where
  columns : List RowColumn
  arena : Bytes
  used : ℕ
  deriving DecidableEq

def RowParse.cons (col : RowColumn) (r : RowParse) : RowParse := { r with columns := col :: r.columns }

/-- The column loop of `parse_data_row` at offset `off`, with the arena and its fill mark. -/
def dataRowLoop (body : Bytes) : ℕ → ℕ → Bytes → ℕ → RowParse
  | 0, _, arena, used => ⟨[], arena, used⟩
  | n + 1, off, arena, used =>
    if off + 4 ≤ body.length then
      let plen := toI32 (rd32Be body off)
      let off := off + 4
      if plen.toInt < 0 then .cons { data := none, len := 0 } (dataRowLoop body n off arena used)
      else
        let need := plen.toInt.toNat
        -- `break`: the columns before this one are reported
        if off + need > body.length then ⟨[], arena, used⟩
        -- no room in the arena: the column is reported as NULL
        else if used + need > rowArenaSize then
          .cons { data := none, len := 0 } (dataRowLoop body n (off + need) arena used)
        else
          .cons { data := some used, len := need }
            (dataRowLoop body n (off + need) (blit arena used (slice body off need)) (used + need))
    else ⟨[], arena, used⟩

/-- `parse_data_row`. -/
def parseDataRow (c : Ctx) (body : Bytes) : Ctx :=
  if body.length < 2 then c
  else
    let r := dataRowLoop body (min (rd16Be body 0) maxRowColumns) 2 c.rowArena c.rowArenaUsed
    { c with rowArena := r.arena, rowArenaUsed := r.used }.enqueueEvent (.dataRow ⟨r.columns⟩) body

/-- `parse_command_complete`. -/
def parseCommandComplete (c : Ctx) (body : Bytes) : Ctx :=
  let c₁ := { c with tagScratch := scratchStr 64 body }
  { c₁.enqueueEvent .commandComplete body with protoState := .ready }

def notificationOf (body : Bytes) : Option Notification := do
  if body.length < 4 then none
  let (channel, n) ← readCstr (body.drop 4)
  -- a payload without terminator is taken for an empty one
  let payload := match readCstr (body.drop (4 + n)) with
    | none => CStr.empty
    | some (s, _) => s.take notifyPayloadMax
  return ⟨toI32 (rd32Be body 0), copyCstr 64 channel, payload⟩

/-- `parse_notification_response`. -/
def parseNotificationResponse (c : Ctx) (body : Bytes) : Ctx :=
  match notificationOf body with
  | none => c
  | some n => c.enqueueEvent (.notification n) body

/-! ## Dispatch -/

/-- The message types a server understands. -/
inductive FrontType where
  | query | parse | bind | describe | execute | close | sync | flush | terminate
  deriving DecidableEq, Repr

/-- The type byte of a frontend message. -/
def FrontType.byte : FrontType → UInt8
  | .query => ch 'Q'
  | .parse => ch 'P'
  | .bind => ch 'B'
  | .describe => ch 'D'
  | .execute => ch 'E'
  | .close => ch 'C'
  | .sync => ch 'S'
  | .flush => ch 'H'
  | .terminate => ch 'X'

def FrontType.all : List FrontType :=
  [.query, .parse, .bind, .describe, .execute, .close, .sync, .flush, .terminate]

/-- The message types a client understands. `BackendKeyData` is known and ignored. -/
inductive BackType where
  | authentication | readyForQuery | rowDescription | dataRow | commandComplete | errorResponse
  | parseComplete | bindComplete | closeComplete | noData | portalSuspended | parameterStatus
  | noticeResponse | notification | backendKeyData
  deriving DecidableEq, Repr

/-- The type byte of a backend message. -/
def BackType.byte : BackType → UInt8
  | .authentication => ch 'R'
  | .readyForQuery => ch 'Z'
  | .rowDescription => ch 'T'
  | .dataRow => ch 'D'
  | .commandComplete => ch 'C'
  | .errorResponse => ch 'E'
  | .parseComplete => ch '1'
  | .bindComplete => ch '2'
  | .closeComplete => ch '3'
  | .noData => ch 'n'
  | .portalSuspended => ch 's'
  | .parameterStatus => ch 'S'
  | .noticeResponse => ch 'N'
  | .notification => ch 'A'
  | .backendKeyData => ch 'K'

def BackType.all : List BackType :=
  [.authentication, .readyForQuery, .rowDescription, .dataRow, .commandComplete, .errorResponse,
    .parseComplete, .bindComplete, .closeComplete, .noData, .portalSuspended, .parameterStatus,
    .noticeResponse, .notification, .backendKeyData]

/-- The server half of `handle_message`: messages from the frontend. -/
def handleFrontend (c : Ctx) (base : ℕ) (body : Bytes) : FrontType → Ctx
  | .query => parseQueryMsg c body
  | .parse => parseParseMsg c body
  | .bind => parseBindMsg c base body
  | .describe => parseDescribeMsg c body
  | .execute => parseExecuteMsg c body
  | .close => parseCloseMsg c body
  | .sync => c.enqueueEvent .sync body
  | .flush => c.enqueueEvent .flush body
  | .terminate => c.enqueueEvent .terminate body

/-- The client half of `handle_message`: messages from the backend. -/
def handleBackend (c : Ctx) (base : ℕ) (body : Bytes) : BackType → Ctx
  | .authentication =>
    if 4 ≤ body.length ∧ rd32Be body 0 = 0 then
      { c.enqueueEvent .authenticationOk body with authState := .done }
    else c
  | .readyForQuery => { c.enqueueEvent .readyForQuery body with protoState := .ready }
  | .rowDescription => parseRowDescription c body
  | .dataRow => parseDataRow c body
  | .commandComplete => parseCommandComplete c body
  | .errorResponse => parseErrorResponse c body
  | .parseComplete => c.enqueueEvent .parseComplete body
  | .bindComplete => c.enqueueEvent .bindComplete body
  | .closeComplete => c.enqueueEvent .closeComplete body
  | .noData => c.enqueueEvent .noData body
  | .portalSuspended => c.enqueueEvent .portalSuspended body
  | .parameterStatus => c.enqueueEvent (.parameterStatus base body.length) body
  | .noticeResponse => c.enqueueEvent .noticeResponse body
  | .notification => parseNotificationResponse c body
  | .backendKeyData => c

/-- `handle_message`: a type the role does not know is ignored. -/
def handleMessage (c : Ctx) (type : UInt8) (base : ℕ) (body : Bytes) : Ctx :=
  match c.role with
  | .server => match FrontType.all.find? (·.byte = type) with
    | none => c
    | some t => handleFrontend c base body t
  | .client => match BackType.all.find? (·.byte = type) with
    | none => c
    | some t => handleBackend c base body t

end Pqwire

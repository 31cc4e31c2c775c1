import Pqwire.Lib.Access
import Pqwire.Spec.Feed

/-!
# The parsers with their memory accesses

The message parsers once more, as the source has them: byte by byte, through `body` and
`body_len`, with every read of the body and every access to a fixed array of the event or
the context. `body_len - off` is a subtraction of `size_t` and wraps. Nothing here checks a
bound that the source does not check.
-/

namespace Pqwire

open ByteMem CMem

/-- The fixed arrays that the parsers use: of the context, then of the event. The two
dimensions of `col_name_scratch` are `colNameScratch` and `colName`. -/
inductive FixedArray where
  | userScratch | dbScratch | sqlScratch | tagScratch
  | colScratch | colNameScratch | colName
  | rowArena
  | parseStatement | parseQuery | paramTypeOids
  | bindPortal | bindStatement | formats | params | resultFormats
  | describeName | executePortal | closeName
  | severity | code | message | detail | hint
  | rowData | rowLen | rowFormat | rowOid
  | channel | payload
  deriving DecidableEq

/-- The number of elements that the array is declared with. -/
def FixedArray.size : FixedArray → ℕ
  | .userScratch | .dbScratch => 128
  | .sqlScratch => maxQueryLen
  | .tagScratch => 64
  | .colScratch | .colNameScratch => maxRowColumns
  | .colName => 64
  | .rowArena => rowArenaSize
  | .parseStatement => maxStmtName
  | .parseQuery => maxQueryLen
  | .paramTypeOids => maxParamTypes
  | .bindPortal => maxPortalName
  | .bindStatement => maxStmtName
  | .formats | .params | .resultFormats => maxBindParams
  | .describeName => maxStmtName
  | .executePortal => maxPortalName
  | .closeName => maxStmtName
  | .severity => 32
  | .code => 8
  | .message | .detail | .hint => 256
  | .rowData | .rowLen | .rowFormat | .rowOid => maxRowColumns
  | .channel => 64
  | .payload => notifyPayloadMax + 1

namespace Mem

/-- A piece of a parser. -/
abbrev Prog := Traced (Access FixedArray)

/-- `a - b` in `size_t`. -/
def sizeSub (a b : ℕ) : ℕ := if b ≤ a then a - b else 2 ^ 64 + a - b

/-- `read_cstr (body + off, body_len - off, &c)`: `c`, or `none` for `NULL`. The string that it
returns is the one at `body + off`. -/
def readCstr (body : Bytes) (off : ℕ) : Prog (Option ℕ) := scan body off 0 (sizeSub body.length off)

/-- `copy_cstr (a, sizeof (a), body + src)`. -/
def copyCstr (body : Bytes) (a : FixedArray) (src : ℕ) : Prog CStr := do
  let written ← strncpy body a src 0 (a.size - 1)
  touch a (a.size - 1)
  return strOf (written ++ [0])

/-! ## Startup -/

def startupLoop (body : Bytes) : ℕ → ℕ → CStr → CStr → Prog (CStr × CStr)
  | 0, _, user, db => return (user, db)
  | n + 1, off, user, db => do
    if off + 1 < body.length then
      match ← readCstr body off with
      | none => return (user, db)
      | some c1 =>
        -- an empty key
        if c1 ≤ 1 then return (user, db)
        else
          match ← readCstr body (off + c1) with
          | none => return (user, db)
          | some c2 =>
            if ← strcmp body off keyUser.bytes then
              let user ← copyCstr body .userScratch (off + c1)
              startupLoop body n (off + c1 + c2) user db
            else if ← strcmp body off keyDatabase.bytes then
              let db ← copyCstr body .dbScratch (off + c1)
              startupLoop body n (off + c1 + c2) user db
            else startupLoop body n (off + c1 + c2) user db
    else return (user, db)

def parseStartupBody (c : Ctx) (body : Bytes) : Prog Ctx := do
  touch .userScratch 0
  touch .dbScratch 0
  let r ← startupLoop body body.length 4 CStr.empty CStr.empty
  let c₁ := { c with userScratch := r.1, dbScratch := r.2 }
  let c₂ := { c₁.enqueueEvent .startup body with startupSeen := true }
  return if c.role = .server then { c₂ with protoState := .authenticating } else c₂

/-! ## Frontend messages -/

/-- `param_type_oids[i]` and the `n - 1` after it, from `off`. -/
def readOids (body : Bytes) : ℕ → ℕ → ℕ → Prog (List UInt32)
  | 0, _, _ => return []
  | n + 1, i, off => do
    if off + 4 ≤ body.length then
      let v ← load32Be body off
      touch .paramTypeOids i
      return UInt32.ofNat v :: (← readOids body n (i + 1) (off + 4))
    else return []

def parseOf (body : Bytes) : Prog (Option ParseMsg) := do
  match ← readCstr body 0 with
  | none => return none
  | some c =>
    let stmt ← copyCstr body .parseStatement 0
    match ← readCstr body c with
    | none => return none
    | some c' =>
      let sql ← copyCstr body .parseQuery c
      let off := c + c'
      if off + 2 ≤ body.length then
        let n ← load16Be body off
        let n := min n maxParamTypes
        return some ⟨stmt, sql, n, ← readOids body n 0 (off + 2)⟩
      else return some ⟨stmt, sql, 0, []⟩

def parseParseMsg (c : Ctx) (body : Bytes) : Prog Ctx := do
  match ← parseOf body with
  | none => return c
  | some m => return c.enqueueEvent (.parse m) body

/-- `a[i]` and the `n - 1` after it, from `off`. -/
def readCodes (body : Bytes) (a : FixedArray) : ℕ → ℕ → ℕ → Prog (List Int16)
  | 0, _, _ => return []
  | n + 1, i, off => do
    if off + 2 ≤ body.length then
      let v ← load16Be body off
      touch a i
      return toI16 v :: (← readCodes body a n (i + 1) (off + 2))
    else return []

def formatFor (nFormats : ℕ) (formats : List Int16) (i : ℕ) : Prog Int16 := do
  if nFormats = 0 then return 0
  else if nFormats = 1 then
    touch .formats 0
    return formats.getD 0 0
  else if i < nFormats then
    touch .formats i
    return formats.getD i 0
  else return 0

def readParams (base : ℕ) (body : Bytes) (nFormats : ℕ) (formats : List Int16) :
    ℕ → ℕ → ℕ → Prog (Option (List BindParamView × ℕ))
  | 0, _, off => return some ([], off)
  | n + 1, i, off => do
    if off + 4 ≤ body.length then
      let v ← load32Be body off
      let plen := toI32 v
      touch .params i
      if plen.toInt < 0 then
        touch .params i
        let format ← formatFor nFormats formats i
        touch .params i
        match ← readParams base body nFormats formats n (i + 1) (off + 4) with
        | none => return none
        | some (vs, e) => return some (⟨plen, none, format⟩ :: vs, e)
      else if off + 4 + plen.toInt.toNat > body.length then return none
      else
        touch .params i
        let format ← formatFor nFormats formats i
        touch .params i
        match ← readParams base body nFormats formats n (i + 1) (off + 4 + plen.toInt.toNat) with
        | none => return none
        | some (vs, e) => return some (⟨plen, some (base + (off + 4)), format⟩ :: vs, e)
    else return some ([], off)

def bindOf (base : ℕ) (body : Bytes) : Prog (Option BindMsg) := do
  match ← readCstr body 0 with
  | none => return none
  | some c =>
    let portal ← copyCstr body .bindPortal 0
    match ← readCstr body c with
    | none => return none
    | some c' =>
      let stmt ← copyCstr body .bindStatement c
      let off := c + c'
      if off + 2 > body.length then return none
      else
        let n ← load16Be body off
        let nFormats := min n maxBindParams
        let formats ← readCodes body .formats nFormats 0 (off + 2)
        let off := off + 2 + 2 * formats.length
        if off + 2 > body.length then return none
        else
          let n ← load16Be body off
          let nParams := min n maxBindParams
          match ← readParams base body nFormats formats nParams 0 (off + 2) with
          | none => return none
          | some (params, off) =>
            if off + 2 ≤ body.length then
              let n ← load16Be body off
              let n := min n maxBindParams
              let results ← readCodes body .resultFormats n 0 (off + 2)
              return some ⟨portal, stmt, nFormats, formats, nParams, params, n, results, base, body.length⟩
            else return some ⟨portal, stmt, nFormats, formats, nParams, params, 0, [], base, body.length⟩

def parseBindMsg (c : Ctx) (base : ℕ) (body : Bytes) : Prog Ctx := do
  match ← bindOf base body with
  | none => return c
  | some b => return c.enqueueEvent (.bind b) body

/-- `parse_describe_msg` and `parse_close_msg`, with the array of the name. -/
def targetName (body : Bytes) (a : FixedArray) : Prog (Option (UInt8 × CStr)) := do
  if body.length < 1 then return none
  else
    -- `body_len - 1` cannot wrap here: the body has a byte
    let t ← load body 0
    match ← readCstr body 1 with
    | none => return some (t, CStr.empty)
    | some _ => return some (t, ← copyCstr body a 1)

def parseDescribeMsg (c : Ctx) (body : Bytes) : Prog Ctx := do
  match ← targetName body .describeName with
  | none => return c
  | some (t, name) => return c.enqueueEvent (.describe ⟨t, name⟩) body

def parseCloseMsg (c : Ctx) (body : Bytes) : Prog Ctx := do
  match ← targetName body .closeName with
  | none => return c
  | some (t, name) => return c.enqueueEvent (.close ⟨t, name⟩) body

def executeOf (body : Bytes) : Prog (Option ExecuteMsg) := do
  match ← readCstr body 0 with
  | none => return none
  | some off =>
    let portal ← copyCstr body .executePortal 0
    if off + 4 ≤ body.length then
      let v ← load32Be body off
      return some ⟨portal, UInt32.ofNat v⟩
    else return some ⟨portal, 0⟩

def parseExecuteMsg (c : Ctx) (body : Bytes) : Prog Ctx := do
  match ← executeOf body with
  | none => return c
  | some m => return c.enqueueEvent (.execute m) body

/-- The string of `parse_query_msg` and `parse_command_complete`, with the scratch array. -/
def scratchStr (a : FixedArray) (body : Bytes) : Prog CStr := do
  match ← readCstr body 0 with
  | none =>
    touch a 0
    return CStr.empty
  | some _ => copyCstr body a 0

def parseQueryMsg (c : Ctx) (body : Bytes) : Prog Ctx := do
  let sql ← scratchStr .sqlScratch body
  let c₁ := { c with sqlScratch := sql }
  return { c₁.enqueueEvent .query body with protoState := .querying }

/-! ## Backend messages -/

/-- The digits of `strtol` from `p` on. The rounds that a caller allows are one more than the body
has bytes, so that a run over its end shows. -/
def digits (body : Bytes) : ℕ → ℕ → ℕ → Prog ℕ
  | 0, acc, _ => return acc
  | n + 1, acc, p => do
    let b ← load body p
    if CText.isDigit b then digits body n (acc * 10 + (b.toNat - 48)) (p + 1) else return acc

/-- The white space of `strtol`: the offset behind it. -/
def skipSpace (body : Bytes) : ℕ → ℕ → Prog ℕ
  | 0, p => return p
  | n + 1, p => do
    let b ← load body p
    if CText.isSpace b then skipSpace body n (p + 1) else return p

/-- `atoi (body + val)`. -/
def atoi (body : Bytes) (val : ℕ) : Prog Int32 := do
  let p ← skipSpace body (body.length + 1) val
  let b ← load body p
  if b = ch '-' then
    let v ← digits body (body.length + 1) 0 (p + 1)
    return Int32.ofInt (CText.strtol true v)
  else if b = ch '+' then
    let v ← digits body (body.length + 1) 0 (p + 1)
    return Int32.ofInt (CText.strtol false v)
  else
    let v ← digits body (body.length + 1) 0 p
    return Int32.ofInt (CText.strtol false v)

/-- The `switch (field)` on the value at `body + val`. -/
def setField (body : Bytes) (e : PqError) (field : UInt8) (val : ℕ) : Prog PqError := do
  if field = ch 'S' then return { e with severity := ← copyCstr body .severity val }
  else if field = ch 'C' then return { e with code := ← copyCstr body .code val }
  else if field = ch 'M' then return { e with message := ← copyCstr body .message val }
  else if field = ch 'D' then return { e with detail := ← copyCstr body .detail val }
  else if field = ch 'H' then return { e with hint := ← copyCstr body .hint val }
  else if field = ch 'P' then return { e with position := ← atoi body val }
  else return e

def errorLoop (body : Bytes) : ℕ → ℕ → PqError → Prog PqError
  | 0, _, e => return e
  | n + 1, off, e => do
    if off < body.length then
      if (← load body off) = 0 then return e
      else
        -- `body[off++]` is a second read of the byte
        let field ← load body off
        match ← readCstr body (off + 1) with
        | none => return e
        | some c =>
          let e ← setField body e field (off + 1)
          errorLoop body n (off + 1 + c) e
    else return e

def parseErrorResponse (c : Ctx) (body : Bytes) : Prog Ctx := do
  let e ← errorLoop body body.length 0 {}
  return c.enqueueEvent (.errorResponse e) body

def rowDescLoop (body : Bytes) : ℕ → ℕ → ℕ → List ColDesc → List CStr → Prog (List ColDesc × List CStr × ℕ)
  | 0, i, _, cols, names => return (cols, names, i)
  | n + 1, i, off, cols, names => do
    if off < body.length then
      match ← readCstr body off with
      | none => return (cols, names, i)
      | some c =>
        -- `col_name_scratch[i]`, then the bytes of that row
        touch .colNameScratch i
        let name ← copyCstr body .colName off
        let names := names.set i name
        let off := off + c
        if off + 18 > body.length then return (cols, names, i)
        else
          touch .colScratch i
          let oid ← load32Be body (off + 6)
          let format ← load16Be body (off + 16)
          let desc : ColDesc := ⟨some i, UInt32.ofNat oid, toI16 format⟩
          rowDescLoop body n (i + 1) (off + 18) (cols.set i desc) names
    else return (cols, names, i)

def parseRowDescription (c : Ctx) (body : Bytes) : Prog Ctx := do
  if body.length < 2 then return c
  else
    let n ← load16Be body 0
    let r ← rowDescLoop body (min n maxRowColumns) 0 2 c.colScratch c.colNameScratch
    return { c with colScratch := r.1, colNameScratch := r.2.1 }.enqueueEvent (.rowDescription r.2.2) body

def dataRowLoop (body : Bytes) : ℕ → ℕ → ℕ → Bytes → ℕ → Prog RowParse
  | 0, _, _, arena, used => return ⟨[], arena, used⟩
  | n + 1, i, off, arena, used => do
    if off + 4 ≤ body.length then
      let v ← load32Be body off
      let plen := toI32 v
      if plen.toInt < 0 then
        touch .rowData i
        touch .rowLen i
        touch .rowFormat i
        touch .rowOid i
        return .cons { data := none, len := 0 } (← dataRowLoop body n (i + 1) (off + 4) arena used)
      else
        let need := plen.toInt.toNat
        if off + 4 + need > body.length then return ⟨[], arena, used⟩
        else if used + need > rowArenaSize then
          touch .rowData i
          touch .rowLen i
          touch .rowFormat i
          touch .rowOid i
          return .cons { data := none, len := 0 } (← dataRowLoop body n (i + 1) (off + 4 + need) arena used)
        else
          let copied ← memcpy body .rowArena used (off + 4) need
          touch .rowData i
          touch .rowLen i
          touch .rowFormat i
          touch .rowOid i
          return .cons { data := some used, len := need }
            (← dataRowLoop body n (i + 1) (off + 4 + need) (blit arena used copied) (used + need))
    else return ⟨[], arena, used⟩

def parseDataRow (c : Ctx) (body : Bytes) : Prog Ctx := do
  if body.length < 2 then return c
  else
    let n ← load16Be body 0
    let r ← dataRowLoop body (min n maxRowColumns) 0 2 c.rowArena c.rowArenaUsed
    return { c with rowArena := r.arena, rowArenaUsed := r.used }.enqueueEvent (.dataRow ⟨r.columns⟩) body

def parseCommandComplete (c : Ctx) (body : Bytes) : Prog Ctx := do
  let tag ← scratchStr .tagScratch body
  let c₁ := { c with tagScratch := tag }
  return { c₁.enqueueEvent .commandComplete body with protoState := .ready }

/-- `while (payload[plen] != 0 && plen < PQWIRE_NOTIFY_PAYLOAD_MAX) plen++`, with `n` rounds
before the limit; the byte is read first. -/
def payloadLen (body : Bytes) (p : ℕ) : ℕ → ℕ → Prog ℕ
  | 0, plen => do
    let _ ← load body (p + plen)
    return plen
  | n + 1, plen => do
    if (← load body (p + plen)) = 0 then return plen else payloadLen body p n (plen + 1)

def notificationOf (body : Bytes) : Prog (Option Notification) := do
  if body.length < 4 then return none
  else
    let pid ← load32Be body 0
    match ← readCstr body 4 with
    | none => return none
    | some n =>
      let channel ← copyCstr body .channel 4
      match ← readCstr body (4 + n) with
      | none =>
        -- `payload = ""`: nothing is read from the body
        touch .payload 0
        return some ⟨toI32 pid, channel, CStr.empty⟩
      | some _ =>
        let plen ← payloadLen body (4 + n) notifyPayloadMax 0
        let copied ← memcpy body .payload 0 (4 + n) plen
        touch .payload plen
        return some ⟨toI32 pid, channel, strOf (copied ++ [0])⟩

def parseNotificationResponse (c : Ctx) (body : Bytes) : Prog Ctx := do
  match ← notificationOf body with
  | none => return c
  | some n => return c.enqueueEvent (.notification n) body

/-! ## Dispatch -/

def handleFrontend (c : Ctx) (base : ℕ) (body : Bytes) : FrontType → Prog Ctx
  | .query => parseQueryMsg c body
  | .parse => parseParseMsg c body
  | .bind => parseBindMsg c base body
  | .describe => parseDescribeMsg c body
  | .execute => parseExecuteMsg c body
  | .close => parseCloseMsg c body
  | .sync => return c.enqueueEvent .sync body
  | .flush => return c.enqueueEvent .flush body
  | .terminate => return c.enqueueEvent .terminate body

def handleBackend (c : Ctx) (base : ℕ) (body : Bytes) : BackType → Prog Ctx
  | .authentication => do
    if 4 ≤ body.length then
      if (← load32Be body 0) = 0 then return { c.enqueueEvent .authenticationOk body with authState := .done }
      else return c
    else return c
  | .readyForQuery => return { c.enqueueEvent .readyForQuery body with protoState := .ready }
  | .rowDescription => parseRowDescription c body
  | .dataRow => parseDataRow c body
  | .commandComplete => parseCommandComplete c body
  | .errorResponse => parseErrorResponse c body
  | .parseComplete => return c.enqueueEvent .parseComplete body
  | .bindComplete => return c.enqueueEvent .bindComplete body
  | .closeComplete => return c.enqueueEvent .closeComplete body
  | .noData => return c.enqueueEvent .noData body
  | .portalSuspended => return c.enqueueEvent .portalSuspended body
  | .parameterStatus => return c.enqueueEvent (.parameterStatus base body.length) body
  | .noticeResponse => return c.enqueueEvent .noticeResponse body
  | .notification => parseNotificationResponse c body
  | .backendKeyData => return c

def handleMessage (c : Ctx) (type : UInt8) (base : ℕ) (body : Bytes) : Prog Ctx :=
  match c.role with
  | .server => match FrontType.all.find? (·.byte = type) with
    | none => return c
    | some t => handleFrontend c base body t
  | .client => match BackType.all.find? (·.byte = type) with
    | none => return c
    | some t => handleBackend c base body t

end Mem

/-! ## Calls of the parsers -/

/-- The slices that an event records lie inside the body, `len` bytes at `base` in the input
buffer, or inside the row arena; its columns are columns of `col_scratch`. -/
def Event.SlicesInside (base len : ℕ) : Event → Prop
  | .bind b => b.rawBody = base ∧ b.rawBodyLen = len ∧
      ∀ i p, (b.param i).data = some p → base ≤ p ∧ p + (b.param i).length.toInt.toNat ≤ base + len
  | .dataRow r => ∀ col ∈ r.columns, ∀ p, col.data = some p → p + col.len ≤ rowArenaSize
  | .rowDescription n => n ≤ maxRowColumns
  | .parameterStatus p n => base ≤ p ∧ p + n ≤ base + len
  | _ => True

/-- A call of `parse_startup_body` or of `handle_message`. -/
inductive ParserCall where
  | startup (body : Bytes)
  | message (type : UInt8) (body : Bytes)
  deriving DecidableEq

namespace ParserCall

def body : ParserCall → Bytes
  | .startup body => body
  | .message _ body => body

/-- Where the body lies in the input buffer. -/
def base : ParserCall → ℕ
  | .startup _ => 4
  | .message _ _ => 5

def run (c : Ctx) : ParserCall → Ctx
  | .startup body => parseStartupBody c body
  | .message type body => handleMessage c type 5 body

/-- The call with its accesses. -/
def prog (c : Ctx) : ParserCall → Mem.Prog Ctx
  | .startup body => Mem.parseStartupBody c body
  | .message type body => Mem.handleMessage c type 5 body

/-- **The call does not leave its frame**, a body of `len` bytes. -/
structure InFrame (c : Ctx) (call : ParserCall) (len : ℕ) : Prop where
  /-- the body is all there -/
  body : call.body.length = len
  /-- the accesses are those of the parser that returns the context left behind -/
  val : (call.prog c).val = call.run c
  /-- every byte read is below `body_len`, and every element of a fixed array exists -/
  access : ∀ a ∈ (call.prog c).log, a.InBounds FixedArray.size len
  /-- every slice of the events that it enqueues lies inside the body or the arena -/
  slices : ∀ q ∈ (call.run c).log.drop c.log.length, q.ev.SlicesInside call.base len

end ParserCall

/-- The round of the framing loop that starts in `c` makes the call, with `body_len = len`. -/
inductive Ctx.Calls (c : Ctx) : ParserCall → ℕ → Prop
  | startup {mlen : ℕ} : c.awaitsStartup = true → mlen = rd32Be c.inputBuf 0 → 8 ≤ mlen → mlen ≤ c.maxMessageSize →
      mlen ≤ c.inputLen → Calls c (.startup (slice c.inputBuf 4 (mlen - 4))) (mlen - 4)
  | message {mlen : ℕ} : c.awaitsStartup = false → mlen = rd32Be c.inputBuf 1 → 4 ≤ mlen → mlen ≤ c.maxMessageSize →
      1 + mlen ≤ c.inputLen → Calls c (.message (c.inputBuf.getD 0 0) (slice c.inputBuf 5 (mlen - 4))) (mlen - 4)

end Pqwire

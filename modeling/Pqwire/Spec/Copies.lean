import Pqwire.Spec.Access
import Pqwire.Spec.Pipeline
import Pqwire.Spec.Run
import Pqwire.Spec.Scram

/-!
# The public calls with their copies

The calls once more, with every `memcpy` and `memmove` that reads or writes the input buffer, the
output buffer or the row arena, and the capacity that the buffer has at that moment. A length
that the source computes by subtraction is a subtraction of `size_t` and wraps; sums do not, so
that the lengths of a call are taken to have no overflow. Nothing here checks a bound that the
source does not check.

Data that the caller hands in is the caller's memory, and the local buffers of the send helpers
are their own. The parsers that are not gone through here copy with `copy_cstr` or not at all.
-/

namespace Pqwire

open ByteMem

/-- The buffers of a context. -/
inductive Buffer where
  | inputBuf
  | outputBuf
  | rowArena
  deriving DecidableEq

/-- One side of a copy: `len` bytes from `off` on are read or written in a buffer of `cap` bytes. -/
structure Copy where
  buffer : Buffer
  off : ℕ
  len : ℕ
  cap : ℕ
  deriving DecidableEq

/-- Every index that is read or written is below the capacity. -/
def Copy.InCap (a : Copy) : Prop := ∀ i, a.off ≤ i → i < a.off + a.len → i < a.cap

/-- The capacity of a buffer. -/
def Buffer.cap (c : Ctx) : Buffer → ℕ
  | .inputBuf => c.inputCap
  | .outputBuf => c.outputCap
  | .rowArena => rowArenaSize

/-! ## SCRAM -/

/-- `scram_sha256_client_first`: `none` when it does not fit. -/
def clientFirst (s : ScramCtx) (outLen : ℕ) : Option CStr :=
  let text := Ctx.cat ⟨"n,,n=user,r=".toList.map ch, by decide⟩ s.clientNonce
  if text.length < outLen then some text else none

/-- `pqwire_start_auth`; `scram` says that the configuration asks for SCRAM and has a password. -/
def Ctx.startAuth (c : Ctx) (scram : Bool) (rand : ℕ → ℕ) : Ctx × ℤ :=
  if c.authState ≠ .none then (c, -1)
  else if c.role = .client ∧ scram then
    let c := { c with authState := .clientFirst }
    match clientFirst (scramSha256Init rand) 256 with
    | none => (c, 0)
    | some first => (c.appendOutput (ch 'p' :: wr32Be (4 + first.length + 1) ++ first.toBytes), 0)
  else (c, 0)

namespace Copies

/-- A piece of a call. -/
abbrev Prog := Traced Copy

/-- `len` bytes of the buffer from `off` on are read or written. -/
def touch (c : Ctx) (b : Buffer) (off len : ℕ) : Prog Unit := ⟨(), [⟨b, off, len, b.cap c⟩]⟩

/-- `memmove (b, b + src, len)`. -/
def moveDown (c : Ctx) (b : Buffer) (src len : ℕ) : Prog Unit := do
  touch c b src len
  touch c b 0 len

/-! ## Output -/

def appendOutput (c : Ctx) (data : Bytes) : Prog Ctx :=
  match c.ensureOutput data.length with
  | none => return c.allocated
  | some c' => do
    touch c' .outputBuf c'.output.length data.length
    return { c' with output := c'.output ++ data }

def emitMsg (c : Ctx) (type : UInt8) (payload : Bytes) : Prog (Ctx × ℤ) := do
  let c₁ ← appendOutput c (Ctx.msgHeader type payload.length)
  if payload = [] then return (c₁, 0) else return (← appendOutput c₁ payload, 0)

def getOutput (c : Ctx) (maxLen : ℕ) : Prog (Bytes × Ctx) := do
  if maxLen = 0 then return ([], c)
  else
    let toCopy := min c.output.length maxLen
    touch c .outputBuf 0 toCopy
    moveDown c .outputBuf toCopy (Mem.sizeSub c.output.length toCopy)
    return (c.output.take toCopy, { c with output := c.output.drop toCopy })

def startAuth (c : Ctx) (scram : Bool) (rand : ℕ → ℕ) : Prog (Ctx × ℤ) := do
  if c.authState ≠ .none then return (c, -1)
  else if c.role = .client ∧ scram then
    let c := { c with authState := .clientFirst }
    match clientFirst (scramSha256Init rand) 256 with
    | none => return (c, 0)
    | some first => return (← appendOutput c (ch 'p' :: wr32Be (4 + first.length + 1) ++ first.toBytes), 0)
  else return (c, 0)

/-! ## Parsers -/

/-- The column loop of `parse_data_row`; `base` is where the body lies in the input buffer. -/
def dataRowLoop (c : Ctx) (base : ℕ) (body : Bytes) : ℕ → ℕ → Bytes → ℕ → Prog RowParse
  | 0, _, arena, used => return ⟨[], arena, used⟩
  | n + 1, off, arena, used => do
    if off + 4 ≤ body.length then
      let plen := toI32 (rd32Be body off)
      let off := off + 4
      if plen.toInt < 0 then return .cons { data := none, len := 0 } (← dataRowLoop c base body n off arena used)
      else
        let need := plen.toInt.toNat
        if off + need > body.length then return ⟨[], arena, used⟩
        else if used + need > rowArenaSize then
          return .cons { data := none, len := 0 } (← dataRowLoop c base body n (off + need) arena used)
        else
          touch c .inputBuf (base + off) need
          touch c .rowArena used need
          return .cons { data := some used, len := need }
            (← dataRowLoop c base body n (off + need) (blit arena used (slice body off need)) (used + need))
    else return ⟨[], arena, used⟩

def parseDataRow (c : Ctx) (base : ℕ) (body : Bytes) : Prog Ctx := do
  if body.length < 2 then return c
  else
    let r ← dataRowLoop c base body (min (rd16Be body 0) maxRowColumns) 2 c.rowArena c.rowArenaUsed
    return { c with rowArena := r.arena, rowArenaUsed := r.used }.enqueueEvent (.dataRow ⟨r.columns⟩) body

/-- The copy of a payload into the event, which `parse_notification_response` makes. -/
def copyPayload (c : Ctx) (base : ℕ) (body : Bytes) : Prog Unit :=
  if body.length < 4 then return ()
  else
    match readCstr (body.drop 4) with
    | none => return ()
    | some (_, n) =>
      match readCstr (body.drop (4 + n)) with
      -- `payload = ""` is not in the input buffer
      | none => return ()
      | some (payload, _) => touch c .inputBuf (base + 4 + n) (payload.take notifyPayloadMax).length

def parseNotificationResponse (c : Ctx) (base : ℕ) (body : Bytes) : Prog Ctx := do
  copyPayload c base body
  return Pqwire.parseNotificationResponse c body

def handleBackend (c : Ctx) (base : ℕ) (body : Bytes) : BackType → Prog Ctx
  | .dataRow => parseDataRow c base body
  | .notification => parseNotificationResponse c base body
  | t => return Pqwire.handleBackend c base body t

def handleMessage (c : Ctx) (type : UInt8) (base : ℕ) (body : Bytes) : Prog Ctx :=
  match c.role with
  | .server => return Pqwire.handleMessage c type base body
  | .client => match BackType.all.find? (·.byte = type) with
    | none => return c
    | some t => handleBackend c base body t

/-! ## The framing loop -/

def acceptInput (c : Ctx) (data : Bytes) : Prog (Option Ctx) :=
  if c.inputLen + data.length > c.inputCap then
    if c.allocOk then do
      let c := { c.allocated with inputCap := c.inputLen + data.length + 1024 }
      touch c .inputBuf c.inputLen data.length
      return some { c with inputBuf := blit c.inputBuf c.inputLen data, inputLen := c.inputLen + data.length }
    else return none
  else do
    touch c .inputBuf c.inputLen data.length
    return some { c with inputBuf := blit c.inputBuf c.inputLen data, inputLen := c.inputLen + data.length }

def consume (c : Ctx) (n : ℕ) : Prog Ctx := do
  moveDown c .inputBuf n (Mem.sizeSub c.inputLen n)
  return c.consume n

def startupStep (c : Ctx) : Prog Round :=
  if c.inputLen < 4 then return .stop c
  else
    let mlen := rd32Be c.inputBuf 0
    if mlen < 8 ∨ mlen > c.maxMessageSize then return .stop { c.enqueueEvent .protocolError [] with inputLen := 0 }
    else if c.inputLen < mlen then return .stop c
    else return .again (← consume (parseStartupBody c (slice c.inputBuf 4 (mlen - 4))) mlen)

def rejectFrame (c : Ctx) (mlen : ℕ) : Prog Ctx := do
  let c₁ := c.enqueueEvent .protocolError []
  if mlen > 0 ∧ c.inputLen ≥ mlen + 1 then
    moveDown c₁ .inputBuf (1 + mlen) (Mem.sizeSub (Mem.sizeSub c.inputLen 1) mlen)
    return { c₁ with
      inputBuf := shiftDown c.inputBuf (1 + mlen) (c.inputLen - 1 - mlen)
      inputLen := c.inputLen - (1 + mlen) % 2 ^ 32 }
  else return { c₁ with inputLen := 0 }

def typedStep (c : Ctx) : Prog Round :=
  if c.inputLen < 5 then return .stop c
  else
    let type := c.inputBuf.getD 0 0
    let mlen := rd32Be c.inputBuf 1
    if mlen < 4 ∨ mlen > c.maxMessageSize then return .again (← rejectFrame c mlen)
    else
      let total := 1 + mlen
      if c.inputLen < total then return .stop c
      else do
        let c' ← handleMessage c type 5 (slice c.inputBuf 5 (mlen - 4))
        return .again (← consume c' total)

def feedStep (c : Ctx) : Prog Round := if c.awaitsStartup then startupStep c else typedStep c

/-- The copies of the first `fuel` rounds are there whether the loop has returned by then or not. -/
def feedLoop : ℕ → Ctx → Prog (Option Ctx)
  | 0, _ => return none
  | fuel + 1, c => do
    match ← feedStep c with
    | .stop c' => return some c'
    | .again c' => feedLoop fuel c'

def feedInput (fuel : ℕ) (c : Ctx) (data : Bytes) : Prog (Option (Ctx × ℕ)) := do
  match ← acceptInput c data with
  | none => return some (c.allocated, 0)
  | some c₁ => return (← feedLoop fuel c₁).map fun c' => (c', data.length)

def pipelineFeedBackendMsg (fuel : ℕ) (c : Ctx) (st : PipelineStatus) (msg : Bytes) :
    Prog (Option (Ctx × PipelineStatus × ℤ)) :=
  if msg.length = 0 then return some (c, st, -1)
  else
    match pipelineObserveMsg st msg with
    | (st, rfq) =>
      if rfq < 0 then return some (c, st, -1)
      else do
        match ← feedInput fuel c msg with
        | none => return none
        | some (c, _) =>
          return (Ctx.drainEvents fuel c).map fun c => (if rfq = 1 then noteReady c else c, st, 0)

/-! ## Send helpers -/

def sendStartup (c : Ctx) (user database : Option CStr) : Prog (Ctx × ℤ) := do
  if c.role ≠ .client then return (c, -1)
  else
    let user := user.getD CStr.empty
    let database := database.getD CStr.empty
    let p := 4 + 4 + 5
    let ulen := user.length + 1
    if p + ulen ≥ 512 then return (c, -1)
    else
      let p := p + ulen + 9
      let dlen := database.length + 1
      if p + dlen + 1 ≥ 512 then return (c, -1)
      else
        let p := p + dlen + 1
        return (← appendOutput c (wr32Be p ++ wr32Be Ctx.proto30 ++ keyUser.toBytes ++ user.toBytes ++
          keyDatabase.toBytes ++ database.toBytes ++ [0]), 0)

def sendQuery (c : Ctx) (sql : Option CStr) : Prog (Ctx × ℤ) :=
  match sql with
  | none => return (c, -1)
  | some sql => emitMsg c (ch 'Q') sql.toBytes

def sendCall (c : Ctx) (procedure : Option CStr) : Prog (Ctx × ℤ) :=
  match procedure with
  | none => return (c, -1)
  | some pr => sendQuery c (some (copyCstr 512 (Ctx.cat Ctx.callPrefix pr)))

def sendParse (c : Ctx) (statement query : Option CStr) (oids : Option (List UInt32)) (n : UInt16) : Prog (Ctx × ℤ) :=
  match query with
  | none => return (c, -1)
  | some query =>
    let statement := statement.getD CStr.empty
    if (statement.length + 1) + (query.length + 1) + 2 + n.toNat * 4 > maxQueryLen + 256 then return (c, -1)
    else
      emitMsg c (ch 'P') (statement.toBytes ++ query.toBytes ++ wr16Be n.toNat ++
        (List.range n.toNat).flatMap fun i => wr32Be (oids.elim 0 (·.getD i 0)).toNat)

/-- The parameter loop fills the heap buffer and allocates; it copies nothing of the context. -/
def sendBind (c : Ctx) (portal statement : Option CStr) (formats : Option (List Int16)) (nFormats : UInt16)
    (lengths : Option (List Int32)) (values : Option (List (Option Bytes))) (nParams : UInt16)
    (resultFormats : Option (List Int16)) (nResultFormats : UInt16) : Prog (Ctx × ℤ) :=
  let cap := 64 + nParams.toNat * 256
  if ¬c.allocOk then return (c.allocated, -1)
  else
    let c := c.allocated
    let p := (portal.getD CStr.empty).toBytes ++ (statement.getD CStr.empty).toBytes
    if p.length > cap then return (c, -1)
    else if p.length + 2 + nFormats.toNat * 2 > cap then return (c, -1)
    else
      let p := p ++ wr16Be nFormats.toNat ++ Ctx.codeBytes formats nFormats.toNat
      if p.length + 2 > cap then return (c, -1)
      else
        match Ctx.bindParamLoop lengths values nParams.toNat 0 c (p ++ wr16Be nParams.toNat) cap with
        | (c, none) => return (c, -1)
        | (c, some (p, cap)) =>
          if p.length + 2 + nResultFormats.toNat * 2 > cap then return (c, -1)
          else
            emitMsg c (ch 'B')
              (p ++ wr16Be nResultFormats.toNat ++ Ctx.codeBytes resultFormats nResultFormats.toNat)

def sendBindParams (c : Ctx) (portal statement : Option CStr) (params : Option (List Param))
    (nParams : UInt16) (resultFormats : Option (List Int16)) (nResultFormats : UInt16) : Prog (Ctx × ℤ) :=
  if params = none ∧ nParams.toNat > 0 then return (c, -1)
  else if nParams.toNat > maxBindParams then return (c, -1)
  else
    let ps := (params.getD []).take nParams.toNat
    sendBind c portal statement (some (ps.map (·.format))) nParams (some (ps.map (·.length)))
      (some (ps.map (·.data))) nParams resultFormats nResultFormats

def sendBindRewriteIdentity (c : Ctx) (mem : Bytes) (b : BindMsg) (portal statement : Option CStr)
    (slot : UInt16) (identity : CStr) (asBinary : Bool) : Prog (Ctx × ℤ) :=
  match bindRewriteIdentityZerocopy mem b portal statement slot identity asBinary 8192 with
  | none => return (c, -1)
  | some out => return (← appendOutput c out, 0)

def sendTarget (c : Ctx) (type target : UInt8) (name : Option CStr) : Prog (Ctx × ℤ) :=
  let name := name.getD CStr.empty
  if 1 + (name.length + 1) > maxStmtName + 2 then return (c, -1)
  else emitMsg c type (target :: name.toBytes)

def sendExecute (c : Ctx) (portal : Option CStr) (maxRows : UInt32) : Prog (Ctx × ℤ) :=
  let portal := portal.getD CStr.empty
  if (portal.length + 1) + 4 > maxPortalName + 8 then return (c, -1)
  else emitMsg c (ch 'E') (portal.toBytes ++ wr32Be maxRows.toNat)

def sendUnnamedPipeline (c : Ctx) (query : Option CStr) (oids : Option (List UInt32)) (nOids : UInt16)
    (formats : Option (List Int16)) (nFormats : UInt16)
    (lengths : Option (List Int32)) (values : Option (List (Option Bytes))) (nParams : UInt16)
    (resultFormats : Option (List Int16)) (nResultFormats : UInt16) (maxRows : UInt32) : Prog (Ctx × ℤ) := do
  let r₁ ← sendParse c (some CStr.empty) query oids nOids
  if r₁.2 ≠ 0 then return (r₁.1, -1)
  else
    let r₂ ← sendBind r₁.1 (some CStr.empty) (some CStr.empty) formats nFormats lengths values nParams
      resultFormats nResultFormats
    if r₂.2 ≠ 0 then return (r₂.1, -1)
    else
      let r₃ ← sendExecute r₂.1 (some CStr.empty) maxRows
      if r₃.2 ≠ 0 then return (r₃.1, -1) else emitMsg r₃.1 (ch 'S') []

def sendRowDescription (c : Ctx) (cols : Option (List Ctx.ColumnArg)) : Prog (Ctx × ℤ) :=
  match cols with
  | none => return (c, -1)
  | some cols =>
    let cols := cols.take maxRowColumns
    match Ctx.rowDescCols cols (wr16Be cols.length) with
    | none => return (c, -1)
    | some p => emitMsg c (ch 'T') p

def sendDataRow (c : Ctx) (data : Option Bytes) : Prog (Ctx × ℤ) :=
  match data with
  | none => emitMsg c (ch 'D') (wr16Be 1 ++ wr32Be (2 ^ 32 - 1))
  | some d =>
    if 2 + 4 + d.length > 4096 then return (c, -1)
    else emitMsg c (ch 'D') (wr16Be 1 ++ wr32Be d.length ++ d)

def sendDataRowMulti (c : Ctx) (lengths : Option (List Int32)) (values : Option (List (Option Bytes)))
    (nCols : UInt16) : Prog (Ctx × ℤ) :=
  if ¬c.allocOk then return (c.allocated, -1)
  else
    match Ctx.dataRowCols lengths values nCols.toNat 0 c.allocated (wr16Be nCols.toNat) (64 + nCols.toNat * 256) with
    | (c, none) => return (c, -1)
    | (c, some p) => emitMsg c (ch 'D') p

def sendCommandComplete (c : Ctx) (tag : Option CStr) : Prog (Ctx × ℤ) :=
  match tag with
  | none => return (c, -1)
  | some tag => emitMsg c (ch 'C') tag.toBytes

def sendErrorResponse (c : Ctx) (severity sqlstate message : Option CStr) : Prog (Ctx × ℤ) :=
  let fields := do
    let p ← Ctx.putField (ch 'S') (severity.getD Ctx.defaultSeverity) []
    let p ← Ctx.putField (ch 'C') (sqlstate.getD Ctx.defaultSqlstate) p
    Ctx.putField (ch 'M') (message.getD Ctx.defaultMessage) p
  match fields with
  | none => return (c, -1)
  | some p => if p.length + 1 ≥ 512 then return (c, -1) else emitMsg c (ch 'E') (p ++ [0])

/-- A call of a send helper. -/
def send (c : Ctx) : Send → Prog (Ctx × ℤ)
  | .startup u d => sendStartup c u d
  | .query s => sendQuery c s
  | .call p => sendCall c p
  | .terminate => emitMsg c (ch 'X') []
  | .parse s q o n => sendParse c s q o n
  | .bind p s f nf l v n r nr => sendBind c p s f nf l v n r nr
  | .bindParams p s ps n r nr => sendBindParams c p s ps n r nr
  | .bindRewriteIdentity mem b p s slot i bin => sendBindRewriteIdentity c mem b p s slot i bin
  | .describe t n => sendTarget c (ch 'D') t n
  | .execute p m => sendExecute c p m
  | .close t n => sendTarget c (ch 'C') t n
  | .sync => emitMsg c (ch 'S') []
  | .flush => emitMsg c (ch 'H') []
  | .unnamedPipeline q o no f nf l v n r nr m => sendUnnamedPipeline c q o no f nf l v n r nr m
  | .authOk => emitMsg c (ch 'R') (wr32Be 0)
  | .readyForQuery => emitMsg { c with protoState := .ready } (ch 'Z') [ch 'I']
  | .rowDescription cols => sendRowDescription c cols
  | .dataRow d _ _ => sendDataRow c d
  | .dataRowMulti l v n => sendDataRowMulti c l v n
  | .commandComplete t => sendCommandComplete c t
  | .errorResponse s q m => sendErrorResponse c s q m
  | .parseComplete => emitMsg c (ch '1') []
  | .bindComplete => emitMsg c (ch '2') []
  | .closeComplete => emitMsg c (ch '3') []
  | .noData => emitMsg c (ch 'n') []

end Copies

/-! ## Calls -/

/-- A public call on a context, those of authentication and of the pipeline included. `fuel` bounds
the rounds of the loops in it. -/
inductive CtxCall where
  | feedInput (fuel : ℕ) (data : Bytes)
  | getOutput (maxLen : ℕ)
  | nextEvent
  | send (s : Send)
  | startAuth (scram : Bool) (rand : ℕ → ℕ)
  | reset
  | noteReady
  | pipelineFeed (fuel : ℕ) (st : PipelineStatus) (msg : Bytes)

namespace CtxCall

/-- The context that the call leaves; `none` when a loop has not ended after `fuel` rounds. -/
def result (c : Ctx) : CtxCall → Option Ctx
  | feedInput fuel data => (c.feedInput fuel data).map (·.1)
  | getOutput maxLen => some (c.getOutput maxLen).2
  | nextEvent => some ((c.nextEvent.map (·.2)).getD c)
  | send s => some (s.run c).1
  | startAuth scram rand => some (c.startAuth scram rand).1
  | reset => some (Pqwire.reset c)
  | noteReady => some (Pqwire.noteReady c)
  | pipelineFeed fuel st msg => (Ctx.pipelineFeedBackendMsg fuel c st msg).map (·.1)

/-- The call with its copies. -/
def prog (c : Ctx) : CtxCall → Copies.Prog (Option Ctx)
  | feedInput fuel data => return (← Copies.feedInput fuel c data).map (·.1)
  | getOutput maxLen => return some (← Copies.getOutput c maxLen).2
  | nextEvent => return some ((c.nextEvent.map (·.2)).getD c)
  | send s => return some (← Copies.send c s).1
  | startAuth scram rand => return some (← Copies.startAuth c scram rand).1
  | reset => return some (Pqwire.reset c)
  | noteReady => return some (Pqwire.noteReady c)
  | pipelineFeed fuel st msg => return (← Copies.pipelineFeedBackendMsg fuel c st msg).map (·.1)

end CtxCall

/-- Some sequence of public calls that return leads from creation to the context. -/
inductive Called : Ctx → Prop
  | create {role : Role} {config : Config} {allocs : List Bool} {c : Ctx} :
      createWithConfig role config allocs = some c → Called c
  | call {c c' : Ctx} (call : CtxCall) : Called c → call.result c = some c' → Called c'

end Pqwire

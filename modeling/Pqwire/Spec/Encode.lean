import Pqwire.Lib.Stores
import Pqwire.Spec.Rewrite

/-!
# The encoders with their stores

The helpers that encode into a buffer of fixed size once more, as the source has them: each
store at its index, in order, with the checks where they stand, also on the way to a return of
-1. The cursor is `p`; sums of `size_t` are taken modulo `2 ^ 64`. What the buffer holds before
is unknown.

The result is the cursor at the end, `none` for a return of -1.
-/

namespace Pqwire

open ByteMem CMem

namespace Local

/-- `a + b` in `size_t`. -/
def sizeAdd (a b : ℕ) : ℕ := (a + b) % 2 ^ 64

/-- `pqwire_send_startup`. -/
def sendStartup (role : Role) (user database : Option CStr) : Filler ℕ := do
  if role ≠ .client then failure
  else
    let user := user.getD CStr.empty
    let database := database.getD CStr.empty
    store 4 (wr32Be Ctx.proto30)
    store 8 keyUser.toBytes
    let p := 13
    let ulen := sizeAdd user.length 1
    if sizeAdd p ulen ≥ 512 then failure
    else
      store p user.toBytes
      let p := sizeAdd p ulen
      -- only what follows the key is checked
      store p keyDatabase.toBytes
      let p := sizeAdd p 9
      let dlen := sizeAdd database.length 1
      if sizeAdd (sizeAdd p dlen) 1 ≥ 512 then failure
      else
        store p database.toBytes
        let p := sizeAdd p dlen
        store p [0]
        let p := sizeAdd p 1
        store 0 (wr32Be p)
        return p

/-- The loop of `pqwire_send_parse` over the parameter types, from type `i`. -/
def oidLoop (oids : Option (List UInt32)) : ℕ → ℕ → ℕ → Filler ℕ
  | 0, _, p => return p
  | n + 1, i, p => do
    store p (wr32Be (oids.elim 0 (·.getD i 0)).toNat)
    oidLoop oids n (i + 1) (sizeAdd p 4)

/-- `pqwire_send_parse`. -/
def sendParse (statement query : Option CStr) (oids : Option (List UInt32)) (n : UInt16) : Filler ℕ :=
  match query with
  | none => failure
  | some query => do
    let statement := statement.getD CStr.empty
    let nlen := sizeAdd statement.length 1
    let qlen := sizeAdd query.length 1
    if sizeAdd (sizeAdd (sizeAdd nlen qlen) 2) (n.toNat * 4) > maxQueryLen + 256 then failure
    else
      store 0 statement.toBytes
      let p := nlen
      store p query.toBytes
      let p := sizeAdd p qlen
      store p (wr16Be n.toNat)
      oidLoop oids n.toNat 0 (sizeAdd p 2)

/-- `pqwire_send_describe` and `pqwire_send_close`. -/
def sendTarget (target : UInt8) (name : Option CStr) : Filler ℕ := do
  let name := name.getD CStr.empty
  let nlen := sizeAdd name.length 1
  if sizeAdd 1 nlen > maxStmtName + 2 then failure
  else
    store 0 [target]
    store 1 name.toBytes
    return sizeAdd 1 nlen

/-- `pqwire_send_execute`. -/
def sendExecute (portal : Option CStr) (maxRows : UInt32) : Filler ℕ := do
  let portal := portal.getD CStr.empty
  let nlen := sizeAdd portal.length 1
  if sizeAdd nlen 4 > maxPortalName + 8 then failure
  else
    store 0 portal.toBytes
    store nlen (wr32Be maxRows.toNat)
    return sizeAdd nlen 4

/-- The column loop of `pqwire_send_row_description`. -/
def rowDescCols : List Ctx.ColumnArg → ℕ → Filler ℕ
  | [], p => return p
  | col :: cols, p => do
    let name := col.name.getD CStr.empty
    let nlen := sizeAdd name.length 1
    if sizeAdd (sizeAdd p nlen) 18 > 2048 then failure
    else
      store p name.toBytes
      let p := sizeAdd p nlen
      store p (wr32Be 0)
      store (sizeAdd p 4) (wr16Be 0)
      store (sizeAdd p 6) (wr32Be col.oid.toNat)
      store (sizeAdd p 10) (wr16Be 4)
      store (sizeAdd p 12) (wr32Be (2 ^ 32 - 1))
      store (sizeAdd p 16) (wr16Be col.format.toUInt16.toNat)
      rowDescCols cols (sizeAdd p 18)

/-- `pqwire_send_row_description`. -/
def sendRowDescription (cols : Option (List Ctx.ColumnArg)) : Filler ℕ :=
  match cols with
  | none => failure
  | some cols => do
    let cols := cols.take maxRowColumns
    store 0 (wr16Be cols.length)
    rowDescCols cols 2

/-- `pqwire_send_data_row`; `len` is the length of the list. -/
def sendDataRow (data : Option Bytes) : Filler ℕ := do
  store 0 (wr16Be 1)
  match data with
  | none =>
    store 2 (wr32Be (2 ^ 32 - 1))
    return 6
  | some d =>
    if sizeAdd 6 d.length > 4096 then failure
    else
      store 2 (wr32Be d.length)
      store 6 d
      return sizeAdd 6 d.length

/-- `PUT_FIELD` of `pqwire_send_error_response`. -/
def putField (code : UInt8) (s : CStr) (p : ℕ) : Filler ℕ := do
  let l := sizeAdd s.length 1
  if sizeAdd (sizeAdd p 1) l ≥ 512 then failure
  else
    store p [code]
    let p := sizeAdd p 1
    store p s.toBytes
    return sizeAdd p l

/-- `pqwire_send_error_response`. -/
def sendErrorResponse (severity sqlstate message : Option CStr) : Filler ℕ := do
  let p ← putField (ch 'S') (severity.getD Ctx.defaultSeverity) 0
  let p ← putField (ch 'C') (sqlstate.getD Ctx.defaultSqlstate) p
  let p ← putField (ch 'M') (message.getD Ctx.defaultMessage) p
  if sizeAdd p 1 ≥ 512 then failure
  else
    store p [0]
    return sizeAdd p 1

/-! ## The rewrite -/

/-- `PUT_BYTES`, `PUT_U16` and `PUT_U32`, at the cursor `p`. What is added up here are the lengths
of objects in memory, so that the sum does not wrap. -/
def put (cap : ℕ) (p : ℕ) (bs : Bytes) : Filler ℕ := do
  if p + bs.length > cap then failure
  else
    store p bs
    return p + bs.length

/-- A loop of such. -/
def putAll (cap : ℕ) (p : ℕ) (chunks : List Bytes) : Filler ℕ := chunks.foldlM (put cap) p

/-- `pqwire_bind_rewrite_identity_zerocopy` up to `*out_len = p`. The estimate that it makes
first decides nothing. -/
def bindRewriteIdentityZerocopy (mem : Bytes) (b : BindMsg) (portal statement : Option CStr) (slot : UInt16)
    (identity : CStr) (asBinary : Bool) (outCap : ℕ) : Filler ℕ := do
  if b.nParams = 0 ∨ slot.toNat ≥ b.nParams then failure
  else if 5 > outCap then failure
  else
    let p ← put outCap 5 (portal.getD CStr.empty).toBytes
    let p ← put outCap p (statement.getD CStr.empty).toBytes
    let p ← put outCap p (wr16Be b.nParams)
    let p ← putAll outCap p ((List.range b.nParams).map fun i =>
      wr16Be (rewriteFormat b slot.toNat asBinary i).toUInt16.toNat)
    let p ← put outCap p (wr16Be b.nParams)
    let p ← putAll outCap p ((List.range b.nParams).flatMap (rewriteParam mem b slot.toNat identity))
    let p ← put outCap p (wr16Be b.nResultFormats)
    let p ← putAll outCap p ((List.range b.nResultFormats).map fun i =>
      wr16Be (b.resultFormat i).toUInt16.toNat)
    -- the header goes into the room left in front
    store 0 [ch 'B']
    store 1 (wr32Be (p - 1))
    return p

end Local

/-- What a caller of the rewrite sees: the value returned, `*out_len`, and the stores into `out`. -/
structure RewriteCall where
  rc : ℤ
  outLen : ℕ
  stores : List Store

/-- `pqwire_bind_rewrite_identity_zerocopy`; `outLen` is what `*out_len` holds before. -/
def callRewrite (mem : Bytes) (b : BindMsg) (portal statement : Option CStr) (slot : UInt16) (identity : CStr)
    (asBinary : Bool) (outCap outLen : ℕ) : RewriteCall :=
  let r := (Local.bindRewriteIdentityZerocopy mem b portal statement slot identity asBinary outCap).run
  match r.val with
  | none => ⟨-1, outLen, r.log⟩
  | some p => ⟨0, p, r.log⟩

/-- The exact size of the rewritten message. -/
def rewriteSize (b : BindMsg) (portal statement : Option CStr) (slot : UInt16) (identity : CStr) : ℕ :=
  5 + ((portal.getD CStr.empty).length + 1) + ((statement.getD CStr.empty).length + 1) + 2 + 2 * b.nParams + 2 +
    ((List.range b.nParams).map fun i =>
      4 + if i = slot.toNat then identity.length else (b.param i).length.toInt.toNat).sum +
    2 + 2 * b.nResultFormats

/-- A call of a helper with a buffer of fixed size. -/
inductive FixedSend where
  | startup (user database : Option CStr)
  | parse (statement query : Option CStr) (oids : Option (List UInt32)) (n : UInt16)
  | describe (target : UInt8) (name : Option CStr)
  | close (target : UInt8) (name : Option CStr)
  | execute (portal : Option CStr) (maxRows : UInt32)
  | rowDescription (cols : Option (List Ctx.ColumnArg))
  | dataRow (data : Option Bytes) (format : Int16) (oid : UInt32)
  | errorResponse (severity sqlstate message : Option CStr)

namespace FixedSend

/-- The size of the local buffer. -/
def bufSize : FixedSend → ℕ
  | startup _ _ => 512
  | parse _ _ _ _ => maxQueryLen + 256
  | describe _ _ => maxStmtName + 2
  | close _ _ => maxStmtName + 2
  | execute _ _ => maxPortalName + 8
  | rowDescription _ => 2048
  | dataRow _ _ _ => 4096
  | errorResponse _ _ _ => 512

/-- What the call, on a context of this role, does to its buffer. -/
def fill (role : Role) : FixedSend → Filler ℕ
  | startup user database => Local.sendStartup role user database
  | parse statement query oids n => Local.sendParse statement query oids n
  | describe target name => Local.sendTarget target name
  | close target name => Local.sendTarget target name
  | execute portal maxRows => Local.sendExecute portal maxRows
  | rowDescription cols => Local.sendRowDescription cols
  | dataRow data _ _ => Local.sendDataRow data
  | errorResponse severity sqlstate message => Local.sendErrorResponse severity sqlstate message

/-- The strings of the call, the empty one for a null pointer. -/
def strings : FixedSend → List CStr
  | startup user database => [user, database].map (·.getD CStr.empty)
  | parse statement query _ _ => [statement, query].map (·.getD CStr.empty)
  | describe _ name => [name.getD CStr.empty]
  | close _ name => [name.getD CStr.empty]
  | execute portal _ => [portal.getD CStr.empty]
  | rowDescription cols => (cols.getD []).map (·.name.getD CStr.empty)
  | dataRow _ _ _ => []
  | errorResponse severity sqlstate message => [severity, sqlstate, message].map (·.getD CStr.empty)

/-- The strings are shorter than `2 ^ 31`, and the length of the data is a `size_t`. -/
structure Sized (s : FixedSend) : Prop where
  strings : ∀ t ∈ s.strings, t.length < 2 ^ 31
  data : ∀ d format oid, s = dataRow (some d) format oid → d.length < 2 ^ 64

/-- Every byte that the call stores, on a context of this role, is inside its buffer. -/
def Inside (role : Role) (s : FixedSend) : Prop := ∀ w ∈ (s.fill role).run.log, w.Below s.bufSize

/-- The call itself, in the model of the context. -/
def run (c : Ctx) : FixedSend → Ctx × ℤ
  | startup user database => c.sendStartup user database
  | parse statement query oids n => c.sendParse statement query oids n
  | describe target name => c.sendDescribe target name
  | close target name => c.sendClose target name
  | execute portal maxRows => c.sendExecute portal maxRows
  | rowDescription cols => c.sendRowDescription cols
  | dataRow data format oid => c.sendDataRow data format oid
  | errorResponse severity sqlstate message => c.sendErrorResponse severity sqlstate message

/-- How the call hands on the first bytes of its buffer: `append_output` or `emit_msg`. -/
def handOn (c : Ctx) (p : Bytes) : FixedSend → Ctx × ℤ
  | startup _ _ => (c.appendOutput p, 0)
  | parse _ _ _ _ => c.emitMsg (ch 'P') p
  | describe _ _ => c.emitMsg (ch 'D') p
  | close _ _ => c.emitMsg (ch 'C') p
  | execute _ _ => c.emitMsg (ch 'E') p
  | rowDescription _ => c.emitMsg (ch 'T') p
  | dataRow _ _ _ => c.emitMsg (ch 'D') p
  | errorResponse _ _ _ => c.emitMsg (ch 'E') p

/-- The call through its buffer, which holds `buf` at first. -/
def runLocal (c : Ctx) (buf : Bytes) (s : FixedSend) : Ctx × ℤ :=
  match (s.fill c.role).run.val with
  | none => (c, -1)
  | some n => s.handOn c ((afterStores buf (s.fill c.role).run.log).take n)

end FixedSend

end Pqwire

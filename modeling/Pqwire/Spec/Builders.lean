import Pqwire.Lib.Heap
import Pqwire.Spec.Feed
import Pqwire.Spec.Send

/-!
# The buffers of a context and of the message builders, on a heap

`pqwire_create_with_config` allocates the context, its queue and its two buffers, and
`pqwire_destroy` frees them; both buffers move when they grow. `pqwire_send_bind` and
`pqwire_send_data_row_multi` build their message in a block of their own, which may move too and
is freed on every way out.

`CtxMem` is what a context needs of the heap. The functions here take the rest of the context as
a `Ctx` of which they do not look at the buffers, and read and write the blocks instead. The other
send helpers build their messages in local arrays and hand them to `append_output`.
-/

namespace Pqwire

open ByteMem CHeap

/-- The values of a call are as long as their lengths say. -/
def ValuesFit (lengths : Option (List Int32)) (values : Option (List (Option Bytes))) : Prop :=
  ∀ i v, values.bind (·.getD i none) = some v → (lengths.elim (-1) (·.getD i 0) : Int32).toInt.toNat ≤ v.length

/-- `values'` are the values of a Bind, and some bytes of the right length where a value of positive
length is missing: `pqwire_send_bind` sends what it finds in its block there. -/
structure FillsIn (lengths : Option (List Int32)) (values values' : Option (List (Option Bytes))) (n : ℕ) : Prop where
  /-- nothing is missing and nothing changes -/
  all : AllGiven lengths values n → values' = values
  kept : ∀ i < n, columnValue values i ≠ none ∨ (columnLength lengths i).toInt ≤ 0 → columnValue values' i = columnValue values i
  missing : ∀ i < n, columnValue values i = none → 0 < (columnLength lengths i).toInt →
    ∃ s, s.length = (columnLength lengths i).toInt.toNat ∧ columnValue values' i = some s

/-- `output_buf`, `output_len` and `output_cap`, or the same of the input. -/
structure Growing where
  buf : ℕ
  len : ℕ
  cap : ℕ
  deriving DecidableEq

/-- The blocks of a context. -/
structure CtxMem where
  ctx : ℕ
  events : ℕ
  output : Growing
  input : Growing
  deriving DecidableEq

namespace CtxMem

/-- `pqwire_create_with_config`, for a context of `ctxSize` bytes and events of `eventSize`; `none`
is `NULL`. -/
def createWithConfig (config : Config) (ctxSize eventSize : ℕ) : HeapM (Option CtxMem) :=
  if config.eventQueueSize ≤ 0 then return none
  else do
    match ← calloc ctxSize with
    | none => return none
    | some ctx =>
      let events ← calloc (config.eventQueueSize.toNat * eventSize)
      let output ← malloc 4096
      let input ← malloc 4096
      match events, output, input with
      | some events, some output, some input => return some ⟨ctx, events, ⟨output, 0, 4096⟩, ⟨input, 0, 4096⟩⟩
      | events, output, input =>
        -- `free (NULL)` does nothing
        free events
        free output
        free input
        free (some ctx)
        return none

/-- `pqwire_destroy`. -/
def destroy (m : CtxMem) : HeapM Unit := do
  free (some m.events)
  free (some m.output.buf)
  free (some m.input.buf)
  free (some m.ctx)

end CtxMem

namespace Growing

/-- `ensure_output`. -/
def ensureOutput (o : Growing) (need : ℕ) : HeapM (Growing × ℤ) :=
  if o.len + need ≤ o.cap then return (o, 0)
  else do
    match ← realloc o.buf (o.cap * 2 + need + 1024) with
    | none => return (o, -1)
    | some p => return (⟨p, o.len, o.cap * 2 + need + 1024⟩, 0)

/-- `append_output`. -/
def appendOutput (o : Growing) (data : Bytes) : HeapM Growing := do
  let r ← o.ensureOutput data.length
  if r.2 ≠ 0 then return r.1
  store r.1.buf r.1.len data
  return { r.1 with len := r.1.len + data.length }

/-- `emit_msg`. -/
def emitMsg (o : Growing) (type : UInt8) (payload : Bytes) : HeapM (Growing × ℤ) := do
  let o ← o.appendOutput (Ctx.msgHeader type payload.length)
  if payload = [] then return (o, 0)
  let o ← o.appendOutput payload
  return (o, 0)

/-- `pqwire_get_output`: the bytes copied out and the buffer with the rest moved to its front. -/
def getOutput (o : Growing) (maxLen : ℕ) : HeapM (Bytes × Growing) := do
  let toCopy := min o.len maxLen
  let bytes ← load o.buf 0 toCopy
  let rest ← load o.buf toCopy (o.len - toCopy)
  store o.buf 0 rest
  return (bytes, { o with len := o.len - toCopy })

/-- The first lines of `pqwire_feed_input`: the buffer with the bytes, or as it was when it cannot
grow. -/
def acceptInput (i : Growing) (data : Bytes) : HeapM (Growing × Bool) := do
  if i.len + data.length > i.cap then
    match ← realloc i.buf (i.len + data.length + 1024) with
    | none => return (i, false)
    | some p =>
      store p i.len data
      return (⟨p, i.len + data.length, i.len + data.length + 1024⟩, true)
  else
    store i.buf i.len data
    return ({ i with len := i.len + data.length }, true)

/-- `memmove` of the input behind `n` bytes to the front of the buffer. -/
def consume (i : Growing) (n : ℕ) : HeapM Growing := do
  let rest ← load i.buf n (i.len - n)
  store i.buf 0 rest
  return { i with len := i.len - n }

/-- The recovery from a frame with a bad length. -/
def rejectFrame (i : Growing) (mlen : ℕ) : HeapM Growing := do
  if mlen > 0 ∧ i.len ≥ mlen + 1 then
    let rest ← load i.buf (1 + mlen) (i.len - 1 - mlen)
    store i.buf 0 rest
    return { i with len := i.len - (1 + mlen) % 2 ^ 32 }
  else return { i with len := 0 }

/-- A round while the server waits for `StartupMessage`: whether the loop goes on, and what it
leaves. -/
def startupStep (c : Ctx) (i : Growing) : HeapM (Bool × Ctx × Growing) := do
  if i.len < 4 then return (false, c, i)
  let header ← load i.buf 0 4
  let mlen := rd32Be header 0
  if mlen < 8 ∨ mlen > c.maxMessageSize then
    return (false, c.enqueueEvent .protocolError [], { i with len := 0 })
  else if i.len < mlen then return (false, c, i)
  else
    let body ← load i.buf 4 (mlen - 4)
    let i ← i.consume mlen
    return (true, parseStartupBody c body, i)

/-- A round on typed messages. -/
def typedStep (c : Ctx) (i : Growing) : HeapM (Bool × Ctx × Growing) := do
  if i.len < 5 then return (false, c, i)
  let header ← load i.buf 0 5
  let mlen := rd32Be header 1
  if mlen < 4 ∨ mlen > c.maxMessageSize then
    let i ← i.rejectFrame mlen
    return (true, c.enqueueEvent .protocolError [], i)
  else if i.len < 1 + mlen then return (false, c, i)
  else
    -- the event of a Bind points into the buffer
    let frame ← load i.buf 0 (1 + mlen)
    let i ← i.consume (1 + mlen)
    return (true, handleMessage { c with inputBuf := frame } (header.getD 0 0) 5 (slice frame 5 (mlen - 4)), i)

/-- One round of the framing loop. -/
def feedStep (c : Ctx) (i : Growing) : HeapM (Bool × Ctx × Growing) :=
  if c.awaitsStartup then startupStep c i else typedStep c i

/-- The framing loop for at most `fuel` rounds; `none` when it has not returned by then. -/
def feedLoop : ℕ → Ctx → Growing → HeapM (Option (Ctx × Growing))
  | 0, _, _ => return none
  | fuel + 1, c, i => do
    let r ← feedStep c i
    if r.1 then feedLoop fuel r.2.1 r.2.2 else return some r.2

/-- `pqwire_feed_input`. -/
def feedInput (fuel : ℕ) (c : Ctx) (i : Growing) (data : Bytes) : HeapM (Option (Ctx × Growing)) := do
  let r ← i.acceptInput data
  if r.2 then feedLoop fuel c r.1 else return some (c, r.1)

/-! ## Builders -/

/-- The loops that write format codes, for `n` codes from `i` on. -/
def codeStores (codes : Option (List Int16)) (buf : ℕ) : ℕ → ℕ → ℕ → HeapM ℕ
  | 0, _, p => return p
  | n + 1, i, p => do
    store buf p (wr16Be ((codes.elim 0 (·.getD i 0)).toUInt16.toNat))
    codeStores codes buf n (i + 1) (p + 2)

/-- `memcpy (buf + p, value, k)` where there is a value. -/
def valueStore (buf p : ℕ) (value : Option Bytes) (k : ℕ) : HeapM Unit :=
  match value with
  | none => return ()
  | some v => if k ≤ v.length then store buf p (v.take k) else failure

/-- The parameter loop of `pqwire_send_bind`, for `n` parameters from `i` on: the block, the
position and the capacity, or `none` when it has freed the block and returns -1. -/
def bindParamStores (lengths : Option (List Int32)) (values : Option (List (Option Bytes))) :
    ℕ → ℕ → ℕ → ℕ → ℕ → HeapM (Option (ℕ × ℕ × ℕ))
  | 0, _, buf, p, cap => return some (buf, p, cap)
  | n + 1, i, buf, p, cap => do
    let plen : Int32 := lengths.elim (-1) (·.getD i 0)
    if p + 4 > cap then
      free (some buf)
      return none
    store buf p (wr32Be plen.toUInt32.toNat)
    if plen.toInt > 0 then
      let k := plen.toInt.toNat
      let value := values.bind (·.getD i none)
      if p + 4 + k > cap then
        match ← realloc buf (p + 4 + k + 1024) with
        | none =>
          free (some buf)
          return none
        | some nb =>
          valueStore nb (p + 4) value k
          bindParamStores lengths values n (i + 1) nb (p + 4 + k) (p + 4 + k + 1024)
      else
        valueStore buf (p + 4) value k
        bindParamStores lengths values n (i + 1) buf (p + 4 + k) cap
    else bindParamStores lengths values n (i + 1) buf (p + 4) cap

/-- `pqwire_send_bind`. -/
def sendBind (o : Growing) (portal statement : Option CStr) (formats : Option (List Int16)) (nFormats : UInt16)
    (lengths : Option (List Int32)) (values : Option (List (Option Bytes))) (nParams : UInt16)
    (resultFormats : Option (List Int16)) (nResultFormats : UInt16) : HeapM (Growing × ℤ) := do
  let portal := portal.getD CStr.empty
  let statement := statement.getD CStr.empty
  let cap := 64 + nParams.toNat * 256
  match ← malloc cap with
  | none => return (o, -1)
  | some buf =>
    let nlen := portal.length + 1
    let slen := statement.length + 1
    if nlen + slen > cap then
      free (some buf)
      return (o, -1)
    store buf 0 portal.toBytes
    store buf nlen statement.toBytes
    if nlen + slen + 2 + nFormats.toNat * 2 > cap then
      free (some buf)
      return (o, -1)
    store buf (nlen + slen) (wr16Be nFormats.toNat)
    let p ← codeStores formats buf nFormats.toNat 0 (nlen + slen + 2)
    if p + 2 > cap then
      free (some buf)
      return (o, -1)
    store buf p (wr16Be nParams.toNat)
    match ← bindParamStores lengths values nParams.toNat 0 buf (p + 2) cap with
    | none => return (o, -1)
    | some (buf, p, cap) =>
      if p + 2 + nResultFormats.toNat * 2 > cap then
        free (some buf)
        return (o, -1)
      store buf p (wr16Be nResultFormats.toNat)
      let p ← codeStores resultFormats buf nResultFormats.toNat 0 (p + 2)
      let payload ← load buf 0 p
      let r ← o.emitMsg (ch 'B') payload
      free (some buf)
      return r

/-- The column loop of `pqwire_send_data_row_multi`. -/
def dataRowStores (lengths : Option (List Int32)) (values : Option (List (Option Bytes))) :
    ℕ → ℕ → ℕ → ℕ → ℕ → HeapM (Option (ℕ × ℕ × ℕ))
  | 0, _, buf, p, cap => return some (buf, p, cap)
  | n + 1, i, buf, p, cap => do
    let plen : Int32 := lengths.elim (-1) (·.getD i 0)
    if p + 4 > cap then
      free (some buf)
      return none
    store buf p (wr32Be plen.toUInt32.toNat)
    match values.bind (·.getD i none) with
    | none => dataRowStores lengths values n (i + 1) buf (p + 4) cap
    | some v =>
      if plen.toInt > 0 then
        let k := plen.toInt.toNat
        if p + 4 + k > cap then
          match ← realloc buf (p + 4 + k + 1024) with
          | none =>
            free (some buf)
            return none
          | some nb =>
            valueStore nb (p + 4) (some v) k
            dataRowStores lengths values n (i + 1) nb (p + 4 + k) (p + 4 + k + 1024)
        else
          valueStore buf (p + 4) (some v) k
          dataRowStores lengths values n (i + 1) buf (p + 4 + k) cap
      else dataRowStores lengths values n (i + 1) buf (p + 4) cap

/-- `pqwire_send_data_row_multi`. -/
def sendDataRowMulti (o : Growing) (lengths : Option (List Int32)) (values : Option (List (Option Bytes)))
    (nCols : UInt16) : HeapM (Growing × ℤ) := do
  let cap := 64 + nCols.toNat * 256
  match ← malloc cap with
  | none => return (o, -1)
  | some buf =>
    store buf 0 (wr16Be nCols.toNat)
    match ← dataRowStores lengths values nCols.toNat 0 buf 2 cap with
    | none => return (o, -1)
    | some (buf, p, _) =>
      let payload ← load buf 0 p
      let r ← o.emitMsg (ch 'D') payload
      free (some buf)
      return r

end Growing

/-! ## Runs -/

/-- A call on a context; `fuel` is the number of rounds that a feed is watched for. -/
inductive MemCall where
  | append (data : Bytes)
  | emit (type : UInt8) (payload : Bytes)
  | bind (portal statement : Option CStr) (formats : Option (List Int16)) (nFormats : UInt16)
      (lengths : Option (List Int32)) (values : Option (List (Option Bytes))) (nParams : UInt16)
      (resultFormats : Option (List Int16)) (nResultFormats : UInt16)
  | rows (lengths : Option (List Int32)) (values : Option (List (Option Bytes))) (nCols : UInt16)
  | drain (maxLen : ℕ)
  | feed (fuel : ℕ) (data : Bytes)
  | next
  | reset

namespace MemCall

/-- The call on the heap: the rest of the context and its blocks, or `none` while it is still
running. -/
def run (c : Ctx) (m : CtxMem) : MemCall → HeapM (Option (Ctx × CtxMem))
  | .append data => do return some (c, { m with output := ← m.output.appendOutput data })
  | .emit type payload => do return some (c, { m with output := (← m.output.emitMsg type payload).1 })
  | .bind p s f nf l v n r nr => do return some (c, { m with output := (← m.output.sendBind p s f nf l v n r nr).1 })
  | .rows l v n => do return some (c, { m with output := (← m.output.sendDataRowMulti l v n).1 })
  | .drain maxLen => do return some (c, { m with output := (← m.output.getOutput maxLen).2 })
  | .feed fuel data => do return (← Growing.feedInput fuel c m.input data).map fun r => (r.1, { m with input := r.2 })
  | .next => return some ((c.nextEvent.map Prod.snd).getD c, m)
  | .reset => return some (Pqwire.reset c, { m with output := { m.output with len := 0 }, input := { m.input with len := 0 } })

/-- The call in the model without a heap. -/
def model (c : Ctx) : MemCall → Option Ctx
  | .append data => some (c.appendOutput data)
  | .emit type payload => some (c.emitMsg type payload).1
  | .bind p s f nf l v n r nr => some (c.sendBind p s f nf l v n r nr).1
  | .rows l v n => some (c.sendDataRowMulti l v n).1
  | .drain maxLen => some (c.getOutput maxLen).2
  | .feed fuel data => (c.feedInput fuel data).map Prod.fst
  | .next => some ((c.nextEvent.map Prod.snd).getD c)
  | .reset => some (Pqwire.reset c)

def runAll : List MemCall → Ctx → CtxMem → HeapM (Option (Ctx × CtxMem))
  | [], c, m => return some (c, m)
  | call :: calls, c, m => do
    match ← call.run c m with
    | none => return none
    | some (c, m) => runAll calls c m

def modelAll (c : Ctx) (calls : List MemCall) : Option Ctx := calls.foldlM model c

/-- The caller's arrays are as long as it says. -/
def Valid : MemCall → Prop
  | .bind _ _ _ _ l v _ _ _ => ValuesFit l v
  | .rows l v _ => ValuesFit l v
  | _ => True

/-- The call as it goes out: a Bind is completed by bytes that nobody has stored. -/
def Completed : MemCall → MemCall → Prop
  | .bind p s f nf l v n r nr, call => ∃ v', FillsIn l v v' n.toNat ∧ call = .bind p s f nf l v' n r nr
  | call, call' => call' = call

end MemCall

end Pqwire

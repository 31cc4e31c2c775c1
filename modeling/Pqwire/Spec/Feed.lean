import Pqwire.Spec.Parse

/-!
# The framing loop (`pqwire_feed_input`)

`feedStep` is one round of the `for (;;)` loop, `feedLoop` at most `fuel` rounds of
it (`none`: it has not returned by then), and `Feeds c data c'` says that a call
accepts `data` and returns, leaving `c'`.

Arithmetic on the length field is that of the source: `1u + (size_t)mlen` does not
wrap, while the `1 + mlen` that is subtracted from `input_len` on a rejected frame
is computed in `uint32_t` and does.
-/

namespace Pqwire

open ByteMem

/-- The two ways out of a round: `continue` and `break`. -/
inductive Round where
  | again (c : Ctx)
  | stop (c : Ctx)
  deriving DecidableEq

namespace Ctx

/-- Append to the input buffer, growing it when needed; `none` when `realloc` fails. -/
def acceptInput (c : Ctx) (data : Bytes) : Option Ctx :=
  if c.inputLen + data.length > c.inputCap then
    -- `realloc` keeps the bytes that are there
    if c.allocOk then
      some
        { c.allocated with
          inputCap := c.inputLen + data.length + 1024
          inputBuf := blit c.inputBuf c.inputLen data
          inputLen := c.inputLen + data.length }
    else none
  else some { c with inputBuf := blit c.inputBuf c.inputLen data, inputLen := c.inputLen + data.length }

/-- Move the input behind a frame of `n` bytes to the front of the buffer. -/
def consume (c : Ctx) (n : ℕ) : Ctx :=
  { c with inputBuf := shiftDown c.inputBuf n (c.inputLen - n), inputLen := c.inputLen - n }

/-- The server waits for its `StartupMessage`, which has no type byte. -/
def awaitsStartup (c : Ctx) : Bool := c.role = .server ∧ c.startupSeen = false

/-- A round while the server waits for `StartupMessage`. -/
def startupStep (c : Ctx) : Round :=
  if c.inputLen < 4 then .stop c
  else
    let mlen := rd32Be c.inputBuf 0
    if mlen < 8 ∨ mlen > c.maxMessageSize then
      -- there is no telling where the next message starts: drop what is buffered
      .stop { c.enqueueEvent .protocolError [] with inputLen := 0 }
    else if c.inputLen < mlen then .stop c
    else .again ((parseStartupBody c (slice c.inputBuf 4 (mlen - 4))).consume mlen)

/-- The recovery from a typed frame with a bad length: skip it when all of it is
buffered, else drop everything that is. -/
def rejectFrame (c : Ctx) (mlen : ℕ) : Ctx :=
  let c₁ := c.enqueueEvent .protocolError []
  if mlen > 0 ∧ c.inputLen ≥ mlen + 1 then
    { c₁ with
      inputBuf := shiftDown c.inputBuf (1 + mlen) (c.inputLen - 1 - mlen)
      -- `1 + mlen` in `uint32_t`: nothing is subtracted for `mlen = 2 ^ 32 - 1`
      inputLen := c.inputLen - (1 + mlen) % 2 ^ 32 }
  else { c₁ with inputLen := 0 }

/-- A round on typed messages: type byte, length, payload. -/
def typedStep (c : Ctx) : Round :=
  if c.inputLen < 5 then .stop c
  else
    let type := c.inputBuf.getD 0 0
    let mlen := rd32Be c.inputBuf 1
    if mlen < 4 ∨ mlen > c.maxMessageSize then .again (c.rejectFrame mlen)
    else
      let total := 1 + mlen
      if c.inputLen < total then .stop c
      else .again ((handleMessage c type 5 (slice c.inputBuf 5 (mlen - 4))).consume total)

/-- One round of the framing loop. -/
def feedStep (c : Ctx) : Round := if c.awaitsStartup then c.startupStep else c.typedStep

/-- The framing loop for at most `fuel` rounds. -/
def feedLoop : ℕ → Ctx → Option Ctx
  | 0, _ => none
  | fuel + 1, c =>
    match c.feedStep with
    | .stop c' => some c'
    | .again c' => feedLoop fuel c'

/-- `pqwire_feed_input`: the context left and the return value; `none` when the loop
has not returned after `fuel` rounds. -/
def feedInput (fuel : ℕ) (c : Ctx) (data : Bytes) : Option (Ctx × ℕ) :=
  match c.acceptInput data with
  | none => some (c.allocated, 0)
  | some c₁ => (feedLoop fuel c₁).map fun c' => (c', data.length)

end Ctx

/-- The loop started in `c` returns, leaving `c'`. -/
def Loops (c c' : Ctx) : Prop := ∃ fuel, Ctx.feedLoop fuel c = some c'

/-- `pqwire_feed_input (c, data)` accepts the bytes and returns, leaving `c'`. -/
def Feeds (c : Ctx) (data : Bytes) (c' : Ctx) : Prop :=
  ∃ c₁, c.acceptInput data = some c₁ ∧ Loops c₁ c'

/-- Successive calls of `pqwire_feed_input`, one for each chunk. -/
inductive FeedsAll : Ctx → List Bytes → Ctx → Prop
  | nil (c : Ctx) : FeedsAll c [] c
  | cons {c c₁ c' : Ctx} {d : Bytes} {ds : List Bytes} :
      Feeds c d c₁ → FeedsAll c₁ ds c' → FeedsAll c (d :: ds) c'

end Pqwire

import Pqwire.Spec.Grammar
import Pqwire.Spec.Feed

/-!
# Where the headers are read

The framing loop of a context past startup, with a record of what it acts on: for every
round that continues, the place in the stream of the header it read. The place of the
front of the input buffer is carried along as `pos`, the number of stream bytes that are
in front of it.

`Ctx.receive` is the other side of the comparison: a frame received on its own.
-/

namespace Pqwire

open ByteMem

/-- What a round acts on: a message or a rejected frame, and where its header stands. -/
inductive Act where
  | message (pos : ℕ)
  | rejected (pos : ℕ)
  deriving DecidableEq

namespace Ctx

/-- The length field at the front of the buffer is out of range. -/
def badLen (c : Ctx) : Prop := rd32Be c.inputBuf 1 < 4 ∨ c.maxMessageSize < rd32Be c.inputBuf 1

instance (c : Ctx) : Decidable c.badLen := inferInstanceAs (Decidable (_ ∨ _))

/-- How far a round that continues moves the front of the buffer along the stream. -/
def taken (c : Ctx) : ℕ :=
  if c.badLen ∧ ¬(0 < rd32Be c.inputBuf 1 ∧ rd32Be c.inputBuf 1 + 1 ≤ c.inputLen) then c.inputLen
  else 1 + rd32Be c.inputBuf 1

/-- What such a round acts on. -/
def act (c : Ctx) (pos : ℕ) : Act := if c.badLen then .rejected pos else .message pos

/-- The context that has received the message `f`, alone in its input buffer. -/
def receive (c : Ctx) (f : Frame) : Ctx :=
  { handleMessage { c with inputBuf := f.enc, inputLen := f.enc.length, inputCap := 0 } f.type 5 f.body with
    inputBuf := [], inputLen := 0, inputCap := 0 }

/-- The context that has received messages one after the other. -/
def receiveAll (c : Ctx) (fs : List Frame) : Ctx := fs.foldl receive c

end Ctx

/-- The loop started in `c`, with the front of its buffer at `pos`, acts on `acts` and
returns, leaving `c'` and the front at `pos'`. -/
inductive LoopActs : Ctx → ℕ → List Act → Ctx → ℕ → Prop
  | stop {c c' : Ctx} {pos : ℕ} : c.awaitsStartup = false → c.feedStep = .stop c' → LoopActs c pos [] c' pos
  | again {c c₁ c' : Ctx} {pos pos' : ℕ} {acts : List Act} : c.awaitsStartup = false → c.feedStep = .again c₁ →
      LoopActs c₁ (pos + c.taken) acts c' pos' → LoopActs c pos (c.act pos :: acts) c' pos'

/-- Successive calls of `pqwire_feed_input`, with what their loops act on. -/
inductive FeedsActs : Ctx → ℕ → List Bytes → List Act → Ctx → ℕ → Prop
  | nil (c : Ctx) (pos : ℕ) : FeedsActs c pos [] [] c pos
  | cons {c c₁ c₂ c' : Ctx} {pos pos₁ pos' : ℕ} {d : Bytes} {ds : List Bytes} {acts acts' : List Act} :
      c.acceptInput d = some c₁ → LoopActs c₁ pos acts c₂ pos₁ → FeedsActs c₂ pos₁ ds acts' c' pos' →
      FeedsActs c pos (d :: ds) (acts ++ acts') c' pos'

/-- The messages `fs`, the first of them at `pos`. -/
def messageActs : ℕ → List Frame → List Act
  | _, [] => []
  | pos, f :: fs => .message pos :: messageActs (pos + f.enc.length) fs

/-- How many bytes of the stream have been delivered when the first five are there, the
header of its first message; `n` bytes are there already. -/
def headerDelivered : ℕ → List Bytes → ℕ
  | n, [] => n
  | n, d :: ds => if 5 ≤ n + d.length then n + d.length else headerDelivered (n + d.length) ds

end Pqwire

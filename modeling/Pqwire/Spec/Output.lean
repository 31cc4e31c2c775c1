import Pqwire.Spec.Dialog
import Pqwire.Spec.Pipeline

/-!
# The output stream

Runs of the send helpers that emit one message each and of `pqwire_get_output`, with what
every call has returned.
-/

namespace Pqwire

open ByteMem

/-- A message on the wire: a typed one, or the startup message. -/
inductive Message where
  | typed (f : Frame)
  | startup (s : Startup)
  deriving DecidableEq

def Message.enc : Message → Bytes
  | .typed f => f.enc
  | .startup s => s.enc

/-- The type byte of the message that a helper emits. The startup message has none, and the
pipeline helper emits several messages. -/
def Send.type : Send → Option UInt8
  | .startup _ _ => none
  | .query _ => some (ch 'Q')
  | .call _ => some (ch 'Q')
  | .terminate => some (ch 'X')
  | .parse _ _ _ _ => some (ch 'P')
  | .bind _ _ _ _ _ _ _ _ _ => some (ch 'B')
  | .bindParams _ _ _ _ _ _ => some (ch 'B')
  | .bindRewriteIdentity _ _ _ _ _ _ _ => some (ch 'B')
  | .describe _ _ => some (ch 'D')
  | .execute _ _ => some (ch 'E')
  | .close _ _ => some (ch 'C')
  | .sync => some (ch 'S')
  | .flush => some (ch 'H')
  | .unnamedPipeline _ _ _ _ _ _ _ _ _ _ _ => none
  | .authOk => some (ch 'R')
  | .readyForQuery => some (ch 'Z')
  | .rowDescription _ => some (ch 'T')
  | .dataRow _ _ _ => some (ch 'D')
  | .dataRowMulti _ _ _ => some (ch 'D')
  | .commandComplete _ => some (ch 'C')
  | .errorResponse _ _ _ => some (ch 'E')
  | .parseComplete => some (ch '1')
  | .bindComplete => some (ch '2')
  | .closeComplete => some (ch '3')
  | .noData => some (ch 'n')

/-- The message is of the kind that the helper emits. -/
def Send.Emits (m : Send) : Message → Prop
  | .typed f => m.type = some f.type
  | .startup _ => m.isStartup = true

/-- A helper that emits one message. -/
def Send.Single (m : Send) : Prop := m.isStartup = true ∨ m.type.isSome = true

/-- A call with its outcome: the return value of a send, the bytes that `pqwire_get_output`
has copied. -/
inductive Call where
  | send (m : Send) (r : ℤ)
  | output (bytes : Bytes)

/-- The bytes drained. -/
def drained (calls : List Call) : Bytes :=
  calls.flatMap fun
    | .send _ _ => []
    | .output bytes => bytes

/-- The sends that have returned 0. -/
def accepted (calls : List Call) : List Send :=
  calls.filterMap fun
    | .send m r => if r = 0 then some m else none
    | .output _ => none

/-- Calls on a context, one after the other. A send adds a header of five bytes and a payload
of less than `2 ^ 32 - 4`. -/
inductive Calls (c : Ctx) : List Call → Ctx → Prop
  | nil : Calls c [] c
  | send {calls : List Call} {c₁ c₂ : Ctx} {m : Send} {r : ℤ} : Calls c calls c₁ → m.Single → m.run c₁ = (c₂, r) →
      c₂.output.length < c₁.output.length + (5 + (2 ^ 32 - 4)) → Calls c (calls ++ [.send m r]) c₂
  | output {calls : List Call} {c₁ : Ctx} (maxLen : ℕ) : Calls c calls c₁ →
      Calls c (calls ++ [.output (c₁.getOutput maxLen).1]) (c₁.getOutput maxLen).2

/-- Walk over messages with `pqwire_msg_peek`, as long as it finds one and for at most `fuel`
messages: their types and lengths. -/
def peekWalk : ℕ → Bytes → List (UInt8 × ℕ)
  | 0, _ => []
  | fuel + 1, buf =>
    match msgPeek buf with
    | none => []
    | some (type, total) => (type, total) :: peekWalk fuel (buf.drop total)

end Pqwire

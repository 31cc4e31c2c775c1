import Pqwire.Spec.Output

/-!
# Sends under failing allocations

A helper that emits a typed message does so in two parts: it encodes the message, with
allocations of its own (`Prepares`), and hands it to `emit_msg`, which appends the header and
then the payload. Each of the two appends may have to grow the output buffer.

`SendRun` is a run of such helpers and of `pqwire_get_output`, with any outcomes of the
allocations, in which `emit_msg` always finds the room that it needs.
-/

namespace Pqwire

open ByteMem

/-- What a helper does before it emits: allocations, and the phase that `ReadyForQuery` sets. -/
def Prepares (c c₁ : Ctx) : Prop :=
  ∃ (k : ℕ) (p : ProtoState), c₁ = { c with allocs := c.allocs.drop k, protoState := p }

/-- The helpers that emit their message through `emit_msg`. The startup message and the rewritten
Bind are appended as they are, and the pipeline helper calls four of the others. -/
def Send.ViaEmit : Send → Prop
  | .startup _ _ => False
  | .bindRewriteIdentity _ _ _ _ _ _ _ => False
  | .unnamedPipeline _ _ _ _ _ _ _ _ _ _ _ => False
  | _ => True

/-- The call on `c` comes to `c₁` and refuses there, or emits its message there. -/
inductive Send.Comes (m : Send) (c : Ctx) : Ctx → Option (UInt8 × Bytes) → Prop
  | refuse {c₁ : Ctx} : Prepares c c₁ → m.run c = (c₁, -1) → Comes m c c₁ none
  | emit {c₁ : Ctx} {type : UInt8} {payload : Bytes} : Prepares c c₁ → m.run c = c₁.emitMsg type payload →
      Comes m c c₁ (some (type, payload))

/-- `emit_msg` finds the room for a header and for a payload of `plen` bytes: it is there already,
or the `realloc` succeeds. -/
def Ctx.RoomFor (c : Ctx) (plen : ℕ) : Prop :=
  if c.output.length + 5 ≤ c.outputCap then
    plen = 0 ∨ c.output.length + 5 + plen ≤ c.outputCap ∨ c.allocs.headD true = true
  else
    c.allocs.headD true = true ∧
      (plen = 0 ∨ c.output.length + 5 + plen ≤ c.outputCap * 2 + 5 + 1024 ∨ c.allocs.tail.headD true = true)

instance (c : Ctx) (plen : ℕ) : Decidable (c.RoomFor plen) := by
  unfold Ctx.RoomFor
  infer_instance

/-- The whole frame is appended and 0 is returned, or nothing is and the return value says so. -/
def Atomic (c : Ctx) (type : UInt8) (payload : Bytes) (res : Ctx × ℤ) : Prop :=
  (res.1.output = c.output ++ (Ctx.msgHeader type payload.length ++ payload) ∧ res.2 = 0) ∨
    (res.1.output = c.output ∧ res.2 ≠ 0)

/-- A header and its payload; the length field is that of `emit_msg`, modulo `2 ^ 32`. -/
def wireMsg (msg : UInt8 × Bytes) : Bytes := Ctx.msgHeader msg.1 msg.2.length ++ msg.2

/-- A run from `c` with the messages emitted and the bytes drained. -/
inductive SendRun (c : Ctx) : List (UInt8 × Bytes) → Bytes → Ctx → Prop
  | nil : SendRun c [] [] c
  | refuse {msgs : List (UInt8 × Bytes)} {out : Bytes} {c₁ c₂ : Ctx} {m : Send} : SendRun c msgs out c₁ →
      m.Comes c₁ c₂ none → SendRun c msgs out (m.run c₁).1
  | emit {msgs : List (UInt8 × Bytes)} {out : Bytes} {c₁ c₂ : Ctx} {m : Send} {msg : UInt8 × Bytes} :
      SendRun c msgs out c₁ → m.Comes c₁ c₂ (some msg) → c₂.RoomFor msg.2.length →
      SendRun c (msgs ++ [msg]) out (m.run c₁).1
  | output {msgs : List (UInt8 × Bytes)} {out : Bytes} {c₁ : Ctx} (maxLen : ℕ) : SendRun c msgs out c₁ →
      SendRun c msgs (out ++ (c₁.getOutput maxLen).1) (c₁.getOutput maxLen).2

end Pqwire

import Pqwire.Spec.Run

/-!
# Memory and work of a context

`Paced config L B` holds of the contexts that are reached when no feed is longer than `L` bytes
and no send leaves more than `B` bytes of output pending. What the peer sends is arbitrary.

The two buffers are the only blocks of a context that grow. `feedWork` counts the rounds of the
framing loop and the bytes that its `memmove`s copy.
-/

namespace Pqwire

open ByteMem

/-- `max_message_size` as `pqwire_create_with_config` sets it. -/
def Config.limit (config : Config) : ℕ :=
  if config.maxMessageSize = 0 then 16 * 1024 * 1024 else config.maxMessageSize

/-- The rounds of the framing loop and the bytes it moves, for at most `fuel` rounds. A round that
goes on moves what it leaves of the input to the front of the buffer. -/
def Ctx.feedWork : ℕ → Ctx → ℕ × ℕ
  | 0, _ => (0, 0)
  | fuel + 1, c =>
    match c.feedStep with
    | .stop _ => (1, 0)
    | .again c' => ((feedWork fuel c').1 + 1, (feedWork fuel c').2 + c'.inputLen)

/-- A run from creation. -/
inductive Paced (config : Config) (L B : ℕ) : Ctx → Prop
  | create {role : Role} {allocs : List Bool} {c : Ctx} : createWithConfig role config allocs = some c → Paced config L B c
  | feed {c c' : Ctx} {data : Bytes} {fuel n : ℕ} : Paced config L B c → data.length ≤ L →
      c.feedInput fuel data = some (c', n) → Paced config L B c'
  | next {c c' : Ctx} {q : Queued} : Paced config L B c → c.nextEvent = some (q, c') → Paced config L B c'
  | reset {c : Ctx} : Paced config L B c → Paced config L B (reset c)
  | output {c : Ctx} (maxLen : ℕ) : Paced config L B c → Paced config L B (c.getOutput maxLen).2
  | send {c : Ctx} {s : Send} : Paced config L B c → (s.run c).1.output.length ≤ B → Paced config L B (s.run c).1
  | ready {c : Ctx} : Paced config L B c → Paced config L B (noteReady c)

end Pqwire

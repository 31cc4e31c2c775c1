import Pqwire.Spec.Mitm
import Pqwire.Spec.Pipeline

/-!
# The fuzz targets (`fuzz/`)

`LLVMFuzzerTestOneInput` of both targets, up to the calls of `pqwire_destroy`: the contexts that
these get, `none` inside where they cannot be created, and `none` where a loop has not ended after
`fuel` rounds. The pseudo-random outcomes of the allocations are arguments.
-/

namespace Pqwire

open ByteMem

namespace Fuzz

/-- `cfg` of `fuzz_pqwire.c`. -/
def plainConfig : Config := { eventQueueSize := 16, maxMessageSize := 1024 * 1024 }

/-- `cfg` of `fuzz_mitm.c`. -/
def mitmConfig : Config := { eventQueueSize := 32, maxMessageSize := 2 * 1024 * 1024 }

/-- Feed the bytes and dequeue all events. -/
def feedAndDrain (fuel : ℕ) (c : Ctx) (data : Bytes) : Option Ctx := do
  let (c, _) ← c.feedInput fuel data
  Ctx.drainEvents fuel c

/-- `fuzz_pqwire.c`. -/
def plainTarget (fuel : ℕ) (allocs : List Bool) (data : Bytes) : Option (Option Ctx) :=
  match createWithConfig .client plainConfig allocs with
  | none => some none
  | some c => (feedAndDrain fuel c data).map some

/-- The enabling of the three attacks: drop a message, corrupt a length, flip bits. -/
def enableAll (m : Mitm) : Mitm := ((m.enableAttack 1).enableAttack 2).enableAttack 3

/-- `fuzz_mitm.c`. -/
def mitmTarget (fuel : ℕ) (allocs allocs' : List Bool) (allocOk : Bool) (data : Bytes) : Option (Option Mitm) :=
  if data.length = 0 then some none
  else
    match Mitm.create (createWithConfig .client mitmConfig allocs) (createWithConfig .server mitmConfig allocs') allocOk with
    | none => some none
    | some m => do
      let m := enableAll m
      let (client, _) ← m.client.feedInput fuel data
      let m ← HarnessCall.runAll fuel { m with client := client } (List.replicate 8 .step)
      let client ← Ctx.drainEvents fuel m.client
      let server ← Ctx.drainEvents fuel m.server
      return some { m with client := client, server := server }

end Fuzz

end Pqwire

import Pqwire.Proof.Mitm
import Pqwire.Proof.Pipeline
import Pqwire.Proof.Termination
import Pqwire.Spec.Fuzz

/-!
# What the fuzz targets reach

* `runAll_steps_silent`: without output on either side, a step of the harness does nothing.
* `fuzz_targets`: both targets end on every input; the one with the harness carries no byte to
  the server and leaves the client as feeding it alone does.
-/

namespace Pqwire

open ByteMem

/-- Without output there is nothing to carry. -/
theorem move_silent {fuel : ℕ} {source sink : Ctx} (h : source.output = []) : Mitm.move fuel source sink = some (source, sink) := by
  have hbytes : (source.getOutput Mitm.bufSize).1 = [] := by
    show source.output.take Mitm.bufSize = []
    rw [h, List.take_nil]
  have hrest : (source.getOutput Mitm.bufSize).2 = source := by
    show { source with output := source.output.drop Mitm.bufSize } = source
    rw [h, List.drop_nil, ← h]
  unfold Mitm.move
  dsimp only
  rw [hbytes, hrest, if_neg (by decide)]

/-- **The harness does nothing between contexts that have sent nothing.** -/
theorem runAll_steps_silent {fuel : ℕ} {m : Mitm} (hc : m.client.output = []) (hs : m.server.output = []) (n : ℕ) :
    HarnessCall.runAll fuel m (List.replicate n .step) = some m := by
  induction n with
  | zero => rfl
  | succ n ih =>
    have hstep : m.step fuel = some m := by
      unfold Mitm.step
      rw [move_silent hc, Option.bind_some, move_silent hs]
      rfl
    show (m.step fuel).bind (fun m' => HarnessCall.runAll fuel m' (List.replicate n .step)) = some m
    rw [hstep, Option.bind_some, ih]

namespace Fuzz

theorem feedAndDrain_eq {fuel : ℕ} {c c₁ : Ctx} {data : Bytes} {n : ℕ} (h : c.feedInput fuel data = some (c₁, n)) :
    feedAndDrain fuel c data = Ctx.drainEvents fuel c₁ := by
  unfold feedAndDrain
  rw [h]
  rfl

/-- A new context takes any input that is shorter than `2 ^ 32` bytes, and can be drained. The
output stays empty. -/
theorem feedAndDrain_returns {role : Role} {config : Config} {allocs : List Bool} {c : Ctx}
    (hc : createWithConfig role config allocs = some c) {data : Bytes} (hlen : data.length < 2 ^ 32) :
    ∃ fuel c₁ c' n, (∀ k, c.feedInput (fuel + k) data = some (c₁, n)) ∧ (∀ k, Ctx.drainEvents (fuel + k) c₁ = some c') ∧
      c₁.output = [] ∧ c'.output = [] := by
  obtain ⟨-, -, -, hout, -⟩ := create_empty hc
  have hin : c.inputLen = 0 := by
    unfold createWithConfig at hc
    split at hc
    · cases hc
    split at hc
    · cases hc
      rfl
    · cases hc
  obtain ⟨fuel, c₁, n, hfeed⟩ := @feedInput_returns c data (by omega)
  obtain ⟨hok, hw⟩ := reachable_ok (.step (.create hc) (.feed hfeed))
  obtain ⟨fuel', c', hdrain, -, -, hframe⟩ := drainEvents_all hok hw
  obtain ⟨hsent, -⟩ := feedInput_sent hfeed
  have hout' : c'.output = [] := by
    rw [hframe]
    exact hsent.trans hout
  refine ⟨fuel + fuel', c₁, c', n, ?_, ?_, hsent.trans hout, hout'⟩
  · intro k
    rw [Nat.add_assoc]
    exact feedInput_mono hfeed
  · intro k
    rw [Nat.add_comm fuel, Nat.add_assoc]
    exact drainEvents_mono hdrain (fuel + k)

/-- A new context has no events. -/
theorem drain_created {role : Role} {config : Config} {allocs : List Bool} {c : Ctx}
    (hc : createWithConfig role config allocs = some c) (k : ℕ) : Ctx.drainEvents (1 + k) c = some c := by
  obtain ⟨hnil, -⟩ := create_empty hc
  have hcount : c.events.count = 0 := by
    rw [← RingBuf.toList_length, hnil]
    rfl
  have hnone : c.nextEvent = none := by
    unfold Ctx.nextEvent Ctx.dequeueEvent
    rw [RingBuf.dequeue_none.2 hcount]
  rw [Nat.add_comm]
  unfold Ctx.drainEvents
  rw [hnone]

end Fuzz

open Fuzz

/-- **What the fuzz targets reach.** On every input below `2 ^ 32` bytes, whatever allocations fail,
both end. In the target with the harness the server stays as it was created and the client ends as
feeding and draining it alone leaves it: the enabled attacks never have a byte to work on. -/
theorem fuzz_targets (allocs allocs' : List Bool) (allocOk : Bool) {data : Bytes} (hlen : data.length < 2 ^ 32) :
    (∃ fuel r, plainTarget fuel allocs data = some r) ∧
      ∃ fuel r, mitmTarget fuel allocs allocs' allocOk data = some r ∧ ∀ m, r = some m →
        createWithConfig .server mitmConfig allocs' = some m.server ∧ m.attacks = [1, 2, 3] ∧
          ∃ c, createWithConfig .client mitmConfig allocs = some c ∧ feedAndDrain fuel c data = some m.client ∧
            m.client.output = [] := by
  refine ⟨?_, ?_⟩
  · unfold plainTarget
    cases hc : createWithConfig .client plainConfig allocs with
    | none => exact ⟨0, none, rfl⟩
    | some c =>
      obtain ⟨fuel, c₁, c', n, hfeed, hdrain, -⟩ := feedAndDrain_returns hc hlen
      have hrun : feedAndDrain fuel c data = some c' := (feedAndDrain_eq (hfeed 0)).trans (hdrain 0)
      exact ⟨fuel, some c', congrArg (Option.map some) hrun⟩
  · unfold mitmTarget
    split
    · exact ⟨0, none, rfl, fun m hm => by cases hm⟩
    cases hc : createWithConfig .client mitmConfig allocs with
    | none => exact ⟨0, none, rfl, fun m hm => by cases hm⟩
    | some c =>
      cases hs : createWithConfig .server mitmConfig allocs' with
      | none => exact ⟨0, none, rfl, fun m hm => by cases hm⟩
      | some s =>
        cases allocOk with
        | false => exact ⟨0, none, rfl, fun m hm => by cases hm⟩
        | true =>
          obtain ⟨fuel, c₁, c', n, hfeed, hdrain, hout, hout'⟩ := feedAndDrain_returns hc hlen
          obtain ⟨-, -, -, hsout, -⟩ := create_empty hs
          have hm : Mitm.create (some c) (some s) true = some ⟨c, s, List.replicate Mitm.tableSize 0, 0⟩ := rfl
          have hdrainc := hdrain 1
          have hdrains := drain_created hs fuel
          rw [Nat.add_comm 1] at hdrains
          set table := (enableAll ⟨c, s, List.replicate Mitm.tableSize 0, 0⟩).enabledAttacks
          have hsteps := @runAll_steps_silent (fuel + 1) ⟨c₁, s, table, 3⟩ hout hsout 8
          refine ⟨fuel + 1, some ⟨c', s, table, 3⟩, ?_, ?_⟩
          · rw [hm]
            show ((c.feedInput (fuel + 1) data).bind fun r =>
              (HarnessCall.runAll (fuel + 1) ⟨r.1, s, table, 3⟩ (List.replicate 8 .step)).bind fun m =>
                (Ctx.drainEvents (fuel + 1) m.client).bind fun client =>
                  (Ctx.drainEvents (fuel + 1) m.server).bind fun server =>
                    some (some { m with client := client, server := server })) = _
            rw [hfeed 1, Option.bind_some, hsteps, Option.bind_some, hdrainc, Option.bind_some, hdrains, Option.bind_some]
          · rintro m ⟨rfl⟩
            exact ⟨rfl, rfl, c, rfl, (feedAndDrain_eq (hfeed 1)).trans hdrainc, hout'⟩

/-- One byte, with an allocation of the context itself that fails and with none that does. -/
theorem fuzz_targets_byte :
    (∃ fuel r, plainTarget fuel [false] [90] = some r) ∧
      ∃ fuel r, mitmTarget fuel [] [] true [90] = some r ∧ ∀ m, r = some m →
        createWithConfig .server mitmConfig [] = some m.server ∧ m.attacks = [1, 2, 3] := by
  obtain ⟨fuel, r, hr, hm⟩ := (@fuzz_targets [] [] true [90] (by decide)).2
  refine ⟨(@fuzz_targets [false] [] true [90] (by decide)).1, fuel, r, hr, ?_⟩
  intro m h
  obtain ⟨hs, ha, -⟩ := hm m h
  exact ⟨hs, ha⟩

end Pqwire

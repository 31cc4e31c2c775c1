import Pqwire.Spec.Observe

/-!
# The two directions of a context

The calls that receive and the calls that send. `pqwire_reset` is both: it drops what has been
received and what has not been drained. `pqwire_current_state` is neither: the phase is set from
both sides.

A Bind with a length that comes without its value sends what `malloc` left in the buffer. What is
drained of it is no function of the calls, so such a call is left without an outcome.
-/

namespace Pqwire

/-- Every value with a positive length is given. -/
def Send.specified : Send → Bool
  | .bind _ _ _ _ l v n _ _ => AllGiven l v n.toNat
  | .bindParams _ _ ps n _ _ => AllGiven (ps.map (·.map (·.length))) (ps.map (·.map (·.data))) n.toNat
  | .bindRewriteIdentity _ b _ _ slot _ _ =>
    ∀ i < b.nParams, i ≠ slot.toNat → 0 < (b.param i).length.toInt → (b.param i).data ≠ none
  | .unnamedPipeline _ _ _ _ _ l v n _ _ _ => AllGiven l v n.toNat
  | _ => true

namespace PublicCall

/-- Calls that receive. -/
def receives : PublicCall → Bool
  | .feed _ | .next | .reset => true
  | _ => false

/-- Calls that send. -/
def sends : PublicCall → Bool
  | .send _ | .output _ | .reset => true
  | _ => false

/-- What the call sends is given. -/
def specified : PublicCall → Bool
  | .send m => m.specified
  | _ => true

/-- Make the call; `none` also when it sends bytes that nobody has written. -/
def runSpecified (fuel : ℕ) (w : Watched) (call : PublicCall) : Option (Outcome × Watched) :=
  if call.specified then call.run fuel w else none

end PublicCall

/-- What a caller sees of a sequence of calls that have an outcome. -/
def Watched.observeSpecified (w : Watched) (fuel : ℕ) (calls : List PublicCall) : Option (List Outcome) :=
  Machine.observe (PublicCall.runSpecified fuel) w calls

end Pqwire

import Mathlib.Logic.Function.Basic
import Pqwire.Spec.Grammar
import Pqwire.Spec.Rewrite

/-!
# Rewrites one after the other

`Rewriting.apply` decodes the body of a Bind and encodes it again with an identity in one slot;
the message that it gives can be rewritten in turn.

`Sheet` is what such a rewrite works on, stated on its own: a format code and a value for each
slot, and the result formats. A rewrite updates one slot.
-/

namespace Pqwire

open ByteMem

/-- One rewrite: the identity goes into this slot, as text or as binary. -/
structure Rewriting where
  slot : UInt16
  identity : CStr
  asBinary : Bool

namespace Rewriting

/-- The body of a frame is decoded by `parse_bind_msg`, behind the five bytes of the header, and
encoded again by `pqwire_bind_rewrite_identity_zerocopy`; the complete message. -/
def apply (portal statement : Option CStr) (cap : ℕ) (r : Rewriting) (body : Bytes) : Option Bytes := do
  let b ← bindOf 5 body
  bindRewriteIdentityZerocopy (List.replicate 5 0 ++ body) b portal statement r.slot r.identity r.asBinary cap

/-- A second rewrite of the message that the first one gives. -/
def chain (portal statement : Option CStr) (cap : ℕ) (r r' : Rewriting) (body : Bytes) : Option Bytes := do
  let out ← r.apply portal statement cap body
  r'.apply portal statement cap (out.drop 5)

/-- With enough capacity, two ways to produce a message produce the same one. -/
def SameMessage (f g : ℕ → Option Bytes) : Prop := ∃ need, ∀ cap ≥ need, ∃ out, f cap = some out ∧ g cap = some out

end Rewriting

open Rewriting in
/-- In one slot the last of two rewrites with these identities counts. -/
def LastCounts (portal statement : Option CStr) (id₁ id₂ : CStr) : Prop :=
  ∀ body b, bindOf 5 body = some b → ∀ s : UInt16, s.toNat < b.nParams → ∀ f g : Bool,
    SameMessage (chain portal statement · ⟨s, id₁, f⟩ ⟨s, id₂, g⟩ body) (apply portal statement · ⟨s, id₂, g⟩ body)

open Rewriting in
/-- In two slots the order of two rewrites with these identities does not count. -/
def OrderFree (portal statement : Option CStr) (id₁ id₂ : CStr) : Prop :=
  ∀ body b, bindOf 5 body = some b → ∀ s t : UInt16, s.toNat < b.nParams → t.toNat < b.nParams → s ≠ t → ∀ f g : Bool,
    SameMessage (chain portal statement · ⟨s, id₁, f⟩ ⟨t, id₂, g⟩ body)
      (chain portal statement · ⟨t, id₂, g⟩ ⟨s, id₁, f⟩ body)

/-- The slots of a Bind, each with a format code and a value as it stands on the wire. -/
structure Sheet where
  n : ℕ
  format : ℕ → Int16
  value : ℕ → Bytes
  results : List Int16

namespace Sheet

/-- One slot is written. -/
def set (x : Sheet) (slot : ℕ) (code : Int16) (v : Bytes) : Sheet :=
  { x with format := Function.update x.format slot code, value := Function.update x.value slot v }

/-- The body of the Bind with these slots. -/
def body (portal stmt : CStr) (x : Sheet) : Bytes :=
  portal.toBytes ++ stmt.toBytes ++ encCodes ((List.range x.n).map x.format) ++
    (wr16Be x.n ++ (List.range x.n).flatMap x.value) ++ encCodes x.results

/-- The same slots, as far as there are any. -/
structure Same (x y : Sheet) : Prop where
  n : x.n = y.n
  format : ∀ i < x.n, x.format i = y.format i
  value : ∀ i < x.n, x.value i = y.value i
  results : x.results = y.results

end Sheet

/-- The slots of a parsed Bind. -/
def BindMsg.sheet (mem : Bytes) (b : BindMsg) : Sheet where
  n := b.nParams
  format := formatFor b.nFormats b.formats
  value i := if (b.param i).length.toInt < 0 then wr32Be (2 ^ 32 - 1)
    else wr32Be (b.param i).length.toUInt32.toNat ++ (b.param i).bytes mem
  results := (List.range b.nResultFormats).map b.resultFormat

end Pqwire

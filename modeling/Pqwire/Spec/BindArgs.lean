import Pqwire.Spec.Grammar
import Pqwire.Spec.Rewrite

/-!
# The arguments of a Bind

What `pqwire_send_bind` is asked to send, the event that shows exactly this, and the call
that sends a decoded event again.
-/

namespace Pqwire

open ByteMem

/-- The arguments of `pqwire_send_bind`. -/
structure BindArgs where
  portal : Option CStr
  statement : Option CStr
  formats : Option (List Int16)
  nFormats : UInt16
  lengths : Option (List Int32)
  values : Option (List (Option Bytes))
  nParams : UInt16
  resultFormats : Option (List Int16)
  nResultFormats : UInt16

namespace BindArgs

variable (a : BindArgs)

/-- Make the call. -/
def send (c : Ctx) : Ctx × ℤ :=
  c.sendBind a.portal a.statement a.formats a.nFormats a.lengths a.values a.nParams a.resultFormats a.nResultFormats

/-- `n` codes of an array, all 0 for a null pointer. -/
def codes (array : Option (List Int16)) (n : UInt16) : List Int16 :=
  (List.range n.toNat).map fun i => array.elim 0 (·.getD i 0)

/-- The length of parameter `i`; without an array every parameter is NULL. -/
def length (i : ℕ) : Int32 := a.lengths.elim (-1) (·.getD i 0)

/-- What the value pointer of parameter `i` points to. -/
def pointee (i : ℕ) : Option Bytes := a.values.bind (·.getD i none)

/-- The bytes of parameter `i`: as many as its length says. -/
def value (i : ℕ) : Bytes := ((a.pointee i).getD []).take (a.length i).toInt.toNat

/-- Names of at most 63 bytes, at most `PQWIRE_MAX_BIND_PARAMS` entries in each section, and
readable values where the length is positive. -/
structure InLimits : Prop where
  portal : (a.portal.getD CStr.empty).length ≤ 63
  statement : (a.statement.getD CStr.empty).length ≤ 63
  formats : a.nFormats.toNat ≤ maxBindParams
  params : a.nParams.toNat ≤ maxBindParams
  results : a.nResultFormats.toNat ≤ maxBindParams
  readable : ∀ i < a.nParams.toNat, 0 < (a.length i).toInt →
    ∃ v, a.pointee i = some v ∧ (a.length i).toInt.toNat ≤ v.length

/-- The format of parameter `i` as the protocol says: text when no code is given, the one code
when one is given, else the code of the parameter. -/
def protocolFormat : List Int16 → ℕ → Int16
  | [], _ => 0
  | [code], _ => code
  | codes, i => codes.getD i 0

/-- The event shows exactly what was sent. `mem` is the buffer that its views point into. -/
structure Shown (mem : Bytes) (b : BindMsg) : Prop where
  portal : b.portal = a.portal.getD CStr.empty
  statement : b.statement = a.statement.getD CStr.empty
  nFormats : b.nFormats = a.nFormats.toNat
  formats : b.formats = codes a.formats a.nFormats
  nParams : b.nParams = a.nParams.toNat
  params : ∀ i < a.nParams.toNat, (b.param i).length = a.length i ∧
    ((b.param i).data = none ↔ (a.length i).toInt < 0) ∧ (b.param i).bytes mem = a.value i ∧
    (b.param i).format = protocolFormat (codes a.formats a.nFormats) i
  nResultFormats : b.nResultFormats = a.nResultFormats.toNat
  resultFormats : b.resultFormats = codes a.resultFormats a.nResultFormats

end BindArgs

/-- The fields of a decoded event as arguments. A value pointer points into the buffer `mem`. -/
def BindMsg.args (mem : Bytes) (b : BindMsg) : BindArgs where
  portal := some b.portal
  statement := some b.statement
  formats := some b.formats
  nFormats := UInt16.ofNat b.nFormats
  lengths := some ((List.range b.nParams).map fun i => (b.param i).length)
  values := some ((List.range b.nParams).map fun i => (b.param i).data.map mem.drop)
  nParams := UInt16.ofNat b.nParams
  resultFormats := some b.resultFormats
  nResultFormats := UInt16.ofNat b.nResultFormats

end Pqwire

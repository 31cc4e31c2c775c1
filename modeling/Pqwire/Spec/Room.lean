import Pqwire.Lib.Growth
import Pqwire.Spec.BindArgs
import Pqwire.Spec.Dialog

/-!
# The room that the growing encoders need

`pqwire_send_bind` and `pqwire_send_data_row_multi` write into a heap buffer of 64 bytes and
256 more for each element. A value that does not fit makes the buffer grow, to 1024 bytes
behind the value; every other field is refused where it does not fit. What they lay out is
given here by the sizes of its pieces.
-/

namespace Pqwire

open ByteMem Growth

/-- The first capacity of the heap buffer for `n` elements. -/
def heapCap (n : ℕ) : ℕ := 64 + n * 256

/-- The slack behind a value that made the buffer grow. -/
def heapSlack : ℕ := 1024

/-- Where a value is given, it has as many bytes as its length says. -/
def Readable (lengths : Option (List Int32)) (values : Option (List (Option Bytes))) (n : ℕ) : Prop :=
  ∀ i < n, ∀ v, values.bind (·.getD i none) = some v → (lengths.elim (-1) (·.getD i 0) : Int32).toInt.toNat ≤ v.length

/-- A length field, and the value behind it where there is one. -/
def fieldPieces (len : Int32) (written : Bool) : List Piece :=
  if 0 < len.toInt ∧ written then [.fixed 4, .elastic len.toInt.toNat] else [.fixed 4]

namespace BindArgs

variable (a : BindArgs)

/-- The parameters: a positive length takes up that many bytes, with or without a value. -/
def paramPieces : List Piece := (List.range a.nParams.toNat).flatMap fun i => fieldPieces (a.length i) true

/-- What `pqwire_send_bind` lays out: both names, the formats, the number of parameters, the
parameters, the result formats. -/
def pieces : List Piece :=
  [.fixed ((a.portal.getD CStr.empty).length + 1 + ((a.statement.getD CStr.empty).length + 1)),
    .fixed (2 + a.nFormats.toNat * 2), .fixed 2] ++ a.paramPieces ++ [.fixed (2 + a.nResultFormats.toNat * 2)]

/-- The message goes through the heap buffer. -/
def Room : Prop := Fits heapSlack (heapCap a.nParams.toNat) 0 a.pieces

instance : Decidable a.Room := inferInstanceAs (Decidable (Fits _ _ _ _))

end BindArgs

/-- What `pqwire_send_data_row_multi` lays out: the number of columns and the columns. A positive
length without a value takes up the length field only. -/
def rowPieces (lengths : Option (List Int32)) (values : Option (List (Option Bytes))) (n : ℕ) : List Piece :=
  .fixed 2 :: (List.range n).flatMap fun i =>
    fieldPieces (lengths.elim (-1) (·.getD i 0)) (values.bind (·.getD i none)).isSome

/-- The row goes through the heap buffer. -/
def RowRoom (lengths : Option (List Int32)) (values : Option (List (Option Bytes))) (n : ℕ) : Prop :=
  Fits heapSlack (heapCap n) 0 (rowPieces lengths values n)

instance (lengths : Option (List Int32)) (values : Option (List (Option Bytes))) (n : ℕ) :
    Decidable (RowRoom lengths values n) := inferInstanceAs (Decidable (Fits _ _ _ _))

/-! ## The pipeline helper -/

/-- The arguments of `pqwire_send_unnamed_pipeline`. -/
structure PipelineArgs where
  query : Option CStr
  oids : Option (List UInt32)
  nOids : UInt16
  formats : Option (List Int16)
  nFormats : UInt16
  lengths : Option (List Int32)
  values : Option (List (Option Bytes))
  nParams : UInt16
  resultFormats : Option (List Int16)
  nResultFormats : UInt16
  maxRows : UInt32

namespace PipelineArgs

variable (a : PipelineArgs)

/-- Make the call. -/
def send (c : Ctx) : Ctx × ℤ :=
  c.sendUnnamedPipeline a.query a.oids a.nOids a.formats a.nFormats a.lengths a.values a.nParams a.resultFormats
    a.nResultFormats a.maxRows

/-- Its Bind. -/
def bind : BindArgs :=
  { portal := some CStr.empty
    statement := some CStr.empty
    formats := a.formats
    nFormats := a.nFormats
    lengths := a.lengths
    values := a.values
    nParams := a.nParams
    resultFormats := a.resultFormats
    nResultFormats := a.nResultFormats }

/-- There is no query, or it does not fit the buffer of the Parse with its parameter types. -/
def ParseRefused : Prop := ∀ query, a.query = some query → 1 + (query.length + 1) + 2 + a.nOids.toNat * 4 > maxQueryLen + 256

/-- The body of its Parse. -/
def parseBody (query : CStr) : Bytes :=
  CStr.empty.toBytes ++ query.toBytes ++ wr16Be a.nOids.toNat ++
    (List.range a.nOids.toNat).flatMap fun i => wr32Be (a.oids.elim 0 (·.getD i 0)).toNat

/-- The body of its Execute. -/
def executeBody : Bytes := CStr.empty.toBytes ++ wr32Be a.maxRows.toNat

end PipelineArgs

end Pqwire

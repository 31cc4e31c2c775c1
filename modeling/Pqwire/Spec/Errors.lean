import Pqwire.Spec.Pipeline

/-!
# The two decoders of error fields

The field loops of `parse_error_response` and `parse_error_fields`, each on its own and by offset
into the body as the source has it. Both start from an error that is all zeros.

`ErrorField.enc` is a body with the fields in order, `PqError.ofFields` what a decoder is to make
of them.
-/

namespace Pqwire

open ByteMem

/-! ## `parse_error_response` -/

namespace ErrorResponse

/-- The `switch (field)` on the error of the event. -/
def setField (error : PqError) (field : UInt8) (val : CStr) : PqError :=
  if field = ch 'S' then { error with severity := copyCstr 32 val }
  else if field = ch 'C' then { error with code := copyCstr 8 val }
  else if field = ch 'M' then { error with message := copyCstr 256 val }
  else if field = ch 'D' then { error with detail := copyCstr 256 val }
  else if field = ch 'H' then { error with hint := copyCstr 256 val }
  else if field = ch 'P' then { error with position := atoi val }
  else error

/-- `while (off < body_len && body[off] != 0)`. -/
def loop (body : Bytes) (off : ℕ) (error : PqError) : PqError :=
  if off < body.length ∧ body.getD off 0 ≠ 0 then
    match readCstr (body.drop (off + 1)) with
    | none => error
    | some (val, c) => loop body (off + 1 + c) (setField error (body.getD off 0) val)
  else error
termination_by body.length - off

/-- The error of the event that the call puts into the queue. -/
def error (body : Bytes) : PqError := loop body 0 {}

end ErrorResponse

/-! ## `parse_error_fields` -/

namespace ErrorFields

/-- The `switch (field)` on `*err`. -/
def setField (err : PqError) (field : UInt8) (val : CStr) : PqError :=
  if field = ch 'S' then { err with severity := copyCstr 32 val }
  else if field = ch 'C' then { err with code := copyCstr 8 val }
  else if field = ch 'M' then { err with message := copyCstr 256 val }
  else if field = ch 'D' then { err with detail := copyCstr 256 val }
  else if field = ch 'H' then { err with hint := copyCstr 256 val }
  else if field = ch 'P' then { err with position := atoi val }
  else err

/-- `while (off < body_len && body[off] != 0)`. -/
def loop (body : Bytes) (off : ℕ) (err : PqError) : PqError :=
  if off < body.length ∧ body.getD off 0 ≠ 0 then
    match readCstr (body.drop (off + 1)) with
    | none => err
    | some (val, c) => loop body (off + 1 + c) (setField err (body.getD off 0) val)
  else err
termination_by body.length - off

/-- What `*err` holds behind the call. -/
def error (body : Bytes) : PqError := loop body 0 {}

end ErrorFields

/-! ## Fields -/

/-- A field: a code that is not the zero byte behind the last one, and a value. -/
structure ErrorField where
  code : UInt8
  nonzero : code ≠ 0
  value : CStr

namespace ErrorField

/-- The fields in order, closed by a zero byte. -/
def enc (fields : List ErrorField) : Bytes := fields.flatMap (fun f => f.code :: f.value.toBytes) ++ [0]

/-- The last value given for a code. -/
def last (fields : List ErrorField) (code : UInt8) : Option CStr :=
  ((fields.filter (·.code = code)).getLast?).map (·.value)

/-- The codes that an error has a field for. -/
def known (f : ErrorField) : Bool := f.code ∈ [ch 'S', ch 'C', ch 'M', ch 'D', ch 'H', ch 'P']

end ErrorField

/-- **The error that a list of fields stands for.** -/
def PqError.ofFields (fields : List ErrorField) : PqError where
  severity := ((ErrorField.last fields (ch 'S')).map (·.take 31)).getD CStr.empty
  code := ((ErrorField.last fields (ch 'C')).map (·.take 7)).getD CStr.empty
  message := ((ErrorField.last fields (ch 'M')).map (·.take 255)).getD CStr.empty
  detail := ((ErrorField.last fields (ch 'D')).map (·.take 255)).getD CStr.empty
  hint := ((ErrorField.last fields (ch 'H')).map (·.take 255)).getD CStr.empty
  position := ((ErrorField.last fields (ch 'P')).map atoi).getD 0

/-- The position that a value states: the number in front of it where an `int` can hold that, and 0 where
there is no number. -/
def StatesPosition (val : CStr) (position : Int32) : Prop :=
  (∀ x : CText.Numeral, val.bytes = x.text → -2 ^ 31 ≤ x.value → x.value < 2 ^ 31 → position.toInt = x.value) ∧
    ((∀ x : CText.Numeral, val.bytes ≠ x.text) → position = 0)

end Pqwire

import Pqwire.Lib.Bytes
import Pqwire.Lib.RingBuf

/-!
# Events and limits (`protocol_events.h`)

The payload records of `protocol_event_t`. A fixed `char` array is the C string it
holds. A fixed array that a parser fills from index 0 of a cleared event is the list
of the entries written; the entries after them are zero, and every read goes through
an accessor that says so (`BindMsg.param`, `BindMsg.format`, ...).

Pointers stay pointers. A Bind parameter or a raw payload is an offset into the
context's input buffer, a DataRow column an offset into the row arena, and the
strings of `STARTUP`, `QUERY` and `COMMAND_COMPLETE` and the columns of
`ROW_DESCRIPTION` are not in the event at all: they are read from the context's
scratch areas when the event is looked at (`Ctx.read`).
-/

namespace Pqwire

open ByteMem

/-! ## Limits -/

def maxRowColumns : ℕ := 16
def notifyPayloadMax : ℕ := 8000
def maxStmtName : ℕ := 64
def maxPortalName : ℕ := 64
def maxQueryLen : ℕ := 4096
def maxBindParams : ℕ := 32
def maxParamTypes : ℕ := 16

/-- `sizeof (ctx->row_arena)`. -/
def rowArenaSize : ℕ := 65536

/-! ## Payloads -/

/-- A column of a DataRow: `data[i]`, `len[i]`, `format[i]`, `oid[i]`. -/
structure RowColumn where
  /-- offset into the row arena; `none` is `NULL` -/
  data : Option ℕ
  len : ℕ
  format : Int16 := 0
  oid : UInt32 := 0
  deriving DecidableEq

/-- `pq_data_row_t`; `n_columns` is the length of the list. -/
structure DataRow where
  columns : List RowColumn
  deriving DecidableEq

/-- `pq_error_t`. -/
structure PqError where
  severity : CStr := CStr.empty
  code : CStr := CStr.empty
  message : CStr := CStr.empty
  detail : CStr := CStr.empty
  hint : CStr := CStr.empty
  position : Int32 := 0
  deriving DecidableEq

/-- `pq_notification_t`. -/
structure Notification where
  pid : Int32
  channel : CStr
  payload : CStr
  deriving DecidableEq

/-- `pq_parse_t`. -/
structure ParseMsg where
  statement : CStr
  query : CStr
  nParamTypes : ℕ
  paramTypeOids : List UInt32
  deriving DecidableEq

/-- `param_type_oids[i]`: zero where the parser stored nothing. -/
def ParseMsg.oid (m : ParseMsg) (i : ℕ) : UInt32 := m.paramTypeOids.getD i 0

/-- `pq_bind_param_view_t`: `data` is an offset into the input buffer. -/
structure BindParamView where
  length : Int32
  data : Option ℕ
  format : Int16
  deriving DecidableEq

/-- The view of a slot the parser has not written (`memset (&ev, 0, sizeof (ev))`). -/
def BindParamView.zero : BindParamView := ⟨0, none, 0⟩

/-- `pq_bind_t`. -/
structure BindMsg where
  portal : CStr
  statement : CStr
  nFormats : ℕ
  formats : List Int16
  nParams : ℕ
  params : List BindParamView
  nResultFormats : ℕ
  resultFormats : List Int16
  /-- offset of the body in the input buffer -/
  rawBody : ℕ
  rawBodyLen : ℕ
  deriving DecidableEq

def BindMsg.format (b : BindMsg) (i : ℕ) : Int16 := b.formats.getD i 0
def BindMsg.param (b : BindMsg) (i : ℕ) : BindParamView := b.params.getD i .zero
def BindMsg.resultFormat (b : BindMsg) (i : ℕ) : Int16 := b.resultFormats.getD i 0

/-- `pq_describe_t`. -/
structure DescribeMsg where
  target : UInt8
  name : CStr
  deriving DecidableEq

/-- `pq_execute_t`. -/
structure ExecuteMsg where
  portal : CStr
  maxRows : UInt32
  deriving DecidableEq

/-- `pq_close_t`. -/
structure CloseMsg where
  target : UInt8
  name : CStr
  deriving DecidableEq

/-! ## Events -/

/-- `protocol_event_t`. The members of `protocol_event_type_t` that no code emits
(`PQ_EVENT_ERROR`, the COPY responses) are left out. -/
inductive Event where
  /-- a cleared slot -/
  | none
  | startup
  | authenticationOk
  | readyForQuery
  | query
  | rowDescription (columnCount : ℕ)
  | dataRow (row : DataRow)
  | commandComplete
  | protocolError
  | errorResponse (err : PqError)
  | noticeResponse
  | parse (m : ParseMsg)
  | bind (m : BindMsg)
  | describe (m : DescribeMsg)
  | execute (m : ExecuteMsg)
  | close (m : CloseMsg)
  | sync
  | flush
  | terminate
  | parseComplete
  | bindComplete
  | noData
  | portalSuspended
  | closeComplete
  | parameterStatus (data len : ℕ)
  | notification (n : Notification)
  deriving DecidableEq

/-- What a caller reads through the pointers of an event: strings, column
descriptions, and byte slices (`none` for a `NULL` pointer). -/
structure View where
  strs : List CStr := []
  cols : List (Option CStr × UInt32 × Int16) := []
  blobs : List (Option Bytes) := []
  deriving DecidableEq

/-- An event in the queue. `frame` and `seen` are history, not memory of the program:
the message body the event was parsed from, and what its pointers denoted when it was
enqueued. -/
structure Queued where
  ev : Event
  frame : Bytes
  seen : View
  deriving DecidableEq

instance : Inhabited Queued := ⟨⟨.none, [], {}⟩⟩

end Pqwire

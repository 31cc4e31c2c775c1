import Pqwire.Spec.Feed
import Pqwire.Spec.Rewrite

/-!
# Runs

`Send` names the send helpers with their arguments, `Step` is one public call on a
context, and `Reachable` holds of the contexts that some sequence of calls leads to
from creation.
-/

namespace Pqwire

open ByteMem

/-- A call of a send helper. -/
inductive Send where
  | startup (user database : Option CStr)
  | query (sql : Option CStr)
  | call (procedure : Option CStr)
  | terminate
  | parse (statement query : Option CStr) (oids : Option (List UInt32)) (n : UInt16)
  | bind (portal statement : Option CStr) (formats : Option (List Int16)) (nFormats : UInt16)
      (lengths : Option (List Int32)) (values : Option (List (Option Bytes))) (nParams : UInt16)
      (resultFormats : Option (List Int16)) (nResultFormats : UInt16)
  | bindParams (portal statement : Option CStr) (params : Option (List Param)) (nParams : UInt16)
      (resultFormats : Option (List Int16)) (nResultFormats : UInt16)
  | bindRewriteIdentity (mem : Bytes) (b : BindMsg) (portal statement : Option CStr) (slot : UInt16)
      (identity : CStr) (asBinary : Bool)
  | describe (target : UInt8) (name : Option CStr)
  | execute (portal : Option CStr) (maxRows : UInt32)
  | close (target : UInt8) (name : Option CStr)
  | sync
  | flush
  | unnamedPipeline (query : Option CStr) (oids : Option (List UInt32)) (nOids : UInt16)
      (formats : Option (List Int16)) (nFormats : UInt16)
      (lengths : Option (List Int32)) (values : Option (List (Option Bytes))) (nParams : UInt16)
      (resultFormats : Option (List Int16)) (nResultFormats : UInt16) (maxRows : UInt32)
  | authOk
  | readyForQuery
  | rowDescription (cols : Option (List Ctx.ColumnArg))
  | dataRow (data : Option Bytes) (format : Int16) (oid : UInt32)
  | dataRowMulti (lengths : Option (List Int32)) (values : Option (List (Option Bytes))) (nCols : UInt16)
  | commandComplete (tag : Option CStr)
  | errorResponse (severity sqlstate message : Option CStr)
  | parseComplete
  | bindComplete
  | closeComplete
  | noData

/-- Make the call. -/
def Send.run (c : Ctx) : Send → Ctx × ℤ
  | .startup u d => c.sendStartup u d
  | .query s => c.sendQuery s
  | .call p => c.sendCall p
  | .terminate => c.sendTerminate
  | .parse s q o n => c.sendParse s q o n
  | .bind p s f nf l v n r nr => c.sendBind p s f nf l v n r nr
  | .bindParams p s ps n r nr => c.sendBindParams p s ps n r nr
  | .bindRewriteIdentity mem b p s slot i bin => c.sendBindRewriteIdentity mem b p s slot i bin
  | .describe t n => c.sendDescribe t n
  | .execute p m => c.sendExecute p m
  | .close t n => c.sendClose t n
  | .sync => c.sendSync
  | .flush => c.sendFlush
  | .unnamedPipeline q o no f nf l v n r nr m => c.sendUnnamedPipeline q o no f nf l v n r nr m
  | .authOk => c.sendAuthOk
  | .readyForQuery => c.sendReadyForQuery
  | .rowDescription cols => c.sendRowDescription cols
  | .dataRow d f o => c.sendDataRow d f o
  | .dataRowMulti l v n => c.sendDataRowMulti l v n
  | .commandComplete t => c.sendCommandComplete t
  | .errorResponse s q m => c.sendErrorResponse s q m
  | .parseComplete => c.sendParseComplete
  | .bindComplete => c.sendBindComplete
  | .closeComplete => c.sendCloseComplete
  | .noData => c.sendNoData

/-- One public call. A call of `pqwire_feed_input` that never returns is not a step. -/
inductive Step : Ctx → Ctx → Prop
  | feed {c c' : Ctx} {data : Bytes} {fuel n : ℕ} : c.feedInput fuel data = some (c', n) → Step c c'
  | next {c c' : Ctx} {q : Queued} : c.nextEvent = some (q, c') → Step c c'
  | reset (c : Ctx) : Step c (reset c)
  | output (c : Ctx) (maxLen : ℕ) : Step c (c.getOutput maxLen).2
  | send (c : Ctx) (s : Send) : Step c (s.run c).1
  | ready (c : Ctx) : Step c (noteReady c)

/-- Calls of `pqwire_next_event` and nothing else. -/
inductive Dequeues : Ctx → Ctx → Prop
  | refl (c : Ctx) : Dequeues c c
  | next {c d d' : Ctx} {q : Queued} : Dequeues c d → d.nextEvent = some (q, d') → Dequeues c d'

/-- Some sequence of public calls leads from creation to `c`. -/
inductive Reachable : Ctx → Prop
  | create {role : Role} {config : Config} {allocs : List Bool} {c : Ctx} :
      createWithConfig role config allocs = some c → Reachable c
  | step {c c' : Ctx} : Reachable c → Step c c' → Reachable c'

end Pqwire

import Pqwire.Lib.LastWrite
import Pqwire.Spec.Feed
import Pqwire.Spec.Grammar
import Pqwire.Spec.Send

/-!
# What a message has to contain

The grammar of the messages that the parsers accept without checking it: the first message of a
connection, and the bodies of the messages with several fields. A body may have more behind
what its grammar asks for.
-/

namespace Pqwire

open ByteMem

/-! ## Startup -/

/-- Key/value strings on the wire. -/
def encPairs (pairs : List (CStr × CStr)) : Bytes := pairs.flatMap fun kv => kv.1.toBytes ++ kv.2.toBytes

/-- The message is a StartupMessage of version 3.0 with these parameters: no key is empty, and a
zero byte closes the list. -/
def Startup.Carries (s : Startup) (pairs : List (CStr × CStr)) : Prop :=
  (∀ kv ∈ pairs, 0 < kv.1.length) ∧ s.body = wr32Be Ctx.proto30 ++ encPairs pairs ++ [0]

/-- The last value given for a key, the empty string if there is none. -/
def lastValue (key : CStr) (pairs : List (CStr × CStr)) : CStr :=
  (LastWrite.lastOf (fun kv => if kv.1 = key then some kv.2 else none) pairs).getD CStr.empty

/-- How a first message has to be received, when `c'` is what `c` becomes by it: a StartupMessage gives
one STARTUP event with the last user and the last database, and ends the wait for it; anything else
gives none, and the wait goes on. -/
structure StartupExact (c c' : Ctx) (s : Startup) : Prop where
  accepted : ∀ pairs, s.Carries pairs → c'.startupSeen = true ∧ ∃ q : Queued, c'.log = c.log ++ [q] ∧
    q.ev = .startup ∧ q.seen.strs = [(lastValue keyUser pairs).take 127, (lastValue keyDatabase pairs).take 127]
  refused : (∀ pairs, ¬s.Carries pairs) → c'.startupSeen = false ∧ ∀ q : Queued, c'.log = c.log ++ [q] → q.ev ≠ .startup

/-! ## Bodies with fields -/

/-- The messages that have fields to be found in the body: those of a client, then those of a server. -/
inductive Fielded where
  | query | parse | describe | close | execute
  | rowDescription | dataRow | commandComplete
  deriving DecidableEq

/-- A column of a RowDescription on the wire: its name and 18 bytes. -/
structure ColumnBytes where
  name : CStr
  fixed : Bytes
  ok : fixed.length = 18

def ColumnBytes.enc (col : ColumnBytes) : Bytes := col.name.toBytes ++ col.fixed

namespace Fielded

/-- The role that receives the message. -/
def role : Fielded → Role
  | .rowDescription | .dataRow | .commandComplete => .client
  | _ => .server

/-- The type byte of the message. -/
def byte : Fielded → UInt8
  | .query => FrontType.query.byte
  | .parse => FrontType.parse.byte
  | .describe => FrontType.describe.byte
  | .close => FrontType.close.byte
  | .execute => FrontType.execute.byte
  | .rowDescription => BackType.rowDescription.byte
  | .dataRow => BackType.dataRow.byte
  | .commandComplete => BackType.commandComplete.byte

/-- The event is the one that reports the message. -/
def Reported : Fielded → Event → Prop
  | .query, ev => ev = .query
  | .parse, ev => ∃ m, ev = .parse m
  | .describe, ev => ∃ m, ev = .describe m
  | .close, ev => ∃ m, ev = .close m
  | .execute, ev => ∃ m, ev = .execute m
  | .rowDescription, ev => ∃ n, ev = .rowDescription n
  | .dataRow, ev => ∃ r, ev = .dataRow r
  | .commandComplete, ev => ev = .commandComplete

/-- **The grammar.** The body starts with all the fields of the message. -/
def Contains : Fielded → Bytes → Prop
  | .query, body => ∃ sql : CStr, sql.toBytes <+: body
  | .parse, body => ∃ (stmt sql : CStr) (oids : List UInt32), oids.length < 2 ^ 16 ∧
      stmt.toBytes ++ sql.toBytes ++ wr16Be oids.length ++ (oids.flatMap fun o => wr32Be o.toNat) <+: body
  | .describe, body => ∃ (target : UInt8) (name : CStr), target :: name.toBytes <+: body
  | .close, body => ∃ (target : UInt8) (name : CStr), target :: name.toBytes <+: body
  | .execute, body => ∃ (portal : CStr) (maxRows : UInt32), portal.toBytes ++ wr32Be maxRows.toNat <+: body
  | .rowDescription, body => ∃ cols : List ColumnBytes, cols.length < 2 ^ 16 ∧
      wr16Be cols.length ++ cols.flatMap ColumnBytes.enc <+: body
  | .dataRow, body => ∃ values : List Field, values.length < 2 ^ 16 ∧ encFields values <+: body
  | .commandComplete, body => ∃ tag : CStr, tag.toBytes <+: body

/-- What is behind the first `k` terminated strings. -/
def behindStrings : ℕ → Bytes → Option Bytes
  | 0, p => some p
  | k + 1, p =>
    match readCstr p with
    | none => none
    | some (_, n) => behindStrings k (p.drop n)

/-- There are `n` columns of a RowDescription in front. -/
def columnsFit : ℕ → Bytes → Bool
  | 0, _ => true
  | n + 1, p =>
    match behindStrings 1 p with
    | none => false
    | some q => 18 ≤ q.length && columnsFit n (q.drop 18)

/-- There are `n` length-prefixed values in front. -/
def valuesFit : ℕ → Bytes → Bool
  | 0, _ => true
  | n + 1, p =>
    let len := (toI32 (rd32Be p 0)).toInt.toNat
    4 + len ≤ p.length && valuesFit n (p.drop (4 + len))

/-- All fields are there, by count. -/
def complete : Fielded → Bytes → Bool
  | .query, body => (behindStrings 1 body).isSome
  | .parse, body => (behindStrings 2 body).any fun p => 2 + 4 * rd16Be p 0 ≤ p.length
  | .describe, body => (behindStrings 1 (body.drop 1)).isSome
  | .close, body => (behindStrings 1 (body.drop 1)).isSome
  | .execute, body => (behindStrings 1 body).any fun p => 4 ≤ p.length
  | .rowDescription, body => 2 ≤ body.length && columnsFit (rd16Be body 0) (body.drop 2)
  | .dataRow, body => 2 ≤ body.length && valuesFit (rd16Be body 0) (body.drop 2)
  | .commandComplete, body => (behindStrings 1 body).isSome

/-- The body ends so early that the parser gives it up. -/
def dropped : Fielded → Bytes → Bool
  | .query, _ => false
  | .parse, body => (behindStrings 2 body).isNone
  | .describe, body => body.isEmpty
  | .close, body => body.isEmpty
  | .execute, body => (behindStrings 1 body).isNone
  | .rowDescription, body => body.length < 2
  | .dataRow, body => body.length < 2
  | .commandComplete, _ => false

end Fielded

end Pqwire

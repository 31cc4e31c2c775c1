import Pqwire.Spec.Parse

/-!
# The message grammar of the protocol

What a well-formed message is, stated on its own and not through the parsers: values
and their encoding. A parser is right when it inverts the encoding.

`Field` is a length-prefixed value, `BindBody` the body of a Bind, `FrontMsg` a
frontend message, `Frame` any typed message and `Startup` the untyped first one.
-/

namespace Pqwire

open ByteMem

/-- A length-prefixed value. A negative length is `NULL` and no bytes follow it. -/
structure Field where
  len : Int32
  data : Bytes
  ok : data.length = len.toInt.toNat
  deriving DecidableEq

/-- A 16-bit format code on the wire. -/
def encCode (code : Int16) : Bytes := wr16Be code.toUInt16.toNat

/-- A length-prefixed value on the wire. -/
def Field.enc (f : Field) : Bytes := wr32Be f.len.toUInt32.toNat ++ f.data

/-- A count and that many format codes on the wire. -/
def encCodes (codes : List Int16) : Bytes := wr16Be codes.length ++ codes.flatMap encCode

/-- A count and that many length-prefixed values on the wire. -/
def encFields (fs : List Field) : Bytes := wr16Be fs.length ++ fs.flatMap Field.enc

/-- The body of a Bind message. -/
structure BindBody where
  portal : CStr
  statement : CStr
  formats : List Int16
  params : List Field
  results : List Int16
  formats_lt : formats.length < 2 ^ 16
  params_lt : params.length < 2 ^ 16
  results_lt : results.length < 2 ^ 16
  deriving DecidableEq

namespace BindBody

def enc (x : BindBody) : Bytes :=
  x.portal.toBytes ++ x.statement.toBytes ++ encCodes x.formats ++ encFields x.params ++ encCodes x.results

/-- No section has more than `PQWIRE_MAX_BIND_PARAMS` entries. -/
def InLimits (x : BindBody) : Prop :=
  x.formats.length ≤ maxBindParams ∧ x.params.length ≤ maxBindParams ∧ x.results.length ≤ maxBindParams

instance (x : BindBody) : Decidable x.InLimits := inferInstanceAs (Decidable (_ ∧ _ ∧ _))

end BindBody

/-- A message from the frontend. -/
inductive FrontMsg where
  | query (sql : CStr)
  | parse (statement query : CStr) (oids : List UInt32) (h : oids.length < 2 ^ 16)
  | bind (x : BindBody)
  | describe (target : UInt8) (name : CStr)
  | execute (portal : CStr) (maxRows : UInt32)
  | close (target : UInt8) (name : CStr)
  | sync
  | flush
  | terminate
  deriving DecidableEq

namespace FrontMsg

def type : FrontMsg → FrontType
  | .query _ => .query
  | .parse _ _ _ _ => .parse
  | .bind _ => .bind
  | .describe _ _ => .describe
  | .execute _ _ => .execute
  | .close _ _ => .close
  | .sync => .sync
  | .flush => .flush
  | .terminate => .terminate

def body : FrontMsg → Bytes
  | .query sql => sql.toBytes
  | .parse stmt sql oids _ =>
    stmt.toBytes ++ sql.toBytes ++ wr16Be oids.length ++ oids.flatMap fun o => wr32Be o.toNat
  | .bind x => x.enc
  | .describe t name => t :: name.toBytes
  | .execute portal n => portal.toBytes ++ wr32Be n.toNat
  | .close t name => t :: name.toBytes
  | .sync => []
  | .flush => []
  | .terminate => []

end FrontMsg

/-- A typed message whose length fits its length field. -/
structure Frame where
  type : UInt8
  body : Bytes
  short : body.length + 4 < 2 ^ 32
  deriving DecidableEq

namespace Frame

/-- The value of the length field. -/
def len (f : Frame) : ℕ := f.body.length + 4

def enc (f : Frame) : Bytes := f.type :: wr32Be f.len ++ f.body

/-- A stream of frames. -/
def encAll (fs : List Frame) : Bytes := fs.flatMap enc

/-- The length is in range for the context. -/
def Fits (f : Frame) (c : Ctx) : Prop := f.len ≤ c.maxMessageSize

instance (f : Frame) (c : Ctx) : Decidable (f.Fits c) := inferInstanceAs (Decidable (_ ≤ _))

end Frame

/-- A startup message, which has no type byte: its length, then the protocol version and
the parameters. -/
structure Startup where
  body : Bytes
  version : 4 ≤ body.length
  short : body.length + 4 < 2 ^ 32
  deriving DecidableEq

namespace Startup

/-- The value of the length field. -/
def len (s : Startup) : ℕ := s.body.length + 4

def enc (s : Startup) : Bytes := wr32Be s.len ++ s.body

/-- The length is in range for the context. -/
def Fits (s : Startup) (c : Ctx) : Prop := s.len ≤ c.maxMessageSize

instance (s : Startup) (c : Ctx) : Decidable (s.Fits c) := inferInstanceAs (Decidable (_ ≤ _))

end Startup

end Pqwire

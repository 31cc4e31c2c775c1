import Pqwire.Spec.Send

/-!
# Bind parameters and the identity rewrite

`pqwire_param_t` slots, the copying path (`bindInjectIdentity` then
`sendBindParams`) and the slicing path (`bindRewriteIdentityZerocopy`).

The views of a parsed Bind point into the input buffer of the context that parsed
it, so both paths take that memory (`mem`) besides the event. The parameter helpers
take the outcomes of the allocations they make.
-/

namespace Pqwire

open ByteMem

/-- `pqwire_param_t`. -/
structure Param where
  length : Int32
  data : Option Bytes
  owned : Bool
  format : Int16
  deriving DecidableEq

/-- `pqwire_param_clear`. -/
def paramClear : Param := ⟨-1, none, false, 0⟩

/-- `pqwire_param_set_text`: `strlen` bytes are copied. -/
def paramSetText (text : CStr) (ok : Bool) : Option Param :=
  if ¬ok ∧ text.length > 0 then none
  else some ⟨toI32 text.length, some text.bytes, true, 0⟩

/-- `pqwire_param_set_binary`. -/
def paramSetBinary (data : Bytes) (ok : Bool) : Option Param :=
  if data = [] then some ⟨0, none, true, 1⟩
  else if ¬ok then none
  else some ⟨toI32 data.length, some data, true, 1⟩

/-- `pqwire_param_set_null`. -/
def paramSetNull : Param := ⟨-1, none, false, 0⟩

/-- The bytes a view denotes: none for an unset pointer. -/
def BindParamView.bytes (mem : Bytes) (v : BindParamView) : Bytes :=
  match v.data with
  | none => []
  | some p => slice mem p v.length.toInt.toNat

/-- The C string at the start of a byte array that a terminator follows. -/
def cstrOf (p : Bytes) : CStr :=
  match readCstr (p ++ [0]) with
  | none => CStr.empty
  | some (s, _) => s

/-- Copy one parameter that is not the identity slot. A text value goes through a
terminated copy and `pqwire_param_set_text`, so it ends at its first zero byte. `ok₁`,
`ok₂` are the outcomes of the allocations it makes. -/
def injectOther (mem : Bytes) (v : BindParamView) (ok₁ ok₂ : Bool) : Option Param :=
  if v.length.toInt < 0 then some { paramSetNull with format := v.format }
  else if v.format = 1 then paramSetBinary (v.bytes mem) ok₁
  -- text goes through a copy with a terminator of its own
  else if ¬ok₁ then none
  else paramSetText (cstrOf (v.bytes mem)) ok₂

/-- The loop of `pqwire_bind_inject_identity` from parameter `i`. `ok i` gives the
outcomes of the allocations made for parameter `i`. -/
def injectLoop (mem : Bytes) (b : BindMsg) (slot : ℕ) (identity : CStr) (asBinary : Bool)
    (ok : ℕ → Bool × Bool) : ℕ → ℕ → Option (List Param)
  | 0, _ => some []
  | n + 1, i => do
    let p ←
      if i = slot then
        if asBinary then paramSetBinary identity.bytes (ok i).1 else paramSetText identity (ok i).1
      else injectOther mem (b.param i) (ok i).1 (ok i).2
    let ps ← injectLoop mem b slot identity asBinary ok n (i + 1)
    return p :: ps

/-- `pqwire_bind_inject_identity`; `none` is a return of -1. -/
def bindInjectIdentity (mem : Bytes) (b : BindMsg) (slot : UInt16) (identity : CStr) (asBinary : Bool)
    (ok : ℕ → Bool × Bool) : Option (List Param) :=
  if slot.toNat ≥ b.nParams ∧ b.nParams > 0 then none
  else if b.nParams = 0 then none
  else injectLoop mem b slot.toNat identity asBinary ok b.nParams 0

/-- `pqwire_send_bind_params`. -/
def Ctx.sendBindParams (c : Ctx) (portal statement : Option CStr) (params : Option (List Param))
    (nParams : UInt16) (resultFormats : Option (List Int16)) (nResultFormats : UInt16) : Ctx × ℤ :=
  if params = none ∧ nParams.toNat > 0 then (c, -1)
  else if nParams.toNat > maxBindParams then (c, -1)
  else
    let ps := (params.getD []).take nParams.toNat
    c.sendBind portal statement (some (ps.map (·.format))) nParams (some (ps.map (·.length)))
      (some (ps.map (·.data))) nParams resultFormats nResultFormats

/-- `PUT_BYTES`, `PUT_U16` and `PUT_U32`: append unless the capacity is exceeded. -/
def put (cap : ℕ) (p bs : Bytes) : Option Bytes := if p.length + bs.length > cap then none else some (p ++ bs)

/-- A run of such appends. -/
def putAll (cap : ℕ) (p : Bytes) (chunks : List Bytes) : Option Bytes := chunks.foldlM (put cap) p

/-- The format code the rewrite writes for parameter `i`. -/
def rewriteFormat (b : BindMsg) (slot : ℕ) (asBinary : Bool) (i : ℕ) : Int16 :=
  if i = slot then (if asBinary then 1 else 0) else formatFor b.nFormats b.formats i

/-- The chunks the rewrite writes for parameter `i`: its length, then its bytes. -/
def rewriteParam (mem : Bytes) (b : BindMsg) (slot : ℕ) (identity : CStr) (i : ℕ) : List Bytes :=
  if i = slot then [wr32Be identity.length, identity.bytes]
  else
    let v := b.param i
    -- any negative length is written as -1
    if v.length.toInt < 0 then [wr32Be (2 ^ 32 - 1)]
    else [wr32Be v.length.toUInt32.toNat, v.bytes mem]

/-- `pqwire_bind_rewrite_identity_zerocopy`: the complete message, `none` for a return
of -1. Five bytes are left for the header, which is filled in last. -/
def bindRewriteIdentityZerocopy (mem : Bytes) (b : BindMsg) (portal statement : Option CStr) (slot : UInt16)
    (identity : CStr) (asBinary : Bool) (outCap : ℕ) : Option Bytes :=
  if b.nParams = 0 ∨ slot.toNat ≥ b.nParams then none
  else if 5 > outCap then none
  else do
    let p ← put outCap (List.replicate 5 0) (portal.getD CStr.empty).toBytes
    let p ← put outCap p (statement.getD CStr.empty).toBytes
    let p ← put outCap p (wr16Be b.nParams)
    let p ← putAll outCap p ((List.range b.nParams).map fun i =>
      wr16Be (rewriteFormat b slot.toNat asBinary i).toUInt16.toNat)
    let p ← put outCap p (wr16Be b.nParams)
    let p ← putAll outCap p ((List.range b.nParams).flatMap (rewriteParam mem b slot.toNat identity))
    let p ← put outCap p (wr16Be b.nResultFormats)
    let p ← putAll outCap p ((List.range b.nResultFormats).map fun i =>
      wr16Be (b.resultFormat i).toUInt16.toNat)
    -- the length counts itself and the body, not the type byte
    return ch 'B' :: wr32Be (p.length - 1) ++ p.drop 5

/-- `pqwire_send_bind_rewrite_identity`, with its 8192-byte buffer. -/
def Ctx.sendBindRewriteIdentity (c : Ctx) (mem : Bytes) (b : BindMsg) (portal statement : Option CStr)
    (slot : UInt16) (identity : CStr) (asBinary : Bool) : Ctx × ℤ :=
  match bindRewriteIdentityZerocopy mem b portal statement slot identity asBinary 8192 with
  | none => (c, -1)
  | some out => (c.appendOutput out, 0)

end Pqwire

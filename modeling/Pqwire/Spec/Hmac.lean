import Pqwire.Lib.Hmac
import Pqwire.Lib.Objects
import Pqwire.Lib.Stores
import Pqwire.Spec.Sha256

/-!
# `hmac_sha256` and `pbkdf2_sha256`

`hmacSha256` works on the memory of its caller: key, data and output are pointers, and nothing
keeps them apart. The hash context on its stack is not initialised and is passed in.

`pbkdf2Sha256` is a program that stores into `salt_buf` (`CMem.Filler`), so that every index it
writes there is on record; its other arrays, and the password, are the objects that it calls
`hmacSha256` on.
-/

namespace Pqwire

open ByteMem CMem

/-- `for (i = 0; i < n; i++) a[i] ^= b[i]`. -/
def xorLoop (n : ℕ) (a b : Bytes) : Bytes :=
  (List.range n).foldl (fun a i => a.set i (a.getD i 0 ^^^ b.getD i 0)) a

/-- `k_ipad` and `k_opad`: 64 times the byte, and the key on top. -/
def keyPad (byte : UInt8) (key : Bytes) : Bytes := xorLoop key.length (List.replicate 64 byte) key

/-- `hmac_sha256`, with the memory that it leaves. -/
def hmacSha256 {ι : Type} [DecidableEq ι] (ctx : Sha256Ctx) (mem : Objects ι) (key : Ptr ι) (keylen : ℕ) (data : Ptr ι)
    (datalen : ℕ) (out : Ptr ι) : Objects ι :=
  -- a long key is replaced by its hash, in `tk`
  let tk := if keylen > 64 then sha256Final (sha256Update (sha256Init ctx) (mem.read key keylen)) else (ctx, mem.read key keylen)
  let inner := sha256Update (sha256Update (sha256Init tk.1) (keyPad 0x36 tk.2)) (mem.read data datalen)
  let mem := mem.write out (sha256Final inner).2
  -- the inner hash is read back from `out`
  let outer := sha256Update (sha256Update (sha256Init (sha256Final inner).1) (keyPad 0x5c tk.2)) (mem.read out 32)
  mem.write out (sha256Final outer).2

/-! ## `pbkdf2_sha256` -/

/-- The stores into `salt_buf`. -/
def fillSaltBuf (salt : Bytes) : Filler Unit := do
  store 0 salt
  store salt.length [0]
  store (salt.length + 1) [0]
  store (salt.length + 2) [0]
  store (salt.length + 3) [1]

/-- The arrays that `hmac_sha256` is called on. -/
inductive PbkdfObject where
  | password
  | u
  | t
  | saltBuf
  deriving DecidableEq

/-- The stack of a call before anything is stored there: its arrays, and the hash context of each
call of `hmac_sha256`. -/
structure PbkdfFrame where
  u : Bytes
  uSize : u.length = 32
  t : Bytes
  tSize : t.length = 32
  saltBuf : Block
  ctx : ℕ → Sha256Ctx

namespace PbkdfFrame

variable (frame : PbkdfFrame)

/-- The memory when `salt_buf` holds `saltBuf`. -/
def memory (password : CStr) (saltBuf : Bytes) : Objects PbkdfObject
  | .password => password.toBytes
  | .u => frame.u
  | .t => frame.t
  | .saltBuf => saltBuf

/-- `n` rounds of the loop, from the call `i` of `hmac_sha256` on. -/
def loop (passwordLen : ℕ) : ℕ → ℕ → Objects PbkdfObject → Objects PbkdfObject
  | 0, _, mem => mem
  | n + 1, i, mem =>
    let mem := hmacSha256 (frame.ctx i) mem ⟨.password, 0⟩ passwordLen ⟨.u, 0⟩ 32 ⟨.u, 0⟩
    loop passwordLen n (i + 1) (Function.update mem .t (xorLoop 32 (mem .t) (mem .u)))

/-- The memory behind the loop, when `salt_buf` holds `saltBuf`. -/
def derive (password : CStr) (saltBuf : Bytes) (saltLen : ℕ) (iterations : UInt32) : Objects PbkdfObject :=
  let mem := frame.memory password saltBuf
  let mem := hmacSha256 (frame.ctx 0) mem ⟨.password, 0⟩ password.length ⟨.saltBuf, 0⟩ (saltLen + 4) ⟨.t, 0⟩
  let mem := mem.write ⟨.u, 0⟩ (mem.read ⟨.t, 0⟩ 32)
  frame.loop password.length (iterations.toNat - 1) 1 mem

end PbkdfFrame

/-- `pbkdf2_sha256`: the bytes copied to `out`. -/
def pbkdf2Sha256 (frame : PbkdfFrame) (password : CStr) (salt : Bytes) (iterations : UInt32) (outLen : ℕ) :
    Filler Bytes := do
  fillSaltBuf salt
  let saltBuf := afterStores frame.saltBuf.1 (fillSaltBuf salt).run.log
  return (frame.derive password saltBuf salt.length iterations).read ⟨.t, 0⟩ (if outLen > 32 then 32 else outLen)

end Pqwire

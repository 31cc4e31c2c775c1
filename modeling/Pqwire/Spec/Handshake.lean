import Pqwire.Lib.LastWrite
import Pqwire.Spec.Copies

/-!
# A SCRAM handshake

The other functions of `scram.c` on a `scram_sha256_ctx_t`, and runs of all of them on one context,
in any order: `scram.c` keeps a `state` and never looks at it. `scram_sha256_client_first` is
`clientFirst`; what it stores in `out` is here too.
-/

namespace Pqwire

open ByteMem CMem CText LastWrite

/-- `snprintf (out, n, ...)` of a text: the bytes that are stored. -/
def snprintf (text : CStr) (n : ℕ) : Bytes := if n = 0 then [] else (text.take (n - 1)).toBytes

/-- `strncpy (out, src, n)`: the bytes that are stored. -/
def strncpy (src : CStr) (n : ℕ) : Bytes := src.bytes.take n ++ List.replicate (n - src.length) 0

namespace ScramCtx

variable (c : ScramCtx)

theorem firstLabel_noNul : (0 : UInt8) ∉ "n,,n=user,r=".toList.map ch := by
  decide

/-- The text of `scram_sha256_client_first`. -/
def firstText : CStr := Ctx.cat ⟨"n,,n=user,r=".toList.map ch, firstLabel_noNul⟩ c.clientNonce

/-- The text of `scram_sha256_client_final`. -/
def finalText : CStr := Ctx.cat ⟨"c=biws,r=".toList.map ch, by decide⟩ (Ctx.cat c.serverNonce c.clientNonce)

/-- `scram_sha256_client_final`: what `out` holds. The text goes through `client_final[256]`. -/
def clientFinal (outLen : ℕ) : Bytes := strncpy (c.finalText.take 255) outLen

/-- `scram_sha256_process_server_final`: the message is not looked at. -/
def processServerFinal (_serverFinal : CStr) : ScramCtx := { c with state := 2 }

end ScramCtx

/-- A call on the context. -/
inductive ScramCall where
  | init (rand : ℕ → ℕ)
  | clientFirst (outLen : ℕ)
  | serverFirst (frame : ScramFrame) (message password : CStr)
  | clientFinal (outLen : ℕ)
  | serverFinal (message : CStr)

/-- What the caller gets: the return value and the bytes stored in `out`. -/
structure ScramReply where
  ret : ℤ
  out : Bytes := []
  deriving DecidableEq

namespace ScramCall

def run (c : ScramCtx) : ScramCall → ScramCtx × ScramReply
  | .init rand => (scramSha256Init rand, ⟨0, []⟩)
  | .clientFirst outLen =>
    (c, ⟨if (Pqwire.clientFirst c outLen).isSome then 0 else -1, snprintf c.firstText outLen⟩)
  | .serverFirst frame message password =>
    match (processServerFirst frame c message password).run.val with
    | none => (c, ⟨-1, []⟩)
    | some c' => (c', ⟨0, []⟩)
  | .clientFinal outLen => (c, ⟨0, c.clientFinal outLen⟩)
  | .serverFinal message => (c.processServerFinal message, ⟨0, []⟩)

/-- The stores of the call into `salt_buf` stay inside it. -/
def Safe (c : ScramCtx) : ScramCall → Prop
  | .serverFirst frame message password => ∀ w ∈ (processServerFirst frame c message password).run.log, w.Below 64
  | _ => True

/-- The calls differ in the password, and in what the stack held, at most. -/
inductive Alike : ScramCall → ScramCall → Prop
  | init (rand : ℕ → ℕ) : Alike (.init rand) (.init rand)
  | clientFirst (outLen : ℕ) : Alike (.clientFirst outLen) (.clientFirst outLen)
  | serverFirst (frame frame' : ScramFrame) (message password password' : CStr) :
      Alike (.serverFirst frame message password) (.serverFirst frame' message password')
  | clientFinal (outLen : ℕ) : Alike (.clientFinal outLen) (.clientFinal outLen)
  | serverFinal (message : CStr) : Alike (.serverFinal message) (.serverFinal message)

/-- The `state` that a call with this reply sets. -/
def newState : ScramCall × ScramReply → Option ℤ
  | (.init _, _) => some 0
  | (.serverFirst _ _ _, r) => if r.ret = 0 then some 1 else none
  | (.serverFinal _, _) => some 2
  | _ => none

/-- The password that the keys are derived from behind a call with this reply. -/
def newPassword : ScramCall × ScramReply → Option (Option CStr)
  | (.init _, _) => some none
  | (.serverFirst _ _ password, r) => if r.ret = 0 then some (some password) else none
  | _ => none

end ScramCall

namespace ScramCtx

/-- Calls one after the other. -/
def runAll (c : ScramCtx) : List ScramCall → ScramCtx × List ScramReply
  | [] => (c, [])
  | call :: calls =>
    let r := call.run c
    let s := r.1.runAll calls
    (s.1, r.2 :: s.2)

/-- Every call of the run is safe. -/
def SafeAll (c : ScramCtx) : List ScramCall → Prop
  | [] => True
  | call :: calls => call.Safe c ∧ (call.run c).1.SafeAll calls

/-- The context but for the keys. -/
def sansKeys (c : ScramCtx) : ScramCtx := { c with saltedPassword := [], storedKey := [] }

/-- The strings of the context fit its arrays. -/
structure Formed (c : ScramCtx) : Prop where
  clientNonce : c.clientNonce.length = 24 ∧ ∀ b ∈ c.clientNonce.bytes, b ∈ charset
  serverNonce : c.serverNonce.length ≤ 31 ∧ ch ',' ∉ c.serverNonce.bytes
  salt : c.salt.length ≤ 60 ∧ ch ',' ∉ c.salt.bytes
  saltLen : c.saltLen = c.salt.length

open Hmac in
/-- The keys are those of RFC 5802 for the password and for salt and count of the context, over the
hash of the code, with the salt taken as it stands; or there are none yet. -/
def Keyed (c : ScramCtx) : Option CStr → Prop
  | none => c.saltedPassword = List.replicate 32 0 ∧ c.storedKey = List.replicate 32 0
  | some password =>
    c.saltedPassword = pbkdf2 (hmac sha256 64 password.bytes) c.salt.bytes c.iterations.toNat ∧
      c.storedKey = sha256 (hmac sha256 64 c.saltedPassword clientKeyLabel)

end ScramCtx

end Pqwire

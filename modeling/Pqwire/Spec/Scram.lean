import Pqwire.Lib.Scan
import Pqwire.Spec.Hmac
import Pqwire.Spec.Parse

/-!
# SCRAM-SHA-256: the client's side of the server-first message

The context of `scram.h` and `scram_sha256_process_server_first`. The context is as
`scram_sha256_init` leaves it or as earlier calls do; strings in it are kept without their
terminator. `client_key`, `client_signature` and `server_signature` of the context are left out:
no function reads or writes them.

`processServerFirst` is a program that stores into the `salt_buf` of `pbkdf2_sha256`; an early
return of it is a return of -1.
-/

namespace Pqwire

open ByteMem CMem CText

/-- `scram_sha256_ctx_t`. -/
structure ScramCtx where
  clientNonce : CStr := CStr.empty
  serverNonce : CStr := CStr.empty
  salt : CStr := CStr.empty
  saltLen : ℕ := 0
  iterations : UInt32 := 0
  saltedPassword : Bytes := List.replicate 32 0
  storedKey : Bytes := List.replicate 32 0
  state : ℤ := 0

/-- `charset` of `generate_nonce`. -/
def charset : Bytes := ((List.range' 97 26) ++ (List.range' 65 26) ++ (List.range' 48 10)).map UInt8.ofNat

/-- `generate_nonce`; `rand i` is what call `i` of `rand` returns. -/
def generateNonce (rand : ℕ → ℕ) (len : ℕ) : CStr :=
  strOf ((List.range len).map fun i => charset.getD (rand i % 62) 0)

/-- `scram_sha256_init`. -/
def scramSha256Init (rand : ℕ → ℕ) : ScramCtx := { clientNonce := generateNonce rand 24 }

/-- The arrays that the client key is computed from and in. -/
inductive KeyObject where
  | saltedPassword
  | label
  | clientKey
  deriving DecidableEq

/-- The stack of `scram_sha256_process_server_first` and of what it calls. -/
structure ScramFrame where
  pbkdf : PbkdfFrame
  hmacCtx : Sha256Ctx
  shaCtx : Sha256Ctx
  clientKey : Bytes
  clientKeySize : clientKey.length = 32

/-- The string `"Client Key"`. -/
def clientKeyLabel : Bytes := "Client Key".toList.map ch

namespace ScramFrame

variable (frame : ScramFrame)

def memory (saltedPassword : Bytes) : Objects KeyObject
  | .saltedPassword => saltedPassword
  | .label => clientKeyLabel
  | .clientKey => frame.clientKey

/-- The client key and its hash. -/
def storedKey (saltedPassword : Bytes) : Bytes :=
  let mem := hmacSha256 frame.hmacCtx (frame.memory saltedPassword) ⟨.saltedPassword, 0⟩ 32 ⟨.label, 0⟩ 10 ⟨.clientKey, 0⟩
  (sha256Final (sha256Update (sha256Init frame.shaCtx) (mem.read ⟨.clientKey, 0⟩ 32))).2

end ScramFrame

/-- The three conversions. One that matches nothing leaves its field as it was. -/
def ScramCtx.scan (c : ScramCtx) (r s i : Bytes) : ScramCtx :=
  let salt := ((scanUntil (ch ',') 63 (s.drop 2)).map strOf).getD c.salt
  { c with
    serverNonce := ((scanUntil (ch ',') 31 (r.drop 2)).map strOf).getD c.serverNonce
    salt := salt
    iterations := (scanUnsigned (i.drop 2)).getD c.iterations
    saltLen := salt.length }

/-- `scram_sha256_process_server_first`. -/
def processServerFirst (frame : ScramFrame) (c : ScramCtx) (serverFirst password : CStr) : Filler ScramCtx :=
  match strstr [ch 'r', ch '='] serverFirst.bytes, strstr [ch 's', ch '='] serverFirst.bytes,
    strstr [ch 'i', ch '='] serverFirst.bytes with
  | some r, some s, some i => do
    let c := c.scan r s i
    let saltedPassword ← pbkdf2Sha256 frame.pbkdf password c.salt.bytes c.iterations 32
    return { c with saltedPassword := saltedPassword, storedKey := frame.storedKey saltedPassword, state := 1 }
  | _, _, _ => failure

/-! ## Messages -/

def isBase64 (b : UInt8) : Bool :=
  (ch 'A' ≤ b ∧ b ≤ ch 'Z') ∨ (ch 'a' ≤ b ∧ b ≤ ch 'z') ∨ (ch '0' ≤ b ∧ b ≤ ch '9') ∨ b = ch '+' ∨ b = ch '/' ∨ b = ch '='

/-- A server-first message as RFC 5802 has it: `r=<nonce>,s=<salt>,i=<count>`. -/
structure ServerFirst where
  nonce : Bytes
  salt : Bytes
  count : ℕ
  nonceLen : 1 ≤ nonce.length ∧ nonce.length ≤ 31
  nonceChars : ∀ b ∈ nonce, 0x20 ≤ b ∧ b ≤ 0x7e ∧ b ≠ ch ','
  saltLen : 1 ≤ salt.length ∧ salt.length ≤ 60
  saltChars : ∀ b ∈ salt, isBase64 b = true
  countRange : 1 ≤ count ∧ count < 2 ^ 32

namespace ServerFirst

variable (m : ServerFirst)

/-- The characters of the message. -/
def text : Bytes :=
  ch 'r' :: ch '=' :: m.nonce ++ ch ',' :: (ch 's' :: ch '=' :: m.salt ++ ch ',' :: (ch 'i' :: ch '=' :: decimal m.count))

/-- The message as the C string that the function is given. -/
def enc : CStr := strOf m.text

/-- **The attributes are extracted exactly**, from a context just initialised. -/
def Extracted (frame : ScramFrame) (rand : ℕ → ℕ) (password : CStr) : Prop :=
  ∃ c, (processServerFirst frame (scramSha256Init rand) m.enc password).run.val = some c ∧
    c.serverNonce.bytes = m.nonce ∧ c.salt.bytes = m.salt ∧ c.saltLen = m.salt.length ∧ c.iterations.toNat = m.count

/-- The first `s=` is that of the salt, or the rest of the nonce behind it is the salt. -/
def SaltFound : Prop := ∀ t, strstr [ch 's', ch '='] m.nonce = some t → t.drop 2 = m.salt

/-- The first `i=` is that of the count, or the count is what `%u` reads behind it. -/
def CountFound : Prop := ∀ t, (strstr [ch 'i', ch '='] m.nonce).or (strstr [ch 'i', ch '='] m.salt) = some t →
  scanUnsigned (t.drop 2) = some (UInt32.ofNat m.count)

end ServerFirst

end Pqwire

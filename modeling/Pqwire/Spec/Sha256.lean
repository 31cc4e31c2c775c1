import Pqwire.Lib.Fips180

/-!
# The hash of `scram.c`

`sha256_transform`, `sha256_init`, `sha256_update` and `sha256_final`, as the source has them. The
eight words of a state are `Fips180.Words`; nothing else here is from the standard.

The array `data` of a context is not initialised: `sha256Init` leaves it as it is, so a context
before it is an arbitrary one. `(data[j] << 24)` is taken on 32 bits.
-/

namespace Pqwire

open ByteMem Fips180

/-- The table `k`. -/
def k : List UInt32 :=
  [0x428a2f98, 0x71374491, 0xb5c0fbcf, 0xe9b5dba5, 0x3956c25b, 0x59f111f1, 0x923f82a4, 0xab1c5ed5,
    0xd807aa98, 0x12835b01, 0x243185be, 0x550c7dc3, 0x72be5d74, 0x80deb1fe, 0x9bdc06a7, 0xc19bf174,
    0xe49b69c1, 0xefbe4786, 0x0fc19dc6, 0x240ca1cc, 0x2de92c6f, 0x4a7484aa, 0x5cb0a9dc, 0x76f988da,
    0x983e5152, 0xa831c66d, 0xb00327c8, 0xbf597fc7, 0xc6e00bf3, 0xd5a79147, 0x06ca6351, 0x14292967,
    0x27b70a85, 0x2e1b2138, 0x4d2c6dfc, 0x53380d13, 0x650a7354, 0x766a0abb, 0x81c2c92e, 0x92722c85,
    0xa2bfe8a1, 0xa81a664b, 0xc24b8b70, 0xc76c51a3, 0xd192e819, 0xd6990624, 0xf40e3585, 0x106aa070,
    0x19a4c116, 0x1e376c08, 0x2748774c, 0x34b0bcb5, 0x391c0cb3, 0x4ed8aa4a, 0x5b9cca4f, 0x682e6ff3,
    0x748f82ee, 0x78a5636f, 0x84c87814, 0x8cc70208, 0x90befffa, 0xa4506ceb, 0xbef9a3f7, 0xc67178f2]

/-! ## `sha256_transform` -/

/-- `m[i]` for `i < 16`, with `j = 4 * i`. -/
def loadWord (data : Bytes) (j : ℕ) : UInt32 :=
  (data.getD j 0).toUInt32 <<< 24 ||| (data.getD (j + 1) 0).toUInt32 <<< 16 |||
    (data.getD (j + 2) 0).toUInt32 <<< 8 ||| (data.getD (j + 3) 0).toUInt32

/-- `m[i]` for `i` from 16 on, when the words before it are there. -/
def scheduleWord (m : List UInt32) : UInt32 :=
  let i := m.length
  let m15 : UInt32 := m.getD (i - 15) 0
  let m2 : UInt32 := m.getD (i - 2) 0
  m.getD (i - 16) 0 + (0x741c : UInt32) + ((m15 >>> 7 ||| m15 <<< 25) ^^^ (m15 >>> 18 ||| m15 <<< 14) ^^^ (m15 >>> 3)) +
    m.getD (i - 7) 0 + ((m2 >>> 17 ||| m2 <<< 15) ^^^ (m2 >>> 19 ||| m2 <<< 13) ^^^ (m2 >>> 10))

/-- The array `m`, as its two loops fill it. -/
def messageWords (data : Bytes) : List UInt32 :=
  extend scheduleWord 48 ((List.range 16).map fun i => loadWord data (4 * i))

/-- A round of the third loop on the variables `a` to `h`. -/
def transformRound (m : List UInt32) (s : Words) (i : ℕ) : Words :=
  let t1 := s.h + ((s.e >>> 6 ||| s.e <<< 26) ^^^ (s.e >>> 11 ||| s.e <<< 21) ^^^ (s.e >>> 25 ||| s.e <<< 7)) +
    ((s.e &&& s.f) ^^^ (~~~s.e &&& s.g)) + k.getD i 0 + m.getD i 0
  let t2 := ((s.a >>> 2 ||| s.a <<< 30) ^^^ (s.a >>> 13 ||| s.a <<< 19) ^^^ (s.a >>> 22 ||| s.a <<< 10)) +
    ((s.a &&& s.b) ^^^ (s.a &&& s.c) ^^^ (s.b &&& s.c))
  ⟨t1 + t2, s.a, s.b, s.c, s.d + t1, s.e, s.f, s.g⟩

/-- The variables after the first `n` rounds. -/
def transformRounds (m : List UInt32) (n : ℕ) (s : Words) : Words := (List.range n).foldl (transformRound m) s

/-- `sha256_transform`: what becomes of `ctx->state`. -/
def sha256Transform (state : Words) (data : Bytes) : Words :=
  let s := transformRounds (messageWords data) 64 state
  ⟨state.a + s.a, state.b + s.b, state.c + s.c, state.d + s.d, state.e + s.e, state.f + s.f, state.g + s.g,
    state.h + s.h⟩

/-! ## The context -/

/-- An array of 64 bytes. -/
abbrev Block := { d : Bytes // d.length = 64 }

namespace Block

/-- `d[i] = b`. -/
def set (d : Block) (i : ℕ) (b : UInt8) : Block := ⟨d.1.set i b, by rw [List.length_set, d.2]⟩

/-- `while (i < n) d[i++] = 0`. -/
def zero (d : Block) (i n : ℕ) : Block := (List.range' i (n - i)).foldl (fun d j => d.set j 0) d

end Block

/-- `SHA256_CTX`. -/
structure Sha256Ctx where
  data : Block
  datalen : ℕ
  bitlen : UInt64
  state : Words

/-- `sha256_init`. -/
def sha256Init (c : Sha256Ctx) : Sha256Ctx :=
  { c with
    datalen := 0
    bitlen := 0
    state := ⟨0x6a09e667, 0xbb67ae85, 0x3c6ef372, 0xa54ff53a, 0x510e527f, 0x9b05688c, 0x1f83d9ab, 0x5be0cd19⟩ }

/-- A round of the loop of `sha256_update`. -/
def updateByte (c : Sha256Ctx) (b : UInt8) : Sha256Ctx :=
  let c := { c with data := c.data.set c.datalen b, datalen := c.datalen + 1 }
  if c.datalen = 64 then
    { c with state := sha256Transform c.state c.data.1, bitlen := c.bitlen + 512, datalen := 0 }
  else c

/-- `sha256_update`. -/
def sha256Update (c : Sha256Ctx) (data : Bytes) : Sha256Ctx := data.foldl updateByte c

/-- The padding of the last block, up to its length field; the first branch of `sha256_final`
is for a block in which the length field has room. -/
def padBlock (c : Sha256Ctx) : Sha256Ctx :=
  let data := c.data.set c.datalen 0x80
  if c.datalen < 56 then { c with data := data.zero (c.datalen + 1) 56 }
  else
    let data := data.zero (c.datalen + 1) 64
    { c with state := sha256Transform c.state data.1, data := data.zero 0 56 }

/-- The eight stores of the length field. -/
def storeBitlen (data : Block) (bitlen : UInt64) : Block :=
  (((((((data.set 63 bitlen.toUInt8).set 62 (bitlen >>> 8).toUInt8).set 61 (bitlen >>> 16).toUInt8).set 60
    (bitlen >>> 24).toUInt8).set 59 (bitlen >>> 32).toUInt8).set 58 (bitlen >>> 40).toUInt8).set 57
    (bitlen >>> 48).toUInt8).set 56 (bitlen >>> 56).toUInt8

/-- The bytes stored in `hash`: byte `i` of word `j` is `hash[i + 4 * j]`. -/
def hashBytes (state : Words) : Bytes :=
  state.toList.flatMap fun w => (List.range 4).map fun i => (w >>> (24 - UInt32.ofNat i * 8) &&& 0x000000ff).toUInt8

/-- `sha256_final`: the context left, and `hash`. -/
def sha256Final (c : Sha256Ctx) : Sha256Ctx × Bytes :=
  let c₁ := padBlock c
  let bitlen := c₁.bitlen + UInt64.ofNat (c₁.datalen * 8)
  let data := storeBitlen c₁.data bitlen
  let state := sha256Transform c₁.state data.1
  ({ c₁ with bitlen := bitlen, data := data, state := state }, hashBytes state)

/-- A context as it may lie in memory. -/
instance : Inhabited Sha256Ctx := ⟨⟨List.replicate 64 0, rfl⟩, 0, 0, ⟨0, 0, 0, 0, 0, 0, 0, 0⟩⟩

/-- **The hash of the code**: `sha256_init`, one `sha256_update` and `sha256_final`. -/
def sha256 (msg : Bytes) : Bytes := (sha256Final (sha256Update (sha256Init default) msg)).2

/-- What the standard says of a message: in every block the words of the message schedule and the
working variables after each round, and the digest. -/
structure AsSpecified (msg : Bytes) : Prop where
  words : ∀ block ∈ blocks (pad msg), messageWords block = schedule block
  working : ∀ block ∈ blocks (pad msg), ∀ s, ∀ n ≤ 64,
    transformRounds (messageWords block) n s = rounds (schedule block) n s
  digest : sha256 msg = Fips180.sha256 msg

end Pqwire

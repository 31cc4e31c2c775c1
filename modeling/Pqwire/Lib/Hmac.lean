import Pqwire.Lib.Bytes

/-!
# Keyed hashing

HMAC over an arbitrary hash `H` with blocks of `B` bytes (RFC 2104), and the first block of PBKDF2
over an arbitrary pseudorandom function (RFC 8018).
-/

namespace Hmac

open ByteMem

section

variable (H : Bytes → Bytes) (B : ℕ)

/-- `K0`: the key, or its hash where it is longer than a block, padded with zeros. -/
def keyBlock (key : Bytes) : Bytes :=
  let key := if key.length > B then H key else key
  key ++ List.replicate (B - key.length) 0

/-- **HMAC.** -/
def hmac (key data : Bytes) : Bytes :=
  H ((keyBlock H B key).map (· ^^^ 0x5c) ++ H ((keyBlock H B key).map (· ^^^ 0x36) ++ data))

end

def xorBytes (a b : Bytes) : Bytes := List.zipWith (· ^^^ ·) a b

section

variable (prf : Bytes → Bytes)

/-- `U` with the index `j + 1`, from the first one. -/
def chain (u₁ : Bytes) : ℕ → Bytes
  | 0 => u₁
  | j + 1 => prf (chain u₁ j)

/-- The exclusive or of the first `n + 1` of them. -/
def chainXor (u₁ : Bytes) : ℕ → Bytes
  | 0 => u₁
  | n + 1 => xorBytes (chainXor u₁ n) (chain prf u₁ (n + 1))

/-- **The first block of PBKDF2**, for `c` iterations. -/
def pbkdf2 (salt : Bytes) (c : ℕ) : Bytes := chainXor prf (prf (salt ++ wr32Be 1)) (c - 1)

/-- Every link of the chain has the size of the function's results. -/
theorem chain_length {n : ℕ} (h : ∀ x, (prf x).length = n) {u₁ : Bytes} (h₁ : u₁.length = n) (j : ℕ) :
    (chain prf u₁ j).length = n := by
  cases j with
  | zero => exact h₁
  | succ j => exact h _

theorem chainXor_length {n : ℕ} (h : ∀ x, (prf x).length = n) {u₁ : Bytes} (h₁ : u₁.length = n) (j : ℕ) :
    (chainXor prf u₁ j).length = n := by
  induction j with
  | zero => exact h₁
  | succ j ih => rw [chainXor, xorBytes, List.length_zipWith, ih, chain_length prf h h₁, min_self]

end

end Hmac

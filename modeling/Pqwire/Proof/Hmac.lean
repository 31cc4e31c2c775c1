import Pqwire.Proof.Sha256
import Pqwire.Spec.Hmac

/-!
# HMAC and PBKDF2 over the hash of the code

All that is used of the hash is that a digest does not depend on what the context held before
`sha256_init`, that it is the same for every split, and that it has 32 bytes.

* `hmacSha256_eq`: the call writes the HMAC of key and data to its output, wherever that is.
* `loop_spec`: the invariant of the iteration, with `u` updated in place.
-/

namespace Pqwire

open ByteMem CMem Hmac

/-! ## The hash -/

theorem sha256Update_append (c : Sha256Ctx) (a b : Bytes) :
    sha256Update (sha256Update c a) b = sha256Update c (a ++ b) := (List.foldl_append ..).symm

/-- The digest does not depend on the context. -/
theorem sha256Final_digest (c : Sha256Ctx) (msg : Bytes) :
    (sha256Final (sha256Update (sha256Init c) msg)).2 = sha256 msg := by
  have hstate : ∀ c : Sha256Ctx, (sha256Final (sha256Update (sha256Init c) msg)).1.state =
      (Fips180.blocks (Fips180.pad msg)).foldl sha256Transform Fips180.initial := by
    intro c
    obtain ⟨full, part, heq, h⟩ := sha256Update_buffered (sha256Init_buffered c) msg
    rw [List.append_nil, List.nil_append] at heq
    rw [sha256Final_state h, heq, init_eq]
  rw [sha256, sha256Final_hash, sha256Final_hash, hstate, hstate]

theorem sha256_length (msg : Bytes) : (sha256 msg).length = 32 := by
  rw [sha256, sha256Final_hash]
  rfl

/-! ## Exclusive or -/

theorem xorLoop_eq {n : ℕ} {a b : Bytes} (ha : n ≤ a.length) (hb : n ≤ b.length) :
    xorLoop n a b = xorBytes (a.take n) (b.take n) ++ a.drop n := by
  unfold xorLoop
  induction n with
  | zero => rfl
  | succ n ih =>
    rw [List.range_succ, List.foldl_append, ih (by omega) (by omega)]
    have hfront : (xorBytes (a.take n) (b.take n)).length = n := by
      rw [xorBytes, List.length_zipWith, List.length_take, List.length_take]
      omega
    have ha' : a[n]? = some (a.getD n 0) := by
      rw [List.getD_eq_getElem?_getD, List.getElem?_eq_getElem (by omega), Option.getD_some]
    have hb' : b[n]? = some (b.getD n 0) := by
      rw [List.getD_eq_getElem?_getD, List.getElem?_eq_getElem (by omega), Option.getD_some]
    have hdrop : a.drop n = a.getD n 0 :: a.drop (n + 1) := by
      rw [List.drop_eq_getElem_cons (by omega), List.getD_eq_getElem?_getD, List.getElem?_eq_getElem (by omega),
        Option.getD_some]
    have hget : (xorBytes (a.take n) (b.take n) ++ a.drop n).getD n 0 = a.getD n 0 := by
      rw [List.getD_eq_getElem?_getD, List.getElem?_append_right (by omega), hfront, Nat.sub_self, hdrop]
      rfl
    rw [List.foldl_cons, List.foldl_nil, hget, List.set_append_right _ _ (by omega), hfront, Nat.sub_self, hdrop,
      List.set_cons_zero, List.take_add_one, List.take_add_one, ha', hb']
    simp only [xorBytes, Option.toList_some]
    rw [List.zipWith_append (by rw [List.length_take, List.length_take]; omega), List.append_assoc]
    rfl

theorem xorLoop_whole {n : ℕ} {a b : Bytes} (ha : a.length = n) (hb : b.length = n) : xorLoop n a b = xorBytes a b := by
  rw [xorLoop_eq ha.ge hb.ge, List.take_of_length_le ha.le, List.take_of_length_le hb.le, List.drop_eq_nil_of_le ha.le,
    List.append_nil]

/-- A pad of a key that fits the block. -/
theorem keyPad_eq {key : Bytes} (h : key.length ≤ 64) (byte : UInt8) :
    keyPad byte key = (key ++ List.replicate (64 - key.length) 0).map (· ^^^ byte) := by
  unfold keyPad
  rw [xorLoop_eq (by simpa using h) le_rfl, List.take_replicate, min_eq_left h, List.take_of_length_le le_rfl,
    List.drop_replicate, List.map_append, List.map_replicate, UInt8.zero_xor, xorBytes]
  congr 1
  induction key with
  | nil => rfl
  | cons b key ih =>
    rw [List.length_cons] at h
    rw [List.length_cons, List.replicate_succ, List.zipWith_cons_cons, List.map_cons, ih (by omega), UInt8.xor_comm]

/-! ## HMAC -/

theorem hmac_length (key data : Bytes) : (hmac sha256 64 key data).length = 32 := sha256_length _

/-- **`hmac_sha256` computes HMAC over the hash of the code**, for any keys and data, and for any
place of the output: all of key and data is read before the first store. -/
theorem hmacSha256_eq {ι : Type} [DecidableEq ι] (ctx : Sha256Ctx) {mem : Objects ι} {key : Ptr ι} {keylen : ℕ}
    (data : Ptr ι) (datalen : ℕ) {out : Ptr ι} (hk : mem.Valid key keylen) (ho : mem.Valid out 32) :
    hmacSha256 ctx mem key keylen data datalen out =
      mem.write out (hmac sha256 64 (mem.read key keylen) (mem.read data datalen)) := by
  have hlen := hk.read_length
  set K := mem.read key keylen
  set tk := if keylen > 64 then sha256Final (sha256Update (sha256Init ctx) K) else (ctx, K) with htk
  have hshort : tk.2 = if K.length > 64 then sha256 K else K := by
    rw [htk, hlen]
    split
    · exact sha256Final_digest ctx K
    · rfl
  have h64 : tk.2.length ≤ 64 := by
    rw [hshort]
    split
    · rw [sha256_length]
      omega
    · omega
  have hpad : ∀ byte, keyPad byte tk.2 = (keyBlock sha256 64 K).map (· ^^^ byte) := by
    intro byte
    rw [keyPad_eq h64, keyBlock, ← hshort]
  have hdigest : ∀ (c : Sha256Ctx) (a b : Bytes),
      (sha256Final (sha256Update (sha256Update (sha256Init c) a) b)).2 = sha256 (a ++ b) := by
    intro c a b
    rw [sha256Update_append, sha256Final_digest]
  unfold hmacSha256
  dsimp only
  rw [← htk]
  simp only [hdigest, hpad]
  set inner := sha256 ((keyBlock sha256 64 K).map (· ^^^ 0x36) ++ mem.read data datalen) with hinner
  have hvalid : mem.Valid out inner.length := by rw [hinner, sha256_length]; exact ho
  have hback : (mem.write out inner).read out 32 = inner := by
    have := Objects.read_write_self hvalid
    rwa [hinner, sha256_length] at this
  rw [hback, Objects.write_write hvalid (by rw [hinner, sha256_length, sha256_length])]
  rfl

/-! ## PBKDF2 -/

/-- **The salt and the block index**, in a salt buffer that they fit. -/
theorem fillSaltBuf_fills {salt : Bytes} (h : salt.length ≤ 60) :
    Fills 64 [] (fillSaltBuf salt) (some ()) (salt ++ wr32Be 1) := by
  have h0 : Fills 64 [] (store 0 salt) (some ()) ([] ++ salt) := .store rfl (by simp; omega)
  have h1 : Fills 64 ([] ++ salt) (store salt.length [0]) (some ()) (salt ++ [0]) := .store rfl (by simp; omega)
  have h2 : Fills 64 (salt ++ [0]) (store (salt.length + 1) [0]) (some ()) (salt ++ [0] ++ [0]) :=
    .store (by simp) (by simp; omega)
  have h3 : Fills 64 (salt ++ [0] ++ [0]) (store (salt.length + 2) [0]) (some ()) (salt ++ [0] ++ [0] ++ [0]) :=
    .store (by simp) (by simp; omega)
  have h4 : Fills 64 (salt ++ [0] ++ [0] ++ [0]) (store (salt.length + 3) [1]) (some ()) (salt ++ [0] ++ [0] ++ [0] ++ [1]) :=
    .store (by simp) (by simp; omega)
  have hbytes : salt ++ wr32Be 1 = salt ++ [0] ++ [0] ++ [0] ++ [1] := by
    simp only [List.append_assoc]
    rfl
  rw [hbytes]
  exact h0.bind (h1.bind (h2.bind (h3.bind h4)))

namespace PbkdfFrame

variable (frame : PbkdfFrame) {password : CStr} {mem : Objects PbkdfObject}

/-- The password is read up to its terminator. -/
theorem read_password (h : mem .password = password.toBytes) :
    mem.Valid ⟨.password, 0⟩ password.length ∧ mem.read ⟨.password, 0⟩ password.length = password.bytes := by
  constructor
  · show 0 + password.length ≤ (mem .password).length
    rw [h, CStr.toBytes_length]
    omega
  · show slice (mem .password) 0 password.length = password.bytes
    rw [h, slice, List.drop_zero, CStr.toBytes, CStr.length, List.take_left]

/-- **The iteration.** `u` holds the last link of the chain and `t` the exclusive or of all of
them; a round replaces `u` by the HMAC of itself. -/
theorem loop_spec {u₁ : Bytes} (h₁ : u₁.length = 32) (n i : ℕ) {j : ℕ} (hp : mem .password = password.toBytes)
    (hu : mem .u = chain (hmac sha256 64 password.bytes) u₁ j)
    (ht : mem .t = chainXor (hmac sha256 64 password.bytes) u₁ j) :
    frame.loop password.length n i mem .t = chainXor (hmac sha256 64 password.bytes) u₁ (j + n) := by
  induction n generalizing i j mem with
  | zero => exact ht
  | succ n ih =>
    have hul : (mem .u).length = 32 := by rw [hu]; exact chain_length _ (hmac_length _) h₁ j
    have htl : (mem .t).length = 32 := by rw [ht]; exact chainXor_length _ (hmac_length _) h₁ j
    obtain ⟨hvalid, hread⟩ := read_password hp
    have hdata : mem.read ⟨.u, 0⟩ 32 = mem .u := by
      show slice (mem .u) 0 32 = mem .u
      rw [slice, List.drop_zero, List.take_of_length_le hul.le]
    have hout : mem.Valid ⟨.u, 0⟩ 32 := by
      show 0 + 32 ≤ (mem .u).length
      omega
    have hcall : hmacSha256 (frame.ctx i) mem ⟨.password, 0⟩ password.length ⟨.u, 0⟩ 32 ⟨.u, 0⟩ =
        Function.update mem .u (chain (hmac sha256 64 password.bytes) u₁ (j + 1)) := by
      rw [hmacSha256_eq _ _ _ hvalid hout, hread, hdata, hu,
        Objects.write_whole (by rw [hmac_length, hul])]
      rfl
    have hlink : (chain (hmac sha256 64 password.bytes) u₁ (j + 1)).length = 32 := chain_length _ (hmac_length _) h₁ _
    rw [loop, hcall, show j + (n + 1) = j + 1 + n by omega]
    refine ih (i + 1) ?_ ?_ ?_
    · rw [Function.update_of_ne (by decide), Function.update_of_ne (by decide), hp]
    · rw [Function.update_of_ne (by decide), Function.update_self]
    · rw [Function.update_self, Function.update_self, Function.update_of_ne (by decide), xorLoop_whole htl hlink, ht]
      rfl

/-- What `t` holds in the end. -/
theorem derive_spec {saltBuf salt : Bytes} (h : slice saltBuf 0 (salt.length + 4) = salt ++ wr32Be 1) (iterations : UInt32) :
    frame.derive password saltBuf salt.length iterations .t =
      pbkdf2 (hmac sha256 64 password.bytes) salt iterations.toNat := by
  set mem := frame.memory password saltBuf with hmem
  have hp : mem .password = password.toBytes := rfl
  obtain ⟨hvalid, hread⟩ := read_password hp
  set u₁ := hmac sha256 64 password.bytes (salt ++ wr32Be 1) with hu₁
  have hlen : u₁.length = 32 := hmac_length _ _
  have hout : mem.Valid ⟨.t, 0⟩ 32 := by
    show 0 + 32 ≤ frame.t.length
    rw [frame.tSize]
  have hdata : mem.read ⟨.saltBuf, 0⟩ (salt.length + 4) = salt ++ wr32Be 1 := h
  set mem₁ : Objects PbkdfObject := Function.update mem .t u₁ with hmem₁
  have hfirst : hmacSha256 (frame.ctx 0) mem ⟨.password, 0⟩ password.length ⟨.saltBuf, 0⟩ (salt.length + 4) ⟨.t, 0⟩ =
      mem₁ := by
    rw [hmacSha256_eq _ _ _ hvalid hout, hread, hdata, Objects.write_whole (by rw [hmac_length]; exact frame.tSize.symm)]
  have hcopy : mem₁.write ⟨.u, 0⟩ (mem₁.read ⟨.t, 0⟩ 32) = Function.update mem₁ .u u₁ := by
    have ht : mem₁.read ⟨.t, 0⟩ 32 = u₁ := by
      show slice (mem₁ .t) 0 32 = u₁
      rw [hmem₁, Function.update_self, slice, List.drop_zero, List.take_of_length_le hlen.le]
    have hu : u₁.length = (mem₁ .u).length := by
      rw [hlen, hmem₁, Function.update_of_ne (by decide)]
      exact frame.uSize.symm
    rw [ht, Objects.write_whole hu]
  unfold derive
  have hp' : (Function.update mem₁ PbkdfObject.u u₁ : Objects PbkdfObject) .password = password.toBytes := rfl
  rw [← hmem, hfirst, hcopy, frame.loop_spec hlen _ 1 (j := 0) hp' rfl rfl, Nat.zero_add]
  rfl

end PbkdfFrame

theorem pbkdf2Sha256_eq (frame : PbkdfFrame) (password : CStr) {salt : Bytes} (hs : salt.length ≤ 60) (iterations : UInt32)
    (outLen : ℕ) : (pbkdf2Sha256 frame password salt iterations outLen).run.val =
      some ((pbkdf2 (hmac sha256 64 password.bytes) salt iterations.toNat).take (min 32 outLen)) := by
  have hfill := fillSaltBuf_fills hs
  have hsalt : slice (afterStores frame.saltBuf.1 (fillSaltBuf salt).run.log) 0 (salt.length + 4) = salt ++ wr32Be 1 := by
    have := hfill.take frame.saltBuf.2.ge List.nil_prefix
    rwa [List.length_append, wr32Be_length] at this
  have hmin : (if outLen > 32 then 32 else outLen) = min 32 outLen := by
    split
    · omega
    · omega
  unfold pbkdf2Sha256
  rw [Fills.run_bind hfill.val, hmin]
  show some (slice (frame.derive password _ salt.length iterations .t) 0 (min 32 outLen)) = _
  rw [frame.derive_spec hsalt, slice, List.drop_zero]

/-- **HMAC and PBKDF2 follow their definitions over the hash of the code.** The output of
`hmac_sha256` may be anywhere, in the data or in the key too. -/
theorem keyed_hashing :
    (∀ {ι : Type} [DecidableEq ι] (ctx : Sha256Ctx) (mem : Objects ι) (key : Ptr ι) (keylen : ℕ) (data : Ptr ι)
      (datalen : ℕ) (out : Ptr ι), mem.Valid key keylen → mem.Valid data datalen → mem.Valid out 32 →
        hmacSha256 ctx mem key keylen data datalen out =
          mem.write out (hmac sha256 64 (mem.read key keylen) (mem.read data datalen))) ∧
    ∀ (frame : PbkdfFrame) (password : CStr) (salt : Bytes) (iterations : UInt32) (outLen : ℕ),
      salt.length ≤ 60 → 1 ≤ iterations →
        (pbkdf2Sha256 frame password salt iterations outLen).run.val =
          some ((pbkdf2 (hmac sha256 64 password.bytes) salt iterations.toNat).take (min 32 outLen)) := by
  refine ⟨?_, ?_⟩
  · intro ι _ ctx mem key keylen data datalen out hk _ ho
    exact hmacSha256_eq ctx data datalen hk ho
  · intro frame password salt iterations outLen hs _
    exact pbkdf2Sha256_eq frame password hs iterations outLen

/-- A password of one character, with the data in the output buffer. -/
def inPlace : Objects Bool
  | true => [112]
  | false => List.replicate 32 0

theorem zeros_length : (List.replicate 32 (0 : UInt8)).length = 32 := rfl

/-- A stack of zeros. -/
def zeroFrame : PbkdfFrame :=
  ⟨List.replicate 32 0, zeros_length, List.replicate 32 0, zeros_length, (default : Sha256Ctx).data, fun _ => default⟩

theorem keyed_hashing_inPlace :
    hmacSha256 default inPlace ⟨true, 0⟩ 1 ⟨false, 0⟩ 32 ⟨false, 0⟩ =
      inPlace.write ⟨false, 0⟩ (hmac sha256 64 [112] (List.replicate 32 0)) ∧
    (pbkdf2Sha256 zeroFrame ⟨[112], by decide⟩ [115] 2 20).run.val =
      some ((pbkdf2 (hmac sha256 64 [112]) [115] 2).take 20) :=
  ⟨keyed_hashing.1 default inPlace ⟨true, 0⟩ 1 ⟨false, 0⟩ 32 ⟨false, 0⟩ (by decide) (by decide) (by decide),
    keyed_hashing.2 zeroFrame ⟨[112], by decide⟩ [115] 2 20 (by decide) (by decide)⟩

end Pqwire

import Pqwire.Proof.Encode

/-!
# The rewrite and its capacity

* `rewrite_fills`: the stores of the rewrite, within any capacity.
* `callRewrite_eq`: they leave the message of the model in the buffer.
* `rewrite_capacity`: the call succeeds exactly when the message fits.
-/

namespace Pqwire

open ByteMem CMem Local

variable {mem : Bytes} {b : BindMsg} {portal statement : Option CStr} {slot : UInt16} {identity : CStr}
  {asBinary : Bool} {outCap : ℕ}

namespace Local

theorem put_goes {cap : ℕ} {p : Bytes} (bs : Bytes) : Goes cap p (put cap p.length bs) (Pqwire.put cap p bs) := by
  unfold put Pqwire.put
  by_cases h : p.length + bs.length > cap
  · rw [if_pos h, if_pos h]
    exact ⟨p, .failure⟩
  · rw [if_neg h, if_neg h, ← List.length_append]
    exact (Fills.store rfl (not_lt.1 h)).bind (.pure _)

theorem putAll_goes (cap : ℕ) (chunks : List Bytes) (p : Bytes) :
    Goes cap p (putAll cap p.length chunks) (Pqwire.putAll cap p chunks) := by
  induction chunks generalizing p with
  | nil => exact Fills.pure _
  | cons bs chunks ih => exact (put_goes bs).bind fun q _ => ih q

/-- All that is stored behind the header, then the header. -/
theorem rewrite_eq : bindRewriteIdentityZerocopy mem b portal statement slot identity asBinary outCap =
    if b.nParams = 0 ∨ slot.toNat ≥ b.nParams then failure
    else if 5 > outCap then failure
    else do
      let p ← putAll outCap 5 (rewriteChunks mem b (portal.getD CStr.empty) (statement.getD CStr.empty) slot.toNat
        identity asBinary)
      store 0 [ch 'B']
      store 1 (wr32Be (p - 1))
      return p := by
  unfold bindRewriteIdentityZerocopy
  congr 2
  simp only [rewriteChunks, putAll, List.cons_append, List.nil_append, List.foldlM_append, List.foldlM_cons,
    List.foldlM_nil, bind_pure, bind_assoc]

/-- The header goes into the room that was left for it. -/
theorem header_moves {hole body : Bytes} (hh : hole.length = 5) (hcap : 5 + body.length ≤ outCap) :
    Moves outCap (hole ++ body) (do
      store 0 [ch 'B']
      store 1 (wr32Be ((hole ++ body).length - 1))
      return (hole ++ body).length) (ch 'B' :: wr32Be (4 + body.length) ++ body) := by
  obtain ⟨b₀, rest, rfl⟩ := List.exists_of_length_succ hole hh
  have hrest : rest.length = 4 := Nat.succ.inj hh
  have h1 : Fills outCap (b₀ :: rest ++ body) (store 0 [ch 'B']) (some ()) (ch 'B' :: rest ++ body) :=
    .store_over [] [b₀] rfl rfl (by simp; omega)
  have h2 : Fills outCap (ch 'B' :: rest ++ body) (store 1 (wr32Be (4 + body.length))) (some ())
      (ch 'B' :: wr32Be (4 + body.length) ++ body) :=
    .store_over [ch 'B'] rest rfl (by rw [hrest, wr32Be_length]) (by simp; omega)
  have hlen : (b₀ :: rest ++ body).length = (ch 'B' :: wr32Be (4 + body.length) ++ body).length := by
    simp only [List.length_append, List.length_cons, hrest, wr32Be_length]
  have hfield : (b₀ :: rest ++ body).length - 1 = 4 + body.length := by
    simp only [List.length_append, List.length_cons, hrest]; omega
  rw [hfield, hlen]
  exact h1.bind (h2.bind (.pure _))

/-- **The stores of the rewrite**: within the capacity, and the message of the model when it fits. -/
theorem rewrite_goes {hole : Bytes} (hh : hole.length = 5) :
    Goes outCap hole (bindRewriteIdentityZerocopy mem b portal statement slot identity asBinary outCap)
      (Pqwire.bindRewriteIdentityZerocopy mem b portal statement slot identity asBinary outCap) := by
  have hflat := rewriteChunks_flatten mem b (portal.getD CStr.empty) (statement.getD CStr.empty) slot.toNat identity
    asBinary
  rw [rewrite_eq]
  by_cases hslot : b.nParams = 0 ∨ slot.toNat ≥ b.nParams
  · rw [if_pos hslot, rewrite_eq_putAll, if_pos hslot]
    exact ⟨hole, .failure⟩
  by_cases hfive : 5 > outCap
  · rw [if_neg hslot, if_pos hfive, rewrite_eq_putAll, if_neg hslot, if_pos hfive]
    exact ⟨hole, .failure⟩
  rw [if_neg hslot, if_neg hfive]
  have hput := putAll_goes outCap (rewriteChunks mem b (portal.getD CStr.empty) (statement.getD CStr.empty)
    slot.toNat identity asBinary) hole
  have hsome := @putAll_some outCap (rewriteChunks mem b (portal.getD CStr.empty) (statement.getD CStr.empty)
    slot.toNat identity asBinary) hole
  rw [hflat, hh] at hsome
  rw [hh] at hput
  -- the header is stored last, when the length of the body is known
  by_cases hfit : 5 + (rewriteBody mem b (portal.getD CStr.empty) (statement.getD CStr.empty) slot.toNat identity
      asBinary).length ≤ outCap
  · rw [bindRewriteIdentityZerocopy_eq_some.2 ⟨by omega, hfit, rfl⟩]
    rw [(hsome (by omega)).2 ⟨hfit, rfl⟩] at hput
    exact Fills.bind hput (header_moves hh hfit)
  · have hnone : Pqwire.bindRewriteIdentityZerocopy mem b portal statement slot identity asBinary outCap = none :=
      Option.eq_none_iff_forall_ne_some.2 fun out hout => hfit (bindRewriteIdentityZerocopy_eq_some.1 hout).2.1
    have hput' : Pqwire.putAll outCap hole (rewriteChunks mem b (portal.getD CStr.empty) (statement.getD CStr.empty)
        slot.toNat identity asBinary) = none :=
      Option.eq_none_iff_forall_ne_some.2 fun q hq => hfit ((hsome (by omega)).1 hq).1
    rw [hput'] at hput
    obtain ⟨q, hq⟩ := hput
    rw [hnone]
    exact ⟨q, hq.bind_none⟩

end Local

section

variable (mem b portal statement slot identity asBinary outCap)

/-- The call leaves the message of the model in `out`, when there is one. -/
theorem callRewrite_message (outLen : ℕ) {out msg : Bytes} (hout : outCap ≤ out.length)
    (h : bindRewriteIdentityZerocopy mem b portal statement slot identity asBinary outCap = some msg) :
    (afterStores out (callRewrite mem b portal statement slot identity asBinary outCap outLen).stores).take
      (callRewrite mem b portal statement slot identity asBinary outCap outLen).outLen = msg := by
  obtain ⟨-, hcap, -⟩ := bindRewriteIdentityZerocopy_eq_some.1 h
  have hhole : (out.take 5).length = 5 := by
    rw [List.length_take]; omega
  have hgo := @rewrite_goes mem b portal statement slot identity asBinary outCap _ hhole
  rw [h] at hgo
  have hcall : callRewrite mem b portal statement slot identity asBinary outCap outLen =
      ⟨0, msg.length, (Local.bindRewriteIdentityZerocopy mem b portal statement slot identity asBinary outCap).run.log⟩ := by
    unfold callRewrite
    dsimp only
    rw [hgo.val]
    rfl
  rw [hcall]
  exact Fills.take hgo hout (List.take_prefix 5 out)

/-- The call in terms of the model. -/
theorem callRewrite_cases (outLen : ℕ) :
    (∀ w ∈ (callRewrite mem b portal statement slot identity asBinary outCap outLen).stores, w.Below outCap) ∧
    match bindRewriteIdentityZerocopy mem b portal statement slot identity asBinary outCap with
    | none => (callRewrite mem b portal statement slot identity asBinary outCap outLen).rc = -1 ∧
        (callRewrite mem b portal statement slot identity asBinary outCap outLen).outLen = outLen
    | some msg => (callRewrite mem b portal statement slot identity asBinary outCap outLen).rc = 0 ∧
        (callRewrite mem b portal statement slot identity asBinary outCap outLen).outLen = msg.length := by
  have hgo := @rewrite_goes mem b portal statement slot identity asBinary outCap (List.replicate 5 0) rfl
  have hval := hgo.val
  have hbelow := hgo.below
  unfold callRewrite
  dsimp only
  rw [hval]
  cases bindRewriteIdentityZerocopy mem b portal statement slot identity asBinary outCap with
  | none => exact ⟨hbelow, rfl, rfl⟩
  | some msg => exact ⟨hbelow, rfl, rfl⟩

end

/-- When the model produces a message, and how long it is. -/
theorem rewrite_size {base : ℕ} {body : Bytes} (hb : bindOf base body = some b) (hm : slice mem base body.length = body)
    (hslot : slot.toNat < b.nParams) :
    match bindRewriteIdentityZerocopy mem b portal statement slot identity asBinary outCap with
    | none => outCap < rewriteSize b portal statement slot identity
    | some msg => rewriteSize b portal statement slot identity ≤ outCap ∧
        msg.length = rewriteSize b portal statement slot identity := by
  have hlen := rewriteBody_length hb hm (portal.getD CStr.empty) (statement.getD CStr.empty) slot.toNat identity asBinary
  have hsize : rewriteSize b portal statement slot identity = 1 + rewriteLen b (portal.getD CStr.empty)
      (statement.getD CStr.empty) slot.toNat identity := by
    unfold rewriteSize rewriteLen; omega
  split
  · rename_i hnone
    by_contra hle
    have hsome := (@bindRewriteIdentityZerocopy_eq_some mem b portal statement slot identity asBinary outCap _).2
      ⟨hslot, by omega, rfl⟩
    rw [hnone] at hsome
    cases hsome
  · rename_i msg hsome
    obtain ⟨-, hcap, rfl⟩ := bindRewriteIdentityZerocopy_eq_some.1 hsome
    refine ⟨by omega, ?_⟩
    simp only [List.length_append, List.length_cons, wr32Be_length]
    omega

/-- What is asked of a call with `outCap` bytes of room for a message of `size` bytes, and `outLen` in
`*out_len` before. -/
structure CapacityExact (size outCap outLen : ℕ) (r : RewriteCall) : Prop where
  rc : r.rc = 0 ↔ size ≤ outCap
  reported : r.rc = 0 → r.outLen = size
  failed : r.rc ≠ 0 → r.rc = -1 ∧ r.outLen = outLen
  stores : ∀ w ∈ r.stores, w.Below outCap

/-- **The capacity is exact.** The call returns 0 exactly when the message fits into `outCap`, and
reports its size; it never stores at or behind `outCap`, leaves `*out_len` alone when it fails,
and `sendBindRewriteIdentity` adds nothing to the output when the message is longer than its
own buffer. -/
theorem rewrite_capacity {base : ℕ} {body : Bytes} (hb : bindOf base body = some b)
    (hm : slice mem base body.length = body) (hslot : slot.toNat < b.nParams) (portal statement : Option CStr)
    (identity : CStr) (asBinary : Bool) (outCap outLen : ℕ) :
    CapacityExact (rewriteSize b portal statement slot identity) outCap outLen
      (callRewrite mem b portal statement slot identity asBinary outCap outLen) ∧
    (8192 < rewriteSize b portal statement slot identity → ∀ c : Ctx,
      (c.sendBindRewriteIdentity mem b portal statement slot identity asBinary).1.output = c.output) := by
  constructor
  · -- the caller's buffer: the call succeeds exactly when the model finds room
    obtain ⟨hbelow, hcall⟩ := callRewrite_cases mem b portal statement slot identity asBinary outCap outLen
    have hsize := @rewrite_size mem b portal statement slot identity asBinary outCap base body hb hm hslot
    cases hmodel : bindRewriteIdentityZerocopy mem b portal statement slot identity asBinary outCap with
    | none =>
      rw [hmodel] at hcall hsize
      refine ⟨⟨?_, ?_⟩, ?_, fun _ => hcall, hbelow⟩
      · intro h
        rw [hcall.1] at h
        exact absurd h (by decide)
      · intro h
        exact absurd h (not_le.2 hsize)
      · intro h
        rw [hcall.1] at h
        exact absurd h (by decide)
    | some msg =>
      rw [hmodel] at hcall hsize
      refine ⟨⟨fun _ => hsize.1, fun _ => hcall.1⟩, fun _ => hcall.2.trans hsize.2, fun h => ?_, hbelow⟩
      exact absurd hcall.1 h
  · -- the helper's own buffer of 8192 bytes
    intro hbig c
    have hsize := @rewrite_size mem b portal statement slot identity asBinary 8192 base body hb hm hslot
    unfold Ctx.sendBindRewriteIdentity
    split
    · rfl
    · rename_i out hout
      rw [hout] at hsize
      omega

/-- A NULL, an empty value, one of 1000 bytes, and one for the identity to replace. -/
def mixedBind : BindBody :=
  .ofParams [.null, .absent, ⟨1000, List.replicate 1000 7, by decide +kernel⟩, .byte 55] (by decide)

/-- `mixedBind` in the buffer in which it was received. -/
def mixedMem : Bytes := List.replicate 5 0 ++ mixedBind.enc

/-- On both sides of the boundary: with an identity of three characters the message takes 1042 bytes. -/
theorem rewrite_capacity_mixed :
    CapacityExact 1042 1042 0 (callRewrite mixedMem (mixedBind.msg 5) none none 3 (longIdentity 3) false 1042 0) ∧
      CapacityExact 1042 1041 9 (callRewrite mixedMem (mixedBind.msg 5) none none 3 (longIdentity 3) false 1041 9) := by
  have hsize : rewriteSize (mixedBind.msg 5) none none 3 (longIdentity 3) = 1042 := by decide +kernel
  have hmem : slice mixedMem 5 mixedBind.enc.length = mixedBind.enc := by decide +kernel
  have hslot : (3 : UInt16).toNat < (mixedBind.msg 5).nParams := by decide
  have hcall := fun outCap outLen =>
    (rewrite_capacity (bindOf_enc (x := mixedBind) (by decide) 5) hmem hslot none none (longIdentity 3) false outCap outLen).1
  rw [hsize] at hcall
  exact ⟨hcall 1042 0, hcall 1041 9⟩

end Pqwire

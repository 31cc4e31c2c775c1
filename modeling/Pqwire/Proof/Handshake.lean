import Pqwire.Proof.Scram
import Pqwire.Spec.Handshake

/-!
# Handshakes

* `run_formed`, `run_keyed`: what a call keeps of the strings and of the keys.
* `run_alike`: two calls that differ in the password have the same reply.
* `scram_session`: all of it for runs.
-/

namespace Pqwire

open ByteMem CMem CText LastWrite Hmac

/-! ## Strings -/

theorem charset_getD (n : ℕ) : charset.getD (n % 62) 0 ∈ charset := by
  have hlen : n % 62 < charset.length := Nat.mod_lt n (by decide)
  rw [List.getD_eq_getElem?_getD, List.getElem?_eq_getElem hlen, Option.getD_some]
  apply List.getElem_mem

theorem generateNonce_bytes (rand : ℕ → ℕ) (len : ℕ) :
    (generateNonce rand len).bytes = (List.range len).map fun i => charset.getD (rand i % 62) 0 := by
  apply strOf_self
  intro h
  obtain ⟨i, -, hi⟩ := List.mem_map.1 h
  have hmem := charset_getD (rand i)
  rw [hi] at hmem
  revert hmem
  decide

/-- What a conversion leaves in its field, if the field was short and without commas before. -/
theorem scanUntil_field {n : ℕ} {t : Bytes} {d : CStr} (hd : d.length ≤ n ∧ ch ',' ∉ d.bytes) :
    (((scanUntil (ch ',') n t).map strOf).getD d).length ≤ n ∧
      ch ',' ∉ (((scanUntil (ch ',') n t).map strOf).getD d).bytes := by
  unfold scanUntil
  dsimp only
  split
  · exact hd
  · -- the string may end at a terminator before the conversion does
    have hpre : (strOf ((t.takeWhile (· ≠ ch ',')).take n)).bytes <+: (t.takeWhile (· ≠ ch ',')).take n :=
      List.takeWhile_prefix _
    constructor
    · apply hpre.length_le.trans
      rw [List.length_take]
      apply min_le_left
    · intro hmem
      have hw := (List.take_prefix _ _).subset (hpre.subset hmem)
      simpa using List.mem_takeWhile_imp hw

/-! ## The keys -/

/-- **The stored key**, whatever the stack held. -/
theorem ScramFrame.storedKey_eq (frame : ScramFrame) {sp : Bytes} (h : sp.length = 32) :
    frame.storedKey sp = sha256 (hmac sha256 64 sp clientKeyLabel) := by
  set mem := frame.memory sp with hmem
  have hkey : mem.Valid ⟨.saltedPassword, 0⟩ 32 := by
    show 0 + 32 ≤ sp.length
    omega
  have hout : mem.Valid ⟨.clientKey, 0⟩ 32 := by
    show 0 + 32 ≤ frame.clientKey.length
    rw [frame.clientKeySize]
  have hread : mem.read ⟨.saltedPassword, 0⟩ 32 = sp := by
    show slice sp 0 32 = sp
    rw [slice, List.drop_zero, List.take_of_length_le h.le]
  have hdata : mem.read ⟨.label, 0⟩ 10 = clientKeyLabel := by
    show slice clientKeyLabel 0 10 = clientKeyLabel
    decide
  set key := hmac sha256 64 sp clientKeyLabel
  have hlen : key.length = 32 := hmac_length _ _
  have hback : (mem.write ⟨.clientKey, 0⟩ key).read ⟨.clientKey, 0⟩ 32 = key := by
    have hval : mem.Valid ⟨.clientKey, 0⟩ key.length := by
      rw [hlen]
      exact hout
    have := Objects.read_write_self hval
    rwa [hlen] at this
  unfold storedKey
  dsimp only
  rw [← hmem, hmacSha256_eq _ _ _ hkey hout, hread, hdata, hback, sha256Final_digest]

theorem pbkdf2_length (password : CStr) (salt : Bytes) (n : ℕ) :
    (pbkdf2 (hmac sha256 64 password.bytes) salt n).length = 32 :=
  chainXor_length _ (hmac_length _) (hmac_length _ _) _

/-! ## One call -/

variable {c d : ScramCtx}

/-- **The two outcomes of the server-first message**, for a salt that fits. -/
theorem run_serverFirst (frame : ScramFrame) (message password : CStr)
    (hs : (ScramCall.serverFirst frame message password).Safe c) :
    (ScramCall.serverFirst frame message password).run c = (c, ⟨-1, []⟩) ∨
      ∃ r s i sp, (c.scan r s i).salt.length ≤ 60 ∧
        sp = pbkdf2 (hmac sha256 64 password.bytes) (c.scan r s i).salt.bytes (c.scan r s i).iterations.toNat ∧
        (ScramCall.serverFirst frame message password).run c =
          ({ c.scan r s i with
            saltedPassword := sp, storedKey := sha256 (hmac sha256 64 sp clientKeyLabel), state := 1 }, ⟨0, []⟩) := by
  change ∀ w ∈ (processServerFirst frame c message password).run.log, w.Below 64 at hs
  unfold ScramCall.run
  dsimp only
  cases hv : (processServerFirst frame c message password).run.val with
  | none => exact Or.inl rfl
  | some c' =>
    obtain ⟨r, s, i, hr, hs', hi⟩ := processServerFirst_accepts hv
    rw [(processServerFirst_found frame c password hr hs' hi).2, fillSaltBuf_below_iff] at hs
    have hkdf := pbkdf2Sha256_eq frame.pbkdf password hs (c.scan r s i).iterations 32
    have hlen := pbkdf2_length password (c.scan r s i).salt.bytes (c.scan r s i).iterations.toNat
    rw [min_self, List.take_of_length_le hlen.le] at hkdf
    refine Or.inr ⟨r, s, i, _, hs, rfl, ?_⟩
    unfold processServerFirst at hv
    rw [hr, hs', hi] at hv
    dsimp only at hv
    rw [Fills.run_bind hkdf, frame.storedKey_eq hlen] at hv
    cases hv
    rfl

theorem scramSha256Init_formed (rand : ℕ → ℕ) : (scramSha256Init rand).Formed := by
  have hbytes := generateNonce_bytes rand 24
  have hempty : ∀ n, CStr.empty.length ≤ n ∧ ch ',' ∉ CStr.empty.bytes := fun n => ⟨Nat.zero_le n, List.not_mem_nil⟩
  refine ⟨⟨?_, ?_⟩, hempty 31, hempty 60, rfl⟩
  · show (generateNonce rand 24).bytes.length = 24
    rw [hbytes, List.length_map, List.length_range]
  · intro b hb
    change b ∈ (generateNonce rand 24).bytes at hb
    rw [hbytes] at hb
    obtain ⟨i, -, rfl⟩ := List.mem_map.1 hb
    apply charset_getD

/-- A call keeps the strings in their bounds. -/
theorem run_formed (h : c.Formed) {call : ScramCall} (hs : call.Safe c) : (call.run c).1.Formed := by
  cases call with
  | init rand => apply scramSha256Init_formed
  | clientFirst outLen => exact h
  | serverFirst frame message password =>
    rcases run_serverFirst frame message password hs with hv | ⟨r, s, i, sp, hsalt, -, hv⟩
    · rw [hv]
      exact h
    · rw [hv]
      have hcomma := (@scanUntil_field 63 (s.drop 2) c.salt ⟨h.salt.1.trans (by decide), h.salt.2⟩).2
      exact ⟨h.clientNonce, scanUntil_field h.serverNonce, ⟨hsalt, hcomma⟩, rfl⟩
  | clientFinal outLen => exact h
  | serverFinal message => exact ⟨h.clientNonce, h.serverNonce, h.salt, h.saltLen⟩

/-- A call keeps the keys, derives them anew or clears them. -/
theorem run_keyed {o : Option CStr} (h : c.Keyed o) {call : ScramCall} (hs : call.Safe c) :
    (call.run c).1.Keyed ((ScramCall.newPassword (call, (call.run c).2)).getD o) := by
  cases call with
  | init rand => exact ⟨rfl, rfl⟩
  | clientFirst outLen => exact h
  | serverFirst frame message password =>
    rcases run_serverFirst frame message password hs with hv | ⟨r, s, i, sp, -, hsp, hv⟩
    · rw [hv]
      exact h
    · rw [hv]
      exact ⟨hsp, rfl⟩
  | clientFinal outLen => exact h
  | serverFinal message =>
    cases o with
    | none => exact h
    | some password => exact h

theorem run_state {call : ScramCall} (hs : call.Safe c) :
    (call.run c).1.state = (ScramCall.newState (call, (call.run c).2)).getD c.state := by
  cases call with
  | serverFirst frame message password =>
    rcases run_serverFirst frame message password hs with hv | ⟨r, s, i, sp, -, -, hv⟩
    · rw [hv]
      rfl
    · rw [hv]
      rfl
  | _ => rfl

/-! ## Two passwords -/

/-- Contexts that agree but for the keys. -/
theorem eq_of_sansKeys (h : c.sansKeys = d.sansKeys) : ∃ sp key, d = { c with saltedPassword := sp, storedKey := key } := by
  refine ⟨d.saltedPassword, d.storedKey, ?_⟩
  have hback := congrArg (fun e : ScramCtx => { e with saltedPassword := d.saltedPassword, storedKey := d.storedKey }) h
  exact hback.symm

/-- **The password stays inside**: calls that differ in it have the same reply, and go on from
contexts that differ in the keys alone. -/
theorem run_alike (h : c.sansKeys = d.sansKeys) {call call' : ScramCall} (ha : call.Alike call') :
    (call.run c).2 = (call'.run d).2 ∧ (call.run c).1.sansKeys = (call'.run d).1.sansKeys ∧ (call.Safe c → call'.Safe d) := by
  obtain ⟨sp₀, key₀, rfl⟩ := eq_of_sansKeys h
  cases ha with
  | init rand => exact ⟨rfl, rfl, id⟩
  | clientFirst outLen => exact ⟨rfl, rfl, id⟩
  | serverFirst frame frame' message password password' =>
    by_cases hfound : ∃ r s i, strstr [ch 'r', ch '='] message.bytes = some r ∧
        strstr [ch 's', ch '='] message.bytes = some s ∧ strstr [ch 'i', ch '='] message.bytes = some i
    · obtain ⟨r, s, i, hr, hs, hi⟩ := hfound
      obtain ⟨⟨sp, key, hv⟩, hlog⟩ := processServerFirst_found frame c password hr hs hi
      obtain ⟨⟨sp', key', hv'⟩, hlog'⟩ := processServerFirst_found frame' { c with saltedPassword := sp₀, storedKey := key₀ }
        password' hr hs hi
      unfold ScramCall.run ScramCall.Safe
      dsimp only
      rw [hv, hv', hlog, hlog']
      exact ⟨rfl, rfl, id⟩
    · have hfail : ∀ (f : ScramFrame) (e : ScramCtx) (p : CStr), processServerFirst f e message p = failure := by
        intro f e p
        unfold processServerFirst
        split
        · rename_i r s i hr hs hi
          exact absurd ⟨r, s, i, hr, hs, hi⟩ hfound
        · rfl
      unfold ScramCall.run ScramCall.Safe
      dsimp only
      rw [hfail, hfail]
      exact ⟨rfl, rfl, id⟩
  | clientFinal outLen => exact ⟨rfl, rfl, id⟩
  | serverFinal message => exact ⟨rfl, rfl, id⟩

/-! ## Runs -/

/-- **What a run keeps**, by induction on the calls: each invariant of a call along the list. -/
theorem runAll_keeps {calls : List ScramCall} {o : Option CStr} (hf : c.Formed) (hk : c.Keyed o) (hs : c.SafeAll calls) :
    (c.runAll calls).1.Formed ∧
      (c.runAll calls).1.Keyed ((lastOf ScramCall.newPassword (calls.zip (c.runAll calls).2)).getD o) ∧
      (c.runAll calls).1.state = (lastOf ScramCall.newState (calls.zip (c.runAll calls).2)).getD c.state := by
  induction calls generalizing c o with
  | nil => exact ⟨hf, hk, rfl⟩
  | cons call calls ih =>
    obtain ⟨hcall, hrest⟩ := hs
    have ih := ih (run_formed hf hcall) (run_keyed hk hcall) hrest
    rw [run_state hcall, ← Option.getD_or, ← Option.getD_or] at ih
    exact ih

theorem runAll_alike {calls calls' : List ScramCall} (ha : List.Forall₂ ScramCall.Alike calls calls')
    (h : c.sansKeys = d.sansKeys) (hs : c.SafeAll calls) :
    (c.runAll calls).2 = (d.runAll calls').2 ∧ (c.runAll calls).1.sansKeys = (d.runAll calls').1.sansKeys ∧
      d.SafeAll calls' := by
  induction ha generalizing c d with
  | nil => exact ⟨rfl, h, trivial⟩
  | cons hcall _ ih =>
    obtain ⟨hreply, hnext, hsafe⟩ := run_alike h hcall
    obtain ⟨hreplies, hlast, hsafes⟩ := ih hnext hs.2
    refine ⟨?_, hlast, hsafe hs.1, hsafes⟩
    show _ :: _ = _ :: _
    rw [hreply, hreplies]

/-- Neither message of the client is ever cut by the buffers that the library has for it. -/
theorem ScramCtx.Formed.texts (h : c.Formed) : c.firstText.length = 36 ∧ 33 ≤ c.finalText.length ∧ c.finalText.length ≤ 64 := by
  have hclient := h.clientNonce.1
  have hserver := h.serverNonce.1
  have hcat : ∀ s t : CStr, (Ctx.cat s t).length = s.length + t.length := fun s t => List.length_append
  have hlabels : "n,,n=user,r=".toList.length = 12 ∧ "c=biws,r=".toList.length = 9 := by decide
  unfold ScramCtx.firstText ScramCtx.finalText
  rw [hcat, hcat, hcat, hclient]
  unfold CStr.length at hserver ⊢
  rw [List.length_map, List.length_map, hlabels.1, hlabels.2]
  omega

/-- The client-first message fits from 37 bytes on. -/
theorem run_clientFirst (h : c.Formed) (outLen : ℕ) : (ScramCall.clientFirst outLen).run c =
    (c, if 36 < outLen then ⟨0, c.firstText.toBytes⟩ else ⟨-1, snprintf c.firstText outLen⟩) := by
  have hlen := h.texts.1
  have hfit : clientFirst c outLen = if 36 < outLen then some c.firstText else none := by
    rw [← hlen]
    rfl
  unfold ScramCall.run
  dsimp only
  rw [hfit]
  by_cases hlt : 36 < outLen
  · have hout : snprintf c.firstText outLen = c.firstText.toBytes := by
      unfold snprintf
      rw [if_neg (by omega), CStr.take_of_length_le (by omega)]
    rw [if_pos hlt, if_pos hlt, hout]
    rfl
  · rw [if_neg hlt, if_neg hlt]
    rfl

/-- **A handshake.** Whatever is called in whatever order with whatever messages, as long as every
salt fits its buffer:
* nothing that the client returns or sends depends on the passwords, so a server cannot tell a
  right one from a wrong one;
* the strings stay in their arrays, the client-first message takes 36 characters and the
  client-final message is the two nonces, server first, behind `c=biws,r=`, uncut;
* `state` is what the last accepted message has set, in any order; a server-final message is
  always accepted;
* the keys are those of the last accepted password, with the salt and the count as they are now. -/
theorem scram_session (rand : ℕ → ℕ) {calls : List ScramCall} (hs : (scramSha256Init rand).SafeAll calls) :
    ∃ c replies, (scramSha256Init rand).runAll calls = (c, replies) ∧
      (∀ calls', List.Forall₂ ScramCall.Alike calls calls' →
        ∃ c', (scramSha256Init rand).runAll calls' = (c', replies) ∧ c'.sansKeys = c.sansKeys ∧
          (scramSha256Init rand).SafeAll calls') ∧
      c.Formed ∧
      (∀ outLen, (ScramCall.clientFirst outLen).run c =
        (c, if 36 < outLen then ⟨0, c.firstText.toBytes⟩ else ⟨-1, snprintf c.firstText outLen⟩)) ∧
      (∀ outLen, c.clientFinal outLen = strncpy c.finalText outLen) ∧
      c.state = (lastOf ScramCall.newState (calls.zip replies)).getD 0 ∧
      c.Keyed ((lastOf ScramCall.newPassword (calls.zip replies)).getD none) := by
  obtain ⟨hformed, hkeyed, hstate⟩ := runAll_keeps (scramSha256Init_formed rand) (o := none) ⟨rfl, rfl⟩ hs
  obtain ⟨hfirst, -, hfinal⟩ := hformed.texts
  refine ⟨_, _, rfl, ?_, hformed, ?_, ?_, hstate, hkeyed⟩
  · intro calls' ha
    obtain ⟨hreplies, hlast, hsafe⟩ := runAll_alike ha rfl hs
    exact ⟨_, Prod.ext rfl hreplies.symm, hlast.symm, hsafe⟩
  · exact run_clientFirst hformed
  · intro outLen
    unfold ScramCtx.clientFinal
    rw [CStr.take_of_length_le (hfinal.trans (by decide))]

/-- A handshake with the message `r=n,s=A,i=1`, for a password of one letter and for none. -/
theorem scram_session_unchecked :
    ∃ c c' replies, (scramSha256Init fun _ => 0).runAll
        [.clientFirst 256, .serverFirst zeroScramFrame (saltMessage 1) ⟨[112], by decide⟩, .clientFinal 64,
          .serverFinal CStr.empty] = (c, replies) ∧
      (scramSha256Init fun _ => 0).runAll
        [.clientFirst 256, .serverFirst zeroScramFrame (saltMessage 1) CStr.empty, .clientFinal 64,
          .serverFinal CStr.empty] = (c', replies) ∧ c.Formed ∧ c'.sansKeys = c.sansKeys := by
  have hsafe : (scramSha256Init fun _ => 0).SafeAll
      [.clientFirst 256, .serverFirst zeroScramFrame (saltMessage 1) ⟨[112], by decide⟩, .clientFinal 64,
        .serverFinal CStr.empty] := by
    refine ⟨trivial, ?_, trivial, trivial, trivial⟩
    obtain ⟨-, hlog⟩ := @processServerFirst_found zeroScramFrame (scramSha256Init fun _ => 0) (saltMessage 1) ⟨[112], by decide⟩ _ _ _
      rfl rfl rfl
    change ∀ w ∈ (processServerFirst zeroScramFrame (scramSha256Init fun _ => 0) _ _).run.log, w.Below 64
    rw [hlog, fillSaltBuf_below_iff]
    decide
  obtain ⟨c, replies, hrun, halike, hformed, -⟩ := scram_session _ hsafe
  obtain ⟨c', hrun', hkeys, -⟩ := halike
    [.clientFirst 256, .serverFirst zeroScramFrame (saltMessage 1) CStr.empty, .clientFinal 64, .serverFinal CStr.empty]
    (.cons (.clientFirst _) (.cons (.serverFirst _ _ _ _ _) (.cons (.clientFinal _) (.cons (.serverFinal _) .nil))))
  exact ⟨c, c', replies, hrun, hrun', hformed, hkeys⟩

end Pqwire

import Pqwire.Proof.Hmac
import Pqwire.Spec.Scram

/-!
# The server-first message

* `salt_in_buffer_iff`: when the stores into `salt_buf` stay inside it.
* `extracted_iff`: when the three attributes of a message are found where they are.
-/

namespace Pqwire

open ByteMem CMem CText Hmac

/-- **What the call does**, when all three attributes are found. -/
theorem processServerFirst_found (frame : ScramFrame) (c : ScramCtx) {serverFirst : CStr} (password : CStr) {r s i : Bytes}
    (hr : strstr [ch 'r', ch '='] serverFirst.bytes = some r) (hs : strstr [ch 's', ch '='] serverFirst.bytes = some s)
    (hi : strstr [ch 'i', ch '='] serverFirst.bytes = some i) :
    (∃ sp key, (processServerFirst frame c serverFirst password).run.val =
        some { c.scan r s i with saltedPassword := sp, storedKey := key, state := 1 }) ∧
      (processServerFirst frame c serverFirst password).run.log = (fillSaltBuf (c.scan r s i).salt.bytes).run.log := by
  unfold processServerFirst
  rw [hr, hs, hi]
  refine ⟨⟨_, _, rfl⟩, ?_⟩
  show _ ++ [] ++ [] = _
  rw [List.append_nil, List.append_nil]
  rfl

theorem processServerFirst_accepts {frame : ScramFrame} {c c' : ScramCtx} {serverFirst password : CStr}
    (h : (processServerFirst frame c serverFirst password).run.val = some c') :
    ∃ r s i, strstr [ch 'r', ch '='] serverFirst.bytes = some r ∧ strstr [ch 's', ch '='] serverFirst.bytes = some s ∧
      strstr [ch 'i', ch '='] serverFirst.bytes = some i := by
  unfold processServerFirst at h
  split at h
  · rename_i r s i hr hs hi
    exact ⟨r, s, i, hr, hs, hi⟩
  · cases h

/-! ## The salt buffer -/

/-- The salt and the four bytes behind it have room for a salt of 60 bytes and no more. -/
theorem fillSaltBuf_below_iff (salt : Bytes) : (∀ w ∈ (fillSaltBuf salt).run.log, w.Below 64) ↔ salt.length ≤ 60 := by
  constructor
  · intro h
    have hlast : (⟨salt.length + 3, [1]⟩ : Store) ∈ (fillSaltBuf salt).run.log := by
      show _ ∈ [_, _, _, _, (⟨salt.length + 3, [1]⟩ : Store)]
      simp
    have := h _ hlast (salt.length + 3) le_rfl (by simp)
    omega
  · intro h
    exact (fillSaltBuf_fills h).below

/-- The characters behind the first `s=`, or the salt of the context where there are none, are
at most sixty. -/
def SaltFits (c : ScramCtx) (serverFirst : CStr) : Prop :=
  ∀ s, strstr [ch 's', ch '='] serverFirst.bytes = some s →
    if (s.drop 2).takeWhile (· ≠ ch ',') = [] then c.salt.length ≤ 60
    else ((s.drop 2).takeWhile (· ≠ ch ',')).length ≤ 60

theorem mem_of_strstr {pat s t : Bytes} {b : UInt8} (h : strstr pat s = some t) {n : ℕ} (hb : b ∈ t.drop n) : b ∈ s :=
  (strstr_suffix h).subset ((List.drop_suffix _ _).subset hb)

theorem strOf_self {t : Bytes} (h : (0 : UInt8) ∉ t) : (strOf t).bytes = t := by
  show t.takeWhile (· ≠ 0) = t
  rw [List.takeWhile_eq_self_iff]
  intro b hb
  simp only [ne_eq, decide_not, Bool.not_eq_eq_eq_not, Bool.not_true, decide_eq_false_iff_not]
  rintro rfl
  exact h hb

/-- The length of the salt behind the conversions. -/
theorem scan_salt_length {c : ScramCtx} {r s i : Bytes} (h0 : (0 : UInt8) ∉ s.drop 2) :
    (c.scan r s i).salt.length ≤ 60 ↔
      if (s.drop 2).takeWhile (· ≠ ch ',') = [] then c.salt.length ≤ 60
      else ((s.drop 2).takeWhile (· ≠ ch ',')).length ≤ 60 := by
  set l := (s.drop 2).takeWhile (· ≠ ch ',') with hl
  have hsalt : (c.scan r s i).salt = ((if l.take 63 = [] then none else some (l.take 63)).map strOf).getD c.salt := rfl
  by_cases hnil : l = []
  · rw [if_pos hnil, hsalt, hnil]
    rfl
  · have htake : l.take 63 ≠ [] := by
      rw [ne_eq, List.take_eq_nil_iff]
      simpa using hnil
    have hself : (strOf (l.take 63)).bytes = l.take 63 := by
      refine strOf_self fun hm => h0 ?_
      exact (List.takeWhile_prefix _).subset ((List.take_prefix _ _).subset hm)
    rw [if_neg hnil, hsalt, if_neg htake, Option.map_some, Option.getD_some, CStr.length, hself, List.length_take]
    omega

/-- **The salt stays inside its buffer exactly when it has at most sixty characters.** The
conversion lets 63 through, and the block index takes four bytes more. -/
theorem salt_in_buffer_iff {frame : ScramFrame} {c c' : ScramCtx} {serverFirst password : CStr}
    (h : (processServerFirst frame c serverFirst password).run.val = some c') :
    (∀ w ∈ (processServerFirst frame c serverFirst password).run.log, w.Below 64) ↔ SaltFits c serverFirst := by
  obtain ⟨r, s, i, hr, hs, hi⟩ := processServerFirst_accepts h
  have h0 : (0 : UInt8) ∉ s.drop 2 := fun hm => serverFirst.noNul (mem_of_strstr hs hm)
  rw [(processServerFirst_found frame c password hr hs hi).2, fillSaltBuf_below_iff]
  show (c.scan r s i).salt.length ≤ 60 ↔ _
  rw [scan_salt_length h0]
  constructor
  · intro hfit t ht
    rw [hs, Option.some_inj] at ht
    rwa [← ht]
  · intro hfits
    exact hfits s hs

/-- A stack of zeros. -/
def zeroScramFrame : ScramFrame := ⟨zeroFrame, default, default, List.replicate 32 0, zeros_length⟩

/-- `r=n,s=<salt>,i=1` with a salt of `n` letters. -/
def saltMessage (n : ℕ) : CStr :=
  strOf ([ch 'r', ch '=', ch 'n', ch ',', ch 's', ch '='] ++ List.replicate n (ch 'A') ++ [ch ',', ch 'i', ch '=', ch '1'])

theorem salt_in_buffer_sixty : (∀ w ∈ (processServerFirst zeroScramFrame {} (saltMessage 60) CStr.empty).run.log, w.Below 64) ∧
    SaltFits {} (saltMessage 60) := by
  have hfits : SaltFits {} (saltMessage 60) := by
    intro s hs
    have heq : strstr [ch 's', ch '='] (saltMessage 60).bytes =
        some ([ch 's', ch '='] ++ List.replicate 60 (ch 'A') ++ [ch ',', ch 'i', ch '=', ch '1']) := by decide
    rw [heq, Option.some_inj] at hs
    subst hs
    decide
  have hval : ∃ c', (processServerFirst zeroScramFrame {} (saltMessage 60) CStr.empty).run.val = some c' := ⟨_, rfl⟩
  obtain ⟨c', hc'⟩ := hval
  exact ⟨(salt_in_buffer_iff hc').2 hfits, hfits⟩

/-- One character more: the last of the four bytes is stored at index 64. -/
theorem salt_overruns : (∃ c', (processServerFirst zeroScramFrame {} (saltMessage 61) CStr.empty).run.val = some c') ∧
    ¬∀ w ∈ (processServerFirst zeroScramFrame {} (saltMessage 61) CStr.empty).run.log, w.Below 64 := by
  refine ⟨⟨_, rfl⟩, ?_⟩
  intro h
  have hmem : (⟨64, [1]⟩ : Store) ∈ (processServerFirst zeroScramFrame {} (saltMessage 61) CStr.empty).run.log := by decide
  exact absurd (h _ hmem 64 le_rfl (by decide)) (by decide)

/-! ## The attributes -/

namespace ServerFirst

variable (m : ServerFirst)

theorem nonce_noComma : ch ',' ∉ m.nonce := fun h => (m.nonceChars _ h).2.2 rfl

theorem salt_noComma : ch ',' ∉ m.salt := fun h => absurd (m.saltChars _ h) (by decide)

theorem nonce_noNul : (0 : UInt8) ∉ m.nonce := fun h => absurd (m.nonceChars _ h).1 (by decide)

theorem salt_noNul : (0 : UInt8) ∉ m.salt := fun h => absurd (m.saltChars _ h) (by decide)

/-- The message is a C string: no character of it is the terminator. -/
theorem text_noNul : (0 : UInt8) ∉ m.text := by
  have hnonce := m.nonce_noNul
  have hsalt := m.salt_noNul
  have hcount : (0 : UInt8) ∉ decimal m.count := fun h => absurd (decimal_isDigit h) (by decide)
  have hch : (0 : UInt8) ∉ [ch 'r', ch '=', ch ',', ch 's', ch 'i'] := by decide
  simp only [List.mem_cons, List.not_mem_nil, or_false, not_or] at hch
  unfold text
  simp only [List.cons_append, List.mem_cons, List.mem_append, not_or]
  tauto

theorem enc_bytes : m.enc.bytes = m.text := strOf_self m.text_noNul

/-- What `%63[^,]` reads: the rest of the nonce where it has an `s=`, the salt otherwise. -/
def saltTail : Bytes := ((strstr [ch 's', ch '='] m.nonce).map (·.drop 2)).getD m.salt

/-- What `%u` reads in front of the next comma. -/
def countTail : Bytes :=
  (((strstr [ch 'i', ch '='] m.nonce).or (strstr [ch 'i', ch '='] m.salt)).map (·.drop 2)).getD (decimal m.count)

theorem saltFound_iff : m.SaltFound ↔ m.saltTail = m.salt := by
  unfold SaltFound saltTail
  cases strstr [ch 's', ch '='] m.nonce <;> simp

theorem countFound_iff : m.CountFound ↔ scanUnsigned m.countTail = some (UInt32.ofNat m.count) := by
  unfold CountFound countTail
  cases (strstr [ch 'i', ch '='] m.nonce).or (strstr [ch 'i', ch '='] m.salt) with
  | none => simpa using scanUnsigned_decimal m.countRange.1 (m.countRange.2.trans (by decide))
  | some t => simp

/-- The text from the salt on, and the text from the count on. -/
def saltText : Bytes := ch 's' :: ch '=' :: m.salt ++ ch ',' :: (ch 'i' :: ch '=' :: decimal m.count)

def countText : Bytes := ch 'i' :: ch '=' :: decimal m.count

theorem text_eq : m.text = ch 'r' :: ch '=' :: m.nonce ++ ch ',' :: m.saltText := rfl

theorem strstr_nonce : strstr [ch 'r', ch '='] m.text = some m.text :=
  strstr_of_isPrefix ⟨m.nonce ++ ch ',' :: m.saltText, rfl⟩

theorem strstr_salt : strstr [ch 's', ch '='] m.text =
    ((strstr [ch 's', ch '='] m.nonce).map (· ++ ch ',' :: m.saltText)).or (some m.saltText) := by
  have hfind : strstr [ch 's', ch '='] m.saltText = some m.saltText := strstr_of_isPrefix ⟨_, rfl⟩
  rw [text_eq, strstr_append (by simp) (by decide), strstr_cons_ne (by decide), strstr_cons_ne (by decide), hfind]

theorem strstr_count : strstr [ch 'i', ch '='] m.text =
    ((strstr [ch 'i', ch '='] m.nonce).map (· ++ ch ',' :: m.saltText)).or
      (((strstr [ch 'i', ch '='] m.salt).map (· ++ ch ',' :: m.countText)).or (some m.countText)) := by
  have hfind : strstr [ch 'i', ch '='] m.countText = some m.countText := strstr_of_isPrefix ⟨_, rfl⟩
  have hsalt : strstr [ch 'i', ch '='] m.saltText =
      ((strstr [ch 'i', ch '='] m.salt).map (· ++ ch ',' :: m.countText)).or (some m.countText) := by
    show strstr _ (ch 's' :: ch '=' :: m.salt ++ ch ',' :: m.countText) = _
    rw [strstr_append (by simp) (by decide), strstr_cons_ne (by decide), strstr_cons_ne (by decide), hfind]
  rw [text_eq, strstr_append (by simp) (by decide), strstr_cons_ne (by decide), strstr_cons_ne (by decide), hsalt]

/-- Behind a match, the pattern's two characters are dropped from the match alone. -/
theorem drop_match {x y : UInt8} {s t : Bytes} (h : strstr [x, y] s = some t) (l : Bytes) :
    (t ++ l).drop 2 = t.drop 2 ++ l := by
  have hlen : 2 ≤ t.length := (strstr_isPrefix h).length_le
  rw [List.drop_append_of_le_length hlen]

/-- A fresh context reads the same string whether the conversion stores it or matches nothing. -/
theorem scanUntil_bytes {n : ℕ} {t : Bytes} (hc : ch ',' ∉ t) (h0 : (0 : UInt8) ∉ t) (hn : t.length ≤ n) :
    (((scanUntil (ch ',') n t).map strOf).getD CStr.empty).bytes = t := by
  rw [scanUntil_self hc hn]
  split
  · rename_i hnil
    rw [hnil]
    rfl
  · exact strOf_self h0

variable (rand : ℕ → ℕ)

theorem scan_nonce (s i : Bytes) : ((scramSha256Init rand).scan m.text s i).serverNonce.bytes = m.nonce := by
  show (((scanUntil (ch ',') 31 (m.nonce ++ ch ',' :: m.saltText)).map strOf).getD CStr.empty).bytes = _
  rw [scanUntil_append, scanUntil_bytes m.nonce_noComma m.nonce_noNul m.nonceLen.2]

theorem scan_salt {s : Bytes} (r i : Bytes) (hs : strstr [ch 's', ch '='] m.text = some s) :
    ((scramSha256Init rand).scan r s i).salt.bytes = m.saltTail := by
  rw [strstr_salt] at hs
  unfold saltTail
  show (((scanUntil (ch ',') 63 (s.drop 2)).map strOf).getD CStr.empty).bytes = _
  cases hn : strstr [ch 's', ch '='] m.nonce with
  | none =>
    rw [hn] at hs
    cases hs
    show (((scanUntil (ch ',') 63 (m.salt ++ ch ',' :: m.countText)).map strOf).getD CStr.empty).bytes = m.salt
    rw [scanUntil_append, scanUntil_bytes m.salt_noComma m.salt_noNul (m.saltLen.2.trans (by decide))]
  | some t =>
    -- the match is inside the nonce: what follows it there has no comma and fits
    have hsub : ∀ {b}, b ∈ t.drop 2 → b ∈ m.nonce := mem_of_strstr hn
    have hlen : (t.drop 2).length ≤ 63 := by
      have := (strstr_suffix hn).length_le
      have := m.nonceLen.2
      rw [List.length_drop]
      omega
    rw [hn] at hs
    cases hs
    rw [drop_match hn, scanUntil_append, scanUntil_bytes (fun h => m.nonce_noComma (hsub h))
      (fun h => m.nonce_noNul (hsub h)) hlen]
    rfl

theorem scan_count {i : Bytes} (r s : Bytes) (hi : strstr [ch 'i', ch '='] m.text = some i) :
    ((scramSha256Init rand).scan r s i).iterations = (scanUnsigned m.countTail).getD 0 := by
  have hstop : ∀ t l : Bytes, scanUnsigned (t ++ ch ',' :: l) = scanUnsigned t := fun t l =>
    scanUnsigned_append (by decide) (by decide) (by decide) (by decide) t l
  rw [strstr_count] at hi
  unfold countTail
  show (scanUnsigned (i.drop 2)).getD 0 = _
  congr 1
  cases hn : strstr [ch 'i', ch '='] m.nonce with
  | some t =>
    rw [hn] at hi
    cases hi
    rw [drop_match hn, hstop]
    rfl
  | none =>
    rw [hn] at hi
    cases hsalt : strstr [ch 'i', ch '='] m.salt with
    | some t =>
      rw [hsalt] at hi
      cases hi
      rw [drop_match hsalt, hstop]
      rfl
    | none =>
      rw [hsalt] at hi
      cases hi
      rfl

/-- The count is at least one, so a conversion that stores nothing cannot leave it behind. -/
theorem count_read_iff (o : Option UInt32) : (o.getD 0).toNat = m.count ↔ o = some (UInt32.ofNat m.count) := by
  have hrange := m.countRange
  cases o with
  | none =>
    simp only [Option.getD_none, reduceCtorEq, iff_false]
    intro h
    simp at h
    omega
  | some v =>
    rw [Option.getD_some, Option.some_inj, ← UInt32.toNat_inj, UInt32.toNat_ofNat', Nat.mod_eq_of_lt hrange.2]

/-- What the call leaves in the context, for any message of the form. -/
theorem processServerFirst_text (frame : ScramFrame) (password : CStr) :
    ∃ c, (processServerFirst frame (scramSha256Init rand) m.enc password).run.val = some c ∧
      c.serverNonce.bytes = m.nonce ∧ c.salt.bytes = m.saltTail ∧ c.saltLen = c.salt.length ∧
      c.iterations = (scanUnsigned m.countTail).getD 0 := by
  have hs : ∃ s, strstr [ch 's', ch '='] m.text = some s := by
    rw [strstr_salt]
    cases strstr [ch 's', ch '='] m.nonce <;> exact ⟨_, rfl⟩
  have hi : ∃ i, strstr [ch 'i', ch '='] m.text = some i := by
    rw [strstr_count]
    cases strstr [ch 'i', ch '='] m.nonce <;> cases strstr [ch 'i', ch '='] m.salt <;> exact ⟨_, rfl⟩
  obtain ⟨s, hs⟩ := hs
  obtain ⟨i, hi⟩ := hi
  have hr := m.strstr_nonce
  rw [← enc_bytes] at hr hs hi
  obtain ⟨⟨sp, key, hval⟩, -⟩ := processServerFirst_found frame (scramSha256Init rand) password hr hs hi
  rw [enc_bytes] at hval hs hi
  exact ⟨_, hval, m.scan_nonce rand s i, m.scan_salt rand m.text i hs, rfl, m.scan_count rand m.text s hi⟩

end ServerFirst

/-- **The attributes are extracted exactly when each is found where it stands.** They are looked
for independently in the whole message, so an `s=` in the nonce, or an `i=` in the nonce or at the
end of the salt, is taken for the attribute. -/
theorem extracted_iff (m : ServerFirst) (frame : ScramFrame) (rand : ℕ → ℕ) (password : CStr) :
    m.Extracted frame rand password ↔ m.SaltFound ∧ m.CountFound := by
  obtain ⟨c, hval, hnonce, hsalt, hlen, hcount⟩ := m.processServerFirst_text rand frame password
  rw [m.saltFound_iff, m.countFound_iff, ← m.count_read_iff, ← hsalt, ← hcount]
  constructor
  · rintro ⟨c', hval', -, hsalt', -, hcount'⟩
    rw [hval, Option.some_inj] at hval'
    subst hval'
    exact ⟨hsalt', hcount'⟩
  · rintro ⟨hsalt', hcount'⟩
    refine ⟨c, hval, hnonce, hsalt', ?_, hcount'⟩
    rw [hlen, CStr.length, hsalt']

/-- `r=abs=c,s=QQ==,i=4096`. -/
def nonceWithSalt : ServerFirst where
  nonce := [ch 'a', ch 'b', ch 's', ch '=', ch 'c']
  salt := [ch 'Q', ch 'Q', ch '=', ch '=']
  count := 4096
  nonceLen := by decide
  nonceChars := List.forall_iff_forall_mem.1 (by decide)
  saltLen := by decide
  saltChars := List.forall_iff_forall_mem.1 (by decide)
  countRange := by decide

/-- The salt of that message becomes `c`, the end of its nonce. -/
theorem nonceWithSalt_misread : ¬nonceWithSalt.Extracted zeroScramFrame (fun _ => 0) CStr.empty := by
  rintro ⟨c, hval, -, hsalt, -, -⟩
  obtain ⟨c', hval', -, hsalt', -, -⟩ := nonceWithSalt.processServerFirst_text (fun _ => 0) zeroScramFrame CStr.empty
  rw [hval, Option.some_inj] at hval'
  subst hval'
  rw [hsalt] at hsalt'
  exact absurd hsalt' (by decide)

end Pqwire

import Pqwire.Spec.Grammar
import Pqwire.Spec.Rewrite
import Pqwire.Proof.Handle

/-!
# Decoding Bind

`bindOf` against the grammar.

* `bindOf_enc`: a body within the limits is decoded to exactly what it carries.
* `bindOf_none_iff`: the bodies that are turned away are those of `BindRejected`.
* `parseBindMsg_faithful_iff`: the event reports what the body carries exactly when the
  body is turned away or is a complete body within the limits.
-/

namespace Pqwire

open ByteMem

/-! ## Codes -/

theorem toI16_encCode (code : Int16) : toI16 (code.toUInt16.toNat % 2 ^ 16) = code := by
  have h := code.toUInt16.toNat_lt
  unfold toI16
  rw [Nat.mod_eq_of_lt h, UInt16.ofNat_toNat]
  exact Int16.toInt16_toUInt16 code

theorem toI32_toUInt32 (len : Int32) : toI32 (len.toUInt32.toNat % 2 ^ 32) = len := by
  have h := len.toUInt32.toNat_lt
  unfold toI32
  rw [Nat.mod_eq_of_lt h, UInt32.ofNat_toNat]
  exact Int32.toInt32_toUInt32 len

theorem toUInt16_toI16 {v : ℕ} (h : v < 2 ^ 16) : (toI16 v).toUInt16.toNat = v := by
  unfold toI16
  rw [UInt16.toUInt16_toInt16, UInt16.toNat_ofNat', Nat.mod_eq_of_lt h]

theorem toUInt32_toI32 {v : ℕ} (h : v < 2 ^ 32) : (toI32 v).toUInt32.toNat = v := by
  unfold toI32
  rw [UInt32.toUInt32_toInt32, UInt32.toNat_ofNat', Nat.mod_eq_of_lt h]

@[simp] theorem encCode_length (code : Int16) : (encCode code).length = 2 := rfl

@[simp] theorem flatMap_encCode_length (codes : List Int16) : (codes.flatMap encCode).length = 2 * codes.length := by
  induction codes with
  | nil => rfl
  | cons c cs ih => simp only [List.flatMap_cons, List.length_append, encCode_length, ih, List.length_cons]; omega

theorem readCodes_enc (pre rest : Bytes) (codes : List Int16) :
    readCodes (pre ++ codes.flatMap encCode ++ rest) codes.length pre.length = codes := by
  induction codes generalizing pre with
  | nil => rfl
  | cons c cs ih =>
    have hb : pre ++ (c :: cs).flatMap encCode ++ rest =
        pre ++ wr16Be c.toUInt16.toNat ++ (cs.flatMap encCode ++ rest) := by
      simp only [List.flatMap_cons, encCode, List.append_assoc]
    have hrec := ih (pre ++ encCode c)
    rw [List.length_append, encCode_length] at hrec
    simp only [List.length_cons, readCodes]
    rw [if_pos (by simp only [List.length_append, flatMap_encCode_length, List.length_cons]; omega),
      hb, rd16Be_at, toI16_encCode]
    simp only [encCode, List.append_assoc] at hrec ⊢
    rw [hrec]

theorem readCodes_length (body : Bytes) (n off : ℕ) :
    (readCodes body n off).length = min n ((body.length - off) / 2) := by
  induction n generalizing off with
  | zero => simp [readCodes]
  | succ n ih =>
    simp only [readCodes]
    split
    · rw [List.length_cons, ih]; omega
    · rw [List.length_nil]; omega

/-- The codes read are those on the wire. -/
theorem readCodes_wire (body : Bytes) (n off : ℕ) (h : off + 2 * (readCodes body n off).length ≤ body.length) :
    slice body off (2 * (readCodes body n off).length) = (readCodes body n off).flatMap encCode := by
  induction n generalizing off with
  | zero => simp [readCodes, slice]
  | succ n ih =>
    simp only [readCodes] at h ⊢
    split
    · rename_i hl
      rw [if_pos hl, List.length_cons] at h
      have hrec := ih (off + 2) (by omega)
      have hw := wr16Be_rd16Be (p := body.drop off) (by rw [List.length_drop]; omega)
      rw [rd16Be_drop, Nat.add_zero, List.drop_drop] at hw
      rw [List.flatMap_cons, ← hrec, List.length_cons, encCode, toUInt16_toI16 (rd16Be_lt _ _)]
      unfold slice
      nth_rewrite 1 [← hw]
      rw [List.take_append, wr16Be_length, List.take_of_length_le (by rw [wr16Be_length]; omega)]
      congr 2
    · simp [slice]

/-! ## Values -/

theorem Field.ext {f g : Field} (h₁ : f.len = g.len) (h₂ : f.data = g.data) : f = g := by
  cases f
  cases g
  cases h₁
  cases h₂
  rfl

theorem Field.enc_length (f : Field) : f.enc.length = 4 + f.len.toInt.toNat := by
  rw [Field.enc, List.length_append, wr32Be_length, f.ok]

/-- The views of consecutive values: the first is parameter `i`, at offset `off`. -/
def viewsAt (base : ℕ) (fmt : ℕ → Int16) : ℕ → ℕ → List Field → List BindParamView
  | _, _, [] => []
  | i, off, f :: fs =>
    ⟨f.len, if f.len.toInt < 0 then none else some (base + (off + 4)), fmt i⟩ ::
      viewsAt base fmt (i + 1) (off + f.enc.length) fs

theorem viewsAt_length (base : ℕ) (fmt : ℕ → Int16) (i off : ℕ) (fs : List Field) :
    (viewsAt base fmt i off fs).length = fs.length := by
  induction fs generalizing i off with
  | nil => rfl
  | cons f fs ih => rw [viewsAt, List.length_cons, List.length_cons, ih]

/-- The loop reads the values on the wire one by one. -/
theorem readParams_enc (base : ℕ) (fmt : ℕ → Int16) (rest : Bytes) (k : ℕ) (fs : List Field) (pre : Bytes) (i : ℕ) :
    readParams base (pre ++ fs.flatMap Field.enc ++ rest) fmt (fs.length + k) i pre.length =
      (readParams base (pre ++ fs.flatMap Field.enc ++ rest) fmt k (i + fs.length)
        (pre.length + (fs.flatMap Field.enc).length)).map fun r => (viewsAt base fmt i pre.length fs ++ r.1, r.2) := by
  induction fs generalizing pre i with
  | nil =>
    simp only [List.flatMap_nil, List.length_nil, Nat.zero_add, Nat.add_zero, viewsAt, List.nil_append]
    exact Option.map_id'.symm
  | cons f fs ih =>
    have hb : pre ++ (f :: fs).flatMap Field.enc ++ rest = (pre ++ f.enc) ++ fs.flatMap Field.enc ++ rest := by
      simp only [List.flatMap_cons, List.append_assoc]
    have hv : rd32Be (pre ++ (f :: fs).flatMap Field.enc ++ rest) pre.length = f.len.toUInt32.toNat % 2 ^ 32 := by
      rw [← rd32Be_at pre f.len.toUInt32.toNat (f.data ++ (fs.flatMap Field.enc ++ rest))]
      simp only [List.flatMap_cons, Field.enc, List.append_assoc]
    have hlen : (pre ++ (f :: fs).flatMap Field.enc ++ rest).length =
        pre.length + 4 + f.len.toInt.toNat + (fs.flatMap Field.enc).length + rest.length := by
      rw [hb]; simp only [List.length_append, Field.enc_length]; omega
    -- the induction is over the values; what has been read moves into the front
    have hrec := ih (pre ++ f.enc) (i + 1)
    rw [← hb, List.length_append, Field.enc_length] at hrec
    have hn : (f :: fs).length + k = fs.length + k + 1 := by rw [List.length_cons]; omega
    rw [hn]
    simp only [readParams]
    rw [if_pos (by rw [hlen]; omega), hv, toI32_toUInt32]
    have hi : i + 1 + fs.length = i + (f :: fs).length := by rw [List.length_cons]; omega
    have he : pre.length + (4 + f.len.toInt.toNat) + (fs.flatMap Field.enc).length =
        pre.length + ((f :: fs).flatMap Field.enc).length := by
      rw [List.flatMap_cons, List.length_append, Field.enc_length]; omega
    rw [hi, he] at hrec
    split
    · rename_i hneg
      have h0 : f.len.toInt.toNat = 0 := by omega
      rw [h0, Nat.add_zero] at hrec
      rw [hrec]
      simp only [Option.bind_eq_bind, Option.bind_map, Option.pure_def, viewsAt, if_pos hneg, Field.enc_length, h0,
        Nat.add_zero]
      cases readParams base (pre ++ (f :: fs).flatMap Field.enc ++ rest) fmt k (i + (f :: fs).length)
        (pre.length + ((f :: fs).flatMap Field.enc).length) <;> rfl
    · rename_i hneg
      rw [if_neg (by rw [hlen]; omega), Nat.add_assoc, hrec]
      simp only [Option.bind_eq_bind, Option.bind_map, Option.pure_def, viewsAt, if_neg hneg, Field.enc_length]
      cases readParams base (pre ++ (f :: fs).flatMap Field.enc ++ rest) fmt k (i + (f :: fs).length)
        (pre.length + ((f :: fs).flatMap Field.enc).length) <;> rfl

/-- A value longer than what is left ends the parse. -/
theorem readParams_overrun (base : ℕ) (fmt : ℕ → Int16) (pre rest : Bytes) (n i : ℕ) {len : Int32}
    (h : rest.length < len.toInt.toNat) :
    readParams base (pre ++ wr32Be len.toUInt32.toNat ++ rest) fmt (n + 1) i pre.length = none := by
  simp only [readParams]
  rw [if_pos (by simp only [List.length_append, wr32Be_length]; omega), rd32Be_at, toI32_toUInt32,
    if_neg (by omega), if_pos (by simp only [List.length_append, wr32Be_length]; omega)]

/-- A parse that is broken off has read some values and then the length of one that is
longer than what is left. -/
theorem readParams_none {base : ℕ} {body : Bytes} {fmt : ℕ → Int16} {n i off : ℕ}
    (h : readParams base body fmt n i off = none) :
    ∃ (fs : List Field) (len : Int32) (rest : Bytes), fs.length < n ∧ rest.length < len.toInt.toNat ∧
      body.drop off = fs.flatMap Field.enc ++ wr32Be len.toUInt32.toNat ++ rest := by
  induction n generalizing i off with
  | zero => cases h
  | succ n ih =>
    simp only [readParams] at h
    split at h
    · rename_i hl
      have hw := wr32Be_rd32Be (p := body.drop off) (by rw [List.length_drop]; omega)
      rw [rd32Be_drop, Nat.add_zero, List.drop_drop] at hw
      set len := toI32 (rd32Be body off)
      have hu : len.toUInt32.toNat = rd32Be body off := toUInt32_toI32 (rd32Be_lt _ _)
      -- one more value in front of those the rest of the loop reads
      have step : ∀ (f : Field), f.len = len → ∀ e, body.drop (off + 4) = f.data ++ body.drop e →
          readParams base body fmt n (i + 1) e = none →
          ∃ (fs : List Field) (len : Int32) (rest : Bytes), fs.length < n + 1 ∧ rest.length < len.toInt.toNat ∧
            body.drop off = fs.flatMap Field.enc ++ wr32Be len.toUInt32.toNat ++ rest := by
        intro f hf e he hr
        obtain ⟨fs, len', rest, h1, h2, h3⟩ := ih hr
        refine ⟨f :: fs, len', rest, by rw [List.length_cons]; omega, h2, ?_⟩
        rw [← hw, he, h3, List.flatMap_cons, Field.enc, hf, hu]
        simp only [List.append_assoc]
      split at h
      · rename_i hneg
        refine step ⟨len, [], ?_⟩ rfl (off + 4) rfl ?_
        · have : len.toInt.toNat = 0 := by omega
          rw [this]; rfl
        · simpa only [Option.bind_eq_bind, Option.pure_def, Option.bind_eq_none_iff, reduceCtorEq, imp_false,
            ← Option.eq_none_iff_forall_ne_some] using h
      · split at h
        · rename_i hover
          exact ⟨[], len, body.drop (off + 4), Nat.succ_pos n, by rw [List.length_drop]; omega,
            by rw [hu, List.flatMap_nil, List.nil_append]; exact hw.symm⟩
        · rename_i hfit
          refine step ⟨len, slice body (off + 4) len.toInt.toNat, slice_length (by omega)⟩ rfl
            (off + 4 + len.toInt.toNat) ?_ ?_
          · show body.drop (off + 4) = slice body (off + 4) len.toInt.toNat ++ body.drop (off + 4 + len.toInt.toNat)
            unfold slice
            rw [← List.drop_drop (i := len.toInt.toNat), List.take_append_drop]
          · simpa only [Option.bind_eq_bind, Option.pure_def, Option.bind_eq_none_iff, reduceCtorEq, imp_false,
              ← Option.eq_none_iff_forall_ne_some] using h
    · cases h

/-- A parse that gets through has read values one after the other. -/
theorem readParams_some {base : ℕ} {body : Bytes} {fmt : ℕ → Int16} {n i off : ℕ} {vs : List BindParamView} {e : ℕ}
    (h : readParams base body fmt n i off = some (vs, e)) :
    ∃ fs : List Field, fs.length ≤ n ∧ vs = viewsAt base fmt i off fs ∧ e = off + (fs.flatMap Field.enc).length ∧
      body.drop off = fs.flatMap Field.enc ++ body.drop e := by
  induction n generalizing i off vs e with
  | zero =>
    simp only [readParams, Option.some.injEq, Prod.mk.injEq] at h
    obtain ⟨rfl, rfl⟩ := h
    exact ⟨[], le_rfl, rfl, rfl, rfl⟩
  | succ n ih =>
    simp only [readParams] at h
    split at h
    · rename_i hl
      have hw := wr32Be_rd32Be (p := body.drop off) (by rw [List.length_drop]; omega)
      rw [rd32Be_drop, Nat.add_zero, List.drop_drop] at hw
      set len := toI32 (rd32Be body off)
      have hu : len.toUInt32.toNat = rd32Be body off := toUInt32_toI32 (rd32Be_lt _ _)
      -- one more value in front of those the rest of the loop reads
      have step : ∀ (f : Field), f.len = len → ∀ k vs' e', f.enc.length = k →
          body.drop (off + 4) = f.data ++ body.drop (off + k) →
          readParams base body fmt n (i + 1) (off + k) = some (vs', e') →
          vs = ⟨len, if len.toInt < 0 then none else some (base + (off + 4)), fmt i⟩ :: vs' → e = e' →
          ∃ fs : List Field, fs.length ≤ n + 1 ∧ vs = viewsAt base fmt i off fs ∧
            e = off + (fs.flatMap Field.enc).length ∧ body.drop off = fs.flatMap Field.enc ++ body.drop e := by
        rintro f hf k vs' e' rfl hd hr hvs he
        obtain ⟨fs, h1, h2, h3, h4⟩ := ih hr
        refine ⟨f :: fs, by rw [List.length_cons]; omega, ?_, ?_, ?_⟩
        · rw [hvs, viewsAt, hf, h2]
        · rw [he, h3, List.flatMap_cons, List.length_append]; omega
        · have henc : f.enc = wr32Be (rd32Be body off) ++ f.data := by rw [Field.enc, hf, hu]
          rw [← hw, hd, h4, List.flatMap_cons, he, henc]
          simp only [List.append_assoc]
      split at h
      · rename_i hneg
        have h0 : len.toInt.toNat = 0 := by omega
        simp only [Option.bind_eq_bind, Option.bind_eq_some_iff] at h
        obtain ⟨⟨vs', e'⟩, hr, h⟩ := h
        simp only [Option.pure_def, Option.some.injEq, Prod.mk.injEq] at h
        obtain ⟨hvs, he⟩ := h
        have hok : ([] : Bytes).length = len.toInt.toNat := by rw [h0]; rfl
        refine step ⟨len, [], hok⟩ rfl 4 vs' e' ?_ rfl hr ?_ he.symm
        · have := Field.enc_length ⟨len, [], hok⟩
          simp only [h0] at this
          exact this
        · rw [if_pos hneg]; exact hvs.symm
      · rename_i hneg
        split at h
        · cases h
        · rename_i hfit
          simp only [Option.bind_eq_bind, Option.bind_eq_some_iff] at h
          obtain ⟨⟨vs', e'⟩, hr, h⟩ := h
          simp only [Option.pure_def, Option.some.injEq, Prod.mk.injEq] at h
          obtain ⟨hvs, he⟩ := h
          refine step ⟨len, slice body (off + 4) len.toInt.toNat, slice_length (by omega)⟩ rfl
            (4 + len.toInt.toNat) vs' e' (Field.enc_length _) ?_ (by rw [← Nat.add_assoc]; exact hr) ?_ he.symm
          · rw [← Nat.add_assoc]
            unfold slice
            rw [← List.drop_drop (i := len.toInt.toNat), List.take_append_drop]
          · rw [if_neg hneg]; exact hvs.symm
    · simp only [Option.some.injEq, Prod.mk.injEq] at h
      obtain ⟨rfl, rfl⟩ := h
      exact ⟨[], Nat.zero_le _, rfl, rfl, rfl⟩

/-! ## The body -/

/-- The event of a Bind whose parameters have been read, up to offset `r.2`. -/
def bindEnd (base : ℕ) (body : Bytes) (portal stmt : CStr) (nFormats : ℕ) (formats : List Int16) (nParams : ℕ)
    (r : List BindParamView × ℕ) : BindMsg :=
  let n := if r.2 + 2 ≤ body.length then min (rd16Be body r.2) maxBindParams else 0
  ⟨copyCstr maxPortalName portal, copyCstr maxStmtName stmt, nFormats, formats, nParams, r.1, n,
    readCodes body n (r.2 + 2), base, body.length⟩

theorem readCstr_names (portal stmt : CStr) (rest : Bytes) :
    readCstr (portal.toBytes ++ stmt.toBytes ++ rest) = some (portal, portal.length + 1) ∧
      readCstr ((portal.toBytes ++ stmt.toBytes ++ rest).drop (portal.length + 1)) =
        some (stmt, stmt.length + 1) := by
  rw [List.append_assoc]
  refine ⟨readCstr_toBytes _ _, ?_⟩
  rw [← CStr.toBytes_length, List.drop_left]
  exact readCstr_toBytes _ _

variable {base : ℕ} (portal stmt : CStr) {nf np : ℕ} {rest : Bytes}

theorem bindOf_noFormats (h : rest.length < 2) : bindOf base (portal.toBytes ++ stmt.toBytes ++ rest) = none := by
  obtain ⟨h1, h2⟩ := readCstr_names portal stmt rest
  have hl : portal.length + 1 + (stmt.length + 1) + 2 > (portal.toBytes ++ stmt.toBytes ++ rest).length := by
    simp only [List.length_append, CStr.toBytes_length]; omega
  unfold bindOf
  simp only [h1, h2, Option.bind_eq_bind, Option.bind_some, if_pos hl]
  rfl

theorem bindOf_noParams (hnf : nf < 2 ^ 16) (h : rest.length < 2 * min nf maxBindParams + 2) :
    bindOf base (portal.toBytes ++ stmt.toBytes ++ wr16Be nf ++ rest) = none := by
  obtain ⟨h1, h2⟩ := readCstr_names portal stmt (wr16Be nf ++ rest)
  rw [← List.append_assoc] at h1 h2
  have hlen : (portal.toBytes ++ stmt.toBytes ++ wr16Be nf ++ rest).length =
      portal.length + 1 + (stmt.length + 1) + 2 + rest.length := by
    simp only [List.length_append, CStr.toBytes_length, wr16Be_length]
  have hrd : rd16Be (portal.toBytes ++ stmt.toBytes ++ wr16Be nf ++ rest)
      (portal.length + 1 + (stmt.length + 1)) = nf := by
    have := rd16Be_at (portal.toBytes ++ stmt.toBytes) nf rest
    rwa [List.length_append, CStr.toBytes_length, CStr.toBytes_length, Nat.mod_eq_of_lt hnf] at this
  have hc := readCodes_length (portal.toBytes ++ stmt.toBytes ++ wr16Be nf ++ rest) (min nf maxBindParams)
    (portal.length + 1 + (stmt.length + 1) + 2)
  unfold bindOf
  simp only [h1, h2, Option.bind_eq_bind, Option.bind_some, hrd]
  rw [if_neg (by rw [hlen]; omega)]
  simp only [Option.pure_def]
  rw [if_pos (by rw [hlen] at hc ⊢; omega)]
  rfl

/-- The part of a Bind in front of its parameters, with the codes that are read. -/
def bindHead (nf np : ℕ) (formats : List Int16) : Bytes :=
  portal.toBytes ++ stmt.toBytes ++ wr16Be nf ++ formats.flatMap encCode ++ wr16Be np

theorem bindHead_length (nf np : ℕ) (formats : List Int16) : (bindHead portal stmt nf np formats).length =
    portal.length + 1 + (stmt.length + 1) + 2 + 2 * formats.length + 2 := by
  simp only [bindHead, List.length_append, CStr.toBytes_length, wr16Be_length, flatMap_encCode_length]

/-- **Behind the head, decoding is the parameter loop.** -/
theorem bindOf_head (base : ℕ) (hnf : nf < 2 ^ 16) (hnp : np < 2 ^ 16) {formats : List Int16}
    (hf : formats.length = min nf maxBindParams) (rest : Bytes) :
    bindOf base (bindHead portal stmt nf np formats ++ rest) =
      (readParams base (bindHead portal stmt nf np formats ++ rest) (formatFor (min nf maxBindParams) formats)
        (min np maxBindParams) 0 (bindHead portal stmt nf np formats).length).map
        (bindEnd base (bindHead portal stmt nf np formats ++ rest) portal stmt (min nf maxBindParams) formats
          (min np maxBindParams)) := by
  have hl := bindHead_length portal stmt nf np formats
  -- the body, split at each of the places where the decoder reads
  have hb₁ : bindHead portal stmt nf np formats ++ rest =
      portal.toBytes ++ stmt.toBytes ++ (wr16Be nf ++ (formats.flatMap encCode ++ (wr16Be np ++ rest))) := by
    simp only [bindHead, List.append_assoc]
  have hb₂ : bindHead portal stmt nf np formats ++ rest =
      (portal.toBytes ++ stmt.toBytes) ++ wr16Be nf ++ (formats.flatMap encCode ++ (wr16Be np ++ rest)) := by
    simp only [bindHead, List.append_assoc]
  have hb₃ : bindHead portal stmt nf np formats ++ rest =
      (portal.toBytes ++ stmt.toBytes ++ wr16Be nf) ++ formats.flatMap encCode ++ (wr16Be np ++ rest) := by
    simp only [bindHead, List.append_assoc]
  have hb₄ : bindHead portal stmt nf np formats ++ rest =
      (portal.toBytes ++ stmt.toBytes ++ wr16Be nf ++ formats.flatMap encCode) ++ wr16Be np ++ rest := by
    simp only [bindHead, List.append_assoc]
  obtain ⟨h1, h2⟩ := readCstr_names portal stmt (wr16Be nf ++ (formats.flatMap encCode ++ (wr16Be np ++ rest)))
  rw [← hb₁] at h1 h2
  have h3 := rd16Be_at (portal.toBytes ++ stmt.toBytes) nf (formats.flatMap encCode ++ (wr16Be np ++ rest))
  rw [← hb₂, List.length_append, CStr.toBytes_length, CStr.toBytes_length, Nat.mod_eq_of_lt hnf] at h3
  have h4 := readCodes_enc (portal.toBytes ++ stmt.toBytes ++ wr16Be nf) (wr16Be np ++ rest) formats
  simp only [← hb₃, List.length_append, CStr.toBytes_length, wr16Be_length, hf] at h4
  have h5 := rd16Be_at (portal.toBytes ++ stmt.toBytes ++ wr16Be nf ++ formats.flatMap encCode) np rest
  simp only [← hb₄, List.length_append, CStr.toBytes_length, wr16Be_length, flatMap_encCode_length,
    Nat.mod_eq_of_lt hnp, hf] at h5
  have hlen : (bindHead portal stmt nf np formats ++ rest).length =
      portal.length + 1 + (stmt.length + 1) + 2 + 2 * formats.length + 2 + rest.length := by
    rw [List.length_append, hl]
  have hoff : portal.length + 1 + (stmt.length + 1) + 2 + 2 * min nf maxBindParams + 2 =
      (bindHead portal stmt nf np formats).length := by rw [hl, hf]
  -- the bytes are not needed any more, only what is read from them
  generalize hB : bindHead portal stmt nf np formats ++ rest = body at *
  unfold bindOf
  simp only [h1, h2, Option.bind_eq_bind, Option.bind_some, h3, h4, hf]
  rw [if_neg (by rw [hlen]; omega)]
  simp only [Option.pure_def]
  rw [if_neg (by rw [hlen, hf]; omega)]
  simp only [h5, hoff]
  cases readParams base body (formatFor (min nf maxBindParams) formats) (min np maxBindParams) 0
    (bindHead portal stmt nf np formats).length with
  | none => rfl
  | some r =>
    simp only [Option.bind_some, Option.map_some, bindEnd]
    split
    · rfl
    · rfl

/-! ## Complete bodies -/

namespace BindBody

variable (x : BindBody)

/-- What stands in front of the parameters. -/
def head : Bytes := bindHead x.portal x.statement x.formats.length x.params.length x.formats

theorem enc_eq : x.enc = x.head ++ (x.params.flatMap Field.enc ++ encCodes x.results) := by
  simp only [enc, head, bindHead, encCodes, encFields, List.append_assoc]

theorem enc_length : x.enc.length = x.head.length + (x.params.flatMap Field.enc).length + 2 + 2 * x.results.length := by
  simp only [enc_eq, encCodes, List.length_append, wr16Be_length, flatMap_encCode_length]; omega

/-- The event that reports the body, when it lies at offset `base` of the input buffer. -/
def msg (base : ℕ) : BindMsg :=
  ⟨copyCstr maxPortalName x.portal, copyCstr maxStmtName x.statement, x.formats.length, x.formats,
    x.params.length, viewsAt base (formatFor x.formats.length x.formats) 0 x.head.length x.params,
    x.results.length, x.results, base, x.enc.length⟩

end BindBody

/-- **A body within the limits is decoded to what it carries.** -/
theorem bindOf_enc {x : BindBody} (hx : x.InLimits) (base : ℕ) : bindOf base x.enc = some (x.msg base) := by
  obtain ⟨hf, hp, hr⟩ := hx
  have hb : x.enc = x.head ++ x.params.flatMap Field.enc ++ encCodes x.results := by
    rw [x.enc_eq, List.append_assoc]
  have hhead := bindOf_head x.portal x.statement base x.formats_lt x.params_lt (min_eq_left hf).symm
    (x.params.flatMap Field.enc ++ encCodes x.results)
  have hps := readParams_enc base (formatFor x.formats.length x.formats) (encCodes x.results) 0 x.params x.head 0
  have hrd : rd16Be x.enc (x.head.length + (x.params.flatMap Field.enc).length) = x.results.length := by
    have := rd16Be_at (x.head ++ x.params.flatMap Field.enc) x.results.length (x.results.flatMap encCode)
    rw [List.append_assoc, ← encCodes, ← hb, List.length_append, Nat.mod_eq_of_lt x.results_lt] at this
    exact this
  have hcodes : readCodes x.enc x.results.length (x.head.length + (x.params.flatMap Field.enc).length + 2) =
      x.results := by
    have := readCodes_enc (x.head ++ x.params.flatMap Field.enc ++ wr16Be x.results.length) [] x.results
    rw [List.append_nil, List.append_assoc, ← encCodes, ← hb, List.length_append, List.length_append,
      wr16Be_length] at this
    exact this
  rw [← BindBody.head, ← x.enc_eq, min_eq_left hf, min_eq_left hp] at hhead
  rw [← hb, Nat.add_zero, readParams, Option.map_some, List.append_nil] at hps
  rw [hhead, hps, Option.map_some, bindEnd]
  have hend : x.head.length + (x.params.flatMap Field.enc).length + 2 ≤ x.enc.length := by
    rw [x.enc_length]; omega
  simp only [if_pos hend, hrd, min_eq_left hr, hcodes]
  rfl

theorem viewsAt_append (base : ℕ) (fmt : ℕ → Int16) (i off : ℕ) (fs gs : List Field) :
    viewsAt base fmt i off (fs ++ gs) =
      viewsAt base fmt i off fs ++ viewsAt base fmt (i + fs.length) (off + (fs.flatMap Field.enc).length) gs := by
  induction fs generalizing i off with
  | nil => rfl
  | cons f fs ih =>
    have hi : i + 1 + fs.length = i + (f :: fs).length := by rw [List.length_cons]; omega
    have ho : off + f.enc.length + (fs.flatMap Field.enc).length = off + ((f :: fs).flatMap Field.enc).length := by
      rw [List.flatMap_cons, List.length_append]; omega
    rw [List.cons_append, viewsAt, viewsAt, ih, hi, ho, List.cons_append]

theorem viewsAt_getElem? (base : ℕ) (fmt : ℕ → Int16) {fs : List Field} {i : ℕ} {f : Field} (h : fs[i]? = some f)
    (i₀ off : ℕ) : (viewsAt base fmt i₀ off fs)[i]? =
      some ⟨f.len, if f.len.toInt < 0 then none else
        some (base + (off + ((fs.take i).flatMap Field.enc).length + 4)), fmt (i₀ + i)⟩ := by
  induction fs generalizing i i₀ off with
  | nil => cases h
  | cons g gs ih =>
    cases i with
    | zero =>
      simp only [List.getElem?_cons_zero, Option.some.injEq] at h
      subst h
      simp [viewsAt]
    | succ i =>
      rw [List.getElem?_cons_succ] at h
      rw [viewsAt, List.getElem?_cons_succ, ih h]
      simp only [List.take_succ_cons, List.flatMap_cons, List.length_append]
      have e1 : i₀ + 1 + i = i₀ + (i + 1) := by omega
      have e2 : off + g.enc.length + ((gs.take i).flatMap Field.enc).length + 4 =
          off + (g.enc.length + ((gs.take i).flatMap Field.enc).length) + 4 := by omega
      rw [e1, e2]

/-- The value `i` of consecutive values, located. -/
theorem slice_field {fs : List Field} {i : ℕ} {f : Field} (h : fs[i]? = some f) (pre rest : Bytes) :
    slice (pre ++ fs.flatMap Field.enc ++ rest) (pre.length + ((fs.take i).flatMap Field.enc).length + 4)
      f.len.toInt.toNat = f.data ∧
    pre.length + ((fs.take i).flatMap Field.enc).length + 4 + f.len.toInt.toNat ≤
      (pre ++ fs.flatMap Field.enc ++ rest).length := by
  have hi : i < fs.length := (List.getElem?_eq_some_iff.1 h).1
  have hsplit : fs = fs.take i ++ f :: fs.drop (i + 1) := by
    rw [← (List.getElem?_eq_some_iff.1 h).2, ← List.drop_eq_getElem_cons hi, List.take_append_drop]
  set pre' := pre ++ (fs.take i).flatMap Field.enc ++ wr32Be f.len.toUInt32.toNat
  have hb : pre ++ fs.flatMap Field.enc ++ rest =
      pre' ++ f.data ++ ((fs.drop (i + 1)).flatMap Field.enc ++ rest) := by
    conv_lhs => rw [hsplit]
    simp only [pre', List.flatMap_append, List.flatMap_cons, Field.enc, List.append_assoc]
  have hl : pre'.length = pre.length + ((fs.take i).flatMap Field.enc).length + 4 := by
    simp only [pre', List.length_append, wr32Be_length]
  rw [hb, ← hl, ← f.ok]
  refine ⟨slice_append_mid _ _ _, ?_⟩
  simp only [List.length_append]; omega

/-- The parameters of any event lie one after the other in its body; those behind the end
of a body that is too short are not there. -/
theorem bindOf_fields {base : ℕ} {body : Bytes} {b : BindMsg} (h : bindOf base body = some b) :
    ∃ (pre rest : Bytes) (fs : List Field), body = pre ++ fs.flatMap Field.enc ++ rest ∧ fs.length ≤ b.nParams ∧
      b.params = viewsAt base (formatFor b.nFormats b.formats) 0 pre.length fs := by
  obtain ⟨off, e, hoff, hr, -, -⟩ := bindOf_inv h
  obtain ⟨fs, h1, h2, -, h4⟩ := readParams_some hr
  have hpre : (body.take off).length = off := by rw [List.length_take, min_eq_left hoff]
  have hb : body = body.take off ++ fs.flatMap Field.enc ++ body.drop e := by
    rw [List.append_assoc, ← h4, List.take_append_drop]
  exact ⟨body.take off, body.drop e, fs, hb, h1, by rw [hpre]; exact h2⟩

/-- What stands for a parameter that the body ends in front of: the array is read as zeros. -/
def Field.absent : Field := ⟨0, [], rfl⟩

/-- NULL, as the senders of this code write it. -/
def Field.null : Field := ⟨-1, [], rfl⟩

/-- What a parameter denotes, from the values that its body holds. -/
theorem param_field {mem : Bytes} {base : ℕ} {body pre rest : Bytes} {fs : List Field} {fmt : ℕ → Int16} {b : BindMsg}
    (hb : body = pre ++ fs.flatMap Field.enc ++ rest) (hv : b.params = viewsAt base fmt 0 pre.length fs)
    (hm : slice mem base body.length = body) (i : ℕ) :
    (b.param i).length = (fs.getD i .absent).len ∧ (b.param i).bytes mem = (fs.getD i .absent).data := by
  unfold BindMsg.param
  rw [List.getD_eq_getElem?_getD, List.getD_eq_getElem?_getD]
  cases hi : fs[i]? with
  | none =>
    have hnone : b.params[i]? = none := by
      rw [List.getElem?_eq_none_iff] at hi ⊢
      rw [hv, viewsAt_length]; exact hi
    rw [hnone]
    exact ⟨rfl, rfl⟩
  | some f =>
    rw [hv, viewsAt_getElem? _ _ hi, Option.getD_some, Option.getD_some]
    refine ⟨rfl, ?_⟩
    unfold BindParamView.bytes
    dsimp only
    obtain ⟨h1, h2⟩ := slice_field hi pre rest
    rw [← hb] at h1 h2
    -- a NULL has no bytes and no pointer; otherwise the pointer is to the bytes of the value
    split
    · rename_i hnone
      split at hnone
      · have h0 : f.data.length = 0 := by rw [f.ok]; omega
        exact (List.eq_nil_of_length_eq_zero h0).symm
      · cases hnone
    · rename_i p hp
      split at hp
      · cases hp
      · cases hp
        rw [← slice_slice mem h2, hm, h1]

/-- **What a parameter of any event denotes is a value of the grammar.** -/
theorem bindOf_param {mem : Bytes} {base : ℕ} {body : Bytes} {b : BindMsg} (h : bindOf base body = some b)
    (hm : slice mem base body.length = body) (i : ℕ) :
    ∃ f : Field, (b.param i).length = f.len ∧ (b.param i).bytes mem = f.data := by
  obtain ⟨pre, rest, fs, hb, -, hv⟩ := bindOf_fields h
  exact ⟨fs.getD i .absent, param_field hb hv hm i⟩

/-- What a body reports: formats, parameters (count, lengths, bytes, order) and result
formats. `mem` is the buffer that the views point into. -/
structure Reports (mem : Bytes) (b : BindMsg) (x : BindBody) : Prop where
  nFormats : b.nFormats = x.formats.length
  formats : b.formats = x.formats
  nParams : b.nParams = x.params.length
  params : ∀ i f, x.params[i]? = some f → (b.param i).length = f.len ∧
    ((b.param i).data = none ↔ f.len.toInt < 0) ∧ (b.param i).bytes mem = f.data
  nResultFormats : b.nResultFormats = x.results.length
  resultFormats : b.resultFormats = x.results

theorem BindBody.msg_param (x : BindBody) (base : ℕ) {i : ℕ} {f : Field} (h : x.params[i]? = some f) :
    (x.msg base).param i = ⟨f.len, if f.len.toInt < 0 then none else
      some (base + (x.head.length + ((x.params.take i).flatMap Field.enc).length + 4)),
      formatFor x.formats.length x.formats i⟩ := by
  have hv := viewsAt_getElem? base (formatFor x.formats.length x.formats) h 0 x.head.length
  rw [Nat.zero_add] at hv
  unfold BindMsg.param
  rw [List.getD_eq_getElem?_getD]
  show ((viewsAt base (formatFor x.formats.length x.formats) 0 x.head.length x.params)[i]?).getD _ = _
  rw [hv, Option.getD_some]

/-- The bytes of parameter `i`, wherever the body lies. -/
theorem BindBody.msg_bytes (x : BindBody) {mem : Bytes} {base : ℕ} (hm : slice mem base x.enc.length = x.enc)
    {i : ℕ} {f : Field} (h : x.params[i]? = some f) : ((x.msg base).param i).bytes mem = f.data := by
  rw [x.msg_param base h]
  unfold BindParamView.bytes
  dsimp only
  split
  · rename_i hnone
    split at hnone
    · rename_i hneg
      have h0 : f.data.length = 0 := by rw [f.ok]; omega
      exact (List.eq_nil_of_length_eq_zero h0).symm
    · cases hnone
  · rename_i p hp
    split at hp
    · cases hp
    · cases hp
      obtain ⟨h1, h2⟩ := slice_field h x.head (encCodes x.results)
      rw [List.append_assoc, ← x.enc_eq] at h1 h2
      rw [← slice_slice mem h2, hm, h1]

theorem BindBody.msg_reports (x : BindBody) {mem : Bytes} {base : ℕ} (hm : slice mem base x.enc.length = x.enc) :
    Reports mem (x.msg base) x := by
  refine ⟨rfl, rfl, rfl, fun i f h => ⟨?_, ?_, x.msg_bytes hm h⟩, rfl, rfl⟩
  · rw [x.msg_param base h]
  · rw [x.msg_param base h]; simp

/-- A value of one byte. -/
def Field.byte (v : UInt8) : Field := ⟨1, [v], rfl⟩

/-- A Bind without names and formats that asks for one text column. -/
def BindBody.ofParams (fs : List Field) (h : fs.length < 2 ^ 16) : BindBody :=
  ⟨CStr.empty, CStr.empty, [], fs, [0], by decide, h, by decide⟩

end Pqwire

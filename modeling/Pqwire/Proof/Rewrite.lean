import Pqwire.Proof.Faithful
import Pqwire.Proof.Frames

/-!
# The identity rewrite

* `bindRewriteIdentityZerocopy_eq_some`: what the rewrite produces, and when.
* `rewriteBody_enc`: what it produces is the body of a Bind, as long as the identity is
  shorter than `2 ^ 31` bytes.
* `rewrite_sound_iff`: decoding it gives the forced names and identity, and every other
  parameter as it was, exactly when in addition its length fits the length field.
-/

namespace Pqwire

open ByteMem

/-! ## Writing within a capacity -/

theorem put_some {cap : ℕ} {p bs q : Bytes} : put cap p bs = some q ↔ p.length + bs.length ≤ cap ∧ q = p ++ bs := by
  unfold put
  split
  · constructor
    · intro h; cases h
    · rintro ⟨h, -⟩; omega
  · rw [Option.some.injEq]
    exact ⟨fun h => ⟨by omega, h.symm⟩, fun h => h.2.symm⟩

theorem putAll_some {cap : ℕ} {chunks : List Bytes} {p q : Bytes} (hp : p.length ≤ cap) :
    putAll cap p chunks = some q ↔ p.length + chunks.flatten.length ≤ cap ∧ q = p ++ chunks.flatten := by
  induction chunks generalizing p with
  | nil =>
    simp only [putAll, List.foldlM_nil, Option.pure_def, Option.some.injEq, List.flatten_nil, List.length_nil,
      Nat.add_zero, List.append_nil]
    exact ⟨fun h => ⟨hp, h.symm⟩, fun h => h.2.symm⟩
  | cons bs chunks ih =>
    simp only [putAll, List.foldlM_cons, Option.bind_eq_bind, Option.bind_eq_some_iff, put_some]
    constructor
    · rintro ⟨p', ⟨h1, rfl⟩, h2⟩
      have h3 := (ih (p := p ++ bs) (by rw [List.length_append]; omega)).1 h2
      rw [List.length_append] at h3
      rw [List.flatten_cons, List.length_append, ← List.append_assoc]
      exact ⟨by omega, h3.2⟩
    · rintro ⟨h1, rfl⟩
      rw [List.flatten_cons, List.length_append] at h1
      refine ⟨p ++ bs, ⟨by omega, rfl⟩, ?_⟩
      refine (ih (by rw [List.length_append]; omega)).2 ⟨by rw [List.length_append]; omega, ?_⟩
      rw [List.flatten_cons, List.append_assoc]

/-! ## The message written -/

section

variable (mem : Bytes) (b : BindMsg) (portal stmt : CStr) (slot : ℕ) (identity : CStr) (asBinary : Bool)

/-- The parameters the rewrite writes. -/
def rewriteParams : Bytes := ((List.range b.nParams).flatMap (rewriteParam mem b slot identity)).flatten

/-- The body the rewrite writes. -/
def rewriteBody : Bytes :=
  portal.toBytes ++ stmt.toBytes ++ encCodes ((List.range b.nParams).map (rewriteFormat b slot asBinary)) ++
    (wr16Be b.nParams ++ rewriteParams mem b slot identity) ++
    encCodes ((List.range b.nResultFormats).map b.resultFormat)

/-- The length of the rewritten message behind its type byte. -/
def rewriteLen : ℕ :=
  4 + (portal.length + 1) + (stmt.length + 1) + (2 + 2 * b.nParams) +
    (2 + ((List.range b.nParams).map fun i =>
      4 + if i = slot then identity.length else (b.param i).length.toInt.toNat).sum) +
    (2 + 2 * b.nResultFormats)

end

theorem flatten_map_encCode (n : ℕ) (code : ℕ → Int16) :
    ((List.range n).map fun i => wr16Be (code i).toUInt16.toNat).flatten = ((List.range n).map code).flatMap encCode := by
  rw [List.flatMap_map]; rfl

variable {mem : Bytes} {b : BindMsg} {portal statement : Option CStr} {slot : UInt16} {identity : CStr}
  {asBinary : Bool} {outCap : ℕ} {out : Bytes}

/-- All that the rewrite writes behind the header. -/
def rewriteChunks (mem : Bytes) (b : BindMsg) (portal statement : CStr) (slot : ℕ) (identity : CStr)
    (asBinary : Bool) : List Bytes :=
  [portal.toBytes, statement.toBytes, wr16Be b.nParams] ++
    ((List.range b.nParams).map fun i => wr16Be (rewriteFormat b slot asBinary i).toUInt16.toNat) ++
    [wr16Be b.nParams] ++ (List.range b.nParams).flatMap (rewriteParam mem b slot identity) ++
    [wr16Be b.nResultFormats] ++ (List.range b.nResultFormats).map fun i => wr16Be (b.resultFormat i).toUInt16.toNat

theorem rewriteChunks_flatten (mem : Bytes) (b : BindMsg) (portal statement : CStr) (slot : ℕ) (identity : CStr)
    (asBinary : Bool) :
    (rewriteChunks mem b portal statement slot identity asBinary).flatten =
      rewriteBody mem b portal statement slot identity asBinary := by
  have h1 := flatten_map_encCode b.nParams (rewriteFormat b slot asBinary)
  have h2 := flatten_map_encCode b.nResultFormats b.resultFormat
  simp only [rewriteChunks, rewriteBody, rewriteParams, encCodes, List.flatten_append, List.flatten_cons, List.flatten_nil,
    List.append_nil, h1, h2, List.length_map, List.length_range, List.append_assoc]

theorem rewrite_eq_putAll :
    bindRewriteIdentityZerocopy mem b portal statement slot identity asBinary outCap =
      if b.nParams = 0 ∨ slot.toNat ≥ b.nParams then none
      else if 5 > outCap then none
      else (putAll outCap (List.replicate 5 0) (rewriteChunks mem b (portal.getD CStr.empty)
        (statement.getD CStr.empty) slot.toNat identity asBinary)).map
        fun p => ch 'B' :: wr32Be (p.length - 1) ++ p.drop 5 := by
  unfold bindRewriteIdentityZerocopy
  split
  · rfl
  split
  · rfl
  simp only [rewriteChunks, putAll, List.cons_append, List.nil_append, List.foldlM_append, List.foldlM_cons,
    List.foldlM_nil, Option.pure_def, Option.bind_eq_bind, Option.map_eq_bind, Option.bind_assoc, Option.bind_some,
    Function.comp_def]

/-- **What the rewrite produces**: header and body, when they fit. -/
theorem bindRewriteIdentityZerocopy_eq_some :
    bindRewriteIdentityZerocopy mem b portal statement slot identity asBinary outCap = some out ↔
      slot.toNat < b.nParams ∧
      5 + (rewriteBody mem b (portal.getD CStr.empty) (statement.getD CStr.empty) slot.toNat identity asBinary).length
        ≤ outCap ∧
      out = ch 'B' :: wr32Be (4 + (rewriteBody mem b (portal.getD CStr.empty) (statement.getD CStr.empty) slot.toNat
        identity asBinary).length) ++
        rewriteBody mem b (portal.getD CStr.empty) (statement.getD CStr.empty) slot.toNat identity asBinary := by
  have hflat := rewriteChunks_flatten mem b (portal.getD CStr.empty) (statement.getD CStr.empty) slot.toNat identity
    asBinary
  set body := rewriteBody mem b (portal.getD CStr.empty) (statement.getD CStr.empty) slot.toNat identity asBinary
  have h5 : (List.replicate 5 (0 : UInt8)).length = 5 := rfl
  rw [rewrite_eq_putAll]
  split
  · constructor
    · intro h; cases h
    · rintro ⟨h, -⟩; omega
  split
  · constructor
    · intro h; cases h
    · rintro ⟨-, h, -⟩; omega
  rename_i hn hcap
  have hroom : (List.replicate 5 (0 : UInt8)).length ≤ outCap := by rw [h5]; omega
  simp only [Option.map_eq_some_iff, putAll_some hroom, hflat, h5]
  constructor
  · rintro ⟨p, ⟨hl, rfl⟩, rfl⟩
    refine ⟨by omega, hl, ?_⟩
    rw [List.length_append, h5, List.drop_append_of_le_length (by rw [h5]), List.drop_of_length_le (by rw [h5]),
      List.nil_append, Nat.add_comm 5, Nat.add_comm 4]
    rfl
  · rintro ⟨-, hl, rfl⟩
    refine ⟨_, ⟨hl, rfl⟩, ?_⟩
    rw [List.length_append, h5, List.drop_append_of_le_length (by rw [h5]), List.drop_of_length_le (by rw [h5]),
      List.nil_append, Nat.add_comm 5, Nat.add_comm 4]
    rfl

/-! ## It is a Bind -/

theorem toI32_toInt {n : ℕ} (h : n < 2 ^ 31) : (toI32 n).toInt = n := by
  unfold toI32
  show (UInt32.ofNat n).toBitVec.toInt = n
  have hn : (UInt32.ofNat n).toBitVec.toNat = n := by
    rw [UInt32.toNat_toBitVec, UInt32.toNat_ofNat', Nat.mod_eq_of_lt (by omega)]
  rw [BitVec.toInt_eq_toNat_of_lt (by rw [hn]; omega), hn]

theorem rewriteParams_eq (slot : ℕ) : rewriteParams mem b slot identity =
    (List.range b.nParams).flatMap fun i => (rewriteParam mem b slot identity i).flatten := by
  unfold rewriteParams
  induction List.range b.nParams with
  | nil => rfl
  | cons i is ih => rw [List.flatMap_cons, List.flatten_append, ih, List.flatMap_cons]

/-- The value that stands for parameter `i` behind the rewrite. -/
def RewrittenField (mem : Bytes) (b : BindMsg) (slot : ℕ) (identity : CStr) (i : ℕ) (f : Field) : Prop :=
  if i = slot then f.len.toInt = identity.length ∧ f.data = identity.bytes
  else (f.len.toInt < 0 ↔ (b.param i).length.toInt < 0) ∧ f.data = (b.param i).bytes mem

section

variable {base : ℕ} {body : Bytes} (hb : bindOf base body = some b) (hm : slice mem base body.length = body)

include hb hm

theorem rewriteParam_field (slot : ℕ) (hid : identity.length < 2 ^ 31) (i : ℕ) :
    ∃ f : Field, (rewriteParam mem b slot identity i).flatten = f.enc ∧ RewrittenField mem b slot identity i f := by
  obtain ⟨f, hl, hd⟩ := bindOf_param hb hm i
  unfold rewriteParam RewrittenField
  split
  · have hlen := toI32_toInt hid
    refine ⟨⟨toI32 identity.length, identity.bytes, by rw [hlen]; rfl⟩, ?_, hlen, rfl⟩
    simp only [Field.enc, List.flatten_cons, List.flatten_nil, List.append_nil]
    rw [toUInt32_toI32 (by omega)]
  · dsimp only
    split
    · rename_i hneg
      have hnil : (b.param i).bytes mem = [] := by
        rw [hd]
        apply List.eq_nil_of_length_eq_zero
        rw [f.ok, ← hl]; omega
      exact ⟨.null, by decide, by simp only [hneg, iff_true]; decide, hnil.symm⟩
    · refine ⟨f, ?_, by rw [hl], hd.symm⟩
      simp only [Field.enc, List.flatten_cons, List.flatten_nil, List.append_nil]
      rw [hl, hd]

theorem rewriteParam_length (slot : ℕ) (identity : CStr) (i : ℕ) : (rewriteParam mem b slot identity i).flatten.length =
    4 + if i = slot then identity.length else (b.param i).length.toInt.toNat := by
  obtain ⟨f, hl, hd⟩ := bindOf_param hb hm i
  unfold rewriteParam
  split
  · simp only [List.flatten_cons, List.flatten_nil, List.append_nil, List.length_append, wr32Be_length]
    rfl
  · dsimp only
    split
    · simp only [List.flatten_cons, List.flatten_nil, List.append_nil, wr32Be_length]; omega
    · simp only [List.flatten_cons, List.flatten_nil, List.append_nil, List.length_append, wr32Be_length]
      rw [hd, f.ok, hl]

theorem rewriteBody_length (portal stmt : CStr) (slot : ℕ) (identity : CStr) (asBinary : Bool) :
    4 + (rewriteBody mem b portal stmt slot identity asBinary).length = rewriteLen b portal stmt slot identity := by
  have hp : (rewriteParams mem b slot identity).length = ((List.range b.nParams).map fun i =>
      4 + if i = slot then identity.length else (b.param i).length.toInt.toNat).sum := by
    rw [rewriteParams_eq, List.length_flatMap]
    congr 1
    exact List.map_congr_left fun i _ => rewriteParam_length hb hm slot identity i
  simp only [rewriteBody, rewriteLen, encCodes, List.length_append, CStr.toBytes_length, wr16Be_length,
    flatMap_encCode_length, List.length_map, List.length_range, hp]
  omega

/-- **The rewritten body is the body of a Bind**, with the names given. -/
theorem rewriteBody_enc (portal stmt : CStr) (slot : ℕ) (hid : identity.length < 2 ^ 31) (asBinary : Bool) :
    ∃ x : BindBody, rewriteBody mem b portal stmt slot identity asBinary = x.enc ∧ x.InLimits ∧
      x.portal = portal ∧ x.statement = stmt ∧ x.params.length = b.nParams ∧
      x.formats = (List.range b.nParams).map (rewriteFormat b slot asBinary) ∧
      x.results = (List.range b.nResultFormats).map b.resultFormat ∧
      ∀ i < b.nParams, ∃ f, x.params[i]? = some f ∧ (rewriteParam mem b slot identity i).flatten = f.enc ∧
        RewrittenField mem b slot identity i f := by
  obtain ⟨-, h2, h3⟩ := bindOf_limits hb
  choose g hg using rewriteParam_field hb hm slot hid
  have hmax : maxBindParams = 32 := rfl
  refine ⟨⟨portal, stmt, (List.range b.nParams).map (rewriteFormat b slot asBinary), (List.range b.nParams).map g,
    (List.range b.nResultFormats).map b.resultFormat, ?_, ?_, ?_⟩, ?_, ⟨?_, ?_, ?_⟩, rfl, rfl, ?_, rfl, rfl, ?_⟩
  · rw [List.length_map, List.length_range]; omega
  · rw [List.length_map, List.length_range]; omega
  · rw [List.length_map, List.length_range]; omega
  · have hps : rewriteParams mem b slot identity = ((List.range b.nParams).map g).flatMap Field.enc := by
      rw [rewriteParams_eq, List.flatMap_map]
      exact List.flatMap_congr fun i _ => (hg i).1
    simp only [rewriteBody, BindBody.enc, encFields, List.length_map, List.length_range, hps]
  · rw [List.length_map, List.length_range]; exact h2
  · rw [List.length_map, List.length_range]; exact h2
  · rw [List.length_map, List.length_range]; exact h3
  · rw [List.length_map, List.length_range]
  · intro i hi
    exact ⟨g i, by simp only [List.getElem?_map, List.getElem?_range hi, Option.map_some], hg i⟩

end

/-! ## Decoding it -/

theorem formatFor_map {n i : ℕ} (code : ℕ → Int16) (hi : i < n) :
    formatFor n ((List.range n).map code) i = code i := by
  have hget : ∀ j, j < n → ((List.range n).map code).getD j 0 = code j := by
    intro j hj
    rw [List.getD_eq_getElem?_getD, List.getElem?_map, List.getElem?_range hj]
    rfl
  unfold formatFor
  rw [if_neg (by omega)]
  split
  · have : i = 0 := by omega
    rw [this]; exact hget 0 (by omega)
  · exact hget i hi

/-- What the decoded message has to show: forced names, the same number of parameters,
the identity in its slot, everything else as in `b`. `mem` and `mem'` are the buffers
that the views of `b` and `b'` point into. -/
structure Rewritten (mem : Bytes) (b : BindMsg) (portal stmt : CStr) (slot : ℕ) (identity : CStr) (asBinary : Bool)
    (mem' : Bytes) (b' : BindMsg) : Prop where
  portal : b'.portal = portal
  statement : b'.statement = stmt
  nParams : b'.nParams = b.nParams
  identity : (b'.param slot).length.toInt = identity.length ∧ (b'.param slot).bytes mem' = identity.bytes ∧
    (b'.param slot).format = if asBinary then 1 else 0
  others : ∀ i < b.nParams, i ≠ slot → ((b'.param i).length.toInt < 0 ↔ (b.param i).length.toInt < 0) ∧
    (b'.param i).bytes mem' = (b.param i).bytes mem ∧ (b'.param i).format = formatFor b.nFormats b.formats i
  nResultFormats : b'.nResultFormats = b.nResultFormats
  resultFormats : ∀ i < b.nResultFormats, b'.resultFormat i = b.resultFormat i

/-- The output of the rewrite is one complete `B` frame, and the server `d` decodes it to
one BIND event with what was asked for and no bytes left over. -/
def RewriteSound (mem : Bytes) (b : BindMsg) (portal stmt : CStr) (slot : ℕ) (identity : CStr) (asBinary : Bool)
    (out : Bytes) (d : Ctx) : Prop :=
  out.head? = some (ch 'B') ∧ rd32Be out 1 = out.length - 1 ∧
    ∃ d' q b' x, Feeds d out d' ∧ d'.resid = [] ∧ d'.log = d.log ++ [q] ∧ q.ev = .bind b' ∧
      q.frame = BindBody.enc x ∧ Reports d'.inputBuf b' x ∧
      Rewritten mem b portal stmt slot identity asBinary d'.inputBuf b'

/-- Consuming all of the input moves nothing. -/
theorem consume_all {c : Ctx} {n : ℕ} (h : c.inputLen = n) : (c.consume n).inputBuf = c.inputBuf := by
  subst h
  simp [Ctx.consume, shiftDown, slice]

/-- A server past startup decodes a Bind within the limits, and its views show it. -/
theorem feeds_bind {d d₁ : Ctx} {f : Frame} {x : BindBody} (hd : d.Ok) (hr : d.role = .server)
    (hs : d.startupSeen = true) (hres : d.resid = []) (hx : x.InLimits) (ht : f.type = ch 'B') (hf : f.body = x.enc)
    (hfit : f.Fits d) (ha : d.acceptInput f.enc = some d₁) :
    ∃ d' q, Feeds d f.enc d' ∧ d'.resid = [] ∧ d'.log = d.log ++ [q] ∧ q.ev = .bind (x.msg 5) ∧ q.frame = x.enc ∧
      slice d'.inputBuf 5 x.enc.length = x.enc := by
  have haw : d.awaitsStartup = false := awaits_of_seen hs
  have hall : Frame.encAll [f] = f.enc := by simp [Frame.encAll]
  have hok₁ := acceptInput_ok hd ha
  have hres₁ : d₁.resid = f.enc ++ [] := by rw [acceptInput_resid hd ha, hres, List.nil_append, List.append_nil]
  obtain ⟨h1, h2, h3, h4, -⟩ := acceptInput_same ha
  obtain ⟨-, -, hbody, hlen⟩ := frame_front hok₁ hres₁
  have hfits : ∀ g ∈ [f], g.Fits d := by simpa using hfit
  have hfeeds := feeds_frames hd haw ha hfits (by rw [hres, hall, List.nil_append])
  obtain ⟨-, -, hres'⟩ := feedStep_frames hok₁ (h1.trans haw) (by unfold Frame.Fits; rw [h3]; exact hfit) hres₁
  have hhandle : handleMessage d₁ f.type 5 f.body = d₁.enqueueEvent (.bind (x.msg 5)) x.enc := by
    rw [ht, hf]
    change handleMessage d₁ FrontType.bind.byte 5 x.enc = _
    rw [handleMessage_front (h2.trans hr), handleFrontend, parseBindMsg, bindOf_enc hx]
  have hbuf : (d₁.handleFrame f).inputBuf = d₁.inputBuf := by
    unfold Ctx.handleFrame
    have hh := handleMessage_handled d₁ f.type 5 f.body
    rw [consume_all (by rw [hh.inputLen, ← hlen, f.enc_length]; rfl), hh.inputBuf]
  refine ⟨d₁.handleFrame f, ⟨.bind (x.msg 5), x.enc, d₁.read (.bind (x.msg 5))⟩, hfeeds, hres', ?_, rfl, rfl, ?_⟩
  · obtain ⟨-, -, -, -, hlog, -⟩ := handleFrame_same d₁ f
    rw [hlog, hhandle, ← h4]
    rfl
  · rw [hbuf, ← hf]; exact hbody

/-- **The rewrite is sound exactly when the identity is shorter than `2 ^ 31` bytes and the
message shorter than `2 ^ 32`.** `b` comes from any body at all; `d` is any server past
startup with no input left over whose limit the message is within. -/
theorem rewrite_sound_iff {base : ℕ} {body : Bytes} (hb : bindOf base body = some b)
    (hm : slice mem base body.length = body) (hp : (portal.getD CStr.empty).length ≤ 63)
    (hst : (statement.getD CStr.empty).length ≤ 63)
    (hout : bindRewriteIdentityZerocopy mem b portal statement slot identity asBinary outCap = some out)
    {d d₁ : Ctx} (hd : Reachable d) (hr : d.role = .server) (hs : d.startupSeen = true) (hres : d.resid = [])
    (ha : d.acceptInput out = some d₁) (hmax : out.length - 1 ≤ d.maxMessageSize) :
    RewriteSound mem b (portal.getD CStr.empty) (statement.getD CStr.empty) slot.toNat identity asBinary out d ↔
      identity.length < 2 ^ 31 ∧
        rewriteLen b (portal.getD CStr.empty) (statement.getD CStr.empty) slot.toNat identity < 2 ^ 32 := by
  obtain ⟨hslot, -, rfl⟩ := bindRewriteIdentityZerocopy_eq_some.1 hout
  set P := portal.getD CStr.empty
  set S := statement.getD CStr.empty
  have hlen := rewriteBody_length hb hm P S slot.toNat identity asBinary
  set rb := rewriteBody mem b P S slot.toNat identity asBinary with hrb
  have hol : (ch 'B' :: wr32Be (4 + rb.length) ++ rb).length - 1 = rewriteLen b P S slot.toNat identity := by
    rw [← hlen]; simp only [List.length_append, List.length_cons, wr32Be_length]; omega
  have hrd : rd32Be (ch 'B' :: wr32Be (4 + rb.length) ++ rb) 1 = (4 + rb.length) % 2 ^ 32 :=
    rd32Be_at [ch 'B'] (4 + rb.length) rb
  constructor
  · rintro ⟨-, hfield, d', q, b', x, -, -, -, -, -, -, hrw⟩
    rw [hrd, hol, hlen] at hfield
    have h32 : rewriteLen b P S slot.toNat identity < 2 ^ 32 := by
      rw [← hfield]; exact Nat.mod_lt _ (by decide)
    have hi := hrw.identity.1
    have hi' := (b'.param slot.toNat).length.toInt_lt
    exact ⟨by omega, h32⟩
  · rintro ⟨hid, h32⟩
    refine ⟨rfl, by rw [hrd, hol, hlen, Nat.mod_eq_of_lt h32], ?_⟩
    obtain ⟨x, hx, hlim, hxp, hxs, hxn, hxf, hxr, hxi⟩ := rewriteBody_enc hb hm P S slot.toNat hid asBinary
    rw [← hrb] at hx
    have hshort : rb.length + 4 < 2 ^ 32 := by rw [Nat.add_comm, hlen]; exact h32
    have henc : ch 'B' :: wr32Be (4 + rb.length) ++ rb = Frame.enc ⟨ch 'B', rb, hshort⟩ := by
      rw [Nat.add_comm 4]; rfl
    rw [henc] at ha hmax ⊢
    obtain ⟨d', q, h1, h2, h3, h4, h5, h6⟩ := feeds_bind (reachable_ok hd).1 hr hs hres hlim rfl hx
      (by rw [Frame.enc_length] at hmax; exact hmax) ha
    refine ⟨d', q, x.msg 5, x, h1, h2, h3, h4, h5, x.msg_reports h6, ?_⟩
    have hfmt : ∀ i < b.nParams, formatFor x.formats.length x.formats i = rewriteFormat b slot.toNat asBinary i := by
      intro i hi
      rw [hxf, List.length_map, List.length_range]
      exact formatFor_map _ hi
    refine ⟨?_, ?_, hxn, ?_, ?_, ?_, ?_⟩
    · show copyCstr maxPortalName x.portal = P
      rw [hxp]; exact CStr.take_of_length_le hp
    · show copyCstr maxStmtName x.statement = S
      rw [hxs]; exact CStr.take_of_length_le hst
    · obtain ⟨f, hf, -, hspec⟩ := hxi slot.toNat hslot
      unfold RewrittenField at hspec
      rw [if_pos rfl] at hspec
      have hfm := hfmt slot.toNat hslot
      rw [rewriteFormat, if_pos rfl] at hfm
      rw [x.msg_bytes h6 hf, x.msg_param 5 hf]
      exact ⟨hspec.1, hspec.2, hfm⟩
    · intro i hi hne
      obtain ⟨f, hf, -, hspec⟩ := hxi i hi
      unfold RewrittenField at hspec
      rw [if_neg hne] at hspec
      have hfm := hfmt i hi
      rw [rewriteFormat, if_neg hne] at hfm
      rw [x.msg_bytes h6 hf, x.msg_param 5 hf]
      exact ⟨hspec.1, hspec.2, hfm⟩
    · show x.results.length = b.nResultFormats
      rw [hxr, List.length_map, List.length_range]
    · intro i hi
      show x.results.getD i 0 = b.resultFormat i
      rw [hxr, List.getD_eq_getElem?_getD, List.getElem?_map, List.getElem?_range hi]
      rfl

/-- The buffer in which `sevenBind` was received. -/
def sevenMem : Bytes := [66, 0, 0, 0, 19] ++ sevenBind.enc

theorem sevenMem_bind : slice sevenMem 5 sevenBind.enc.length = sevenBind.enc := by decide

/-- An identity of `n` characters. -/
def longIdentity (n : ℕ) : CStr := ⟨List.replicate n 114, by simp⟩

/-- The size of `sevenBind` with such an identity. -/
theorem seven_rewriteLen (n : ℕ) : rewriteLen (sevenBind.msg 5) CStr.empty CStr.empty 0 (longIdentity n) = 20 + n := by
  have hl : (longIdentity n).length = n := List.length_replicate
  have hp : (sevenBind.msg 5).nParams = 1 := rfl
  have hr : (sevenBind.msg 5).nResultFormats = 1 := rfl
  have he : CStr.empty.length = 0 := rfl
  simp only [rewriteLen, hp, hr, hl, he, List.range_one, List.map_cons, List.map_nil, List.sum_cons, List.sum_nil,
    if_true]
  omega

/-- The rewrite of `sevenBind` with an identity of `n` characters. -/
theorem seven_rewrite (n : ℕ) : ∃ out, bindRewriteIdentityZerocopy sevenMem (sevenBind.msg 5) none none 0 (longIdentity n)
    false (21 + n) = some out ∧ out.length = 21 + n := by
  have hlen := rewriteBody_length (bindOf_enc (x := sevenBind) (by decide) 5) sevenMem_bind CStr.empty CStr.empty 0
    (longIdentity n) false
  rw [seven_rewriteLen] at hlen
  refine ⟨_, bindRewriteIdentityZerocopy_eq_some.2 ⟨by decide, ?_, rfl⟩, ?_⟩
  · show 5 + (rewriteBody sevenMem (sevenBind.msg 5) CStr.empty CStr.empty 0 (longIdentity n) false).length ≤ 21 + n
    omega
  · show (ch 'B' :: wr32Be (4 + (rewriteBody sevenMem (sevenBind.msg 5) CStr.empty CStr.empty 0 (longIdentity n)
      false).length) ++ rewriteBody sevenMem (sevenBind.msg 5) CStr.empty CStr.empty 0 (longIdentity n) false).length = _
    simp only [List.length_append, List.length_cons, wr32Be_length]
    omega

theorem rewrite_sound_router : ∃ out, bindRewriteIdentityZerocopy sevenMem (sevenBind.msg 5) none none 0 (longIdentity 3)
    false 24 = some out ∧
    RewriteSound sevenMem (sevenBind.msg 5) CStr.empty CStr.empty 0 (longIdentity 3) false out (startedServer 16 64) := by
  obtain ⟨out, h1, h2⟩ := seven_rewrite 3
  obtain ⟨d₁, ha⟩ := startedServer_accepts 16 64 out
  have hmax : out.length - 1 ≤ (startedServer 16 64).maxMessageSize := by rw [h2]; decide
  have hlen := seven_rewriteLen 3
  refine ⟨out, h1, (rewrite_sound_iff (bindOf_enc (x := sevenBind) (by decide) 5) sevenMem_bind (by decide) (by decide) h1
    (startedServer_reachable (by decide) (by decide)) rfl rfl rfl ha hmax).2 ⟨by decide, ?_⟩⟩
  show rewriteLen (sevenBind.msg 5) CStr.empty CStr.empty 0 (longIdentity 3) < 2 ^ 32
  rw [hlen]; decide

/-- An identity of `2 ^ 31` characters: its length is decoded as that of a NULL. -/
theorem rewrite_unsound_long : ∃ out, bindRewriteIdentityZerocopy sevenMem (sevenBind.msg 5) none none 0
    (longIdentity (2 ^ 31)) false (21 + 2 ^ 31) = some out ∧
    out.length - 1 ≤ (startedServer 16 (2 ^ 32)).maxMessageSize ∧
    ¬RewriteSound sevenMem (sevenBind.msg 5) CStr.empty CStr.empty 0 (longIdentity (2 ^ 31)) false out
      (startedServer 16 (2 ^ 32)) := by
  obtain ⟨out, h1, h2⟩ := seven_rewrite (2 ^ 31)
  refine ⟨out, h1, ?_, ?_⟩
  · show out.length - 1 ≤ 2 ^ 32
    omega
  · rintro ⟨-, -, d', q, b', x, -, -, -, -, -, -, hrw⟩
    have hi := hrw.identity.1
    have hi' := (b'.param 0).length.toInt_lt
    have hl : (longIdentity (2 ^ 31)).length = 2 ^ 31 := List.length_replicate
    rw [hl] at hi
    omega

end Pqwire

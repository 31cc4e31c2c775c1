import Pqwire.Spec.BindArgs
import Pqwire.Proof.Agree
import Pqwire.Proof.Wire

/-!
# Sending and decoding a Bind

* `BindArgs.payload_enc`: what is sent is the body of the grammar with these fields.
* `BindArgs.shown`: decoding it shows the arguments.
* `BindBody.args_payload`: sending the fields of a decoded event gives the body back.
* `bind_inverse`: the two together, for every call that returns 0.
-/

namespace Pqwire

open ByteMem

namespace BindArgs

variable {a : BindArgs}

/-- The payload of the call. -/
def payload (a : BindArgs) : Bytes :=
  bindPayload (a.portal.getD CStr.empty) (a.statement.getD CStr.empty) a.formats a.nFormats.toNat a.lengths a.values
    a.nParams.toNat a.resultFormats a.nResultFormats.toNat

theorem formatFor_eq (codes : List Int16) (i : ℕ) : formatFor codes.length codes i = protocolFormat codes i := by
  unfold formatFor
  match codes with
  | [] => rfl
  | [code] => rfl
  | code :: code' :: rest =>
    rw [if_neg (by simp), if_neg (by simp)]
    split
    · rfl
    · rename_i hi
      change 0 = (code :: code' :: rest).getD i 0
      rw [List.getD_eq_getElem?_getD, List.getElem?_eq_none (by omega)]
      rfl

/-- A parameter as a value of the grammar. -/
theorem wireParam_field (h : a.InLimits) {i : ℕ} (hi : i < a.nParams.toNat) :
    ∃ f : Field, wireParam (a.length i) (a.pointee i) = f.enc ∧ f.len = a.length i ∧ f.data = a.value i := by
  have hok : (a.value i).length = (a.length i).toInt.toNat := by
    unfold value
    rw [List.length_take]
    rcases lt_or_ge 0 (a.length i).toInt with hpos | hneg
    · obtain ⟨v, hv, hl⟩ := h.readable i hi hpos
      rw [hv, Option.getD_some]
      omega
    · omega
  refine ⟨⟨a.length i, a.value i, hok⟩, ?_, rfl, rfl⟩
  unfold wireParam Field.enc
  dsimp only
  congr 1
  split
  · rename_i hpos
    obtain ⟨v, hv, -⟩ := h.readable i hi hpos
    simp only [value, hv, Option.getD_some]
  · rename_i hneg
    exact (List.eq_nil_of_length_eq_zero (by omega)).symm

/-- **What is sent is a body of the grammar**, with the fields of the call. -/
theorem payload_enc (h : a.InLimits) : ∃ x : BindBody, a.payload = x.enc ∧ x.InLimits ∧
    x.portal = a.portal.getD CStr.empty ∧ x.statement = a.statement.getD CStr.empty ∧
    x.formats = codes a.formats a.nFormats ∧ x.params.length = a.nParams.toNat ∧
    (∀ i < a.nParams.toNat, ∃ f, x.params[i]? = some f ∧ f.len = a.length i ∧ f.data = a.value i) ∧
    x.results = codes a.resultFormats a.nResultFormats := by
  have hfield : ∀ i, ∃ f : Field, i < a.nParams.toNat →
      wireParam (a.length i) (a.pointee i) = f.enc ∧ f.len = a.length i ∧ f.data = a.value i := by
    intro i
    by_cases hi : i < a.nParams.toNat
    · obtain ⟨f, hf⟩ := wireParam_field h hi
      exact ⟨f, fun _ => hf⟩
    · exact ⟨.byte 0, fun h => absurd h hi⟩
  choose g hg using hfield
  have hlen : ∀ (array : Option (List Int16)) (n : UInt16), (codes array n).length = n.toNat := by
    intro array n
    rw [codes, List.length_map, List.length_range]
  let x : BindBody :=
    { portal := a.portal.getD CStr.empty
      statement := a.statement.getD CStr.empty
      formats := codes a.formats a.nFormats
      params := (List.range a.nParams.toNat).map g
      results := codes a.resultFormats a.nResultFormats
      formats_lt := by rw [hlen]; exact a.nFormats.toNat_lt
      params_lt := by rw [List.length_map, List.length_range]; exact a.nParams.toNat_lt
      results_lt := by rw [hlen]; exact a.nResultFormats.toNat_lt }
  have hn : x.params.length = a.nParams.toNat := by rw [List.length_map, List.length_range]
  refine ⟨x, ?_, ⟨?_, ?_, ?_⟩, rfl, rfl, rfl, hn, ?_, rfl⟩
  · have hcodes : ∀ (array : Option (List Int16)) (n : UInt16),
        Ctx.codeBytes array n.toNat = (codes array n).flatMap encCode := fun array n =>
      codeBytes_eq array n.toNat _ fun _ _ => rfl
    have hparams : ((List.range a.nParams.toNat).flatMap fun j => wireParam (a.length j) (a.pointee j)) =
        x.params.flatMap Field.enc := by
      rw [List.flatMap_map]
      exact List.flatMap_congr fun i hi => (hg i (List.mem_range.1 hi)).1
    unfold payload bindPayload BindBody.enc encCodes encFields
    change _ ++ ((List.range a.nParams.toNat).flatMap fun j => wireParam (a.length j) (a.pointee j)) ++ _ ++ _ = _
    rw [hcodes, hcodes, hparams]
    simp only [hn, x, hlen, List.append_assoc]
  · exact (hlen _ _).trans_le h.formats
  · exact hn.trans_le h.params
  · exact (hlen _ _).trans_le h.results
  · intro i hi
    refine ⟨g i, ?_, (hg i hi).2⟩
    rw [List.getElem?_map, List.getElem?_range hi, Option.map_some]

/-- **Decoding what was sent shows the arguments.** -/
theorem shown (h : a.InLimits) (d : Ctx) {base : ℕ} (hm : slice d.inputBuf base a.payload.length = a.payload) :
    ∃ b, parseBindMsg d base a.payload = d.enqueueEvent (.bind b) a.payload ∧ a.Shown d.inputBuf b := by
  obtain ⟨x, hx, hlim, hportal, hstmt, hfmt, hn, hparams, hres⟩ := payload_enc h
  rw [hx] at hm ⊢
  refine ⟨x.msg base, by rw [parseBindMsg, bindOf_enc hlim], ?_⟩
  have hrep := x.msg_reports hm
  have hcodes : ∀ (array : Option (List Int16)) (n : UInt16), (codes array n).length = n.toNat := by
    intro array n
    rw [codes, List.length_map, List.length_range]
  refine ⟨?_, ?_, ?_, hfmt, hn, ?_, ?_, hres⟩
  · exact (copyCstr_self (by rw [hportal]; exact Nat.lt_succ_of_le h.portal)).trans hportal
  · exact (copyCstr_self (by rw [hstmt]; exact Nat.lt_succ_of_le h.statement)).trans hstmt
  · rw [hrep.nFormats, hfmt, hcodes]
  · intro i hi
    obtain ⟨f, hf, hlen, hdata⟩ := hparams i hi
    obtain ⟨h1, h2, h3⟩ := hrep.params i f hf
    refine ⟨h1.trans hlen, by rw [h2, hlen], h3.trans hdata, ?_⟩
    rw [x.msg_param base hf, ← hfmt]
    exact formatFor_eq x.formats i
  · rw [hrep.nResultFormats, hres, hcodes]

end BindArgs

namespace BindBody

variable {x : BindBody} {mem : Bytes} {base : ℕ}

/-- A parameter of a decoded event as an argument. -/
theorem args_param (hm : slice mem base x.enc.length = x.enc) {i : ℕ} {f : Field} (h : x.params[i]? = some f) :
    ((x.msg base).args mem).length i = f.len ∧ ((x.msg base).args mem).value i = f.data ∧
      (0 < f.len.toInt → ∃ v, ((x.msg base).args mem).pointee i = some v ∧ f.len.toInt.toNat ≤ v.length) := by
  have hi : i < (x.msg base).nParams := (List.getElem?_eq_some_iff.1 h).1
  have hparam := x.msg_param base h
  have hbytes := x.msg_bytes hm h
  set b := x.msg base
  have hlen : (b.args mem).length i = f.len := by
    change ((List.range b.nParams).map fun i => (b.param i).length).getD i 0 = _
    rw [List.getD_eq_getElem?_getD, List.getElem?_map, List.getElem?_range hi, Option.map_some, Option.getD_some, hparam]
  have hptr : (b.args mem).pointee i = (b.param i).data.map mem.drop := by
    change ((List.range b.nParams).map fun i => (b.param i).data.map mem.drop).getD i none = _
    rw [List.getD_eq_getElem?_getD, List.getElem?_map, List.getElem?_range hi, Option.map_some, Option.getD_some]
  unfold BindParamView.bytes at hbytes
  rw [hparam] at hbytes hptr
  refine ⟨hlen, ?_, ?_⟩
  · unfold BindArgs.value
    rw [hptr, hlen]
    dsimp only at hbytes ⊢
    split at hbytes
    · rename_i hnone
      rw [hnone, ← hbytes]
      simp
    · rename_i p hp
      rw [hp, ← hbytes]
      rfl
  · intro hpos
    dsimp only at hbytes hptr
    rw [if_neg (by omega)] at hbytes hptr
    refine ⟨_, hptr, ?_⟩
    -- the bytes shown are as many as the length says
    have hl := congrArg List.length hbytes
    dsimp only at hl
    rw [f.ok, slice, List.length_take] at hl
    dsimp only
    omega

/-- **The fields of a decoded event give the body back.** -/
theorem args_payload (hx : x.InLimits) (hp : x.portal.length ≤ 63) (hs : x.statement.length ≤ 63)
    (hm : slice mem base x.enc.length = x.enc) :
    ((x.msg base).args mem).InLimits ∧ ((x.msg base).args mem).payload = x.enc := by
  have hnat : ∀ {n : ℕ}, n < 2 ^ 16 → (UInt16.ofNat n).toNat = n := by
    intro n hn
    rw [UInt16.toNat_ofNat', Nat.mod_eq_of_lt hn]
  have hnf : ((x.msg base).args mem).nFormats.toNat = x.formats.length := hnat x.formats_lt
  have hnp : ((x.msg base).args mem).nParams.toNat = x.params.length := hnat x.params_lt
  have hnr : ((x.msg base).args mem).nResultFormats.toNat = x.results.length := hnat x.results_lt
  have hportal : copyCstr maxPortalName x.portal = x.portal := copyCstr_self (Nat.lt_succ_of_le hp)
  have hstmt : copyCstr maxStmtName x.statement = x.statement := copyCstr_self (Nat.lt_succ_of_le hs)
  have hlim : ((x.msg base).args mem).InLimits := by
    refine ⟨?_, ?_, hnf.trans_le hx.1, hnp.trans_le hx.2.1, hnr.trans_le hx.2.2, ?_⟩
    · exact (congrArg CStr.length hportal).trans_le hp
    · exact (congrArg CStr.length hstmt).trans_le hs
    · intro i hi hpos
      rw [hnp] at hi
      obtain ⟨hlen, -, hread⟩ := args_param hm (List.getElem?_eq_getElem hi)
      rw [hlen] at hpos ⊢
      exact hread hpos
  refine ⟨hlim, ?_⟩
  obtain ⟨y, hy, -, hyp, hys, hyf, hyn, hypar, hyr⟩ := BindArgs.payload_enc hlim
  have hcodes : ∀ (codes : List Int16) (n : UInt16), n.toNat = codes.length → BindArgs.codes (some codes) n = codes := by
    intro codes n hn
    unfold BindArgs.codes
    rw [hn]
    refine List.ext_getElem? ?_
    intro i
    rw [List.getElem?_map]
    by_cases hi : i < codes.length
    · rw [List.getElem?_range hi, Option.map_some, Option.elim_some, List.getD_eq_getElem?_getD,
        List.getElem?_eq_getElem hi, Option.getD_some]
    · rw [List.getElem?_eq_none (by rw [List.length_range]; omega), List.getElem?_eq_none (by omega), Option.map_none]
  have hparams : y.params = x.params := by
    refine List.ext_getElem? ?_
    intro i
    by_cases hi : i < x.params.length
    · obtain ⟨f, hf, hlen, hdata⟩ := hypar i (hnp ▸ hi)
      obtain ⟨hlen', hdata', -⟩ := args_param hm (List.getElem?_eq_getElem hi)
      rw [hf, List.getElem?_eq_getElem hi]
      exact congrArg some (Field.ext (hlen.trans hlen') (hdata.trans hdata'))
    · rw [List.getElem?_eq_none (by omega), List.getElem?_eq_none (by omega)]
  rw [hy]
  unfold enc
  rw [hparams, hyf, hyr, hyp, hys]
  change (copyCstr maxPortalName x.portal).toBytes ++ (copyCstr maxStmtName x.statement).toBytes ++
    encCodes (BindArgs.codes (some x.formats) _) ++ _ ++ encCodes (BindArgs.codes (some x.results) _) = _
  rw [hportal, hstmt, hcodes _ _ hnf, hcodes _ _ hnr]

end BindBody

/-! ## Every call that returns 0 -/

/-- A call on `c` that has left `c₁` has emitted `body`: `emit_msg` got exactly this payload, in a
context `c₀` with the output of `c`. Then the whole message is in the output, unless an allocation
has failed. -/
def EmitsBind (c c₁ : Ctx) (body : Bytes) : Prop :=
  (∃ c₀, NoFailure c c₀ ∧ c₀.output = c.output ∧ c₁ = (c₀.emitMsg (ch 'B') body).1) ∧
    (c₁.output = c.output ++ (Ctx.msgHeader (ch 'B') body.length ++ body) ↔ NoFailure c c₁)

theorem BindArgs.send_emits {a : BindArgs} {c c₁ : Ctx} (h : a.send c = (c₁, 0)) : EmitsBind c c₁ a.payload := by
  obtain ⟨c₀, h1, h2, h3⟩ := sendBind_payload h
  refine ⟨⟨c₀, h1, h2, h3⟩, ?_⟩
  have hne : a.payload ≠ [] := by
    intro hnil
    have hl := congrArg List.length hnil
    simp only [payload, bindPayload, List.length_append, CStr.toBytes_length, List.length_nil] at hl
    omega
  rw [h3, ← h2]
  rcases emitMsg_cases h1 (ch 'B') hne with ⟨hno, ho⟩ | ⟨hno, ho⟩
  · exact iff_of_true ho hno
  · refine iff_of_false ?_ hno
    intro he
    change (c₀.emitMsg (ch 'B') a.payload).1.output = _ at he
    rw [he, List.length_append, List.length_append] at ho
    have : (Ctx.msgHeader (ch 'B') a.payload.length).length = 5 := rfl
    omega

/-- **Sending and decoding a Bind are mutually inverse within the limits.** What a call that
returns 0 emits is decoded by any context `d` to an event that shows the arguments. And where
`d` has decoded a well-formed body, a call with the fields of the event that returns 0 emits
this body. -/
theorem bind_inverse (c : Ctx) :
    (∀ (a : BindArgs) (c₁ : Ctx), a.InLimits → a.send c = (c₁, 0) →
      EmitsBind c c₁ a.payload ∧ ∀ (d : Ctx) (base : ℕ), slice d.inputBuf base a.payload.length = a.payload →
        ∃ b, parseBindMsg d base a.payload = d.enqueueEvent (.bind b) a.payload ∧ a.Shown d.inputBuf b) ∧
      ∀ (x : BindBody) (d : Ctx) (base : ℕ), x.InLimits → x.portal.length ≤ 63 → x.statement.length ≤ 63 →
        slice d.inputBuf base x.enc.length = x.enc →
        ∃ b, parseBindMsg d base x.enc = d.enqueueEvent (.bind b) x.enc ∧
          ∀ c₁, (b.args d.inputBuf).send c = (c₁, 0) → EmitsBind c c₁ x.enc := by
  constructor
  · intro a c₁ ha hsend
    exact ⟨BindArgs.send_emits hsend, fun d base hm => BindArgs.shown ha d hm⟩
  · intro x d base hx hp hs hm
    refine ⟨x.msg base, by rw [parseBindMsg, bindOf_enc hx], ?_⟩
    intro c₁ hsend
    rw [← (BindBody.args_payload hx hp hs hm).2]
    exact BindArgs.send_emits hsend

/-- Two parameters, one of them NULL, with one format code for both. -/
def pairArgs : BindArgs :=
  { portal := none
    statement := none
    formats := some [1]
    nFormats := 1
    lengths := some [2, -3]
    values := some [some [7, 8], none]
    nParams := 2
    resultFormats := some [0]
    nResultFormats := 1 }

theorem pairArgs_inLimits : pairArgs.InLimits := by
  refine ⟨by decide, by decide, by decide, by decide, by decide, ?_⟩
  intro i hi hpos
  match i, hi with
  | 0, _ => exact ⟨[7, 8], rfl, by decide⟩
  | 1, _ => exact absurd hpos (by decide)

/-- They are sent and decoded. -/
theorem bind_inverse_pair : ∃ c₁ b, pairArgs.send tinyClient = (c₁, 0) ∧ EmitsBind tinyClient c₁ pairArgs.payload ∧
    parseBindMsg (tinyClient.setInput pairArgs.payload 28 4096) 0 pairArgs.payload =
      (tinyClient.setInput pairArgs.payload 28 4096).enqueueEvent (.bind b) pairArgs.payload ∧
    pairArgs.Shown pairArgs.payload b := by
  have hsend : pairArgs.send tinyClient = ((pairArgs.send tinyClient).1, 0) := Prod.ext rfl (by decide)
  obtain ⟨hemits, hdec⟩ := (bind_inverse tinyClient).1 pairArgs _ pairArgs_inLimits hsend
  obtain ⟨b, hb, hshown⟩ := hdec (tinyClient.setInput pairArgs.payload 28 4096) 0 List.take_length
  exact ⟨_, b, hsend, hemits, hb, hshown⟩

end Pqwire

import Pqwire.Proof.Duplex
import Pqwire.Proof.Forward
import Pqwire.Proof.Link
import Pqwire.Spec.Proxy

/-!
# Nothing gets past the proxy

* `Legible.frame`: what the rewrite writes is one Bind frame, whatever lies where the views of the
  event point to.
* `pass_frame`: a call of the proxy that is not refused appends one frame, which honours the event.
* `Proxy.Linked`: what the backend has not handled yet is the encoding of the events passed last.
* `identity_enforced`: in every run, the backend reports the events passed, each Bind with what was
  forced on it, and nothing else.
-/

namespace Pqwire

open ByteMem

/-! ## What the rewrite writes -/

/-- The counts are within the limits and every parameter lies inside the memory. -/
structure Legible (mem : Bytes) (b : BindMsg) : Prop where
  nParams : b.nParams ≤ maxBindParams
  nResultFormats : b.nResultFormats ≤ maxBindParams
  params : ∀ i, ((b.param i).bytes mem).length = (b.param i).length.toInt.toNat

section

variable {mem : Bytes} {b : BindMsg} {identity : CStr}

/-- What is written for a parameter is a value, of whatever the memory holds now. -/
theorem Legible.field (h : Legible mem b) (slot : ℕ) (hid : identity.length < 2 ^ 31) (i : ℕ) :
    ∃ f : Field, (rewriteParam mem b slot identity i).flatten = f.enc ∧ RewrittenField mem b slot identity i f := by
  unfold rewriteParam RewrittenField
  split
  · have hlen := toI32_toInt hid
    refine ⟨⟨toI32 identity.length, identity.bytes, by rw [hlen]; rfl⟩, ?_, hlen, rfl⟩
    simp only [Field.enc, List.flatten_cons, List.flatten_nil, List.append_nil]
    rw [toUInt32_toI32 (by omega)]
  · dsimp only
    split
    · rename_i hneg
      have hnil : (b.param i).bytes mem = [] := by
        apply List.eq_nil_of_length_eq_zero
        rw [h.params i]
        omega
      have hneg' : (-1 : Int32).toInt < 0 ↔ (b.param i).length.toInt < 0 := ⟨fun _ => hneg, fun _ => by decide⟩
      exact ⟨.null, by decide, hneg', hnil.symm⟩
    · refine ⟨⟨(b.param i).length, (b.param i).bytes mem, h.params i⟩, ?_, Iff.rfl, rfl⟩
      simp only [Field.enc, List.flatten_cons, List.flatten_nil, List.append_nil]

theorem identity_le_rewriteBody (portal stmt : CStr) {slot : ℕ} (hslot : slot < b.nParams) (asBinary : Bool) :
    identity.length ≤ (rewriteBody mem b portal stmt slot identity asBinary).length := by
  have hmem : (rewriteParam mem b slot identity slot).flatten.Sublist (rewriteParams mem b slot identity) := by
    rw [rewriteParams_eq, List.flatMap_def]
    apply List.sublist_flatten_of_mem
    exact List.mem_map.2 ⟨slot, List.mem_range.2 hslot, rfl⟩
  have hle := hmem.length_le
  unfold rewriteParam at hle
  rw [if_pos rfl, List.flatten_cons, List.flatten_cons, List.flatten_nil, List.append_nil, List.length_append] at hle
  change _ + identity.length ≤ _ at hle
  unfold rewriteBody
  simp only [List.length_append]
  omega

/-- The body written, as the body of a Bind. -/
structure Forces (mem : Bytes) (b : BindMsg) (fo : Forced) (x : BindBody) : Prop where
  limits : x.InLimits
  portal : x.portal = fo.portal
  statement : x.statement = fo.statement
  nParams : x.params.length = b.nParams
  formats : x.formats = (List.range b.nParams).map (rewriteFormat b fo.slot.toNat fo.asBinary)
  results : x.results = (List.range b.nResultFormats).map b.resultFormat
  params : ∀ i < b.nParams, ∃ f, x.params[i]? = some f ∧ RewrittenField mem b fo.slot.toNat fo.identity i f

theorem Legible.forces (h : Legible mem b) (fo : Forced) (hid : fo.identity.length < 2 ^ 31) :
    ∃ x, rewriteBody mem b fo.portal fo.statement fo.slot.toNat fo.identity fo.asBinary = x.enc ∧ Forces mem b fo x := by
  have hn := h.nParams
  have hr := h.nResultFormats
  choose g henc hfield using h.field fo.slot.toNat hid
  have hmax : maxBindParams = 32 := rfl
  have hlen : ∀ {α : Type} (n : ℕ) (f : ℕ → α), ((List.range n).map f).length = n := by
    intro α n f
    rw [List.length_map, List.length_range]
  let x : BindBody :=
    ⟨fo.portal, fo.statement, (List.range b.nParams).map (rewriteFormat b fo.slot.toNat fo.asBinary),
      (List.range b.nParams).map g, (List.range b.nResultFormats).map b.resultFormat, by rw [hlen]; omega,
      by rw [hlen]; omega, by rw [hlen]; omega⟩
  refine ⟨x, ?_, ⟨?_, ?_, ?_⟩, rfl, rfl, hlen _ _, rfl, rfl, ?_⟩
  · have hps : rewriteParams mem b fo.slot.toNat fo.identity = ((List.range b.nParams).map g).flatMap Field.enc := by
      rw [rewriteParams_eq, List.flatMap_map]
      exact List.flatMap_congr fun i _ => henc i
    simp only [rewriteBody, x, BindBody.enc, encFields, hlen, hps]
  · exact (hlen _ _).trans_le hn
  · exact (hlen _ _).trans_le hn
  · exact (hlen _ _).trans_le hr
  · intro i hi
    exact ⟨g i, by simp only [x, List.getElem?_map, List.getElem?_range hi, Option.map_some], hfield i⟩

/-- **The rewrite writes one Bind frame.** -/
theorem Legible.frame (h : Legible mem b) {fo : Forced} {out : Bytes}
    (hout : bindRewriteIdentityZerocopy mem b (some fo.portal) (some fo.statement) fo.slot fo.identity fo.asBinary 8192 = some out) :
    fo.slot.toNat < b.nParams ∧
      ∃ (x : BindBody) (f : Frame), Forces mem b fo x ∧ out = f.enc ∧ f.type = ch 'B' ∧ f.body = x.enc ∧ f.len ≤ 8191 := by
  obtain ⟨hslot, hcap, rfl⟩ := bindRewriteIdentityZerocopy_eq_some.1 hout
  rw [Option.getD_some, Option.getD_some] at hcap
  have hid := @identity_le_rewriteBody mem b fo.identity fo.portal fo.statement _ hslot fo.asBinary
  obtain ⟨x, hx, hforces⟩ := h.forces fo (by omega)
  rw [hx] at hcap
  refine ⟨hslot, x, ⟨ch 'B', x.enc, by omega⟩, hforces, ?_, rfl, rfl, ?_⟩
  · rw [Option.getD_some, Option.getD_some, hx]
    show _ = ch 'B' :: wr32Be (x.enc.length + 4) ++ x.enc
    rw [Nat.add_comm 4]
  · show x.enc.length + 4 ≤ 8191
    omega

end

/-! ## What the backend reports -/

theorem read_blob (c : Ctx) (b : BindMsg) {i : ℕ} (hi : i < b.nParams) :
    (c.read (.bind b)).blob i = (b.param i).bytes c.inputBuf := by
  unfold View.blob BindParamView.bytes
  simp only [Ctx.read]
  rw [List.getD_eq_getElem?_getD, List.getElem?_map, List.getElem?_range hi, Option.map_some, Option.getD_some]
  cases (b.param i).data with
  | none => rfl
  | some p => rfl

/-- The frame of an event that is sent on: a backend reports the event. -/
structure Passes (p : Passed) (f : Frame) : Prop where
  short : f.len ≤ 8191
  reports : ∀ d : Ctx, d.role = .server → ∃ q : Queued, (d.receive f).log = d.log ++ [q] ∧ p.Honoured q

/-- The event with which a server reports such a body. -/
theorem Forces.enforced {mem : Bytes} {b : BindMsg} {fo : Forced} {x : BindBody} (h : Forces mem b fo x)
    (hslot : fo.slot.toNat < b.nParams) {v : View} (hv : ∀ i < b.nParams, v.blob i = (b.param i).bytes mem) {d : Ctx}
    (hd : slice d.inputBuf 5 x.enc.length = x.enc) : Enforced fo b v (x.msg 5) (d.read (.bind (x.msg 5))) := by
  have hblob : ∀ i < b.nParams, (d.read (.bind (x.msg 5))).blob i = ((x.msg 5).param i).bytes d.inputBuf := by
    intro i hi
    apply read_blob
    show i < x.params.length
    rw [h.nParams]
    exact hi
  have hformat : ∀ i < b.nParams, formatFor x.formats.length x.formats i = rewriteFormat b fo.slot.toNat fo.asBinary i := by
    intro i hi
    rw [h.formats, List.length_map, List.length_range]
    exact formatFor_map _ hi
  obtain ⟨f, hf, hfield⟩ := h.params fo.slot.toNat hslot
  unfold RewrittenField at hfield
  rw [if_pos rfl] at hfield
  refine ⟨?_, ?_, h.nParams, hslot, ?_, ?_, ?_, ?_, ?_, ?_⟩
  · show copyCstr maxPortalName x.portal = fo.portal
    rw [h.portal]
    exact copyCstr_self fo.portal_lt
  · show copyCstr maxStmtName x.statement = fo.statement
    rw [h.statement]
    exact copyCstr_self fo.statement_lt
  · rw [x.msg_param 5 hf]
    exact hfield.1
  · rw [hblob _ hslot, x.msg_bytes hd hf]
    exact hfield.2
  · rw [x.msg_param 5 hf]
    show formatFor x.formats.length x.formats fo.slot.toNat = _
    rw [hformat _ hslot]
    unfold rewriteFormat
    rw [if_pos rfl]
  · intro i hi hne
    obtain ⟨g, hg, hother⟩ := h.params i hi
    unfold RewrittenField at hother
    rw [if_neg hne] at hother
    rw [hblob i hi, x.msg_bytes hd hg, x.msg_param 5 hg]
    refine ⟨hother.1, hother.2.trans (hv i hi).symm, ?_⟩
    show formatFor x.formats.length x.formats i = _
    rw [hformat i hi]
    unfold rewriteFormat
    rw [if_neg hne]
  · show x.results.length = b.nResultFormats
    rw [h.results, List.length_map, List.length_range]
  · intro i hi
    show x.results.getD i 0 = b.resultFormat i
    rw [h.results, List.getD_eq_getElem?_getD, List.getElem?_map, List.getElem?_range hi]
    rfl

/-- A server logs one event for a Bind within the limits. -/
theorem receive_bind {d : Ctx} (hr : d.role = .server) {f : Frame} {x : BindBody} (hx : x.InLimits) (ht : f.type = ch 'B')
    (hf : f.body = x.enc) :
    ∃ e : Ctx, slice e.inputBuf 5 x.enc.length = x.enc ∧
      (d.receive f).log = d.log ++ [⟨.bind (x.msg 5), x.enc, e.read (.bind (x.msg 5))⟩] := by
  refine ⟨d.load f.enc, ?_, ?_⟩
  · show slice (f.type :: wr32Be f.len ++ f.body) 5 x.enc.length = x.enc
    rw [hf]
    have hmid := slice_append_mid (f.type :: wr32Be f.len) x.enc []
    rw [List.append_nil, List.length_cons, wr32Be_length] at hmid
    exact hmid
  · show (handleMessage (d.load f.enc) f.type 5 f.body).log = _
    rw [ht, hf]
    show (handleMessage (d.load f.enc) FrontType.bind.byte 5 x.enc).log = _
    rw [handleMessage_front (show (d.load f.enc).role = .server from hr), handleFrontend, parseBindMsg, bindOf_enc hx]
    rfl

/-! ## One event -/

theorem pass_other {ev : Event} (h : ∀ b, ev ≠ .bind b) (mem : Bytes) (v : View) (fo : Forced) :
    ev.pass mem v fo = ev.resend v := by
  cases ev with
  | bind b => exact absurd rfl (h b)
  | _ => rfl

theorem honoured_other {p : Passed} {q : Queued} (h : ∀ b, p.event ≠ .bind b) (hs : p.event.Same q.ev) (hv : q.seen = p.view) :
    p.Honoured q := by
  obtain ⟨ev, v, fo⟩ := p
  cases ev with
  | bind b => exact absurd rfl (h b)
  | _ => exact ⟨hs, hv⟩

/-- The parameters of a Bind that has been dequeued lie inside the input buffer. -/
theorem delivered_legible {c c' : Ctx} {q : Queued} {b : BindMsg} (hc : Reachable c) (hself : Alike c c)
    (hn : c.nextEvent = some (q, c')) (hq : q.ev = .bind b) : Legible c'.inputBuf b := by
  obtain ⟨hl, -⟩ := nextEvent_cases hself.okc hn
  have hmem : q ∈ c.events.toList := by
    rw [hl]
    exact List.mem_cons_self ..
  have hsized := (reachable_sized hc).events q hmem
  have hshows := hself.shows q (hself.okc.queue.subset hmem)
  rw [hq] at hsized hshows
  obtain ⟨hparams, hresults, hnull⟩ := hsized
  obtain ⟨-, hinside⟩ := hshows
  have hbuf : c'.inputBuf = c.inputBuf := by rw [(nextEvent_frame hn).1]
  refine ⟨hparams, hresults, ?_⟩
  intro i
  rw [hbuf]
  unfold BindParamView.bytes
  cases hp : (b.param i).data with
  | none => exact (hnull i hp).symm
  | some p => exact slice_length (hinside i p hp)

/-- **One event.** The call of the proxy appends a frame that honours the event, or is refused and
changes nothing. -/
theorem pass_frame {c c' : Ctx} {q : Queued} {fo : Forced} {m : Send} (hc : Reachable c) (hself : Alike c c)
    (hn : c.nextEvent = some (q, c')) (hm : q.ev.pass c'.inputBuf (c'.read q.ev) fo = some m) {back : Ctx}
    (ha : back.allocs = []) :
    (∃ back' f, m.run back = (back', 0) ∧ back'.output = back.output ++ f.enc ∧ back'.allocs = [] ∧
        Passes ⟨q.ev, c'.read q.ev, fo⟩ f) ∨ m.run back = (back, -1) := by
  by_cases hb : ∃ b, q.ev = .bind b
  · obtain ⟨b, hb⟩ := hb
    have hread := delivered_legible hc hself hn hb
    rw [hb] at hm ⊢
    cases hm
    show (∃ back' f, back.sendBindRewriteIdentity c'.inputBuf b (some fo.portal) (some fo.statement) fo.slot fo.identity
      fo.asBinary = (back', 0) ∧ _) ∨ back.sendBindRewriteIdentity c'.inputBuf b (some fo.portal) (some fo.statement) fo.slot
        fo.identity fo.asBinary = (back, -1)
    unfold Ctx.sendBindRewriteIdentity
    cases hout : bindRewriteIdentityZerocopy c'.inputBuf b (some fo.portal) (some fo.statement) fo.slot fo.identity fo.asBinary
      8192 with
    | none => exact Or.inr rfl
    | some out =>
      obtain ⟨hslot, x, f, hforces, rfl, htype, hbody, hlen⟩ := hread.frame hout
      obtain ⟨ho, hal⟩ := appendOutput_all ha f.enc
      refine Or.inl ⟨_, f, rfl, ho, hal, hlen, ?_⟩
      intro d hr
      obtain ⟨e, he, hlog⟩ := receive_bind hr hforces.limits htype hbody
      refine ⟨_, hlog, x.msg 5, rfl, ?_⟩
      apply hforces.enforced hslot _ he
      intro i hi
      exact read_blob c' b hi
  · have hne : ∀ b, q.ev ≠ .bind b := fun b h => hb ⟨b, h⟩
    rw [pass_other hne] at hm
    obtain ⟨f, hf⟩ := @resend_frame (q.ev, c'.read q.ev) ⟨c, q, c', hc, hn, rfl⟩ m hm
    obtain ⟨back', hrun, ho, hal⟩ := hf.sends back ha
    refine Or.inl ⟨back', f, hrun, ho, hal, hf.short.trans (by decide), ?_⟩
    intro d hr
    obtain ⟨q', hlog, hsame, hseen⟩ := hf.reports (d.load f.enc) hr
    exact ⟨q', hlog, honoured_other hne hsame hseen⟩

/-! ## Runs -/

/-- What a backend reports for the frames. -/
theorem receiveAll_honours {ps : List Passed} {fs : List Frame} (h : List.Forall₂ Passes ps fs) {d : Ctx}
    (hr : d.role = .server) :
    ∃ l : List Queued, (d.receiveAll fs).log = d.log ++ l ∧ List.Forall₂ Passed.Honoured ps l := by
  induction h generalizing d with
  | nil => exact ⟨[], (List.append_nil _).symm, .nil⟩
  | @cons p f ps fs hpf _ ih =>
    obtain ⟨q, hlog, hhon⟩ := hpf.reports d hr
    have hr' : (d.receive f).role = .server := (handleMessage_handled (d.load f.enc) f.type 5 f.body).role.trans hr
    obtain ⟨l, hlog', hall⟩ := ih hr'
    refine ⟨q :: l, ?_, .cons hhon hall⟩
    show ((d.receive f).receiveAll fs).log = _
    rw [hlog', hlog, List.append_assoc]
    rfl

theorem passes_short {ps : List Passed} {fs : List Frame} (h : List.Forall₂ Passes ps fs) : ∀ f ∈ fs, f.len ≤ 8191 := by
  induction h with
  | nil => exact List.forall_mem_nil _
  | cons hpf _ ih => exact List.forall_mem_cons.2 ⟨hpf.short, ih⟩

namespace Proxy

/-- What has been sent on is what the backend has logged and what is on its way to it. -/
structure Stream (d : Ctx) (p : Proxy) (done rest : List Passed) (l : List Queued) (G : List Frame) : Prop where
  passed : p.passed = done ++ rest
  log : p.backend.log = d.log ++ l
  honoured : List.Forall₂ Passed.Honoured done l
  passes : List.Forall₂ Passes rest G
  bytes : p.backend.resid ++ p.back.output = Frame.encAll G

/-- The invariant of a run. -/
structure Linked (d : Ctx) (p : Proxy) : Prop where
  front : Reachable p.front
  self : Alike p.front p.front
  back : p.back.allocs = []
  ok : p.backend.Ok
  waits : p.backend.Waits
  role : p.backend.role = .server
  typed : p.backend.awaitsStartup = false
  allocs : p.backend.allocs = []
  max : 8191 ≤ p.backend.maxMessageSize
  stream : ∃ done rest l G, Stream d p done rest l G

variable {d : Ctx} {p : Proxy}

/-- A step that leaves the output to the backend and the backend alone. -/
theorem Linked.keeps (h : Linked d p) {front back : Ctx} (hfront : Reachable front) (hself : Alike front front)
    (hback : back.allocs = []) (hout : back.output = p.back.output) : Linked d { p with front := front, back := back } := by
  obtain ⟨done, rest, l, G, hs⟩ := h.stream
  refine ⟨hfront, hself, hback, h.ok, h.waits, h.role, h.typed, h.allocs, h.max, done, rest, l, G, hs.passed, hs.log,
    hs.honoured, hs.passes, ?_⟩
  show p.backend.resid ++ back.output = _
  rw [hout]
  exact hs.bytes

/-- **An event is sent on**: its frame goes behind those that are on their way. -/
theorem Linked.pass (h : Linked d p) {front back : Ctx} {x : Passed} {f : Frame} (hfront : Reachable front)
    (hself : Alike front front) (hback : back.allocs = []) (hout : back.output = p.back.output ++ f.enc) (hf : Passes x f) :
    Linked d { p with front := front, back := back, passed := p.passed ++ [x] } := by
  obtain ⟨done, rest, l, G, hs⟩ := h.stream
  refine ⟨hfront, hself, hback, h.ok, h.waits, h.role, h.typed, h.allocs, h.max, done, rest ++ [x], l, G ++ [f], ?_, hs.log,
    hs.honoured, List.rel_append hs.passes (.cons hf .nil), ?_⟩
  · show p.passed ++ [x] = _
    rw [hs.passed, List.append_assoc]
  · show p.backend.resid ++ back.output = _
    rw [hout, ← List.append_assoc, hs.bytes, Frame.encAll_append]
    congr 1
    exact (List.append_nil _).symm

/-- **Bytes are carried to the backend**: it handles the frames that they complete. -/
theorem Linked.carry (h : Linked d p) (maxLen : ℕ) :
    ∃ backend, Feeds p.backend (p.back.getOutput maxLen).1 backend ∧
      Linked d { p with back := (p.back.getOutput maxLen).2, backend := backend } := by
  obtain ⟨done, rest, l, G, hs⟩ := h.stream
  have hfits : ∀ g ∈ G, g.Fits p.backend := by
    intro g hg
    exact (passes_short hs.passes g hg).trans h.max
  have hbytes := hs.bytes
  rw [← List.take_append_drop maxLen p.back.output] at hbytes
  obtain ⟨G₁, G₂, backend, rfl, hfeeds, hok, hw, hcore, hres⟩ := feeds_pending h.ok h.typed h.allocs hfits hbytes
  have h₁ := List.forall₂_take_append _ _ _ hs.passes
  have h₂ := List.forall₂_drop_append _ _ _ hs.passes
  obtain ⟨l', hlog', hhon⟩ := @receiveAll_honours _ _ h₁ p.backend.core h.role
  obtain ⟨htyped, hmax, hal⟩ := receiveAll_same p.backend.core G₁
  obtain ⟨-, hrole⟩ := receiveAll_count (c := p.backend.core) h.ok.ring G₁
  obtain ⟨hlog, hr, ha, haw⟩ := core_fields hcore
  have hm : backend.maxMessageSize = p.backend.maxMessageSize := by
    change backend.core.maxMessageSize = _
    rw [hcore]
    exact hmax
  refine ⟨backend, hfeeds, h.front, h.self, h.back, hok, hw, hr.trans (hrole.2.trans h.role), haw.trans (htyped.trans h.typed),
    ha.trans (hal.trans h.allocs), h.max.trans (le_of_eq hm.symm), done ++ rest.take G₁.length, rest.drop G₁.length, l ++ l', G₂,
    ?_, ?_, List.rel_append hs.honoured hhon, h₂, hres⟩
  · show p.passed = _
    rw [hs.passed, List.append_assoc, List.take_append_drop]
  · show backend.log = _
    rw [hlog, hlog']
    show p.backend.log ++ l' = _
    rw [hs.log, List.append_assoc]

theorem Linked.deliver (h : Linked d p) {q : Queued} {backend : Ctx} (hn : p.backend.nextEvent = some (q, backend)) :
    Linked d { p with backend := backend } := by
  obtain ⟨hok, hw⟩ := step_ok (.next hn) h.ok h.waits
  obtain ⟨hframe, -⟩ := nextEvent_frame hn
  obtain ⟨done, rest, l, G, hs⟩ := h.stream
  rw [hframe] at hok hw ⊢
  exact ⟨h.front, h.self, h.back, hok, hw, h.role, h.typed, h.allocs, h.max, done, rest, l, G, hs.passed, hs.log,
    hs.honoured, hs.passes, hs.bytes⟩

/-- A call on the frontend's context. -/
theorem self_next {c c' : Ctx} {q : Queued} (h : Alike c c) (hn : c.nextEvent = some (q, c')) : Alike c' c' := by
  rcases h.nextEvent with ⟨hnone, -⟩ | ⟨q₁, c₁, c₂, h₁, h₂, hsame, -⟩
  · rw [hn] at hnone
    cases hnone
  · rw [hn] at h₁ h₂
    cases h₁
    cases h₂
    exact hsame

theorem self_feed {c c' : Ctx} {fuel n : ℕ} {data : Bytes} (h : Alike c c) (hf : c.feedInput fuel data = some (c', n)) :
    Alike c' c' := by
  rcases h.feedInput fuel data with ⟨hnone, -⟩ | ⟨k, c₁, c₂, h₁, h₂, hsame⟩
  · rw [hf] at hnone
    cases hnone
  · rw [hf] at h₁ h₂
    cases h₁
    cases h₂
    exact hsame

theorem self_create {role : Role} {config : Config} {c : Ctx} (h : createWithConfig role config [] = some c) : Alike c c := by
  have hok := (create_ok h).1
  have ha := create_allocs h
  obtain ⟨-, hlog, -⟩ := create_empty h
  refine ⟨hok, hok, ha, ha, rfl, rfl, rfl, rfl, rfl, rfl, rfl, rfl, rfl, rfl, List.prefix_rfl, List.prefix_rfl, ?_⟩
  intro q hq
  rw [hlog] at hq
  cases hq

/-- **The invariant holds in every state.** -/
theorem Reach.linked (hd : Started d) (h : Reach d p) : Linked d p := by
  induction h with
  | create hfront hback =>
    obtain ⟨-, -, -, hout, -⟩ := create_empty hback
    obtain ⟨hok, hw⟩ := reachable_ok hd.reachable
    refine ⟨.create hfront, self_create hfront, create_allocs hback, hok, hw, hd.role, hd.typed, hd.allocs, hd.max, [], [], [],
      [], rfl, (List.append_nil _).symm, .nil, .nil, ?_⟩
    rw [hd.resid, hout]
    rfl
  | arrive _ _ hf ih => exact ih.keeps (ih.front.step (.feed hf)) (self_feed ih.self hf) ih.back rfl
  | pass fo _ hn hm hrun ih =>
    rcases pass_frame ih.front ih.self hn hm ih.back with ⟨back', f, hrun', hout, hal, hf⟩ | hrefused
    · rw [hrun] at hrun'
      cases hrun'
      exact ih.pass (ih.front.step (.next hn)) (self_next ih.self hn) hal hout hf
    · rw [hrun] at hrefused
      cases hrefused
  | refuse fo _ hn hm hrun hr ih =>
    rcases pass_frame ih.front ih.self hn hm ih.back with ⟨back', f, hrun', -⟩ | hrefused
    · rw [hrun] at hrun'
      cases hrun'
      exact absurd rfl hr
    · rw [hrun] at hrefused
      cases hrefused
      exact ih.keeps (ih.front.step (.next hn)) (self_next ih.self hn) ih.back rfl
  | ignore fo _ hn _ ih => exact ih.keeps (ih.front.step (.next hn)) (self_next ih.self hn) ih.back rfl
  | carry maxLen _ hf ih =>
    obtain ⟨backend', hf', hlinked⟩ := ih.carry maxLen
    obtain rfl := hf.unique hf'
    exact hlinked
  | deliver _ hn ih => exact ih.deliver hn
  | answer _ hf ih =>
    have hrec := feedInput_received ih.back hf
    exact ih.keeps ih.front ih.self (hrec.allocs.trans ih.back) hrec.output
  | nextAnswer _ hn ih =>
    obtain ⟨hframe, -⟩ := nextEvent_frame hn
    rw [hframe]
    exact ih.keeps ih.front ih.self ih.back rfl
  | reply m _ ih => exact ih.keeps (ih.front.step (.send _ m)) (ih.self.send m).2 ih.back rfl
  | drain maxLen _ ih =>
    exact ih.keeps (ih.front.step (.output _ maxLen)) (ih.self.setOutput rfl ih.self.callocs ih.self.callocs rfl) ih.back rfl

/-- A message that is complete in the backend's input has been handled. -/
theorem Linked.drained (h : Linked d p) (ho : p.back.output = []) {done rest : List Passed} {l : List Queued} {G : List Frame}
    (hs : Stream d p done rest l G) : l.length = p.passed.length := by
  have hbytes := hs.bytes
  rw [ho, List.append_nil] at hbytes
  cases G with
  | nil =>
    have hrest := hs.passes
    cases hrest
    rw [hs.passed, List.append_nil, hs.honoured.length_eq]
  | cons g G =>
    obtain ⟨x, rest', hpass, -, -⟩ := List.forall₂_cons_right_iff.1 hs.passes
    have hstep := (feedStep_frames h.ok h.typed (hpass.short.trans h.max) hbytes).1
    rw [feedStep_eq (.wait h.waits)] at hstep
    cases hstep

end Proxy

/-- **Nothing gets past the proxy.** Whatever bytes the frontend and the backend send and whatever the
order of calls, the backend has reported the first events that were sent on, in order, each Bind with the
names and the parameter forced on it and all else as it was, and nothing besides; where the output
is drained it has reported all of them, and carrying bytes to it always returns. -/
theorem identity_enforced {d : Ctx} (hd : Proxy.Started d) {p : Proxy} (h : Proxy.Reach d p) :
    ∃ l, p.backend.log = d.log ++ l ∧ List.Forall₂ Passed.Honoured (p.passed.take l.length) l ∧
      (p.back.output = [] → l.length = p.passed.length) ∧
      ∀ maxLen, ∃ backend, Feeds p.backend (p.back.getOutput maxLen).1 backend := by
  have hl := h.linked hd
  obtain ⟨done, rest, l, G, hs⟩ := hl.stream
  refine ⟨l, hs.log, ?_, ?_, ?_⟩
  · rw [hs.passed, ← hs.honoured.length_eq, List.take_left]
    exact hs.honoured
  · intro ho
    exact hl.drained ho hs
  · intro maxLen
    obtain ⟨backend, hf, -⟩ := hl.carry maxLen
    exact ⟨backend, hf⟩

/-- An identity of one letter for the first parameter. -/
def routerForced : Forced := ⟨CStr.empty, CStr.empty, 0, ⟨[114], by decide⟩, false, by decide, by decide⟩

/-- A Bind and a Sync that arrive together and are carried to the backend in two pieces. -/
theorem identity_enforced_router :
    ∃ p l, Proxy.Reach drainedServer p ∧ p.backend.log = drainedServer.log ++ l ∧ l.length = 2 ∧
      List.Forall₂ Passed.Honoured (p.passed.take l.length) l := by
  have h₀ := @Proxy.Reach.create drainedServer ⟨16, 64⟩ ⟨16, 64⟩ _ _ rfl rfl
  have h₁ := @Proxy.Reach.arrive _ _ _ startupBytes 3 _ h₀ rfl rfl
  have h₂ := h₁.ignore routerForced rfl rfl
  have h₃ := @Proxy.Reach.arrive _ _ _ ([66, 0, 0, 0, 19] ++ sevenBind.enc ++ [83, 0, 0, 0, 4]) 3 _ h₂ rfl rfl
  have h₄ := h₃.pass routerForced rfl rfl rfl
  have h₅ := h₄.pass routerForced rfl rfl rfl
  have h₆ := @Proxy.Reach.carry _ _ _ 9 h₅ ⟨_, rfl, 2, rfl⟩
  have h₇ := @Proxy.Reach.carry _ _ _ 64 h₆ ⟨_, rfl, 3, rfl⟩
  obtain ⟨l, hlog, hhon, hall, -⟩ := identity_enforced ⟨drainedServer_reachable, rfl, rfl, rfl, rfl, by decide⟩ h₇
  exact ⟨_, l, h₇, hlog, hall rfl, hhon⟩

end Pqwire

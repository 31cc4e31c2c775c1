import Pqwire.Proof.Filter
import Pqwire.Proof.Limits
import Pqwire.Proof.Rows
import Pqwire.Spec.Forward

/-!
# Sending on what has been decoded loses nothing

* `reachable_sized`: whatever bytes a context has been fed, its events fit the send helpers.
* `resend_frame`: an event is sent on as one frame, and a server reports it as the same event.
* `forward_transparent`: both for whole runs.
-/

namespace Pqwire

open ByteMem

/-! ## Events fit -/

/-- The strings of the event are as long as its arrays allow. -/
def Event.Sized : Event → Prop
  | .parse m => m.statement.length < maxStmtName ∧ m.query.length < maxQueryLen ∧ m.nParamTypes ≤ maxParamTypes ∧
      m.paramTypeOids.length ≤ m.nParamTypes
  | .describe m => m.name.length < maxStmtName
  | .execute m => m.portal.length < maxPortalName
  | .close m => m.name.length < maxStmtName
  -- a parameter without an address has no bytes
  | .bind m => m.nParams ≤ maxBindParams ∧ m.nResultFormats ≤ maxBindParams ∧
      ∀ i, (m.param i).data = Option.none → (m.param i).length.toInt.toNat = 0
  | _ => True

theorem copyCstr_length {n : ℕ} (hn : 0 < n) (s : CStr) : (copyCstr n s).length < n := by
  have hlen : (copyCstr n s).length ≤ n - 1 := by
    show (s.bytes.take (n - 1)).length ≤ n - 1
    rw [List.length_take]
    apply min_le_left
  omega

theorem readOids_length (body : Bytes) (n off : ℕ) : (readOids body n off).length ≤ n := by
  induction n generalizing off with
  | zero => exact le_rfl
  | succ n ih =>
    unfold readOids
    split
    · exact Nat.succ_le_succ (ih (off + 4))
    · exact Nat.zero_le _

theorem parseOf_sized {body : Bytes} {m : ParseMsg} (h : parseOf body = some m) : (Event.parse m).Sized := by
  unfold parseOf at h
  simp only [Option.bind_eq_bind, Option.bind_eq_some_iff] at h
  obtain ⟨⟨name, k⟩, -, ⟨query, k'⟩, -, h⟩ := h
  have hname := copyCstr_length (n := maxStmtName) (by decide) name
  have hquery := copyCstr_length (n := maxQueryLen) (by decide) query
  split at h
  · cases h
    exact ⟨hname, hquery, min_le_right _ _, readOids_length _ _ _⟩
  · cases h
    exact ⟨hname, hquery, Nat.zero_le _, le_rfl⟩

theorem targetName_sized {body : Bytes} {t : UInt8} {name : CStr} (h : targetName body = some (t, name)) :
    name.length < maxStmtName := by
  unfold targetName at h
  split at h
  · cases h
  · split at h
    · cases h
      decide
    · cases h
      apply copyCstr_length
      decide

theorem executeOf_sized {body : Bytes} {m : ExecuteMsg} (h : executeOf body = some m) : m.portal.length < maxPortalName := by
  unfold executeOf at h
  simp only [Option.bind_eq_bind, Option.bind_eq_some_iff] at h
  obtain ⟨⟨portal, off⟩, -, h⟩ := h
  have hportal := copyCstr_length (n := maxPortalName) (by decide) portal
  split at h
  · cases h
    exact hportal
  · cases h
    exact hportal

theorem bindOf_sized {base : ℕ} {body : Bytes} {m : BindMsg} (h : bindOf base body = some m) : (Event.bind m).Sized := by
  obtain ⟨-, hparams, hresults⟩ := bindOf_limits h
  refine ⟨hparams, hresults, ?_⟩
  obtain ⟨pre, rest, fs, -, -, hviews⟩ := bindOf_fields h
  intro i hnone
  unfold BindMsg.param at hnone ⊢
  rw [List.getD_eq_getElem?_getD, hviews] at hnone ⊢
  cases hi : fs[i]? with
  | none =>
    have hlen : (viewsAt base (formatFor m.nFormats m.formats) 0 pre.length fs)[i]? = none := by
      rw [List.getElem?_eq_none_iff] at hi ⊢
      rw [viewsAt_length]
      exact hi
    rw [hlen]
    rfl
  | some f =>
    rw [viewsAt_getElem? base _ hi, Option.getD_some] at hnone ⊢
    dsimp only at hnone ⊢
    split at hnone
    · omega
    · cases hnone

theorem plainEvent_sized {role : Role} {type : UInt8} {base : ℕ} {body : Bytes} {ev : Event}
    (h : plainEvent role type base body = some ev) : ev.Sized := by
  rcases plainEvent_some h with ⟨t, -, -, hp⟩ | ⟨t, -, -, hp⟩
  · cases t with
    | parse =>
      obtain ⟨m, hm, rfl⟩ := Option.map_eq_some_iff.1 hp
      exact parseOf_sized hm
    | describe =>
      obtain ⟨m, hm, rfl⟩ := Option.map_eq_some_iff.1 hp
      exact targetName_sized hm
    | execute =>
      obtain ⟨m, hm, rfl⟩ := Option.map_eq_some_iff.1 hp
      exact executeOf_sized hm
    | close =>
      obtain ⟨m, hm, rfl⟩ := Option.map_eq_some_iff.1 hp
      exact targetName_sized hm
    | bind =>
      obtain ⟨m, hm, rfl⟩ := Option.map_eq_some_iff.1 hp
      exact bindOf_sized hm
    | query => cases hp
    | _ =>
      cases hp
      trivial
  · cases t with
    | notification =>
      obtain ⟨m, -, rfl⟩ := Option.map_eq_some_iff.1 hp
      trivial
    | _ => cases hp <;> trivial

/-- The events in the queue, and the text of the last query, are as long as their arrays allow. -/
structure Sized (c : Ctx) : Prop where
  events : ∀ q ∈ c.events.toList, q.ev.Sized
  sql : c.sqlScratch.length < maxQueryLen

theorem scratchStr_length {n : ℕ} (hn : 0 < n) (body : Bytes) : (scratchStr n body).length < n := by
  unfold scratchStr
  split
  · exact hn
  · apply copyCstr_length hn

/-- One more event. -/
theorem Sized.enqueue {c c' : Ctx} {q : Queued} (h : Sized c) (hok : c.Ok) (hev : c'.events = c.events.enqueue q)
    (hq : q.ev.Sized) (hsql : c'.sqlScratch.length < maxQueryLen) : Sized c' := by
  refine ⟨?_, hsql⟩
  intro q' hm
  rw [hev] at hm
  rcases mem_enqueue hok.ring hm with hm | rfl
  · exact h.events q' hm
  · exact hq

theorem sized_kept : Kept Sized where
  input _ _ _ h := ⟨h.events, h.sql⟩
  allocs _ h := ⟨h.events, h.sql⟩
  message {c} type base body hok h := by
    have hh := handleMessage_handling c type base body
    generalize handleMessage c type base body = c' at hh ⊢
    cases hh with
    | ignored => exact h
    | event _ hp => exact h.enqueue hok rfl (plainEvent_sized hp) h.sql
    | query => exact h.enqueue hok rfl trivial (scratchStr_length (by decide) body)
    | authenticated => exact h.enqueue hok rfl trivial h.sql
    | authentication => exact h
    | ready => exact h.enqueue hok rfl trivial h.sql
    | rowDescription =>
      unfold parseRowDescription
      split
      · exact h
      · exact h.enqueue hok rfl trivial h.sql
    | dataRow =>
      unfold parseDataRow
      split
      · exact h
      · exact h.enqueue hok rfl trivial h.sql
    | complete => exact h.enqueue hok rfl trivial h.sql
  startup body hok h := by
    unfold parseStartupBody
    split
    · exact h.enqueue hok rfl trivial h.sql
    · exact h.enqueue hok rfl trivial h.sql
  error hok h := h.enqueue hok rfl trivial h.sql

theorem create_sql {role : Role} {config : Config} {allocs : List Bool} {c : Ctx}
    (h : createWithConfig role config allocs = some c) : c.sqlScratch = CStr.empty := by
  unfold createWithConfig at h
  split at h
  · cases h
  split at h
  · cases h
    rfl
  · cases h

/-- **Whatever a context has been fed, its events fit.** -/
theorem reachable_sized {c : Ctx} (h : Reachable c) : Sized c := by
  induction h with
  | create h =>
    obtain ⟨hnil, -⟩ := create_empty h
    refine ⟨?_, ?_⟩
    · intro q hq
      rw [hnil] at hq
      cases hq
    · rw [create_sql h]
      decide
  | @step c c' hr hs ih =>
    have hok := (reachable_ok hr).1
    cases hs with
    | feed hf => exact sized_kept.feedInput hf hok ih
    | next hn =>
      obtain ⟨hl, -⟩ := nextEvent_cases hok hn
      refine ⟨?_, ?_⟩
      · intro q hq
        apply ih.events
        rw [hl]
        exact List.mem_cons_of_mem _ hq
      · rw [(nextEvent_frame hn).1]
        exact ih.sql
    | reset =>
      refine ⟨?_, ih.sql⟩
      intro q hq
      simp only [Pqwire.reset, RingBuf.toList_clear] at hq
      cases hq
    | output n => exact ⟨ih.events, ih.sql⟩
    | send s =>
      have ho := send_outputOnly c s
      unfold OutputOnly at ho
      rw [ho]
      exact ⟨ih.events, ih.sql⟩
    | ready => exact ⟨ih.events, ih.sql⟩

/-! ## One event -/

/-- What an event is sent on as: a call that is not refused and appends one frame, of which a
server makes an event that reports the same. -/
structure SentOn (p : Event × View) (m : Send) (f : Frame) : Prop where
  short : f.len ≤ 4230
  sends : ∀ c : Ctx, c.allocs = [] → ∃ c', m.run c = (c', 0) ∧ c'.output = c.output ++ f.enc ∧ c'.allocs = []
  reports : ∀ d : Ctx, d.role = .server →
    ∃ q : Queued, (handleMessage d f.type 5 f.body).log = d.log ++ [q] ∧ p.1.Same q.ev ∧ q.seen = p.2

theorem emitMsg_frame {c : Ctx} (ha : c.allocs = []) (f : Frame) :
    ∃ c', c.emitMsg f.type f.body = (c', 0) ∧ c'.output = c.output ++ f.enc ∧ c'.allocs = [] := by
  obtain ⟨ho, hal⟩ := emitMsg_output ha f.type f.body
  refine ⟨_, Prod.ext rfl ?_, ho, hal⟩
  unfold Ctx.emitMsg
  split <;> rfl

/-- A message whose event holds its data itself. -/
theorem SentOn.ofMessage {p : Event × View} {m : Send} {x : FrontMsg} {ev : Event} (hlen : x.body.length ≤ 4226)
    (hrun : ∀ c : Ctx, m.run c = c.emitMsg x.type.byte x.body) (hs : x.Small) (he : x.event = some ev) (hsame : p.1.Same ev)
    (hv : ∀ d : Ctx, d.read ev = p.2) : SentOn p m ⟨x.type.byte, x.body, by omega⟩ := by
  refine ⟨?_, ?_, ?_⟩
  · show x.body.length + 4 ≤ 4230
    omega
  · intro c ha
    obtain ⟨c', h1, h2, h3⟩ := emitMsg_frame ha ⟨x.type.byte, x.body, by omega⟩
    exact ⟨c', (hrun c).trans h1, h2, h3⟩
  · intro d hr
    refine ⟨⟨ev, x.body, d.read ev⟩, ?_, hsame, hv d⟩
    show (handleMessage d x.type.byte 5 x.body).log = _
    rw [handle_message hr hs he]
    rfl

/-- The record of a Parse is within the limits of `pqwire_send_parse`. -/
theorem parse_sentOn {m : ParseMsg} (h : (Event.parse m).Sized) {v : View} (hv : v = {}) :
    ∃ s f, (Event.parse m).resend v = some s ∧ SentOn (.parse m, v) s f := by
  obtain ⟨h1, h2, h3, h4⟩ := h
  have hn : ¬m.nParamTypes > maxParamTypes := by omega
  have h16 : maxParamTypes = 16 := rfl
  have h64 : maxStmtName = 64 := rfl
  have h4096 : maxQueryLen = 4096 := rfl
  have hlt : m.nParamTypes < 2 ^ 16 := by omega
  have hfit : ¬(m.statement.length + 1 + (m.query.length + 1) + 2 + m.nParamTypes * 4 > maxQueryLen + 256) := by
    rw [h4096]
    omega
  have htoNat : (UInt16.ofNat m.nParamTypes).toNat = m.nParamTypes := by
    rw [UInt16.toNat_ofNat']
    exact Nat.mod_eq_of_lt hlt
  set oids := (List.range m.nParamTypes).map m.oid with hoids
  have holen : oids.length = m.nParamTypes := by rw [hoids, List.length_map, List.length_range]
  have hsent : (List.range m.nParamTypes).map (fun i => (oids ++ List.replicate (maxParamTypes - m.nParamTypes) 0).getD i 0) = oids := by
    rw [hoids]
    apply List.map_congr_left
    intro i hi
    have hi' := List.mem_range.1 hi
    rw [List.getD_eq_getElem?_getD, List.getElem?_append_left (by rw [List.length_map, List.length_range]; exact hi'),
      List.getElem?_map, List.getElem?_range hi']
    rfl
  let x : FrontMsg := .parse m.statement m.query oids (by omega)
  have hbody : x.body.length = m.statement.length + 1 + (m.query.length + 1) + 2 + m.nParamTypes * 4 := by
    show (m.statement.toBytes ++ m.query.toBytes ++ wr16Be oids.length ++ oids.flatMap fun o => wr32Be o.toNat).length = _
    rw [List.length_append, List.length_append, List.length_append, CStr.toBytes_length, CStr.toBytes_length, wr16Be_length,
      List.length_flatMap]
    simp only [wr32Be_length, List.map_const', List.sum_replicate, holen, smul_eq_mul]
  have hprep : preparedFromParse m = ⟨m.statement, m.query, m.nParamTypes,
      oids ++ List.replicate (maxParamTypes - m.nParamTypes) 0, -1⟩ := by
    unfold preparedFromParse
    rw [if_neg hn, copyCstr_self h1, copyCstr_self h2]
  refine ⟨_, ⟨x.type.byte, x.body, by omega⟩, rfl, ?_⟩
  rw [hprep]
  refine SentOn.ofMessage (by omega) ?_ ⟨h1, h2, by omega⟩ rfl ?_ ?_
  · intro c
    show c.sendParse (some m.statement) (some m.query) _ (UInt16.ofNat m.nParamTypes) = _
    unfold Ctx.sendParse
    dsimp only
    rw [htoNat, Option.getD_some, if_neg hfit]
    show c.emitMsg (ch 'P') (m.statement.toBytes ++ m.query.toBytes ++ wr16Be m.nParamTypes ++
      (List.range m.nParamTypes).flatMap fun i => wr32Be
        ((oids ++ List.replicate (maxParamTypes - m.nParamTypes) 0).getD i 0).toNat) = c.emitMsg (ch 'P')
      (m.statement.toBytes ++ m.query.toBytes ++ wr16Be oids.length ++ oids.flatMap fun o => wr32Be o.toNat)
    have hflat : ((List.range m.nParamTypes).flatMap fun i => wr32Be
        ((oids ++ List.replicate (maxParamTypes - m.nParamTypes) 0).getD i 0).toNat) =
        oids.flatMap fun o => wr32Be o.toNat := by
      conv_rhs => rw [← hsent]
      rw [List.flatMap_map]
    rw [holen, hflat]
  · refine ⟨rfl, rfl, holen.symm, ?_⟩
    intro i
    show m.oid i = oids.getD i 0
    by_cases hi : i < m.nParamTypes
    · rw [List.getD_eq_getElem?_getD, hoids, List.getElem?_map, List.getElem?_range hi]
      rfl
    · unfold ParseMsg.oid
      rw [List.getD_eq_getElem?_getD, List.getD_eq_getElem?_getD, List.getElem?_eq_none (by omega),
        List.getElem?_eq_none (by omega)]
  · intro d
    rw [hv]
    rfl

/-- The text of a Query goes through the scratch area of the server. -/
theorem query_sentOn {sql : CStr} (h : sql.length < maxQueryLen) :
    ∃ f, SentOn (.query, { strs := [sql] }) (.query (some sql)) f := by
  have hlen := sql.toBytes_length
  have hmax : maxQueryLen = 4096 := rfl
  refine ⟨⟨ch 'Q', sql.toBytes, by omega⟩, ?_, ?_, ?_⟩
  · show sql.toBytes.length + 4 ≤ 4230
    omega
  · intro c ha
    exact emitMsg_frame ha ⟨ch 'Q', sql.toBytes, by omega⟩
  · intro d hr
    have hback : scratchStr maxQueryLen sql.toBytes = sql := by rw [TextSend.scratchStr_toBytes, copyCstr_self h]
    have hmsg : handleMessage d (ch 'Q') 5 sql.toBytes = parseQueryMsg d sql.toBytes := handleMessage_front hr .query 5 _
    refine ⟨⟨.query, sql.toBytes, { strs := [sql] }⟩, ?_, rfl, rfl⟩
    show (handleMessage d (ch 'Q') 5 sql.toBytes).log = _
    rw [hmsg]
    unfold parseQueryMsg
    rw [hback]
    rfl

/-- **An event that is delivered is sent on as one frame, and a server reports it as the same event.** -/
theorem resend_frame {p : Event × View} (hp : IsDelivered p) {m : Send} (hm : p.1.resend p.2 = some m) :
    ∃ f, SentOn p m f := by
  obtain ⟨s, q, s', hs, hn, rfl⟩ := hp
  obtain ⟨hl, -⟩ := nextEvent_cases (reachable_ok hs).1 hn
  have hsized : q.ev.Sized := by
    apply (reachable_sized hs).events
    rw [hl]
    exact List.mem_cons_self ..
  have hsql := (reachable_sized (.step hs (.next hn))).sql
  generalize q.ev = ev at hsized hm
  have h64 : maxStmtName = 64 := rfl
  have h64' : maxPortalName = 64 := rfl
  cases ev with
  | parse x =>
    obtain ⟨m', f, hm', hf⟩ := parse_sentOn hsized (v := s'.read (.parse x)) rfl
    dsimp only at hm
    rw [hm'] at hm
    cases hm
    exact ⟨f, hf⟩
  | describe x =>
    cases hm
    change x.name.length < maxStmtName at hsized
    refine ⟨_, SentOn.ofMessage (x := .describe x.target x.name) ?_ ?_ hsized rfl rfl fun d => rfl⟩
    · show (x.target :: x.name.toBytes).length ≤ 4226
      rw [List.length_cons, CStr.toBytes_length]
      omega
    · intro c
      show c.sendTarget (ch 'D') x.target (some x.name) = _
      unfold Ctx.sendTarget
      dsimp only
      rw [Option.getD_some, if_neg (by omega)]
      rfl
  | execute x =>
    cases hm
    change x.portal.length < maxPortalName at hsized
    refine ⟨_, SentOn.ofMessage (x := .execute x.portal x.maxRows) ?_ ?_ hsized rfl rfl fun d => rfl⟩
    · show (x.portal.toBytes ++ wr32Be x.maxRows.toNat).length ≤ 4226
      rw [List.length_append, wr32Be_length, CStr.toBytes_length]
      omega
    · intro c
      show c.sendExecute (some x.portal) x.maxRows = _
      unfold Ctx.sendExecute
      dsimp only
      rw [Option.getD_some, if_neg (by omega)]
      rfl
  | close x =>
    cases hm
    change x.name.length < maxStmtName at hsized
    refine ⟨_, SentOn.ofMessage (x := .close x.target x.name) ?_ ?_ hsized rfl rfl fun d => rfl⟩
    · show (x.target :: x.name.toBytes).length ≤ 4226
      rw [List.length_cons, CStr.toBytes_length]
      omega
    · intro c
      show c.sendTarget (ch 'C') x.target (some x.name) = _
      unfold Ctx.sendTarget
      dsimp only
      rw [Option.getD_some, if_neg (by omega)]
      rfl
  | sync =>
    cases hm
    exact ⟨_, SentOn.ofMessage (x := .sync) (by decide) (fun c => rfl) trivial rfl rfl fun d => rfl⟩
  | flush =>
    cases hm
    exact ⟨_, SentOn.ofMessage (x := .flush) (by decide) (fun c => rfl) trivial rfl rfl fun d => rfl⟩
  | terminate =>
    cases hm
    exact ⟨_, SentOn.ofMessage (x := .terminate) (by decide) (fun c => rfl) trivial rfl rfl fun d => rfl⟩
  | query =>
    cases hm
    exact query_sentOn hsql
  | _ => cases hm

/-! ## Runs -/

/-- **The calls of a proxy**: none is refused, and the output is a stream of frames, one for each
event. -/
theorem forwards_frames {ps : List (Event × View)} (hp : ∀ p ∈ ps, IsDelivered p ∧ (p.1.resend p.2).isSome = true) {c : Ctx}
    (ha : c.allocs = []) :
    ∃ c' fs, Forwards c ps c' ∧ c'.output = c.output ++ Frame.encAll fs ∧ (∀ f ∈ fs, f.len ≤ 4230) ∧
      List.Forall₂ (fun p f => ∃ m, SentOn p m f) ps fs := by
  induction ps generalizing c with
  | nil => exact ⟨c, [], .nil c, (List.append_nil _).symm, List.forall_mem_nil _, .nil⟩
  | cons p ps ih =>
    obtain ⟨hd, hsome⟩ := hp p (List.mem_cons_self ..)
    obtain ⟨m, hm⟩ := Option.isSome_iff_exists.1 hsome
    obtain ⟨f, hf⟩ := resend_frame hd hm
    obtain ⟨c₁, hrun, hout, hal⟩ := hf.sends c ha
    obtain ⟨c', fs, hfwd, hout', hshort, hall⟩ := ih (fun p' hp' => hp p' (List.mem_cons_of_mem _ hp')) hal
    refine ⟨c', f :: fs, .cons hm hrun hfwd, ?_, List.forall_mem_cons.2 ⟨hf.short, hshort⟩, .cons ⟨m, hf⟩ hall⟩
    rw [hout', hout, Frame.encAll_cons, List.append_assoc]

/-- What a server reports for the frames. -/
theorem receiveAll_reports {ps : List (Event × View)} {fs : List Frame}
    (h : List.Forall₂ (fun p f => ∃ m, SentOn p m f) ps fs) {d : Ctx} (hr : d.role = .server) :
    ∃ l : List Queued, (d.receiveAll fs).log = d.log ++ l ∧ List.Forall₂ (fun p q => p.1.Same q.ev ∧ q.seen = p.2) ps l := by
  induction h generalizing d with
  | nil => exact ⟨[], (List.append_nil _).symm, .nil⟩
  | @cons p f ps fs hpf _ ih =>
    obtain ⟨m, hf⟩ := hpf
    obtain ⟨q, hlog, hsame⟩ := hf.reports (d.load f.enc) hr
    have hr' : (d.receive f).role = .server := (handleMessage_handled (d.load f.enc) f.type 5 f.body).role.trans hr
    obtain ⟨l, hlog', hall⟩ := ih hr'
    have hlog₁ : (d.receive f).log = d.log ++ [q] := hlog
    refine ⟨q :: l, ?_, .cons hsame hall⟩
    show ((d.receive f).receiveAll fs).log = _
    rw [hlog', hlog₁, List.append_assoc]
    rfl

/-- **Sending on is transparent.** Whatever bytes its frontends send, the calls by which a proxy
sends on the events that it gets from them are never refused, and a backend that takes messages
of 4230 bytes and gets the output in any pieces reports the same events in the same order. -/
theorem forward_transparent {ps : List (Event × View)} (hp : ∀ p ∈ ps, IsDelivered p ∧ (p.1.resend p.2).isSome = true)
    {c d : Ctx} (ha : c.allocs = []) (hout : c.output = []) (hd : Reachable d) (hr : d.role = .server)
    (hs : d.awaitsStartup = false) (had : d.allocs = []) (hin : d.resid = []) (hmax : 4230 ≤ d.maxMessageSize) :
    ∃ c', Forwards c ps c' ∧ ∀ chunks : List Bytes, chunks.flatten = c'.output →
      ∃ d' l, FeedsAll d chunks d' ∧ d'.resid = [] ∧ d'.log = d.log ++ l ∧
        List.Forall₂ (fun p q => p.1.Same q.ev ∧ q.seen = p.2) ps l := by
  obtain ⟨c', fs, hfwd, houtput, hshort, hall⟩ := forwards_frames hp ha
  rw [hout, List.nil_append] at houtput
  refine ⟨c', hfwd, ?_⟩
  intro chunks hcut
  obtain ⟨hok, hw⟩ := reachable_ok hd
  have hfits : ∀ f ∈ fs, f.Fits d := fun f hf => (hshort f hf).trans hmax
  obtain ⟨d', hfeeds, hres, hcore⟩ := feedsAll_frames hok hw hs had hin hfits (hcut.trans houtput)
  obtain ⟨l, hlog, hreports⟩ := @receiveAll_reports ps fs hall d.core hr
  rw [← hcore] at hlog
  exact ⟨d', l, hfeeds, hres, hlog, hreports⟩

/-- A Parse that announces twenty parameter types and has none: sixteen are kept, all zero. -/
def cutParse : ParseMsg := ⟨⟨[115], by decide⟩, ⟨[113], by decide⟩, 16, []⟩

/-- A server whose startup event has been dequeued. -/
def drainedServer : Ctx := ((startedServer 16 8192).nextEvent.map Prod.snd).getD (startedServer 16 8192)

theorem drainedServer_reachable : Reachable drainedServer :=
  .step (@startedServer_reachable 16 8192 (by decide) (by decide)) (@Step.next _ _ ⟨.startup, startupBytes.drop 4, _⟩ rfl)

theorem cutParse_delivered : IsDelivered (.parse cutParse, {}) := by
  obtain ⟨s, h⟩ : ∃ s, drainedServer.feedInput 2 [80, 0, 0, 0, 10, 115, 0, 113, 0, 0, 20] = some (s, 11) := ⟨_, rfl⟩
  have hreach := drainedServer_reachable.step (.feed h)
  cases h
  exact ⟨_, _, _, hreach, rfl, rfl⟩

theorem forward_transparent_parse :
    ∃ c', Forwards tinyClient [(.parse cutParse, {})] c' ∧ ∀ chunks : List Bytes, chunks.flatten = c'.output →
      ∃ d' l, FeedsAll drainedServer chunks d' ∧ d'.resid = [] ∧ d'.log = drainedServer.log ++ l ∧
        List.Forall₂ (fun (p : Event × View) q => p.1.Same q.ev ∧ q.seen = p.2) [(.parse cutParse, {})] l := by
  have hp : ∀ p ∈ [((.parse cutParse, {}) : Event × View)], IsDelivered p ∧ (p.1.resend p.2).isSome = true := by
    intro p hm
    rw [List.mem_singleton.1 hm]
    exact ⟨cutParse_delivered, rfl⟩
  exact @forward_transparent _ hp tinyClient drainedServer rfl rfl drainedServer_reachable rfl rfl rfl rfl (by decide)

end Pqwire

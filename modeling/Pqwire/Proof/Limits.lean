import Pqwire.Proof.Chunk
import Pqwire.Proof.Startup
import Pqwire.Spec.Limits

/-!
# What an encoder accepts and a decoder keeps

* `TextSend.emits`: what a call that returns 0 has emitted.
* `TextSend.reported`: the event that a server makes of it, with every text cut to its array.
* `limits_agree_iff`: so the event shows the arguments exactly when they are within the limits of
  the decoder. The encoders accept more.
-/

namespace Pqwire

open ByteMem

theorem copyCstr_eq_iff {n : ℕ} {s : CStr} (hn : 0 < n) : copyCstr n s = s ↔ s.length ≤ n - 1 := by
  refine ⟨fun h => ?_, fun h => copyCstr_self (by omega)⟩
  have hlen := congrArg CStr.length h
  simp only [copyCstr, CStr.take, CStr.length, List.length_take] at hlen ⊢
  omega

namespace TextSend

theorem sentOids_length (oids : Option (List UInt32)) (n : UInt16) : (sentOids oids n).length = n.toNat := by
  rw [sentOids, List.length_map, List.length_range]

theorem sentOids_lt (oids : Option (List UInt32)) (n : UInt16) : (sentOids oids n).length < 2 ^ 16 := by
  rw [sentOids_length]
  exact n.toNat_lt

/-- The message that the call sends: `pqwire_send_call` cuts its text to 511 bytes. -/
def message : TextSend → FrontMsg
  | startup _ _ => .sync
  | query sql => .query sql
  | call procedure => .query (copyCstr 512 (Ctx.cat Ctx.callPrefix procedure))
  | parse statement sql oids n => .parse (statement.getD CStr.empty) sql (sentOids oids n) (sentOids_lt oids n)
  | describe target name => .describe target (name.getD CStr.empty)
  | close target name => .close target (name.getD CStr.empty)
  | execute portal maxRows => .execute (portal.getD CStr.empty) maxRows

/-- **What a call that returns 0 has emitted**, when it is not the startup message. -/
theorem emits {c c₁ : Ctx} {s : TextSend} (hs : s.isStartup = false) (ha : c.allocs = []) (h : s.run c = (c₁, 0)) :
    c₁.output = c.output ++ (Ctx.msgHeader s.message.type.byte s.message.body.length ++ s.message.body) := by
  cases s with
  | startup user database => cases hs
  | query sql => exact (emitMsg_all ha h).1
  | call procedure => exact (emitMsg_all ha h).1
  | parse statement sql oids n =>
    exact (send_message (m := .parse statement (some sql) oids n) ha rfl h).1
  | describe target name => exact (send_message (m := .describe target name) ha rfl h).1
  | close target name => exact (send_message (m := .close target name) ha rfl h).1
  | execute portal maxRows => exact (send_message (m := .execute portal maxRows) ha rfl h).1

theorem scratchStr_toBytes (n : ℕ) (t : CStr) : scratchStr n t.toBytes = copyCstr n t := by
  have h := readCstr_toBytes t []
  rw [List.append_nil] at h
  simp only [scratchStr, h]

variable {d : Ctx}

/-- What handling the message of a call puts into the queue, and when it shows the arguments. -/
def Reports (s : TextSend) (d d' : Ctx) : Prop := ∃ q : Queued, d'.log = d.log ++ [q] ∧ (s.ShownBy q ↔ s.Within)

theorem parse_reported (statement : Option CStr) (sql : CStr) (oids : Option (List UInt32)) (n : UInt16) :
    Reports (parse statement sql oids n) d (parseParseMsg d (parse statement sql oids n).message.body) := by
  have hlen := sentOids_length oids n
  have hof := parseOf_enc (statement.getD CStr.empty) sql (sentOids oids n) (sentOids_lt oids n)
  change parseOf (parse statement sql oids n).message.body = _ at hof
  unfold parseParseMsg
  rw [hof, hlen]
  refine ⟨_, rfl, ?_⟩
  simp only [ShownBy, Within, Event.parse.injEq, ParseMsg.mk.injEq]
  constructor
  · rintro ⟨h1, h2, h3, -⟩
    have hmax : maxParamTypes = 16 := rfl
    exact ⟨(copyCstr_eq_iff (by decide)).1 h1, (copyCstr_eq_iff (by decide)).1 h2, by omega⟩
  · rintro ⟨h1, h2, h3⟩
    exact ⟨(copyCstr_eq_iff (by decide)).2 h1, (copyCstr_eq_iff (by decide)).2 h2, min_eq_left h3,
      List.take_of_length_le (by rw [hlen]; exact h3)⟩

/-- **The event that a server makes of a message shows its arguments exactly within the limits.** -/
theorem reported (s : TextSend) (hs : s.isStartup = false) (hr : d.role = .server) :
    Reports s d (handleMessage d s.message.type.byte 5 s.message.body) := by
  rw [handleMessage_front hr]
  cases s with
  | startup user database => cases hs
  | query sql =>
    refine ⟨_, rfl, ?_⟩
    show (Event.query = .query ∧ [scratchStr maxQueryLen sql.toBytes] = [sql]) ↔ sql.length ≤ 4095
    rw [scratchStr_toBytes, List.singleton_inj, copyCstr_eq_iff (by decide)]
    exact and_iff_right rfl
  | call procedure =>
    refine ⟨_, rfl, ?_⟩
    set text := Ctx.cat Ctx.callPrefix procedure with htext
    have hlen : text.length = 5 + procedure.length := by
      rw [htext]
      simp [Ctx.cat, CStr.length, Ctx.callPrefix]
      omega
    have hcut : (copyCstr 512 text).length < maxQueryLen := by
      have hmax : maxQueryLen = 4096 := rfl
      simp only [copyCstr, CStr.take, CStr.length, List.length_take]
      omega
    show (Event.query = .query ∧ [scratchStr maxQueryLen (copyCstr 512 text).toBytes] = [text]) ↔ procedure.length ≤ 506
    rw [scratchStr_toBytes, copyCstr_self hcut, List.singleton_inj, copyCstr_eq_iff (by decide), hlen]
    exact ⟨fun h => by omega, fun h => ⟨rfl, by omega⟩⟩
  | parse statement sql oids n => exact parse_reported statement sql oids n
  | describe target name =>
    simp only [handleFrontend, message, FrontMsg.type, FrontMsg.body, parseDescribeMsg, targetName_enc]
    refine ⟨_, rfl, ?_⟩
    simp only [ShownBy, Within, Event.describe.injEq, DescribeMsg.mk.injEq, true_and]
    exact copyCstr_eq_iff (by decide)
  | close target name =>
    simp only [handleFrontend, message, FrontMsg.type, FrontMsg.body, parseCloseMsg, targetName_enc]
    refine ⟨_, rfl, ?_⟩
    simp only [ShownBy, Within, Event.close.injEq, CloseMsg.mk.injEq, true_and]
    exact copyCstr_eq_iff (by decide)
  | execute portal maxRows =>
    simp only [handleFrontend, message, FrontMsg.type, FrontMsg.body, parseExecuteMsg, executeOf_enc]
    refine ⟨_, rfl, ?_⟩
    simp only [ShownBy, Within, Event.execute.injEq, ExecuteMsg.mk.injEq, and_true]
    exact copyCstr_eq_iff (by decide)

/-! ## Both ends -/

/-- One frame, fed to a server past startup: what handling it puts into the queue is all that comes. -/
theorem frame_reported {s : TextSend} {f : Frame} {d₁ : Ctx} (hd : Reachable d) (hs : d.awaitsStartup = false)
    (hres : d.resid = []) (ha : d.acceptInput f.enc = some d₁) (hfit : f.Fits d)
    (hrep : s.Reports d₁ (handleMessage d₁ f.type 5 f.body)) :
    ∃ d' q, Feeds d f.enc d' ∧ d'.log = d.log ++ [q] ∧ (s.ShownBy q ↔ s.Within) := by
  obtain ⟨-, -, -, hlog₁, -⟩ := acceptInput_same ha
  have hall : Frame.encAll [f] = f.enc := by simp [Frame.encAll]
  have hfits : ∀ g ∈ [f], g.Fits d := by simpa using hfit
  have hfeeds := feeds_frames (reachable_ok hd).1 hs ha hfits (by rw [hres, hall, List.nil_append])
  obtain ⟨-, -, -, -, hlog, -⟩ := handleFrame_same d₁ f
  obtain ⟨q, hq, hiff⟩ := hrep
  refine ⟨d₁.handleFrame f, q, hfeeds, ?_, hiff⟩
  rw [hlog, hq, hlog₁]

/-- The startup message, fed to a server that waits for it. -/
theorem startup_reported {user database : Option CStr} {s : Startup} {d₁ : Ctx} (hd : Reachable d)
    (hs : d.awaitsStartup = true) (hres : d.resid = []) (ha : d.acceptInput s.enc = some d₁) (hfit : s.Fits d)
    (hbody : s.body = startupBody (user.getD CStr.empty) (database.getD CStr.empty)) :
    ∃ d' q, Feeds d s.enc d' ∧ d'.log = d.log ++ [q] ∧
      ((startup user database).ShownBy q ↔ (startup user database).Within) := by
  have hok := (reachable_ok hd).1
  obtain ⟨haw₁, -, hmax₁, hlog₁, -⟩ := acceptInput_same ha
  have hres₁ : d₁.resid = s.enc ++ [] := by rw [acceptInput_resid hok ha, hres, List.nil_append, List.append_nil]
  obtain ⟨hstep, hok₂, hres₂⟩ := feedStep_startup (acceptInput_ok hok ha) (haw₁.trans hs)
    (by unfold Startup.Fits; rw [hmax₁]; exact hfit) hres₁
  obtain ⟨-, -, -, -, -, haw₂, -, -⟩ := handleStartup_same d₁ s.body s.len
  obtain ⟨-, hlog₂⟩ := parseStartupBody_seen d₁ s.body s.len
  have hstop : Loops _ (Ctx.handleFrames _ []) :=
    loops_frames hok₂ haw₂ (fun f hf => absurd hf List.not_mem_nil) hres₂
  refine ⟨_, _, ⟨d₁, ha, .again hstep hstop⟩, hlog₂.trans (by rw [hlog₁]), ?_⟩
  have hpairs : s.body = wr32Be Ctx.proto30 ++
      encPairs [(keyUser, user.getD CStr.empty), (keyDatabase, database.getD CStr.empty)] ++ [0] := by
    rw [hbody]
    simp only [startupBody, encPairs, List.flatMap_cons, List.flatMap_nil, List.append_nil, List.append_assoc]
  have hkeys : ∀ kv ∈ [(keyUser, user.getD CStr.empty), (keyDatabase, database.getD CStr.empty)], 0 < kv.1.length := by
    intro kv hkv
    simp only [List.mem_cons, List.not_mem_nil, or_false] at hkv
    rcases hkv with rfl | rfl
    · show 0 < keyUser.length
      decide
    · show 0 < keyDatabase.length
      decide
  have hfuel : 2 ≤ s.body.length := by
    have := s.version
    omega
  have hloop := startupLoop_pairs hkeys (wr32Be Ctx.proto30) hpairs s.body.length hfuel CStr.empty CStr.empty
  have hne : keyUser ≠ keyDatabase := by decide
  have hne' : keyDatabase ≠ keyUser := by decide
  simp only [LastWrite.lastOf, copiedFor, if_neg hne, if_neg hne', if_true, Option.none_or, Option.or_none,
    Option.getD_some] at hloop
  change startupLoop s.body s.body.length 4 _ _ = _ at hloop
  rw [hloop]
  simp only [ShownBy, Within, true_and, List.cons.injEq, and_true]
  rw [copyCstr_eq_iff (by decide), copyCstr_eq_iff (by decide)]

end TextSend

/-- **A server's event shows the arguments of a call exactly when they are within its limits.** The
call has returned 0 and emitted these bytes; the server is in the right phase, has no input left
over and takes a message of this length. -/
theorem limits_agree_iff {c c₁ d d₁ : Ctx} {s : TextSend} {emitted : Bytes} (ha : c.allocs = [])
    (hrun : s.run c = (c₁, 0)) (hout : c₁.output = c.output ++ emitted) (hd : Reachable d) (hr : d.role = .server)
    (hphase : d.startupSeen = !s.isStartup) (hres : d.resid = []) (hacc : d.acceptInput emitted = some d₁)
    (hmax : s.frameLen emitted ≤ d.maxMessageSize) (hlen : s.frameLen emitted < 2 ^ 32) :
    ∃ d' q, Feeds d emitted d' ∧ d'.log = d.log ++ [q] ∧ (s.ShownBy q ↔ s.Within) := by
  have haw : d.awaitsStartup = s.isStartup := by
    simp [Ctx.awaitsStartup, hr, hphase]
  cases hst : s.isStartup with
  | false =>
    have hemit : emitted = Ctx.msgHeader s.message.type.byte s.message.body.length ++ s.message.body :=
      List.append_cancel_left (hout.symm.trans (s.emits hst ha hrun))
    have hel : emitted.length = s.message.body.length + 5 := by
      rw [hemit]
      simp [Ctx.msgHeader]
      omega
    simp only [TextSend.frameLen, hst, Bool.false_eq_true, if_false, hel] at hmax hlen
    have hf : emitted = Frame.enc ⟨s.message.type.byte, s.message.body, by omega⟩ := hemit
    rw [hf] at hacc ⊢
    obtain ⟨-, hrole, -, -, -⟩ := acceptInput_same hacc
    exact TextSend.frame_reported hd (haw.trans hst) hres hacc hmax (s.reported hst (hrole.trans hr))
  | true =>
    cases s with
    | startup user database =>
      have hclient : c.role = .client := by
        by_contra hne
        have hrefused : c.sendStartup user database = (c, -1) := if_pos hne
        change c.sendStartup user database = (c₁, 0) at hrun
        rw [hrefused] at hrun
        exact absurd (Prod.ext_iff.1 hrun).2 (show (-1 : ℤ) ≠ 0 by decide)
      have hemit := List.append_cancel_left (hout.symm.trans (send_startup ha hclient hrun).1)
      set body := startupBody (user.getD CStr.empty) (database.getD CStr.empty) with hbody
      have hel : emitted.length = body.length + 4 := by
        rw [hemit, List.length_append, wr32Be_length, Nat.add_comm]
      have hv : 4 ≤ body.length := by
        rw [hbody, startupBody_length]; omega
      simp only [TextSend.frameLen, hst, if_true, hel] at hmax hlen
      have hs : emitted = Startup.enc ⟨body, hv, hlen⟩ := hemit
      rw [hs] at hacc ⊢
      exact TextSend.startup_reported hd (haw.trans hst) hres hacc hmax hbody
    | _ => cases hst

/-! ## A name of 64 bytes -/

/-- A Describe of a statement whose name has `n` characters. -/
def describeName (n : ℕ) : TextSend := .describe (ch 'S') (some (longIdentity n))

/-- The encoder accepts a name of 64 bytes and emits it whole. -/
theorem describeName_emits {n : ℕ} (h : n ≤ 64) : ∃ c₁ emitted, (describeName n).run tinyClient = (c₁, 0) ∧
    c₁.output = tinyClient.output ++ emitted ∧
    emitted = Ctx.msgHeader (describeName n).message.type.byte (describeName n).message.body.length ++
      (describeName n).message.body ∧ emitted.length = n + 7 := by
  have hl : (longIdentity n).length = n := List.length_replicate
  have hmax : maxStmtName = 64 := rfl
  have hfit : ¬1 + ((longIdentity n).length + 1) > maxStmtName + 2 := by omega
  have hrun : ∃ c₁, (describeName n).run tinyClient = (c₁, 0) := by
    refine ⟨(tinyClient.emitMsg (ch 'D') (ch 'S' :: (longIdentity n).toBytes)).1, ?_⟩
    exact if_neg hfit
  obtain ⟨c₁, hrun⟩ := hrun
  refine ⟨c₁, _, hrun, TextSend.emits rfl rfl hrun, rfl, ?_⟩
  have hbody : (describeName n).message.body = ch 'S' :: (longIdentity n).toBytes := rfl
  rw [hbody]
  simp only [Ctx.msgHeader, List.length_append, List.length_cons, wr32Be_length, CStr.toBytes_length, hl]
  omega

theorem limits_agree_short : ∃ c₁ emitted d' q, (describeName 63).run tinyClient = (c₁, 0) ∧
    c₁.output = tinyClient.output ++ emitted ∧ Feeds (startedServer 16 128) emitted d' ∧
    d'.log = (startedServer 16 128).log ++ [q] ∧ (describeName 63).ShownBy q := by
  obtain ⟨c₁, emitted, hrun, hout, -, hlen⟩ := describeName_emits (n := 63) (by decide)
  obtain ⟨d₁, hacc⟩ := startedServer_accepts 16 128 emitted
  have hframe : (describeName 63).frameLen emitted = 69 := by
    show emitted.length - 1 = 69
    rw [hlen]
  obtain ⟨d', q, h1, h2, h3⟩ := limits_agree_iff rfl hrun hout (startedServer_reachable (by decide) (by decide)) rfl rfl rfl
    hacc (by rw [hframe]; decide) (by rw [hframe]; decide)
  exact ⟨c₁, emitted, d', q, hrun, hout, h1, h2, h3.2 (show (longIdentity 63).length ≤ 63 by decide)⟩

/-- The name arrives without its last byte. -/
theorem describeName_cut : ∃ c₁ emitted d' q, (describeName 64).run tinyClient = (c₁, 0) ∧
    c₁.output = tinyClient.output ++ emitted ∧ (describeName 64).frameLen emitted ≤ (startedServer 16 128).maxMessageSize ∧
    Feeds (startedServer 16 128) emitted d' ∧ d'.log = (startedServer 16 128).log ++ [q] ∧ ¬(describeName 64).ShownBy q := by
  obtain ⟨c₁, emitted, hrun, hout, hemit, hlen⟩ := describeName_emits (n := 64) (by decide)
  obtain ⟨d₁, hacc⟩ := startedServer_accepts 16 128 emitted
  have hl : (longIdentity 64).length = 64 := List.length_replicate
  have hbl : (describeName 64).message.body.length = 66 := by
    show (ch 'S' :: (longIdentity 64).toBytes).length = 66
    rw [List.length_cons, CStr.toBytes_length, hl]
  have hf : emitted = Frame.enc ⟨(describeName 64).message.type.byte, (describeName 64).message.body, by omega⟩ := hemit
  have hframe : (describeName 64).frameLen emitted = 70 := by
    show emitted.length - 1 = 70
    rw [hlen]
  rw [hf] at hacc
  obtain ⟨-, hrole, -, -, -⟩ := acceptInput_same hacc
  obtain ⟨d', q, h1, h2, h3⟩ := TextSend.frame_reported (startedServer_reachable (by decide) (by decide)) rfl rfl hacc
    (show (describeName 64).message.body.length + 4 ≤ 128 by omega) ((describeName 64).reported rfl hrole)
  rw [← hf] at h1
  refine ⟨c₁, emitted, d', q, hrun, hout, by rw [hframe]; decide, h1, h2, ?_⟩
  intro hq
  have := h3.1 hq
  change (longIdentity 64).length ≤ 63 at this
  omega

end Pqwire

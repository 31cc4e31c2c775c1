import Pqwire.Proof.Bind
import Pqwire.Proof.Frames
import Pqwire.Proof.Output
import Pqwire.Spec.Dialog

/-!
# Encoders and decoders of the frontend messages

* `send_message`: what the client appends to its output for a message.
* `handle_message`: how the server reports a message whose fields are within its limits.
* `send_startup`, `startupLoop_enc`: the same for the startup message.
-/

namespace Pqwire

open ByteMem

/-! ## Encoders -/

theorem appendOutput_all {c : Ctx} (ha : c.allocs = []) (data : Bytes) :
    (c.appendOutput data).output = c.output ++ data ∧ (c.appendOutput data).allocs = [] := by
  have hok : c.allocOk = true := by unfold Ctx.allocOk; rw [ha]; rfl
  obtain ⟨j, hj⟩ := appendOutput_allocs c data
  refine ⟨?_, by rw [hj, ha, List.drop_nil]⟩
  rcases appendOutput_cases c data with ⟨h, -⟩ | ⟨h, -⟩
  · exact h
  · rw [hok] at h; cases h

/-- Where allocation succeeds, the whole message is in the output. -/
theorem emitMsg_output {c : Ctx} (ha : c.allocs = []) (type : UInt8) (payload : Bytes) :
    (c.emitMsg type payload).1.output = c.output ++ (Ctx.msgHeader type payload.length ++ payload) ∧
      (c.emitMsg type payload).1.allocs = [] := by
  obtain ⟨h1, h2⟩ := appendOutput_all ha (Ctx.msgHeader type payload.length)
  unfold Ctx.emitMsg
  dsimp only
  split
  · rename_i hp
    rw [hp, List.append_nil]
    rw [hp] at h1 h2
    exact ⟨h1, h2⟩
  · obtain ⟨h3, h4⟩ := appendOutput_all h2 payload
    exact ⟨by rw [h3, h1, List.append_assoc], h4⟩

theorem emitMsg_all {c c' : Ctx} {type : UInt8} {payload : Bytes} {r : ℤ} (ha : c.allocs = [])
    (h : c.emitMsg type payload = (c', r)) :
    c'.output = c.output ++ (Ctx.msgHeader type payload.length ++ payload) ∧ c'.allocs = [] := by
  have hout := emitMsg_output ha type payload
  rw [h] at hout
  exact hout

/-- A helper that returns 0 behind a check has emitted its message. -/
theorem emitted_of_zero {c c' : Ctx} {P : Prop} [Decidable P] {type : UInt8} {payload : Bytes} (ha : c.allocs = [])
    (h : (if P then (c, -1) else c.emitMsg type payload) = (c', 0)) :
    c'.output = c.output ++ (Ctx.msgHeader type payload.length ++ payload) ∧ c'.allocs = [] := by
  split at h
  · exact absurd (Prod.ext_iff.1 h).2 (show (-1 : ℤ) ≠ 0 by decide)
  · exact emitMsg_all ha h

/-- **What the client appends for a message.** -/
theorem send_message {c c' : Ctx} {m : Send} {x : FrontMsg} (ha : c.allocs = []) (hx : m.message = some x)
    (h : m.run c = (c', 0)) :
    c'.output = c.output ++ (Ctx.msgHeader x.type.byte x.body.length ++ x.body) ∧ c'.allocs = [] := by
  cases m with
  | parse stmt sql oids n =>
    cases sql with
    | none => simp only [Send.message, reduceCtorEq] at hx
    | some sql =>
      have hbody : x.body = (stmt.getD CStr.empty).toBytes ++ sql.toBytes ++ wr16Be n.toNat ++
          (List.range n.toNat).flatMap fun i => wr32Be (oids.elim 0 (·.getD i 0)).toNat := by
        simp only [Send.message, Option.some.injEq] at hx
        simp only [← hx, FrontMsg.body, List.length_map, List.length_range, List.flatMap_map]
      have htype : x.type = .parse := by
        simp only [Send.message, Option.some.injEq] at hx
        rw [← hx]
        rfl
      rw [hbody, htype]
      exact emitted_of_zero ha h
  | describe t name =>
    cases hx
    exact emitted_of_zero ha h
  | execute portal maxRows =>
    cases hx
    exact emitted_of_zero ha h
  | close t name =>
    cases hx
    exact emitted_of_zero ha h
  | sync =>
    cases hx
    exact emitMsg_all ha h
  | flush =>
    cases hx
    exact emitMsg_all ha h
  | terminate =>
    cases hx
    exact emitMsg_all ha h
  | _ => simp only [Send.message, reduceCtorEq] at hx

/-! ## Decoders -/

theorem readOids_enc (pre rest : Bytes) (oids : List UInt32) :
    readOids (pre ++ (oids.flatMap fun o => wr32Be o.toNat) ++ rest) oids.length pre.length = oids := by
  induction oids generalizing pre with
  | nil => rfl
  | cons o os ih =>
    have hb : pre ++ ((o :: os).flatMap fun o => wr32Be o.toNat) ++ rest =
        pre ++ wr32Be o.toNat ++ ((os.flatMap fun o => wr32Be o.toNat) ++ rest) := by
      simp only [List.flatMap_cons, List.append_assoc]
    have hrec := ih (pre ++ wr32Be o.toNat)
    rw [List.length_append, wr32Be_length, List.append_assoc] at hrec
    rw [hb, List.length_cons, readOids, if_pos (by simp only [List.length_append, wr32Be_length]; omega), rd32Be_at, hrec,
      Nat.mod_eq_of_lt o.toNat_lt, UInt32.ofNat_toNat]

theorem copyCstr_self {n : ℕ} {s : CStr} (h : s.length < n) : copyCstr n s = s := CStr.take_of_length_le (by omega)

/-- The first types of a list, when the server has room for no more. -/
theorem readOids_take (pre : Bytes) (oids : List UInt32) (k : ℕ) :
    readOids (pre ++ oids.flatMap fun o => wr32Be o.toNat) (min oids.length k) pre.length = oids.take k := by
  have h := readOids_enc pre ((oids.drop k).flatMap fun o => wr32Be o.toNat) (oids.take k)
  rwa [List.append_assoc, ← List.flatMap_append, List.take_append_drop, List.length_take, Nat.min_comm] at h

theorem parseOf_enc (stmt sql : CStr) (oids : List UInt32) (h : oids.length < 2 ^ 16) :
    parseOf (stmt.toBytes ++ sql.toBytes ++ wr16Be oids.length ++ oids.flatMap fun o => wr32Be o.toNat) =
      some ⟨copyCstr maxStmtName stmt, copyCstr maxQueryLen sql, min oids.length maxParamTypes,
        oids.take maxParamTypes⟩ := by
  have hoids := readOids_take (stmt.toBytes ++ sql.toBytes ++ wr16Be oids.length) oids maxParamTypes
  simp only [List.length_append, CStr.toBytes_length, wr16Be_length] at hoids
  set tail := oids.flatMap fun o => wr32Be o.toNat with htail
  have hc := readCstr_names stmt sql (wr16Be oids.length ++ tail)
  rw [← List.append_assoc] at hc
  have hrd : rd16Be (stmt.toBytes ++ sql.toBytes ++ wr16Be oids.length ++ tail) (stmt.length + 1 + (sql.length + 1)) =
      oids.length := by
    have := rd16Be_at (stmt.toBytes ++ sql.toBytes) oids.length tail
    rwa [List.length_append, CStr.toBytes_length, CStr.toBytes_length, Nat.mod_eq_of_lt h] at this
  unfold parseOf
  simp only [hc.1, hc.2, Option.bind_eq_bind, Option.bind_some, hrd, hoids]
  rw [if_pos (by simp only [List.length_append, CStr.toBytes_length, wr16Be_length]; omega)]
  rfl

theorem targetName_enc (t : UInt8) (name : CStr) : targetName (t :: name.toBytes) = some (t, copyCstr maxStmtName name) := by
  have hc := readCstr_toBytes name []
  rw [List.append_nil] at hc
  simp only [targetName, hc]

theorem executeOf_enc (portal : CStr) (n : UInt32) :
    executeOf (portal.toBytes ++ wr32Be n.toNat) = some ⟨copyCstr maxPortalName portal, n⟩ := by
  have hrd : rd32Be (portal.toBytes ++ wr32Be n.toNat) (portal.length + 1) = n.toNat := by
    have := rd32Be_at portal.toBytes n.toNat []
    rwa [List.append_nil, CStr.toBytes_length, Nat.mod_eq_of_lt n.toNat_lt] at this
  unfold executeOf
  simp only [readCstr_toBytes, Option.bind_eq_bind, Option.bind_some, hrd, UInt32.ofNat_toNat]
  rw [if_pos (by simp only [List.length_append, CStr.toBytes_length, wr32Be_length]; omega)]
  rfl

/-- **How the server reports a message.** -/
theorem handle_message {c : Ctx} {x : FrontMsg} {ev : Event} (hr : c.role = .server) (hs : x.Small)
    (he : x.event = some ev) : handleMessage c x.type.byte 5 x.body = c.enqueueEvent ev x.body := by
  rw [handleMessage_front hr]
  cases x with
  | parse stmt sql oids h =>
    cases he
    obtain ⟨h1, h2, h3⟩ := hs
    have hof := parseOf_enc stmt sql oids h
    rw [copyCstr_self h1, copyCstr_self h2, min_eq_left h3, List.take_of_length_le h3] at hof
    change parseOf (FrontMsg.body (.parse stmt sql oids h)) = _ at hof
    simp only [handleFrontend, parseParseMsg, FrontMsg.type, hof]
  | describe t name =>
    cases he
    simp only [handleFrontend, parseDescribeMsg, FrontMsg.type, FrontMsg.body, targetName_enc, copyCstr_self hs]
  | execute portal n =>
    cases he
    simp only [handleFrontend, parseExecuteMsg, FrontMsg.type, FrontMsg.body, executeOf_enc, copyCstr_self hs]
  | close t name =>
    cases he
    simp only [handleFrontend, parseCloseMsg, FrontMsg.type, FrontMsg.body, targetName_enc, copyCstr_self hs]
  | sync => cases he; rfl
  | flush => cases he; rfl
  | terminate => cases he; rfl
  | query => cases he
  | bind => cases he

/-! ## Startup -/

theorem startupBody_length (user database : CStr) :
    (startupBody user database).length = 4 + 5 + (user.length + 1) + 9 + (database.length + 1) + 1 := by
  have h1 : keyUser.length = 4 := rfl
  have h2 : keyDatabase.length = 8 := rfl
  simp only [startupBody, List.length_append, wr32Be_length, CStr.toBytes_length, List.length_singleton, h1, h2]

theorem send_startup {c c' : Ctx} {user database : Option CStr} (ha : c.allocs = []) (hr : c.role = .client)
    (h : c.sendStartup user database = (c', 0)) :
    c'.output = c.output ++ (wr32Be ((startupBody (user.getD CStr.empty) (database.getD CStr.empty)).length + 4) ++
      startupBody (user.getD CStr.empty) (database.getD CStr.empty)) ∧ c'.allocs = [] := by
  unfold Ctx.sendStartup at h
  rw [if_neg (by simp [hr])] at h
  dsimp only at h
  split at h
  · exact absurd (Prod.ext_iff.1 h).2 (show (-1 : ℤ) ≠ 0 by decide)
  split at h
  · exact absurd (Prod.ext_iff.1 h).2 (show (-1 : ℤ) ≠ 0 by decide)
  have hp : 4 + 4 + 5 + ((user.getD CStr.empty).length + 1) + 9 + ((database.getD CStr.empty).length + 1) + 1 =
      (startupBody (user.getD CStr.empty) (database.getD CStr.empty)).length + 4 := by
    rw [startupBody_length]
    omega
  have hc : c.appendOutput _ = c' := (Prod.ext_iff.1 h).1
  rw [← hc, hp]
  simp only [startupBody, List.append_assoc]
  exact appendOutput_all ha _

/-- A key and its value at `off`. -/
theorem startupLoop_pair {body pre rest : Bytes} {key val user db : CStr} {n : ℕ} (hkey : 0 < key.length)
    (hb : body = pre ++ (key.toBytes ++ (val.toBytes ++ rest))) :
    startupLoop body (n + 1) pre.length user db =
      if key = keyUser then startupLoop body n (pre ++ key.toBytes ++ val.toBytes).length (copyCstr 128 val) db
      else if key = keyDatabase then startupLoop body n (pre ++ key.toBytes ++ val.toBytes).length user (copyCstr 128 val)
      else startupLoop body n (pre ++ key.toBytes ++ val.toBytes).length user db := by
  have hlen : body.length = pre.length + (key.length + 1) + (val.length + 1) + rest.length := by
    rw [hb]
    simp only [List.length_append, CStr.toBytes_length]
    omega
  have h1 : readCstr (body.drop pre.length) = some (key, key.length + 1) := by
    rw [hb, List.drop_left]
    exact readCstr_toBytes key _
  have h2 : readCstr (body.drop (pre.length + (key.length + 1))) = some (val, val.length + 1) := by
    have hb' : body = (pre ++ key.toBytes) ++ (val.toBytes ++ rest) := by rw [hb, List.append_assoc]
    have hl : pre.length + (key.length + 1) = (pre ++ key.toBytes).length := by
      rw [List.length_append, CStr.toBytes_length]
    rw [hl, hb', List.drop_left]
    exact readCstr_toBytes val _
  have hoff : pre.length + (key.length + 1) + (val.length + 1) = (pre ++ key.toBytes ++ val.toBytes).length := by
    simp only [List.length_append, CStr.toBytes_length]
  rw [startupLoop, if_pos (by omega), h1]
  dsimp only
  rw [if_neg (by omega), h2]
  dsimp only
  rw [hoff]

/-- **The server reads the names of a startup message.** -/
theorem startupLoop_enc {user database : CStr} (hu : user.length ≤ 127) (hd : database.length ≤ 127) :
    startupLoop (startupBody user database) (startupBody user database).length 4 CStr.empty CStr.empty =
      (user, database) := by
  have hlen := startupBody_length user database
  obtain ⟨n, hn⟩ : ∃ n, (startupBody user database).length = n + 1 + 1 + 1 := ⟨(startupBody user database).length - 3, by omega⟩
  have h1 : startupBody user database = wr32Be Ctx.proto30 ++ (keyUser.toBytes ++ (user.toBytes ++
      (keyDatabase.toBytes ++ database.toBytes ++ [0]))) := by
    simp only [startupBody, List.append_assoc]
  have h2 : startupBody user database = (wr32Be Ctx.proto30 ++ keyUser.toBytes ++ user.toBytes) ++
      (keyDatabase.toBytes ++ (database.toBytes ++ [0])) := by
    simp only [startupBody, List.append_assoc]
  have hend : ¬(wr32Be Ctx.proto30 ++ keyUser.toBytes ++ user.toBytes ++ keyDatabase.toBytes ++ database.toBytes).length + 1 <
      (startupBody user database).length := by
    simp only [startupBody, List.length_append, List.length_singleton]
    omega
  rw [hn]
  change startupLoop (startupBody user database) (n + 1 + 1 + 1) (wr32Be Ctx.proto30).length CStr.empty CStr.empty = _
  rw [startupLoop_pair (by decide) h1, if_pos rfl, startupLoop_pair (by decide) h2, if_neg (by decide), if_pos rfl,
    startupLoop, if_neg hend, copyCstr_self (by omega), copyCstr_self (by omega)]

end Pqwire

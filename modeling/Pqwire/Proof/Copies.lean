import Pqwire.Proof.Chunk
import Pqwire.Spec.Copies

/-!
# Copies stay inside the buffers

`Ctx.Capped` is the invariant: no length is larger than the capacity it is meant for. Under it
every call makes only copies inside the capacities of the moment, and leaves it as it was, whether
its allocations succeed or not.

* `Copies.send_sends`: the send helpers.
* `Copies.feedLoop_yields`: the framing loop, for any number of rounds.
* `buffers_in_capacity`: every call of every run.
-/

namespace Pqwire

open ByteMem Traced

/-- **The lengths are within the capacities.** -/
structure Ctx.Capped (c : Ctx) : Prop where
  input : c.inputLen ≤ c.inputCap
  output : c.output.length ≤ c.outputCap
  arena : c.rowArenaUsed ≤ rowArenaSize

namespace Copies

variable {c : Ctx}

/-! ## Copies -/

theorem touch_yields {b : Buffer} {off len : ℕ} (h : off + len ≤ b.cap c) : Yields Copy.InCap (touch c b off len) () := by
  refine ⟨rfl, ?_⟩
  intro a ha
  rw [List.mem_singleton.1 ha]
  intro i _ hi
  exact lt_of_lt_of_le hi h

theorem moveDown_yields {b : Buffer} {src len : ℕ} (h : src + len ≤ b.cap c) :
    Yields Copy.InCap (moveDown c b src len) () :=
  (touch_yields h).bind (touch_yields (by omega))

theorem sizeSub_eq {a b : ℕ} (h : b ≤ a) : Mem.sizeSub a b = a - b := if_pos h

/-! ## Output -/

/-- The output that `ensure_output` has made room in. -/
theorem ensureOutput_room {c' : Ctx} {need : ℕ} (hc : c.output.length ≤ c.outputCap) (h : c.ensureOutput need = some c') :
    c'.output = c.output ∧ c'.output.length + need ≤ c'.outputCap := by
  unfold Ctx.ensureOutput at h
  split at h
  · cases h
    exact ⟨rfl, by assumption⟩
  split at h
  · cases h
    refine ⟨rfl, ?_⟩
    show c.output.length + need ≤ c.outputCap * 2 + need + 1024
    omega
  · cases h

theorem appendOutput_yields (hc : c.output.length ≤ c.outputCap) (data : Bytes) :
    Yields Copy.InCap (appendOutput c data) (c.appendOutput data) := by
  unfold appendOutput Ctx.appendOutput
  cases h : c.ensureOutput data.length with
  | none => exact .pure _
  | some c' => exact (touch_yields (ensureOutput_room hc h).2).bind (.pure _)

/-- An append keeps the output within its capacity, also where the buffer could not grow. -/
theorem appendOutput_fits (hc : c.output.length ≤ c.outputCap) (data : Bytes) :
    (c.appendOutput data).output.length ≤ (c.appendOutput data).outputCap := by
  unfold Ctx.appendOutput
  cases h : c.ensureOutput data.length with
  | none => exact hc
  | some c' =>
    show (c'.output ++ data).length ≤ c'.outputCap
    rw [List.length_append]
    exact (ensureOutput_room hc h).2

/-! ## Send helpers -/

/-- The program returns what the helper returns, copies inside the capacities and leaves the
output within its own. -/
def Sends (m : Prog (Ctx × ℤ)) (v : Ctx × ℤ) : Prop := Yields Copy.InCap m v ∧ v.1.output.length ≤ v.1.outputCap

theorem Sends.refused (hc : c.output.length ≤ c.outputCap) : Sends (return (c, -1)) (c, -1) := ⟨.pure _, hc⟩

/-- A check in front of the rest. -/
theorem Sends.check {P : Prop} [Decidable P] {m : Prog (Ctx × ℤ)} {v : Ctx × ℤ} (hc : c.output.length ≤ c.outputCap)
    (h : Sends m v) : Sends (if P then return (c, -1) else m) (if P then (c, -1) else v) := by
  split
  · exact .refused hc
  · exact h

theorem Sends.append (hc : c.output.length ≤ c.outputCap) (data : Bytes) :
    Sends (do return (← appendOutput c data, 0)) (c.appendOutput data, 0) :=
  ⟨(appendOutput_yields hc data).map, appendOutput_fits hc data⟩

/-- One helper after another, the second only where the first has returned 0. -/
theorem Sends.andThen {m : Prog (Ctx × ℤ)} {v : Ctx × ℤ} {m' : Ctx → Prog (Ctx × ℤ)} {f : Ctx → Ctx × ℤ}
    (h : Sends m v) (h' : ∀ c : Ctx, c.output.length ≤ c.outputCap → Sends (m' c) (f c)) :
    Sends (m >>= fun r => if r.2 ≠ 0 then return (r.1, -1) else m' r.1) (if v.2 ≠ 0 then (v.1, -1) else f v.1) := by
  obtain ⟨hm, hv⟩ := h
  have hrest : Sends (if v.2 ≠ 0 then return (v.1, -1) else m' v.1) (if v.2 ≠ 0 then (v.1, -1) else f v.1) :=
    .check hv (h' v.1 hv)
  exact ⟨hm.bind hrest.1, hrest.2⟩

theorem emitMsg_sends (hc : c.output.length ≤ c.outputCap) (type : UInt8) (payload : Bytes) :
    Sends (emitMsg c type payload) (c.emitMsg type payload) := by
  have hhead := appendOutput_yields hc (Ctx.msgHeader type payload.length)
  have hfits := appendOutput_fits hc (Ctx.msgHeader type payload.length)
  unfold emitMsg Ctx.emitMsg
  dsimp only
  by_cases hp : payload = []
  · simp only [if_pos hp]
    exact ⟨hhead.map, hfits⟩
  · simp only [if_neg hp]
    exact ⟨hhead.bind (appendOutput_yields hfits payload).map, appendOutput_fits hfits payload⟩

theorem sendQuery_sends (hc : c.output.length ≤ c.outputCap) (sql : Option CStr) :
    Sends (sendQuery c sql) (c.sendQuery sql) := by
  cases sql with
  | none => exact .refused hc
  | some sql => exact emitMsg_sends hc _ _

theorem sendParse_sends (hc : c.output.length ≤ c.outputCap) (statement query : Option CStr) (oids : Option (List UInt32))
    (n : UInt16) : Sends (sendParse c statement query oids n) (c.sendParse statement query oids n) := by
  cases query with
  | none => exact .refused hc
  | some query => exact .check hc (emitMsg_sends hc _ _)

theorem Takes.fits {c₁ : Ctx} (h : Takes c c₁) (hc : c.output.length ≤ c.outputCap) : c₁.output.length ≤ c₁.outputCap := by
  obtain ⟨k, rfl⟩ := h
  exact hc

theorem sendBind_sends (hc : c.output.length ≤ c.outputCap) (portal statement : Option CStr) (formats : Option (List Int16))
    (nFormats : UInt16) (lengths : Option (List Int32)) (values : Option (List (Option Bytes))) (nParams : UInt16)
    (resultFormats : Option (List Int16)) (nResultFormats : UInt16) :
    Sends (sendBind c portal statement formats nFormats lengths values nParams resultFormats nResultFormats)
      (c.sendBind portal statement formats nFormats lengths values nParams resultFormats nResultFormats) := by
  have hc' : c.allocated.output.length ≤ c.allocated.outputCap := hc
  refine .check hc' (.check hc' (.check hc' (.check hc' ?_)))
  set p := (portal.getD CStr.empty).toBytes ++ (statement.getD CStr.empty).toBytes ++ wr16Be nFormats.toNat ++
    Ctx.codeBytes formats nFormats.toNat ++ wr16Be nParams.toNat
  have hloop := putFields_takes ((List.range' 0 nParams.toNat).map (bindField lengths values)) c.allocated p
    (64 + nParams.toNat * 256)
  rw [← bindParamLoop_eq] at hloop
  -- the loop may have used up allocations, whatever it returns
  generalize Ctx.bindParamLoop lengths values nParams.toNat 0 c.allocated p (64 + nParams.toNat * 256) = r at hloop ⊢
  obtain ⟨c₁, _ | ⟨q, cap⟩⟩ := r
  · exact .refused (Takes.fits hloop hc')
  · exact .check (Takes.fits hloop hc') (emitMsg_sends (Takes.fits hloop hc') _ _)

theorem sendTarget_sends (hc : c.output.length ≤ c.outputCap) (type target : UInt8) (name : Option CStr) :
    Sends (sendTarget c type target name) (c.sendTarget type target name) := .check hc (emitMsg_sends hc _ _)

theorem sendExecute_sends (hc : c.output.length ≤ c.outputCap) (portal : Option CStr) (maxRows : UInt32) :
    Sends (sendExecute c portal maxRows) (c.sendExecute portal maxRows) := .check hc (emitMsg_sends hc _ _)

theorem sendDataRowMulti_sends (hc : c.output.length ≤ c.outputCap) (lengths : Option (List Int32))
    (values : Option (List (Option Bytes))) (nCols : UInt16) :
    Sends (sendDataRowMulti c lengths values nCols) (c.sendDataRowMulti lengths values nCols) := by
  have hc' : c.allocated.output.length ≤ c.allocated.outputCap := hc
  refine .check hc' ?_
  have hloop := putFields_takes ((List.range' 0 nCols.toNat).map (rowField lengths values)) c.allocated
    (wr16Be nCols.toNat) (64 + nCols.toNat * 256)
  rw [dataRowCols_eq]
  generalize putFields ((List.range' 0 nCols.toNat).map (rowField lengths values)) c.allocated (wr16Be nCols.toNat)
    (64 + nCols.toNat * 256) = r at hloop ⊢
  obtain ⟨c₁, _ | ⟨q, cap⟩⟩ := r
  · exact .refused (Takes.fits hloop hc')
  · exact emitMsg_sends (Takes.fits hloop hc') _ _

theorem sendStartup_sends (hc : c.output.length ≤ c.outputCap) (user database : Option CStr) :
    Sends (sendStartup c user database) (c.sendStartup user database) :=
  .check hc (.check hc (.check hc (.append hc _)))

theorem sendUnnamedPipeline_sends (hc : c.output.length ≤ c.outputCap) (query : Option CStr) (oids : Option (List UInt32))
    (nOids : UInt16) (formats : Option (List Int16)) (nFormats : UInt16) (lengths : Option (List Int32))
    (values : Option (List (Option Bytes))) (nParams : UInt16) (resultFormats : Option (List Int16))
    (nResultFormats : UInt16) (maxRows : UInt32) :
    Sends (sendUnnamedPipeline c query oids nOids formats nFormats lengths values nParams resultFormats nResultFormats maxRows)
      (c.sendUnnamedPipeline query oids nOids formats nFormats lengths values nParams resultFormats nResultFormats maxRows) :=
  (sendParse_sends hc _ _ _ _).andThen fun _ h₁ =>
    (sendBind_sends h₁ _ _ _ _ _ _ _ _ _).andThen fun _ h₂ =>
      (sendExecute_sends h₂ _ _).andThen fun _ h₃ => emitMsg_sends h₃ _ _

/-- **The send helpers copy inside the output buffer.** -/
theorem send_sends (hc : c.output.length ≤ c.outputCap) (s : Send) : Sends (send c s) (s.run c) := by
  cases s with
  | startup u d => exact sendStartup_sends hc u d
  | query sql => exact sendQuery_sends hc sql
  | call procedure =>
    cases procedure with
    | none => exact .refused hc
    | some p => exact sendQuery_sends hc _
  | parse s q o n => exact sendParse_sends hc s q o n
  | bind p s f nf l v n r nr => exact sendBind_sends hc p s f nf l v n r nr
  | bindParams p s ps n r nr => exact .check hc (.check hc (sendBind_sends hc _ _ _ _ _ _ _ _ _))
  | bindRewriteIdentity mem b p s slot i bin =>
    show Sends (sendBindRewriteIdentity c mem b p s slot i bin) (c.sendBindRewriteIdentity mem b p s slot i bin)
    unfold sendBindRewriteIdentity Ctx.sendBindRewriteIdentity
    cases bindRewriteIdentityZerocopy mem b p s slot i bin 8192 with
    | none => exact .refused hc
    | some out => exact .append hc out
  | describe t n => exact sendTarget_sends hc (ch 'D') t n
  | close t n => exact sendTarget_sends hc (ch 'C') t n
  | execute p m => exact sendExecute_sends hc p m
  | unnamedPipeline q o no f nf l v n r nr m => exact sendUnnamedPipeline_sends hc q o no f nf l v n r nr m
  | rowDescription cols =>
    cases cols with
    | none => exact .refused hc
    | some cols =>
      show Sends (sendRowDescription c (some cols)) (c.sendRowDescription (some cols))
      unfold sendRowDescription Ctx.sendRowDescription
      dsimp only
      cases Ctx.rowDescCols (cols.take maxRowColumns) (wr16Be (cols.take maxRowColumns).length) with
      | none => exact .refused hc
      | some p => exact emitMsg_sends hc _ p
  | dataRow d format oid =>
    cases d with
    | none => exact emitMsg_sends hc _ _
    | some d => exact .check hc (emitMsg_sends hc _ _)
  | dataRowMulti l v n => exact sendDataRowMulti_sends hc l v n
  | commandComplete tag =>
    cases tag with
    | none => exact .refused hc
    | some tag => exact emitMsg_sends hc _ _
  | errorResponse severity sqlstate message =>
    show Sends (sendErrorResponse c severity sqlstate message) (c.sendErrorResponse severity sqlstate message)
    unfold sendErrorResponse Ctx.sendErrorResponse
    cases Ctx.putField (ch 'S') (severity.getD Ctx.defaultSeverity) [] with
    | none => exact .refused hc
    | some p₁ =>
      cases hcode : Ctx.putField (ch 'C') (sqlstate.getD Ctx.defaultSqlstate) p₁ with
      | none =>
        simp only [Option.bind_eq_bind, Option.bind_some, hcode, Option.bind_none]
        exact .refused hc
      | some p₂ =>
        simp only [Option.bind_eq_bind, Option.bind_some, hcode]
        cases Ctx.putField (ch 'M') (message.getD Ctx.defaultMessage) p₂ with
        | none => exact .refused hc
        | some p => exact .check hc (emitMsg_sends hc _ _)
  | readyForQuery => exact emitMsg_sends (c := { c with protoState := .ready }) hc _ _
  | _ => exact emitMsg_sends hc _ _

/-! ## Parsers -/

/-- The columns are copied from inside the body to behind the fill mark of the arena. -/
theorem dataRowLoop_yields {base : ℕ} {body : Bytes} (hb : base + body.length ≤ c.inputCap) (n off : ℕ) (arena : Bytes)
    (used : ℕ) : Yields Copy.InCap (dataRowLoop c base body n off arena used) (Pqwire.dataRowLoop body n off arena used) := by
  induction n generalizing off arena used with
  | zero => exact .pure _
  | succ n ih =>
    unfold dataRowLoop Pqwire.dataRowLoop
    dsimp only
    split
    · split
      · exact (ih _ _ _).map
      split
      · exact .pure _
      rename_i hin
      split
      · exact (ih _ _ _).map
      · rename_i hroom
        have hread : base + (off + 4) + (toI32 (rd32Be body off)).toInt.toNat ≤ Buffer.inputBuf.cap c := by
          show _ ≤ c.inputCap
          omega
        have hwrite : used + (toI32 (rd32Be body off)).toInt.toNat ≤ Buffer.rowArena.cap c := Nat.le_of_not_lt hroom
        exact (touch_yields hread).bind ((touch_yields hwrite).bind (ih _ _ _).map)
    · exact .pure _

theorem parseDataRow_yields {base : ℕ} {body : Bytes} (hb : base + body.length ≤ c.inputCap) :
    Yields Copy.InCap (parseDataRow c base body) (Pqwire.parseDataRow c body) := by
  unfold parseDataRow Pqwire.parseDataRow
  split
  · exact .pure _
  · exact (dataRowLoop_yields hb _ _ _ _).map

theorem copyPayload_yields {base : ℕ} {body : Bytes} (hb : base + body.length ≤ c.inputCap) :
    Yields Copy.InCap (copyPayload c base body) () := by
  unfold copyPayload
  split
  · exact .pure _
  split
  · exact .pure _
  rename_i channel n hchannel
  split
  · exact .pure _
  · rename_i payload m hpayload
    -- the payload and its terminator lie behind the channel, inside the body
    have hn := readCstr_le hchannel
    have hm := readCstr_le hpayload
    have hlen := (readCstr_some hpayload).1
    have htake : (payload.take notifyPayloadMax).length ≤ payload.length := by
      rw [CStr.length, CStr.length]
      exact List.length_take_le' _ _
    rw [List.length_drop] at hn hm
    refine touch_yields ?_
    show _ ≤ c.inputCap
    omega

theorem handleMessage_yields {base : ℕ} {body : Bytes} (hb : base + body.length ≤ c.inputCap) (type : UInt8) :
    Yields Copy.InCap (handleMessage c type base body) (Pqwire.handleMessage c type base body) := by
  unfold handleMessage Pqwire.handleMessage
  cases c.role with
  | server => exact .pure _
  | client =>
    dsimp only
    cases BackType.all.find? (·.byte = type) with
    | none => exact .pure _
    | some t =>
      cases t with
      | dataRow => exact parseDataRow_yields hb
      | notification => exact (copyPayload_yields hb).map
      | _ => exact .pure _

/-! ## The framing loop -/

theorem acceptInput_yields (c : Ctx) (data : Bytes) :
    Yields Copy.InCap (acceptInput c data) (c.acceptInput data) := by
  unfold acceptInput Ctx.acceptInput
  split
  · split
    · have hroom : c.inputLen + data.length ≤
          Buffer.inputBuf.cap { c.allocated with inputCap := c.inputLen + data.length + 1024 } := by
        show _ ≤ c.inputLen + data.length + 1024
        omega
      exact (touch_yields hroom).bind (.pure _)
    · exact .pure _
  · rename_i hroom
    exact (touch_yields (Nat.le_of_not_lt hroom)).bind (.pure _)

theorem consume_yields (hc : c.inputLen ≤ c.inputCap) {n : ℕ} (hn : n ≤ c.inputLen) :
    Yields Copy.InCap (consume c n) (c.consume n) := by
  unfold consume
  rw [sizeSub_eq hn]
  refine (moveDown_yields ?_).bind (.pure _)
  show n + (c.inputLen - n) ≤ c.inputCap
  omega

theorem rejectFrame_yields (hc : c.inputLen ≤ c.inputCap) (mlen : ℕ) :
    Yields Copy.InCap (rejectFrame c mlen) (c.rejectFrame mlen) := by
  unfold rejectFrame Ctx.rejectFrame
  dsimp only
  split
  · rename_i hall
    have hmove : 1 + mlen + Mem.sizeSub (Mem.sizeSub c.inputLen 1) mlen ≤
        Buffer.inputBuf.cap (c.enqueueEvent .protocolError []) := by
      rw [sizeSub_eq (show 1 ≤ c.inputLen by omega), sizeSub_eq (show mlen ≤ c.inputLen - 1 by omega)]
      show _ ≤ c.inputCap
      omega
    exact (moveDown_yields hmove).bind (.pure _)
  · exact .pure _

theorem startupStep_yields (hc : c.inputLen ≤ c.inputCap) : Yields Copy.InCap (startupStep c) c.startupStep := by
  unfold startupStep Ctx.startupStep
  dsimp only
  split
  · exact .pure _
  split
  · exact .pure _
  split
  · exact .pure _
  · rename_i hlen
    have hh := parseStartupBody_handled c (slice c.inputBuf 4 (rd32Be c.inputBuf 0 - 4))
    refine (consume_yields ?_ ?_).map
    · rw [hh.inputLen, hh.inputCap]
      exact hc
    · rw [hh.inputLen]
      exact Nat.le_of_not_lt hlen

theorem typedStep_yields (hc : c.inputLen ≤ c.inputCap) : Yields Copy.InCap (typedStep c) c.typedStep := by
  unfold typedStep Ctx.typedStep
  dsimp only
  split
  · exact .pure _
  split
  · exact (rejectFrame_yields hc _).map
  rename_i hrange
  split
  · exact .pure _
  · rename_i hlen
    set body := slice c.inputBuf 5 (rd32Be c.inputBuf 1 - 4) with hbody
    have hh := handleMessage_handled c (c.inputBuf.getD 0 0) 5 body
    have hle : body.length ≤ rd32Be c.inputBuf 1 - 4 := by
      rw [hbody, slice]
      exact List.length_take_le _ _
    refine (handleMessage_yields ?_ _).bind (consume_yields ?_ ?_).map
    · omega
    · rw [hh.inputLen, hh.inputCap]
      exact hc
    · rw [hh.inputLen]
      exact Nat.le_of_not_lt hlen

theorem feedStep_yields (hc : c.inputLen ≤ c.inputCap) : Yields Copy.InCap (feedStep c) c.feedStep := by
  unfold feedStep Ctx.feedStep
  split
  · exact startupStep_yields hc
  · exact typedStep_yields hc

end Copies

/-! ## The invariant -/

theorem dataRowLoop_inArena (body : Bytes) (n off : ℕ) (arena : Bytes) {used : ℕ} (h : used ≤ rowArenaSize) :
    (dataRowLoop body n off arena used).used ≤ rowArenaSize := by
  induction n generalizing off arena used with
  | zero => exact h
  | succ n ih =>
    unfold dataRowLoop
    dsimp only
    split
    · split
      · exact ih _ _ h
      split
      · exact h
      split
      · exact ih _ _ h
      · rename_i hroom
        exact ih _ _ (Nat.le_of_not_lt hroom)
    · exact h

namespace Ctx.Capped

variable {c c' : Ctx}

/-- The input side may be replaced by any other within its capacity. -/
theorem withInput (h : c.Capped) {buf : Bytes} {len cap : ℕ} (hl : len ≤ cap) : (c.setInput buf len cap).Capped :=
  ⟨hl, h.output, h.arena⟩

theorem handled (h : c.Capped) {body : Bytes} (hh : Handled c body c') (ha : c'.rowArenaUsed ≤ rowArenaSize) :
    c'.Capped := by
  refine ⟨?_, ?_, ha⟩
  · rw [hh.inputLen, hh.inputCap]
    exact h.input
  · rw [hh.output, hh.outputCap]
    exact h.output

theorem handleMessage (h : c.Capped) (type : UInt8) (base : ℕ) (body : Bytes) :
    (Pqwire.handleMessage c type base body).Capped := by
  refine h.handled (handleMessage_handled c type base body) ?_
  have hh := handleMessage_handling c type base body
  generalize Pqwire.handleMessage c type base body = c' at hh ⊢
  cases hh with
  | rowDescription =>
    unfold parseRowDescription
    split <;> exact h.arena
  | dataRow =>
    unfold parseDataRow
    split
    · exact h.arena
    · exact dataRowLoop_inArena body _ _ _ h.arena
  | _ => exact h.arena

theorem parseStartupBody (h : c.Capped) (body : Bytes) : (Pqwire.parseStartupBody c body).Capped := by
  refine h.handled (parseStartupBody_handled c body) ?_
  unfold Pqwire.parseStartupBody
  split <;> exact h.arena

theorem enqueueEvent (h : c.Capped) (ev : Event) (frame : Bytes) : (c.enqueueEvent ev frame).Capped :=
  h.handled (enqueueEvent_handled c ev frame) h.arena

theorem consume (h : c.Capped) (n : ℕ) : (c.consume n).Capped := h.withInput ((Nat.sub_le _ _).trans h.input)

theorem rejectFrame (h : c.Capped) (mlen : ℕ) : (c.rejectFrame mlen).Capped := by
  have hle : c.inputLen - (1 + mlen) % 2 ^ 32 ≤ c.inputCap := (Nat.sub_le _ _).trans h.input
  unfold Ctx.rejectFrame
  dsimp only
  split
  · exact (h.enqueueEvent _ _).withInput hle
  · exact (h.enqueueEvent _ _).withInput (Nat.zero_le c.inputCap)

/-- **A round of the loop keeps the lengths within the capacities.** -/
theorem feedStep (h : c.Capped) (hs : c.feedStep = .again c' ∨ c.feedStep = .stop c') : c'.Capped := by
  have hr := feedStep_rounds c
  rcases hs with hs | hs
  · rw [hs] at hr
    cases hr with
    | startup => exact (h.parseStartupBody _).consume _
    | reject => exact h.rejectFrame _
    | message => exact (h.handleMessage _ _ _).consume _
  · rw [hs] at hr
    cases hr with
    | wait => exact h
    | badStartup => exact (h.enqueueEvent _ _).withInput (Nat.zero_le c.inputCap)

theorem acceptInput (h : c.Capped) {data : Bytes} (ha : c.acceptInput data = some c') : c'.Capped := by
  unfold Ctx.acceptInput at ha
  split at ha
  · split at ha
    · cases ha
      exact ⟨Nat.le_add_right _ _, h.output, h.arena⟩
    · cases ha
  · rename_i hroom
    cases ha
    exact ⟨Nat.le_of_not_lt hroom, h.output, h.arena⟩

end Ctx.Capped

/-! ## Loops and calls -/

namespace Copies

variable {c : Ctx}

/-- **The framing loop copies inside the buffers**, in as many rounds as it makes. -/
theorem feedLoop_yields (h : c.Capped) (fuel : ℕ) : Yields Copy.InCap (feedLoop fuel c) (Ctx.feedLoop fuel c) := by
  induction fuel generalizing c with
  | zero => exact .pure _
  | succ fuel ih =>
    have hround := feedStep_yields h.input
    unfold feedLoop Ctx.feedLoop
    cases hs : c.feedStep with
    | stop c' =>
      rw [hs] at hround
      exact hround.bind (.pure _)
    | again c' =>
      rw [hs] at hround
      exact hround.bind (ih (h.feedStep (.inl hs)))

theorem feedInput_yields (h : c.Capped) (fuel : ℕ) (data : Bytes) :
    Yields Copy.InCap (feedInput fuel c data) (c.feedInput fuel data) := by
  have hacc := acceptInput_yields c data
  unfold feedInput Ctx.feedInput
  cases ha : c.acceptInput data with
  | none =>
    rw [ha] at hacc
    exact hacc.bind (.pure _)
  | some c₁ =>
    rw [ha] at hacc
    exact hacc.bind (feedLoop_yields (h.acceptInput ha) fuel).map

theorem pipelineFeed_yields (h : c.Capped) (fuel : ℕ) (st : PipelineStatus) (msg : Bytes) :
    Yields Copy.InCap (pipelineFeedBackendMsg fuel c st msg) (Ctx.pipelineFeedBackendMsg fuel c st msg) := by
  have hfeed := feedInput_yields h fuel msg
  unfold pipelineFeedBackendMsg Ctx.pipelineFeedBackendMsg
  split
  · exact .pure _
  obtain ⟨st', rfq⟩ := pipelineObserveMsg st msg
  dsimp only
  split
  · exact .pure _
  cases hf : c.feedInput fuel msg with
  | none =>
    rw [hf] at hfeed
    exact hfeed.bind (.pure _)
  | some r =>
    rw [hf] at hfeed
    refine hfeed.bind ?_
    cases hd : Ctx.drainEvents fuel r.1 with
    | none =>
      simp only [hd, Option.bind_eq_bind, Option.bind_some, Option.bind_none, Option.map_none]
      exact .pure _
    | some c' =>
      simp only [hd, Option.bind_eq_bind, Option.bind_some, Option.map_some]
      exact .pure _

theorem getOutput_yields (h : c.output.length ≤ c.outputCap) (maxLen : ℕ) :
    Yields Copy.InCap (getOutput c maxLen) (c.getOutput maxLen) := by
  unfold getOutput Ctx.getOutput
  split
  · rename_i h0
    rw [h0]
    exact .pure _
  · have hmin : min c.output.length maxLen ≤ c.output.length := Nat.min_le_left _ _
    have hcopy : 0 + min c.output.length maxLen ≤ Buffer.outputBuf.cap c := by
      show _ ≤ c.outputCap
      omega
    have hmove : min c.output.length maxLen + Mem.sizeSub c.output.length (min c.output.length maxLen) ≤
        Buffer.outputBuf.cap c := by
      rw [sizeSub_eq hmin]
      show _ ≤ c.outputCap
      omega
    have htake : c.output.take (min c.output.length maxLen) = c.output.take maxLen := by
      rw [List.take_eq_take_iff]
      omega
    have hdrop : c.output.drop (min c.output.length maxLen) = c.output.drop maxLen := by
      rcases le_total c.output.length maxLen with hle | hle
      · rw [Nat.min_eq_left hle, List.drop_length, List.drop_eq_nil_of_le hle]
      · rw [Nat.min_eq_right hle]
    have hret : Yields Copy.InCap (pure (c.output.take (min c.output.length maxLen),
        { c with output := c.output.drop (min c.output.length maxLen) }) : Prog (Bytes × Ctx))
        (c.output.take maxLen, { c with output := c.output.drop maxLen }) := by
      rw [htake, hdrop]
      exact .pure _
    exact (touch_yields hcopy).bind ((moveDown_yields hmove).bind hret)

theorem startAuth_sends (h : c.output.length ≤ c.outputCap) (scram : Bool) (rand : ℕ → ℕ) :
    Sends (startAuth c scram rand) (c.startAuth scram rand) := by
  unfold startAuth Ctx.startAuth
  dsimp only
  refine .check h ?_
  split
  · cases clientFirst (scramSha256Init rand) 256 with
    | none => exact ⟨.pure _, h⟩
    | some first => exact .append (c := { c with authState := .clientFirst }) h _
  · exact ⟨.pure _, h⟩

end Copies

namespace Ctx.Capped

variable {c c' : Ctx}

theorem feedLoop (h : c.Capped) {fuel : ℕ} (hl : Ctx.feedLoop fuel c = some c') : c'.Capped :=
  Loops.keeps (P := Ctx.Capped) (fun _ _ hc hs => hc.feedStep hs) ⟨fuel, hl⟩ h

theorem feedInput (h : c.Capped) {fuel n : ℕ} {data : Bytes} (hf : c.feedInput fuel data = some (c', n)) : c'.Capped := by
  unfold Ctx.feedInput at hf
  split at hf
  · cases hf
    exact ⟨h.input, h.output, h.arena⟩
  · rename_i c₁ ha
    obtain ⟨c₂, hl, he⟩ := Option.map_eq_some_iff.1 hf
    cases he
    exact (h.acceptInput ha).feedLoop hl

theorem nextEvent (h : c.Capped) {q : Queued} (hn : c.nextEvent = some (q, c')) : c'.Capped := by
  unfold Ctx.nextEvent Ctx.dequeueEvent at hn
  split at hn
  · cases hn
  · cases hn
    split
    · exact ⟨h.input, h.output, Nat.zero_le _⟩
    · exact ⟨h.input, h.output, h.arena⟩

theorem drainEvents (h : c.Capped) {fuel : ℕ} (hd : Ctx.drainEvents fuel c = some c') : c'.Capped := by
  induction fuel generalizing c with
  | zero => cases hd
  | succ fuel ih =>
    unfold Ctx.drainEvents at hd
    split at hd
    · cases hd
      exact h
    · rename_i q c₁ hn
      exact ih (h.nextEvent hn) hd

theorem noteReady (h : c.Capped) : (Pqwire.noteReady c).Capped := ⟨h.input, h.output, h.arena⟩

theorem pipelineFeed (h : c.Capped) {fuel : ℕ} {st st' : PipelineStatus} {msg : Bytes} {r : ℤ}
    (hp : Ctx.pipelineFeedBackendMsg fuel c st msg = some (c', st', r)) : c'.Capped := by
  unfold Ctx.pipelineFeedBackendMsg at hp
  split at hp
  · cases hp
    exact h
  obtain ⟨st₁, rfq⟩ := pipelineObserveMsg st msg
  dsimp only at hp
  split at hp
  · cases hp
    exact h
  simp only [Option.bind_eq_bind, Option.bind_eq_some_iff] at hp
  obtain ⟨⟨c₁, n⟩, hf, c₂, hd, hp⟩ := hp
  have h₂ := (h.feedInput hf).drainEvents hd
  cases hp
  split
  · exact h₂.noteReady
  · exact h₂

/-- A call that touches the output side and the phases only. -/
theorem withOutput (h : c.Capped) (ho : OutputOnly c c') (hc : c'.output.length ≤ c'.outputCap) : c'.Capped := by
  refine ⟨?_, hc, ?_⟩
  · rw [ho]
    exact h.input
  · rw [ho]
    exact h.arena

theorem startAuth (h : c.Capped) (scram : Bool) (rand : ℕ → ℕ) : (c.startAuth scram rand).1.Capped := by
  have hfits := (Copies.startAuth_sends h.output scram rand).2
  unfold Ctx.startAuth at hfits ⊢
  split
  · exact h
  split
  · have h₁ : Capped { c with authState := .clientFirst } := ⟨h.input, h.output, h.arena⟩
    dsimp only
    cases clientFirst (scramSha256Init rand) 256 with
    | none => exact h₁
    | some first => exact h₁.withOutput (appendOutput_appendsOnly _ _).outputOnly (Copies.appendOutput_fits h₁.output _)
  · exact h

/-- **Every call keeps the lengths within the capacities.** -/
theorem call (h : c.Capped) {call : CtxCall} (hr : call.result c = some c') : c'.Capped := by
  cases call with
  | feedInput fuel data =>
    obtain ⟨r, hf, rfl⟩ := Option.map_eq_some_iff.1 hr
    exact h.feedInput hf
  | getOutput maxLen =>
    cases hr
    refine ⟨h.input, ?_, h.arena⟩
    show (c.output.drop maxLen).length ≤ c.outputCap
    rw [List.length_drop]
    exact (Nat.sub_le _ _).trans h.output
  | nextEvent =>
    cases hr
    cases hn : c.nextEvent with
    | none => exact h
    | some r => exact h.nextEvent hn
  | send s =>
    cases hr
    exact h.withOutput (send_outputOnly c s) (Copies.send_sends h.output s).2
  | startAuth scram rand =>
    cases hr
    exact h.startAuth scram rand
  | reset =>
    cases hr
    exact ⟨Nat.zero_le _, Nat.zero_le _, h.arena⟩
  | noteReady =>
    cases hr
    exact h.noteReady
  | pipelineFeed fuel st msg =>
    obtain ⟨r, hp, rfl⟩ := Option.map_eq_some_iff.1 hr
    exact h.pipelineFeed hp

end Ctx.Capped

/-- Every call returns what the model says, with copies inside the capacities only. -/
theorem CtxCall.prog_yields {c : Ctx} (h : c.Capped) (call : CtxCall) :
    Yields Copy.InCap (call.prog c) (call.result c) := by
  cases call with
  | feedInput fuel data => exact (Copies.feedInput_yields h fuel data).map
  | getOutput maxLen => exact (Copies.getOutput_yields h.output maxLen).map
  | send s => exact (Copies.send_sends h.output s).1.map
  | startAuth scram rand => exact (Copies.startAuth_sends h.output scram rand).1.map
  | pipelineFeed fuel st msg => exact (Copies.pipelineFeed_yields h fuel st msg).map
  | nextEvent => exact .pure _
  | reset => exact .pure _
  | noteReady => exact .pure _

theorem Called.capped {c : Ctx} (h : Called c) : c.Capped := by
  induction h with
  | create hc =>
    unfold createWithConfig at hc
    split at hc
    · cases hc
    split at hc
    · cases hc
      exact ⟨Nat.zero_le _, Nat.zero_le _, Nat.zero_le _⟩
    · cases hc
  | call call _ hr ih => exact ih.call hr

/-- **The buffers stay within their capacities.** After every sequence of public calls from
creation, whichever allocations fail: the input, the output and the row arena hold no more than
their buffers have room for; and whatever call comes next, every `memcpy` and `memmove` that it
makes on them reads and writes indices below the capacity of the moment only, also where its loop
does not return. -/
theorem buffers_in_capacity {c : Ctx} (h : Called c) :
    (c.inputLen ≤ c.inputCap ∧ c.output.length ≤ c.outputCap ∧ c.rowArenaUsed ≤ 65536) ∧
      ∀ call : CtxCall, (call.prog c).val = call.result c ∧ ∀ a ∈ (call.prog c).log, a.InCap := by
  have hc := h.capped
  exact ⟨⟨hc.input, hc.output, hc.arena⟩, fun call => call.prog_yields hc⟩

/-- A client that is fed a row: its column is copied from the input buffer to the arena. -/
theorem buffers_in_capacity_row : Called tinyClient ∧
    (⟨.rowArena, 0, 1, 65536⟩ : Copy) ∈ ((CtxCall.feedInput 3 [68, 0, 0, 0, 11, 0, 1, 0, 0, 0, 1, 7]).prog tinyClient).log ∧
    ∀ a ∈ ((CtxCall.feedInput 3 [68, 0, 0, 0, 11, 0, 1, 0, 0, 0, 1, 7]).prog tinyClient).log, a.InCap := by
  have hcalled : Called tinyClient := @Called.create .client { eventQueueSize := 1, maxMessageSize := 64 } [] _ rfl
  exact ⟨hcalled, by decide, ((buffers_in_capacity hcalled).2 _).2⟩

end Pqwire

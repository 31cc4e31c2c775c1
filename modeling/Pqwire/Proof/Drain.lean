import Pqwire.Proof.Filter
import Pqwire.Proof.Idle
import Pqwire.Proof.Mitm
import Pqwire.Spec.Drain

/-!
# Draining a backend agrees with feeding it

* `receive_settled`: what a backend message does to a client, but for the queue and the rows, does
  not depend on them.
* `drainsBackend_frames`, `arrivals_upTo`: the loop on what has arrived, and each time that bytes
  arrive.
* `recovery_agrees`: a proxy that cuts the stream with `pqwire_msg_peek` and a client that is fed it.
-/

namespace Pqwire

open ByteMem LastWrite

/-! ## The part of a client that messages settle -/

/-- The context with another queue and other rows. -/
def Ctx.setVolatile (c : Ctx) (events : RingBuf Queued) (log : List Queued) (arena : Bytes) (used : ℕ) : Ctx :=
  { c with events := events, log := log, rowArena := arena, rowArenaUsed := used }

theorem handleBackend_settled (c : Ctx) (events : RingBuf Queued) (log : List Queued) (arena : Bytes) (used base : ℕ)
    (body : Bytes) (t : BackType) :
    (handleBackend (c.setVolatile events log arena used) base body t).settled = (handleBackend c base body t).settled := by
  cases t with
  | authentication =>
    unfold handleBackend
    dsimp only
    split
    · rfl
    · rfl
  | rowDescription =>
    unfold handleBackend parseRowDescription
    dsimp only
    split
    · rfl
    · rfl
  | dataRow =>
    unfold handleBackend parseDataRow
    dsimp only
    split
    · rfl
    · rfl
  | notification =>
    unfold handleBackend parseNotificationResponse
    dsimp only
    split
    · rfl
    · rfl
  | _ => rfl

theorem setVolatile_of_settled {c d : Ctx} (h : c.settled = d.settled) :
    ∃ buf len cap events log arena used, d = (c.setVolatile events log arena used).setInput buf len cap := by
  refine ⟨d.inputBuf, d.inputLen, d.inputCap, d.events, d.log, d.rowArena, d.rowArenaUsed, ?_⟩
  have hback := congrArg (fun e : Ctx =>
    (e.setVolatile d.events d.log d.rowArena d.rowArenaUsed).setInput d.inputBuf d.inputLen d.inputCap) h
  exact hback.symm

/-- **What a message does to a client, but for queue and rows, does not depend on them.** -/
theorem receive_settled {c d : Ctx} (hr : c.role = .client) (h : c.settled = d.settled) (f : Frame) :
    (c.receive f).settled = (d.receive f).settled := by
  obtain ⟨buf, len, cap, events, log, arena, used, rfl⟩ := setVolatile_of_settled h
  have hload : (((c.setVolatile events log arena used).setInput buf len cap).receive f).settled =
      (handleMessage ((c.load f.enc).setVolatile events log arena used) f.type 5 f.body).settled := rfl
  have hself : (c.receive f).settled = (handleMessage (c.load f.enc) f.type 5 f.body).settled := rfl
  have hrole : (c.load f.enc).role = .client := hr
  have hrole' : ((c.load f.enc).setVolatile events log arena used).role = .client := hr
  rw [hload, hself]
  cases hfind : BackType.all.find? (·.byte = f.type) with
  | none =>
    unfold handleMessage
    rw [hrole, hrole', hfind]
    rfl
  | some t =>
    rw [← back_find_some hfind, handleMessage_back hrole, handleMessage_back hrole', handleBackend_settled]

theorem receiveAll_settled {c d : Ctx} (hr : c.role = .client) (h : c.settled = d.settled) (fs : List Frame) :
    (c.receiveAll fs).settled = (d.receiveAll fs).settled := by
  induction fs generalizing c d with
  | nil => exact h
  | cons f fs ih =>
    have hr' : (c.receive f).role = .client := (handleMessage_handled (c.load f.enc) f.type 5 f.body).role.trans hr
    exact ih hr' (receive_settled hr h f)

theorem drainEvents_settled {fuel : ℕ} {c c' : Ctx} (h : Ctx.drainEvents fuel c = some c') : c'.settled = c.settled := by
  induction fuel generalizing c with
  | zero => cases h
  | succ fuel ih =>
    unfold Ctx.drainEvents at h
    cases hn : c.nextEvent with
    | none =>
      rw [hn] at h
      cases h
      rfl
    | some r =>
      obtain ⟨q, c₁⟩ := r
      rw [hn] at h
      rw [ih h]
      unfold Ctx.nextEvent Ctx.dequeueEvent at hn
      split at hn
      · cases hn
      · cases hn
        dsimp only
        split
        · rfl
        · rfl

/-! ## One message -/

variable {c : Ctx} {st : PipelineStatus}

/-- **A call on a frame settles what receiving it settles.** -/
theorem feedsBackend_settled {c' : Ctx} {st' : PipelineStatus} {r : ℤ} {f : Frame} (h : c.Idle) (hf : f.Fits c)
    (hcall : FeedsBackend c st f.enc c' st' r) : c'.settled = (c.receive f).settled := by
  have haw : c.awaitsStartup = false := awaits_of_client h.role
  have hres : c.resid = [] := by unfold Ctx.resid; rw [h.input, List.take_zero]
  obtain ⟨c₀, hacc, hok₀, hcore₀, hres₀⟩ := acceptInput_core h.ok h.allocs f.enc
  rw [hres, List.nil_append] at hres₀
  have hfits : ∀ g ∈ [f], g.Fits c := fun g hg => by rw [List.mem_singleton.1 hg]; exact hf
  have hfeeds : Feeds c f.enc (c₀.handleFrame f) :=
    feeds_frames h.ok haw hacc hfits (by rw [hres]; exact (List.append_nil _).symm)
  have hframe : (c₀.handleFrame f).settled = (c.receive f).settled := by
    have hcore := handleFrame_core hok₀ (hres₀.trans (List.append_nil _).symm)
    rw [hcore₀] at hcore
    have hset := congrArg Ctx.settled hcore
    exact hset
  obtain ⟨fuel, hcall⟩ := hcall
  unfold Ctx.pipelineFeedBackendMsg at hcall
  have hret : ¬(if f.type = ch 'Z' then (1 : ℤ) else 0) < 0 := by split <;> decide
  rw [if_neg (by rw [f.enc_length]; omega), observe_frame] at hcall
  dsimp only at hcall
  rw [if_neg hret] at hcall
  simp only [Option.bind_eq_bind, Option.bind_eq_some_iff] at hcall
  obtain ⟨⟨c₁, n⟩, hfeed, c₂, hdrain, hcall⟩ := hcall
  rw [Feeds.unique hfeeds (feedInput_feeds h.ok h.allocs hfeed)] at hframe
  have hset := (drainEvents_settled hdrain).trans hframe
  cases hcall
  by_cases hZ : f.type = ch 'Z'
  · -- the client is READY already when `pqwire_note_ready` is called
    have hready : (c.receive f).protoState = .ready := by
      have hstate := @handleMessage_protoState (c.load f.enc) h.role f.type 5 f.body
      have htype : f.type = BackType.readyForQuery.byte := hZ
      rw [if_pos (Or.inl htype)] at hstate
      exact hstate
    have hback := congrArg (fun e : Ctx => { e with protoState := .ready }) hset
    have hself : { (c.receive f).settled with protoState := .ready } = (c.receive f).settled := by
      rw [← hready]
      rfl
    rw [if_pos hZ, if_pos rfl]
    exact hback.trans hself
  · rw [if_neg hZ, if_neg (by decide)]
    exact hset

/-! ## The loop -/

theorem drainBackend_mono {fuel : ℕ} {buf : Bytes} {r : Ctx × PipelineStatus × Bytes}
    (h : drainBackend fuel c st buf = some r) (k : ℕ) : drainBackend (fuel + k) c st buf = some r := by
  induction fuel generalizing c st buf with
  | zero => cases h
  | succ fuel ih =>
    rw [Nat.succ_add]
    unfold drainBackend at h ⊢
    cases hp : msgPeek buf with
    | none =>
      rw [hp] at h
      exact h
    | some p =>
      rw [hp] at h
      obtain ⟨s, hs, hrest⟩ := Option.bind_eq_some_iff.1 h
      exact Option.bind_eq_some_iff.2 ⟨s, pipelineFeed_mono hs k, ih hrest⟩

theorem DrainsBackend.wait {buf : Bytes} (h : msgPeek buf = none) : DrainsBackend c st buf c st buf := by
  refine ⟨1, ?_⟩
  unfold drainBackend
  rw [h]

theorem DrainsBackend.next {c₁ c' : Ctx} {st₁ st' : PipelineStatus} {f : Frame} {buf rest : Bytes} {r : ℤ}
    (h : FeedsBackend c st f.enc c₁ st₁ r) (h' : DrainsBackend c₁ st₁ buf c' st' rest) :
    DrainsBackend c st (f.enc ++ buf) c' st' rest := by
  obtain ⟨m, h⟩ := h
  obtain ⟨n, h'⟩ := h'
  refine ⟨m + n + 1, ?_⟩
  unfold drainBackend
  rw [msgPeek_frame]
  dsimp only
  rw [List.take_left, List.drop_left, pipelineFeed_mono h n, Nat.add_comm m n]
  exact drainBackend_mono h' m

theorem DrainsBackend.unique {c₁ c₂ : Ctx} {st₁ st₂ : PipelineStatus} {buf b₁ b₂ : Bytes}
    (h₁ : DrainsBackend c st buf c₁ st₁ b₁) (h₂ : DrainsBackend c st buf c₂ st₂ b₂) : c₁ = c₂ ∧ st₁ = st₂ ∧ b₁ = b₂ := by
  obtain ⟨m, h₁⟩ := h₁
  obtain ⟨n, h₂⟩ := h₂
  have e₁ := drainBackend_mono h₁ n
  have e₂ := drainBackend_mono h₂ m
  rw [Nat.add_comm n m, e₁] at e₂
  simpa using e₂

theorem Arrivals.unique {c₁ c₂ : Ctx} {st₁ st₂ : PipelineStatus} {buf b₁ b₂ : Bytes} {ds : List Bytes}
    (h₁ : Arrivals c st buf ds c₁ st₁ b₁) (h₂ : Arrivals c st buf ds c₂ st₂ b₂) : c₁ = c₂ ∧ st₁ = st₂ ∧ b₁ = b₂ := by
  induction h₁ with
  | nil =>
    cases h₂
    exact ⟨rfl, rfl, rfl⟩
  | cons hd _ ih =>
    cases h₂ with
    | cons hd' hrest =>
      obtain ⟨rfl, rfl, rfl⟩ := hd.unique hd'
      exact ih hrest

/-- **The loop takes the messages that are complete.** -/
theorem drainsBackend_frames {fs : List Frame} {rest : Bytes} (h : c.Idle) (hf : ∀ f ∈ fs, f.Fits c)
    (hrest : msgPeek rest = none) :
    ∃ c', DrainsBackend c st (Frame.encAll fs ++ rest) c' (observeAll st fs) rest ∧ c'.Idle ∧
      c'.maxMessageSize = c.maxMessageSize ∧ c'.settled = (c.receiveAll fs).settled := by
  induction fs generalizing c st with
  | nil => exact ⟨c, .wait hrest, h, rfl, rfl⟩
  | cons f fs ih =>
    have hfit := hf f (List.mem_cons_self ..)
    obtain ⟨c₁, -, hcall, hidle, hmax, -⟩ := feedsBackend_frame st h hfit
    obtain ⟨c', hloop, hidle', hmax', hset⟩ := @ih c₁ (st.after f) hidle fun g hg => by
      unfold Frame.Fits
      rw [hmax]
      exact hf g (List.mem_cons_of_mem _ hg)
    have hstatus : observeAll st (f :: fs) = observeAll (st.after f) fs := by
      unfold observeAll
      rw [List.foldl_cons, observe_frame]
    refine ⟨c', ?_, hidle', hmax'.trans hmax, ?_⟩
    · rw [Frame.encAll_cons, List.append_assoc, hstatus]
      exact .next hcall hloop
    · rw [hset]
      exact receiveAll_settled hidle.role (feedsBackend_settled h hfit hcall) fs

/-! ## Cutting a stream -/

/-- The first frame of the list, if there is one, is longer than `rest`. -/
def Cut (rest : Bytes) (fs : List Frame) : Prop := ∀ g gs, fs = g :: gs → rest.length < g.enc.length

/-- What has arrived of a stream of frames: frames that are complete, and the beginning of the next. -/
theorem frames_split {G : List Frame} {b t : Bytes} (hr : b ++ t = Frame.encAll G) :
    ∃ G₁ G₂ rest, G = G₁ ++ G₂ ∧ b = Frame.encAll G₁ ++ rest ∧ rest ++ t = Frame.encAll G₂ ∧ Cut rest G₂ := by
  induction G generalizing b with
  | nil =>
    have hb : b = [] := (List.append_eq_nil_iff.1 hr).1
    refine ⟨[], [], b, rfl, rfl, hr, ?_⟩
    intro g gs he
    cases he
  | cons f G ih =>
    rw [Frame.encAll_cons] at hr
    by_cases hf : f.enc.length ≤ b.length
    · obtain ⟨rest, rfl⟩ := append_split hr hf
      rw [List.append_assoc, List.append_cancel_left_eq] at hr
      obtain ⟨G₁, G₂, rest', rfl, hb, ht, hcut⟩ := ih hr
      refine ⟨f :: G₁, G₂, rest', rfl, ?_, ht, hcut⟩
      rw [hb, Frame.encAll_cons, List.append_assoc]
    · refine ⟨[], f :: G, b, rfl, rfl, hr, ?_⟩
      intro g gs he
      cases he
      omega

/-- **There is one way to cut it.** -/
theorem split_unique {G₁ G₂ H₁ H₂ : List Frame} {p q t : Bytes} (h : G₁ ++ G₂ = H₁ ++ H₂) (hp : p ++ t = Frame.encAll G₂)
    (hq : q ++ t = Frame.encAll H₂) (hpc : Cut p G₂) (hqc : Cut q H₂) : G₁ = H₁ ∧ p = q := by
  -- a frame that one cut has in front and the other behind would be complete in the rest
  have key : ∀ {p q : Bytes} {X F : List Frame}, p ++ t = Frame.encAll (X ++ F) → q ++ t = Frame.encAll F →
      Cut p (X ++ F) → X = [] := by
    intro p q X F hp hq hcut
    cases X with
    | nil => rfl
    | cons x X =>
      have hlt := hcut x (X ++ F) rfl
      have hlen := congrArg List.length hp
      rw [List.cons_append, Frame.encAll_cons, Frame.encAll_append, ← hq] at hlen
      simp only [List.length_append] at hlen
      omega
  have hpq : ∀ {F : List Frame}, p ++ t = Frame.encAll F → q ++ t = Frame.encAll F → p = q := by
    intro F h1 h2
    exact List.append_cancel_right (h1.trans h2.symm)
  rcases List.append_eq_append_iff.1 h with ⟨X, rfl, rfl⟩ | ⟨X, rfl, rfl⟩
  · have hX := key hp hq hpc
    subst hX
    exact ⟨(List.append_nil _).symm, hpq hp hq⟩
  · have hX := key hq hp hqc
    subst hX
    exact ⟨List.append_nil _, hpq hp hq⟩

/-- The beginning of a message is no message. -/
theorem msgPeek_cut {G : List Frame} {rest t : Bytes} (h : rest ++ t = Frame.encAll G) (hcut : Cut rest G) :
    msgPeek rest = none := by
  cases G with
  | nil =>
    rw [(List.append_eq_nil_iff.1 h).1]
    rfl
  | cons g G =>
    have hlt := hcut g G rfl
    rw [Frame.encAll_cons] at h
    unfold msgPeek
    split
    · rfl
    · rename_i h5
      have hlen : rd32Be rest 1 = g.len := by
        rw [← rd32Be_append_left t (by omega), h, g.rd32Be_enc]
      rw [hlen]
      dsimp only
      rw [g.enc_length] at hlt
      have h4 : 4 ≤ g.len := Nat.le_add_left _ _
      rw [if_neg (by omega), if_pos (by omega)]

/-! ## Arrivals -/

/-- **The loop each time that bytes arrive**, by induction on the pieces. -/
theorem arrivals_upTo {ds : List Bytes} {G : List Frame} {buf t : Bytes} (h : c.Idle) (hf : ∀ g ∈ G, g.Fits c)
    (hcut : Cut buf G) (hr : buf ++ (ds.flatten ++ t) = Frame.encAll G) :
    ∃ G₁ G₂ c' buf', G = G₁ ++ G₂ ∧ Arrivals c st buf ds c' (observeAll st G₁) buf' ∧ c'.Idle ∧
      c'.settled = (c.receiveAll G₁).settled ∧ buf' ++ t = Frame.encAll G₂ ∧ Cut buf' G₂ := by
  induction ds generalizing c st G buf with
  | nil => exact ⟨[], G, c, buf, rfl, .nil c st buf, h, rfl, hr, hcut⟩
  | cons d ds ih =>
    rw [List.flatten_cons, List.append_assoc, ← List.append_assoc] at hr
    obtain ⟨G₁, G₂, rest, rfl, hb, hrest, hcut₂⟩ := frames_split hr
    obtain ⟨c₁, hloop, hidle, hmax, hset⟩ := @drainsBackend_frames c st G₁ rest h
      (fun g hg => hf g (List.mem_append_left _ hg)) (msgPeek_cut hrest hcut₂)
    rw [← hb] at hloop
    obtain ⟨G₃, G₄, c', buf', rfl, harr, hidle', hset', hbuf, hcut'⟩ := @ih c₁ (observeAll st G₁) G₂ rest hidle
      (fun g hg => by
        unfold Frame.Fits
        rw [hmax]
        exact hf g (List.mem_append_right _ hg)) hcut₂ hrest
    have hstatus : observeAll st (G₁ ++ G₃) = observeAll (observeAll st G₁) G₃ := List.foldl_append
    refine ⟨G₁ ++ G₃, G₄, c', buf', (List.append_assoc _ _ _).symm, ?_, hidle', ?_, hbuf, hcut'⟩
    · rw [hstatus]
      exact .cons hloop harr
    · rw [hset', receiveAll_settled hidle.role hset]
      unfold Ctx.receiveAll
      rw [List.foldl_append]

/-- **The same pieces fed to a client.** -/
theorem feedsAll_upTo {ds : List Bytes} {G : List Frame} {t : Bytes} (hok : c.Ok) (hs : c.awaitsStartup = false)
    (ha : c.allocs = []) (hf : ∀ g ∈ G, g.Fits c) (hcut : Cut c.resid G)
    (hr : c.resid ++ (ds.flatten ++ t) = Frame.encAll G) :
    ∃ G₁ G₂ c', G = G₁ ++ G₂ ∧ FeedsAll c ds c' ∧ c'.core = c.core.receiveAll G₁ ∧ c'.resid ++ t = Frame.encAll G₂ ∧
      Cut c'.resid G₂ := by
  induction ds generalizing c G with
  | nil => exact ⟨[], G, c, rfl, .nil c, rfl, hr, hcut⟩
  | cons d ds ih =>
    obtain ⟨c₁, hacc, hok₁, hcore₁, hres₁⟩ := acceptInput_core hok ha d
    obtain ⟨haw₁, -, hmax₁, -⟩ := acceptInput_same hacc
    rw [List.flatten_cons, List.append_assoc, ← List.append_assoc, ← hres₁] at hr
    obtain ⟨G₁, G₂, c₂, rfl, hloop, hok₂, hcore₂, hres₂, hcut₂⟩ := loopActs_frames hok₁ (haw₁.trans hs)
      (fun g hg => by
        unfold Frame.Fits
        rw [hmax₁]
        exact hf g hg) hr 0
    obtain ⟨haw₂, hmax₂, hal₂⟩ := receiveAll_same c₁.core G₁
    rw [← hcore₂, hcore₁] at haw₂ hmax₂ hal₂
    obtain ⟨G₃, G₄, c', rfl, hfeeds, hcore', hres', hcut'⟩ := ih hok₂ (haw₂.trans hs) (hal₂.trans ha)
      (fun g hg => (hf g (List.mem_append_right _ hg)).trans (le_of_eq hmax₂.symm)) hcut₂ hres₂
    refine ⟨G₁ ++ G₃, G₄, c', (List.append_assoc _ _ _).symm, .cons ⟨c₁, hacc, hloop.loops⟩ hfeeds, ?_, hres', hcut'⟩
    rw [hcore', hcore₂, hcore₁]
    unfold Ctx.receiveAll
    rw [List.foldl_append]

/-! ## Both -/

/-- The status says what the frames make any client emit. -/
theorem receiveAll_shows {n : ℕ} {l : List Queued} (hr : c.role = .client) (h : st.Shows n l) (fs : List Frame) :
    ∃ l', (c.receiveAll fs).log = c.log ++ l' ∧ (observeAll st fs).Shows (n + fs.length) (l ++ l') := by
  induction fs generalizing c st n l with
  | nil => exact ⟨[], (List.append_nil _).symm, by rw [List.append_nil]; exact h⟩
  | cons f fs ih =>
    obtain ⟨l₁, hlog, hem⟩ := @handleFrame_emits (c.load f.enc) hr f
    have hlog' : (c.receive f).log = c.log ++ l₁ := hlog
    have hr' : (c.receive f).role = .client := (handleMessage_handled (c.load f.enc) f.type 5 f.body).role.trans hr
    obtain ⟨l₂, hlog₂, hshow⟩ := ih hr' (h.frame hem)
    have hstatus : observeAll st (f :: fs) = observeAll (st.after f) fs := by
      unfold observeAll
      rw [List.foldl_cons, observe_frame]
    refine ⟨l₁ ++ l₂, ?_, ?_⟩
    · show ((c.receive f).receiveAll fs).log = _
      rw [hlog₂, hlog', List.append_assoc]
    · rw [hstatus, List.length_cons, Nat.add_comm fs.length 1, ← Nat.add_assoc, ← List.append_assoc]
      exact hshow

/-- **Draining a backend agrees with feeding a client.** The messages of a backend, and the
beginning of one more, arrive in any pieces. The loop with `pqwire_msg_peek` and
`pqwire_pipeline_feed_backend_msg` returns each time and keeps just that beginning; so does a client
that is fed them in any other pieces. The status says what the messages have made that client
emit, and how many they are as long as an `int` can; the two contexts differ in their queues
and rows only. -/
theorem recovery_agrees (hc : Reachable c) (hrole : c.role = .client) (ha : c.allocs = []) (hin : c.inputLen = 0)
    (hq : c.events.count = 0) {fs : List Frame} {tail : Bytes} (hf : ∀ f ∈ fs, f.Fits c) (htail : Unfinished c tail)
    {ds ds' : List Bytes} (hcut : ds.flatten = Frame.encAll fs ++ tail) (hcut' : ds'.flatten = Frame.encAll fs ++ tail) :
    ∃ c₁ c₂ st l, Arrivals c pipelineStatusInit [] ds c₁ st tail ∧
      (∀ c' st' buf, Arrivals c pipelineStatusInit [] ds c' st' buf → c' = c₁ ∧ st' = st ∧ buf = tail) ∧
      FeedsAll c ds' c₂ ∧ c₂.resid = tail ∧ c₁.inputLen = 0 ∧ c₁.events.count = 0 ∧ c₁.settled = c₂.settled ∧
      c₂.log = c.log ++ l ∧ st.Shows fs.length l ∧ (st.Mirrors fs.length l ↔ fs.length < 2 ^ 31) := by
  obtain ⟨hok, -⟩ := reachable_ok hc
  obtain ⟨g, hg, u, hu, hgu⟩ := htail
  set G := fs ++ [g] with hG
  have hfits : ∀ f ∈ G, f.Fits c := by
    intro f hm
    rcases List.mem_append.1 hm with hm | hm
    · exact hf f hm
    · rw [List.mem_singleton.1 hm]
      exact hg
  have hone : tail ++ u = Frame.encAll [g] := by
    rw [← hgu]
    exact (List.append_nil _).symm
  have hstream : Frame.encAll fs ++ tail ++ u = Frame.encAll G := by
    rw [hG, Frame.encAll_append, List.append_assoc, hone]
  have htailcut : Cut tail [g] := by
    intro g' gs he
    cases he
    rw [hgu, List.length_append]
    have := List.length_pos_of_ne_nil hu
    omega
  have hnil : Cut [] G := by
    intro g' gs _
    rw [g'.enc_length]
    exact Nat.succ_pos _
  have hres : c.resid = [] := by unfold Ctx.resid; rw [hin, List.take_zero]
  -- the proxy
  obtain ⟨G₁, G₂, c₁, buf, hsplit, harr, hidle, hset, hbuf, hbufcut⟩ := @arrivals_upTo c pipelineStatusInit ds G [] u
    ⟨hok, hrole, ha, hin, hq⟩ hfits hnil (by rw [hcut]; exact hstream)
  obtain ⟨rfl, rfl⟩ := split_unique hsplit.symm hbuf hone hbufcut htailcut
  -- the client
  obtain ⟨H₁, H₂, c₂, hsplit', hfeeds, hcore, hbuf', hbufcut'⟩ := @feedsAll_upTo c ds' G u hok (awaits_of_client hrole) ha
    hfits (by rw [hres]; exact hnil) (by rw [hres, hcut']; exact hstream)
  obtain ⟨rfl, hbuf₂⟩ := split_unique hsplit'.symm hbuf' hone hbufcut' htailcut
  obtain ⟨l, hlog, hshow⟩ := @receiveAll_shows c.core _ 0 [] hrole shows_init H₁
  rw [← hcore] at hlog
  rw [Nat.zero_add, List.nil_append] at hshow
  refine ⟨c₁, c₂, _, l, harr, ?_, hfeeds, hbuf₂, hidle.input, hidle.queue, ?_, hlog, hshow, hshow.mirrors_iff⟩
  · intro c' st' b h
    exact h.unique harr
  · have hset₂ := congrArg Ctx.settled hcore
    change c₂.settled = (c.core.receiveAll H₁).settled at hset₂
    rw [hset, hset₂]
    exact @receiveAll_settled c c.core hrole rfl H₁

/-- A ReadyForQuery and half a header, cut in two ways. -/
theorem recovery_agrees_ready :
    ∃ c₁ c₂ st l, Arrivals tinyClient pipelineStatusInit [] [[90, 0], [0, 0, 5, 73, 90, 0]] c₁ st [90, 0] ∧
      FeedsAll tinyClient [[90, 0, 0, 0, 5], [73, 90], [0]] c₂ ∧ c₂.resid = [90, 0] ∧ c₁.settled = c₂.settled ∧
      c₂.log = l ∧ st.Mirrors 1 l := by
  have hfit : (⟨ch 'Z', [73], by decide⟩ : Frame).Fits tinyClient := by decide
  have hfits : ∀ f ∈ [(⟨ch 'Z', [73], by decide⟩ : Frame)], f.Fits tinyClient := by
    intro f hm
    rw [List.mem_singleton.1 hm]
    exact hfit
  obtain ⟨c₁, c₂, st, l, harr, -, hfeeds, hres, -, -, hset, hlog, -, hiff⟩ :=
    @recovery_agrees tinyClient tinyClient_reachable rfl rfl rfl rfl [⟨ch 'Z', [73], by decide⟩] [90, 0] hfits
      ⟨⟨ch 'Z', [73], by decide⟩, hfit, [0, 0, 5, 73], by decide, rfl⟩
      [[90, 0], [0, 0, 5, 73, 90, 0]] [[90, 0, 0, 0, 5], [73, 90], [0]] rfl rfl
  exact ⟨c₁, c₂, st, l, harr, hfeeds, hres, hset, hlog, hiff.2 (by decide)⟩

end Pqwire

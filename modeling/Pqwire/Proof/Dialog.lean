import Pqwire.Proof.Link
import Pqwire.Proof.Wire

/-!
# The dialog of a client and a server

* `Dialog.Linked`: the invariant. What the server has not handled yet, its input left over
  and the client's output behind it, is the encoding of the messages it has not logged yet.
* `Dialog.Linked.send`, `.transfer`, `.next`: every step keeps it.
* `dialog_law`: the events delivered are those of the messages sent, in order, with their
  fields, and all of them once nothing is left underway.
-/

namespace Pqwire

open ByteMem

/-! ## Messages and their frames -/

/-- `f` is the frame of the message that `m` sends. -/
def Carries (m : Send) (f : Frame) : Prop :=
  ∃ x ev, m.message = some x ∧ x.Small ∧ x.event = some ev ∧ f.type = x.type.byte ∧ f.body = x.body

/-- `q` is the event of the message that `m` sends, which has no pointers. -/
def Delivers (m : Send) (q : Queued) : Prop := m.expected = some (q.ev, {}) ∧ ∀ c : Ctx, c.read q.ev = {}

theorem event_read {x : FrontMsg} {ev : Event} (h : x.event = some ev) (c : Ctx) : c.read ev = {} := by
  cases x with
  | query => cases h
  | bind => cases h
  | _ => cases h; rfl

theorem message_expected {m : Send} {x : FrontMsg} (h : m.message = some x) :
    m.expected = x.event.map fun ev => (ev, {}) := by
  cases m with
  | startup => cases h
  | _ => simp only [Send.expected, h, Option.bind_some]

theorem receive_carried {c : Ctx} {m : Send} {f : Frame} (hr : c.role = .server) (h : Carries m f) :
    ∃ q, (c.receive f).log = c.log ++ [q] ∧ Delivers m q ∧ (c.receive f).role = .server ∧
      (c.receive f).userScratch = c.userScratch ∧ (c.receive f).dbScratch = c.dbScratch := by
  obtain ⟨x, ev, hx, hs, he, ht, hb⟩ := h
  have hh : handleMessage (c.load f.enc) f.type 5 f.body = (c.load f.enc).enqueueEvent ev f.body := by
    rw [ht, hb]
    exact handle_message hr hs he
  have hrec : c.receive f = ((c.load f.enc).enqueueEvent ev f.body).core := by
    rw [← hh]
    rfl
  rw [hrec]
  refine ⟨⟨ev, f.body, _⟩, rfl, ⟨?_, event_read he⟩, hr, rfl, rfl⟩
  rw [message_expected hx, he]
  rfl

/-- **The server reports the messages whose frames it receives.** -/
theorem receiveAll_carried {ms : List Send} {G : List Frame} {c : Ctx} (hr : c.role = .server)
    (h : List.Forall₂ Carries ms G) :
    ∃ l, (c.receiveAll G).log = c.log ++ l ∧ List.Forall₂ Delivers ms l ∧ (c.receiveAll G).role = .server ∧
      (c.receiveAll G).userScratch = c.userScratch ∧ (c.receiveAll G).dbScratch = c.dbScratch := by
  induction h generalizing c with
  | nil => exact ⟨[], (List.append_nil _).symm, .nil, hr, rfl, rfl⟩
  | @cons m f ms G hm _ ih =>
    obtain ⟨q, hlog, hq, hr', hu, hd⟩ := receive_carried hr hm
    obtain ⟨l, hl, hls, hr'', hu', hd'⟩ := ih hr'
    refine ⟨q :: l, ?_, .cons hq hls, hr'', hu'.trans hu, hd'.trans hd⟩
    change ((c.receive f).receiveAll G).log = _
    rw [hl, hlog, List.append_assoc]
    rfl

theorem FrontMsg.Small.short {x : FrontMsg} {ev : Event} (h : x.Small) (he : x.event = some ev) :
    x.body.length + 4 < 2 ^ 32 := by
  have h1 : maxStmtName = 64 := rfl
  have h2 : maxQueryLen = 4096 := rfl
  have h3 : maxParamTypes = 16 := rfl
  have h4 : maxPortalName = 64 := rfl
  cases x with
  | parse stmt sql oids hn =>
    obtain ⟨hstmt, hsql, hoids⟩ := h
    have hwords : (oids.flatMap fun o => wr32Be o.toNat).length = 4 * oids.length := by
      rw [List.length_flatMap]
      simp only [wr32Be_length, List.map_const', List.sum_replicate, smul_eq_mul]
      omega
    simp only [FrontMsg.body, List.length_append, CStr.toBytes_length, wr16Be_length, hwords]
    omega
  | describe t name =>
    have : name.length < maxStmtName := h
    simp only [FrontMsg.body, List.length_cons, CStr.toBytes_length]
    omega
  | execute portal n =>
    have : portal.length < maxPortalName := h
    simp only [FrontMsg.body, List.length_append, CStr.toBytes_length, wr32Be_length]
    omega
  | close t name =>
    have : name.length < maxStmtName := h
    simp only [FrontMsg.body, List.length_cons, CStr.toBytes_length]
    omega
  | sync => decide
  | flush => decide
  | terminate => decide
  -- the law sends neither of these two
  | query => cases he
  | bind => cases he

/-- The messages the law allows after the startup. -/
theorem allowed_message {m : Send} {max : ℕ} (h : m.Allowed max) (hs : m.isStartup = false) :
    ∃ x ev, m.message = some x ∧ x.Small ∧ x.event = some ev ∧ x.body.length + 4 ≤ max := by
  have key : ∀ x, m.message = some x → ∃ ev, x.event = some ev := by
    intro x hx
    cases m with
    | parse stmt sql oids n =>
      cases sql with
      | none => cases hx
      | some sql => cases hx; exact ⟨_, rfl⟩
    | _ =>
      cases hx
      all_goals exact ⟨_, rfl⟩
  have hx : ∃ x, m.message = some x ∧ x.Small ∧ x.body.length + 4 ≤ max := by
    cases m with
    | startup => cases hs
    | _ => exact h
  obtain ⟨x, h1, h2, h3⟩ := hx
  obtain ⟨ev, he⟩ := key x h1
  exact ⟨x, ev, h1, h2, he, h3⟩

/-! ## The invariant -/

namespace Dialog

/-- How far the server has got: nothing is sent, the startup message is underway, or the
messages `done` behind it have been logged and the messages `ms` are underway. -/
inductive Phase (d : Dialog) : Prop
  | idle : d.sent = [] → d.server.awaitsStartup = true → d.server.log = [] →
      d.server.resid ++ d.client.output = [] → Phase d
  | starting {user database : Option CStr} {S : Startup} {ms : List Send} {G : List Frame} :
      d.sent = .startup user database :: ms → d.server.awaitsStartup = true → d.server.log = [] →
      (user.getD CStr.empty).length ≤ 127 → (database.getD CStr.empty).length ≤ 127 →
      S.body = startupBody (user.getD CStr.empty) (database.getD CStr.empty) → S.Fits d.server →
      List.Forall₂ Carries ms G → (∀ g ∈ G, g.Fits d.server) →
      d.server.resid ++ d.client.output = S.enc ++ Frame.encAll G → Phase d
  | running {user database : Option CStr} {q : Queued} {l : List Queued} {done ms : List Send} {G : List Frame} :
      d.sent = .startup user database :: (done ++ ms) → d.server.awaitsStartup = false → d.server.log = q :: l →
      q.ev = .startup → d.server.userScratch = user.getD CStr.empty → d.server.dbScratch = database.getD CStr.empty →
      List.Forall₂ Delivers done l → List.Forall₂ Carries ms G → (∀ g ∈ G, g.Fits d.server) →
      d.server.resid ++ d.client.output = Frame.encAll G → Phase d

structure Linked (d : Dialog) : Prop where
  client : d.client.role = .client
  clientAllocs : d.client.allocs = []
  ok : d.server.Ok
  waits : d.server.Waits
  role : d.server.role = .server
  allocs : d.server.allocs = []
  queue : d.server.Undelivered d.delivered.length
  shown : d.delivered.map some <+: d.sent.map Send.expected
  phase : d.Phase

/-- An event of the history is the event of the message at its place, and its pointers denote
the fields of that message. -/
theorem Phase.shown {d : Dialog} (h : d.Phase) {n : ℕ} {q : Queued} (hq : d.server.log[n]? = some q) :
    (d.sent.map Send.expected)[n]? = some (some (q.ev, d.server.read q.ev)) := by
  cases h with
  | idle _ _ hlog _ => rw [hlog] at hq; cases hq
  | starting _ _ hlog => rw [hlog] at hq; cases hq
  | @running user database q₀ l done ms G hsent _ hlog hev hu hd hdone =>
    rw [hlog] at hq
    rw [hsent]
    rcases n with _ | n
    · cases hq
      change some (some _) = _
      rw [hev, ← hu, ← hd]
      rfl
    · rw [List.getElem?_cons_succ] at hq
      obtain ⟨hn, rfl⟩ := List.getElem?_eq_some_iff.1 hq
      obtain ⟨hlen, hget⟩ := List.forall₂_iff_get.1 hdone
      obtain ⟨he, hr⟩ := hget n (by omega) hn
      have hm : (done ++ ms)[n]? = some (done.get ⟨n, by omega⟩) := by
        rw [List.getElem?_append_left (by omega)]
        exact List.getElem?_eq_getElem _
      rw [List.map_cons, List.getElem?_cons_succ, List.getElem?_map, hm, Option.map_some, he]
      congr 3
      exact (hr d.server).symm

/-! ### Sends -/

/-- A send adds the frame of its message behind what is underway. -/
theorem Phase.send {d : Dialog} {m : Send} {client : Ctx} {f : Frame} (h : d.Phase)
    (hne : d.sent ≠ []) (hm : Carries m f) (hf : f.Fits d.server)
    (hout : client.output = d.client.output ++ f.enc) :
    Phase { d with client := client, sent := d.sent ++ [m] } := by
  have hG : ∀ G : List Frame, (∀ g ∈ G, g.Fits d.server) → ∀ g ∈ G ++ [f], g.Fits d.server := by
    intro G hG g hg
    rcases List.mem_append.1 hg with hg | hg
    · exact hG g hg
    · rw [List.mem_singleton.1 hg]
      exact hf
  have henc : ∀ (a : Bytes) (G : List Frame), d.server.resid ++ d.client.output = a ++ Frame.encAll G →
      d.server.resid ++ client.output = a ++ Frame.encAll (G ++ [f]) := by
    intro a G hr
    rw [hout, ← List.append_assoc, hr, Frame.encAll_append, List.append_assoc]
    congr 2
    exact (List.append_nil _).symm
  cases h with
  | idle hs => exact absurd hs hne
  | starting hs haw hlog hu hd hb hS hC hfits hr =>
    refine .starting ?_ haw hlog hu hd hb hS (List.rel_append hC (.cons hm .nil)) (hG _ hfits) (henc _ _ hr)
    change d.sent ++ [m] = _
    rw [hs]
    rfl
  | @running _ _ _ _ done ms G hs haw hlog hev hu hd hD hC hfits hr =>
    refine .running ?_ haw hlog hev hu hd hD (List.rel_append hC (.cons hm .nil)) (hG _ hfits) (henc [] _ hr)
    change d.sent ++ [m] = _
    rw [hs, List.cons_append, List.append_assoc]

theorem Linked.send {d : Dialog} {m : Send} {client : Ctx} (h : d.Linked) (hs : m.isStartup = d.sent.isEmpty)
    (ha : m.Allowed d.server.maxMessageSize) (hm : m.run d.client = (client, 0)) :
    Linked { d with client := client, sent := d.sent ++ [m] } := by
  have hout : OutputOnly d.client client := by
    have := send_outputOnly d.client m
    rwa [hm] at this
  have hrole : client.role = .client := by rw [hout]; exact h.client
  have hshown : d.delivered.map some <+: (d.sent ++ [m]).map Send.expected := by
    rw [List.map_append]
    exact h.shown.trans (List.prefix_append _ _)
  by_cases hne : d.sent = []
  · -- the startup message, on a link that is still empty
    rw [hne] at hs
    cases m with
    | startup user database =>
      obtain ⟨hu, hd, hmax⟩ := ha
      obtain ⟨ho, halloc⟩ := send_startup h.clientAllocs h.client hm
      have hlen := startupBody_length (user.getD CStr.empty) (database.getD CStr.empty)
      refine ⟨hrole, halloc, h.ok, h.waits, h.role, h.allocs, h.queue, hshown, ?_⟩
      cases h.phase with
      | idle _ haw hlog hr =>
        refine .starting (S := ⟨startupBody (user.getD CStr.empty) (database.getD CStr.empty), by omega, by omega⟩) (G := []) ?_ haw hlog hu hd rfl hmax .nil (by simp) ?_
        · change d.sent ++ _ = _
          rw [hne]
          rfl
        · change d.server.resid ++ client.output = _
          rw [ho, ← List.append_assoc, hr]
          exact (List.append_nil _).symm
      | starting hsent => rw [hne] at hsent; cases hsent
      | running hsent => rw [hne] at hsent; cases hsent
    | _ => cases hs
  · -- another message goes behind those on the link
    have hnot : m.isStartup = false := by rw [hs, List.isEmpty_eq_false_iff]; exact hne
    obtain ⟨x, ev, hx, hsmall, hev, hmax⟩ := allowed_message ha hnot
    obtain ⟨ho, halloc⟩ := send_message h.clientAllocs hx hm
    refine ⟨hrole, halloc, h.ok, h.waits, h.role, h.allocs, h.queue, hshown, ?_⟩
    exact h.phase.send hne ⟨x, ev, hx, hsmall, hev, rfl, rfl⟩ (f := ⟨_, _, hsmall.short hev⟩) hmax ho

/-! ### Transfers -/

/-- What the server logs for a startup message. -/
theorem parseStartupBody_fields {c : Ctx} {user database : CStr} (hr : c.role = .server) (hu : user.length ≤ 127)
    (hd : database.length ≤ 127) :
    ∃ q, q.ev = .startup ∧ (parseStartupBody c (startupBody user database)).log = c.log ++ [q] ∧
      (parseStartupBody c (startupBody user database)).events = c.events.enqueue q ∧
      (parseStartupBody c (startupBody user database)).userScratch = user ∧
      (parseStartupBody c (startupBody user database)).dbScratch = database ∧
      (parseStartupBody c (startupBody user database)).role = .server ∧
      (parseStartupBody c (startupBody user database)).awaitsStartup = false ∧
      (parseStartupBody c (startupBody user database)).maxMessageSize = c.maxMessageSize ∧
      (parseStartupBody c (startupBody user database)).allocs = c.allocs := by
  unfold parseStartupBody
  rw [startupLoop_enc hu hd, if_pos hr]
  refine ⟨_, rfl, rfl, rfl, rfl, rfl, hr, ?_, rfl, rfl⟩
  simp [Ctx.awaitsStartup, Ctx.enqueueEvent]

/-- Messages underway split where their frames do. -/
theorem carries_split {ms : List Send} {G₁ G₂ : List Frame} (h : List.Forall₂ Carries ms (G₁ ++ G₂)) :
    ∃ ms₁ ms₂, ms = ms₁ ++ ms₂ ∧ List.Forall₂ Carries ms₁ G₁ ∧ List.Forall₂ Carries ms₂ G₂ :=
  ⟨ms.take G₁.length, ms.drop G₁.length, (List.take_append_drop _ _).symm, List.forall₂_take_append _ _ _ h,
    List.forall₂_drop_append _ _ _ h⟩

/-- The server has handled the frames `G₁`, from the context `s` in which it has logged `done`. -/
theorem Phase.receiveAll {d : Dialog} {s : Ctx} {user database : Option CStr} {q : Queued} {l : List Queued}
    {done ms : List Send} {G₁ G₂ : List Frame} (hs : d.sent = .startup user database :: (done ++ ms))
    (hr : s.role = .server) (haw : s.awaitsStartup = false) (hlog : s.log = q :: l) (hev : q.ev = .startup)
    (hu : s.userScratch = user.getD CStr.empty) (hd : s.dbScratch = database.getD CStr.empty)
    (hD : List.Forall₂ Delivers done l) (hC : List.Forall₂ Carries ms (G₁ ++ G₂))
    (hfits : ∀ g ∈ G₁ ++ G₂, g.Fits s) (hc : d.server.core = s.receiveAll G₁)
    (hres : d.server.resid ++ d.client.output = Frame.encAll G₂) : d.Phase ∧ d.server.role = .server := by
  obtain ⟨ms₁, ms₂, rfl, h1, h2⟩ := carries_split hC
  obtain ⟨l', hl', hD', hr', hu', hd'⟩ := receiveAll_carried hr h1
  obtain ⟨haw', hmax', -⟩ := receiveAll_same s G₁
  rw [← hc] at hl' hr' hu' hd' haw' hmax'
  refine ⟨.running ?_ (haw'.trans haw) ?_ hev (hu'.trans hu) (hd'.trans hd) (List.rel_append hD hD') h2
    (fun g hg => ?_) hres, hr'⟩
  · rw [hs, List.append_assoc]
  · have : d.server.log = s.log ++ l' := hl'
    rw [this, hlog]
    rfl
  · refine (hfits g (List.mem_append_right _ hg)).trans (le_of_eq ?_)
    exact hmax'.symm

/-- A call in which nothing is handled changes the input of the server only. -/
theorem Linked.unhandled {d : Dialog} {client server : Ctx} (h : d.Linked) (hr : client.role = .client)
    (ha : client.allocs = []) (hok : server.Ok) (hw : server.Waits) (hcore : server.core = d.server.core)
    (hle : server.log.length ≤ d.delivered.length + server.queueSize)
    (hphase : Phase { d with client := client, server := server }) :
    Linked { d with client := client, server := server } := by
  have hq : d.server.core.Undelivered d.delivered.length := h.queue
  obtain ⟨-, hrole, halloc, -⟩ := core_fields hcore
  exact ⟨hr, ha, hok, hw, hrole.trans h.role, halloc.trans h.allocs,
    hq.receiveAll (G := []) h.ok.ring hok hcore hle, h.shown, hphase⟩

/-- **A transfer returns, and keeps the invariant unless the queue overflows.** -/
theorem Linked.transfer {d : Dialog} (h : d.Linked) (maxLen : ℕ) :
    ∃ server, Feeds d.server (d.client.getOutput maxLen).1 server ∧
      (server.log.length ≤ d.delivered.length + server.queueSize →
        Linked { d with client := (d.client.getOutput maxLen).2, server := server }) := by
  set b := (d.client.getOutput maxLen).1
  set t := (d.client.getOutput maxLen).2.output
  have hbt : d.client.output = b ++ t := (List.take_append_drop _ _).symm
  have hq : d.server.core.Undelivered d.delivered.length := h.queue
  cases h.phase with
  | idle hs haw hlog hr =>
    -- nothing is sent, so the call gets no bytes
    rw [hbt, List.append_eq_nil_iff, List.append_eq_nil_iff] at hr
    obtain ⟨hres, hb, ht⟩ := hr
    obtain ⟨server, hacc, hok, hcore, hres'⟩ := acceptInput_core h.ok h.allocs b
    obtain ⟨hlog', -, -, haw'⟩ := core_fields hcore
    rw [hres, hb, List.append_nil] at hres'
    have hlen := resid_length hok
    rw [hres'] at hlen
    have hw : server.Waits := waits_of_empty hlen.symm
    refine ⟨server, ⟨server, hacc, .wait hw⟩, ?_⟩
    intro hle
    refine h.unhandled h.client h.clientAllocs hok hw hcore hle (.idle hs (haw'.trans haw) (hlog'.trans hlog) ?_)
    change server.resid ++ t = []
    rw [hres', ht]
    rfl
  | @starting user database S ms G hs haw hlog hu hd hb hS hC hfits hr =>
    rw [hbt] at hr
    obtain ⟨server, hfeeds, hok, hw, hcases⟩ := feeds_starting h.ok haw h.allocs hS hfits hr
    refine ⟨server, hfeeds, ?_⟩
    intro hle
    rcases hcases with ⟨hcore, hres⟩ | ⟨G₁, G₂, rfl, hcore, hres⟩
    · -- the startup message is still incomplete
      obtain ⟨hlog', -, -, haw'⟩ := core_fields hcore
      have hmax : server.maxMessageSize = d.server.maxMessageSize := by
        change server.core.maxMessageSize = _
        rw [hcore]
        rfl
      refine h.unhandled h.client h.clientAllocs hok hw hcore hle ?_
      exact .starting hs (haw'.trans haw) (hlog'.trans hlog) hu hd hb (hS.trans (le_of_eq hmax.symm)) hC
        (fun g hg => (hfits g hg).trans (le_of_eq hmax.symm)) hres
    · rw [hb] at hcore
      obtain ⟨q, hev, hlog₁, hev₁, hu₁, hd₁, hr₁, haw₁, hmax₁, hal₁⟩ :=
        parseStartupBody_fields (c := d.server.core) h.role hu hd
      set s := parseStartupBody d.server.core (startupBody (user.getD CStr.empty) (database.getD CStr.empty))
      have hlog₂ : s.log = q :: [] := by
        rw [hlog₁, show d.server.core.log = [] from hlog]
        rfl
      obtain ⟨hphase, hrole⟩ := Phase.receiveAll (d := ⟨(d.client.getOutput maxLen).2, server, d.sent, d.delivered⟩)
        hs hr₁ haw₁ hlog₂ hev hu₁ hd₁ .nil hC
        (fun g hg => (hfits g hg).trans (le_of_eq hmax₁.symm)) hcore hres
      obtain ⟨-, -, halloc, -⟩ := core_fields hcore
      obtain ⟨-, -, hal₂⟩ := receiveAll_same s G₁
      refine ⟨h.client, h.clientAllocs, hok, hw, hrole, halloc.trans (hal₂.trans (hal₁.trans h.allocs)), ?_, h.shown, hphase⟩
      -- nothing was queued before the startup event
      have hfirst : s.Undelivered d.delivered.length := hq.first h.ok.ring hlog hlog₂ hev₁
      exact hfirst.receiveAll (by rw [hev₁]; exact RingBuf.enqueue_ok h.ok.ring q) hok hcore hle
  | running hs haw hlog hev hu hd hD hC hfits hr =>
    rw [hbt] at hr
    obtain ⟨G₁, G₂, server, rfl, hfeeds, hok, hw, hcore, hres⟩ := feeds_pending h.ok haw h.allocs hfits hr
    refine ⟨server, hfeeds, ?_⟩
    intro hle
    obtain ⟨hphase, hrole⟩ := Phase.receiveAll (d := ⟨(d.client.getOutput maxLen).2, server, d.sent, d.delivered⟩)
      (s := d.server.core) hs h.role haw hlog hev hu hd hD hC hfits hcore hres
    obtain ⟨-, -, halloc, -⟩ := core_fields hcore
    obtain ⟨-, -, hal⟩ := receiveAll_same d.server.core G₁
    exact ⟨h.client, h.clientAllocs, hok, hw, hrole, halloc.trans (hal.trans h.allocs),
      hq.receiveAll h.ok.ring hok hcore hle, h.shown, hphase⟩

/-! ### Deliveries -/

theorem prefix_concat {α : Type*} {l L : List α} {a : α} (h : l <+: L) (ha : L[l.length]? = some a) : l ++ [a] <+: L := by
  obtain ⟨t, rfl⟩ := h
  rw [List.getElem?_append_right le_rfl, Nat.sub_self] at ha
  obtain ⟨b, t, rfl⟩ : ∃ b u, t = b :: u := by
    cases t with
    | nil => cases ha
    | cons b u => exact ⟨b, u, rfl⟩
  cases ha
  exact ⟨t, by rw [List.append_assoc]; rfl⟩

theorem Linked.next {d : Dialog} {q : Queued} {server : Ctx} (h : d.Linked) (hn : d.server.nextEvent = some (q, server)) :
    Linked { d with server := server, delivered := d.delivered ++ [(q.ev, server.read q.ev)] } := by
  obtain ⟨hok, hw⟩ := step_ok (.next hn) h.ok h.waits
  obtain ⟨hq, hu⟩ := h.queue.next h.ok hn
  obtain ⟨hframe, -⟩ := nextEvent_frame hn
  have hread := nextEvent_read hn
  have hphase : Phase { d with server := server, delivered := d.delivered ++ [(q.ev, server.read q.ev)] } := by
    rw [hframe]
    cases h.phase with
    | idle h1 h2 h3 h4 => exact .idle h1 h2 h3 h4
    | starting h1 h2 h3 h4 h5 h6 h7 h8 h9 h10 => exact .starting h1 h2 h3 h4 h5 h6 h7 h8 h9 h10
    | running h1 h2 h3 h4 h5 h6 h7 h8 h9 h10 => exact .running h1 h2 h3 h4 h5 h6 h7 h8 h9 h10
  refine ⟨h.client, h.clientAllocs, hok, hw, ?_, ?_, ?_, ?_, hphase⟩
  · rw [hframe]; exact h.role
  · rw [hframe]; exact h.allocs
  · rw [List.length_append]
    exact hu
  · rw [List.map_append]
    refine prefix_concat h.shown ?_
    rw [List.length_map, h.phase.shown hq, hread]

/-! ## The law -/

theorem Reach.linked {d : Dialog} (h : d.Reach) : d.Linked := by
  induction h with
  | create hclient hserver =>
    obtain ⟨-, -, -, hout, -, hr, -⟩ := create_empty hclient
    obtain ⟨hev, hlog, hres, -, -, hr', hseen⟩ := create_empty hserver
    obtain ⟨hok, hw⟩ := create_ok hserver
    refine ⟨hr, create_allocs hclient, hok, hw, hr', create_allocs hserver, ⟨[], by rw [hlog, hev]; rfl, rfl⟩,
      List.prefix_rfl, .idle rfl ?_ hlog ?_⟩
    · simp [Ctx.awaitsStartup, hr', hseen]
    · rw [hres, hout]
      rfl
  | send _ hs ha hm ih => exact ih.send hs ha hm
  | @transfer d server maxLen _ hf hle ih =>
    obtain ⟨server', hf', hlinked⟩ := ih.transfer maxLen
    obtain rfl := hf.unique hf'
    exact hlinked hle
  | next _ hn ih => exact ih.next hn

/-- A message that is complete in the server's input has been handled. -/
theorem Linked.drained {d : Dialog} (h : d.Linked) (ho : d.client.output = []) : d.sent.length = d.server.log.length := by
  have hstop : ∀ c', d.server.feedStep ≠ .again c' := by
    intro c' hc
    rw [feedStep_eq (.wait h.waits)] at hc
    cases hc
  cases h.phase with
  | idle hs _ hlog => rw [hs, hlog]; rfl
  | starting _ haw _ _ _ _ hS _ _ hr =>
    rw [ho, List.append_nil] at hr
    exact absurd (feedStep_startup h.ok haw hS hr).1 (hstop _)
  | @running _ _ q l done ms G hs haw hlog _ _ _ hD hC hfits hr =>
    rw [ho, List.append_nil] at hr
    cases G with
    | nil =>
      cases hC
      rw [hs, hlog, List.append_nil, List.length_cons, List.length_cons, hD.length_eq]
    | cons g G =>
      exact absurd (feedStep_frames h.ok haw (hfits g (List.mem_cons_self ..)) hr).1 (hstop _)

end Dialog

/-- **The dialog of a client and a server.** Whatever the order of sends, transfers and
deliveries, the events delivered are those of the first messages sent, in order and with exactly
their fields; once the output is drained and the queue is empty they are those of all messages;
and every transfer returns. -/
theorem dialog_law {d : Dialog} (h : d.Reach) :
    d.delivered.map some <+: d.sent.map Send.expected ∧
      (d.client.output = [] → d.server.events.count = 0 → d.delivered.map some = d.sent.map Send.expected) ∧
      ∀ maxLen, ∃ server, Feeds d.server (d.client.getOutput maxLen).1 server := by
  have hl := h.linked
  refine ⟨hl.shown, fun ho hc => hl.shown.eq_of_length ?_, ?_⟩
  · obtain ⟨dq, hdq, hn⟩ := hl.queue
    have hlen := congrArg List.length hdq
    rw [List.length_append, RingBuf.toList_length, hc] at hlen
    rw [List.length_map, List.length_map, hl.drained ho]
    omega
  · intro maxLen
    obtain ⟨server, hf, -⟩ := hl.transfer maxLen
    exact ⟨server, hf⟩

/-- A dialog in which a startup and a Sync are delivered. -/
theorem dialog_law_sync :
    ∃ d : Dialog, d.Reach ∧ d.delivered = [(.startup, { strs := [CStr.empty, CStr.empty] }), (.sync, {})] ∧
      d.delivered.map some = d.sent.map Send.expected := by
  have h₀ := @Dialog.Reach.create {} {} _ _ rfl rfl
  have h₁ := h₀.send (m := .startup none none) rfl ⟨by decide, by decide, by decide⟩ rfl
  have h₂ := h₁.send (m := .sync) rfl ⟨.sync, rfl, trivial, by decide⟩ rfl
  have h₃ := h₂.transfer 4096 ⟨_, rfl, 3, rfl⟩ (by decide)
  have h₄ := (h₃.next rfl).next rfl
  exact ⟨_, h₄, rfl, (dialog_law h₄).2.1 rfl rfl⟩

end Pqwire

import Pqwire.Proof.Dequeue
import Pqwire.Proof.History
import Pqwire.Proof.Recovery

/-!
# A stream of frames that arrives in pieces

What a receiver does with the messages that the pieces complete.

* `feeds_pending`: a call handles the frames it completes and keeps the rest.
* `feeds_starting`: the same on a server that waits for its startup message.
* `receiveAll_count`: how many events they add to the history and to the queue.
* `Ctx.Undelivered`: as long as the queue does not overflow, it holds all that is undelivered.
-/

namespace Pqwire

open ByteMem

/-- **A call handles the frames it completes.** The frames `G` are what is still to be handled:
the input left over, the bytes of this call and the bytes `t` to come. -/
theorem feeds_pending {c : Ctx} {G : List Frame} {d t : Bytes} (h : c.Ok) (hs : c.awaitsStartup = false)
    (ha : c.allocs = []) (hf : ∀ g ∈ G, g.Fits c) (hr : c.resid ++ (d ++ t) = Frame.encAll G) :
    ∃ G₁ G₂ c', G = G₁ ++ G₂ ∧ Feeds c d c' ∧ c'.Ok ∧ c'.Waits ∧ c'.core = c.core.receiveAll G₁ ∧
      c'.resid ++ t = Frame.encAll G₂ := by
  obtain ⟨c₁, hacc, hok₁, hcore₁, hres₁⟩ := acceptInput_core h ha d
  obtain ⟨haw₁, -, hmax₁, -⟩ := acceptInput_same hacc
  rw [← List.append_assoc, ← hres₁] at hr
  have hf₁ : ∀ g ∈ G, g.Fits c₁ := fun g hg => (hf g hg).trans (le_of_eq hmax₁.symm)
  obtain ⟨G₁, G₂, c', h1, h2, -, h4, h5, -⟩ := loopActs_frames hok₁ (haw₁.trans hs) hf₁ hr 0
  obtain ⟨hok, hw⟩ := loops_ok h2.loops hok₁
  exact ⟨G₁, G₂, c', h1, ⟨c₁, hacc, h2.loops⟩, hok, hw, by rw [h4, hcore₁], h5⟩

theorem core_fields {c s : Ctx} (h : c.core = s) :
    c.log = s.log ∧ c.role = s.role ∧ c.allocs = s.allocs ∧ c.awaitsStartup = s.awaitsStartup := by
  rw [← h]
  exact ⟨rfl, rfl, rfl, rfl⟩

/-- The startup message without its input side. -/
theorem parseStartupBody_core (c : Ctx) (body : Bytes) (n : ℕ) :
    ((parseStartupBody c body).consume n).core = parseStartupBody c.core body := by
  unfold parseStartupBody
  dsimp only
  by_cases hr : c.role = .server
  · rw [if_pos hr, if_pos (show c.core.role = .server from hr)]
    rfl
  · rw [if_neg hr, if_neg (show ¬c.core.role = .server from hr)]
    rfl

/-- **A call on a server that waits for its startup message** `S`: the message is still
incomplete, or it is handled and the loop goes on with the frames behind it. -/
theorem feeds_starting {c : Ctx} {S : Startup} {G : List Frame} {d t : Bytes} (h : c.Ok)
    (hs : c.awaitsStartup = true) (ha : c.allocs = []) (hS : S.Fits c) (hf : ∀ g ∈ G, g.Fits c)
    (hr : c.resid ++ (d ++ t) = S.enc ++ Frame.encAll G) :
    ∃ c', Feeds c d c' ∧ c'.Ok ∧ c'.Waits ∧
      ((c'.core = c.core ∧ c'.resid ++ t = S.enc ++ Frame.encAll G) ∨
        ∃ G₁ G₂, G = G₁ ++ G₂ ∧ c'.core = (parseStartupBody c.core S.body).receiveAll G₁ ∧
          c'.resid ++ t = Frame.encAll G₂) := by
  obtain ⟨c₁, hacc, hok₁, hcore₁, hres₁⟩ := acceptInput_core h ha d
  obtain ⟨haw₁, -, hmax₁, -⟩ := acceptInput_same hacc
  rw [← List.append_assoc, ← hres₁] at hr
  have hS₁ : S.Fits c₁ := hS.trans (le_of_eq hmax₁.symm)
  have hel := S.enc_length
  rcases Nat.lt_or_ge c₁.resid.length S.enc.length with hlt | hge
  · -- the length field, where it is complete, is that of `S`
    have hw : c₁.Waits := by
      unfold Ctx.Waits
      rw [if_pos (haw₁.trans hs), ← resid_length hok₁]
      rcases Nat.lt_or_ge c₁.resid.length 4 with h4 | h4
      · exact Or.inl h4
      · have hlen : c₁.startupLen = S.len := by
          have h1 : rd32Be c₁.resid 0 = c₁.startupLen := rd32Be_take (p := c₁.inputBuf) (by rw [← resid_length hok₁]; omega)
          have h2 : rd32Be (c₁.resid ++ t) 0 = rd32Be c₁.resid 0 := rd32Be_append_left t (by omega)
          rw [← h1, ← h2, hr, S.rd32Be_enc]
        have h8 : 8 ≤ S.len := by have := S.version; unfold Startup.len; omega
        refine Or.inr ⟨by omega, ?_, by omega⟩
        rw [hlen]
        exact hS₁
    exact ⟨c₁, ⟨c₁, hacc, .wait hw⟩, hok₁, hw, Or.inl ⟨hcore₁, hr⟩⟩
  · obtain ⟨rest, hrest⟩ := append_split hr hge
    obtain ⟨hstep, hok₂, hres₂⟩ := feedStep_startup hok₁ (haw₁.trans hs) hS₁ hrest
    obtain ⟨-, -, -, -, -, haw₂, -, hmax₂⟩ := handleStartup_same c₁ S.body S.len
    set c₂ := (parseStartupBody c₁ S.body).consume S.len
    rw [hrest, List.append_assoc] at hr
    have hr₂ : c₂.resid ++ t = Frame.encAll G := by rw [hres₂]; exact List.append_cancel_left hr
    have hf₂ : ∀ g ∈ G, g.Fits c₂ := fun g hg => (hf g hg).trans (le_of_eq (hmax₂.trans hmax₁).symm)
    obtain ⟨G₁, G₂, c', h1, h2, -, h4, h5, -⟩ := loopActs_frames hok₂ haw₂ hf₂ hr₂ 0
    obtain ⟨hok, hw⟩ := loops_ok h2.loops hok₂
    refine ⟨c', ⟨c₁, hacc, .again hstep h2.loops⟩, hok, hw, Or.inr ⟨G₁, G₂, h1, ?_, h5⟩⟩
    rw [h4, parseStartupBody_core, hcore₁]

/-! ## Events -/

theorem receive_emitted (c : Ctx) (f : Frame) : Emitted c f.body (f.emits c.role) (c.receive f) :=
  handleFrame_emitted (c.load f.enc) f

/-- The history and the queue after messages have been received. -/
theorem receiveAll_count {c : Ctx} (h : c.events.Ok) (fs : List Frame) :
    (∃ l, (c.receiveAll fs).log = c.log ++ l ∧ l.length = emitted c.role fs ∧
      (c.receiveAll fs).events.count = min c.queueSize (c.events.count + l.length)) ∧
      (c.receiveAll fs).queueSize = c.queueSize ∧ (c.receiveAll fs).role = c.role := by
  induction fs generalizing c with
  | nil =>
    refine ⟨⟨[], (List.append_nil _).symm, rfl, ?_⟩, rfl, rfl⟩
    exact (min_eq_right h.count).symm
  | cons f fs ih =>
    have he := receive_emitted c f
    have hrole : (c.receive f).role = c.role := (handleMessage_handled (c.load f.enc) f.type 5 f.body).role
    unfold Emitted at he
    rw [emitted_cons]
    split_ifs at he ⊢
    · obtain ⟨q, -, hlog, hev⟩ := he
      obtain ⟨⟨l, hl, hn, hc⟩, hs, hr⟩ := ih (c := c.receive f) (by rw [hev]; exact RingBuf.enqueue_ok h q)
      have hsize : (c.receive f).queueSize = c.queueSize := by
        unfold Ctx.queueSize
        rw [hev, RingBuf.enqueue_size]
      rw [hrole] at hn
      refine ⟨⟨q :: l, ?_, by rw [List.length_cons, hn]; omega, ?_⟩, hs.trans hsize, hr.trans hrole⟩
      · change ((c.receive f).receiveAll fs).log = _
        rw [hl, hlog, List.append_assoc]
        rfl
      · change ((c.receive f).receiveAll fs).events.count = _
        rw [hc, hsize, hev, enqueue_count h, List.length_cons]
        unfold Ctx.queueSize
        omega
    · obtain ⟨hlog, hev⟩ := he
      obtain ⟨⟨l, hl, hn, hc⟩, hs, hr⟩ := ih (c := c.receive f) (by rw [hev]; exact h)
      have hsize : (c.receive f).queueSize = c.queueSize := by unfold Ctx.queueSize; rw [hev]
      rw [hrole] at hn
      refine ⟨⟨l, ?_, by rw [hn, Nat.zero_add], ?_⟩, hs.trans hsize, hr.trans hrole⟩
      · change ((c.receive f).receiveAll fs).log = _
        rw [hl, hlog]
      · change ((c.receive f).receiveAll fs).events.count = _
        rw [hc, hsize, hev]

/-- **What is undelivered is in the queue** while it does not overflow: `dq` are the events
delivered so far and `l` those that a call adds. -/
theorem queue_keeps {r r' : RingBuf Queued} {log dq l : List Queued} (hq : log = dq ++ r.toList)
    (hsuf : r'.toList <:+ log ++ l) (hc : r'.count = min r.size (r.count + l.length))
    (hle : (log ++ l).length ≤ dq.length + r.size) : log ++ l = dq ++ r'.toList := by
  obtain ⟨s, hs⟩ := hsuf
  have hlen := congrArg List.length hs
  rw [List.length_append, RingBuf.toList_length, hq, List.length_append, List.length_append, RingBuf.toList_length] at hlen
  rw [hq, List.length_append, List.length_append, RingBuf.toList_length] at hle
  have hsl : s.length = dq.length := by omega
  rw [← hs]
  congr 1
  rw [hq, List.append_assoc] at hs
  exact (List.append_inj hs hsl).1

/-! ## What is undelivered -/

/-- The first `n` events of the history have been delivered and the queue holds the rest. -/
def Ctx.Undelivered (c : Ctx) (n : ℕ) : Prop := ∃ dq, c.log = dq ++ c.events.toList ∧ dq.length = n

theorem Ctx.Undelivered.next {c c' : Ctx} {q : Queued} {n : ℕ} (hu : c.Undelivered n) (hok : c.Ok)
    (h : c.nextEvent = some (q, c')) : c.log[n]? = some q ∧ c'.Undelivered (n + 1) := by
  obtain ⟨dq, hlog, hn⟩ := hu
  obtain ⟨hl, -, hlog', -⟩ := nextEvent_cases hok h
  rw [hl] at hlog
  constructor
  · rw [hlog, ← hn, List.getElem?_append_right le_rfl, Nat.sub_self]
    rfl
  · refine ⟨dq ++ [q], ?_, by rw [List.length_append, hn]; rfl⟩
    rw [hlog', hlog, List.append_assoc]
    rfl

/-- The first event of a history goes into an empty queue. -/
theorem Ctx.Undelivered.first {c c' : Ctx} {q : Queued} {n : ℕ} (hu : c.Undelivered n) (hr : c.events.Ok)
    (hnil : c.log = []) (hlog : c'.log = [q]) (hev : c'.events = c.events.enqueue q) : c'.Undelivered n := by
  obtain ⟨dq, hdq, hn⟩ := hu
  rw [hnil, eq_comm, List.append_eq_nil_iff] at hdq
  have hcount : c.events.count = 0 := by
    rw [← RingBuf.toList_length, hdq.2]
    rfl
  have hlist : c'.events.toList = [q] := by
    rw [hev, RingBuf.toList_enqueue hr, hdq.2, hcount, Nat.sub_eq_zero_of_le hr.pos]
    rfl
  exact ⟨dq, by rw [hlog, hlist, hdq.1]; rfl, hn⟩

/-- Frames that are handled without overflowing the queue are added behind what it holds. -/
theorem Ctx.Undelivered.receiveAll {c c' : Ctx} {G : List Frame} {n : ℕ} (hu : c.Undelivered n) (hr : c.events.Ok)
    (hok : c'.Ok) (hc : c'.core = c.receiveAll G) (hle : c'.log.length ≤ n + c'.queueSize) : c'.Undelivered n := by
  obtain ⟨dq, hlog, hn⟩ := hu
  obtain ⟨⟨l, hl, -, hcount⟩, hsize, -⟩ := receiveAll_count hr G
  have hlog' : c'.log = c.log ++ l := by rw [← hl, ← hc]; rfl
  have hev : c'.events = (c.receiveAll G).events := by rw [← hc]; rfl
  have hsize' : c'.queueSize = c.queueSize := by unfold Ctx.queueSize; rw [hev]; exact hsize
  refine ⟨dq, ?_, hn⟩
  rw [hlog']
  refine queue_keeps hlog (hlog' ▸ hok.queue) (by rw [hev]; exact hcount) ?_
  rw [← hlog', hn]
  rw [hsize'] at hle
  exact hle

end Pqwire

import Pqwire.Lib.Stream
import Pqwire.Proof.Invariant

/-!
# Chunking does not matter

The framing loop, seen without its buffer management, is an incremental consumer: its
state is the context with an empty input side (`Ctx.core`), its buffer the unparsed
input (`Ctx.resid`), and `frameStep` takes one complete frame with a length in range.
`frameStep_local` says that bytes behind a frame do not change how it is handled, and
`loops_of_drains` that the loop of the source does what the consumer does, as long as
the headers it reaches are in range.
-/

namespace Pqwire

open ByteMem

namespace Ctx

/-- The context without its input side. -/
def core (c : Ctx) : Ctx := c.setInput [] 0 0

/-- A context with `b` as its unparsed input. -/
def load (s : Ctx) (b : Bytes) : Ctx := s.setInput b b.length 0

theorem core_setInput (c : Ctx) (buf : Bytes) (len cap : ℕ) : (c.setInput buf len cap).core = c.core := rfl

theorem core_consume (c : Ctx) (n : ℕ) : (c.consume n).core = c.core := rfl

/-- The header at the front of the input, if it is complete, has a length in range. -/
def HeaderOk (c : Ctx) : Prop :=
  if c.awaitsStartup then 4 ≤ c.inputLen → 8 ≤ c.startupLen ∧ c.startupLen ≤ c.maxMessageSize
  else 5 ≤ c.inputLen → 4 ≤ c.typedLen ∧ c.typedLen ≤ c.maxMessageSize

instance (c : Ctx) : Decidable c.HeaderOk :=
  inferInstanceAs (Decidable (if c.awaitsStartup then _ else _))

/-- The loop started in `c` gets to `c'`. -/
def Reaches : Ctx → Ctx → Prop := Relation.ReflTransGen fun c c' => c.feedStep = .again c'

theorem Reaches.ok {c d : Ctx} (hd : c.Reaches d) (h : c.Ok) : d.Ok := by
  induction hd with
  | refl => exact h
  | tail _ hs ih => exact feedStep_ok ih (Or.inl hs)

end Ctx

/-- Take one complete frame with a length in range from the front of `b`. -/
def frameStep (s : Ctx) (b : Bytes) : Option (Ctx × Bytes) :=
  let c := s.load b
  if s.awaitsStartup then
    if 8 ≤ c.startupLen ∧ c.startupLen ≤ c.maxMessageSize ∧ c.startupLen ≤ b.length then
      some (c.afterStartup.core, b.drop c.startupLen)
    else none
  else if 5 ≤ b.length ∧ 4 ≤ c.typedLen ∧ c.typedLen ≤ c.maxMessageSize ∧ 1 + c.typedLen ≤ b.length then
    some (c.afterMessage.core, b.drop (1 + c.typedLen))
  else none

/-! ## Bytes behind the frame -/

theorem agreeAt_append {base n : ℕ} {b : Bytes} (h : base + n ≤ b.length) (t : Bytes) : AgreeAt base n (b ++ t) b :=
  fun _ _ _ hp => slice_append_left (by omega)

theorem agreeAt_take {base n len : ℕ} {buf : Bytes} (h : base + n ≤ len) (hl : len ≤ buf.length) :
    AgreeAt base n buf (buf.take len) := by
  have hb : base + n ≤ (buf.take len).length := by rw [List.length_take]; omega
  have := agreeAt_append hb (buf.drop len)
  rwa [List.take_append_drop] at this

/-- **How a message is handled does not depend on the input behind it.** -/
theorem afterMessage_core {c : Ctx} {buf : Bytes} (len cap : ℕ) (hl : 5 ≤ c.inputLen)
    (hm : 1 + c.typedLen ≤ c.inputLen) (hc : c.inputLen ≤ c.inputBuf.length)
    (hb : buf = c.inputBuf.take c.inputLen ++ buf.drop c.inputLen) :
    ((c.setInput buf len cap).afterMessage).core = c.afterMessage.core ∧
      (c.setInput buf len cap).typedLen = c.typedLen := by
  have hlen : (c.inputBuf.take c.inputLen).length = c.inputLen := by rw [List.length_take]; omega
  have ht : (c.setInput buf len cap).typedLen = c.typedLen := by
    show rd32Be buf 1 = rd32Be c.inputBuf 1
    rw [hb, rd32Be_append_left _ (by omega), rd32Be_take (by omega)]
  have hty : buf.getD 0 0 = c.inputBuf.getD 0 0 := by
    rw [hb, List.getD_eq_getElem?_getD, List.getElem?_append_left (by omega),
      List.getElem?_take_of_lt (by omega), List.getD_eq_getElem?_getD]
  have hagree : AgreeAt 5 (c.typedLen - 4) buf c.inputBuf := by
    intro p k hp hk
    rw [hb, slice_append_left (by omega)]
    have hle : 5 + (c.typedLen - 4) ≤ c.inputLen := by omega
    exact (agreeAt_take hle hc p k hp hk).symm
  have hbody : slice buf 5 (c.typedLen - 4) = slice c.inputBuf 5 (c.typedLen - 4) := hagree 5 _ le_rfl le_rfl
  refine ⟨?_, ht⟩
  have hbuf : (c.setInput buf len cap).inputBuf = buf := rfl
  have hlb : (slice c.inputBuf 5 (c.typedLen - 4)).length = c.typedLen - 4 := slice_length (by omega)
  unfold Ctx.afterMessage
  rw [Ctx.core_consume, Ctx.core_consume, ht, hbuf, hty, hbody,
    handleMessage_setInput _ (by rw [hlb]; exact hagree), Ctx.core_setInput]

theorem afterStartup_core {c : Ctx} {buf : Bytes} (len cap : ℕ) (hl : 4 ≤ c.startupLen)
    (hm : c.startupLen ≤ c.inputLen) (hc : c.inputLen ≤ c.inputBuf.length)
    (hb : buf = c.inputBuf.take c.inputLen ++ buf.drop c.inputLen) :
    ((c.setInput buf len cap).afterStartup).core = c.afterStartup.core ∧
      (c.setInput buf len cap).startupLen = c.startupLen := by
  have hlen : (c.inputBuf.take c.inputLen).length = c.inputLen := by rw [List.length_take]; omega
  have ht : (c.setInput buf len cap).startupLen = c.startupLen := by
    show rd32Be buf 0 = rd32Be c.inputBuf 0
    rw [hb, rd32Be_append_left _ (by omega), rd32Be_take (by omega)]
  have hbody : slice buf 4 (c.startupLen - 4) = slice c.inputBuf 4 (c.startupLen - 4) := by
    rw [hb, slice_append_left (by omega)]
    have hle : 4 + (c.startupLen - 4) ≤ c.inputLen := by omega
    exact (agreeAt_take hle hc 4 _ le_rfl le_rfl).symm
  refine ⟨?_, ht⟩
  have hbuf : (c.setInput buf len cap).inputBuf = buf := rfl
  unfold Ctx.afterStartup
  rw [Ctx.core_consume, Ctx.core_consume, ht, hbuf, hbody, parseStartupBody_setInput, Ctx.core_setInput]

theorem frameStep_local : Stream.Local frameStep := by
  intro s b s' b' h t
  have hld : s.load (b ++ t) = (s.load b).setInput (b ++ t) (b ++ t).length 0 := rfl
  have hbuf : b ++ t = (s.load b).inputBuf.take (s.load b).inputLen ++ (b ++ t).drop (s.load b).inputLen := by
    show b ++ t = b.take b.length ++ (b ++ t).drop b.length
    rw [List.take_length, List.drop_left]
  unfold frameStep at h ⊢
  dsimp only at h ⊢
  -- a frame that is complete in `b` is the same frame when more bytes follow
  split
  · rename_i ha
    rw [if_pos ha] at h
    split at h
    · rename_i hr
      obtain ⟨hr1, hr2, hr3⟩ := hr
      simp only [Option.some.injEq, Prod.mk.injEq] at h
      obtain ⟨rfl, rfl⟩ := h
      obtain ⟨h1, h2⟩ := afterStartup_core (c := s.load b) (b ++ t).length 0 (by omega) hr3
        le_rfl hbuf
      rw [hld, h1, h2, if_pos ⟨hr1, hr2, by rw [List.length_append]; omega⟩,
        List.drop_append_of_le_length hr3]
    · cases h
  · rename_i ha
    rw [if_neg ha] at h
    split at h
    · rename_i hr
      obtain ⟨hr0, hr1, hr2, hr3⟩ := hr
      simp only [Option.some.injEq, Prod.mk.injEq] at h
      obtain ⟨rfl, rfl⟩ := h
      obtain ⟨h1, h2⟩ := afterMessage_core (c := s.load b) (b ++ t).length 0 hr0 hr3 le_rfl hbuf
      rw [hld, h1, h2, if_pos ⟨by rw [List.length_append]; omega, hr1, hr2, by rw [List.length_append]; omega⟩,
        List.drop_append_of_le_length hr3]
    · cases h

theorem frameStep_shrinking : Stream.Shrinking frameStep := by
  intro s b s' b' h
  unfold frameStep at h
  dsimp only at h
  split at h
  · split at h
    · simp only [Option.some.injEq, Prod.mk.injEq] at h
      obtain ⟨-, rfl⟩ := h
      rw [List.length_drop]; omega
    · cases h
  · split at h
    · simp only [Option.some.injEq, Prod.mk.injEq] at h
      obtain ⟨-, rfl⟩ := h
      rw [List.length_drop]; omega
    · cases h

/-! ## The loop and the consumer -/

theorem consume_resid {c : Ctx} {n : ℕ} (hn : n ≤ c.inputLen) (hl : c.inputLen ≤ c.inputBuf.length) :
    (c.consume n).resid = c.resid.drop n := by
  show (shiftDown c.inputBuf n (c.inputLen - n)).take (c.inputLen - n) = (c.inputBuf.take c.inputLen).drop n
  rw [shiftDown_take (by omega), slice, List.drop_take]

theorem resid_length {c : Ctx} (h : c.Ok) : c.resid.length = c.inputLen := by
  have := h.input
  unfold Ctx.resid; rw [List.length_take]; omega

theorem resid_split {c : Ctx} (h : c.Ok) :
    c.resid = c.inputBuf.take c.inputLen ++ c.resid.drop c.inputLen := by
  rw [List.drop_of_length_le (by rw [resid_length h]), List.append_nil]; rfl

theorem Handled.resid {c c' : Ctx} {body : Bytes} (h : Handled c body c') : c'.resid = c.resid := by
  unfold Ctx.resid; rw [h.inputBuf, h.inputLen]

theorem afterMessage_resid {c : Ctx} (h : c.Ok) (hm : 1 + c.typedLen ≤ c.inputLen) :
    c.afterMessage.resid = c.resid.drop (1 + c.typedLen) := by
  have hh := handleMessage_handled c (c.inputBuf.getD 0 0) 5 (slice c.inputBuf 5 (c.typedLen - 4))
  unfold Ctx.afterMessage
  rw [consume_resid (by rw [hh.inputLen]; exact hm) (by rw [hh.inputLen, hh.inputBuf]; exact h.input),
    hh.resid]

theorem afterStartup_resid {c : Ctx} (h : c.Ok) (hm : c.startupLen ≤ c.inputLen) :
    c.afterStartup.resid = c.resid.drop c.startupLen := by
  have hh := parseStartupBody_handled c (slice c.inputBuf 4 (c.startupLen - 4))
  unfold Ctx.afterStartup
  rw [consume_resid (by rw [hh.inputLen]; exact hm) (by rw [hh.inputLen, hh.inputBuf]; exact h.input),
    hh.resid]

theorem load_core_resid (c : Ctx) : c.core.load c.resid = c.setInput c.resid c.resid.length 0 := rfl

/-- The lengths the consumer reads are those of the context. -/
theorem load_lens (c : Ctx) :
    (4 ≤ c.inputLen → (c.core.load c.resid).startupLen = c.startupLen) ∧
      (5 ≤ c.inputLen → (c.core.load c.resid).typedLen = c.typedLen) :=
  ⟨fun hl => rd32Be_take (p := c.inputBuf) (by omega), fun hl => rd32Be_take (p := c.inputBuf) (by omega)⟩

/-- **A round on a header in range is a step of the consumer**, and the loop breaks
exactly where the consumer needs more input. -/
theorem feedStep_frame {c : Ctx} (h : c.Ok) (hh : c.HeaderOk) :
    (∀ c', c.feedStep = .again c' → frameStep c.core c.resid = some (c'.core, c'.resid)) ∧
      (∀ c', c.feedStep = .stop c' → c' = c ∧ frameStep c.core c.resid = none) := by
  have hlen := resid_length h
  have haw : c.core.awaitsStartup = c.awaitsStartup := rfl
  have hmax : (c.core.load c.resid).maxMessageSize = c.maxMessageSize := rfl
  constructor
  · intro c' hs
    have hr := feedStep_rounds c
    rw [hs] at hr
    cases hr with
    | startup ha h8 hm hl =>
      obtain ⟨h1, h2⟩ := afterStartup_core c.resid.length 0 (by omega) hl h.input (resid_split h)
      unfold frameStep
      rw [haw, if_pos ha, load_core_resid]
      rw [h2, h1, hlen, if_pos ⟨h8, hm, hl⟩, afterStartup_resid h hl]
    -- a header in range is never rejected
    | reject ha h5 hbad =>
      unfold Ctx.HeaderOk at hh
      rw [if_neg (by simp [ha])] at hh
      have := hh h5
      omega
    | message ha h4 hm hl =>
      obtain ⟨h1, h2⟩ := afterMessage_core c.resid.length 0 (by omega) hl h.input (resid_split h)
      unfold frameStep
      rw [haw, if_neg (by simp [ha]), load_core_resid]
      rw [h2, h1, hlen, if_pos ⟨by omega, h4, hm, hl⟩, afterMessage_resid h hl]
  · intro c' hs
    have hr := feedStep_rounds c
    rw [hs] at hr
    cases hr with
    | wait hw =>
      -- the frame is not complete, here and for the consumer
      refine ⟨rfl, ?_⟩
      obtain ⟨hl4, hl5⟩ := load_lens c
      unfold Ctx.Waits at hw
      unfold frameStep
      dsimp only
      rw [haw, hmax, hlen]
      split
      · rename_i ha
        rw [if_pos ha] at hw
        rw [if_neg]
        rintro ⟨h1, h2, h3⟩
        rcases hw with hw | ⟨-, -, hw⟩
        · omega
        · rw [hl4 (by omega)] at h3; omega
      · rename_i ha
        rw [if_neg ha] at hw
        rw [if_neg]
        rintro ⟨h0, h1, h2, h3⟩
        rcases hw with hw | ⟨-, -, hw⟩
        · omega
        · rw [hl5 (by omega)] at h3; omega
    | badStartup ha h4 hbad =>
      unfold Ctx.HeaderOk at hh
      rw [if_pos ha] at hh
      have := hh h4
      omega

/-- A header in range, for the consumer. -/
def HdrOk (s : Ctx) (b : Bytes) : Prop := (s.load b).HeaderOk

theorem hdrOk_prefix (s : Ctx) (b t : Bytes) (h : HdrOk s (b ++ t)) : HdrOk s b := by
  unfold HdrOk Ctx.HeaderOk at *
  have haw : ∀ b, (s.load b).awaitsStartup = s.awaitsStartup := fun _ => rfl
  have hlen : ∀ b, (s.load b).inputLen = b.length := fun _ => rfl
  rw [haw, hlen] at *
  split
  · rename_i ha
    rw [if_pos ha] at h
    intro hl
    have := h (by rw [List.length_append]; omega)
    have he : (s.load (b ++ t)).startupLen = (s.load b).startupLen := rd32Be_append_left t (by omega)
    rwa [he] at this
  · rename_i ha
    rw [if_neg ha] at h
    intro hl
    have := h (by rw [List.length_append]; omega)
    have he : (s.load (b ++ t)).typedLen = (s.load b).typedLen := rd32Be_append_left t (by omega)
    rwa [he] at this

theorem headerOk_iff {c : Ctx} (h : c.Ok) : HdrOk c.core c.resid ↔ c.HeaderOk := by
  obtain ⟨hl4, hl5⟩ := load_lens c
  have haw : (c.core.load c.resid).awaitsStartup = c.awaitsStartup := rfl
  have hlen : (c.core.load c.resid).inputLen = c.inputLen := resid_length h
  have hmax : (c.core.load c.resid).maxMessageSize = c.maxMessageSize := rfl
  unfold HdrOk Ctx.HeaderOk
  rw [haw, hlen, hmax]
  split
  · exact forall_congr' fun hl => by rw [hl4 hl]
  · exact forall_congr' fun hl => by rw [hl5 hl]

/-- **The loop does what the consumer does** while headers are in range. -/
theorem loops_of_drains {s' : Ctx} {b' : Bytes} {c : Ctx} (h : c.Ok)
    (hP : Stream.Always frameStep HdrOk c.core c.resid) (hd : Stream.Drains frameStep c.core c.resid s' b') :
    ∃ c', Loops c c' ∧ c'.core = s' ∧ c'.resid = b' := by
  generalize hs : c.core = s at hd hP
  generalize hb : c.resid = b at hd hP
  induction hd generalizing c with
  | @done s b hn =>
    subst hs hb
    have hf := feedStep_frame h ((headerOk_iff h).1 hP.here)
    cases hr : c.feedStep with
    | again c' => rw [hf.1 c' hr] at hn; cases hn
    | stop c' =>
      obtain ⟨rfl, -⟩ := hf.2 c' hr
      exact ⟨c', .stop hr, rfl, rfl⟩
  | @next s s₁ s' b b₁ b' hst hd ih =>
    subst hs hb
    have hf := feedStep_frame h ((headerOk_iff h).1 hP.here)
    cases hr : c.feedStep with
    | again c₁ =>
      have he := hf.1 c₁ hr
      rw [hst] at he
      simp only [Option.some.injEq, Prod.mk.injEq] at he
      obtain ⟨rfl, rfl⟩ := he
      obtain ⟨c', hl, h1, h2⟩ := ih (feedStep_ok h (Or.inl hr)) rfl rfl (hP.next hst)
      exact ⟨c', .again hr hl, h1, h2⟩
    | stop c' => rw [(hf.2 c' hr).2] at hst; cases hst

/-- The loop reaches what the consumer steps to. -/
theorem always_of_reaches {c : Ctx} (h : c.Ok) (hr : ∀ c', c.Reaches c' → c'.HeaderOk) :
    Stream.Always frameStep HdrOk c.core c.resid := by
  intro s' b' hst
  have key : ∃ c', c.Reaches c' ∧ c'.Ok ∧ c'.core = s' ∧ c'.resid = b' := by
    generalize hs : c.core = s at hst
    generalize hb : c.resid = b at hst
    induction hst generalizing c with
    | refl s b => exact ⟨c, .refl, h, hs, hb⟩
    | @next s s₁ s' b b₁ b' hst _ ih =>
      subst hs hb
      have hf := feedStep_frame h (hr c .refl)
      cases hc : c.feedStep with
      | stop c' => rw [(hf.2 c' hc).2] at hst; cases hst
      | again c₁ =>
        have he := hf.1 c₁ hc
        rw [hst] at he
        simp only [Option.some.injEq, Prod.mk.injEq] at he
        obtain ⟨rfl, rfl⟩ := he
        obtain ⟨c', h1, h2⟩ := ih (feedStep_ok h (Or.inl hc)) (fun c' hc' => hr c' (.head hc hc')) rfl rfl
        exact ⟨c', .head hc h1, h2⟩
  obtain ⟨c', h1, h2, rfl, rfl⟩ := key
  exact (headerOk_iff h2).2 (hr c' h1)

/-! ## Calls -/

theorem frameStep_allocs {s s' : Ctx} {b b' : Bytes} (h : frameStep s b = some (s', b')) : s'.allocs = s.allocs := by
  unfold frameStep at h
  dsimp only at h
  split at h
  · split at h
    · simp only [Option.some.injEq, Prod.mk.injEq] at h
      obtain ⟨rfl, -⟩ := h
      exact (parseStartupBody_handled (s.load b) _).allocs
    · cases h
  · split at h
    · simp only [Option.some.injEq, Prod.mk.injEq] at h
      obtain ⟨rfl, -⟩ := h
      exact (handleMessage_handled (s.load b) _ _ _).allocs
    · cases h

theorem drains_allocs {s s' : Ctx} {b b' : Bytes} (h : Stream.Drains frameStep s b s' b') :
    s'.allocs = s.allocs := by
  induction h with
  | done _ => rfl
  | next hs _ ih => rw [ih, frameStep_allocs hs]

/-- With allocation succeeding, a call accepts its bytes. -/
theorem acceptInput_core {c : Ctx} (h : c.Ok) (ha : c.allocs = []) (data : Bytes) :
    ∃ c₁, c.acceptInput data = some c₁ ∧ c₁.Ok ∧ c₁.core = c.core ∧ c₁.resid = c.resid ++ data := by
  have hb := blit_take h.input data
  have hok : c.allocOk = true := by unfold Ctx.allocOk; rw [ha]; rfl
  have hal : c.allocated = c := by unfold Ctx.allocated; cases c; simp_all
  have key : ∀ cap, ∃ c₁ : Ctx, c.setInput (blit c.inputBuf c.inputLen data) (c.inputLen + data.length) cap = c₁ ∧
      c₁.Ok ∧ c₁.core = c.core ∧ c₁.resid = c.resid ++ data := by
    intro cap
    refine ⟨_, rfl, h.withInput _ ?_, rfl, hb⟩
    rw [blit_length h.input]; omega
  unfold Ctx.acceptInput
  rw [if_pos hok, hal]
  split
  · obtain ⟨c₁, h1, h2⟩ := key (c.inputLen + data.length + 1024)
    exact ⟨c₁, congrArg some h1, h2⟩
  · obtain ⟨c₁, h1, h2⟩ := key c.inputCap
    exact ⟨c₁, congrArg some h1, h2⟩

/-- **A call does what the consumer does on the input left over and the new bytes.** -/
theorem feeds_of_drains {c s' : Ctx} {data b' : Bytes} (h : c.Ok) (ha : c.allocs = [])
    (hP : Stream.Always frameStep HdrOk c.core (c.resid ++ data))
    (hd : Stream.Drains frameStep c.core (c.resid ++ data) s' b') :
    ∃ c', Feeds c data c' ∧ c'.Ok ∧ c'.core = s' ∧ c'.resid = b' := by
  obtain ⟨c₁, hacc, hok, hc, hr⟩ := acceptInput_core h ha data
  rw [← hc, ← hr] at hP hd
  obtain ⟨c', hl, h1, h2⟩ := loops_of_drains hok hP hd
  exact ⟨c', ⟨c₁, hacc, hl⟩, (loops_ok hl hok).1, h1, h2⟩

theorem waits_stuck {c : Ctx} (h : c.Ok) (hw : c.Waits) : frameStep c.core c.resid = none := by
  have hh : c.HeaderOk := by
    unfold Ctx.Waits at hw
    unfold Ctx.HeaderOk
    split
    · rename_i ha; rw [if_pos ha] at hw; intro hl; omega
    · rename_i ha; rw [if_neg ha] at hw; intro hl; omega
  exact ((feedStep_frame h hh).2 c (feedStep_eq (.wait hw))).2

theorem feedsAll_of_drains {s' : Ctx} {b' : Bytes} : ∀ {chunks : List Bytes} {c : Ctx}, c.Ok → c.allocs = [] →
    frameStep c.core c.resid = none →
    Stream.Always frameStep HdrOk c.core (c.resid ++ chunks.flatten) →
    Stream.Drains frameStep c.core (c.resid ++ chunks.flatten) s' b' →
    ∃ c', FeedsAll c chunks c' ∧ c'.core = s' ∧ c'.resid = b' := by
  intro chunks
  induction chunks with
  | nil =>
    intro c _ _ hst _ hd
    rw [List.flatten_nil, List.append_nil] at hd
    obtain ⟨rfl, rfl⟩ := hd.of_stuck hst
    exact ⟨c, .nil c, rfl, rfl⟩
  | cons d ds ih =>
    intro c h ha hst hP hd
    rw [List.flatten_cons, ← List.append_assoc] at hP hd
    obtain ⟨s₁, b₁, hd₁⟩ := Stream.exists_drains frameStep_shrinking c.core (c.resid ++ d)
    obtain ⟨c₁, hf, hok, rfl, rfl⟩ := feeds_of_drains h ha (hP.of_append frameStep_local hdrOk_prefix) hd₁
    have ha₁ : c₁.allocs = [] := (drains_allocs hd₁).trans ha
    obtain ⟨c', hfs, h1, h2⟩ := ih hok ha₁ hd₁.stuck (hP.drains frameStep_local hd₁)
      ((Stream.drains_append frameStep_local hd₁ ds.flatten).1 hd)
    exact ⟨c', .cons hf hfs, h1, h2⟩

/-- **Chunking independence.** Whatever the reachable context and the role, a stream in
which every header the loop reaches has a length in range leaves the same context
however it is cut into calls: the two contexts differ at most in the stale bytes and the
capacity of the input buffer. The events of the ring agree with what they showed when
they were enqueued (`Queued.seen`), and both sides return. -/
theorem feed_chunking {c : Ctx} (hc : Reachable c) (ha : c.allocs = []) {stream : Bytes} {chunks : List Bytes}
    (hcut : chunks.flatten = stream)
    (hr : ∀ c₀ c₁, c.acceptInput stream = some c₀ → c₀.Reaches c₁ → c₁.HeaderOk) :
    ∃ c₁ c₂, Feeds c stream c₁ ∧ FeedsAll c chunks c₂ ∧ c₁.core = c₂.core ∧ c₁.resid = c₂.resid := by
  obtain ⟨hok, hw⟩ := reachable_ok hc
  obtain ⟨c₀, hacc, hok₀, hcore, hres⟩ := acceptInput_core hok ha stream
  have hP := always_of_reaches hok₀ (fun c₁ h => hr c₀ c₁ hacc h)
  rw [hcore, hres] at hP
  obtain ⟨s', b', hd⟩ := Stream.exists_drains frameStep_shrinking c.core (c.resid ++ stream)
  obtain ⟨c₁, hf, -, h1, h2⟩ := feeds_of_drains hok ha hP hd
  rw [← hcut] at hP hd
  obtain ⟨c₂, hfs, h3, h4⟩ := feedsAll_of_drains hok ha (waits_stuck hok hw) hP hd
  exact ⟨c₁, c₂, hf, hfs, h1.trans h3.symm, h2.trans h4.symm⟩

/-- A client with one queue slot. -/
def tinyClient : Ctx := { role := .client, maxMessageSize := 64, events := RingBuf.init 1 }

theorem tinyClient_reachable : Reachable tinyClient :=
  @Reachable.create .client { eventQueueSize := 1, maxMessageSize := 64 } [] _ rfl

/-- A ReadyForQuery cut inside its length field. -/
theorem feed_chunking_ready :
    Reachable tinyClient ∧ ∃ c₁ c₂, Feeds tinyClient [90, 0, 0, 0, 5, 73] c₁ ∧
      FeedsAll tinyClient [[90, 0], [0, 0, 5], [73]] c₂ ∧ c₁.core = c₂.core ∧ c₁.resid = c₂.resid := by
  refine ⟨tinyClient_reachable, feed_chunking tinyClient_reachable rfl rfl ?_⟩
  intro c₀ c₁ hacc hr
  have h0 : c₀ = tinyClient.setInput [90, 0, 0, 0, 5, 73] 6 4096 := (Option.some_inj.1 hacc).symm
  subst h0
  rcases Relation.ReflTransGen.cases_head hr with rfl | ⟨d, hd, hr⟩
  · decide
  · have h1 := feedStep_eq (.message (c := tinyClient.setInput [90, 0, 0, 0, 5, 73] 6 4096)
      (by decide) (by decide) (by decide) (by decide))
    rw [hd] at h1
    cases h1
    rcases Relation.ReflTransGen.cases_head hr with rfl | ⟨e, he, -⟩
    · decide
    · have h2 := feedStep_eq (.wait
        (c := (tinyClient.setInput [90, 0, 0, 0, 5, 73] 6 4096).afterMessage) (Or.inl (by decide)))
      rw [he] at h2
      cases h2

end Pqwire

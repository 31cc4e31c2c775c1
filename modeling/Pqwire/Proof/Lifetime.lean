import Pqwire.Proof.Builders
import Pqwire.Proof.Halves

/-!
# A context on the heap, from creation to destruction

* `CtxMem.Lives`: the blocks of a context are on the heap, the buffers with the bytes that the
  model has.
* `createWithConfig_lives`, `feedInput_lives`, `run_lives`: creation and the calls on a context do
  what the model without a heap says.
* `context_memory`: no run of calls does what C leaves undefined, and nothing is left of a context
  that is destroyed.
-/

namespace Pqwire

open ByteMem CHeap

/-- What the buffers and the allocations have no part in. -/
def Ctx.rest (c : Ctx) : Ctx := (c.setInput [] 0 0).setSent [] 0 []

/-- Contexts that differ in their buffers only. -/
theorem eq_of_rest {c d : Ctx} (h : d.rest = c.rest) :
    d = (c.setInput d.inputBuf d.inputLen d.inputCap).setSent d.output d.outputCap d.allocs :=
  congrArg (fun x => (x.setInput d.inputBuf d.inputLen d.inputCap).setSent d.output d.outputCap d.allocs) h

namespace CtxMem

variable {base : ℕ → Option Bytes} {os : List Bool} {c : Ctx} {m : CtxMem}

/-- The input buffer of the context is the block `b`. -/
structure InputBacks (i : Growing) (b : Bytes) (c : Ctx) : Prop where
  len : i.len = c.inputLen
  cap : i.cap = c.inputCap
  size : b.length = i.cap
  held : c.inputLen ≤ c.inputBuf.length
  bytes : c.inputBuf <+: b

theorem InputBacks.fits {i : Growing} {b : Bytes} (h : InputBacks i b c) : i.len ≤ b.length := by
  rw [h.len]
  exact h.held.trans h.bytes.length_le

/-- The blocks of the context are on the heap and nothing else besides `base`. -/
def Lives (c : Ctx) (base : ℕ → Option Bytes) (m : CtxMem) (h : Heap) : Prop :=
  ∃ bi be bc, InputBacks m.input bi c ∧ m.output.Stands c base [(m.input.buf, bi), (m.events, be), (m.ctx, bc)] h

theorem destroy_owns : Triple (Lives c base m) m.destroy fun _ => Owns base [] c.allocs := by
  refine Triple.ex fun bi => Triple.ex fun be => Triple.ex fun bc => Triple.assume fun _ => ?_
  refine Triple.ex fun b => Triple.assume fun _ => ?_
  unfold destroy
  have hperm : ∀ h, Owns base [(m.output.buf, b), (m.input.buf, bi), (m.events, be), (m.ctx, bc)] c.allocs h →
      Owns base [(m.events, be), (m.output.buf, b), (m.input.buf, bi), (m.ctx, bc)] c.allocs h := by
    intro h ho
    have hmid : ([(m.output.buf, b), (m.input.buf, bi)] ++ (m.events, be) :: [(m.ctx, bc)]).Perm
        ((m.events, be) :: ([(m.output.buf, b), (m.input.buf, bi)] ++ [(m.ctx, bc)])) := List.perm_middle
    exact ho.perm hmid
  exact (free_owns.pre hperm).bind fun _ => free_owns.bind fun _ => free_owns.bind fun _ => free_owns

/-- The outcomes of the four allocations. -/
theorem all_outcomes (os : List Bool) : (os.take 4).all id =
    (os.headD true && (os.tail.headD true && (os.tail.tail.headD true && os.tail.tail.tail.headD true))) := by
  rcases os with _ | ⟨a, _ | ⟨b, _ | ⟨c, _ | ⟨d, t⟩⟩⟩⟩
  all_goals simp

theorem drop_outcomes (os : List Bool) : os.drop 4 = os.tail.tail.tail.tail := by
  simp only [List.drop_one.symm, List.drop_drop]

/-- What a creation leaves: the blocks of the context, or nothing. -/
def Created (base : ℕ → Option Bytes) (res : Option Ctx) (r : Option CtxMem) (h : Heap) : Prop :=
  match r, res with
  | none, none => ∃ os', Owns base [] os' h
  | some m, some c => Lives c base m h
  | _, _ => False

/-- What a creation that fails frees. -/
theorem create_undo {ce co ci : Option (ℕ × Bytes)} {ctx : ℕ} {bc : Bytes} :
    Triple (Owns base (ci.toList ++ (co.toList ++ (ce.toList ++ [(ctx, bc)]))) os)
      (do
        free (ce.map Prod.fst)
        free (co.map Prod.fst)
        free (ci.map Prod.fst)
        free (some ctx)
        return (none : Option CtxMem))
      fun r h => r = none ∧ Owns base [] os h := by
  have hperm : (ci.toList ++ (co.toList ++ (ce.toList ++ [(ctx, bc)]))).Perm
      (ce.toList ++ (co.toList ++ (ci.toList ++ [(ctx, bc)]))) := by
    have h1 : (ci.toList ++ (co.toList ++ (ce.toList ++ [(ctx, bc)]))).Perm
        (co.toList ++ (ci.toList ++ (ce.toList ++ [(ctx, bc)]))) := List.perm_append_comm_assoc ..
    have h2 : (co.toList ++ (ci.toList ++ (ce.toList ++ [(ctx, bc)]))).Perm
        (co.toList ++ (ce.toList ++ (ci.toList ++ [(ctx, bc)]))) := (List.perm_append_comm_assoc ..).append_left _
    exact (h1.trans h2).trans (List.perm_append_comm_assoc ..)
  refine (free_cell.pre fun h ho => ho.perm hperm).bind fun _ => free_cell.bind fun _ => free_cell.bind fun _ => ?_
  exact free_owns.bind fun _ => .pure fun h ho => ⟨rfl, ho⟩

/-- **Creation on the heap is creation in the model**, and a failed one leaves nothing behind. -/
theorem createWithConfig_lives (role : Role) (config : Config) (ctxSize eventSize : ℕ) :
    Triple (Owns base [] os) (createWithConfig config ctxSize eventSize)
      (Created base (Pqwire.createWithConfig role config os)) := by
  unfold createWithConfig Pqwire.createWithConfig
  by_cases hq : config.eventQueueSize ≤ 0
  · rw [if_pos hq, if_pos hq]
    exact .pure fun h ho => ⟨os, ho⟩
  rw [if_neg hq, if_neg hq]
  refine calloc_owns.bind fun r => ?_
  by_cases hok : os.headD true = true
  · simp only [hok, if_true]
    refine Triple.ex fun ctx => Triple.ex fun bc => Triple.assume ?_
    rintro rfl
    refine Triple.assume fun _ => ?_
    refine calloc_cell.bind fun events => Triple.ex fun ce => Triple.assume ?_
    rintro rfl
    refine Triple.assume fun hce => Triple.assume fun _ => ?_
    refine malloc_cell.bind fun output => Triple.ex fun co => Triple.assume ?_
    rintro rfl
    refine Triple.assume fun hco => Triple.assume fun hbo => ?_
    refine malloc_cell.bind fun input => Triple.ex fun ci => Triple.assume ?_
    rintro rfl
    refine Triple.assume fun hci => Triple.assume fun hbi => ?_
    have hall : (os.take 4).all id = (ce.isSome && (co.isSome && ci.isSome)) := by
      rw [all_outcomes, hok, hce, hco, hci, Bool.true_and]
    rw [hall, drop_outcomes]
    by_cases hsome : (ce.isSome && (co.isSome && ci.isSome)) = true
    · simp only [Bool.and_eq_true] at hsome
      obtain ⟨⟨e, be⟩, rfl⟩ := Option.isSome_iff_exists.1 hsome.1
      obtain ⟨⟨a, bo⟩, rfl⟩ := Option.isSome_iff_exists.1 hsome.2.1
      obtain ⟨⟨i, bi⟩, rfl⟩ := Option.isSome_iff_exists.1 hsome.2.2
      have hlo : bo.length = 4096 := hbo _ rfl
      have hli : bi.length = 4096 := hbi _ rfl
      refine .pure ?_
      intro h ho
      refine ⟨bi, be, bc, ⟨rfl, rfl, hli, le_rfl, List.nil_prefix⟩, bo, ⟨rfl, rfl, hlo, List.nil_prefix⟩, ?_⟩
      exact ho.perm (List.Perm.swap ..)
    · have hres : ∀ x : Ctx, (if (ce.isSome && (co.isSome && ci.isSome)) = true then some x else none) = none :=
        fun x => if_neg hsome
      rw [hres]
      have hundo := @create_undo base os.tail.tail.tail.tail ce co ci ctx bc
      have hend : Triple _ _ (Created base none) := hundo.conseq (fun _ ho => ho) (by rintro r h ⟨rfl, ho⟩; exact ⟨_, ho⟩)
      cases ce with
      | none => exact hend
      | some e =>
        cases co with
        | none => exact hend
        | some a =>
          cases ci with
          | none => exact hend
          | some i => exact absurd rfl hsome
  · simp only [hok, Bool.false_eq_true, if_false]
    refine Triple.assume ?_
    rintro rfl
    have hall : (os.take 4).all id = false := by
      rw [all_outcomes, Bool.eq_false_iff.2 hok]
      rfl
    rw [hall]
    exact .pure fun h ho => ⟨_, ho⟩

/-! ## The input buffer -/

section Input

variable {l : List (ℕ × Bytes)} {i : Growing} {b : Bytes} {d : Ctx}

/-- **Accepting bytes on the heap is accepting them in the model.** -/
theorem acceptInput_owns (hi : InputBacks i b c) (data : Bytes) :
    Triple (Owns base ((i.buf, b) :: l) c.allocs) (i.acceptInput data) fun r h =>
      r.2 = (c.acceptInput data).isSome ∧
        ∃ b', InputBacks r.1 b' ((c.acceptInput data).getD c.allocated) ∧
          Owns base ((r.1.buf, b') :: l) ((c.acceptInput data).getD c.allocated).allocs h := by
  have hsize := hi.size
  have hfits := hi.fits
  have hheld := hi.held
  have hlen := hi.len
  have hcap := hi.cap
  unfold Growing.acceptInput Ctx.acceptInput
  rw [← hlen, ← hcap]
  by_cases hgrow : i.len + data.length > i.cap
  · rw [if_pos hgrow, if_pos hgrow]
    refine realloc_owns.bind fun r => ?_
    unfold Ctx.allocOk
    by_cases hok : c.allocs.headD true = true
    · simp only [hok, if_true]
      refine Triple.ex fun a => Triple.ex fun new => Triple.assume ?_
      rintro rfl
      refine Triple.assume fun hlen' => ?_
      have hnew : (resize b new).length = i.len + data.length + 1024 := resize_length.trans hlen'
      refine (store_owns (by omega)).bind fun _ => .pure ?_
      intro h ho
      have hgrown : c.inputBuf <+: resize b new := hi.bytes.trans (prefix_resize (by omega))
      refine ⟨rfl, _, ⟨rfl, rfl, ?_, ?_, blit_mono hgrown (by omega) data⟩, ho⟩
      · rw [blit_length (by omega), hnew]
        exact max_eq_left (Nat.le_add_right _ _)
      · change i.len + data.length ≤ (blit c.inputBuf i.len data).length
        rw [blit_length (by omega)]
        exact le_max_right _ _
    · simp only [hok, Bool.false_eq_true, if_false]
      refine Triple.assume ?_
      rintro rfl
      exact .pure fun h ho => ⟨rfl, b, ⟨hlen, hcap, hsize, hheld, hi.bytes⟩, ho⟩
  · rw [if_neg hgrow, if_neg hgrow]
    refine (store_owns (by omega)).bind fun _ => .pure ?_
    intro h ho
    refine ⟨rfl, _, ⟨rfl, rfl, ?_, ?_, blit_mono hi.bytes (by omega) data⟩, ho⟩
    · rw [blit_length (by omega)]
      change max b.length _ = i.cap
      omega
    · change i.len + data.length ≤ (blit c.inputBuf i.len data).length
      rw [blit_length (by omega)]
      exact le_max_right _ _

/-- What the input of the model holds is in the block. -/
theorem InputBacks.shows (hi : InputBacks i b c) {off n : ℕ} (h : off + n ≤ i.len) :
    slice b off n = slice c.inputBuf off n := by
  have := hi.held
  have := hi.len
  exact slice_mono hi.bytes (by omega)

/-- `memmove` to the front of the buffer, as the model has it. -/
theorem blit_slice {p : Bytes} {n k : ℕ} (h : n + k ≤ p.length) : blit p 0 (slice p n k) = shiftDown p n k := by
  unfold blit shiftDown
  rw [slice_length h, List.take_zero, List.nil_append, Nat.zero_add]

/-- Bytes that move to the front of the buffer. -/
theorem move_owns (hi : InputBacks i b c) {n k len : ℕ} (hnk : n + k ≤ i.len) (hle : len ≤ i.len) :
    Triple (Owns base ((i.buf, b) :: l) os)
      (do
        let rest ← load i.buf n k
        store i.buf 0 rest
        return ({ i with len := len } : Growing))
      fun r h => ∃ b', InputBacks r b' { c with inputBuf := shiftDown c.inputBuf n k, inputLen := len } ∧
        Owns base ((r.buf, b') :: l) os h := by
  have hsize := hi.size
  have hfits := hi.fits
  have hheld := hi.held
  have hlen := hi.len
  refine (load_owns (by omega)).bind fun rest => Triple.assume ?_
  rintro rfl
  have hrest : (slice b n k).length = k := slice_length (by omega)
  refine (store_owns (by omega)).bind fun _ => .pure ?_
  intro h ho
  rw [blit_slice (by omega)] at ho
  refine ⟨_, ⟨rfl, hi.cap, ?_, ?_, shiftDown_mono hi.bytes (by omega)⟩, ho⟩
  · exact (shiftDown_length (by omega)).trans hsize
  · change len ≤ (shiftDown c.inputBuf n k).length
    rw [shiftDown_length (by omega)]
    omega

/-- An input that is dropped. -/
theorem InputBacks.drop (hi : InputBacks i b c) : InputBacks { i with len := 0 } b { c with inputLen := 0 } :=
  ⟨rfl, hi.cap, hi.size, Nat.zero_le _, hi.bytes⟩

/-- The input buffer is not touched by what changes the other fields. -/
theorem InputBacks.keep {c' : Ctx} (hi : InputBacks i b c) (hbuf : c'.inputBuf = c.inputBuf) (hlen : c'.inputLen = c.inputLen)
    (hcap : c'.inputCap = c.inputCap) : InputBacks i b c' :=
  ⟨hi.len.trans hlen.symm, hi.cap.trans hcap.symm, hi.size, by rw [hlen, hbuf]; exact hi.held, by rw [hbuf]; exact hi.bytes⟩

/-! ## The framing loop -/

/-- What a round leaves: that of the model. -/
def Stepped (c : Ctx) (base : ℕ → Option Bytes) (l : List (ℕ × Bytes)) (os : List Bool) (r : Bool × Ctx × Growing) (h : Heap) :
    Prop :=
  ∃ b' c', c.feedStep = (if r.1 then .again c' else .stop c') ∧ r.2.1.rest = c'.rest ∧ InputBacks r.2.2 b' c' ∧
    Owns base ((r.2.2.buf, b') :: l) os h

theorem maxMessageSize_of_rest (hd : d.rest = c.rest) : d.maxMessageSize = c.maxMessageSize := by
  have := congrArg Ctx.maxMessageSize hd
  exact this

theorem protocolError_rest (hd : d.rest = c.rest) :
    (d.enqueueEvent .protocolError []).rest = (c.enqueueEvent .protocolError []).rest :=
  congrArg (fun x => Ctx.enqueueEvent x .protocolError []) hd

theorem parseStartupBody_rest (hd : d.rest = c.rest) (body : Bytes) :
    (parseStartupBody d body).rest = (parseStartupBody c body).rest := by
  rw [eq_of_rest hd, parseStartupBody_setSent, parseStartupBody_setInput]
  rfl

/-- A handler looks at the frame that it is given. -/
theorem handleMessage_rest (hd : d.rest = c.rest) {frame body : Bytes} (type : UInt8) {off : ℕ}
    (h : AgreeAt off body.length frame c.inputBuf) :
    (handleMessage { d with inputBuf := frame } type off body).rest = (handleMessage c type off body).rest := by
  have hframe : ({ d with inputBuf := frame } : Ctx) =
      (c.setInput frame d.inputLen d.inputCap).setSent d.output d.outputCap d.allocs :=
    congrArg (fun x => ({ x with inputBuf := frame } : Ctx)) (eq_of_rest hd)
  rw [hframe, handleMessage_setSent, handleMessage_setInput type h]
  rfl

theorem startupStep_steps (hi : InputBacks i b c) (hd : d.rest = c.rest) (haw : c.awaitsStartup = true) :
    Triple (Owns base ((i.buf, b) :: l) os) (Growing.startupStep d i) (Stepped c base l os) := by
  have hfits := hi.fits
  have hstep : c.feedStep = c.startupStep := by
    unfold Ctx.feedStep
    rw [if_pos haw]
  unfold Growing.startupStep Stepped
  rw [hstep]
  unfold Ctx.startupStep
  rw [maxMessageSize_of_rest hd, ← hi.len]
  dsimp only
  by_cases hshort : i.len < 4
  · rw [if_pos hshort, if_pos hshort]
    exact .pure fun h ho => ⟨b, c, rfl, hd, hi, ho⟩
  rw [if_neg hshort, if_neg hshort]
  refine (load_owns (by omega)).bind fun header => Triple.assume ?_
  rintro rfl
  have hmlen : rd32Be (slice b 0 4) 0 = rd32Be c.inputBuf 0 := by
    rw [hi.shows (by omega)]
    exact rd32Be_take le_rfl
  rw [hmlen]
  by_cases hbad : rd32Be c.inputBuf 0 < 8 ∨ rd32Be c.inputBuf 0 > c.maxMessageSize
  · rw [if_pos hbad, if_pos hbad]
    have hkeep : InputBacks i b (c.enqueueEvent .protocolError []) := hi.keep rfl rfl rfl
    exact .pure fun h ho => ⟨b, _, rfl, protocolError_rest hd, hkeep.drop, ho⟩
  rw [if_neg hbad, if_neg hbad]
  by_cases hwait : i.len < rd32Be c.inputBuf 0
  · rw [if_pos hwait, if_pos hwait]
    exact .pure fun h ho => ⟨b, c, rfl, hd, hi, ho⟩
  rw [if_neg hwait, if_neg hwait]
  refine (load_owns (by omega)).bind fun body => Triple.assume ?_
  rintro rfl
  rw [hi.shows (by omega)]
  have hh := parseStartupBody_handled c (slice c.inputBuf 4 (rd32Be c.inputBuf 0 - 4))
  have hi' := hi.keep hh.inputBuf hh.inputLen hh.inputCap
  refine (move_owns hi' (n := rd32Be c.inputBuf 0) (by omega) (Nat.sub_le _ _)).bind fun i' => .pure ?_
  rintro h ⟨b', hb', ho⟩
  refine ⟨b', _, rfl, parseStartupBody_rest hd _, ?_, ho⟩
  rw [hi'.len] at hb'
  exact hb'

theorem rejectFrame_owns (hi : InputBacks i b c) (mlen : ℕ) :
    Triple (Owns base ((i.buf, b) :: l) os) (i.rejectFrame mlen) fun i' h =>
      ∃ b', InputBacks i' b' (c.rejectFrame mlen) ∧ Owns base ((i'.buf, b') :: l) os h := by
  unfold Growing.rejectFrame Ctx.rejectFrame
  dsimp only
  rw [← hi.len]
  have hkeep : InputBacks i b (c.enqueueEvent .protocolError []) := hi.keep rfl rfl rfl
  by_cases hskip : mlen > 0 ∧ i.len ≥ mlen + 1
  · rw [if_pos hskip, if_pos hskip]
    exact move_owns hkeep (by omega) (Nat.sub_le _ _)
  · rw [if_neg hskip, if_neg hskip]
    exact .pure fun h ho => ⟨b, hkeep.drop, ho⟩

theorem typedStep_steps (hi : InputBacks i b c) (hd : d.rest = c.rest) (haw : c.awaitsStartup = false) :
    Triple (Owns base ((i.buf, b) :: l) os) (Growing.typedStep d i) (Stepped c base l os) := by
  have hfits := hi.fits
  have hstep : c.feedStep = c.typedStep := by
    unfold Ctx.feedStep
    rw [if_neg (by rw [haw]; exact Bool.false_ne_true)]
  unfold Growing.typedStep Stepped
  rw [hstep]
  unfold Ctx.typedStep
  rw [← maxMessageSize_of_rest hd, ← hi.len]
  dsimp only
  by_cases hshort : i.len < 5
  · rw [if_pos hshort, if_pos hshort]
    exact .pure fun h ho => ⟨b, c, rfl, hd, hi, ho⟩
  rw [if_neg hshort, if_neg hshort]
  refine (load_owns (by omega)).bind fun header => Triple.assume ?_
  rintro rfl
  have hheader : slice b 0 5 = c.inputBuf.take 5 := hi.shows (by omega)
  have hmlen : rd32Be (slice b 0 5) 1 = rd32Be c.inputBuf 1 := by
    rw [hheader]
    exact rd32Be_take le_rfl
  have htype : (slice b 0 5).getD 0 0 = c.inputBuf.getD 0 0 := by
    rw [hheader, List.getD_eq_getElem?_getD, List.getElem?_take_of_lt (by omega), List.getD_eq_getElem?_getD]
  rw [hmlen, htype]
  by_cases hbad : rd32Be c.inputBuf 1 < 4 ∨ rd32Be c.inputBuf 1 > d.maxMessageSize
  · rw [if_pos hbad, if_pos hbad]
    refine (rejectFrame_owns hi _).bind fun i' => .pure ?_
    rintro h ⟨b', hb', ho⟩
    refine ⟨b', _, rfl, ?_, hb', ho⟩
    rw [protocolError_rest hd]
    unfold Ctx.rejectFrame
    dsimp only
    split <;> rfl
  rw [if_neg hbad, if_neg hbad]
  by_cases hwait : i.len < 1 + rd32Be c.inputBuf 1
  · rw [if_pos hwait, if_pos hwait]
    exact .pure fun h ho => ⟨b, c, rfl, hd, hi, ho⟩
  rw [if_neg hwait, if_neg hwait]
  refine (load_owns (by omega)).bind fun frame => Triple.assume ?_
  rintro rfl
  have hbody : slice (slice b 0 (1 + rd32Be c.inputBuf 1)) 5 (rd32Be c.inputBuf 1 - 4) =
      slice c.inputBuf 5 (rd32Be c.inputBuf 1 - 4) := by
    rw [slice_slice b (by omega), hi.shows (by omega), Nat.zero_add]
  have hagree : AgreeAt 5 (slice c.inputBuf 5 (rd32Be c.inputBuf 1 - 4)).length
      (slice b 0 (1 + rd32Be c.inputBuf 1)) c.inputBuf := by
    have hle : (slice c.inputBuf 5 (rd32Be c.inputBuf 1 - 4)).length ≤ rd32Be c.inputBuf 1 - 4 := List.length_take_le ..
    intro p k hp hk
    rw [slice_slice b (by omega), hi.shows (by omega), Nat.zero_add]
  rw [hbody]
  have hh := handleMessage_handled c (c.inputBuf.getD 0 0) 5 (slice c.inputBuf 5 (rd32Be c.inputBuf 1 - 4))
  have hi' := hi.keep hh.inputBuf hh.inputLen hh.inputCap
  refine (move_owns hi' (n := 1 + rd32Be c.inputBuf 1) (by omega) (Nat.sub_le _ _)).bind fun i' => .pure ?_
  rintro h ⟨b', hb', ho⟩
  refine ⟨b', _, rfl, handleMessage_rest hd _ hagree, ?_, ho⟩
  rw [hi'.len] at hb'
  exact hb'

/-- What the loop leaves: that of the model. -/
def Looped (res : Option Ctx) (base : ℕ → Option Bytes) (l : List (ℕ × Bytes)) (os : List Bool) (r : Option (Ctx × Growing))
    (h : Heap) : Prop :=
  match r, res with
  | none, none => True
  | some r, some c => r.1.rest = c.rest ∧ ∃ b, InputBacks r.2 b c ∧ Owns base ((r.2.buf, b) :: l) os h
  | _, _ => False

/-- **The loop on the heap is that of the model.** -/
theorem feedLoop_looped (fuel : ℕ) (hi : InputBacks i b c) (hd : d.rest = c.rest) :
    Triple (Owns base ((i.buf, b) :: l) os) (Growing.feedLoop fuel d i) (Looped (Ctx.feedLoop fuel c) base l os) := by
  induction fuel generalizing c d i b with
  | zero => exact .pure fun h ho => trivial
  | succ fuel ih =>
    have haw : d.rest.awaitsStartup = c.rest.awaitsStartup := congrArg Ctx.awaitsStartup hd
    change d.awaitsStartup = c.awaitsStartup at haw
    have hround : Triple (Owns base ((i.buf, b) :: l) os)
        (Growing.feedStep d i) (Stepped c base l os) := by
      unfold Growing.feedStep
      rw [haw]
      split
      · exact startupStep_steps hi hd ‹_›
      · exact typedStep_steps hi hd (Bool.eq_false_iff.2 ‹_›)
    unfold Growing.feedLoop Ctx.feedLoop
    refine hround.bind fun r => Triple.ex fun b' => Triple.ex fun c' => ?_
    refine Triple.assume fun hstep => Triple.assume fun hrest => Triple.assume fun hi' => ?_
    rw [hstep]
    cases hr : r.1 with
    | true => exact ih hi' hrest
    | false => exact .pure fun h ho => ⟨hrest, b', hi', ho⟩

theorem acceptInput_rest {c₁ : Ctx} {data : Bytes} (h : c.acceptInput data = some c₁) :
    c₁.rest = c.rest := by
  unfold Ctx.acceptInput at h
  split at h
  · split at h
    · cases h
      rfl
    · cases h
  · cases h
    rfl

theorem feedInput_looped (fuel : ℕ) (data : Bytes) (hi : InputBacks i b c) (hd : d.rest = c.rest) :
    Triple (Owns base ((i.buf, b) :: l) c.allocs) (Growing.feedInput fuel d i data)
      (Looped ((c.feedInput fuel data).map Prod.fst) base l ((c.acceptInput data).getD c.allocated).allocs) := by
  unfold Growing.feedInput Ctx.feedInput
  refine (acceptInput_owns hi data).bind fun r => Triple.assume fun hr => Triple.ex fun b' => Triple.assume fun hi' => ?_
  cases hacc : c.acceptInput data with
  | none =>
    rw [hacc] at hr hi'
    rw [hr]
    exact .pure fun h ho => ⟨hd, b', hi', ho⟩
  | some c₁ =>
    rw [hacc] at hr hi'
    rw [hr]
    dsimp only
    rw [Option.map_map, show (Prod.fst ∘ fun c' : Ctx => (c', data.length)) = id from rfl, Option.map_id_apply]
    exact feedLoop_looped fuel hi' (hd.trans (acceptInput_rest hacc).symm)

end Input

/-! ## Calls -/

/-- What a call leaves: that of the model, or it is still running. -/
def Left (res : Option Ctx) (base : ℕ → Option Bytes) (r : Option (Ctx × CtxMem)) (h : Heap) : Prop :=
  match r, res with
  | none, none => True
  | some r, some c => r.1.rest = c.rest ∧ Lives c base r.2 h
  | _, _ => False

variable {d : Ctx}

/-- An operation on the output leaves the other blocks alone. -/
theorem Lives.output_of {α ι : Type} {prog : HeapM α} {C : ι → Prop} {c' : ι → Ctx} {f : α → Growing}
    (hout : ∀ l, Triple (m.output.Stands c base l) prog fun r h => ∃ i, C i ∧ (f r).Stands (c' i) base l h)
    (happ : ∀ i, AppendsOnly c (c' i)) (hd : d.rest = c.rest) :
    Triple (Lives c base m) (do return some (d, { m with output := f (← prog) })) fun r h =>
      ∃ i, C i ∧ Left (some (c' i)) base r h := by
  refine Triple.ex fun bi => Triple.ex fun be => Triple.ex fun bc => Triple.assume fun hi => ?_
  refine (hout _).bind fun r => Triple.ex fun i => Triple.assume fun hC => .pure ?_
  intro h hs
  have hsent := happ i
  unfold AppendsOnly at hsent
  have hrest : (c' i).rest = c.rest := by rw [hsent]; rfl
  exact ⟨i, hC, hd.trans hrest.symm, bi, be, bc, hi.keep (by rw [hsent]) (by rw [hsent]) (by rw [hsent]), hs⟩

theorem Lives.output {α : Type} {prog : HeapM α} {c' : Ctx} {f : α → Growing}
    (hout : ∀ l, Triple (m.output.Stands c base l) prog fun r h => (f r).Stands c' base l h)
    (happ : AppendsOnly c c') (hd : d.rest = c.rest) :
    Triple (Lives c base m) (do return some (d, { m with output := f (← prog) })) (Left (some c') base) := by
  have hone : ∀ l, Triple (m.output.Stands c base l) prog fun r h => ∃ _ : Unit, True ∧ (f r).Stands c' base l h :=
    fun l => (hout l).conseq (fun _ hs => hs) fun _ _ hs => ⟨(), trivial, hs⟩
  exact (output_of hone (fun _ => happ) hd).conseq (fun _ hl => hl) fun _ _ hr => hr.elim fun _ h => h.2

/-- **A feed on the heap is the feed of the model.** -/
theorem feedInput_left (fuel : ℕ) (data : Bytes) (hd : d.rest = c.rest) :
    Triple (Lives c base m)
      (do return (← Growing.feedInput fuel d m.input data).map fun r => (r.1, { m with input := r.2 }))
      (Left ((c.feedInput fuel data).map Prod.fst) base) := by
  refine Triple.ex fun bi => Triple.ex fun be => Triple.ex fun bc => Triple.assume fun hi => ?_
  refine Triple.ex fun b => Triple.assume fun hb => ?_
  have hsent : ∀ c', (c.feedInput fuel data).map Prod.fst = some c' → c'.output = c.output ∧ c'.outputCap = c.outputCap ∧
      c'.allocs = ((c.acceptInput data).getD c.allocated).allocs := by
    intro c' h
    obtain ⟨⟨c₁, n⟩, hf, rfl⟩ := Option.map_eq_some_iff.1 h
    exact feedInput_sent hf
  refine ((feedInput_looped fuel data hi hd).pre fun h ho => ho.perm (List.Perm.swap ..)).bind fun r => .pure ?_
  intro h hl
  generalize (c.feedInput fuel data).map Prod.fst = res at hl hsent ⊢
  cases r with
  | none =>
    cases res with
    | none => trivial
    | some c' => exact hl
  | some r =>
    cases res with
    | none => exact hl
    | some c' =>
      obtain ⟨hrest, bi', hi', ho⟩ := hl
      obtain ⟨hout, hcap, hos⟩ := hsent c' rfl
      have hb' : m.output.Backs b c' := by
        refine ⟨?_, ?_, hb.size, ?_⟩
        · rw [hout]
          exact hb.len
        · rw [hcap]
          exact hb.cap
        · rw [hout]
          exact hb.bytes
      rw [← hos] at ho
      exact ⟨hrest, bi', be, bc, hi', b, hb', ho.perm (List.Perm.swap ..)⟩

/-- What `pqwire_next_event` changes of a context. -/
theorem nextEvent_fields (c : Ctx) :
    ∃ events used, (c.nextEvent.map Prod.snd).getD c = { c with events := events, rowArenaUsed := used } := by
  unfold Ctx.nextEvent Ctx.dequeueEvent
  cases c.events.dequeue with
  | none => exact ⟨c.events, c.rowArenaUsed, rfl⟩
  | some p =>
    dsimp only
    split
    · exact ⟨p.2, 0, rfl⟩
    · exact ⟨p.2, c.rowArenaUsed, rfl⟩

theorem nextEvent_rest (hd : d.rest = c.rest) :
    ((d.nextEvent.map Prod.snd).getD d).rest = ((c.nextEvent.map Prod.snd).getD c).rest := by
  rw [eq_of_rest hd]
  unfold Ctx.nextEvent Ctx.dequeueEvent
  have hev : ((c.setInput d.inputBuf d.inputLen d.inputCap).setSent d.output d.outputCap d.allocs).events = c.events := rfl
  rw [hev]
  cases c.events.dequeue with
  | none => rfl
  | some p =>
    dsimp only
    split
    · rfl
    · rfl

theorem nextEvent_left (hd : d.rest = c.rest) :
    Triple (Lives c base m) (return some ((d.nextEvent.map Prod.snd).getD d, m))
      (Left (some ((c.nextEvent.map Prod.snd).getD c)) base) := by
  have hrest := nextEvent_rest hd
  obtain ⟨events, used, hnext⟩ := nextEvent_fields c
  rw [hnext] at hrest ⊢
  refine .pure ?_
  rintro h ⟨bi, be, bc, hi, b, hb, ho⟩
  exact ⟨hrest, bi, be, bc, hi.keep rfl rfl rfl, b, ⟨hb.len, hb.cap, hb.size, hb.bytes⟩, ho⟩

theorem reset_left (hd : d.rest = c.rest) :
    Triple (Lives c base m)
      (return some (reset d, { m with output := { m.output with len := 0 }, input := { m.input with len := 0 } }))
      (Left (some (reset c)) base) := by
  have hrest : (reset d.rest).rest = (reset c.rest).rest := congrArg (fun x => (reset x).rest) hd
  refine .pure ?_
  rintro h ⟨bi, be, bc, hi, b, hb, ho⟩
  exact ⟨hrest, bi, be, bc, ⟨rfl, hi.cap, hi.size, Nat.zero_le _, hi.bytes⟩, b, ⟨rfl, hb.cap, hb.size, List.nil_prefix⟩, ho⟩

end CtxMem

namespace MemCall

variable {base : ℕ → Option Bytes} {c d : Ctx} {m : CtxMem}

/-- Every call can be completed. -/
theorem completed_exists {call : MemCall} (hv : call.Valid) : ∃ call', call.Completed call' := by
  cases call with
  | bind p s f nf l v n r nr =>
    obtain ⟨v', hc⟩ := Growing.fillsIn_exists hv n.toNat
    exact ⟨_, v', hc, rfl⟩
  | _ => exact ⟨_, rfl⟩

theorem completed_all {calls : List MemCall} (hv : ∀ call ∈ calls, call.Valid) :
    ∃ calls', List.Forall₂ Completed calls calls' := by
  induction calls with
  | nil => exact ⟨[], .nil⟩
  | cons call calls ih =>
    obtain ⟨call', h⟩ := completed_exists (hv call List.mem_cons_self)
    obtain ⟨calls', hs⟩ := ih fun k hk => hv k (List.mem_cons_of_mem _ hk)
    exact ⟨call' :: calls', .cons h hs⟩

/-- **A call on the heap is the completed call of the model.** -/
theorem run_left {call : MemCall} (hv : call.Valid) (hd : d.rest = c.rest) :
    Triple (CtxMem.Lives c base m) (call.run d m) fun r h =>
      ∃ call', call.Completed call' ∧ CtxMem.Left (call'.model c) base r h := by
  have hself : ∀ {prog : HeapM (Option (Ctx × CtxMem))}, call.Completed call →
      Triple (CtxMem.Lives c base m) prog (CtxMem.Left (call.model c) base) →
      Triple (CtxMem.Lives c base m) prog fun r h => ∃ call', call.Completed call' ∧ CtxMem.Left (call'.model c) base r h :=
    fun hc ht => ht.conseq (fun _ hl => hl) fun _ _ hr => ⟨call, hc, hr⟩
  cases call with
  | append data =>
    refine hself rfl ?_
    exact CtxMem.Lives.output (f := id) (fun _ => Growing.appendOutput_stands data) (appendOutput_appendsOnly c data) hd
  | emit type payload =>
    refine hself rfl (CtxMem.Lives.output (fun _ => ?_) (emitMsg_appendsOnly c type payload) hd)
    exact (Growing.emitMsg_stands type payload).conseq (fun _ hs => hs) fun _ _ hr => hr.2
  | bind p s f nf l v n r nr =>
    refine Triple.conseq (CtxMem.Lives.output_of (C := fun v' => FillsIn l v v' n.toNat) (fun _ => ?_)
      (fun v' => send_appendsOnly c (s := .bind p s f nf l v' n r nr) (by simp)) hd) (fun _ hl => hl) ?_
    · exact (Growing.sendBind_stands hv p s f nf n r nr).conseq (fun _ hs => hs) fun _ _ ⟨v', hc, hr⟩ => ⟨v', hc, hr.2⟩
    · rintro r h ⟨v', hc, hl⟩
      exact ⟨_, ⟨v', hc, rfl⟩, hl⟩
  | rows l v n =>
    refine hself rfl (CtxMem.Lives.output (fun _ => ?_) (send_appendsOnly c (s := .dataRowMulti l v n) (by simp)) hd)
    exact (Growing.sendDataRowMulti_stands hv n).conseq (fun _ hs => hs) fun _ _ hr => hr.2
  | drain maxLen =>
    refine hself rfl (CtxMem.Lives.output (fun _ => ?_) (rfl : AppendsOnly c (c.getOutput maxLen).2) hd)
    exact (Growing.getOutput_stands maxLen).conseq (fun _ hs => hs) fun _ _ hr => hr.2
  | feed fuel data => exact hself rfl (CtxMem.feedInput_left fuel data hd)
  | next => exact hself rfl (CtxMem.nextEvent_left hd)
  | reset => exact hself rfl (CtxMem.reset_left hd)

theorem runAll_left {calls : List MemCall} (hv : ∀ call ∈ calls, call.Valid) (hd : d.rest = c.rest) :
    Triple (CtxMem.Lives c base m) (runAll calls d m) fun r h =>
      ∃ calls', List.Forall₂ Completed calls calls' ∧ CtxMem.Left (modelAll c calls') base r h := by
  induction calls generalizing c d m with
  | nil => exact .pure fun h hl => ⟨[], .nil, hd, hl⟩
  | cons call calls ih =>
    have hv' : ∀ k ∈ calls, k.Valid := fun k hk => hv k (List.mem_cons_of_mem _ hk)
    refine (run_left (hv call List.mem_cons_self) hd).bind fun r => Triple.ex fun call' => Triple.assume fun hc => ?_
    cases hmodel : call'.model c with
    | none =>
      obtain ⟨calls', hcs⟩ := completed_all hv'
      cases r with
      | none =>
        refine .pure fun h hl => ⟨call' :: calls', .cons hc hcs, ?_⟩
        unfold modelAll
        rw [List.foldlM_cons, hmodel]
        exact hl
      | some r => exact fun h hl => absurd hl id
    | some c' =>
      cases r with
      | none => exact fun h hl => absurd hl id
      | some r =>
        refine Triple.assume fun hrest => (ih hv' hrest).conseq (fun _ hl => hl) ?_
        rintro r' h ⟨calls', hcs, hl⟩
        refine ⟨call' :: calls', .cons hc hcs, ?_⟩
        unfold modelAll
        rw [List.foldlM_cons, hmodel]
        exact hl

end MemCall

/-- The bytes in front of a block. -/
theorem load_prefix {a : ℕ} {b p : Bytes} {h : Heap} (hb : h.blocks a = some b) (hp : p <+: b) :
    load a 0 p.length h = some (p, h) := by
  have hle : 0 + p.length ≤ b.length := by
    rw [Nat.zero_add]
    exact hp.length_le
  have hslice : slice b 0 p.length = p := (List.prefix_iff_eq_take.1 hp).symm
  unfold load
  rw [hb, Option.bind_some, if_pos hle, hslice]

/-- **The memory of a context.** Whatever the allocations do, creation returns a context where the
model does, and otherwise leaves the heap as it was. Whatever is then called on the context, a
call reads and writes only inside of blocks that are live and frees only such blocks. When the
calls have returned, the context is that of the model, its blocks hold the pending output and the
unparsed input of the model, and `pqwire_destroy` leaves the heap as it was before the creation.
The model makes the same calls, except that it is given the values that a Bind left out: there are
some bytes that the Bind found in its block. -/
theorem context_memory {h : Heap} (hf : ∀ a, h.next ≤ a → h.blocks a = none) (role : Role) (config : Config)
    (ctxSize eventSize : ℕ) :
    (createWithConfig role config h.outcomes = none ∧
        ∃ h', CtxMem.createWithConfig config ctxSize eventSize h = some (none, h') ∧ h'.blocks = h.blocks) ∨
      ∃ c m h₁, createWithConfig role config h.outcomes = some c ∧
        CtxMem.createWithConfig config ctxSize eventSize h = some (some m, h₁) ∧
        ∀ calls, (∀ call ∈ calls, MemCall.Valid call) →
          ∃ calls', List.Forall₂ MemCall.Completed calls calls' ∧
            ((MemCall.modelAll c calls' = none ∧ ∃ h₂, MemCall.runAll calls c m h₁ = some (none, h₂)) ∨
              ∃ c' d' m' h₂, MemCall.modelAll c calls' = some c' ∧
                MemCall.runAll calls c m h₁ = some (some (d', m'), h₂) ∧ d'.rest = c'.rest ∧
                load m'.output.buf 0 m'.output.len h₂ = some (c'.output, h₂) ∧
                load m'.input.buf 0 m'.input.len h₂ = some (c'.resid, h₂) ∧
                ∃ h₃, m'.destroy h₂ = some ((), h₃) ∧ h₃.blocks = h.blocks) := by
  obtain ⟨r, h₁, hrun, hr⟩ := CtxMem.createWithConfig_lives role config ctxSize eventSize h (Owns.start h hf)
  unfold CtxMem.Created at hr
  cases hc : createWithConfig role config h.outcomes with
  | none =>
    rw [hc] at hr
    cases r with
    | none =>
      obtain ⟨os', ho⟩ := hr
      exact Or.inl ⟨rfl, h₁, hrun, ho.blocks_eq⟩
    | some m => exact absurd hr id
  | some c =>
    rw [hc] at hr
    cases r with
    | none => exact absurd hr id
    | some m =>
      refine Or.inr ⟨c, m, h₁, rfl, hrun, ?_⟩
      intro calls hv
      obtain ⟨r', h₂, hrun', calls', hcs, hl⟩ := MemCall.runAll_left hv rfl h₁ hr
      refine ⟨calls', hcs, ?_⟩
      unfold CtxMem.Left at hl
      cases hmodel : MemCall.modelAll c calls' with
      | none =>
        rw [hmodel] at hl
        cases r' with
        | none => exact Or.inl ⟨rfl, h₂, hrun'⟩
        | some r' => exact absurd hl id
      | some c' =>
        rw [hmodel] at hl
        cases r' with
        | none => exact absurd hl id
        | some r' =>
          obtain ⟨hrest, hl⟩ := hl
          obtain ⟨u, h₃, hdestroy, ho⟩ := CtxMem.destroy_owns h₂ hl
          refine Or.inr ⟨c', r'.1, r'.2, h₂, rfl, hrun', hrest, ?_, ?_, h₃, hdestroy, ho.blocks_eq⟩
          · obtain ⟨bi, be, bc, -, b, hb, hob⟩ := hl
            rw [hb.len]
            exact load_prefix (hob.held (r'.2.output.buf, b) List.mem_cons_self) hb.bytes
          · obtain ⟨bi, be, bc, hi, b, -, hob⟩ := hl
            have hlen : r'.2.input.len = c'.resid.length := by
              rw [hi.len]
              exact (List.length_take_of_le hi.held).symm
            rw [hlen]
            have hmem : (r'.2.input.buf, bi) ∈ [(r'.2.output.buf, b), (r'.2.input.buf, bi), (r'.2.events, be), (r'.2.ctx, bc)] :=
              List.mem_cons_of_mem _ List.mem_cons_self
            exact load_prefix (hob.held _ hmem) ((List.take_prefix _ _).trans hi.bytes)

/-- A server on a heap with no blocks is fed three bytes of a startup and builds a row. -/
theorem context_memory_row :
    ∃ c m h₁, createWithConfig .server ⟨16, 64⟩ [] = some c ∧
      CtxMem.createWithConfig ⟨16, 64⟩ 100 50 ⟨fun _ => none, 0, [], fun _ i => UInt8.ofNat i⟩ = some (some m, h₁) ∧
      ∃ d' m' h₂, MemCall.runAll [.feed 1 [0, 0, 0], .rows (some [1]) (some [some [65]]) 1] c m h₁ = some (some (d', m'), h₂) ∧
        load m'.output.buf 0 m'.output.len h₂ = some ([68, 0, 0, 0, 11, 0, 1, 0, 0, 0, 1, 65], h₂) ∧
        load m'.input.buf 0 m'.input.len h₂ = some ([0, 0, 0], h₂) ∧
        ∃ h₃, m'.destroy h₂ = some ((), h₃) ∧ h₃.blocks = fun _ => none := by
  have hfit : ValuesFit (some [1]) (some [some [65]]) := by
    rintro (_ | i) v hv
    · cases hv
      decide
    · cases hv
  have hvalid : ∀ call ∈ [MemCall.feed 1 [0, 0, 0], .rows (some [1]) (some [some [65]]) 1], call.Valid := by
    rintro call (_ | ⟨_, _ | ⟨_, h⟩⟩)
    · trivial
    · exact hfit
    · cases h
  have hmem := context_memory (h := ⟨fun _ => none, 0, [], fun _ i => UInt8.ofNat i⟩) (fun _ _ => rfl) .server ⟨16, 64⟩ 100 50
  rcases hmem with ⟨hnone, -⟩ | ⟨c, m, h₁, hc, hcreate, hcalls⟩
  · cases hnone
  · cases hc
    obtain ⟨calls', hcs, hres⟩ := hcalls _ hvalid
    obtain _ | ⟨rfl, _ | ⟨rfl, _ | _⟩⟩ := hcs
    rcases hres with ⟨hnone, -⟩ | ⟨c', d', m', h₂, hmodel, hrun, -, hout, hin, hdestroy⟩
    · cases hnone
    · cases hmodel
      exact ⟨_, m, h₁, rfl, hcreate, d', m', h₂, hrun, hout, hin, hdestroy⟩

end Pqwire

import Pqwire.Proof.Arena
import Pqwire.Proof.Dequeue
import Pqwire.Proof.Frames

/-!
# Rows over whole runs

The arena is shared by all queued rows and rewound only when a dequeue leaves the queue
empty.

* `dataRow_shown`: in every reachable context, a row that is dequeued shows its own values.
* `dataRow_null_iff`: over every run of feeds and dequeues, a column has no data exactly when
  its length is negative or it did not fit behind what had been stored since the queue was
  last emptied.
-/

namespace Pqwire

open ByteMem

/-- The values of a DataRow body, as many of them as `parse_data_row` takes. -/
def rowValues (body : Bytes) : List Field := rowFields body (min (rd16Be body 0) maxRowColumns) 2

theorem rowValues_enc {gs : List Field} (h : gs.length ≤ maxRowColumns) : rowValues (encFields gs) = gs := by
  have hmax : maxRowColumns = 16 := rfl
  have hn : rd16Be (encFields gs) 0 = gs.length := by
    unfold encFields
    rw [rd16Be_wr16Be, Nat.mod_eq_of_lt (by omega)]
  have := rowFields_enc gs (wr16Be gs.length) []
  rw [List.append_nil, wr16Be_length] at this
  unfold rowValues
  rw [hn, min_eq_left h]
  exact this

/-! ## The effect of a message on the rows -/

/-- The arena is left alone, and an event that is enqueued is not a row. -/
structure Quiet (c c' : Ctx) : Prop where
  arena : c'.rowArena = c.rowArena
  used : c'.rowArenaUsed = c.rowArenaUsed
  emit : (c'.log = c.log ∧ c'.events = c.events) ∨
    ∃ q : Queued, (∀ r, q.ev ≠ .dataRow r) ∧ c'.log = c.log ++ [q] ∧ c'.events = c.events.enqueue q

theorem Quiet.refl (c : Ctx) : Quiet c c := ⟨rfl, rfl, Or.inl ⟨rfl, rfl⟩⟩

theorem enqueueEvent_quiet (c : Ctx) {ev : Event} (h : ∀ r, ev ≠ .dataRow r) (body : Bytes) :
    Quiet c (c.enqueueEvent ev body) := ⟨rfl, rfl, Or.inr ⟨_, h, rfl, rfl⟩⟩

/-- A row is enqueued with its values stored. -/
structure Stores (c : Ctx) (body : Bytes) (c' : Ctx) : Prop where
  arena : c'.rowArena = (storeFields (rowValues body) c.rowArena c.rowArenaUsed).arena
  used : c'.rowArenaUsed = (storeFields (rowValues body) c.rowArena c.rowArenaUsed).used
  emit : ∃ q : Queued, q.ev = .dataRow ⟨(storeFields (rowValues body) c.rowArena c.rowArenaUsed).columns⟩ ∧
    q.frame = body ∧ c'.log = c.log ++ [q] ∧ c'.events = c.events.enqueue q

theorem parseDataRow_stores (c : Ctx) {body : Bytes} (h : ¬body.length < 2) : Stores c body (parseDataRow c body) := by
  unfold parseDataRow
  rw [if_neg h]
  simp only [dataRowLoop_eq]
  exact ⟨rfl, rfl, _, rfl, rfl, rfl, rfl⟩

/-- **What a message does to the rows**: nothing, or one row is stored and enqueued. -/
theorem handleMessage_rows (c : Ctx) (type : UInt8) (base : ℕ) (body : Bytes) :
    Quiet c (handleMessage c type base body) ∨ Stores c body (handleMessage c type base body) := by
  have h := handleMessage_handling c type base body
  generalize handleMessage c type base body = c' at h ⊢
  cases h with
  | ignored => exact Or.inl (.refl c)
  | event _ hp => exact Or.inl (enqueueEvent_quiet c (plainEvent_ne hp).2.2 body)
  | authentication => exact Or.inl (.refl c)
  | rowDescription =>
    unfold parseRowDescription
    split
    · exact Or.inl (.refl c)
    · exact Or.inl ⟨rfl, rfl, Or.inr ⟨_, by simp, rfl, rfl⟩⟩
  | dataRow =>
    by_cases hshort : body.length < 2
    · refine Or.inl ?_
      rw [parseDataRow, if_pos hshort]
      exact .refl c
    · exact Or.inr (parseDataRow_stores c hshort)
  | _ => exact Or.inl ⟨rfl, rfl, Or.inr ⟨_, by simp, rfl, rfl⟩⟩

theorem parseStartupBody_quiet (c : Ctx) (body : Bytes) : Quiet c (parseStartupBody c body) := by
  unfold parseStartupBody
  split
  · exact ⟨rfl, rfl, Or.inr ⟨_, by simp, rfl, rfl⟩⟩
  · exact ⟨rfl, rfl, Or.inr ⟨_, by simp, rfl, rfl⟩⟩

/-! ## Queued rows show their values -/

/-- The row shows the values of the body `frame`, below the fill mark. -/
def Shown (arena : Bytes) (used : ℕ) (frame : Bytes) (r : DataRow) : Prop :=
  List.Forall₂ (Holds arena used) r.columns (rowValues frame)

/-- Every queued row shows its own values. -/
def RowsOk (c : Ctx) : Prop :=
  ∀ q ∈ c.events.toList, ∀ r, q.ev = .dataRow r → Shown c.rowArena c.rowArenaUsed q.frame r

theorem mem_enqueue {r : RingBuf Queued} (h : r.Ok) {q q' : Queued} (hm : q' ∈ (r.enqueue q).toList) :
    q' ∈ r.toList ∨ q' = q := by
  rw [RingBuf.toList_enqueue h] at hm
  simpa using List.mem_of_mem_drop hm

theorem Quiet.rows {c c' : Ctx} (h : Quiet c c') (hok : c.Ok) (hc : RowsOk c) : RowsOk c' := by
  intro q hq r hr
  rw [h.arena, h.used]
  rcases h.emit with ⟨-, he⟩ | ⟨q₁, hne, -, he⟩
  · rw [he] at hq; exact hc q hq r hr
  · rw [he] at hq
    rcases mem_enqueue hok.ring hq with hq | rfl
    · exact hc q hq r hr
    · exact absurd hr (hne r)

theorem Stores.rows {c c' : Ctx} {body : Bytes} (h : Stores c body c') (hok : c.Ok) (hc : RowsOk c) : RowsOk c' := by
  obtain ⟨q₁, hev, hfr, -, he⟩ := h.emit
  obtain ⟨hle, hsame⟩ := storeFields_below (rowValues body) hok.arena
  intro q hq r hr
  rw [h.arena, h.used]
  rw [he] at hq
  rcases mem_enqueue hok.ring hq with hq | rfl
  · -- an older row lies below the old fill mark
    exact (hc q hq r hr).imp fun _ _ hh => hh.mono hle hsame
  · rw [hev] at hr
    cases hr
    rw [hfr]
    exact storeFields_holds (rowValues body) hok.arena

theorem rowsOk_kept : Kept RowsOk where
  input _ _ _ h := h
  allocs _ h := h
  message type base body hok h := by
    rcases handleMessage_rows _ type base body with hq | hs
    · exact hq.rows hok h
    · exact hs.rows hok h
  startup body hok h := (parseStartupBody_quiet _ body).rows hok h
  error hok h := (enqueueEvent_quiet _ (by simp) []).rows hok h

theorem step_rowsOk {c c' : Ctx} (hs : Step c c') (hok : c.Ok) (h : RowsOk c) : RowsOk c' := by
  cases hs with
  | feed hf => exact rowsOk_kept.feedInput hf hok h
  | next hn =>
    obtain ⟨hl, ha, -, -, he⟩ := nextEvent_cases hok hn
    intro q hq r hr
    have hq' : q ∈ c.events.toList := by rw [hl]; exact List.mem_cons_of_mem _ hq
    rcases he with ⟨h0, -⟩ | ⟨-, hu⟩
    · rw [← RingBuf.toList_length, List.length_eq_zero_iff] at h0
      rw [h0] at hq
      cases hq
    · rw [ha, hu]; exact h q hq' r hr
  | reset =>
    intro q hq
    simp only [Pqwire.reset, RingBuf.toList_clear] at hq
    cases hq
  | output n => exact h
  | send s =>
    have ho := send_outputOnly c s
    unfold OutputOnly at ho
    rw [ho]; exact h
  | ready => exact h

theorem reachable_rowsOk {c : Ctx} (h : Reachable c) : RowsOk c := by
  induction h with
  | create h =>
    intro q hq
    rw [(create_empty h).1] at hq
    cases hq
  | step hr hs ih => exact step_rowsOk hs (reachable_ok hr).1 ih

/-- **A row that is dequeued shows its own values**, over every run: `fs` are values that lie
one behind the other in the frame behind its column count, and every column that has data
lies inside the arena and denotes the value at its index, read after the dequeue. -/
theorem dataRow_shown {c c' : Ctx} {q : Queued} {r : DataRow} (h : Reachable c) (hn : c.nextEvent = some (q, c'))
    (hq : q.ev = .dataRow r) :
    ∃ (fs : List Field) (rest : Bytes), q.frame.drop 2 = fs.flatMap Field.enc ++ rest ∧ r.columns.length = fs.length ∧
      ∀ (i : ℕ) (col : RowColumn) (f : Field), r.columns[i]? = some col → fs[i]? = some f → ∀ p, col.data = some p →
        p + col.len ≤ rowArenaSize ∧ col.len = f.data.length ∧ slice c'.rowArena p col.len = f.data := by
  obtain ⟨hok, -⟩ := reachable_ok h
  obtain ⟨hl, ha, -, -, -⟩ := nextEvent_cases hok hn
  have hmem : q ∈ c.events.toList := by rw [hl]; exact List.mem_cons_self ..
  have hshown := reachable_rowsOk h q hmem r hq
  obtain ⟨rest, hw⟩ := rowFields_wire q.frame (min (rd16Be q.frame 0) maxRowColumns) 2
  refine ⟨rowValues q.frame, rest, hw, hshown.length_eq, ?_⟩
  intro i col f hc hf p hp
  have hcol : Holds c.rowArena c.rowArenaUsed col f := by
    obtain ⟨hi, rfl⟩ := List.getElem?_eq_some_iff.1 hc
    obtain ⟨hj, rfl⟩ := List.getElem?_eq_some_iff.1 hf
    exact hshown.get hi hj
  obtain ⟨h1, h2⟩ := hcol p hp
  have hu := hok.arena
  have hs := hok.arenaSize
  have hlen := congrArg List.length h2
  rw [slice_length (by omega)] at hlen
  exact ⟨by omega, hlen, by rw [ha, h2]⟩

/-! ## Which values are dropped -/

/-- The bytes that an event takes in the arena. -/
def Queued.stored (q : Queued) : ℕ :=
  match q.ev with
  | .dataRow r => r.stored
  | _ => 0

theorem Queued.stored_eq_zero {q : Queued} (h : ∀ r, q.ev ≠ .dataRow r) : q.stored = 0 := by
  unfold Queued.stored
  split
  · rename_i r hr; exact absurd hr (h r)
  · rfl

/-- The bytes that events take in the arena. -/
def storedBytes (l : List Queued) : ℕ := (l.map Queued.stored).sum

theorem storedBytes_concat (l : List Queued) (q : Queued) : storedBytes (l ++ [q]) = storedBytes l + q.stored := by
  simp [storedBytes]

/-- A run of feeds and dequeues of a client. `m` is the length of the history when a
dequeue last left the queue empty, or 0. -/
inductive RowRun : Ctx → ℕ → Prop
  | create {config : Config} {allocs : List Bool} {c : Ctx} :
      createWithConfig .client config allocs = some c → RowRun c 0
  | feed {c c' : Ctx} {m fuel n : ℕ} {data : Bytes} :
      RowRun c m → c.feedInput fuel data = some (c', n) → RowRun c' m
  | next {c c' : Ctx} {m : ℕ} {q : Queued} :
      RowRun c m → c.nextEvent = some (q, c') → RowRun c' (if c'.events.count = 0 then c'.log.length else m)

theorem RowRun.reachable {c : Ctx} {m : ℕ} (h : RowRun c m) : Reachable c := by
  induction h with
  | create h => exact .create h
  | feed _ hf ih => exact .step ih (.feed hf)
  | next _ hn ih => exact .step ih (.next hn)

/-- Since the mark `m`, the arena holds the rows of the history one behind the other. -/
structure RowLog (m : ℕ) (c : Ctx) : Prop where
  queued : c.events.toList <:+ c.log.drop m
  mark : m ≤ c.log.length
  used : c.rowArenaUsed = storedBytes (c.log.drop m)
  rows : ∀ (k : ℕ) (q : Queued), (c.log.drop m)[k]? = some q → ∀ r, q.ev = .dataRow r →
    ∃ arena, r.columns = (storeFields (rowValues q.frame) arena (storedBytes ((c.log.drop m).take k))).columns

variable {c c' : Ctx} {m : ℕ}

theorem getElem?_concat_cases {α : Type*} {l : List α} {x y : α} {k : ℕ} (h : (l ++ [x])[k]? = some y) :
    (l[k]? = some y ∧ (l ++ [x]).take k = l.take k) ∨ (k = l.length ∧ y = x ∧ (l ++ [x]).take k = l) := by
  rw [List.getElem?_append] at h
  split at h
  · rename_i hk
    exact Or.inl ⟨h, List.take_append_of_le_length (by omega)⟩
  · rename_i hk
    have hk' : k = l.length := by
      have := (List.getElem?_eq_some_iff.1 h).1
      simp only [List.length_singleton] at this
      omega
    subst hk'
    simp only [Nat.sub_self, List.getElem?_cons_zero, Option.some.injEq] at h
    exact Or.inr ⟨rfl, h.symm, List.take_left⟩

/-- An event is added to the history. -/
theorem RowLog.concat (h : RowLog m c) (hok : c.Ok) {q : Queued} (hl : c'.log = c.log ++ [q])
    (he : c'.events = c.events.enqueue q) (hu : c'.rowArenaUsed = c.rowArenaUsed + q.stored)
    (hq : ∀ r, q.ev = .dataRow r →
      ∃ arena, r.columns = (storeFields (rowValues q.frame) arena c.rowArenaUsed).columns) : RowLog m c' := by
  have hd : c'.log.drop m = c.log.drop m ++ [q] := by rw [hl, List.drop_append_of_le_length h.mark]
  refine ⟨?_, ?_, ?_, ?_⟩
  · rw [he, hd]; exact enqueue_suffix hok.ring h.queued q
  · rw [hl, List.length_append]; exact h.mark.trans (Nat.le_add_right _ _)
  · rw [hu, hd, storedBytes_concat, h.used]
  · intro k q' hk r hr
    rw [hd] at hk ⊢
    rcases getElem?_concat_cases hk with ⟨hk, ht⟩ | ⟨-, rfl, ht⟩
    · rw [ht]; exact h.rows k q' hk r hr
    · rw [ht, ← h.used]; exact hq r hr

theorem Quiet.rowLog (hs : Quiet c c') (hok : c.Ok) (h : RowLog m c) : RowLog m c' := by
  rcases hs.emit with ⟨hl, he⟩ | ⟨q, hne, hl, he⟩
  · exact ⟨by rw [he, hl]; exact h.queued, by rw [hl]; exact h.mark, by rw [hs.used, hl]; exact h.used,
      by rw [hl]; exact h.rows⟩
  · exact h.concat hok hl he (by rw [hs.used, Queued.stored_eq_zero hne]; rfl) fun r hr => absurd hr (hne r)

theorem Stores.rowLog {body : Bytes} (hs : Stores c body c') (hok : c.Ok) (h : RowLog m c) : RowLog m c' := by
  obtain ⟨q, hev, hfr, hl, he⟩ := hs.emit
  refine h.concat hok hl he ?_ fun r hr => ⟨c.rowArena, ?_⟩
  · have hst : q.stored = DataRow.stored ⟨(storeFields (rowValues body) c.rowArena c.rowArenaUsed).columns⟩ := by
      unfold Queued.stored
      rw [hev]
    rw [hs.used, storeFields_used, hst]
  · rw [hev] at hr
    cases hr
    rw [hfr]

theorem rowLog_kept (m : ℕ) : Kept (RowLog m) where
  input _ _ _ h := ⟨h.queued, h.mark, h.used, h.rows⟩
  allocs _ h := ⟨h.queued, h.mark, h.used, h.rows⟩
  message type base body hok h := by
    rcases handleMessage_rows _ type base body with hq | hs
    · exact hq.rowLog hok h
    · exact hs.rowLog hok h
  startup body hok h := (parseStartupBody_quiet _ body).rowLog hok h
  error hok h := (enqueueEvent_quiet _ (by simp) []).rowLog hok h

/-- **The invariant holds along every run**; a dequeue that leaves the queue empty starts the
arena afresh. -/
theorem rowRun_rowLog (h : RowRun c m) : RowLog m c := by
  induction h with
  | create h =>
    obtain ⟨h1, h2, -, -, h3, -⟩ := create_empty h
    refine ⟨by rw [h1, h2]; exact List.suffix_rfl, Nat.zero_le _, by rw [h3, h2]; rfl, ?_⟩
    intro k q hk
    rw [h2] at hk
    simp at hk
  | feed hr hf ih => exact (rowLog_kept _).feedInput hf (reachable_ok hr.reachable).1 ih
  | @next c c' m q hr hn ih =>
    obtain ⟨hl, -, hlog, -, he⟩ := nextEvent_cases (reachable_ok hr.reachable).1 hn
    rcases he with ⟨h0, hu⟩ | ⟨h0, hu⟩
    · rw [if_pos h0]
      have hnil : c'.events.toList = [] := by rwa [← List.length_eq_zero_iff, RingBuf.toList_length]
      refine ⟨by rw [hnil]; exact List.nil_suffix, le_rfl, by rw [hu, List.drop_length]; rfl, ?_⟩
      intro k q hk
      rw [List.drop_length] at hk
      simp at hk
    · rw [if_neg h0]
      refine ⟨?_, by rw [hlog]; exact ih.mark, by rw [hu, hlog]; exact ih.used, by rw [hlog]; exact ih.rows⟩
      rw [hlog]
      refine List.IsSuffix.trans ?_ ih.queued
      rw [hl]; exact List.suffix_cons _ _

/-- The place in the history of the event that is dequeued next. -/
theorem RowLog.oldest {q : Queued} {qs : List Queued} (h : RowLog m c) (hl : c.events.toList = q :: qs) :
    (c.log.drop m)[(c.log.drop m).length - c.events.count]? = some q := by
  obtain ⟨t, ht⟩ := h.queued
  have hc : c.events.count = c.events.toList.length := (RingBuf.toList_length _).symm
  rw [← ht, hc, List.length_append, Nat.add_sub_cancel, hl, List.getElem?_append_right le_rfl, Nat.sub_self]
  rfl

/-- **Which values of a row become NULL**, over every run of feeds and dequeues. `gs` are the
columns of the frame that the delivered row comes from; the events in front of it are
those since the queue was last left empty. A column has no data exactly when its length is
negative or its bytes did not fit in the arena behind those of the rows and columns before
it. -/
theorem dataRow_null_iff {q : Queued} {r : DataRow} {gs : List Field} (h : RowRun c m)
    (hn : c.nextEvent = some (q, c')) (hq : q.ev = .dataRow r) (hg : q.frame = encFields gs)
    (hl : gs.length ≤ maxRowColumns) :
    r.columns.length = gs.length ∧
      ∀ (i : ℕ) (col : RowColumn) (f : Field), r.columns[i]? = some col → gs[i]? = some f →
        (col.data = none ↔ f.len.toInt < 0 ∨
          storedBytes ((c.log.drop m).take ((c.log.drop m).length - c.events.count)) +
            DataRow.stored ⟨r.columns.take i⟩ + f.data.length > rowArenaSize) := by
  have hlog := rowRun_rowLog h
  obtain ⟨hlist, -⟩ := nextEvent_cases (reachable_ok h.reachable).1 hn
  obtain ⟨arena, hcols⟩ := hlog.rows _ q (hlog.oldest hlist) r hq
  rw [hg, rowValues_enc hl] at hcols
  have hmem : q ∈ c.events.toList := by rw [hlist]; exact List.mem_cons_self ..
  have hshown := reachable_rowsOk h.reachable q hmem r hq
  refine ⟨by rw [hshown.length_eq, hg, rowValues_enc hl], ?_⟩
  intro i col f hc hf
  rw [hcols] at hc ⊢
  exact storeFields_null gs arena _ hc hf

/-! ## One row -/

/-- A client with one queue slot that has received a row of the values `gs` delivers it. -/
theorem row_delivered {max : ℕ} (hmax : max ≠ 0) (f : Frame) (gs : List Field) (hl : gs.length ≤ maxRowColumns)
    (ht : f.type = ch 'D') (hb : f.body = encFields gs) (hf : f.len ≤ max) :
    ∃ (c c' : Ctx) (q : Queued), RowRun c 0 ∧ c.nextEvent = some (q, c') ∧ q.frame = encFields gs ∧
      q.ev = .dataRow ⟨(storeFields gs [] 0).columns⟩ ∧ c.log = [q] := by
  set c₀ : Ctx := { role := .client, maxMessageSize := max, events := RingBuf.init 1 } with hc₀
  have hcreate : createWithConfig .client ⟨1, max⟩ [] = some c₀ := by
    unfold createWithConfig
    rw [if_neg (by simp), if_pos (by simp), if_neg hmax]
    rfl
  obtain ⟨hok, -⟩ := create_ok hcreate
  obtain ⟨c₁, ha, hok₁, -, -⟩ := acceptInput_core hok rfl f.enc
  have hfeeds : Feeds c₀ f.enc (c₁.handleFrame f) := by
    have hfits : ∀ g ∈ [f], g.Fits c₀ := fun g hg => by rw [List.mem_singleton.1 hg]; exact hf
    exact feeds_frames hok rfl ha hfits (List.append_nil _).symm
  obtain ⟨fuel, hfeed⟩ := feeds_feedInput hfeeds
  have hrun := (RowRun.create hcreate).feed hfeed
  obtain ⟨-, h2, -, h4, h5⟩ := acceptInput_same ha
  obtain ⟨cap, allocs, hc₁⟩ := acceptInput_some ha
  have hmsg : handleMessage c₁ f.type 5 f.body = parseDataRow c₁ (encFields gs) := by
    rw [ht, hb]
    change handleMessage c₁ BackType.dataRow.byte 5 (encFields gs) = _
    rw [handleMessage_back h2]
    rfl
  have hlong : ¬(encFields gs).length < 2 := by rw [encFields, List.length_append, wr16Be_length]; omega
  obtain ⟨q, hev, hfr, hlog, hevs⟩ := (parseDataRow_stores c₁ hlong).emit
  obtain ⟨-, -, -, -, h6, h7⟩ := handleFrame_same c₁ f
  rw [hmsg, hlog, h4] at h6
  rw [hmsg, hevs, h5] at h7
  have hq : (c₁.handleFrame f).events.toList = [q] := by
    rw [h7, RingBuf.toList_enqueue hok.ring]
    rfl
  have hrow : c₁.rowArena = [] ∧ c₁.rowArenaUsed = 0 := by rw [hc₁]; exact ⟨rfl, rfl⟩
  rw [hrow.1, hrow.2, rowValues_enc hl] at hev
  have hok' := (reachable_ok hrun.reachable).1
  cases hn : (c₁.handleFrame f).nextEvent with
  | none =>
    have hcount : (c₁.handleFrame f).events.count = 1 := by rw [← RingBuf.toList_length, hq]; rfl
    unfold Ctx.nextEvent Ctx.dequeueEvent at hn
    split at hn
    · rename_i hd
      rw [RingBuf.dequeue_none] at hd
      omega
    · cases hn
  | some p =>
    obtain ⟨q', c'⟩ := p
    obtain ⟨hl', -⟩ := nextEvent_cases hok' hn
    rw [hq] at hl'
    obtain ⟨rfl, -⟩ := List.cons.inj hl'
    exact ⟨c₁.handleFrame f, c', q, hrun, hn, hfr, hev, h6⟩

/-- A row of one value, `7`. -/
def sevenRow : Frame := ⟨ch 'D', encFields [.byte 55], by decide⟩

theorem dataRow_shown_seven : ∃ (c c' : Ctx) (q : Queued) (r : DataRow), Reachable c ∧ c.nextEvent = some (q, c') ∧
    q.ev = .dataRow r ∧ r.columns = [{ data := some 0, len := 1 }] ∧
    ∃ (fs : List Field) (rest : Bytes), q.frame.drop 2 = fs.flatMap Field.enc ++ rest ∧ r.columns.length = fs.length ∧
      ∀ (i : ℕ) (col : RowColumn) (f : Field), r.columns[i]? = some col → fs[i]? = some f → ∀ p, col.data = some p →
        p + col.len ≤ rowArenaSize ∧ col.len = f.data.length ∧ slice c'.rowArena p col.len = f.data := by
  obtain ⟨c, c', q, hr, hn, -, hev, -⟩ := row_delivered (show 64 ≠ 0 by decide) sevenRow
    [⟨1, [55], by decide⟩] (by decide) rfl rfl (by decide)
  exact ⟨c, c', q, _, hr.reachable, hn, hev, by decide, dataRow_shown hr.reachable hn hev⟩

theorem dataRow_null_seven : ∃ (c c' : Ctx) (q : Queued) (r : DataRow), RowRun c 0 ∧ c.nextEvent = some (q, c') ∧
    q.ev = .dataRow r ∧ r.columns = [{ data := some 0, len := 1 }] ∧
    ∀ (i : ℕ) (col : RowColumn) (f : Field), r.columns[i]? = some col →
      [(⟨1, [55], by decide⟩ : Field)][i]? = some f →
        (col.data = none ↔ f.len.toInt < 0 ∨
          storedBytes ((c.log.drop 0).take ((c.log.drop 0).length - c.events.count)) +
            DataRow.stored ⟨r.columns.take i⟩ + f.data.length > rowArenaSize) := by
  obtain ⟨c, c', q, hr, hn, hfr, hev, -⟩ := row_delivered (show 64 ≠ 0 by decide) sevenRow
    [⟨1, [55], by decide⟩] (by decide) rfl rfl (by decide)
  exact ⟨c, c', q, _, hr, hn, hev, by decide, (dataRow_null_iff hr hn hev hfr (by decide)).2⟩

/-- A value one byte longer than the arena. -/
def wideField : Field := ⟨toI32 65537, List.replicate 65537 97, by rw [List.length_replicate]; decide⟩

/-- A well-formed row of that one value is delivered as NULL. -/
theorem dataRow_drops_wide : ∃ (c c' : Ctx) (q : Queued) (r : DataRow) (col : RowColumn), RowRun c 0 ∧
    c.nextEvent = some (q, c') ∧ q.ev = .dataRow r ∧ q.frame = encFields [wideField] ∧
    r.columns[0]? = some col ∧ col.data = none ∧ ¬wideField.len.toInt < 0 := by
  have hlen : (encFields [wideField]).length = 65543 := by
    rw [encFields, List.length_append, wr16Be_length, List.flatMap_singleton, wideField.enc_length]
    decide
  have hneg : ¬wideField.len.toInt < 0 := by decide
  obtain ⟨c, c', q, hr, hn, hfr, hev, -⟩ := row_delivered (show 16 * 1024 * 1024 ≠ 0 by decide)
    ⟨ch 'D', encFields [wideField], by rw [hlen]; decide⟩ [wideField] (by decide) rfl rfl
    (by unfold Frame.len; rw [hlen]; decide)
  refine ⟨c, c', q, _, { data := none, len := 0 }, hr, hn, hev, hfr, ?_, rfl, hneg⟩
  have hbig : 0 + wideField.data.length > rowArenaSize := by
    rw [wideField.ok]; decide
  rw [storeFields, if_neg hneg, if_pos hbig]
  rfl

end Pqwire

import Pqwire.Spec.Observe
import Pqwire.Proof.Fifo

/-!
# A context after a reset and a fresh one

`pqwire_reset` leaves the scratch areas, the input buffer and the row arena with what was in
them. None of it can be seen: an event points only to what has been written since.

* `SameFor`: what an event points to has been written alike in both.
* `Alike`: the two contexts, after the same calls.
* `Alike.handleMessage`, `Alike.feedStep`, `Alike.feedInput`: handling a message, a round of the
  loop and a call of `pqwire_feed_input` do the same to both.
-/

namespace Pqwire

open ByteMem

/-! ## What events show -/

/-- Entry `i` has been written alike in both scratch areas, and its name is in its own slot. -/
def SameEntry (cols cols' : List ColDesc) (names names' : List CStr) (i : ℕ) : Prop :=
  cols[i]? = cols'[i]? ∧ names[i]? = names'[i]? ∧ ∃ d, cols'[i]? = some d ∧ d.name = some i

/-- Column `i` has been written alike in both contexts. -/
def SameColumn (c f : Ctx) (i : ℕ) : Prop := SameEntry c.colScratch f.colScratch c.colNameScratch f.colNameScratch i

/-- What the event points to has been written in `f`, and alike in `c`. -/
def SameFor (c f : Ctx) : Event → Prop
  | .startup => c.userScratch = f.userScratch ∧ c.dbScratch = f.dbScratch
  | .query => c.sqlScratch = f.sqlScratch
  | .commandComplete => c.tagScratch = f.tagScratch
  | .rowDescription n => ∀ i < n, SameColumn c f i
  | .dataRow r => ∀ col ∈ r.columns, ∀ p, col.data = some p → p + col.len ≤ f.rowArena.length
  | .bind b => b.rawBody + b.rawBodyLen ≤ f.inputBuf.length ∧
      ∀ i p, (b.param i).data = some p → p + (b.param i).length.toInt.toNat ≤ f.inputBuf.length
  | .parameterStatus p n => p + n ≤ f.inputBuf.length
  | _ => True

variable {c f c' f' : Ctx}

theorem SameColumn.column {i : ℕ} (h : SameColumn c f i) : c.column i = f.column i := by
  obtain ⟨hd, hn, d, hf, hname⟩ := h
  unfold Ctx.column
  rw [List.getD_eq_getElem?_getD, List.getD_eq_getElem?_getD, hd, hf, Option.getD_some]
  simp only [hname, Option.map_some, List.getD_eq_getElem?_getD, hn]

/-- **Such an event shows the same in both.** -/
theorem SameFor.shows {ev : Event} (h : SameFor c f ev) (hi : f.inputBuf <+: c.inputBuf) (ha : f.rowArena <+: c.rowArena) :
    c.read ev = f.read ev ∧ c.rawBody ev = f.rawBody ev := by
  cases ev with
  | startup => exact ⟨by simp only [Ctx.read, h.1, h.2], rfl⟩
  | query =>
    refine ⟨?_, rfl⟩
    simp only [Ctx.read]
    rw [show c.sqlScratch = f.sqlScratch from h]
  | commandComplete =>
    refine ⟨?_, rfl⟩
    simp only [Ctx.read]
    rw [show c.tagScratch = f.tagScratch from h]
  | rowDescription n =>
    refine ⟨?_, rfl⟩
    simp only [Ctx.read]
    congr 1
    exact List.map_congr_left fun i hi => (h i (List.mem_range.1 hi)).column
  -- rows point into the arena, Binds and statuses into the input; the rest shows values
  | dataRow r =>
    refine ⟨?_, rfl⟩
    simp only [Ctx.read]
    congr 1
    refine List.map_congr_left ?_
    intro col hcol
    cases hp : col.data with
    | none => rfl
    | some p => exact congrArg some (slice_mono ha (h col hcol p hp))
  | bind b =>
    refine ⟨?_, slice_mono hi h.1⟩
    simp only [Ctx.read]
    congr 1
    refine List.map_congr_left ?_
    intro i _
    cases hp : (b.param i).data with
    | none => rfl
    | some p => exact congrArg some (slice_mono hi (h.2 i p hp))
  | parameterStatus p n =>
    refine ⟨?_, rfl⟩
    simp only [Ctx.read]
    rw [slice_mono hi h]
  | _ => exact ⟨rfl, rfl⟩

/-- The scratch areas that were alike still are, and no less has been written. -/
structure Keeps (c f c' f' : Ctx) : Prop where
  user : c.userScratch = f.userScratch ∧ c.dbScratch = f.dbScratch →
    c'.userScratch = f'.userScratch ∧ c'.dbScratch = f'.dbScratch
  sql : c.sqlScratch = f.sqlScratch → c'.sqlScratch = f'.sqlScratch
  tag : c.tagScratch = f.tagScratch → c'.tagScratch = f'.tagScratch
  column : ∀ i, SameColumn c f i → SameColumn c' f' i
  arena : f.rowArena.length ≤ f'.rowArena.length
  input : f.inputBuf.length ≤ f'.inputBuf.length

theorem Keeps.sameFor (h : Keeps c f c' f') {ev : Event} (hev : SameFor c f ev) : SameFor c' f' ev := by
  cases ev with
  | startup => exact h.user hev
  | query => exact h.sql hev
  | commandComplete => exact h.tag hev
  | rowDescription n => exact fun i hi => h.column i (hev i hi)
  | dataRow r => exact fun col hcol p hp => (hev col hcol p hp).trans h.arena
  | bind b => exact ⟨hev.1.trans h.input, fun i p hp => (hev.2 i p hp).trans h.input⟩
  | parameterStatus p n => exact le_trans hev h.input
  | _ => trivial

/-! ## The scratch areas -/

theorem SameEntry.set {cols cols' : List ColDesc} {names names' : List CStr} {i j : ℕ} (h : SameEntry cols cols' names names' j)
    (d : ColDesc) (hd : d.name = some i) (name : CStr) (hc : cols.length = cols'.length) (hn : names.length = names'.length) :
    SameEntry (cols.set i d) (cols'.set i d) (names.set i name) (names'.set i name) j := by
  obtain ⟨h1, h2, e, h3, h4⟩ := h
  unfold SameEntry
  simp only [List.getElem?_set, hc, hn]
  by_cases hij : i = j
  · subst hij
    have hi : i < cols'.length := (List.getElem?_eq_some_iff.1 h3).1
    exact ⟨by simp, by simp, d, by simp [hi], hd⟩
  · simp only [hij, if_false]
    exact ⟨h1, h2, e, h3, h4⟩

/-- The column loop of `parse_row_description` counts the same columns and leaves them alike. -/
theorem rowDescLoop_same (body : Bytes) {n i off : ℕ} {cols cols' : List ColDesc} {names names' : List CStr}
    (hc : cols.length = cols'.length) (hn : names.length = names'.length) (hroom : i + n ≤ cols'.length) :
    (rowDescLoop body n i off cols names).2.2 = (rowDescLoop body n i off cols' names').2.2 ∧
      ∀ j, (SameEntry cols cols' names names' j ∨ (i ≤ j ∧ j < (rowDescLoop body n i off cols' names').2.2)) →
        SameEntry (rowDescLoop body n i off cols names).1 (rowDescLoop body n i off cols' names').1
          (rowDescLoop body n i off cols names).2.1 (rowDescLoop body n i off cols' names').2.1 j := by
  induction n generalizing i off cols cols' names names' with
  | zero =>
    refine ⟨rfl, ?_⟩
    intro j hj
    rcases hj with hj | ⟨h1, h2⟩
    · exact hj
    · simp only [rowDescLoop] at h2
      omega
  | succ n ih =>
    simp only [rowDescLoop]
    split
    · cases readCstr (body.drop off) with
      | none =>
        refine ⟨rfl, ?_⟩
        intro j hj
        rcases hj with hj | ⟨h1, h2⟩
        · exact hj
        · exact absurd h2 (Nat.not_lt.2 h1)
      | some r =>
        obtain ⟨name, len⟩ := r
        dsimp only
        split
        · -- the name is stored, but the column does not count
          refine ⟨rfl, ?_⟩
          intro j hj
          rcases hj with ⟨h1, h2, h3⟩ | ⟨h1, h2⟩
          · refine ⟨h1, ?_, h3⟩
            simp only [List.getElem?_set, hn, h2]
          · exact absurd h2 (Nat.not_lt.2 h1)
        · set d : ColDesc := ⟨some i, UInt32.ofNat (rd32Be body (off + len + 6)), toI16 (rd16Be body (off + len + 16))⟩
          obtain ⟨hcount, hsame⟩ := @ih (i + 1) (off + len + 18) (cols.set i d) (cols'.set i d)
            (names.set i (copyCstr 64 name)) (names'.set i (copyCstr 64 name)) (by simp [hc]) (by simp [hn])
            (by rw [List.length_set]; omega)
          refine ⟨hcount, fun j hj => hsame j ?_⟩
          rcases hj with hj | ⟨h1, h2⟩
          · exact Or.inl (hj.set d rfl _ hc hn)
          rcases Nat.eq_or_lt_of_le h1 with rfl | hlt
          · -- the entry that is written now
            refine Or.inl ⟨?_, ?_, d, ?_, rfl⟩
            · rw [List.getElem?_set, List.getElem?_set, if_pos rfl, if_pos rfl, hc]
            · rw [List.getElem?_set, List.getElem?_set, if_pos rfl, if_pos rfl, hn]
            · rw [List.getElem?_set_self (by omega)]
          · exact Or.inr ⟨hlt, h2⟩
    · refine ⟨rfl, ?_⟩
      intro j hj
      rcases hj with hj | ⟨h1, h2⟩
      · exact hj
      · exact absurd h2 (Nat.not_lt.2 h1)

/-- The two arenas differ only behind what has been written in the second, which was `n` bytes at
least, and the columns are the same and inside. -/
structure SameRows (n : ℕ) (r r' : RowParse) : Prop where
  columns : r.columns = r'.columns
  used : r.used = r'.used
  arena : r'.arena <+: r.arena
  grows : n ≤ r'.arena.length
  inside : ∀ col ∈ r'.columns, ∀ p, col.data = some p → p + col.len ≤ r'.arena.length

theorem SameRows.nil {a a' : Bytes} (h : a' <+: a) (used : ℕ) : SameRows a'.length ⟨[], a, used⟩ ⟨[], a', used⟩ :=
  ⟨rfl, rfl, h, le_rfl, fun _ hcol => absurd hcol List.not_mem_nil⟩

theorem SameRows.cons {n m : ℕ} {r r' : RowParse} (h : SameRows m r r') (hn : n ≤ m) {col : RowColumn}
    (hcol : ∀ p, col.data = some p → p + col.len ≤ m) : SameRows n (r.cons col) (r'.cons col) := by
  refine ⟨congrArg (col :: ·) h.columns, h.used, h.arena, hn.trans h.grows, ?_⟩
  intro col' hm p hp
  rcases List.mem_cons.1 hm with rfl | hm
  · exact (hcol p hp).trans h.grows
  · exact h.inside col' hm p hp

/-- The column loop of `parse_data_row` makes the same columns, inside what has been written. -/
theorem dataRowLoop_same (body : Bytes) {n off used : ℕ} {a a' : Bytes} (hp : a' <+: a) (hu : used ≤ a'.length) :
    SameRows a'.length (dataRowLoop body n off a used) (dataRowLoop body n off a' used) := by
  induction n generalizing off used a a' with
  | zero => exact .nil hp used
  | succ n ih =>
    simp only [dataRowLoop]
    split
    · split
      · exact (ih hp hu).cons le_rfl (by simp)
      split
      · exact .nil hp used
      split
      · exact (ih hp hu).cons le_rfl (by simp)
      · set need := (toI32 (rd32Be body off)).toInt.toNat
        have hdata : (slice body (off + 4) need).length = need := slice_length (by omega)
        have hlen : (blit a' used (slice body (off + 4) need)).length = max a'.length (used + need) := by
          rw [blit_length hu, hdata]
        refine (ih (blit_mono hp hu _) (by rw [hlen]; exact le_max_right _ _)).cons ?_ ?_
        · rw [hlen]
          exact le_max_left _ _
        · intro p hcp
          cases hcp
          rw [hlen]
          exact le_max_right _ _
    · exact .nil hp used

/-! ## Alike contexts -/

/-- `c` after a reset and a fresh context `f` that the same calls have been made on. -/
structure Alike (c f : Ctx) : Prop where
  okc : c.Ok
  okf : f.Ok
  callocs : c.allocs = []
  fallocs : f.allocs = []
  role : c.role = f.role
  max : c.maxMessageSize = f.maxMessageSize
  size : c.queueSize = f.queueSize
  output : c.output = f.output
  inputLen : c.inputLen = f.inputLen
  used : c.rowArenaUsed = f.rowArenaUsed
  state : c.protoState = f.protoState
  seen : c.startupSeen = f.startupSeen
  queue : c.events.toList = f.events.toList
  log : c.log = f.log
  input : f.inputBuf <+: c.inputBuf
  arena : f.rowArena <+: c.rowArena
  shows : ∀ q ∈ f.log, SameFor c f q.ev

namespace Alike

theorem enqueue (h : Alike c f) {ev : Event} (hev : SameFor c f ev) (body : Bytes) :
    Alike (c.enqueueEvent ev body) (f.enqueueEvent ev body) := by
  have hread := (hev.shows h.input h.arena).1
  have hkeeps : Keeps c f (c.enqueueEvent ev body) (f.enqueueEvent ev body) :=
    ⟨id, id, id, fun _ => id, le_rfl, le_rfl⟩
  refine ⟨enqueueEvent_ok h.okc ev body, enqueueEvent_ok h.okf ev body, h.callocs, h.fallocs, h.role, h.max, ?_, h.output,
    h.inputLen, h.used, h.state, h.seen, ?_, ?_, h.input, h.arena, fun q hq => ?_⟩
  · exact (RingBuf.enqueue_size _ _).trans (h.size.trans (RingBuf.enqueue_size _ _).symm)
  · change (c.events.enqueue _).toList = (f.events.enqueue _).toList
    have hcount : c.events.count = f.events.count := by
      rw [← RingBuf.toList_length, h.queue, RingBuf.toList_length]
    have hsize : c.events.size = f.events.size := h.size
    rw [RingBuf.toList_enqueue h.okc.ring, RingBuf.toList_enqueue h.okf.ring, h.queue, hread, hcount, hsize]
  · change c.log ++ _ = f.log ++ _
    rw [h.log, hread]
  · rcases List.mem_append.1 hq with hq | hq
    · exact hkeeps.sameFor (h.shows q hq)
    · rw [List.mem_singleton.1 hq]
      exact hkeeps.sameFor hev

/-- Everything may change but the configuration, the queue and the output. -/
theorem update (h : Alike c f) (hk : Keeps c f c' f') (hokc : c'.Ok) (hokf : f'.Ok)
    (hc : c'.role = c.role ∧ c'.maxMessageSize = c.maxMessageSize ∧ c'.events = c.events ∧ c'.log = c.log ∧
      c'.allocs = c.allocs ∧ c'.output = c.output)
    (hf : f'.role = f.role ∧ f'.maxMessageSize = f.maxMessageSize ∧ f'.events = f.events ∧ f'.log = f.log ∧
      f'.allocs = f.allocs ∧ f'.output = f.output)
    (hlen : c'.inputLen = f'.inputLen) (hused : c'.rowArenaUsed = f'.rowArenaUsed) (hstate : c'.protoState = f'.protoState)
    (hseen : c'.startupSeen = f'.startupSeen) (hi : f'.inputBuf <+: c'.inputBuf) (ha : f'.rowArena <+: c'.rowArena) :
    Alike c' f' := by
  obtain ⟨hc1, hc2, hc3, hc4, hc5, hc6⟩ := hc
  obtain ⟨hf1, hf2, hf3, hf4, hf5, hf6⟩ := hf
  refine ⟨hokc, hokf, hc5.trans h.callocs, hf5.trans h.fallocs, ?_, ?_, ?_, ?_, hlen, hused, hstate, hseen, ?_, ?_, hi, ha, ?_⟩
  · rw [hc1, hf1, h.role]
  · rw [hc2, hf2, h.max]
  · have hsize := h.size
    unfold Ctx.queueSize at hsize ⊢
    rw [hc3, hf3, hsize]
  · rw [hc6, hf6, h.output]
  · rw [hc3, hf3, h.queue]
  · rw [hc4, hf4, h.log]
  · rw [hf4]
    intro q hq
    exact hk.sameFor (h.shows q hq)

/-- The phase may be set. -/
theorem setState (h : Alike c f) {p p' : ProtoState} {a a' : AuthState} {s s' : Bool} (hp : p = p') (hs : s = s') :
    Alike { c with protoState := p, authState := a, startupSeen := s }
      { f with protoState := p', authState := a', startupSeen := s' } :=
  h.update ⟨id, id, id, fun _ => id, le_rfl, le_rfl⟩
    ⟨h.okc.ring, h.okc.queue, h.okc.input, h.okc.cols, h.okc.names, h.okc.arena, h.okc.arenaSize⟩
    ⟨h.okf.ring, h.okf.queue, h.okf.input, h.okf.cols, h.okf.names, h.okf.arena, h.okf.arenaSize⟩
    ⟨rfl, rfl, rfl, rfl, rfl, rfl⟩ ⟨rfl, rfl, rfl, rfl, rfl, rfl⟩ h.inputLen h.used hp hs h.input h.arena

/-- The strings of the scratch areas may be set. -/
theorem setStrings (h : Alike c f) {user db sql tag user' db' sql' tag' : CStr}
    (hu : (c.userScratch = f.userScratch ∧ c.dbScratch = f.dbScratch) → user = user' ∧ db = db')
    (hs : c.sqlScratch = f.sqlScratch → sql = sql') (ht : c.tagScratch = f.tagScratch → tag = tag') :
    Alike { c with userScratch := user, dbScratch := db, sqlScratch := sql, tagScratch := tag }
      { f with userScratch := user', dbScratch := db', sqlScratch := sql', tagScratch := tag' } :=
  h.update ⟨hu, hs, ht, fun _ => id, le_rfl, le_rfl⟩
    ⟨h.okc.ring, h.okc.queue, h.okc.input, h.okc.cols, h.okc.names, h.okc.arena, h.okc.arenaSize⟩
    ⟨h.okf.ring, h.okf.queue, h.okf.input, h.okf.cols, h.okf.names, h.okf.arena, h.okf.arenaSize⟩
    ⟨rfl, rfl, rfl, rfl, rfl, rfl⟩ ⟨rfl, rfl, rfl, rfl, rfl, rfl⟩ h.inputLen h.used h.state h.seen h.input h.arena

/-- The input side may be replaced. -/
theorem setInput (h : Alike c f) {buf buf' : Bytes} {len : ℕ} (cap cap' : ℕ) (hp : buf' <+: buf) (hl : len ≤ buf'.length)
    (hg : f.inputBuf.length ≤ buf'.length) : Alike (c.setInput buf len cap) (f.setInput buf' len cap') :=
  h.update ⟨id, id, id, fun _ => id, le_rfl, hg⟩ (h.okc.withInput cap (hl.trans hp.length_le)) (h.okf.withInput cap' hl)
    ⟨rfl, rfl, rfl, rfl, rfl, rfl⟩ ⟨rfl, rfl, rfl, rfl, rfl, rfl⟩ rfl h.used h.state h.seen hp h.arena

/-! ## Messages -/

theorem parseRowDescription (h : Alike c f) (body : Bytes) :
    Alike (Pqwire.parseRowDescription c body) (Pqwire.parseRowDescription f body) := by
  unfold Pqwire.parseRowDescription
  split
  · exact h
  · dsimp only
    set n := min (rd16Be body 0) maxRowColumns
    have hc : c.colScratch.length = f.colScratch.length := h.okc.cols.trans h.okf.cols.symm
    have hn : c.colNameScratch.length = f.colNameScratch.length := h.okc.names.trans h.okf.names.symm
    obtain ⟨hcount, hsame⟩ := @rowDescLoop_same body n 0 2 c.colScratch f.colScratch c.colNameScratch f.colNameScratch hc hn
      (by rw [Nat.zero_add, h.okf.cols]; exact min_le_right _ _)
    obtain ⟨hlc, hlcn⟩ := rowDescLoop_length body n 0 2 c.colScratch c.colNameScratch
    obtain ⟨hlf, hlfn⟩ := rowDescLoop_length body n 0 2 f.colScratch f.colNameScratch
    set r := rowDescLoop body n 0 2 c.colScratch c.colNameScratch
    set r' := rowDescLoop body n 0 2 f.colScratch f.colNameScratch
    have halike : Alike { c with colScratch := r.1, colNameScratch := r.2.1 }
        { f with colScratch := r'.1, colNameScratch := r'.2.1 } :=
      h.update ⟨id, id, id, fun i hi => hsame i (Or.inl hi), le_rfl, le_rfl⟩
        ⟨h.okc.ring, h.okc.queue, h.okc.input, hlc.trans h.okc.cols, hlcn.trans h.okc.names, h.okc.arena, h.okc.arenaSize⟩
        ⟨h.okf.ring, h.okf.queue, h.okf.input, hlf.trans h.okf.cols, hlfn.trans h.okf.names, h.okf.arena, h.okf.arenaSize⟩
        ⟨rfl, rfl, rfl, rfl, rfl, rfl⟩ ⟨rfl, rfl, rfl, rfl, rfl, rfl⟩ h.inputLen h.used h.state h.seen h.input h.arena
    rw [hcount]
    refine halike.enqueue ?_ body
    intro i hi
    exact hsame i (Or.inr ⟨Nat.zero_le i, hi⟩)

theorem parseDataRow (h : Alike c f) (body : Bytes) : Alike (Pqwire.parseDataRow c body) (Pqwire.parseDataRow f body) := by
  unfold Pqwire.parseDataRow
  split
  · exact h
  · dsimp only
    rw [h.used]
    have hrows := @dataRowLoop_same body (min (rd16Be body 0) maxRowColumns) 2 f.rowArenaUsed c.rowArena f.rowArena h.arena
      h.okf.arena
    obtain ⟨hc1, hc2⟩ := dataRowLoop_arena body (min (rd16Be body 0) maxRowColumns) 2 c.rowArena f.rowArenaUsed
      (h.used ▸ h.okc.arena) h.okc.arenaSize
    obtain ⟨hf1, hf2⟩ := dataRowLoop_arena body (min (rd16Be body 0) maxRowColumns) 2 f.rowArena f.rowArenaUsed h.okf.arena
      h.okf.arenaSize
    set r := dataRowLoop body (min (rd16Be body 0) maxRowColumns) 2 c.rowArena f.rowArenaUsed
    set r' := dataRowLoop body (min (rd16Be body 0) maxRowColumns) 2 f.rowArena f.rowArenaUsed
    have halike : Alike { c with rowArena := r.arena, rowArenaUsed := r.used }
        { f with rowArena := r'.arena, rowArenaUsed := r'.used } :=
      h.update ⟨id, id, id, fun _ => id, hrows.grows, le_rfl⟩
        ⟨h.okc.ring, h.okc.queue, h.okc.input, h.okc.cols, h.okc.names, hc1, hc2⟩
        ⟨h.okf.ring, h.okf.queue, h.okf.input, h.okf.cols, h.okf.names, hf1, hf2⟩
        ⟨rfl, rfl, rfl, rfl, rfl, rfl⟩ ⟨rfl, rfl, rfl, rfl, rfl, rfl⟩ h.inputLen hrows.used h.state h.seen h.input hrows.arena
    rw [hrows.columns]
    refine halike.enqueue ?_ body
    exact hrows.inside

/-- An event of a message that does nothing else. -/
theorem enqueue_plain (h : Alike c f) {role : Role} {type : UInt8} {base : ℕ} {body : Bytes} {ev : Event}
    (hp : plainEvent role type base body = some ev) (hb : base + body.length ≤ f.inputBuf.length) :
    Alike (c.enqueueEvent ev body) (f.enqueueEvent ev body) := by
  refine h.enqueue ?_ body
  rcases plainEvent_cases hp with ⟨b, rfl, -, -, hof⟩ | ⟨rfl, -⟩ | hv
  · obtain ⟨-, -, -, -, hraw, hlen⟩ := bindOf_inv hof
    refine ⟨by rw [hraw, hlen]; exact hb, ?_⟩
    intro i p hp
    exact (bindOf_view hof i hp).2.trans hb
  · exact hb
  · cases ev <;> trivial

/-- **A message is handled alike.** -/
theorem handleMessage (h : Alike c f) (type : UInt8) {base : ℕ} {body : Bytes}
    (hb : base + body.length ≤ f.inputBuf.length) :
    Alike (Pqwire.handleMessage c type base body) (Pqwire.handleMessage f type base body) := by
  by_cases hs : type ∈ stateful f.role
  · rcases stateful_cases hs with ⟨hr, rfl⟩ | ⟨hr, t, rfl⟩
    · rw [handleMessage_front (h.role.trans hr), handleMessage_front hr]
      have hset : Alike { c with sqlScratch := scratchStr maxQueryLen body }
          { f with sqlScratch := scratchStr maxQueryLen body } := h.setStrings id (fun _ => rfl) id
      have hsame : SameFor { c with sqlScratch := scratchStr maxQueryLen body }
        { f with sqlScratch := scratchStr maxQueryLen body } .query := rfl
      exact (hset.enqueue hsame body).setState rfl h.seen
    · rw [handleMessage_back (h.role.trans hr), handleMessage_back hr]
      rw [hr] at hs
      cases t with
      | authentication =>
        simp only [Pqwire.handleBackend]
        split
        · have henq := h.enqueue (show SameFor c f .authenticationOk from trivial) body
          exact henq.setState h.state h.seen
        · exact h
      | readyForQuery =>
        have henq := h.enqueue (show SameFor c f .readyForQuery from trivial) body
        exact henq.setState rfl h.seen
      | rowDescription => exact h.parseRowDescription body
      | dataRow => exact h.parseDataRow body
      | commandComplete =>
        have hset : Alike { c with tagScratch := scratchStr 64 body } { f with tagScratch := scratchStr 64 body } :=
          h.setStrings id id fun _ => rfl
        have hsame : SameFor { c with tagScratch := scratchStr 64 body }
          { f with tagScratch := scratchStr 64 body } .commandComplete := rfl
        exact (hset.enqueue hsame body).setState rfl h.seen
      | _ => exact absurd hs (by decide)
  · rw [handleMessage_plain (h.role ▸ hs), handleMessage_plain hs, h.role]
    cases hp : plainEvent f.role type base body with
    | none => exact h
    | some ev => exact h.enqueue_plain hp hb

theorem parseStartupBody (h : Alike c f) (body : Bytes) :
    Alike (Pqwire.parseStartupBody c body) (Pqwire.parseStartupBody f body) := by
  unfold Pqwire.parseStartupBody
  dsimp only
  set r := startupLoop body body.length 4 CStr.empty CStr.empty
  have hset : Alike { c with userScratch := r.1, dbScratch := r.2 } { f with userScratch := r.1, dbScratch := r.2 } :=
    h.setStrings (fun _ => ⟨rfl, rfl⟩) id id
  have hsame : SameFor { c with userScratch := r.1, dbScratch := r.2 } { f with userScratch := r.1, dbScratch := r.2 }
    .startup := ⟨rfl, rfl⟩
  have henq := hset.enqueue hsame body
  by_cases hr : f.role = .server
  · rw [if_pos hr, if_pos (h.role.trans hr)]
    exact henq.setState rfl rfl
  · rw [if_neg hr, if_neg (h.role ▸ hr)]
    exact henq.setState h.state rfl

/-! ## Rounds -/

theorem consume (h : Alike c f) {n : ℕ} (hn : n ≤ f.inputLen) : Alike (c.consume n) (f.consume n) := by
  have hin := h.okf.input
  have hl : n + (f.inputLen - n) ≤ f.inputBuf.length := by omega
  unfold Ctx.consume
  rw [h.inputLen]
  have hlen := shiftDown_length hl
  exact h.setInput c.inputCap f.inputCap (shiftDown_mono h.input hl) (by rw [hlen]; omega) (le_of_eq hlen.symm)

/-- **A round of the loop does the same to both.** -/
theorem feedStep (h : Alike c f) : (∃ c' f', c.feedStep = .again c' ∧ f.feedStep = .again f' ∧ Alike c' f') ∨
    ∃ c' f', c.feedStep = .stop c' ∧ f.feedStep = .stop f' ∧ Alike c' f' := by
  have hin := h.okf.input
  have hawait : c.awaitsStartup = f.awaitsStartup := by
    unfold Ctx.awaitsStartup
    rw [h.role, h.seen]
  have herror : Alike (c.enqueueEvent .protocolError []) (f.enqueueEvent .protocolError []) :=
    h.enqueue (by trivial) []
  unfold Ctx.feedStep
  rw [hawait]
  split
  · unfold Ctx.startupStep
    dsimp only
    rw [h.inputLen]
    split
    · exact Or.inr ⟨c, f, rfl, rfl, h⟩
    · rw [rd32Be_mono h.input (by omega), h.max]
      split
      · refine Or.inr ⟨_, _, rfl, rfl, ?_⟩
        exact herror.setInput c.inputCap f.inputCap h.input (Nat.zero_le _) le_rfl
      split
      · exact Or.inr ⟨c, f, rfl, rfl, h⟩
      · rename_i hlen hfit
        rw [slice_mono h.input (by omega)]
        refine Or.inl ⟨_, _, rfl, rfl, (h.parseStartupBody _).consume ?_⟩
        rw [(parseStartupBody_handled f _).inputLen]
        omega
  · unfold Ctx.typedStep
    dsimp only
    rw [h.inputLen]
    split
    · exact Or.inr ⟨c, f, rfl, rfl, h⟩
    · rw [rd32Be_mono h.input (by omega), h.max, getD_mono h.input (by omega)]
      split
      · -- a bad length: both reject the frame, whole or with all that has arrived
        refine Or.inl ⟨_, _, rfl, rfl, ?_⟩
        unfold Ctx.rejectFrame
        dsimp only
        rw [h.inputLen]
        split
        · rename_i hall
          have hl : 1 + rd32Be f.inputBuf 1 + (f.inputLen - 1 - rd32Be f.inputBuf 1) ≤ f.inputBuf.length := by omega
          have hlen := shiftDown_length hl
          exact herror.setInput c.inputCap f.inputCap (shiftDown_mono h.input hl) (by rw [hlen]; omega)
            (le_of_eq hlen.symm)
        · exact herror.setInput c.inputCap f.inputCap h.input (Nat.zero_le _) le_rfl
      split
      · exact Or.inr ⟨c, f, rfl, rfl, h⟩
      · rename_i hlen hfit
        have hbody : 5 + (rd32Be f.inputBuf 1 - 4) ≤ f.inputBuf.length := by omega
        rw [slice_mono h.input hbody]
        refine Or.inl ⟨_, _, rfl, rfl, (h.handleMessage _ ?_).consume ?_⟩
        · rw [slice_length hbody]
          exact hbody
        · rw [(handleMessage_handled f _ _ _).inputLen]
          omega

/-- The loop returns on both or on neither. -/
theorem feedLoop (h : Alike c f) (fuel : ℕ) : (Ctx.feedLoop fuel c = none ∧ Ctx.feedLoop fuel f = none) ∨
    ∃ c' f', Ctx.feedLoop fuel c = some c' ∧ Ctx.feedLoop fuel f = some f' ∧ Alike c' f' := by
  induction fuel generalizing c f with
  | zero => exact Or.inl ⟨rfl, rfl⟩
  | succ fuel ih =>
    unfold Ctx.feedLoop
    rcases h.feedStep with ⟨c₁, f₁, hc, hf, h₁⟩ | ⟨c', f', hc, hf, h'⟩
    · rw [hc, hf]
      exact ih h₁
    · rw [hc, hf]
      exact Or.inr ⟨c', f', rfl, rfl, h'⟩

/-- Both accept the bytes, whether the buffer has to grow or not. -/
theorem acceptInput (h : Alike c f) (data : Bytes) :
    ∃ c₁ f₁, c.acceptInput data = some c₁ ∧ f.acceptInput data = some f₁ ∧ Alike c₁ f₁ := by
  have hset : ∀ cap cap', Alike (c.setInput (blit c.inputBuf c.inputLen data) (c.inputLen + data.length) cap)
      (f.setInput (blit f.inputBuf f.inputLen data) (f.inputLen + data.length) cap') := by
    intro cap cap'
    have hlen := blit_length h.okf.input data
    rw [h.inputLen]
    exact h.setInput cap cap' (blit_mono h.input h.okf.input data) (by rw [hlen]; exact le_max_right _ _)
      (by rw [hlen]; exact le_max_left _ _)
  have key : ∀ {g : Ctx}, g.allocs = [] → ∃ cap, g.acceptInput data =
      some (g.setInput (blit g.inputBuf g.inputLen data) (g.inputLen + data.length) cap) := by
    intro g hg
    unfold Ctx.acceptInput
    rw [allocOk_of_nil hg, allocated_self hg]
    split
    · exact ⟨_, rfl⟩
    · exact ⟨_, rfl⟩
  obtain ⟨cap, hc⟩ := key h.callocs
  obtain ⟨cap', hf⟩ := key h.fallocs
  exact ⟨_, _, hc, hf, hset cap cap'⟩

theorem feedInput (h : Alike c f) (fuel : ℕ) (data : Bytes) :
    (c.feedInput fuel data = none ∧ f.feedInput fuel data = none) ∨
      ∃ n c' f', c.feedInput fuel data = some (c', n) ∧ f.feedInput fuel data = some (f', n) ∧ Alike c' f' := by
  obtain ⟨c₁, f₁, hc, hf, h₁⟩ := h.acceptInput data
  unfold Ctx.feedInput
  rw [hc, hf]
  dsimp only
  rcases h₁.feedLoop fuel with ⟨h1, h2⟩ | ⟨c', f', h1, h2, h'⟩
  · rw [h1, h2]
    exact Or.inl ⟨rfl, rfl⟩
  · rw [h1, h2]
    exact Or.inr ⟨data.length, c', f', rfl, rfl, h'⟩

end Alike

end Pqwire

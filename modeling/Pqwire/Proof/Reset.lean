import Pqwire.Proof.Moved

/-!
# When a reset is a fresh start

`pqwire_reset` does not rewind the row arena: rows that a fresh context still has room for are
delivered without their data. It keeps the input buffer at the size that it has grown to as well, so
an event that points into it can be read for longer than on a fresh context.

* `arena_row`: only a client that takes frames of 11 bytes has anything in its arena.
* `rows_used`, `observe_rows`: what a caller sees of rows of one byte.
* `reset_fresh_iff`: a reset is a fresh start exactly when the arena was empty and the buffer had its
  first size, or no event points into it.
-/

namespace Pqwire

open ByteMem

/-! ## What is in the arena -/

/-- A row takes from the arena at most what its body has behind the first length. -/
theorem dataRowLoop_used (body : Bytes) (n off : ℕ) (arena : Bytes) (used : ℕ) :
    (dataRowLoop body n off arena used).used ≤ used + (body.length - (off + 4)) := by
  induction n generalizing off arena used with
  | zero => exact Nat.le_add_right _ _
  | succ n ih =>
    simp only [dataRowLoop]
    split
    · split
      · have := ih (off + 4) arena used
        simp only [RowParse.cons]
        omega
      split
      · exact Nat.le_add_right _ _
      split
      · have := ih (off + 4 + (toI32 (rd32Be body off)).toInt.toNat) arena used
        simp only [RowParse.cons]
        omega
      · have := ih (off + 4 + (toI32 (rd32Be body off)).toInt.toNat)
          (blit arena used (slice body (off + 4) (toI32 (rd32Be body off)).toInt.toNat))
          (used + (toI32 (rd32Be body off)).toInt.toNat)
        simp only [RowParse.cons]
        omega
    · exact Nat.le_add_right _ _

/-- A message takes nothing from the arena, unless it is a row on a client. -/
theorem handleMessage_used (c : Ctx) (type : UInt8) (base : ℕ) (body : Bytes) :
    (handleMessage c type base body).rowArenaUsed = c.rowArenaUsed ∨
      (c.role = .client ∧ (handleMessage c type base body).rowArenaUsed ≤ c.rowArenaUsed + (body.length - 6)) := by
  have hh := handleMessage_handling c type base body
  generalize handleMessage c type base body = c' at hh ⊢
  cases hh with
  | rowDescription => unfold parseRowDescription; split <;> exact Or.inl rfl
  | dataRow hr =>
    unfold parseDataRow
    split
    · exact Or.inl rfl
    · exact Or.inr ⟨hr, dataRowLoop_used body _ 2 _ _⟩
  | _ => exact Or.inl rfl

/-- The arena is empty, or the context is a client that takes frames of 11 bytes. -/
def ArenaOk (c : Ctx) : Prop := c.rowArenaUsed = 0 ∨ (c.role = .client ∧ 11 ≤ c.maxMessageSize)

theorem ArenaOk.congr {c c' : Ctx} (h : ArenaOk c) (hu : c'.rowArenaUsed = c.rowArenaUsed) (hr : c'.role = c.role)
    (hm : c'.maxMessageSize = c.maxMessageSize) : ArenaOk c' := by
  unfold ArenaOk
  rw [hu, hr, hm]
  exact h

theorem ArenaOk.round {c c' : Ctx} (h : ArenaOk c) {r : Round} (hr : Rounds c r) (hc : r = .again c' ∨ r = .stop c') :
    ArenaOk c' := by
  cases hr with
  | wait =>
    obtain rfl : c = c' := by simpa using hc
    exact h
  | badStartup =>
    obtain rfl : _ = c' := by simpa using hc
    exact h.congr rfl rfl rfl
  | startup =>
    obtain rfl : _ = c' := by simpa using hc
    have hh := parseStartupBody_handled c (slice c.inputBuf 4 (c.startupLen - 4))
    refine h.congr ?_ hh.role hh.max
    unfold Ctx.afterStartup parseStartupBody
    split <;> rfl
  | reject =>
    obtain rfl : _ = c' := by simpa using hc
    unfold Ctx.rejectFrame
    dsimp only
    split <;> exact h.congr rfl rfl rfl
  | message ha h4 hm hl =>
    obtain rfl : _ = c' := by simpa using hc
    have hh := handleMessage_handled c (c.inputBuf.getD 0 0) 5 (slice c.inputBuf 5 (c.typedLen - 4))
    rcases handleMessage_used c (c.inputBuf.getD 0 0) 5 (slice c.inputBuf 5 (c.typedLen - 4)) with hu | ⟨hr, hu⟩
    · exact h.congr hu hh.role hh.max
    · rcases h with h0 | ⟨h1, h2⟩
      · -- a row that leaves something in an empty arena has a body of seven bytes at least
        have hlen : (slice c.inputBuf 5 (c.typedLen - 4)).length ≤ c.typedLen - 4 := by
          rw [slice, List.length_take]
          exact min_le_left _ _
        by_cases h0' : c.afterMessage.rowArenaUsed = 0
        · exact Or.inl h0'
        · refine Or.inr ⟨hh.role.trans hr, ?_⟩
          have hpos : 0 < (handleMessage c (c.inputBuf.getD 0 0) 5 (slice c.inputBuf 5 (c.typedLen - 4))).rowArenaUsed :=
            Nat.pos_of_ne_zero h0'
          have hmax : c.afterMessage.maxMessageSize = c.maxMessageSize := hh.max
          omega
      · exact Or.inr ⟨hh.role.trans h1, hh.max.symm ▸ h2⟩

theorem ArenaOk.loops {c c' : Ctx} (hl : Loops c c') (h : ArenaOk c) : ArenaOk c' :=
  hl.keeps (fun c _ h hs => h.round (feedStep_rounds c) hs) h

theorem step_arenaOk {c c' : Ctx} (hs : Step c c') (h : ArenaOk c) : ArenaOk c' := by
  cases hs with
  | @feed _ data fuel n hf =>
    unfold Ctx.feedInput at hf
    split at hf
    · cases hf
      exact h.congr rfl rfl rfl
    · rename_i c₁ ha
      obtain ⟨c₂, hl, he⟩ := Option.map_eq_some_iff.1 hf
      cases he
      obtain ⟨cap, allocs, rfl⟩ := acceptInput_some ha
      exact ArenaOk.loops ⟨fuel, hl⟩ (h.congr rfl rfl rfl)
  | next hn =>
    unfold Ctx.nextEvent Ctx.dequeueEvent at hn
    split at hn
    · cases hn
    · simp only [Option.some.injEq, Prod.mk.injEq] at hn
      obtain ⟨-, rfl⟩ := hn
      split
      · exact Or.inl rfl
      · exact h.congr rfl rfl rfl
  | reset => exact h.congr rfl rfl rfl
  | output n => exact h.congr rfl rfl rfl
  | send s =>
    rw [send_outputOnly c s]
    exact h.congr rfl rfl rfl
  | ready => exact h.congr rfl rfl rfl

/-- **Only a client that takes frames of 11 bytes has anything in its arena.** -/
theorem arena_row {c : Ctx} (hc : Reachable c) (hu : c.rowArenaUsed ≠ 0) : c.role = .client ∧ 11 ≤ c.maxMessageSize := by
  have h : ArenaOk c := by
    clear hu
    induction hc with
    | create h => exact Or.inl (create_empty h).2.2.2.2.1
    | step _ hs ih => exact step_arenaOk hs ih
  exact h.resolve_left hu

/-! ## Rows of one byte -/

/-- A DataRow with one column of one byte. -/
def byteRow : Frame := ⟨ch 'D', [0, 1, 0, 0, 0, 1, 0], show 11 < 2 ^ 32 by decide⟩

/-- The column that a client makes of it. -/
def byteColumn (used : ℕ) : RowColumn :=
  if used + 1 > rowArenaSize then { data := none, len := 0 } else { data := some used, len := 1 }

theorem handleFrame_byteRow {c : Ctx} (hr : c.role = .client) :
    (c.handleFrame byteRow).rowArenaUsed = (if c.rowArenaUsed + 1 > rowArenaSize then c.rowArenaUsed else c.rowArenaUsed + 1) ∧
      ∃ q, (c.handleFrame byteRow).events = c.events.enqueue q ∧ q.ev = .dataRow ⟨[byteColumn c.rowArenaUsed]⟩ := by
  have hlen : rd32Be byteRow.body 2 = 1 := by decide
  have hcols : min (rd16Be byteRow.body 0) maxRowColumns = 1 := by decide
  have hmsg : handleMessage c byteRow.type 5 byteRow.body = parseDataRow c byteRow.body := handleMessage_back hr .dataRow 5 _
  have hloop : dataRowLoop byteRow.body 1 2 c.rowArena c.rowArenaUsed =
      if c.rowArenaUsed + 1 > rowArenaSize then ⟨[byteColumn c.rowArenaUsed], c.rowArena, c.rowArenaUsed⟩
      else ⟨[byteColumn c.rowArenaUsed], blit c.rowArena c.rowArenaUsed [0], c.rowArenaUsed + 1⟩ := by
    have hneg : ¬(toI32 1).toInt < 0 := by decide
    have hnat : (toI32 1).toInt.toNat = 1 := by decide
    simp only [dataRowLoop, hlen, RowParse.cons]
    rw [if_pos (by decide), if_neg hneg, hnat, if_neg (by decide)]
    unfold byteColumn
    split
    · rfl
    · rfl
  have hparse : parseDataRow c byteRow.body =
      let r := dataRowLoop byteRow.body 1 2 c.rowArena c.rowArenaUsed
      { c with rowArena := r.arena, rowArenaUsed := r.used }.enqueueEvent (.dataRow ⟨r.columns⟩) byteRow.body := by
    unfold parseDataRow
    rw [if_neg (by decide), hcols]
  have hused : (c.handleFrame byteRow).rowArenaUsed = (parseDataRow c byteRow.body).rowArenaUsed := by
    rw [← hmsg]
    rfl
  have hevents : (c.handleFrame byteRow).events = (parseDataRow c byteRow.body).events := by
    rw [← hmsg]
    rfl
  rw [hused, hevents, hparse, hloop]
  split
  · exact ⟨rfl, _, rfl, rfl⟩
  · exact ⟨rfl, _, rfl, rfl⟩

/-- The arena fills up byte by byte. -/
theorem rows_used {c : Ctx} (hr : c.role = .client) (hu : c.rowArenaUsed ≤ rowArenaSize) (n : ℕ) :
    (c.handleFrames (List.replicate n byteRow)).rowArenaUsed = min rowArenaSize (c.rowArenaUsed + n) ∧
      (c.handleFrames (List.replicate n byteRow)).role = .client := by
  induction n generalizing c with
  | zero => exact ⟨(min_eq_right hu).symm, hr⟩
  | succ n ih =>
    obtain ⟨hused, -⟩ := handleFrame_byteRow hr
    have hrole : (c.handleFrame byteRow).role = .client := (handleFrame_same c byteRow).2.2.1.trans hr
    change ((c.handleFrame byteRow).handleFrames (List.replicate n byteRow)).rowArenaUsed = _ ∧
      ((c.handleFrame byteRow).handleFrames (List.replicate n byteRow)).role = _
    split at hused
    · obtain ⟨h1, h2⟩ := ih hrole (by omega)
      exact ⟨by rw [h1]; omega, h2⟩
    · obtain ⟨h1, h2⟩ := ih hrole (by omega)
      exact ⟨by rw [h1]; omega, h2⟩

/-! ## What a caller sees -/

/-- Calls of `pqwire_next_event` show the queue up to its last event. -/
theorem observe_next (fuel m : ℕ) {c : Ctx} (h : c.Ok) {l : List Queued} {q : Queued} (hq : c.events.toList = l ++ [q]) :
    ∃ os d, Watched.observe ⟨c, m⟩ fuel (List.replicate (l.length + 1) .next) = some (os ++ [.event (some d)]) ∧
      d.event = q.ev.shape := by
  have hnext : ∀ {c : Ctx} {q' : Queued} {rest : List Queued}, c.Ok → c.events.toList = q' :: rest →
      ∃ c', PublicCall.next.run fuel ⟨c, m⟩ = some (.event (some (Watched.deliver ⟨c, m⟩ c' q'.ev)), ⟨c', m⟩) ∧ c'.Ok ∧
        c'.events.toList = rest := by
    intro c q' rest h hq
    have hcount : c.events.count ≠ 0 := by
      rw [← RingBuf.toList_length, hq]
      simp
    obtain ⟨q₁, c', hn⟩ := nextEvent_isSome hcount
    have hl := (nextEvent_cases h hn).1
    obtain ⟨rfl, hrest⟩ := List.cons.inj (hl.symm.trans hq)
    exact ⟨c', by simp only [PublicCall.run, hn], nextEvent_ok h hn, hrest⟩
  induction l generalizing c with
  | nil =>
    obtain ⟨c', hn, -, -⟩ := hnext h hq
    exact ⟨[], _, observe_cons hn rfl, rfl⟩
  | cons q' l ih =>
    obtain ⟨c', hn, hok, hq'⟩ := hnext h hq
    obtain ⟨os, d, ho, hd⟩ := ih hok hq'
    exact ⟨_ :: os, d, observe_cons hn ho, hd⟩

theorem emitted_byteRow (n : ℕ) : emitted .client (List.replicate n byteRow) = n := by
  unfold emitted
  rw [List.filter_replicate, if_pos (by decide), List.length_replicate]

/-- **What a caller sees of `n + 1` rows**: the last one is delivered with its data exactly when the
arena had room for it. -/
theorem observe_rows {c : Ctx} (h : c.Ok) (hr : c.role = .client) (ha : c.allocs = []) (hin : c.inputLen = 0)
    (hm : 11 ≤ c.maxMessageSize) (hq : c.events.count = 0) (n : ℕ) :
    ∃ fuel, ∀ k, ∃ os d, Watched.observe ⟨c, 0⟩ (fuel + k) (.feed (Frame.encAll (List.replicate (n + 1) byteRow)) ::
        List.replicate (min c.queueSize (n + 1)) .next) = some (os ++ [.event (some d)]) ∧
      d.event = (Event.dataRow ⟨[byteColumn (min rowArenaSize (c.rowArenaUsed + n))]⟩).shape := by
  set rows := List.replicate (n + 1) byteRow
  have hfits : ∀ g ∈ rows, g.Fits c := by
    intro g hg
    rw [List.eq_of_mem_replicate hg]
    exact hm
  have hb : Between c := ⟨h, awaits_of_client hr, ha, hin⟩
  obtain ⟨fuel, c₁, hfeed, hbetween, hr₁, -, -, he₁, hu₁, hok₁⟩ := hb.feed hfits
  have hok := hbetween.ok
  have hr₁ : c₁.role = .client := hr₁.trans hr
  -- the last row
  obtain ⟨husedn, hrolen⟩ := rows_used hr₁ (hok₁.arena.trans hok₁.arenaSize) n
  have hlast : c₁.handleFrames rows = (c₁.handleFrames (List.replicate n byteRow)).handleFrame byteRow := by
    rw [show rows = List.replicate n byteRow ++ [byteRow] from List.replicate_succ', handleFrames_append]
    rfl
  obtain ⟨-, q, hev, hqev⟩ := handleFrame_byteRow hrolen
  rw [husedn, hu₁] at hqev
  have hring : (c₁.handleFrames (List.replicate n byteRow)).events.Ok := handleFrames_ring hok₁.ring _
  set d := c₁.handleFrames (List.replicate n byteRow)
  have hlist : (c₁.handleFrames rows).events.toList = d.events.toList.drop (d.events.count + 1 - d.events.size) ++ [q] := by
    rw [hlast, hev, RingBuf.toList_enqueue hring, List.drop_append_of_le_length]
    rw [RingBuf.toList_length]
    have := hring.pos
    omega
  have hcount : (c₁.handleFrames rows).events.count = min c.queueSize (n + 1) := by
    obtain ⟨-, hc, -⟩ := handleFrames_count hok₁.ring rows
    rw [hc, hr₁, emitted_byteRow, he₁, hq, Nat.zero_add]
    unfold Ctx.queueSize
    rw [he₁]
  have hlen : (d.events.toList.drop (d.events.count + 1 - d.events.size)).length + 1 = min c.queueSize (n + 1) := by
    have hl := congrArg List.length hlist
    rw [RingBuf.toList_length, hcount, List.length_append, List.length_singleton] at hl
    exact hl.symm
  refine ⟨fuel, ?_⟩
  intro k
  obtain ⟨os, e, ho, he⟩ := observe_next (fuel + k) (Watched.movedBy ⟨c, 0⟩ (Frame.encAll rows)) hok hlist
  rw [hlen] at ho
  exact ⟨_ :: os, e, observe_cons (run_feed hfeed k 0) ho, by rw [he, hqev]⟩

/-! ## Resets -/

/-- Calls from creation on. -/
theorem runs_config {c₀ c : Ctx} (h₀ : Reachable c₀) (h : Relation.ReflTransGen Step c₀ c) :
    Reachable c ∧ c.role = c₀.role ∧ c.maxMessageSize = c₀.maxMessageSize ∧ c.queueSize = c₀.queueSize := by
  induction h with
  | refl => exact ⟨h₀, rfl, rfl, rfl⟩
  | tail _ hs ih =>
    obtain ⟨hr, h1, h2, h3⟩ := ih
    obtain ⟨g1, g2, g3⟩ := step_config hs (reachable_ok hr).1
    exact ⟨.step hr hs, g1.trans h1, g2.trans h2, g3.trans h3⟩

/-- Two contexts created alike, after calls on the first. -/
theorem create_alike {role : Role} {config : Config} {allocs allocs' : List Bool} {c₀ c f : Ctx}
    (h₀ : createWithConfig role config allocs = some c₀) (hrun : Relation.ReflTransGen Step c₀ c)
    (hf : createWithConfig role config allocs' = some f) :
    Reachable c ∧ c.role = f.role ∧ c.maxMessageSize = f.maxMessageSize ∧ c.queueSize = f.queueSize := by
  obtain ⟨hc, hrole, hmax, hsize⟩ := runs_config (.create h₀) hrun
  unfold createWithConfig at h₀ hf
  split at h₀
  · cases h₀
  split at h₀
  · split at hf
    · cases hf
    split at hf
    · cases h₀
      cases hf
      exact ⟨hc, hrole, hmax, hsize⟩
    · cases hf
  · cases h₀

/-- A reset context with an empty arena and a fresh one. -/
theorem reset_twins {config : Config} {c f : Ctx} (hc : c.Ok) (ha : c.allocs = []) (hu : c.rowArenaUsed = 0)
    (hcap : c.inputCap = 4096 ∨ c.maxMessageSize < smallestPointing c.role)
    (hf : createWithConfig c.role config [] = some f) (hmax : c.maxMessageSize = f.maxMessageSize)
    (hsize : c.queueSize = f.queueSize) : Twins ⟨reset c, 0⟩ ⟨f, 0⟩ := by
  have hokf := (create_ok hf).1
  unfold createWithConfig at hf
  split at hf
  · cases hf
  split at hf
  · cases hf
    refine ⟨⟨reset_ok hc, hokf, ha, rfl, rfl, hmax, hsize, rfl, rfl, hu, rfl, rfl, ?_, rfl, List.nil_prefix,
      List.nil_prefix, fun q hq => absurd hq List.not_mem_nil⟩, fun q hq => absurd hq List.not_mem_nil, ?_⟩
    · exact (RingBuf.toList_clear _).trans (RingBuf.toList_init _).symm
    · rcases hcap with h | h
      · exact Or.inl ⟨h, rfl⟩
      · exact Or.inr (by rw [← hmax]; exact h)
  · cases hf

/-- The last of the rows that just do not fit any more, on an empty arena and on one that is not. -/
theorem byteColumn_ne {used : ℕ} (h0 : used ≠ 0) (hu : used ≤ rowArenaSize) :
    (Event.dataRow ⟨[byteColumn (min rowArenaSize (used + (rowArenaSize - used)))]⟩).shape ≠
      (Event.dataRow ⟨[byteColumn (min rowArenaSize (0 + (rowArenaSize - used)))]⟩).shape := by
  have h1 : min rowArenaSize (used + (rowArenaSize - used)) = rowArenaSize := by omega
  have h2 : min rowArenaSize (0 + (rowArenaSize - used)) = rowArenaSize - used := by omega
  rw [h1, h2]
  unfold byteColumn
  rw [if_pos (by omega), if_neg (by omega)]
  simp [Event.shape]

/-- Calls that end with the delivery of different events tell the two contexts apart. -/
theorem told_apart {c f : Ctx} {calls : List PublicCall} {P Q : Delivered → Prop}
    (hc : ∃ fuel, ∀ k, ∃ os d, Watched.observe ⟨reset c, 0⟩ (fuel + k) calls = some (os ++ [.event (some d)]) ∧ P d)
    (hf : ∃ fuel, ∀ k, ∃ os d, Watched.observe ⟨f, 0⟩ (fuel + k) calls = some (os ++ [.event (some d)]) ∧ Q d)
    (hne : ∀ d, P d → ¬Q d) : ¬FreshStart c f := by
  intro hfresh
  obtain ⟨fuel, hc⟩ := hc
  obtain ⟨fuel', hf⟩ := hf
  -- both contexts get the same calls and enough rounds for both
  obtain ⟨os, d, ho, hd⟩ := hc fuel'
  obtain ⟨os', d', ho', hd'⟩ := hf fuel
  have heq := hfresh (fuel + fuel') calls
  rw [ho, Nat.add_comm fuel fuel', ho'] at heq
  have hlast := (List.append_inj' (Option.some_inj.1 heq) rfl).2
  simp only [List.cons.injEq, Outcome.event.injEq, Option.some.injEq, and_true] at hlast
  exact hne d hd (hlast ▸ hd')

/-- A reset that leaves bytes in the arena can be told from a fresh start: by the last of the rows
that just fill what a fresh context has. -/
theorem arena_not_fresh {c f : Ctx} (hc : Reachable c) (ha : c.allocs = []) (hne : c.rowArenaUsed ≠ 0)
    (hf : Blank f) (hrole : c.role = f.role) (hmax : c.maxMessageSize = f.maxMessageSize)
    (hsize : c.queueSize = f.queueSize) (hfu : f.rowArenaUsed = 0) : ¬FreshStart c f := by
  have hok := (reachable_ok hc).1
  obtain ⟨hclient, h11⟩ := arena_row hc hne
  have hu : c.rowArenaUsed ≤ rowArenaSize := hok.arena.trans hok.arenaSize
  have hq0 : (reset c).events.count = 0 := rfl
  have hcobs := observe_rows (reset_ok hok) hclient ha rfl h11 hq0 (rowArenaSize - c.rowArenaUsed)
  have hfobs := observe_rows hf.ok (hrole.symm.trans hclient) hf.allocs hf.input (hmax ▸ h11) hf.queue
    (rowArenaSize - c.rowArenaUsed)
  rw [← hsize] at hfobs
  refine told_apart hcobs hfobs ?_
  intro d hd hd'
  rw [hd, hfu] at hd'
  exact byteColumn_ne hne hu hd'

/-- A reset that leaves a larger buffer can be told from a fresh start: by an event that points into
it, after a feed that only the larger one has room for. -/
theorem buffer_not_fresh {c f : Ctx} (hc : Reachable c) (ha : c.allocs = []) (hcap : c.inputCap ≠ 4096)
    (hpoint : smallestPointing c.role ≤ c.maxMessageSize) (hf : Blank f) (hrole : c.role = f.role)
    (hmax : c.maxMessageSize = f.maxMessageSize) (hfc : f.inputCap = 4096) : ¬FreshStart c f := by
  have hlarge : 5120 < c.inputCap := (reachable_cap hc).resolve_left hcap
  have hcap₀ : (reset c).inputCap = c.inputCap := rfl
  have hblank : Blank (reset c) := ⟨reset_ok (reachable_ok hc).1, ha, rfl, rfl, rfl, by omega⟩
  have hcobs := hblank.observe_telling hpoint
  have hfobs := hf.observe_telling (hrole ▸ hmax ▸ hpoint)
  rw [← hrole] at hfobs
  refine told_apart hcobs hfobs ?_
  intro d hd hd'
  have := hd.1 (hd'.2 (by omega))
  omega

/-- **A reset is a fresh start exactly when the row arena is empty and the input buffer has its first
size**, or frames that events point into are too large for the context. `c` is any context that calls
lead to from creation, and `f` a new one with the same role and configuration. -/
theorem reset_fresh_iff {role : Role} {config : Config} {allocs : List Bool} {c₀ c f : Ctx}
    (h₀ : createWithConfig role config allocs = some c₀) (hrun : Relation.ReflTransGen Step c₀ c) (ha : c.allocs = [])
    (hf : createWithConfig role config [] = some f) :
    FreshStart c f ↔ c.rowArenaUsed = 0 ∧ (c.inputCap = 4096 ∨ c.maxMessageSize < smallestPointing c.role) := by
  obtain ⟨hc, hrole, hmax, hsize⟩ := create_alike h₀ hrun hf
  obtain ⟨hblank, hfu, hfc, hfr⟩ := create_blank hf
  constructor
  · intro hfresh
    refine ⟨?_, ?_⟩
    · by_contra hne
      exact arena_not_fresh hc ha hne hblank hrole hmax hsize hfu hfresh
    · by_contra hne
      obtain ⟨hcap, hpoint⟩ := not_or.1 hne
      exact buffer_not_fresh hc ha hcap (Nat.not_lt.1 hpoint) hblank hrole hmax hfc hfresh
  · rintro ⟨hu, hcap⟩ fuel calls
    have hok := (reachable_ok hc).1
    exact (twins_bisimulation fuel).observe_eq (reset_twins hok ha hu hcap (by rw [hrole, hfr]; exact hf) hmax hsize) calls

/-- A client that has been fed a row of one byte and not been asked for it. -/
def rowClient : Ctx := (tinyClient.setInput byteRow.enc 12 4096).afterMessage

theorem rowClient_fed : Step tinyClient rowClient :=
  @Step.feed _ _ byteRow.enc 2 12 rfl

/-- The client that has delivered the row is as good as new after a reset. -/
theorem reset_fresh_drained : ∃ q c, rowClient.nextEvent = some (q, c) ∧ FreshStart c tinyClient := by
  obtain ⟨q, c, hn⟩ : ∃ q c, rowClient.nextEvent = some (q, c) := ⟨_, _, rfl⟩
  refine ⟨q, c, hn, (@reset_fresh_iff .client ⟨1, 64⟩ [] tinyClient c tinyClient rfl ?_ ?_ rfl).2 ?_⟩
  · exact (Relation.ReflTransGen.single rowClient_fed).tail (.next hn)
  · cases hn
    rfl
  · cases hn
    exact ⟨rfl, Or.inl rfl⟩

/-- **A reset can be told from a fresh start**: where it drops a row that has not been delivered. -/
theorem reset_not_fresh : Reachable rowClient ∧ createWithConfig .client ⟨1, 64⟩ [] = some tinyClient ∧
    ¬FreshStart rowClient tinyClient := by
  have hr : Reachable rowClient := .step tinyClient_reachable rowClient_fed
  have hok : tinyClient.Ok := (reachable_ok tinyClient_reachable).1
  have hblank : Blank tinyClient := ⟨hok, rfl, rfl, rfl, rfl, le_rfl⟩
  exact ⟨hr, rfl, arena_not_fresh hr rfl (by decide) hblank rfl rfl rfl rfl⟩

end Pqwire

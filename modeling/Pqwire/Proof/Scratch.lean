import Pqwire.Proof.History

/-!
# The scratch areas

`QUERY`, `COMMAND_COMPLETE` and `ROW_DESCRIPTION` point to areas of which the context has
one each. After a sequence of frames each of them holds what the last frame that writes it
left there.

* `handleFrames_sql`, `handleFrames_tag`: the strings.
* `handleFrames_name`, `handleFrames_desc`: a column, its name and its description.
* `handleFrame_event`: which frame an event comes from.
-/

namespace Pqwire

open ByteMem LastWrite

/-! ## Columns of a RowDescription -/

/-- What `parse_row_description` reads of at most `n` columns from `off` on: the names and
the descriptions, of which there is one less when the body ends behind a name. -/
def readCols (body : Bytes) : ℕ → ℕ → List CStr × List (UInt32 × Int16)
  | 0, _ => ([], [])
  | n + 1, off =>
    if off < body.length then
      match readCstr (body.drop off) with
      | none => ([], [])
      | some (name, c) =>
        let off := off + c
        if off + 18 > body.length then ([copyCstr 64 name], [])
        else
          let r := readCols body n (off + 18)
          (copyCstr 64 name :: r.1, (UInt32.ofNat (rd32Be body (off + 6)), toI16 (rd16Be body (off + 16))) :: r.2)
    else ([], [])

/-- The names and descriptions of a RowDescription body. -/
def rowCols (body : Bytes) : List CStr × List (UInt32 × Int16) :=
  if body.length < 2 then ([], []) else readCols body (min (rd16Be body 0) maxRowColumns) 2

theorem readCols_length (body : Bytes) (n off : ℕ) :
    (readCols body n off).2.length ≤ (readCols body n off).1.length ∧ (readCols body n off).1.length ≤ n := by
  induction n generalizing off with
  | zero => exact ⟨le_rfl, le_rfl⟩
  | succ n ih =>
    simp only [readCols]
    split
    · cases readCstr (body.drop off) with
      | none => exact ⟨le_rfl, Nat.zero_le _⟩
      | some r =>
        obtain ⟨name, k⟩ := r
        dsimp only
        split
        · exact ⟨Nat.zero_le _, by simp⟩
        · obtain ⟨h1, h2⟩ := ih (off + k + 18)
          simp only [List.length_cons]
          exact ⟨by omega, by omega⟩
    · exact ⟨le_rfl, Nat.zero_le _⟩

theorem getD_set {α : Type*} (l : List α) {i : ℕ} (hi : i < l.length) (a d : α) (j : ℕ) :
    (l.set i a).getD j d = if j = i then a else l.getD j d := by
  rw [List.getD_eq_getElem?_getD, List.getElem?_set]
  split
  · rename_i h
    subst h
    rw [if_pos rfl]; rfl
  · rename_i h
    rw [if_neg (fun he => h he.symm), List.getD_eq_getElem?_getD]

/-- The description that is written at index `j`. -/
def colDescAt (i : ℕ) (descs : List (UInt32 × Int16)) (j : ℕ) : Option ColDesc :=
  if i ≤ j then (descs[j - i]?).map fun d => ⟨some j, d.1, d.2⟩ else none

/-- The name that is written at index `j`. -/
def colNameAt (i : ℕ) (names : List CStr) (j : ℕ) : Option CStr := if i ≤ j then names[j - i]? else none

theorem colDescAt_cons (i : ℕ) (d : UInt32 × Int16) (ds : List (UInt32 × Int16)) (j : ℕ) :
    colDescAt i (d :: ds) j = if j = i then some ⟨some i, d.1, d.2⟩ else colDescAt (i + 1) ds j := by
  unfold colDescAt
  by_cases hj : j = i
  · subst hj
    simp
  · rw [if_neg hj]
    by_cases hle : i ≤ j
    · obtain ⟨k, rfl⟩ : ∃ k, j = i + 1 + k := ⟨j - i - 1, by omega⟩
      have h1 : i + 1 + k - i = k + 1 := by omega
      have h2 : i + 1 + k - (i + 1) = k := by omega
      rw [if_pos hle, if_pos (by omega), h1, h2, List.getElem?_cons_succ]
    · rw [if_neg hle, if_neg (by omega)]

theorem colNameAt_cons (i : ℕ) (s : CStr) (ss : List CStr) (j : ℕ) :
    colNameAt i (s :: ss) j = if j = i then some s else colNameAt (i + 1) ss j := by
  unfold colNameAt
  by_cases hj : j = i
  · subst hj
    simp
  · rw [if_neg hj]
    by_cases hle : i ≤ j
    · obtain ⟨k, rfl⟩ : ∃ k, j = i + 1 + k := ⟨j - i - 1, by omega⟩
      have h1 : i + 1 + k - i = k + 1 := by omega
      have h2 : i + 1 + k - (i + 1) = k := by omega
      rw [if_pos hle, if_pos (by omega), h1, h2, List.getElem?_cons_succ]
    · rw [if_neg hle, if_neg (by omega)]

theorem colDescAt_nil (i j : ℕ) : colDescAt i [] j = none := by unfold colDescAt; split <;> rfl

theorem colNameAt_nil (i j : ℕ) : colNameAt i [] j = none := by unfold colNameAt; split <;> rfl

theorem length_set_succ {α : Type*} {l : List α} {i n : ℕ} (h : i + (n + 1) ≤ l.length) (a : α) :
    i + 1 + n ≤ (l.set i a).length := by
  rw [List.length_set]; omega

/-- **What the column loop writes**, from column `i` on. -/
theorem rowDescLoop_spec (body : Bytes) {n i : ℕ} (off : ℕ) {cols : List ColDesc} {names : List CStr}
    (hc : i + n ≤ cols.length) (hn : i + n ≤ names.length) :
    (rowDescLoop body n i off cols names).2.2 = i + (readCols body n off).2.length ∧
      (∀ j, (rowDescLoop body n i off cols names).1.getD j default =
        (colDescAt i (readCols body n off).2 j).getD (cols.getD j default)) ∧
      ∀ j, (rowDescLoop body n i off cols names).2.1.getD j CStr.empty =
        (colNameAt i (readCols body n off).1 j).getD (names.getD j CStr.empty) := by
  induction n generalizing i off cols names with
  | zero => exact ⟨rfl, fun j => by rw [readCols, colDescAt_nil]; rfl, fun j => by rw [readCols, colNameAt_nil]; rfl⟩
  | succ n ih =>
    simp only [rowDescLoop, readCols]
    split
    · cases readCstr (body.drop off) with
      | none => exact ⟨rfl, fun j => by rw [colDescAt_nil]; rfl, fun j => by rw [colNameAt_nil]; rfl⟩
      | some r =>
        obtain ⟨name, k⟩ := r
        dsimp only
        split
        · refine ⟨rfl, fun j => by rw [colDescAt_nil]; rfl, fun j => ?_⟩
          rw [colNameAt_cons, colNameAt_nil, getD_set _ (by omega)]
          split <;> rfl
        · obtain ⟨h1, h2, h3⟩ := ih (i := i + 1) (off + k + 18)
            (length_set_succ hc ⟨some i, UInt32.ofNat (rd32Be body (off + k + 6)), toI16 (rd16Be body (off + k + 16))⟩)
            (length_set_succ hn (copyCstr 64 name))
          refine ⟨by rw [h1, List.length_cons]; omega, ?_, ?_⟩
          · intro j
            rw [h2, colDescAt_cons, getD_set _ (by omega)]
            by_cases hj : j = i
            · have hnone : colDescAt (i + 1) (readCols body n (off + k + 18)).2 j = none := by
                unfold colDescAt; rw [if_neg (by omega)]
              rw [if_pos hj, if_pos hj, hnone]
              rfl
            · rw [if_neg hj, if_neg hj]
          · intro j
            rw [h3, colNameAt_cons, getD_set _ (by omega)]
            by_cases hj : j = i
            · have hnone : colNameAt (i + 1) (readCols body n (off + k + 18)).1 j = none := by
                unfold colNameAt; rw [if_neg (by omega)]
              rw [if_pos hj, if_pos hj, hnone]
              rfl
            · rw [if_neg hj, if_neg hj]
    · exact ⟨rfl, fun j => by rw [colDescAt_nil]; rfl, fun j => by rw [colNameAt_nil]; rfl⟩

theorem rowCols_length (body : Bytes) :
    (rowCols body).2.length ≤ (rowCols body).1.length ∧ (rowCols body).1.length ≤ maxRowColumns := by
  unfold rowCols
  split
  · exact ⟨le_rfl, Nat.zero_le _⟩
  · obtain ⟨h1, h2⟩ := readCols_length body (min (rd16Be body 0) maxRowColumns) 2
    exact ⟨h1, h2.trans (Nat.min_le_right _ _)⟩

/-- What `parse_row_description` writes. -/
theorem parseRowDescription_spec {c : Ctx} (hc : c.colScratch.length = maxRowColumns)
    (hn : c.colNameScratch.length = maxRowColumns) (body : Bytes) :
    (∀ j, (parseRowDescription c body).colScratch.getD j default =
        (colDescAt 0 (rowCols body).2 j).getD (c.colScratch.getD j default)) ∧
      (∀ j, (parseRowDescription c body).colNameScratch.getD j CStr.empty =
        (colNameAt 0 (rowCols body).1 j).getD (c.colNameScratch.getD j CStr.empty)) ∧
      ∀ q, (parseRowDescription c body).log = c.log ++ [q] → q.ev = .rowDescription (rowCols body).2.length := by
  unfold parseRowDescription rowCols
  split
  · refine ⟨fun j => by rw [colDescAt_nil]; rfl, fun j => by rw [colNameAt_nil]; rfl, fun q hq => ?_⟩
    have := congrArg List.length hq
    simp at this
  · have hle : 0 + min (rd16Be body 0) maxRowColumns ≤ maxRowColumns := by
      rw [Nat.zero_add]; exact Nat.min_le_right _ _
    obtain ⟨h1, h2, h3⟩ := rowDescLoop_spec body 2 (hle.trans hc.ge) (hle.trans hn.ge)
    refine ⟨h2, h3, ?_⟩
    intro q hq
    have hq' := List.append_cancel_left hq
    rw [List.singleton_inj] at hq'
    rw [← hq', h1, Nat.zero_add]

/-! ## What a frame writes -/

namespace Frame

variable (role : Role) (f : Frame)

/-- The string a Query leaves in `sql_scratch`. -/
def sql : Option CStr :=
  if role = .server ∧ f.type = ch 'Q' then some (scratchStr maxQueryLen f.body) else none

/-- The string a CommandComplete leaves in `tag_scratch`. -/
def tag : Option CStr := if role = .client ∧ f.type = ch 'C' then some (scratchStr 64 f.body) else none

/-- The name a RowDescription leaves in `col_name_scratch[j]`. -/
def colName (j : ℕ) : Option CStr :=
  if role = .client ∧ f.type = ch 'T' then (rowCols f.body).1[j]? else none

/-- The description a RowDescription leaves in `col_scratch[j]`. -/
def colDesc (j : ℕ) : Option ColDesc :=
  if role = .client ∧ f.type = ch 'T' then ((rowCols f.body).2[j]?).map fun d => ⟨some j, d.1, d.2⟩ else none

end Frame

/-- The scratch areas after a message, in terms of its frame. -/
structure Scratched (c : Ctx) (f : Frame) (c' : Ctx) : Prop where
  sql : c'.sqlScratch = (f.sql c.role).getD c.sqlScratch
  tag : c'.tagScratch = (f.tag c.role).getD c.tagScratch
  name : ∀ j, c'.colNameScratch.getD j CStr.empty = (f.colName c.role j).getD (c.colNameScratch.getD j CStr.empty)
  desc : ∀ j, c'.colScratch.getD j default = (f.colDesc c.role j).getD (c.colScratch.getD j default)

/-- A message that is none of the three leaves the scratch areas alone. -/
theorem Scratched.same {c c' : Ctx} {f : Frame}
    (h : f.type ∉ stateful c.role ∨ (c.role = .client ∧ f.type ∈ [ch 'R', ch 'Z', ch 'D']))
    (h1 : c'.sqlScratch = c.sqlScratch) (h2 : c'.tagScratch = c.tagScratch)
    (h3 : c'.colNameScratch = c.colNameScratch) (h4 : c'.colScratch = c.colScratch) : Scratched c f c' := by
  have hq : ¬(c.role = .server ∧ f.type = ch 'Q') := by
    rintro ⟨hr, ht⟩
    rw [hr, ht] at h
    revert h
    decide
  have hc : ¬(c.role = .client ∧ f.type = ch 'C') := by
    rintro ⟨hr, ht⟩
    rw [hr, ht] at h
    revert h
    decide
  have ht : ¬(c.role = .client ∧ f.type = ch 'T') := by
    rintro ⟨hr, ht⟩
    rw [hr, ht] at h
    revert h
    decide
  refine ⟨?_, ?_, ?_, ?_⟩
  · rw [Frame.sql, if_neg hq]; exact h1
  · rw [Frame.tag, if_neg hc]; exact h2
  · intro j
    rw [Frame.colName, if_neg ht, h3]; rfl
  · intro j
    rw [Frame.colDesc, if_neg ht, h4]; rfl

/-- **What a frame writes to the scratch areas.** -/
theorem handleFrame_scratched {c : Ctx} (hc : c.colScratch.length = maxRowColumns)
    (hn : c.colNameScratch.length = maxRowColumns) (f : Frame) : Scratched c f (c.handleFrame f) := by
  have key : Scratched c f (handleMessage c f.type 5 f.body) := by
    have h := handleMessage_handling c f.type 5 f.body
    generalize handleMessage c f.type 5 f.body = c' at h ⊢
    have hsc : Role.server ≠ Role.client := by decide
    cases h with
    | ignored hs => exact .same (Or.inl hs) rfl rfl rfl rfl
    | event hs => exact .same (Or.inl hs) rfl rfl rfl rfl
    | query hr ht =>
      have nc : ∀ x, ¬(c.role = .client ∧ f.type = x) := fun x hh => hsc (hr.symm.trans hh.1)
      refine ⟨?_, ?_, ?_, ?_⟩
      · rw [Frame.sql, if_pos ⟨hr, ht⟩]; rfl
      · rw [Frame.tag, if_neg (nc _)]; rfl
      · intro j
        rw [Frame.colName, if_neg (nc _)]; rfl
      · intro j
        rw [Frame.colDesc, if_neg (nc _)]; rfl
    | authenticated hr ht => exact .same (Or.inr ⟨hr, by rw [ht]; decide⟩) rfl rfl rfl rfl
    | authentication hr ht => exact .same (Or.inr ⟨hr, by rw [ht]; decide⟩) rfl rfl rfl rfl
    | ready hr ht => exact .same (Or.inr ⟨hr, by rw [ht]; decide⟩) rfl rfl rfl rfl
    | rowDescription hr ht =>
      obtain ⟨h1, h2, -⟩ := parseRowDescription_spec hc hn f.body
      have hs : (parseRowDescription c f.body).sqlScratch = c.sqlScratch ∧
          (parseRowDescription c f.body).tagScratch = c.tagScratch := by
        unfold parseRowDescription
        split <;> exact ⟨rfl, rfl⟩
      refine ⟨?_, ?_, ?_, ?_⟩
      · rw [Frame.sql, if_neg fun hh => hsc (hh.1.symm.trans hr)]; exact hs.1
      · rw [Frame.tag, if_neg fun hh => absurd (hh.2.symm.trans ht) (by decide)]; exact hs.2
      · intro j
        rw [Frame.colName, if_pos ⟨hr, ht⟩]; exact h2 j
      · intro j
        rw [Frame.colDesc, if_pos ⟨hr, ht⟩]; exact h1 j
    | dataRow hr ht =>
      have hD : f.type ∈ [ch 'R', ch 'Z', ch 'D'] := by rw [ht]; decide
      unfold parseDataRow
      split
      · exact .same (Or.inr ⟨hr, hD⟩) rfl rfl rfl rfl
      · exact .same (Or.inr ⟨hr, hD⟩) rfl rfl rfl rfl
    | complete hr ht =>
      have nT : ¬(c.role = .client ∧ f.type = ch 'T') := fun hh => absurd (hh.2.symm.trans ht) (by decide)
      refine ⟨?_, ?_, ?_, ?_⟩
      · rw [Frame.sql, if_neg fun hh => hsc (hh.1.symm.trans hr)]; rfl
      · rw [Frame.tag, if_pos ⟨hr, ht⟩]; rfl
      · intro j
        rw [Frame.colName, if_neg nT]; rfl
      · intro j
        rw [Frame.colDesc, if_neg nT]; rfl
  exact ⟨key.sql, key.tag, key.name, key.desc⟩

/-! ## What a sequence of frames writes -/

/-- The part of the invariant that the scratch areas need. -/
structure ScratchOk (role : Role) (c : Ctx) : Prop where
  role : c.role = role
  cols : c.colScratch.length = maxRowColumns
  names : c.colNameScratch.length = maxRowColumns

theorem handleFrame_scratchOk {role : Role} {c : Ctx} (h : ScratchOk role c) (f : Frame) :
    ScratchOk role (c.handleFrame f) := by
  have key : (handleMessage c f.type 5 f.body).colScratch.length = c.colScratch.length ∧
      (handleMessage c f.type 5 f.body).colNameScratch.length = c.colNameScratch.length := by
    have hh := handleMessage_handling c f.type 5 f.body
    generalize handleMessage c f.type 5 f.body = c' at hh ⊢
    cases hh with
    | rowDescription =>
      unfold parseRowDescription
      split
      · exact ⟨rfl, rfl⟩
      · exact rowDescLoop_length f.body (min (rd16Be f.body 0) maxRowColumns) 0 2 c.colScratch c.colNameScratch
    | dataRow => unfold parseDataRow; split <;> exact ⟨rfl, rfl⟩
    | _ => exact ⟨rfl, rfl⟩
  obtain ⟨-, -, hr, -⟩ := handleFrame_same c f
  exact ⟨hr.trans h.role, key.1.trans h.cols, key.2.trans h.names⟩

section

variable {role : Role} {c : Ctx} (h : ScratchOk role c) (fs : List Frame)

include h

theorem handleFrames_sql : (c.handleFrames fs).sqlScratch = (lastOf (Frame.sql role) fs).getD c.sqlScratch :=
  foldl_lastOf Ctx.sqlScratch (ScratchOk role) (fun _ f h => handleFrame_scratchOk h f)
    (fun c f h => by rw [(handleFrame_scratched h.cols h.names f).sql, h.role]) fs h

theorem handleFrames_tag : (c.handleFrames fs).tagScratch = (lastOf (Frame.tag role) fs).getD c.tagScratch :=
  foldl_lastOf Ctx.tagScratch (ScratchOk role) (fun _ f h => handleFrame_scratchOk h f)
    (fun c f h => by rw [(handleFrame_scratched h.cols h.names f).tag, h.role]) fs h

theorem handleFrames_name (j : ℕ) : (c.handleFrames fs).colNameScratch.getD j CStr.empty =
    (lastOf (fun f => Frame.colName role f j) fs).getD (c.colNameScratch.getD j CStr.empty) :=
  foldl_lastOf (fun c : Ctx => c.colNameScratch.getD j CStr.empty) (ScratchOk role) (fun _ f h => handleFrame_scratchOk h f)
    (fun c f h => by rw [(handleFrame_scratched h.cols h.names f).name j, h.role]) fs h

theorem handleFrames_desc (j : ℕ) : (c.handleFrames fs).colScratch.getD j default =
    (lastOf (fun f => Frame.colDesc role f j) fs).getD (c.colScratch.getD j default) :=
  foldl_lastOf (fun c : Ctx => c.colScratch.getD j default) (ScratchOk role) (fun _ f h => handleFrame_scratchOk h f)
    (fun c f h => by rw [(handleFrame_scratched h.cols h.names f).desc j, h.role]) fs h

end

/-! ## Events and their frames -/

/-- Which frame an event that holds pointers comes from. -/
def EventOf (role : Role) (f : Frame) : Event → Prop
  | .bind b => role = .server ∧ f.type = ch 'B' ∧ bindOf 5 f.body = some b
  | .query => role = .server ∧ f.type = ch 'Q'
  | .commandComplete => role = .client ∧ f.type = ch 'C'
  | .rowDescription n => role = .client ∧ f.type = ch 'T' ∧ n = (rowCols f.body).2.length
  | .parameterStatus p n => role = .client ∧ f.type = ch 'S' ∧ p = 5 ∧ n = f.body.length
  | _ => True

/-- The event that was added last. -/
theorem event_of_log {c c' : Ctx} {q r : Queued} (h : c'.log = c.log ++ [r]) (hq : c'.log = c.log ++ [q]) :
    q.ev = r.ev := by
  rw [h] at hq
  have := List.singleton_inj.1 (List.append_cancel_left hq)
  rw [← this]

theorem no_event {c : Ctx} {q : Queued} (h : c.log = c.log ++ [q]) : False := by
  have := congrArg List.length h
  simp at this

theorem plainEvent_eventOf {role : Role} {f : Frame} {ev : Event}
    (h : plainEvent role f.type 5 f.body = some ev) : EventOf role f ev := by
  rcases plainEvent_cases h with ⟨b, rfl, hr, ht, hb⟩ | ⟨rfl, hr, ht⟩ | hv
  · exact ⟨hr, ht, hb⟩
  · exact ⟨hr, ht, rfl, rfl⟩
  · cases ev <;> trivial

/-- **Which frame an event comes from.** -/
theorem handleFrame_event {c : Ctx} (hc : c.colScratch.length = maxRowColumns)
    (hn : c.colNameScratch.length = maxRowColumns) {f : Frame} {q : Queued}
    (hq : (c.handleFrame f).log = c.log ++ [q]) : EventOf c.role f q.ev := by
  change (handleMessage c f.type 5 f.body).log = c.log ++ [q] at hq
  have h := handleMessage_handling c f.type 5 f.body
  generalize handleMessage c f.type 5 f.body = c' at h hq
  cases h with
  | ignored => exact (no_event hq).elim
  | event _ hp =>
    rw [event_of_log (c := c) rfl hq]
    exact plainEvent_eventOf hp
  | query hr ht =>
    rw [event_of_log (c := c) rfl hq]
    exact ⟨hr, ht⟩
  | authentication => exact (no_event hq).elim
  | rowDescription hr ht =>
    obtain ⟨-, -, he⟩ := parseRowDescription_spec hc hn f.body
    rw [he q hq]
    exact ⟨hr, ht, rfl⟩
  | dataRow =>
    unfold parseDataRow at hq
    split at hq
    · exact (no_event hq).elim
    · rw [event_of_log (c := c) rfl hq]
      trivial
  | complete hr ht =>
    rw [event_of_log (c := c) rfl hq]
    exact ⟨hr, ht⟩
  | _ =>
    rw [event_of_log (c := c) rfl hq]
    trivial

end Pqwire

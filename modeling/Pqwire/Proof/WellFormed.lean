import Pqwire.Proof.Frames
import Pqwire.Proof.Rewrite
import Pqwire.Spec.WellFormed

/-!
# Events for bodies that are cut short

* `Fielded.contains_iff`: whether a body has all its fields can be counted.
* `Fielded.handled`: which bodies give an event.
* `events_wellFormed_iff`: so an event means that all fields are there exactly for bodies that have
  them, and for those that end early enough to be given up, in every round of a call.
-/

namespace Pqwire

open ByteMem

namespace Fielded

/-! ## Parts of a body -/

/-- Parts one after the other: `F n p` says of one step what taking a part off the front does. -/
theorem parts_iff {β : Type} {F : ℕ → Bytes → Prop} {enc : β → Bytes} (h0 : ∀ p, F 0 p)
    (hs : ∀ n p, F (n + 1) p ↔ ∃ x rest, p = enc x ++ rest ∧ F n rest) (n : ℕ) (p : Bytes) :
    F n p ↔ ∃ xs : List β, xs.length = n ∧ xs.flatMap enc <+: p := by
  induction n generalizing p with
  | zero =>
    refine ⟨fun _ => ⟨[], rfl, List.nil_prefix⟩, fun _ => h0 p⟩
  | succ n ih =>
    rw [hs]
    constructor
    · rintro ⟨x, rest, rfl, hrest⟩
      obtain ⟨xs, hlen, hpre⟩ := (ih rest).1 hrest
      refine ⟨x :: xs, by rw [List.length_cons, hlen], ?_⟩
      rw [List.flatMap_cons]
      exact (List.prefix_append_right_inj _).2 hpre
    · rintro ⟨xs, hlen, t, rfl⟩
      cases xs with
      | nil => cases hlen
      | cons x xs =>
        rw [List.flatMap_cons, List.append_assoc]
        exact ⟨x, _, rfl, (ih _).2 ⟨xs, Nat.succ.inj hlen, List.prefix_append _ _⟩⟩

theorem behindStrings_one {p q : Bytes} : behindStrings 1 p = some q ↔ ∃ s : CStr, p = s.toBytes ++ q := by
  unfold behindStrings
  constructor
  · intro h
    split at h
    · cases h
    · rename_i s n hr
      obtain ⟨-, hp⟩ := readCstr_some hr
      cases h
      exact ⟨s, hp⟩
  · rintro ⟨s, rfl⟩
    rw [readCstr_toBytes]
    show some ((s.toBytes ++ q).drop (s.length + 1)) = some q
    rw [← CStr.toBytes_length, List.drop_left]

theorem behindStrings_two {p q : Bytes} : behindStrings 2 p = some q ↔ ∃ s t : CStr, p = s.toBytes ++ t.toBytes ++ q := by
  have hsplit : behindStrings 2 p = (behindStrings 1 p).bind (behindStrings 1) := by
    unfold behindStrings
    cases readCstr p with
    | none => rfl
    | some r => rfl
  rw [hsplit, Option.bind_eq_some_iff]
  constructor
  · rintro ⟨q', h1, h2⟩
    obtain ⟨s, rfl⟩ := behindStrings_one.1 h1
    obtain ⟨t, rfl⟩ := behindStrings_one.1 h2
    exact ⟨s, t, (List.append_assoc _ _ _).symm⟩
  · rintro ⟨s, t, rfl⟩
    refine ⟨t.toBytes ++ q, behindStrings_one.2 ⟨s, List.append_assoc _ _ _⟩, behindStrings_one.2 ⟨t, rfl⟩⟩

/-- A terminated string in front. -/
theorem string_iff (body : Bytes) : (∃ s : CStr, s.toBytes <+: body) ↔ (behindStrings 1 body).isSome = true := by
  rw [Option.isSome_iff_exists]
  constructor
  · rintro ⟨s, q, rfl⟩
    exact ⟨q, behindStrings_one.2 ⟨s, rfl⟩⟩
  · rintro ⟨q, hq⟩
    obtain ⟨s, rfl⟩ := behindStrings_one.1 hq
    exact ⟨s, List.prefix_append _ _⟩

/-- A count and that many parts. -/
theorem counted_iff {β : Type} {F : ℕ → Bytes → Prop} {enc : β → Bytes}
    (hF : ∀ n p, F n p ↔ ∃ xs : List β, xs.length = n ∧ xs.flatMap enc <+: p) (body : Bytes) :
    (∃ xs : List β, xs.length < 2 ^ 16 ∧ wr16Be xs.length ++ xs.flatMap enc <+: body) ↔
      2 ≤ body.length ∧ F (rd16Be body 0) (body.drop 2) := by
  constructor
  · rintro ⟨xs, hlt, t, rfl⟩
    rw [List.append_assoc, rd16Be_wr16Be, Nat.mod_eq_of_lt hlt]
    refine ⟨by rw [List.length_append, wr16Be_length]; omega, (hF _ _).2 ⟨xs, rfl, ?_⟩⟩
    exact List.prefix_append _ _
  · rintro ⟨hlen, hrest⟩
    obtain ⟨xs, hn, hpre⟩ := (hF _ _).1 hrest
    refine ⟨xs, by rw [hn]; exact rd16Be_lt body 0, ?_⟩
    obtain ⟨t, ht⟩ := hpre
    exact ⟨t, by rw [hn, List.append_assoc, ht, wr16Be_rd16Be hlen]⟩

theorem words_iff (n : ℕ) (p : Bytes) :
    4 * n ≤ p.length ↔ ∃ oids : List UInt32, oids.length = n ∧ (oids.flatMap fun o => wr32Be o.toNat) <+: p := by
  refine parts_iff (F := fun n p => 4 * n ≤ p.length) (fun _ => Nat.zero_le _) ?_ n p
  intro n p
  constructor
  · intro h
    refine ⟨UInt32.ofNat (rd32Be p 0), p.drop 4, ?_, ?_⟩
    · rw [UInt32.toNat_ofNat', Nat.mod_eq_of_lt (rd32Be_lt p 0)]
      exact (wr32Be_rd32Be (by omega)).symm
    · rw [List.length_drop]; omega
  · rintro ⟨o, rest, rfl, h⟩
    rw [List.length_append, wr32Be_length]; omega

theorem columns_iff (n : ℕ) (p : Bytes) :
    columnsFit n p = true ↔ ∃ cols : List ColumnBytes, cols.length = n ∧ cols.flatMap ColumnBytes.enc <+: p := by
  refine parts_iff (F := fun n p => columnsFit n p = true) (fun _ => rfl) ?_ n p
  intro n p
  simp only [columnsFit]
  constructor
  · intro h
    split at h
    · cases h
    · rename_i q hq
      obtain ⟨s, rfl⟩ := behindStrings_one.1 hq
      rw [Bool.and_eq_true, decide_eq_true_iff] at h
      refine ⟨⟨s, q.take 18, by rw [List.length_take, min_eq_left h.1]⟩, q.drop 18, ?_, h.2⟩
      rw [ColumnBytes.enc, List.append_assoc, List.take_append_drop]
  · rintro ⟨col, rest, rfl, hrest⟩
    have hq : behindStrings 1 (col.enc ++ rest) = some (col.fixed ++ rest) :=
      behindStrings_one.2 ⟨col.name, by rw [ColumnBytes.enc, List.append_assoc]⟩
    rw [hq]
    dsimp only
    rw [Bool.and_eq_true, decide_eq_true_iff, ← col.ok, List.drop_left]
    exact ⟨by rw [List.length_append]; omega, hrest⟩

theorem values_iff (n : ℕ) (p : Bytes) :
    valuesFit n p = true ↔ ∃ fs : List Field, fs.length = n ∧ fs.flatMap Field.enc <+: p := by
  refine parts_iff (F := fun n p => valuesFit n p = true) (fun _ => rfl) ?_ n p
  intro n p
  simp only [valuesFit, Bool.and_eq_true, decide_eq_true_iff]
  constructor
  · rintro ⟨hlen, hrest⟩
    refine ⟨⟨toI32 (rd32Be p 0), (p.drop 4).take (toI32 (rd32Be p 0)).toInt.toNat, ?_⟩, _, ?_, hrest⟩
    · rw [List.length_take, List.length_drop]; omega
    · simp only [Field.enc]
      rw [toUInt32_toI32 (rd32Be_lt p 0), List.append_assoc, ← List.drop_drop, List.take_append_drop]
      exact (wr32Be_rd32Be (by omega)).symm
  · rintro ⟨f, rest, rfl, hrest⟩
    have hlen : toI32 (rd32Be (f.enc ++ rest) 0) = f.len := by
      rw [Field.enc, List.append_assoc, rd32Be_wr32Be, toI32_toUInt32]
    have henc : f.enc.length = 4 + f.len.toInt.toNat := f.enc_length
    rw [hlen, ← henc, List.drop_left]
    exact ⟨by rw [List.length_append]; omega, hrest⟩

/-- The grammar of a Parse, taken apart behind its strings. -/
theorem contains_parse_iff (body : Bytes) : Contains .parse body ↔ complete .parse body = true := by
  simp only [Contains, complete, Option.any_eq_true, decide_eq_true_iff]
  have hcount := fun p => counted_iff words_iff p
  constructor
  · rintro ⟨stmt, sql, oids, hlt, t, rfl⟩
    refine ⟨wr16Be oids.length ++ (oids.flatMap fun o => wr32Be o.toNat) ++ t, behindStrings_two.2 ⟨stmt, sql, ?_⟩, ?_⟩
    · simp only [List.append_assoc]
    · obtain ⟨h2, h4⟩ := (hcount _).1 ⟨oids, hlt, List.prefix_append _ t⟩
      rw [List.length_drop] at h4
      omega
  · rintro ⟨p, hp, hlen⟩
    obtain ⟨stmt, sql, rfl⟩ := behindStrings_two.1 hp
    obtain ⟨oids, hlt, hpre⟩ := (hcount p).2 ⟨by omega, by rw [List.length_drop]; omega⟩
    refine ⟨stmt, sql, oids, hlt, ?_⟩
    rw [List.append_assoc]
    exact (List.prefix_append_right_inj _).2 hpre

theorem contains_execute_iff (body : Bytes) : Contains .execute body ↔ complete .execute body = true := by
  simp only [Contains, complete, Option.any_eq_true, decide_eq_true_iff]
  constructor
  · rintro ⟨portal, maxRows, t, rfl⟩
    refine ⟨wr32Be maxRows.toNat ++ t, behindStrings_one.2 ⟨portal, List.append_assoc _ _ _⟩, ?_⟩
    rw [List.length_append, wr32Be_length]; omega
  · rintro ⟨p, hp, hlen⟩
    obtain ⟨portal, rfl⟩ := behindStrings_one.1 hp
    refine ⟨portal, UInt32.ofNat (rd32Be p 0), ?_⟩
    rw [UInt32.toNat_ofNat', Nat.mod_eq_of_lt (rd32Be_lt p 0)]
    refine (List.prefix_append_right_inj _).2 ⟨p.drop 4, wr32Be_rd32Be hlen⟩

theorem contains_target_iff (body : Bytes) :
    (∃ (target : UInt8) (name : CStr), target :: name.toBytes <+: body) ↔ (behindStrings 1 (body.drop 1)).isSome = true := by
  rw [← string_iff]
  cases body with
  | nil =>
    constructor
    · rintro ⟨t, name, h⟩
      exact absurd (List.prefix_nil.1 h) (List.cons_ne_nil _ _)
    · rintro ⟨name, h⟩
      exact absurd (List.prefix_nil.1 h) (by simp [CStr.toBytes])
  | cons b body =>
    simp only [List.cons_prefix_cons, List.drop_one, List.tail_cons]
    constructor
    · rintro ⟨-, name, -, h⟩
      exact ⟨name, h⟩
    · rintro ⟨name, h⟩
      exact ⟨b, name, rfl, h⟩

/-- **Whether all fields are there can be counted.** -/
theorem contains_iff (t : Fielded) (body : Bytes) : t.Contains body ↔ t.complete body = true := by
  cases t with
  | query => exact string_iff body
  | parse => exact contains_parse_iff body
  | describe => exact contains_target_iff body
  | close => exact contains_target_iff body
  | execute => exact contains_execute_iff body
  | rowDescription =>
    simp only [complete, Bool.and_eq_true, decide_eq_true_iff]
    exact counted_iff (F := fun n p => columnsFit n p = true) columns_iff body
  | dataRow =>
    simp only [complete, Bool.and_eq_true, decide_eq_true_iff]
    exact counted_iff (F := fun n p => valuesFit n p = true) values_iff body
  | commandComplete => exact string_iff body

/-! ## Which bodies give an event -/

theorem parseOf_isSome (body : Bytes) : (parseOf body).isSome = (behindStrings 2 body).isSome := by
  unfold parseOf behindStrings behindStrings
  cases readCstr body with
  | none => rfl
  | some r =>
    simp only [Option.bind_eq_bind, Option.bind_some]
    cases readCstr (body.drop r.2) with
    | none => rfl
    | some r' =>
      simp only [Option.bind_some, behindStrings]
      split
      · rfl
      · rfl

theorem executeOf_isSome (body : Bytes) : (executeOf body).isSome = (behindStrings 1 body).isSome := by
  unfold executeOf behindStrings
  cases readCstr body with
  | none => rfl
  | some r =>
    simp only [Option.bind_eq_bind, Option.bind_some, behindStrings]
    split
    · rfl
    · rfl

/-- Handling a body either gives it up or reports it. -/
def Handles (t : Fielded) (c : Ctx) (body : Bytes) (c' : Ctx) : Prop :=
  if t.dropped body = true then c'.log = c.log else ∃ q : Queued, c'.log = c.log ++ [q] ∧ t.Reported q.ev

/-- A parser that returns early or enqueues what it has read. -/
theorem handles_option (t : Fielded) (c : Ctx) (body : Bytes) {α : Type} (m : Option α) (ev : α → Event)
    (hd : t.dropped body = !m.isSome) (hev : ∀ a, t.Reported (ev a)) :
    Handles t c body (m.elim c fun a => c.enqueueEvent (ev a) body) := by
  unfold Handles
  cases m with
  | none =>
    have hd' : t.dropped body = true := hd
    rw [if_pos hd']
    rfl
  | some a =>
    have hd' : t.dropped body = false := hd
    rw [if_neg (by rw [hd']; decide)]
    exact ⟨_, rfl, hev a⟩

theorem parseParseMsg_eq (c : Ctx) (body : Bytes) :
    parseParseMsg c body = (parseOf body).elim c fun m => c.enqueueEvent (.parse m) body := by
  unfold parseParseMsg
  cases parseOf body <;> rfl

theorem parseExecuteMsg_eq (c : Ctx) (body : Bytes) :
    parseExecuteMsg c body = (executeOf body).elim c fun m => c.enqueueEvent (.execute m) body := by
  unfold parseExecuteMsg
  cases executeOf body <;> rfl

theorem targetName_cons (b : UInt8) (body : Bytes) : ∃ name, targetName (b :: body) = some (b, name) := by
  unfold targetName
  dsimp only
  split
  · exact ⟨_, rfl⟩
  · exact ⟨_, rfl⟩

/-- **Which bodies give an event.** -/
theorem handled (t : Fielded) {c : Ctx} (hr : c.role = t.role) (body : Bytes) :
    Handles t c body (handleMessage c t.byte 5 body) := by
  cases t with
  | query =>
    rw [show byte .query = FrontType.query.byte from rfl, handleMessage_front hr]
    exact ⟨_, rfl, rfl⟩
  | parse =>
    rw [show byte .parse = FrontType.parse.byte from rfl, handleMessage_front hr]
    rw [handleFrontend, parseParseMsg_eq]
    refine handles_option .parse c body (parseOf body) .parse ?_ fun m => ⟨m, rfl⟩
    rw [parseOf_isSome, Option.not_isSome]
    rfl
  | describe =>
    rw [show byte .describe = FrontType.describe.byte from rfl, handleMessage_front hr]
    cases body with
    | nil => rfl
    | cons b body =>
      obtain ⟨name, hn⟩ := targetName_cons b body
      simp only [handleFrontend, parseDescribeMsg, hn]
      exact ⟨_, rfl, _, rfl⟩
  | close =>
    rw [show byte .close = FrontType.close.byte from rfl, handleMessage_front hr]
    cases body with
    | nil => rfl
    | cons b body =>
      obtain ⟨name, hn⟩ := targetName_cons b body
      simp only [handleFrontend, parseCloseMsg, hn]
      exact ⟨_, rfl, _, rfl⟩
  | execute =>
    rw [show byte .execute = FrontType.execute.byte from rfl, handleMessage_front hr]
    rw [handleFrontend, parseExecuteMsg_eq]
    refine handles_option .execute c body (executeOf body) .execute ?_ fun m => ⟨m, rfl⟩
    rw [executeOf_isSome, Option.not_isSome]
    rfl
  | rowDescription =>
    rw [show byte .rowDescription = BackType.rowDescription.byte from rfl, handleMessage_back hr]
    simp only [handleBackend, parseRowDescription, Handles, dropped, decide_eq_true_iff]
    split
    · rfl
    · exact ⟨_, rfl, _, rfl⟩
  | dataRow =>
    rw [show byte .dataRow = BackType.dataRow.byte from rfl, handleMessage_back hr]
    simp only [handleBackend, parseDataRow, Handles, dropped, decide_eq_true_iff]
    split
    · rfl
    · exact ⟨_, rfl, _, rfl⟩
  | commandComplete =>
    rw [show byte .commandComplete = BackType.commandComplete.byte from rfl, handleMessage_back hr]
    exact ⟨_, rfl, rfl⟩

end Fielded

/-- **An event means that all fields are there exactly when the body is complete, or ends so early
that it is given up.** In a call of `pqwire_feed_input` the loop gets to a round in which the frame lies
complete at the front of the input of a context of the role that receives it; `c'` is what that round
leaves. -/
theorem events_wellFormed_iff {c c₀ c₁ : Ctx} {data rest : Bytes} {t : Fielded} {f : Frame} (hc : Reachable c)
    (ha : c.acceptInput data = some c₀) (hreach : c₀.Reaches c₁) (hr : c₁.role = t.role) (hs : c₁.awaitsStartup = false)
    (hres : c₁.resid = f.enc ++ rest) (hfit : f.Fits c₁) (ht : f.type = t.byte) :
    ∃ c', c₁.feedStep = .again c' ∧
      (((∃ q : Queued, c'.log = c₁.log ++ [q] ∧ t.Reported q.ev) → t.Contains f.body) ↔
        t.dropped f.body = true ∨ t.complete f.body = true) := by
  have hok : c₁.Ok := hreach.ok (acceptInput_ok (reachable_ok hc).1 ha)
  obtain ⟨hstep, -, -⟩ := feedStep_frames hok hs hfit hres
  obtain ⟨-, -, -, -, hlog, -⟩ := handleFrame_same c₁ f
  have hhand := t.handled hr f.body
  unfold Fielded.Handles at hhand
  rw [← ht, ← hlog] at hhand
  refine ⟨_, hstep, ?_⟩
  rw [t.contains_iff]
  by_cases hd : t.dropped f.body = true
  · rw [if_pos hd] at hhand
    refine ⟨fun _ => .inl hd, fun _ hq => ?_⟩
    obtain ⟨q, hq, -⟩ := hq
    rw [hhand] at hq
    exact absurd (congrArg List.length hq) (by simp)
  · rw [if_neg hd] at hhand
    exact ⟨fun h => .inr (h hhand), fun h _ => h.resolve_left hd⟩

/-- An Execute of the unnamed portal with this row limit, or none. -/
def executeFrame (limit : Bytes) (h : (0 :: limit).length + 4 < 2 ^ 32) : Frame := ⟨Fielded.execute.byte, 0 :: limit, h⟩

/-- The second of two such frames that are fed at once. -/
theorem events_wellFormed_execute : ∃ c₀ c₁ c', (startedServer 16 64).acceptInput
      ((executeFrame [0, 0, 0, 7] (by decide)).enc ++ (executeFrame [0, 0, 0, 5] (by decide)).enc) = some c₀ ∧
    c₀.feedStep = .again c₁ ∧ c₁.feedStep = .again c' ∧
      ((∃ q : Queued, c'.log = c₁.log ++ [q] ∧ Fielded.execute.Reported q.ev) →
        Fielded.execute.Contains [0, 0, 0, 0, 5]) := by
  have hreach : Reachable (startedServer 16 64) := startedServer_reachable (by decide) (by decide)
  have hfit : ∀ limit h, limit.length = 4 → (executeFrame limit h).Fits (startedServer 16 64) := by
    intro limit h hlen
    show (0 :: limit).length + 4 ≤ 64
    rw [List.length_cons, hlen]
    decide
  obtain ⟨c₀, ha⟩ := startedServer_accepts 16 64
    ((executeFrame [0, 0, 0, 7] (by decide)).enc ++ (executeFrame [0, 0, 0, 5] (by decide)).enc)
  have hok := (reachable_ok hreach).1
  obtain ⟨haw, hrole, hmax, -, -⟩ := acceptInput_same ha
  obtain ⟨hstep, -, hres⟩ := feedStep_frames (acceptInput_ok hok ha) haw
    (by unfold Frame.Fits; rw [hmax]; exact hfit [0, 0, 0, 7] (by decide) rfl) (acceptInput_resid hok ha)
  obtain ⟨haw', hmax', hrole', -⟩ := handleFrame_same c₀ (executeFrame [0, 0, 0, 7] (by decide))
  obtain ⟨c', hstep', hiff⟩ := events_wellFormed_iff (t := .execute) hreach ha (.single hstep) (hrole'.trans hrole)
    (haw'.trans haw) (hres.trans (List.append_nil _).symm)
    (by unfold Frame.Fits; rw [hmax', hmax]; exact hfit [0, 0, 0, 5] (by decide) rfl) rfl
  exact ⟨c₀, _, c', ha, hstep, hstep', hiff.2 (.inr (by decide))⟩

/-- An Execute that ends behind the name of its portal is reported, with a row limit of 0. -/
theorem execute_cut_short : Reachable (startedServer 16 64) ∧ ∃ c₁ c',
    (startedServer 16 64).acceptInput (executeFrame [] (by decide)).enc = some c₁ ∧ c₁.feedStep = .again c' ∧
      (∃ q : Queued, c'.log = c₁.log ++ [q] ∧ Fielded.execute.Reported q.ev) ∧ ¬Fielded.execute.Contains [0] := by
  have hreach : Reachable (startedServer 16 64) := startedServer_reachable (by decide) (by decide)
  obtain ⟨c₁, ha⟩ := startedServer_accepts 16 64 (executeFrame [] (by decide)).enc
  have hok := (reachable_ok hreach).1
  obtain ⟨haw, hrole, hmax, -, -⟩ := acceptInput_same ha
  have hfit : (executeFrame [] (by decide)).Fits c₁ := by
    unfold Frame.Fits
    rw [hmax]
    decide
  obtain ⟨hstep, -, -⟩ := feedStep_frames (acceptInput_ok hok ha) haw hfit
    ((acceptInput_resid hok ha).trans (List.append_nil _).symm)
  obtain ⟨-, -, -, -, hlog, -⟩ := handleFrame_same c₁ (executeFrame [] (by decide))
  have hhand := Fielded.execute.handled hrole [0]
  unfold Fielded.Handles at hhand
  rw [if_neg (by decide)] at hhand
  refine ⟨hreach, c₁, _, ha, hstep, ?_, ?_⟩
  · rw [hlog]
    exact hhand
  · rw [Fielded.contains_iff]
    decide

end Pqwire

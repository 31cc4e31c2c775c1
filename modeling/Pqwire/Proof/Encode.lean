import Pqwire.Proof.Output
import Pqwire.Proof.Rewrite
import Pqwire.Spec.Encode

/-!
# What the encoders store

* `FixedSend.encodes`: a helper with a buffer of fixed size stores inside it, and hands on what
  the model of the helper hands on.
* `FixedSend.stores_below_iff`: which calls store outside.
-/

namespace Pqwire

open ByteMem CMem

namespace Local

theorem sizeAdd_eq {a b : ℕ} (h : a + b < 2 ^ 64) : sizeAdd a b = a + b := Nat.mod_eq_of_lt h

/-- The program stores below `size`, and what it hands on is `r`, whatever the buffer held. -/
def Encodes (size : ℕ) (m : Filler ℕ) (r : Option Bytes) : Prop :=
  (∀ w ∈ m.run.log, w.Below size) ∧ m.run.val = r.map List.length ∧
    ∀ q ∈ r, ∀ buf : Bytes, buf.length = size → (afterStores buf m.run.log).take q.length = q

/-- A program that moves the cursor from the end of `p` to the end of `q`. -/
abbrev Moves (size : ℕ) (p : Bytes) (m : Filler ℕ) (q : Bytes) : Prop := Fills size p m (some q.length) q

/-- From a buffer that starts with `p` the program moves the cursor to the end of `q` when `r` is
`q`, and returns early when there is none. -/
def Goes (size : ℕ) (p : Bytes) (m : Filler ℕ) (r : Option Bytes) : Prop :=
  match r with
  | none => ∃ q, Fills size p m none q
  | some q => Moves size p m q

/-- Some stores before it. -/
theorem Goes.after {size : ℕ} {p p' : Bytes} {m m' : Filler ℕ} {r : Option Bytes} (h : Goes size p m r)
    (hf : ∀ {w : Option ℕ} {q : Bytes}, Fills size p m w q → Fills size p' m' w q) : Goes size p' m' r := by
  cases r with
  | none =>
    obtain ⟨q, hq⟩ := h
    exact ⟨q, hf hq⟩
  | some q => exact hf h

theorem Goes.bind {size : ℕ} {p : Bytes} {m : Filler ℕ} {f : ℕ → Filler ℕ} {r : Option Bytes} {g : Bytes → Option Bytes}
    (h : Goes size p m r) (hf : ∀ q, r = some q → Goes size q (f q.length) (g q)) :
    Goes size p (m >>= f) (r.bind g) := by
  cases r with
  | none =>
    obtain ⟨q, hq⟩ := h
    exact ⟨q, hq.bind_none⟩
  | some q => exact (hf q rfl).after fun hq => Fills.bind h hq

theorem Goes.below {size : ℕ} {p : Bytes} {m : Filler ℕ} {r : Option Bytes} (h : Goes size p m r) :
    ∀ w ∈ m.run.log, w.Below size := by
  cases r with
  | none =>
    obtain ⟨q, hq⟩ := h
    exact hq.below
  | some q => exact Fills.below h

theorem Goes.val {size : ℕ} {p : Bytes} {m : Filler ℕ} {r : Option Bytes} (h : Goes size p m r) :
    m.run.val = r.map List.length := by
  cases r with
  | none =>
    obtain ⟨q, hq⟩ := h
    exact hq.val
  | some q => exact Fills.val h

theorem Goes.encodes {size : ℕ} {m : Filler ℕ} {r : Option Bytes} (h : Goes size [] m r) : Encodes size m r := by
  refine ⟨h.below, h.val, ?_⟩
  intro q hq buf hl
  cases hq
  exact Fills.take h hl.ge List.nil_prefix

/-- The same for programs that leave room for a header of `k` bytes, which they store at the end. -/
theorem encodes_head_none {size k : ℕ} {m : Filler ℕ} (h : ∀ hole : Bytes, hole.length = k → ∃ q, Fills size hole m none q) :
    Encodes size m none := by
  obtain ⟨q, hq⟩ := h (List.replicate k 0) List.length_replicate
  exact ⟨hq.below, hq.val, fun _ hq => by cases hq⟩

theorem encodes_head_some {size k : ℕ} {m : Filler ℕ} {q : Bytes} (hk : k ≤ size)
    (h : ∀ hole : Bytes, hole.length = k → Moves size hole m q) : Encodes size m (some q) := by
  have h0 := h (List.replicate k 0) List.length_replicate
  refine ⟨h0.below, h0.val, ?_⟩
  intro q' hq' buf hl
  cases hq'
  exact (h (buf.take k) (by rw [List.length_take, hl, min_eq_left hk])).take hl.ge (List.take_prefix _ _)

/-! ## Frontend -/

/-- What `pqwire_send_startup` hands on. -/
def startupPayload (role : Role) (user database : Option CStr) : Option Bytes :=
  let user := user.getD CStr.empty
  let database := database.getD CStr.empty
  if role ≠ .client ∨ 13 + (user.length + 1) ≥ 512 ∨ 13 + (user.length + 1) + 9 + (database.length + 1) + 1 ≥ 512 then none
  else
    some (wr32Be (13 + (user.length + 1) + 9 + (database.length + 1) + 1) ++ wr32Be Ctx.proto30 ++ keyUser.toBytes ++
      user.toBytes ++ keyDatabase.toBytes ++ database.toBytes ++ [0])

theorem keyUser_length : keyUser.length = 4 := rfl

theorem keyDatabase_length : keyDatabase.length = 8 := rfl

/-- What `pqwire_send_startup` does before it looks at the user. -/
theorem startup_key_fills {hole : Bytes} (h : hole.length = 4) {β : Type} {f : Unit → Unit → Filler β} {w : Option β}
    {r : Bytes} (hf : Fills 512 (hole ++ wr32Be Ctx.proto30 ++ keyUser.toBytes) (f () ()) w r) :
    Fills 512 hole (do let a ← store 4 (wr32Be Ctx.proto30); let b ← store 8 keyUser.toBytes; f a b) w r := by
  have h1 : Fills 512 hole (store 4 (wr32Be Ctx.proto30)) (some ()) (hole ++ wr32Be Ctx.proto30) :=
    .store h.symm (by rw [h, wr32Be_length]; omega)
  have h2 : Fills 512 (hole ++ wr32Be Ctx.proto30) (store 8 keyUser.toBytes) (some ())
      (hole ++ wr32Be Ctx.proto30 ++ keyUser.toBytes) :=
    .store (by rw [List.length_append, h, wr32Be_length])
      (by rw [List.length_append, h, wr32Be_length, CStr.toBytes_length, keyUser_length]; omega)
  exact h1.bind (h2.bind hf)

/-- The user and the key behind it. -/
theorem startup_user_fills {pre : Bytes} (hpre : pre.length = 13) {u : CStr} (hu : u.length ≤ 489) {β : Type}
    {f : Unit → Unit → Filler β} {w : Option β} {r : Bytes}
    (hf : Fills 512 (pre ++ u.toBytes ++ keyDatabase.toBytes) (f () ()) w r) :
    Fills 512 pre (do
      let a ← store 13 u.toBytes
      let b ← store (13 + (u.length + 1)) keyDatabase.toBytes
      f a b) w r := by
  have h1 : Fills 512 pre (store 13 u.toBytes) (some ()) (pre ++ u.toBytes) :=
    .store hpre.symm (by rw [hpre, CStr.toBytes_length]; omega)
  have hlen : (pre ++ u.toBytes).length = 13 + (u.length + 1) := by
    rw [List.length_append, hpre, CStr.toBytes_length]
  have h2 : Fills 512 (pre ++ u.toBytes) (store (13 + (u.length + 1)) keyDatabase.toBytes) (some ())
      (pre ++ u.toBytes ++ keyDatabase.toBytes) := .store hlen.symm (by rw [hlen, CStr.toBytes_length, keyDatabase_length]; omega)
  exact h1.bind (h2.bind hf)

/-- The database, the terminator of the list and the length in front. -/
theorem startup_end_fills {hole pre : Bytes} (hh : hole.length = 4) {p : ℕ} (hpre : (hole ++ pre).length = p) {d : CStr}
    (hd : p + (d.length + 1) + 1 < 512) :
    Moves 512 (hole ++ pre) (do
      store p d.toBytes
      store (p + (d.length + 1)) [0]
      store 0 (wr32Be (p + (d.length + 1) + 1))
      return p + (d.length + 1) + 1) (wr32Be (p + (d.length + 1) + 1) ++ (pre ++ d.toBytes ++ [0])) := by
  have h1 : Fills 512 (hole ++ pre) (store p d.toBytes) (some ()) (hole ++ pre ++ d.toBytes) :=
    .store hpre.symm (by rw [hpre, CStr.toBytes_length]; omega)
  have hlen : (hole ++ pre ++ d.toBytes).length = p + (d.length + 1) := by
    rw [List.length_append, hpre, CStr.toBytes_length]
  have h2 : Fills 512 (hole ++ pre ++ d.toBytes) (store (p + (d.length + 1)) [0]) (some ())
      (hole ++ pre ++ d.toBytes ++ [0]) := .store hlen.symm (by rw [hlen, List.length_singleton]; omega)
  have hassoc : hole ++ pre ++ d.toBytes ++ [0] = hole ++ (pre ++ d.toBytes ++ [0]) := by simp only [List.append_assoc]
  have h3 : Fills 512 (hole ++ pre ++ d.toBytes ++ [0]) (store 0 (wr32Be (p + (d.length + 1) + 1))) (some ())
      (wr32Be (p + (d.length + 1) + 1) ++ (pre ++ d.toBytes ++ [0])) := by
    rw [hassoc]
    exact .store_over [] hole rfl (by rw [hh, wr32Be_length]) (by rw [List.nil_append]; omega)
  have hend : p + (d.length + 1) + 1 = (wr32Be (p + (d.length + 1) + 1) ++ (pre ++ d.toBytes ++ [0])).length := by
    have := congrArg List.length hassoc
    simp only [List.length_append, List.length_singleton, CStr.toBytes_length, wr32Be_length] at this hpre ⊢
    omega
  refine h1.bind (h2.bind (h3.bind ?_))
  conv in Pure.pure _ => rw [hend]
  exact .pure _

theorem sendStartup_encodes (role : Role) {user database : Option CStr} (hu : (user.getD CStr.empty).length < 2 ^ 31)
    (hd : (database.getD CStr.empty).length < 2 ^ 31)
    (hin : role = .client → ¬(490 ≤ (user.getD CStr.empty).length ∧ (user.getD CStr.empty).length ≤ 497)) :
    Encodes 512 (sendStartup role user database) (startupPayload role user database) := by
  unfold sendStartup startupPayload
  dsimp only
  generalize user.getD CStr.empty = u at hu hin ⊢
  generalize database.getD CStr.empty = d at hd ⊢
  by_cases hrole : role ≠ .client
  · rw [if_pos hrole, if_pos (.inl hrole)]
    exact Goes.encodes (r := none) ⟨_, .failure⟩
  rw [if_neg hrole]
  simp (disch := omega) only [sizeAdd_eq]
  have hin' := hin (not_not.1 hrole)
  by_cases hbig : 13 + (u.length + 1) ≥ 512
  · rw [if_pos hbig, if_pos (.inr (.inl hbig))]
    exact encodes_head_none (k := 4) fun hole hh => ⟨_, startup_key_fills hh .failure⟩
  rw [if_neg hbig]
  -- past the first check the user is short enough for the key that follows it
  have hshort : u.length ≤ 489 := by omega
  have hpre : ∀ hole : Bytes, hole.length = 4 → (hole ++ wr32Be Ctx.proto30 ++ keyUser.toBytes).length = 13 := by
    intro hole hh
    simp only [List.length_append, hh, wr32Be_length, CStr.toBytes_length, keyUser_length]
  by_cases hbig' : 13 + (u.length + 1) + 9 + (d.length + 1) + 1 ≥ 512
  · simp only [if_pos hbig']
    rw [if_pos (.inr (.inr hbig'))]
    exact encodes_head_none (k := 4) fun hole hh =>
      ⟨_, startup_key_fills hh (startup_user_fills (hpre hole hh) hshort .failure)⟩
  simp only [if_neg hbig']
  rw [if_neg (by tauto)]
  refine encodes_head_some (k := 4) (by omega) fun hole hh =>
    startup_key_fills hh (startup_user_fills (hpre hole hh) hshort ?_)
  have hlen : (hole ++ (wr32Be Ctx.proto30 ++ keyUser.toBytes ++ u.toBytes ++ keyDatabase.toBytes)).length =
      13 + (u.length + 1) + 9 := by
    simp only [List.length_append, hh, wr32Be_length, CStr.toBytes_length, keyUser_length, keyDatabase_length]
    omega
  have hend := startup_end_fills hh hlen (d := d) (by omega)
  simp only [← List.append_assoc] at hend
  exact hend

variable {statement query name portal : Option CStr} {n : UInt16}

/-- Type `i` on the wire. -/
def oidAt (oids : Option (List UInt32)) (i : ℕ) : Bytes := wr32Be (oids.elim 0 (·.getD i 0)).toNat

theorem oidLoop_moves {size : ℕ} (hs : size < 2 ^ 63) (oids : Option (List UInt32)) (k i : ℕ) (p : Bytes)
    (h : p.length + 4 * k ≤ size) :
    Moves size p (oidLoop oids k i p.length) (p ++ (List.range k).flatMap fun j => oidAt oids (i + j)) := by
  induction k generalizing i p with
  | zero =>
    rw [List.range_zero, List.flatMap_nil, List.append_nil]
    exact .pure _
  | succ k ih =>
    have hlen : (p ++ oidAt oids i).length = p.length + 4 := by
      rw [List.length_append]; rfl
    have hrest := ih (i + 1) (p ++ oidAt oids i) (by omega)
    rw [hlen, ← sizeAdd_eq (a := p.length) (b := 4) (by omega)] at hrest
    rw [range_flatMap_succ k i (oidAt oids), ← List.append_assoc]
    exact (Fills.store rfl (by rw [wr32Be_length]; omega)).bind hrest

/-- What `pqwire_send_parse` hands on. -/
def parsePayload (statement query : Option CStr) (oids : Option (List UInt32)) (n : UInt16) : Option Bytes :=
  query.bind fun query =>
    let statement := statement.getD CStr.empty
    if (statement.length + 1) + (query.length + 1) + 2 + n.toNat * 4 > maxQueryLen + 256 then none
    else some (statement.toBytes ++ query.toBytes ++ wr16Be n.toNat ++ (List.range n.toNat).flatMap (oidAt oids))

theorem sendParse_encodes (oids : Option (List UInt32)) (hst : (statement.getD CStr.empty).length < 2 ^ 31)
    (hq : (query.getD CStr.empty).length < 2 ^ 31) :
    Encodes (maxQueryLen + 256) (sendParse statement query oids n) (parsePayload statement query oids n) := by
  have hmax : maxQueryLen = 4096 := rfl
  have hn := n.toNat_lt
  cases query with
  | none => exact Goes.encodes (r := none) ⟨_, .failure⟩
  | some query =>
    rw [Option.getD_some] at hq
    unfold sendParse parsePayload
    dsimp only [Option.bind_some]
    generalize statement.getD CStr.empty = st at hst ⊢
    simp (disch := omega) only [sizeAdd_eq]
    split
    · exact Goes.encodes (r := none) ⟨_, .failure⟩
    · rename_i hfit
      have hlen : (st.toBytes ++ query.toBytes).length = st.length + 1 + (query.length + 1) := by
        simp only [List.length_append, CStr.toBytes_length]
      have hlen' : (st.toBytes ++ query.toBytes ++ wr16Be n.toNat).length = st.length + 1 + (query.length + 1) + 2 := by
        rw [List.length_append, hlen, wr16Be_length]
      -- the four stores, each at the offset where the one before it ended
      have h1 : Fills (maxQueryLen + 256) [] (store 0 st.toBytes) (some ()) st.toBytes :=
        .store rfl (by rw [List.length_nil, CStr.toBytes_length]; omega)
      have h2 : Fills (maxQueryLen + 256) st.toBytes (store (st.length + 1) query.toBytes) (some ())
          (st.toBytes ++ query.toBytes) :=
        .store (CStr.toBytes_length _).symm (by simp only [CStr.toBytes_length]; omega)
      have h3 : Fills (maxQueryLen + 256) (st.toBytes ++ query.toBytes)
          (store (st.length + 1 + (query.length + 1)) (wr16Be n.toNat)) (some ())
          (st.toBytes ++ query.toBytes ++ wr16Be n.toNat) := .store hlen.symm (by rw [hlen, wr16Be_length]; omega)
      have h4 := oidLoop_moves (show maxQueryLen + 256 < 2 ^ 63 by omega) oids n.toNat 0
        (st.toBytes ++ query.toBytes ++ wr16Be n.toNat) (by rw [hlen']; omega)
      simp only [Nat.zero_add] at h4
      rw [hlen'] at h4
      exact Goes.encodes (r := some _) (h1.bind (h2.bind (h3.bind h4)))

/-- What `pqwire_send_describe` and `pqwire_send_close` hand on. -/
def targetPayload (target : UInt8) (name : Option CStr) : Option Bytes :=
  if 1 + ((name.getD CStr.empty).length + 1) > maxStmtName + 2 then none
  else some (target :: (name.getD CStr.empty).toBytes)

theorem sendTarget_encodes (target : UInt8) (hn : (name.getD CStr.empty).length < 2 ^ 31) :
    Encodes (maxStmtName + 2) (sendTarget target name) (targetPayload target name) := by
  have hmax : maxStmtName = 64 := rfl
  unfold sendTarget targetPayload
  dsimp only
  generalize name.getD CStr.empty = s at hn ⊢
  simp (disch := omega) only [sizeAdd_eq]
  split
  · exact Goes.encodes (r := none) ⟨_, .failure⟩
  · rename_i hfit
    have hlen : 1 + (s.length + 1) = (target :: s.toBytes).length := by
      rw [List.length_cons, CStr.toBytes_length]; omega
    have h1 : Fills (maxStmtName + 2) [] (store 0 [target]) (some ()) [target] := .store rfl (by simp)
    have h2 : Fills (maxStmtName + 2) [target] (store 1 s.toBytes) (some ()) (target :: s.toBytes) :=
      .store rfl (by rw [CStr.toBytes_length, List.length_singleton]; omega)
    rw [hlen]
    exact Goes.encodes (r := some _) (h1.bind (h2.bind (.pure _)))

/-- What `pqwire_send_execute` hands on. -/
def executePayload (portal : Option CStr) (maxRows : UInt32) : Option Bytes :=
  if ((portal.getD CStr.empty).length + 1) + 4 > maxPortalName + 8 then none
  else some ((portal.getD CStr.empty).toBytes ++ wr32Be maxRows.toNat)

theorem sendExecute_encodes (maxRows : UInt32) (hn : (portal.getD CStr.empty).length < 2 ^ 31) :
    Encodes (maxPortalName + 8) (sendExecute portal maxRows) (executePayload portal maxRows) := by
  have hmax : maxPortalName = 64 := rfl
  unfold sendExecute executePayload
  dsimp only
  generalize portal.getD CStr.empty = s at hn ⊢
  simp (disch := omega) only [sizeAdd_eq]
  split
  · exact Goes.encodes (r := none) ⟨_, .failure⟩
  · rename_i hfit
    have hlen : s.length + 1 + 4 = (s.toBytes ++ wr32Be maxRows.toNat).length := by
      rw [List.length_append, CStr.toBytes_length, wr32Be_length]
    have h1 : Fills (maxPortalName + 8) [] (store 0 s.toBytes) (some ()) s.toBytes :=
      .store rfl (by rw [List.length_nil, CStr.toBytes_length]; omega)
    have h2 : Fills (maxPortalName + 8) s.toBytes (store (s.length + 1) (wr32Be maxRows.toNat)) (some ())
        (s.toBytes ++ wr32Be maxRows.toNat) :=
      .store (CStr.toBytes_length s).symm (by rw [CStr.toBytes_length, wr32Be_length]; omega)
    rw [hlen]
    exact Goes.encodes (r := some _) (h1.bind (h2.bind (.pure _)))

/-! ## Backend -/

/-- A column of RowDescription on the wire. -/
def columnBytes (col : Ctx.ColumnArg) : Bytes :=
  (col.name.getD CStr.empty).toBytes ++ wr32Be 0 ++ wr16Be 0 ++ wr32Be col.oid.toNat ++ wr16Be 4 ++ wr32Be (2 ^ 32 - 1) ++
    wr16Be col.format.toUInt16.toNat

theorem columnBytes_length (col : Ctx.ColumnArg) :
    (columnBytes col).length = (col.name.getD CStr.empty).length + 1 + 18 := by
  simp only [columnBytes, List.length_append, CStr.toBytes_length, wr32Be_length, wr16Be_length]

/-- A column that fits is stored, piece by piece. -/
theorem column_fills (col : Ctx.ColumnArg) {p : Bytes} {nlen : ℕ} (hn : nlen = (col.name.getD CStr.empty).length + 1)
    (h : p.length + nlen + 18 ≤ 2048) {β : Type} {f : Filler β} {w : Option β} {r : Bytes}
    (hf : Fills 2048 (p ++ columnBytes col) f w r) :
    Fills 2048 p (do
      store p.length (col.name.getD CStr.empty).toBytes
      store (p.length + nlen) (wr32Be 0)
      store (p.length + nlen + 4) (wr16Be 0)
      store (p.length + nlen + 6) (wr32Be col.oid.toNat)
      store (p.length + nlen + 10) (wr16Be 4)
      store (p.length + nlen + 12) (wr32Be (2 ^ 32 - 1))
      store (p.length + nlen + 16) (wr16Be col.format.toUInt16.toNat)
      f) w r := by
  unfold columnBytes at hf
  simp only [← List.append_assoc] at hf
  have hs := CStr.toBytes_length (col.name.getD CStr.empty)
  rw [← hn] at hs
  refine (Fills.store rfl ?_).bind ((Fills.store ?_ ?_).bind ((Fills.store ?_ ?_).bind ((Fills.store ?_ ?_).bind
    ((Fills.store ?_ ?_).bind ((Fills.store ?_ ?_).bind ((Fills.store ?_ ?_).bind hf)))))) <;>
    simp only [List.length_append, hs, wr32Be_length, wr16Be_length] <;> omega

theorem rowDescCols_goes (cols : List Ctx.ColumnArg) (hcols : ∀ col ∈ cols, (col.name.getD CStr.empty).length < 2 ^ 31)
    (p : Bytes) (hp : p.length ≤ 2048) : Goes 2048 p (rowDescCols cols p.length) (Ctx.rowDescCols cols p) := by
  induction cols generalizing p with
  | nil => exact Fills.pure _
  | cons col cols ih =>
    have hname := hcols col List.mem_cons_self
    unfold rowDescCols Ctx.rowDescCols
    dsimp only
    simp (disch := omega) only [sizeAdd_eq]
    by_cases hfit : p.length + ((col.name.getD CStr.empty).length + 1) + 18 > 2048
    · rw [if_pos hfit, if_pos hfit]
      exact ⟨p, .failure⟩
    · rw [if_neg hfit, if_neg hfit]
      have hpay : p ++ (col.name.getD CStr.empty).toBytes ++ wr32Be 0 ++ wr16Be 0 ++ wr32Be col.oid.toNat ++ wr16Be 4 ++
          wr32Be (2 ^ 32 - 1) ++ wr16Be col.format.toUInt16.toNat = p ++ columnBytes col := by
        simp only [columnBytes, List.append_assoc]
      have hlen : (p ++ columnBytes col).length = p.length + ((col.name.getD CStr.empty).length + 1) + 18 := by
        rw [List.length_append, columnBytes_length]; omega
      have hrest := ih (fun c hc => hcols c (List.mem_cons_of_mem _ hc)) (p ++ columnBytes col) (by omega)
      rw [hlen] at hrest
      rw [hpay]
      exact hrest.after fun hf => column_fills col rfl (by omega) hf

/-- What `pqwire_send_row_description` hands on. -/
def rowDescPayload (cols : Option (List Ctx.ColumnArg)) : Option Bytes :=
  cols.bind fun cols => Ctx.rowDescCols (cols.take maxRowColumns) (wr16Be (cols.take maxRowColumns).length)

theorem sendRowDescription_encodes {cols : Option (List Ctx.ColumnArg)}
    (hcols : ∀ col ∈ cols.getD [], (col.name.getD CStr.empty).length < 2 ^ 31) :
    Encodes 2048 (sendRowDescription cols) (rowDescPayload cols) := by
  cases cols with
  | none => exact Goes.encodes ⟨_, .failure⟩
  | some cols =>
    have hloop := rowDescCols_goes (cols.take maxRowColumns) (fun col hc => hcols col (List.mem_of_mem_take hc))
      (wr16Be (cols.take maxRowColumns).length) (by rw [wr16Be_length]; omega)
    exact Goes.encodes (hloop.after fun hf => (Fills.store rfl (by simp)).bind hf)

/-- What `pqwire_send_data_row` hands on. -/
def dataRowPayload (data : Option Bytes) : Option Bytes :=
  match data with
  | none => some (wr16Be 1 ++ wr32Be (2 ^ 32 - 1))
  | some d => if 2 + 4 + d.length > 4096 then none else some (wr16Be 1 ++ wr32Be d.length ++ d)

theorem sendDataRow_encodes {data : Option Bytes} (h : ∀ d ∈ data, d.length < 2 ^ 64 - 6) :
    Encodes 4096 (sendDataRow data) (dataRowPayload data) := by
  have h1 : Fills 4096 [] (store 0 (wr16Be 1)) (some ()) (wr16Be 1) := .store rfl (by simp)
  cases data with
  | none =>
    have h2 : Fills 4096 (wr16Be 1) (store 2 (wr32Be (2 ^ 32 - 1))) (some ()) (wr16Be 1 ++ wr32Be (2 ^ 32 - 1)) :=
      .store rfl (by simp)
    exact Goes.encodes (r := some _) (h1.bind (h2.bind (.pure _)))
  | some d =>
    have hd := h d rfl
    unfold sendDataRow dataRowPayload
    dsimp only
    simp (disch := omega) only [sizeAdd_eq]
    by_cases hfit : 6 + d.length > 4096
    · rw [if_pos hfit, if_pos hfit]
      exact Goes.encodes (r := none) ⟨_, h1.bind .failure⟩
    · rw [if_neg hfit, if_neg hfit]
      have h2 : Fills 4096 (wr16Be 1) (store 2 (wr32Be d.length)) (some ()) (wr16Be 1 ++ wr32Be d.length) :=
        .store rfl (by simp)
      have h3 : Fills 4096 (wr16Be 1 ++ wr32Be d.length) (store 6 d) (some ()) (wr16Be 1 ++ wr32Be d.length ++ d) :=
        .store rfl (by simp only [List.length_append, wr16Be_length, wr32Be_length]; omega)
      have hlen : 6 + d.length = (wr16Be 1 ++ wr32Be d.length ++ d).length := by
        simp only [List.length_append, wr16Be_length, wr32Be_length]
      rw [hlen]
      exact Goes.encodes (r := some _) (h1.bind (h2.bind (h3.bind (.pure _))))

theorem putField_goes (code : UInt8) {s : CStr} (hs : s.length < 2 ^ 31) {p : Bytes} (hp : p.length ≤ 512) :
    Goes 512 p (putField code s p.length) (Ctx.putField code s p) := by
  unfold putField Ctx.putField
  dsimp only
  simp (disch := omega) only [sizeAdd_eq]
  by_cases hfit : p.length + 1 + (s.length + 1) ≥ 512
  · rw [if_pos hfit, if_pos hfit]
    exact ⟨p, .failure⟩
  · rw [if_neg hfit, if_neg hfit]
    have h1 : Fills 512 p (store p.length [code]) (some ()) (p ++ [code]) :=
      .store rfl (by rw [List.length_singleton]; omega)
    have h2 : Fills 512 (p ++ [code]) (store (p.length + 1) s.toBytes) (some ()) (p ++ [code] ++ s.toBytes) :=
      .store (by simp) (by simp only [List.length_append, List.length_singleton, CStr.toBytes_length]; omega)
    have hlen : p.length + 1 + (s.length + 1) = (p ++ [code] ++ s.toBytes).length := by
      simp only [List.length_append, List.length_singleton, CStr.toBytes_length]
    rw [hlen]
    exact h1.bind (h2.bind (.pure _))

/-- A field that was put leaves the cursor inside the buffer. -/
theorem putField_length {code : UInt8} {s : CStr} {p q : Bytes} (h : Ctx.putField code s p = some q) : q.length < 512 := by
  unfold Ctx.putField at h
  split at h
  · cases h
  · cases h
    simp only [List.length_append, List.length_singleton, CStr.toBytes_length]
    omega

/-- What `pqwire_send_error_response` hands on. -/
def errorPayload (severity sqlstate message : Option CStr) : Option Bytes := do
  let p ← Ctx.putField (ch 'S') (severity.getD Ctx.defaultSeverity) []
  let p ← Ctx.putField (ch 'C') (sqlstate.getD Ctx.defaultSqlstate) p
  let p ← Ctx.putField (ch 'M') (message.getD Ctx.defaultMessage) p
  if p.length + 1 ≥ 512 then none else some (p ++ [0])

theorem sendErrorResponse_encodes {severity sqlstate message : Option CStr}
    (h1 : (severity.getD CStr.empty).length < 2 ^ 31) (h2 : (sqlstate.getD CStr.empty).length < 2 ^ 31)
    (h3 : (message.getD CStr.empty).length < 2 ^ 31) :
    Encodes 512 (sendErrorResponse severity sqlstate message) (errorPayload severity sqlstate message) := by
  have hdef : ∀ {s : Option CStr} {t : CStr}, (s.getD CStr.empty).length < 2 ^ 31 → t.length < 2 ^ 31 →
      (s.getD t).length < 2 ^ 31 := by
    intro s t hs ht
    cases s with
    | none => exact ht
    | some s => exact hs
  refine Goes.encodes ?_
  refine (putField_goes (p := []) _ (hdef h1 (by decide)) (by simp)).bind ?_
  intro p₁ hp₁
  refine (putField_goes _ (hdef h2 (by decide)) (putField_length hp₁).le).bind ?_
  intro p₂ hp₂
  refine (putField_goes _ (hdef h3 (by decide)) (putField_length hp₂).le).bind ?_
  intro p₃ hp₃
  have hlt := putField_length hp₃
  simp (disch := omega) only [sizeAdd_eq]
  by_cases hfit : p₃.length + 1 ≥ 512
  · rw [if_pos hfit, if_pos hfit]
    exact ⟨p₃, .failure⟩
  · rw [if_neg hfit, if_neg hfit]
    have hlen : p₃.length + 1 = (p₃ ++ [0]).length := by simp
    have hst : Fills 512 p₃ (store p₃.length [0]) (some ()) (p₃ ++ [0]) :=
      .store rfl (by rw [List.length_singleton]; omega)
    rw [hlen]
    exact hst.bind (.pure _)

end Local

namespace FixedSend

open Local

/-- What the call hands on, if it gets that far. -/
def payload (role : Role) : FixedSend → Option Bytes
  | startup user database => startupPayload role user database
  | parse statement query oids n => parsePayload statement query oids n
  | describe target name => targetPayload target name
  | close target name => targetPayload target name
  | execute portal maxRows => executePayload portal maxRows
  | rowDescription cols => rowDescPayload cols
  | dataRow data _ _ => dataRowPayload data
  | errorResponse severity sqlstate message => errorPayload severity sqlstate message

/-- The calls that store outside of their buffer: Startup with a user for which there is room, but
not for the key behind it, and DataRow with a length for which the check wraps. -/
def Overruns (role : Role) : FixedSend → Prop
  | startup user _ => role = .client ∧ 490 ≤ (user.getD CStr.empty).length ∧ (user.getD CStr.empty).length ≤ 497
  | dataRow data _ _ => ∃ d ∈ data, 2 ^ 64 - 6 ≤ d.length
  | _ => False

variable {role : Role} {s : FixedSend}

/-- **A helper stores inside its buffer and hands on what it stored.** -/
theorem encodes (hs : s.Sized) (h : ¬s.Overruns role) : Encodes s.bufSize (s.fill role) (s.payload role) := by
  have hstr := hs.strings
  cases s with
  | startup user database =>
    refine sendStartup_encodes role (hstr _ (by simp [strings])) (hstr _ (by simp [strings])) ?_
    intro hr hl
    exact h ⟨hr, hl⟩
  | parse statement query oids n =>
    exact sendParse_encodes oids (hstr _ (by simp [strings])) (hstr _ (by simp [strings]))
  | describe target name => exact sendTarget_encodes target (hstr _ (by simp [strings]))
  | close target name => exact sendTarget_encodes target (hstr _ (by simp [strings]))
  | execute portal maxRows => exact sendExecute_encodes maxRows (hstr _ (by simp [strings]))
  | rowDescription cols =>
    refine sendRowDescription_encodes fun col hc => hstr _ ?_
    exact List.mem_map_of_mem hc
  | dataRow data format oid =>
    refine sendDataRow_encodes ?_
    intro d hd
    exact not_le.1 fun hl => h ⟨d, hd, hl⟩
  | errorResponse severity sqlstate message =>
    exact sendErrorResponse_encodes (hstr _ (by simp [strings])) (hstr _ (by simp [strings])) (hstr _ (by simp [strings]))

theorem startup_run_eq (c : Ctx) (user database : Option CStr) :
    (startup user database).run c = match (startup user database).payload c.role with
    | none => (c, -1)
    | some p => (c.appendOutput p, 0) := by
  simp only [run, payload, Ctx.sendStartup, startupPayload]
  generalize user.getD CStr.empty = u
  generalize database.getD CStr.empty = d
  by_cases hr : c.role ≠ .client
  · rw [if_pos hr, if_pos (.inl hr)]
  rw [if_neg hr]
  by_cases h1 : 13 + (u.length + 1) ≥ 512
  · rw [if_pos h1, if_pos (.inr (.inl h1))]
  rw [if_neg h1]
  by_cases h2 : 13 + (u.length + 1) + 9 + (d.length + 1) + 1 ≥ 512
  · rw [if_pos h2, if_pos (.inr (.inr h2))]
  · rw [if_neg h2, if_neg (by tauto)]

/-- The model of the helper hands on the same. -/
theorem run_eq (c : Ctx) (s : FixedSend) : s.run c = match s.payload c.role with
    | none => (c, -1)
    | some p => s.handOn c p := by
  cases s with
  | startup user database => exact startup_run_eq c user database
  | parse statement query oids n =>
    cases query with
    | none => rfl
    | some query =>
      unfold run payload Ctx.sendParse parsePayload handOn
      dsimp only [Option.bind_some]
      split <;> rfl
  | describe target name =>
    simp only [run, payload, Ctx.sendDescribe, Ctx.sendTarget, targetPayload, handOn]
    split <;> rfl
  | close target name =>
    simp only [run, payload, Ctx.sendClose, Ctx.sendTarget, targetPayload, handOn]
    split <;> rfl
  | execute portal maxRows =>
    simp only [run, payload, Ctx.sendExecute, executePayload, handOn]
    split <;> rfl
  | rowDescription cols =>
    cases cols with
    | none => rfl
    | some cols =>
      cases hcols : Ctx.rowDescCols (cols.take maxRowColumns) (wr16Be (cols.take maxRowColumns).length) with
      | none => simp only [run, payload, Ctx.sendRowDescription, rowDescPayload, Option.bind_some, hcols]
      | some p => simp only [run, payload, Ctx.sendRowDescription, rowDescPayload, Option.bind_some, hcols, handOn]
  | dataRow data format oid =>
    cases data with
    | none => rfl
    | some d =>
      simp only [run, payload, Ctx.sendDataRow, dataRowPayload, handOn]
      split <;> rfl
  | errorResponse severity sqlstate message =>
    simp only [run, payload, Ctx.sendErrorResponse, errorPayload, handOn, Option.bind_eq_bind, ← Option.bind_assoc]
    -- what the three fields give is checked the same way on both sides
    generalize ((Ctx.putField (ch 'S') (severity.getD Ctx.defaultSeverity) []).bind
      (Ctx.putField (ch 'C') (sqlstate.getD Ctx.defaultSqlstate))).bind
      (Ctx.putField (ch 'M') (message.getD Ctx.defaultMessage)) = fields
    cases fields with
    | none => rfl
    | some p =>
      simp only [Option.bind_some]
      split <;> rfl

/-- The call through its buffer is the call of the model, whatever the buffer held. -/
theorem runLocal_eq {c : Ctx} (hs : s.Sized) (h : ¬s.Overruns c.role) {buf : Bytes} (hb : buf.length = s.bufSize) :
    s.runLocal c buf = s.run c := by
  obtain ⟨-, hval, hbuf⟩ := encodes hs h
  rw [run_eq, runLocal, hval]
  cases hp : s.payload c.role with
  | none => rfl
  | some q =>
    show s.handOn c ((afterStores buf (s.fill c.role).run.log).take q.length) = s.handOn c q
    rw [hbuf q hp buf hb]

/-- The key behind a user of such a length is stored across the end of the buffer. -/
theorem startup_stores_key {user : CStr} (h : user.length ≤ 497) (database : Option CStr) :
    ⟨13 + (user.length + 1), keyDatabase.toBytes⟩ ∈ (sendStartup .client (some user) database).run.log := by
  unfold sendStartup
  rw [if_neg (by decide)]
  dsimp only [Option.getD_some]
  simp (disch := omega) only [sizeAdd_eq]
  rw [if_neg (by omega)]
  refine Fills.mem_store_bind (Fills.mem_store_bind (Fills.mem_store_bind (Fills.mem_bind ?_)))
  exact List.mem_singleton.2 rfl

theorem dataRow_stores_data {d : Bytes} (h : 2 ^ 64 - 6 ≤ d.length) (h' : d.length < 2 ^ 64) :
    ⟨6, d⟩ ∈ (sendDataRow (some d)).run.log := by
  have hwrap : sizeAdd 6 d.length = 6 + d.length - 2 ^ 64 := by
    unfold sizeAdd
    rw [Nat.mod_eq_sub_mod (by omega), Nat.mod_eq_of_lt (by omega)]
  unfold sendDataRow
  dsimp only
  rw [hwrap, if_neg (by omega)]
  refine Fills.mem_store_bind (Fills.mem_store_bind (Fills.mem_bind ?_))
  exact List.mem_singleton.2 rfl

/-- **The calls that store outside.** -/
theorem stores_below_iff (role : Role) (s : FixedSend) (hs : s.Sized) :
    s.Inside role ↔ ¬s.Overruns role := by
  refine ⟨fun h hover => ?_, fun h => (encodes hs h).1⟩
  cases s with
  | startup user database =>
    obtain ⟨rfl, h1, h2⟩ := hover
    cases user with
    | none => exact absurd h1 (by decide)
    | some user =>
      rw [Option.getD_some] at h1 h2
      -- the last byte of the key
      have hlt := h _ (startup_stores_key h2 database) (22 + user.length) (by simp only; omega)
        (by simp only [CStr.toBytes_length, keyDatabase_length]; omega)
      have hsize : (startup (some user) database).bufSize = 512 := rfl
      omega
  | dataRow data format oid =>
    obtain ⟨d, rfl, hl⟩ := hover
    have hlt := h _ (dataRow_stores_data hl (hs.data d format oid rfl)) 4096 (by simp) (by simp only; omega)
    have hsize : (dataRow (some d) format oid).bufSize = 4096 := rfl
    omega
  | _ => exact hover

theorem stores_below_short : (startup (some (longIdentity 3)) none).Inside .client := by
  refine (stores_below_iff .client (startup (some (longIdentity 3)) none) ⟨?_, ?_⟩).2 ?_
  · intro t ht
    simp only [strings, List.map_cons, List.map_nil, List.mem_cons, List.not_mem_nil, or_false] at ht
    rcases ht with rfl | rfl
    · show (longIdentity 3).length < 2 ^ 31
      decide
    · decide
  · intro d format oid h
    cases h
  · rintro ⟨-, h, -⟩
    exact absurd h (by decide)

/-- A user of 490 characters: the zero byte of the key `database` is stored at index 512, and the
call then returns -1. -/
theorem startup_overruns : (startup (some (longIdentity 490)) none).Sized ∧
    ¬(startup (some (longIdentity 490)) none).Inside .client := by
  have hl : (longIdentity 490).length = 490 := List.length_replicate
  refine ⟨⟨?_, ?_⟩, ?_⟩
  · intro t ht
    simp only [strings, List.map_cons, List.map_nil, List.mem_cons, List.not_mem_nil, or_false] at ht
    rcases ht with rfl | rfl
    · show (longIdentity 490).length < 2 ^ 31
      omega
    · decide
  · intro d format oid h
    cases h
  · intro h
    have hlt := h _ (startup_stores_key (by omega) none) 512 (by simp only [hl]; omega)
      (by simp only [hl, CStr.toBytes_length, keyDatabase_length]; omega)
    have hsize : (startup (some (longIdentity 490)) none).bufSize = 512 := rfl
    omega

end FixedSend

end Pqwire

import Pqwire.Spec.Atomic

/-!
# What the send helpers have in common

The loops of `pqwire_send_bind` and `pqwire_send_data_row_multi` are one loop over different
fields (`bindParamLoop_eq`, `dataRowCols_eq`).

`Follows` is what a helper that emits through `emit_msg` does: it takes allocations, and then
it refuses or emits its message. `send_follows` is the one place where the helpers are gone
through; what they leave alone, what they append and what a failing allocation does to them
are read off it.
-/

namespace Pqwire

open ByteMem

/-! ## Allocations -/

/-- `c₁` is `c` after some allocations. -/
def Takes (c c₁ : Ctx) : Prop := ∃ k, c₁ = { c with allocs := c.allocs.drop k }

theorem Takes.refl (c : Ctx) : Takes c c := ⟨0, rfl⟩

theorem Takes.allocated (c : Ctx) : Takes c c.allocated := ⟨1, by rw [List.drop_one]; rfl⟩

theorem Takes.trans {c c₁ c₂ : Ctx} (h : Takes c c₁) (h' : Takes c₁ c₂) : Takes c c₂ := by
  obtain ⟨k, rfl⟩ := h
  obtain ⟨k', rfl⟩ := h'
  exact ⟨k + k', by rw [List.drop_drop]⟩

theorem Takes.output {c c₁ : Ctx} (h : Takes c c₁) : c₁.output = c.output := by
  obtain ⟨k, rfl⟩ := h
  rfl

theorem allocated_self {c : Ctx} (ha : c.allocs = []) : c.allocated = c := by
  unfold Ctx.allocated
  rw [ha]
  cases c
  simp_all

theorem allocOk_of_nil {c : Ctx} (ha : c.allocs = []) : c.allocOk = true := by
  unfold Ctx.allocOk
  rw [ha]
  rfl

/-! ## The heap buffer -/

/-- A field of a growing encoder: the length that is written, and the value behind it if there
is one. -/
structure HeapField where
  len : Int32
  value : Option Bytes

/-- The field as it is written. -/
def HeapField.enc (f : HeapField) : Bytes := wr32Be f.len.toUInt32.toNat ++ f.value.getD []

/-- The loop over the fields: a length that does not fit is refused, a value that does not fit
makes the buffer grow. -/
def putFields : List HeapField → Ctx → Bytes → ℕ → Ctx × Option (Bytes × ℕ)
  | [], c, p, cap => (c, some (p, cap))
  | f :: fs, c, p, cap =>
    if p.length + 4 > cap then (c, none)
    else
      match f.value with
      | none => putFields fs c (p ++ wr32Be f.len.toUInt32.toNat) cap
      | some v =>
        if p.length + 4 + f.len.toInt.toNat > cap then
          if c.allocOk then
            putFields fs c.allocated (p ++ wr32Be f.len.toUInt32.toNat ++ v) (p.length + 4 + f.len.toInt.toNat + 1024)
          else (c.allocated, none)
        else putFields fs c (p ++ wr32Be f.len.toUInt32.toNat ++ v) cap

/-- Parameter `i` of a Bind: a positive length takes up its bytes, with or without a value. -/
def bindField (lengths : Option (List Int32)) (values : Option (List (Option Bytes))) (i : ℕ) : HeapField :=
  let len : Int32 := lengths.elim (-1) (·.getD i 0)
  { len
    value := if len.toInt > 0 then
        some ((values.bind (·.getD i none)).elim (List.replicate len.toInt.toNat 0) (·.take len.toInt.toNat))
      else none }

/-- Column `i` of a row: the value is written where there is one. -/
def rowField (lengths : Option (List Int32)) (values : Option (List (Option Bytes))) (i : ℕ) : HeapField :=
  let len : Int32 := lengths.elim (-1) (·.getD i 0)
  { len
    value := if len.toInt > 0 then (values.bind (·.getD i none)).map (·.take len.toInt.toNat) else none }

theorem bindParamLoop_eq (lengths : Option (List Int32)) (values : Option (List (Option Bytes))) (n i : ℕ) (c : Ctx)
    (p : Bytes) (cap : ℕ) : Ctx.bindParamLoop lengths values n i c p cap =
      putFields ((List.range' i n).map (bindField lengths values)) c p cap := by
  induction n generalizing i c p cap with
  | zero => rfl
  | succ n ih =>
    rw [List.range'_succ, List.map_cons]
    simp only [Ctx.bindParamLoop, putFields, bindField, ih, List.length_append, wr32Be_length]
    split
    · rfl
    by_cases hpos : (lengths.elim (-1) (·.getD i 0) : Int32).toInt > 0
    · simp only [if_pos hpos]
      cases values.bind (·.getD i none) with
      | none => rfl
      | some v => rfl
    · simp only [if_neg hpos]

theorem dataRowCols_eq (lengths : Option (List Int32)) (values : Option (List (Option Bytes))) (n i : ℕ) (c : Ctx)
    (p : Bytes) (cap : ℕ) : Ctx.dataRowCols lengths values n i c p cap =
      Prod.map id (Option.map Prod.fst) (putFields ((List.range' i n).map (rowField lengths values)) c p cap) := by
  induction n generalizing i c p cap with
  | zero => rfl
  | succ n ih =>
    rw [List.range'_succ, List.map_cons]
    simp only [Ctx.dataRowCols, putFields, rowField, ih, List.length_append, wr32Be_length]
    split
    · rfl
    by_cases hpos : (lengths.elim (-1) (·.getD i 0) : Int32).toInt > 0
    · simp only [if_pos hpos]
      cases values.bind (·.getD i none) with
      | none => rfl
      | some v =>
        dsimp only [Option.map_some]
        by_cases hcap : p.length + 4 + (lengths.elim (-1) (·.getD i 0) : Int32).toInt.toNat > cap
        · simp only [if_pos hcap]
          split
          · rfl
          · rfl
        · rw [if_neg hcap]
          exact congrArg _ (if_neg hcap).symm
    · simp only [if_neg hpos]
      cases values.bind (·.getD i none) with
      | none => rfl
      | some v => rfl

/-- The loop leaves everything but the allocations alone. -/
theorem putFields_takes (fs : List HeapField) (c : Ctx) (p : Bytes) (cap : ℕ) : Takes c (putFields fs c p cap).1 := by
  induction fs generalizing c p cap with
  | nil => exact .refl c
  | cons f fs ih =>
    simp only [putFields]
    split
    · exact .refl c
    split
    · exact ih _ _ _
    split
    · split
      · exact (Takes.allocated c).trans (ih _ _ _)
      · exact .allocated c
    · exact ih _ _ _

/-- The loop writes the fields one after the other. -/
theorem putFields_some {fs : List HeapField} {c : Ctx} {p p' : Bytes} {cap cap' : ℕ}
    (h : (putFields fs c p cap).2 = some (p', cap')) : p' = p ++ fs.flatMap HeapField.enc := by
  induction fs generalizing c p cap with
  | nil =>
    cases h
    exact (List.append_nil _).symm
  | cons f fs ih =>
    rw [List.flatMap_cons, HeapField.enc, ← List.append_assoc, ← List.append_assoc]
    simp only [putFields] at h
    split at h
    · cases h
    cases hv : f.value with
    | none =>
      rw [hv] at h
      rw [Option.getD_none, List.append_nil]
      exact ih h
    | some v =>
      rw [hv] at h
      rw [Option.getD_some]
      dsimp only at h
      split at h
      · split at h
        · exact ih h
        · cases h
      · exact ih h

/-- Where allocation succeeds, the loop leaves the context alone and does not depend on it. -/
theorem putFields_fixed (fs : List HeapField) (p : Bytes) (cap : ℕ) :
    ∃ r, ∀ c : Ctx, c.allocs = [] → putFields fs c p cap = (c, r) := by
  induction fs generalizing p cap with
  | nil => exact ⟨_, fun c _ => rfl⟩
  | cons f fs ih =>
    simp only [putFields]
    by_cases h4 : p.length + 4 > cap
    · simp only [if_pos h4]
      exact ⟨none, fun _ _ => rfl⟩
    simp only [if_neg h4]
    cases f.value with
    | none => exact ih _ _
    | some v =>
      dsimp only
      by_cases hcap : p.length + 4 + f.len.toInt.toNat > cap
      · obtain ⟨r, hr⟩ := ih (p ++ wr32Be f.len.toUInt32.toNat ++ v) (p.length + 4 + f.len.toInt.toNat + 1024)
        refine ⟨r, ?_⟩
        intro c ha
        rw [if_pos hcap, allocOk_of_nil ha, if_pos rfl, allocated_self ha]
        exact hr c ha
      · simp only [if_neg hcap]
        exact ih _ _

/-- What a helper does when its field loop has returned. -/
def afterFields (call : Bytes → ℕ → Ctx → Ctx × ℤ) : Ctx × Option (Bytes × ℕ) → Ctx × ℤ
  | (c, none) => (c, -1)
  | (c, some (p, cap)) => call p cap c

/-! ## The helpers -/

/-- What a helper of messages of type `t` does: it takes allocations, then it refuses or emits a
message. Where allocation succeeds, which of the two and with what payload does not depend on
the context. -/
structure Follows (t : UInt8) (call : Ctx → Ctx × ℤ) : Prop where
  comes : ∀ c, ∃ c₁, Takes c c₁ ∧ (call c = (c₁, -1) ∨ ∃ payload, call c = c₁.emitMsg t payload)
  fixed : ∃ o : Option Bytes, ∀ c : Ctx, c.allocs = [] → call c = o.elim (c, -1) (c.emitMsg t)

namespace Follows

variable {t : UInt8} {call : Ctx → Ctx × ℤ}

theorem refused : Follows t fun c => (c, -1) :=
  ⟨fun c => ⟨c, .refl c, Or.inl rfl⟩, none, fun _ _ => rfl⟩

theorem emit (payload : Bytes) : Follows t fun c => c.emitMsg t payload :=
  ⟨fun c => ⟨c, .refl c, Or.inr ⟨payload, rfl⟩⟩, some payload, fun _ _ => rfl⟩

/-- A check in front of the call. -/
theorem check (P : Prop) [Decidable P] (h : Follows t call) : Follows t fun c => if P then (c, -1) else call c := by
  by_cases hP : P
  · simp only [if_pos hP]
    exact refused
  · simp only [if_neg hP]
    exact h

/-- A buffer is allocated in front of the call. -/
theorem alloc (h : Follows t call) : Follows t fun c => if ¬c.allocOk then (c.allocated, -1) else call c.allocated := by
  constructor
  · intro c
    split
    · exact ⟨c.allocated, .allocated c, Or.inl rfl⟩
    · obtain ⟨c₁, ht, hc⟩ := h.comes c.allocated
      exact ⟨c₁, (Takes.allocated c).trans ht, hc⟩
  · obtain ⟨o, ho⟩ := h.fixed
    refine ⟨o, ?_⟩
    intro c ha
    rw [if_neg (not_not.2 (allocOk_of_nil ha)), allocated_self ha]
    exact ho c ha

/-- The fields go into the heap buffer in front of the call. -/
theorem fields {call : Bytes → ℕ → Ctx → Ctx × ℤ} (h : ∀ p cap, Follows t (call p cap)) (fs : List HeapField)
    (p : Bytes) (cap : ℕ) : Follows t fun c => afterFields call (putFields fs c p cap) := by
  have hr : ∀ r, Follows t fun c => afterFields call (c, r) := by
    intro r
    cases r with
    | none => exact refused
    | some q => exact h q.1 q.2
  constructor
  · intro c
    obtain ⟨c₁, ht, hc⟩ := (hr (putFields fs c p cap).2).comes (putFields fs c p cap).1
    exact ⟨c₁, (putFields_takes fs c p cap).trans ht, hc⟩
  · obtain ⟨r, hput⟩ := putFields_fixed fs p cap
    obtain ⟨o, ho⟩ := (hr r).fixed
    refine ⟨o, ?_⟩
    intro c ha
    rw [hput c ha]
    exact ho c ha

end Follows

theorem sendQuery_follows (sql : Option CStr) : Follows (ch 'Q') fun c => c.sendQuery sql := by
  cases sql with
  | none => exact .refused
  | some sql => exact .emit _

theorem sendParse_follows (statement query : Option CStr) (oids : Option (List UInt32)) (n : UInt16) :
    Follows (ch 'P') fun c => c.sendParse statement query oids n := by
  cases query with
  | none => exact .refused
  | some query => exact .check _ (.emit _)

theorem sendBind_follows (portal statement : Option CStr) (formats : Option (List Int16)) (nFormats : UInt16)
    (lengths : Option (List Int32)) (values : Option (List (Option Bytes))) (nParams : UInt16)
    (resultFormats : Option (List Int16)) (nResultFormats : UInt16) : Follows (ch 'B') fun c =>
      c.sendBind portal statement formats nFormats lengths values nParams resultFormats nResultFormats := by
  simp only [Ctx.sendBind, bindParamLoop_eq]
  set names := (portal.getD CStr.empty).toBytes ++ (statement.getD CStr.empty).toBytes
  set head := names ++ wr16Be nFormats.toNat ++ Ctx.codeBytes formats nFormats.toNat
  set cap := 64 + nParams.toNat * 256
  have hloop : Follows (ch 'B') fun c => afterFields (fun p cap c =>
      if p.length + 2 + nResultFormats.toNat * 2 > cap then (c, -1)
      else c.emitMsg (ch 'B') (p ++ wr16Be nResultFormats.toNat ++ Ctx.codeBytes resultFormats nResultFormats.toNat))
      (putFields ((List.range' 0 nParams.toNat).map (bindField lengths values)) c (head ++ wr16Be nParams.toNat) cap) :=
    .fields (fun _ _ => .check _ (.emit _)) _ _ _
  exact (((hloop.check (head.length + 2 > cap)).check (names.length + 2 + nFormats.toNat * 2 > cap)).check
    (names.length > cap)).alloc

theorem sendExecute_follows (portal : Option CStr) (maxRows : UInt32) :
    Follows (ch 'E') fun c => c.sendExecute portal maxRows := .check _ (.emit _)

theorem sendDataRowMulti_follows (lengths : Option (List Int32)) (values : Option (List (Option Bytes)))
    (nCols : UInt16) : Follows (ch 'D') fun c => c.sendDataRowMulti lengths values nCols := by
  have hrow : ∀ c : Ctx, c.sendDataRowMulti lengths values nCols =
      if ¬c.allocOk then (c.allocated, -1)
      else afterFields (fun p _ c => c.emitMsg (ch 'D') p) (putFields
        ((List.range' 0 nCols.toNat).map (rowField lengths values)) c.allocated (wr16Be nCols.toNat)
        (64 + nCols.toNat * 256)) := by
    intro c
    simp only [Ctx.sendDataRowMulti, dataRowCols_eq]
    rcases putFields _ c.allocated _ _ with ⟨c₁, none | ⟨p, cap⟩⟩
    · rfl
    · rfl
  simp only [hrow]
  exact (Follows.fields (fun _ _ => .emit _) _ _ _).alloc

/-- A helper that emits through `emit_msg` has a message type. -/
theorem Send.ViaEmit.type {m : Send} (hm : m.ViaEmit) : ∃ t, m.type = some t := by
  cases m with
  | startup => exact hm.elim
  | unnamedPipeline => exact hm.elim
  | _ => exact ⟨_, rfl⟩

/-- **What every helper does that emits through `emit_msg`.** `pqwire_send_ready_for_query` sets
the phase before it does so. -/
theorem send_follows {m : Send} {t : UInt8} (ht : m.type = some t) (hm : m.ViaEmit) (hr : m ≠ .readyForQuery) :
    Follows t fun c => m.run c := by
  cases m with
  | startup => exact hm.elim
  | bindRewriteIdentity => exact hm.elim
  | unnamedPipeline => exact hm.elim
  | readyForQuery => exact absurd rfl hr
  | query sql =>
    cases ht
    exact sendQuery_follows sql
  | call procedure =>
    cases ht
    cases procedure with
    | none => exact .refused
    | some p => exact .emit _
  | parse stmt sql oids n =>
    cases ht
    exact sendParse_follows stmt sql oids n
  | bind p s f nf l v n r nr =>
    cases ht
    exact sendBind_follows p s f nf l v n r nr
  | bindParams p s ps n r nr =>
    cases ht
    exact .check _ (.check _ (sendBind_follows _ _ _ _ _ _ _ _ _))
  | describe target name =>
    cases ht
    exact .check _ (.emit _)
  | execute portal maxRows =>
    cases ht
    exact sendExecute_follows portal maxRows
  | close target name =>
    cases ht
    exact .check _ (.emit _)
  | rowDescription cols =>
    cases ht
    simp only [Send.run, Ctx.sendRowDescription]
    cases cols with
    | none => exact .refused
    | some cols =>
      dsimp only
      cases Ctx.rowDescCols (cols.take maxRowColumns) (wr16Be (cols.take maxRowColumns).length) with
      | none => exact .refused
      | some p => exact .emit p
  | dataRow data format oid =>
    cases ht
    cases data with
    | none => exact .emit _
    | some d => exact .check _ (.emit _)
  | dataRowMulti lengths values n =>
    cases ht
    exact sendDataRowMulti_follows lengths values n
  | commandComplete tag =>
    cases ht
    cases tag with
    | none => exact .refused
    | some tag => exact .emit _
  | errorResponse severity sqlstate message =>
    cases ht
    simp only [Send.run, Ctx.sendErrorResponse]
    split
    · exact .refused
    · exact .check _ (.emit _)
  | _ =>
    cases ht
    exact .emit _

end Pqwire

import Pqwire.Proof.Invariant

/-!
# What the send helpers append

`emit_msg` returns 0 even where the output buffer could not grow, and then part of the
message is missing: the message is in the output exactly when no allocation failed
(`emitMsg_cases`). `sendBind_payload` gives the payload of a Bind.
-/

namespace Pqwire

open ByteMem

/-- No allocation made on the way from `c` to `c'` failed. -/
def NoFailure (c c' : Ctx) : Prop := ∃ k, c'.allocs = c.allocs.drop k ∧ ∀ a ∈ c.allocs.take k, a = true

variable {c c₁ c₂ : Ctx}

theorem NoFailure.refl (c : Ctx) : NoFailure c c := ⟨0, rfl, by simp⟩

theorem NoFailure.trans (h : NoFailure c c₁) (h' : NoFailure c₁ c₂) : NoFailure c c₂ := by
  obtain ⟨k, hd, ht⟩ := h
  obtain ⟨k', hd', ht'⟩ := h'
  refine ⟨k + k', by rw [hd', hd, List.drop_drop], ?_⟩
  intro a ha
  rw [List.take_add] at ha
  rcases List.mem_append.1 ha with ha | ha
  · exact ht a ha
  · rw [← hd] at ha; exact ht' a ha

/-- The next allocation succeeds. -/
theorem NoFailure.allocated (h : c.allocOk = true) : NoFailure c c.allocated := by
  refine ⟨1, List.drop_one.symm, ?_⟩
  intro a ha
  unfold Ctx.allocOk at h
  cases hal : c.allocs with
  | nil => rw [hal] at ha; simp at ha
  | cons x xs =>
    rw [hal] at ha h
    simp only [List.take_succ_cons, List.take_zero, List.mem_singleton] at ha
    rw [ha]; exact h

/-- Once an allocation has failed, what follows does not undo it. -/
theorem NoFailure.failed (h : NoFailure c c₁) (hf : c₁.allocOk = false) {j : ℕ} (hj : 0 < j)
    (h₂ : c₂.allocs = c₁.allocs.drop j) : ¬NoFailure c c₂ := by
  rintro ⟨k', hd', ht'⟩
  obtain ⟨k, hd, -⟩ := h
  have hhead : c.allocs[k]? = some false := by
    unfold Ctx.allocOk at hf
    rw [hd, List.headD_eq_head?_getD, List.head?_drop] at hf
    cases hk : c.allocs[k]? with
    | none => rw [hk] at hf; cases hf
    | some x => rw [hk] at hf; exact congrArg some hf
  have hk : k < c.allocs.length := (List.getElem?_eq_some_iff.1 hhead).1
  have hlen := congrArg List.length (hd'.symm.trans (h₂.trans (by rw [hd, List.drop_drop])))
  rw [List.length_drop, List.length_drop] at hlen
  have hmem : false ∈ c.allocs.take k' :=
    List.mem_of_getElem? (i := k) (by rw [List.getElem?_take_of_lt (by omega)]; exact hhead)
  exact Bool.false_ne_true (ht' false hmem)

/-! ## The output buffer -/

/-- Appending succeeds, or an allocation fails and nothing is appended. -/
theorem appendOutput_cases (c : Ctx) (data : Bytes) :
    ((c.appendOutput data).output = c.output ++ data ∧ NoFailure c (c.appendOutput data)) ∨
      (c.allocOk = false ∧ (c.appendOutput data).output = c.output ∧
        (c.appendOutput data).allocs = c.allocs.drop 1) := by
  unfold Ctx.appendOutput Ctx.ensureOutput
  split_ifs with h1 h2
  · exact Or.inl ⟨rfl, .refl c⟩
  · exact Or.inl ⟨rfl, .allocated h2⟩
  · exact Or.inr ⟨by simpa using h2, rfl, List.drop_one.symm⟩

theorem appendOutput_allocs (c : Ctx) (data : Bytes) : ∃ j, (c.appendOutput data).allocs = c.allocs.drop j := by
  rcases appendOutput_cases c data with ⟨-, k, hk, -⟩ | ⟨-, -, h⟩
  · exact ⟨k, hk⟩
  · exact ⟨1, h⟩

/-- **A message is in the output exactly when no allocation failed**, whatever `emit_msg`
returns; else part of it is missing. `c₀` is the context at the start of the call that
emits it. -/
theorem emitMsg_cases {c₀ : Ctx} (h : NoFailure c₀ c) (type : UInt8) {payload : Bytes} (hp : payload ≠ []) :
    (NoFailure c₀ (c.emitMsg type payload).1 ∧
        (c.emitMsg type payload).1.output = c.output ++ (Ctx.msgHeader type payload.length ++ payload)) ∨
      (¬NoFailure c₀ (c.emitMsg type payload).1 ∧
        (c.emitMsg type payload).1.output.length < c.output.length + 5 + payload.length) := by
  have hlen : (Ctx.msgHeader type payload.length).length = 5 := rfl
  have hpos : 0 < payload.length := List.length_pos_iff.2 hp
  unfold Ctx.emitMsg
  dsimp only
  rw [if_neg hp]
  set c₁ := c.appendOutput (Ctx.msgHeader type payload.length)
  rcases appendOutput_cases c (Ctx.msgHeader type payload.length) with ⟨ho, hn⟩ | ⟨hf, ho, ha⟩
  · rcases appendOutput_cases c₁ payload with ⟨ho', hn'⟩ | ⟨hf', ho', ha'⟩
    · exact Or.inl ⟨(h.trans hn).trans hn', by rw [ho', ho, List.append_assoc]⟩
    · refine Or.inr ⟨(h.trans hn).failed hf' Nat.one_pos ha', ?_⟩
      rw [ho', ho, List.length_append, hlen]; omega
  · obtain ⟨j, hj⟩ := appendOutput_allocs c₁ payload
    refine Or.inr ⟨h.failed hf (j := 1 + j) (by omega) (by rw [hj, ha, List.drop_drop]), ?_⟩
    rcases appendOutput_cases c₁ payload with ⟨ho', -⟩ | ⟨-, ho', -⟩
    · rw [ho', ho, List.length_append]; omega
    · rw [ho', ho]; omega

/-! ## Bind -/

/-- The loop over the fields stops at the first allocation that fails. -/
theorem putFields_noFailure {fs : List HeapField} {p : Bytes} {cap : ℕ} {q : Bytes × ℕ}
    (h : (putFields fs c p cap).2 = some q) : NoFailure c (putFields fs c p cap).1 := by
  induction fs generalizing c p cap with
  | nil => exact .refl c
  | cons f fs ih =>
    simp only [putFields] at h ⊢
    split at h
    · cases h
    rename_i h4
    rw [if_neg h4]
    cases hv : f.value with
    | none =>
      rw [hv] at h
      exact ih h
    | some v =>
      rw [hv] at h
      dsimp only at h ⊢
      split at h
      · rename_i hcap
        rw [if_pos hcap]
        split at h
        · rename_i hok
          rw [if_pos hok]
          exact (NoFailure.allocated hok).trans (ih h)
        · cases h
      · rename_i hcap
        rw [if_neg hcap]
        exact ih h

/-- A parameter on the wire, from its length and its value. -/
def wireParam (len : Int32) (val : Option Bytes) : Bytes :=
  wr32Be len.toUInt32.toNat ++
    if len.toInt > 0 then (match val with
      | some v => v.take len.toInt.toNat
      | none => List.replicate len.toInt.toNat 0)
    else []

theorem range_flatMap_succ {α : Type} (n i : ℕ) (g : ℕ → List α) :
    (List.range (n + 1)).flatMap (fun j => g (i + j)) = g i ++ (List.range n).flatMap fun j => g (i + 1 + j) := by
  rw [List.range_succ_eq_map, List.flatMap_cons, List.flatMap_map, Nat.add_zero]
  congr 2
  funext j
  congr 1; omega

theorem bindField_enc (lengths : Option (List Int32)) (values : Option (List (Option Bytes))) (i : ℕ) :
    (bindField lengths values i).enc = wireParam (lengths.elim (-1) (·.getD i 0)) (values.bind (·.getD i none)) := by
  unfold bindField HeapField.enc wireParam
  dsimp only
  split
  · cases values.bind (·.getD i none) with
    | none => rfl
    | some v => rfl
  · rfl

/-- The parameter loop of `pqwire_send_bind` writes the parameters one after the other. -/
theorem bindParamLoop_some {lengths : Option (List Int32)} {values : Option (List (Option Bytes))}
    {n i cap cap' : ℕ} {p p' : Bytes}
    (h : Ctx.bindParamLoop lengths values n i c p cap = (c₁, some (p', cap'))) :
    NoFailure c c₁ ∧ c₁.output = c.output ∧
      p' = p ++ (List.range' i n).flatMap fun j =>
        wireParam (lengths.elim (-1) (·.getD j 0)) (values.bind (·.getD j none)) := by
  rw [bindParamLoop_eq] at h
  have hc : (putFields ((List.range' i n).map (bindField lengths values)) c p cap).1 = c₁ := congrArg Prod.fst h
  have hp := putFields_some (congrArg Prod.snd h)
  rw [List.flatMap_map] at hp
  simp only [bindField_enc] at hp
  refine ⟨?_, ?_, hp⟩
  · rw [← hc]
    exact putFields_noFailure (congrArg Prod.snd h)
  · rw [← hc]
    exact (putFields_takes _ _ _ _).output

/-- The payload of the Bind that `pqwire_send_bind` writes. -/
def bindPayload (portal statement : CStr) (formats : Option (List Int16)) (nFormats : ℕ)
    (lengths : Option (List Int32)) (values : Option (List (Option Bytes))) (nParams : ℕ)
    (resultFormats : Option (List Int16)) (nResultFormats : ℕ) : Bytes :=
  portal.toBytes ++ statement.toBytes ++ wr16Be nFormats ++ Ctx.codeBytes formats nFormats ++ wr16Be nParams ++
    ((List.range nParams).flatMap fun j =>
      wireParam (lengths.elim (-1) (·.getD j 0)) (values.bind (·.getD j none))) ++
    wr16Be nResultFormats ++ Ctx.codeBytes resultFormats nResultFormats

/-- **A Bind that is sent**: `emit_msg` gets the payload, in a context that differs in the
allocations made. -/
theorem sendBind_payload {portal statement : Option CStr} {formats : Option (List Int16)} {nFormats : UInt16}
    {lengths : Option (List Int32)} {values : Option (List (Option Bytes))} {nParams : UInt16}
    {resultFormats : Option (List Int16)} {nResultFormats : UInt16}
    (h : c.sendBind portal statement formats nFormats lengths values nParams resultFormats nResultFormats = (c₁, 0)) :
    ∃ c₂, NoFailure c c₂ ∧ c₂.output = c.output ∧
      c₁ = (c₂.emitMsg (ch 'B') (bindPayload (portal.getD CStr.empty) (statement.getD CStr.empty) formats
        nFormats.toNat lengths values nParams.toNat resultFormats nResultFormats.toNat)).1 := by
  have hne : (-1 : ℤ) ≠ 0 := by decide
  unfold Ctx.sendBind at h
  dsimp only at h
  split at h
  · exact absurd (congrArg Prod.snd h) hne
  rename_i hok
  split at h
  · exact absurd (congrArg Prod.snd h) hne
  split at h
  · exact absurd (congrArg Prod.snd h) hne
  split at h
  · exact absurd (congrArg Prod.snd h) hne
  split at h
  · exact absurd (congrArg Prod.snd h) hne
  rename_i c₂ p cap hl
  split at h
  · exact absurd (congrArg Prod.snd h) hne
  obtain ⟨h1, h2, h3⟩ := bindParamLoop_some hl
  refine ⟨c₂, (NoFailure.allocated (by simpa using hok)).trans h1, h2, ?_⟩
  have h4 : _ = c₁ := congrArg Prod.fst h
  rw [h3, ← List.range_eq_range'] at h4
  exact h4.symm

end Pqwire

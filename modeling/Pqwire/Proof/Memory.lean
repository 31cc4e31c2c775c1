import Pqwire.Proof.Handle
import Pqwire.Spec.Memory

/-!
# The parameter slots on the heap

* `Slot.Denotes`: a slot with its block is a parameter of the model without a heap.
* `injectSlot_leaves`, `injectIdentity_refines`: the helpers do what that model says.
* `Held`: the invariant of an array of slots, kept by every call: the blocks of the heap are
  those that were there and one for each slot that owns its data.
* `slots_safe`: no sequence of calls frees a block twice, stores outside of a block or leaks.
-/

namespace Pqwire

open ByteMem CHeap

variable {base : ℕ → Option Bytes} {l : List (ℕ × Bytes)} {os : List Bool}

namespace Slot

/-- `cell` is the block that the slot owns, with its contents. -/
def Cell (s : Slot) (cell : Option (ℕ × Bytes)) : Prop := cell.map Prod.fst = if s.owned then s.data else none

/-- The slot is the parameter `p`. -/
structure Denotes (s : Slot) (cell : Option (ℕ × Bytes)) (p : Param) : Prop where
  holds : s.Cell cell
  data : s.data = cell.map Prod.fst
  length : s.length = p.length
  owned : s.owned = p.owned
  format : s.format = p.format
  bytes : (cell.map Prod.snd).getD [] = p.data.getD []

theorem cleared_denotes : cleared.Denotes none Pqwire.paramClear := ⟨rfl, rfl, rfl, rfl, rfl, rfl⟩

variable {s : Slot} {cell : Option (ℕ × Bytes)}

theorem paramClear_owns (hc : s.Cell cell) :
    Triple (Owns base (cell.toList ++ l) os) s.paramClear fun s' h => s' = cleared ∧ Owns base l os h := by
  unfold paramClear
  unfold Cell at hc
  split
  · rename_i hfree
    rw [if_pos hfree.1] at hc
    obtain ⟨a, ha⟩ := Option.isSome_iff_exists.1 hfree.2
    rw [ha] at hc ⊢
    obtain ⟨⟨a', b⟩, rfl, rfl⟩ := Option.map_eq_some_iff.1 hc
    exact free_owns.bind fun _ => .pure fun _ ho => ⟨rfl, ho⟩
  · rename_i hkeep
    have hnone : cell = none := by
      rw [← Option.map_eq_none_iff (f := Prod.fst), hc]
      split
      · rename_i ho
        simpa [ho] using hkeep
      · rfl
    subst hnone
    exact .pure fun _ ho => ⟨rfl, ho⟩

/-- What a helper leaves of a slot: the parameter, or a cleared slot and a return of -1. -/
def Leaves (p : Option Param) (base : ℕ → Option Bytes) (l : List (ℕ × Bytes)) (os : List Bool) (r : Slot × ℤ) (h : Heap) :
    Prop :=
  match p with
  | none => r = (cleared, -1) ∧ Owns base l os h
  | some p => r.2 = 0 ∧ ∃ cell, r.1.Denotes cell p ∧ Owns base (cell.toList ++ l) os h

theorem paramSetText_leaves (hc : s.Cell cell) (text : CStr) :
    Triple (Owns base (cell.toList ++ l) os) (s.paramSetText (some text))
      (Leaves (Pqwire.paramSetText text (os.headD true)) base l os.tail) := by
  unfold paramSetText
  refine (paramClear_owns hc).bind fun s' => Triple.assume ?_
  rintro rfl
  refine malloc_owns.bind fun d => ?_
  by_cases hok : os.headD true = true
  · simp only [hok, if_true]
    refine Triple.ex fun a => Triple.ex fun b => Triple.assume ?_
    rintro rfl
    refine Triple.assume fun hb => ?_
    have hpure : Pqwire.paramSetText text true = some ⟨toI32 text.length, some text.bytes, true, 0⟩ := by
      simp [Pqwire.paramSetText]
    rw [hpure, if_neg (by simp)]
    split
    · have hlen : text.bytes.length = b.length := hb.symm
      refine (storeAt_owns hlen).bind fun _ => .pure ?_
      intro h ho
      exact ⟨rfl, some (a, text.bytes), ⟨rfl, rfl, rfl, rfl, rfl, rfl⟩, ho⟩
    · -- a block without bytes
      rename_i h0
      have hnil : text.bytes = [] := List.length_eq_zero_iff.1 (by unfold CStr.length at h0; omega)
      have hempty : b = [] := List.length_eq_zero_iff.1 (by omega)
      refine .pure ?_
      intro h ho
      refine ⟨rfl, some (a, b), ⟨rfl, rfl, rfl, rfl, rfl, ?_⟩, ho⟩
      change b = text.bytes
      rw [hempty, hnil]
  · simp only [hok, Bool.false_eq_true, if_false]
    refine Triple.assume ?_
    rintro rfl
    by_cases h0 : text.length > 0
    · have hpure : Pqwire.paramSetText text false = none := by simp [Pqwire.paramSetText, h0]
      rw [hpure, if_pos ⟨rfl, h0⟩]
      exact .pure fun h ho => ⟨rfl, ho⟩
    · have hpure : Pqwire.paramSetText text false = some ⟨toI32 text.length, some text.bytes, true, 0⟩ := by
        simp [Pqwire.paramSetText, h0]
      have hnil : text.bytes = [] := List.length_eq_zero_iff.1 (by unfold CStr.length at h0; omega)
      rw [hpure, if_neg (by simp [h0]), if_neg h0]
      refine .pure ?_
      intro h ho
      refine ⟨rfl, none, ⟨rfl, rfl, rfl, rfl, rfl, ?_⟩, ho⟩
      change [] = text.bytes
      exact hnil.symm

theorem bytesOf_triple {P : Heap → Prop} {data : Option Bytes} {len : ℕ} (hle : len ≤ (data.getD []).length) :
    Triple P (bytesOf data len) fun bs h => bs = (data.getD []).take len ∧ P h := by
  unfold bytesOf
  rw [if_pos hle]
  exact .pure fun h hp => ⟨rfl, hp⟩

theorem paramSetBinary_leaves (hc : s.Cell cell) {data : Option Bytes} {len : ℕ} (hle : len ≤ (data.getD []).length) :
    Triple (Owns base (cell.toList ++ l) os) (s.paramSetBinary data len)
      (Leaves (Pqwire.paramSetBinary ((data.getD []).take len) (os.headD true)) base l (if len = 0 then os else os.tail)) := by
  have hlen : ((data.getD []).take len).length = len := List.length_take_of_le hle
  unfold paramSetBinary
  refine (paramClear_owns hc).bind fun s' => Triple.assume ?_
  rintro rfl
  have hdata : ¬(len > 0 ∧ data = none) := by
    rintro ⟨hpos, rfl⟩
    exact absurd hle (by simpa using hpos.ne')
  rw [if_neg hdata]
  by_cases h0 : len = 0
  · rw [if_pos h0, if_pos h0, h0]
    refine .pure ?_
    intro h ho
    exact ⟨rfl, none, ⟨rfl, rfl, rfl, rfl, rfl, rfl⟩, ho⟩
  · have hne : (data.getD []).take len ≠ [] := by
      intro hnil
      rw [hnil] at hlen
      exact h0 hlen.symm
    rw [if_neg h0, if_neg h0]
    refine malloc_owns.bind fun d => ?_
    unfold Pqwire.paramSetBinary
    rw [if_neg hne]
    by_cases hok : os.headD true = true
    · simp only [hok, if_true, not_true_eq_false, if_false]
      refine Triple.ex fun a => Triple.ex fun b => Triple.assume ?_
      rintro rfl
      refine Triple.assume fun hb => ?_
      rw [if_neg (by simp)]
      refine (bytesOf_triple hle).bind fun bs => Triple.assume ?_
      rintro rfl
      refine (storeAt_owns (hlen.trans hb.symm)).bind fun _ => .pure ?_
      intro h ho
      refine ⟨rfl, some (a, (data.getD []).take len), ⟨rfl, rfl, ?_, rfl, rfl, rfl⟩, ho⟩
      change toI32 len = toI32 ((data.getD []).take len).length
      rw [hlen]
    · simp only [hok, Bool.false_eq_true, not_false_eq_true, if_true, if_false]
      refine Triple.assume ?_
      rintro rfl
      rw [if_pos rfl]
      exact .pure fun h ho => ⟨rfl, ho⟩

/-- A null pointer to bytes is refused, but the slot has been cleared by then. -/
theorem paramSetBinary_null (hc : s.Cell cell) {len : ℕ} (hpos : 0 < len) :
    Triple (Owns base (cell.toList ++ l) os) (s.paramSetBinary none len)
      fun r h => r = (cleared, -1) ∧ Owns base l os h := by
  unfold paramSetBinary
  refine (paramClear_owns hc).bind fun s' => Triple.assume ?_
  rintro rfl
  rw [if_pos ⟨hpos, rfl⟩]
  exact .pure fun h ho => ⟨rfl, ho⟩

theorem paramSetNull_leaves (hc : s.Cell cell) :
    Triple (Owns base (cell.toList ++ l) os) s.paramSetNull fun s' h => s' = cleared ∧ Owns base l os h := by
  unfold paramSetNull
  refine (paramClear_owns hc).bind fun s' => Triple.assume ?_
  rintro rfl
  exact .pure fun h ho => ⟨rfl, ho⟩

/-- A block that is not the slot's may be freed behind a helper. -/
theorem Leaves.free {p : Option Param} {r : Slot × ℤ} {a : ℕ} {b : Bytes} :
    Triple (Leaves p base ((a, b) :: l) os r) (CHeap.free (some a)) fun _ => Leaves p base l os r := by
  cases p with
  | none => exact Triple.assume fun hr => free_owns.conseq (fun _ h => h) fun _ _ ho => ⟨hr, ho⟩
  | some p =>
    refine Triple.assume fun hr => Triple.ex fun cell => Triple.assume fun hd => ?_
    refine free_owns.conseq (P := Owns base ((a, b) :: (cell.toList ++ l)) os) ?_ fun _ _ ho => ⟨hr, cell, hd, ho⟩
    intro h ho
    exact ho.perm List.perm_middle

end Slot

/-! ## The identity injection -/

/-- The copy with a terminator holds the string that the model takes from the bytes. -/
theorem cstrOf_readCstr (bs : Bytes) : ∃ k, readCstr (bs ++ [0]) = some (cstrOf bs, k) := by
  unfold cstrOf
  cases hr : readCstr (bs ++ [0]) with
  | none => exact absurd (List.mem_append_right bs List.mem_cons_self) (readCstr_none.1 hr)
  | some r => exact ⟨r.2, rfl⟩

theorem BindParamView.take_memory (mem : Bytes) (v : BindParamView) :
    ((v.memory mem).getD []).take v.length.toInt.toNat = v.bytes mem := by
  unfold BindParamView.memory BindParamView.bytes slice
  cases v.data with
  | none => exact List.take_nil
  | some p => rfl

theorem injectText_leaves (mem : Bytes) {v : BindParamView}
    (hv : v.length.toInt.toNat ≤ ((v.memory mem).getD []).length) :
    Triple (Owns base l os) (injectText mem v Slot.cleared)
      (Slot.Leaves (if os.headD true then paramSetText (cstrOf (v.bytes mem)) (os.tail.headD true) else none) base l
        (if os.headD true then os.tail.tail else os.tail)) := by
  have hbytes := v.take_memory mem
  have hlen : (v.bytes mem).length = v.length.toInt.toNat := by
    rw [← hbytes]
    exact List.length_take_of_le hv
  unfold injectText
  dsimp only
  refine malloc_owns.bind fun d => ?_
  by_cases hok : os.headD true = true
  · simp only [hok, if_true]
    refine Triple.ex fun a => Triple.ex fun b => Triple.assume ?_
    rintro rfl
    refine Triple.assume fun hb => ?_
    dsimp only
    refine (Slot.bytesOf_triple hv).bind fun bs => Triple.assume ?_
    rw [hbytes]
    rintro rfl
    -- the copy fills the block but for one byte, and the terminator takes that
    have hfirst : blit b 0 (v.bytes mem) = v.bytes mem ++ b.drop v.length.toInt.toNat := by
      unfold blit
      rw [List.take_zero, List.nil_append, Nat.zero_add, hlen]
    have hlast : blit (v.bytes mem ++ b.drop v.length.toInt.toNat) v.length.toInt.toNat [0] = v.bytes mem ++ [0] := by
      unfold blit
      rw [← hlen, List.take_left, List.drop_eq_nil_of_le, List.append_nil]
      simp [hlen, hb]
    obtain ⟨k, hk⟩ := cstrOf_readCstr (v.bytes mem)
    refine (store_owns (by omega)).bind fun _ => ?_
    rw [hfirst]
    refine (store_owns (by simp [hlen, hb])).bind fun _ => ?_
    rw [hlast]
    refine (loadCstr_owns hk).bind fun text => Triple.assume ?_
    rintro rfl
    refine (Slot.paramSetText_leaves Slot.cleared_denotes.holds _).bind fun r => ?_
    refine Slot.Leaves.free.bind fun _ => .pure ?_
    intro h hr
    -- the helper's return value is passed on
    cases hp : paramSetText (cstrOf (v.bytes mem)) (os.tail.headD true) with
    | none =>
      rw [hp] at hr
      obtain ⟨rfl, ho⟩ := hr
      exact ⟨rfl, ho⟩
    | some p =>
      rw [hp] at hr
      obtain ⟨h0, hrest⟩ := hr
      exact ⟨by rw [h0]; rfl, hrest⟩
  · simp only [hok, Bool.false_eq_true, if_false]
    refine Triple.assume ?_
    rintro rfl
    exact .pure fun h ho => ⟨rfl, ho⟩

/-- The parameter that a round of the model without a heap gives. -/
def injectedParam (mem : Bytes) (b : BindMsg) (slot : ℕ) (identity : CStr) (asBinary : Bool) (i : ℕ) (ok : Bool × Bool) :
    Option Param :=
  if i = slot then if asBinary then paramSetBinary identity.bytes ok.1 else paramSetText identity ok.1
  else injectOther mem (b.param i) ok.1 ok.2

/-- The slots and the memory that a Bind needs. -/
structure BindMsg.Readable (b : BindMsg) (mem : Bytes) : Prop where
  views : ∀ i < b.nParams, (b.param i).length.toInt.toNat ≤ (((b.param i).memory mem).getD []).length

theorem tail_unless_suffix (os : List Bool) (n : ℕ) : (if n = 0 then os else os.tail) <:+ os := by
  split
  · exact List.suffix_rfl
  · exact List.tail_suffix os

/-- **A round leaves the parameter of the model**, with the outcomes of its own allocations. -/
theorem injectSlot_leaves (mem : Bytes) {b : BindMsg} (hb : b.Readable mem) (slot : ℕ) (identity : CStr) (asBinary : Bool)
    {i : ℕ} (hi : i < b.nParams) {s : Slot} {cell : Option (ℕ × Bytes)} (hc : s.Cell cell) :
    Triple (Owns base (cell.toList ++ l) os) (injectSlot mem b slot identity asBinary i s) fun r h =>
      ∃ os', os' <:+ os ∧
        Slot.Leaves (injectedParam mem b slot identity asBinary i (os.headD true, os.tail.headD true)) base l os' r h := by
  unfold injectSlot injectedParam
  dsimp only
  refine (Slot.paramClear_owns hc).bind fun s' => Triple.assume ?_
  rintro rfl
  have hnone : Slot.cleared.Cell none := Slot.cleared_denotes.holds
  split
  · split
    · have hle : identity.length ≤ ((some identity.bytes).getD []).length := le_rfl
      refine (Slot.paramSetBinary_leaves hnone hle).conseq (fun _ ho => ho) ?_
      intro r h hr
      have hfull : ((some identity.bytes).getD []).take identity.length = identity.bytes := List.take_length
      rw [hfull] at hr
      exact ⟨_, tail_unless_suffix os _, hr⟩
    · exact (Slot.paramSetText_leaves hnone identity).conseq (fun _ ho => ho) fun r h hr => ⟨_, List.tail_suffix os, hr⟩
  · unfold injectOther
    split
    · refine (Slot.paramSetNull_leaves hnone).bind fun s' => Triple.assume ?_
      rintro rfl
      refine .pure ?_
      intro h ho
      exact ⟨os, List.suffix_rfl, rfl, none, ⟨rfl, rfl, rfl, rfl, rfl, rfl⟩, ho⟩
    split
    · refine (Slot.paramSetBinary_leaves hnone (hb.views i hi)).conseq (fun _ ho => ho) ?_
      intro r h hr
      rw [(b.param i).take_memory mem] at hr
      exact ⟨_, tail_unless_suffix os _, hr⟩
    · refine (injectText_leaves mem (hb.views i hi)).conseq (fun _ ho => ho) ?_
      intro r h hr
      by_cases hok : os.headD true = true
      · rw [if_pos hok, if_pos hok] at hr
        rw [if_neg (not_not.2 hok)]
        exact ⟨_, (List.tail_suffix os.tail).trans (List.tail_suffix os), hr⟩
      · rw [if_neg hok, if_neg hok] at hr
        rw [if_pos hok]
        exact ⟨_, List.tail_suffix os, hr⟩

/-! ## Arrays of slots -/

/-- The blocks of slots that stand with what they own. -/
def cellBlocks (hs : List (Slot × Option (ℕ × Bytes))) : List (ℕ × Bytes) := hs.filterMap Prod.snd

theorem cellBlocks_set {hs : List (Slot × Option (ℕ × Bytes))} {i : ℕ} (hi : i < hs.length)
    (x : Slot × Option (ℕ × Bytes)) : (cellBlocks (hs.set i x)).Perm (x.2.toList ++ cellBlocks (hs.eraseIdx i)) := by
  unfold cellBlocks
  rw [List.set_eq_take_append_cons_drop, if_pos hi, List.eraseIdx_eq_take_drop_succ, List.filterMap_append,
    List.filterMap_append]
  have hcons : (x :: hs.drop (i + 1)).filterMap Prod.snd = x.2.toList ++ (hs.drop (i + 1)).filterMap Prod.snd := by
    cases hx : x.2 with
    | none => rw [List.filterMap_cons_none hx]; rfl
    | some c => rw [List.filterMap_cons_some hx]; rfl
  rw [hcons, ← List.append_assoc, ← List.append_assoc]
  exact List.perm_append_comm.append_right _

/-- The heap holds the blocks of the slots, each slot its own, besides the blocks of `base`. -/
structure Held (base : ℕ → Option Bytes) (hs : List (Slot × Option (ℕ × Bytes))) (os : List Bool) (h : Heap) : Prop where
  cells : ∀ x ∈ hs, x.1.Cell x.2
  owns : Owns base (cellBlocks hs) os h

variable {hs : List (Slot × Option (ℕ × Bytes))} {i : ℕ} {s : Slot} {cell : Option (ℕ × Bytes)} {h : Heap}

/-- One slot of an array and the blocks of the others. -/
theorem Held.slot (hh : Held base hs os h) (hi : hs[i]? = some (s, cell)) :
    s.Cell cell ∧ Owns base (cell.toList ++ cellBlocks (hs.eraseIdx i)) os h := by
  obtain ⟨hlt, hget⟩ := List.getElem?_eq_some_iff.1 hi
  refine ⟨hh.cells (s, cell) (List.mem_of_getElem? hi), ?_⟩
  have hperm := cellBlocks_set hlt hs[i]
  rw [List.set_getElem_self] at hperm
  rw [hget] at hperm
  exact hh.owns.perm hperm

theorem Held.set {h' : Heap} {os' : List Bool} {s' : Slot} {cell' : Option (ℕ × Bytes)} (hcells : ∀ x ∈ hs, x.1.Cell x.2)
    (hi : i < hs.length) (hc : s'.Cell cell') (ho : Owns base (cell'.toList ++ cellBlocks (hs.eraseIdx i)) os' h') :
    Held base (hs.set i (s', cell')) os' h' := by
  refine ⟨?_, ho.perm (cellBlocks_set hi (s', cell')).symm⟩
  intro x hx
  rcases List.mem_or_eq_of_mem_set hx with hx | rfl
  · exact hcells x hx
  · exact hc

theorem injectLoop_succ (mem : Bytes) (b : BindMsg) (slot : ℕ) (identity : CStr) (asBinary : Bool) (ok : ℕ → Bool × Bool)
    (n i : ℕ) :
    injectLoop mem b slot identity asBinary ok (n + 1) i =
      (injectedParam mem b slot identity asBinary i (ok i)).bind fun p =>
        (injectLoop mem b slot identity asBinary ok n (i + 1)).map fun ps => p :: ps := by
  rw [injectLoop]
  unfold injectedParam
  simp only [Option.bind_eq_bind, Option.pure_def, Option.map_eq_bind]
  split
  · split <;> rfl
  · rfl

/-- The loop looks at the outcomes from its own parameter on. -/
theorem injectLoop_congr {mem : Bytes} {b : BindMsg} {slot : ℕ} {identity : CStr} {asBinary : Bool}
    {ok ok' : ℕ → Bool × Bool} {n i : ℕ} (hok : ∀ j, i ≤ j → ok j = ok' j) :
    injectLoop mem b slot identity asBinary ok n i = injectLoop mem b slot identity asBinary ok' n i := by
  induction n generalizing i with
  | zero => rfl
  | succ n ih => rw [injectLoop_succ, injectLoop_succ, hok i le_rfl, ih fun j hj => hok j (by omega)]

/-- What the injection leaves: the slots from `i` on are the parameters of the model, or it has
failed as the model does; the other slots are as they were. The model fails an allocation only
where one of `os` fails. -/
def Injected (mem : Bytes) (b : BindMsg) (slot : ℕ) (identity : CStr) (asBinary : Bool) (base : ℕ → Option Bytes)
    (hs : List (Slot × Option (ℕ × Bytes))) (os : List Bool) (n i : ℕ) (r : List Slot × ℤ) (h : Heap) : Prop :=
  ∃ hs' os' ok, ((∀ o ∈ os, o = true) → ∀ j, ok j = (true, true)) ∧ r.1 = hs'.map Prod.fst ∧ Held base hs' os' h ∧ hs'.length = hs.length ∧
    (∀ j, j < i ∨ i + n ≤ j → hs'[j]? = hs[j]?) ∧
    match injectLoop mem b slot identity asBinary ok n i with
    | none => r.2 = -1
    | some ps => r.2 = 0 ∧ ∀ j < n, ∃ s cell p, hs'[i + j]? = some (s, cell) ∧ ps[j]? = some p ∧ s.Denotes cell p

theorem headD_of_all {os : List Bool} (hall : ∀ o ∈ os, o = true) : os.headD true = true := by
  cases os with
  | nil => rfl
  | cons o os => exact hall o List.mem_cons_self

/-- **The loop of the injection refines that of the model.** -/
theorem injectSlots_injected (mem : Bytes) {b : BindMsg} (hb : b.Readable mem) (slot : ℕ) (identity : CStr)
    (asBinary : Bool) {n i : ℕ} (hn : i + n ≤ b.nParams) (hlen : b.nParams ≤ hs.length) :
    Triple (Held base hs os) (injectSlots mem b slot identity asBinary n i (hs.map Prod.fst))
      (Injected mem b slot identity asBinary base hs os n i) := by
  induction n generalizing i hs os with
  | zero =>
    refine .pure ?_
    intro h hh
    refine ⟨hs, os, fun _ => (true, true), fun _ _ => rfl, rfl, hh, rfl, fun _ _ => rfl, ?_⟩
    change (0 : ℤ) = 0 ∧ _
    exact ⟨rfl, fun j hj => absurd hj (Nat.not_lt_zero j)⟩
  | succ n ih =>
    intro h hh
    have hlt : i < hs.length := by omega
    obtain ⟨s, cell, hget⟩ : ∃ s cell, hs[i]? = some (s, cell) := ⟨_, _, List.getElem?_eq_getElem hlt⟩
    obtain ⟨hc, ho⟩ := hh.slot hget
    have hslot : (hs.map Prod.fst).getD i Slot.cleared = s := by
      rw [List.getD_eq_getElem?_getD, List.getElem?_map, hget]
      rfl
    have hround := @injectSlot_leaves base (cellBlocks (hs.eraseIdx i)) os mem b hb slot identity asBinary i (by omega) s cell hc
    set ok₀ := (os.headD true, os.tail.headD true)
    have hok₀ : (∀ o ∈ os, o = true) → ok₀ = (true, true) := by
      intro hall
      exact Prod.ext (headD_of_all hall) (headD_of_all fun o ho => hall o (List.mem_of_mem_tail ho))
    unfold injectSlots
    rw [hslot]
    refine (hround.bind fun r => Triple.ex fun os' => Triple.assume fun hsuf => ?_) h ho
    cases hp : injectedParam mem b slot identity asBinary i ok₀ with
    | none =>
      refine Triple.assume ?_
      rintro rfl
      rw [if_pos (by decide)]
      refine .pure ?_
      intro h' ho'
      refine ⟨hs.set i (Slot.cleared, none), os', fun _ => ok₀, fun hall _ => hok₀ hall, ?_, ?_, List.length_set, ?_, ?_⟩
      · rw [List.map_set]
      · exact Held.set hh.cells hlt Slot.cleared_denotes.holds ho'
      · intro j hj
        rw [List.getElem?_set_ne (by omega)]
      · rw [injectLoop_succ, hp]
        rfl
    | some p =>
      refine Triple.assume fun hr => Triple.ex fun cell' => Triple.assume fun hd => ?_
      rw [if_neg (not_not.2 hr)]
      have hlen' : b.nParams ≤ (hs.set i (r.1, cell')).length := by
        rw [List.length_set]
        exact hlen
      have hrest := fun {os} => @ih os (hs.set i (r.1, cell')) (i + 1) (by omega) hlen'
      rw [List.map_set] at hrest
      refine hrest.conseq (fun h' ho' => Held.set hh.cells hlt hd.holds ho') ?_
      rintro r' h' ⟨hs', os'', ok, hall, hslots, hheld, hlen', hframe, hres⟩
      have hok : injectLoop mem b slot identity asBinary (Function.update ok i ok₀) n (i + 1) =
          injectLoop mem b slot identity asBinary ok n (i + 1) :=
        injectLoop_congr fun j hj => Function.update_of_ne (by omega) _ _
      refine ⟨hs', os'', Function.update ok i ok₀, ?_, hslots, hheld, hlen'.trans List.length_set, ?_, ?_⟩
      · intro hos j
        by_cases hj : j = i
        · rw [hj, Function.update_self]
          exact hok₀ hos
        · rw [Function.update_of_ne hj]
          exact hall (fun o ho => hos o (hsuf.subset ho)) j
      · intro j hj
        rw [hframe j (by omega), List.getElem?_set_ne (by omega)]
      · rw [injectLoop_succ, Function.update_self, hp, hok, Option.bind_some]
        cases hloop : injectLoop mem b slot identity asBinary ok n (i + 1) with
        | none =>
          rw [hloop] at hres
          exact hres
        | some ps =>
          rw [hloop] at hres
          refine ⟨hres.1, ?_⟩
          intro j hj
          rcases j with _ | j
          · -- this round's slot has not been touched since
            refine ⟨r.1, cell', p, ?_, rfl, hd⟩
            rw [Nat.add_zero, hframe i (by omega), List.getElem?_set_self hlt]
          · obtain ⟨s', c', p', h1, h2, h3⟩ := hres.2 j (by omega)
            refine ⟨s', c', p', ?_, h2, h3⟩
            rw [← h1]
            congr 1
            omega

theorem Slot.Denotes.same {p : Param} (hd : s.Denotes cell p) (hmem : ∀ x, cell = some x → h.blocks x.1 = some x.2) :
    (s.toParam h).Same p := by
  refine ⟨hd.length, hd.owned, hd.format, ?_⟩
  rw [← hd.bytes]
  change (s.data.bind h.blocks).getD [] = _
  rw [hd.data]
  cases cell with
  | none => rfl
  | some x =>
    rw [Option.map_some, Option.bind_some, hmem x rfl]
    rfl

theorem injectLoop_length {mem : Bytes} {b : BindMsg} {slot : ℕ} {identity : CStr} {asBinary : Bool} {ok : ℕ → Bool × Bool}
    {n i : ℕ} {ps : List Param} (hps : injectLoop mem b slot identity asBinary ok n i = some ps) : ps.length = n := by
  induction n generalizing i ps with
  | zero =>
    cases hps
    rfl
  | succ n ih =>
    rw [injectLoop_succ] at hps
    obtain ⟨p, -, hps⟩ := Option.bind_eq_some_iff.1 hps
    obtain ⟨ps', hloop, rfl⟩ := Option.map_eq_some_iff.1 hps
    rw [List.length_cons, ih hloop]

/-- **The identity injection on the heap.** Whatever the allocations do, it runs without undefined
behaviour, frees what it has to free and keeps every block owned by one slot; for the outcomes of
its allocations it returns what the model without a heap returns, and then its slots denote the
parameters of that model. Where no allocation fails, none fails in the model. -/
theorem injectIdentity_refines {mem : Bytes} {b : BindMsg} (hb : b.Readable mem) (hlen : b.nParams ≤ hs.length)
    (hh : Held base hs os h) (slot : UInt16) (identity : CStr) (asBinary : Bool) :
    ∃ (slots' : List Slot) (r : ℤ) (h' : Heap) (ok : ℕ → Bool × Bool),
      injectIdentity mem b (hs.map Prod.fst) slot identity asBinary h = some ((slots', r), h') ∧
      ((∀ o ∈ os, o = true) → ∀ j, ok j = (true, true)) ∧
      (∃ hs' os', slots' = hs'.map Prod.fst ∧ Held base hs' os' h') ∧
      match bindInjectIdentity mem b slot identity asBinary ok with
      | none => r = -1
      | some ps => r = 0 ∧ ps.length = b.nParams ∧
          ∀ (j : ℕ) (p : Param), ps[j]? = some p → ∃ s : Slot, slots'[j]? = some s ∧ (s.toParam h').Same p := by
  unfold injectIdentity bindInjectIdentity
  by_cases h1 : slot.toNat ≥ b.nParams ∧ b.nParams > 0
  · rw [if_pos h1]
    refine ⟨_, -1, h, fun _ => (true, true), rfl, fun _ _ => rfl, ⟨hs, os, rfl, hh⟩, ?_⟩
    rw [if_pos h1]
  rw [if_neg h1]
  by_cases h2 : b.nParams = 0
  · rw [if_pos h2]
    refine ⟨_, -1, h, fun _ => (true, true), rfl, fun _ _ => rfl, ⟨hs, os, rfl, hh⟩, ?_⟩
    rw [if_neg h1, if_pos h2]
  rw [if_neg h2]
  obtain ⟨⟨slots', r⟩, h', hrun, hs', os', ok, hok, hslots, hheld, -, -, hres⟩ :=
    injectSlots_injected mem hb slot.toNat identity asBinary (n := b.nParams) (i := 0) (by omega) hlen h hh
  refine ⟨slots', r, h', ok, hrun, hok, ⟨hs', os', hslots, hheld⟩, ?_⟩
  rw [if_neg h1, if_neg h2]
  cases hloop : injectLoop mem b slot.toNat identity asBinary ok b.nParams 0 with
  | none =>
    rw [hloop] at hres
    exact hres
  | some ps =>
    rw [hloop] at hres
    have hpl := injectLoop_length hloop
    refine ⟨hres.1, hpl, ?_⟩
    intro j p hj
    obtain ⟨hjl, -⟩ := List.getElem?_eq_some_iff.1 hj
    obtain ⟨s, cell, p', hget, hp', hd⟩ := hres.2 j (by omega)
    rw [Nat.zero_add] at hget
    rw [hj] at hp'
    cases hp'
    refine ⟨s, ?_, hd.same ?_⟩
    · rw [show slots' = hs'.map Prod.fst from hslots, List.getElem?_map, hget]
      rfl
    · rintro x rfl
      exact hheld.owns.held x (List.mem_filterMap.2 ⟨(s, some x), List.mem_of_getElem? hget, rfl⟩)

/-- A heap with no blocks, on which the next allocations come out as `os` says. -/
def emptyHeap (os : List Bool) : Heap := ⟨fun _ => none, 0, os, fun _ i => UInt8.ofNat i⟩

/-- A Bind with two parameters, an empty one and the byte `A` in text format. -/
def pairMsg : BindMsg :=
  ⟨CStr.empty, CStr.empty, 0, [], 2, [⟨0, some 0, 0⟩, ⟨1, some 0, 0⟩], 0, [], 0, 1⟩

theorem pairMsg_readable : pairMsg.Readable [65] := by
  refine ⟨?_⟩
  intro i hi
  change i < 2 at hi
  rcases i with _ | _ | i
  · decide
  · decide
  · omega

/-- Both parameters are copied to the heap, the first as the identity `u`. -/
theorem injectIdentity_refines_pair :
    ∃ slots' h', injectIdentity [65] pairMsg [Slot.cleared, Slot.cleared] 0 ⟨[117], by decide⟩ false (emptyHeap []) =
        some ((slots', 0), h') ∧
      ∃ s t : Slot, slots'[0]? = some s ∧ (s.toParam h').Same ⟨1, some [117], true, 0⟩ ∧
        slots'[1]? = some t ∧ (t.toParam h').Same ⟨1, some [65], true, 0⟩ := by
  have hheld : Held (emptyHeap []).blocks [(Slot.cleared, none), (Slot.cleared, none)] [] (emptyHeap []) := by
    refine ⟨?_, Owns.start _ fun _ _ => rfl⟩
    intro x hx
    rw [List.eq_of_mem_replicate (n := 2) hx]
    exact Slot.cleared_denotes.holds
  obtain ⟨slots', r, h', ok, hrun, hok, -, hres⟩ :=
    injectIdentity_refines pairMsg_readable (by decide) hheld 0 ⟨[117], by decide⟩ false
  have hall : ok = fun _ => (true, true) := funext fun j => hok (by simp) j
  have hps : bindInjectIdentity [65] pairMsg 0 ⟨[117], by decide⟩ false (fun _ => (true, true)) =
      some [⟨1, some [117], true, 0⟩, ⟨1, some [65], true, 0⟩] := by decide
  rw [hall, hps] at hres
  obtain ⟨rfl, -, hslots⟩ := hres
  obtain ⟨s, hs, hsame⟩ := hslots 0 _ rfl
  obtain ⟨t, ht, hsame'⟩ := hslots 1 _ rfl
  exact ⟨slots', h', hrun, s, t, hs, hsame, ht, hsame'⟩

/-! ## Runs -/

namespace SlotCall

/-- A helper on one slot: what it leaves of the slot and of its block. -/
def Tidy (f : Slot → HeapM Slot) : Prop :=
  ∀ {base : ℕ → Option Bytes} {l : List (ℕ × Bytes)} {os : List Bool} {s : Slot} {cell : Option (ℕ × Bytes)}, s.Cell cell →
    Triple (Owns base (cell.toList ++ l) os) (f s) fun s' h =>
      ∃ cell' os', s'.Cell cell' ∧ Owns base (cell'.toList ++ l) os' h

theorem tidy_cleared {f : Slot → HeapM Slot}
    (hf : ∀ {base : ℕ → Option Bytes} {l : List (ℕ × Bytes)} {os : List Bool} {s : Slot} {cell : Option (ℕ × Bytes)},
      s.Cell cell → Triple (Owns base (cell.toList ++ l) os) (f s) fun s' h => s' = Slot.cleared ∧ Owns base l os h) :
    Tidy f := by
  intro base l os s cell hc
  refine (hf hc).conseq (fun _ ho => ho) ?_
  rintro s' h ⟨rfl, ho⟩
  exact ⟨none, os, Slot.cleared_denotes.holds, ho⟩

theorem leaves_tidy {p : Option Param} {r : Slot × ℤ} (hr : Slot.Leaves p base l os r h) :
    ∃ cell' os', r.1.Cell cell' ∧ Owns base (cell'.toList ++ l) os' h := by
  cases p with
  | none =>
    obtain ⟨rfl, ho⟩ := hr
    exact ⟨none, os, Slot.cleared_denotes.holds, ho⟩
  | some p =>
    obtain ⟨-, cell, hd, ho⟩ := hr
    exact ⟨cell, os, hd.holds, ho⟩

theorem setText_tidy (text : Option CStr) : Tidy fun s => do return (← s.paramSetText text).1 := by
  intro base l os s cell hc
  cases text with
  | none => exact .pure fun h ho => ⟨cell, os, hc, ho⟩
  | some text => exact (Slot.paramSetText_leaves hc text).bind fun r => .pure fun h hr => leaves_tidy hr

theorem setBinary_tidy {data : Option Bytes} {len : ℕ} (hd : ∀ d ∈ data, len ≤ d.length) :
    Tidy fun s => do return (← s.paramSetBinary data len).1 := by
  intro base l os s cell hc
  by_cases hnull : data = none ∧ 0 < len
  · obtain ⟨rfl, hpos⟩ := hnull
    refine (Slot.paramSetBinary_null hc hpos).bind fun r => Triple.assume ?_
    rintro rfl
    exact .pure fun h ho => ⟨none, os, Slot.cleared_denotes.holds, ho⟩
  · have hle : len ≤ (data.getD []).length := by
      cases data with
      | none =>
        rw [not_and] at hnull
        have := hnull rfl
        omega
      | some d => exact hd d rfl
    exact (Slot.paramSetBinary_leaves hc hle).bind fun r => .pure fun h hr => leaves_tidy hr

/-- A call on one slot keeps the array in order. -/
theorem onSlot_held {f : Slot → HeapM Slot} (hf : Tidy f) (hi : i < hs.length) :
    Triple (Held base hs os) (onSlot (hs.map Prod.fst) i f) fun slots h =>
      ∃ hs' os', slots = hs'.map Prod.fst ∧ hs'.length = hs.length ∧ Held base hs' os' h := by
  intro h hh
  obtain ⟨s, cell, hget⟩ : ∃ s cell, hs[i]? = some (s, cell) := ⟨_, _, List.getElem?_eq_getElem hi⟩
  obtain ⟨hc, ho⟩ := hh.slot hget
  have hslot : (hs.map Prod.fst).getD i Slot.cleared = s := by
    rw [List.getD_eq_getElem?_getD, List.getElem?_map, hget]
    rfl
  unfold onSlot
  rw [hslot]
  refine ((hf hc).bind fun s' => .pure ?_) h ho
  rintro h' ⟨cell', os', hc', ho'⟩
  exact ⟨hs.set i (s', cell'), os', by rw [List.map_set], List.length_set, Held.set hh.cells hi hc' ho'⟩

theorem run_held {call : SlotCall} (hv : call.Valid hs.length) :
    Triple (Held base hs os) (call.run (hs.map Prod.fst)) fun slots h =>
      ∃ hs' os', slots = hs'.map Prod.fst ∧ hs'.length = hs.length ∧ Held base hs' os' h := by
  cases call with
  | clear i => exact onSlot_held (tidy_cleared fun hc => Slot.paramClear_owns hc) hv
  | setText i text => exact onSlot_held (setText_tidy text) hv
  | setBinary i data len => exact onSlot_held (setBinary_tidy hv.2) hv.1
  | setNull i => exact onSlot_held (tidy_cleared fun hc => Slot.paramSetNull_leaves hc) hv
  | inject mem b slot identity asBinary =>
    obtain ⟨hlen, hviews⟩ := hv
    unfold run injectIdentity
    dsimp only
    split
    · exact .pure fun h hh => ⟨hs, os, rfl, rfl, hh⟩
    split
    · exact .pure fun h hh => ⟨hs, os, rfl, rfl, hh⟩
    · refine (injectSlots_injected mem ⟨hviews⟩ slot.toNat identity asBinary (by omega) hlen).bind fun r => .pure ?_
      rintro h ⟨hs', os', ok, -, hslots, hheld, hlen', -⟩
      exact ⟨hs', os', hslots, hlen', hheld⟩

theorem runAll_held {calls : List SlotCall} (hv : ∀ call ∈ calls, call.Valid hs.length) :
    Triple (Held base hs os) (runAll calls (hs.map Prod.fst)) fun slots h =>
      ∃ hs' os', slots = hs'.map Prod.fst ∧ hs'.length = hs.length ∧ Held base hs' os' h := by
  induction calls generalizing hs os with
  | nil => exact .pure fun h hh => ⟨hs, os, rfl, rfl, hh⟩
  | cons call calls ih =>
    refine (run_held (hv call List.mem_cons_self)).bind fun slots => Triple.ex fun hs₁ => Triple.ex fun os₁ => ?_
    refine Triple.assume ?_
    rintro rfl
    refine Triple.assume fun hlen => ?_
    refine (ih fun c hc => hlen ▸ hv c (List.mem_cons_of_mem _ hc)).conseq (fun _ hh => hh) ?_
    rintro slots h ⟨hs', os', h1, h2, h3⟩
    exact ⟨hs', os', h1, h2.trans hlen, h3⟩

/-- Clearing every slot frees all their blocks. -/
theorem clearAll_owns (hc : ∀ x ∈ hs, x.1.Cell x.2) :
    Triple (Owns base (cellBlocks hs ++ l) os) (clearAll (hs.map Prod.fst)) fun _ h => Owns base l os h := by
  induction hs with
  | nil => exact .pure fun h ho => ho
  | cons x hs ih =>
    have hx : cellBlocks (x :: hs) = x.2.toList ++ cellBlocks hs := by
      unfold cellBlocks
      cases hx : x.2 with
      | none => rw [List.filterMap_cons_none hx]; rfl
      | some c => rw [List.filterMap_cons_some hx]; rfl
    rw [hx, List.append_assoc]
    refine (Slot.paramClear_owns (hc x List.mem_cons_self)).bind fun s => Triple.assume fun _ => ?_
    exact (ih fun y hy => hc y (List.mem_cons_of_mem _ hy)).bind fun _ => .pure fun _ ho => ho

end SlotCall

/-- The pointers that slots own are those of their blocks. -/
theorem Held.blocks (hh : Held base hs os h) : (hs.map Prod.fst).filterMap Slot.block = (cellBlocks hs).map Prod.fst := by
  obtain ⟨hcells, -⟩ := hh
  unfold cellBlocks
  rw [List.filterMap_map, List.map_filterMap]
  refine List.filterMap_congr ?_
  intro x hx
  exact (hcells x hx).symm

/-- **The parameter slots are safe.** Whatever calls are made on slots that own nothing at first,
and whatever the allocations do, none of them frees a block twice or stores outside of a block;
after them the live blocks are those that were there, unchanged, and one for each slot that owns
its data, all different; and when every slot is cleared the heap is as it was. -/
theorem slots_safe {h : Heap} {slots : List Slot} {calls : List SlotCall} (hf : ∀ a, h.next ≤ a → h.blocks a = none)
    (hs : ∀ s ∈ slots, s.owned = false) (hv : ∀ call ∈ calls, call.Valid slots.length) :
    ∃ slots' h', SlotCall.runAll calls slots h = some (slots', h') ∧ (slots'.filterMap Slot.block).Nodup ∧
      (∀ a, (h'.blocks a).isSome ↔ (h.blocks a).isSome ∨ a ∈ slots'.filterMap Slot.block) ∧
      (∀ a, (h.blocks a).isSome → h'.blocks a = h.blocks a) ∧
      ∃ slots'' h'', SlotCall.clearAll slots' h' = some (slots'', h'') ∧ h''.blocks = h.blocks := by
  set hs₀ : List (Slot × Option (ℕ × Bytes)) := slots.map fun s => (s, none) with hhs
  have hmap : slots = hs₀.map Prod.fst := by
    rw [hhs, List.map_map]
    exact (List.map_id slots).symm
  have hblocks : cellBlocks hs₀ = [] := by
    unfold cellBlocks
    rw [hhs, List.filterMap_map]
    exact List.filterMap_eq_nil_iff.2 fun _ _ => rfl
  have hheld : Held h.blocks hs₀ h.outcomes h := by
    refine ⟨?_, hblocks ▸ Owns.start h hf⟩
    intro x hx
    obtain ⟨s, hmem, rfl⟩ := List.mem_map.1 hx
    unfold Slot.Cell
    rw [if_neg (by simp [hs s hmem])]
    rfl
  have hlen : slots.length = hs₀.length := by rw [hhs, List.length_map]
  obtain ⟨slots', h', hrun, hs', os', rfl, -, hh⟩ := SlotCall.runAll_held (fun c hc => hlen ▸ hv c hc) h hheld
  rw [← hmap] at hrun
  have hptrs := hh.blocks
  refine ⟨_, h', hrun, ?_, ?_, ?_, ?_⟩
  · rw [hptrs]
    exact hh.owns.nodup
  · intro a
    rw [hptrs]
    by_cases ha : a ∈ (cellBlocks hs').map Prod.fst
    · obtain ⟨x, hx, rfl⟩ := List.mem_map.1 ha
      rw [hh.owns.held x hx]
      exact iff_of_true rfl (Or.inr ha)
    · rw [hh.owns.rest a ha]
      exact ⟨Or.inl, fun hor => hor.resolve_right ha⟩
  · intro a hlive
    refine hh.owns.rest a fun ha => ?_
    obtain ⟨x, hx, rfl⟩ := List.mem_map.1 ha
    rw [hh.owns.apart x hx] at hlive
    cases hlive
  · have hall : Owns h.blocks (cellBlocks hs' ++ []) os' h' := by
      rw [List.append_nil]
      exact hh.owns
    obtain ⟨slots'', h'', hrun', ho⟩ := SlotCall.clearAll_owns hh.cells h' hall
    exact ⟨slots'', h'', hrun', ho.blocks_eq⟩

/-- The second allocation fails, in the middle of an injection. -/
theorem slots_safe_failing :
    ∃ slots' h', SlotCall.runAll [.setText 0 (some CStr.empty), .inject [65] pairMsg 0 ⟨[117], by decide⟩ true, .clear 1]
        [Slot.cleared, Slot.cleared] (emptyHeap [true, false]) = some (slots', h') ∧
      ∃ slots'' h'', SlotCall.clearAll slots' h' = some (slots'', h'') ∧ h''.blocks = fun _ => none := by
  have hvalid : ∀ call ∈ [SlotCall.setText 0 (some CStr.empty), .inject [65] pairMsg 0 ⟨[117], by decide⟩ true, .clear 1],
      call.Valid 2 := by
    rintro call (_ | ⟨_, _ | ⟨_, _ | ⟨_, h⟩⟩⟩)
    · change 0 < 2
      omega
    · exact ⟨le_rfl, pairMsg_readable.views⟩
    · change 1 < 2
      omega
    · cases h
  have hslots : ∀ s ∈ [Slot.cleared, Slot.cleared], s.owned = false := by decide
  obtain ⟨slots', h', hrun, -, -, -, hclear⟩ := slots_safe (h := emptyHeap [true, false]) (fun _ _ => rfl) hslots hvalid
  exact ⟨slots', h', hrun, hclear⟩

end Pqwire

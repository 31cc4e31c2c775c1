import Pqwire.Proof.Helpers
import Pqwire.Proof.Invariant
import Pqwire.Spec.Builders

/-!
# The buffers on the heap

* `Growing.Stands`: the output buffer on the heap holds the output of a context.
* `appendOutput_stands`, `emitMsg_stands`, `getOutput_stands`: the operations on it do what the
  model without a heap says.
* `sendBind_stands`, `sendDataRowMulti_stands`: so do the builders, and nothing of their own
  block is left, whatever the allocations do. A Bind with a value that is missing sends what stood
  in its block.
-/

namespace Pqwire

open ByteMem CHeap

namespace Growing

variable {base : ℕ → Option Bytes} {l : List (ℕ × Bytes)} {os : List Bool} {c : Ctx} {o : Growing} {b : Bytes}

/-- The block `b` is the output buffer of the context. -/
structure Backs (o : Growing) (b : Bytes) (c : Ctx) : Prop where
  len : o.len = c.output.length
  cap : o.cap = c.outputCap
  size : b.length = o.cap
  bytes : c.output <+: b

/-- The output buffer of the context is on the heap, besides the blocks `l`. -/
def Stands (c : Ctx) (base : ℕ → Option Bytes) (l : List (ℕ × Bytes)) (o : Growing) (h : Heap) : Prop :=
  ∃ b, o.Backs b c ∧ Owns base ((o.buf, b) :: l) c.allocs h

theorem Backs.fits (h : o.Backs b c) : c.output.length ≤ b.length := h.bytes.length_le

/-- Bytes behind the output make it longer. -/
theorem Backs.append (h : o.Backs b c) (data : Bytes) (hle : o.len + data.length ≤ o.cap) :
    Backs { o with len := o.len + data.length } (blit b o.len data) { c with output := c.output ++ data } := by
  have hfits := h.fits
  have hlen := h.len
  have hsize := h.size
  refine ⟨?_, h.cap, ?_, ?_⟩
  · change o.len + data.length = (c.output ++ data).length
    rw [List.length_append, hlen]
  · rw [blit_length (by omega)]
    change max b.length _ = o.cap
    omega
  · have htake : b.take o.len = c.output := by
      rw [hlen]
      exact (List.prefix_iff_eq_take.1 h.bytes).symm
    unfold blit
    rw [htake]
    exact List.prefix_append _ _

theorem ensureOutput_stands (need : ℕ) :
    Triple (Stands c base l o) (o.ensureOutput need) fun r h =>
      match c.ensureOutput need with
      | none => r.2 = -1 ∧ Stands c.allocated base l r.1 h
      | some c' => r.2 = 0 ∧ r.1.len + need ≤ r.1.cap ∧ Stands c' base l r.1 h := by
  refine Triple.ex fun b => Triple.assume fun hb => ?_
  have hfits := hb.fits
  have hsize := hb.size
  have hlen := hb.len
  have hcap := hb.cap
  unfold ensureOutput Ctx.ensureOutput
  rw [← hlen, ← hcap]
  by_cases hroom : o.len + need ≤ o.cap
  · rw [if_pos hroom, if_pos hroom]
    exact .pure fun h ho => ⟨rfl, hroom, b, hb, ho⟩
  rw [if_neg hroom, if_neg hroom]
  refine realloc_owns.bind fun r => ?_
  unfold Ctx.allocOk
  by_cases hok : c.allocs.headD true = true
  · simp only [hok, if_true]
    refine Triple.ex fun a => Triple.ex fun new => Triple.assume ?_
    rintro rfl
    refine Triple.assume fun hnew => .pure ?_
    intro h ho
    have hgrow : b.length ≤ new.length := by omega
    have hfit : o.len + need ≤ o.cap * 2 + need + 1024 := by omega
    exact ⟨rfl, hfit, _, ⟨hlen, rfl, resize_length.trans hnew, hb.bytes.trans (prefix_resize hgrow)⟩, ho⟩
  · simp only [hok, Bool.false_eq_true, if_false]
    refine Triple.assume ?_
    rintro rfl
    exact .pure fun h ho => ⟨rfl, b, ⟨hlen, hcap, hsize, hb.bytes⟩, ho⟩

/-- **Appending on the heap is appending in the model.** -/
theorem appendOutput_stands (data : Bytes) :
    Triple (Stands c base l o) (o.appendOutput data) (Stands (c.appendOutput data) base l) := by
  unfold appendOutput Ctx.appendOutput
  refine (ensureOutput_stands data.length).bind fun r => ?_
  cases c.ensureOutput data.length with
  | none =>
    refine Triple.assume fun hr => ?_
    rw [hr, if_pos (by decide)]
    exact .pure fun h hs => hs
  | some c' =>
    refine Triple.assume fun hr => Triple.assume fun hle => Triple.ex fun b => Triple.assume fun hb => ?_
    rw [hr, if_neg (by decide)]
    have hsize := hb.size
    refine (store_owns (by omega)).bind fun _ => .pure ?_
    intro h ho
    exact ⟨_, hb.append data hle, ho⟩

theorem emitMsg_stands (type : UInt8) (payload : Bytes) :
    Triple (Stands c base l o) (o.emitMsg type payload) fun r h =>
      r.2 = (c.emitMsg type payload).2 ∧ Stands (c.emitMsg type payload).1 base l r.1 h := by
  unfold emitMsg Ctx.emitMsg
  refine (appendOutput_stands _).bind fun o' => ?_
  dsimp only
  by_cases hnil : payload = []
  · rw [if_pos hnil, if_pos hnil]
    exact .pure fun h hs => ⟨rfl, hs⟩
  · rw [if_neg hnil, if_neg hnil]
    exact (appendOutput_stands payload).bind fun o'' => .pure fun h hs => ⟨rfl, hs⟩

/-- **Draining on the heap is draining in the model.** -/
theorem getOutput_stands (maxLen : ℕ) :
    Triple (Stands c base l o) (o.getOutput maxLen) fun r h =>
      r.1 = (c.getOutput maxLen).1 ∧ Stands (c.getOutput maxLen).2 base l r.2 h := by
  refine Triple.ex fun b => Triple.assume fun hb => ?_
  have hfits := hb.fits
  have hlen := hb.len
  have hsize := hb.size
  obtain ⟨t, rfl⟩ := hb.bytes
  rw [List.length_append] at hfits hsize
  unfold getOutput
  dsimp only
  refine (load_owns (by rw [List.length_append]; omega)).bind fun bytes => Triple.assume ?_
  rintro rfl
  refine (load_owns (by rw [List.length_append]; omega)).bind fun rest => Triple.assume ?_
  rintro rfl
  have hrest : slice (c.output ++ t) (min o.len maxLen) (o.len - min o.len maxLen) = c.output.drop maxLen := by
    rw [slice_append_left (by omega), slice, hlen]
    rcases Nat.le_total c.output.length maxLen with hle | hle
    · rw [min_eq_left hle, Nat.sub_self, List.take_zero, List.drop_eq_nil_of_le hle]
    · rw [min_eq_right hle]
      exact List.take_of_length_le (by rw [List.length_drop])
  have hbytes : slice (c.output ++ t) 0 (min o.len maxLen) = c.output.take maxLen := by
    rw [slice_append_left (by omega), slice, List.drop_zero, hlen, min_comm]
    exact List.take_eq_take_min.symm
  rw [hrest]
  refine (store_owns (by rw [List.length_drop, List.length_append]; omega)).bind fun _ => .pure ?_
  intro h ho
  refine ⟨hbytes, _, ⟨?_, hb.cap, ?_, ?_⟩, ho⟩
  · change o.len - min o.len maxLen = (c.output.drop maxLen).length
    rw [List.length_drop]
    omega
  · rw [blit_length (Nat.zero_le _), List.length_append, List.length_drop]
    change _ = o.cap
    omega
  · unfold blit
    rw [List.take_zero, List.nil_append]
    exact List.prefix_append _ _

/-! ## Builders -/

/-- The loop over format codes. -/
theorem codeStores_filled (codes : Option (List Int16)) {buf cap n i : ℕ} {p : Bytes} (hle : p.length + n * 2 ≤ cap) :
    Triple (Filled base l os buf p cap) (codeStores codes buf n i p.length) fun r h =>
      r = p.length + n * 2 ∧
        Filled base l os buf (p ++ (List.range' i n).flatMap fun i =>
          wr16Be ((codes.elim 0 (·.getD i 0)).toUInt16.toNat)) cap h := by
  induction n generalizing i p with
  | zero =>
    refine .pure ?_
    intro h ho
    rw [List.range'_zero, List.flatMap_nil, List.append_nil]
    exact ⟨by omega, ho⟩
  | succ n ih =>
    unfold codeStores
    have hw := wr16Be_length ((codes.elim 0 (·.getD i 0)).toUInt16.toNat)
    refine (store_filled (by omega)).bind fun _ => ?_
    set q := p ++ wr16Be ((codes.elim 0 (·.getD i 0)).toUInt16.toNat) with hq
    have hlen : p.length + 2 = q.length := by rw [hq, List.length_append, hw]
    rw [hlen]
    refine (ih (i := i + 1) (p := q) (by omega)).conseq (fun _ ho => ho) ?_
    rintro r h ⟨hr, ho⟩
    refine ⟨by omega, ?_⟩
    rw [List.range'_succ, List.flatMap_cons, ← List.append_assoc]
    exact ho

/-- The value of a field: `none` when no bytes are taken up, `some none` when they are skipped. -/
structure StoreField where
  len : Int32
  value : Option (Option Bytes)

/-- What the field may contribute: its value, or any bytes of the length where they are skipped. -/
structure StoreField.Puts (f : StoreField) (g : HeapField) : Prop where
  len : g.len = f.len
  absent : f.value = none → g.value = none
  value : ∀ v, f.value = some v → ∃ s, s.length = f.len.toInt.toNat ∧ (∀ w, v = some w → s = w.take f.len.toInt.toNat) ∧
    g.value = some s

/-- The loop of both builders. -/
def putStores : List StoreField → ℕ → ℕ → ℕ → HeapM (Option (ℕ × ℕ × ℕ))
  | [], buf, p, cap => return some (buf, p, cap)
  | f :: fs, buf, p, cap => do
    if p + 4 > cap then
      free (some buf)
      return none
    store buf p (wr32Be f.len.toUInt32.toNat)
    match f.value with
    | none => putStores fs buf (p + 4) cap
    | some v =>
      let k := f.len.toInt.toNat
      if p + 4 + k > cap then
        match ← realloc buf (p + 4 + k + 1024) with
        | none =>
          free (some buf)
          return none
        | some nb =>
          valueStore nb (p + 4) v k
          putStores fs nb (p + 4 + k) (p + 4 + k + 1024)
      else
        valueStore buf (p + 4) v k
        putStores fs buf (p + 4 + k) cap

def bindStore (lengths : Option (List Int32)) (values : Option (List (Option Bytes))) (i : ℕ) : StoreField :=
  let len : Int32 := lengths.elim (-1) (·.getD i 0)
  { len
    value := if len.toInt > 0 then some (values.bind (·.getD i none)) else none }

def rowStore (lengths : Option (List Int32)) (values : Option (List (Option Bytes))) (i : ℕ) : StoreField :=
  let len : Int32 := lengths.elim (-1) (·.getD i 0)
  { len
    value := if len.toInt > 0 then (values.bind (·.getD i none)).map some else none }

theorem bindParamStores_eq (lengths : Option (List Int32)) (values : Option (List (Option Bytes))) (n i buf p cap : ℕ) :
    bindParamStores lengths values n i buf p cap = putStores ((List.range' i n).map (bindStore lengths values)) buf p cap := by
  induction n generalizing i buf p cap with
  | zero => rfl
  | succ n ih =>
    rw [List.range'_succ, List.map_cons]
    simp only [bindParamStores, putStores, bindStore, ih]
    by_cases hpos : (lengths.elim (-1) (·.getD i 0) : Int32).toInt > 0
    · simp only [if_pos hpos]
      rfl
    · simp only [if_neg hpos]

theorem dataRowStores_eq (lengths : Option (List Int32)) (values : Option (List (Option Bytes))) (n i buf p cap : ℕ) :
    dataRowStores lengths values n i buf p cap = putStores ((List.range' i n).map (rowStore lengths values)) buf p cap := by
  induction n generalizing i buf p cap with
  | zero => rfl
  | succ n ih =>
    rw [List.range'_succ, List.map_cons]
    simp only [dataRowStores, putStores, rowStore, ih]
    by_cases hpos : (lengths.elim (-1) (·.getD i 0) : Int32).toInt > 0
    · simp only [if_pos hpos]
      cases values.bind (·.getD i none) with
      | none => rfl
      | some v => rfl
    · simp only [if_neg hpos]
      cases values.bind (·.getD i none) with
      | none => rfl
      | some v => rfl

/-- The arrays are as long as the lengths say. -/
def StoreField.Valid (f : StoreField) : Prop := ∀ v, f.value = some (some v) → f.len.toInt.toNat ≤ v.length

/-- A value goes into the block; without one, what stood there stays. -/
theorem valueStore_filled {buf cap k : ℕ} {p : Bytes} {v : Option Bytes} (hle : p.length + k ≤ cap)
    (hv : ∀ w, v = some w → k ≤ w.length) :
    Triple (Filled base l os buf p cap) (valueStore buf p.length v k) fun _ h =>
      ∃ s, (s.length = k ∧ ∀ w, v = some w → s = w.take k) ∧ Filled base l os buf (p ++ s) cap h := by
  cases v with
  | none =>
    refine .pure ?_
    intro h ho
    obtain ⟨s, hs, hfill⟩ := ho.skip hle
    exact ⟨s, ⟨hs, fun w hw => absurd hw.symm (Option.some_ne_none w)⟩, hfill⟩
  | some w =>
    have hlen : (w.take k).length = k := List.length_take_of_le (hv w rfl)
    unfold valueStore
    dsimp only
    rw [if_pos (hv w rfl)]
    refine (store_filled (by rw [hlen]; exact hle)).conseq (fun _ ho => ho) ?_
    intro _ h ho
    refine ⟨w.take k, ⟨hlen, ?_⟩, ho⟩
    rintro u hu
    cases hu
    rfl

/-- A field whose value takes up bytes puts as many, its own where they are given. -/
theorem StoreField.puts_value {f : StoreField} {v : Option Bytes} {s : Bytes} (hval : f.value = some v)
    (hs : s.length = f.len.toInt.toNat) (hsv : ∀ w, v = some w → s = w.take f.len.toInt.toNat) :
    f.Puts ⟨f.len, some s⟩ := by
  refine ⟨rfl, fun h => absurd (hval.symm.trans h) (Option.some_ne_none v), ?_⟩
  intro v' hv'
  cases hval.symm.trans hv'
  exact ⟨s, hs, hsv, rfl⟩

/-- Every field has something to put. -/
theorem StoreField.Valid.puts {f : StoreField} (hv : f.Valid) : ∃ g, f.Puts g := by
  cases hval : f.value with
  | none => exact ⟨⟨f.len, none⟩, rfl, fun _ => rfl, fun v h => absurd (hval.symm.trans h).symm (Option.some_ne_none v)⟩
  | some v =>
    refine ⟨_, puts_value hval (s := v.elim (List.replicate f.len.toInt.toNat 0) (·.take f.len.toInt.toNat)) ?_ ?_⟩
    · cases v with
      | none => exact List.length_replicate
      | some w => exact List.length_take_of_le (hv w hval)
    · rintro w rfl
      rfl

theorem puts_all {fs : List StoreField} (hv : ∀ f ∈ fs, f.Valid) : ∃ gs, List.Forall₂ StoreField.Puts fs gs := by
  induction fs with
  | nil => exact ⟨[], .nil⟩
  | cons f fs ih =>
    obtain ⟨g, hg⟩ := (hv f List.mem_cons_self).puts
    obtain ⟨gs, hgs⟩ := ih fun k hk => hv k (List.mem_cons_of_mem _ hk)
    exact ⟨g :: gs, .cons hg hgs⟩

/-- What the loop leaves: a block with the fields behind what was there, or no block. -/
def Built (base : ℕ → Option Bytes) (l : List (ℕ × Bytes)) (res : Ctx × Option (Bytes × ℕ)) (r : Option (ℕ × ℕ × ℕ))
    (h : Heap) : Prop :=
  match res.2 with
  | none => r = none ∧ Owns base l res.1.allocs h
  | some q => ∃ buf, r = some (buf, q.1.length, q.2) ∧ Filled base l res.1.allocs buf q.1 q.2 h

/-- A value goes into the block, and the loop goes on behind it. -/
theorem valueStore_built {fs : List StoreField} {c : Ctx} {p : Bytes} {buf cap k : ℕ} {v : Option Bytes}
    (hle : p.length + k ≤ cap) (hv : ∀ w, v = some w → k ≤ w.length)
    (hloop : ∀ {q : Bytes}, Triple (Filled base l c.allocs buf q cap) (putStores fs buf q.length cap) fun r h =>
      ∃ gs, List.Forall₂ StoreField.Puts fs gs ∧ Built base l (putFields gs c q cap) r h) :
    Triple (Filled base l c.allocs buf p cap) (valueStore buf p.length v k >>= fun _ => putStores fs buf (p.length + k) cap)
      fun r h => ∃ s gs, (s.length = k ∧ ∀ w, v = some w → s = w.take k) ∧ List.Forall₂ StoreField.Puts fs gs ∧
        Built base l (putFields gs c (p ++ s) cap) r h := by
  refine (valueStore_filled hle hv).bind fun _ => Triple.ex fun s => Triple.assume fun hs => ?_
  have hall : (p ++ s).length = p.length + k := by rw [List.length_append, hs.1]
  rw [← hall]
  refine hloop.conseq (fun _ ho => ho) ?_
  rintro r h ⟨gs, hgs, hb⟩
  exact ⟨s, gs, hs, hgs, hb⟩

/-- **The loop on the heap is the loop of the model** on fields that are put: every store is inside
the block, which is freed where the loop gives up. -/
theorem putStores_built {fs : List StoreField} (hv : ∀ f ∈ fs, f.Valid) {c : Ctx} {p : Bytes} {buf cap : ℕ} :
    Triple (Filled base l c.allocs buf p cap) (putStores fs buf p.length cap) fun r h =>
      ∃ gs, List.Forall₂ StoreField.Puts fs gs ∧ Built base l (putFields gs c p cap) r h := by
  induction fs generalizing c p buf cap with
  | nil => exact .pure fun h ho => ⟨[], .nil, buf, rfl, ho⟩
  | cons f fs ih =>
    have ih := @ih fun g hg => hv g (List.mem_cons_of_mem _ hg)
    obtain ⟨g₀, hg₀⟩ := (hv f List.mem_cons_self).puts
    obtain ⟨gs₀, hgs₀⟩ := puts_all fun g hg => hv g (List.mem_cons_of_mem _ hg)
    unfold putStores
    by_cases hroom : p.length + 4 > cap
    · rw [if_pos hroom]
      refine free_filled.bind fun _ => .pure ?_
      intro h ho
      refine ⟨g₀ :: gs₀, .cons hg₀ hgs₀, ?_⟩
      unfold Built putFields
      rw [if_pos hroom]
      exact ⟨rfl, ho⟩
    rw [if_neg hroom]
    set w := wr32Be f.len.toUInt32.toNat with hw
    have hwl : w.length = 4 := wr32Be_length _
    have hpw : (p ++ w).length = p.length + 4 := by rw [List.length_append, hwl]
    refine (store_filled (by omega)).bind fun _ => ?_
    rw [← hpw]
    cases hval : f.value with
    | none =>
      refine (ih (p := p ++ w)).conseq (fun _ ho => ho) ?_
      rintro r h ⟨gs, hgs, hb⟩
      refine ⟨g₀ :: gs, .cons hg₀ hgs, ?_⟩
      unfold putFields
      rw [if_neg hroom, hg₀.absent hval, hg₀.len]
      exact hb
    | some v =>
      set k := f.len.toInt.toNat with hk
      have hvk : ∀ u, v = some u → k ≤ u.length := fun u hu => hv f List.mem_cons_self u (hu ▸ hval)
      dsimp only
      by_cases hgrow : (p ++ w).length + k > cap
      · -- the block moves, or is freed where it cannot
        rw [if_pos hgrow]
        refine (realloc_filled (by omega)).bind fun r => ?_
        by_cases hok : c.allocs.headD true = true
        · simp only [hok, if_true]
          refine Triple.ex fun a => Triple.assume ?_
          rintro rfl
          refine (valueStore_built (c := c.allocated) (by omega) hvk ih).conseq (fun _ ho => ho) ?_
          rintro r h ⟨s, gs, hs, hgs, hb⟩
          refine ⟨⟨f.len, some s⟩ :: gs, .cons (StoreField.puts_value hval hs.1 hs.2) hgs, ?_⟩
          unfold putFields
          rw [if_neg hroom]
          dsimp only
          rw [← hw, ← hk, ← hpw, if_pos hgrow, Ctx.allocOk, if_pos hok]
          exact hb
        · simp only [hok, Bool.false_eq_true, if_false]
          refine Triple.assume ?_
          rintro rfl
          refine free_filled.bind fun _ => .pure ?_
          intro h ho
          obtain ⟨s, hs, hsv, hgv⟩ := hg₀.value v hval
          refine ⟨g₀ :: gs₀, .cons hg₀ hgs₀, ?_⟩
          unfold Built putFields
          rw [if_neg hroom, hgv, hg₀.len]
          dsimp only
          rw [← hk, ← hpw, if_pos hgrow, Ctx.allocOk, if_neg hok]
          exact ⟨rfl, ho⟩
      · rw [if_neg hgrow]
        refine (valueStore_built (by omega) hvk ih).conseq (fun _ ho => ho) ?_
        rintro r h ⟨s, gs, hs, hgs, hb⟩
        refine ⟨⟨f.len, some s⟩ :: gs, .cons (StoreField.puts_value hval hs.1 hs.2) hgs, ?_⟩
        unfold putFields
        rw [if_neg hroom]
        dsimp only
        rw [← hw, ← hk, ← hpw, if_neg hgrow]
        exact hb

/-- The parameter that a Bind puts, when what it found in the block counts as the value. -/
theorem bindStore_puts {lengths : Option (List Int32)} {values values' : Option (List (Option Bytes))} {i : ℕ} {g : HeapField}
    (h : (bindStore lengths values i).Puts g) (hv : columnValue values' i = (columnValue values i).or g.value) :
    bindField lengths values' i = g := by
  obtain ⟨glen, gval⟩ := g
  have hlen : glen = columnLength lengths i := h.len
  change columnValue values' i = (columnValue values i).or gval at hv
  change HeapField.mk (columnLength lengths i) (if (columnLength lengths i).toInt > 0 then
    some ((columnValue values' i).elim (List.replicate (columnLength lengths i).toInt.toNat 0)
      (·.take (columnLength lengths i).toInt.toNat)) else none) = _
  rw [hlen]
  by_cases hpos : (columnLength lengths i).toInt > 0
  · have hval : (bindStore lengths values i).value = some (columnValue values i) := if_pos hpos
    obtain ⟨s, hs, hsv, hgv⟩ := h.value _ hval
    change gval = some s at hgv
    change s.length = (columnLength lengths i).toInt.toNat at hs
    rw [if_pos hpos, hv, hgv]
    cases hc : columnValue values i with
    | none =>
      rw [Option.none_or, Option.elim_some, ← hs, List.take_length]
    | some w => rw [Option.some_or, Option.elim_some, hsv w hc]; rfl
  · have hval : (bindStore lengths values i).value = none := if_neg hpos
    have hgv : gval = none := h.absent hval
    rw [if_neg hpos, hgv]

/-- **A Bind puts its values**, completed by what it found in its block. -/
theorem fillsIn_of_puts {lengths : Option (List Int32)} {values : Option (List (Option Bytes))} {n : ℕ} {gs : List HeapField}
    (h : List.Forall₂ StoreField.Puts ((List.range' 0 n).map (bindStore lengths values)) gs) :
    ∃ values', FillsIn lengths values values' n ∧ (List.range' 0 n).map (bindField lengths values') = gs := by
  obtain ⟨hlen, hget⟩ := List.forall₂_iff_get.1 h
  have hn : gs.length = n := by rw [← hlen, List.length_map, List.length_range']
  have hput : ∀ i, (hi : i < n) → (bindStore lengths values i).Puts (gs.get ⟨i, hn ▸ hi⟩) := by
    intro i hi
    have := hget i (by rw [hlen, hn]; exact hi) (hn ▸ hi)
    simpa using this
  have hnone : ∀ i, (hi : i < n) → (columnLength lengths i).toInt ≤ 0 → (gs.get ⟨i, hn ▸ hi⟩).value = none := by
    intro i hi hle
    exact (hput i hi).absent (if_neg (by change ¬(columnLength lengths i).toInt > 0; omega))
  obtain ⟨values', hall, hcol⟩ : ∃ values', (AllGiven lengths values n → values' = values) ∧
      ∀ i, (hi : i < n) → columnValue values' i = (columnValue values i).or (gs.get ⟨i, hn ▸ hi⟩).value := by
    by_cases hall : AllGiven lengths values n
    · refine ⟨values, fun _ => rfl, ?_⟩
      intro i hi
      cases hv : columnValue values i with
      | some w => rfl
      | none =>
        have hle : (columnLength lengths i).toInt ≤ 0 := Int.not_lt.1 fun hpos => hall i hi hpos hv
        rw [hnone i hi hle]
        rfl
    · refine ⟨some ((List.range n).map fun i => (columnValue values i).or ((gs[i]?).bind HeapField.value)),
        fun h => absurd h hall, ?_⟩
      intro i hi
      have hi' : i < gs.length := hn ▸ hi
      change List.getD _ i none = _
      rw [List.getD_eq_getElem?_getD, List.getElem?_map, List.getElem?_range hi, Option.map_some, Option.getD_some,
        List.getElem?_eq_getElem hi', Option.bind_some]
      rfl
  refine ⟨values', ⟨hall, ?_, ?_⟩, ?_⟩
  · intro i hi hcase
    rw [hcol i hi]
    cases hv : columnValue values i with
    | some w => rfl
    | none => exact (congrArg (Option.none.or) (hnone i hi (hcase.resolve_left fun hne => hne hv))).trans rfl
  · intro i hi hv hpos
    obtain ⟨s, hs, -, hgv⟩ := (hput i hi).value (columnValue values i) (if_pos hpos)
    exact ⟨s, hs, by rw [hcol i hi, hv, hgv]; rfl⟩
  · refine List.ext_get (by rw [List.length_map, List.length_range', hn]) ?_
    intro i h₁ h₂
    have hi : i < n := hn ▸ h₂
    have hfield := bindStore_puts (hput i hi) (hcol i hi)
    simpa using hfield

/-- A row never skips a value. -/
theorem rowStore_puts {lengths : Option (List Int32)} {values : Option (List (Option Bytes))} {i : ℕ} {g : HeapField}
    (h : (rowStore lengths values i).Puts g) : rowField lengths values i = g := by
  obtain ⟨glen, gval⟩ := g
  have hlen : glen = columnLength lengths i := h.len
  change HeapField.mk (columnLength lengths i) (if (columnLength lengths i).toInt > 0 then
    (columnValue values i).map (·.take (columnLength lengths i).toInt.toNat) else none) = _
  rw [hlen]
  by_cases hpos : (columnLength lengths i).toInt > 0
  · have hval : (rowStore lengths values i).value = (columnValue values i).map some := if_pos hpos
    rw [if_pos hpos]
    cases hc : columnValue values i with
    | none =>
      rw [hc] at hval
      have hgv : gval = none := h.absent hval
      rw [hgv]
      rfl
    | some w =>
      rw [hc] at hval
      obtain ⟨s, -, hsv, hgv⟩ := h.value _ hval
      change gval = some s at hgv
      rw [hgv, hsv w rfl]
      rfl
  · have hgv : gval = none := h.absent (if_neg hpos)
    rw [if_neg hpos, hgv]

theorem rows_of_puts {lengths : Option (List Int32)} {values : Option (List (Option Bytes))} {is : List ℕ} {gs : List HeapField}
    (h : List.Forall₂ StoreField.Puts (is.map (rowStore lengths values)) gs) : is.map (rowField lengths values) = gs := by
  have hrow : List.Forall₂ (fun i g => rowField lengths values i = g) is gs :=
    (List.forall₂_map_left_iff.1 h).imp fun i g hg => rowStore_puts hg
  have heq := List.forall₂_map_left_iff.2 hrow
  rw [List.forall₂_eq_eq_eq] at heq
  exact heq

theorem bindStore_valid {lengths : Option (List Int32)} {values : Option (List (Option Bytes))} (hv : ValuesFit lengths values)
    (i : ℕ) : (bindStore lengths values i).Valid := by
  intro v hval
  unfold bindStore at hval
  dsimp only at hval
  split at hval
  · exact hv i v (Option.some.inj hval)
  · cases hval

theorem rowStore_valid {lengths : Option (List Int32)} {values : Option (List (Option Bytes))} (hv : ValuesFit lengths values)
    (i : ℕ) : (rowStore lengths values i).Valid := by
  intro v hval
  unfold rowStore at hval
  dsimp only at hval
  split at hval
  · obtain ⟨u, hu, heq⟩ := Option.map_eq_some_iff.1 hval
    rw [← Option.some.inj heq]
    exact hv i u hu
  · cases hval

theorem bindStores_valid {lengths : Option (List Int32)} {values : Option (List (Option Bytes))} (hv : ValuesFit lengths values)
    (is : List ℕ) : ∀ f ∈ is.map (bindStore lengths values), f.Valid := by
  intro f hf
  obtain ⟨j, -, rfl⟩ := List.mem_map.1 hf
  exact bindStore_valid hv j

/-- Every Bind can be completed. -/
theorem fillsIn_exists {lengths : Option (List Int32)} {values : Option (List (Option Bytes))} (hv : ValuesFit lengths values)
    (n : ℕ) : ∃ values', FillsIn lengths values values' n := by
  obtain ⟨gs, hgs⟩ := puts_all (bindStores_valid hv (List.range' 0 n))
  obtain ⟨values', hc, -⟩ := fillsIn_of_puts hgs
  exact ⟨values', hc⟩

theorem bindParamStores_built {lengths : Option (List Int32)} {values : Option (List (Option Bytes))}
    (hv : ValuesFit lengths values) {n buf cap : ℕ} {p : Bytes} :
    Triple (Filled base l c.allocs buf p cap) (bindParamStores lengths values n 0 buf p.length cap) fun r h =>
      ∃ values', FillsIn lengths values values' n ∧ Built base l (Ctx.bindParamLoop lengths values' n 0 c p cap) r h := by
  rw [bindParamStores_eq]
  refine (putStores_built (bindStores_valid hv _)).conseq (fun _ ho => ho) ?_
  rintro r h ⟨gs, hgs, hb⟩
  obtain ⟨values', hc, rfl⟩ := fillsIn_of_puts hgs
  rw [← bindParamLoop_eq] at hb
  exact ⟨values', hc, hb⟩

theorem bindParamLoop_takes (lengths : Option (List Int32)) (values : Option (List (Option Bytes))) (n i : ℕ) (c : Ctx)
    (p : Bytes) (cap : ℕ) : Takes c (Ctx.bindParamLoop lengths values n i c p cap).1 := by
  rw [bindParamLoop_eq]
  exact putFields_takes _ c p cap
/-- The context that stands is another one with the same output. -/
theorem Stands.takes {c₁ : Ctx} {h : Heap} (ht : Takes c c₁) (hb : o.Backs b c)
    (ho : Owns base ((o.buf, b) :: l) c₁.allocs h) : Stands c₁ base l o h := by
  obtain ⟨k, rfl⟩ := ht
  exact ⟨b, ⟨hb.len, hb.cap, hb.size, hb.bytes⟩, ho⟩

/-- The end of a builder: its message is emitted and its block freed. -/
theorem emit_free {c₁ : Ctx} (ht : Takes c c₁) (hb : o.Backs b c) {type : UInt8} {buf cap : ℕ} {payload : Bytes} :
    Triple (Filled base ((o.buf, b) :: l) c₁.allocs buf payload cap)
      (do
        let payload ← load buf 0 payload.length
        let r ← o.emitMsg type payload
        free (some buf)
        return r)
      fun r h => r.2 = (c₁.emitMsg type payload).2 ∧ Stands (c₁.emitMsg type payload).1 base l r.1 h := by
  refine load_filled.bind fun bytes => Triple.assume ?_
  rintro rfl
  refine Triple.ex fun x => Triple.assume fun _ => Triple.assume fun _ => ?_
  refine ((emitMsg_stands type bytes).pre fun h ho => Stands.takes ht hb (ho.perm (List.Perm.swap ..))).bind fun r => ?_
  refine Triple.assume fun hr => Triple.ex fun b' => Triple.assume fun hb' => ?_
  exact free_second.bind fun _ => .pure fun h ho => ⟨hr, b', hb', ho⟩

/-- A builder that gives up frees its block. -/
theorem free_refuse {c₁ : Ctx} (ht : Takes c c₁) (hb : o.Backs b c) {buf cap : ℕ} {p : Bytes} :
    Triple (Filled base ((o.buf, b) :: l) c₁.allocs buf p cap)
      (do
        free (some buf)
        return (o, (-1 : ℤ)))
      fun r h => r.2 = -1 ∧ Stands c₁ base l r.1 h :=
  free_filled.bind fun _ => .pure fun _ ho => ⟨rfl, Stands.takes ht hb ho⟩

theorem codeBytes_range' (codes : Option (List Int16)) (n : ℕ) :
    ((List.range' 0 n).flatMap fun i => wr16Be ((codes.elim 0 (·.getD i 0)).toUInt16.toNat)) = Ctx.codeBytes codes n := by
  rw [← List.range_eq_range']
  rfl

/-- A count and that many format codes. -/
theorem codes_filled (codes : Option (List Int16)) {buf cap n : ℕ} {p : Bytes} (hle : p.length + 2 + n * 2 ≤ cap) :
    Triple (Filled base l os buf p cap)
      (do
        store buf p.length (wr16Be n)
        codeStores codes buf n 0 (p.length + 2))
      fun r h => r = (p ++ wr16Be n ++ Ctx.codeBytes codes n).length ∧
        Filled base l os buf (p ++ wr16Be n ++ Ctx.codeBytes codes n) cap h := by
  have hw := wr16Be_length n
  have hlen : p.length + 2 = (p ++ wr16Be n).length := by rw [List.length_append, hw]
  have hcodes : (Ctx.codeBytes codes n).length = n * 2 := by
    unfold Ctx.codeBytes
    rw [List.length_flatMap]
    simp only [wr16Be_length, List.map_const', List.length_range, List.sum_replicate, smul_eq_mul]
  refine (store_filled (by omega)).bind fun _ => ?_
  rw [hlen]
  refine (codeStores_filled codes (by omega)).conseq (fun _ ho => ho) ?_
  rintro r h ⟨hr, ho⟩
  rw [codeBytes_range'] at ho
  rw [List.length_append, hcodes]
  exact ⟨hr, ho⟩

/-- The end of a Bind: its result formats, behind its parameters. -/
theorem bindEnd_stands {c₁ : Ctx} (ht : Takes c c₁) (hb : o.Backs b c) (resultFormats : Option (List Int16)) (n : ℕ)
    {buf cap : ℕ} {p : Bytes} :
    Triple (Filled base ((o.buf, b) :: l) c₁.allocs buf p cap)
      (if p.length + 2 + n * 2 > cap then do
        free (some buf)
        return (o, (-1 : ℤ))
      else do
        store buf p.length (wr16Be n)
        let p ← codeStores resultFormats buf n 0 (p.length + 2)
        let payload ← load buf 0 p
        let r ← o.emitMsg (ch 'B') payload
        free (some buf)
        return r)
      fun r h =>
        let res := if p.length + 2 + n * 2 > cap then (c₁, -1)
          else c₁.emitMsg (ch 'B') (p ++ wr16Be n ++ Ctx.codeBytes resultFormats n)
        r.2 = res.2 ∧ Stands res.1 base l r.1 h := by
  by_cases hfull : p.length + 2 + n * 2 > cap
  · simp only [if_pos hfull]
    exact free_refuse ht hb
  · simp only [if_neg hfull]
    rw [← bind_assoc]
    refine (codes_filled resultFormats (by omega)).bind fun q => Triple.assume ?_
    rintro rfl
    exact emit_free ht hb

/-- **`pqwire_send_bind` on the heap is `pqwire_send_bind` of the model**, and leaves nothing of
its block, whatever the allocations do. Where a value is missing, it sends what it found there. -/
theorem sendBind_stands {lengths : Option (List Int32)} {values : Option (List (Option Bytes))}
    (hv : ValuesFit lengths values) (portal statement : Option CStr) (formats : Option (List Int16)) (nFormats nParams : UInt16)
    (resultFormats : Option (List Int16)) (nResultFormats : UInt16) :
    Triple (Stands c base l o)
      (o.sendBind portal statement formats nFormats lengths values nParams resultFormats nResultFormats) fun r h =>
      ∃ values', FillsIn lengths values values' nParams.toNat ∧
        r.2 = (c.sendBind portal statement formats nFormats lengths values' nParams resultFormats nResultFormats).2 ∧
        Stands (c.sendBind portal statement formats nFormats lengths values' nParams resultFormats nResultFormats).1
          base l r.1 h := by
  refine Triple.ex fun b => Triple.assume fun hb => ?_
  have ht := Takes.allocated c
  -- where the parameters are not reached, their values do not matter
  obtain ⟨values₀, hv₀⟩ := fillsIn_exists hv nParams.toNat
  unfold sendBind Ctx.sendBind
  set portal := portal.getD CStr.empty
  set statement := statement.getD CStr.empty
  set cap := 64 + nParams.toNat * 256
  dsimp only
  have hpl : portal.toBytes.length = portal.length + 1 := portal.toBytes_length
  have hsl : statement.toBytes.length = statement.length + 1 := statement.toBytes_length
  have hps : (portal.toBytes ++ statement.toBytes).length = portal.length + 1 + (statement.length + 1) := by
    rw [List.length_append, hpl, hsl]
  refine malloc_filled.bind fun r => ?_
  unfold Ctx.allocOk
  by_cases hok : c.allocs.headD true = true
  · simp only [hok, if_true, not_true_eq_false, if_false]
    refine Triple.ex fun buf => Triple.assume ?_
    rintro rfl
    rw [← hps]
    dsimp only
    by_cases h1 : (portal.toBytes ++ statement.toBytes).length > cap
    · simp only [if_pos h1]
      exact (free_refuse ht hb).conseq (fun _ ho => ho) fun _ _ hr => ⟨values₀, hv₀, hr⟩
    simp only [if_neg h1]
    refine (store_filled (p := []) (by rw [hpl]; change 0 + _ ≤ cap; omega)).bind fun _ => ?_
    rw [List.nil_append, ← hpl]
    refine (store_filled (by omega)).bind fun _ => ?_
    set names := portal.toBytes ++ statement.toBytes
    by_cases h2 : names.length + 2 + nFormats.toNat * 2 > cap
    · simp only [if_pos h2]
      exact (free_refuse ht hb).conseq (fun _ ho => ho) fun _ _ hr => ⟨values₀, hv₀, hr⟩
    simp only [if_neg h2]
    rw [← bind_assoc]
    refine (codes_filled formats (by omega)).bind fun q => Triple.assume ?_
    rintro rfl
    set head := names ++ wr16Be nFormats.toNat ++ Ctx.codeBytes formats nFormats.toNat
    by_cases h3 : head.length + 2 > cap
    · simp only [if_pos h3]
      exact (free_refuse ht hb).conseq (fun _ ho => ho) fun _ _ hr => ⟨values₀, hv₀, hr⟩
    simp only [if_neg h3]
    have hw := wr16Be_length nParams.toNat
    have hq : head.length + 2 = (head ++ wr16Be nParams.toNat).length :=
      (congrArg (head.length + ·) hw).symm.trans List.length_append.symm
    refine (store_filled (by omega)).bind fun _ => ?_
    rw [hq]
    refine (bindParamStores_built (c := c.allocated) hv).bind fun res => Triple.ex fun values' => Triple.assume fun hc => ?_
    have ht' := ht.trans (bindParamLoop_takes lengths values' nParams.toNat 0 c.allocated (head ++ wr16Be nParams.toNat) cap)
    refine Triple.conseq ?_ (fun _ ho => ho) fun r h (hr : _ ∧ _) => ⟨values', hc, hr⟩
    unfold Built
    generalize Ctx.bindParamLoop lengths values' nParams.toNat 0 c.allocated (head ++ wr16Be nParams.toNat) cap = loop at ht' ⊢
    obtain ⟨c₁, res'⟩ := loop
    cases res' with
    | none =>
      refine Triple.assume ?_
      rintro rfl
      exact .pure fun h ho => ⟨rfl, Stands.takes ht' hb ho⟩
    | some res' =>
      refine Triple.ex fun buf' => Triple.assume ?_
      rintro rfl
      exact bindEnd_stands ht' hb resultFormats nResultFormats.toNat
  · simp only [hok, Bool.false_eq_true, if_false, not_false_eq_true, if_true]
    refine Triple.assume ?_
    rintro rfl
    exact .pure fun h ho => ⟨values₀, hv₀, rfl, Stands.takes ht hb ho⟩

/-- The two bytes of a value that is not given are what `malloc` left there. -/
example : (((Growing.mk 0 0 4096).sendBind none none none 0 (some [2]) none 1 none 0 >>= fun r => load r.1.buf 0 r.1.len)
    ⟨Function.update (fun _ => none) 0 (some (List.replicate 4096 0)), 1, [], fun _ i => UInt8.ofNat i⟩).map Prod.fst =
      some [66, 0, 0, 0, 18, 0, 0, 0, 0, 0, 1, 0, 0, 0, 2, 10, 11, 0, 0] := by
  decide +kernel

theorem dataRowStores_built {lengths : Option (List Int32)} {values : Option (List (Option Bytes))}
    (hv : ValuesFit lengths values) {n i buf cap : ℕ} {p : Bytes} :
    Triple (Filled base l c.allocs buf p cap) (dataRowStores lengths values n i buf p.length cap)
      (Built base l (putFields ((List.range' i n).map (rowField lengths values)) c p cap)) := by
  have hvalid : ∀ f ∈ (List.range' i n).map (rowStore lengths values), f.Valid := by
    intro f hf
    obtain ⟨j, -, rfl⟩ := List.mem_map.1 hf
    exact rowStore_valid hv j
  rw [dataRowStores_eq]
  refine (putStores_built hvalid).conseq (fun _ ho => ho) ?_
  rintro r h ⟨gs, hgs, hb⟩
  rw [rows_of_puts hgs]
  exact hb

/-- **`pqwire_send_data_row_multi` on the heap is that of the model**, and leaves nothing of its
block. -/
theorem sendDataRowMulti_stands {lengths : Option (List Int32)} {values : Option (List (Option Bytes))}
    (hv : ValuesFit lengths values) (nCols : UInt16) :
    Triple (Stands c base l o) (o.sendDataRowMulti lengths values nCols) fun r h =>
      r.2 = (c.sendDataRowMulti lengths values nCols).2 ∧ Stands (c.sendDataRowMulti lengths values nCols).1 base l r.1 h := by
  refine Triple.ex fun b => Triple.assume fun hb => ?_
  have ht := Takes.allocated c
  unfold sendDataRowMulti Ctx.sendDataRowMulti
  dsimp only
  rw [dataRowCols_eq]
  set cap := 64 + nCols.toNat * 256
  refine malloc_filled.bind fun r => ?_
  unfold Ctx.allocOk
  by_cases hok : c.allocs.headD true = true
  · simp only [hok, if_true, not_true_eq_false, if_false]
    refine Triple.ex fun buf => Triple.assume ?_
    rintro rfl
    dsimp only
    have hw := wr16Be_length nCols.toNat
    refine (store_filled (p := []) (by rw [hw]; change 0 + 2 ≤ cap; omega)).bind fun _ => ?_
    rw [List.nil_append]
    have hloop := @dataRowStores_built base ((o.buf, b) :: l) c.allocated lengths values hv nCols.toNat 0 buf cap
      (wr16Be nCols.toNat)
    rw [hw] at hloop
    refine hloop.bind fun res => ?_
    have ht' := ht.trans (putFields_takes ((List.range' 0 nCols.toNat).map (rowField lengths values)) c.allocated
      (wr16Be nCols.toNat) cap)
    unfold Built
    generalize putFields ((List.range' 0 nCols.toNat).map (rowField lengths values)) c.allocated (wr16Be nCols.toNat) cap =
      loop at ht' ⊢
    obtain ⟨c₁, res'⟩ := loop
    cases res' with
    | none =>
      refine Triple.assume ?_
      rintro rfl
      exact .pure fun h ho => ⟨rfl, Stands.takes ht' hb ho⟩
    | some res' =>
      refine Triple.ex fun buf' => Triple.assume ?_
      rintro rfl
      exact emit_free ht' hb
  · simp only [hok, Bool.false_eq_true, if_false, not_false_eq_true, if_true]
    refine Triple.assume ?_
    rintro rfl
    exact .pure fun h ho => ⟨rfl, Stands.takes ht hb ho⟩

end Growing

end Pqwire

import Mathlib.Data.List.GetD
import Pqwire.Proof.Compose

/-!
# Identities that cannot be read back

The length of an identity goes into four bytes and comes out of them as an `int32`, so from
`2 ^ 31` bytes on a decoder takes a shorter value and goes on inside the identity.

* `sheet_misread`: the sheet that it finds.
* `rewrites_compose_iff`: so two rewrites compose exactly as long as what the first one wrote can
  be read back, in one slot and in two.
-/

namespace Pqwire

open ByteMem

/-! ## The value in the slot -/

theorem wr32Be_mod (v : ℕ) : wr32Be (v % 2 ^ 32) = wr32Be v := by
  have h := wr32Be_rd32Be (p := wr32Be v ++ []) (by simp)
  rw [rd32Be_wr32Be, List.append_nil, List.drop_of_length_le (by simp), List.append_nil] at h
  exact h

theorem toI32_toInt_neg {n : ℕ} (h : 2 ^ 31 ≤ n % 2 ^ 32) : (toI32 n).toInt < 0 := by
  unfold toI32
  show (UInt32.ofNat n).toBitVec.toInt < 0
  have hn : (UInt32.ofNat n).toBitVec.toNat = n % 2 ^ 32 := by
    rw [UInt32.toNat_toBitVec, UInt32.toNat_ofNat']
  have hlt : n % 2 ^ 32 < 2 ^ 32 := Nat.mod_lt _ (by decide)
  rw [BitVec.toInt_eq_toNat_cond, hn, if_neg (by omega)]
  omega

theorem toI32_mod (n : ℕ) : toI32 (n % 2 ^ 32) = toI32 n := by
  unfold toI32
  congr 1
  apply UInt32.toNat_inj.1
  rw [UInt32.toNat_ofNat', UInt32.toNat_ofNat', Nat.mod_mod]

/-- Where the identity was written, a decoder finds the value `f`, and behind it `left`, the end of the
identity. -/
structure ReadAs (identity : CStr) (f : Field) (left : Bytes) : Prop where
  wire : identityValue identity = f.enc ++ left
  len : f.len = toI32 identity.length
  long : 2 ^ 31 ≤ left.length
  noNul : (0 : UInt8) ∉ left

/-- An identity of `2 ^ 31` bytes or more is read as a value that is shorter by as much. -/
theorem identityValue_long {identity : CStr} (h : 2 ^ 31 ≤ identity.length) : ∃ f left, ReadAs identity f left := by
  have hlt : identity.length % 2 ^ 32 < 2 ^ 32 := Nat.mod_lt _ (by decide)
  have hk : (toI32 identity.length).toInt.toNat + 2 ^ 31 ≤ identity.length := by
    by_cases hneg : 2 ^ 31 ≤ identity.length % 2 ^ 32
    · have := toI32_toInt_neg hneg
      omega
    · have := toI32_toInt (n := identity.length % 2 ^ 32) (by omega)
      rw [toI32_mod] at this
      omega
  have hlen : identity.bytes.length = identity.length := rfl
  refine ⟨⟨toI32 identity.length, identity.bytes.take (toI32 identity.length).toInt.toNat, ?_⟩,
    identity.bytes.drop (toI32 identity.length).toInt.toNat, ?_, rfl, ?_,
    fun hm => identity.noNul (List.mem_of_mem_drop hm)⟩
  · rw [List.length_take, hlen]; omega
  · have hfield : wr32Be (toI32 identity.length).toUInt32.toNat = wr32Be identity.length := by
      rw [← toI32_mod, toUInt32_toI32 hlt, wr32Be_mod]
    simp only [Field.enc, identityValue, hfield, List.append_assoc, List.take_append_drop]
  · rw [List.length_drop, hlen]; omega

theorem ReadAs.length {identity : CStr} {f : Field} {left : Bytes} (h : ReadAs identity f left) :
    identity.length = f.len.toInt.toNat + left.length := by
  have hl := congrArg List.length h.wire
  rw [identityValue, List.length_append, List.length_append, wr32Be_length, f.enc_length] at hl
  have hb : identity.bytes.length = identity.length := rfl
  omega

/-- The count of result formats, when it is read inside the identity. -/
theorem rd16Be_nonzero {left : Bytes} (rest : Bytes) (hl : 2 ≤ left.length) (hz : (0 : UInt8) ∉ left) :
    maxBindParams ≤ rd16Be (left ++ rest) 0 := by
  rcases left with - | ⟨a, - | ⟨c, left⟩⟩
  · exact absurd hl (by decide)
  · exact absurd hl (by simp)
  · have ha : a ≠ 0 := fun h => hz (h ▸ List.mem_cons_self)
    have hpos : 0 < a.toNat := by
      rcases Nat.eq_zero_or_pos a.toNat with h0 | h0
      · exact absurd (UInt8.toNat_inj.1 h0) ha
      · exact h0
    have h : rd16Be (a :: c :: left ++ rest) 0 = 2 ^ 8 * a.toNat + c.toNat := by simp [rd16Be, byteAt]
    have hmax : maxBindParams = 32 := rfl
    omega

/-- A length that is read inside the identity is negative or large. -/
theorem field_nonzero {left rest u : Bytes} {f : Field} (hl : 4 ≤ left.length) (hz : (0 : UInt8) ∉ left)
    (h : left ++ rest = f.enc ++ u) : f.len.toInt.toNat = 0 ∨ 2 ^ 24 ≤ f.len.toInt.toNat := by
  have hread : rd32Be (left ++ rest) 0 = f.len.toUInt32.toNat := by
    rw [h, Field.enc, List.append_assoc, rd32Be_wr32Be, Nat.mod_eq_of_lt f.len.toUInt32.toNat_lt]
  obtain ⟨a, left', rfl⟩ : ∃ a left', left = a :: left' := List.exists_cons_of_length_pos (by omega)
  have ha : a ≠ 0 := fun h => hz (h ▸ List.mem_cons_self)
  have hpos : 0 < a.toNat := by
    rcases Nat.eq_zero_or_pos a.toNat with h0 | h0
    · exact absurd (UInt8.toNat_inj.1 h0) ha
    · exact h0
  have hbig : 2 ^ 24 ≤ rd32Be (a :: left' ++ rest) 0 := by
    have h0 : byteAt (a :: left' ++ rest) 0 = a.toNat := rfl
    unfold rd32Be
    rw [h0]
    omega
  by_cases hneg : f.len.toInt < 0
  · left; omega
  · right
    have hlen : f.len.toUInt32.toNat = f.len.toInt.toNat := by
      have hi : f.len.toInt = f.len.toBitVec.toInt := rfl
      have hu : f.len.toUInt32.toNat = f.len.toBitVec.toNat := rfl
      have hlt := f.len.toBitVec.isLt
      rw [hi, BitVec.toInt_eq_toNat_cond] at hneg ⊢
      rw [hu]
      split at hneg
      · rename_i h2
        rw [if_pos h2]
        omega
      · omega
    omega

/-! ## The sheet that is found -/

/-- A value as it is written again: every NULL with the length -1. -/
def Field.kept (f : Field) : Field := if f.len.toInt < 0 then .null else f

theorem Field.kept_length (f : Field) : f.kept.enc.length = f.enc.length := by
  rw [Field.enc_length, Field.enc_length]
  unfold Field.kept
  split
  · have : Field.null.len.toInt.toNat = 0 := by decide
    omega
  · rfl

variable {mem : Bytes} {b : BindMsg} {identity : CStr} {portal stmt : CStr}

/-- The slots of an event, from the values that its body holds. -/
theorem sheet_value {base : ℕ} {body pre rest : Bytes} {fs : List Field} {fmt : ℕ → Int16}
    (hb : body = pre ++ fs.flatMap Field.enc ++ rest) (hv : b.params = viewsAt base fmt 0 pre.length fs)
    (hm : slice mem base body.length = body) (i : ℕ) : (b.sheet mem).value i = (fs.getD i .absent).kept.enc := by
  obtain ⟨h1, h2⟩ := param_field hb hv hm i
  unfold BindMsg.sheet Field.kept
  dsimp only
  rw [h1, h2]
  split
  · rfl
  · rfl

theorem Field.kept_kept (f : Field) : f.kept.kept = f.kept := by
  by_cases h : f.len.toInt < 0
  · have hk : f.kept = .null := if_pos h
    rw [hk]
    rfl
  · have hk : f.kept = f := if_neg h
    rw [hk, hk]

/-- Every slot of an event holds a value of the grammar. -/
theorem sheet_field {base : ℕ} {body : Bytes} (hb : bindOf base body = some b) (hm : slice mem base body.length = body)
    (i : ℕ) : ∃ f : Field, (b.sheet mem).value i = f.kept.enc := by
  obtain ⟨pre, rest, fs, hbody, -, hv⟩ := bindOf_fields hb
  exact ⟨_, sheet_value hbody hv hm i⟩

theorem range_split {n slot : ℕ} (h : slot < n) :
    List.range n = List.range slot ++ slot :: List.range' (slot + 1) (n - slot - 1) := by
  have hn : n = slot + (n - slot - 1 + 1) := by omega
  rw [List.range_eq_range', List.range_eq_range', ← List.range'_succ]
  conv_lhs => rw [hn, ← List.range'_append_1, Nat.zero_add]

namespace Sheet

/-- The values of the first slots. -/
def below (x : Sheet) (slot : ℕ) : Bytes := (List.range slot).flatMap x.value

/-- What follows a slot. -/
def above (x : Sheet) (slot : ℕ) : Bytes :=
  (List.range' (slot + 1) (x.n - slot - 1)).flatMap x.value ++ encCodes x.results

/-- The part of the body in front of the values. -/
def head (portal stmt : CStr) (x : Sheet) : Bytes := bindHead portal stmt x.n x.n ((List.range x.n).map x.format)

theorem head_length (portal stmt : CStr) (x : Sheet) :
    (x.head portal stmt).length = portal.length + 1 + (stmt.length + 1) + 2 + 2 * x.n + 2 := by
  rw [head, bindHead_length, List.length_map, List.length_range]

/-- A body, cut at a slot. -/
theorem body_split {x : Sheet} {slot : ℕ} (h : slot < x.n) (portal stmt : CStr) :
    x.body portal stmt = x.head portal stmt ++ (x.below slot ++ (x.value slot ++ x.above slot)) := by
  have hvals : (List.range x.n).flatMap x.value = x.below slot ++ (x.value slot ++
      (List.range' (slot + 1) (x.n - slot - 1)).flatMap x.value) := by
    rw [range_split h, List.flatMap_append, List.flatMap_cons]
    rfl
  simp only [body, hvals, head, above, bindHead, encCodes, List.length_map, List.length_range, List.append_assoc]

end Sheet

/-- The sheet `y` is what a decoder makes of the body with the sheet `x`, whose slot holds an identity that
it reads as the value `f`: below the slot it finds what was written, above it the values `gs` at the
end of the identity, and behind these, in `u`, the result formats. -/
structure Misread (x y : Sheet) (slot : ℕ) (identity : CStr) (f : Field) (left : Bytes) (gs : List Field) (u : Bytes) :
    Prop where
  read : ReadAs identity f left
  n : y.n = x.n
  below : ∀ i < slot, y.value i = x.value i
  here : y.value slot = f.kept.enc
  few : gs.length ≤ x.n - slot - 1
  wire : left ++ x.above slot = gs.flatMap Field.enc ++ u
  above : ∀ i, y.value (slot + 1 + i) = (gs.getD i .absent).kept.enc
  results : y.results.length = if 2 ≤ u.length then min (rd16Be u 0) maxBindParams else 0

/-- The parameter loop reads the values `fs` in front of the slot, the value `f`, and goes on inside the identity. -/
theorem misread_loop {x : Sheet} {slot : ℕ} {f : Field} {left : Bytes} {fs : List Field} (hn : x.n ≤ maxBindParams)
    (hslot : slot < x.n) (hfs : fs.length = slot)
    (hbody : x.body portal stmt = x.head portal stmt ++ (fs ++ [f]).flatMap Field.enc ++ (left ++ x.above slot))
    (hb : bindOf 5 (x.body portal stmt) = some b) :
    ∃ gs u, gs.length ≤ x.n - slot - 1 ∧ left ++ x.above slot = gs.flatMap Field.enc ++ u ∧
      x.body portal stmt = x.head portal stmt ++ (fs ++ [f] ++ gs).flatMap Field.enc ++ u ∧
      b.params = viewsAt 5 (formatFor x.n ((List.range x.n).map x.format)) 0 (x.head portal stmt).length (fs ++ [f] ++ gs) ∧
      b.nParams = x.n ∧ b.nResultFormats = if 2 ≤ u.length then min (rd16Be u 0) maxBindParams else 0 := by
  have hmax : maxBindParams = 32 := rfl
  have hcounts : x.n < 2 ^ 16 := by omega
  have hformats : ((List.range x.n).map x.format).length = min x.n maxBindParams := by
    rw [List.length_map, List.length_range, min_eq_left hn]
  -- the head is decoded as it was written, and the loop starts behind it
  have hhead := bindOf_head portal stmt 5 hcounts hcounts hformats ((fs ++ [f]).flatMap Field.enc ++ (left ++ x.above slot))
  have hsame : bindHead portal stmt x.n x.n ((List.range x.n).map x.format) ++
      ((fs ++ [f]).flatMap Field.enc ++ (left ++ x.above slot)) = x.body portal stmt := by
    rw [hbody, List.append_assoc]
    rfl
  rw [min_eq_left hn, hsame, hb] at hhead
  change some b = Option.map _ (readParams 5 _ _ _ 0 (x.head portal stmt).length) at hhead
  have hps := readParams_enc 5 (formatFor x.n ((List.range x.n).map x.format)) (left ++ x.above slot)
    (x.n - slot - 1) (fs ++ [f]) (x.head portal stmt) 0
  have hcount : (fs ++ [f]).length + (x.n - slot - 1) = x.n := by
    rw [List.length_append, hfs, List.length_singleton]; omega
  rw [← hbody, hcount] at hps
  rw [hps] at hhead
  obtain ⟨r, hr, hbr⟩ := Option.map_eq_some_iff.1 hhead.symm
  obtain ⟨⟨vs, e⟩, hr', rfl⟩ := Option.map_eq_some_iff.1 hr
  obtain ⟨gs, hfew, hv, -, hdrop⟩ := readParams_some hr'
  rw [show (x.body portal stmt).drop _ = left ++ x.above slot by rw [hbody, ← List.length_append, List.drop_left]] at hdrop
  refine ⟨gs, (x.body portal stmt).drop e, hfew, hdrop, ?_, ?_, ?_, ?_⟩
  · rw [List.flatMap_append, ← List.append_assoc, List.append_assoc _ (gs.flatMap Field.enc), ← hdrop, ← hbody]
  · rw [viewsAt_append, ← hbr]
    show viewsAt _ _ _ _ _ ++ vs = _
    rw [hv]
  · rw [← hbr]
    rfl
  · rw [← hbr, List.length_drop, rd16Be_drop]
    unfold bindEnd
    dsimp only
    rw [Nat.add_zero]
    refine if_congr ?_ rfl rfl
    omega

/-- **What a decoder finds where an identity cannot be read back.** -/
theorem sheet_misread {x : Sheet} {slot : ℕ} (hn : x.n ≤ maxBindParams) (hslot : slot < x.n)
    (hx : ∀ i < slot, ∃ f : Field, x.value i = f.kept.enc) (hid : x.value slot = identityValue identity)
    (hlong : 2 ^ 31 ≤ identity.length) (hb : bindOf 5 (x.body portal stmt) = some b) :
    ∃ f left gs u, Misread x (b.sheet (List.replicate 5 0 ++ x.body portal stmt)) slot identity f left gs u := by
  obtain ⟨f, left, hread⟩ := identityValue_long hlong
  -- the values in front of the slot, as values of the grammar
  have hfield : ∀ i, ∃ g : Field, i < slot → x.value i = g.kept.enc := by
    intro i
    by_cases hi : i < slot
    · obtain ⟨g, hg⟩ := hx i hi
      exact ⟨g, fun _ => hg⟩
    · exact ⟨.absent, fun h => absurd h hi⟩
  choose g hg using hfield
  set fs := (List.range slot).map (fun i => (g i).kept) with hfs
  have hfslen : fs.length = slot := by rw [hfs, List.length_map, List.length_range]
  have hfront : (fs ++ [f]).length = slot + 1 := by rw [List.length_append, hfslen, List.length_singleton]
  have hbelow : x.below slot = fs.flatMap Field.enc := by
    rw [hfs, List.flatMap_map]
    exact List.flatMap_congr fun i hi => hg i (List.mem_range.1 hi)
  have hbody : x.body portal stmt = x.head portal stmt ++ (fs ++ [f]).flatMap Field.enc ++ (left ++ x.above slot) := by
    rw [Sheet.body_split hslot, hbelow, hid, hread.wire]
    simp only [List.flatMap_append, List.flatMap_cons, List.flatMap_nil, List.append_nil, List.append_assoc]
  obtain ⟨gs, u, hfew, hwire, hall, hparams, hcount, hresults⟩ := misread_loop hn hslot hfslen hbody hb
  have hvalue := sheet_value hall hparams (slice_frame (x.body portal stmt))
  refine ⟨f, left, gs, u, hread, hcount, ?_, ?_, hfew, hwire, ?_, ?_⟩
  · intro i hi
    have hget : (fs ++ [f] ++ gs).getD i .absent = (g i).kept := by
      rw [List.append_assoc, List.getD_append _ _ _ _ (by omega), hfs, List.getD_eq_getElem?_getD, List.getElem?_map,
        List.getElem?_range hi]
      rfl
    rw [hvalue, hget, Field.kept_kept, hg i hi]
  · have hget : (fs ++ [f] ++ gs).getD slot .absent = f := by
      rw [List.append_assoc, List.getD_append_right _ _ _ _ (by omega), hfslen, Nat.sub_self]
      rfl
    rw [hvalue, hget]
  · intro i
    rw [hvalue, List.getD_append_right _ _ _ _ (by omega), hfront, Nat.add_sub_cancel_left]
  · show (List.map _ (List.range b.nResultFormats)).length = _
    rw [List.length_map, List.length_range, hresults]

/-- Values of the grammar, as many of each, that the same bytes begin with are the same. -/
theorem fields_unique {fs gs : List Field} {u v : Bytes} (hl : fs.length = gs.length)
    (h : fs.flatMap Field.enc ++ u = gs.flatMap Field.enc ++ v) : fs = gs ∧ u = v := by
  induction fs generalizing gs with
  | nil =>
    cases List.length_eq_zero_iff.1 hl.symm
    exact ⟨rfl, h⟩
  | cons f fs ih =>
    obtain ⟨g, gs, rfl⟩ := List.exists_cons_of_length_pos (hl ▸ Nat.succ_pos _ : 0 < gs.length)
    simp only [List.flatMap_cons, Field.enc, List.append_assoc] at h
    obtain ⟨hlen, h⟩ := List.append_inj h (by rw [wr32Be_length, wr32Be_length])
    have hfg : f.len = g.len := by
      have hread := congrArg (rd32Be · 0) hlen
      have hf := rd32Be_wr32Be f.len.toUInt32.toNat []
      have hg := rd32Be_wr32Be g.len.toUInt32.toNat []
      rw [List.append_nil] at hf hg
      rw [hf, hg] at hread
      rw [← toI32_toUInt32 f.len, hread, toI32_toUInt32]
    obtain ⟨hdata, h⟩ := List.append_inj h (by rw [f.ok, g.ok, hfg])
    obtain ⟨rfl, hu⟩ := ih (by simpa using hl) h
    exact ⟨by rw [Field.ext hfg hdata], hu⟩

/-- The size of `n` slots that hold the values `fs`. -/
theorem slots_length (fs : List Field) {n : ℕ} (h : fs.length ≤ n) :
    ((List.range n).flatMap fun i => (fs.getD i .absent).kept.enc).length =
      (fs.flatMap Field.enc).length + 4 * (n - fs.length) := by
  induction fs generalizing n with
  | nil =>
    have h4 : Field.absent.kept.enc.length = 4 := rfl
    simp only [List.getD_nil, List.length_flatMap, h4, List.map_const', List.length_range, List.sum_replicate,
      smul_eq_mul, List.flatMap_nil, List.length_nil, Nat.sub_zero, Nat.zero_add]
    omega
  | cons f fs ih =>
    obtain ⟨n, rfl⟩ : ∃ m, n = m + 1 := ⟨n - 1, by rw [List.length_cons] at h; omega⟩
    have hrec := ih (n := n) (by rw [List.length_cons] at h; omega)
    rw [List.range_succ_eq_map, List.flatMap_cons, List.length_append, List.flatMap_map]
    simp only [List.getD_cons_succ, List.getD_cons_zero, Field.kept_length, List.flatMap_cons, List.length_append,
      List.length_cons]
    rw [hrec]
    omega

/-- Where two sheets have the same bytes behind a slot, their values and their result formats are as long. -/
theorem above_unique {x y : Sheet} {slot : ℕ} (hn : y.n = x.n) (hx : ∀ i, ∃ g : Field, x.value (slot + 1 + i) = g.kept.enc)
    (hy : ∀ i, ∃ g : Field, y.value (slot + 1 + i) = g.kept.enc) (h : y.above slot = x.above slot) :
    ((List.range' (slot + 1) (x.n - slot - 1)).flatMap y.value).length =
      ((List.range' (slot + 1) (x.n - slot - 1)).flatMap x.value).length ∧ y.results.length = x.results.length := by
  have hfields : ∀ z : Sheet, (∀ i, ∃ g : Field, z.value (slot + 1 + i) = g.kept.enc) → ∃ fs : List Field,
      fs.length = x.n - slot - 1 ∧ (List.range' (slot + 1) (x.n - slot - 1)).flatMap z.value = fs.flatMap Field.enc := by
    intro z hz
    choose g hg using hz
    refine ⟨(List.range (x.n - slot - 1)).map fun i => (g i).kept, by rw [List.length_map, List.length_range], ?_⟩
    rw [List.flatMap_map, List.range'_eq_map_range, List.flatMap_map]
    exact List.flatMap_congr fun i _ => hg i
  obtain ⟨fs, hfs, hxv⟩ := hfields x hx
  obtain ⟨gs, hgs, hyv⟩ := hfields y hy
  unfold Sheet.above at h
  rw [hn, hxv, hyv] at h
  obtain ⟨rfl, hcodes⟩ := fields_unique (hgs.trans hfs.symm) h
  have hl := congrArg List.length hcodes
  rw [encCodes, encCodes, List.length_append, List.length_append, wr16Be_length, wr16Be_length, flatMap_encCode_length,
    flatMap_encCode_length] at hl
  exact ⟨by rw [hyv, hxv], by omega⟩

/-- The values that a decoder finds behind the slot. -/
theorem Misread.above_length {x y : Sheet} {slot : ℕ} {identity : CStr} {f : Field} {left u : Bytes} {gs : List Field}
    (h : Misread x y slot identity f left gs u) :
    ((List.range' (slot + 1) (x.n - slot - 1)).flatMap y.value).length =
      (gs.flatMap Field.enc).length + 4 * (x.n - slot - 1 - gs.length) := by
  rw [← slots_length gs h.few, List.range'_eq_map_range, List.flatMap_map]
  congr 1
  exact List.flatMap_congr fun i _ => h.above i

/-- Where they end inside the identity, 32 result formats are found behind them. -/
theorem Misread.results_full {x y : Sheet} {slot : ℕ} {identity : CStr} {f : Field} {left u : Bytes} {gs : List Field}
    (h : Misread x y slot identity f left gs u) (hl : (gs.flatMap Field.enc).length + 2 ≤ left.length) :
    y.results.length = maxBindParams := by
  have hu : u = left.drop (gs.flatMap Field.enc).length ++ x.above slot := by
    have hd := congrArg (List.drop (gs.flatMap Field.enc).length) h.wire
    rw [List.drop_left, List.drop_append_of_le_length (by omega)] at hd
    exact hd.symm
  have hdrop : 2 ≤ (left.drop (gs.flatMap Field.enc).length).length := by
    rw [List.length_drop]
    omega
  rw [h.results, hu, if_pos (by rw [List.length_append]; omega)]
  exact min_eq_right (rd16Be_nonzero _ hdrop fun hm => h.read.noNul (List.mem_of_mem_drop hm))

/-- The value in the slot is as long as the length that was read. -/
theorem Misread.here_length {x y : Sheet} {slot : ℕ} {identity : CStr} {f : Field} {left u : Bytes} {gs : List Field}
    (h : Misread x y slot identity f left gs u) : (y.value slot).length = 4 + (toI32 identity.length).toInt.toNat ∧
      (toI32 identity.length).toInt.toNat + 2 ^ 31 ≤ identity.length := by
  have hlen := h.read.length
  have hlong := h.read.long
  rw [h.read.len] at hlen
  rw [h.here, Field.kept_length, Field.enc_length, h.read.len]
  exact ⟨rfl, by omega⟩

/-- The value behind the slot is a NULL or a large one. -/
theorem Misread.next_length {x y : Sheet} {slot : ℕ} {identity : CStr} {f : Field} {left u : Bytes} {gs : List Field}
    (h : Misread x y slot identity f left gs u) :
    (y.value (slot + 1)).length = 4 ∨ 2 ^ 24 ≤ (y.value (slot + 1)).length := by
  have habove := h.above 0
  rw [Nat.add_zero] at habove
  rw [habove, Field.kept_length, Field.enc_length]
  cases gs with
  | nil => exact Or.inl rfl
  | cons g gs =>
    have hwire := h.wire
    rw [List.flatMap_cons, List.append_assoc] at hwire
    have hlong := h.read.long
    rw [List.getD_cons_zero]
    rcases field_nonzero (by omega) h.read.noNul hwire with h0 | h0
    · left; omega
    · right; omega

/-! ## Two rewrites -/

namespace Rewriting

variable {portal statement : Option CStr} {r r' : Rewriting} {body out : Bytes} {cap : ℕ}

/-- The slots of the event that a body is decoded to, where `parse_bind_msg` finds it in a frame. -/
abbrev slots (b : BindMsg) (body : Bytes) : Sheet := b.sheet (List.replicate 5 0 ++ body)

theorem apply_some (h : r.apply portal statement cap body = some out) (hb : bindOf 5 body = some b) :
    out.drop 5 = encode portal statement (r.write (slots b body)) := by
  unfold apply at h
  rw [hb] at h
  obtain ⟨-, -, rfl⟩ := bindRewriteIdentityZerocopy_eq_some.1 h
  exact (bindFrame_drop _).trans (rewriteBody_sheet _ _ _ _ _ _ _)

theorem chain_some (h : chain portal statement cap r r' body = some out) (hb : bindOf 5 body = some b) :
    ∃ b', bindOf 5 (encode portal statement (r.write (slots b body))) = some b' ∧
      out.drop 5 = encode portal statement (r'.write (slots b' (encode portal statement (r.write (slots b body))))) := by
  obtain ⟨out₁, hfirst, hsecond⟩ := Option.bind_eq_some_iff.1 h
  rw [apply_some hfirst hb] at hsecond
  cases hb' : bindOf 5 (encode portal statement (r.write (slots b body))) with
  | none =>
    unfold apply at hsecond
    rw [hb'] at hsecond
    cases hsecond
  | some b' => exact ⟨b', rfl, apply_some hsecond hb'⟩

/-- The second of two rewrites works on what was written, when that can be read back. -/
theorem chain_reread (h : chain portal statement cap r r' body = some out) (hb : bindOf 5 body = some b)
    (hid : r.identity.length < 2 ^ 31) :
    ∃ y : Sheet, y.Same (r.write (slots b body)) ∧ out.drop 5 = encode portal statement (r'.write y) := by
  obtain ⟨b', hb', hout⟩ := chain_some h hb
  obtain ⟨b'', hb'', hsame⟩ := sheet_rewritten hb (slice_frame body) (portal.getD CStr.empty) (statement.getD CStr.empty)
    r.slot.toNat hid r.asBinary
  rw [rewriteBody_sheet] at hb'' hsame
  cases hb'.symm.trans hb''
  exact ⟨_, hsame, hout⟩

/-- Otherwise it works on what a decoder finds. -/
theorem chain_misread (h : chain portal statement cap r r' body = some out) (hb : bindOf 5 body = some b)
    (hs : r.slot.toNat < b.nParams) (hid : 2 ^ 31 ≤ r.identity.length) : ∃ (y : Sheet) (f : Field) (left : Bytes)
      (gs : List Field) (u : Bytes), Misread (r.write (slots b body)) y r.slot.toNat r.identity f left gs u ∧
        out.drop 5 = encode portal statement (r'.write y) := by
  obtain ⟨b', hb', hout⟩ := chain_some h hb
  have hvalue : ∀ i < r.slot.toNat, ∃ f : Field, (r.write (slots b body)).value i = f.kept.enc := by
    intro i hi
    obtain ⟨f, hf⟩ := sheet_field hb (slice_frame body) i
    refine ⟨f, ?_⟩
    show Function.update _ _ _ i = _
    rw [Function.update_of_ne (by omega)]
    exact hf
  obtain ⟨-, hn, -⟩ := bindOf_limits hb
  obtain ⟨f, left, gs, u, hm⟩ := sheet_misread hn hs hvalue (Function.update_self ..) hid hb'
  exact ⟨_, f, left, gs, u, hm, hout⟩

theorem write_value (r : Rewriting) (x : Sheet) : (r.write x).value r.slot.toNat = identityValue r.identity :=
  Function.update_self ..

theorem write_value_of_ne (r : Rewriting) (x : Sheet) {i : ℕ} (h : i ≠ r.slot.toNat) : (r.write x).value i = x.value i :=
  Function.update_of_ne h ..

/-- What the two sheets of one message have in common in front of a slot. -/
theorem encode_slot {x y : Sheet} {slot : ℕ} (h : encode portal statement x = encode portal statement y) (hn : x.n = y.n)
    (hslot : slot < x.n) (hv : ∀ i < slot, x.value i = y.value i) :
    x.value slot ++ x.above slot = y.value slot ++ y.above slot := by
  have hbelow : x.below slot = y.below slot := List.flatMap_congr fun i hi => hv i (List.mem_range.1 hi)
  unfold encode at h
  rw [Sheet.body_split hslot, Sheet.body_split (by rw [← hn]; exact hslot), hbelow] at h
  obtain ⟨-, h⟩ := List.append_inj h (by rw [Sheet.head_length, Sheet.head_length, hn])
  exact List.append_cancel_left h

/-- **Two slots**: where the lower of two long identities, or the only one, was written first, a NULL is
written again. -/
theorem twoSlots_long (hb : bindOf 5 body = some b) (hs : r.slot.toNat < b.nParams) (hs' : r'.slot.toNat < b.nParams)
    (hne : r.slot.toNat ≠ r'.slot.toNat) (hid : 2 ^ 31 ≤ r.identity.length) (hlt : r.identity.length < 2 ^ 32 - 1)
    (hlow : r.slot.toNat < r'.slot.toNat ∨ r'.identity.length < 2 ^ 31) :
    ¬SameMessage (chain portal statement · r r' body) (chain portal statement · r' r body) := by
  rintro ⟨need, hsame⟩
  obtain ⟨out, h, h'⟩ := hsame need le_rfl
  obtain ⟨y, f, left, gs, u, hy, ho⟩ := chain_misread h hb hs hid
  -- in the other order everything below the slot is right, too
  obtain ⟨z, hzn, hz, ho'⟩ : ∃ z : Sheet, z.n = b.nParams ∧
      (∀ i < r.slot.toNat, z.value i = (r'.write (slots b body)).value i) ∧
      out.drop 5 = encode portal statement (r.write z) := by
    by_cases hid' : r'.identity.length < 2 ^ 31
    · obtain ⟨z, hz, ho'⟩ := chain_reread h' hb hid'
      exact ⟨z, hz.n, fun i hi => hz.value i (by rw [hz.n]; exact hi.trans hs), ho'⟩
    · obtain ⟨z, f', left', gs', u', hz, ho'⟩ := chain_misread h' hb hs' (not_lt.1 hid')
      exact ⟨z, hz.n, fun i hi => hz.below i (hi.trans (hlow.resolve_right hid')), ho'⟩
  have hn : (r'.write y).n = (r.write z).n := by
    show y.n = z.n
    rw [hy.n, hzn]
    rfl
  have hslot : r.slot.toNat < (r'.write y).n := by
    show _ < y.n
    rw [hy.n]
    exact hs
  have heq := encode_slot (ho.symm.trans ho') hn hslot fun i hi => by
    rw [write_value_of_ne r z (by omega), hz i hi]
    by_cases hi' : i = r'.slot.toNat
    · rw [hi', write_value, write_value]
    · rw [write_value_of_ne _ _ hi', write_value_of_ne _ _ hi', hy.below i hi, write_value_of_ne _ _ (by omega)]
  have hnull : f.kept.enc = wr32Be (2 ^ 32 - 1) := by
    have hneg : f.len.toInt < 0 := by
      rw [hy.read.len]
      exact toI32_toInt_neg (by omega)
    unfold Field.kept
    rw [if_pos hneg]
    rfl
  rw [write_value_of_ne r' y hne, hy.here, hnull, write_value, identityValue, List.append_assoc] at heq
  have hread := congrArg (rd32Be · 0) heq
  simp only [rd32Be_wr32Be] at hread
  omega

/-- The slots of an event are not much larger than its body. -/
theorem slots_le (hb : bindOf 5 body = some b) :
    ((List.range b.nParams).flatMap (slots b body).value).length ≤ body.length + 4 * maxBindParams := by
  obtain ⟨pre, rest, fs, hbody, hle, hv⟩ := bindOf_fields hb
  have hvalue : (slots b body).value = fun i => (fs.getD i .absent).kept.enc :=
    funext fun i => sheet_value hbody hv (slice_frame body) i
  obtain ⟨-, hmax, -⟩ := bindOf_limits hb
  rw [hvalue, slots_length fs hle]
  have hl := congrArg List.length hbody
  rw [List.length_append, List.length_append] at hl
  omega

theorem write_above (r : Rewriting) (x : Sheet) : (r.write x).above r.slot.toNat = x.above r.slot.toNat := by
  have hv : (List.range' (r.slot.toNat + 1) (x.n - r.slot.toNat - 1)).flatMap (r.write x).value =
      (List.range' (r.slot.toNat + 1) (x.n - r.slot.toNat - 1)).flatMap x.value := by
    refine List.flatMap_congr fun i hi => write_value_of_ne r x ?_
    have := (List.mem_range'_1.1 hi).1
    omega
  unfold Sheet.above
  rw [← hv]
  rfl

/-- **One slot**: behind a long identity the second rewrite finds 32 result formats. -/
theorem sameSlot_long (hb : bindOf 5 body = some b) (hs : r.slot.toNat < b.nParams) (hslot : r'.slot = r.slot)
    (hid : 2 ^ 31 ≤ r.identity.length) (hbody : body.length < 2 ^ 30) (hr : b.nResultFormats < maxBindParams) :
    ¬SameMessage (chain portal statement · r r' body) (apply portal statement · r' body) := by
  rintro ⟨need, hsame⟩
  obtain ⟨out, h, h'⟩ := hsame need le_rfl
  obtain ⟨y, f, left, gs, u, hy, ho⟩ := chain_misread h hb hs hid
  have hmax : maxBindParams = 32 := rfl
  have hs' : r'.slot.toNat = r.slot.toNat := by rw [hslot]
  have hyn : y.n = b.nParams := hy.n
  -- the values behind the slot are as long as those of the event
  have heq := @encode_slot _ _ _ _ r.slot.toNat (ho.symm.trans (apply_some h' hb)) hyn (hyn ▸ hs) fun i hi => by
    rw [write_value_of_ne _ _ (by omega), write_value_of_ne _ _ (by omega), hy.below i hi, write_value_of_ne r _ (by omega)]
  rw [← hs', write_value, write_value, write_above, write_above, hs'] at heq
  obtain ⟨hvalues, hresults⟩ := above_unique (x := slots b body) hyn
    (fun i => sheet_field hb (slice_frame body) _) (fun i => ⟨_, hy.above i⟩) (List.append_cancel_left heq)
  have hbound : ((List.range' (r.slot.toNat + 1) (b.nParams - r.slot.toNat - 1)).flatMap (slots b body).value).length ≤
      body.length + 4 * maxBindParams := by
    refine le_trans ?_ (slots_le hb)
    rw [range_split hs, List.flatMap_append, List.flatMap_cons, List.length_append, List.length_append]
    omega
  have hsize : (gs.flatMap Field.enc).length + 4 * (b.nParams - r.slot.toNat - 1 - gs.length) =
      ((List.range' (r.slot.toNat + 1) (b.nParams - r.slot.toNat - 1)).flatMap (slots b body).value).length :=
    hy.above_length.symm.trans hvalues
  have hfull := hy.results_full (by have := hy.read.long; omega)
  have hxr : (slots b body).results.length = b.nResultFormats := by
    show (List.map _ (List.range b.nResultFormats)).length = _
    rw [List.length_map, List.length_range]
  omega

theorem sameSlot_iff (hb : bindOf 5 body = some b) (hs : r.slot.toNat < b.nParams) (hslot : r'.slot = r.slot)
    (hbody : body.length < 2 ^ 30) (hr : b.nResultFormats < maxBindParams) :
    SameMessage (chain portal statement · r r' body) (apply portal statement · r' body) ↔ r.identity.length < 2 ^ 31 := by
  refine ⟨fun h => ?_, sameSlot_last hb hs hslot⟩
  by_contra hlong
  exact sameSlot_long hb hs hslot (not_lt.1 hlong) hbody hr h

theorem SameMessage.symm {f g : ℕ → Option Bytes} (h : SameMessage f g) : SameMessage g f := by
  obtain ⟨need, hsame⟩ := h
  refine ⟨need, fun cap hcap => ?_⟩
  obtain ⟨out, hf, hg⟩ := hsame cap hcap
  exact ⟨out, hg, hf⟩

theorem twoSlots_iff (hb : bindOf 5 body = some b) (hs : r.slot.toNat < b.nParams) (hs' : r'.slot.toNat < b.nParams)
    (hne : r.slot ≠ r'.slot) (hlt : r.identity.length < 2 ^ 32 - 1) (hlt' : r'.identity.length < 2 ^ 32 - 1) :
    SameMessage (chain portal statement · r r' body) (chain portal statement · r' r body) ↔
      r.identity.length < 2 ^ 31 ∧ r'.identity.length < 2 ^ 31 := by
  have hne' : r.slot.toNat ≠ r'.slot.toNat := fun h => hne (UInt16.toNat_inj.1 h)
  refine ⟨fun h => ?_, fun h => twoSlots_comm hb hs hs' hne h.1 h.2⟩
  by_contra hlong
  by_cases hid : r.identity.length < 2 ^ 31
  · have hid' : 2 ^ 31 ≤ r'.identity.length := not_lt.1 fun h' => hlong ⟨hid, h'⟩
    exact twoSlots_long hb hs' hs hne'.symm hid' hlt' (Or.inr hid) h.symm
  · rw [not_lt] at hid
    by_cases hlow : r.slot.toNat < r'.slot.toNat ∨ r'.identity.length < 2 ^ 31
    · exact twoSlots_long hb hs hs' hne' hid hlt hlow h
    · rw [not_or, not_lt, not_lt] at hlow
      exact twoSlots_long hb hs' hs hne'.symm hlow.2 hlt' (Or.inl (by omega)) h.symm

/-! ### Every body -/

theorem sevenBind_decoded : bindOf 5 sevenBind.enc = some (sevenBind.msg 5) := bindOf_enc (by decide) 5

theorem seven_long {id₁ : CStr} (id₂ : CStr) (h : 2 ^ 31 ≤ id₁.length) :
    ¬SameMessage (chain portal statement · ⟨0, id₁, false⟩ ⟨0, id₂, false⟩ sevenBind.enc)
      (apply portal statement · ⟨0, id₂, false⟩ sevenBind.enc) := by
  have hs : (0 : UInt16).toNat < (sevenBind.msg 5).nParams := by decide
  exact sameSlot_long sevenBind_decoded hs rfl h (by decide) (by decide)

/-- Three parameters, `7` each. -/
def threeBind : BindBody := .ofParams [.byte 55, .byte 55, .byte 55] (by decide)

theorem threeBind_decoded : bindOf 5 threeBind.enc = some (threeBind.msg 5) := bindOf_enc (by decide) 5

/-- The sizes of three slots in two sheets of one message. -/
theorem three_length {x y : Sheet} (hx : x.n = 3) (hy : y.n = 3)
    (h : encode portal statement x = encode portal statement y) :
    (x.value 0).length + (x.value 1).length + (x.value 2).length + 2 * x.results.length =
      (y.value 0).length + (y.value 1).length + (y.value 2).length + 2 * y.results.length := by
  have hl := congrArg List.length h
  have h3 : List.range 3 = [0, 1, 2] := rfl
  simp only [Sheet.body, hx, hy, h3, encCodes, List.length_append, wr16Be_length, flatMap_encCode_length, List.length_map,
    List.flatMap_cons, List.flatMap_nil, List.length_nil] at hl
  omega

theorem identityValue_length (identity : CStr) : (identityValue identity).length = 4 + identity.length := by
  rw [identityValue, List.length_append, wr32Be_length]
  rfl

/-- A long identity in the first slot, then the other one in the last. -/
theorem three_first (h : chain portal statement cap r r' threeBind.enc = some out) (hs : r.slot = 0) (hs' : r'.slot = 2)
    (hid : 2 ^ 31 ≤ r.identity.length) : ∃ y : Sheet, y.n = 3 ∧ out.drop 5 = encode portal statement y ∧
      (y.value 0).length = 4 + (toI32 r.identity.length).toInt.toNat ∧
      ((y.value 1).length = 4 ∨ 2 ^ 24 ≤ (y.value 1).length) ∧ (y.value 2).length = 4 + r'.identity.length ∧
      y.results.length ≤ 32 := by
  have h0 : r.slot.toNat = 0 := by rw [hs]; rfl
  have h2 : r'.slot.toNat = 2 := by rw [hs']; rfl
  obtain ⟨y, f, left, gs, u, hy, ho⟩ := chain_misread h threeBind_decoded (by rw [h0]; decide) hid
  have hhere := hy.here_length.1
  have hnext := hy.next_length
  rw [h0] at hhere hnext
  refine ⟨r'.write y, hy.n, ho, ?_, ?_, ?_, ?_⟩
  · rw [write_value_of_ne r' y (by omega)]
    exact hhere
  · rw [write_value_of_ne r' y (by omega)]
    exact hnext
  · rw [← h2, write_value, identityValue_length]
  · show y.results.length ≤ 32
    rw [hy.results]
    split
    · exact min_le_right _ _
    · exact Nat.zero_le _

/-- A long identity in the last slot, then the other one in the first. -/
theorem three_last (h : chain portal statement cap r r' threeBind.enc = some out) (hs : r.slot = 2) (hs' : r'.slot = 0)
    (hid : 2 ^ 31 ≤ r.identity.length) : ∃ y : Sheet, y.n = 3 ∧ out.drop 5 = encode portal statement y ∧
      (y.value 0).length = 4 + r'.identity.length ∧ (y.value 1).length = 5 ∧
      (y.value 2).length = 4 + (toI32 r.identity.length).toInt.toNat ∧ y.results.length = 32 := by
  have h2 : r.slot.toNat = 2 := by rw [hs]; rfl
  have h0 : r'.slot.toNat = 0 := by rw [hs']; rfl
  obtain ⟨y, f, left, gs, u, hy, ho⟩ := chain_misread h threeBind_decoded (by rw [h2]; decide) hid
  have hhere := hy.here_length.1
  have hbelow := hy.below 1 (by omega)
  have hgs : gs = [] := by
    have hfew : gs.length ≤ 3 - r.slot.toNat - 1 := hy.few
    exact List.length_eq_zero_iff.1 (by omega)
  rw [h2] at hhere
  refine ⟨r'.write y, hy.n, ho, ?_, ?_, ?_, hy.results_full ?_⟩
  · rw [← h0, write_value, identityValue_length]
  · rw [write_value_of_ne r' y (by omega), hbelow, write_value_of_ne r _ (by omega)]
    decide
  · rw [write_value_of_ne r' y (by omega)]
    exact hhere
  · have hlong := hy.read.long
    rw [hgs, List.flatMap_nil, List.length_nil]
    omega

/-- A short identity in the first slot, then the other one in the last. -/
theorem three_reread (h : chain portal statement cap r r' threeBind.enc = some out) (hs : r.slot = 0) (hs' : r'.slot = 2)
    (hid : r.identity.length < 2 ^ 31) : ∃ y : Sheet, y.n = 3 ∧ out.drop 5 = encode portal statement y ∧
      (y.value 0).length = 4 + r.identity.length ∧ (y.value 1).length = 5 ∧
      (y.value 2).length = 4 + r'.identity.length ∧ y.results.length = 1 := by
  have h0 : r.slot.toNat = 0 := by rw [hs]; rfl
  have h2 : r'.slot.toNat = 2 := by rw [hs']; rfl
  obtain ⟨y, hy, ho⟩ := chain_reread h threeBind_decoded hid
  have hn : y.n = 3 := hy.n
  refine ⟨r'.write y, hn, ho, ?_, ?_, ?_, ?_⟩
  · rw [write_value_of_ne r' y (by omega), hy.value 0 (by omega), ← h0, write_value, identityValue_length]
  · rw [write_value_of_ne r' y (by omega), hy.value 1 (by omega), write_value_of_ne r _ (by omega)]
    decide
  · rw [← h2, write_value, identityValue_length]
  · show y.results.length = 1
    rw [hy.results]
    rfl

/-- In a body of three slots the first of two identities has to be short. -/
theorem orderFree_short {id₁ id₂ : CStr} (h : OrderFree portal statement id₁ id₂) : id₁.length < 2 ^ 31 := by
  by_contra hlong
  rw [not_lt] at hlong
  have hread : ∀ id : CStr, 2 ^ 31 ≤ id.length → (toI32 id.length).toInt.toNat + 2 ^ 31 ≤ id.length := by
    intro id hid
    obtain ⟨f, left, hr⟩ := identityValue_long hid
    have := hr.length
    have := hr.long
    rw [← hr.len]
    omega
  have h₁ := hread id₁ hlong
  -- the first identity behind the second one
  obtain ⟨need, hsame⟩ := h _ _ threeBind_decoded 2 0 (by decide) (by decide) (by decide) false false
  obtain ⟨out, ha, hb⟩ := hsame need le_rfl
  obtain ⟨y, hyn, ho, y0, y1, y2, yr⟩ := three_last ha rfl rfl hlong
  by_cases hshort : id₂.length < 2 ^ 31
  · obtain ⟨z, hzn, ho', z0, z1, z2, zr⟩ := three_reread hb rfl rfl hshort
    have hlen := three_length hyn hzn (ho.symm.trans ho')
    dsimp only at y0 y2 z0 z2
    omega
  · rw [not_lt] at hshort
    have h₂ := hread id₂ hshort
    obtain ⟨z, hzn, ho', z0, z1, z2, zr⟩ := three_first hb rfl rfl hshort
    have hlen := three_length hyn hzn (ho.symm.trans ho')
    -- and in front of it: not both pairs of messages are as long as each other
    obtain ⟨need', hsame'⟩ := h _ _ threeBind_decoded 0 2 (by decide) (by decide) (by decide) false false
    obtain ⟨out', ha', hb'⟩ := hsame' need' le_rfl
    obtain ⟨y', hyn', ho₂, y0', y1', y2', yr'⟩ := three_first ha' rfl rfl hlong
    obtain ⟨z', hzn', ho₂', z0', z1', z2', zr'⟩ := three_last hb' rfl rfl hshort
    have hlen' := three_length hyn' hzn' (ho₂.symm.trans ho₂')
    dsimp only at y0 y2 z0 z2 y0' y2' z0' z2'
    omega

end Rewriting

/-! ## The laws -/

open Rewriting in
/-- **When rewrites compose.** In one slot the last rewrite counts exactly when the first identity is
shorter than `2 ^ 31` bytes, in two slots the order does not count exactly when both are. That holds
of the laws over all bodies, slots and flags, and of each input by itself: of one slot in a body of
less than `2 ^ 30` bytes with less than 32 result formats, and of two slots with identities of less than
`2 ^ 32 - 1` bytes. -/
theorem rewrites_compose_iff (portal statement : Option CStr) (id₁ id₂ : CStr) :
    (LastCounts portal statement id₁ id₂ ↔ id₁.length < 2 ^ 31) ∧
    (OrderFree portal statement id₁ id₂ ↔ id₁.length < 2 ^ 31 ∧ id₂.length < 2 ^ 31) ∧
    ∀ body b, bindOf 5 body = some b → ∀ s t : UInt16, s.toNat < b.nParams → t.toNat < b.nParams → ∀ f g : Bool,
      (body.length < 2 ^ 30 → b.nResultFormats < maxBindParams →
        (SameMessage (chain portal statement · ⟨s, id₁, f⟩ ⟨s, id₂, g⟩ body) (apply portal statement · ⟨s, id₂, g⟩ body) ↔
          id₁.length < 2 ^ 31)) ∧
      (s ≠ t → id₁.length < 2 ^ 32 - 1 → id₂.length < 2 ^ 32 - 1 →
        (SameMessage (chain portal statement · ⟨s, id₁, f⟩ ⟨t, id₂, g⟩ body)
          (chain portal statement · ⟨t, id₂, g⟩ ⟨s, id₁, f⟩ body) ↔ id₁.length < 2 ^ 31 ∧ id₂.length < 2 ^ 31)) := by
  refine ⟨⟨fun h => ?_, fun h body b hb s hs f g => sameSlot_last hb hs rfl h⟩,
    ⟨fun h => ⟨orderFree_short h, orderFree_short fun body b hb s t hs ht hne f g =>
      (h body b hb t s ht hs hne.symm g f).symm⟩,
      fun h body b hb s t hs ht hne f g => twoSlots_comm hb hs ht hne h.1 h.2⟩, ?_⟩
  · by_contra hlong
    exact seven_long id₂ (not_lt.1 hlong) (h _ _ sevenBind_decoded 0 (by decide) false false)
  · intro body b hb s t hs ht f g
    exact ⟨fun hbody hr => sameSlot_iff hb hs rfl hbody hr, fun hne hlt hlt' => twoSlots_iff hb hs ht hne hlt hlt'⟩

open Rewriting in
/-- An identity of `2 ^ 31` characters: the second rewrite does not take its place. -/
theorem rewrites_not_compose : bindOf 5 sevenBind.enc = some (sevenBind.msg 5) ∧
    ¬SameMessage (chain none none · ⟨0, longIdentity (2 ^ 31), false⟩ ⟨0, longIdentity 3, false⟩ sevenBind.enc)
      (apply none none · ⟨0, longIdentity 3, false⟩ sevenBind.enc) := by
  refine ⟨sevenBind_decoded, ?_⟩
  have hl : (longIdentity (2 ^ 31)).length = 2 ^ 31 := List.length_replicate
  generalize longIdentity (2 ^ 31) = id₁ at hl ⊢
  exact seven_long (longIdentity 3) hl.ge

end Pqwire

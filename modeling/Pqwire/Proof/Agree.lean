import Pqwire.Proof.Output
import Pqwire.Proof.Rewrite

/-!
# The two identity rewrites compared

The copying path (`pqwire_bind_inject_identity`, then `pqwire_send_bind_params`) sends a
text value up to its first zero byte and gives every value that is not binary the code 0;
the slicing path keeps the bytes and the code. For each parameter the first writes at most
as many bytes as the second (`wire_injected`), so the two messages are the same exactly when
they are the same parameter by parameter (`rewrite_paths_agree_iff`).
-/

namespace Pqwire

open ByteMem

/-! ## One parameter -/

/-- The slot that `pqwire_param_set_text` fills. -/
def textParam (s : CStr) : Param := ⟨toI32 s.length, some s.bytes, true, 0⟩

/-- The slot that `pqwire_param_set_binary` fills. -/
def binaryParam (d : Bytes) : Param := ⟨toI32 d.length, if d = [] then none else some d, true, 1⟩

theorem paramSetText_some {s : CStr} {ok : Bool} {p : Param} (h : paramSetText s ok = some p) : p = textParam s := by
  unfold paramSetText at h
  split at h
  · cases h
  · exact (Option.some_inj.1 h).symm

theorem paramSetBinary_some {d : Bytes} {ok : Bool} {p : Param} (h : paramSetBinary d ok = some p) :
    p = binaryParam d := by
  unfold paramSetBinary at h
  split at h
  · rename_i hd
    rw [← Option.some_inj.1 h, binaryParam, if_pos hd, hd]
    rfl
  · rename_i hd
    split at h
    · cases h
    · rw [← Option.some_inj.1 h, binaryParam, if_neg hd]

theorem wireParam_length_le (len : Int32) (val : Option Bytes) :
    (wireParam len val).length ≤ 4 + len.toInt.toNat := by
  unfold wireParam
  rw [List.length_append, wr32Be_length]
  split
  · split
    · rw [List.length_take]; omega
    · rw [List.length_replicate]
  · simp

/-- A value shorter than `2 ^ 31` bytes is written whole. -/
theorem wireParam_bytes {d : Bytes} {val : Option Bytes} (hv : val = some d ∨ d = [] ∧ val = none)
    (h : d.length < 2 ^ 31) : wireParam (toI32 d.length) val = wr32Be d.length ++ d := by
  have hi := toI32_toInt h
  unfold wireParam
  rw [toUInt32_toI32 (by omega), hi]
  congr 1
  split
  · rename_i hpos
    rcases hv with rfl | ⟨rfl, rfl⟩
    · simp
    · simp at hpos
  · rename_i hpos
    exact (List.eq_nil_of_length_eq_zero (by omega)).symm

/-- A longer one is not. -/
theorem wireParam_short (d : Bytes) (val : Option Bytes) (h : 2 ^ 31 ≤ d.length) :
    (wireParam (toI32 d.length) val).length < 4 + d.length := by
  have h1 := wireParam_length_le (toI32 d.length) val
  have h2 := (toI32 d.length).toInt_lt
  omega

theorem binaryParam_data (d : Bytes) : (binaryParam d).data = some d ∨ d = [] ∧ (binaryParam d).data = none := by
  unfold binaryParam
  dsimp only
  split
  · exact Or.inr ⟨‹_›, rfl⟩
  · exact Or.inl rfl

/-- A terminated copy keeps what has no zero byte in it and shortens the rest. -/
theorem cstrOf_spec (p : Bytes) : ((cstrOf p).bytes = p ∧ (0 : UInt8) ∉ p) ∨
    ((cstrOf p).length < p.length ∧ (0 : UInt8) ∈ p) := by
  unfold cstrOf
  cases h : readCstr (p ++ [0]) with
  | none => exact absurd (by simp) (readCstr_none.1 h)
  | some r =>
    obtain ⟨s, n⟩ := r
    dsimp only
    obtain ⟨hn, hs⟩ := readCstr_some h
    by_cases h0 : (0 : UInt8) ∈ p
    · refine Or.inr ⟨?_, h0⟩
      -- a zero byte of `p` cannot lie in the string
      by_contra hlt
      have hle := readCstr_le h
      rw [List.length_append, List.length_singleton] at hle
      have hlen : s.length = p.length := by omega
      have hd : (p ++ [0]).drop n = [] := List.drop_of_length_le (by simp; omega)
      rw [hd, List.append_nil, CStr.toBytes] at hs
      have := List.append_cancel_right hs
      exact s.noNul (this ▸ h0)
    · refine Or.inl ⟨?_, h0⟩
      have := readCstr_toBytes ⟨p, h0⟩ []
      rw [List.append_nil, CStr.toBytes] at this
      dsimp only at this
      rw [this] at h
      cases h
      rfl

/-! ## The parameters of the copying path -/

/-- The slot that `pqwire_bind_inject_identity` fills for parameter `i`. -/
def injected (mem : Bytes) (b : BindMsg) (slot : ℕ) (identity : CStr) (asBinary : Bool) (i : ℕ) : Param :=
  if i = slot then (if asBinary then binaryParam identity.bytes else textParam identity)
  else if (b.param i).length.toInt < 0 then { paramSetNull with format := (b.param i).format }
  else if (b.param i).format = 1 then binaryParam ((b.param i).bytes mem)
  else textParam (cstrOf ((b.param i).bytes mem))

theorem range_map_succ {α : Type*} (n i : ℕ) (g : ℕ → α) :
    (List.range (n + 1)).map (fun j => g (i + j)) = g i :: (List.range n).map fun j => g (i + 1 + j) := by
  rw [List.range_succ_eq_map, List.map_cons, List.map_map, Nat.add_zero]
  congr 2
  funext j
  show g (i + (j + 1)) = _
  congr 1; omega

variable {mem : Bytes} {b : BindMsg} {identity : CStr} {asBinary : Bool}

theorem injectLoop_some {slot : ℕ} {ok : ℕ → Bool × Bool} {n i : ℕ} {ps : List Param}
    (h : injectLoop mem b slot identity asBinary ok n i = some ps) :
    ps = (List.range n).map fun j => injected mem b slot identity asBinary (i + j) := by
  induction n generalizing i ps with
  | zero => simp only [injectLoop, Option.some.injEq] at h; rw [← h]; rfl
  | succ n ih =>
    rw [range_map_succ n i (injected mem b slot identity asBinary)]
    -- whichever call fills the slot, the rest of the loop follows
    have key : ∀ r : Option Param, (∀ p, r = some p → p = injected mem b slot identity asBinary i) →
        (r.bind fun p => (injectLoop mem b slot identity asBinary ok n (i + 1)).bind fun ps => some (p :: ps)) = some ps →
        ps = injected mem b slot identity asBinary i ::
          (List.range n).map fun j => injected mem b slot identity asBinary (i + 1 + j) := by
      intro r hr h
      simp only [Option.bind_eq_some_iff, Option.some.injEq] at h
      obtain ⟨p, hp, ps', hps, rfl⟩ := h
      rw [← ih hps, hr p hp]
    simp only [injectLoop, Option.bind_eq_bind, Option.pure_def] at h
    split at h
    · rename_i hi
      split at h
      · rename_i hbin
        refine key _ ?_ h
        intro p hp
        rw [injected, if_pos hi, if_pos hbin]; exact paramSetBinary_some hp
      · rename_i hbin
        refine key _ ?_ h
        intro p hp
        rw [injected, if_pos hi, if_neg hbin]; exact paramSetText_some hp
    · rename_i hi
      refine key _ ?_ h
      intro p hp
      rw [injected, if_neg hi]
      unfold injectOther at hp
      split at hp
      · rename_i hneg; rw [if_pos hneg]; exact (Option.some_inj.1 hp).symm
      rename_i hneg
      rw [if_neg hneg]
      split at hp
      · rename_i hbin; rw [if_pos hbin]; exact paramSetBinary_some hp
      rename_i hbin
      rw [if_neg hbin]
      split at hp
      · cases hp
      · exact paramSetText_some hp

/-- The two paths write the same bytes for parameter `i`. -/
def SameValue (mem : Bytes) (b : BindMsg) (slot : ℕ) (identity : CStr) (i : ℕ) : Prop :=
  if i = slot then identity.length < 2 ^ 31
  else (b.param i).length.toInt < 0 ∨ (b.param i).format = 1 ∨ (0 : UInt8) ∉ (b.param i).bytes mem

/-- What is written for a parameter: the same bytes where `same` holds, fewer where it does not. -/
def Compared (same : Prop) (copied sliced : Bytes) : Prop :=
  (same ∧ copied = sliced) ∨ (¬same ∧ copied.length < sliced.length)

/-- A text is cut at its first zero byte. -/
theorem wire_text {d : Bytes} (hd : d.length < 2 ^ 31) :
    Compared ((0 : UInt8) ∉ d) (wireParam (textParam (cstrOf d)).length (textParam (cstrOf d)).data) (wr32Be d.length ++ d) := by
  rcases cstrOf_spec d with ⟨hc, h0⟩ | ⟨hc, h0⟩
  · have hwire := wireParam_bytes (d := (cstrOf d).bytes) (Or.inl rfl) (by rw [hc]; exact hd)
    rw [hc] at hwire
    refine Or.inl ⟨h0, ?_⟩
    simp only [textParam, CStr.length, hc]
    exact hwire
  · have hti : (toI32 (cstrOf d).length).toInt = (cstrOf d).length := toI32_toInt (by omega)
    have hle := wireParam_length_le (toI32 (cstrOf d).length) (some (cstrOf d).bytes)
    rw [hti] at hle
    refine Or.inr ⟨by tauto, ?_⟩
    show (wireParam (toI32 (cstrOf d).length) (some (cstrOf d).bytes)).length < _
    rw [List.length_append, wr32Be_length]
    omega

section

variable {base : ℕ} {body : Bytes} (hb : bindOf base body = some b) (hm : slice mem base body.length = body)

include hb hm

theorem param_bytes_lt (i : ℕ) : ((b.param i).bytes mem).length < 2 ^ 31 := by
  obtain ⟨f, -, hd⟩ := bindOf_param hb hm i
  have := f.len.toInt_lt
  rw [hd, f.ok]
  omega

/-- The slicing path writes the bytes that it received. -/
theorem rewriteParam_value {slot i : ℕ} (identity : CStr) (hi : i ≠ slot) (hneg : ¬(b.param i).length.toInt < 0) :
    (rewriteParam mem b slot identity i).flatten = wr32Be ((b.param i).bytes mem).length ++ (b.param i).bytes mem := by
  have hf31 := param_bytes_lt hb hm i
  obtain ⟨f, hl, hd⟩ := bindOf_param hb hm i
  have hlen : toI32 ((b.param i).bytes mem).length = (b.param i).length := by
    apply Int32.toInt_inj.1
    rw [toI32_toInt hf31, hd, f.ok, ← hl]
    omega
  have hnat : (b.param i).length.toUInt32.toNat = ((b.param i).bytes mem).length := by
    rw [← hlen, toUInt32_toI32 (by omega)]
  rw [rewriteParam, if_neg hi]
  dsimp only
  rw [if_neg hneg, hnat]
  simp only [List.flatten_cons, List.flatten_nil, List.append_nil]

/-- The slot of the identity: both write its bytes, and the copy also narrows their count. -/
theorem wire_identity (slot : ℕ) (identity : CStr) (asBinary : Bool) :
    Compared (identity.length < 2 ^ 31) (wireParam (if asBinary then binaryParam identity.bytes else textParam identity).length
      (if asBinary then binaryParam identity.bytes else textParam identity).data)
      (rewriteParam mem b slot identity slot).flatten := by
  have hlen := rewriteParam_length hb hm slot identity slot
  have hval : ∃ v, wireParam (if asBinary then binaryParam identity.bytes else textParam identity).length
      (if asBinary then binaryParam identity.bytes else textParam identity).data =
        wireParam (toI32 identity.bytes.length) v ∧ (v = some identity.bytes ∨ identity.bytes = [] ∧ v = none) := by
    split
    · exact ⟨_, rfl, binaryParam_data _⟩
    · exact ⟨_, rfl, Or.inl rfl⟩
  obtain ⟨v, hv, hv'⟩ := hval
  rw [hv]
  by_cases h31 : identity.length < 2 ^ 31
  · refine Or.inl ⟨h31, ?_⟩
    rw [wireParam_bytes hv' h31, rewriteParam, if_pos rfl]
    simp only [List.flatten_cons, List.flatten_nil, List.append_nil]
    rfl
  · refine Or.inr ⟨h31, ?_⟩
    rw [if_pos rfl] at hlen
    rw [hlen]
    exact wireParam_short _ _ (by unfold CStr.length at h31; omega)

/-- **The copying path never writes more than the slicing path**, and as much only where the
values are the same. -/
theorem wire_injected (slot : ℕ) (identity : CStr) (asBinary : Bool) (i : ℕ) :
    Compared (SameValue mem b slot identity i) (wireParam (injected mem b slot identity asBinary i).length
      (injected mem b slot identity asBinary i).data) (rewriteParam mem b slot identity i).flatten := by
  unfold SameValue injected
  by_cases hi : i = slot
  · subst hi
    simp only [if_true]
    exact wire_identity hb hm i identity asBinary
  · simp only [if_neg hi]
    -- NULL and binary values are copied as they are; a text value is cut at its first zero
    by_cases hneg : (b.param i).length.toInt < 0
    · refine Or.inl ⟨Or.inl hneg, ?_⟩
      rw [if_pos hneg, rewriteParam, if_neg hi]
      dsimp only
      rw [if_pos hneg]
      rfl
    · rw [if_neg hneg, rewriteParam_value hb hm identity hi hneg]
      by_cases hbin : (b.param i).format = 1
      · refine Or.inl ⟨Or.inr (Or.inl hbin), ?_⟩
        rw [if_pos hbin]
        exact wireParam_bytes (binaryParam_data _) (param_bytes_lt hb hm i)
      · rw [if_neg hbin]
        rcases wire_text (param_bytes_lt hb hm i) with ⟨h0, heq⟩ | ⟨h0, hlt⟩
        · exact Or.inl ⟨Or.inr (Or.inr h0), heq⟩
        · exact Or.inr ⟨by tauto, hlt⟩

end

/-! ## The whole message -/

/-- Sequences whose parts are the same or else shorter on the left. -/
theorem flatMap_range_length {A B : ℕ → Bytes} {S : ℕ → Prop}
    (h : ∀ i, (S i ∧ A i = B i) ∨ (¬S i ∧ (A i).length < (B i).length)) (n : ℕ) :
    ((List.range n).flatMap A).length ≤ ((List.range n).flatMap B).length ∧
      (((List.range n).flatMap A).length = ((List.range n).flatMap B).length → ∀ i < n, S i) := by
  induction n with
  | zero => exact ⟨le_rfl, fun _ i hi => absurd hi (Nat.not_lt_zero i)⟩
  | succ n ih =>
    obtain ⟨hle, heq⟩ := ih
    simp only [List.range_succ, List.flatMap_append, List.length_append, List.flatMap_singleton]
    rcases h n with ⟨hs, he⟩ | ⟨-, hlt⟩
    · rw [he]
      refine ⟨by omega, ?_⟩
      intro hl i hi
      rcases Nat.lt_succ_iff_lt_or_eq.1 hi with hi | rfl
      · exact heq (by omega) i hi
      · exact hs
    · exact ⟨by omega, fun hl => by omega⟩

theorem flatMap_encCode_inj {n : ℕ} {f g : ℕ → Int16}
    (h : ((List.range n).map f).flatMap encCode = ((List.range n).map g).flatMap encCode) : ∀ i < n, f i = g i := by
  have hf := readCodes_enc [] [] ((List.range n).map f)
  have hg := readCodes_enc [] [] ((List.range n).map g)
  rw [h, List.length_map] at hf
  rw [List.length_map, hf] at hg
  intro i hi
  have := congrArg (·[i]?) hg
  simpa only [List.getElem?_map, List.getElem?_range hi, Option.map_some, Option.some.injEq] using this

theorem codeBytes_eq (codes : Option (List Int16)) (n : ℕ) (f : ℕ → Int16)
    (h : ∀ i < n, codes.elim 0 (·.getD i 0) = f i) : Ctx.codeBytes codes n = ((List.range n).map f).flatMap encCode := by
  unfold Ctx.codeBytes
  rw [List.flatMap_map]
  exact List.flatMap_congr fun i hi => by rw [h i (List.mem_range.1 hi)]; rfl

theorem getD_range_map {α β : Type*} {n i : ℕ} (hi : i < n) (g : ℕ → α) (f : α → β) (d : β) :
    (((List.range n).map g).map f).getD i d = f (g i) := by
  rw [List.getD_eq_getElem?_getD, List.getElem?_map, List.getElem?_map, List.getElem?_range hi]
  rfl

/-- Both paths read the other parameters alike: a value that is not binary has format 0 and
no zero byte, and the identity is shorter than `2 ^ 31` bytes. -/
def CopyExact (mem : Bytes) (b : BindMsg) (slot : ℕ) (identity : CStr) : Prop :=
  identity.length < 2 ^ 31 ∧ ∀ i < b.nParams, i ≠ slot → 0 ≤ (b.param i).length.toInt →
    (b.param i).format = 1 ∨ ((b.param i).format = 0 ∧ (0 : UInt8) ∉ (b.param i).bytes mem)

/-- The format codes are the same where a parameter is NULL, binary or text. -/
theorem injected_format {x : BindBody} (base slot : ℕ) {i : ℕ} (hi : i < x.params.length) :
    (injected mem (x.msg base) slot identity asBinary i).format = rewriteFormat (x.msg base) slot asBinary i ↔
      (i ≠ slot → 0 ≤ ((x.msg base).param i).length.toInt →
        ((x.msg base).param i).format = 1 ∨ ((x.msg base).param i).format = 0) := by
  have hfmt : ((x.msg base).param i).format = formatFor (x.msg base).nFormats (x.msg base).formats i := by
    rw [x.msg_param base (List.getElem?_eq_getElem hi)]; rfl
  unfold injected rewriteFormat
  rw [← hfmt]
  by_cases his : i = slot
  · rw [if_pos his, if_pos his]
    refine iff_of_true ?_ (fun h => absurd his h)
    split <;> rfl
  · rw [if_neg his, if_neg his]
    split
    · rename_i hneg
      exact iff_of_true rfl fun _ h => absurd hneg (by omega)
    · rename_i hneg
      split
      · rename_i hbin
        exact iff_of_true hbin.symm fun _ _ => Or.inl hbin
      · rename_i hbin
        constructor
        · intro h _ _; exact Or.inr h.symm
        · intro h
          rcases h his (by omega) with h | h
          · exact absurd h hbin
          · exact h.symm

/-- The payload that the copying path sends. -/
def injectedPayload (mem : Bytes) (b : BindMsg) (portal stmt : CStr) (slot : ℕ) (identity : CStr) (asBinary : Bool) :
    Bytes :=
  portal.toBytes ++ stmt.toBytes ++
    encCodes ((List.range b.nParams).map fun i => (injected mem b slot identity asBinary i).format) ++
    (wr16Be b.nParams ++ (List.range b.nParams).flatMap fun i =>
      wireParam (injected mem b slot identity asBinary i).length (injected mem b slot identity asBinary i).data) ++
    encCodes ((List.range b.nResultFormats).map b.resultFormat)

/-- Copies are exact when for every parameter the values and the format codes are the same. -/
theorem copyExact_iff {x : BindBody} (base : ℕ) {slot : ℕ} (hs : slot < x.params.length) (identity : CStr) (asBinary : Bool) :
    CopyExact mem (x.msg base) slot identity ↔
      (∀ i < x.params.length, SameValue mem (x.msg base) slot identity i) ∧
        ∀ i < x.params.length, (injected mem (x.msg base) slot identity asBinary i).format =
          rewriteFormat (x.msg base) slot asBinary i := by
  constructor
  · rintro ⟨hid, hall⟩
    constructor
    · intro i hi
      unfold SameValue
      split
      · exact hid
      · rename_i hne
        by_cases hneg : ((x.msg base).param i).length.toInt < 0
        · exact Or.inl hneg
        · exact Or.inr ((hall i hi hne (by omega)).imp id And.right)
    · intro i hi
      refine (injected_format base slot hi).2 ?_
      intro hne hpos
      exact (hall i hi hne hpos).imp id And.left
  · rintro ⟨hvals, hcodes⟩
    constructor
    · have hid := hvals slot hs
      unfold SameValue at hid
      rwa [if_pos rfl] at hid
    · intro i hi hne hpos
      have hv := hvals i hi
      unfold SameValue at hv
      rw [if_neg hne] at hv
      rcases (injected_format base slot hi).1 (hcodes i hi) hne hpos with hf | hf
      · exact Or.inl hf
      · rcases hv with hv | hv | hv
        · omega
        · exact Or.inl hv
        · exact Or.inr ⟨hf, hv⟩

/-- **The payloads are the same exactly when the copies are exact.** -/
theorem injectedPayload_eq_iff {x : BindBody} (hx : x.InLimits) {base : ℕ}
    (hm : slice mem base x.enc.length = x.enc) (portal stmt : CStr) {slot : ℕ} (hs : slot < x.params.length)
    (identity : CStr) (asBinary : Bool) :
    (injectedPayload mem (x.msg base) portal stmt slot identity asBinary).length ≤
        (rewriteBody mem (x.msg base) portal stmt slot identity asBinary).length ∧
      (injectedPayload mem (x.msg base) portal stmt slot identity asBinary =
          rewriteBody mem (x.msg base) portal stmt slot identity asBinary ↔
        CopyExact mem (x.msg base) slot identity) := by
  have hb := bindOf_enc hx base
  rw [copyExact_iff base hs identity asBinary]
  set b := x.msg base with hbx
  have hn : b.nParams = x.params.length := rfl
  have hparts := wire_injected hb hm slot identity asBinary
  obtain ⟨hle, heq⟩ := flatMap_range_length hparts b.nParams
  rw [← rewriteParams_eq] at hle heq
  constructor
  · simp only [injectedPayload, rewriteBody, encCodes, List.length_append, flatMap_encCode_length, List.length_map,
      List.length_range, wr16Be_length]
    omega
  constructor
  · intro h
    -- the parts in front have equal lengths, so equal payloads have equal parts
    have hlen : (encCodes ((List.range b.nParams).map fun i => (injected mem b slot identity asBinary i).format)).length =
        (encCodes ((List.range b.nParams).map (rewriteFormat b slot asBinary))).length := by
      simp only [encCodes, List.length_append, flatMap_encCode_length, List.length_map, wr16Be_length]
    unfold injectedPayload rewriteBody at h
    have h1 := List.append_cancel_right h
    rw [List.append_assoc, List.append_assoc (portal.toBytes ++ stmt.toBytes)] at h1
    obtain ⟨hcodes, hvals⟩ := List.append_inj (List.append_cancel_left h1) hlen
    unfold encCodes at hcodes
    rw [List.length_map, List.length_map] at hcodes
    exact ⟨heq (congrArg List.length (List.append_cancel_left hvals)),
      flatMap_encCode_inj (List.append_cancel_left hcodes)⟩
  · rintro ⟨hsame, hformats⟩
    -- exact copies: the codes and the values are the same one by one
    have hcodes : ((List.range b.nParams).map fun i => (injected mem b slot identity asBinary i).format) =
        (List.range b.nParams).map (rewriteFormat b slot asBinary) :=
      List.map_congr_left fun i hi => hformats i (List.mem_range.1 hi)
    have hvals : ((List.range b.nParams).flatMap fun i => wireParam (injected mem b slot identity asBinary i).length
        (injected mem b slot identity asBinary i).data) = rewriteParams mem b slot identity := by
      rw [rewriteParams_eq]
      refine List.flatMap_congr ?_
      intro i hi
      rcases hparts i with ⟨-, h⟩ | ⟨h, -⟩
      · exact h
      · exact absurd (hsame i (List.mem_range.1 hi)) h
    rw [injectedPayload, rewriteBody, hcodes, hvals]

variable {portal statement : Option CStr} {slot : UInt16} {outCap : ℕ} {out : Bytes} {c c' : Ctx}

/-- What the copying path emits. -/
theorem sendBindParams_injected {ps : List Param} {ok : ℕ → Bool × Bool} (hn : b.nParams ≤ maxBindParams)
    (hnr : b.nResultFormats ≤ maxBindParams)
    (hi : bindInjectIdentity mem b slot identity asBinary ok = some ps)
    (hs : c.sendBindParams portal statement (some ps) (UInt16.ofNat b.nParams) (some b.resultFormats)
      (UInt16.ofNat b.nResultFormats) = (c', 0)) :
    ∃ c₂, NoFailure c c₂ ∧ c₂.output = c.output ∧
      c' = (c₂.emitMsg (ch 'B') (injectedPayload mem b (portal.getD CStr.empty) (statement.getD CStr.empty) slot.toNat
        identity asBinary)).1 := by
  have hmax : maxBindParams = 32 := rfl
  have hnat : ∀ {n : ℕ}, n ≤ maxBindParams → (UInt16.ofNat n).toNat = n := by
    intro n h
    rw [UInt16.toNat_ofNat', Nat.mod_eq_of_lt (by omega)]
  have hps : ps = (List.range b.nParams).map (injected mem b slot.toNat identity asBinary) := by
    unfold bindInjectIdentity at hi
    split at hi
    · cases hi
    split at hi
    · cases hi
    · have := injectLoop_some hi
      simpa only [Nat.zero_add] using this
  -- the array has exactly the parameters that were counted
  have htake : ps.take b.nParams = ps := List.take_of_length_le (by rw [hps, List.length_map, List.length_range])
  unfold Ctx.sendBindParams at hs
  rw [if_neg (by simp), hnat hn, if_neg (by omega)] at hs
  simp only [Option.getD_some, htake] at hs
  obtain ⟨c₂, h1, h2, h3⟩ := sendBind_payload hs
  refine ⟨c₂, h1, h2, h3.trans ?_⟩
  -- the three arrays of the helper, each read back from the copied parameters
  have hf : Ctx.codeBytes (some (ps.map (·.format))) b.nParams =
      ((List.range b.nParams).map fun i => (injected mem b slot.toNat identity asBinary i).format).flatMap encCode :=
    codeBytes_eq _ _ _ fun i hi => by rw [hps]; exact getD_range_map hi _ _ _
  have hr : Ctx.codeBytes (some b.resultFormats) b.nResultFormats =
      ((List.range b.nResultFormats).map b.resultFormat).flatMap encCode := codeBytes_eq _ _ _ fun _ _ => rfl
  have hv : ((List.range b.nParams).flatMap fun j => wireParam ((some (ps.map (·.length))).elim (-1) (·.getD j 0))
      ((some (ps.map (·.data))).bind (·.getD j none))) = (List.range b.nParams).flatMap fun i =>
        wireParam (injected mem b slot.toNat identity asBinary i).length
          (injected mem b slot.toNat identity asBinary i).data := by
    refine List.flatMap_congr ?_
    intro i hi
    have hi' := List.mem_range.1 hi
    rw [hps]
    simp only [Option.elim_some, Option.bind_some]
    rw [getD_range_map hi', getD_range_map hi']
  have hp : bindPayload (portal.getD CStr.empty) (statement.getD CStr.empty) (some (ps.map (·.format)))
      (UInt16.ofNat b.nParams).toNat (some (ps.map (·.length))) (some (ps.map (·.data))) (UInt16.ofNat b.nParams).toNat
      (some b.resultFormats) (UInt16.ofNat b.nResultFormats).toNat =
      injectedPayload mem b (portal.getD CStr.empty) (statement.getD CStr.empty) slot.toNat identity asBinary := by
    rw [hnat hn, hnat hnr, bindPayload, hf, hr, hv]
    simp only [injectedPayload, encCodes, List.length_map, List.length_range, List.append_assoc]
  rw [hp]

/-- **The two paths agree exactly when the copies are exact and no allocation fails.**
`x` is any Bind within the limits, `mem` the buffer in which it was received at `base`, and
`c` the context that sends. The copying path appends to its output what the slicing path
produces. -/
theorem rewrite_paths_agree_iff {x : BindBody} (hx : x.InLimits) {base : ℕ} (hm : slice mem base x.enc.length = x.enc)
    (hb : bindOf base x.enc = some b) {ok : ℕ → Bool × Bool} {ps : List Param}
    (hi : bindInjectIdentity mem b slot identity asBinary ok = some ps)
    (hs : c.sendBindParams portal statement (some ps) (UInt16.ofNat b.nParams) (some b.resultFormats)
      (UInt16.ofNat b.nResultFormats) = (c', 0))
    (hout : bindRewriteIdentityZerocopy mem b portal statement slot identity asBinary outCap = some out) :
    c'.output = c.output ++ out ↔ CopyExact mem b slot.toNat identity ∧ NoFailure c c' := by
  rw [bindOf_enc hx base, Option.some_inj] at hb
  subst hb
  obtain ⟨hslot, -, rfl⟩ := bindRewriteIdentityZerocopy_eq_some.1 hout
  obtain ⟨c₂, h1, h2, rfl⟩ := sendBindParams_injected hx.2.1 hx.2.2 hi hs
  obtain ⟨hle, heq⟩ := injectedPayload_eq_iff hx hm (portal.getD CStr.empty) (statement.getD CStr.empty) hslot
    identity asBinary
  set payload := injectedPayload mem (x.msg base) (portal.getD CStr.empty) (statement.getD CStr.empty) slot.toNat
    identity asBinary
  set rb := rewriteBody mem (x.msg base) (portal.getD CStr.empty) (statement.getD CStr.empty) slot.toNat identity asBinary
  have hne : payload ≠ [] := by
    intro h
    have := congrArg List.length h
    simp only [payload, injectedPayload, List.length_append, CStr.toBytes_length, List.length_nil] at this
    omega
  have hhead : ∀ p : Bytes, Ctx.msgHeader (ch 'B') p.length ++ p = ch 'B' :: wr32Be (4 + p.length) ++ p := by
    intro p; rw [Ctx.msgHeader, Nat.add_comm]
  rw [← heq, ← h2]
  rcases emitMsg_cases h1 (ch 'B') hne with ⟨hno, ho⟩ | ⟨hno, ho⟩
  · rw [ho, hhead, List.append_cancel_left_eq]
    refine ⟨fun h => ⟨(List.append_inj h rfl).2, hno⟩, fun h => by rw [h.1]⟩
  · -- a failed allocation leaves the message out or short
    refine iff_of_false ?_ fun h => hno h.2
    intro h
    rw [h] at ho
    simp only [List.length_append, List.length_cons, wr32Be_length] at ho
    omega

/-- Two text parameters, `7` and `val`. -/
def pairBind (val : Bytes) (h : val.length = (toI32 val.length).toInt.toNat) : BindBody :=
  .ofParams [.byte 55, ⟨toI32 val.length, val, h⟩] (by simp)

/-- `pairBind` in the buffer in which it was received. -/
def pairMem (val : Bytes) (h : val.length = (toI32 val.length).toInt.toNat) : Bytes :=
  List.replicate 5 0 ++ (pairBind val h).enc

/-- What the copying path makes of it, with the identity in slot 0. -/
def pairParams (val : Bytes) (h : val.length = (toI32 val.length).toInt.toNat) : List Param :=
  (List.range 2).map (injected (pairMem val h) ((pairBind val h).msg 5) 0 (longIdentity 3) false)

/-- What the slicing path makes of it. -/
def pairOut (val : Bytes) (h : val.length = (toI32 val.length).toInt.toNat) : Bytes :=
  (bindRewriteIdentityZerocopy (pairMem val h) ((pairBind val h).msg 5) none none 0 (longIdentity 3) false 64).getD []

/-- The context behind the copying path. -/
def pairSent (val : Bytes) (h : val.length = (toI32 val.length).toInt.toNat) : Ctx :=
  (tinyClient.sendBindParams none none (some (pairParams val h)) 2 (some [0]) 1).1

set_option maxRecDepth 4000 in
/-- The second parameter is `ab`: both paths produce the same message. -/
theorem rewrite_paths_agree_text :
    bindInjectIdentity (pairMem [97, 98] (by decide)) ((pairBind [97, 98] (by decide)).msg 5) 0 (longIdentity 3) false
      (fun _ => (true, true)) = some (pairParams [97, 98] (by decide)) ∧
    (pairSent [97, 98] (by decide)).output = tinyClient.output ++ pairOut [97, 98] (by decide) := by
  have hi : bindInjectIdentity (pairMem [97, 98] (by decide)) ((pairBind [97, 98] (by decide)).msg 5) 0 (longIdentity 3)
      false (fun _ => (true, true)) = some (pairParams [97, 98] (by decide)) := by decide
  have hs : tinyClient.sendBindParams none none (some (pairParams [97, 98] (by decide))) 2 (some [0]) 1 =
      (pairSent [97, 98] (by decide), 0) := Prod.ext rfl (by decide)
  have ho : bindRewriteIdentityZerocopy (pairMem [97, 98] (by decide)) ((pairBind [97, 98] (by decide)).msg 5) none none 0
      (longIdentity 3) false 64 = some (pairOut [97, 98] (by decide)) := by decide
  have hm : slice (pairMem [97, 98] (by decide)) 5 (pairBind [97, 98] (by decide)).enc.length =
      (pairBind [97, 98] (by decide)).enc := by decide
  refine ⟨hi, (rewrite_paths_agree_iff (by decide) hm (by decide) hi hs ho).2 ⟨⟨by decide, by decide⟩, 0, by decide, by decide⟩⟩

set_option maxRecDepth 4000 in
/-- The second parameter is text with a zero byte inside: the copying path cuts it off. -/
theorem rewrite_paths_differ :
    bindInjectIdentity (pairMem [97, 0, 98] (by decide)) ((pairBind [97, 0, 98] (by decide)).msg 5) 0 (longIdentity 3)
      false (fun _ => (true, true)) = some (pairParams [97, 0, 98] (by decide)) ∧
    tinyClient.sendBindParams none none (some (pairParams [97, 0, 98] (by decide))) 2 (some [0]) 1 =
      (pairSent [97, 0, 98] (by decide), 0) ∧
    bindRewriteIdentityZerocopy (pairMem [97, 0, 98] (by decide)) ((pairBind [97, 0, 98] (by decide)).msg 5) none none 0
      (longIdentity 3) false 64 = some (pairOut [97, 0, 98] (by decide)) ∧
    (pairSent [97, 0, 98] (by decide)).output ≠ tinyClient.output ++ pairOut [97, 0, 98] (by decide) :=
  ⟨by decide, Prod.ext rfl (by decide), by decide, by decide⟩

end Pqwire

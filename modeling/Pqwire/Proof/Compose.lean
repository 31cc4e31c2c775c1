import Pqwire.Proof.Rewrite
import Pqwire.Spec.Compose

/-!
# Rewrites compose

* `rewriteBody_sheet`: a rewrite writes one slot of the sheet.
* `sheet_rewritten`: decoding what it wrote gives that sheet back.
* `sameSlot_last`, `twoSlots_comm`: so two rewrites compose as two updates do, as long as what
  the first one wrote can be read back.
-/

namespace Pqwire

open ByteMem

/-! ## Sheets -/

namespace Sheet

variable {x y : Sheet} {s t : ℕ} {c d : Int16} {v w : Bytes}

theorem set_set (x : Sheet) : (x.set s c v).set s d w = x.set s d w := by
  simp only [set, Function.update_idem]

theorem set_comm (x : Sheet) (h : s ≠ t) : (x.set s c v).set t d w = (x.set t d w).set s c v := by
  simp only [set, Function.update_comm h]

theorem Same.set (h : Same x y) (s : ℕ) (c : Int16) (v : Bytes) : Same (x.set s c v) (y.set s c v) := by
  refine ⟨h.n, ?_, ?_, h.results⟩
  · intro i hi
    by_cases his : i = s
    · rw [his]
      simp only [Sheet.set, Function.update_self]
    · simp only [Sheet.set, Function.update_of_ne his]
      exact h.format i hi
  · intro i hi
    by_cases his : i = s
    · rw [his]
      simp only [Sheet.set, Function.update_self]
    · simp only [Sheet.set, Function.update_of_ne his]
      exact h.value i hi

theorem Same.body (h : Same x y) (portal stmt : CStr) : x.body portal stmt = y.body portal stmt := by
  have hf : (List.range x.n).map x.format = (List.range y.n).map y.format := by
    rw [← h.n]
    exact List.map_congr_left fun i hi => h.format i (List.mem_range.1 hi)
  have hv : (List.range x.n).flatMap x.value = (List.range y.n).flatMap y.value := by
    rw [← h.n]
    exact List.flatMap_congr fun i hi => h.value i (List.mem_range.1 hi)
  rw [Sheet.body, hf, hv, h.n, h.results, Sheet.body]

end Sheet

/-- The format code that a rewrite forces. -/
def identityCode (asBinary : Bool) : Int16 := if asBinary then 1 else 0

/-- The identity as a value on the wire. -/
def identityValue (identity : CStr) : Bytes := wr32Be identity.length ++ identity.bytes

variable {mem : Bytes} {b : BindMsg} {identity : CStr} {asBinary : Bool}

theorem rewriteFormat_sheet (mem : Bytes) (b : BindMsg) (slot : ℕ) (identity : CStr) (asBinary : Bool) (i : ℕ) :
    rewriteFormat b slot asBinary i =
      ((b.sheet mem).set slot (identityCode asBinary) (identityValue identity)).format i := by
  unfold rewriteFormat
  by_cases h : i = slot
  · rw [if_pos h, h]
    simp only [Sheet.set, Function.update_self, identityCode]
  · rw [if_neg h]
    simp only [Sheet.set, Function.update_of_ne h]
    rfl

theorem rewriteParam_sheet (mem : Bytes) (b : BindMsg) (slot : ℕ) (identity : CStr) (asBinary : Bool) (i : ℕ) :
    (rewriteParam mem b slot identity i).flatten =
      ((b.sheet mem).set slot (identityCode asBinary) (identityValue identity)).value i := by
  unfold rewriteParam
  by_cases h : i = slot
  · rw [if_pos h, h]
    simp only [Sheet.set, Function.update_self, identityValue, List.flatten_cons, List.flatten_nil, List.append_nil]
  · rw [if_neg h]
    simp only [Sheet.set, Function.update_of_ne h, BindMsg.sheet]
    split
    · simp only [List.flatten_cons, List.flatten_nil, List.append_nil]
    · simp only [List.flatten_cons, List.flatten_nil, List.append_nil]

/-- **A rewrite writes one slot.** -/
theorem rewriteBody_sheet (mem : Bytes) (b : BindMsg) (portal stmt : CStr) (slot : ℕ) (identity : CStr) (asBinary : Bool) :
    rewriteBody mem b portal stmt slot identity asBinary =
      ((b.sheet mem).set slot (identityCode asBinary) (identityValue identity)).body portal stmt := by
  have hf : (List.range b.nParams).map (rewriteFormat b slot asBinary) = (List.range b.nParams).map
      ((b.sheet mem).set slot (identityCode asBinary) (identityValue identity)).format :=
    List.map_congr_left fun i _ => rewriteFormat_sheet mem b slot identity asBinary i
  have hv : rewriteParams mem b slot identity = (List.range b.nParams).flatMap
      ((b.sheet mem).set slot (identityCode asBinary) (identityValue identity)).value := by
    rw [rewriteParams_eq]
    exact List.flatMap_congr fun i _ => rewriteParam_sheet mem b slot identity asBinary i
  rw [rewriteBody, hf, hv]
  rfl

theorem range_map_getD (l : List Int16) : ((List.range l.length).map fun i => l.getD i 0) = l := by
  refine List.ext_getElem (by rw [List.length_map, List.length_range]) ?_
  intro i h₁ h₂
  rw [List.getElem_map, List.getElem_range, List.getD_eq_getElem?_getD, List.getElem?_eq_getElem h₂]
  rfl

/-- **Decoding a rewritten body gives the sheet that was written.** A NULL is written as -1, so that
it is written the same way again. -/
theorem sheet_rewritten {base : ℕ} {body : Bytes} (hb : bindOf base body = some b)
    (hm : slice mem base body.length = body) (portal stmt : CStr) (slot : ℕ) (hid : identity.length < 2 ^ 31)
    (asBinary : Bool) : ∃ b', bindOf 5 (rewriteBody mem b portal stmt slot identity asBinary) = some b' ∧
      (b'.sheet (List.replicate 5 0 ++ rewriteBody mem b portal stmt slot identity asBinary)).Same
        ((b.sheet mem).set slot (identityCode asBinary) (identityValue identity)) := by
  obtain ⟨x, hx, hlim, -, -, hxn, hxf, hxr, hxi⟩ := rewriteBody_enc hb hm portal stmt slot hid asBinary
  rw [hx]
  have hmem : slice (List.replicate 5 (0 : UInt8) ++ x.enc) 5 x.enc.length = x.enc := by
    have := slice_append_mid (List.replicate 5 0) x.enc []
    rwa [List.append_nil] at this
  refine ⟨x.msg 5, bindOf_enc hlim 5, hxn, ?_, ?_, ?_⟩
  · intro i hi
    rw [← rewriteFormat_sheet]
    show formatFor x.formats.length x.formats i = _
    rw [hxf, List.length_map, List.length_range]
    exact formatFor_map _ (by rw [← hxn]; exact hi)
  · intro i hi
    obtain ⟨f, hf, henc, hspec⟩ := hxi i (by rw [← hxn]; exact hi)
    rw [← rewriteParam_sheet, henc]
    show (if ((x.msg 5).param i).length.toInt < 0 then _ else _) = _
    rw [x.msg_bytes hmem hf, x.msg_param 5 hf]
    dsimp only
    split
    · -- only a kept NULL has a negative length
      rename_i hneg
      unfold RewrittenField at hspec
      unfold rewriteParam at henc
      by_cases his : i = slot
      · rw [if_pos his] at hspec
        omega
      · rw [if_neg his] at hspec henc
        rw [← henc, if_pos (hspec.1.1 hneg)]
        simp only [List.flatten_cons, List.flatten_nil, List.append_nil]
    · rfl
  · show (List.range x.results.length).map (fun i => x.results.getD i 0) = _
    rw [range_map_getD, hxr]
    rfl

/-! ## Messages -/

/-- A body in its frame. -/
def bindFrame (body : Bytes) : Bytes := ch 'B' :: wr32Be (4 + body.length) ++ body

theorem bindFrame_drop (body : Bytes) : (bindFrame body).drop 5 = body := by
  have h : (ch 'B' :: wr32Be (4 + body.length) ++ body).drop (ch 'B' :: wr32Be (4 + body.length)).length = body :=
    List.drop_left
  rwa [List.length_cons, wr32Be_length] at h

theorem slice_frame (body : Bytes) : slice (List.replicate 5 (0 : UInt8) ++ body) 5 body.length = body := by
  have := slice_append_mid (List.replicate 5 0) body []
  rwa [List.append_nil] at this

namespace Rewriting

variable {portal statement : Option CStr} {r r' : Rewriting} {body : Bytes} {cap : ℕ}

/-- What the rewrite does to the slots. -/
def write (r : Rewriting) (x : Sheet) : Sheet := x.set r.slot.toNat (identityCode r.asBinary) (identityValue r.identity)

/-- The body with its slots as in the sheet. -/
abbrev encode (portal statement : Option CStr) (x : Sheet) : Bytes :=
  x.body (portal.getD CStr.empty) (statement.getD CStr.empty)

theorem apply_eq (hb : bindOf 5 body = some b) (hs : r.slot.toNat < b.nParams)
    (hcap : 5 + (encode portal statement (r.write (b.sheet (List.replicate 5 0 ++ body)))).length ≤ cap) :
    r.apply portal statement cap body =
      some (bindFrame (encode portal statement (r.write (b.sheet (List.replicate 5 0 ++ body))))) := by
  unfold encode write at hcap ⊢
  rw [← rewriteBody_sheet] at hcap ⊢
  unfold apply
  rw [hb]
  exact bindRewriteIdentityZerocopy_eq_some.2 ⟨hs, hcap, rfl⟩

/-- **Two rewrites write one after the other**, when the first identity can be read back. -/
theorem chain_eq (hb : bindOf 5 body = some b) (hs : r.slot.toNat < b.nParams) (hs' : r'.slot.toNat < b.nParams)
    (hid : r.identity.length < 2 ^ 31)
    (h₁ : 5 + (encode portal statement (r.write (b.sheet (List.replicate 5 0 ++ body)))).length ≤ cap)
    (h₂ : 5 + (encode portal statement (r'.write (r.write (b.sheet (List.replicate 5 0 ++ body))))).length ≤ cap) :
    chain portal statement cap r r' body =
      some (bindFrame (encode portal statement (r'.write (r.write (b.sheet (List.replicate 5 0 ++ body)))))) := by
  obtain ⟨b', hb', hsame⟩ := sheet_rewritten hb (slice_frame body) (portal.getD CStr.empty) (statement.getD CStr.empty)
    r.slot.toNat hid r.asBinary
  rw [rewriteBody_sheet] at hb' hsame
  change bindOf 5 (encode portal statement (r.write (b.sheet (List.replicate 5 0 ++ body)))) = some b' at hb'
  change Sheet.Same _ (r.write (b.sheet (List.replicate 5 0 ++ body))) at hsame
  have henc : encode portal statement (r'.write (b'.sheet (List.replicate 5 0 ++
      encode portal statement (r.write (b.sheet (List.replicate 5 0 ++ body)))))) =
      encode portal statement (r'.write (r.write (b.sheet (List.replicate 5 0 ++ body)))) := (hsame.set _ _ _).body _ _
  have happ : r'.apply portal statement cap _ = some (bindFrame _) :=
    apply_eq hb' (by rw [show b'.nParams = b.nParams from hsame.n]; exact hs') (by rw [henc]; exact h₂)
  unfold chain
  rw [apply_eq hb hs h₁, Option.bind_eq_bind, Option.bind_some, bindFrame_drop, happ, henc]

end Rewriting

open Rewriting in
/-- The first identity can be read back: in one slot the last rewrite counts. -/
theorem sameSlot_last {portal statement : Option CStr} {r r' : Rewriting} {body : Bytes} (hb : bindOf 5 body = some b)
    (hs : r.slot.toNat < b.nParams) (hslot : r'.slot = r.slot) (hid : r.identity.length < 2 ^ 31) :
    SameMessage (chain portal statement · r r' body) (apply portal statement · r' body) := by
  set x := b.sheet (List.replicate 5 0 ++ body) with hx
  have hset : r'.write (r.write x) = r'.write x := by
    unfold write
    rw [hslot]
    exact Sheet.set_set x
  refine ⟨max (5 + (encode portal statement (r.write x)).length) (5 + (encode portal statement (r'.write x)).length),
    fun cap hcap => ⟨_, chain_eq hb hs (by rw [hslot]; exact hs) hid (le_of_max_le_left hcap) ?_, ?_⟩⟩
  · rw [← hx, hset]
    exact le_of_max_le_right hcap
  · rw [← hx, hset]
    exact apply_eq hb (by rw [hslot]; exact hs) (le_of_max_le_right hcap)

open Rewriting in
/-- Both identities can be read back: in two slots the order does not count. -/
theorem twoSlots_comm {portal statement : Option CStr} {r r' : Rewriting} {body : Bytes} (hb : bindOf 5 body = some b)
    (hs : r.slot.toNat < b.nParams) (hs' : r'.slot.toNat < b.nParams) (hne : r.slot ≠ r'.slot)
    (hid : r.identity.length < 2 ^ 31) (hid' : r'.identity.length < 2 ^ 31) :
    SameMessage (chain portal statement · r r' body) (chain portal statement · r' r body) := by
  set x := b.sheet (List.replicate 5 0 ++ body) with hx
  have hcomm : r'.write (r.write x) = r.write (r'.write x) := Sheet.set_comm x fun h => hne (UInt16.toNat_inj.1 h)
  refine ⟨5 + (encode portal statement (r.write x)).length + (encode portal statement (r'.write x)).length +
    (encode portal statement (r'.write (r.write x))).length, fun cap hcap => ⟨_, chain_eq hb hs hs' hid ?_ ?_, ?_⟩⟩
  · rw [← hx]; omega
  · rw [← hx]; omega
  · rw [← hx, hcomm]
    rw [hcomm] at hcap
    exact chain_eq hb hs' hs hid' (by rw [← hx]; omega) (by rw [← hx]; omega)

end Pqwire

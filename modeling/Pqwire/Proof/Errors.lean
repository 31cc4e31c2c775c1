import Pqwire.Lib.LastWrite
import Pqwire.Proof.Answers
import Pqwire.Spec.Errors

/-!
# The decoders of error fields

* `loop_eq_errorLoop`: a loop by offset is the loop on the rest of the body.
* `errorLoop_enc_fields`: the loop on a list of fields, one field a round.
* `error_fields_decoded`: both decoders give the error that the fields stand for.
-/

namespace Pqwire

open ByteMem LastWrite

/-! ## By offset and by rest -/

/-- A loop that satisfies the equation of the source, whichever of the two it is. -/
theorem loop_eq_errorLoop {body : Bytes} {loop : ℕ → PqError → PqError}
    (heq : ∀ off e, loop off e = if off < body.length ∧ body.getD off 0 ≠ 0 then
      match readCstr (body.drop (off + 1)) with
      | none => e
      | some (val, c) => loop (off + 1 + c) (e.setField (body.getD off 0) val)
      else e) {n off : ℕ} (hn : body.length ≤ off + n) (e : PqError) :
    loop off e = errorLoop n (body.drop off) e := by
  induction n generalizing off e with
  | zero => rw [heq, if_neg (by omega), errorLoop]
  | succ n ih =>
    rw [heq]
    by_cases hoff : off < body.length
    · have hget : body.getD off 0 = body[off] := by
        rw [List.getD_eq_getElem?_getD, List.getElem?_eq_getElem hoff, Option.getD_some]
      rw [hget, List.drop_eq_getElem_cons hoff, errorLoop]
      by_cases h0 : body[off] = 0
      · rw [if_pos h0, if_neg (fun h => h.2 h0)]
      · rw [if_neg h0, if_pos ⟨hoff, h0⟩]
        cases readCstr (body.drop (off + 1)) with
        | none => rfl
        | some r =>
          -- the rest behind the value is the body from the new offset on
          show loop (off + 1 + r.2) _ = errorLoop n ((body.drop (off + 1)).drop r.2) _
          rw [List.drop_drop]
          exact ih (by omega) _
    · rw [if_neg (fun h => hoff h.1), List.drop_eq_nil_of_le (by omega), errorLoop]

theorem ErrorResponse.error_eq (body : Bytes) : ErrorResponse.error body = errorLoop body.length body {} := by
  refine loop_eq_errorLoop ?_ (by omega) {}
  intro off e
  rw [ErrorResponse.loop]
  rfl

theorem ErrorFields.error_eq (body : Bytes) : ErrorFields.error body = errorLoop body.length body {} := by
  refine loop_eq_errorLoop ?_ (by omega) {}
  intro off e
  rw [ErrorFields.loop]
  rfl

/-! ## Fields -/

/-- **The loop on a list of fields** stores them one by one and stops at the zero byte. -/
theorem errorLoop_enc_fields (fields : List ErrorField) (rest : Bytes) {n : ℕ} (hn : fields.length < n) (e : PqError) :
    errorLoop n (ErrorField.enc fields ++ rest) e = fields.foldl (fun e f => e.setField f.code f.value) e := by
  induction fields generalizing n e with
  | nil =>
    obtain ⟨n, rfl⟩ := Nat.exists_eq_succ_of_ne_zero (Nat.ne_zero_of_lt hn)
    show errorLoop (n + 1) (0 :: rest) e = e
    rw [errorLoop, if_pos rfl]
  | cons f fields ih =>
    obtain ⟨n, rfl⟩ := Nat.exists_eq_succ_of_ne_zero (Nat.ne_zero_of_lt hn)
    have hcons : ErrorField.enc (f :: fields) ++ rest = f.code :: (f.value.toBytes ++ (ErrorField.enc fields ++ rest)) := by
      simp only [ErrorField.enc, List.flatMap_cons, List.cons_append, List.append_assoc]
    rw [hcons, errorLoop_field f.nonzero, List.foldl_cons]
    exact ih (Nat.lt_of_succ_lt_succ hn) _

theorem ErrorField.length_lt_enc (fields : List ErrorField) (rest : Bytes) :
    fields.length < (ErrorField.enc fields ++ rest).length := by
  have hle : fields.length ≤ (fields.flatMap fun f => f.code :: f.value.toBytes).length := by
    induction fields with
    | nil => exact le_rfl
    | cons f fields ih =>
      rw [List.flatMap_cons, List.length_append, List.length_cons, List.length_cons]
      omega
  rw [ErrorField.enc, List.length_append, List.length_append, List.length_singleton]
  omega

theorem ErrorField.last_eq_lastOf (fields : List ErrorField) (code : UInt8) :
    ErrorField.last fields code = lastOf (fun f : ErrorField => if f.code = code then some f.value else none) fields := by
  induction fields with
  | nil => rfl
  | cons f fields ih =>
    rw [lastOf, ← ih, ErrorField.last, ErrorField.last, List.filter_cons]
    by_cases hf : f.code = code
    · rw [if_pos (by simpa using hf), if_pos hf, List.getLast?_cons]
      cases (fields.filter (·.code = code)).getLast? with
      | none => rfl
      | some g => rfl
    · rw [if_neg (by simpa using hf), if_neg hf, Option.or_none]

/-- **One member of the error** holds what the last field with its code stored there. -/
theorem member_of_fields {α : Type} (member : PqError → α) (code : UInt8) (store : CStr → α)
    (h : ∀ (e : PqError) field val, member (e.setField field val) = if field = code then store val else member e)
    (fields : List ErrorField) (e : PqError) :
    member (fields.foldl (fun e f => e.setField f.code f.value) e) =
      ((ErrorField.last fields code).map store).getD (member e) := by
  rw [ErrorField.last_eq_lastOf, ← lastOf_map]
  refine foldl_lastOf member (fun _ => True) (fun _ _ _ => trivial) ?_ fields trivial
  intro s f _
  rw [h]
  by_cases hf : f.code = code
  · rw [if_pos hf, if_pos hf]
    rfl
  · rw [if_neg hf, if_neg hf]
    rfl

theorem foldl_setField (fields : List ErrorField) :
    fields.foldl (fun e f => e.setField f.code f.value) {} = PqError.ofFields fields := by
  have hswitch : ∀ (e : PqError) field val,
      (e.setField field val).severity = (if field = ch 'S' then copyCstr 32 val else e.severity) ∧
      (e.setField field val).code = (if field = ch 'C' then copyCstr 8 val else e.code) ∧
      (e.setField field val).message = (if field = ch 'M' then copyCstr 256 val else e.message) ∧
      (e.setField field val).detail = (if field = ch 'D' then copyCstr 256 val else e.detail) ∧
      (e.setField field val).hint = (if field = ch 'H' then copyCstr 256 val else e.hint) ∧
      (e.setField field val).position = (if field = ch 'P' then atoi val else e.position) := by
    intro e field val
    by_cases hknown : field ∈ [ch 'S', ch 'C', ch 'M', ch 'D', ch 'H', ch 'P']
    · -- a case of the switch sets its member and no other
      simp only [List.mem_cons, List.not_mem_nil, or_false] at hknown
      rcases hknown with rfl | rfl | rfl | rfl | rfl | rfl <;> exact ⟨rfl, rfl, rfl, rfl, rfl, rfl⟩
    · simp only [List.mem_cons, List.not_mem_nil, or_false, not_or] at hknown
      obtain ⟨hS, hC, hM, hD, hH, hP⟩ := hknown
      simp only [PqError.setField, if_neg hS, if_neg hC, if_neg hM, if_neg hD, if_neg hH, if_neg hP, and_self]
  have hS := member_of_fields PqError.severity (ch 'S') (copyCstr 32) (fun e f v => (hswitch e f v).1) fields {}
  have hC := member_of_fields PqError.code (ch 'C') (copyCstr 8) (fun e f v => (hswitch e f v).2.1) fields {}
  have hM := member_of_fields PqError.message (ch 'M') (copyCstr 256) (fun e f v => (hswitch e f v).2.2.1) fields {}
  have hD := member_of_fields PqError.detail (ch 'D') (copyCstr 256) (fun e f v => (hswitch e f v).2.2.2.1) fields {}
  have hH := member_of_fields PqError.hint (ch 'H') (copyCstr 256) (fun e f v => (hswitch e f v).2.2.2.2.1) fields {}
  have hP := member_of_fields PqError.position (ch 'P') atoi (fun e f v => (hswitch e f v).2.2.2.2.2) fields {}
  set e := fields.foldl (fun e f => e.setField f.code f.value) ({} : PqError)
  calc e = ⟨e.severity, e.code, e.message, e.detail, e.hint, e.position⟩ := rfl
    _ = PqError.ofFields fields := by rw [hS, hC, hM, hD, hH, hP]; rfl

/-- Fields of other codes do not count. -/
theorem ofFields_known (fields : List ErrorField) : PqError.ofFields (fields.filter (·.known)) = PqError.ofFields fields := by
  have hlast : ∀ code ∈ [ch 'S', ch 'C', ch 'M', ch 'D', ch 'H', ch 'P'],
      ErrorField.last (fields.filter (·.known)) code = ErrorField.last fields code := by
    intro code hcode
    unfold ErrorField.last
    rw [List.filter_filter]
    congr 3
    funext f
    by_cases hf : f.code = code
    · have hk : f.known = true := by
        unfold ErrorField.known
        rw [hf]
        exact decide_eq_true hcode
      simp [hf, hk]
    · simp [hf]
  unfold PqError.ofFields
  simp only [hlast _ (by simp : ch 'S' ∈ _), hlast _ (by simp : ch 'C' ∈ _), hlast _ (by simp : ch 'M' ∈ _),
    hlast _ (by simp : ch 'D' ∈ _), hlast _ (by simp : ch 'H' ∈ _), hlast _ (by simp : ch 'P' ∈ _)]

/-- `atoi` reads the number in front. -/
theorem atoi_states (val : CStr) : StatesPosition val (atoi val) := by
  constructor
  · intro x hx hlow hhigh
    have hlong := CText.strtol_value (x := x) (by omega) (by omega)
    unfold atoi
    rw [hx, CText.scanNumber_text, Option.map_some, Option.getD_some, hlong]
    exact Int32.toInt_ofInt_of_le (by omega) (by omega)
  · intro hno
    unfold atoi
    cases hr : CText.scanNumber val.bytes with
    | none => rfl
    | some r =>
      obtain ⟨x, hx⟩ := CText.scanNumber_some hr
      exact absurd hx (hno x)

/-- Twenty nines: the low bits of the largest `long`. -/
example : atoi ⟨List.replicate 20 57, by decide⟩ = -1 := by decide

/-- **Error fields are decoded alike, and the last value of a code counts.** The two decoders give
the same error for every body; for a list of fields that a zero byte closes, whatever follows it,
each member is the last value given for its code, cut to the room it has, the position the
number that the last such value states, and fields of other codes change nothing. -/
theorem error_fields_decoded :
    (∀ (c : Ctx) (body : Bytes), parseErrorResponse c body = c.enqueueEvent (.errorResponse (ErrorResponse.error body)) body ∧
      parseErrorFields body = ErrorFields.error body ∧ ErrorResponse.error body = ErrorFields.error body) ∧
    ∀ (fields : List ErrorField) (rest : Bytes),
      ErrorResponse.error (ErrorField.enc fields ++ rest) = PqError.ofFields fields ∧
        PqError.ofFields (fields.filter (·.known)) = PqError.ofFields fields ∧
        (ErrorField.last fields (ch 'P') = none → (PqError.ofFields fields).position = 0) ∧
        ∀ val, ErrorField.last fields (ch 'P') = some val → StatesPosition val (PqError.ofFields fields).position := by
  constructor
  · intro c body
    refine ⟨?_, (ErrorFields.error_eq body).symm, ?_⟩
    · rw [ErrorResponse.error_eq]
      rfl
    · rw [ErrorResponse.error_eq, ErrorFields.error_eq]
  · intro fields rest
    refine ⟨?_, ofFields_known fields, ?_, ?_⟩
    · rw [ErrorResponse.error_eq, errorLoop_enc_fields fields rest (ErrorField.length_lt_enc fields rest), foldl_setField]
    · intro hnone
      unfold PqError.ofFields
      rw [hnone]
      rfl
    · intro val hval
      unfold PqError.ofFields
      rw [hval]
      exact atoi_states val

end Pqwire

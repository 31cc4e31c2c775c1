import Pqwire.Proof.Chunk
import Pqwire.Proof.History
import Pqwire.Spec.Access

/-!
# No parser leaves its frame

* `handleMessage_yields`, `parseStartupBody_yields`: the parsers with their accesses return
  what the parsers return, read no byte at or behind `body_len`, and stay inside their arrays.
* `handleMessage_slices`: the slices of the event that they enqueue lie inside the body or the
  row arena.
* `parsers_in_frame`: both hold of every call that a run of the library makes.
-/

namespace Pqwire

open ByteMem CMem Traced

namespace Mem

/-- The accesses that a parser of this body may make. -/
abbrev Inside (body : Bytes) : Access FixedArray → Prop := Access.InBounds FixedArray.size body.length

theorem size_pos (a : FixedArray) : 0 < a.size := by
  cases a <;> decide

variable {body : Bytes} {off n : ℕ} {s : CStr}

theorem touch_inside (a : FixedArray) {i : ℕ} (h : i < a.size) : Yields (Inside body) (touch a i) () := touch_yields h

/-! ## Strings -/

theorem readCstr_yields (h : off ≤ body.length) :
    Yields (Inside body) (readCstr body off) ((ByteMem.readCstr (body.drop off)).map fun r => 0 + r.2) := by
  unfold readCstr sizeSub
  rw [if_pos h]
  exact scan_yields off 0 (body.length - off) (by omega)

theorem readCstr_null (h : off ≤ body.length) (hr : ByteMem.readCstr (body.drop off) = none) :
    Yields (Inside body) (readCstr body off) none := by
  have := readCstr_yields h
  rwa [hr] at this

theorem readCstr_found (h : off ≤ body.length) (hr : ByteMem.readCstr (body.drop off) = some (s, n)) :
    Yields (Inside body) (readCstr body off) (some n) := by
  have := readCstr_yields h
  rwa [hr, Option.map_some, Nat.zero_add] at this

/-- The offset behind a string that has been found. -/
theorem found_le (h : off ≤ body.length) (hr : ByteMem.readCstr (body.drop off) = some (s, n)) : off + n ≤ body.length := by
  have := readCstr_le hr
  rw [List.length_drop] at this
  omega

theorem copyCstr_yields (a : FixedArray) (hs : StrAt body off s.bytes) :
    Yields (Inside body) (copyCstr body a off) (Pqwire.copyCstr a.size s) := by
  have hpos := size_pos a
  refine (strncpy_yields s.noNul hs 0 (a.size - 1) (by omega)).bind ((touch_inside _ (by omega)).bind ?_)
  have hnul : (0 : UInt8) ∉ s.bytes.take (a.size - 1) := fun hm => s.noNul (List.mem_of_mem_take hm)
  have hval : strOf (s.bytes.take (a.size - 1) ++ List.replicate (a.size - 1 - s.bytes.length) 0 ++ [0]) =
      Pqwire.copyCstr a.size s := by
    -- the first zero is that of the padding, or the one behind it
    cases hk : a.size - 1 - s.bytes.length with
    | zero => simpa [Pqwire.copyCstr, CStr.take] using strOf_terminated hnul []
    | succ k =>
      rw [List.replicate_succ, List.append_assoc, List.cons_append]
      exact strOf_terminated hnul _
  rw [← hval]
  exact .pure _

/-! ## Startup -/

theorem startupLoop_yields (n off : ℕ) (user db : CStr) :
    Yields (Inside body) (startupLoop body n off user db) (Pqwire.startupLoop body n off user db) := by
  induction n generalizing off user db with
  | zero => exact .pure _
  | succ n ih =>
    unfold startupLoop Pqwire.startupLoop
    by_cases hoff : off + 1 < body.length
    · rw [if_pos hoff, if_pos hoff]
      cases hk : ByteMem.readCstr (body.drop off) with
      | none => exact (readCstr_null (by omega) hk).bind (.pure _)
      | some r =>
        obtain ⟨key, c1⟩ := r
        refine (readCstr_found (by omega) hk).bind ?_
        dsimp only
        by_cases hc1 : c1 ≤ 1
        · rw [if_pos hc1, if_pos hc1]
          exact .pure _
        rw [if_neg hc1, if_neg hc1]
        have h1 := found_le (by omega) hk
        cases hv : ByteMem.readCstr (body.drop (off + c1)) with
        | none => exact (readCstr_null h1 hv).bind (.pure _)
        | some r =>
          obtain ⟨val, c2⟩ := r
          have hkey := strAt_of_readCstr hk
          have hval := strAt_of_readCstr hv
          refine (readCstr_found h1 hv).bind ((strcmp_yields key.noNul keyUser.noNul hkey).bind ?_)
          dsimp only
          -- `strcmp` decides the branch, so its result is compared with the equality of the keys
          by_cases hu : key = keyUser
          · rw [if_pos (decide_eq_true (congrArg CStr.bytes hu)), if_pos hu]
            exact (copyCstr_yields .userScratch hval).bind (ih _ _ _)
          rw [if_neg (fun he => hu (CStr.ext (of_decide_eq_true he))), if_neg hu]
          refine (strcmp_yields key.noNul keyDatabase.noNul hkey).bind ?_
          by_cases hd : key = keyDatabase
          · rw [if_pos (decide_eq_true (congrArg CStr.bytes hd)), if_pos hd]
            exact (copyCstr_yields .dbScratch hval).bind (ih _ _ _)
          rw [if_neg (fun he => hd (CStr.ext (of_decide_eq_true he))), if_neg hd]
          exact ih _ _ _
    · rw [if_neg hoff, if_neg hoff]
      exact .pure _

theorem parseStartupBody_yields (c : Ctx) (body : Bytes) :
    Yields (Inside body) (parseStartupBody c body) (Pqwire.parseStartupBody c body) := by
  refine (touch_inside _ (size_pos _)).bind ((touch_inside _ (size_pos _)).bind ?_)
  exact (startupLoop_yields body.length 4 CStr.empty CStr.empty).map

/-! ## Frontend messages -/

theorem readOids_yields (n i off : ℕ) (h : i + n ≤ maxParamTypes) :
    Yields (Inside body) (readOids body n i off) (Pqwire.readOids body n off) := by
  induction n generalizing i off with
  | zero => exact .pure _
  | succ n ih =>
    unfold readOids Pqwire.readOids
    have hi : i < maxParamTypes := by omega
    by_cases hoff : off + 4 ≤ body.length
    · rw [if_pos hoff, if_pos hoff]
      refine (load32Be_yields hoff).bind ((touch_inside .paramTypeOids hi).bind ?_)
      exact (ih (i + 1) (off + 4) (by omega)).map
    · rw [if_neg hoff, if_neg hoff]
      exact .pure _

theorem parseOf_yields (body : Bytes) : Yields (Inside body) (parseOf body) (Pqwire.parseOf body) := by
  unfold parseOf Pqwire.parseOf
  cases hn : ByteMem.readCstr body with
  | none => exact (readCstr_null (Nat.zero_le _) hn).bind (.pure _)
  | some r =>
    obtain ⟨name, c⟩ := r
    refine (readCstr_found (Nat.zero_le _) hn).bind ((copyCstr_yields .parseStatement (strAt_of_readCstr (p := 0) hn)).bind ?_)
    have hc : c ≤ body.length := readCstr_le hn
    simp only [Option.bind_eq_bind, Option.bind_some]
    cases hq : ByteMem.readCstr (body.drop c) with
    | none => exact (readCstr_null hc hq).bind (.pure _)
    | some r =>
      obtain ⟨query, c'⟩ := r
      refine (readCstr_found hc hq).bind ((copyCstr_yields .parseQuery (strAt_of_readCstr hq)).bind ?_)
      simp only [Option.bind_some]
      by_cases hoff : c + c' + 2 ≤ body.length
      · rw [if_pos hoff, if_pos hoff]
        refine (load16Be_yields hoff).bind ?_
        exact (readOids_yields _ 0 _ (by omega)).map
      · rw [if_neg hoff, if_neg hoff]
        exact .pure _

theorem readCodes_yields (a : FixedArray) (n i off : ℕ) (h : i + n ≤ a.size) :
    Yields (Inside body) (readCodes body a n i off) (Pqwire.readCodes body n off) := by
  induction n generalizing i off with
  | zero => exact .pure _
  | succ n ih =>
    unfold readCodes Pqwire.readCodes
    by_cases hoff : off + 2 ≤ body.length
    · rw [if_pos hoff, if_pos hoff]
      refine (load16Be_yields hoff).bind ((touch_inside _ (by omega)).bind ?_)
      exact (ih (i + 1) (off + 2) (by omega)).map
    · rw [if_neg hoff, if_neg hoff]
      exact .pure _

theorem formatFor_yields {nFormats : ℕ} (formats : List Int16) (i : ℕ) (h : nFormats ≤ maxBindParams) :
    Yields (Inside body) (formatFor nFormats formats i) (Pqwire.formatFor nFormats formats i) := by
  unfold formatFor Pqwire.formatFor
  by_cases h0 : nFormats = 0
  · rw [if_pos h0, if_pos h0]
    exact .pure _
  rw [if_neg h0, if_neg h0]
  by_cases h1 : nFormats = 1
  · rw [if_pos h1, if_pos h1]
    exact (touch_inside _ (size_pos _)).bind (.pure _)
  rw [if_neg h1, if_neg h1]
  by_cases hi : i < nFormats
  · rw [if_pos hi, if_pos hi]
    exact (touch_inside .formats (hi.trans_le h)).bind (.pure _)
  · rw [if_neg hi, if_neg hi]
    exact .pure _

theorem readParams_yields (base : ℕ) {nFormats : ℕ} (formats : List Int16) (hf : nFormats ≤ maxBindParams) (n i off : ℕ)
    (h : i + n ≤ maxBindParams) : Yields (Inside body) (readParams base body nFormats formats n i off)
      (Pqwire.readParams base body (Pqwire.formatFor nFormats formats) n i off) := by
  induction n generalizing i off with
  | zero => exact .pure _
  | succ n ih =>
    have hi : i < maxBindParams := by omega
    unfold readParams Pqwire.readParams
    by_cases hoff : off + 4 ≤ body.length
    · rw [if_pos hoff, if_pos hoff]
      refine (load32Be_yields hoff).bind ((touch_inside .params hi).bind ?_)
      dsimp only
      -- the length and the pointer are both stored in the entry `i`
      by_cases hneg : (toI32 (rd32Be body off)).toInt < 0
      · rw [if_pos hneg, if_pos hneg]
        refine (touch_inside .params hi).bind ((formatFor_yields formats i hf).bind ((touch_inside .params hi).bind ?_))
        refine (ih (i + 1) (off + 4) (by omega)).bind ?_
        cases Pqwire.readParams base body (Pqwire.formatFor nFormats formats) n (i + 1) (off + 4) with
        | none => exact .pure _
        | some r => exact .pure _
      rw [if_neg hneg, if_neg hneg]
      by_cases hlong : off + 4 + (toI32 (rd32Be body off)).toInt.toNat > body.length
      · rw [if_pos hlong, if_pos hlong]
        exact .pure _
      · rw [if_neg hlong, if_neg hlong]
        refine (touch_inside .params hi).bind ((formatFor_yields formats i hf).bind ((touch_inside .params hi).bind ?_))
        refine (ih (i + 1) _ (by omega)).bind ?_
        cases Pqwire.readParams base body (Pqwire.formatFor nFormats formats) n (i + 1)
          (off + 4 + (toI32 (rd32Be body off)).toInt.toNat) with
        | none => exact .pure _
        | some r => exact .pure _
    · rw [if_neg hoff, if_neg hoff]
      exact .pure _

theorem bindOf_yields (base : ℕ) (body : Bytes) : Yields (Inside body) (bindOf base body) (Pqwire.bindOf base body) := by
  unfold bindOf Pqwire.bindOf
  cases hp : ByteMem.readCstr body with
  | none => exact (readCstr_null (Nat.zero_le _) hp).bind (.pure _)
  | some r =>
    obtain ⟨portal, c⟩ := r
    refine (readCstr_found (Nat.zero_le _) hp).bind ((copyCstr_yields .bindPortal (strAt_of_readCstr (p := 0) hp)).bind ?_)
    have hc : c ≤ body.length := readCstr_le hp
    simp only [Option.bind_eq_bind, Option.bind_some]
    cases hs : ByteMem.readCstr (body.drop c) with
    | none => exact (readCstr_null hc hs).bind (.pure _)
    | some r =>
      obtain ⟨stmt, c'⟩ := r
      refine (readCstr_found hc hs).bind ((copyCstr_yields .bindStatement (strAt_of_readCstr hs)).bind ?_)
      simp only [Option.bind_some]
      by_cases h1 : c + c' + 2 > body.length
      · rw [if_pos h1, if_pos h1]
        exact .pure _
      rw [if_neg h1, if_neg h1]
      refine (load16Be_yields (by omega)).bind ?_
      -- the cap on the count is what keeps the index inside the array
      have hnf : min (rd16Be body (c + c')) maxBindParams ≤ maxBindParams := min_le_right _ _
      refine (readCodes_yields .formats _ 0 _ ((Nat.zero_add _).trans_le hnf)).bind ?_
      simp only [Option.pure_def]
      -- from here on only the bound on the count matters
      generalize min (rd16Be body (c + c')) maxBindParams = nFormats at hnf ⊢
      generalize Pqwire.readCodes body nFormats (c + c' + 2) = formats
      generalize c + c' + 2 + 2 * formats.length = off
      by_cases h2 : off + 2 > body.length
      · rw [if_pos h2, if_pos h2]
        exact .pure _
      rw [if_neg h2, if_neg h2]
      refine (load16Be_yields (by omega)).bind ?_
      have hnp : min (rd16Be body off) maxBindParams ≤ maxBindParams := min_le_right _ _
      refine (readParams_yields base formats hnf _ 0 _ ((Nat.zero_add _).trans_le hnp)).bind ?_
      cases Pqwire.readParams base body (Pqwire.formatFor nFormats formats) (min (rd16Be body off) maxBindParams) 0
        (off + 2) with
      | none => exact .pure _
      | some r =>
        obtain ⟨params, off'⟩ := r
        simp only [Option.bind_some]
        by_cases h3 : off' + 2 ≤ body.length
        · rw [if_pos h3, if_pos h3]
          refine (load16Be_yields h3).bind ?_
          exact (readCodes_yields .resultFormats _ 0 _ ((Nat.zero_add _).trans_le (min_le_right _ _))).map
        · rw [if_neg h3, if_neg h3]
          exact .pure _

theorem targetName_yields (body : Bytes) (a : FixedArray) (ha : a.size = maxStmtName) :
    Yields (Inside body) (targetName body a) (Pqwire.targetName body) := by
  unfold targetName Pqwire.targetName
  cases body with
  | nil => exact .pure _
  | cons t rest =>
    rw [if_neg (by simp)]
    refine (load_yields (by simp)).bind ?_
    have h1 : 1 ≤ (t :: rest).length := by simp
    dsimp only
    cases hr : ByteMem.readCstr rest with
    | none => exact (readCstr_null h1 hr).bind (.pure _)
    | some r =>
      obtain ⟨name, n⟩ := r
      refine (readCstr_found h1 hr).bind ?_
      rw [← ha]
      exact (copyCstr_yields a (@strAt_of_readCstr (t :: rest) 1 _ _ hr)).map

theorem executeOf_yields (body : Bytes) : Yields (Inside body) (executeOf body) (Pqwire.executeOf body) := by
  unfold executeOf Pqwire.executeOf
  cases hp : ByteMem.readCstr body with
  | none => exact (readCstr_null (Nat.zero_le _) hp).bind (.pure _)
  | some r =>
    obtain ⟨portal, off⟩ := r
    refine (readCstr_found (Nat.zero_le _) hp).bind ((copyCstr_yields .executePortal (strAt_of_readCstr (p := 0) hp)).bind ?_)
    simp only [Option.bind_eq_bind, Option.bind_some]
    by_cases h : off + 4 ≤ body.length
    · rw [if_pos h, if_pos h]
      exact (load32Be_yields h).map
    · rw [if_neg h, if_neg h]
      exact .pure _

theorem scratchStr_yields (a : FixedArray) (body : Bytes) :
    Yields (Inside body) (scratchStr a body) (Pqwire.scratchStr a.size body) := by
  unfold scratchStr Pqwire.scratchStr
  cases hr : ByteMem.readCstr body with
  | none => exact (readCstr_null (Nat.zero_le _) hr).bind ((touch_inside a (size_pos a)).bind (.pure _))
  | some r =>
    obtain ⟨s, n⟩ := r
    exact (readCstr_found (Nat.zero_le _) hr).bind (copyCstr_yields a (strAt_of_readCstr (p := 0) hr))

/-! ## Backend messages -/

/-- The digits of a string. The rounds do not run out: they are more than the string has
characters. -/
theorem digits_yields {l : Bytes} (hl : StrAt body off l) (acc n : ℕ) (h : l.length < n) :
    Yields (Inside body) (digits body n acc off)
      ((l.takeWhile CText.isDigit).foldl (fun acc b => acc * 10 + (b.toNat - 48)) acc) := by
  induction l generalizing off acc n with
  | nil =>
    obtain ⟨hlt, hb⟩ := hl.nil
    obtain ⟨n, rfl⟩ : ∃ m, n = m + 1 := ⟨n - 1, by simp at h; omega⟩
    refine (load_yields hlt).bind ?_
    rw [hb, if_neg (by decide)]
    exact .pure _
  | cons b l ih =>
    obtain ⟨hlt, hb, htl⟩ := hl.cons
    rw [List.length_cons] at h
    obtain ⟨n, rfl⟩ : ∃ m, n = m + 1 := ⟨n - 1, by omega⟩
    refine (load_yields hlt).bind ?_
    rw [hb, List.takeWhile_cons]
    by_cases hd : CText.isDigit b = true
    · rw [if_pos hd, if_pos hd]
      exact ih htl _ n (by omega)
    · rw [if_neg hd, if_neg hd]
      exact .pure _

/-- The white space of a string, and what stands behind it. -/
theorem skipSpace_yields {l : Bytes} (hl : StrAt body off l) (n : ℕ) (h : l.length < n) :
    ∃ p, Yields (Inside body) (skipSpace body n off) p ∧ StrAt body p (l.dropWhile CText.isSpace) := by
  induction l generalizing off n with
  | nil =>
    obtain ⟨hlt, hb⟩ := hl.nil
    obtain ⟨n, rfl⟩ : ∃ m, n = m + 1 := ⟨n - 1, by simp at h; omega⟩
    refine ⟨off, (load_yields hlt).bind ?_, hl⟩
    rw [hb, if_neg (by decide)]
    exact .pure _
  | cons b l ih =>
    obtain ⟨hlt, hb, htl⟩ := hl.cons
    rw [List.length_cons] at h
    obtain ⟨n, rfl⟩ : ∃ m, n = m + 1 := ⟨n - 1, by omega⟩
    by_cases hs : CText.isSpace b = true
    · obtain ⟨p, hp, hat⟩ := ih htl n (by omega)
      refine ⟨p, (load_yields hlt).bind ?_, ?_⟩
      · rw [hb, if_pos hs]
        exact hp
      · rwa [List.dropWhile_cons, if_pos hs]
    · refine ⟨off, (load_yields hlt).bind ?_, ?_⟩
      · rw [hb, if_neg hs]
        exact .pure _
      · rwa [List.dropWhile_cons, if_neg hs]

/-- Without digits the loop leaves 0, of which `strtol` makes the 0 that it gives where there is no number. -/
theorem strtol_digits (minus : Bool) (l : Bytes) :
    CText.strtol minus (CText.digitsValue (l.takeWhile CText.isDigit)) =
      (((CText.scanDigits l).map fun n => (minus, n)).map fun r => CText.strtol r.1 r.2).getD 0 := by
  unfold CText.scanDigits
  dsimp only
  split
  · rename_i hnil
    rw [hnil]
    cases minus <;> decide
  · rfl

theorem atoi_yields (hs : StrAt body off s.bytes) : Yields (Inside body) (atoi body off) (Pqwire.atoi s) := by
  have hlen := hs.length_lt
  obtain ⟨p, hp, hat⟩ := skipSpace_yields hs (body.length + 1) (by omega)
  unfold Pqwire.atoi CText.scanNumber
  refine hp.bind ?_
  generalize s.bytes.dropWhile CText.isSpace = l at hat
  have hlen := hat.length_lt
  have hminus : ch '-' = 45 := rfl
  have hplus : ch '+' = 43 := rfl
  cases l with
  | nil =>
    -- the terminator is no sign and no digit
    obtain ⟨hlt, hb⟩ := hat.nil
    refine (load_yields hlt).bind ?_
    rw [hb, if_neg (by decide), if_neg (by decide)]
    exact (digits_yields hat 0 (body.length + 1) (by simp)).map
  | cons b l =>
    obtain ⟨hlt, hb, htl⟩ := hat.cons
    rw [List.length_cons] at hlen
    refine (load_yields hlt).bind ?_
    rw [hb, hminus, hplus]
    dsimp only
    by_cases hm : b = 45
    · rw [if_pos hm, if_pos hm, ← strtol_digits]
      exact (digits_yields htl 0 (body.length + 1) (by omega)).map
    rw [if_neg hm, if_neg hm]
    by_cases hpl : b = 43
    · rw [if_pos hpl, if_pos hpl, ← strtol_digits]
      exact (digits_yields htl 0 (body.length + 1) (by omega)).map
    · rw [if_neg hpl, if_neg hpl, ← strtol_digits]
      exact (digits_yields hat 0 (body.length + 1) (by rw [List.length_cons]; omega)).map

theorem setField_yields (e : PqError) (field : UInt8) (hs : StrAt body off s.bytes) :
    Yields (Inside body) (setField body e field off) (e.setField field s) := by
  unfold setField PqError.setField
  split
  · exact (copyCstr_yields .severity hs).map
  split
  · exact (copyCstr_yields .code hs).map
  split
  · exact (copyCstr_yields .message hs).map
  split
  · exact (copyCstr_yields .detail hs).map
  split
  · exact (copyCstr_yields .hint hs).map
  split
  · exact (atoi_yields hs).map
  · exact .pure _

theorem errorLoop_yields (n off : ℕ) (e : PqError) :
    Yields (Inside body) (errorLoop body n off e) (Pqwire.errorLoop n (body.drop off) e) := by
  induction n generalizing off e with
  | zero => exact .pure _
  | succ n ih =>
    unfold errorLoop
    by_cases hoff : off < body.length
    · rw [if_pos hoff]
      have hd : body.drop off = body.getD off 0 :: body.drop (off + 1) := by
        rw [List.drop_eq_getElem_cons hoff, List.getD_eq_getElem _ _ hoff]
      rw [hd, Pqwire.errorLoop]
      refine (load_yields hoff).bind ?_
      by_cases h0 : body.getD off 0 = 0
      · rw [if_pos h0, if_pos h0]
        exact .pure _
      rw [if_neg h0, if_neg h0]
      refine (load_yields hoff).bind ?_
      cases hv : ByteMem.readCstr (body.drop (off + 1)) with
      | none => exact (readCstr_null (by omega) hv).bind (.pure _)
      | some r =>
        obtain ⟨val, c⟩ := r
        refine (readCstr_found (by omega) hv).bind ((setField_yields e _ (strAt_of_readCstr hv)).bind ?_)
        dsimp only
        rw [List.drop_drop]
        exact ih (off + 1 + c) _
    · rw [if_neg hoff, List.drop_eq_nil_of_le (by omega), Pqwire.errorLoop]
      exact .pure _

theorem rowDescLoop_yields (n i off : ℕ) (cols : List ColDesc) (names : List CStr) (h : i + n ≤ maxRowColumns) :
    Yields (Inside body) (rowDescLoop body n i off cols names) (Pqwire.rowDescLoop body n i off cols names) := by
  induction n generalizing i off cols names with
  | zero => exact .pure _
  | succ n ih =>
    have hi : i < maxRowColumns := by omega
    unfold rowDescLoop Pqwire.rowDescLoop
    by_cases hoff : off < body.length
    · rw [if_pos hoff, if_pos hoff]
      cases hn : ByteMem.readCstr (body.drop off) with
      | none => exact (readCstr_null (by omega) hn).bind (.pure _)
      | some r =>
        obtain ⟨name, c⟩ := r
        refine (readCstr_found (by omega) hn).bind ((touch_inside .colNameScratch hi).bind ?_)
        refine (copyCstr_yields .colName (strAt_of_readCstr hn)).bind ?_
        dsimp only
        by_cases h18 : off + c + 18 > body.length
        · rw [if_pos h18, if_pos h18]
          exact .pure _
        · rw [if_neg h18, if_neg h18]
          refine (touch_inside .colScratch hi).bind ?_
          refine (load32Be_yields (by omega)).bind ((load16Be_yields (by omega)).bind ?_)
          exact ih (i + 1) (off + c + 18) _ _ (by omega)
    · rw [if_neg hoff, if_neg hoff]
      exact .pure _

/-- The four arrays of a row at column `i`. -/
theorem rowColumn_yields {α : Type} {i : ℕ} (h : i < maxRowColumns) {m : Prog α} {v : α} (hm : Yields (Inside body) m v) :
    Yields (Inside body) (do touch .rowData i; touch .rowLen i; touch .rowFormat i; touch .rowOid i; m) v :=
  (touch_inside .rowData h).bind ((touch_inside .rowLen h).bind ((touch_inside .rowFormat h).bind ((touch_inside .rowOid h).bind hm)))

theorem dataRowLoop_yields (n i off : ℕ) (arena : Bytes) (used : ℕ) (h : i + n ≤ maxRowColumns) :
    Yields (Inside body) (dataRowLoop body n i off arena used) (Pqwire.dataRowLoop body n off arena used) := by
  induction n generalizing i off arena used with
  | zero => exact .pure _
  | succ n ih =>
    have hi : i < maxRowColumns := by omega
    unfold dataRowLoop Pqwire.dataRowLoop
    by_cases hoff : off + 4 ≤ body.length
    · rw [if_pos hoff, if_pos hoff]
      refine (load32Be_yields hoff).bind ?_
      dsimp only
      generalize toI32 (rd32Be body off) = plen
      by_cases hneg : plen.toInt < 0
      · rw [if_pos hneg, if_pos hneg]
        exact rowColumn_yields hi (ih (i + 1) _ _ _ (by omega)).map
      rw [if_neg hneg, if_neg hneg]
      by_cases hlong : off + 4 + plen.toInt.toNat > body.length
      · rw [if_pos hlong, if_pos hlong]
        exact .pure _
      rw [if_neg hlong, if_neg hlong]
      -- the arena is written only behind the check that the value fits
      by_cases hfull : used + plen.toInt.toNat > rowArenaSize
      · rw [if_pos hfull, if_pos hfull]
        exact rowColumn_yields hi (ih (i + 1) _ _ _ (by omega)).map
      · rw [if_neg hfull, if_neg hfull]
        refine (memcpy_yields (a := FixedArray.rowArena) used (off + 4) _ (by omega) ?_).bind ?_
        · exact Nat.le_of_not_lt hfull
        exact rowColumn_yields hi (ih (i + 1) _ _ _ (by omega)).map
    · rw [if_neg hoff, if_neg hoff]
      exact .pure _

/-- The length of a payload, cut at `n` more bytes. -/
theorem payloadLen_yields {p : ℕ} {l : Bytes} (h0 : (0 : UInt8) ∉ l) (n plen : ℕ) (hl : StrAt body (p + plen) l) :
    Yields (Inside body) (payloadLen body p n plen) (plen + min l.length n) := by
  induction n generalizing l plen with
  | zero =>
    rw [Nat.min_zero, Nat.add_zero]
    refine (load_yields ?_).bind (.pure _)
    have := hl.length_lt
    omega
  | succ n ih =>
    cases l with
    | nil =>
      obtain ⟨hlt, hb⟩ := hl.nil
      refine (load_yields hlt).bind ?_
      rw [if_pos hb]
      exact .pure _
    | cons b l =>
      obtain ⟨hlt, hb, htl⟩ := hl.cons
      have hne : b ≠ 0 := fun he => h0 (he ▸ List.mem_cons_self)
      refine (load_yields hlt).bind ?_
      rw [hb, if_neg hne, List.length_cons, show plen + min (l.length + 1) (n + 1) = plen + 1 + min l.length n by omega]
      exact ih (fun hm => h0 (List.mem_cons_of_mem _ hm)) (plen + 1) htl

theorem notificationOf_yields (body : Bytes) :
    Yields (Inside body) (notificationOf body) (Pqwire.notificationOf body) := by
  unfold notificationOf Pqwire.notificationOf
  by_cases h4 : body.length < 4
  · rw [if_pos h4, if_pos h4]
    exact .pure _
  rw [if_neg h4, if_neg h4]
  refine (load32Be_yields (by omega)).bind ?_
  simp only [Option.pure_def, Option.bind_eq_bind]
  cases hc : ByteMem.readCstr (body.drop 4) with
  | none => exact (readCstr_null (by omega) hc).bind (.pure _)
  | some r =>
    obtain ⟨channel, n⟩ := r
    have hn := found_le (by omega) hc
    refine (readCstr_found (by omega) hc).bind ((copyCstr_yields .channel (strAt_of_readCstr hc)).bind ?_)
    simp only [Option.bind_some]
    cases hp : ByteMem.readCstr (body.drop (4 + n)) with
    | none => exact (readCstr_null hn hp).bind ((touch_inside _ (size_pos _)).bind (.pure _))
    | some r =>
      obtain ⟨payload, k⟩ := r
      have hat := strAt_of_readCstr hp
      have hlen := hat.length_lt
      refine (readCstr_found hn hp).bind ((payloadLen_yields payload.noNul notifyPayloadMax 0 hat).bind ?_)
      rw [Nat.zero_add]
      -- the copy stops at the terminator of the payload and at the last byte but one of the array
      have hle : min payload.bytes.length notifyPayloadMax ≤ notifyPayloadMax := min_le_right _ _
      have hle' : min payload.bytes.length notifyPayloadMax ≤ payload.bytes.length := min_le_left _ _
      refine (memcpy_yields (a := FixedArray.payload) 0 (4 + n) _ (by omega) ?_).bind ?_
      · exact (Nat.zero_add _).trans_le (hle.trans (Nat.le_succ _))
      refine (touch_inside .payload (Nat.lt_succ_of_le hle)).bind ?_
      have hval : strOf (slice body (4 + n) (min payload.bytes.length notifyPayloadMax) ++ [0]) =
          payload.take notifyPayloadMax := by
        rw [hat.slice]
        exact strOf_terminated (fun hm => payload.noNul (List.mem_of_mem_take hm)) []
      rw [hval]
      exact .pure _

/-! ## Dispatch -/

theorem parseRowDescription_yields (c : Ctx) (body : Bytes) :
    Yields (Inside body) (parseRowDescription c body) (Pqwire.parseRowDescription c body) := by
  unfold parseRowDescription Pqwire.parseRowDescription
  by_cases h2 : body.length < 2
  · rw [if_pos h2, if_pos h2]
    exact .pure _
  · rw [if_neg h2, if_neg h2]
    refine (load16Be_yields (by omega)).bind ?_
    exact (rowDescLoop_yields _ 0 2 _ _ ((Nat.zero_add _).trans_le (min_le_right _ _))).map

theorem parseDataRow_yields (c : Ctx) (body : Bytes) :
    Yields (Inside body) (parseDataRow c body) (Pqwire.parseDataRow c body) := by
  unfold parseDataRow Pqwire.parseDataRow
  by_cases h2 : body.length < 2
  · rw [if_pos h2, if_pos h2]
    exact .pure _
  · rw [if_neg h2, if_neg h2]
    refine (load16Be_yields (by omega)).bind ?_
    exact (dataRowLoop_yields _ 0 2 _ _ ((Nat.zero_add _).trans_le (min_le_right _ _))).map

theorem parseParseMsg_yields (c : Ctx) (body : Bytes) :
    Yields (Inside body) (parseParseMsg c body) (Pqwire.parseParseMsg c body) := by
  unfold parseParseMsg Pqwire.parseParseMsg
  refine (parseOf_yields body).bind ?_
  cases Pqwire.parseOf body with
  | none => exact .pure _
  | some m => exact .pure _

theorem parseBindMsg_yields (c : Ctx) (base : ℕ) (body : Bytes) :
    Yields (Inside body) (parseBindMsg c base body) (Pqwire.parseBindMsg c base body) := by
  unfold parseBindMsg Pqwire.parseBindMsg
  refine (bindOf_yields base body).bind ?_
  cases Pqwire.bindOf base body with
  | none => exact .pure _
  | some m => exact .pure _

theorem parseDescribeMsg_yields (c : Ctx) (body : Bytes) :
    Yields (Inside body) (parseDescribeMsg c body) (Pqwire.parseDescribeMsg c body) := by
  unfold parseDescribeMsg Pqwire.parseDescribeMsg
  refine (targetName_yields body .describeName rfl).bind ?_
  cases Pqwire.targetName body with
  | none => exact .pure _
  | some m => exact .pure _

theorem parseCloseMsg_yields (c : Ctx) (body : Bytes) :
    Yields (Inside body) (parseCloseMsg c body) (Pqwire.parseCloseMsg c body) := by
  unfold parseCloseMsg Pqwire.parseCloseMsg
  refine (targetName_yields body .closeName rfl).bind ?_
  cases Pqwire.targetName body with
  | none => exact .pure _
  | some m => exact .pure _

theorem parseExecuteMsg_yields (c : Ctx) (body : Bytes) :
    Yields (Inside body) (parseExecuteMsg c body) (Pqwire.parseExecuteMsg c body) := by
  unfold parseExecuteMsg Pqwire.parseExecuteMsg
  refine (executeOf_yields body).bind ?_
  cases Pqwire.executeOf body with
  | none => exact .pure _
  | some m => exact .pure _

theorem parseNotificationResponse_yields (c : Ctx) (body : Bytes) :
    Yields (Inside body) (parseNotificationResponse c body) (Pqwire.parseNotificationResponse c body) := by
  unfold parseNotificationResponse Pqwire.parseNotificationResponse
  refine (notificationOf_yields body).bind ?_
  cases Pqwire.notificationOf body with
  | none => exact .pure _
  | some m => exact .pure _

theorem handleFrontend_yields (c : Ctx) (base : ℕ) (body : Bytes) (t : FrontType) :
    Yields (Inside body) (handleFrontend c base body t) (Pqwire.handleFrontend c base body t) := by
  cases t with
  | query => exact (scratchStr_yields .sqlScratch body).map
  | parse => exact parseParseMsg_yields c body
  | bind => exact parseBindMsg_yields c base body
  | describe => exact parseDescribeMsg_yields c body
  | execute => exact parseExecuteMsg_yields c body
  | close => exact parseCloseMsg_yields c body
  | sync => exact .pure _
  | flush => exact .pure _
  | terminate => exact .pure _

theorem handleBackend_yields (c : Ctx) (base : ℕ) (body : Bytes) (t : BackType) :
    Yields (Inside body) (handleBackend c base body t) (Pqwire.handleBackend c base body t) := by
  cases t with
  | authentication =>
    unfold handleBackend Pqwire.handleBackend
    dsimp only
    by_cases h4 : 4 ≤ body.length
    · rw [if_pos h4]
      refine (load32Be_yields (by omega)).bind ?_
      by_cases h0 : rd32Be body 0 = 0
      · rw [if_pos h0, if_pos ⟨h4, h0⟩]
        exact .pure _
      · rw [if_neg h0, if_neg (fun h => h0 h.2)]
        exact .pure _
    · rw [if_neg h4, if_neg (fun h => h4 h.1)]
      exact .pure _
  | rowDescription => exact parseRowDescription_yields c body
  | dataRow => exact parseDataRow_yields c body
  | commandComplete => exact (scratchStr_yields .tagScratch body).map
  | errorResponse => exact (errorLoop_yields body.length 0 {}).map
  | notification => exact parseNotificationResponse_yields c body
  | _ => exact .pure _

/-- **`handle_message` with its accesses**: it returns what `handleMessage` returns and stays
inside the body and its arrays, whatever the type and the bytes. -/
theorem handleMessage_yields (c : Ctx) (type : UInt8) (base : ℕ) (body : Bytes) :
    Yields (Inside body) (handleMessage c type base body) (Pqwire.handleMessage c type base body) := by
  unfold handleMessage Pqwire.handleMessage
  cases c.role with
  | server =>
    cases FrontType.all.find? (·.byte = type) with
    | none => exact .pure _
    | some t => exact handleFrontend_yields c base body t
  | client =>
    cases BackType.all.find? (·.byte = type) with
    | none => exact .pure _
    | some t => exact handleBackend_yields c base body t

end Mem

/-! ## Recorded slices -/

theorem dataRowLoop_inside (body : Bytes) (n off : ℕ) (arena : Bytes) (used : ℕ) :
    ∀ col ∈ (dataRowLoop body n off arena used).columns, ∀ p, col.data = some p → p + col.len ≤ rowArenaSize := by
  induction n generalizing off arena used with
  | zero => exact fun col hcol => absurd hcol List.not_mem_nil
  | succ n ih =>
    intro col hcol p hp
    simp only [dataRowLoop] at hcol
    split at hcol
    · split at hcol
      · rcases List.mem_cons.1 hcol with rfl | hcol
        · cases hp
        · exact ih _ _ _ col hcol p hp
      split at hcol
      · exact absurd hcol List.not_mem_nil
      split at hcol
      · rcases List.mem_cons.1 hcol with rfl | hcol
        · cases hp
        · exact ih _ _ _ col hcol p hp
      · rename_i hroom
        rcases List.mem_cons.1 hcol with rfl | hcol
        · cases hp
          exact Nat.le_of_not_lt hroom
        · exact ih _ _ _ col hcol p hp
    · exact absurd hcol List.not_mem_nil

theorem rowDescLoop_count (body : Bytes) (n i off : ℕ) (cols : List ColDesc) (names : List CStr) :
    (rowDescLoop body n i off cols names).2.2 ≤ i + n := by
  induction n generalizing i off cols names with
  | zero => exact le_rfl
  | succ n ih =>
    simp only [rowDescLoop]
    split
    · split
      · exact Nat.le_add_right _ _
      split
      · exact Nat.le_add_right _ _
      · refine (ih (i + 1) _ _ _).trans ?_
        omega
    · exact Nat.le_add_right _ _

/-- The events that `c'` has enqueued since `c` record slices of the body or the arena only. -/
def SlicesIn (base len : ℕ) (c c' : Ctx) : Prop := ∀ q ∈ c'.log.drop c.log.length, q.ev.SlicesInside base len

section

variable {base len : ℕ} {c d : Ctx}

theorem slicesIn_none (h : d.log = c.log) : SlicesIn base len c d := by
  intro q hq
  rw [h, List.drop_length] at hq
  cases hq

theorem slicesIn_enqueue {q : Queued} (h : d.log = c.log ++ [q]) (hq : q.ev.SlicesInside base len) :
    SlicesIn base len c d := by
  intro q' hq'
  rw [h, List.drop_left, List.mem_singleton] at hq'
  rw [hq']
  exact hq

end

theorem plainEvent_slices {role : Role} {type : UInt8} {body : Bytes} {ev : Event}
    (h : plainEvent role type base body = some ev) : ev.SlicesInside base body.length := by
  rcases plainEvent_cases h with ⟨b, rfl, -, -, hb⟩ | ⟨rfl, -⟩ | hv
  · obtain ⟨-, -, -, -, h1, h2⟩ := bindOf_inv hb
    exact ⟨h1, h2, fun i p hp => bindOf_view hb i hp⟩
  · exact ⟨le_rfl, le_rfl⟩
  · cases ev <;> trivial

theorem handleMessage_slices (c : Ctx) (type : UInt8) (base : ℕ) (body : Bytes) :
    SlicesIn base body.length c (handleMessage c type base body) := by
  have h := handleMessage_handling c type base body
  generalize handleMessage c type base body = c' at h ⊢
  cases h with
  | ignored => exact slicesIn_none rfl
  | event _ hp => exact slicesIn_enqueue rfl (plainEvent_slices hp)
  | authentication => exact slicesIn_none rfl
  | rowDescription =>
    unfold parseRowDescription
    split
    · exact slicesIn_none rfl
    · refine slicesIn_enqueue rfl ((rowDescLoop_count body _ 0 2 _ _).trans ?_)
      exact (Nat.zero_add _).trans_le (min_le_right _ _)
  | dataRow =>
    unfold parseDataRow
    split
    · exact slicesIn_none rfl
    · exact slicesIn_enqueue rfl (dataRowLoop_inside body _ 2 _ _)
  | _ => exact slicesIn_enqueue rfl trivial

theorem parseStartupBody_slices (c : Ctx) (base : ℕ) (body : Bytes) :
    SlicesIn base body.length c (parseStartupBody c body) := by
  unfold parseStartupBody
  split
  · exact slicesIn_enqueue rfl trivial
  · exact slicesIn_enqueue rfl trivial

/-! ## Every call -/

/-- **No call leaves its frame**, in any context and for any body. -/
theorem ParserCall.inFrame (c : Ctx) (call : ParserCall) : call.InFrame c call.body.length := by
  cases call with
  | startup body =>
    obtain ⟨hval, hlog⟩ := Mem.parseStartupBody_yields c body
    exact ⟨rfl, hval, hlog, parseStartupBody_slices c 4 body⟩
  | message type body =>
    obtain ⟨hval, hlog⟩ := Mem.handleMessage_yields c type 5 body
    exact ⟨rfl, hval, hlog, handleMessage_slices c type 5 body⟩

/-- The calls are those that the rounds of the loop make: a round that goes on rejects a frame or is
a call and moves the rest of the input, and one that ends the loop waits or drops a startup message. -/
theorem feedStep_calls (c : Ctx) :
    (∀ c', c.feedStep = .again c' → c' = c.rejectFrame c.typedLen ∨ ∃ call len n, c.Calls call len ∧ c' = (call.run c).consume n) ∧
      ∀ c', c.feedStep = .stop c' → c' = c ∨ c' = { c.enqueueEvent .protocolError [] with inputLen := 0 } := by
  have hr := feedStep_rounds c
  constructor
  · intro c' h
    rw [h] at hr
    cases hr with
    | startup ha h8 hm hl => exact Or.inr ⟨_, _, _, .startup ha rfl h8 hm hl, rfl⟩
    | reject => exact Or.inl rfl
    | message ha h4 hm hl => exact Or.inr ⟨_, _, _, .message ha rfl h4 hm hl, rfl⟩
  · intro c' h
    rw [h] at hr
    cases hr with
    | wait => exact Or.inl rfl
    | badStartup => exact Or.inr rfl

/-- The body that a round passes is all in the buffer. -/
theorem calls_body {c : Ctx} (h : c.Ok) {call : ParserCall} {len : ℕ} (hc : c.Calls call len) :
    call.body.length = len := by
  have hin := h.input
  cases hc with
  | startup _ _ _ _ hl => exact slice_length (by omega)
  | message _ _ _ _ hl => exact slice_length (by omega)

/-- **No parser leaves its frame.** In every call of `pqwire_feed_input` on a context that calls
lead to from creation, at every round of its loop that calls a parser: the body is `body_len`
bytes of the input buffer, every byte read lies below `body_len`, every access to a fixed array
lies inside the array, and every slice recorded in an event lies inside the body or the arena.
A round reads a body in no other way. -/
theorem parsers_in_frame {c c₀ c₁ : Ctx} {data : Bytes} (hc : Reachable c) (ha : c.acceptInput data = some c₀)
    (hr : c₀.Reaches c₁) :
    (∀ call len, c₁.Calls call len → call.InFrame c₁ len) ∧
      (∀ c', c₁.feedStep = .again c' →
        c' = c₁.rejectFrame c₁.typedLen ∨ ∃ call len n, c₁.Calls call len ∧ c' = (call.run c₁).consume n) ∧
      ∀ c', c₁.feedStep = .stop c' → c' = c₁ ∨ c' = { c₁.enqueueEvent .protocolError [] with inputLen := 0 } := by
  refine ⟨?_, feedStep_calls c₁⟩
  intro call len hcall
  have hok : c₁.Ok := hr.ok (acceptInput_ok (reachable_ok hc).1 ha)
  rw [← calls_body hok hcall]
  exact call.inFrame c₁

/-- A row with one column of one byte, and one byte behind it. -/
theorem parsers_in_frame_row : ∃ c₁ call, tinyClient.acceptInput [68, 0, 0, 0, 11, 0, 1, 0, 0, 0, 1, 7, 90] = some c₁ ∧
    c₁.Calls call 7 ∧ call.InFrame c₁ 7 := by
  have hacc : tinyClient.acceptInput [68, 0, 0, 0, 11, 0, 1, 0, 0, 0, 1, 7, 90] =
      some (tinyClient.setInput [68, 0, 0, 0, 11, 0, 1, 0, 0, 0, 1, 7, 90] 13 4096) := rfl
  have hcall : (tinyClient.setInput [68, 0, 0, 0, 11, 0, 1, 0, 0, 0, 1, 7, 90] 13 4096).Calls
      (.message 68 [0, 1, 0, 0, 0, 1, 7]) 7 :=
    @Ctx.Calls.message _ 11 rfl (by decide) (by decide) (by decide) (by decide)
  exact ⟨_, _, hacc, hcall, (parsers_in_frame tinyClient_reachable hacc .refl).1 _ _ hcall⟩

end Pqwire

import Mathlib.Data.List.TakeWhile
import Mathlib.Data.Nat.Digits.Defs
import Pqwire.Lib.Bytes

/-!
# Searching and scanning a string

`strstr`, `strtol` and two conversions of `sscanf`, as the C standard describes them: `%n[^x]` and
`%u`. A conversion that matches nothing stores nothing (`none`).

* `strstr_append`: a search does not see across a character that the pattern does not have.
* `scanNumber_append`: a number ends at the first character that is not part of it.
* `scanNumber_text`, `scanNumber_some`: exactly a text with a number in front is read as one.
* `scanUnsigned_decimal`: the digits of a number are read as the number.
-/

namespace CText

open ByteMem

/-- The string from the first occurrence of `pat` on. -/
def strstr (pat : Bytes) : Bytes → Option Bytes
  | [] => if pat = [] then some [] else none
  | b :: s => if pat <+: b :: s then some (b :: s) else strstr pat s

/-- `%n[^x]`: the characters up to the first `x`, at most `n`. -/
def scanUntil (x : UInt8) (n : ℕ) (s : Bytes) : Option Bytes :=
  let l := (s.takeWhile (· ≠ x)).take n
  if l = [] then none else some l

def isSpace (b : UInt8) : Bool := b = 32 ∨ (9 ≤ b ∧ b ≤ 13)

def isDigit (b : UInt8) : Bool := 48 ≤ b ∧ b ≤ 57

/-- The number that a sequence of digits stands for. -/
def digitsValue (l : Bytes) : ℕ := l.foldl (fun acc b => acc * 10 + (b.toNat - 48)) 0

/-- The digits at the front. -/
def scanDigits (s : Bytes) : Option ℕ :=
  let l := s.takeWhile isDigit
  if l = [] then none else some (digitsValue l)

/-- What `strtol` and `strtoul` take for a number in base 10: white space, a sign, digits. Whether the
sign is a minus, and the number. -/
def scanNumber (s : Bytes) : Option (Bool × ℕ) :=
  match s.dropWhile isSpace with
  | [] => none
  | b :: rest =>
    if b = 45 then (scanDigits rest).map fun n => (true, n)
    else if b = 43 then (scanDigits rest).map fun n => (false, n)
    else (scanDigits (b :: rest)).map fun n => (false, n)

/-- The result of `strtol` with a `long` of 64 bits: beyond its range the largest or the smallest one. -/
def strtol (minus : Bool) (n : ℕ) : ℤ := max (-2 ^ 63) (min (2 ^ 63 - 1) (if minus then -n else n))

/-- The result of `strtoul` with a `long` of 64 bits: the number, negated behind a minus; beyond the
range the largest one. -/
def strtoul (minus : Bool) (n : ℕ) : ℕ :=
  if 2 ^ 64 ≤ n then 2 ^ 64 - 1 else if minus then (2 ^ 64 - n) % 2 ^ 64 else n

/-- `%u`: what `strtoul` gives, in the 32 bits of an `unsigned int`. -/
def scanUnsigned (s : Bytes) : Option UInt32 := (scanNumber s).map fun r => UInt32.ofNat (strtoul r.1 r.2)

/-- A text with a number in front: white space, a sign, digits, and then no digit. -/
structure Numeral where
  pad : Bytes
  sign : Option Bool
  digits : Bytes
  tail : Bytes
  padSpace : ∀ b ∈ pad, isSpace b = true
  someDigit : digits ≠ []
  digitsOk : ∀ b ∈ digits, isDigit b = true
  tailOk : ∀ b ∈ tail.head?, isDigit b = false

namespace Numeral

variable (x : Numeral)

def signText : Bytes :=
  match x.sign with
  | none => []
  | some true => [45]
  | some false => [43]

def text : Bytes := x.pad ++ (x.signText ++ (x.digits ++ x.tail))

/-- The number in front. -/
def value : ℤ := if x.sign = some true then -digitsValue x.digits else digitsValue x.digits

end Numeral

/-- A number in decimal, without leading zeros. -/
def decimal (n : ℕ) : Bytes := (Nat.digits 10 n).reverse.map fun d => UInt8.ofNat (48 + d)

/-! ## Searching -/

variable {pat : Bytes} {sep : UInt8}

/-- A pattern without the separator is not found across it. -/
theorem isPrefix_append_sep (h : sep ∉ pat) (a b : Bytes) : pat <+: a ++ sep :: b ↔ pat <+: a := by
  refine ⟨fun hp => ?_, fun hp => hp.trans (List.prefix_append _ _)⟩
  rcases Nat.lt_or_ge a.length pat.length with hlt | hge
  · -- a longer pattern would have the separator in it
    have hfront : a ++ [sep] <+: a ++ sep :: b := ⟨b, by rw [List.append_assoc]; rfl⟩
    have hsep : a ++ [sep] <+: pat := List.prefix_of_prefix_length_le hfront hp (by simpa using hlt)
    exact absurd (hsep.subset (by simp)) h
  · exact List.prefix_of_prefix_length_le hp (List.prefix_append _ _) hge

/-- A character that the pattern does not start with is passed over. -/
theorem strstr_cons_ne {x y : UInt8} {p : Bytes} (h : x ≠ y) (s : Bytes) : strstr (x :: p) (y :: s) = strstr (x :: p) s := by
  have hno : ¬x :: p <+: y :: s := by
    intro hp
    exact h (List.cons_prefix_cons.1 hp).1
  rw [strstr, if_neg hno]

theorem strstr_of_isPrefix {s : Bytes} (h : pat <+: s) : strstr pat s = some s := by
  cases s with
  | nil => rw [strstr, if_pos (List.prefix_nil.1 h)]
  | cons b s => rw [strstr, if_pos h]

/-- What is found ends the string. -/
theorem strstr_suffix {s t : Bytes} (h : strstr pat s = some t) : t <:+ s := by
  induction s with
  | nil =>
    rw [strstr] at h
    split at h
    · cases h
      exact List.suffix_rfl
    · cases h
  | cons b s ih =>
    rw [strstr] at h
    split at h
    · cases h
      exact List.suffix_rfl
    · exact (ih h).trans (List.suffix_cons _ _)

/-- What is found starts with the pattern. -/
theorem strstr_isPrefix {s t : Bytes} (h : strstr pat s = some t) : pat <+: t := by
  induction s with
  | nil =>
    rw [strstr] at h
    split at h
    · rename_i hnil
      rw [hnil]
      exact List.nil_prefix
    · cases h
  | cons b s ih =>
    rw [strstr] at h
    split at h
    · cases h
      assumption
    · exact ih h

/-- **A search in front of a separator, then behind it.** -/
theorem strstr_append (hne : pat ≠ []) (h : sep ∉ pat) (a b : Bytes) :
    strstr pat (a ++ sep :: b) = ((strstr pat a).map (· ++ sep :: b)).or (strstr pat b) := by
  induction a with
  | nil =>
    obtain ⟨x, p, rfl⟩ := List.exists_cons_of_ne_nil hne
    have hx : x ≠ sep := by
      intro he
      exact h (he ▸ List.mem_cons_self)
    rw [List.nil_append, strstr_cons_ne hx, strstr, if_neg hne]
    rfl
  | cons c a ih =>
    have hiff : pat <+: c :: (a ++ sep :: b) ↔ pat <+: c :: a := isPrefix_append_sep h (c :: a) b
    rw [List.cons_append, strstr, strstr]
    by_cases hp : pat <+: c :: a
    · rw [if_pos (hiff.2 hp), if_pos hp]
      rfl
    · rw [if_neg (fun hc => hp (hiff.1 hc)), if_neg hp, ih]

/-! ## Scanning -/

theorem takeWhile_append_stop {p : UInt8 → Bool} (h : p sep = false) (t r : Bytes) :
    (t ++ sep :: r).takeWhile p = t.takeWhile p := by
  induction t with
  | nil => rw [List.nil_append, List.takeWhile_cons, h]; rfl
  | cons b t ih => rw [List.cons_append, List.takeWhile_cons, List.takeWhile_cons, ih]

theorem scanUntil_append {n : ℕ} (t r : Bytes) : scanUntil sep n (t ++ sep :: r) = scanUntil sep n t := by
  unfold scanUntil
  rw [takeWhile_append_stop (by simp)]

/-- A string without the stop character is read whole, if the width allows it. -/
theorem scanUntil_self {n : ℕ} {t : Bytes} (h : sep ∉ t) (hn : t.length ≤ n) :
    scanUntil sep n t = if t = [] then none else some t := by
  have hall : t.takeWhile (· ≠ sep) = t := by
    rw [List.takeWhile_eq_self_iff]
    intro b hb
    simp only [ne_eq, decide_not, Bool.not_eq_eq_eq_not, Bool.not_true, decide_eq_false_iff_not]
    intro he
    exact h (he ▸ hb)
  unfold scanUntil
  rw [hall, List.take_of_length_le hn]

theorem scanDigits_append (h : isDigit sep = false) (t r : Bytes) : scanDigits (t ++ sep :: r) = scanDigits t := by
  unfold scanDigits
  rw [takeWhile_append_stop h]

/-- **A number ends in front of a character that is not part of one.** -/
theorem scanNumber_append (hs : isSpace sep = false) (hd : isDigit sep = false) (hm : sep ≠ 45) (hp : sep ≠ 43)
    (t r : Bytes) : scanNumber (t ++ sep :: r) = scanNumber t := by
  unfold scanNumber
  rw [List.dropWhile_append]
  cases hl : t.dropWhile isSpace with
  | nil =>
    have hstop : scanDigits (sep :: r) = none := by
      have := scanDigits_append hd [] r
      rwa [List.nil_append] at this
    simp only [List.isEmpty_nil, if_true, List.dropWhile_cons, hs, Bool.false_eq_true, if_false, if_neg hm, if_neg hp,
      hstop]
    rfl
  | cons b rest =>
    simp only [List.isEmpty_cons, Bool.false_eq_true, if_false, List.cons_append]
    rw [scanDigits_append hd, ← List.cons_append, scanDigits_append hd]

/-- A number is read up to the separator. -/
theorem scanUnsigned_append (hs : isSpace sep = false) (hd : isDigit sep = false) (hm : sep ≠ 45) (hp : sep ≠ 43)
    (t r : Bytes) : scanUnsigned (t ++ sep :: r) = scanUnsigned t := by
  unfold scanUnsigned
  rw [scanNumber_append hs hd hm hp]

theorem isDigit_range {b : UInt8} (h : isDigit b = true) : 48 ≤ b.toNat ∧ b.toNat ≤ 57 := by
  simpa [isDigit, UInt8.le_iff_toNat_le] using h

/-- A digit is no sign and no white space. -/
theorem isDigit_plain {b : UInt8} (h : isDigit b = true) : isSpace b = false ∧ b ≠ 45 ∧ b ≠ 43 := by
  have hrange := isDigit_range h
  refine ⟨?_, ?_, ?_⟩
  · simp only [isSpace, UInt8.le_iff_toNat_le, ← UInt8.toNat_inj, decide_eq_false_iff_not]
    simp
    omega
  · rintro rfl
    simp at hrange
  · rintro rfl
    simp at hrange

/-- The digits in front of a text that goes on with no digit. -/
theorem scanDigits_digits {ds tail : Bytes} (hne : ds ≠ []) (hd : ∀ b ∈ ds, isDigit b = true)
    (ht : ∀ b ∈ tail.head?, isDigit b = false) : scanDigits (ds ++ tail) = some (digitsValue ds) := by
  have htail : tail.takeWhile isDigit = [] := by
    cases tail with
    | nil => rfl
    | cons b rest => rw [List.takeWhile_cons, ht b rfl]; rfl
  have hall : (ds ++ tail).takeWhile isDigit = ds := by
    rw [List.takeWhile_append_of_pos hd, htail, List.append_nil]
  unfold scanDigits
  rw [hall, if_neg hne]

/-- **The number in front of a text is what is read.** -/
theorem scanNumber_text (x : Numeral) : scanNumber x.text = some (decide (x.sign = some true), digitsValue x.digits) := by
  have hscan := scanDigits_digits x.someDigit x.digitsOk x.tailOk
  obtain ⟨d, ds, hds⟩ := List.exists_cons_of_ne_nil x.someDigit
  obtain ⟨hspace, hminus, hplus⟩ := isDigit_plain (x.digitsOk d (by rw [hds]; exact List.mem_cons_self))
  unfold scanNumber Numeral.text
  rw [List.dropWhile_append_of_pos x.padSpace]
  unfold Numeral.signText
  cases hsign : x.sign with
  | none =>
    rw [List.nil_append, hds, List.cons_append, List.dropWhile_cons, hspace, if_neg (by decide)]
    dsimp only
    rw [if_neg hminus, if_neg hplus, ← List.cons_append, ← hds, hscan]
    rfl
  | some minus =>
    cases minus with
    | true =>
      show Option.map _ (scanDigits (x.digits ++ x.tail)) = _
      rw [hscan]
      rfl
    | false =>
      show Option.map _ (scanDigits (x.digits ++ x.tail)) = _
      rw [hscan]
      rfl

theorem scanDigits_some {s : Bytes} {n : ℕ} (h : scanDigits s = some n) : s.takeWhile isDigit ≠ [] := by
  intro hnil
  unfold scanDigits at h
  rw [if_pos hnil] at h
  cases h

/-- **Only such texts are read as a number.** -/
theorem scanNumber_some {s : Bytes} {r : Bool × ℕ} (h : scanNumber s = some r) : ∃ x : Numeral, s = x.text := by
  have hpad : ∀ b ∈ s.takeWhile isSpace, isSpace b = true := fun b hb => List.mem_takeWhile_imp hb
  have hdigits : ∀ t : Bytes, ∀ b ∈ t.takeWhile isDigit, isDigit b = true := fun t b hb => List.mem_takeWhile_imp hb
  have htail : ∀ t : Bytes, ∀ b ∈ (t.dropWhile isDigit).head?, isDigit b = false := fun t b hb =>
    Bool.eq_false_iff.2 (List.head?_dropWhile_not isDigit t |> fun h => by rw [hb] at h; simpa using h)
  have hs : s = s.takeWhile isSpace ++ s.dropWhile isSpace := List.takeWhile_append_dropWhile.symm
  unfold scanNumber at h
  cases hl : s.dropWhile isSpace with
  | nil =>
    rw [hl] at h
    cases h
  | cons b rest =>
    rw [hl] at h hs
    dsimp only at h
    have key : ∀ (sign : Option Bool) (t : Bytes) (f : ℕ → Bool × ℕ), (scanDigits t).map f = some r →
        b :: rest = (match sign with | none => [] | some true => [45] | some false => [43]) ++ t →
        ∃ x : Numeral, s = x.text := by
      intro sign t f ht hcut
      obtain ⟨n, hn, -⟩ := Option.map_eq_some_iff.1 ht
      refine ⟨⟨s.takeWhile isSpace, sign, t.takeWhile isDigit, t.dropWhile isDigit, hpad, scanDigits_some hn,
        hdigits t, htail t⟩, ?_⟩
      unfold Numeral.text Numeral.signText
      dsimp only
      rw [List.takeWhile_append_dropWhile, ← hcut]
      exact hs
    split at h
    · rename_i hm
      exact key (some true) rest _ h (by rw [hm]; rfl)
    · split at h
      · rename_i hp
        exact key (some false) rest _ h (by rw [hp]; rfl)
      · exact key none (b :: rest) _ h rfl

theorem decimal_isDigit {n : ℕ} {b : UInt8} (h : b ∈ decimal n) : isDigit b = true := by
  obtain ⟨d, hd, rfl⟩ := List.mem_map.1 h
  have hlt := Nat.digits_lt_base (by omega) (List.mem_reverse.1 hd)
  interval_cases d <;> decide

theorem digitsValue_decimal (n : ℕ) : digitsValue (decimal n) = n := by
  have hd : ∀ d ∈ Nat.digits 10 n, (UInt8.ofNat (48 + d)).toNat - 48 = d := by
    intro d hd
    have hlt := Nat.digits_lt_base (by omega) hd
    rw [UInt8.toNat_ofNat']
    omega
  unfold digitsValue decimal
  rw [List.foldl_map, List.foldl_reverse]
  conv_rhs => rw [← Nat.ofDigits_digits 10 n]
  generalize Nat.digits 10 n = l at hd
  induction l with
  | nil => rfl
  | cons d l ih =>
    rw [List.foldr_cons, ih fun e he => hd e (List.mem_cons_of_mem _ he), hd d List.mem_cons_self, Nat.ofDigits_cons]
    show Nat.ofDigits 10 l * 10 + d = d + 10 * Nat.ofDigits 10 l
    omega

/-- **The decimal digits of a number are read as the number.** -/
theorem scanUnsigned_decimal {n : ℕ} (h : 0 < n) (hlt : n < 2 ^ 64) : scanUnsigned (decimal n) = some (UInt32.ofNat n) := by
  have hne : decimal n ≠ [] := by
    unfold decimal
    rw [ne_eq, List.map_eq_nil_iff, List.reverse_eq_nil_iff, Nat.digits_eq_nil_iff_eq_zero]
    omega
  have hread := scanNumber_text ⟨[], none, decimal n, [], by simp, hne, fun b hb => decimal_isDigit hb, by simp⟩
  have htext : (⟨[], none, decimal n, [], by simp, hne, fun b hb => decimal_isDigit hb, by simp⟩ : Numeral).text =
      decimal n := List.append_nil _
  rw [htext] at hread
  unfold scanUnsigned
  rw [hread, digitsValue_decimal]
  show some (UInt32.ofNat (strtoul false n)) = _
  unfold strtoul
  rw [if_neg (by omega)]
  rfl

/-- `18446744073709551617`, which is `2 ^ 64 + 1`. -/
example : scanUnsigned [49, 56, 52, 52, 54, 55, 52, 52, 48, 55, 51, 55, 48, 57, 53, 53, 49, 54, 49, 55] =
    some 4294967295 := by decide

/-- **A number in the range of `long` is what `strtol` gives.** -/
theorem strtol_value {x : Numeral} (hlow : -2 ^ 63 ≤ x.value) (hhigh : x.value < 2 ^ 63) :
    strtol (decide (x.sign = some true)) (digitsValue x.digits) = x.value := by
  have hv : (if decide (x.sign = some true) then -(digitsValue x.digits : ℤ) else digitsValue x.digits) = x.value := by
    unfold Numeral.value
    simp only [decide_eq_true_eq]
  unfold strtol
  rw [hv]
  omega

end CText

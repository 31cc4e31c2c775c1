import Mathlib.Data.List.GetD
import Mathlib.Data.List.TakeWhile
import Pqwire.Lib.Bytes

/-!
# Programs with their memory accesses

`Traced` is a computation together with the accesses that it makes, in order. The accesses
of a C function that scans a read-only buffer and fills arrays are reads of a byte of the
buffer and accesses to an element of an array; nothing stops them at a bound, so that a
program that leaves its buffer has an access that says so.

`Yields p m v` says that `m` returns `v` and makes only accesses that meet `p`; it follows the
structure of the program (`Yields.pure`, `Yields.bind`).

* `scan_yields`: the bounded scan for a terminator.
* `strncpy_yields`, `strcmp_yields`, `memcpy_yields`: the string functions of C, on a
  terminated string.
-/

/-- A computation and the list of the accesses that it makes. -/
structure Traced (ι α : Type) where
  val : α
  log : List ι

namespace Traced

variable {ι α β : Type} {p : ι → Prop}

instance : Monad (Traced ι) where
  pure a := ⟨a, []⟩
  bind m f := ⟨(f m.val).val, m.log ++ (f m.val).log⟩

theorem bind_assoc {γ : Type} (m : Traced ι α) (f : α → Traced ι β) (g : β → Traced ι γ) :
    m >>= f >>= g = m >>= fun a => f a >>= g := by
  have hlog : (m.log ++ (f m.val).log) ++ (g (f m.val).val).log = m.log ++ ((f m.val).log ++ (g (f m.val).val).log) :=
    List.append_assoc _ _ _
  exact congrArg (Traced.mk (g (f m.val).val).val) hlog

instance : LawfulMonad (Traced ι) :=
  .mk' _ (fun m => congrArg (Traced.mk m.val) (List.append_nil m.log)) (fun _ _ => rfl) bind_assoc

/-- `m` returns `v`, and all its accesses meet `p`. -/
def Yields (p : ι → Prop) (m : Traced ι α) (v : α) : Prop := m.val = v ∧ ∀ a ∈ m.log, p a

theorem Yields.pure (v : α) : Yields p (Pure.pure v) v := ⟨rfl, fun _ h => absurd h List.not_mem_nil⟩

/-- The rule for sequencing: both parts keep to `p`. -/
theorem Yields.bind {m : Traced ι α} {f : α → Traced ι β} {v : α} {w : β} (hm : Yields p m v)
    (hf : Yields p (f v) w) : Yields p (m >>= f) w := by
  obtain ⟨rfl, hlog⟩ := hm
  refine ⟨hf.1, ?_⟩
  intro a ha
  rcases List.mem_append.1 ha with h | h
  · exact hlog a h
  · exact hf.2 a h

/-- The rule for a computation that ends by returning a function of what it got. -/
theorem Yields.map {m : Traced ι α} {f : α → β} {v : α} (hm : Yields p m v) :
    Yields p (m >>= fun x => Pure.pure (f x)) (f v) := hm.bind (.pure _)

end Traced

namespace CMem

open ByteMem Traced

/-- An access of a program that reads one buffer and has the arrays `A`. -/
inductive Access (A : Type) where
  /-- byte `i` of the buffer is read -/
  | read (i : ℕ)
  /-- element `i` of the array is read or written -/
  | elem (a : A) (i : ℕ)
  deriving DecidableEq

/-- The access stays inside a buffer of `len` bytes and inside its array. -/
def Access.InBounds {A : Type} (size : A → ℕ) (len : ℕ) : Access A → Prop
  | .read i => i < len
  | .elem a i => i < size a

instance {A : Type} (size : A → ℕ) (len : ℕ) (x : Access A) : Decidable (x.InBounds size len) := by
  cases x <;> exact inferInstanceAs (Decidable (_ < _))

section

variable {A : Type}

/-- `buf[i]`. -/
def load (buf : Bytes) (i : ℕ) : Traced (Access A) UInt8 := ⟨buf.getD i 0, [.read i]⟩

/-- An access to `a[i]`. -/
def touch (a : A) (i : ℕ) : Traced (Access A) Unit := ⟨(), [.elem a i]⟩

/-- A 16-bit big-endian load. -/
def load16Be (buf : Bytes) (off : ℕ) : Traced (Access A) ℕ := do
  let b₀ ← load buf off
  let b₁ ← load buf (off + 1)
  return 2 ^ 8 * b₀.toNat + b₁.toNat

/-- A 32-bit big-endian load. -/
def load32Be (buf : Bytes) (off : ℕ) : Traced (Access A) ℕ := do
  let b₀ ← load buf off
  let b₁ ← load buf (off + 1)
  let b₂ ← load buf (off + 2)
  let b₃ ← load buf (off + 3)
  return 2 ^ 24 * b₀.toNat + 2 ^ 16 * b₁.toNat + 2 ^ 8 * b₂.toNat + b₃.toNat

/-- `for (; i < avail; i++) if (p[i] == 0) return i + 1`, with `n` rounds to go. -/
def scan (buf : Bytes) (p : ℕ) : ℕ → ℕ → Traced (Access A) (Option ℕ)
  | _, 0 => return none
  | i, n + 1 => do
    if (← load buf (p + i)) = 0 then return some (i + 1) else scan buf p (i + 1) n

/-- Zeros into `a[k]`, ..., `a[k + n - 1]`. -/
def fill (a : A) : ℕ → ℕ → Traced (Access A) Bytes
  | _, 0 => return []
  | k, n + 1 => do
    touch a k
    return 0 :: (← fill a (k + 1) n)

/-- `strncpy (a + k, buf + p, n)` with what it writes: the rest is zero behind the terminator. -/
def strncpy (buf : Bytes) (a : A) : ℕ → ℕ → ℕ → Traced (Access A) Bytes
  | _, _, 0 => return []
  | p, k, n + 1 => do
    let b ← load buf p
    touch a k
    if b = 0 then return 0 :: (← fill a (k + 1) n) else return b :: (← strncpy buf a (p + 1) (k + 1) n)

/-- `strcmp (buf + p, s) == 0` for a constant `s`. -/
def strcmp (buf : Bytes) : ℕ → Bytes → Traced (Access A) Bool
  | p, [] => do return (← load buf p) = 0
  | p, x :: s => do
    if (← load buf p) = x then strcmp buf (p + 1) s else return false

/-- `memcpy (a + k, buf + p, n)` with what it writes. -/
def memcpy (buf : Bytes) (a : A) : ℕ → ℕ → ℕ → Traced (Access A) Bytes
  | _, _, 0 => return []
  | k, p, n + 1 => do
    let b ← load buf p
    touch a k
    return b :: (← memcpy buf a (k + 1) (p + 1) n)

end

/-- The C string that an array with these bytes holds. -/
def strOf (buf : Bytes) : CStr := ⟨buf.takeWhile (· ≠ 0), fun h => by simpa using List.mem_takeWhile_imp h⟩

/-- The string with the characters `l` and its terminator lie at offset `p`. -/
def StrAt (buf : Bytes) (p : ℕ) (l : Bytes) : Prop := ∃ rest, buf.drop p = l ++ 0 :: rest

/-! ## Strings in a buffer -/

section

variable {buf l : Bytes} {p : ℕ}

theorem drop_cons {b : UInt8} {rest : Bytes} (h : buf.drop p = b :: rest) :
    p < buf.length ∧ buf.getD p 0 = b ∧ buf.drop (p + 1) = rest := by
  have hlt : p < buf.length := by
    have hl := congrArg List.length h
    rw [List.length_drop, List.length_cons] at hl
    omega
  rw [List.drop_eq_getElem_cons hlt] at h
  obtain ⟨h1, h2⟩ := List.cons.inj h
  refine ⟨hlt, ?_, h2⟩
  rw [List.getD_eq_getElem _ _ hlt, h1]

/-- The end of a string is a zero byte inside the buffer. -/
theorem StrAt.nil (h : StrAt buf p []) : p < buf.length ∧ buf.getD p 0 = 0 := by
  obtain ⟨rest, h⟩ := h
  obtain ⟨h1, h2, -⟩ := drop_cons h
  exact ⟨h1, h2⟩

/-- The first character, and the string behind it. -/
theorem StrAt.cons {b : UInt8} (h : StrAt buf p (b :: l)) :
    p < buf.length ∧ buf.getD p 0 = b ∧ StrAt buf (p + 1) l := by
  obtain ⟨rest, h⟩ := h
  obtain ⟨h1, h2, h3⟩ := drop_cons h
  exact ⟨h1, h2, rest, h3⟩

/-- A string and its terminator lie inside the buffer. -/
theorem StrAt.length_lt (h : StrAt buf p l) : p + l.length < buf.length := by
  obtain ⟨rest, h⟩ := h
  have hl := congrArg List.length h
  rw [List.length_drop, List.length_append, List.length_cons] at hl
  omega

/-- The first characters of a string. -/
theorem StrAt.slice (h : StrAt buf p l) (n : ℕ) : slice buf p (min l.length n) = l.take n := by
  obtain ⟨rest, h⟩ := h
  unfold ByteMem.slice
  rw [h, List.take_append_of_le_length (min_le_left _ _), min_comm, ← List.take_take, List.take_length]

/-- What a terminated list of characters denotes. -/
theorem strOf_terminated (h0 : (0 : UInt8) ∉ l) (rest : Bytes) : strOf (l ++ 0 :: rest) = ⟨l, h0⟩ := by
  ext1
  show (l ++ 0 :: rest).takeWhile (· ≠ 0) = l
  rw [List.takeWhile_append_of_pos]
  · simp
  · intro b hb
    exact decide_eq_true fun he => h0 (he ▸ hb)

/-- What a scan has found is a string. -/
theorem strAt_of_readCstr {s : CStr} {n : ℕ} (h : readCstr (buf.drop p) = some (s, n)) : StrAt buf p s.bytes := by
  obtain ⟨-, h2⟩ := readCstr_some h
  refine ⟨(buf.drop p).drop n, ?_⟩
  nth_rewrite 1 [h2]
  rw [CStr.toBytes, List.append_assoc]
  rfl

end

/-! ## What the functions return and touch -/

section

variable {A : Type} {size : A → ℕ} {buf : Bytes}

/-- Reading one byte of the buffer. -/
theorem load_yields {i : ℕ} (h : i < buf.length) :
    Yields (Access.InBounds size buf.length) (load buf i) (buf.getD i 0) := by
  refine ⟨rfl, ?_⟩
  intro a ha
  rw [List.mem_singleton.1 ha]
  exact h

/-- One access to an element that the array has. -/
theorem touch_yields {a : A} {len i : ℕ} (h : i < size a) : Yields (Access.InBounds size len) (touch a i) () := by
  refine ⟨rfl, ?_⟩
  intro x hx
  rw [List.mem_singleton.1 hx]
  exact h

theorem load16Be_yields {off : ℕ} (h : off + 2 ≤ buf.length) :
    Yields (Access.InBounds size buf.length) (load16Be buf off) (rd16Be buf off) := by
  refine (load_yields (by omega)).bind ?_
  exact (load_yields (by omega)).map

theorem load32Be_yields {off : ℕ} (h : off + 4 ≤ buf.length) :
    Yields (Access.InBounds size buf.length) (load32Be buf off) (rd32Be buf off) := by
  refine (load_yields (by omega)).bind ?_
  refine (load_yields (by omega)).bind ?_
  refine (load_yields (by omega)).bind ?_
  exact (load_yields (by omega)).map

/-- The scan to the end of the buffer. -/
theorem scan_yields (p i n : ℕ) (h : p + i + n = buf.length) :
    Yields (Access.InBounds size buf.length) (scan buf p i n) ((readCstr (buf.drop (p + i))).map fun r => i + r.2) := by
  induction n generalizing i with
  | zero =>
    rw [List.drop_eq_nil_of_le (by omega)]
    exact .pure none
  | succ n ih =>
    have hlt : p + i < buf.length := by omega
    refine (load_yields hlt).bind ?_
    have ih := ih (i + 1) (by omega)
    rw [List.drop_eq_getElem_cons hlt, List.getD_eq_getElem _ _ hlt]
    unfold readCstr
    by_cases h0 : buf[p + i] = 0
    · rw [if_pos h0, dif_pos h0]
      exact .pure _
    · rw [if_neg h0, dif_neg h0]
      rw [← Nat.add_assoc] at ih
      cases hr : readCstr (buf.drop (p + i + 1)) with
      | none =>
        rw [hr] at ih
        exact ih
      | some r =>
        obtain ⟨s, k⟩ := r
        rw [hr] at ih
        simp only [Option.map_some] at ih ⊢
        rwa [show i + (k + 1) = i + 1 + k by omega]

/-- Padding an array from element `k` on. -/
theorem fill_yields {a : A} {len : ℕ} (k n : ℕ) (h : k + n ≤ size a) :
    Yields (Access.InBounds size len) (fill a k n) (List.replicate n 0) := by
  induction n generalizing k with
  | zero => exact .pure []
  | succ n ih =>
    refine (touch_yields (by omega)).bind ?_
    exact (ih (k + 1) (by omega)).map

/-- `strncpy` reads the string up to its terminator and writes `n` elements. -/
theorem strncpy_yields {a : A} {l : Bytes} (h0 : (0 : UInt8) ∉ l) {p : ℕ} (hl : StrAt buf p l) (k n : ℕ)
    (h : k + n ≤ size a) : Yields (Access.InBounds size buf.length) (strncpy buf a p k n)
      (l.take n ++ List.replicate (n - l.length) 0) := by
  induction n generalizing l p k with
  | zero =>
    rw [List.take_zero, Nat.zero_sub]
    exact .pure []
  | succ n ih =>
    cases l with
    | nil =>
      obtain ⟨hlt, hb⟩ := hl.nil
      refine (load_yields hlt).bind ((touch_yields (by omega)).bind ?_)
      rw [if_pos hb]
      exact (fill_yields (k + 1) n (by omega)).map
    | cons b l =>
      obtain ⟨hlt, hb, htl⟩ := hl.cons
      refine (load_yields hlt).bind ((touch_yields (by omega)).bind ?_)
      have hne : b ≠ 0 := fun he => h0 (he ▸ List.mem_cons_self)
      rw [hb, if_neg hne, List.take_succ_cons, List.length_cons, Nat.add_sub_add_right, List.cons_append]
      exact (ih (fun hm => h0 (List.mem_cons_of_mem _ hm)) htl (k + 1) (by omega)).map

/-- `strcmp` with a literal reads no further than the terminator. -/
theorem strcmp_yields {l s : Bytes} (h0 : (0 : UInt8) ∉ l) (hs : (0 : UInt8) ∉ s) {p : ℕ} (hl : StrAt buf p l) :
    Yields (Access.InBounds size buf.length) (strcmp buf p s) (decide (l = s)) := by
  induction s generalizing l p with
  | nil =>
    cases l with
    | nil =>
      obtain ⟨hlt, hb⟩ := hl.nil
      have h := (show Yields (Access.InBounds size buf.length) (load buf p) _ from load_yields hlt).map (f := fun b => decide (b = 0))
      rwa [hb] at h
    | cons b l =>
      obtain ⟨hlt, hb, -⟩ := hl.cons
      have hne : b ≠ 0 := fun he => h0 (he ▸ List.mem_cons_self)
      have h := (show Yields (Access.InBounds size buf.length) (load buf p) _ from load_yields hlt).map (f := fun b => decide (b = 0))
      rwa [hb, decide_eq_false hne] at h
  | cons x s ih =>
    have hx : x ≠ 0 := fun he => hs (he ▸ List.mem_cons_self)
    cases l with
    | nil =>
      obtain ⟨hlt, hb⟩ := hl.nil
      refine (load_yields hlt).bind ?_
      rw [hb, if_neg hx.symm]
      exact .pure false
    | cons b l =>
      obtain ⟨hlt, hb, htl⟩ := hl.cons
      refine (load_yields hlt).bind ?_
      rw [hb]
      by_cases hbx : b = x
      · rw [if_pos hbx, hbx]
        simp only [List.cons.injEq, true_and]
        exact ih (fun hm => h0 (List.mem_cons_of_mem _ hm)) (fun hm => hs (List.mem_cons_of_mem _ hm)) htl
      · rw [if_neg hbx]
        simp only [List.cons.injEq, hbx, false_and, decide_false]
        exact .pure false

/-- `memcpy` of `n` bytes from offset `p` to element `k`. -/
theorem memcpy_yields {a : A} (k p n : ℕ) (hp : p + n ≤ buf.length) (h : k + n ≤ size a) :
    Yields (Access.InBounds size buf.length) (memcpy buf a k p n) (slice buf p n) := by
  induction n generalizing k p with
  | zero => exact .pure []
  | succ n ih =>
    have hlt : p < buf.length := by omega
    refine (load_yields hlt).bind ((touch_yields (by omega)).bind ?_)
    unfold slice
    rw [List.drop_eq_getElem_cons hlt, List.take_succ_cons, List.getD_eq_getElem _ _ hlt]
    exact (ih (k + 1) (p + 1) (by omega) (by omega)).map

end

end CMem

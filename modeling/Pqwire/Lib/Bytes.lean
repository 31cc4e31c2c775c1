import Mathlib.Tactic

/-!
# Byte memory, big-endian integers and C strings

The byte-level vocabulary of a wire format. Memory is a list of bytes: the part of
a buffer that has been written so far. `blit` is `memcpy` into it, `shiftDown` is the
`memmove` of a tail to its front, `slice` is what a pointer and a length denote.
Big-endian integers are read as naturals (`rd16Be`, `rd32Be`) and written modulo
their width (`wr16Be`, `wr32Be`), as C's unsigned stores do. A C string is a byte
list with no zero byte (`CStr`), and `readCstr` is the bounded scan for its
terminator.
-/

namespace ByteMem

abbrev Bytes := List UInt8

/-! ## Memory -/

/-- The `n` bytes at offset `off`. -/
def slice (p : Bytes) (off n : ℕ) : Bytes := (p.drop off).take n

/-- `memcpy (mem + at, src)`: the bytes from `off` on are overwritten by `src`. -/
def blit (mem : Bytes) (off : ℕ) (src : Bytes) : Bytes :=
  mem.take off ++ src ++ mem.drop (off + src.length)

/-- `memmove (mem, mem + n, k)`: `k` bytes move down by `n`; the bytes behind them stay. -/
def shiftDown (mem : Bytes) (n k : ℕ) : Bytes := slice mem n k ++ mem.drop k

/-- A slice that lies inside is as long as it says. -/
theorem slice_length {p : Bytes} {off n : ℕ} (h : off + n ≤ p.length) : (slice p off n).length = n := by
  simp only [slice, List.length_take, List.length_drop]; omega

theorem slice_getElem? (p : Bytes) (off n i : ℕ) :
    (slice p off n)[i]? = if i < n then p[off + i]? else none := by
  simp only [slice, List.getElem?_take, List.getElem?_drop]

/-- What stands behind does not matter to a slice. -/
theorem slice_append_left {p q : Bytes} {off n : ℕ} (h : off + n ≤ p.length) :
    slice (p ++ q) off n = slice p off n := by
  simp only [slice, List.drop_append, List.take_append, List.length_drop]
  rw [Nat.sub_eq_zero_of_le (by omega : n ≤ p.length - off), List.take_zero, List.append_nil]

/-- A part is cut out of a concatenation again. -/
theorem slice_append_mid (p q r : Bytes) : slice (p ++ q ++ r) p.length q.length = q := by
  simp [slice]

theorem slice_slice (p : Bytes) {a n b m : ℕ} (h : b + m ≤ n) :
    slice (slice p a n) b m = slice p (a + b) m := by
  simp only [slice, List.drop_take, List.drop_drop, List.take_take]
  rw [min_eq_left (by omega)]

/-- A store past the end makes the memory longer. -/
theorem blit_length {mem : Bytes} {off : ℕ} (h : off ≤ mem.length) (src : Bytes) :
    (blit mem off src).length = max mem.length (off + src.length) := by
  simp only [blit, List.length_append, List.length_take, List.length_drop]; omega

/-- Behind a store, the front is what was there and what was stored. -/
theorem blit_take {mem : Bytes} {off : ℕ} (h : off ≤ mem.length) (src : Bytes) :
    (blit mem off src).take (off + src.length) = mem.take off ++ src := by
  have hl : (mem.take off ++ src).length = off + src.length := by
    simp only [List.length_append, List.length_take]; omega
  unfold blit
  rw [← hl, List.take_left]

/-- A store does not touch what lies below it. -/
theorem slice_blit_below {mem src : Bytes} {off a n : ℕ} (h : a + n ≤ off) (ho : off ≤ mem.length) :
    slice (blit mem off src) a n = slice mem a n := by
  have hl : a + n ≤ (mem.take off).length := by simp only [List.length_take]; omega
  unfold blit
  rw [List.append_assoc, slice_append_left hl]
  conv_rhs => rw [← List.take_append_drop off mem]
  rw [slice_append_left hl]

/-- A store is read back. -/
theorem slice_blit_self {mem src : Bytes} {off : ℕ} (h : off ≤ mem.length) :
    slice (blit mem off src) off src.length = src := by
  have := slice_append_mid (mem.take off) src (mem.drop (off + src.length))
  rwa [List.length_take, min_eq_left h] at this

/-- The front of a memory behind `memmove` is what was moved. -/
theorem shiftDown_take {mem : Bytes} {n k : ℕ} (h : n + k ≤ mem.length) :
    (shiftDown mem n k).take k = slice mem n k := by
  unfold shiftDown
  nth_rewrite 1 [← slice_length h]
  rw [List.take_left]

/-- `memmove` leaves the size alone. -/
theorem shiftDown_length {mem : Bytes} {n k : ℕ} (h : n + k ≤ mem.length) :
    (shiftDown mem n k).length = mem.length := by
  unfold shiftDown
  rw [List.length_append, slice_length h, List.length_drop]; omega

/-- The byte at each place behind `memmove`. -/
theorem shiftDown_getElem? {mem : Bytes} {n k : ℕ} (h : n + k ≤ mem.length) (i : ℕ) :
    (shiftDown mem n k)[i]? = if i < k then mem[n + i]? else mem[i]? := by
  unfold shiftDown
  rw [List.getElem?_append, slice_length h, slice_getElem?]
  split
  · rfl
  · rw [List.getElem?_drop]; congr 1; omega

/-! ## Growing memory -/

/-- A longer memory has the same slices. -/
theorem slice_mono {p q : Bytes} (h : p <+: q) {off n : ℕ} (hl : off + n ≤ p.length) :
    slice q off n = slice p off n := by
  obtain ⟨t, rfl⟩ := h
  exact slice_append_left hl

/-- A store into a longer memory. -/
theorem blit_mono {p q : Bytes} (h : p <+: q) {off : ℕ} (ho : off ≤ p.length) (src : Bytes) :
    blit p off src <+: blit q off src := by
  obtain ⟨t, rfl⟩ := h
  unfold blit
  rw [List.take_append_of_le_length ho, List.drop_append]
  exact ⟨t.drop (off + src.length - p.length), by simp only [List.append_assoc]⟩

/-- `memmove` in a longer memory. -/
theorem shiftDown_mono {p q : Bytes} (h : p <+: q) {n k : ℕ} (hl : n + k ≤ p.length) :
    shiftDown p n k <+: shiftDown q n k := by
  obtain ⟨t, rfl⟩ := h
  unfold shiftDown
  rw [slice_append_left hl, List.drop_append_of_le_length (by omega), ← List.append_assoc]
  exact List.prefix_append _ _

theorem getD_mono {p q : Bytes} (h : p <+: q) {i : ℕ} (hi : i < p.length) : q.getD i 0 = p.getD i 0 := by
  obtain ⟨t, rfl⟩ := h
  rw [List.getD_eq_getElem?_getD, List.getD_eq_getElem?_getD, List.getElem?_append_left hi]

/-! ## Big-endian integers -/

/-- The byte at index `i`, as a number. -/
def byteAt (p : Bytes) (i : ℕ) : ℕ := (p.getD i 0).toNat

def rd16Be (p : Bytes) (off : ℕ) : ℕ := 2 ^ 8 * byteAt p off + byteAt p (off + 1)

def rd32Be (p : Bytes) (off : ℕ) : ℕ :=
  2 ^ 24 * byteAt p off + 2 ^ 16 * byteAt p (off + 1) + 2 ^ 8 * byteAt p (off + 2) + byteAt p (off + 3)

def wr16Be (v : ℕ) : Bytes := [UInt8.ofNat (v / 2 ^ 8), UInt8.ofNat v]

def wr32Be (v : ℕ) : Bytes :=
  [UInt8.ofNat (v / 2 ^ 24), UInt8.ofNat (v / 2 ^ 16), UInt8.ofNat (v / 2 ^ 8), UInt8.ofNat v]

@[simp] theorem wr16Be_length (v : ℕ) : (wr16Be v).length = 2 := rfl

@[simp] theorem wr32Be_length (v : ℕ) : (wr32Be v).length = 4 := rfl

theorem byteAt_lt (p : Bytes) (i : ℕ) : byteAt p i < 256 := UInt8.toNat_lt _

theorem rd16Be_lt (p : Bytes) (off : ℕ) : rd16Be p off < 2 ^ 16 := by
  have h0 := byteAt_lt p off
  have h1 := byteAt_lt p (off + 1)
  unfold rd16Be; omega

theorem rd32Be_lt (p : Bytes) (off : ℕ) : rd32Be p off < 2 ^ 32 := by
  have h0 := byteAt_lt p off
  have h1 := byteAt_lt p (off + 1)
  have h2 := byteAt_lt p (off + 2)
  have h3 := byteAt_lt p (off + 3)
  unfold rd32Be; omega

theorem byteAt_drop (p : Bytes) (off i : ℕ) : byteAt (p.drop off) i = byteAt p (off + i) := by
  simp only [byteAt, List.getD_eq_getElem?_getD, List.getElem?_drop]

theorem byteAt_append_left {p : Bytes} (q : Bytes) {i : ℕ} (h : i < p.length) :
    byteAt (p ++ q) i = byteAt p i := by
  simp only [byteAt, List.getD_eq_getElem?_getD, List.getElem?_append_left h]

theorem byteAt_take {p : Bytes} {n i : ℕ} (h : i < n) : byteAt (p.take n) i = byteAt p i := by
  simp only [byteAt, List.getD_eq_getElem?_getD, List.getElem?_take, if_pos h]

theorem byteAt_ofNat_cons (v : ℕ) (p : Bytes) : byteAt (UInt8.ofNat v :: p) 0 = v % 2 ^ 8 := by
  simp [byteAt]

theorem byteAt_cons_succ (b : UInt8) (p : Bytes) (i : ℕ) : byteAt (b :: p) (i + 1) = byteAt p i := by
  simp [byteAt]

theorem rd16Be_drop (p : Bytes) (a off : ℕ) : rd16Be (p.drop a) off = rd16Be p (a + off) := by
  simp only [rd16Be, byteAt_drop, Nat.add_assoc]

theorem rd32Be_drop (p : Bytes) (a off : ℕ) : rd32Be (p.drop a) off = rd32Be p (a + off) := by
  simp only [rd32Be, byteAt_drop, Nat.add_assoc]

/-- What stands behind does not matter to the four bytes read. -/
theorem rd32Be_append_left {p : Bytes} (q : Bytes) {off : ℕ} (h : off + 4 ≤ p.length) :
    rd32Be (p ++ q) off = rd32Be p off := by
  simp only [rd32Be]
  rw [byteAt_append_left q (by omega), byteAt_append_left q (by omega),
    byteAt_append_left q (by omega), byteAt_append_left q (by omega)]

theorem rd32Be_take {p : Bytes} {n off : ℕ} (h : off + 4 ≤ n) : rd32Be (p.take n) off = rd32Be p off := by
  simp only [rd32Be]
  rw [byteAt_take (by omega), byteAt_take (by omega), byteAt_take (by omega), byteAt_take (by omega)]

/-- A longer memory has the same number there. -/
theorem rd32Be_mono {p q : Bytes} (h : p <+: q) {off : ℕ} (hl : off + 4 ≤ p.length) : rd32Be q off = rd32Be p off := by
  obtain ⟨t, rfl⟩ := h
  exact rd32Be_append_left t hl

/-- A 16-bit store is read back modulo its width. -/
theorem rd16Be_wr16Be (v : ℕ) (p : Bytes) : rd16Be (wr16Be v ++ p) 0 = v % 2 ^ 16 := by
  simp only [rd16Be, wr16Be, List.cons_append, byteAt_cons_succ, byteAt_ofNat_cons, Nat.zero_add]
  omega

/-- A 32-bit store is read back modulo its width. -/
theorem rd32Be_wr32Be (v : ℕ) (p : Bytes) : rd32Be (wr32Be v ++ p) 0 = v % 2 ^ 32 := by
  simp only [rd32Be, wr32Be, List.cons_append, byteAt_cons_succ, byteAt_ofNat_cons, Nat.zero_add]
  omega

/-- A 16-bit store in the middle of a buffer is read back. -/
theorem rd16Be_at (pre : Bytes) (v : ℕ) (rest : Bytes) :
    rd16Be (pre ++ wr16Be v ++ rest) pre.length = v % 2 ^ 16 := by
  have := rd16Be_drop (pre ++ (wr16Be v ++ rest)) pre.length 0
  rw [List.drop_left, rd16Be_wr16Be, Nat.add_zero, ← List.append_assoc] at this
  exact this.symm

/-- A 32-bit store in the middle of a buffer is read back. -/
theorem rd32Be_at (pre : Bytes) (v : ℕ) (rest : Bytes) :
    rd32Be (pre ++ wr32Be v ++ rest) pre.length = v % 2 ^ 32 := by
  have := rd32Be_drop (pre ++ (wr32Be v ++ rest)) pre.length 0
  rw [List.drop_left, rd32Be_wr32Be, Nat.add_zero, ← List.append_assoc] at this
  exact this.symm

/-- Reading 16 bits and storing them again gives the two bytes read. -/
theorem wr16Be_rd16Be {p : Bytes} (h : 2 ≤ p.length) : wr16Be (rd16Be p 0) ++ p.drop 2 = p := by
  match p, h with
  | a :: b :: q, _ =>
    have ha := a.toNat_lt
    have hb := b.toNat_lt
    have h1 : rd16Be (a :: b :: q) 0 = 2 ^ 8 * a.toNat + b.toNat := by simp [rd16Be, byteAt]
    simp only [h1, wr16Be, List.cons_append, List.nil_append, List.drop_succ_cons, List.drop_zero,
      List.cons.injEq, and_true]
    constructor <;> (apply UInt8.toNat_inj.1; simp only [UInt8.toNat_ofNat']; omega)

/-- Reading 32 bits and storing them again gives the four bytes read. -/
theorem wr32Be_rd32Be {p : Bytes} (h : 4 ≤ p.length) : wr32Be (rd32Be p 0) ++ p.drop 4 = p := by
  match p, h with
  | a :: b :: c :: d :: q, _ =>
    have ha := a.toNat_lt
    have hb := b.toNat_lt
    have hc := c.toNat_lt
    have hd := d.toNat_lt
    have h1 : rd32Be (a :: b :: c :: d :: q) 0 =
        2 ^ 24 * a.toNat + 2 ^ 16 * b.toNat + 2 ^ 8 * c.toNat + d.toNat := by simp [rd32Be, byteAt]
    simp only [h1, wr32Be, List.cons_append, List.nil_append, List.drop_succ_cons, List.drop_zero,
      List.cons.injEq, and_true]
    refine ⟨?_, ?_, ?_, ?_⟩ <;> (apply UInt8.toNat_inj.1; simp only [UInt8.toNat_ofNat']; omega)

/-! ## C strings -/

/-- A C string: its bytes up to, and not including, the terminator. -/
structure CStr where
  bytes : Bytes
  noNul : (0 : UInt8) ∉ bytes
  deriving DecidableEq

namespace CStr

instance : Inhabited CStr := ⟨⟨[], by simp⟩⟩

/-- The empty string. -/
def empty : CStr := ⟨[], by simp⟩

@[ext] theorem ext {s t : CStr} (h : s.bytes = t.bytes) : s = t := by
  cases s; cases t; simp_all

/-- `strlen`. -/
def length (s : CStr) : ℕ := s.bytes.length

/-- The string with its terminator, as it lies in memory. -/
def toBytes (s : CStr) : Bytes := s.bytes ++ [0]

/-- A string takes up one byte for its terminator. -/
@[simp] theorem toBytes_length (s : CStr) : s.toBytes.length = s.length + 1 := by simp [toBytes, length]

/-- The first `n` characters (`strncpy` into `n + 1` bytes). -/
def take (n : ℕ) (s : CStr) : CStr := ⟨s.bytes.take n, fun h => s.noNul (List.mem_of_mem_take h)⟩

/-- A string that is short enough is not cut. -/
theorem take_of_length_le {n : ℕ} {s : CStr} (h : s.length ≤ n) : s.take n = s := by
  ext1; exact List.take_of_length_le h

/-- Prepending a nonzero character. -/
def cons (b : UInt8) (hb : b ≠ 0) (s : CStr) : CStr :=
  ⟨b :: s.bytes, by simpa [eq_comm] using ⟨hb, s.noNul⟩⟩

end CStr

/-- The scan for a terminator among the bytes `p`: the string before it, and how many
bytes it takes with the terminator. -/
def readCstr : Bytes → Option (CStr × ℕ)
  | [] => none
  | b :: p =>
    if h : b = 0 then some (CStr.empty, 1)
    else match readCstr p with
      | none => none
      | some (s, n) => some (s.cons b h, n + 1)

/-- A string that was written is read back. -/
theorem readCstr_toBytes (s : CStr) (q : Bytes) : readCstr (s.toBytes ++ q) = some (s, s.length + 1) := by
  obtain ⟨l, hl⟩ := s
  induction l with
  | nil => simp [CStr.toBytes, CStr.length, readCstr, CStr.empty]
  | cons b l ih =>
    have hb : b ≠ 0 := fun h => hl (by simp [h])
    have hl' : (0 : UInt8) ∉ l := fun h => hl (List.mem_cons_of_mem _ h)
    have := ih hl'
    simp only [CStr.toBytes, CStr.length, List.cons_append, readCstr, dif_neg hb, List.length_cons] at this ⊢
    rw [this]; rfl

/-- **What the scan returns**: the bytes before the first terminator, terminator counted. -/
theorem readCstr_some {p : Bytes} {s : CStr} {n : ℕ} (h : readCstr p = some (s, n)) :
    n = s.length + 1 ∧ p = s.toBytes ++ p.drop n := by
  induction p generalizing s n with
  | nil => simp [readCstr] at h
  | cons b p ih =>
    unfold readCstr at h
    split at h
    · rename_i hb
      simp only [Option.some.injEq, Prod.mk.injEq] at h
      obtain ⟨rfl, rfl⟩ := h
      exact ⟨rfl, by simp [CStr.toBytes, CStr.empty, hb]⟩
    · cases hp : readCstr p with
      | none => rw [hp] at h; simp at h
      | some r =>
        obtain ⟨t, m⟩ := r
        rw [hp] at h
        simp only [Option.some.injEq, Prod.mk.injEq] at h
        obtain ⟨rfl, rfl⟩ := h
        obtain ⟨h1, h2⟩ := ih hp
        refine ⟨by simp [CStr.cons, CStr.length] at h1 ⊢; omega, ?_⟩
        simp only [CStr.toBytes, CStr.cons, List.cons_append, List.drop_succ_cons] at h2 ⊢
        rw [← h2]

/-- There is no string exactly where there is no zero byte. -/
theorem readCstr_none {p : Bytes} : readCstr p = none ↔ (0 : UInt8) ∉ p := by
  induction p with
  | nil => simp [readCstr]
  | cons b p ih =>
    unfold readCstr
    split
    · rename_i hb; simp [hb]
    · rename_i hb
      have h0 : (0 : UInt8) ≠ b := fun h => hb h.symm
      cases hp : readCstr p with
      | none => simp [h0, ih.1 hp]
      | some r =>
        have : ¬ (0 : UInt8) ∉ p := fun h => by rw [ih.2 h] at hp; cases hp
        simp only [reduceCtorEq, false_iff]
        intro h
        exact this fun hm => h (List.mem_cons_of_mem _ hm)

/-- A string is read from inside the bytes. -/
theorem readCstr_le {p : Bytes} {s : CStr} {n : ℕ} (h : readCstr p = some (s, n)) : n ≤ p.length := by
  obtain ⟨h1, h2⟩ := readCstr_some h
  have := congrArg List.length h2
  simp only [List.length_append, CStr.toBytes_length, List.length_drop] at this
  omega

end ByteMem

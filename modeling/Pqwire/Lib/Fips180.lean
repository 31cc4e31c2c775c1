import Mathlib.Data.Nat.NthRoot.Defs
import Pqwire.Lib.Bytes

/-!
# The hash of FIPS 180-4

SHA-256 as the standard defines it, on messages of whole bytes: functions and constants
(section 4), padding and parsing (section 5), message schedule, rounds and output (section 6.2).
Nothing here is taken from an implementation.

The message schedule is a parameter of the computation (`hashUsing`), and `sha256` is the
computation with the schedule of the standard: an implementation whose schedule is another one
can be compared stage by stage.

* `padZeros_isLeast`: the zeros of the padding are the least number that fills a block.
* `blocks_append`: blocks of a message in two parts, the first of them whole blocks.
-/

namespace Fips180

open ByteMem

abbrev Word := UInt32

/-! ## Functions -/

/-- Rotation to the right by `n` places. -/
def rotr (n : UInt32) (x : Word) : Word := x >>> n ||| x <<< (32 - n)

def choose (x y z : Word) : Word := (x &&& y) ^^^ (~~~x &&& z)

def majority (x y z : Word) : Word := (x &&& y) ^^^ (x &&& z) ^^^ (y &&& z)

def bigSigma0 (x : Word) : Word := rotr 2 x ^^^ rotr 13 x ^^^ rotr 22 x

def bigSigma1 (x : Word) : Word := rotr 6 x ^^^ rotr 11 x ^^^ rotr 25 x

def sigma0 (x : Word) : Word := rotr 7 x ^^^ rotr 18 x ^^^ x >>> 3

def sigma1 (x : Word) : Word := rotr 17 x ^^^ rotr 19 x ^^^ x >>> 10

/-! ## Constants -/

/-- The first sixty-four primes. -/
def primes : List ℕ :=
  [2, 3, 5, 7, 11, 13, 17, 19, 23, 29, 31, 37, 41, 43, 47, 53, 59, 61, 67, 71, 73, 79, 83, 89, 97, 101,
    103, 107, 109, 113, 127, 131, 137, 139, 149, 151, 157, 163, 167, 173, 179, 181, 191, 193, 197, 199,
    211, 223, 227, 229, 233, 239, 241, 251, 257, 263, 269, 271, 277, 281, 283, 293, 307, 311]

/-- The first 32 bits of the fractional part of the `n`-th root of `p`. -/
def rootBits (n p : ℕ) : Word := UInt32.ofNat (Nat.nthRoot n (p * 2 ^ (32 * n)))

/-- The constants of the rounds, from the cube roots. -/
def roundConstants : List Word := primes.map (rootBits 3)

/-- Eight words: a hash value, or the working variables. -/
structure Words where
  a : Word
  b : Word
  c : Word
  d : Word
  e : Word
  f : Word
  g : Word
  h : Word
  deriving DecidableEq

/-- The initial hash value, from the square roots of the first eight primes. -/
def initial : Words :=
  ⟨rootBits 2 2, rootBits 2 3, rootBits 2 5, rootBits 2 7, rootBits 2 11, rootBits 2 13, rootBits 2 17, rootBits 2 19⟩

/-! ## Padding and parsing -/

/-- A 64-bit integer, most significant byte first. -/
def wr64Be (v : ℕ) : Bytes := wr32Be (v / 2 ^ 32) ++ wr32Be v

/-- The number of zero bytes in the padding of a message of `l` bytes. -/
def padZeros (l : ℕ) : ℕ := (119 - l % 64) % 64

/-- The padded message: a one bit, zeros, and the length in bits. -/
def pad (msg : Bytes) : Bytes := msg ++ 0x80 :: List.replicate (padZeros msg.length) 0 ++ wr64Be (8 * msg.length)

/-- The blocks of 64 bytes. -/
def blocks (m : Bytes) : List Bytes := (List.range (m.length / 64)).map fun i => slice m (64 * i) 64

/-- The sixteen words of a block. -/
def blockWords (block : Bytes) : List Word := (List.range 16).map fun i => UInt32.ofNat (rd32Be block (4 * i))

/-! ## Computation -/

/-- The next word of the schedule, from those before it. -/
def nextWord (W : List Word) : Word :=
  let t := W.length
  sigma1 (W.getD (t - 2) 0) + W.getD (t - 7) 0 + sigma0 (W.getD (t - 15) 0) + W.getD (t - 16) 0

/-- `n` more words. -/
def extend (next : List Word → Word) : ℕ → List Word → List Word
  | 0, W => W
  | n + 1, W => extend next n (W ++ [next W])

/-- The message schedule of a block: sixty-four words. -/
def schedule (block : Bytes) : List Word := extend nextWord 48 (blockWords block)

/-- A round on the working variables, with its constant and its word of the schedule. -/
def round (s : Words) (kw : Word × Word) : Words :=
  let t1 := s.h + bigSigma1 s.e + choose s.e s.f s.g + kw.1 + kw.2
  let t2 := bigSigma0 s.a + majority s.a s.b s.c
  ⟨t1 + t2, s.a, s.b, s.c, s.d + t1, s.e, s.f, s.g⟩

/-- The working variables after the first `n` rounds with the schedule `W`. -/
def rounds (W : List Word) (n : ℕ) (s : Words) : Words := ((roundConstants.zip W).take n).foldl round s

def Words.add (s t : Words) : Words :=
  ⟨s.a + t.a, s.b + t.b, s.c + t.c, s.d + t.d, s.e + t.e, s.f + t.f, s.g + t.g, s.h + t.h⟩

/-- The intermediate hash value behind a block whose schedule is `W`. -/
def compress (W : List Word) (s : Words) : Words := s.add (rounds W 64 s)

def Words.toList (s : Words) : List Word := [s.a, s.b, s.c, s.d, s.e, s.f, s.g, s.h]

/-- The bytes of a hash value. -/
def Words.toBytes (s : Words) : Bytes := s.toList.flatMap fun w => wr32Be w.toNat

/-- The hash value of a message, with the schedule `sch` of each block. -/
def hashUsing (sch : Bytes → List Word) (msg : Bytes) : Words :=
  (blocks (pad msg)).foldl (fun s block => compress (sch block) s) initial

/-- **The message digest.** -/
def sha256 (msg : Bytes) : Bytes := (hashUsing schedule msg).toBytes

/-! ## Lemmas -/

@[simp] theorem wr64Be_length (v : ℕ) : (wr64Be v).length = 8 := rfl

/-- The length field is stored modulo its width. -/
theorem wr64Be_mod (v : ℕ) : wr64Be (v % 2 ^ 64) = wr64Be v := by
  simp only [wr64Be, wr32Be, List.cons_append, List.nil_append, List.cons.injEq, and_true]
  refine ⟨?_, ?_, ?_, ?_, ?_, ?_, ?_, ?_⟩ <;> (apply UInt8.toNat_inj.1; simp only [UInt8.toNat_ofNat']; omega)

/-- **The least number of zeros that fills the last block.** -/
theorem padZeros_isLeast (l : ℕ) : IsLeast {z | 64 ∣ l + 1 + z + 8} (padZeros l) := by
  constructor
  · show 64 ∣ l + 1 + padZeros l + 8
    unfold padZeros
    omega
  · intro z hz
    have : 64 ∣ l + 1 + z + 8 := hz
    unfold padZeros
    omega

/-- A message of one block. -/
theorem blocks_one {m : Bytes} (h : m.length = 64) : blocks m = [m] := by
  unfold blocks
  rw [h]
  show [slice m (64 * 0) 64] = [m]
  rw [slice, Nat.mul_zero, List.drop_zero, List.take_of_length_le (le_of_eq h)]

/-- Whole blocks in front are blocks of the concatenation. -/
theorem blocks_append {m : Bytes} (h : 64 ∣ m.length) (n : Bytes) : blocks (m ++ n) = blocks m ++ blocks n := by
  obtain ⟨q, hq⟩ := h
  have hm : m.length / 64 = q := by omega
  have hn : (m ++ n).length / 64 = q + n.length / 64 := by
    rw [List.length_append, hq]
    omega
  unfold blocks
  rw [hm, hn, List.range_add, List.map_append, List.map_map]
  congr 1
  · refine List.map_congr_left fun i hi => slice_append_left ?_
    have := List.mem_range.1 hi
    omega
  · refine List.map_congr_left ?_
    intro i _
    have hoff : 64 * (q + i) = m.length + 64 * i := by omega
    show slice (m ++ n) (64 * (q + i)) 64 = slice n (64 * i) 64
    rw [slice, slice, hoff, List.drop_append, List.drop_eq_nil_of_le (by omega), Nat.add_sub_cancel_left, List.nil_append]

/-! ### Schedules -/

variable {next : List Word → Word}

@[simp] theorem extend_length (n : ℕ) (W : List Word) : (extend next n W).length = W.length + n := by
  induction n generalizing W with
  | zero => rfl
  | succ n ih =>
    rw [extend, ih, List.length_append, List.length_singleton]
    omega

/-- The words that are there stay. -/
theorem extend_isPrefix (n : ℕ) (W : List Word) : W <+: extend next n W := by
  induction n generalizing W with
  | zero => exact List.prefix_rfl
  | succ n ih => exact (List.prefix_append _ _).trans (ih _)

/-- The first new word. -/
theorem extend_getElem? (n : ℕ) (W : List Word) : (extend next (n + 1) W)[W.length]? = some (next W) := by
  obtain ⟨rest, hrest⟩ : W ++ [next W] <+: extend next n (W ++ [next W]) := extend_isPrefix n _
  rw [extend, ← hrest, List.append_assoc, List.getElem?_append_right le_rfl, Nat.sub_self]
  rfl

theorem blockWords_length (block : Bytes) : (blockWords block).length = 16 := by
  rw [blockWords, List.length_map, List.length_range]

end Fips180

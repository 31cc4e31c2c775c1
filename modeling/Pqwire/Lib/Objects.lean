import Pqwire.Lib.Bytes

/-!
# Objects and pointers

The memory of a C program as far as its arrays go: each object has its bytes, and a pointer is an
object with an offset. Two pointers alias when they are into one object, so a function that gets
several of them is written, and proved correct, for every way in which they overlap.

* `read_write_self`: what has been stored is read back.
* `write_write`: of two stores to one place the later counts.
-/

namespace CMem

open ByteMem

structure Ptr (ι : Type) where
  obj : ι
  off : ℕ
  deriving DecidableEq

/-- The contents of the objects. -/
abbrev Objects (ι : Type) := ι → Bytes

namespace Objects

variable {ι : Type} {mem : Objects ι} {p : Ptr ι} {n : ℕ} {bs : Bytes}

/-- `n` bytes from `p` on. -/
def read (mem : Objects ι) (p : Ptr ι) (n : ℕ) : Bytes := slice (mem p.obj) p.off n

/-- `p` points to `n` bytes of its object. -/
def Valid (mem : Objects ι) (p : Ptr ι) (n : ℕ) : Prop := p.off + n ≤ (mem p.obj).length

instance : Decidable (mem.Valid p n) := inferInstanceAs (Decidable (_ ≤ _))

theorem Valid.read_length (h : mem.Valid p n) : (mem.read p n).length = n := slice_length h

variable [DecidableEq ι]

/-- The bytes go to `p`. -/
def write (mem : Objects ι) (p : Ptr ι) (bs : Bytes) : Objects ι :=
  Function.update mem p.obj (blit (mem p.obj) p.off bs)

/-- What was written is read back. -/
theorem read_write_self (h : mem.Valid p bs.length) : (mem.write p bs).read p bs.length = bs := by
  have hoff : p.off ≤ (mem p.obj).length := by
    unfold Valid at h
    omega
  unfold read write
  rw [Function.update_self]
  exact slice_blit_self hoff

/-- A store over the whole of an object. -/
theorem write_whole {i : ι} (h : bs.length = (mem i).length) : mem.write ⟨i, 0⟩ bs = Function.update mem i bs := by
  unfold write blit
  rw [List.take_zero, List.nil_append, Nat.zero_add, List.drop_eq_nil_of_le h.ge, List.append_nil]

/-- The last write of an object counts. -/
theorem write_write (h : mem.Valid p bs.length) {cs : Bytes} (he : cs.length = bs.length) :
    (mem.write p bs).write p cs = mem.write p cs := by
  have hoff : p.off ≤ (mem p.obj).length := by
    unfold Valid at h
    omega
  have htake : (blit (mem p.obj) p.off bs).take p.off = (mem p.obj).take p.off := by
    unfold blit
    rw [List.append_assoc, List.take_append_of_le_length (by rw [List.length_take]; omega), List.take_take, min_self]
  have hdrop : (blit (mem p.obj) p.off bs).drop (p.off + bs.length) = (mem p.obj).drop (p.off + bs.length) := by
    have hl : ((mem p.obj).take p.off ++ bs).length = p.off + bs.length := by
      rw [List.length_append, List.length_take]
      omega
    unfold blit
    rw [← hl, List.drop_left, hl]
  unfold write
  rw [Function.update_self, Function.update_idem]
  congr 1
  unfold blit at htake hdrop ⊢
  rw [htake, he, hdrop]

end Objects

end CMem

import Mathlib.Tactic

/-!
# A drop-oldest ring buffer

A ring of `size` slots with a head, a tail and a count, as C programs write it:
`enqueue` on a full ring first gives up the oldest entry, `dequeue` takes the oldest.
`RingBuf.toList` is the queue the ring stands for, oldest first.

* `toList_enqueue`: enqueuing appends, and drops the oldest entry of a full ring.
* `toList_dequeue`: dequeuing removes the oldest entry.
* `RingBuf.Ok` is kept by both, so both hold along every run.
-/

/-- A ring of slots. `head` is the oldest entry, `tail` the next free slot. -/
structure RingBuf (α : Type*) where
  size : ℕ
  slots : List α
  head : ℕ
  tail : ℕ
  count : ℕ
  deriving DecidableEq, Repr

namespace RingBuf

variable {α : Type*}

/-- A ring with every slot cleared. -/
def init [Inhabited α] (size : ℕ) : RingBuf α := ⟨size, List.replicate size default, 0, 0, 0⟩

/-- Forget every entry; the slots keep their stale contents. -/
def clear (r : RingBuf α) : RingBuf α := { r with head := 0, tail := 0, count := 0 }

/-- Give up the oldest entry of a full ring. -/
def makeRoom (r : RingBuf α) : RingBuf α :=
  if r.size ≤ r.count then { r with head := (r.head + 1) % r.size, count := r.count - 1 } else r

/-- Store `x` at the tail. -/
def push (r : RingBuf α) (x : α) : RingBuf α :=
  { r with slots := r.slots.set r.tail x, tail := (r.tail + 1) % r.size, count := r.count + 1 }

def enqueue (r : RingBuf α) (x : α) : RingBuf α := r.makeRoom.push x

/-- The oldest entry and the ring without it; `none` on an empty ring. -/
def dequeue [Inhabited α] (r : RingBuf α) : Option (α × RingBuf α) :=
  if r.count = 0 then none
  else some (r.slots.getD r.head default, { r with head := (r.head + 1) % r.size, count := r.count - 1 })

/-- The queue the ring stands for, oldest first. -/
def toList [Inhabited α] (r : RingBuf α) : List α :=
  (List.range r.count).map fun i => r.slots.getD ((r.head + i) % r.size) default

/-- The invariant of a ring. -/
structure Ok (r : RingBuf α) : Prop where
  pos : 0 < r.size
  slots : r.slots.length = r.size
  head : r.head < r.size
  count : r.count ≤ r.size
  tail : r.tail = (r.head + r.count) % r.size

variable {r : RingBuf α}

theorem clear_ok (h : r.Ok) : r.clear.Ok :=
  ⟨h.pos, h.slots, h.pos, Nat.zero_le _, by simp [clear]⟩

/-- Distinct positions of one lap are distinct slots. -/
theorem index_ne {size head i j : ℕ} (hi : i < size) (hj : j < size) (h : i ≠ j) :
    (head + i) % size ≠ (head + j) % size := by
  intro he
  have h1 : i ≡ j [MOD size] := Nat.ModEq.add_left_cancel' head he
  exact h (Nat.ModEq.eq_of_lt_of_lt h1 hi hj)

/-- Making room keeps the invariant, and leaves room. -/
theorem makeRoom_ok (h : r.Ok) : r.makeRoom.Ok ∧ r.makeRoom.count < r.makeRoom.size := by
  have hpos := h.pos
  unfold makeRoom
  split
  · rename_i hc
    have hcs : r.count = r.size := le_antisymm h.count hc
    refine ⟨⟨hpos, h.slots, Nat.mod_lt _ hpos, by simp only; omega, ?_⟩, by simp only; omega⟩
    simp only
    rw [h.tail, Nat.mod_add_mod]
    congr 1; omega
  · rename_i hc
    exact ⟨h, by omega⟩

/-- An entry may be added where there is room. -/
theorem push_ok (h : r.Ok) (hc : r.count < r.size) (x : α) : (r.push x).Ok := by
  refine ⟨h.pos, by simp [push, h.slots], h.head, hc, ?_⟩
  simp only [push]
  rw [h.tail, Nat.mod_add_mod, Nat.add_assoc]

/-- So it may anywhere, once the oldest entry has made room. -/
theorem enqueue_ok (h : r.Ok) (x : α) : (r.enqueue x).Ok :=
  push_ok (makeRoom_ok h).1 (makeRoom_ok h).2 x

@[simp] theorem enqueue_size (r : RingBuf α) (x : α) : (r.enqueue x).size = r.size := by
  unfold enqueue makeRoom; split <;> rfl

/-! ## The queue -/

variable [Inhabited α]

@[simp] theorem toList_length (r : RingBuf α) : r.toList.length = r.count := by simp [toList]

/-- The entries in the order in which they will leave. -/
theorem toList_getElem? (r : RingBuf α) (i : ℕ) :
    r.toList[i]? = if i < r.count then some (r.slots.getD ((r.head + i) % r.size) default) else none := by
  unfold toList
  split
  · rename_i h; simp [List.getElem?_range h]
  · rename_i h; simp [Nat.le_of_not_lt h]

theorem toList_init (n : ℕ) : (init n : RingBuf α).toList = [] := by simp [toList, init]

theorem toList_clear (r : RingBuf α) : r.clear.toList = [] := by simp [toList, clear]

/-- A new buffer is in order. -/
theorem init_ok {n : ℕ} (h : 0 < n) : (init n : RingBuf α).Ok :=
  ⟨h, by simp [init], h, by simp [init], by simp [init]⟩

/-- Making room drops the oldest entry of a full buffer. -/
theorem toList_makeRoom (h : r.Ok) : r.makeRoom.toList = r.toList.drop (r.count + 1 - r.size) := by
  have hpos := h.pos
  unfold makeRoom
  split
  · rename_i hc
    have hcs : r.count = r.size := le_antisymm h.count hc
    rw [hcs, Nat.add_sub_cancel_left]
    apply List.ext_getElem?
    intro i
    rw [List.getElem?_drop, toList_getElem?, toList_getElem?]
    have hm : ((r.head + 1) % r.size + i) % r.size = (r.head + (1 + i)) % r.size := by
      rw [Nat.mod_add_mod, Nat.add_assoc]
    simp only [hm]
    by_cases hi : i < r.count - 1
    · rw [if_pos (by omega), if_pos (by omega)]
    · rw [if_neg (by omega), if_neg (by omega)]
  · rename_i hc
    rw [Nat.sub_eq_zero_of_le (by omega), List.drop_zero]

/-- A new entry is the last to leave. -/
theorem toList_push (h : r.Ok) (hc : r.count < r.size) (x : α) :
    (r.push x).toList = r.toList ++ [x] := by
  apply List.ext_getElem?
  intro i
  rw [List.getElem?_append, toList_getElem?, toList_length, toList_getElem?]
  simp only [push, h.tail, List.getD_eq_getElem?_getD, List.getElem?_set, h.slots]
  rcases Nat.lt_trichotomy i r.count with hi | hi | hi
  · rw [if_pos (by omega), if_pos hi, if_pos hi,
      if_neg (index_ne (by omega) (by omega) (by omega))]
  · subst hi
    rw [if_pos (by omega), if_neg (lt_irrefl _), if_pos rfl, if_pos (Nat.mod_lt _ h.pos)]
    simp
  · rw [if_neg (by omega), if_neg (by omega)]
    exact (List.getElem?_eq_none (by simp only [List.length_singleton]; omega)).symm

/-- **Enqueuing appends, and drops the oldest entry of a full ring.** -/
theorem toList_enqueue (h : r.Ok) (x : α) :
    (r.enqueue x).toList = (r.toList ++ [x]).drop (r.count + 1 - r.size) := by
  have hc := h.count
  unfold enqueue
  rw [toList_push (makeRoom_ok h).1 (makeRoom_ok h).2, toList_makeRoom h,
    List.drop_append_of_le_length (by rw [toList_length]; have := h.pos; omega)]

/-- Taking an entry keeps the invariant. -/
theorem dequeue_ok {x : α} {r' : RingBuf α} (h : r.Ok) (hd : r.dequeue = some (x, r')) : r'.Ok := by
  unfold dequeue at hd
  split at hd
  · cases hd
  rename_i hc
  simp only [Option.some.injEq, Prod.mk.injEq] at hd
  obtain ⟨-, rfl⟩ := hd
  have hcs := h.count
  refine ⟨h.pos, h.slots, Nat.mod_lt _ h.pos, by simp only; omega, ?_⟩
  simp only
  rw [h.tail, Nat.mod_add_mod]
  congr 1; omega

/-- **Dequeuing removes the oldest entry.** -/
theorem toList_dequeue {x : α} {r' : RingBuf α} (h : r.Ok) (hd : r.dequeue = some (x, r')) :
    r.toList = x :: r'.toList ∧ r'.size = r.size ∧ r'.count + 1 = r.count := by
  unfold dequeue at hd
  split at hd
  · cases hd
  rename_i hc
  simp only [Option.some.injEq, Prod.mk.injEq] at hd
  obtain ⟨rfl, rfl⟩ := hd
  refine ⟨?_, rfl, by simp only; omega⟩
  apply List.ext_getElem?
  intro i
  cases i with
  | zero => rw [toList_getElem?, if_pos (by omega), List.getElem?_cons_zero, Nat.add_zero, Nat.mod_eq_of_lt h.head]
  | succ i =>
    rw [List.getElem?_cons_succ, toList_getElem?, toList_getElem?]
    have hm : ((r.head + 1) % r.size + i) % r.size = (r.head + (i + 1)) % r.size := by
      rw [Nat.mod_add_mod, Nat.add_assoc, Nat.add_comm 1 i]
    simp only [hm]
    by_cases hi : i < r.count - 1
    · rw [if_pos hi, if_pos (by omega)]
    · rw [if_neg hi, if_neg (by omega)]

/-- Nothing is taken exactly from an empty buffer. -/
theorem dequeue_none : r.dequeue = none ↔ r.count = 0 := by
  unfold dequeue; split <;> simp_all

end RingBuf

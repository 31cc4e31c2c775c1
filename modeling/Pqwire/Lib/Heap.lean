import Pqwire.Lib.Bytes

/-!
# A heap with `malloc`, `calloc`, `realloc` and `free`

A heap gives the contents of its live blocks. `none` is the result of a program that does what C
leaves undefined: it frees, resizes or stores to something that is not a live block, or stores
or reads outside of it. An address is never given out twice, so that a stale pointer is never
live again, and `realloc` always moves a block. What `malloc` and `realloc` leave in the bytes that
nobody has stored to is not specified: it is a parameter of the heap, of which the rules say
nothing.

`Triple P m Q`: from every heap that meets `P`, the program `m` runs without undefined
behaviour and leaves a result and a heap that meet `Q`.

`Owns base l os`: the live blocks are those of `base` and, apart from them, the blocks `l` that
belong to the program; `os` are the outcomes of the next allocations. A block that is missing
from `l` has been freed, and a program that ends with `l = []` has leaked nothing.
-/

namespace CHeap

open ByteMem

structure Heap where
  blocks : ℕ → Option Bytes
  /-- addresses from here on have not been given out -/
  next : ℕ
  /-- the outcomes of the next allocations; past its end they succeed -/
  outcomes : List Bool
  /-- byte `i` of the block at an address, before anything is stored there -/
  unset : ℕ → ℕ → UInt8

abbrev HeapM := StateT Heap Option

/-- What `n` bytes of the next block hold. -/
def Heap.newBytes (h : Heap) (n : ℕ) : Bytes := (List.range n).map (h.unset h.next)

/-- The contents of `b` in a block that held `new`, as far as they go. -/
def resize (b new : Bytes) : Bytes := b.take new.length ++ new.drop b.length

/-- A new block with these contents. -/
def alloc (contents : Heap → Bytes) : HeapM (Option ℕ) := fun h =>
  if h.outcomes.headD true then
    some (some h.next,
      { h with
        blocks := Function.update h.blocks h.next (some (contents h))
        next := h.next + 1
        outcomes := h.outcomes.tail })
  else some (none, { h with outcomes := h.outcomes.tail })

def malloc (n : ℕ) : HeapM (Option ℕ) := alloc fun h => h.newBytes n

/-- `calloc`: the bytes are zero. -/
def calloc (n : ℕ) : HeapM (Option ℕ) := alloc fun _ => List.replicate n 0

/-- `free`; a null pointer is fine. -/
def free : Option ℕ → HeapM Unit
  | none => pure ()
  | some a => fun h => (h.blocks a).map fun _ => ((), { h with blocks := Function.update h.blocks a none })

/-- `realloc`: the old block stays when it fails. -/
def realloc (a n : ℕ) : HeapM (Option ℕ) := fun h =>
  (h.blocks a).map fun b =>
    if h.outcomes.headD true then
      (some h.next,
        { h with
          blocks := Function.update (Function.update h.blocks a none) h.next (some (resize b (h.newBytes n)))
          next := h.next + 1
          outcomes := h.outcomes.tail })
    else (none, { h with outcomes := h.outcomes.tail })

/-- The bytes go to offset `off` of the block. -/
def store (a off : ℕ) (bs : Bytes) : HeapM Unit := fun h =>
  (h.blocks a).bind fun b =>
    if off + bs.length ≤ b.length then some ((), { h with blocks := Function.update h.blocks a (some (blit b off bs)) })
    else none

/-- `memcpy` to a pointer that may be null. -/
def storeAt (p : Option ℕ) (bs : Bytes) : HeapM Unit :=
  match p with
  | none => failure
  | some a => store a 0 bs

/-- `n` bytes from offset `off` of the block on. -/
def load (a off n : ℕ) : HeapM Bytes := fun h =>
  (h.blocks a).bind fun b => if off + n ≤ b.length then some (slice b off n, h) else none

/-- The string that starts the block. -/
def loadCstr (a : ℕ) : HeapM CStr := fun h =>
  (h.blocks a).bind fun b => (readCstr b).map fun r => (r.1, h)

/-! ## Triples -/

def Triple {α : Type} (P : Heap → Prop) (m : HeapM α) (Q : α → Heap → Prop) : Prop :=
  ∀ h, P h → ∃ a h', m h = some (a, h') ∧ Q a h'

namespace Triple

variable {α β : Type} {P P' : Heap → Prop} {Q Q' : α → Heap → Prop} {m : HeapM α}

theorem pure {a : α} (h : ∀ s, P s → Q a s) : Triple P (Pure.pure a) Q := fun s hs => ⟨a, s, rfl, h s hs⟩

/-- The rule for sequencing. -/
theorem bind {R : β → Heap → Prop} {f : α → HeapM β} (hm : Triple P m Q) (hf : ∀ a, Triple (Q a) (f a) R) :
    Triple P (m >>= f) R := by
  intro h hp
  obtain ⟨a, h', hrun, hq⟩ := hm h hp
  obtain ⟨b, h'', hrun', hr⟩ := hf a h' hq
  refine ⟨b, h'', ?_, hr⟩
  change (m h).bind (fun r => f r.1 r.2) = _
  rw [hrun]
  exact hrun'

/-- A stronger precondition and a weaker postcondition. -/
theorem conseq (hm : Triple P m Q) (hp : ∀ h, P' h → P h) (hq : ∀ a h, Q a h → Q' a h) : Triple P' m Q' := by
  intro h hp'
  obtain ⟨a, h', hrun, hres⟩ := hm h (hp h hp')
  exact ⟨a, h', hrun, hq a h' hres⟩

theorem pre (hm : Triple P m Q) (hp : ∀ h, P' h → P h) : Triple P' m Q := hm.conseq hp fun _ _ hq => hq

/-- A fact that does not depend on the heap may be assumed. -/
theorem assume {φ : Prop} (hm : φ → Triple P m Q) : Triple (fun h => φ ∧ P h) m Q := fun h hp => hm hp.1 h hp.2

theorem ex {ι : Type} {P : ι → Heap → Prop} (hm : ∀ i, Triple (P i) m Q) : Triple (fun h => ∃ i, P i h) m Q :=
  fun h hp => hp.elim fun i hi => hm i h hi

end Triple

/-! ## Ownership -/

structure Owns (base : ℕ → Option Bytes) (l : List (ℕ × Bytes)) (os : List Bool) (h : Heap) : Prop where
  nodup : (l.map Prod.fst).Nodup
  held : ∀ p ∈ l, h.blocks p.1 = some p.2
  apart : ∀ p ∈ l, base p.1 = none
  rest : ∀ a, a ∉ l.map Prod.fst → h.blocks a = base a
  fresh : ∀ a, h.next ≤ a → h.blocks a = none
  outcomes : h.outcomes = os

variable {base : ℕ → Option Bytes} {l : List (ℕ × Bytes)} {os : List Bool} {h : Heap} {a n off : ℕ} {b bs : Bytes}

/-- A heap in which every allocation is still to be made. -/
theorem Owns.start (h : Heap) (hf : ∀ a, h.next ≤ a → h.blocks a = none) : Owns h.blocks [] h.outcomes h :=
  ⟨List.nodup_nil, by simp, by simp, fun _ _ => rfl, hf, rfl⟩

/-- **Nothing has leaked.** -/
theorem Owns.blocks_eq (ho : Owns base [] os h) : h.blocks = base := funext fun a => ho.rest a (by simp)

/-- The order of the blocks does not matter. -/
theorem Owns.perm {l' : List (ℕ × Bytes)} (ho : Owns base l os h) (hp : l.Perm l') : Owns base l' os h :=
  ⟨((hp.map Prod.fst).nodup_iff).1 ho.nodup, fun p hl => ho.held p (hp.mem_iff.2 hl), fun p hl => ho.apart p (hp.mem_iff.2 hl),
    fun a ha => ho.rest a fun hm => ha ((hp.map Prod.fst).mem_iff.1 hm), ho.fresh, ho.outcomes⟩

/-- An address that has not been given out belongs to nobody. -/
theorem Owns.next_notMem (ho : Owns base l os h) : h.next ∉ l.map Prod.fst := by
  intro hm
  obtain ⟨p, hp, heq⟩ := List.mem_map.1 hm
  have := ho.held p hp
  rw [heq, ho.fresh _ le_rfl] at this
  cases this

theorem Owns.next_base (ho : Owns base l os h) : base h.next = none := by
  rw [← ho.rest _ ho.next_notMem]
  exact ho.fresh _ le_rfl

/-- A new block is added. -/
theorem Owns.insert (ho : Owns base l os h) (b : Bytes) (os' : List Bool) :
    Owns base ((h.next, b) :: l) os'
      { h with blocks := Function.update h.blocks h.next (some b), next := h.next + 1, outcomes := os' } := by
  refine ⟨List.nodup_cons.2 ⟨ho.next_notMem, ho.nodup⟩, ?_, ?_, ?_, ?_, rfl⟩
  · intro p hp
    rcases List.mem_cons.1 hp with rfl | hp
    · exact Function.update_self ..
    · have hne : p.1 ≠ h.next := fun heq => ho.next_notMem (heq ▸ List.mem_map_of_mem hp)
      change Function.update h.blocks h.next (some b) p.1 = _
      rw [Function.update_of_ne hne]
      exact ho.held p hp
  · intro p hp
    rcases List.mem_cons.1 hp with rfl | hp
    · exact ho.next_base
    · exact ho.apart p hp
  · intro a ha
    rw [List.map_cons, List.mem_cons, not_or] at ha
    change Function.update h.blocks h.next (some b) a = _
    rw [Function.update_of_ne ha.1]
    exact ho.rest a ha.2
  · intro a hle
    change h.next + 1 ≤ a at hle
    change Function.update h.blocks h.next (some b) a = _
    rw [Function.update_of_ne (by omega)]
    exact ho.fresh a (by omega)

/-- The other blocks are elsewhere. -/
theorem Owns.ne_head (ho : Owns base ((a, b) :: l) os h) {p : ℕ × Bytes} (hp : p ∈ l) : p.1 ≠ a := by
  have hnot : a ∉ l.map Prod.fst := (List.nodup_cons.1 ho.nodup).1
  rintro rfl
  exact hnot (List.mem_map_of_mem hp)

/-- A block that is owned is taken away. -/
theorem Owns.remove (ho : Owns base ((a, b) :: l) os h) :
    Owns base l os { h with blocks := Function.update h.blocks a none } := by
  refine ⟨(List.nodup_cons.1 ho.nodup).2, ?_, fun p hp => ho.apart p (List.mem_cons_of_mem _ hp), ?_, ?_, ho.outcomes⟩
  · intro p hp
    change Function.update h.blocks a none p.1 = _
    rw [Function.update_of_ne (ho.ne_head hp)]
    exact ho.held p (List.mem_cons_of_mem _ hp)
  · intro x hx
    change Function.update h.blocks a none x = _
    by_cases hxa : x = a
    · rw [hxa, Function.update_self]
      exact (ho.apart (a, b) List.mem_cons_self).symm
    · rw [Function.update_of_ne hxa]
      exact ho.rest x (by rw [List.map_cons, List.mem_cons, not_or]; exact ⟨hxa, hx⟩)
  · intro x hle
    change Function.update h.blocks a none x = _
    by_cases hxa : x = a
    · rw [hxa, Function.update_self]
    · rw [Function.update_of_ne hxa]
      exact ho.fresh x hle

/-- A block that is owned gets other contents. -/
theorem Owns.replace (ho : Owns base ((a, b) :: l) os h) (b' : Bytes) :
    Owns base ((a, b') :: l) os { h with blocks := Function.update h.blocks a (some b') } := by
  have hold := ho.held (a, b) List.mem_cons_self
  refine ⟨ho.nodup, ?_, ?_, ?_, ?_, ho.outcomes⟩
  · intro p hp
    rcases List.mem_cons.1 hp with rfl | hp
    · exact Function.update_self ..
    · change Function.update h.blocks a (some b') p.1 = _
      rw [Function.update_of_ne (ho.ne_head hp)]
      exact ho.held p (List.mem_cons_of_mem _ hp)
  · intro p hp
    rcases List.mem_cons.1 hp with rfl | hp
    · exact ho.apart (a, b) List.mem_cons_self
    · exact ho.apart p (List.mem_cons_of_mem _ hp)
  · intro x hx
    have hx' := hx
    rw [List.map_cons, List.mem_cons, not_or] at hx'
    change Function.update h.blocks a (some b') x = _
    rw [Function.update_of_ne hx'.1]
    exact ho.rest x hx
  · intro x hle
    have hxa : x ≠ a := by
      intro hxa
      rw [hxa] at hle
      rw [ho.fresh a hle] at hold
      cases hold
    change Function.update h.blocks a (some b') x = _
    rw [Function.update_of_ne hxa]
    exact ho.fresh x hle

theorem Owns.tail (ho : Owns base l os h) : Owns base l os.tail { h with outcomes := h.outcomes.tail } :=
  ⟨ho.nodup, ho.held, ho.apart, ho.rest, ho.fresh, congrArg List.tail ho.outcomes⟩

/-! ## Rules -/

theorem newBytes_length (h : Heap) (n : ℕ) : (h.newBytes n).length = n := by
  unfold Heap.newBytes
  rw [List.length_map, List.length_range]

/-- An allocation gives a block of its size, or nothing. -/
theorem alloc_owns {contents : Heap → Bytes} (hn : ∀ h, (contents h).length = n) :
    Triple (Owns base l os) (alloc contents) fun r h =>
      if os.headD true then ∃ a b, r = some a ∧ b.length = n ∧ Owns base ((a, b) :: l) os.tail h
      else r = none ∧ Owns base l os.tail h := by
  intro h ho
  unfold alloc
  rw [ho.outcomes]
  split
  · exact ⟨_, _, rfl, h.next, contents h, rfl, hn h, ho.insert _ _⟩
  · have := ho.tail
    rw [ho.outcomes] at this
    exact ⟨_, _, rfl, rfl, this⟩

theorem malloc_owns : Triple (Owns base l os) (malloc n) fun r h =>
    if os.headD true then ∃ a b, r = some a ∧ b.length = n ∧ Owns base ((a, b) :: l) os.tail h
    else r = none ∧ Owns base l os.tail h :=
  alloc_owns fun h => newBytes_length h n

theorem calloc_owns : Triple (Owns base l os) (calloc n) fun r h =>
    if os.headD true then ∃ a b, r = some a ∧ b.length = n ∧ Owns base ((a, b) :: l) os.tail h
    else r = none ∧ Owns base l os.tail h :=
  alloc_owns fun _ => List.length_replicate

/-- A block that is owned may be freed, and is gone. -/
theorem free_owns : Triple (Owns base ((a, b) :: l) os) (free (some a)) fun _ => Owns base l os := by
  intro h ho
  refine ⟨(), _, ?_, ho.remove⟩
  unfold free
  dsimp only
  rw [ho.held (a, b) List.mem_cons_self]
  rfl

/-- The block that an allocation may give, as a list of at most one. -/
theorem alloc_cell {contents : Heap → Bytes} (hn : ∀ h, (contents h).length = n) :
    Triple (Owns base l os) (alloc contents) fun r h =>
      ∃ cell : Option (ℕ × Bytes), r = cell.map Prod.fst ∧ cell.isSome = os.headD true ∧
        (∀ x ∈ cell, x.2.length = n) ∧ Owns base (cell.toList ++ l) os.tail h := by
  refine (alloc_owns hn).conseq (fun _ ho => ho) ?_
  intro r h hr
  split at hr
  · rename_i hok
    obtain ⟨a, b, rfl, hb, ho⟩ := hr
    refine ⟨some (a, b), rfl, hok.symm, ?_, ho⟩
    rintro x hx
    cases hx
    exact hb
  · rename_i hok
    obtain ⟨rfl, ho⟩ := hr
    exact ⟨none, rfl, (Bool.eq_false_iff.2 hok).symm, by simp, ho⟩

theorem malloc_cell : Triple (Owns base l os) (malloc n) fun r h =>
    ∃ cell : Option (ℕ × Bytes), r = cell.map Prod.fst ∧ cell.isSome = os.headD true ∧
      (∀ x ∈ cell, x.2.length = n) ∧ Owns base (cell.toList ++ l) os.tail h :=
  alloc_cell fun h => newBytes_length h n

theorem calloc_cell : Triple (Owns base l os) (calloc n) fun r h =>
    ∃ cell : Option (ℕ × Bytes), r = cell.map Prod.fst ∧ cell.isSome = os.headD true ∧
      (∀ x ∈ cell, x.2.length = n) ∧ Owns base (cell.toList ++ l) os.tail h :=
  alloc_cell fun _ => List.length_replicate

/-- The block that an allocation may have given is freed. -/
theorem free_cell {cell : Option (ℕ × Bytes)} :
    Triple (Owns base (cell.toList ++ l) os) (free (cell.map Prod.fst)) fun _ => Owns base l os := by
  cases cell with
  | none => exact .pure fun _ ho => ho
  | some x => exact free_owns

/-- Another block may stand in front. -/
theorem free_second {x : ℕ × Bytes} :
    Triple (Owns base (x :: (a, b) :: l) os) (free (some a)) fun _ => Owns base (x :: l) os :=
  free_owns.pre fun _ ho => ho.perm (List.Perm.swap ..)

/-- `realloc` gives the contents a new block, or leaves them where they are. -/
theorem realloc_owns : Triple (Owns base ((a, b) :: l) os) (realloc a n) fun r h =>
    if os.headD true then ∃ a' new, r = some a' ∧ new.length = n ∧ Owns base ((a', resize b new) :: l) os.tail h
    else r = none ∧ Owns base ((a, b) :: l) os.tail h := by
  intro h ho
  unfold realloc
  rw [ho.held (a, b) List.mem_cons_self, ho.outcomes]
  split
  · exact ⟨_, _, rfl, h.next, h.newBytes n, rfl, newBytes_length h n, ho.remove.insert _ _⟩
  · have := ho.tail
    rw [ho.outcomes] at this
    exact ⟨_, _, rfl, rfl, this⟩

/-- A block that does not shrink keeps its contents. -/
theorem prefix_resize {new : Bytes} (hn : b.length ≤ new.length) : b <+: resize b new := by
  unfold resize
  rw [List.take_of_length_le hn]
  exact List.prefix_append _ _

theorem resize_length {new : Bytes} : (resize b new).length = new.length := by
  unfold resize
  rw [List.length_append, List.length_take, List.length_drop]
  omega

/-- A store inside of an owned block. -/
theorem store_owns (hle : off + bs.length ≤ b.length) :
    Triple (Owns base ((a, b) :: l) os) (store a off bs) fun _ => Owns base ((a, blit b off bs) :: l) os := by
  intro h ho
  refine ⟨(), _, ?_, ho.replace _⟩
  unfold store
  rw [ho.held (a, b) List.mem_cons_self, Option.bind_some, if_pos hle]

/-- A store over the whole of a new block. -/
theorem storeAt_owns (hlen : bs.length = b.length) :
    Triple (Owns base ((a, b) :: l) os) (storeAt (some a) bs) fun _ => Owns base ((a, bs) :: l) os := by
  have hb : blit b 0 bs = bs := by
    unfold blit
    rw [List.take_zero, List.nil_append, Nat.zero_add, List.drop_eq_nil_of_le hlen.ge, List.append_nil]
  have hstore : Triple (Owns base ((a, b) :: l) os) (store a 0 bs) fun _ => Owns base ((a, blit b 0 bs) :: l) os :=
    store_owns (by omega)
  rwa [hb] at hstore

/-- Bytes inside of an owned block. -/
theorem load_owns (hle : off + n ≤ b.length) :
    Triple (Owns base ((a, b) :: l) os) (load a off n) fun r h => r = slice b off n ∧ Owns base ((a, b) :: l) os h := by
  intro h ho
  refine ⟨slice b off n, h, ?_, rfl, ho⟩
  unfold load
  rw [ho.held (a, b) List.mem_cons_self, Option.bind_some, if_pos hle]

/-! ## Blocks that are filled from the front -/

/-- A block of `cap` bytes at `a` that starts with `p`; what stands behind is not known. -/
def Filled (base : ℕ → Option Bytes) (l : List (ℕ × Bytes)) (os : List Bool) (a : ℕ) (p : Bytes) (cap : ℕ) (h : Heap) : Prop :=
  ∃ b, p <+: b ∧ b.length = cap ∧ Owns base ((a, b) :: l) os h

variable {p : Bytes} {cap : ℕ}

/-- What has been stored fits into the block. -/
theorem Filled.le (hp : Filled base l os a p cap h) : p.length ≤ cap := by
  obtain ⟨b, hb, rfl, -⟩ := hp
  exact hb.length_le

/-- An allocated block starts with nothing. -/
theorem malloc_filled : Triple (Owns base l os) (malloc cap) fun r h =>
    if os.headD true then ∃ a, r = some a ∧ Filled base l os.tail a [] cap h
    else r = none ∧ Owns base l os.tail h := by
  refine malloc_owns.conseq (fun _ ho => ho) ?_
  intro r h hr
  split at hr
  · obtain ⟨a, b, rfl, hb, ho⟩ := hr
    rw [if_pos ‹_›]
    exact ⟨a, rfl, b, List.nil_prefix, hb, ho⟩
  · rw [if_neg ‹_›]
    exact hr

/-- **Bytes that are skipped are what stood there.** -/
theorem Filled.skip (hp : Filled base l os a p cap h) {k : ℕ} (hle : p.length + k ≤ cap) :
    ∃ s, s.length = k ∧ Filled base l os a (p ++ s) cap h := by
  obtain ⟨b, ⟨t, rfl⟩, hlen, ho⟩ := hp
  rw [List.length_append] at hlen
  refine ⟨t.take k, List.length_take_of_le (by omega), p ++ t, ?_, by rw [List.length_append]; exact hlen, ho⟩
  exact (List.prefix_append_right_inj p).2 (List.take_prefix k t)

/-- The block is freed, whatever stands in it. -/
theorem free_filled : Triple (Filled base l os a p cap) (free (some a)) fun _ => Owns base l os :=
  Triple.ex fun _ => Triple.assume fun _ => Triple.assume fun _ => free_owns

/-- A block that does not shrink keeps what has been stored in it. -/
theorem realloc_filled (hn : cap ≤ n) : Triple (Filled base l os a p cap) (realloc a n) fun r h =>
    if os.headD true then ∃ a', r = some a' ∧ Filled base l os.tail a' p n h
    else r = none ∧ Filled base l os.tail a p cap h := by
  refine Triple.ex fun b => Triple.assume fun hp => Triple.assume fun hb => ?_
  refine realloc_owns.conseq (fun _ ho => ho) ?_
  intro r h hr
  split at hr
  · obtain ⟨a', new, rfl, hnew, ho⟩ := hr
    rw [if_pos ‹_›]
    exact ⟨a', rfl, _, hp.trans (prefix_resize (by omega)), resize_length.trans hnew, ho⟩
  · rw [if_neg ‹_›]
    exact ⟨hr.1, b, hp, hb, hr.2⟩

/-- A store right behind what has been stored. -/
theorem store_filled (hle : p.length + bs.length ≤ cap) :
    Triple (Filled base l os a p cap) (store a p.length bs) fun _ => Filled base l os a (p ++ bs) cap := by
  refine Triple.ex fun b => Triple.assume fun hp => Triple.assume fun hb => ?_
  refine (store_owns (by omega)).conseq (fun _ ho => ho) ?_
  intro _ h ho
  obtain ⟨t, rfl⟩ := hp
  refine ⟨_, ?_, ?_, ho⟩
  · unfold blit
    rw [List.take_left]
    exact List.prefix_append _ _
  · rw [blit_length (by rw [List.length_append]; omega)]
    omega

/-- What has been stored is read back. -/
theorem load_filled : Triple (Filled base l os a p cap) (load a 0 p.length) fun r h => r = p ∧ Filled base l os a p cap h := by
  refine Triple.ex fun b => Triple.assume fun hp => Triple.assume fun hb => ?_
  have hle := hp.length_le
  refine (load_owns (by omega)).conseq (fun _ ho => ho) ?_
  rintro r h ⟨rfl, ho⟩
  exact ⟨(List.prefix_iff_eq_take.1 hp).symm, b, hp, hb, ho⟩

/-- The string that starts an owned block. -/
theorem loadCstr_owns {s : CStr} {k : ℕ} (hs : readCstr b = some (s, k)) :
    Triple (Owns base ((a, b) :: l) os) (loadCstr a) fun r h => r = s ∧ Owns base ((a, b) :: l) os h := by
  intro h ho
  refine ⟨s, h, ?_, rfl, ho⟩
  unfold loadCstr
  rw [ho.held (a, b) List.mem_cons_self, Option.bind_some, hs]
  rfl

end CHeap

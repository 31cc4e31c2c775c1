import Mathlib.Control.Monad.Basic
import Pqwire.Lib.Access

/-!
# Programs that fill a buffer

A C function that encodes into a buffer stores pieces of bytes, most of them at a cursor, and
may return early. `Filler` is such a program: what it returns, `none` for an early return, and
every store that it makes up to there. Nothing stops a store at the end of the buffer.

`Fills size p m v q` says what `m` does to a buffer that starts with `p`: it returns `v`, no
byte that it stores has an index from `size` on, and the buffer then starts with `q`. It
follows the structure of the program (`Fills.pure`, `Fills.bind`, `Fills.store`).
-/

namespace CMem

open ByteMem Traced

/-- The bytes stored from index `off` on. -/
structure Store where
  off : ℕ
  bytes : Bytes
  deriving DecidableEq

/-- Every byte that is stored has an index below `size`. -/
def Store.Below (size : ℕ) (w : Store) : Prop := ∀ i, w.off ≤ i → i < w.off + w.bytes.length → i < size

/-- What a buffer holds after some stores. -/
def afterStores (buf : Bytes) (log : List Store) : Bytes := log.foldl (fun mem w => blit mem w.off w.bytes) buf

/-- Stores in two parts. -/
theorem afterStores_append (buf : Bytes) (l₁ l₂ : List Store) :
    afterStores buf (l₁ ++ l₂) = afterStores (afterStores buf l₁) l₂ := List.foldl_append

/-- A program that stores into one buffer. -/
abbrev Filler := OptionT (Traced Store)

/-- The bytes go to `buf + off`. -/
def store (off : ℕ) (bs : Bytes) : Filler Unit := OptionT.mk ⟨some (), [⟨off, bs⟩]⟩

/-- What `m` does to a buffer of at least `size` bytes that starts with `p`. -/
structure Fills {α : Type} (size : ℕ) (p : Bytes) (m : Filler α) (v : Option α) (q : Bytes) : Prop where
  val : m.run.val = v
  below : ∀ w ∈ m.run.log, w.Below size
  starts : ∀ buf : Bytes, size ≤ buf.length → p <+: buf →
    (afterStores buf m.run.log).length = buf.length ∧ q <+: afterStores buf m.run.log

namespace Fills

variable {α β : Type} {size : ℕ} {p q r : Bytes} {m : Filler α} {f : α → Filler β} {v : α} {w : Option β}

theorem pure (v : α) : Fills size p (Pure.pure v) (some v) p :=
  ⟨rfl, fun _ h => absurd h List.not_mem_nil, fun _ _ h => ⟨rfl, h⟩⟩

/-- Giving up stores nothing. -/
theorem failure : Fills size p (failure : Filler α) none p :=
  ⟨rfl, fun _ h => absurd h List.not_mem_nil, fun _ _ h => ⟨rfl, h⟩⟩

/-- What `m >>= f` is when `m` does not return early. -/
theorem run_bind (h : m.run.val = some v) : (m >>= f).run = ⟨(f v).run.val, m.run.log ++ (f v).run.log⟩ := by
  obtain ⟨val, log⟩ := m
  cases h
  rfl

/-- What `m >>= f` is when `m` returns early. -/
theorem run_bind_none (h : m.run.val = none) : (m >>= f).run = ⟨none, m.run.log⟩ := by
  obtain ⟨val, log⟩ := m
  cases h
  show (⟨none, log ++ []⟩ : Traced Store (Option β)) = ⟨none, log⟩
  rw [List.append_nil]

/-- A store made before a program goes on, or returns early, is among its stores. -/
theorem mem_bind {w : Store} (h : w ∈ m.run.log) : w ∈ (m >>= f).run.log := by
  rcases hv : m.run.val with _ | v
  · rw [run_bind_none hv]
    exact h
  · rw [run_bind hv]
    exact List.mem_append_left _ h

theorem mem_store_bind {off : ℕ} {bs : Bytes} {g : Unit → Filler β} {w : Store} (h : w ∈ (g ()).run.log) :
    w ∈ (CMem.store off bs >>= g).run.log := by
  rw [run_bind (m := CMem.store off bs) (v := ()) rfl]
  exact List.mem_append_right _ h

/-- The rule for sequencing. -/
theorem bind (hm : Fills size p m (some v) q) (hf : Fills size q (f v) w r) : Fills size p (m >>= f) w r := by
  have hrun := run_bind (f := f) hm.val
  refine ⟨by rw [hrun]; exact hf.val, ?_, ?_⟩
  · intro s hs
    rw [hrun] at hs
    rcases List.mem_append.1 hs with h | h
    · exact hm.below s h
    · exact hf.below s h
  · intro buf hl hp
    obtain ⟨h1, h2⟩ := hm.starts buf hl hp
    obtain ⟨h3, h4⟩ := hf.starts _ (by rw [h1]; exact hl) h2
    rw [hrun, afterStores_append]
    exact ⟨h3.trans h1, h4⟩

theorem bind_none (hm : Fills size p m none q) : Fills size p (m >>= f) none q := by
  have hrun := run_bind_none (f := f) hm.val
  exact ⟨by rw [hrun], by rw [hrun]; exact hm.below, by rw [hrun]; exact hm.starts⟩

/-- A store at the cursor, which is where the bytes known so far end. -/
theorem store {off : ℕ} {bs : Bytes} (ho : off = p.length) (h : p.length + bs.length ≤ size) :
    Fills size p (store off bs) (some ()) (p ++ bs) := by
  subst ho
  refine ⟨rfl, ?_, ?_⟩
  · intro w hw i _ hi
    rw [List.mem_singleton.1 hw] at hi
    exact lt_of_lt_of_le hi h
  · intro buf hl hp
    have hple : p.length ≤ buf.length := hp.length_le
    refine ⟨(blit_length hple bs).trans (max_eq_left (h.trans hl)), ?_⟩
    have htake := blit_take hple bs
    rw [← List.prefix_iff_eq_take.1 hp] at htake
    exact ⟨_, by rw [← htake]; exact List.take_append_drop _ _⟩

/-- A store over bytes that are known already, such as the room left for a header. -/
theorem store_over (pre hole : Bytes) {bs : Bytes} {off : ℕ} (ho : off = pre.length) (he : bs.length = hole.length)
    (h : (pre ++ hole).length ≤ size) :
    Fills size (pre ++ hole ++ p) (CMem.store off bs) (some ()) (pre ++ bs ++ p) := by
  subst ho
  rw [List.length_append] at h
  refine ⟨rfl, ?_, ?_⟩
  · intro w hw i _ hi
    rw [List.mem_singleton.1 hw] at hi
    simp only at hi
    omega
  · intro buf hl hp
    obtain ⟨t, rfl⟩ := hp
    have hblit : blit (pre ++ hole ++ p ++ t) pre.length bs = pre ++ bs ++ p ++ t := by
      have hdrop : (pre ++ hole ++ p ++ t).drop (pre.length + bs.length) = p ++ t := by
        rw [he, ← List.length_append, List.append_assoc (pre ++ hole), List.drop_left]
      unfold blit
      rw [hdrop, List.append_assoc pre, List.append_assoc pre, List.take_left, List.append_assoc _ p]
    refine ⟨?_, ?_⟩
    · show (blit (pre ++ hole ++ p ++ t) pre.length bs).length = _
      rw [hblit]
      simp only [List.length_append, he]
    · show pre ++ bs ++ p <+: blit (pre ++ hole ++ p ++ t) pre.length bs
      rw [hblit]
      exact List.prefix_append _ _

/-- The first bytes of the buffer, as many as were stored. -/
theorem take {buf : Bytes} (h : Fills size p m (some v) q) (hl : size ≤ buf.length) (hp : p <+: buf) :
    (afterStores buf m.run.log).take q.length = q := (List.prefix_iff_eq_take.1 (h.starts buf hl hp).2).symm

end Fills

end CMem

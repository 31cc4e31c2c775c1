import Pqwire.Lib.Heap
import Pqwire.Spec.Rewrite

/-!
# The helpers that allocate, on a heap

The functions of `pqwire.c` that call `malloc`, `calloc`, `realloc` and `free`, with the blocks
they allocate, free and store to: the parameter slots and the identity injection, the message
builders that work in a block of their own, and the buffers of a context.

Data that the caller hands in (names, values, the buffer that a parsed Bind points into) is the
caller's memory; reading past its end is undefined.
-/

namespace Pqwire

open ByteMem CHeap

/-! ## Parameter slots -/

/-- `pqwire_param_t` with its pointer. -/
structure Slot where
  length : Int32
  data : Option ℕ
  owned : Bool
  format : Int16
  deriving DecidableEq

namespace Slot

/-- What `pqwire_param_clear` leaves. -/
def cleared : Slot := ⟨-1, none, false, 0⟩

/-- `pqwire_param_clear`. -/
def paramClear (s : Slot) : HeapM Slot := do
  if s.owned ∧ s.data.isSome then free s.data
  return cleared

/-- `pqwire_param_set_text`. -/
def paramSetText (s : Slot) (text : Option CStr) : HeapM (Slot × ℤ) :=
  match text with
  | none => return (s, -1)
  | some text => do
    let s ← s.paramClear
    let d ← malloc text.length
    if d = none ∧ text.length > 0 then return (s, -1)
    if text.length > 0 then storeAt d text.bytes
    -- `malloc (0)` may return a pointer, and it is kept
    return (⟨toI32 text.length, d, true, 0⟩, 0)

/-- The first `len` bytes of the caller's array; a null pointer has none. -/
def bytesOf (data : Option Bytes) (len : ℕ) : HeapM Bytes :=
  if len ≤ (data.getD []).length then return (data.getD []).take len else failure

/-- `pqwire_param_set_binary`. -/
def paramSetBinary (s : Slot) (data : Option Bytes) (len : ℕ) : HeapM (Slot × ℤ) := do
  let s ← s.paramClear
  if len > 0 ∧ data = none then return (s, -1)
  if len = 0 then return (⟨toI32 len, none, true, 1⟩, 0)
  let d ← malloc len
  if d = none then return (s, -1)
  let bs ← bytesOf data len
  storeAt d bs
  return (⟨toI32 len, d, true, 1⟩, 0)

/-- `pqwire_param_set_null`. -/
def paramSetNull (s : Slot) : HeapM Slot := do
  let s ← s.paramClear
  return { s with length := -1, format := 0 }

/-- The block that the slot has to free. -/
def block (s : Slot) : Option ℕ := if s.owned then s.data else none

/-- What the slot denotes. -/
def toParam (h : Heap) (s : Slot) : Param := ⟨s.length, s.data.bind h.blocks, s.owned, s.format⟩

end Slot

/-- Two parameters that nobody can tell apart: a value without bytes may have a pointer or not. -/
structure Param.Same (p q : Param) : Prop where
  length : p.length = q.length
  owned : p.owned = q.owned
  format : p.format = q.format
  data : p.data.getD [] = q.data.getD []

/-- The memory that the pointer of a view points to. -/
def BindParamView.memory (mem : Bytes) (v : BindParamView) : Option Bytes := v.data.map fun p => mem.drop p

/-- A text parameter goes through a copy with a terminator, which is freed on both ways out. -/
def injectText (mem : Bytes) (v : BindParamView) (s : Slot) : HeapM (Slot × ℤ) := do
  let len := v.length.toInt.toNat
  match ← malloc (len + 1) with
  | none => return (s, -1)
  | some tmp =>
    let bs ← Slot.bytesOf (v.memory mem) len
    store tmp 0 bs
    store tmp len [0]
    let text ← loadCstr tmp
    let r ← s.paramSetText (some text)
    free (some tmp)
    return (r.1, if r.2 ≠ 0 then -1 else 0)

/-- A round of the loop of `pqwire_bind_inject_identity`, for parameter `i` and its slot. -/
def injectSlot (mem : Bytes) (b : BindMsg) (slot : ℕ) (identity : CStr) (asBinary : Bool) (i : ℕ) (s : Slot) :
    HeapM (Slot × ℤ) := do
  let v := b.param i
  let s ← s.paramClear
  if i = slot then
    if asBinary then s.paramSetBinary (some identity.bytes) identity.length else s.paramSetText (some identity)
  else if v.length.toInt < 0 then do
    let s ← s.paramSetNull
    return ({ s with format := v.format }, 0)
  else if v.format = 1 then s.paramSetBinary (v.memory mem) v.length.toInt.toNat
  else injectText mem v s

/-- The loop of `pqwire_bind_inject_identity`, for `n` rounds from `i` on. -/
def injectSlots (mem : Bytes) (b : BindMsg) (slot : ℕ) (identity : CStr) (asBinary : Bool) :
    ℕ → ℕ → List Slot → HeapM (List Slot × ℤ)
  | 0, _, slots => return (slots, 0)
  | n + 1, i, slots => do
    let r ← injectSlot mem b slot identity asBinary i (slots.getD i Slot.cleared)
    -- the slots in front keep their blocks when a round fails
    if r.2 ≠ 0 then return (slots.set i r.1, -1)
    injectSlots mem b slot identity asBinary n (i + 1) (slots.set i r.1)

/-- `pqwire_bind_inject_identity` into `out_params`. -/
def injectIdentity (mem : Bytes) (b : BindMsg) (slots : List Slot) (slot : UInt16) (identity : CStr) (asBinary : Bool) :
    HeapM (List Slot × ℤ) :=
  if slot.toNat ≥ b.nParams ∧ b.nParams > 0 then return (slots, -1)
  else if b.nParams = 0 then return (slots, -1)
  else injectSlots mem b slot.toNat identity asBinary b.nParams 0 slots

/-- A call on an array of slots. -/
inductive SlotCall where
  | clear (i : ℕ)
  | setText (i : ℕ) (text : Option CStr)
  | setBinary (i : ℕ) (data : Option Bytes) (len : ℕ)
  | setNull (i : ℕ)
  | inject (mem : Bytes) (b : BindMsg) (slot : UInt16) (identity : CStr) (asBinary : Bool)

namespace SlotCall

/-- A call on slot `i`. -/
def onSlot (slots : List Slot) (i : ℕ) (f : Slot → HeapM Slot) : HeapM (List Slot) := do
  let s ← f (slots.getD i Slot.cleared)
  return slots.set i s

def run (slots : List Slot) : SlotCall → HeapM (List Slot)
  | .clear i => onSlot slots i Slot.paramClear
  | .setText i text => onSlot slots i fun s => do return (← s.paramSetText text).1
  | .setBinary i data len => onSlot slots i fun s => do return (← s.paramSetBinary data len).1
  | .setNull i => onSlot slots i Slot.paramSetNull
  | .inject mem b slot identity asBinary => do return (← injectIdentity mem b slots slot identity asBinary).1

def runAll : List SlotCall → List Slot → HeapM (List Slot)
  | [], slots => return slots
  | call :: calls, slots => do
    let slots ← call.run slots
    runAll calls slots

/-- The slots are there and the caller's arrays are as long as it says. -/
def Valid (n : ℕ) : SlotCall → Prop
  | .clear i => i < n
  | .setText i _ => i < n
  | .setBinary i data len => i < n ∧ ∀ d ∈ data, len ≤ d.length
  | .setNull i => i < n
  | .inject mem b _ _ _ => b.nParams ≤ n ∧
      ∀ i < b.nParams, (b.param i).length.toInt.toNat ≤ (((b.param i).memory mem).getD []).length

/-- Clear every slot. -/
def clearAll : List Slot → HeapM (List Slot)
  | [] => return []
  | s :: slots => do
    let s ← s.paramClear
    let slots ← clearAll slots
    return s :: slots

end SlotCall

end Pqwire

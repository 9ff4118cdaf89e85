import Pepp.Sim.Memory

/-!
# Buffers, buffer chains and their manager

A buffer is a 64 KiB slab with a high-water mark, named by a 16-bit id made of
an index and a generation. The manager hands indices out first-in first-out and
bumps the generation when a buffer is freed; a chain is a run of buffers that
appends roll over.
-/

namespace Pepp.Bts

open Span

/-- Bytes of one buffer. -/
def SIZE : Nat := 0x10000

/-- The largest index a buffer id can hold. -/
def MAX_LIVE_BUFFERS : Nat := 4095

/-- `(generation << 12) | index`. The id zero names no buffer. -/
abbrev ID := U16

namespace ID

def indexOf (id : ID) : Nat := id.toNat % 4096

def generationOf (id : ID) : Nat := id.toNat / 4096

def makeId (index generation : Nat) : ID := BitVec.ofNat 16 (generation % 16 * 4096 + index % 4096)

variable {index generation : Nat}

@[simp] theorem indexOf_makeId (h : index < 4096) : indexOf (makeId index generation) = index := by
  simp [indexOf, makeId]
  omega

@[simp] theorem generationOf_makeId (h : generation < 16) : generationOf (makeId index generation) = generation := by
  simp [generationOf, makeId]
  omega

theorem makeId_eq {id : ID} (hi : indexOf id = index) (hg : generationOf id = generation) :
    makeId index generation = id := by
  apply BitVec.eq_of_toNat_eq
  have := id.isLt
  simp only [indexOf, generationOf] at hi hg
  simp [makeId]
  omega

end ID

structure Location where
  id : ID
  offset : U16
  deriving DecidableEq, Repr

/-- A slab: everything below `used` has been handed out. -/
structure Buffer where
  used : Nat
  bytes : Nat → U8

namespace Buffer

def remaining (self : Buffer) : Nat := SIZE - self.used

def canFit (self : Buffer) (request : Nat) : Bool := request ≤ self.remaining

/-- `allocate_uninitialized`: the bytes keep what they held. -/
def allocateUninitialized (self : Buffer) (size : Nat) : Except Exception Buffer :=
  if self.remaining < size then .error (.runtimeError "Page overflow") else .ok { self with used := self.used + size }

/-- `append` without alignment or padding. -/
def append (self : Buffer) (data : List U8) : Except Exception Buffer :=
  if self.remaining < data.length then .error (.runtimeError "Page overflow")
  else .ok { used := self.used + data.length, bytes := overwrite self.bytes self.used data }

end Buffer

/-- One entry per index ever handed out. The storage outlives a free. -/
structure Slot where
  live : Bool
  generation : Nat
  storage : Buffer

/-- `size` is the length of the slot table, of which entry zero is never handed out, and `free` the
free list from its head to its tail. -/
structure BufferManager where
  size : Nat
  slots : Nat → Slot
  free : List Nat

namespace BufferManager

variable (self : BufferManager)

def empty : BufferManager := ⟨0, fun _ => ⟨false, 0, ⟨0, fun _ => 0⟩⟩, []⟩

/-- The buffer an id names: none when the index is out of range, freed or recycled since. -/
def find (id : ID) : Option Buffer :=
  if id.indexOf = 0 ∨ self.size ≤ id.indexOf then none
  else
    let slot := self.slots id.indexOf
    if !slot.live ∨ slot.generation ≠ id.generationOf then none else some slot.storage

/-- The storage behind a `Buffer *`, alive or not. -/
def deref (id : ID) : Buffer := (self.slots id.indexOf).storage

def setSlot (index : Nat) (slot : Slot) : BufferManager :=
  { self with slots := fun i => if i = index then slot else self.slots i }

/-- Write through a live id. -/
def setBuffer (id : ID) (buffer : Buffer) : BufferManager :=
  self.setSlot id.indexOf { self.slots id.indexOf with storage := buffer }

def allocBuffer : Except Exception (ID × BufferManager) :=
  match self.free with
  | index :: free =>
    let slot := self.slots index
    .ok (ID.makeId index slot.generation, { self.setSlot index { slot with live := true } with free := free })
  | [] =>
    if self.size > MAX_LIVE_BUFFERS then
      .error (.runtimeError "BufferManager: out of buffer indices; the ring is retaining more trace than the id space allows")
    else
      let index := if self.size = 0 then 1 else self.size
      .ok (ID.makeId index 0,
        { self.setSlot index ⟨true, 0, ⟨0, fun _ => 0⟩⟩ with size := index + 1 })

/-- Frees through a stale id, and double frees, are ignored. -/
def freeBuffer (id : ID) : BufferManager :=
  if id.indexOf = 0 ∨ self.size ≤ id.indexOf then self
  else
    let slot := self.slots id.indexOf
    if !slot.live ∨ slot.generation ≠ id.generationOf then self
    else
      { self.setSlot id.indexOf
          { live := false, generation := (slot.generation + 1) % 16, storage := { slot.storage with used := 0 } } with
        free := self.free ++ [id.indexOf] }

end BufferManager

/-- Buffers in order of allocation, with the maps that link neighbours. -/
structure BufferChain where
  bufs : List ID
  succ : ID → ID
  pred : ID → ID

namespace BufferChain

def empty : BufferChain := ⟨[], fun _ => 0, fun _ => 0⟩

/-- Push a buffer at the end and link it with the one that was last. -/
def link (self : BufferChain) (id : ID) : BufferChain :=
  match self.bufs.getLast? with
  | some last =>
    { bufs := self.bufs ++ [id]
      succ := fun i => if i = last then id else self.succ i
      pred := fun i => if i = id then last else self.pred i }
  | none => { self with bufs := [id] }

end BufferChain

/-- Operations on one chain of a manager. What was allocated before a throw stays allocated. -/
abbrev ChainM := EStateM Exception (BufferManager × BufferChain)

namespace BufferChain

def appendBuffer : ChainM Unit := do
  let s ← get
  match s.1.allocBuffer with
  | .ok (id, mgr) => set (mgr, s.2.link id)
  | .error e => throw e

/-- The last buffer, allocated first if the chain is empty. -/
def tail : ChainM ID := do
  let s ← get
  if s.2.bufs.isEmpty then appendBuffer
  let s ← get
  return s.2.bufs.getLast?.getD 0

def ensureCapacity (bytes : Nat) : ChainM Unit := do
  let buf ← tail
  let s ← get
  if !(s.1.deref buf).canFit bytes then appendBuffer

/-- The buffer the next `size` bytes go to. -/
def tailFor (size : Nat) : ChainM ID := do
  ensureCapacity size
  tail

/-- Room for `size` bytes in one buffer, left as they are. -/
def reserve (size : Nat) : ChainM Location := do
  let buf ← tailFor size
  let s ← get
  match (s.1.deref buf).allocateUninitialized size with
  | .ok buffer =>
    set (s.1.setBuffer buf buffer, s.2)
    return ⟨buf, BitVec.ofNat 16 (s.1.deref buf).used⟩
  | .error e => throw e

def append (data : List U8) : ChainM Location := do
  let buf ← tailFor data.length
  let s ← get
  match (s.1.deref buf).append data with
  | .ok buffer =>
    set (s.1.setBuffer buf buffer, s.2)
    return ⟨buf, BitVec.ofNat 16 (s.1.deref buf).used⟩
  | .error e => throw e

/-- Write through the span a reservation handed out. -/
def fill (loc : Location) (data : List U8) : ChainM Unit :=
  modify fun s =>
    let buffer := s.1.deref loc.id
    (s.1.setBuffer loc.id { buffer with bytes := overwrite buffer.bytes loc.offset.toNat data }, s.2)

/-- Return every buffer to the manager. -/
def clear : ChainM Unit := modify fun s => (s.2.bufs.foldl BufferManager.freeBuffer s.1, empty)

end BufferChain

end Pepp.Bts

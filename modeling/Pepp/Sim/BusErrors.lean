import Pepp.Ds.PagedPool
import Pepp.Lib.Outcome
import Pepp.Sim.SimpleBus

/-!
# Errors of bus accesses

A bus over memories, with what an access that throws leaves behind. The bus
checks its span before the first byte, in 32 bits. Whether the bytes are mapped
it only finds out part by part, where a part is as long as the device of its
first byte is large, after the parts in front have been copied.
-/

namespace Pepp

open Span AddressTranslationMap

/-- The check in front of every access, in the arithmetic of addresses. -/
def AddressSpan.inBounds (self : AddressSpan) (address : Address) (len : Nat) : Prop :=
  self.lower ≤ address ∧ address + (BitVec.ofNat 32 len - 1) ≤ self.upper

instance (self : AddressSpan) (address : Address) (len : Nat) : Decidable (self.inBounds address len) :=
  inferInstanceAs (Decidable (_ ∧ _))

/-- How an access ends that does not return: with an error that is thrown, a failed assertion, outside of the bytes
of a memory, or never. -/
inductive Fault where
  | oobAccess (address : Address)
  | unmapped (address : Address)
  | assertion (e : Exception)
  | outside
  | endless
  deriving DecidableEq, Repr

def Fault.Thrown : Fault → Prop
  | oobAccess _ | unmapped _ => True
  | assertion _ | outside | endless => False

/-- The memories, which are not traced. -/
inductive RamDevice where
  | dense (ram : Dense)
  | sparse (span : AddressSpan) (pool : Bts.PagedPool)

namespace RamDevice

def span : RamDevice → AddressSpan
  | dense ram => ram.span
  | sparse span _ => span

/-- What is read replaces the bytes of `dest`. -/
def read (self : RamDevice) (address : Address) (dest : List U8) : Except Fault (RamDevice × List U8) :=
  if self.span.inBounds address dest.length then
    match self with
    | dense ram =>
      if ram.span.sizeInclusive < ram.offset address + dest.length then .error .outside
      else .ok (self, ram.bytes address dest.length)
    | sparse span pool =>
      match pool.read ((address - span.lower).setWidth 64) dest.length with
      | some bytes => .ok (self, bytes)
      | none => .error .endless
  else .error (.oobAccess address)

def write (self : RamDevice) (address : Address) (src : List U8) : Except Fault (RamDevice × List U8) :=
  if self.span.inBounds address src.length then
    match self with
    | dense ram =>
      if ram.span.sizeInclusive < ram.offset address + src.length then .error .outside
      else .ok (dense { ram with data := overwrite ram.data (ram.offset address) src }, src)
    | sparse span pool =>
      match pool.write ((address - span.lower).setWidth 64) src with
      | some pool => .ok (sparse span pool, src)
      | none => .error .endless
  else .error (.oobAccess address)

/-- The byte that a memory has at an offset from the start of its span. -/
def byte : RamDevice → U64 → U8
  | dense ram, x => ram.data x.toNat
  | sparse _ pool, x => pool.cell x

end RamDevice

structure RamBus where
  span : AddressSpan
  addrs : List (Node U8)
  devices : U8 → RamDevice

namespace RamBus

def initialized (span : AddressSpan) (mappings : List BusMapping) (devices : U8 → RamDevice) : RamBus :=
  ⟨span, mappings.foldl (fun addrs m => insertOrOverwrite addrs m.node) [], devices⟩

def setDevice (self : RamBus) (id : U8) (device : RamDevice) : RamBus :=
  { self with devices := Function.update self.devices id device }

/-- The device of the part of an access that begins at `address`, the address there, and the length of the part. -/
def part (self : RamBus) (address : Address) (length : Nat) : Except Fault (U8 × Address × Nat) :=
  match regionAt self.addrs address with
  | .error e => .error (.assertion e)
  | .ok none => .error (.unmapped address)
  | .ok (some region) =>
    match AddressSpan.offsetMap address region.from_ region.to_ with
    | .error e => .error (.assertion e)
    | .ok target => .ok (region.id, target, min length (self.devices region.id).span.sizeInclusive)

/-- A bus and the buffer of a caller. -/
abbrev BusM := EStateM Fault (RamBus × List U8)

/-- A span of the buffer is replaced by another one of its length. -/
def patch (buffer : List U8) (offset : Nat) (piece : List U8) : List U8 :=
  buffer.take offset ++ piece ++ buffer.drop (offset + piece.length)

section Access

variable (step : RamDevice → Address → List U8 → Except Fault (RamDevice × List U8)) (address : Address)

/-- One turn of the loops of `read` and `write`, which gives the length of the part. -/
def turn (offset : Address) (length : Nat) : BusM Nat := fun (self, buffer) =>
  match self.part (address + offset) length with
  | .error f => .error f (self, buffer)
  | .ok (id, target, usable) =>
    if usable = 0 then .error .endless (self, buffer)
    else
      match step (self.devices id) target ((buffer.drop offset.toNat).take usable) with
      | .error f => .error f (self, buffer)
      | .ok (device, piece) => .ok usable (self.setDevice id device, patch buffer offset.toNat piece)

def accessLoop : Nat → Address → Nat → BusM Unit
  | 0, _, _ => pure ()
  | fuel + 1, offset, length =>
    if length = 0 then pure ()
    else do
      let usable ← turn step address offset length
      accessLoop fuel (offset + BitVec.ofNat 32 usable) (length - usable)

/-- An access of the whole buffer. -/
def access : BusM Unit := do
  let (self, buffer) ← get
  if self.span.inBounds address buffer.length then accessLoop step address buffer.length 0 buffer.length
  else throw (.oobAccess address)

end Access

/-- `read` into the buffer -/
def read (address : Address) : BusM Unit := access RamDevice.read address

/-- `write` from the buffer -/
def write (address : Address) : BusM Unit := access RamDevice.write address

end RamBus

end Pepp

/-! ## What an access should do -/

namespace Pepp

open Span AddressTranslationMap Outcome

namespace RamDevice

/-- A memory has all bytes of a part that passes its check: a vector those of its span, a pool fewer than 2^32. -/
def Takes (self : RamDevice) (address : Address) (n : Nat) : Prop :=
  self.span.inBounds address n ∧
    match self with
    | dense ram => ram.offset address + n ≤ ram.span.sizeInclusive
    | sparse _ _ => n < 2 ^ 32

end RamDevice

namespace RamBus

/-- Every byte of the access is in the span and in the source of a mapping, without wraparound. -/
def Covered (span : AddressSpan) (mappings : List BusMapping) (address : Address) (len : Nat) : Prop :=
  ∀ i < len, (span.lower.toNat ≤ address.toNat + i ∧ address.toNat + i ≤ span.upper.toNat) ∧
    ∃ m ∈ mappings, m.source.lower.toNat ≤ address.toNat + i ∧ address.toNat + i ≤ m.source.upper.toNat

/-- No byte of a device is another one. -/
def Unchanged (self other : RamBus) : Prop := ∀ id x, (other.devices id).byte x = (self.devices id).byte x

/-- An access succeeds if all of its bytes are covered, or throws and leaves the devices unchanged. -/
def Atomic (covered : Prop) (access : BusM Unit) (s : RamBus × List U8) : Prop :=
  (∃ s', access s = .ok () s' ∧ covered) ∨ ∃ f s', access s = .error f s' ∧ f.Thrown ∧ Unchanged s.1 s'.1

variable (self : RamBus)

/-- The device of a part has its bytes. -/
def PartServed (address : Address) (length usable : Nat) : Prop :=
  ∃ id target, self.part address length = .ok (id, target, usable) ∧ 0 < usable ∧
    (self.devices id).Takes target usable

/-- The first byte of a part is not mapped, or the device throws. -/
def PartRefused (address : Address) (length : Nat) : Prop :=
  (∃ f, self.part address length = .error f ∧ f.Thrown) ∨
    ∃ id target usable, self.part address length = .ok (id, target, usable) ∧ 0 < usable ∧
      ¬(self.devices id).span.inBounds target usable

/-- All parts of an access are served. -/
def Served (address : Address) : Nat → Address → Nat → Prop
  | 0, _, _ => True
  | fuel + 1, offset, length => length = 0 ∨ ∃ usable, self.PartServed (address + offset) length usable ∧
    Served address fuel (offset + BitVec.ofNat 32 usable) (length - usable)

/-- The access is refused before its first byte is copied, or it is covered and none of its parts is refused. -/
def Sound (mappings : List BusMapping) (address : Address) (len : Nat) : Prop :=
  len = 0 ∨ ¬self.span.inBounds address len ∨ self.PartRefused address len ∨
    (Covered self.span mappings address len ∧ self.Served address len 0 len)

end RamBus

/-! ## Devices -/

namespace RamDevice

variable {device device' device'' : RamDevice}

/-- An operation leaves the span and the kind of a memory. -/
structure SameShape (device device' : RamDevice) : Prop where
  span : device'.span = device.span
  takes : ∀ address n, device'.Takes address n ↔ device.Takes address n

theorem SameShape.refl (device : RamDevice) : SameShape device device := ⟨rfl, fun _ _ => Iff.rfl⟩

/-- How the operations of the memories end. -/
structure Guarded (step : RamDevice → Address → List U8 → Except Fault (RamDevice × List U8)) : Prop where
  refused : ∀ device address piece, ¬device.span.inBounds address piece.length →
    step device address piece = .error (.oobAccess address)
  taken : ∀ device address piece, device.Takes address piece.length → ∃ device' piece',
    step device address piece = .ok (device', piece') ∧ SameShape device device' ∧ piece'.length = piece.length
  undefined : ∀ device address piece, device.span.inBounds address piece.length →
    ¬device.Takes address piece.length → ∃ f, step device address piece = .error f ∧ ¬f.Thrown

theorem guarded_read : Guarded read := by
  refine ⟨fun device address piece h => ?_, fun device address piece h => ?_, fun device address piece h hnot => ?_⟩
  · cases device <;> exact if_neg h
  · cases device with
    | dense ram =>
      have hle : ram.offset address + piece.length ≤ ram.span.sizeInclusive := h.2
      rw [read, if_pos h.1, if_neg (Nat.not_lt.mpr hle)]
      exact ⟨_, _, rfl, .refl _, length_slice _ _ _⟩
    | sparse span pool =>
      rw [read, if_pos h.1, Bts.PagedPool.read_eq _ h.2]
      exact ⟨_, _, rfl, .refl _, by rw [List.length_map, List.length_range]⟩
  · cases device with
    | dense ram =>
      have hlt : ram.span.sizeInclusive < ram.offset address + piece.length := Nat.not_le.mp fun hle => hnot ⟨h, hle⟩
      rw [read, if_pos h, if_pos hlt]
      exact ⟨_, rfl, id⟩
    | sparse span pool =>
      have hle : 2 ^ 32 ≤ piece.length := Nat.not_lt.mp fun hlt => hnot ⟨h, hlt⟩
      rw [read, if_pos h, Bts.PagedPool.read, Bts.PagedPool.readLoop_none _ _ _ hle]
      exact ⟨_, rfl, id⟩

theorem guarded_write : Guarded write := by
  refine ⟨fun device address piece h => ?_, fun device address piece h => ?_, fun device address piece h hnot => ?_⟩
  · cases device <;> exact if_neg h
  · cases device with
    | dense ram =>
      have hle : ram.offset address + piece.length ≤ ram.span.sizeInclusive := h.2
      rw [write, if_pos h.1, if_neg (Nat.not_lt.mpr hle)]
      exact ⟨_, _, rfl, ⟨rfl, fun _ _ => Iff.rfl⟩, rfl⟩
    | sparse span pool =>
      have hlt : piece.length < 2 ^ 32 := h.2
      obtain ⟨pool', hpool, -⟩ := pool.write_spec ((address - span.lower).setWidth 64) hlt
      rw [write, if_pos h.1, hpool]
      exact ⟨_, _, rfl, ⟨rfl, fun _ _ => Iff.rfl⟩, rfl⟩
  · cases device with
    | dense ram =>
      have hlt : ram.span.sizeInclusive < ram.offset address + piece.length := Nat.not_le.mp fun hle => hnot ⟨h, hle⟩
      rw [write, if_pos h, if_pos hlt]
      exact ⟨_, rfl, id⟩
    | sparse span pool =>
      have hle : 2 ^ 32 ≤ piece.length := Nat.not_lt.mp fun hlt => hnot ⟨h, hlt⟩
      rw [write, if_pos h, Bts.PagedPool.write, Bts.PagedPool.writeLoop_none _ _ _ _ hle]
      exact ⟨_, rfl, id⟩

end RamDevice

/-! ## Turns -/

namespace RamBus

/-- Accesses leave the bus as it is but for the bytes of the devices. -/
structure SameLayout (bus bus' : RamBus) : Prop where
  span : bus'.span = bus.span
  addrs : bus'.addrs = bus.addrs
  devices : ∀ id, RamDevice.SameShape (bus.devices id) (bus'.devices id)

variable {bus bus' bus'' : RamBus} {address offset : Address} {length usable : Nat} {buffer : List U8}

variable {id : U8} {fuel : Nat} {target : Address} {s' : RamBus × List U8}

theorem SameLayout.part_eq (h : SameLayout bus bus') (address : Address) (length : Nat) :
    bus'.part address length = bus.part address length := by
  rw [part, part, h.addrs]
  cases regionAt bus.addrs address with
  | error e => rfl
  | ok region =>
    cases region with
    | none => rfl
    | some region =>
      dsimp only
      rw [(h.devices region.id).span]

theorem SameLayout.partServed (h : SameLayout bus bus') :
    bus'.PartServed address length usable ↔ bus.PartServed address length usable := by
  rw [PartServed, PartServed, h.part_eq]
  refine exists_congr fun id => exists_congr fun target => and_congr_right fun _ => and_congr_right fun _ => ?_
  exact (h.devices id).takes target usable

theorem SameLayout.served (h : SameLayout bus bus') :
    bus'.Served address fuel offset length ↔ bus.Served address fuel offset length := by
  induction fuel generalizing offset length with
  | zero => exact Iff.rfl
  | succ fuel ih =>
    rw [Served, Served]
    refine or_congr_right (exists_congr fun usable => ?_)
    rw [h.partServed, ih]

section Turn

variable {step : RamDevice → Address → List U8 → Except Fault (RamDevice × List U8)}
  (hstep : RamDevice.Guarded step) (hbuffer : offset.toNat + length ≤ buffer.length)

include hstep hbuffer

end Turn

/-! ## Loops -/

section Loop

variable {step : RamDevice → Address → List U8 → Except Fault (RamDevice × List U8)}
  (hstep : RamDevice.Guarded step)

include hstep

end Loop

/-! ## Writes of one byte over and over -/

/-- Every byte is what it was, or the byte that is written. -/
def Kept (c : U8) (bus bus' : RamBus) : Prop :=
  ∀ id x, (bus'.devices id).byte x = (bus.devices id).byte x ∨ (bus'.devices id).byte x = c

variable {c : U8}

theorem Kept.refl (c : U8) (bus : RamBus) : Kept c bus bus := fun _ _ => .inl rfl

theorem Kept.trans (h : Kept c bus bus') (h' : Kept c bus' bus'') : Kept c bus bus'' := by
  intro id x
  obtain heq | heq := h' id x
  · rw [heq]
    exact h id x
  · exact .inr heq

section Accesses

variable {step : RamDevice → Address → List U8 → Except Fault (RamDevice × List U8)}

end Accesses

/-- A memory of four bytes at the start of a bus of ten. -/
def single : RamBus := initialized ⟨0, 9⟩ [⟨1, 0, ⟨0, 3⟩, 0⟩] fun _ => .dense ⟨⟨0, 3⟩, fun _ => 0⟩

end RamBus

end Pepp

import Pepp.Cpu.PepIsa
import Pepp.Sim.BusErrors
import Pepp.Sim.Fifo

/-!
# The targets of a system

Behind a bus there may be any target: memories, memory-mapped registers, the
banks of a processor, and other buses. A bus cuts an access into one access for
each target it comes to, going by how large the target is. Reads and writes are
one loop over the bytes of an access, with the operation of the devices as its
parameter.
-/

namespace Pepp

open Isa Span AddressTranslationMap

/-- How an access ends that does not return. -/
inductive TargetError where
  | fault (fault : Fault)
  | register (error : MemoryError)
  deriving DecidableEq, Repr

namespace PepRegisterBank

/-- `REGISTER_COUNT` registers of two bytes each. -/
def span : AddressSpan := ⟨0, 11⟩

variable (self : PepRegisterBank)

def slotAt (at_ : Address) : Register := slotOf at_.toNat

def isHighByte (at_ : Address) : Bool := at_.toNat % 2 = 0

/-- A register with one of its bytes replaced. -/
def merged (at_ : Address) (value : U16) (b : U8) : U16 :=
  if isHighByte at_ then value &&& (0x00FF : U16) ||| b.setWidth 16 <<< 8 else value &&& (0xFF00 : U16) ||| b.setWidth 16

def readBytes (address : Address) (len : Nat) : List U8 :=
  (List.range len).map fun i => self.byteAt (address + BitVec.ofNat 32 i).toNat

/-- The loops of `write` with `value` collected for `slot`, which is stored once no byte of it is left. -/
def writeFrom (self : PepRegisterBank) (at_ : Address) (slot : Register) (value : U16) : List U8 → PepRegisterBank
  | [] => self.write value slot
  | b :: src =>
    if slotAt at_ = slot then writeFrom self (at_ + 1) slot (merged at_ value b) src
    else
      let stored := self.write value slot
      writeFrom stored (at_ + 1) (slotAt at_) (merged at_ (stored.read (slotAt at_)) b) src

def writeBytes (address : Address) : List U8 → PepRegisterBank
  | [] => self
  | b :: src =>
    self.writeFrom (address + 1) (slotAt address) (merged address (self.read (slotAt address)) b) src

end PepRegisterBank

/-- The flags span a single address. -/
def PepCSRBank.span : AddressSpan := ⟨0, 0⟩

/-- A target that is not a bus. -/
inductive Device where
  | ram (memory : RamDevice)
  | fifo (register : FifoRegister)
  | registers (bank : PepRegisterBank)
  | csrs (nzvc : U8)

namespace Device

def span : Device → AddressSpan
  | ram memory => memory.span
  | fifo register => register.span
  | registers _ => PepRegisterBank.span
  | csrs _ => PepCSRBank.span

/-- What is read replaces the bytes of `dest`, of which a register of one byte has the first. -/
def read (op : Operation) (self : Device) (address : Address) (dest : List U8) : Except TargetError (Device × List U8) :=
  match self with
  | ram memory =>
    match memory.read address dest with
    | .ok (memory, bytes) => .ok (.ram memory, bytes)
    | .error f => .error (.fault f)
  | fifo register =>
    match register.read address dest.length op with
    | .ok (byte, register, _) => .ok (.fifo register, dest.set 0 byte)
    | .error e => .error (.register e)
  | registers bank =>
    if PepRegisterBank.span.inBounds address dest.length then
      .ok (.registers bank, bank.readBytes address dest.length)
    else .error (.fault (.oobAccess address))
  | csrs nzvc =>
    if PepCSRBank.span.inBounds address dest.length then .ok (.csrs nzvc, dest.set 0 nzvc)
    else .error (.fault (.oobAccess address))

def write (op : Operation) (self : Device) (address : Address) (src : List U8) : Except TargetError (Device × List U8) :=
  match self with
  | ram memory =>
    match memory.write address src with
    | .ok (memory, src) => .ok (.ram memory, src)
    | .error f => .error (.fault f)
  | fifo register =>
    match register.write address src op with
    | .ok (register, _) => .ok (.fifo register, src)
    | .error e => .error (.register e)
  | registers bank =>
    if PepRegisterBank.span.inBounds address src.length then .ok (.registers (bank.writeBytes address src), src)
    else .error (.fault (.oobAccess address))
  | csrs nzvc =>
    if PepCSRBank.span.inBounds address src.length then
      .ok (.csrs (src.head?.elim nzvc (· &&& PepCSRBank.MASK)), src)
    else .error (.fault (.oobAccess address))

end Device

/-- What the system has under the IDs that are no bus. -/
abbrev Devices := U8 → Device

/-- What a call of a target does to the devices and to the bytes it is given. -/
abbrev Call := Devices → U8 → Address → List U8 → Except TargetError (Devices × List U8)

/-- The target behind a bus address and the address there. -/
def SimpleBus.translate (self : SimpleBus) (address : Address) : Except Fault (U8 × Address) :=
  match regionAt self.addrs address with
  | .error e => .error (.assertion e)
  | .ok none => .error (.unmapped address)
  | .ok (some region) =>
    match AddressSpan.offsetMap address region.from_ region.to_ with
    | .error e => .error (.assertion e)
    | .ok target => .ok (region.id, target)

namespace Targets

variable (buses : U8 → Option SimpleBus)

def spanOf (devices : Devices) (id : U8) : AddressSpan :=
  match buses id with
  | some bus => bus.span
  | none => (devices id).span

/-- The loop of an access: each turn takes as many bytes as the target has, wherever in it the access starts. A target
without bytes keeps the loop where it is. -/
def accessLoop (call : Call) (bus : SimpleBus) : Nat → Devices → Address → List U8 → Except TargetError (Devices × List U8)
  | 0, devices, _, _ => .ok (devices, [])
  | fuel + 1, devices, address, bytes =>
    if bytes.length = 0 then .ok (devices, [])
    else
      match bus.translate address with
      | .error f => .error (.fault f)
      | .ok (id, target) =>
        let usable := min bytes.length (spanOf buses devices id).sizeInclusive
        if usable = 0 then .error (.fault .endless)
        else do
          let (devices, out) ← call devices id target (bytes.take usable)
          let (devices, rest) ← accessLoop call bus fuel devices (address + BitVec.ofNat 32 usable) (bytes.drop usable)
          return (devices, out ++ rest)

section
variable (step : Device → Address → List U8 → Except TargetError (Device × List U8))

/-- An access of a target through at most so many buses, one behind the other. -/
def access : Nat → Call
  | 0, _, _, _, _ => .error (.fault .endless)
  | depth + 1, devices, id, address, bytes =>
    match buses id with
    | none => do
      let (device, out) ← step (devices id) address bytes
      return (Function.update devices id device, out)
    | some bus =>
      -- Length is 1-indexed and addresses are 0-indexed, so the last address is one short.
      if bus.span.inBounds address bytes.length then
        accessLoop buses (access depth) bus bytes.length devices address bytes
      else .error (.fault (.oobAccess address))

/-- The same bytes, each in an access of its own. -/
def accessEach (depth : Nat) : Call
  | devices, _, _, [] => .ok (devices, [])
  | devices, id, address, b :: bytes => do
    let (devices, out) ← access buses step depth devices id address [b]
    let (devices, rest) ← accessEach depth devices id (address + 1) bytes
    return (devices, out ++ rest)

end

variable (op : Operation) (depth : Nat)

/-- `read` into the bytes of the caller -/
def read : Call := access buses (Device.read op) depth

def write : Call := access buses (Device.write op) depth

/-- One read for each byte of the caller. -/
def readEach : Call := accessEach buses (Device.read op) depth

def writeEach : Call := accessEach buses (Device.write op) depth

end Targets

end Pepp

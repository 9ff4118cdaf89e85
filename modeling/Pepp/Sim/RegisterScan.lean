import Pepp.Asmb.Lines
import Pepp.Lib.BitFields
import Pepp.Lib.Outcome
import Pepp.Tvm.Encoding

/-!
# The scan chain of registers

Devices expose registers by name and place. A debugger reads and writes them, or
a field of one, through 64-bit values in the order of the host. A register lies
in a variable of the simulator or at an address of a memory target.
-/

namespace Pepp.RegisterScan

open Tc (Order memcpyEndian hostOrder)
open Tvm (RegisterRef)

/-- How an access ends that does not return. A shift by 64 or more has no defined outcome. -/
inductive Fault where
  | thrown (e : Exception)
  | undefined
  deriving DecidableEq, Repr

def rw : Operation := ⟨.Application, true, 0⟩
def rwBuf : Operation := ⟨.BufferInternal, true, 0⟩

structure Access where
  read : Bool
  write : Bool
  deriving DecidableEq, Repr

def ReadWrite : Access := ⟨true, true⟩

structure Field where
  guestAccess : Access
  hostAccess : Access
  bitOffset : U8
  bitWidth : U8
  deriving DecidableEq, Repr

/-- A pointer is to a variable of `size` bytes, or null. -/
inductive StorageLocation where
  | none
  | address (address : Address)
  | pointer (size : Nat) (ptr : Option Nat)
  deriving DecidableEq, Repr

structure Register where
  byteWidth : U8
  guestAccess : Access
  hostAccess : Access
  target : U8
  order : Order
  fields : List Field
  loc : StorageLocation
  deriving DecidableEq, Repr

inductive Level where
  | Guest | Host
  deriving DecidableEq, Repr

inductive Byteswap where
  | Always | Never | IfHostMismatch
  deriving DecidableEq, Repr

/-- A memory of a system with states `σ`. -/
structure Target (σ : Type) where
  read : Address → (len : Nat) → Operation → EStateM Exception σ (List U8)
  write : Address → List U8 → Operation → EStateM Exception σ Unit

/-- A device that has been found need not be a memory. -/
structure System (σ : Type) where
  findById : U8 → Option (Option (Target σ))

/-- The state of the system, and the bytes of the variables that registers point to. -/
structure Machine (σ : Type) where
  system : σ
  cells : Nat → List U8

abbrev ScanM (σ : Type) := EStateM Fault (Machine σ)

end RegisterScan

open RegisterScan

structure RegisterScan (σ : Type) where
  sys : RegisterScan.System σ
  regs : U16 → Option Register

namespace RegisterScan

open Tc (Order memcpyEndian hostOrder)
open Tvm (RegisterRef)

variable {σ : Type}

def fail {α : Type} (what : String) : ScanM σ α := throw (.thrown (.runtimeError what))

/-- An access of the target: what it throws goes on to the caller. -/
def onTarget {α : Type} (access : EStateM Exception σ α) : ScanM σ α := fun s =>
  match access s.system with
  | .ok a system => .ok a { s with system := system }
  | .error e system => .error (.thrown e) { s with system := system }

/-- `memcpy_endian<u64>`. -/
def toU64 (src : List U8) (srcOrder : Order) : U64 :=
  BitVec.ofNat 64 (Endian.ofLE (memcpyEndian (List.replicate 8 0) hostOrder src srcOrder))

/-- `memcpy_endian` out of a `u64`. -/
def copyU64 (dest : List U8) (destOrder : Order) (src : U64) : List U8 :=
  memcpyEndian dest destOrder (Endian.leBytes 8 src.toNat) hostOrder

def shiftLeft (x : U64) (n : Nat) : ScanM σ U64 := if n < 64 then pure (x <<< n) else throw .undefined

def shiftRight (x : U64) (n : Nat) : ScanM σ U64 := if n < 64 then pure (x >>> n) else throw .undefined

/-- `granted`, of a register or of a field. -/
def granted (guestAccess hostAccess : Access) (level : Level) : Access :=
  if level = .Host then hostAccess else guestAccess

def Register.granted (self : Register) (level : Level) : Access :=
  RegisterScan.granted self.guestAccess self.hostAccess level

def Field.granted (self : Field) (level : Level) : Access :=
  RegisterScan.granted self.guestAccess self.hostAccess level

variable (self : RegisterScan σ)

/-- Fields are counted from one; zero names the register. -/
def resolve (r : RegisterRef) : Option (Register × Option Field) :=
  match self.regs r.reg with
  | none => none
  | some reg =>
    if r.field = 0 then some (reg, none)
    else (reg.fields[r.field.toNat - 1]?).map fun field => (reg, some field)

/-- The device is only consulted for a register at an address. -/
def onDevice {α : Type} (reg : Register) (access : Target σ → EStateM Exception σ α) : ScanM σ α :=
  match self.sys.findById reg.target with
  | none => fail "Device not found"
  | some none => fail "Device is not a Target"
  | some (some target) => onTarget (access target)

/-- Fetch `len` bytes out of whatever backs the register. -/
def load (reg : Register) (len : Nat) (access : Operation) : ScanM σ (List U8) :=
  match reg.loc with
  | .none => fail "Register has no storage location"
  | .pointer size ptr =>
    if size ≠ len then fail "Register width mismatch"
    else
      match ptr with
      | none => fail "Register pointer is null"
      | some v => do
        let s ← get
        return s.cells v
  | .address address => self.onDevice reg fun target => target.read address len access

/-- The end of `write`: put the bytes into whatever backs the register. -/
def store (reg : Register) (src : List U8) (access : Operation) : ScanM σ Unit :=
  match reg.loc with
  | .none => fail "Register has no storage location"
  | .pointer size ptr =>
    if size ≠ src.length then fail "Register width mismatch"
    else
      match ptr with
      | none => fail "Register pointer is null"
      | some v => modify fun s => { s with cells := Function.update s.cells v src }
  | .address address => self.onDevice reg fun target => target.write address src access

/-- Shift a field, if one is named, down to bit 0 and cut off what is beyond its width. -/
def readField (reg : Register) (field : Option Field) (out : List U8) (level : Level) : ScanM σ (List U8) :=
  match field with
  | none => pure out
  | some field =>
    if !(field.granted level).read then fail "Field is not readable"
    else do
      let copy ← shiftRight (toU64 out reg.order) field.bitOffset.toNat
      let one ← shiftLeft 1 field.bitWidth.toNat
      return copyU64 out reg.order (copy &&& (one - 1))

/-- The bytes that fill the last `byteWidth` of the destination, which is what a little-endian host takes. -/
def readOut (reg : Register) (field : Option Field) (bswap : Byteswap) (level : Level) : ScanM σ (List U8) :=
  if !(reg.granted level).read then fail "Register is not readable"
  else do
    let out ← self.load reg reg.byteWidth.toNat (if level = .Guest then rw else rwBuf)
    let out ← readField reg field out level
    let shouldSwap := bswap = .Always ∨ (bswap = .IfHostMismatch ∧ reg.order ≠ hostOrder)
    return if shouldSwap then out.reverse else out

/-- What the destination holds after the read. -/
def readReg (reg : Register) (field : Option Field) (dest : List U8) (bswap : Byteswap) (level : Level) :
    ScanM σ (Order × List U8) :=
  if reg.loc = .none then fail "Register has no storage location"
  else if dest.length < reg.byteWidth.toNat then fail "Destination is narrower than the register"
  else do
    let out ← self.readOut reg field bswap level
    return (reg.order, dest.take (dest.length - reg.byteWidth.toNat) ++ out)

def srcOrder (reg : Register) : Byteswap → Order
  | .Never => reg.order
  | .Always => if reg.order = .bigEndian then .littleEndian else .bigEndian
  | .IfHostMismatch => hostOrder

def fieldMask (width : Nat) : U64 := if 64 ≤ width then BitVec.allOnes 64 else (1#64 <<< width) - 1#64

/-- Read-modify-write: bits outside the field belong to its siblings. -/
def writeField (reg : Register) (field : Option Field) (value : U64) (level : Level) : ScanM σ U64 :=
  match field with
  | none => pure value
  | some field =>
    if !(field.granted level).write then fail "Field is not writable"
    else do
      let cur ← self.load reg (min reg.byteWidth.toNat 8) rwBuf
      let whole := toU64 cur reg.order
      let mask := fieldMask field.bitWidth.toNat
      let hole ← shiftLeft mask field.bitOffset.toNat
      let part ← shiftLeft (value &&& mask) field.bitOffset.toNat
      return whole &&& ~~~hole ||| part

def writeReg (reg : Register) (field : Option Field) (src : List U8) (bswap : Byteswap) (level : Level) :
    ScanM σ Unit :=
  if reg.loc = .none then fail "Register has no storage location"
  else if !(reg.granted level).write then fail "Register is not writable"
  else do
    let value := toU64 src (srcOrder reg bswap)
    let value ← self.writeField reg field value level
    -- the bytes are copied over those of the value itself, of which the first ones are the lowest
    let out := copyU64 ((Endian.leBytes 8 value.toNat).take (min reg.byteWidth.toNat 8)) reg.order value
    self.store reg out (if level = .Guest then rw else rwBuf)

def read (ref : RegisterRef) (dest : List U8) (bswap : Byteswap) (level : Level) : ScanM σ (Order × List U8) :=
  match self.resolve ref with
  | none => fail "Register not found"
  | some (reg, field) => self.readReg reg field dest bswap level

def write (ref : RegisterRef) (src : List U8) (bswap : Byteswap) (level : Level) : ScanM σ Unit :=
  match self.resolve ref with
  | none => fail "Register not found"
  | some (reg, field) => self.writeReg reg field src bswap level

/-- `read<I>`, for an integral type of `n` bits. -/
def readAs (n : Nat) (ref : RegisterRef) (level : Level) : ScanM σ (BitVec n) :=
  match self.resolve ref with
  | none => fail "Register not found"
  | some (reg, field) => do
    let width := min reg.byteWidth.toNat 8
    let (order, buf) ← self.readReg reg field (List.replicate width 0) .Never level
    return (toU64 buf order).setWidth n

/-- `write<I>`, after the cast that extends the value to 64 bits by the rules of `I`. -/
def writeAs (ref : RegisterRef) (value : U64) (level : Level) : ScanM σ Unit :=
  match self.resolve ref with
  | none => fail "Register not found"
  | some (reg, field) =>
    let width := min reg.byteWidth.toNat 8
    self.writeReg reg field (copyU64 (List.replicate width 0) reg.order value) .Never level

end RegisterScan

end Pepp

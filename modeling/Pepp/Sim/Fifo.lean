import Pepp.Sim.Memory

/-!
# Memory-mapped FIFO registers

A register is a single address over two queues that are never consumed: reads
move a position through the input queue and writes append to the output queue.
Undo moves the position back by a step and takes the last output away.
-/

namespace Pepp

open Span

/-- `FIFORegister::FIFO`: indexed by 32-bit addresses, grown and cut at its end. -/
structure Fifo where
  maxIndex : U32
  data : Nat → U8

namespace Fifo

variable (self : Fifo)

def size : Nat := self.maxIndex.toNat

def at_ (index : Nat) : U8 := self.data index

def push (value : U8) : Fifo :=
  { maxIndex := self.maxIndex + 1, data := overwrite self.data self.maxIndex.toNat [value] }

def popBack : Fifo := if self.maxIndex = 0 then self else { self with maxIndex := self.maxIndex - 1 }

def latestOr (default : U8) : U8 := if self.maxIndex = 0 then default else self.at_ (self.size - 1)

/-- The queued bytes, first one first. -/
def contents : List U8 := slice self.data 0 self.size

end Fifo

inductive FailPolicy where
  | YieldDefaultValue | RaiseError
  deriving DecidableEq, Repr

/-- Why a target refuses an access, or how it goes wrong. -/
inductive MemoryError where
  | unmapped (address : Address)
  | oobAccess (address : Address)
  | needsMMI (address : Address)
  | endless
  | raised (e : Exception)
  deriving DecidableEq, Repr

/-- What the recorder is told about an access: its direction and the byte that went through. -/
structure MmioRecord where
  write : Bool
  data : U8
  deriving DecidableEq, Repr

/-- `directionInput` and `directionOutput` are the two bits of `Direction`. -/
structure FifoRegister where
  fill : U8
  directionInput : Bool
  directionOutput : Bool
  offset : Address
  failPolicy : FailPolicy
  input : Fifo
  output : Fifo
  inputIt : Nat

/-- Accesses on behalf of the application or of the replay have no side effect. -/
def Operation.advances (op : Operation) : Bool := !(op.type = .Application ∨ op.type = .BufferInternal)

namespace FifoRegister

variable (self : FifoRegister)

/-- A register spans a single address. -/
def span : AddressSpan := ⟨self.offset, self.offset⟩

def inBounds (address : Address) (len : Nat) : Prop :=
  self.span.lower ≤ address ∧ address + (BitVec.ofNat 32 len - 1) ≤ self.span.upper

instance (address : Address) (len : Nat) : Decidable (self.inBounds address len) :=
  inferInstanceAs (Decidable (_ ∧ _))

def atEnd : Bool := self.input.size ≤ self.inputIt

def valueOr (default : U8) : U8 := if self.atEnd then default else self.input.at_ self.inputIt

/-- The byte read, the register afterwards and what was emitted. A read at the end of the input emits
like any other but moves nothing. -/
def read (address : Address) (len : Nat) (op : Operation) :
    Except MemoryError (U8 × FifoRegister × Option MmioRecord) :=
  if ¬ self.inBounds address len then .error (.oobAccess address)
  else if self.directionInput then
    if op.advances ∧ self.atEnd ∧ self.failPolicy = .RaiseError then .error (.needsMMI address)
    else
      let src := self.valueOr self.fill
      if op.advances then
        .ok (src, if self.atEnd then self else { self with inputIt := self.inputIt + 1 }, some ⟨false, src⟩)
      else .ok (src, self, none)
  else if self.directionOutput then .ok (self.output.latestOr self.fill, self, none)
  else .ok (self.fill, self, none)

def write (address : Address) (src : List U8) (op : Operation) : Except MemoryError (FifoRegister × Option MmioRecord) :=
  if ¬ self.inBounds address src.length then .error (.oobAccess address)
  else if op.advances ∧ self.directionOutput then
    let value := src.headD 0
    .ok ({ self with output := self.output.push value }, some ⟨true, value⟩)
  else .ok (self, none)

/-- Saturates at the front. -/
def rewindInput : FifoRegister := { self with inputIt := self.inputIt - 1 }

/-- Step the read position, queueing the byte only when there is none under it. -/
def advanceInput (byte : U8) : FifoRegister :=
  { self with
    input := if self.atEnd then self.input.push byte else self.input
    inputIt := self.inputIt + 1 }

/-- `ApplyBackend::on_mmio` once the register is found. -/
def onMmio (forward : Bool) (op : MmioRecord) : FifoRegister :=
  if forward then
    if op.write then { self with output := self.output.push op.data } else self.advanceInput op.data
  else if op.write then { self with output := self.output.popBack }
  else self.rewindInput

end FifoRegister

/-- An access to a register. -/
inductive Access where
  | read (address : Address) (len : Nat) (op : Operation)
  | write (address : Address) (src : List U8) (op : Operation)

namespace FifoRegister

/-- Make an access. One that throws leaves the register as it was and emits nothing. -/
def perform (self : FifoRegister) : Access → FifoRegister × Option MmioRecord
  | .read address len op =>
    match self.read address len op with
    | .ok (_, self, emitted) => (self, emitted)
    | .error _ => (self, none)
  | .write address src op =>
    match self.write address src op with
    | .ok r => r
    | .error _ => (self, none)

/-- The accesses of one recording, with what they emitted in order. -/
def recording : List Access → FifoRegister → FifoRegister × List MmioRecord
  | [], self => (self, [])
  | a :: accesses, self =>
    let (self, emitted) := self.perform a
    let (self, rest) := recording accesses self
    (self, emitted.toList ++ rest)

/-- Recordings one after the other. -/
def recordings : List (List Access) → FifoRegister → FifoRegister × List (List MmioRecord)
  | [], self => (self, [])
  | accesses :: rest, self =>
    let (self, record) := recording accesses self
    let (self, records) := recordings rest self
    (self, record :: records)

/-- A record runs in the order it was emitted, whichever the direction. -/
def replay (forward : Bool) (record : List MmioRecord) (self : FifoRegister) : FifoRegister :=
  record.foldl (fun self op => self.onMmio forward op) self

/-- Records are undone newest first and redone oldest first. -/
def undo (records : List (List MmioRecord)) (self : FifoRegister) : FifoRegister :=
  records.reverse.foldl (fun self record => replay false record self) self

def redo (records : List (List MmioRecord)) (self : FifoRegister) : FifoRegister :=
  records.foldl (fun self record => replay true record self) self

/-- Same read position and same output queue. -/
def Restored (self self' : FifoRegister) : Prop :=
  self'.inputIt = self.inputIt ∧ self'.output.contents = self.output.contents

/-- Undo and redo of the recordings are exact. -/
def Reversible (accesses : List (List Access)) (self : FifoRegister) : Prop :=
  let (after, records) := recordings accesses self
  let before := undo records after
  Restored self before ∧ Restored after (redo records before)

/-- The access takes part in moving the read position. -/
def Consumes (self : FifoRegister) : Access → Bool
  | .read address len op => self.inBounds address len ∧ self.directionInput ∧ op.advances
  | .write _ _ _ => false

/-- The access appends to the output queue. -/
def Emits (self : FifoRegister) : Access → Bool
  | .read _ _ _ => false
  | .write address src op => self.inBounds address src.length ∧ op.advances ∧ self.directionOutput

/-- No read finds the input used up, unless that is an error, and the output queue does not wrap. -/
def Supplied (accesses : List (List Access)) (self : FifoRegister) : Prop :=
  (self.failPolicy = .YieldDefaultValue →
    accesses.flatten.countP self.Consumes ≤ self.input.size - self.inputIt) ∧
  (self.output.size = 0 ∨ self.output.size + accesses.flatten.countP self.Emits < 2 ^ 32)

end FifoRegister

end Pepp

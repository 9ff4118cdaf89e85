import Mathlib.Data.Finset.Dedup
import Pepp.Alloc.PageChain

/-!
# The trace machine

Programs of the trace machine are little-endian 16-bit words. An instruction is
one word holding the opcode, the clear-modifiers bit and the number of words
that follow, and then those words.
-/

namespace Pepp.Tvm

inductive Opcode where
  | HALT | RET | CALL | LMR | ASYN | ISYN | INVCALL | BRF
  | NOP | BREQ | BRGT | BRGE | BRLT | BRLE | BRNE | BR
  | SETMEM | SETREG | SETMEMX | SETREGX | CMPMEM | CMPREG | CLRMEM | CLRREG
  | TRADDR | LDP | ACCDP | INCDP | CCB | INVRET | SETMEMDX | MMIO
  | STEPMEM | STEPREG
  deriving DecidableEq, Repr

def Opcode.value : Opcode → BitVec 6
  | .HALT => 0b000000
  | .RET => 0b000001
  | .CALL => 0b000010
  | .LMR => 0b000011
  | .ASYN => 0b000100
  | .ISYN => 0b000101
  | .INVCALL => 0b000110
  | .BRF => 0b000111
  | .NOP => 0b001000
  | .BREQ => 0b001001
  | .BRGT => 0b001010
  | .BRGE => 0b001011
  | .BRLT => 0b001100
  | .BRLE => 0b001101
  | .BRNE => 0b001110
  | .BR => 0b001111
  | .SETMEM => 0b010000
  | .SETREG => 0b010001
  | .SETMEMX => 0b010010
  | .SETREGX => 0b010011
  | .CMPMEM => 0b010100
  | .CMPREG => 0b010101
  | .CLRMEM => 0b010110
  | .CLRREG => 0b010111
  | .TRADDR => 0b011000
  | .LDP => 0b011001
  | .ACCDP => 0b011010
  | .INCDP => 0b011011
  | .CCB => 0b011100
  | .INVRET => 0b011101
  | .SETMEMDX => 0b011110
  | Opcode.MMIO => 0b011111
  | .STEPMEM => 0b100000
  | .STEPREG => 0b100010

def Opcode.all : List Opcode :=
  [.HALT, .RET, .CALL, .LMR, .ASYN, .ISYN, .INVCALL, .BRF, .NOP, .BREQ, .BRGT, .BRGE, .BRLT, .BRLE, .BRNE, .BR,
    .SETMEM, .SETREG, .SETMEMX, .SETREGX, .CMPMEM, .CMPREG, .CLRMEM, .CLRREG, .TRADDR, .LDP, .ACCDP, .INCDP, .CCB,
    .INVRET, .SETMEMDX, Opcode.MMIO, .STEPMEM, .STEPREG]

/-- The opcode a 6-bit field names, if any. -/
def Opcode.ofBits? (bits : BitVec 6) : Option Opcode := Opcode.all.find? (·.value = bits)

@[simp] theorem Opcode.ofBits?_value (op : Opcode) : Opcode.ofBits? op.value = some op := by
  cases op <;> rfl

/-- Reasons for a stop, and any other word a `HALT` packet carried as its cause. -/
inductive StopCause where
  | None | StackOverflow | StackUnderflow | IllegalOpcode | InvalidIBuffer | InvalidDBuffer | WrongTR
  | MissingSystem | RegisterInvalid | RegisterSizeMismatch | RegisterWidthIllegal | StepWidthIllegal
  | TargetInvalid | TargetNotMemory | TargetNotFIFO | UnbalancedInvCall | Unimplemented
  | other : U16 → StopCause
  deriving DecidableEq, Repr

def StopCause.ofU16 (w : U16) : StopCause :=
  match w.toNat with
  | 0 => .None
  | 1 => .StackOverflow
  | 2 => .StackUnderflow
  | 3 => .IllegalOpcode
  | 4 => .InvalidIBuffer
  | 5 => .InvalidDBuffer
  | 6 => .WrongTR
  | 7 => .MissingSystem
  | 8 => .RegisterInvalid
  | 9 => .RegisterSizeMismatch
  | 10 => .RegisterWidthIllegal
  | 11 => .StepWidthIllegal
  | 12 => .TargetInvalid
  | 13 => .TargetNotMemory
  | 14 => .TargetNotFIFO
  | 15 => .UnbalancedInvCall
  | 16 => .Unimplemented
  | _ => .other w

/-- How the payload of a `SET*` operation combines with what is at the destination. -/
inductive Delta where
  | Assign | Xor | Add
  deriving DecidableEq, Repr

inductive Order where
  | BigEndian | LittleEndian
  deriving DecidableEq, Repr

def encodeOrder : Order → U16
  | .BigEndian => 1
  | .LittleEndian => 0

def decodeOrder (orderWord : U16) : Order := if orderWord = 0 then .LittleEndian else .BigEndian

structure SegmentPair where
  hi : U16
  lo : U16
  deriving DecidableEq, Repr

instance : Inhabited SegmentPair := ⟨0, 0⟩

def SegmentPair.asU32 (self : SegmentPair) : U32 := self.hi.setWidth 32 <<< 16 ||| self.lo.setWidth 32

/-- Which registers an `LMR` packet loads: one bit each, lowest first. -/
inductive RegMask where
  | IP_HI | IP_LO | DP_HI | DP_LO | DS | ACCESS | ID_HI | ID_LO | OFF_HI | OFF_LO | MOD1_HI | MOD1_LO | MOD2_HI
  | MOD2_LO | FLAGS
  deriving DecidableEq, Repr

def RegMask.all : List RegMask :=
  [.IP_HI, .IP_LO, .DP_HI, .DP_LO, .DS, .ACCESS, .ID_HI, .ID_LO, .OFF_HI, .OFF_LO, .MOD1_HI, .MOD1_LO, .MOD2_HI,
    .MOD2_LO, .FLAGS]

def RegMask.bit : RegMask → Nat
  | .IP_HI => 0
  | .IP_LO => 1
  | .DP_HI => 2
  | .DP_LO => 3
  | .DS => 4
  | .ACCESS => 5
  | .ID_HI => 6
  | .ID_LO => 7
  | .OFF_HI => 8
  | .OFF_LO => 9
  | .MOD1_HI => 10
  | .MOD1_LO => 11
  | .MOD2_HI => 12
  | .MOD2_LO => 13
  | .FLAGS => 14

def RegMask.value (r : RegMask) : U16 := 1 <<< r.bit

/-- The branch conditions (E)qual, (G)reater, (L)ess and (F)ail, one bit each. -/
structure ConditionCode where
  E : Bool
  G : Bool
  L : Bool
  F : Bool
  deriving DecidableEq, Repr

namespace ConditionCode

def ofU16 (w : U16) : ConditionCode := ⟨w.getLsbD 0, w.getLsbD 1, w.getLsbD 2, w.getLsbD 3⟩

def asU16 (self : ConditionCode) : U16 :=
  (if self.E then 1 else 0) ||| (if self.G then 2 else 0) ||| (if self.L then 4 else 0) ||| (if self.F then 8 else 0)

end ConditionCode

def SETMEMDX_ADDRESS_BYTES : Nat := 4

def MMIO_PROLOGUE_BYTES : Nat := 4

structure OpWord where
  ocpode : BitVec 6
  clrmod : Bool
  wordLen : U8
  deriving DecidableEq, Repr

instance : Inhabited OpWord := ⟨Opcode.HALT.value, false, 0⟩

namespace OpWord

def ofU16 (word : U16) : OpWord :=
  ⟨(hiByte word).setWidth 6, hiByte word &&& 0x40 != 0, loByte word⟩

def asU16 (self : OpWord) : U16 :=
  bigEndian ((if self.clrmod then (1 : U8) else 0) <<< 6 ||| self.ocpode.setWidth 8) self.wordLen

@[simp] theorem ofU16_asU16 (w : OpWord) : ofU16 w.asU16 = w := by
  obtain ⟨op, clrmod, wordLen⟩ := w
  have h : ∀ n < 64, ∀ c : Bool,
      (((if c then (1 : U8) else 0) <<< 6 ||| (BitVec.ofNat 6 n).setWidth 8).setWidth 6 = BitVec.ofNat 6 n ∧
        (((if c then (1 : U8) else 0) <<< 6 ||| (BitVec.ofNat 6 n).setWidth 8) &&& 0x40 != 0) = c) := by
    decide +kernel
  have h := h op.toNat op.isLt clrmod
  simp only [BitVec.ofNat_toNat, BitVec.setWidth_eq] at h
  simp only [ofU16, asU16, hiByte_bigEndian, loByte_bigEndian, h.1, h.2]

end OpWord

/-! ## Registers, flags and stack of the trace machine

Everything a running program can observe or change. The decoder programs
registers while it cracks a packet, and the backend reads them back. -/

open Bts Span

/-- Where one recorded program starts, and where its payload starts. A record without payload has a
null data location. -/
structure ProgramLocation where
  code : Location
  data : Location
  deriving DecidableEq, Repr

inductive RegisterRetention where
  | None | DP | All
  deriving DecidableEq, Repr

structure Flags where
  N : Bool
  Z : Bool
  TR : Bool
  L : Bool
  M1 : Bool
  M2 : Bool
  CLRMOD : Bool
  F : Bool
  deriving DecidableEq, Repr

namespace Flags

/-- `Flags{}` comes back live. -/
def default : Flags := ⟨false, false, false, true, false, false, false, false⟩

def ofU8 (v : U8) : Flags :=
  ⟨v.getLsbD 0, v.getLsbD 1, v.getLsbD 2, v.getLsbD 3, v.getLsbD 4, v.getLsbD 5, v.getLsbD 6, v.getLsbD 7⟩

end Flags

structure Registers where
  IP : SegmentPair
  DP : SegmentPair
  DS : U16
  ACCESS : U16
  ID : SegmentPair
  OFF : SegmentPair
  MOD1 : SegmentPair
  MOD2 : SegmentPair
  STOP_CAUSE : StopCause
  SP : U16
  IS : OpWord
  deriving DecidableEq, Repr

def Registers.default : Registers :=
  ⟨Inhabited.default, Inhabited.default, 0, 0, Inhabited.default, Inhabited.default, Inhabited.default,
    Inhabited.default, .None, 0, Inhabited.default⟩

structure MachineState where
  csrs : Flags
  regs : Registers
  stack : Nat → U8

/-- Bytes of the machine's call stack. -/
def STACK_SIZE : Nat := 256

namespace MachineState

variable (self : MachineState)

/-- Halt with `L` and `F` clear, as a program that ran to its `HALT` does. -/
def softStop (cause : StopCause) : MachineState :=
  { self with
    csrs := { self.csrs with L := false, F := false }
    regs := { self.regs with STOP_CAUSE := cause } }

/-- Halt with `F` set: going on to the next program is pointless. -/
def hardStop (cause : StopCause) : MachineState :=
  { self with
    csrs := { self.csrs with L := false, F := true }
    regs := { self.regs with STOP_CAUSE := cause } }

def restart (retain : RegisterRetention) : MachineState :=
  let self : MachineState :=
    match retain with
    | .All => self
    | .DP =>
      { self with regs := { Registers.default with DP := self.regs.DP, DS := self.regs.DS }, csrs := Flags.default }
    | .None => { self with regs := Registers.default, csrs := Flags.default }
  { self with csrs := { self.csrs with L := true, F := false } }

def updateIp (loc : Location) : MachineState :=
  { self with regs := { self.regs with IP := ⟨loc.id, loc.offset &&& 0xFFFE⟩ } }

/-- Payloads are byte-granular, so unlike `IP` there is no mask. -/
def updateDp (loc : Location) : MachineState := { self with regs := { self.regs with DP := ⟨loc.id, loc.offset⟩ } }

def push (v : SegmentPair) : MachineState :=
  if STACK_SIZE < self.regs.SP.toNat + 4 then self.hardStop .StackOverflow
  else
    { self with
      stack := overwrite self.stack self.regs.SP.toNat [hiByte v.hi, loByte v.hi, hiByte v.lo, loByte v.lo]
      regs := { self.regs with SP := self.regs.SP + 4 } }

def pop : SegmentPair × MachineState :=
  if self.regs.SP < 4 then (⟨0, 0⟩, self.hardStop .StackUnderflow)
  else
    let sp := (self.regs.SP - 4).toNat
    (⟨bigEndian (self.stack sp) (self.stack (sp + 1)), bigEndian (self.stack (sp + 2)) (self.stack (sp + 3))⟩,
      { self with regs := { self.regs with SP := self.regs.SP - 4 } })

/-- A little-endian word of a buffer. An unknown buffer, or one that ends before the word does, hard-stops
the machine and reads as zero. -/
def read16 (mgr : BufferManager) (id : Bts.ID) (offset : U16) : U16 × MachineState :=
  match mgr.find id with
  | none => (0, self.hardStop .InvalidIBuffer)
  | some buf =>
    if SIZE < offset.toNat + 2 then (0, self.hardStop .InvalidIBuffer)
    else (bigEndian (buf.bytes (offset.toNat + 1)) (buf.bytes offset.toNat), self)

end MachineState

end Pepp.Tvm

/-! ## Packets and decoded instructions

An encoded packet is the opcode word and the words that follow it, each low byte
first. A decoded instruction carries every operand already resolved, whether
the packet supplied it or an earlier one did. -/

namespace Pepp.Tvm

/-- The machine's words are little endian. -/
def leBytes (w : U16) : List U8 := [loByte w, hiByte w]

def leWords (words : List U16) : List U8 := words.flatMap leBytes

/-- The unsigned integer whose least significant byte comes first. -/
def leValue : List U8 → Nat
  | [] => 0
  | b :: bytes => b.toNat + 256 * leValue bytes

/-- The sign of a value of `width` bytes, spread over the bytes above it. -/
def signExtend (raw : U64) (width : Nat) : U64 :=
  if 0 < width ∧ width < 8 ∧ raw.getLsbD (8 * width - 1) then raw ||| ~~~((1 : U64) <<< (8 * width) - 1) else raw

namespace EncodedOp

def encodeOp (op : Opcode) (clrmod : Bool) (mods : List U16) : List U8 :=
  leWords ((OpWord.mk op.value clrmod (BitVec.ofNat 8 mods.length)).asU16 :: mods)

/-- Bytes packed into words, the last one padded. -/
def packBytes : List U8 → List U16
  | [] => []
  | [b] => [bigEndian 0 b]
  | b₀ :: b₁ :: bytes => bigEndian b₁ b₀ :: packBytes bytes

/-- A packet that carries its payload after the prefix words and a size in bytes. -/
def immediate (op : Opcode) (pre : List U16) (data : List U8) : List U8 :=
  encodeOp op true (pre ++ BitVec.ofNat 16 data.length :: packBytes data)

def halt0 : List U8 := encodeOp .HALT true []
def ret0 : List U8 := encodeOp .RET true []
def call2 (nextIp : SegmentPair) : List U8 := encodeOp .CALL true [nextIp.lo, nextIp.hi]
def invCall0 : List U8 := encodeOp .INVCALL true []
def invCall2 (onForwardLo onBackwardLo : U16) : List U8 := encodeOp .INVCALL true [onForwardLo, onBackwardLo]
def invRet0 : List U8 := encodeOp .INVRET true []
/-- Load a single register. The one packet that keeps the modifiers. -/
def ldr (mask : RegMask) (value : U16) : List U8 := encodeOp .LMR false [mask.value, value]
def setMemX4 (access dev : U16) (off : SegmentPair) : List U8 := encodeOp .SETMEMX true [access, dev, off.hi, off.lo]
def setMemDX2 (access dev : U16) : List U8 := encodeOp .SETMEMDX true [access, dev]
def stepMem6 (access dev : U16) (off : SegmentPair) (order : U16) (data : List U8) : List U8 :=
  immediate .STEPMEM [access, dev, off.hi, off.lo, order] data
def ldp3 (dp : SegmentPair) (ds : U16) : List U8 := encodeOp .LDP true [dp.lo, ds, dp.hi]
def accdp (ds : U16) : List U8 := encodeOp .ACCDP true [ds]
def incdp (dpIncr ds : U16) : List U8 := encodeOp .INCDP true [dpIncr, ds]

theorem length_leWords (words : List U16) : (leWords words).length = 2 * words.length := by
  induction words with
  | nil => rfl
  | cons w words ih =>
    change (leBytes w ++ leWords words).length = _
    rw [List.length_append, ih, List.length_cons]
    simp [leBytes]
    omega

theorem length_encodeOp (op : Opcode) (clrmod : Bool) (mods : List U16) :
    (encodeOp op clrmod mods).length = 2 * (mods.length + 1) := by
  rw [encodeOp, length_leWords, List.length_cons]

end EncodedOp

/-- A register, or with a field id other than zero one of its fields. -/
structure RegisterRef where
  reg : U16
  field : U16
  deriving DecidableEq, Repr

/-- What every operation that modifies memory decodes to; `kind` is all that sets them apart. -/
structure DeltaMem where
  kind : Delta
  access : Operation
  target : U8
  offset : U32
  data : SegmentPair
  size : U16
  order : Order
  deriving DecidableEq, Repr

structure DeltaReg where
  kind : Delta
  reg : RegisterRef
  data : SegmentPair
  size : U16
  deriving DecidableEq, Repr

/-- Instructions with their operands resolved. -/
inductive DecodedOp where
  | halt : (cause : StopCause) → DecodedOp
  | ret
  | call : (nextIp : SegmentPair) → DecodedOp
  | invCall : (onForward onBackward : SegmentPair) → DecodedOp
  | invRet
  | aSyn : (timestamp : U64) → DecodedOp
  | iSyn : (delta : U64) → DecodedOp
  | lmr : (mask : U16) → (data : List U8) → DecodedOp
  | br : (condition : ConditionCode) → (displacement : SegmentPair) → DecodedOp
  | deltaMem : DeltaMem → DecodedOp
  | cmpMem : (target : U8) → (offset : U32) → (data : SegmentPair) → (size : U16) → DecodedOp
  | clrMem : (target : U8) → (data : U8) → DecodedOp
  | deltaReg : DeltaReg → DecodedOp
  | cmpReg : RegisterRef → (data : SegmentPair) → (size : U16) → DecodedOp
  | clrReg : RegisterRef → DecodedOp
  | traddr : (target source : U8) → (targetOffset sourceOffset size : U32) → DecodedOp
  | ldp
  | dpIncr : (dpIncr ds : U16) → DecodedOp
  | mmio : (write : Bool) → (data : U8) → (target : U8) → Operation → (offset : U32) → DecodedOp
  deriving DecidableEq, Repr

end Pepp.Tvm

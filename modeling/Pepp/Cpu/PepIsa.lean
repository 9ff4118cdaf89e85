import Pepp.Isa.Pep10
import Pepp.Sim.Memory

/-!
# The core Pep/10 processor

Every store a device makes under an open record is reported to its recorder
before the new value lands. The processor state keeps those reports, in order,
so that the record of an instruction is the list of what its devices reported.
-/

namespace Pepp

open Isa Span

/-- One report of a traced device to its recorder during an instruction. -/
inductive Report where
  /-- `PepRegisterBank::store`, old value xor new value. -/
  | register : Register → U16 → Report
  /-- `PepCSRBank::store`, old flags xor new flags. -/
  | flags : U8 → Report
  /-- `Dense::write`: address, bytes before, bytes after. -/
  | memory : Address → List U8 → List U8 → Report
  /-- The program counter stepped by `clock_tick`. -/
  | stepPc : U16 → Report
  /-- The call depth stepped by an instruction. -/
  | stepCallDepth : U16 → Report
  deriving DecidableEq, Repr

/-- Registers in host order. `IS` is a single byte. -/
structure PepRegisterBank where
  a : U16
  x : U16
  sp : U16
  pc : U16
  os : U16
  is : U8
  deriving DecidableEq, Repr

namespace PepRegisterBank

variable (self : PepRegisterBank)

def read : Register → U16
  | .A => self.a
  | .X => self.x
  | .SP => self.sp
  | .PC => self.pc
  | .IS => self.is.setWidth 16
  | .OS => self.os
  | .INVALID => 0

def write (value : U16) : Register → PepRegisterBank
  | .A => { self with a := value }
  | .X => { self with x := value }
  | .SP => { self with sp := value }
  | .PC => { self with pc := value }
  | .IS => { self with is := loByte value }
  | .OS => { self with os := value }
  | .INVALID => self

/-- The record a typed store leaves behind, in the register's own width. -/
def report (value : U16) : Register → List Report
  | .IS => [.register .IS ((self.is ^^^ loByte value).setWidth 16)]
  | .INVALID => []
  | reg => [.register reg (self.read reg ^^^ value)]

/-- `REGISTER_COUNT` registers of two bytes each, as the `Target` interface lays them out. -/
def slotOf (address : Nat) : Register := Register.ofU8 (BitVec.ofNat 8 (address / 2))

/-- Byte `address` of the bank, most significant byte of each register first. -/
def byteAt (address : Nat) : U8 :=
  if address % 2 = 0 then hiByte (self.read (slotOf address)) else loByte (self.read (slotOf address))

end PepRegisterBank

namespace PepCSRBank

def MASK : U8 := 0x0F

def pack (n z v c : Bool) : U8 :=
  (if n then 8 else 0) ||| (if z then 4 else 0) ||| (if v then 2 else 0) ||| (if c then 1 else 0)

/-- Flags `(n, z, v, c)` of a packed byte. -/
def unpack (nzvc : U8) : Bool × Bool × Bool × Bool :=
  (nzvc &&& 8 != 0, nzvc &&& 4 != 0, nzvc &&& 2 != 0, nzvc &&& 1 != 0)

end PepCSRBank

/-- The processor between and during instructions. `pcShadow` is the source's `_pc`, the working
copy of the program counter while an instruction is in flight. -/
structure PepISA3CPU where
  regbank : PepRegisterBank
  nzvc : U8
  callDepth : U16
  pcShadow : U16
  target : Dense
  trace : List Report

namespace PepISA3CPU

variable (self : PepISA3CPU)

def readPc : U16 := self.pcShadow

def writePc (value : U16) : PepISA3CPU := { self with pcShadow := value }

def readRegisterUncached (reg : Register) : U16 := self.regbank.read reg

def writeRegisterUncached (reg : Register) (value : U16) : PepISA3CPU :=
  { self with
    regbank := self.regbank.write value reg
    trace := self.trace ++ self.regbank.report value reg }

/-- Accesses to the program counter are redirected to the working copy. -/
def readRegister (reg : Register) : U16 :=
  if reg = .PC then self.pcShadow else self.readRegisterUncached reg

def writeRegister (reg : Register) (value : U16) : PepISA3CPU :=
  if reg = .PC then self.writePc value else self.writeRegisterUncached reg value

def readPackedCsr : U8 := self.nzvc

/-- Masked where the data lives, so that every way in lands in the low nibble. -/
def writePackedCsr (value : U8) : PepISA3CPU :=
  { self with
    nzvc := value &&& PepCSRBank.MASK
    trace := self.trace ++ [.flags (self.nzvc ^^^ (value &&& PepCSRBank.MASK))] }

def incrementCallDepth : PepISA3CPU :=
  { self with callDepth := self.callDepth + 1, trace := self.trace ++ [.stepCallDepth 1] }

def decrementCallDepth : PepISA3CPU :=
  { self with callDepth := self.callDepth - 1, trace := self.trace ++ [.stepCallDepth (-1)] }

/-- A write through `target()`, reported by the memory device. -/
def writeTarget (address : Address) (src : List U8) : Except Exception PepISA3CPU := do
  let target ← self.target.write address src
  return { self with
    target := target
    trace := self.trace ++ [.memory address (self.target.bytes address src.length) src] }

/-- `PepRegisterBank::write` from `address` on: the bytes present for one register are merged
into its value, and each register touched is stored once. -/
def writeBank (self : PepISA3CPU) (address : Nat) : List U8 → PepISA3CPU
  | [] => self
  | [b] =>
    let reg := PepRegisterBank.slotOf address
    let value := self.regbank.read reg
    self.writeRegisterUncached reg
      (if address % 2 = 0 then bigEndian b (loByte value) else bigEndian (hiByte value) b)
  | b :: b' :: rest =>
    let reg := PepRegisterBank.slotOf address
    if address % 2 = 0 then
      (self.writeRegisterUncached reg (bigEndian b b')).writeBank (address + 2) rest
    else
      (self.writeRegisterUncached reg (bigEndian (hiByte (self.regbank.read reg)) b)).writeBank
        (address + 1) (b' :: rest)

end PepISA3CPU

end Pepp

/-! ## The core Pep/10 processor

One handler for each behavior of the opcode plane, over one shared operand
address, and the clock tick that fetches, dispatches and writes the program
counter back. An instruction that throws yields no successor state. -/

namespace Pepp

open Isa Span

namespace PepISA3CPU

variable (self : PepISA3CPU)

def readU8 (address : Address) : Except Exception U8 := self.target.readU8 address

def readU16 (address : U16) : Except Exception U16 := self.target.readU16 (address.setWidth 32)

def decodeOpAddr (addr : SharedAddrMode) : Except Exception (U16 × PepISA3CPU) := do
  let pc := self.readPc
  let self := self.writePc (pc + 2)
  let opr ← self.readU16 pc
  let self := self.writeRegister .OS opr
  match addr with
  | .I => return (pc, self)
  | .N => return (← self.readU16 opr, self)
  | .D => return (opr, self)
  | .SF => return (← self.readU16 (self.readRegister .SP + opr), self)
  | .S => return (self.readRegister .SP + opr, self)
  | .X => return (self.readRegister .X + opr, self)
  | .SX => return (self.readRegister .X + self.readRegister .SP + opr, self)
  | .SFX => return (self.readRegister .X + (← self.readU16 (self.readRegister .SP + opr)), self)
  | .Unary => throw (.logicError "Invalid addressing mode for decode_op_addr")

/-! ## Monadic instructions -/

def handleRet : Except Exception PepISA3CPU := do
  let self := self.decrementCallDepth
  let sp := self.readRegister .SP
  let addr ← self.readU16 sp
  let self := self.writePc addr
  return self.writeRegister .SP (sp + 2)

/-- Replace two bytes of the context block by the two bytes read from `address`. -/
def loadContext (ctx : List U8) (reg : Register) (address : Address) : Except Exception (List U8) := do
  let dest ← self.target.read address 2
  return (ctx.set (2 * reg.value) (dest.getD 0 0)).set (2 * reg.value + 1) (dest.getD 1 0)

def handleSret : Except Exception PepISA3CPU := do
  let sp := self.readRegister .SP
  let ctx := (List.range 12).map self.regbank.byteAt
  let csrs ← self.readU8 (sp.setWidth 32)
  let self := self.writePackedCsr csrs
  let ctx ← self.loadContext ctx .A (sp.setWidth 32 + 1)
  let ctx ← self.loadContext ctx .X (sp.setWidth 32 + 3)
  let ctx ← self.loadContext ctx .PC (sp.setWidth 32 + 5)
  let ctx ← self.loadContext ctx .SP (sp.setWidth 32 + 7)
  let self := self.writeBank 0 ctx
  -- `read_register<R::PC>` is the redirected form: it returns the working copy, not the bank.
  let self := self.writePc (self.readRegister .PC)
  let tmp := sp + 12
  let self ← self.writeTarget (MemoryVectors.SystemStackPtr.value.setWidth 32) (wordBytes tmp)
  return self.decrementCallDepth

def handleMovflga : PepISA3CPU := self.writeRegister .A (self.readPackedCsr.setWidth 16)

def handleMovaflg : PepISA3CPU := self.writePackedCsr (loByte (self.readRegister .A))

def handleMovspa : PepISA3CPU := self.writeRegister .A (self.readRegister .SP)

def handleMovasp : PepISA3CPU := self.writeRegister .SP (self.readRegister .A)

def handleNegr (reg : Register) : PepISA3CPU :=
  let src := self.readRegister reg
  let tmp := ~~~src + 1
  let n := tmp &&& 0x8000 != 0
  let z := tmp == 0
  let v := tmp == 0x8000
  let c := src == 0
  (self.writeRegister reg tmp).writePackedCsr (PepCSRBank.pack n z v c)

def handleAslr (reg : Register) : PepISA3CPU :=
  let src := self.readRegister reg
  let tmp := src <<< 1
  let n := tmp &&& 0x8000 != 0
  let z := tmp == 0
  let v := (src ^^^ tmp) >>> 15 != 0
  let c := src &&& 0x8000 != 0
  (self.writeRegister reg tmp).writePackedCsr (PepCSRBank.pack n z v c)

def handleAsrr (reg : Register) : PepISA3CPU :=
  let src := self.readRegister reg
  let tmp := src >>> 1 ||| (if src &&& 0x8000 != 0 then (1 : U16) <<< 15 else 0)
  let n := tmp &&& 0x8000 != 0
  let z := tmp == 0
  let c := src &&& 1 != 0
  (self.writeRegister reg tmp).writePackedCsr (PepCSRBank.pack n z false c)

def handleNotr (reg : Register) : PepISA3CPU :=
  let src := self.readRegister reg
  let (_, _, v, c) := PepCSRBank.unpack self.readPackedCsr
  let tmp := ~~~src
  let n := tmp &&& 0x8000 != 0
  let z := tmp == 0
  (self.writeRegister reg tmp).writePackedCsr (PepCSRBank.pack n z v c)

def handleRolr (reg : Register) : PepISA3CPU :=
  let src := self.readRegister reg
  let (_, _, v, c) := PepCSRBank.unpack self.readPackedCsr
  let tmp := src <<< 1 ||| (if c then 1 else 0)
  let n := tmp &&& 0x8000 != 0
  let z := tmp == 0
  let c := src &&& 0x8000 != 0
  (self.writeRegister reg tmp).writePackedCsr (PepCSRBank.pack n z v c)

def handleRorr (reg : Register) : PepISA3CPU :=
  let src := self.readRegister reg
  let (_, _, v, c) := PepCSRBank.unpack self.readPackedCsr
  let tmp := src >>> 1 ||| (if c then (1 : U16) <<< 15 else 0)
  let n := tmp &&& 0x8000 != 0
  let z := tmp == 0
  let c := src &&& 1 != 0
  (self.writeRegister reg tmp).writePackedCsr (PepCSRBank.pack n z v c)

/-! ## Dyadic instructions -/

inductive BranchCondition where
  | LE | LT | EQ | NE | GE | GT | V | C
  deriving DecidableEq, Repr

/-- Whether a branch on flags `n z v c` is taken. -/
def BranchCondition.taken (n z v c : Bool) : BranchCondition → Bool
  | .LE => n || z
  | .LT => n
  | .EQ => z
  | .NE => !z
  | .GE => !n
  | .GT => !n && !z
  | .V => v
  | .C => c

def handleBranch (cond : BranchCondition) (opAddr : U16) : Except Exception PepISA3CPU := do
  let (n, z, v, c) := PepCSRBank.unpack self.readPackedCsr
  let opSpec ← self.readU16 opAddr
  return if cond.taken n z v c then self.writePc opSpec else self

def handleUnconditionalBranch (opAddr : U16) : Except Exception PepISA3CPU := do
  let opSpec ← self.readU16 opAddr
  return self.writePc opSpec

def handleCall (opAddr : U16) : Except Exception PepISA3CPU := do
  let opSpec ← self.readU16 opAddr
  let pc := self.readPc
  let sp := self.readRegister .SP - 2
  let self ← self.writeTarget (sp.setWidth 32) (wordBytes pc)
  let self := self.writeRegister .SP sp
  let self := self.writePc opSpec
  return self.incrementCallDepth

def handleAddsp (opAddr : U16) : Except Exception PepISA3CPU := do
  let opSpec ← self.readU16 opAddr
  return self.writeRegister .SP (self.readRegister .SP + opSpec)

def handleSubsp (opAddr : U16) : Except Exception PepISA3CPU := do
  let opSpec ← self.readU16 opAddr
  return self.writeRegister .SP (self.readRegister .SP - opSpec)

def handleAddr (reg : Register) (opAddr : U16) : Except Exception PepISA3CPU := do
  let opSpec ← self.readU16 opAddr
  let src := self.readRegister reg
  let tmp := src + opSpec
  let n := tmp &&& 0x8000 != 0
  let z := tmp == 0
  let v := (~~~(src ^^^ opSpec) &&& (src ^^^ tmp)) >>> 15 != 0
  let c := tmp < src || tmp < opSpec
  return (self.writeRegister reg tmp).writePackedCsr (PepCSRBank.pack n z v c)

def handleSubr (reg : Register) (opAddr : U16) : Except Exception PepISA3CPU := do
  let operand ← self.readU16 opAddr
  let src := self.readRegister reg
  let tmp := src + ~~~operand + 1
  let n := tmp &&& 0x8000 != 0
  let z := tmp == 0
  let v := (~~~(src ^^^ (~~~operand + 1)) &&& (src ^^^ tmp)) >>> 15 != 0
  let c := tmp < src || tmp < 1 + ~~~operand
  return (self.writeRegister reg tmp).writePackedCsr (PepCSRBank.pack n z v c)

inductive Bitop where
  | AND | OR | XOR
  deriving DecidableEq, Repr

def Bitop.eval (x y : U16) : Bitop → U16
  | .AND => x &&& y
  | .OR => x ||| y
  | .XOR => x ^^^ y

def handleBitopr (reg : Register) (bitop : Bitop) (opAddr : U16) : Except Exception PepISA3CPU := do
  let opSpec ← self.readU16 opAddr
  let src := self.readRegister reg
  let (_, _, v, c) := PepCSRBank.unpack self.readPackedCsr
  let tmp := bitop.eval src opSpec
  let n := tmp &&& 0x8000 != 0
  let z := tmp == 0
  return (self.writeRegister reg tmp).writePackedCsr (PepCSRBank.pack n z v c)

def handleCpwr (reg : Register) (opAddr : U16) : Except Exception PepISA3CPU := do
  let operand ← self.readU16 opAddr
  let src := self.readRegister reg
  let neg := ~~~operand + 1
  let tmp := src + neg
  let n := tmp &&& 0x8000 != 0
  let z := tmp == 0
  let v := (~~~(src ^^^ neg) &&& (src ^^^ tmp)) >>> 15 != 0
  let c := tmp < src || tmp < neg
  return self.writePackedCsr (PepCSRBank.pack (n ^^ v) z v c)

/-- The byte of an operand is read one past its address, in every addressing mode. -/
def handleCpbr (reg : Register) (opAddr : U16) : Except Exception PepISA3CPU := do
  let opSpec ← self.readU8 (opAddr.setWidth 32 + 1)
  let src := self.readRegister reg
  let tmp := (src + ~~~(opSpec.setWidth 16) + 1) &&& 0xff
  let n := tmp &&& 0x80 != 0
  let z := tmp == 0
  return self.writePackedCsr (PepCSRBank.pack n z false false)

def handleLdwr (reg : Register) (opAddr : U16) : Except Exception PepISA3CPU := do
  let opSpec ← self.readU16 opAddr
  let (_, _, v, c) := PepCSRBank.unpack self.readPackedCsr
  let n := opSpec &&& 0x8000 != 0
  let z := opSpec == 0
  return (self.writeRegister reg opSpec).writePackedCsr (PepCSRBank.pack n z v c)

/-- As for `handleCpbr`, the byte comes from one past the operand's address. -/
def handleLdbr (reg : Register) (opAddr : U16) : Except Exception PepISA3CPU := do
  let opSpec ← self.readU8 (opAddr.setWidth 32 + 1)
  let (_, _, v, c) := PepCSRBank.unpack self.readPackedCsr
  let z := opSpec == 0
  return (self.writeRegister reg (opSpec.setWidth 16)).writePackedCsr (PepCSRBank.pack false z v c)

def handleStwr (reg : Register) (opAddr : U16) : Except Exception PepISA3CPU :=
  self.writeTarget (opAddr.setWidth 32) (wordBytes (self.readRegister reg))

def handleStbr (reg : Register) (opAddr : U16) : Except Exception PepISA3CPU :=
  self.writeTarget (opAddr.setWidth 32) [loByte (self.readRegister reg)]

/-! ## Dispatch and clock -/

/-- Decode the operand address, then run a dyadic handler on it. -/
def withOperand (addr : SharedAddrMode) (handler : PepISA3CPU → U16 → Except Exception PepISA3CPU) :
    Except Exception PepISA3CPU := do
  let (opAddr, self) ← self.decodeOpAddr addr
  handler self opAddr

def handle (opcode : SharedOp) : Except Exception PepISA3CPU :=
  let reg := Register.ofU8 opcode.target
  let dyadic := self.withOperand opcode.addr
  match opcode.behavior with
  | .UNIMPL => throw (.logicError "Unimplemented instruction encountered")
  | .STOP => throw (.logicError "Unimplemented instruction: STOP")
  | .RET => self.handleRet
  | .SRET => self.handleSret
  | .MOVFLGA => return self.handleMovflga
  | .MOVAFLG => return self.handleMovaflg
  | .MOVSPA => return self.handleMovspa
  | .MOVASP => return self.handleMovasp
  | .HW_NOP => return self
  | .NEG => return self.handleNegr reg
  | .ASL => return self.handleAslr reg
  | .ASR => return self.handleAsrr reg
  | .NOT => return self.handleNotr reg
  | .ROL => return self.handleRolr reg
  | .ROR => return self.handleRorr reg
  | .SCALL => throw (.logicError "Unimplemented instruction: SCALL")
  | .TRAP_CALL => throw (.logicError "Unimplemented instruction: TRAP_CALL")
  | .BR => dyadic handleUnconditionalBranch
  | .BRLE => dyadic (handleBranch · .LE)
  | .BRLT => dyadic (handleBranch · .LT)
  | .BREQ => dyadic (handleBranch · .EQ)
  | .BRNE => dyadic (handleBranch · .NE)
  | .BRGE => dyadic (handleBranch · .GE)
  | .BRGT => dyadic (handleBranch · .GT)
  | .BRV => dyadic (handleBranch · .V)
  | .BRC => dyadic (handleBranch · .C)
  | .CALL => dyadic handleCall
  | .ADDSP => dyadic handleAddsp
  | .SUBSP => dyadic handleSubsp
  | .ADD => dyadic (handleAddr · reg)
  | .SUB => dyadic (handleSubr · reg)
  | .AND => dyadic (handleBitopr · reg .AND)
  | .OR => dyadic (handleBitopr · reg .OR)
  | .XOR => dyadic (handleBitopr · reg .XOR)
  | .CPW => dyadic (handleCpwr · reg)
  | .CPB => dyadic (handleCpbr · reg)
  | .LDW => dyadic (handleLdwr · reg)
  | .LDB => dyadic (handleLdbr · reg)
  | .STW => dyadic (handleStwr · reg)
  | .STB => dyadic (handleStbr · reg)
  | .INVALID => throw (.logicError "Unknown opcode behavior")

/-- The part of a tick before the handler: open the record, take the program counter out of the
bank, fetch the instruction byte. -/
def fetch : Except Exception (U8 × PepISA3CPU) := do
  let self := { self with trace := [] }
  let self := self.writePc (self.readRegisterUncached .PC)
  let is ← self.readU8 (self.readPc.setWidth 32)
  let self := self.writePc (self.readPc + 1)
  return (is, self.writeRegister .IS (is.setWidth 16))

/-- The single store of the program counter at the end of a tick. A change of at most three is
recorded as a step and stored untraced; any other change goes through the bank. -/
def storePc (initPc : U16) : PepISA3CPU :=
  let pcDelta : U32 := self.readPc.setWidth 32 - initPc.setWidth 32
  if pcDelta &&& 0b11 = pcDelta then
    { self with
      regbank := { self.regbank with pc := self.readPc }
      trace := self.trace ++ [.stepPc (pcDelta.setWidth 16)] }
  else self.writeRegisterUncached .PC self.readPc

def clockTick : Except Exception PepISA3CPU := do
  let initPc := self.readRegisterUncached .PC
  let (is, self) ← self.fetch
  let self ← self.handle (opcodePlane is)
  return self.storePc initPc

end PepISA3CPU

end Pepp

import Pepp.Isa.Pep10
import Pepp.Sim.Memory

/-!
# The sim3 Pep/10 processor

Registers and flags live in byte arrays, one switch case serves each mnemonic,
and stores and loads decode their operands separately. The host is little
endian, so a word read from memory is byte-swapped in place. Debugger
notifications are left out.
-/

namespace Pepp.Sim3

open Isa Span

/-- Flat memory addressed by 16-bit addresses; the bounds check adds in `int`. -/
structure Dense where
  lower : U16
  upper : U16
  data : Nat → U8

namespace Dense

variable (self : Dense)

def offset (address : U16) : Nat := (address - self.lower).toNat

def inBounds (address : U16) (len : Nat) : Prop :=
  self.lower ≤ address ∧ address.toNat + (BitVec.ofNat 16 len - 1).toNat ≤ self.upper.toNat

instance (address : U16) (len : Nat) : Decidable (self.inBounds address len) :=
  inferInstanceAs (Decidable (_ ∧ _))

def read (address : U16) (len : Nat) : Except Exception (List U8) :=
  if self.inBounds address len then .ok (slice self.data (self.offset address) len)
  else .error (.oobAccess address.toNat)

def write (address : U16) (src : List U8) : Except Exception Dense :=
  if self.inBounds address src.length then
    .ok { self with data := overwrite self.data (self.offset address) src }
  else .error (.oobAccess address.toNat)

end Dense

/-- A `bool` stored in a byte. -/
def flagByte (b : Bool) : U8 := if b then 1 else 0

def packCSR (n z v c : Bool) : U8 :=
  flagByte n <<< 3 ||| flagByte z <<< 2 ||| flagByte v <<< 1 ||| flagByte c

def unpackCSR (value : U8) : Bool × Bool × Bool × Bool :=
  (value &&& 0b1000 != 0, value &&& 0b0100 != 0, value &&& 0b0010 != 0, value &&& 0b0001 != 0)

/-- `regs` holds 14 bytes, two for each register; `csrs` holds one byte for each flag. -/
structure CPU where
  regs : Nat → U8
  csrs : Nat → U8
  memory : Dense
  depth : U16
  callsViaRet : U16 → Bool

namespace CPU

variable (self : CPU)

def readReg (reg : Register) : U16 := bigEndian (self.regs (2 * reg.value)) (self.regs (2 * reg.value + 1))

def writeReg (reg : Register) (val : U16) : CPU :=
  { self with regs := overwrite self.regs (2 * reg.value) (wordBytes val) }

def readPackedCSR : U8 :=
  packCSR (self.csrs 0 != 0) (self.csrs 1 != 0) (self.csrs 2 != 0) (self.csrs 3 != 0)

def writePackedCSR (val : U8) : CPU :=
  let (n, z, v, c) := unpackCSR val
  { self with csrs := overwrite self.csrs 0 [flagByte n, flagByte z, flagByte v, flagByte c] }

def incrDepth : CPU := { self with depth := self.depth + 1 }

def decrDepth : CPU := if self.depth ≠ 0 then { self with depth := self.depth - 1 } else self

def readByte (address : U16) : Except Exception U8 := do
  let dest ← self.memory.read address 1
  return dest.getD 0 0

def readWord (address : U16) : Except Exception U16 := do
  let dest ← self.memory.read address 2
  return bigEndian (dest.getD 0 0) (dest.getD 1 0)

def writeMemory (address : U16) (src : List U8) : Except Exception CPU := do
  let memory ← self.memory.write address src
  return { self with memory := memory }

/-! ## Operands -/

def decodeStoreOperand (is : U8) (os : U16) : Except Exception U16 :=
  match (opcodeLUT is).mode with
  | .D => return os
  | .N => self.readWord os
  | .S => return os + self.readReg .SP
  | .X => return os + self.readReg .X
  | .SX => return os + self.readReg .SP + self.readReg .X
  | .SF => self.readWord (os + self.readReg .SP)
  | .SFX => return (← self.readWord (os + self.readReg .SP)) + self.readReg .X
  | _ => throw (.logicError "Invalid addressing mode")

/-- Mnemonics whose operand is a byte. -/
def isByteMnemonic (m : Mnemonic) : Bool := m = .LDBA || m = .LDBX || m = .CPBA || m = .CPBX

/-- Read into `decoded` and byte-swap it. A byte lands in its second byte only, so that what
`decoded` held before stays in the byte the final mask removes. -/
def loadInto (isByte : Bool) (decoded : U16) (address : U16) : Except Exception U16 := do
  if isByte then
    let b ← self.readByte address
    return bigEndian (loByte decoded) b
  else self.readWord address

/-- The operand before the final mask. -/
def loadOperand (isByte : Bool) (mode : AddressingMode) (os : U16) : Except Exception U16 :=
  match mode with
  | .I => return os
  | .D => self.loadInto isByte 0 os
  | .N => do
    let decoded ← self.readWord os
    self.loadInto isByte decoded decoded
  | .S => self.loadInto isByte 0 (os + self.readReg .SP)
  | .X => self.loadInto isByte 0 (os + self.readReg .X)
  | .SX => self.loadInto isByte 0 (os + self.readReg .SP + self.readReg .X)
  | .SF => do
    let decoded ← self.readWord (os + self.readReg .SP)
    self.loadInto isByte decoded decoded
  | .SFX => do
    let decoded ← self.readWord (os + self.readReg .SP)
    self.loadInto isByte decoded (decoded + self.readReg .X)
  | _ => throw (.logicError "Invalid addressing mode")

def decodeLoadOperand (is : U8) (os : U16) : Except Exception U16 := do
  let isByte := isByteMnemonic (opcodeLUT is).instr.mnemon
  let mask : U16 := if isByte then 0xFF else 0xFFFF
  let decoded ← self.loadOperand isByte (opcodeLUT is).mode os
  return decoded &&& mask

/-! ## Register instructions, one definition for the A and the X case -/

def neg (reg : Register) (src : U16) : CPU :=
  let tmp := ~~~src + 1
  let n := tmp &&& 0x8000 != 0
  let z := tmp == 0
  let v := tmp == 0x8000
  let c := src == 0
  (self.writeReg reg tmp).writePackedCSR (packCSR n z v c)

def asl (reg : Register) (src : U16) : CPU :=
  let tmp := src <<< 1
  let n := tmp &&& 0x8000 != 0
  let z := tmp == 0
  let v := (src ^^^ tmp) >>> 15 != 0
  let c := src &&& 0x8000 != 0
  (self.writeReg reg tmp).writePackedCSR (packCSR n z v c)

def asr (reg : Register) (src : U16) : CPU :=
  let tmp := src >>> 1 ||| (if src &&& 0x8000 != 0 then (1 : U16) <<< 15 else 0)
  let n := tmp &&& 0x8000 != 0
  let z := tmp == 0
  let c := src &&& 1 != 0
  (self.writeReg reg tmp).writePackedCSR (packCSR n z false c)

def not (reg : Register) (src : U16) (v c : Bool) : CPU :=
  let tmp := ~~~src
  let n := tmp &&& 0x8000 != 0
  let z := tmp == 0
  (self.writeReg reg tmp).writePackedCSR (packCSR n z v c)

def rol (reg : Register) (src : U16) (v c : Bool) : CPU :=
  let tmp := src <<< 1 ||| (if c then 1 else 0)
  let n := tmp &&& 0x8000 != 0
  let z := tmp == 0
  let c := src &&& 0x8000 != 0
  (self.writeReg reg tmp).writePackedCSR (packCSR n z v c)

def ror (reg : Register) (src : U16) (v c : Bool) : CPU :=
  let tmp := src >>> 1 ||| (if c then (1 : U16) <<< 15 else 0)
  let n := tmp &&& 0x8000 != 0
  let z := tmp == 0
  let c := src &&& 1 != 0
  (self.writeReg reg tmp).writePackedCSR (packCSR n z v c)

def ldw (reg : Register) (operand : U16) (v c : Bool) : CPU :=
  let n := operand &&& 0x8000 != 0
  let z := operand == 0
  (self.writeReg reg operand).writePackedCSR (packCSR n z v c)

/-- Depends on `decodeLoadOperand` to fill the upper byte with zeros. -/
def ldb (reg : Register) (operand : U16) (v c : Bool) : CPU :=
  let z := operand == 0
  (self.writeReg reg operand).writePackedCSR (packCSR false z v c)

def cpw (src operand : U16) : CPU :=
  let tmp := src + ~~~operand + 1
  let n := tmp &&& 0x8000 != 0
  let z := tmp == 0
  let v := (~~~(src ^^^ (~~~operand + 1)) &&& (src ^^^ tmp)) >>> 15 != 0
  let c := tmp < src || tmp < 1 + ~~~operand
  self.writePackedCSR (packCSR (n ^^ v) z v c)

def cpb (src operand : U16) : CPU :=
  let tmp := (src + ~~~operand + 1) &&& 0xff
  let n := tmp &&& 0x80 != 0
  let z := tmp == 0
  self.writePackedCSR (packCSR n z false false)

def add (reg : Register) (src operand : U16) : CPU :=
  let tmp := src + operand
  let n := tmp &&& 0x8000 != 0
  let z := tmp == 0
  let v := (~~~(src ^^^ operand) &&& (src ^^^ tmp)) >>> 15 != 0
  let c := tmp < src || tmp < operand
  (self.writeReg reg tmp).writePackedCSR (packCSR n z v c)

def sub (reg : Register) (src operand : U16) : CPU :=
  let tmp := src + ~~~operand + 1
  let n := tmp &&& 0x8000 != 0
  let z := tmp == 0
  let v := (~~~(src ^^^ (~~~operand + 1)) &&& (src ^^^ tmp)) >>> 15 != 0
  let c := tmp < src || tmp < 1 + ~~~operand
  (self.writeReg reg tmp).writePackedCSR (packCSR n z v c)

/-- The three bitwise instructions share their flags; `tmp` is the combined word. -/
def bitop (reg : Register) (tmp : U16) (v c : Bool) : CPU :=
  let n := tmp &&& 0x8000 != 0
  let z := tmp == 0
  (self.writeReg reg tmp).writePackedCSR (packCSR n z v c)

/-! ## Context switches -/

/-- Replace two bytes of the context block by the two bytes read from `address`. -/
def loadContext (ctx : List U8) (reg : Register) (address : U16) : Except Exception (List U8) := do
  let dest ← self.memory.read address 2
  return (ctx.set (2 * reg.value) (dest.getD 0 0)).set (2 * reg.value + 1) (dest.getD 1 0)

def sret (sp : U16) : Except Exception CPU := do
  let ctx := slice self.regs 0 14
  let tmp8 ← self.readByte sp
  let self := self.writePackedCSR tmp8
  let ctx ← self.loadContext ctx .A (sp + 1)
  let ctx ← self.loadContext ctx .X (sp + 3)
  let ctx ← self.loadContext ctx .PC (sp + 5)
  let ctx ← self.loadContext ctx .SP (sp + 7)
  let self := { self with regs := overwrite self.regs 0 ctx }
  let self ← self.writeMemory MemoryVectors.SystemStackPtr.value (wordBytes (sp + 12))
  return self.decrDepth

def scall (is : U8) (a x sp pc : U16) : Except Exception CPU := do
  let os ← self.memory.read pc 2
  let ctx := [self.readPackedCSR] ++ wordBytes a ++ wordBytes x ++ wordBytes (pc + 2) ++ wordBytes sp ++
    [is] ++ os
  let tmp ← self.readWord MemoryVectors.SystemStackPtr.value
  let tmp := tmp - 12
  let self ← self.writeMemory tmp ctx
  let self := self.writeReg .SP tmp
  let pc ← self.readWord MemoryVectors.TrapHandler.value
  return self.incrDepth.writeReg .PC pc

/-! ## Dispatch and clock -/

def unaryDispatch (is : U8) (pc : U16) : Except Exception CPU :=
  let a := self.readReg .A
  let sp := self.readReg .SP
  let x := self.readReg .X
  let (_, _, v, c) := unpackCSR self.readPackedCSR
  match (opcodeLUT is).instr.mnemon with
  | .RET => do
    let self := if self.callsViaRet (pc - 1) then self.incrDepth else self.decrDepth
    let pc ← self.readWord sp
    return (self.writeReg .SP (sp + 2)).writeReg .PC pc
  | .MOVFLGA => return (self.writeReg .A (self.readPackedCSR.setWidth 16)).writeReg .PC pc
  | .MOVAFLG => return (self.writePackedCSR (loByte a)).writeReg .PC pc
  | .MOVSPA => return (self.writeReg .A sp).writeReg .PC pc
  | .MOVASP => return (self.writeReg .SP a).writeReg .PC pc
  | .NOP => return self.writeReg .PC pc
  | .NEGA => return (self.neg .A a).writeReg .PC pc
  | .NEGX => return (self.neg .X x).writeReg .PC pc
  | .ASLA => return (self.asl .A a).writeReg .PC pc
  | .ASLX => return (self.asl .X x).writeReg .PC pc
  | .ASRA => return (self.asr .A a).writeReg .PC pc
  | .ASRX => return (self.asr .X x).writeReg .PC pc
  | .NOTA => return (self.not .A a v c).writeReg .PC pc
  | .NOTX => return (self.not .X x v c).writeReg .PC pc
  | .ROLA => return (self.rol .A a v c).writeReg .PC pc
  | .ROLX => return (self.rol .X x v c).writeReg .PC pc
  | .RORA => return (self.ror .A a v c).writeReg .PC pc
  | .RORX => return (self.ror .X x v c).writeReg .PC pc
  | .SRET => self.sret sp
  | .SCALL => self.scall is a x sp pc
  | _ => throw (.runtimeError "Illegal Opcode")

/-- The operand of a three-byte instruction, by the store or the load rule. -/
def decodeOperand (is : U8) (os : U16) : Except Exception U16 :=
  let instr := (opcodeLUT is).instr
  if isValidAddressingMode instr.mnemon (opcodeLUT is).mode then
    if isStore instr.mnemon then self.decodeStoreOperand is os else self.decodeLoadOperand is os
  else throw (.logicError "Invalid addressing mode")

/-- The switch of `nonunaryDispatch`, on the decoded operand. -/
def execute (mnemon : Mnemonic) (operand pc : U16) : Except Exception CPU :=
  let a := self.readReg .A
  let sp := self.readReg .SP
  let x := self.readReg .X
  let (n, z, v, c) := unpackCSR self.readPackedCSR
  match mnemon with
  | .BR => return self.writeReg .PC operand
  | .BRLE => return self.writeReg .PC (if n || z then operand else pc)
  | .BRLT => return self.writeReg .PC (if n then operand else pc)
  | .BREQ => return self.writeReg .PC (if z then operand else pc)
  | .BRNE => return self.writeReg .PC (if !z then operand else pc)
  | .BRGE => return self.writeReg .PC (if !n then operand else pc)
  | .BRGT => return self.writeReg .PC (if !n && !z then operand else pc)
  | .BRV => return self.writeReg .PC (if v then operand else pc)
  | .BRC => return self.writeReg .PC (if c then operand else pc)
  | .CALL => do
    let sp := sp - 2
    let self ← self.writeMemory sp (wordBytes pc)
    return (self.writeReg .SP sp).incrDepth.writeReg .PC operand
  | .LDWA => return (self.ldw .A operand v c).writeReg .PC pc
  | .LDWX => return (self.ldw .X operand v c).writeReg .PC pc
  | .LDBA => return (self.ldb .A operand v c).writeReg .PC pc
  | .LDBX => return (self.ldb .X operand v c).writeReg .PC pc
  | .STWA => return (← self.writeMemory operand (wordBytes a)).writeReg .PC pc
  | .STWX => return (← self.writeMemory operand (wordBytes x)).writeReg .PC pc
  | .STBA => return (← self.writeMemory operand [loByte a]).writeReg .PC pc
  | .STBX => return (← self.writeMemory operand [loByte x]).writeReg .PC pc
  | .CPWA => return (self.cpw a operand).writeReg .PC pc
  | .CPWX => return (self.cpw x operand).writeReg .PC pc
  | .CPBA => return (self.cpb a operand).writeReg .PC pc
  | .CPBX => return (self.cpb x operand).writeReg .PC pc
  | .ADDA => return (self.add .A a operand).writeReg .PC pc
  | .ADDX => return (self.add .X x operand).writeReg .PC pc
  | .SUBA => return (self.sub .A a operand).writeReg .PC pc
  | .SUBX => return (self.sub .X x operand).writeReg .PC pc
  | .ANDA => return (self.bitop .A (a &&& operand) v c).writeReg .PC pc
  | .ANDX => return (self.bitop .X (x &&& operand) v c).writeReg .PC pc
  | .ORA => return (self.bitop .A (a ||| operand) v c).writeReg .PC pc
  | .ORX => return (self.bitop .X (x ||| operand) v c).writeReg .PC pc
  | .XORA => return (self.bitop .A (a ^^^ operand) v c).writeReg .PC pc
  | .XORX => return (self.bitop .X (x ^^^ operand) v c).writeReg .PC pc
  | .ADDSP => return (self.writeReg .SP (sp + operand)).writeReg .PC pc
  | .SUBSP => return (self.writeReg .SP (sp - operand)).writeReg .PC pc
  | _ => throw (.runtimeError "Illegal Opcode")

def nonunaryDispatch (is : U8) (os pc : U16) : Except Exception CPU := do
  let operand ← self.decodeOperand is os
  self.execute (opcodeLUT is).instr.mnemon operand pc

def clock : Except Exception CPU := do
  let pc := self.readReg .PC
  let is ← self.readByte pc
  let self := self.writeReg .IS (is.setWidth 16)
  let pc := pc + 1
  if isOpcodeUnary is then self.unaryDispatch is pc
  else
    let os ← self.readWord pc
    (self.writeReg .OS os).nonunaryDispatch is os (pc + 2)

end CPU

end Pepp.Sim3

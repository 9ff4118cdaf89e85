import Pepp.Integers

/-!
# The encoder of the RISC-V assembler

The fields of a format are taken from the least significant bit upwards. The
immediates of branches and jumps are scattered over several of them, and are
put together by the accessors that read an instruction.
-/

namespace Pepp.Riscv

/-- Register-register instructions. -/
structure InstructionR where
  opcode : BitVec 7
  rd : BitVec 5
  funct3 : BitVec 3
  rs1 : BitVec 5
  rs2 : BitVec 5
  funct7 : BitVec 7
  deriving DecidableEq, Repr

/-- Register-immediate instructions. -/
structure InstructionI where
  opcode : BitVec 7
  rd : BitVec 5
  funct3 : BitVec 3
  rs1 : BitVec 5
  imm : BitVec 12
  deriving DecidableEq, Repr

/-- Store instructions. -/
structure InstructionS where
  opcode : BitVec 7
  imm1 : BitVec 5
  funct3 : BitVec 3
  rs1 : BitVec 5
  rs2 : BitVec 5
  imm2 : BitVec 7
  deriving DecidableEq, Repr

/-- Upper-immediate instructions. -/
structure InstructionU where
  opcode : BitVec 7
  rd : BitVec 5
  imm : BitVec 20
  deriving DecidableEq, Repr

/-- Branch instructions. -/
structure InstructionB where
  opcode : BitVec 7
  imm1 : BitVec 1
  imm2 : BitVec 4
  funct3 : BitVec 3
  rs1 : BitVec 5
  rs2 : BitVec 5
  imm3 : BitVec 6
  imm4 : BitVec 1
  deriving DecidableEq, Repr

/-- Jump instructions. -/
structure InstructionJ where
  opcode : BitVec 7
  rd : BitVec 5
  imm1 : BitVec 8
  imm2 : BitVec 1
  imm3 : BitVec 10
  imm4 : BitVec 1
  deriving DecidableEq, Repr

/-! ## Words -/

def InstructionR.bits (i : InstructionR) : U32 := i.funct7 ++ i.rs2 ++ i.rs1 ++ i.funct3 ++ i.rd ++ i.opcode

def InstructionR.ofBits (w : U32) : InstructionR :=
  ⟨w.extractLsb' 0 7, w.extractLsb' 7 5, w.extractLsb' 12 3, w.extractLsb' 15 5, w.extractLsb' 20 5,
    w.extractLsb' 25 7⟩

def InstructionI.bits (i : InstructionI) : U32 := i.imm ++ i.rs1 ++ i.funct3 ++ i.rd ++ i.opcode

def InstructionI.ofBits (w : U32) : InstructionI :=
  ⟨w.extractLsb' 0 7, w.extractLsb' 7 5, w.extractLsb' 12 3, w.extractLsb' 15 5, w.extractLsb' 20 12⟩

def InstructionS.bits (i : InstructionS) : U32 := i.imm2 ++ i.rs2 ++ i.rs1 ++ i.funct3 ++ i.imm1 ++ i.opcode

def InstructionS.ofBits (w : U32) : InstructionS :=
  ⟨w.extractLsb' 0 7, w.extractLsb' 7 5, w.extractLsb' 12 3, w.extractLsb' 15 5, w.extractLsb' 20 5,
    w.extractLsb' 25 7⟩

def InstructionU.bits (i : InstructionU) : U32 := i.imm ++ i.rd ++ i.opcode

def InstructionU.ofBits (w : U32) : InstructionU := ⟨w.extractLsb' 0 7, w.extractLsb' 7 5, w.extractLsb' 12 20⟩

def InstructionB.bits (i : InstructionB) : U32 :=
  i.imm4 ++ i.imm3 ++ i.rs2 ++ i.rs1 ++ i.funct3 ++ i.imm2 ++ i.imm1 ++ i.opcode

def InstructionB.ofBits (w : U32) : InstructionB :=
  ⟨w.extractLsb' 0 7, w.extractLsb' 7 1, w.extractLsb' 8 4, w.extractLsb' 12 3, w.extractLsb' 15 5,
    w.extractLsb' 20 5, w.extractLsb' 25 6, w.extractLsb' 31 1⟩

def InstructionJ.bits (i : InstructionJ) : U32 := i.imm4 ++ i.imm3 ++ i.imm2 ++ i.imm1 ++ i.rd ++ i.opcode

def InstructionJ.ofBits (w : U32) : InstructionJ :=
  ⟨w.extractLsb' 0 7, w.extractLsb' 7 5, w.extractLsb' 12 8, w.extractLsb' 20 1, w.extractLsb' 21 10,
    w.extractLsb' 31 1⟩

theorem InstructionR.ofBits_bits (i : InstructionR) : ofBits i.bits = i := by
  cases i
  simp only [ofBits, bits, InstructionR.mk.injEq]
  grind

theorem InstructionI.ofBits_bits (i : InstructionI) : ofBits i.bits = i := by
  cases i
  simp only [ofBits, bits, InstructionI.mk.injEq]
  grind

theorem InstructionS.ofBits_bits (i : InstructionS) : ofBits i.bits = i := by
  cases i
  simp only [ofBits, bits, InstructionS.mk.injEq]
  grind

theorem InstructionU.ofBits_bits (i : InstructionU) : ofBits i.bits = i := by
  cases i
  simp only [ofBits, bits, InstructionU.mk.injEq]
  grind

theorem InstructionB.ofBits_bits (i : InstructionB) : ofBits i.bits = i := by
  cases i
  simp only [ofBits, bits, InstructionB.mk.injEq]
  grind

theorem InstructionJ.ofBits_bits (i : InstructionJ) : ofBits i.bits = i := by
  cases i
  simp only [ofBits, bits, InstructionJ.mk.injEq]
  grind

/-! ## Accessors -/

/-- Arithmetic shift for sign extension. -/
def InstructionI.signedImm (i : InstructionI) : U32 := (i.imm.setWidth 32 <<< 20).sshiftRight 20

def InstructionI.shiftImm (i : InstructionI) : U32 := i.imm.setWidth 32 &&& 0x1F

def InstructionS.signedImm (i : InstructionS) : U32 :=
  let imm : U32 := i.imm1.setWidth 32 ||| i.imm2.setWidth 32 <<< 5
  (imm <<< 20).sshiftRight 20

def InstructionU.upperImm (i : InstructionU) : U32 := i.imm.setWidth 32 <<< 12

def InstructionB.signedImm (i : InstructionB) : U32 :=
  i.imm2.setWidth 32 <<< 1 ||| i.imm3.setWidth 32 <<< 5 ||| i.imm1.setWidth 32 <<< 11 |||
    if i.imm4 = 1 then 0xFFFFF000 else 0

def InstructionJ.jumpOffset (i : InstructionJ) : U32 :=
  let jo : U32 := i.imm3.setWidth 32 <<< 1 ||| i.imm2.setWidth 32 <<< 11 ||| i.imm1.setWidth 32 <<< 12
  jo ||| if i.imm4 = 1 then 0xFFF00000 else 0

/-! ## The encoder of the RISC-V assembler

A descriptor holds what a mnemonic fixes of its instruction; the encoder adds
the operands of a line. Operands are cut to the width of their fields. -/

/-- `MnemonicDescriptor::Type`. -/
inductive InstructionType where
  | INVALID | R | I | S | B | U | J | Pseudo
  deriving DecidableEq, Repr

/-- The operands of a line. -/
structure Values where
  rs1 : Option U8
  rs2 : Option U8
  rd : Option U8
  imm : Option U32
  deriving DecidableEq, Repr

/-- The immediate shares its place with `funct7`. -/
structure MnemonicDescriptor where
  type : InstructionType
  opcode7 : U8
  funct3 : U8
  rs1 : U8
  rs2 : U8
  rd : U8
  immOrFunct7 : U32
  deriving DecidableEq, Repr

namespace MnemonicDescriptor

def create (type : InstructionType) (opcode7 : U8) : MnemonicDescriptor := ⟨type, opcode7, 0, 0, 0, 0, 0⟩

def R (opcode7 funct3 funct7 : U8) : MnemonicDescriptor :=
  { create .R opcode7 with funct3 := funct3 &&& 0x7, immOrFunct7 := (funct7 &&& 0x7F).setWidth 32 }

def I (opcode7 funct3 : U8) : MnemonicDescriptor := { create .I opcode7 with funct3 := funct3 &&& 0x7 }

/-- Bit 10 of the immediate tells logical from arithmetic shifts. -/
def IShiftByConstant (opcode7 funct3 shiftType : U8) : MnemonicDescriptor :=
  { create .I opcode7 with funct3 := funct3 &&& 0x7, immOrFunct7 := (shiftType &&& 0x1).setWidth 32 <<< 10 }

def S (opcode7 funct3 : U8) : MnemonicDescriptor := { create .S opcode7 with funct3 := funct3 &&& 0x7 }

def B (opcode7 funct3 : U8) : MnemonicDescriptor := { create .B opcode7 with funct3 := funct3 &&& 0x7 }

def U (opcode7 : U8) : MnemonicDescriptor := create .U opcode7

def J (opcode7 : U8) : MnemonicDescriptor := create .J opcode7

variable (self : MnemonicDescriptor) (v : Values)

def encodeR : InstructionR :=
  let rs1 := v.rs1.getD self.rs1 &&& 0x1F
  let rs2 := v.rs2.getD self.rs2 &&& 0x1F
  let rd := v.rd.getD self.rd &&& 0x1F
  let funct7 : U8 := (self.immOrFunct7 &&& 0x7F).setWidth 8
  { opcode := self.opcode7.setWidth 7
    rd := rd.setWidth 5
    funct3 := self.funct3.setWidth 3
    rs1 := rs1.setWidth 5
    rs2 := rs2.setWidth 5
    funct7 := funct7.setWidth 7 }

/-- The immediate with the bits that the mnemonic has set in it. -/
def immediate (mask : U32) : U32 := (v.imm.getD 0 ||| self.immOrFunct7) &&& mask

def encodeI : InstructionI :=
  let rs1 := v.rs1.getD self.rs1 &&& 0x1F
  let rd := v.rd.getD self.rd &&& 0x1F
  let imm : U16 := (self.immediate v 0xFFF).setWidth 16
  { opcode := self.opcode7.setWidth 7
    rd := rd.setWidth 5
    funct3 := self.funct3.setWidth 3
    rs1 := rs1.setWidth 5
    imm := imm.setWidth 12 }

def encodeS : InstructionS :=
  let rs1 := v.rs1.getD self.rs1 &&& 0x1F
  let rs2 := v.rs2.getD self.rs2 &&& 0x1F
  let imm : U16 := (self.immediate v 0xFFF).setWidth 16
  let imm11_05 : U8 := (imm >>> 5 &&& 0x7F).setWidth 8
  let imm4_0 : U8 := (imm &&& 0x1F).setWidth 8
  { opcode := self.opcode7.setWidth 7
    imm1 := imm4_0.setWidth 5
    funct3 := self.funct3.setWidth 3
    rs1 := rs1.setWidth 5
    rs2 := rs2.setWidth 5
    imm2 := imm11_05.setWidth 7 }

def encodeU : InstructionU :=
  let rd := v.rd.getD self.rd &&& 0x1F
  let imm := self.immediate v 0xFFFFF
  { opcode := self.opcode7.setWidth 7
    rd := rd.setWidth 5
    imm := imm.setWidth 20 }

/-- The mask has no room for bit 12, and the fields are given each other's bits. -/
def encodeB : InstructionB :=
  let rs1 := v.rs1.getD self.rs1 &&& 0x1F
  let rs2 := v.rs2.getD self.rs2 &&& 0x1F
  let imm : U16 := (self.immediate v 0xFFF).setWidth 16
  let imm12_12 : U8 := (imm >>> 12 &&& 1).setWidth 8
  let imm10_5 : U8 := (imm >>> 5 &&& 0x3F).setWidth 8
  let imm4_1 : U8 := (imm >>> 1 &&& 0xF).setWidth 8
  let imm11_11 : U8 := (imm >>> 11 &&& 1).setWidth 8
  { opcode := self.opcode7.setWidth 7
    imm1 := imm4_1.setWidth 1
    imm2 := imm10_5.setWidth 4
    funct3 := self.funct3.setWidth 3
    rs1 := rs1.setWidth 5
    rs2 := rs2.setWidth 5
    imm3 := imm11_11.setWidth 6
    imm4 := imm12_12.setWidth 1 }

/-- The mask has no room for bit 20, whose place takes bit 11. -/
def encodeJ : InstructionJ :=
  let rd := v.rd.getD self.rd &&& 0x1F
  let imm := self.immediate v 0xFFFFF
  let imm20_20 : U8 := (imm >>> 20 &&& 1).setWidth 8
  let imm10_01 : U16 := (imm >>> 1 &&& 0x3FF).setWidth 16
  let imm11_11 : U8 := (imm >>> 11 &&& 1).setWidth 8
  let imm19_12 : U16 := (imm >>> 12 &&& 0xFF).setWidth 16
  { opcode := self.opcode7.setWidth 7
    rd := rd.setWidth 5
    imm1 := imm19_12.setWidth 8
    imm2 := imm20_20.setWidth 1
    imm3 := imm10_01.setWidth 10
    imm4 := imm11_11.setWidth 1 }

def encode : U32 :=
  match self.type with
  | .INVALID => 0
  | .R => (self.encodeR v).bits
  | .I => (self.encodeI v).bits
  | .S => (self.encodeS v).bits
  | .B => (self.encodeB v).bits
  | .U => (self.encodeU v).bits
  | .J => (self.encodeJ v).bits
  | .Pseudo => 0

end MnemonicDescriptor

end Pepp.Riscv

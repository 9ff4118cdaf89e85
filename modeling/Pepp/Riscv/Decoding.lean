import Mathlib.Data.Nat.Bitwise
import Mathlib.Tactic.IntervalCases
import Pepp.Riscv.Encoder

/-!
# Reading encoded instructions

What the accessors read from an encoded word, one format after the other, and
for which immediates it is what the line gave.
-/

namespace Pepp.Riscv

/-- The numbers a line and its mnemonic give. -/
structure Operands where
  opcode7 : U8
  funct3 : U8
  funct7 : U8
  rs1 : U8
  rs2 : U8
  rd : U8

namespace Operands

variable (o : Operands)

/-- Each number has room in its field. -/
structure InRange : Prop where
  opcode7 : o.opcode7.toNat < 2 ^ 7
  funct3 : o.funct3.toNat < 2 ^ 3
  funct7 : o.funct7.toNat < 2 ^ 7
  rs1 : o.rs1.toNat < 2 ^ 5
  rs2 : o.rs2.toNat < 2 ^ 5
  rd : o.rd.toNat < 2 ^ 5

/-! ## What is to be read from a word -/

def wordR : U32 := (MnemonicDescriptor.R o.opcode7 o.funct3 o.funct7).encode ⟨some o.rs1, some o.rs2, some o.rd, none⟩

def wordI (imm : U32) : U32 := (MnemonicDescriptor.I o.opcode7 o.funct3).encode ⟨some o.rs1, none, some o.rd, some imm⟩

/-- The word of a shift by a constant, whose kind is in a bit above the amount. -/
def wordShift (shiftType : U8) (imm : U32) : U32 :=
  (MnemonicDescriptor.IShiftByConstant o.opcode7 o.funct3 shiftType).encode ⟨some o.rs1, none, some o.rd, some imm⟩

def wordS (imm : U32) : U32 := (MnemonicDescriptor.S o.opcode7 o.funct3).encode ⟨some o.rs1, some o.rs2, none, some imm⟩

def wordB (imm : U32) : U32 := (MnemonicDescriptor.B o.opcode7 o.funct3).encode ⟨some o.rs1, some o.rs2, none, some imm⟩

def wordU (imm : U32) : U32 := (MnemonicDescriptor.U o.opcode7).encode ⟨none, none, some o.rd, some imm⟩

def wordJ (imm : U32) : U32 := (MnemonicDescriptor.J o.opcode7).encode ⟨none, none, some o.rd, some imm⟩

structure ReadsR (i : InstructionR) : Prop where
  opcode : i.opcode.setWidth 8 = o.opcode7
  rd : i.rd.setWidth 8 = o.rd
  funct3 : i.funct3.setWidth 8 = o.funct3
  rs1 : i.rs1.setWidth 8 = o.rs1
  rs2 : i.rs2.setWidth 8 = o.rs2
  funct7 : i.funct7.setWidth 8 = o.funct7

structure ReadsI (i : InstructionI) : Prop where
  opcode : i.opcode.setWidth 8 = o.opcode7
  rd : i.rd.setWidth 8 = o.rd
  funct3 : i.funct3.setWidth 8 = o.funct3
  rs1 : i.rs1.setWidth 8 = o.rs1

structure ReadsS (i : InstructionS) : Prop where
  opcode : i.opcode.setWidth 8 = o.opcode7
  funct3 : i.funct3.setWidth 8 = o.funct3
  rs1 : i.rs1.setWidth 8 = o.rs1
  rs2 : i.rs2.setWidth 8 = o.rs2

structure ReadsB (i : InstructionB) : Prop where
  opcode : i.opcode.setWidth 8 = o.opcode7
  funct3 : i.funct3.setWidth 8 = o.funct3
  rs1 : i.rs1.setWidth 8 = o.rs1
  rs2 : i.rs2.setWidth 8 = o.rs2

structure ReadsU (i : InstructionU) : Prop where
  opcode : i.opcode.setWidth 8 = o.opcode7
  rd : i.rd.setWidth 8 = o.rd

structure ReadsJ (i : InstructionJ) : Prop where
  opcode : i.opcode.setWidth 8 = o.opcode7
  rd : i.rd.setWidth 8 = o.rd

end Operands

/-! ## Fields -/

section Fields

variable {x : U8}

theorem field {k : Nat} (h : x.toNat < 2 ^ k) : (x.setWidth k).setWidth 8 = x := by
  apply BitVec.eq_of_toNat_eq
  rw [BitVec.toNat_setWidth, BitVec.toNat_setWidth, Nat.mod_eq_of_lt h, Nat.mod_eq_of_lt x.isLt]

theorem masked {k : Nat} (hk : k < 8) (h : x.toNat < 2 ^ k) : x &&& BitVec.ofNat 8 (2 ^ k - 1) = x := by
  apply BitVec.eq_of_toNat_eq
  have hpow : 2 ^ k - 1 < 2 ^ 8 := by
    have := Nat.pow_lt_pow_right (show 1 < 2 by decide) hk
    omega
  rw [BitVec.toNat_and, BitVec.toNat_ofNat, Nat.mod_eq_of_lt hpow, Nat.and_two_pow_sub_one_eq_mod, Nat.mod_eq_of_lt h]

theorem opcode_field (h : x.toNat < 2 ^ 7) : (x.setWidth 7).setWidth 8 = x := field h

theorem register_field (h : x.toNat < 2 ^ 5) : ((x &&& 0x1F).setWidth 5).setWidth 8 = x := by
  rw [show x &&& 0x1F = x from masked (by decide) h, field h]

theorem funct3_field (h : x.toNat < 2 ^ 3) : ((x &&& 0x7).setWidth 3).setWidth 8 = x := by
  rw [show x &&& 0x7 = x from masked (by decide) h, field h]

theorem funct7_field (h : x.toNat < 2 ^ 7) :
    ((((x &&& 0x7F).setWidth 32 &&& (0x7F : U32)).setWidth 8).setWidth 7).setWidth 8 = x := by
  have hbit : x[7] = false := by
    rw [← BitVec.getLsbD_eq_getElem, BitVec.getLsbD, Nat.testBit_lt_two_pow h]
  apply BitVec.eq_of_getLsbD_eq
  intro i hi
  interval_cases i <;> simp [hbit]

end Fields

namespace Operands

variable {o : Operands}

section

variable (h : o.InRange)
include h

theorem readsR : o.ReadsR (.ofBits o.wordR) := by
  rw [wordR, MnemonicDescriptor.encode]
  simp only [MnemonicDescriptor.R, MnemonicDescriptor.create, InstructionR.ofBits_bits]
  exact ⟨opcode_field h.opcode7, register_field h.rd, funct3_field h.funct3, register_field h.rs1,
    register_field h.rs2, funct7_field h.funct7⟩

theorem readsI (imm : U32) : o.ReadsI (.ofBits (o.wordI imm)) := by
  rw [wordI, MnemonicDescriptor.encode]
  simp only [MnemonicDescriptor.I, MnemonicDescriptor.create, InstructionI.ofBits_bits]
  exact ⟨opcode_field h.opcode7, register_field h.rd, funct3_field h.funct3, register_field h.rs1⟩

theorem readsShift (shiftType : U8) (imm : U32) : o.ReadsI (.ofBits (o.wordShift shiftType imm)) := by
  rw [wordShift, MnemonicDescriptor.encode]
  simp only [MnemonicDescriptor.IShiftByConstant, MnemonicDescriptor.create, InstructionI.ofBits_bits]
  exact ⟨opcode_field h.opcode7, register_field h.rd, funct3_field h.funct3, register_field h.rs1⟩

theorem readsS (imm : U32) : o.ReadsS (.ofBits (o.wordS imm)) := by
  rw [wordS, MnemonicDescriptor.encode]
  simp only [MnemonicDescriptor.S, MnemonicDescriptor.create, InstructionS.ofBits_bits]
  exact ⟨opcode_field h.opcode7, funct3_field h.funct3, register_field h.rs1, register_field h.rs2⟩

theorem readsB (imm : U32) : o.ReadsB (.ofBits (o.wordB imm)) := by
  rw [wordB, MnemonicDescriptor.encode]
  simp only [MnemonicDescriptor.B, MnemonicDescriptor.create, InstructionB.ofBits_bits]
  exact ⟨opcode_field h.opcode7, funct3_field h.funct3, register_field h.rs1, register_field h.rs2⟩

theorem readsU (imm : U32) : o.ReadsU (.ofBits (o.wordU imm)) := by
  rw [wordU, MnemonicDescriptor.encode]
  simp only [MnemonicDescriptor.U, MnemonicDescriptor.create, InstructionU.ofBits_bits]
  exact ⟨opcode_field h.opcode7, register_field h.rd⟩

theorem readsJ (imm : U32) : o.ReadsJ (.ofBits (o.wordJ imm)) := by
  rw [wordJ, MnemonicDescriptor.encode]
  simp only [MnemonicDescriptor.J, MnemonicDescriptor.create, InstructionJ.ofBits_bits]
  exact ⟨opcode_field h.opcode7, register_field h.rd⟩

end

end Operands

/-! ## Immediates -/

namespace MnemonicDescriptor

/-- Twelve bits are read with their sign. -/
theorem signExtended {imm : U32} (h : -2 ^ 11 ≤ imm.toInt) (h' : imm.toInt < 2 ^ 11) :
    (imm <<< 20).sshiftRight 20 = imm := by
  have hshift : (imm <<< 20).toInt = imm.toInt * 2 ^ 20 := by
    rw [BitVec.toInt_shiftLeft, Nat.shiftLeft_eq, Int.bmod_def]
    rw [BitVec.toInt_eq_toNat_cond] at *
    push_cast
    split at h <;> omega
  apply BitVec.eq_of_toInt_eq
  rw [BitVec.toInt_sshiftRight, hshift, Int.shiftRight_eq_div_pow]
  omega

variable (opcode7 funct3 : U8) (imm : U32)

variable (v : Values)

theorem signedImm_encodeI : ((I opcode7 funct3).encodeI v).signedImm = (v.imm.getD 0 <<< 20).sshiftRight 20 := by
  have hlow : ((I opcode7 funct3).encodeI v).imm.setWidth 32 <<< 20 =
      v.imm.getD 0 <<< 20 := by
    simp only [encodeI, I, create, immediate]
    apply BitVec.eq_of_getLsbD_eq
    intro i hi
    interval_cases i <;> simp
  rw [InstructionI.signedImm, hlow]

theorem signedImm_encodeS : ((S opcode7 funct3).encodeS v).signedImm = (v.imm.getD 0 <<< 20).sshiftRight 20 := by
  have hlow : (((S opcode7 funct3).encodeS v).imm1.setWidth 32 ||| ((S opcode7 funct3).encodeS v).imm2.setWidth 32 <<< 5) <<< 20 =
      v.imm.getD 0 <<< 20 := by
    simp only [encodeS, S, create, immediate]
    generalize v.imm.getD 0 = imm
    apply BitVec.eq_of_getLsbD_eq
    intro i hi
    interval_cases i <;>
      simp only [BitVec.getLsbD_or, BitVec.getLsbD_and, BitVec.getLsbD_shiftLeft, BitVec.getLsbD_setWidth,
        BitVec.getLsbD_ushiftRight] <;>
      simp
  rw [InstructionS.signedImm, hlow]

/-- The amount of a shift is read past the bit that tells its kind. -/
theorem shiftImm_encodeI (opcode7 funct3 shiftType : U8) (v : Values) :
    ((IShiftByConstant opcode7 funct3 shiftType).encodeI v).shiftImm = v.imm.getD 0 &&& 0x1F := by
  simp only [InstructionI.shiftImm, encodeI, IShiftByConstant, create, immediate]
  generalize v.imm.getD 0 = imm
  apply BitVec.eq_of_getLsbD_eq
  intro i hi
  interval_cases i <;>
    simp only [BitVec.getLsbD_or, BitVec.getLsbD_and, BitVec.getLsbD_shiftLeft, BitVec.getLsbD_setWidth] <;>
    simp

theorem imm_encodeU (opcode7 : U8) (v : Values) :
    ((U opcode7).encodeU v).imm.setWidth 32 = v.imm.getD 0 &&& 0xFFFFF := by
  simp only [encodeU, U, create, immediate]
  apply BitVec.eq_of_getLsbD_eq
  intro i hi
  interval_cases i <;> simp

/-- The bits of a branch's immediate where they come back. -/
def strayedBranch (imm : U32) : U32 :=
  (imm >>> 5 &&& 0xF) <<< 1 ||| (imm >>> 11 &&& 1) <<< 5 ||| (imm >>> 1 &&& 1) <<< 11

theorem imm4_encodeB (self : MnemonicDescriptor) (v : Values) : (self.encodeB v).imm4 = 0 := by
  simp only [encodeB, immediate]
  apply BitVec.eq_of_getLsbD_eq
  intro i hi
  interval_cases i
  simp

theorem signedImm_encodeB : ((B opcode7 funct3).encodeB v).signedImm = strayedBranch (v.imm.getD 0) := by
  rw [InstructionB.signedImm, if_neg (by rw [imm4_encodeB]; decide)]
  simp only [encodeB, B, create, immediate, strayedBranch]
  generalize v.imm.getD 0 = imm
  apply BitVec.eq_of_getLsbD_eq
  intro i hi
  interval_cases i <;>
    simp only [BitVec.getLsbD_or, BitVec.getLsbD_and, BitVec.getLsbD_shiftLeft, BitVec.getLsbD_setWidth,
      BitVec.getLsbD_ushiftRight] <;>
    simp

theorem getLsbD_strayedBranch (i : Nat) : (strayedBranch imm).getLsbD i =
    if 1 ≤ i ∧ i < 5 then imm.getLsbD (i + 4) else if i = 5 then imm.getLsbD 11
    else decide (i = 11) && imm.getLsbD 1 := by
  have hfour : ∀ j, (0xF : U32).getLsbD j = decide (j < 4) := fun j => Nat.testBit_two_pow_sub_one 4 j
  have hone : ∀ j, (1 : U32).getLsbD j = decide (j < 1) := fun j => Nat.testBit_two_pow_sub_one 1 j
  simp only [strayedBranch, BitVec.getLsbD_or, BitVec.getLsbD_shiftLeft, BitVec.getLsbD_and,
    BitVec.getLsbD_ushiftRight, hfour, hone]
  split_ifs with hlow h5
  · have hi : 5 + (i - 1) = i + 4 := by omega
    simp [hi, show i < 32 by omega, show ¬i < 1 by omega, show i - 1 < 4 by omega, show i < 5 by omega,
      show i < 11 by omega]
  · simp [h5]
  · by_cases h11 : i = 11
    · simp [h11]
    · simp [h11]
      omega

/-- What the bits are exchanged for comes back unchanged in two offsets only. -/
theorem strayedBranch_iff : strayedBranch imm = imm ↔ imm = 0 ∨ imm = 2082 := by
  constructor
  · intro h
    have hbit : ∀ i, imm.getLsbD i = if 1 ≤ i ∧ i < 5 then imm.getLsbD (i + 4) else if i = 5 then imm.getLsbD 11
        else decide (i = 11) && imm.getLsbD 1 := by
      intro i
      rw [← getLsbD_strayedBranch, h]
    have h5 : imm.getLsbD 5 = imm.getLsbD 1 := (hbit 1).symm
    have h11 : imm.getLsbD 11 = imm.getLsbD 5 := (hbit 5).symm
    have hzero : ∀ i < 32, i ≠ 1 → i ≠ 5 → i ≠ 11 → imm.getLsbD i = false := by
      intro i hi h1 h5 h11
      rw [hbit i]
      split_ifs with hlow
      · rw [hbit (i + 4), if_neg (by omega), if_neg (by omega), decide_eq_false (by omega), Bool.false_and]
      · rw [decide_eq_false h11, Bool.false_and]
    cases h1 : imm.getLsbD 1 with
    | false =>
      left
      apply BitVec.eq_of_getLsbD_eq
      intro i hi
      by_cases hs : i = 1 ∨ i = 5 ∨ i = 11
      · rcases hs with rfl | rfl | rfl <;> simp only [h11, h5, h1] <;> decide
      · rw [hzero i hi (by omega) (by omega) (by omega)]
        simp
    | true =>
      have hword : ∀ i < 32, i ≠ 1 → i ≠ 5 → i ≠ 11 → (2082 : U32).getLsbD i = false := by decide
      right
      apply BitVec.eq_of_getLsbD_eq
      intro i hi
      by_cases hs : i = 1 ∨ i = 5 ∨ i = 11
      · rcases hs with rfl | rfl | rfl <;> simp only [h11, h5, h1] <;> decide
      · rw [hzero i hi (by omega) (by omega) (by omega), hword i hi (by omega) (by omega) (by omega)]
  · rintro (rfl | rfl) <;> decide

/-- The bits of a jump's immediate where they come back: bit 11 as the sign. -/
def strayedJump (imm : U32) : U32 :=
  (imm >>> 1 &&& 0x3FF) <<< 1 ||| (imm >>> 12 &&& 0xFF) <<< 12 ||| if imm.getLsbD 11 then 0xFFF00000 else 0

theorem imm4_encodeJ (opcode7 : U8) (v : Values) :
    ((J opcode7).encodeJ v).imm4 = 1 ↔ (v.imm.getD 0).getLsbD 11 = true := by
  simp only [encodeJ, J, create, immediate]
  constructor
  · intro h
    have h0 := congrArg (fun b => b.getLsbD 0) h
    simpa using h0
  · intro h
    apply BitVec.eq_of_getLsbD_eq
    intro i hi
    interval_cases i
    simpa using h

theorem jumpOffset_encodeJ (opcode7 : U8) (v : Values) :
    ((J opcode7).encodeJ v).jumpOffset = strayedJump (v.imm.getD 0) := by
  simp only [InstructionJ.jumpOffset, if_congr (imm4_encodeJ opcode7 v) rfl rfl, strayedJump]
  congr 1
  simp only [encodeJ, J, create, immediate]
  generalize v.imm.getD 0 = imm
  apply BitVec.eq_of_getLsbD_eq
  intro i hi
  interval_cases i <;>
    simp only [BitVec.getLsbD_or, BitVec.getLsbD_and, BitVec.getLsbD_shiftLeft, BitVec.getLsbD_setWidth,
      BitVec.getLsbD_ushiftRight] <;>
    simp

theorem strayedJump_iff (heven : imm.toNat % 2 = 0) (hub : imm.toInt < 2 ^ 20) :
    strayedJump imm = imm ↔ 0 ≤ imm.toInt ∧ imm.getLsbD 11 = false := by
  constructor
  · intro h
    have hbit : ∀ j, (strayedJump imm).getLsbD j = imm.getLsbD j := fun j => by rw [h]
    rw [strayedJump] at hbit
    have h11 : imm.getLsbD 11 = false := by
      have := hbit 11
      by_cases hc : imm.getLsbD 11 = true
      · simp_all
      · simpa using hc
    have h31 : imm.getLsbD 31 = false := by
      have := hbit 31
      simp_all
    refine ⟨?_, h11⟩
    rw [BitVec.toInt_eq_msb_cond, BitVec.msb_eq_getLsbD_last, h31, if_neg Bool.false_ne_true]
    omega
  · rintro ⟨hnn, h11⟩
    have hlt : imm.toNat < 2 ^ 20 := by
      rw [BitVec.toInt_eq_toNat_cond] at *
      split at hnn <;> omega
    apply BitVec.eq_of_getLsbD_eq
    intro i hi
    have hhigh : 20 ≤ i → imm.getLsbD i = false := fun h => by
      rw [BitVec.getLsbD, Nat.testBit_lt_two_pow (hlt.trans_le (Nat.pow_le_pow_right (by decide) h))]
    have h0 : imm.getLsbD 0 = false := by
      rw [BitVec.getLsbD, Nat.testBit_zero]
      simp [heven]
    rw [strayedJump, h11]
    interval_cases i <;> simp_all

end MnemonicDescriptor

/-! ## Words decode to their operands -/

namespace Operands

variable (o : Operands)

/-- A signed immediate of twelve bits. -/
def Short (imm : U32) : Prop := -2 ^ 11 ≤ imm.toInt ∧ imm.toInt < 2 ^ 11

/-- The offset of a branch, a multiple of two. -/
def BranchOffset (imm : U32) : Prop := -2 ^ 12 ≤ imm.toInt ∧ imm.toInt < 2 ^ 12 ∧ imm.toInt % 2 = 0

/-- The offset of a jump, a multiple of two. -/
def JumpOffset (imm : U32) : Prop := -2 ^ 20 ≤ imm.toInt ∧ imm.toInt < 2 ^ 20 ∧ imm.toInt % 2 = 0

instance (imm : U32) : Decidable (Short imm) := inferInstanceAs (Decidable (_ ∧ _))
instance (imm : U32) : Decidable (BranchOffset imm) := inferInstanceAs (Decidable (_ ∧ _))
instance (imm : U32) : Decidable (JumpOffset imm) := inferInstanceAs (Decidable (_ ∧ _))

def DecodesR : Prop := o.ReadsR (.ofBits o.wordR)

def DecodesI (imm : U32) : Prop :=
  o.ReadsI (.ofBits (o.wordI imm)) ∧ (InstructionI.ofBits (o.wordI imm)).signedImm = imm

def DecodesShift (shiftType : U8) (imm : U32) : Prop :=
  o.ReadsI (.ofBits (o.wordShift shiftType imm)) ∧ (InstructionI.ofBits (o.wordShift shiftType imm)).shiftImm = imm

def DecodesS (imm : U32) : Prop :=
  o.ReadsS (.ofBits (o.wordS imm)) ∧ (InstructionS.ofBits (o.wordS imm)).signedImm = imm

def DecodesU (imm : U32) : Prop :=
  o.ReadsU (.ofBits (o.wordU imm)) ∧ (InstructionU.ofBits (o.wordU imm)).imm.setWidth 32 = imm ∧
    (InstructionU.ofBits (o.wordU imm)).upperImm = imm <<< 12

def DecodesB (imm : U32) : Prop :=
  o.ReadsB (.ofBits (o.wordB imm)) ∧ (InstructionB.ofBits (o.wordB imm)).signedImm = imm

def DecodesJ (imm : U32) : Prop :=
  o.ReadsJ (.ofBits (o.wordJ imm)) ∧ (InstructionJ.ofBits (o.wordJ imm)).jumpOffset = imm

variable {o}

variable {imm : U32}

section

variable (h : o.InRange)
include h

theorem decodesI (hi : Short imm) : o.DecodesI imm := by
  refine ⟨readsI h imm, ?_⟩
  rw [wordI, MnemonicDescriptor.encode]
  exact (congrArg _ (InstructionI.ofBits_bits _)).trans
    ((MnemonicDescriptor.signedImm_encodeI _ _ _).trans (MnemonicDescriptor.signExtended hi.1 hi.2))

theorem decodesShift (shiftType : U8) (hi : imm.toNat < 2 ^ 5) : o.DecodesShift shiftType imm := by
  refine ⟨readsShift h shiftType imm, ?_⟩
  rw [wordShift, MnemonicDescriptor.encode]
  refine (congrArg _ (InstructionI.ofBits_bits _)).trans ((MnemonicDescriptor.shiftImm_encodeI _ _ _ _).trans ?_)
  apply BitVec.eq_of_toNat_eq
  change imm.toNat &&& 2 ^ 5 - 1 = imm.toNat
  rw [Nat.and_two_pow_sub_one_eq_mod, Nat.mod_eq_of_lt hi]

theorem decodesS (hi : Short imm) : o.DecodesS imm := by
  refine ⟨readsS h imm, ?_⟩
  rw [wordS, MnemonicDescriptor.encode]
  exact (congrArg _ (InstructionS.ofBits_bits _)).trans
    ((MnemonicDescriptor.signedImm_encodeS _ _ _).trans (MnemonicDescriptor.signExtended hi.1 hi.2))

theorem decodesU (hi : imm.toNat < 2 ^ 20) : o.DecodesU imm := by
  have himm : (InstructionU.ofBits (o.wordU imm)).imm.setWidth 32 = imm := by
    rw [wordU, MnemonicDescriptor.encode]
    refine (congrArg (fun i => i.imm.setWidth 32) (InstructionU.ofBits_bits _)).trans
      ((MnemonicDescriptor.imm_encodeU _ _).trans ?_)
    apply BitVec.eq_of_toNat_eq
    change imm.toNat &&& 2 ^ 20 - 1 = imm.toNat
    rw [Nat.and_two_pow_sub_one_eq_mod, Nat.mod_eq_of_lt hi]
  exact ⟨readsU h imm, himm, by rw [InstructionU.upperImm, himm]⟩

theorem decodesB_iff (imm : U32) : o.DecodesB imm ↔ imm = 0 ∨ imm = 2082 := by
  have hread : (InstructionB.ofBits (o.wordB imm)).signedImm = MnemonicDescriptor.strayedBranch imm := by
    rw [wordB, MnemonicDescriptor.encode]
    exact (congrArg _ (InstructionB.ofBits_bits _)).trans (MnemonicDescriptor.signedImm_encodeB _ _ _)
  rw [DecodesB, hread, MnemonicDescriptor.strayedBranch_iff]
  exact and_iff_right (readsB h imm)

theorem decodesJ_iff (hi : JumpOffset imm) : o.DecodesJ imm ↔ 0 ≤ imm.toInt ∧ imm.getLsbD 11 = false := by
  have hread : (InstructionJ.ofBits (o.wordJ imm)).jumpOffset = MnemonicDescriptor.strayedJump imm := by
    rw [wordJ, MnemonicDescriptor.encode]
    exact (congrArg _ (InstructionJ.ofBits_bits _)).trans (MnemonicDescriptor.jumpOffset_encodeJ _ _)
  have heven : imm.toNat % 2 = 0 := by
    have := hi.2.2
    rw [BitVec.toInt_eq_toNat_cond] at this
    split at this <;> omega
  rw [DecodesJ, hread, MnemonicDescriptor.strayedJump_iff imm heven hi.2.1]
  exact and_iff_right (readsJ h imm)

end

/-- Every operand is read back in the formats R, I, S and U, the amount of a shift by a constant too. A branch comes back for two offsets, a jump for those
offsets forward that leave bit 11 clear. -/
theorem words_decode_iff (h : o.InRange) :
    o.DecodesR ∧ (∀ imm, Short imm → o.DecodesI imm) ∧ (∀ imm, Short imm → o.DecodesS imm) ∧
    (∀ imm, BranchOffset imm → (o.DecodesB imm ↔ imm = 0 ∨ imm = 2082)) ∧
    (∀ imm, imm.toNat < 2 ^ 20 → o.DecodesU imm) ∧
    (∀ imm, JumpOffset imm → (o.DecodesJ imm ↔ 0 ≤ imm.toInt ∧ imm.getLsbD 11 = false)) ∧
    (∀ shiftType imm, imm.toNat < 2 ^ 5 → o.DecodesShift shiftType imm) :=
  ⟨readsR h, fun _ => decodesI h, fun _ => decodesS h, fun imm _ => decodesB_iff h imm, fun _ => decodesU h,
    fun _ => decodesJ_iff h, fun shiftType _ => decodesShift h shiftType⟩

/-- `beq x1, x2`, a branch. -/
def beq : Operands := ⟨0x63, 0, 0, 1, 2, 0⟩

theorem words_decode_beq : (beq.DecodesR ∧ beq.DecodesI 5 ∧ beq.DecodesS (-5) ∧ beq.DecodesU 0x12345 ∧
    beq.DecodesShift 1 31) ∧ ¬ beq.DecodesB 8 ∧ ¬ beq.DecodesJ (-4) := by
  have h := words_decode_iff (o := beq) ⟨by decide, by decide, by decide, by decide, by decide, by decide⟩
  obtain ⟨hr, hi, hs, hb, hu, hj, hshift⟩ := h
  refine ⟨⟨hr, hi 5 (by decide), hs (-5) (by decide), hu _ (by decide), hshift 1 31 (by decide)⟩, ?_, ?_⟩
  · rw [hb 8 (by decide)]
    decide
  · rw [hj (-4) (by decide)]
    decide

/-- A branch back by four bytes is read as one forward by 62, a jump back by four as one back by 2052. -/
theorem not_words_decode : BranchOffset (-4) ∧ (InstructionB.ofBits (beq.wordB (-4))).signedImm = 62 ∧
    ¬ beq.DecodesB (-4) ∧ JumpOffset (-4) ∧ (InstructionJ.ofBits (beq.wordJ (-4))).jumpOffset = -2052 ∧
    ¬ beq.DecodesJ (-4) := by
  refine ⟨by decide, by decide, fun h => ?_, by decide, by decide, fun h => ?_⟩
  · exact absurd h.2 (by decide)
  · exact absurd h.2 (by decide)

end Operands

end Pepp.Riscv

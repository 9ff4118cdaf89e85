import Pepp.Cpu.PepIsa
import Pepp.Cpu.TracedPep10
import Pepp.Lib.Runs

/-!
# The two Pep/10 processors compared

`Agree` relates the states of the core and the sim3 processor in the middle of
an instruction, where each holds its own copy of the program counter. Every
handler of one side is matched with the switch case of the other, and the two
places where they differ are isolated: the byte operand and the trap return.
-/

namespace Pepp

open Isa Span Runs

/-- Everything the two processors share while an instruction runs. -/
structure Agree (c : PepISA3CPU) (s : Sim3.CPU) : Prop where
  a : s.readReg .A = c.regbank.a
  x : s.readReg .X = c.regbank.x
  sp : s.readReg .SP = c.regbank.sp
  os : s.readReg .OS = c.regbank.os
  is : s.readReg .IS = c.regbank.is.setWidth 16
  nzvc : s.readPackedCSR = c.nzvc
  span : c.target.span = fullSpan
  lower : s.memory.lower = 0
  upper : s.memory.upper = 0xFFFF
  memory : ∀ i < 0x10000, s.memory.data i = c.target.data i

/-- The registers both processors address by number and never shadow. -/
def Isa.Register.general (r : Register) : Prop := r = .A ∨ r = .X ∨ r = .SP

namespace Sim3.CPU

theorem readReg_writeReg (s : CPU) (r r' : Register) (v : U16) :
    (s.writeReg r v).readReg r' = if r' = r then v else s.readReg r' := by
  cases r <;> cases r' <;> simp [readReg, writeReg, overwrite, Register.value, wordBytes]

@[simp] theorem readPackedCSR_writeReg (s : CPU) (r : Register) (v : U16) :
    (s.writeReg r v).readPackedCSR = s.readPackedCSR := rfl

@[simp] theorem readReg_writePackedCSR (s : CPU) (r : Register) (v : U8) :
    (s.writePackedCSR v).readReg r = s.readReg r := rfl

@[simp] theorem memory_writeReg (s : CPU) (r : Register) (v : U16) : (s.writeReg r v).memory = s.memory := rfl

@[simp] theorem flagByte_ne_zero (b : Bool) : (flagByte b != 0#8) = b := by cases b <;> rfl

/-- Unpacking a byte and packing it again keeps its low nibble. -/
theorem readPackedCSR_writePackedCSR (s : CPU) (v : U8) :
    (s.writePackedCSR v).readPackedCSR = v &&& PepCSRBank.MASK := by
  have h : ∀ n < 256, packCSR (BitVec.ofNat 8 n &&& 0b1000 != 0) (BitVec.ofNat 8 n &&& 0b0100 != 0)
      (BitVec.ofNat 8 n &&& 0b0010 != 0) (BitVec.ofNat 8 n &&& 0b0001 != 0) =
      BitVec.ofNat 8 n &&& PepCSRBank.MASK := by decide +kernel
  simpa [readPackedCSR, writePackedCSR, unpackCSR, overwrite] using h v.toNat v.isLt

end Sim3.CPU

theorem packCSR_eq_pack (n z v c : Bool) : Sim3.packCSR n z v c = PepCSRBank.pack n z v c := by
  cases n <;> cases z <;> cases v <;> cases c <;> rfl

theorem unpackCSR_eq_unpack (nzvc : U8) : Sim3.unpackCSR nzvc = PepCSRBank.unpack nzvc := rfl

namespace PepISA3CPU

@[simp] theorem pcShadow_writePc (c : PepISA3CPU) (v : U16) : (c.writePc v).pcShadow = v := rfl
@[simp] theorem pcShadow_writePackedCsr (c : PepISA3CPU) (v : U8) : (c.writePackedCsr v).pcShadow = c.pcShadow := rfl
@[simp] theorem pcShadow_incrementCallDepth (c : PepISA3CPU) : c.incrementCallDepth.pcShadow = c.pcShadow := rfl
@[simp] theorem pcShadow_decrementCallDepth (c : PepISA3CPU) : c.decrementCallDepth.pcShadow = c.pcShadow := rfl

theorem pcShadow_writeRegister {c : PepISA3CPU} {r : Register} (v : U16) (h : r ≠ .PC) :
    (c.writeRegister r v).pcShadow = c.pcShadow := by
  simp [writeRegister, h, writeRegisterUncached]

end PepISA3CPU

namespace Agree

variable {c c' : PepISA3CPU} {s s' : Sim3.CPU}

section

variable (h : Agree c s)
include h

theorem setReg {r : Register} (hr : r.general ∨ r = .OS) (v : U16) : Agree (c.writeRegister r v) (s.writeReg r v) := by
  rcases hr with (rfl | rfl | rfl) | rfl <;>
    constructor <;>
    simp [PepISA3CPU.writeRegister, PepISA3CPU.writeRegisterUncached, PepRegisterBank.write,
      Sim3.CPU.readReg_writeReg, h.a, h.x, h.sp, h.os, h.is, h.nzvc, h.span, h.lower, h.upper]
  all_goals exact h.memory

theorem setFlags (v : U8) : Agree (c.writePackedCsr v) (s.writePackedCSR v) :=
  ⟨h.a, h.x, h.sp, h.os, h.is, Sim3.CPU.readPackedCSR_writePackedCSR s v, h.span, h.lower, h.upper, h.memory⟩

theorem writePc (v : U16) : Agree (c.writePc v) s :=
  ⟨h.a, h.x, h.sp, h.os, h.is, h.nzvc, h.span, h.lower, h.upper, h.memory⟩

theorem setPC (v : U16) : Agree c (s.writeReg .PC v) := by
  constructor <;> simp [Sim3.CPU.readReg_writeReg, h.a, h.x, h.sp, h.os, h.is, h.nzvc, h.span, h.lower, h.upper]
  exact h.memory

theorem setDepth : Agree c.incrementCallDepth s.incrDepth :=
  ⟨h.a, h.x, h.sp, h.os, h.is, h.nzvc, h.span, h.lower, h.upper, h.memory⟩

/-- The two processors count the call depth differently, and nothing else reads it. -/
theorem dropDepth (f : Bool) : Agree c.decrementCallDepth (if f then s.incrDepth else s.decrDepth) := by
  unfold Sim3.CPU.decrDepth
  split
  · exact ⟨h.a, h.x, h.sp, h.os, h.is, h.nzvc, h.span, h.lower, h.upper, h.memory⟩
  · split <;> exact ⟨h.a, h.x, h.sp, h.os, h.is, h.nzvc, h.span, h.lower, h.upper, h.memory⟩

theorem readReg {r : Register} (hr : r.general) : s.readReg r = c.readRegister r := by
  rcases hr with rfl | rfl | rfl
  · exact h.a
  · exact h.x
  · exact h.sp

end

end Agree

/-! ## Memory accesses -/

namespace PepISA3CPU

variable (c : PepISA3CPU)

/-- The byte at an address of the RAM. -/
def byte (address : Nat) : U8 := c.target.data address

/-- The word at an address of the RAM. -/
def word (address : U16) : U16 := bigEndian (c.byte address.toNat) (c.byte (address.toNat + 1))

variable {c}

theorem readU16_full (h : c.target.span = fullSpan) {address w : U16} :
    c.readU16 address = .ok w ↔ address.toNat + 2 ≤ 0x10000 ∧ w = c.word address := by
  have ha : (address.setWidth 32).toNat = address.toNat := by simp; omega
  rw [readU16, Dense.readU16_ok, Dense.inBounds_full h (by omega) (by omega), Dense.offset_full h, ha]
  rfl

theorem readU8_full (h : c.target.span = fullSpan) {a : Address} {b : U8} (ha : a.toNat ≤ 0x10000) :
    c.readU8 a = .ok b ↔ a.toNat < 0x10000 ∧ b = c.byte a.toNat := by
  rw [readU8, Dense.readU8_ok, Dense.inBounds_full h (by omega) (by omega), Dense.offset_full h]
  rfl

end PepISA3CPU

namespace Agree

variable {c c' : PepISA3CPU} {s s' : Sim3.CPU}

theorem offset (h : Agree c s) (address : U16) : s.memory.offset address = address.toNat := by
  simp [Sim3.Dense.offset, h.lower]

variable {address : U16} {src : List U8}

theorem inBounds (h : Agree c s) {len : Nat} (hl : 0 < len) (hn : len ≤ 0x10000) :
    s.memory.inBounds address len ↔ address.toNat + len ≤ 0x10000 := by
  have h1 : (BitVec.ofNat 16 len - 1).toNat = len - 1 := by
    rcases Nat.lt_or_eq_of_le hn with hn | rfl
    · rw [BitVec.toNat_sub_of_le]
      · simp; omega
      · simp [BitVec.le_def]; omega
    · rfl
  rw [Sim3.Dense.inBounds, h.lower, h.upper, h1]
  simp [BitVec.le_def]
  omega

theorem readByte (h : Agree c s) {a : U16} {b : U8} (hs : s.readByte a = .ok b) : b = c.byte a.toNat := by
  simp only [Sim3.CPU.readByte, Sim3.Dense.read, h.inBounds Nat.one_pos (by omega), h.offset, bind_ok,
    pure_ok] at hs
  obtain ⟨dest, hd, rfl⟩ := hs
  split at hd
  · injection hd with hd
    subst hd
    simpa [slice_one, PepISA3CPU.byte] using h.memory _ a.isLt
  · contradiction

theorem readWord (h : Agree c s) {address w : U16} (hs : s.readWord address = .ok w) :
    w = c.word address := by
  simp only [Sim3.CPU.readWord, Sim3.Dense.read, h.inBounds (show 0 < 2 by omega) (by omega), h.offset, bind_ok,
    pure_ok] at hs
  obtain ⟨dest, hd, rfl⟩ := hs
  split at hd
  · rename_i hb
    injection hd with hd
    subst hd
    simp [slice_two, PepISA3CPU.word, PepISA3CPU.byte, h.memory _ address.isLt,
      h.memory (address.toNat + 1) (by omega)]
  · contradiction

/-- A successful sim3 store matches the same store in the core RAM. -/
theorem overwriteMemory (h : Agree c s) (hs : s.writeMemory address src = .ok s') :
    Agree { c with target := { c.target with data := overwrite c.target.data address.toNat src } } s' := by
  simp only [Sim3.CPU.writeMemory, Sim3.Dense.write, h.offset, bind_ok, pure_ok] at hs
  obtain ⟨m, hm, rfl⟩ := hs
  split at hm
  · injection hm with hm
    subst hm
    refine ⟨h.a, h.x, h.sp, h.os, h.is, h.nzvc, h.span, h.lower, h.upper, fun i hi => ?_⟩
    simp only [overwrite, h.memory i hi]
  · contradiction

theorem writeMemory (h : Agree c s) (hc : c.writeTarget (address.setWidth 32) src = .ok c')
    (hs : s.writeMemory address src = .ok s') : Agree c' s' := by
  have ha : (address.setWidth 32).toNat = address.toNat := by simp; omega
  simp only [PepISA3CPU.writeTarget, bind_ok, Dense.write_ok, Dense.offset_full h.span, ha, pure_ok] at hc
  obtain ⟨t, ⟨-, rfl⟩, rfl⟩ := hc
  have hm := h.overwriteMemory hs
  exact ⟨hm.a, hm.x, hm.sp, hm.os, hm.is, hm.nzvc, hm.span, hm.lower, hm.upper, hm.memory⟩

theorem pcShadow_writeTarget {address : Address} (hc : c.writeTarget address src = .ok c') :
    c'.pcShadow = c.pcShadow := by
  simp only [PepISA3CPU.writeTarget, bind_ok, pure_ok] at hc
  obtain ⟨t, -, rfl⟩ := hc
  rfl

end Agree

/-! ## Operands -/

theorem bigEndian_and_low (hi lo : U8) : bigEndian hi lo &&& 0xFF = lo.setWidth 16 := by
  have hmask : ∀ i : Fin 16, (255#16)[i.val] = decide (i.val < 8) := by decide
  ext i h
  have hi := hmask ⟨i, h⟩
  by_cases h8 : i < 8 <;> simp_all [bigEndian]

theorem and_full (w : U16) : w &&& 0xFFFF = w := BitVec.and_allOnes

namespace PepISA3CPU

/-- The address a dyadic instruction with its operand specifier at `pc` works on. -/
def operandAddress (c : PepISA3CPU) (pc : U16) : SharedAddrMode → U16
  | .I => pc
  | .D => c.word pc
  | .N => c.word (c.word pc)
  | .S => c.regbank.sp + c.word pc
  | .X => c.regbank.x + c.word pc
  | .SX => c.regbank.x + c.regbank.sp + c.word pc
  | .SF => c.word (c.regbank.sp + c.word pc)
  | .SFX => c.regbank.x + c.word (c.regbank.sp + c.word pc)
  | .Unary => 0

/-- The state once the operand specifier at the program counter is fetched. -/
def specified (c : PepISA3CPU) : PepISA3CPU :=
  (c.writePc (c.pcShadow + 2)).writeRegister .OS (c.word c.pcShadow)

theorem decodeOpAddr_full {c c' : PepISA3CPU} (h : c.target.span = fullSpan) {ea : U16} {addr : SharedAddrMode}
    (hc : c.decodeOpAddr addr = .ok (ea, c')) : c' = c.specified ∧ ea = c.operandAddress c.pcShadow addr := by
  simp only [decodeOpAddr, readPc, bind_ok, readU16_full (c := c.writePc (c.pcShadow + 2)) h] at hc
  obtain ⟨_, ⟨-, rfl⟩, hc⟩ := hc
  have hspec : (c.writePc (c.pcShadow + 2)).writeRegister .OS ((c.writePc (c.pcShadow + 2)).word c.pcShadow) =
      c.specified := rfl
  have hword : ∀ a, c.specified.word a = c.word a := fun _ => rfl
  have hos : (c.writePc (c.pcShadow + 2)).word c.pcShadow = c.word c.pcShadow := rfl
  have hx : c.specified.readRegister .X = c.regbank.x := rfl
  have hsp : c.specified.readRegister .SP = c.regbank.sp := rfl
  rw [hspec, hos, hx, hsp] at hc
  cases addr <;>
    simp only [bind_ok, pure_ok, readU16_full (c := c.specified) h, hword, Prod.mk.injEq, operandAddress] at hc ⊢
  case Unary => contradiction
  case N | SF | SFX =>
    obtain ⟨_, ⟨-, rfl⟩, rfl, rfl⟩ := hc
    exact ⟨rfl, rfl⟩
  all_goals
    obtain ⟨rfl, rfl⟩ := hc
    exact ⟨rfl, rfl⟩

theorem withOperand_full {c c' : PepISA3CPU} (h : c.target.span = fullSpan) {addr : SharedAddrMode}
    {handler : PepISA3CPU → U16 → Except Exception PepISA3CPU} (hc : c.withOperand addr handler = .ok c') :
    handler c.specified (c.operandAddress c.pcShadow addr) = .ok c' := by
  simp only [withOperand, bind_ok] at hc
  obtain ⟨⟨ea, c₁⟩, hd, hc⟩ := hc
  obtain ⟨rfl, rfl⟩ := decodeOpAddr_full h hd
  exact hc

/-- Where sim3 finds a byte operand: at the operand address, except for an immediate. -/
def byteAddress (c : PepISA3CPU) (pc : U16) (addr : SharedAddrMode) : Nat :=
  if addr = .I then pc.toNat + 1 else (c.operandAddress pc addr).toNat

end PepISA3CPU

namespace Agree

variable {c c' : PepISA3CPU} {s s' : Sim3.CPU}

/-- Both processors hold the operand specifier once it is fetched. -/
theorem specified (h : Agree c s) {os : U16} (hs : s.readWord c.pcShadow = .ok os) :
    Agree c.specified (s.writeReg .OS os) := by
  rw [h.readWord hs]
  exact (h.writePc (c.pcShadow + 2)).setReg (.inr rfl) _

variable {is : U8} {pc w : U16}

theorem decodeStoreOperand (h : Agree c s) (hs : s.decodeStoreOperand is (c.word pc) = .ok w) :
    w = c.operandAddress pc (opcodeLUT is).mode.shared := by
  unfold Sim3.CPU.decodeStoreOperand at hs
  split at hs <;> rename_i hm <;>
    simp only [hm, AddressingMode.shared, PepISA3CPU.operandAddress, h.sp, h.x, bind_ok, pure_ok] at hs ⊢
  · exact hs.symm
  · exact h.readWord hs
  · rw [← hs, BitVec.add_comm]
  · rw [← hs, BitVec.add_comm]
  · rw [← hs]; ac_rfl
  · rw [h.readWord hs, BitVec.add_comm]
  · obtain ⟨v, hv, rfl⟩ := hs
    rw [h.readWord hv, BitVec.add_comm, BitVec.add_comm (c.word pc)]
  · contradiction

theorem loadWord (h : Agree c s) {decoded address w : U16} (hs : s.loadInto false decoded address = .ok w) :
    w = c.word address := h.readWord hs

theorem loadByte (h : Agree c s) {decoded address w : U16} (hs : s.loadInto true decoded address = .ok w) :
    w &&& 0xFF = (c.byte address.toNat).setWidth 16 := by
  simp only [Sim3.CPU.loadInto, if_true, bind_ok, pure_ok] at hs
  obtain ⟨b, hb, rfl⟩ := hs
  rw [bigEndian_and_low, h.readByte hb]

theorem decodeLoadOperand_word (h : Agree c s) (hb : Sim3.CPU.isByteMnemonic (opcodeLUT is).instr.mnemon = false)
    (hs : s.decodeLoadOperand is (c.word pc) = .ok w) :
    w = c.word (c.operandAddress pc (opcodeLUT is).mode.shared) := by
  simp only [Sim3.CPU.decodeLoadOperand, hb, bind_ok, pure_ok, Bool.false_eq_true, if_false, and_full] at hs
  obtain ⟨v, hv, rfl⟩ := hs
  unfold Sim3.CPU.loadOperand at hv
  split at hv <;> rename_i hm <;>
    simp only [hm, AddressingMode.shared, PepISA3CPU.operandAddress, h.sp, h.x, bind_ok, pure_ok] at hv ⊢
  · exact hv.symm
  · exact h.loadWord hv
  · obtain ⟨u, hu, hv⟩ := hv
    rw [h.loadWord hv, h.readWord hu]
  · rw [h.loadWord hv, BitVec.add_comm]
  · rw [h.loadWord hv, BitVec.add_comm]
  · rw [h.loadWord hv]; congr 1; ac_rfl
  · obtain ⟨u, hu, hv⟩ := hv
    rw [h.loadWord hv, h.readWord hu, BitVec.add_comm]
  · obtain ⟨u, hu, hv⟩ := hv
    rw [h.loadWord hv, h.readWord hu, BitVec.add_comm, BitVec.add_comm (c.word pc)]
  · contradiction

theorem decodeLoadOperand_byte (h : Agree c s) (hb : Sim3.CPU.isByteMnemonic (opcodeLUT is).instr.mnemon = true)
    (hs : s.decodeLoadOperand is (c.word pc) = .ok w) :
    w = (c.byte (c.byteAddress pc (opcodeLUT is).mode.shared)).setWidth 16 := by
  simp only [Sim3.CPU.decodeLoadOperand, hb, bind_ok, pure_ok, if_true] at hs
  obtain ⟨v, hv, rfl⟩ := hs
  unfold Sim3.CPU.loadOperand at hv
  split at hv <;> rename_i hm <;>
    simp only [hm, AddressingMode.shared, PepISA3CPU.byteAddress, PepISA3CPU.operandAddress, h.sp, h.x, bind_ok,
      pure_ok, reduceCtorEq, if_false, if_true] at hv ⊢
  · rw [← hv, PepISA3CPU.word, bigEndian_and_low]
  · exact h.loadByte hv
  · obtain ⟨u, hu, hv⟩ := hv
    rw [h.loadByte hv, h.readWord hu]
  · rw [h.loadByte hv, BitVec.add_comm]
  · rw [h.loadByte hv, BitVec.add_comm]
  · rw [h.loadByte hv]; congr 3; ac_rfl
  · obtain ⟨u, hu, hv⟩ := hv
    rw [h.loadByte hv, h.readWord hu, BitVec.add_comm]
  · obtain ⟨u, hu, hv⟩ := hv
    rw [h.loadByte hv, h.readWord hu, BitVec.add_comm, BitVec.add_comm (c.word pc)]

end Agree

end Pepp

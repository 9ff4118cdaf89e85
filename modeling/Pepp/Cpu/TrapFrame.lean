import Pepp.Cpu.PepIsa
import Pepp.Lib.Runs

/-!
# The frame of a trap

A trap return loads a context block byte by byte from the stack and stores it
over the whole register bank at once. In closed form, over any memory.
-/

namespace Pepp

open Isa Span Runs

@[simp] theorem loByte_setWidth (b : U8) : loByte (b.setWidth 16) = b := by
  simp [loByte]

namespace Dense

/-- Neighbouring addresses have neighbouring offsets, short of the end of the address space. -/
theorem offset_succ {self : Dense} {address : Address} (h : self.span.lower ≤ address) (hlt : address.toNat + 1 < 2 ^ 32) :
    self.offset (address + 1) = self.offset address + 1 := by
  have hl := BitVec.le_def.mp h
  have hs : (address + 1).toNat = address.toNat + 1 := by
    rw [BitVec.toNat_add]
    exact Nat.mod_eq_of_lt hlt
  rw [offset, offset, BitVec.toNat_sub_of_le h, BitVec.toNat_sub_of_le (BitVec.le_def.mpr (by omega)), hs]
  omega

end Dense

namespace PepISA3CPU

variable {c c' : PepISA3CPU}

/-- The byte of memory at an address. -/
def peek (c : PepISA3CPU) (address : Address) : U8 := c.target.data (c.target.offset address)

/-- The word of memory at an address. -/
def peekWord (c : PepISA3CPU) (address : Address) : U16 := bigEndian (c.peek address) (c.peek (address + 1))

/-- Where `k` bytes up from the stack pointer are. -/
def stackAddress (c : PepISA3CPU) (k : Nat) : Address := c.regbank.sp.setWidth 32 + BitVec.ofNat 32 k

/-- The register bank with what the stack holds for it. -/
def trapFrame (c : PepISA3CPU) : PepRegisterBank :=
  { c.regbank with
    a := c.peekWord (c.stackAddress 1)
    x := c.peekWord (c.stackAddress 3)
    pc := c.peekWord (c.stackAddress 5)
    sp := c.peekWord (c.stackAddress 7) }

theorem toNat_stackAddress {k : Nat} (hk : k < 2 ^ 16) : (c.stackAddress k).toNat = c.regbank.sp.toNat + k := by
  have := c.regbank.sp.isLt
  simp [stackAddress]
  omega

theorem bank_bytes (b : PepRegisterBank) :
    (List.range 12).map b.byteAt = wordBytes b.a ++ wordBytes b.x ++ wordBytes b.sp ++ wordBytes b.pc ++
      wordBytes (b.is.setWidth 16) ++ wordBytes b.os := rfl

/-- Storing a whole bank goes register by register. -/
def bankReports (c : PepISA3CPU) (b : PepRegisterBank) : List Report :=
  [.register .A (c.regbank.a ^^^ b.a), .register .X (c.regbank.x ^^^ b.x), .register .SP (c.regbank.sp ^^^ b.sp),
    .register .PC (c.regbank.pc ^^^ b.pc), .register .IS ((c.regbank.is ^^^ b.is).setWidth 16),
    .register .OS (c.regbank.os ^^^ b.os)]

theorem writeBank_bank (c : PepISA3CPU) (b : PepRegisterBank) :
    c.writeBank 0 ((List.range 12).map b.byteAt) = { c with regbank := b, trace := c.trace ++ c.bankReports b } := by
  rw [bank_bytes]
  simp [writeBank, wordBytes, writeRegisterUncached, PepRegisterBank.slotOf, Register.ofU8, PepRegisterBank.write,
    PepRegisterBank.report, PepRegisterBank.read, bankReports]

theorem loadContext_spec {ctx ctx' : List U8} {reg : Register} {address : Address} (hlt : address.toNat + 1 < 2 ^ 32)
    (h : c.loadContext ctx reg address = .ok ctx') :
    c.target.inBounds address 2 ∧
      ctx' = (ctx.set (2 * reg.value) (c.peek address)).set (2 * reg.value + 1) (c.peek (address + 1)) := by
  simp only [loadContext, bind_ok, Dense.read_ok, Dense.bytes, slice_two, pure_ok] at h
  obtain ⟨_, ⟨hb, rfl⟩, rfl⟩ := h
  refine ⟨hb, ?_⟩
  rw [peek, peek, Dense.offset_succ hb.1 hlt]
  rfl

/-- The trap return of the core processor. The working copy of the program counter is the one thing
the frame does not reach. -/
theorem handleSret_spec (hc : c.handleSret = .ok c') :
    c.target.inBounds (c.stackAddress 7) 2 ∧ c.target.inBounds 0xFFFB 2 ∧
      c' = { c with
        regbank := c.trapFrame
        nzvc := c.peek (c.stackAddress 0) &&& PepCSRBank.MASK
        callDepth := c.callDepth - 1
        target := { c.target with
          data := overwrite c.target.data (c.target.offset 0xFFFB) (wordBytes (c.regbank.sp + 12)) }
        trace := c.trace ++ [.flags (c.nzvc ^^^ (c.peek (c.stackAddress 0) &&& PepCSRBank.MASK))] ++
          c.bankReports c.trapFrame ++
          [.memory 0xFFFB (slice c.target.data (c.target.offset 0xFFFB) 2) (wordBytes (c.regbank.sp + 12)),
            .stepCallDepth (-1)] } := by
  have hsp : c.readRegister .SP = c.regbank.sp := rfl
  have hlt : ∀ k < 8, (c.stackAddress k).toNat + 1 < 2 ^ 32 := fun k hk => by
    have := c.regbank.sp.isLt
    rw [toNat_stackAddress (by omega)]
    omega
  simp only [handleSret, hsp, bind_ok] at hc
  obtain ⟨csrs, hcsrs, ctx₁, h₁, ctx₂, h₂, ctx₃, h₃, ctx₄, h₄, c₁, hm, hc⟩ := hc
  obtain ⟨-, h₁⟩ := loadContext_spec (c := c.writePackedCsr csrs) (hlt 1 (by omega)) h₁
  obtain ⟨-, h₂⟩ := loadContext_spec (c := c.writePackedCsr csrs) (hlt 3 (by omega)) h₂
  obtain ⟨-, h₃⟩ := loadContext_spec (c := c.writePackedCsr csrs) (hlt 5 (by omega)) h₃
  obtain ⟨hb, h₄⟩ := loadContext_spec (c := c.writePackedCsr csrs) (hlt 7 (by omega)) h₄
  have hctx : ctx₄ = (List.range 12).map c.trapFrame.byteAt := by
    rw [h₄, h₃, h₂, h₁, bank_bytes, bank_bytes]
    have hpeek : ∀ address, (c.writePackedCsr csrs).peek address = c.peek address := fun _ => rfl
    simp [wordBytes, trapFrame, Register.value, peekWord, hpeek]
  have hbyte : csrs = c.peek (c.stackAddress 0) := by
    rw [(Dense.readU8_ok.mp hcsrs).2, stackAddress]
    simp [peek]
  rw [hctx, writeBank_bank] at hm
  simp only [writeTarget, bind_ok, pure_ok, Dense.write_ok] at hm hc
  obtain ⟨_, ⟨hv, rfl⟩, rfl⟩ := hm
  subst hc hbyte
  refine ⟨hb, hv, ?_⟩
  simp [decrementCallDepth, writePc, readRegister, writePackedCsr, Dense.bytes, MemoryVectors.value]
  rfl

end PepISA3CPU

end Pepp

import Pepp.Cpu.Agreement

/-!
# Where the two Pep/10 simulators agree

Handler by handler the core processor is matched with the sim3 switch. All but
three behaviors agree from every state: a byte load or byte compare reads one
address further than sim3 outside immediate mode, and a trap return keeps the
program counter it should restore.
-/

namespace Pepp

open Isa Span Runs

/-- Agreement after an instruction body, the program counters included. -/
structure Done (c : PepISA3CPU) (s : Sim3.CPU) : Prop where
  agree : Agree c s
  pc : s.readReg .PC = c.pcShadow

namespace Agree

variable {c c' : PepISA3CPU} {s s' : Sim3.CPU} {pc : U16} {r : Register}

theorem done (h : Agree c s) (hp : c.pcShadow = pc) : Done c (s.writeReg .PC pc) :=
  ⟨h.setPC pc, by simp [Sim3.CPU.readReg_writeReg, hp]⟩

theorem general_ne_PC (hr : r.general) : r ≠ .PC := by
  rcases hr with rfl | rfl | rfl <;> simp

section

variable (h : Agree c s) (hp : c.pcShadow = pc)
include h hp

/-- Register and flags stored by the same values on both sides. -/
theorem store (hr : r.general) (v : U16) (f : U8) :
    Done ((c.writeRegister r v).writePackedCsr f) (((s.writeReg r v).writePackedCSR f).writeReg .PC pc) :=
  ((h.setReg (.inl hr) v).setFlags f).done (by
    simp [PepISA3CPU.pcShadow_writeRegister v (general_ne_PC hr), hp])

theorem storeReg (hr : r.general) (v : U16) : Done (c.writeRegister r v) ((s.writeReg r v).writeReg .PC pc) :=
  (h.setReg (.inl hr) v).done (by rw [PepISA3CPU.pcShadow_writeRegister v (general_ne_PC hr), hp])

theorem storeFlags (f : U8) : Done (c.writePackedCsr f) ((s.writePackedCSR f).writeReg .PC pc) :=
  (h.setFlags f).done hp

theorem storeMemory {address : U16} {src : List U8} (hc : c.writeTarget (address.setWidth 32) src = .ok c')
    (hs : s.writeMemory address src = .ok s') : Done c' (s'.writeReg .PC pc) :=
  (h.writeMemory hc hs).done ((pcShadow_writeTarget hc).trans hp)

end

/-! ## Monadic handlers -/

section

variable (h : Agree c s) (hp : c.pcShadow = pc) (hr : r.general)
include h hp hr

theorem neg : Done (c.handleNegr r) ((s.neg r (s.readReg r)).writeReg .PC pc) := by
  unfold PepISA3CPU.handleNegr Sim3.CPU.neg
  simp only [h.readReg hr, packCSR_eq_pack]
  exact h.store hp hr _ _

theorem asl : Done (c.handleAslr r) ((s.asl r (s.readReg r)).writeReg .PC pc) := by
  unfold PepISA3CPU.handleAslr Sim3.CPU.asl
  simp only [h.readReg hr, packCSR_eq_pack]
  exact h.store hp hr _ _

theorem asr : Done (c.handleAsrr r) ((s.asr r (s.readReg r)).writeReg .PC pc) := by
  unfold PepISA3CPU.handleAsrr Sim3.CPU.asr
  simp only [h.readReg hr, packCSR_eq_pack]
  exact h.store hp hr _ _

theorem not :
    Done (c.handleNotr r) ((s.not r (s.readReg r) (PepCSRBank.unpack c.nzvc).2.2.1
      (PepCSRBank.unpack c.nzvc).2.2.2).writeReg .PC pc) := by
  unfold PepISA3CPU.handleNotr Sim3.CPU.not
  simp only [h.readReg hr, packCSR_eq_pack]
  exact h.store hp hr _ _

theorem rol :
    Done (c.handleRolr r) ((s.rol r (s.readReg r) (PepCSRBank.unpack c.nzvc).2.2.1
      (PepCSRBank.unpack c.nzvc).2.2.2).writeReg .PC pc) := by
  unfold PepISA3CPU.handleRolr Sim3.CPU.rol
  simp only [h.readReg hr, packCSR_eq_pack]
  exact h.store hp hr _ _

theorem ror :
    Done (c.handleRorr r) ((s.ror r (s.readReg r) (PepCSRBank.unpack c.nzvc).2.2.1
      (PepCSRBank.unpack c.nzvc).2.2.2).writeReg .PC pc) := by
  unfold PepISA3CPU.handleRorr Sim3.CPU.ror
  simp only [h.readReg hr, packCSR_eq_pack]
  exact h.store hp hr _ _

end

theorem ret (h : Agree c s) (hc : c.handleRet = .ok c') {f : Bool} {addr : U16}
    (hs : (if f then s.incrDepth else s.decrDepth).readWord (s.readReg .SP) = .ok addr) :
    Done c' (((if f then s.incrDepth else s.decrDepth).writeReg .SP (s.readReg .SP + 2)).writeReg .PC addr) := by
  have hd := h.dropDepth f
  have hsp : c.decrementCallDepth.readRegister .SP = s.readReg .SP := h.sp.symm
  simp only [PepISA3CPU.handleRet, bind_ok, pure_ok, hsp, PepISA3CPU.readU16_full hd.span] at hc
  obtain ⟨w, ⟨-, hw⟩, rfl⟩ := hc
  rw [← hd.readWord hs] at hw
  subst hw
  exact (hd.writePc w).storeReg rfl (.inr (.inr rfl)) _

/-! ## Dyadic handlers, on an operand address -/

variable {ea : U16}

section

variable (h : Agree c s)
include h

theorem branch (hp : c.pcShadow = pc) {k : PepISA3CPU.BranchCondition} (hc : c.handleBranch k ea = .ok c') :
    Done c' (s.writeReg .PC (if k.taken (PepCSRBank.unpack c.nzvc).1 (PepCSRBank.unpack c.nzvc).2.1
      (PepCSRBank.unpack c.nzvc).2.2.1 (PepCSRBank.unpack c.nzvc).2.2.2 then c.word ea else pc)) := by
  simp only [PepISA3CPU.handleBranch, bind_ok, pure_ok, PepISA3CPU.readU16_full h.span] at hc
  obtain ⟨w, ⟨-, rfl⟩, rfl⟩ := hc
  unfold PepISA3CPU.readPackedCsr
  split
  · exact (h.writePc _).done rfl
  · exact h.done hp

theorem unconditionalBranch (hc : c.handleUnconditionalBranch ea = .ok c') : Done c' (s.writeReg .PC (c.word ea)) := by
  simp only [PepISA3CPU.handleUnconditionalBranch, bind_ok, pure_ok, PepISA3CPU.readU16_full h.span] at hc
  obtain ⟨w, ⟨-, rfl⟩, rfl⟩ := hc
  exact (h.writePc _).done rfl

section

variable (hp : c.pcShadow = pc)
include hp

theorem call (hc : c.handleCall ea = .ok c') {s' : Sim3.CPU}
    (hs : s.writeMemory (s.readReg .SP - 2) (wordBytes pc) = .ok s') :
    Done c' (((s'.writeReg .SP (s.readReg .SP - 2)).incrDepth).writeReg .PC (c.word ea)) := by
  have hsp : c.readRegister .SP = s.readReg .SP := h.sp.symm
  simp only [PepISA3CPU.handleCall, PepISA3CPU.readPc, bind_ok, pure_ok, PepISA3CPU.readU16_full h.span, hsp,
    hp] at hc
  obtain ⟨w, ⟨-, rfl⟩, c₁, hw, rfl⟩ := hc
  have h₁ := h.writeMemory hw hs
  exact (((h₁.setReg (.inl (.inr (.inr rfl))) _).writePc _).setDepth).done rfl

theorem addsp (hc : c.handleAddsp ea = .ok c') :
    Done c' ((s.writeReg .SP (s.readReg .SP + c.word ea)).writeReg .PC pc) := by
  have hr : Isa.Register.SP.general := .inr (.inr rfl)
  simp only [PepISA3CPU.handleAddsp, bind_ok, pure_ok, PepISA3CPU.readU16_full h.span] at hc
  obtain ⟨w, ⟨-, rfl⟩, rfl⟩ := hc
  rw [h.readReg hr]
  exact h.storeReg hp hr _

theorem subsp (hc : c.handleSubsp ea = .ok c') :
    Done c' ((s.writeReg .SP (s.readReg .SP - c.word ea)).writeReg .PC pc) := by
  have hr : Isa.Register.SP.general := .inr (.inr rfl)
  simp only [PepISA3CPU.handleSubsp, bind_ok, pure_ok, PepISA3CPU.readU16_full h.span] at hc
  obtain ⟨w, ⟨-, rfl⟩, rfl⟩ := hc
  rw [h.readReg hr]
  exact h.storeReg hp hr _

theorem add (hr : r.general) (hc : c.handleAddr r ea = .ok c') :
    Done c' ((s.add r (s.readReg r) (c.word ea)).writeReg .PC pc) := by
  simp only [PepISA3CPU.handleAddr, bind_ok, pure_ok, PepISA3CPU.readU16_full h.span] at hc
  obtain ⟨w, ⟨-, rfl⟩, rfl⟩ := hc
  unfold Sim3.CPU.add
  simp only [h.readReg hr, packCSR_eq_pack]
  exact h.store hp hr _ _

theorem sub (hr : r.general) (hc : c.handleSubr r ea = .ok c') :
    Done c' ((s.sub r (s.readReg r) (c.word ea)).writeReg .PC pc) := by
  simp only [PepISA3CPU.handleSubr, bind_ok, pure_ok, PepISA3CPU.readU16_full h.span] at hc
  obtain ⟨w, ⟨-, rfl⟩, rfl⟩ := hc
  unfold Sim3.CPU.sub
  simp only [h.readReg hr, packCSR_eq_pack]
  exact h.store hp hr _ _

theorem bitop (hr : r.general) {o : PepISA3CPU.Bitop} (hc : c.handleBitopr r o ea = .ok c') :
    Done c' ((s.bitop r (o.eval (s.readReg r) (c.word ea)) (PepCSRBank.unpack c.nzvc).2.2.1
      (PepCSRBank.unpack c.nzvc).2.2.2).writeReg .PC pc) := by
  simp only [PepISA3CPU.handleBitopr, bind_ok, pure_ok, PepISA3CPU.readU16_full h.span] at hc
  obtain ⟨w, ⟨-, rfl⟩, rfl⟩ := hc
  unfold Sim3.CPU.bitop
  simp only [h.readReg hr, packCSR_eq_pack]
  exact h.store hp hr _ _

theorem cpw (hr : r.general) (hc : c.handleCpwr r ea = .ok c') :
    Done c' ((s.cpw (s.readReg r) (c.word ea)).writeReg .PC pc) := by
  simp only [PepISA3CPU.handleCpwr, bind_ok, pure_ok, PepISA3CPU.readU16_full h.span] at hc
  obtain ⟨w, ⟨-, rfl⟩, rfl⟩ := hc
  unfold Sim3.CPU.cpw
  simp only [h.readReg hr, packCSR_eq_pack, BitVec.add_assoc, BitVec.add_comm (1 : U16)]
  exact h.storeFlags hp _

theorem ldw (hr : r.general) (hc : c.handleLdwr r ea = .ok c') :
    Done c' ((s.ldw r (c.word ea) (PepCSRBank.unpack c.nzvc).2.2.1
      (PepCSRBank.unpack c.nzvc).2.2.2).writeReg .PC pc) := by
  simp only [PepISA3CPU.handleLdwr, bind_ok, pure_ok, PepISA3CPU.readU16_full h.span] at hc
  obtain ⟨w, ⟨-, rfl⟩, rfl⟩ := hc
  unfold Sim3.CPU.ldw
  simp only [packCSR_eq_pack]
  exact h.store hp hr _ _

theorem stw (hr : r.general) (hc : c.handleStwr r ea = .ok c')
    (hs : s.writeMemory ea (wordBytes (s.readReg r)) = .ok s') : Done c' (s'.writeReg .PC pc) := by
  rw [h.readReg hr] at hs
  exact h.storeMemory hp hc hs

theorem stb (hr : r.general) (hc : c.handleStbr r ea = .ok c') (hs : s.writeMemory ea [loByte (s.readReg r)] = .ok s') :
    Done c' (s'.writeReg .PC pc) := by
  rw [h.readReg hr] at hs
  exact h.storeMemory hp hc hs

end

end

end Agree

/-- Behaviors the core processor refuses have no successor. -/
theorem handle_throws {c c' : PepISA3CPU} {op : SharedOp} (h : op.behavior.throws) : c.handle op ≠ .ok c' := by
  unfold PepISA3CPU.handle
  cases hb : op.behavior <;> simp_all [SharedOpBehavior.throws, throw, throwThe, MonadExceptOf.throw]

end Pepp

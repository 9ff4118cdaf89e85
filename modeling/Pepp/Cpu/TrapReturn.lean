import Pepp.Cpu.SignedCompare

/-!
# Trap return

The core processor restores everything a trap return should but the program
counter. In the sim3 processor a trap call is undone by the return behind it.
-/

namespace Pepp

open Isa Span Runs

/-! ## The core processor -/

namespace PepISA3CPU

variable {c c₁ c' : PepISA3CPU} {is : U8}

/-- The context frame on the stack of `c` is what the processor goes on with in `c'`. -/
structure Restores (c c' : PepISA3CPU) : Prop where
  flags : PepCSRBank.unpack c'.readPackedCsr = PepCSRBank.unpack (c.peek (c.stackAddress 0))
  a : c'.readRegisterUncached .A = c.peekWord (c.stackAddress 1)
  x : c'.readRegisterUncached .X = c.peekWord (c.stackAddress 3)
  pc : c'.readRegisterUncached .PC = c.peekWord (c.stackAddress 5)
  sp : c'.readRegisterUncached .SP = c.peekWord (c.stackAddress 7)
  os : c'.readRegisterUncached .OS = c.readRegisterUncached .OS
  vector : c'.peekWord 0xFFFB = c.regbank.sp + 12
  memory : ∀ address, address ≠ 0xFFFB → address ≠ 0xFFFC → c'.peek address = c.peek address

theorem unpack_masked (nzvc : U8) : PepCSRBank.unpack (nzvc &&& PepCSRBank.MASK) = PepCSRBank.unpack nzvc := by
  rw [PepCSRBank.unpack, BitVec.and_assoc, BitVec.and_assoc, BitVec.and_assoc, BitVec.and_assoc]
  rfl

/-- Two bytes written to a memory, and the bytes around them. -/
theorem peek_overwrite {c : PepISA3CPU} {at_ : Address} {w : U16} (hl : c.target.span.lower ≤ at_)
    (hlt : at_.toNat + 1 < 2 ^ 32) (hc : c'.target.span = c.target.span)
    (hd : c'.target.data = overwrite c.target.data (c.target.offset at_) (wordBytes w)) :
    c'.peekWord at_ = w ∧ ∀ address, address ≠ at_ → address ≠ at_ + 1 → c'.peek address = c.peek address := by
  have hoff : ∀ address, c'.target.offset address = c.target.offset address := fun address => by
    rw [Dense.offset, Dense.offset, hc]
  have hsucc := Dense.offset_succ hl hlt
  have hinj : ∀ x y : Address, c.target.offset x = c.target.offset y → x = y := fun x y hxy =>
    sub_left_injective (BitVec.eq_of_toNat_eq hxy)
  constructor
  · have h0 : c'.peek at_ = hiByte w := by
      rw [peek, hoff, hd]
      exact overwrite_inside c.target.data (c.target.offset at_) 0 (wordBytes w) (by simp)
    have h1 : c'.peek (at_ + 1) = loByte w := by
      rw [peek, hoff, hd, hsucc]
      exact overwrite_inside c.target.data (c.target.offset at_) 1 (wordBytes w) (by simp)
    rw [peekWord, h0, h1, bigEndian_bytes]
  · intro address h0 h1
    have hne : c.target.offset address ≠ c.target.offset at_ := fun h => h0 (hinj _ _ h)
    have hne' : c.target.offset address ≠ c.target.offset at_ + 1 := fun h => h1 (hinj _ _ (h.trans hsucc.symm))
    rw [peek, hoff, hd]
    rcases Nat.lt_or_ge (c.target.offset address) (c.target.offset at_) with hlt | hge
    · exact overwrite_of_lt _ _ _ _ hlt
    · exact overwrite_of_le _ _ _ _ (by rw [length_wordBytes]; omega)

theorem handle_sret {op : SharedOp} (h : op.behavior = .SRET) : c.handle op = c.handleSret := by
  unfold handle
  simp only [h]

theorem span_of_data (target : Dense) (data : Nat → U8) : { target with data := data }.span = target.span := rfl

/-- Everything but the program counter is restored, and that goes on behind the instruction. -/
theorem sret_tick (hf : c.fetch = .ok (is, c₁)) (hop : (opcodePlane is).behavior = .SRET) (h : c.clockTick = .ok c') :
    c'.regbank = { c.trapFrame with is := is, pc := c.regbank.pc + 1 } ∧
      c'.nzvc = c.peek (c.stackAddress 0) &&& PepCSRBank.MASK ∧
      c.target.inBounds 0xFFFB 2 ∧ c'.target.span = c.target.span ∧
      c'.target.data = overwrite c.target.data (c.target.offset 0xFFFB) (wordBytes (c.regbank.sp + 12)) := by
  obtain ⟨c₂, hh, rfl⟩ := clockTick_spec hf h
  obtain ⟨reports, rfl⟩ := fetch_spec hf
  rw [handle_sret hop] at hh
  obtain ⟨-, hb, rfl⟩ := handleSret_spec hh
  rw [storePc_regbank, (storePc_frame _).1, (storePc_frame _).2]
  refine ⟨rfl, rfl, hb, span_of_data c.target _, ?_⟩
  dsimp only

/-- A trap return restores the frame exactly when it would return to the next instruction anyway. -/
theorem restores_iff (hf : c.fetch = .ok (is, c₁)) (hop : (opcodePlane is).behavior = .SRET)
    (h : c.clockTick = .ok c') : c.Restores c' ↔ c.peekWord (c.stackAddress 5) = c.regbank.pc + 1 := by
  obtain ⟨hbank, hflags, hb, hspan, hdata⟩ := sret_tick hf hop h
  have hpc : c'.readRegisterUncached .PC = c.regbank.pc + 1 := by rw [readRegisterUncached, hbank]; rfl
  constructor
  · intro hr
    rw [← hr.pc, hpc]
  · intro heq
    obtain ⟨hvector, hmemory⟩ := peek_overwrite hb.1 (by decide) hspan hdata
    refine ⟨?_, ?_, ?_, by rw [hpc, heq], ?_, ?_, hvector, hmemory⟩
    · rw [readPackedCsr, hflags, unpack_masked]
    all_goals
      rw [readRegisterUncached, hbank]
      rfl

end PepISA3CPU

/-! ## The sim3 processor -/

namespace Sim3

namespace Dense

variable {self self' : Dense} {address : U16} {src : List U8} {k len : Nat}

theorem toNat_length_sub_one {n : Nat} (h : 0 < n) (hn : n ≤ 2 ^ 15) : (BitVec.ofNat 16 n - 1).toNat = n - 1 := by
  rw [BitVec.toNat_sub_of_le]
  · simp
    omega
  · simp [BitVec.le_def]
    omega

theorem write_ok : self.write address src = .ok self' ↔ self.inBounds address src.length ∧
    self' = { self with data := overwrite self.data (self.offset address) src } := by
  unfold write
  split <;> simp_all [eq_comm]

/-- What is read back of a written span. -/
theorem read_written (h : self.write address src = .ok self') (hk : k + len ≤ src.length) (hlen : 0 < len)
    (hsrc : src.length ≤ 2 ^ 15) : self'.read (address + BitVec.ofNat 16 k) len = .ok ((src.drop k).take len) := by
  obtain ⟨⟨hl, hu⟩, rfl⟩ := write_ok.mp h
  rw [toNat_length_sub_one (by omega) hsrc] at hu
  have hupper := self.upper.isLt
  have hlower := BitVec.le_def.mp hl
  have ha : (address + BitVec.ofNat 16 k).toNat = address.toNat + k := by
    simp
    omega
  have hoff : self.offset (address + BitVec.ofNat 16 k) = self.offset address + k := by
    rw [offset, offset, BitVec.toNat_sub_of_le hl, BitVec.toNat_sub_of_le (BitVec.le_def.mpr (by omega)), ha]
    omega
  have hb : self.inBounds (address + BitVec.ofNat 16 k) len := by
    refine ⟨BitVec.le_def.mpr (by omega), ?_⟩
    rw [ha, toNat_length_sub_one hlen (by omega)]
    omega
  have hread := slice_overwrite_part self.data (self.offset address) src hk
  rw [← hoff] at hread
  exact (if_pos hb).trans (congrArg Except.ok hread)

end Dense

namespace CPU

variable {s s₁ s₂ : CPU}

/-- The instruction at the program counter is `mnemon`, and a tick executes it. -/
def Executes (s : CPU) (mnemon : Mnemonic) (s' : CPU) : Prop :=
  ∃ is, s.readByte (s.readReg .PC) = .ok is ∧ (opcodeLUT is).instr.mnemon = mnemon ∧ s.clock = .ok s'

/-- The context of `s`, in the frame at the stack pointer of `s'`. -/
structure Saved (s s' : CPU) : Prop where
  flags : s'.readByte (s'.readReg .SP) = .ok s.readPackedCSR
  a : s'.readWord (s'.readReg .SP + 1) = .ok (s.readReg .A)
  x : s'.readWord (s'.readReg .SP + 3) = .ok (s.readReg .X)
  pc : s'.readWord (s'.readReg .SP + 5) = .ok (s.readReg .PC + 3)
  sp : s'.readWord (s'.readReg .SP + 7) = .ok (s.readReg .SP)

/-- The processor goes on behind a three-byte instruction as if nothing had happened. -/
structure Resumes (s s' : CPU) : Prop where
  flags : s'.readPackedCSR = s.readPackedCSR
  a : s'.readReg .A = s.readReg .A
  x : s'.readReg .X = s.readReg .X
  pc : s'.readReg .PC = s.readReg .PC + 3
  sp : s'.readReg .SP = s.readReg .SP

/-- The byte and the words of a span just written. -/
theorem readByte_written {m : Dense} {address : U16} {src : List U8} (h : m.write address src = .ok s.memory)
    (hlen : 0 < src.length) (hsrc : src.length ≤ 2 ^ 15) : s.readByte address = .ok (src.getD 0 0) := by
  have hread : s.memory.read (address + BitVec.ofNat 16 0) 1 = .ok ((src.drop 0).take 1) :=
    Dense.read_written h (by omega) (by omega) hsrc
  rw [show address + BitVec.ofNat 16 0 = address from BitVec.add_zero address] at hread
  refine bind_ok.mpr ⟨_, hread, ?_⟩
  simp [pure_ok, List.getD_eq_getElem?_getD]

theorem readWord_written {m : Dense} {address : U16} {src : List U8} {k : Nat} (h : m.write address src = .ok s.memory)
    (hk : k + 2 ≤ src.length) (hsrc : src.length ≤ 2 ^ 15) :
    s.readWord (address + BitVec.ofNat 16 k) = .ok (bigEndian (src.getD k 0) (src.getD (k + 1) 0)) := by
  refine bind_ok.mpr ⟨_, Dense.read_written h hk (by omega) hsrc, ?_⟩
  simp [pure_ok, List.getD_eq_getElem?_getD, List.getElem?_drop]

/-- The twelve bytes of a context frame. -/
def context (nzvc : U8) (a x pc sp : U16) (is : U8) (os : List U8) : List U8 :=
  [nzvc] ++ wordBytes a ++ wordBytes x ++ wordBytes pc ++ wordBytes sp ++ [is] ++ os

theorem scall_spec {is : U8} {a x sp pc : U16} (h : s.scall is a x sp pc = .ok s₁) :
    ∃ os : List U8, os.length = 2 ∧
      s.memory.write (s₁.readReg .SP) (context s.readPackedCSR a x (pc + 2) sp is os) = .ok s₁.memory := by
  simp only [scall, bind_ok, pure_ok] at h
  obtain ⟨os, hos, ssp, -, s', hw, handler, -, rfl⟩ := h
  simp only [writeMemory, bind_ok, pure_ok] at hw
  obtain ⟨m, hw, rfl⟩ := hw
  refine ⟨os, ?_, ?_⟩
  · unfold Dense.read at hos
    split at hos
    · rw [← Except.ok.inj hos, length_slice]
    · cases hos
  · have hsp : ∀ t : CPU, (t.writeReg .SP (ssp - 12)).incrDepth.readReg .SP = ssp - 12 := fun t =>
      (readReg_writeReg t .SP .SP _).trans (if_pos rfl)
    rw [readReg_writeReg, if_neg (by decide), hsp]
    exact hw

theorem trap_unary {is : U8} (h : (opcodeLUT is).instr.mnemon = .SCALL ∨ (opcodeLUT is).instr.mnemon = .SRET) :
    isOpcodeUnary is = true := by
  have hrows : ∀ row ∈ mnemonicRows, row.2.instr.mnemon = .SCALL ∨ row.2.instr.mnemon = .SRET →
      row.2.instr.unary = true := by decide +kernel
  exact lastRow_of_rows (P := fun i : Opcode => i.instr.mnemon = .SCALL ∨ i.instr.mnemon = .SRET →
    i.instr.unary = true) hrows (by decide) is.toNat h

/-- A tick of one of the two, down to the switch. -/
theorem unary_tick {mnemon : Mnemonic} (hs : s.Executes mnemon s₁) (h : mnemon = .SCALL ∨ mnemon = .SRET) :
    ∃ is, (opcodeLUT is).instr.mnemon = mnemon ∧
      (s.writeReg .IS (is.setWidth 16)).unaryDispatch is (s.readReg .PC + 1) = .ok s₁ := by
  obtain ⟨is, his, rfl, hs⟩ := hs
  simp only [clock, his, bind_ok, Except.ok.injEq, exists_eq_left', trap_unary h, if_true] at hs
  exact ⟨is, rfl, hs⟩

/-- A trap call leaves the context of the caller on the system stack. -/
theorem scall_saved (hs : s.Executes .SCALL s₁) : s.Saved s₁ := by
  obtain ⟨is, hm, hs⟩ := unary_tick hs (.inl rfl)
  unfold unaryDispatch at hs
  simp only [hm, readReg_writeReg, reduceCtorEq, if_false] at hs
  obtain ⟨os, hos, hw⟩ := scall_spec hs
  have hlen : (context s.readPackedCSR (s.readReg .A) (s.readReg .X) (s.readReg .PC + 1 + 2) (s.readReg .SP) is os).length = 12 := by
    simp [context, hos]
  rw [readPackedCSR_writeReg, memory_writeReg] at hw
  have hword := fun k hk => readWord_written (k := k) hw (by rw [hlen]; exact hk) (by rw [hlen]; decide)
  refine ⟨readByte_written hw (by rw [hlen]; decide) (by rw [hlen]; decide), ?_, ?_, ?_, ?_⟩
  · refine (hword 1 (by decide)).trans (congrArg Except.ok ?_)
    exact bigEndian_bytes _
  · refine (hword 3 (by decide)).trans (congrArg Except.ok ?_)
    exact bigEndian_bytes _
  · refine (hword 5 (by decide)).trans (congrArg Except.ok ?_)
    exact (bigEndian_bytes _).trans (BitVec.add_assoc _ _ _)
  · refine (hword 7 (by decide)).trans (congrArg Except.ok ?_)
    exact bigEndian_bytes _

theorem decrDepth_frame (s : CPU) : s.decrDepth.regs = s.regs ∧ s.decrDepth.csrs = s.csrs := by
  unfold decrDepth
  split <;> exact ⟨rfl, rfl⟩

/-- A trap return goes on with what the frame holds. -/
theorem sret_spec {sp : U16} (h : s.sret sp = .ok s₁) :
    ∃ flags, s.readByte sp = .ok flags ∧ s₁.readPackedCSR = flags &&& PepCSRBank.MASK ∧
      s.readWord (sp + 1) = .ok (s₁.readReg .A) ∧ s.readWord (sp + 3) = .ok (s₁.readReg .X) ∧
      s.readWord (sp + 5) = .ok (s₁.readReg .PC) ∧ s.readWord (sp + 7) = .ok (s₁.readReg .SP) := by
  simp only [sret, bind_ok, pure_ok] at h
  obtain ⟨flags, hflags, ctx₁, h₁, ctx₂, h₂, ctx₃, h₃, ctx₄, h₄, s', hm, rfl⟩ := h
  simp only [loadContext, bind_ok, pure_ok] at h₁ h₂ h₃ h₄
  obtain ⟨da, ha, rfl⟩ := h₁
  obtain ⟨dx, hx, rfl⟩ := h₂
  obtain ⟨dp, hp, rfl⟩ := h₃
  obtain ⟨ds, hs, rfl⟩ := h₄
  simp only [writeMemory, bind_ok, pure_ok] at hm
  obtain ⟨m, -, rfl⟩ := hm
  have hflags' : ∀ t : CPU, t.csrs = (s.writePackedCSR flags).csrs →
      t.decrDepth.readPackedCSR = flags &&& PepCSRBank.MASK := fun t ht => by
    rw [← readPackedCSR_writePackedCSR s flags, readPackedCSR, (decrDepth_frame t).2, ht]
    rfl
  refine ⟨flags, hflags, hflags' _ rfl, bind_ok.mpr ⟨da, ha, ?_⟩, bind_ok.mpr ⟨dx, hx, ?_⟩,
    bind_ok.mpr ⟨dp, hp, ?_⟩, bind_ok.mpr ⟨ds, hs, ?_⟩⟩
  all_goals
    rw [pure_ok, readReg, (decrDepth_frame _).1]
    simp [Register.value, slice, List.range, List.range.loop, overwrite]

/-- A trap return right behind a trap call undoes it. -/
theorem call_return (hcall : s.Executes .SCALL s₁) (hret : s₁.Executes .SRET s₂) : s.Resumes s₂ := by
  obtain ⟨hflags, ha, hx, hpc, hsp⟩ := scall_saved hcall
  obtain ⟨is, hm, hs⟩ := unary_tick hret (.inr rfl)
  unfold unaryDispatch at hs
  simp only [hm, readReg_writeReg, reduceCtorEq, if_false] at hs
  obtain ⟨flags, hf, hnzvc, hwa, hwx, hwp, hws⟩ := sret_spec hs
  have hword : ∀ {a w w' : U16}, s₁.readWord a = .ok w → (s₁.writeReg .IS (is.setWidth 16)).readWord a = .ok w' → w' = w :=
    fun h h' => Except.ok.inj (h'.symm.trans h)
  have hbyte : flags = s.readPackedCSR := Except.ok.inj (hf.symm.trans hflags)
  refine ⟨?_, hword ha hwa, hword hx hwx, hword hpc hwp, hword hsp hws⟩
  rw [hnzvc, hbyte, readPackedCSR, packCSR_eq_pack, pack_masked]

end CPU

end Sim3

/-- The core processor's trap return restores the frame exactly when the program counter in it is the
next one; the frame is the one of sim3's trap call, which sim3's trap return undoes. -/
theorem trap_return_iff {c c₁ c' : PepISA3CPU} {is : U8} (hf : c.fetch = .ok (is, c₁))
    (hop : (opcodePlane is).behavior = .SRET) (h : c.clockTick = .ok c') {s s₁ s₂ : Sim3.CPU}
    (hcall : s.Executes .SCALL s₁) (hret : s₁.Executes .SRET s₂) :
    (c.Restores c' ↔ c.peekWord (c.stackAddress 5) = c.regbank.pc + 1) ∧ s.Saved s₁ ∧ s.Resumes s₂ :=
  ⟨PepISA3CPU.restores_iff hf hop h, Sim3.CPU.scall_saved hcall, Sim3.CPU.call_return hcall hret⟩

/-- `SRET` on a cleared machine, whose frame is the one at address 0. -/
theorem sret_reset : ∃ c', (PepISA3CPU.reset [0x02]).clockTick = .ok c' := by
  have h : (PepISA3CPU.reset [0x02]).clockTick.map (·.regbank.pc) = .ok 1 := by decide +kernel
  cases hc : (PepISA3CPU.reset [0x02]).clockTick with
  | error e =>
    rw [hc] at h
    cases h
  | ok c' => exact ⟨c', rfl⟩

/-- The frame of a cleared machine holds the program counter 0, and the processor goes on at 1. -/
theorem trap_return_lost :
    ¬ ∀ (c c₁ c' : PepISA3CPU) (is : U8), c.fetch = .ok (is, c₁) → (opcodePlane is).behavior = .SRET →
      c.clockTick = .ok c' → c.Restores c' := by
  intro hall
  obtain ⟨c', h⟩ := sret_reset
  have hf := @PepISA3CPU.fetch_ok (PepISA3CPU.reset [0x02]) rfl
  have hop : (opcodePlane (PepISA3CPU.reset [0x02]).opcode).behavior = .SRET := by decide +kernel
  exact absurd ((PepISA3CPU.restores_iff hf hop h).mp (hall _ _ _ _ hf hop h)) (by decide +kernel)

/-- `SCALL` at address 0, the system stack from 0x1000 down, and `SRET` for a trap handler. -/
def Sim3.CPU.trapped : CPU :=
  { CPU.reset [] with
    memory := ⟨0, 0xFFFF, fun i =>
      if i = 0 then 0x38 else if i = 3 then 0x02 else if i = 0xFFF8 then 0x03 else if i = 0xFFFB then 0x10 else 0⟩ }

theorem trap_return_trapped :
    ∃ c₁ c' s₁ s₂, (PepISA3CPU.reset [0x02]).fetch = .ok (0x02, c₁) ∧ (PepISA3CPU.reset [0x02]).clockTick = .ok c' ∧
      Sim3.CPU.trapped.Executes .SCALL s₁ ∧ s₁.Executes .SRET s₂ ∧
      ((PepISA3CPU.reset [0x02]).Restores c' ↔
        (PepISA3CPU.reset [0x02]).peekWord ((PepISA3CPU.reset [0x02]).stackAddress 5) =
          (PepISA3CPU.reset [0x02]).regbank.pc + 1) ∧
      Sim3.CPU.trapped.Saved s₁ ∧ Sim3.CPU.trapped.Resumes s₂ := by
  obtain ⟨c', h⟩ := sret_reset
  have hf := @PepISA3CPU.fetch_ok (PepISA3CPU.reset [0x02]) rfl
  have hop : (opcodePlane (PepISA3CPU.reset [0x02]).opcode).behavior = .SRET := by decide +kernel
  have hcall : Sim3.CPU.trapped.readByte (Sim3.CPU.trapped.readReg .PC) = .ok 0x38 := by decide +kernel
  have hret : (Sim3.CPU.trapped.clock >>= fun s => s.readByte (s.readReg .PC)) = .ok 0x02 := by decide +kernel
  have hend : (Sim3.CPU.trapped.clock >>= fun s => s.clock.map (·.readReg .PC)) = .ok 3 := by decide +kernel
  obtain ⟨s₁, h₁, hret⟩ := bind_ok.mp hret
  simp only [h₁, bind_ok, Except.ok.injEq, exists_eq_left'] at hend
  cases h₂ : s₁.clock with
  | error e =>
    rw [h₂] at hend
    cases hend
  | ok s₂ =>
    have hcall : Sim3.CPU.trapped.Executes .SCALL s₁ := ⟨0x38, hcall, by decide +kernel, h₁⟩
    have hret : s₁.Executes .SRET s₂ := ⟨0x02, hret, by decide +kernel, h₂⟩
    exact ⟨_, c', s₁, s₂, hf, h, hcall, hret, trap_return_iff hf hop h hcall hret⟩

end Pepp

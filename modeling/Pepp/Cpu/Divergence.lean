import Pepp.Cpu.Simulators
import Pepp.Cpu.TrapFrame

/-!
# Where the two Pep/10 simulators part

A byte operand of `LDB` and `CPB`, and the program counter after `SRET`. Each is
worked out exactly: the two processors end in the same state if and only if the
values they took from the two places happen to coincide.
-/

namespace Pepp

open Isa Span Runs

/-! ## Byte operands -/

/-- The difference a byte compare works on is that of the low bytes. -/
theorem compareByte_eq (src : U16) (b : U8) :
    (src + ~~~(b.setWidth 16) + 1) &&& 0xff = (loByte src - b).setWidth 16 := by
  apply BitVec.eq_of_toNat_eq
  have h : (0xff : U16).toNat = 2 ^ 8 - 1 := rfl
  rw [BitVec.toNat_and, h, Nat.and_two_pow_sub_one_eq_mod]
  have := b.isLt
  simp [loByte]
  omega

theorem pack_inj {n z v c n' z' v' c' : Bool} :
    PepCSRBank.pack n z v c = PepCSRBank.pack n' z' v' c' ↔ n = n' ∧ z = z' ∧ v = v' ∧ c = c' := by
  revert n z v c n' z' v' c'
  decide

theorem pack_masked (n z v c : Bool) : PepCSRBank.pack n z v c &&& PepCSRBank.MASK = PepCSRBank.pack n z v c := by
  revert n z v c
  decide

theorem byte_negative (b : U8) : (b.setWidth 16 &&& 0x80 != 0) = b.msb := by
  rw [show (0x80 : U16) = BitVec.twoPow 16 7 from rfl, BitVec.and_twoPow, BitVec.getLsbD_setWidth,
    BitVec.msb_eq_getLsbD_last]
  cases b.getLsbD 7 <;> rfl

theorem byte_zero (b : U8) : (b.setWidth 16 == (0 : U16)) = (b == 0) := by
  rw [Bool.eq_iff_iff, beq_iff_eq, beq_iff_eq, ← BitVec.toNat_inj, ← BitVec.toNat_inj,
    BitVec.toNat_setWidth_of_le (by decide)]
  rfl

/-- The flags a byte compare of `r` with `b` leaves. -/
def compareFlags (r b : U8) : U8 := PepCSRBank.pack (r - b).msb (r == b) false false

theorem compareFlags_eq {r b b' : U8} :
    compareFlags r b = compareFlags r b' ↔ (r - b).msb = (r - b').msb ∧ (r = b ↔ r = b') := by
  simp only [compareFlags, pack_inj, and_true, and_congr_right_iff]
  intro _
  by_cases h : r = b <;> by_cases h' : r = b' <;> simp [h, h']

theorem pack_compare (src : U16) (b : U8) :
    PepCSRBank.pack (((src + ~~~(b.setWidth 16) + 1) &&& 0xff) &&& 0x80 != 0)
      (((src + ~~~(b.setWidth 16) + 1) &&& 0xff) == 0) false false = compareFlags (loByte src) b := by
  have hz : (loByte src - b == 0) = (loByte src == b) := by
    rw [Bool.eq_iff_iff, beq_iff_eq, beq_iff_eq]
    exact sub_eq_zero
  rw [compareByte_eq, byte_negative, byte_zero, hz, compareFlags]

namespace Agree

variable {c c' : PepISA3CPU} {s s' : Sim3.CPU} {pc : U16} {r : Register}

/-- A byte load ends alike exactly when sim3 took the byte after the operand address. -/
theorem ldb (h : Agree c s) (hp : c.pcShadow = pc) (hr : r.general) {ea : U16} {b : U8}
    (hc : c.handleLdbr r ea = .ok c') :
    Done c' ((s.ldb r (b.setWidth 16) (PepCSRBank.unpack c.nzvc).2.2.1
      (PepCSRBank.unpack c.nzvc).2.2.2).writeReg .PC pc) ↔ b = c.byte (ea.toNat + 1) := by
  have ha : (ea.setWidth 32 + 1).toNat = ea.toNat + 1 := by simp; omega
  simp only [PepISA3CPU.handleLdbr, bind_ok, pure_ok, PepISA3CPU.readU8_full (c := c) h.span
    (a := ea.setWidth 32 + 1) (by omega), ha] at hc
  obtain ⟨w, ⟨-, rfl⟩, rfl⟩ := hc
  unfold Sim3.CPU.ldb
  simp only [packCSR_eq_pack, byte_zero]
  constructor
  · intro hd
    have hb : (b.setWidth 16 : U16) = (c.byte (ea.toNat + 1)).setWidth 16 := by
      have hb := hd.agree.readReg hr
      rcases hr with rfl | rfl | rfl <;> simp [Sim3.CPU.readReg_writeReg] at hb <;> exact hb
    simpa using congrArg loByte hb
  · rintro rfl
    exact h.store hp hr _ _

/-- A byte compare ends alike exactly when the two bytes compare alike. -/
theorem cpb (h : Agree c s) (hp : c.pcShadow = pc) (hr : r.general) {ea : U16} {b : U8}
    (hc : c.handleCpbr r ea = .ok c') :
    Done c' ((s.cpb (s.readReg r) (b.setWidth 16)).writeReg .PC pc) ↔
      compareFlags (loByte (c.readRegister r)) b = compareFlags (loByte (c.readRegister r)) (c.byte (ea.toNat + 1)) := by
  have ha : (ea.setWidth 32 + 1).toNat = ea.toNat + 1 := by simp; omega
  simp only [PepISA3CPU.handleCpbr, bind_ok, pure_ok, PepISA3CPU.readU8_full (c := c) h.span
    (a := ea.setWidth 32 + 1) (by omega), ha] at hc
  obtain ⟨w, ⟨-, rfl⟩, rfl⟩ := hc
  unfold Sim3.CPU.cpb
  simp only [h.readReg hr, packCSR_eq_pack, pack_compare]
  constructor
  · intro hd
    have hf := hd.agree.nzvc
    simpa [Sim3.CPU.readPackedCSR_writePackedCSR, PepISA3CPU.writePackedCsr, compareFlags, pack_masked] using hf
  · intro hf
    rw [hf]
    exact h.storeFlags hp _

end Agree

/-! ## Trap return -/

namespace PepISA3CPU

/-- The registers a trap return loads from the stack frame at `sp`. -/
def frame (c : PepISA3CPU) : PepRegisterBank :=
  { c.regbank with
    a := c.word (c.regbank.sp + 1)
    x := c.word (c.regbank.sp + 3)
    pc := c.word (c.regbank.sp + 5)
    sp := c.word (c.regbank.sp + 7) }

/-- What a trap return reports before it touches memory. -/
def frameReports (c : PepISA3CPU) : List Report :=
  [.register .A (c.regbank.a ^^^ c.frame.a), .register .X (c.regbank.x ^^^ c.frame.x),
    .register .SP (c.regbank.sp ^^^ c.frame.sp), .register .PC (c.regbank.pc ^^^ c.frame.pc),
    .register .IS 0, .register .OS 0]

/-- The trap return of the core processor, in closed form. The working copy of the program counter
is the one thing the frame does not reach. -/
theorem handleSret_full {c c' : PepISA3CPU} (h : c.target.span = fullSpan) (hc : c.handleSret = .ok c') :
    c.regbank.sp.toNat + 9 ≤ 0x10000 ∧
      c' = { c with
        regbank := c.frame
        nzvc := c.byte c.regbank.sp.toNat &&& PepCSRBank.MASK
        callDepth := c.callDepth - 1
        target := { c.target with data := overwrite c.target.data 0xFFFB (wordBytes (c.regbank.sp + 12)) }
        trace := c.trace ++ [.flags (c.nzvc ^^^ (c.byte c.regbank.sp.toNat &&& PepCSRBank.MASK))] ++
          c.frameReports ++
          [.memory 0xFFFB (slice c.target.data 0xFFFB 2) (wordBytes (c.regbank.sp + 12)),
            .stepCallDepth (-1)] } := by
  obtain ⟨hb, -, rfl⟩ := handleSret_spec hc
  have hlt := c.regbank.sp.isLt
  have h7 := toNat_stackAddress (c := c) (k := 7) (by omega)
  rw [Dense.inBounds_full h (by omega) (by rw [h7]; omega), h7] at hb
  have hpeek : ∀ a : Address, c.peek a = c.byte a.toNat := fun a => congrArg c.target.data (Dense.offset_full h a)
  have hword : ∀ k ≤ 7, c.peekWord (c.stackAddress k) = c.word (c.regbank.sp + BitVec.ofNat 16 k) := by
    intro k hk
    have hs := toNat_stackAddress (c := c) (k := k) (by omega)
    have hs' : (c.stackAddress k + 1).toNat = c.regbank.sp.toNat + k + 1 := by
      rw [BitVec.toNat_add, hs]
      change (c.regbank.sp.toNat + k + 1) % 2 ^ 32 = _
      omega
    have : (c.regbank.sp + BitVec.ofNat 16 k).toNat = c.regbank.sp.toNat + k := by
      simp
      omega
    rw [peekWord, hpeek, hpeek, hs, hs', word, this]
  have hframe : c.trapFrame = c.frame := by
    rw [trapFrame, hword 1 (by omega), hword 3 (by omega), hword 5 (by omega), hword 7 (by omega)]
    rfl
  have hreports : c.bankReports c.frame = c.frameReports := by simp [bankReports, frameReports, frame]
  refine ⟨by omega, ?_⟩
  rw [hframe, hreports, hpeek, toNat_stackAddress (by omega), Dense.offset_full h]
  rfl

end PepISA3CPU

namespace Agree

variable {c c' : PepISA3CPU} {s s' : Sim3.CPU}

theorem loadContext (h : Agree c s) {ctx ctx' : List U8} {reg : Register} {address : U16}
    (hs : s.loadContext ctx reg address = .ok ctx') :
    ctx' = (ctx.set (2 * reg.value) (hiByte (c.word address))).set (2 * reg.value + 1) (loByte (c.word address)) := by
  simp only [Sim3.CPU.loadContext, bind_ok, pure_ok, Sim3.Dense.read, h.inBounds (show 0 < 2 by omega) (by omega),
    h.offset] at hs
  obtain ⟨dest, hd, rfl⟩ := hs
  split at hd
  · rename_i hb
    injection hd with hd
    subst hd
    simp [slice_two, PepISA3CPU.word, PepISA3CPU.byte, h.memory _ address.isLt,
      h.memory (address.toNat + 1) (by omega)]
  · contradiction

/-- The trap returns load the same frame, and only sim3 returns to the address in it. -/
theorem sret (h : Agree c s) (hc : c.handleSret = .ok c') (hs : s.sret (s.readReg .SP) = .ok s') :
    Agree c' s' ∧ s'.readReg .PC = c.frame.pc := by
  obtain ⟨hb, rfl⟩ := PepISA3CPU.handleSret_full h.span hc
  simp only [Sim3.CPU.sret, bind_ok, pure_ok] at hs
  obtain ⟨csrs, hcsrs, ctx₁, h₁, ctx₂, h₂, ctx₃, h₃, ctx₄, h₄, s₁, hm, rfl⟩ := hs
  have hf := h.setFlags csrs
  have h₁ := hf.loadContext h₁
  have h₂ := hf.loadContext h₂
  have h₃ := hf.loadContext h₃
  have h₄ := hf.loadContext h₄
  have hcsrs := h.readByte hcsrs
  rw [h.sp] at h₁ h₂ h₃ h₄ hcsrs hm
  have hregs : ∀ r, (Sim3.CPU.readReg { s.writePackedCSR csrs with regs := overwrite s.regs 0 ctx₄ } r) =
      match r with
      | .A => c.frame.a
      | .X => c.frame.x
      | .SP => c.frame.sp
      | .PC => c.frame.pc
      | r => s.readReg r := by
    intro r
    rw [h₄, h₃, h₂, h₁]
    cases r <;> simp [Sim3.CPU.readReg, Register.value, slice, List.range, List.range.loop, overwrite,
      PepISA3CPU.frame, PepISA3CPU.word, PepISA3CPU.byte, PepISA3CPU.writePackedCsr]
  have hflags : (s.writePackedCSR csrs).readPackedCSR = c.byte c.regbank.sp.toNat &&& PepCSRBank.MASK := by
    rw [Sim3.CPU.readPackedCSR_writePackedCSR, hcsrs]
  have hbank : Agree { c with
      regbank := c.frame
      nzvc := c.byte c.regbank.sp.toNat &&& PepCSRBank.MASK } { s.writePackedCSR csrs with
      regs := overwrite s.regs 0 ctx₄ } :=
    ⟨hregs .A, hregs .X, hregs .SP, (hregs .OS).trans h.os, (hregs .IS).trans h.is, hflags, h.span, h.lower,
      h.upper, h.memory⟩
  have hd := (hbank.overwriteMemory hm).dropDepth false
  refine ⟨⟨hd.a, hd.x, hd.sp, hd.os, hd.is, hd.nzvc, hd.span, hd.lower, hd.upper, hd.memory⟩, ?_⟩
  have hpc := hregs .PC
  simp only [Sim3.CPU.writeMemory, bind_ok, pure_ok] at hm
  obtain ⟨m, -, rfl⟩ := hm
  unfold Sim3.CPU.decrDepth
  split <;> exact hpc

end Agree

/-! ## Dispatch -/

namespace PepISA3CPU

/-- What must hold of the operands of `op`, whose specifier is at `pc`, for sim3 to do as the core
processor does. -/
def OperandsCoincide (c : PepISA3CPU) (pc : U16) (op : SharedOp) : Prop :=
  let ea := c.operandAddress pc op.addr
  let r := loByte (c.readRegister (Register.ofU8 op.target))
  let b := c.byte ea.toNat
  let b' := c.byte (ea.toNat + 1)
  match op.behavior with
  | .LDB => op.addr = .I ∨ b = b'
  | .CPB => op.addr = .I ∨ (r - b).msb = (r - b').msb ∧ (r = b ↔ r = b')
  | .SRET => c.word (c.regbank.sp + 5) = pc
  | _ => True

theorem byteAddress_immediate {c : PepISA3CPU} {pc : U16} :
    c.byteAddress pc .I = (c.operandAddress pc .I).toNat + 1 := rfl

theorem byteAddress_memory {c : PepISA3CPU} {pc : U16} {addr : SharedAddrMode} (h : addr ≠ .I) :
    c.byteAddress pc addr = (c.operandAddress pc addr).toNat := by
  simp [byteAddress, h]

end PepISA3CPU

namespace Agree

variable {c c' : PepISA3CPU} {s s' : Sim3.CPU} {is : U8} {os operand : U16}

theorem decodeOperand_cases (hop : s.decodeOperand is os = .ok operand) :
    if isStore (opcodeLUT is).instr.mnemon then s.decodeStoreOperand is os = .ok operand
    else s.decodeLoadOperand is os = .ok operand := by
  unfold Sim3.CPU.decodeOperand at hop
  by_cases hv : isValidAddressingMode (opcodeLUT is).instr.mnemon (opcodeLUT is).mode = true
  · rw [if_pos hv] at hop
    split <;> simp_all
  · rw [if_neg hv] at hop
    cases hop

section

variable (h : Agree c s) (hos : s.readWord c.pcShadow = .ok os)
  (hop : (s.writeReg .OS os).decodeOperand is os = .ok operand)
include h hos hop

/-- A store works on the operand address of the core processor. -/
theorem operand_store (hm : isStore (opcodeLUT is).instr.mnemon = true) :
    operand = c.operandAddress c.pcShadow (opcodeLUT is).mode.shared := by
  have hw : os = c.word c.pcShadow := h.readWord hos
  have hop := decodeOperand_cases hop
  rw [if_pos hm, hw] at hop
  exact (hw ▸ h.specified hos).decodeStoreOperand hop

/-- A word operand is the word at the operand address. -/
theorem operand_word (hm : isStore (opcodeLUT is).instr.mnemon = false)
    (hb : Sim3.CPU.isByteMnemonic (opcodeLUT is).instr.mnemon = false) :
    operand = c.specified.word (c.operandAddress c.pcShadow (opcodeLUT is).mode.shared) := by
  have hw : os = c.word c.pcShadow := h.readWord hos
  have hop := decodeOperand_cases hop
  rw [if_neg (by simp [hm]), hw] at hop
  exact (hw ▸ h.specified hos).decodeLoadOperand_word hb hop

/-- A byte operand is the byte at the operand address, the immediate apart. -/
theorem operand_byte (hm : isStore (opcodeLUT is).instr.mnemon = false)
    (hb : Sim3.CPU.isByteMnemonic (opcodeLUT is).instr.mnemon = true) :
    operand = (c.byte (c.byteAddress c.pcShadow (opcodeLUT is).mode.shared)).setWidth 16 := by
  have hw : os = c.word c.pcShadow := h.readWord hos
  have hop := decodeOperand_cases hop
  rw [if_neg (by simp [hm]), hw] at hop
  exact (hw ▸ h.specified hos).decodeLoadOperand_byte hb hop

end

end Agree

/-- A reflexive relation between the two operand bytes holds of an immediate, and elsewhere it is
about two neighbouring bytes. -/
theorem byteAddress_rel {c : PepISA3CPU} {pc : U16} {addr : SharedAddrMode} {R : U8 → U8 → Prop}
    (hR : ∀ b, R b b) :
    R (c.byte (c.byteAddress pc addr)) (c.byte ((c.operandAddress pc addr).toNat + 1)) ↔
      addr = .I ∨ R (c.byte (c.operandAddress pc addr).toNat) (c.byte ((c.operandAddress pc addr).toNat + 1)) := by
  by_cases h : addr = .I
  · subst h
    simp [PepISA3CPU.byteAddress_immediate, hR]
  · simp [PepISA3CPU.byteAddress_memory h, h]

/-- Every dyadic instruction ends in agreement exactly when its operands coincide. -/
theorem nonunaryDispatch_done {c c' : PepISA3CPU} {s s' : Sim3.CPU} {is : U8} {os : U16} (h : Agree c s)
    (hos : s.readWord c.pcShadow = .ok os) (hc : c.handle (opcodePlane is) = .ok c')
    (hs : (s.writeReg .OS os).nonunaryDispatch is os (c.pcShadow + 2) = .ok s') :
    Done c' s' ↔ c.OperandsCoincide c.pcShadow (opcodePlane is) := by
  rcases planes_agree is with ht | ⟨hb, haddr, ht⟩
  · exact absurd hc (handle_throws ht)
  have hA : Isa.Register.A.general := .inl rfl
  have hX : Isa.Register.X.general := .inr (.inl rfl)
  have h₁ := h.specified hos
  have hp : c.specified.pcShadow = c.pcShadow + 2 := rfl
  obtain ⟨operand, hop, hs⟩ := bind_ok.mp hs
  have hstore := h.operand_store hos hop
  have hword := h.operand_word hos hop
  have hbyte := h.operand_byte hos hop
  have hnzvc : (s.writeReg .OS os).readPackedCSR = c.specified.nzvc := h₁.nzvc
  clear hop
  unfold Sim3.CPU.execute at hs
  unfold PepISA3CPU.handle at hc
  unfold PepISA3CPU.OperandsCoincide
  rw [← haddr] at hstore hword hbyte
  generalize opcodePlane is = op at *
  generalize opcodeLUT is = o at *
  have hd : ∀ {handler}, c.withOperand op.addr handler = .ok c' →
      handler c.specified (c.operandAddress c.pcShadow op.addr) = .ok c' := PepISA3CPU.withOperand_full h.span
  simp only [hb, ht] at hc ⊢
  cases hm : o.instr.mnemon <;>
    simp only [hm, Mnemonic.behavior, Mnemonic.register, unpackCSR_eq_unpack, hnzvc, pure_ok, bind_ok,
      iff_true] at hs hc ⊢
  case' BR | BRLE | BRLT | BREQ | BRNE | BRGE | BRGT | BRV | BRC | ADDSP | SUBSP | ADDA | ADDX | SUBA | SUBX | ANDA |
      ANDX | ORA | ORX | XORA | XORX | CPWA | CPWX | LDWA | LDWX =>
    obtain rfl := hword (hm ▸ rfl) (hm ▸ rfl)
    subst hs
  case BR => exact h₁.unconditionalBranch (hd hc)
  case BRLE => exact h₁.branch (k := .LE) hp (hd hc)
  case BRLT => exact h₁.branch (k := .LT) hp (hd hc)
  case BREQ => exact h₁.branch (k := .EQ) hp (hd hc)
  case BRNE => exact h₁.branch (k := .NE) hp (hd hc)
  case BRGE => exact h₁.branch (k := .GE) hp (hd hc)
  case BRGT => exact h₁.branch (k := .GT) hp (hd hc)
  case BRV => exact h₁.branch (k := .V) hp (hd hc)
  case BRC => exact h₁.branch (k := .C) hp (hd hc)
  case CALL =>
    obtain rfl := hword (hm ▸ rfl) (hm ▸ rfl)
    obtain ⟨s₁, hw, rfl⟩ := hs
    exact h₁.call hp (hd hc) hw
  case ADDSP => exact h₁.addsp hp (hd hc)
  case SUBSP => exact h₁.subsp hp (hd hc)
  case ADDA => exact h₁.add hp hA (hd hc)
  case ADDX => exact h₁.add hp hX (hd hc)
  case SUBA => exact h₁.sub hp hA (hd hc)
  case SUBX => exact h₁.sub hp hX (hd hc)
  case ANDA => exact h₁.bitop (o := .AND) hp hA (hd hc)
  case ANDX => exact h₁.bitop (o := .AND) hp hX (hd hc)
  case ORA => exact h₁.bitop (o := .OR) hp hA (hd hc)
  case ORX => exact h₁.bitop (o := .OR) hp hX (hd hc)
  case XORA => exact h₁.bitop (o := .XOR) hp hA (hd hc)
  case XORX => exact h₁.bitop (o := .XOR) hp hX (hd hc)
  case CPWA => exact h₁.cpw hp hA (hd hc)
  case CPWX => exact h₁.cpw hp hX (hd hc)
  case LDWA => exact h₁.ldw hp hA (hd hc)
  case LDWX => exact h₁.ldw hp hX (hd hc)
  case STWA =>
    obtain rfl := hstore (hm ▸ rfl)
    obtain ⟨s₁, hw, rfl⟩ := hs
    exact h₁.stw hp hA (hd hc) hw
  case STWX =>
    obtain rfl := hstore (hm ▸ rfl)
    obtain ⟨s₁, hw, rfl⟩ := hs
    exact h₁.stw hp hX (hd hc) hw
  case STBA =>
    obtain rfl := hstore (hm ▸ rfl)
    obtain ⟨s₁, hw, rfl⟩ := hs
    exact h₁.stb hp hA (hd hc) hw
  case STBX =>
    obtain rfl := hstore (hm ▸ rfl)
    obtain ⟨s₁, hw, rfl⟩ := hs
    exact h₁.stb hp hX (hd hc) hw
  case LDBA =>
    obtain rfl := hbyte (hm ▸ rfl) (hm ▸ rfl)
    subst hs
    rw [h₁.ldb hp hA (hd hc)]
    exact byteAddress_rel fun _ => rfl
  case LDBX =>
    obtain rfl := hbyte (hm ▸ rfl) (hm ▸ rfl)
    subst hs
    rw [h₁.ldb hp hX (hd hc)]
    exact byteAddress_rel fun _ => rfl
  case CPBA =>
    obtain rfl := hbyte (hm ▸ rfl) (hm ▸ rfl)
    subst hs
    rw [h₁.cpb hp hA (hd hc)]
    exact (byteAddress_rel (R := fun b b' => compareFlags _ b = compareFlags _ b') fun _ => rfl).trans
      (or_congr_right compareFlags_eq)
  case CPBX =>
    obtain rfl := hbyte (hm ▸ rfl) (hm ▸ rfl)
    subst hs
    rw [h₁.cpb hp hX (hd hc)]
    exact (byteAddress_rel (R := fun b b' => compareFlags _ b = compareFlags _ b') fun _ => rfl).trans
      (or_congr_right compareFlags_eq)
  case SCALL => cases hc
  all_goals cases hs

/-- Every one-byte instruction ends in agreement exactly when its operands coincide. -/
theorem unaryDispatch_done {c c' : PepISA3CPU} {s s' : Sim3.CPU} {is : U8} {pc : U16} (h : Agree c s)
    (hp : c.pcShadow = pc) (hc : c.handle (opcodePlane is) = .ok c') (hs : s.unaryDispatch is pc = .ok s') :
    Done c' s' ↔ c.OperandsCoincide pc (opcodePlane is) := by
  rcases planes_agree is with ht | ⟨hb, -, ht⟩
  · exact absurd hc (handle_throws ht)
  have hA : Isa.Register.A.general := .inl rfl
  have hX : Isa.Register.X.general := .inr (.inl rfl)
  have hSP : Isa.Register.SP.general := .inr (.inr rfl)
  have ha := h.readReg hA
  have hsp := h.readReg hSP
  unfold Sim3.CPU.unaryDispatch at hs
  unfold PepISA3CPU.handle at hc
  unfold PepISA3CPU.OperandsCoincide
  generalize opcodePlane is = op at *
  generalize opcodeLUT is = o at *
  simp only [hb, ht] at hc ⊢
  cases hm : o.instr.mnemon <;>
    simp only [hm, Mnemonic.behavior, Mnemonic.register, unpackCSR_eq_unpack, h.nzvc, pure_ok, bind_ok,
      iff_true] at hs hc ⊢
  case RET =>
    obtain ⟨addr, haddr, rfl⟩ := hs
    exact h.ret hc haddr
  case SRET =>
    obtain ⟨hagree, hpc⟩ := h.sret hc hs
    have hshadow := (PepISA3CPU.handleSret_full h.span hc).2
    rw [show c.word (c.regbank.sp + 5) = s'.readReg .PC from hpc.symm]
    constructor
    · intro hd
      rw [hd.pc, hshadow, ← hp]
    · intro heq
      exact ⟨hagree, by rw [heq, hshadow, hp]⟩
  case MOVFLGA => subst hc hs; exact h.storeReg hp hA _
  case MOVAFLG => subst hc hs; rw [ha]; exact h.storeFlags hp _
  case MOVSPA => subst hc hs; rw [hsp]; exact h.storeReg hp hA _
  case MOVASP => subst hc hs; rw [ha]; exact h.storeReg hp hSP _
  case NOP => subst hc hs; exact h.done hp
  case NEGA => subst hc hs; exact h.neg hp hA
  case NEGX => subst hc hs; exact h.neg hp hX
  case ASLA => subst hc hs; exact h.asl hp hA
  case ASLX => subst hc hs; exact h.asl hp hX
  case ASRA => subst hc hs; exact h.asr hp hA
  case ASRX => subst hc hs; exact h.asr hp hX
  case NOTA => subst hc hs; exact h.not hp hA
  case NOTX => subst hc hs; exact h.not hp hX
  case ROLA => subst hc hs; exact h.rol hp hA
  case ROLX => subst hc hs; exact h.rol hp hX
  case RORA => subst hc hs; exact h.ror hp hA
  case RORX => subst hc hs; exact h.ror hp hX
  case SCALL => cases hc
  all_goals cases hs

end Pepp

import Pepp.Cpu.SignedCompare

/-!
# Byte stores and byte loads

A byte is stored at the address of the operand, and byte loads and byte compares
take theirs from one past it. What is read back is the byte that lies there
already.
-/

namespace Pepp

open Isa Span Runs

namespace Dense

variable {self out : Dense} {ea : Address} {b : U8}

theorem write_span {src : List U8} (h : self.write ea src = .ok out) : out.span = self.span := by
  rw [(write_ok.mp h).2]

/-- A byte that is written leaves the bytes of every other access. -/
theorem bytes_write {a : Address} {len : Nat} (h : self.write ea [b] = .ok out) (ha : self.inBounds a len)
    (hne : ea.toNat < a.toNat ∨ a.toNat + len ≤ ea.toNat) : out.bytes a len = self.bytes a len := by
  obtain ⟨hb, rfl⟩ := write_ok.mp h
  have hea : self.span.lower.toNat ≤ ea.toNat := BitVec.le_def.mp hb.1
  have hla : self.span.lower.toNat ≤ a.toNat := BitVec.le_def.mp ha.1
  have hoffset : ∀ x : Address, self.span.lower.toNat ≤ x.toNat →
      self.offset x = x.toNat - self.span.lower.toNat := fun x hx =>
    BitVec.toNat_sub_of_le (BitVec.le_def.mpr hx)
  refine slice_overwrite_disjoint _ _ _ _ _ ?_
  change self.offset a + len ≤ self.offset ea ∨ self.offset ea + 1 ≤ self.offset a
  rw [hoffset a hla, hoffset ea hea]
  omega

theorem read_write {a : Address} {len : Nat} (h : self.write ea [b] = .ok out)
    (hne : ea.toNat < a.toNat ∨ a.toNat + len ≤ ea.toNat) : out.read a len = self.read a len := by
  have hspan := write_span h
  unfold read
  by_cases ha : self.inBounds a len
  · rw [if_pos ha, if_pos (show out.inBounds a len by unfold inBounds; rwa [hspan]), bytes_write h ha hne]
  · rw [if_neg ha, if_neg (show ¬ out.inBounds a len by unfold inBounds; rwa [hspan])]

end Dense

namespace PepISA3CPU

variable {c c₁ d d₁ : PepISA3CPU} {addr : SharedAddrMode} {reg : Register} {opr ea : U16} {b : U8}

/-- The registers an addressing mode adds to the specifier. -/
def baseRegisters : SharedAddrMode → List Register
  | .S | .SF => [.SP]
  | .X => [.X]
  | .SX | .SFX => [.X, .SP]
  | .I | .D | .N | .Unary => []

/-- The cells with the pointer that a deferred mode goes through. -/
def pointerCells (self : PepISA3CPU) (opr : U16) : SharedAddrMode → List Nat
  | .N => [opr.toNat, opr.toNat + 1]
  | .SF | .SFX => [(self.readRegister .SP + opr).toNat, (self.readRegister .SP + opr).toNat + 1]
  | .I | .D | .S | .X | .SX | .Unary => []

/-- The instruction at the program counter, fetched into `d`, with its operand specifier. -/
structure Fetches (c : PepISA3CPU) (behavior : SharedOpBehavior) (addr : SharedAddrMode) (reg : Register) (opr : U16)
    (d : PepISA3CPU) : Prop where
  instruction : ∃ is, c.fetch = .ok (is, d) ∧ (opcodePlane is).behavior = behavior ∧
    (opcodePlane is).addr = addr ∧ Register.ofU8 (opcodePlane is).target = reg
  specifier : d.readU16 d.readPc = .ok opr

/-- The byte instructions are about `A` and `X`, and none stores to an immediate. -/
theorem byte_opcodes : ∀ is : U8,
    ((opcodePlane is).behavior = .STB ∨ (opcodePlane is).behavior = .LDB ∨ (opcodePlane is).behavior = .CPB →
      Register.ofU8 (opcodePlane is).target = .A ∨ Register.ofU8 (opcodePlane is).target = .X) ∧
    ((opcodePlane is).behavior = .STB → (opcodePlane is).addr ≠ .I ∧ (opcodePlane is).addr ≠ .Unary) := by
  have hrows : ∀ row ∈ behaviorRows,
      (row.2.behavior = .STB ∨ row.2.behavior = .LDB ∨ row.2.behavior = .CPB →
        Register.ofU8 row.2.target = .A ∨ Register.ofU8 row.2.target = .X) ∧
      (row.2.behavior = .STB → row.2.addr ≠ .I ∧ row.2.addr ≠ .Unary) := by decide +kernel
  exact fun is => lastRow_of_rows (P := fun op : SharedOp =>
    (op.behavior = .STB ∨ op.behavior = .LDB ∨ op.behavior = .CPB →
      Register.ofU8 op.target = .A ∨ Register.ofU8 op.target = .X) ∧
    (op.behavior = .STB → op.addr ≠ .I ∧ op.addr ≠ .Unary)) hrows (by decide) is.toNat

/-- The state with the specifier in `OS`. -/
def atOperand (self : PepISA3CPU) (opr : U16) : PepISA3CPU := (self.writePc (self.readPc + 2)).writeRegister .OS opr

/-- Where an addressing mode leads, from the base registers and the pointer it goes through. -/
def effectiveAddress (self : PepISA3CPU) (opr : U16) : SharedAddrMode → Except Exception U16
  | .I => .ok self.readPc
  | .N => self.readU16 opr
  | .D => .ok opr
  | .SF => self.readU16 (self.readRegister .SP + opr)
  | .S => .ok (self.readRegister .SP + opr)
  | .X => .ok (self.readRegister .X + opr)
  | .SX => .ok (self.readRegister .X + self.readRegister .SP + opr)
  | .SFX => (self.readU16 (self.readRegister .SP + opr)).map (self.readRegister .X + ·)
  | .Unary => .error (.logicError "Invalid addressing mode for decode_op_addr")

theorem decodeOpAddr_eq (addr : SharedAddrMode) (h : d.readU16 d.readPc = .ok opr) :
    d.decodeOpAddr addr = (d.effectiveAddress opr addr).map (·, d.atOperand opr) := by
  have hread : (d.writePc (d.readPc + 2)).readU16 d.readPc = .ok opr := h
  simp only [decodeOpAddr, hread]
  cases addr with
  | N =>
    change (d.readU16 opr >>= fun a => pure (a, d.atOperand opr)) = (d.readU16 opr).map _
    cases d.readU16 opr <;> rfl
  | SF =>
    change (d.readU16 (d.readRegister .SP + opr) >>= fun a => pure (a, d.atOperand opr)) = Except.map _ (d.readU16 _)
    cases d.readU16 (d.readRegister .SP + opr) <;> rfl
  | SFX =>
    change (d.readU16 (d.readRegister .SP + opr) >>= fun a => pure (d.readRegister .X + a, d.atOperand opr)) =
      Except.map _ (Except.map _ (d.readU16 _))
    cases d.readU16 (d.readRegister .SP + opr) <;> rfl
  | _ => rfl

/-- A byte written outside the pointer leaves the addresses that the modes lead to. -/
theorem effectiveAddress_written {out : Dense} (h : c.target.write (ea.setWidth 32) [b] = .ok out)
    (hd : d.target = out) (hbase : ∀ r ∈ baseRegisters addr, d.readRegister r = c.readRegister r)
    (hcells : ea.toNat ∉ c.pointerCells opr addr) (hmode : addr ≠ .I) :
    d.effectiveAddress opr addr = c.effectiveAddress opr addr := by
  have hread : ∀ p : U16, ea.toNat ∉ [p.toNat, p.toNat + 1] → d.readU16 p = c.readU16 p := by
    intro p hp
    rw [List.mem_pair] at hp
    have hcell : ∀ a : U16, (a.setWidth 32).toNat = a.toNat := fun a => by simp; omega
    have hsame : d.target.read (p.setWidth 32) 2 = c.target.read (p.setWidth 32) 2 :=
      hd ▸ Dense.read_write h (by rw [hcell, hcell]; omega)
    unfold readU16 Dense.readU16
    rw [hsame]
  cases addr with
  | I => exact absurd rfl hmode
  | D | Unary => rfl
  | N => exact hread opr hcells
  | S | X => simp only [effectiveAddress, hbase _ List.mem_cons_self]
  | SX =>
    have hx := hbase .X (by decide)
    have hsp := hbase .SP (by decide)
    simp only [effectiveAddress, hx, hsp]
  | SF =>
    have hsp := hbase .SP (by decide)
    simp only [effectiveAddress, hsp, hread _ hcells]
  | SFX =>
    have hx := hbase .X (by decide)
    have hsp := hbase .SP (by decide)
    simp only [effectiveAddress, hx, hsp, hread _ hcells]

/-- A tick from the operand's address on. -/
theorem tick_of_operand {is : U8} {handler : PepISA3CPU → U16 → Except Exception PepISA3CPU}
    (hf : d.fetch = .ok (is, d₁)) (hh : d₁.handle (opcodePlane is) = d₁.withOperand addr handler)
    (hopr : d₁.readU16 d₁.readPc = .ok opr) (hea : d₁.effectiveAddress opr addr = .ok ea) :
    d.clockTick = (handler (d₁.atOperand opr) ea).map (·.storePc d.regbank.pc) := by
  have hdecode : d₁.decodeOpAddr addr = .ok (ea, d₁.atOperand opr) := by
    rw [decodeOpAddr_eq addr hopr, hea]
    rfl
  rw [clockTick, hf]
  change (d₁.handle (opcodePlane is) >>= fun d => pure (d.storePc _)) = _
  rw [hh, withOperand, hdecode]
  change (handler (d₁.atOperand opr) ea >>= fun d => pure (d.storePc _)) = _
  cases handler (d₁.atOperand opr) ea <;> rfl

/-- A byte load finds the byte past the operand's address. -/
theorem load_tick (h : d.Fetches .LDB addr reg opr d₁) (hea : d₁.effectiveAddress opr addr = .ok ea) :
    (∃ d', d.clockTick = .ok d' ∧ loByte (d'.readRegister reg) = b) ↔ d.target.readU8 (ea.setWidth 32 + 1) = .ok b := by
  obtain ⟨⟨is, hf, hop, rfl, rfl⟩, hopr⟩ := h
  have hh : d₁.handle (opcodePlane is) =
      d₁.withOperand (opcodePlane is).addr (handleLdbr · (Register.ofU8 (opcodePlane is).target)) := by
    unfold handle
    simp only [hop]
  have hreg := (byte_opcodes is).1 (.inr (.inl hop))
  have hmem : (d₁.atOperand opr).readU8 (ea.setWidth 32 + 1) = d.target.readU8 (ea.setWidth 32 + 1) := by
    obtain ⟨reports, rfl⟩ := fetch_spec hf
    rfl
  rw [tick_of_operand hf hh hopr hea, handleLdbr, hmem]
  cases d.target.readU8 (ea.setWidth 32 + 1) with
  | error e =>
    constructor
    · rintro ⟨d', h, -⟩
      cases h
    · intro h
      cases h
  | ok w =>
    have hload : ∀ r : Register, r = .A ∨ r = .X → ∀ (self : PepISA3CPU) (pc : U16) (csr : U8),
        loByte ((((self.writeRegister r (w.setWidth 16)).writePackedCsr csr).storePc pc).readRegister r) = w := by
      intro r hr self pc csr
      rcases hr with rfl | rfl <;>
        simp only [readRegister, reduceCtorEq, if_false, readRegisterUncached, storePc_regbank] <;>
        exact BitVec.setWidth_setWidth_of_le _ (by decide)
    constructor
    · rintro ⟨d', h, hb⟩
      cases h
      rw [hload _ hreg] at hb
      rw [hb]
    · intro h
      cases h
      exact ⟨_, rfl, hload _ hreg _ _ _⟩

/-- A byte compare is of the byte past the operand's address. -/
theorem compare_byte_tick (h : d.Fetches .CPB addr reg opr d₁) (hea : d₁.effectiveAddress opr addr = .ok ea)
    (hb : loByte (d.readRegister reg) = b) :
    (∃ d', d.clockTick = .ok d' ∧ (PepCSRBank.unpack d'.readPackedCsr).2.1 = true) ↔
      d.target.readU8 (ea.setWidth 32 + 1) = .ok b := by
  obtain ⟨⟨is, hf, hop, rfl, rfl⟩, hopr⟩ := h
  have hh : d₁.handle (opcodePlane is) =
      d₁.withOperand (opcodePlane is).addr (handleCpbr · (Register.ofU8 (opcodePlane is).target)) := by
    unfold handle
    simp only [hop]
  have hreg := (byte_opcodes is).1 (.inr (.inr hop))
  have hmem : (d₁.atOperand opr).readU8 (ea.setWidth 32 + 1) = d.target.readU8 (ea.setWidth 32 + 1) ∧
      ∀ r : Register, r = .A ∨ r = .X → (d₁.atOperand opr).readRegister r = d.readRegister r := by
    obtain ⟨reports, rfl⟩ := fetch_spec hf
    refine ⟨rfl, fun r hr => ?_⟩
    rcases hr with rfl | rfl <;> rfl
  rw [tick_of_operand hf hh hopr hea, handleCpbr, hmem.1]
  cases d.target.readU8 (ea.setWidth 32 + 1) with
  | error e =>
    constructor
    · rintro ⟨d', h, -⟩
      cases h
    · intro h
      cases h
  | ok w =>
    have hflags : ∀ (src : U16) (self : PepISA3CPU) (pc : U16),
        (PepCSRBank.unpack ((self.writePackedCsr (PepCSRBank.pack
          (((src + ~~~(w.setWidth 16) + 1) &&& 0xff) &&& 0x80 != 0) (((src + ~~~(w.setWidth 16) + 1) &&& 0xff) == 0)
          false false)).storePc pc).readPackedCsr).2.1 = (loByte src == w) := by
      intro src self pc
      rw [readPackedCsr, (storePc_frame pc).1, writePackedCsr, pack_masked, pack_compare, compareFlags,
        PepCSRBank.unpack_pack]
    constructor
    · rintro ⟨d', h, hz⟩
      cases h
      rw [hflags, hmem.2 _ hreg, hb, beq_iff_eq] at hz
      rw [hz]
    · intro h
      cases h
      exact ⟨_, rfl, by rw [hflags, hmem.2 _ hreg, hb, beq_self_eq_true]⟩

/-- A byte store writes the byte at the operand's address. -/
theorem store_tick {c' : PepISA3CPU} (h : c.Fetches .STB addr reg opr c₁)
    (hea : c₁.effectiveAddress opr addr = .ok ea) (htick : c.clockTick = .ok c') :
    c.target.write (ea.setWidth 32) [loByte (c.readRegister reg)] = .ok c'.target := by
  obtain ⟨⟨is, hf, hop, rfl, rfl⟩, hopr⟩ := h
  have hh : c₁.handle (opcodePlane is) =
      c₁.withOperand (opcodePlane is).addr (handleStbr · (Register.ofU8 (opcodePlane is).target)) := by
    unfold handle
    simp only [hop]
  have hreg := (byte_opcodes is).1 (.inl hop)
  have hmem : (c₁.atOperand opr).target = c.target ∧
      ∀ r : Register, r = .A ∨ r = .X → (c₁.atOperand opr).readRegister r = c.readRegister r := by
    obtain ⟨reports, rfl⟩ := fetch_spec hf
    refine ⟨rfl, fun r hr => ?_⟩
    rcases hr with rfl | rfl <;> rfl
  rw [tick_of_operand hf hh hopr hea, handleStbr, hmem.2 _ hreg, writeTarget, hmem.1] at htick
  cases hw : c.target.write (ea.setWidth 32) [loByte (c.readRegister (Register.ofU8 (opcodePlane is).target))] with
  | error e =>
    rw [hw] at htick
    cases htick
  | ok out =>
    rw [hw] at htick
    cases htick
    rw [(storePc_frame _).2]

/-- Fetching an instruction moves no operand but an immediate. -/
theorem effectiveAddress_fetched {is : U8} (h : d.fetch = .ok (is, d₁)) (hmode : addr ≠ .I) :
    d₁.effectiveAddress opr addr = d.effectiveAddress opr addr := by
  obtain ⟨reports, rfl⟩ := fetch_spec h
  cases addr with
  | I => exact absurd rfl hmode
  | _ => rfl

/-- Some time after a byte store of `c` that ended in `c'`: memory is as it was left, and so are the registers that
the addressing mode adds. -/
structure After (c c' : PepISA3CPU) (addr : SharedAddrMode) (d : PepISA3CPU) : Prop where
  memory : d.target = c'.target
  bases : ∀ r ∈ baseRegisters addr, d.readRegister r = c.readRegister r

/-- A byte is read back, by a load and by a compare, exactly when the cell past it held that byte before. -/
theorem byte_read_back_iff {c' : PepISA3CPU} (hstore : c.Fetches .STB addr reg opr c₁)
    (hea : c.effectiveAddress opr addr = .ok ea) (hclear : ea.toNat ∉ c.pointerCells opr addr)
    (htick : c.clockTick = .ok c') :
    (∀ d d₁, c.After c' addr d → d.Fetches .LDB addr reg opr d₁ →
      ((∃ d', d.clockTick = .ok d' ∧ loByte (d'.readRegister reg) = loByte (c.readRegister reg)) ↔
        c.target.readU8 (ea.setWidth 32 + 1) = .ok (loByte (c.readRegister reg)))) ∧
    (∀ d d₁, c.After c' addr d → d.Fetches .CPB addr reg opr d₁ →
      loByte (d.readRegister reg) = loByte (c.readRegister reg) →
      ((∃ d', d.clockTick = .ok d' ∧ (PepCSRBank.unpack d'.readPackedCsr).2.1 = true) ↔
        c.target.readU8 (ea.setWidth 32 + 1) = .ok (loByte (c.readRegister reg)))) := by
  have hmode : addr ≠ .I := by
    obtain ⟨is, -, hop, rfl, -⟩ := hstore.instruction
    exact ((byte_opcodes is).2 hop).1
  have hwrite := store_tick hstore (by
    obtain ⟨is, hf, -⟩ := hstore.instruction
    rwa [effectiveAddress_fetched hf hmode]) htick
  have haddress : ∀ {behavior} {d d₁ : PepISA3CPU}, c.After c' addr d → d.Fetches behavior addr reg opr d₁ →
      d₁.effectiveAddress opr addr = .ok ea := by
    rintro behavior d d₁ ⟨hmemory, hbases⟩ ⟨⟨is, hf, -⟩, -⟩
    rw [effectiveAddress_fetched hf hmode, effectiveAddress_written hwrite hmemory hbases hclear hmode, hea]
  have hpast : ∀ {d : PepISA3CPU}, c.After c' addr d →
      d.target.readU8 (ea.setWidth 32 + 1) = c.target.readU8 (ea.setWidth 32 + 1) := by
    rintro d ⟨hmemory, -⟩
    have hnext : (ea.setWidth 32 + 1 : Address).toNat = (ea.setWidth 32).toNat + 1 := by simp; omega
    unfold Dense.readU8
    rw [hmemory, Dense.read_write hwrite (.inl (by omega))]
  refine ⟨fun d d₁ hafter hload => ?_, fun d d₁ hafter hcompare hsame => ?_⟩
  · rw [← hpast hafter]
    exact load_tick hload (haddress hafter hload)
  · rw [← hpast hafter]
    exact compare_byte_tick hcompare (haddress hafter hcompare) hsame

/-- `STBA 0x1000,d` and then `LDBA 0x1000,d`, with `0x12` in the accumulator. -/
def storeLoad : PepISA3CPU :=
  { reset [0xF1, 0x10, 0x00, 0xD1, 0x10, 0x00] with regbank := ⟨0x12, 0, 0, 0, 0, 0⟩ }

theorem storeLoad_tick : ∃ c', storeLoad.clockTick = .ok c' ∧ storeLoad.Fetches .STB .D .A 0x1000 storeLoad.fetched ∧
    c'.Fetches .LDB .D .A 0x1000 c'.fetched ∧ c'.target.readU8 0x1001 = .ok 0 := by
  have hafter : storeLoad.clockTick.map (fun c => (c.target.span, c.opcode, c.fetched.readU16 c.fetched.readPc,
      c.target.readU8 0x1001)) = .ok (fullSpan, 0xD1, .ok 0x1000, .ok 0) := by decide +kernel
  have hload : (opcodePlane 0xD1) = ⟨.LDB, .D, 0⟩ := by decide +kernel
  have hstore : (opcodePlane storeLoad.opcode) = ⟨.STB, .D, 0⟩ := by decide +kernel
  cases h : storeLoad.clockTick with
  | error e => rw [h] at hafter; cases hafter
  | ok c' =>
    rw [h] at hafter
    obtain ⟨hspan, hopcode, hopr, hpast⟩ : c'.target.span = fullSpan ∧ c'.opcode = 0xD1 ∧
        c'.fetched.readU16 c'.fetched.readPc = .ok 0x1000 ∧ c'.target.readU8 0x1001 = .ok 0 := by
      simpa [Except.map] using hafter
    refine ⟨c', rfl, ⟨⟨_, fetch_ok rfl, ?_, ?_, ?_⟩, by decide +kernel⟩,
      ⟨⟨_, fetch_ok hspan, ?_, ?_, ?_⟩, hopr⟩, hpast⟩
    all_goals first | rw [hstore] | rw [hopcode, hload]
    all_goals rfl

/-- The cell past the stored byte holds another one. -/
theorem byte_read_back_store_load : ∃ c', storeLoad.clockTick = .ok c' ∧
    ((∃ d', c'.clockTick = .ok d' ∧ loByte (d'.readRegister .A) = loByte (storeLoad.readRegister .A)) ↔
      storeLoad.target.readU8 ((0x1000 : U16).setWidth 32 + 1) = .ok (loByte (storeLoad.readRegister .A))) := by
  obtain ⟨c', htick, hstore, hload, -⟩ := storeLoad_tick
  have hafter : storeLoad.After c' .D c' := ⟨rfl, fun _ h => nomatch h⟩
  exact ⟨c', htick, (byte_read_back_iff hstore rfl (by decide) htick).1 c' _ hafter hload⟩

/-- A stored byte is not always loaded back. -/
theorem not_byte_read_back :
    ¬ ∀ (c c₁ c' d d₁ : PepISA3CPU) (addr : SharedAddrMode) (reg : Register) (opr ea : U16),
      c.Fetches .STB addr reg opr c₁ → c.effectiveAddress opr addr = .ok ea → ea.toNat ∉ c.pointerCells opr addr →
      c.clockTick = .ok c' → c.After c' addr d → d.Fetches .LDB addr reg opr d₁ →
      ∃ d', d.clockTick = .ok d' ∧ loByte (d'.readRegister reg) = loByte (c.readRegister reg) := by
  intro hall
  obtain ⟨c', htick, hstore, hload, hpast⟩ := storeLoad_tick
  have hback := hall storeLoad _ c' c' _ .D .A 0x1000 0x1000 hstore rfl (by decide) htick
    ⟨rfl, fun _ h => nomatch h⟩ hload
  have hread := (load_tick hload rfl).mp hback
  rw [show ((0x1000 : U16).setWidth 32 + 1 : Address) = 0x1001 by decide, hpast] at hread
  exact absurd hread (by decide +kernel)

end PepISA3CPU

end Pepp

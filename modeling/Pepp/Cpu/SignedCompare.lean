import Pepp.Cpu.Refinement

/-!
# Compare, then branch

A word compare leaves its signed outcome in the N and Z flags, and six branches
read it from there. It subtracts by adding the negated operand, and the negation
of the most negative word is that word again.
-/

namespace Pepp

open Isa Span Runs

/-! ## Signs of words -/

theorem word_negative (w : U16) : (w &&& 0x8000 != 0) = w.msb := by
  rw [show (0x8000 : U16) = BitVec.twoPow 16 15 by decide, BitVec.and_twoPow, BitVec.msb_eq_getLsbD_last]
  cases w.getLsbD 15 <;> rfl

theorem word_sign_shifted (w : U16) : (w >>> 15 != 0) = w.msb := by
  have hw := w.isLt
  have h : (w >>> 15).toNat = w.toNat / 32768 := by simp [Nat.shiftRight_eq_div_pow]
  rw [BitVec.msb_eq_decide, Bool.eq_iff_iff, bne_iff_ne, decide_eq_true_iff, ne_eq, ← BitVec.toNat_inj, h]
  change ¬ w.toNat / 32768 = 0 ↔ 32768 ≤ w.toNat
  omega

/-- The sign of a difference, corrected where the subtraction overflows. -/
theorem sign_of_difference {x y : U16} (hy : y ≠ 0x8000) :
    ((x + -y).msb ^^ (!(x.msb ^^ (-y).msb) && (x.msb ^^ (x + -y).msb))) = x.slt y := by
  have hx := x.isLt
  have hlt := y.isLt
  have hne : y.toNat ≠ 0x8000 := fun h => hy (BitVec.eq_of_toNat_eq h)
  have hd : (x + -y).toNat = (x.toNat + (65536 - y.toNat)) % 65536 := by simp [BitVec.toNat_add, BitVec.toNat_neg]
  have hn : (-y).toNat = (65536 - y.toNat) % 65536 := by simp [BitVec.toNat_neg]
  have hsign : ∀ w : U16, w.msb = decide (32768 ≤ w.toNat) := fun w => BitVec.msb_eq_decide w
  have hint : ∀ w : U16, w.toInt = if 2 * w.toNat < 65536 then (w.toNat : Int) else w.toNat - 65536 := fun w =>
    BitVec.toInt_eq_toNat_cond w
  rw [hsign x, hsign (-y), hsign (x + -y), hd, hn, BitVec.slt_eq_decide, hint x, hint y]
  by_cases hxs : 32768 ≤ x.toNat <;> by_cases hys : 32768 ≤ (65536 - y.toNat) % 65536 <;>
    by_cases hds : 32768 ≤ (x.toNat + (65536 - y.toNat)) % 65536 <;>
    simp only [hxs, hys, hds, decide_true, decide_false] <;> split <;> split <;> simp <;> omega

/-- Against the most negative word the corrected sign is always set. -/
theorem sign_of_difference_min (x : U16) :
    ((x + -0x8000#16).msb ^^ (!(x.msb ^^ (-0x8000#16).msb) && (x.msb ^^ (x + -0x8000#16).msb))) = true := by
  have h : (x + -0x8000#16).msb = !x.msb := by
    have hx := x.isLt
    have hd : (x + -0x8000#16).toNat = (x.toNat + 32768) % 65536 := by simp [BitVec.toNat_add]
    have hsign : ∀ w : U16, w.msb = decide (32768 ≤ w.toNat) := fun w => BitVec.msb_eq_decide w
    rw [hsign x, hsign (x + -0x8000#16), hd, ← decide_not, decide_eq_decide]
    omega
  rw [h, show (-0x8000#16).msb = true by decide]
  cases x.msb <;> rfl

namespace PepCSRBank

theorem unpack_pack (n z v c : Bool) : unpack (pack n z v c) = (n, z, v, c) := by
  revert n z v c
  decide

end PepCSRBank

namespace PepISA3CPU

/-- The comparisons that have a branch of their own. -/
inductive Comparison where
  | LT | LE | EQ | NE | GE | GT
  deriving DecidableEq, Repr

namespace Comparison

def behavior : Comparison → SharedOpBehavior
  | .LT => .BRLT
  | .LE => .BRLE
  | .EQ => .BREQ
  | .NE => .BRNE
  | .GE => .BRGE
  | .GT => .BRGT

def condition : Comparison → BranchCondition
  | .LT => .LT
  | .LE => .LE
  | .EQ => .EQ
  | .NE => .NE
  | .GE => .GE
  | .GT => .GT

def holds (x y : Int) : Comparison → Bool
  | .LT => x < y
  | .LE => x ≤ y
  | .EQ => x = y
  | .NE => x ≠ y
  | .GE => x ≥ y
  | .GT => x > y

/-- A branch reads a comparison off the flags that say whether it is less and whether it is equal. -/
theorem taken_condition (k : Comparison) (x y : U16) (v c : Bool) :
    k.condition.taken (x.slt y) (x == y) v c = k.holds x.toInt y.toInt := by
  have he : (x == y) = decide (x.toInt = y.toInt) := by
    rw [Bool.eq_iff_iff, beq_iff_eq, decide_eq_true_iff, BitVec.toInt_inj]
  rw [he, BitVec.slt_eq_decide]
  cases k <;> simp only [condition, BranchCondition.taken, holds] <;> rw [Bool.eq_iff_iff] <;> simp <;> omega

end Comparison

variable {self : PepISA3CPU}

/-- The word a dyadic instruction operates on. -/
def operand (self : PepISA3CPU) (addr : SharedAddrMode) : Except Exception U16 := do
  let (opAddr, self) ← self.decodeOpAddr addr
  self.readU16 opAddr

variable {d : PepISA3CPU}

/-- Decoding an operand address steps past the specifier and keeps it in `OS`. -/
theorem decodeOpAddr_spec {addr : SharedAddrMode} {ea : U16} (h : self.decodeOpAddr addr = .ok (ea, d)) :
    ∃ opr, d = (self.writePc (self.readPc + 2)).writeRegister .OS opr := by
  simp only [decodeOpAddr, bind_ok] at h
  obtain ⟨opr, -, h⟩ := h
  refine ⟨opr, ?_⟩
  cases addr <;> simp only [bind_ok, pure_ok, Prod.mk.injEq] at h
  case Unary => cases h
  case N | SF | SFX =>
    obtain ⟨_, -, -, rfl⟩ := h
    rfl
  all_goals exact h.2.symm

theorem withOperand_spec {addr : SharedAddrMode} {handler : PepISA3CPU → U16 → Except Exception PepISA3CPU} {w : U16}
    (h : self.withOperand addr handler = .ok d) (hw : self.operand addr = .ok w) :
    ∃ opr ea, ((self.writePc (self.readPc + 2)).writeRegister .OS opr).readU16 ea = .ok w ∧
      handler ((self.writePc (self.readPc + 2)).writeRegister .OS opr) ea = .ok d := by
  simp only [withOperand, bind_ok] at h
  obtain ⟨⟨ea, d₁⟩, hd, h⟩ := h
  obtain ⟨⟨ea', d₁'⟩, hd', hw⟩ := bind_ok.mp hw
  obtain ⟨rfl, rfl⟩ := Prod.mk.inj (Except.ok.inj (hd.symm.trans hd'))
  obtain ⟨opr, rfl⟩ := decodeOpAddr_spec hd
  exact ⟨opr, ea, hw, h⟩

/-- The N flag of a word compare. -/
def compareNegative (src operand : U16) : Bool := if operand = 0x8000 then true else src.slt operand

theorem handleCpwr_flags {reg : Register} {ea w : U16} (h : self.handleCpwr reg ea = .ok d)
    (hw : self.readU16 ea = .ok w) :
    ∃ v c, PepCSRBank.unpack d.readPackedCsr =
      (compareNegative (self.readRegister reg) w, self.readRegister reg == w, v, c) := by
  have hneg : ~~~w + 1 = -w := (BitVec.neg_eq_not_add w).symm
  have hz : ∀ x : U16, (x + -w == 0) = (x == w) := fun x => by
    rw [Bool.eq_iff_iff, beq_iff_eq, beq_iff_eq, ← sub_eq_add_neg]
    exact sub_eq_zero
  have hn : ∀ x : U16, (((x + -w) &&& 0x8000 != 0) ^^ ((~~~(x ^^^ -w) &&& (x ^^^ (x + -w))) >>> 15 != 0)) =
      compareNegative x w := fun x => by
    rw [word_negative, word_sign_shifted, BitVec.msb_and, BitVec.msb_not, BitVec.msb_xor, BitVec.msb_xor,
      compareNegative]
    split
    · rename_i hw
      rw [hw]
      exact sign_of_difference_min x
    · exact sign_of_difference ‹_›
  simp only [handleCpwr, hw, hneg, bind_ok, Except.ok.injEq, exists_eq_left', pure_ok] at h
  subst h
  exact ⟨_, _, by rw [readPackedCsr, writePackedCsr, pack_masked, PepCSRBank.unpack_pack, hn, hz]⟩

theorem handleBranch_pc {cond : BranchCondition} {ea w : U16} (h : self.handleBranch cond ea = .ok d)
    (hw : self.readU16 ea = .ok w) :
    d.readPc = if cond.taken (PepCSRBank.unpack self.readPackedCsr).1 (PepCSRBank.unpack self.readPackedCsr).2.1
      (PepCSRBank.unpack self.readPackedCsr).2.2.1 (PepCSRBank.unpack self.readPackedCsr).2.2.2 then w
      else self.readPc := by
  simp only [handleBranch, hw, bind_ok, Except.ok.injEq, exists_eq_left', pure_ok] at h
  subst h
  split <;> rfl

/-- Whichever branch of the six is executed next with the flags of `self`, it jumps exactly when
its comparison of the two words holds. -/
def BranchesFollow (self : PepISA3CPU) (src operand : U16) : Prop :=
  ∀ (k : Comparison) (d d₁ d' : PepISA3CPU) (is : U8) (target : U16),
    d.readPackedCsr = self.readPackedCsr → d.fetch = .ok (is, d₁) → (opcodePlane is).behavior = k.behavior →
    d₁.operand (opcodePlane is).addr = .ok target → d.clockTick = .ok d' →
    d'.readRegisterUncached .PC =
      if k.holds src.toInt operand.toInt then target else d.readRegisterUncached .PC + 3

theorem handle_branch (k : Comparison) {op : SharedOp} (hop : op.behavior = k.behavior) :
    self.handle op = self.withOperand op.addr (handleBranch · k.condition) := by
  unfold handle
  cases k <;> simp only [hop, Comparison.behavior, Comparison.condition]

/-- A branch of the six, tick by tick. -/
theorem branch_tick {k : Comparison} {d₁ d' : PepISA3CPU} {is : U8} {target : U16} (hf : self.fetch = .ok (is, d₁))
    (hop : (opcodePlane is).behavior = k.behavior) (hw : d₁.operand (opcodePlane is).addr = .ok target)
    (h : self.clockTick = .ok d') :
    d'.readRegisterUncached .PC =
      if k.condition.taken (PepCSRBank.unpack self.readPackedCsr).1 (PepCSRBank.unpack self.readPackedCsr).2.1
        (PepCSRBank.unpack self.readPackedCsr).2.2.1 (PepCSRBank.unpack self.readPackedCsr).2.2.2 then target
      else self.readRegisterUncached .PC + 3 := by
  obtain ⟨d₂, hh, rfl⟩ := clockTick_spec hf h
  obtain ⟨reports, rfl⟩ := fetch_spec hf
  rw [handle_branch k hop] at hh
  obtain ⟨opr, ea, hr, hb⟩ := withOperand_spec hh hw
  have hbranch := handleBranch_pc hb hr
  have hstore : (d₂.storePc self.regbank.pc).readRegisterUncached .PC = d₂.readPc := by
    rw [readRegisterUncached, storePc_regbank]
    rfl
  have hnext : self.regbank.pc + 1 + 2 = self.readRegisterUncached .PC + 3 := by
    rw [BitVec.add_assoc]
    rfl
  rw [hstore, hbranch]
  change (if _ then target else self.regbank.pc + 1 + 2) = _
  rw [hnext]
  rfl

/-- A compare leaves its outcome in the flags. -/
theorem compare_tick {c₁ c' : PepISA3CPU} {is : U8} {reg : Register} {w : U16} (hf : self.fetch = .ok (is, c₁))
    (hop : (opcodePlane is).behavior = .CPW) (hreg : Register.ofU8 (opcodePlane is).target = reg)
    (hr : reg = .A ∨ reg = .X) (hw : c₁.operand (opcodePlane is).addr = .ok w) (h : self.clockTick = .ok c') :
    ∃ v c, PepCSRBank.unpack c'.readPackedCsr =
      (compareNegative (self.readRegister reg) w, self.readRegister reg == w, v, c) := by
  obtain ⟨c₂, hh, rfl⟩ := clockTick_spec hf h
  obtain ⟨reports, rfl⟩ := fetch_spec hf
  have hhandle : ∀ d : PepISA3CPU, d.handle (opcodePlane is) =
      d.withOperand (opcodePlane is).addr (handleCpwr · reg) := fun d => by
    unfold handle
    simp only [hop, hreg]
  rw [hhandle] at hh
  obtain ⟨opr, ea, hread, hc⟩ := withOperand_spec hh hw
  obtain ⟨v, c, hflags⟩ := handleCpwr_flags hc hread
  refine ⟨v, c, ?_⟩
  rw [readPackedCsr, (storePc_frame self.regbank.pc).1]
  rcases hr with rfl | rfl <;> exact hflags

/-- The same registers and flags in front of `BRLT 0,i` at address 0. -/
def atBranch (self : PepISA3CPU) : PepISA3CPU :=
  { self with
    regbank := { self.regbank with pc := 0 }
    target := ⟨fullSpan, fun i => if i = 0 then 0x28 else 0⟩ }

theorem fetch_ok (h : self.target.span = fullSpan) : self.fetch = .ok (self.opcode, self.fetched) := by
  have ha : (self.regbank.pc.setWidth 32).toNat = self.regbank.pc.toNat := by simp; omega
  have hb : ({ self with trace := [], pcShadow := self.regbank.pc } : PepISA3CPU).readU8 (self.regbank.pc.setWidth 32) =
      .ok self.opcode := (readU8_full h (by omega)).mpr ⟨by omega, by rw [ha]; rfl⟩
  refine bind_ok.mpr ⟨self.opcode, hb, congrArg (fun c => Except.ok (self.opcode, c)) ?_⟩
  simp [fetched, writeRegister, writeRegisterUncached, readRegisterUncached, readPc, writePc, PepRegisterBank.write,
    PepRegisterBank.report, PepRegisterBank.read]

/-- An immediate operand is the word behind the instruction byte. -/
theorem fetched_immediate (h : self.target.span = fullSpan) (hpc : self.regbank.pc = 0) :
    self.fetched.decodeOpAddr .I = .ok (1, self.fetched.specified) ∧
      self.fetched.specified.readU16 1 = .ok (self.word 1) := by
  have hone : self.fetched.readPc = 1 := by
    change self.regbank.pc + 1 = 1
    rw [hpc]
    rfl
  have hread : ∀ d : PepISA3CPU, d.target = self.target → d.readU16 1 = .ok (self.word 1) := fun d hd =>
    (readU16_full ((congrArg Dense.span hd).trans h)).mpr ⟨by decide, by rw [word, word, byte, byte, byte, byte, hd]⟩
  have hspec : self.fetched.specified = (self.fetched.writePc 3).writeRegister .OS (self.word 1) := by
    change (self.fetched.writePc (self.fetched.readPc + 2)).writeRegister .OS (self.word self.fetched.readPc) = _
    rw [hone]
    rfl
  refine ⟨bind_ok.mpr ⟨self.word 1, ?_, ?_⟩, hread _ rfl⟩
  · rw [hone]
    exact hread _ rfl
  · rw [hspec, hone]
    rfl

/-- The instruction bytes of `BRLT` and of `CPWA`, both with an immediate. -/
theorem opcodePlane_brlt : opcodePlane 0x28 = ⟨.BRLT, .I, -1⟩ := by decide +kernel

theorem opcodePlane_cpwa : opcodePlane 0xA0 = ⟨.CPW, .I, 0⟩ := by decide +kernel

/-- That branch can be executed. -/
theorem atBranch_tick (self : PepISA3CPU) :
    ∃ d d', self.atBranch.fetch = .ok (0x28, d) ∧ d.operand .I = .ok 0 ∧ self.atBranch.clockTick = .ok d' := by
  have hplane : (opcodePlane 0x28).behavior = Comparison.LT.behavior := by rw [opcodePlane_brlt]; rfl
  have haddr : (opcodePlane 0x28).addr = .I := by rw [opcodePlane_brlt]
  have hfetch : self.atBranch.fetch = .ok (0x28, self.atBranch.fetched) := fetch_ok rfl
  obtain ⟨hdecode, hw⟩ := @fetched_immediate self.atBranch rfl rfl
  have hzero : self.atBranch.word 1 = 0 := by
    change bigEndian 0 0 = 0
    decide
  rw [hzero] at hw
  have hhandle : ∃ d, self.atBranch.fetched.handle (opcodePlane 0x28) = .ok d := by
    rw [handle_branch .LT hplane, haddr]
    exact ⟨_, bind_ok.mpr ⟨_, hdecode, bind_ok.mpr ⟨_, hw, rfl⟩⟩⟩
  obtain ⟨d, hhandle⟩ := hhandle
  exact ⟨_, d.storePc 0, hfetch, bind_ok.mpr ⟨_, hdecode, hw⟩,
    bind_ok.mpr ⟨_, hfetch, bind_ok.mpr ⟨d, hhandle, rfl⟩⟩⟩

/-- A set N flag sends `BRLT` off, and nothing is less than the most negative word. -/
theorem not_branchesFollow_min {src : U16} {zvc : Bool × Bool × Bool}
    (hflags : PepCSRBank.unpack self.readPackedCsr = (true, zvc)) : ¬ self.BranchesFollow src 0x8000 := by
  intro hb
  have hle : ¬ src.toInt < (0x8000 : U16).toInt := by
    have := BitVec.le_toInt src
    have : (0x8000 : U16).toInt = -32768 := by decide
    omega
  obtain ⟨d, d', hfetch, hw, htick⟩ := atBranch_tick self
  have haddr : (opcodePlane 0x28).addr = .I := by rw [opcodePlane_brlt]
  have hplane : (opcodePlane 0x28).behavior = Comparison.LT.behavior := by rw [opcodePlane_brlt]; rfl
  have hd := hb .LT self.atBranch d d' 0x28 0 rfl hfetch hplane (haddr ▸ hw) htick
  have hc : self.atBranch.readPackedCsr = self.readPackedCsr := rfl
  have hholds : Comparison.LT.holds src.toInt (0x8000 : U16).toInt = false := decide_eq_false hle
  rw [branch_tick hfetch hplane (haddr ▸ hw) htick, hc, hflags, hholds] at hd
  change (0 : U16) = 3 at hd
  exact absurd hd (by decide)

/-- The six branches follow the signed comparison unless the operand is the most negative word. -/
theorem branches_follow_iff {c₁ c' : PepISA3CPU} {is : U8} {reg : Register} {w : U16}
    (hf : self.fetch = .ok (is, c₁)) (hop : (opcodePlane is).behavior = .CPW)
    (hreg : Register.ofU8 (opcodePlane is).target = reg) (hr : reg = .A ∨ reg = .X)
    (hw : c₁.operand (opcodePlane is).addr = .ok w) (h : self.clockTick = .ok c') :
    c'.BranchesFollow (self.readRegister reg) w ↔ w ≠ 0x8000 := by
  obtain ⟨v, c, hflags⟩ := compare_tick hf hop hreg hr hw h
  constructor
  · rintro hb rfl
    exact not_branchesFollow_min hflags hb
  · intro hne k d d₁ d' is target hd hf hop ht hd'
    rw [branch_tick hf hop ht hd', hd, hflags, compareNegative, if_neg hne, Comparison.taken_condition]

/-- `CPWA` of an immediate can be executed. -/
theorem cpwa_tick (hspan : self.target.span = fullSpan) (hpc : self.regbank.pc = 0) (hop : self.opcode = 0xA0) :
    ∃ d d', self.fetch = .ok (0xA0, d) ∧ d.operand (opcodePlane 0xA0).addr = .ok (self.word 1) ∧
      self.clockTick = .ok d' := by
  have haddr : (opcodePlane 0xA0).addr = .I := by rw [opcodePlane_cpwa]
  have hfetch : self.fetch = .ok (0xA0, self.fetched) := hop ▸ fetch_ok hspan
  obtain ⟨hdecode, hw⟩ := fetched_immediate hspan hpc
  have hhandle : ∃ d, self.fetched.handle (opcodePlane 0xA0) = .ok d := by
    have hcpw : self.fetched.handle (opcodePlane 0xA0) = self.fetched.withOperand .I (handleCpwr · .A) := by
      unfold handle
      rw [opcodePlane_cpwa]
      rfl
    rw [hcpw]
    exact ⟨_, bind_ok.mpr ⟨_, hdecode, bind_ok.mpr ⟨_, hw, rfl⟩⟩⟩
  obtain ⟨d, hhandle⟩ := hhandle
  refine ⟨_, d.storePc 0, hfetch, haddr ▸ bind_ok.mpr ⟨_, hdecode, hw⟩, ?_⟩
  exact bind_ok.mpr ⟨_, hfetch, bind_ok.mpr ⟨d, hhandle, congrArg (fun pc => Except.ok (d.storePc pc)) hpc⟩⟩

/-- `CPWA 5,i` on a cleared accumulator. -/
theorem branches_follow_five :
    ∃ d d', (reset [0xA0, 0, 5]).fetch = .ok (0xA0, d) ∧ (reset [0xA0, 0, 5]).clockTick = .ok d' ∧
      (d'.BranchesFollow ((reset [0xA0, 0, 5]).readRegister .A) 5 ↔ (5 : U16) ≠ 0x8000) := by
  obtain ⟨d, d', hf, hw, h⟩ := @cpwa_tick (reset [0xA0, 0, 5]) rfl rfl rfl
  have hword : (reset [0xA0, 0, 5]).word 1 = 5 := by
    change bigEndian 0 5 = 5
    decide
  rw [hword] at hw
  have hop : (opcodePlane 0xA0).behavior = .CPW := by rw [opcodePlane_cpwa]
  have hreg : Register.ofU8 (opcodePlane 0xA0).target = .A := by rw [opcodePlane_cpwa]; rfl
  exact ⟨d, d', hf, h, branches_follow_iff hf hop hreg (.inl rfl) hw h⟩

/-- `CPWA 0x8000,i` on a cleared accumulator, and then `BRLT 0x1234,i`. -/
def compareMin : List U8 := [0xA0, 0x80, 0x00, 0x28, 0x12, 0x34]

example : (run clockTick 2 (reset compareMin)).map (·.regbank.pc) = .ok 0x1234 := by decide +kernel

/-- Zero is taken for less than the most negative word. -/
theorem branches_not_follow :
    ¬ ∀ (c d c' : PepISA3CPU) (is : U8) (reg : Register) (w : U16), c.fetch = .ok (is, d) →
      (opcodePlane is).behavior = .CPW → Register.ofU8 (opcodePlane is).target = reg → reg = .A ∨ reg = .X →
      d.operand (opcodePlane is).addr = .ok w → c.clockTick = .ok c' → c'.BranchesFollow (c.readRegister reg) w := by
  intro hall
  obtain ⟨d, d', hf, hw, h⟩ := @cpwa_tick (reset compareMin) rfl rfl rfl
  have hword : (reset compareMin).word 1 = 0x8000 := by
    change bigEndian 0x80 0 = 0x8000
    decide
  rw [hword] at hw
  have hop : (opcodePlane 0xA0).behavior = .CPW := by rw [opcodePlane_cpwa]
  have hreg : Register.ofU8 (opcodePlane 0xA0).target = .A := by rw [opcodePlane_cpwa]; rfl
  obtain ⟨v, c, hflags⟩ := compare_tick hf hop hreg (.inl rfl) hw h
  exact not_branchesFollow_min hflags (hall (reset compareMin) d d' 0xA0 .A 0x8000 hf hop hreg (.inl rfl) hw h)

end PepISA3CPU

end Pepp

import Pepp.Cpu.Divergence

/-!
# The two Pep/10 simulators, tick by tick

`SameState` compares the processors between instructions. One tick of each
keeps it exactly when the operands of the instruction at the program counter
coincide, and so do runs of any length.
-/

namespace Pepp

open Isa Span Runs

/-- The two processors between instructions. `IS` is left out: both overwrite it before reading it. -/
structure SameState (c : PepISA3CPU) (s : Sim3.CPU) : Prop where
  a : s.readReg .A = c.regbank.a
  x : s.readReg .X = c.regbank.x
  sp : s.readReg .SP = c.regbank.sp
  pc : s.readReg .PC = c.regbank.pc
  os : s.readReg .OS = c.regbank.os
  nzvc : s.readPackedCSR = c.nzvc
  span : c.target.span = fullSpan
  lower : s.memory.lower = 0
  upper : s.memory.upper = 0xFFFF
  memory : ∀ i < 0x10000, s.memory.data i = c.target.data i

/-- The two processors after an instruction, instruction specifier included. -/
structure SameStateIs (c : PepISA3CPU) (s : Sim3.CPU) : Prop extends SameState c s where
  is : s.readReg .IS = c.regbank.is.setWidth 16

namespace PepISA3CPU

variable (c : PepISA3CPU)

/-- The opcode at the program counter. -/
def opcode : U8 := c.byte c.regbank.pc.toNat

/-- The condition under which sim3 executes the instruction at the program counter alike: a byte
operand is an immediate or does not differ in effect from the byte after it, and a trap returns to
the instruction that follows. -/
def Coincides : Prop := c.OperandsCoincide (c.regbank.pc + 1) (opcodePlane c.opcode)

/-- The state between the fetch and the handler. -/
def fetched : PepISA3CPU :=
  { c with
    regbank := { c.regbank with is := c.opcode }
    pcShadow := c.regbank.pc + 1
    trace := [.register .IS ((c.regbank.is ^^^ c.opcode).setWidth 16)] }

variable {c}

variable {is : U8}

/-- A fetch, over any memory. -/
theorem fetch_spec {c₁ : PepISA3CPU} (h : c.fetch = .ok (is, c₁)) :
    ∃ reports, c₁ = { c with
      regbank := { c.regbank with is := is }
      pcShadow := c.regbank.pc + 1
      trace := reports } := by
  simp only [fetch, bind_ok, pure_ok] at h
  obtain ⟨b, -, h⟩ := h
  obtain ⟨rfl, rfl⟩ := Prod.mk.inj h
  refine ⟨[.register .IS ((c.regbank.is ^^^ b).setWidth 16)], ?_⟩
  simp [writeRegister, writeRegisterUncached, readRegisterUncached, readPc, writePc, PepRegisterBank.write,
    PepRegisterBank.report, PepRegisterBank.read]

/-- What is left of a tick after the fetch. -/
theorem clockTick_spec {c₁ c' : PepISA3CPU} (hf : c.fetch = .ok (is, c₁)) (h : c.clockTick = .ok c') :
    ∃ c₂, c₁.handle (opcodePlane is) = .ok c₂ ∧ c' = c₂.storePc c.regbank.pc := by
  simp only [clockTick, bind_ok, pure_ok] at h
  obtain ⟨⟨is', c₀⟩, hf', c₂, hh, rfl⟩ := h
  obtain ⟨rfl, rfl⟩ := Prod.mk.inj (Except.ok.inj (hf.symm.trans hf'))
  exact ⟨c₂, hh, rfl⟩

theorem fetch_full {c₁ : PepISA3CPU} (h : c.target.span = fullSpan) (hc : c.fetch = .ok (is, c₁)) :
    is = c.opcode ∧ c₁ = c.fetched := by
  have ha : (c.regbank.pc.setWidth 32).toNat = c.regbank.pc.toNat := by simp; omega
  simp only [fetch, bind_ok, pure_ok] at hc
  obtain ⟨b, hb, hc⟩ := hc
  have hb := (readU8_full (c := { c with trace := [], pcShadow := c.regbank.pc }) h (by simp; omega)).mp hb
  have hb : b = c.opcode := by
    rw [hb.2]
    exact congrArg c.target.data ha
  obtain ⟨rfl, rfl⟩ := Prod.mk.inj hc
  refine ⟨hb, ?_⟩
  rw [hb]
  simp [fetched, writeRegister, writeRegisterUncached, readRegisterUncached, readPc, writePc, PepRegisterBank.write,
    PepRegisterBank.report, PepRegisterBank.read]

/-- Fetching changes none of the operands: a compared register is `A` or `X`. -/
theorem fetched_operandsCoincide (pc : U16) (is : U8) :
    c.fetched.OperandsCoincide pc (opcodePlane is) ↔ c.OperandsCoincide pc (opcodePlane is) := by
  have hplanes := planes_agree is
  unfold PlanesAgree at hplanes
  unfold OperandsCoincide
  generalize opcodePlane is = op at *
  generalize opcodeLUT is = o at *
  rcases hplanes with ht | ⟨hb, -, ht⟩
  · cases hb : op.behavior <;> simp_all [SharedOpBehavior.throws]
  · simp only [hb, ht]
    cases o.instr.mnemon <;> exact Iff.rfl

theorem storePc_regbank (initPc : U16) : (c.storePc initPc).regbank = { c.regbank with pc := c.pcShadow } := by
  simp only [storePc]
  split <;> rfl

theorem storePc_frame (initPc : U16) :
    (c.storePc initPc).nzvc = c.nzvc ∧ (c.storePc initPc).target = c.target := by
  simp only [storePc]
  split <;> exact ⟨rfl, rfl⟩

theorem clockTick_full {c' : PepISA3CPU} (h : c.target.span = fullSpan) (hc : c.clockTick = .ok c') :
    ∃ c₁, c.fetched.handle (opcodePlane c.opcode) = .ok c₁ ∧ c' = c₁.storePc c.regbank.pc := by
  simp only [clockTick, bind_ok, pure_ok] at hc
  obtain ⟨⟨is, c₀⟩, hf, c₁, hh, rfl⟩ := hc
  obtain ⟨rfl, rfl⟩ := fetch_full h hf
  exact ⟨c₁, hh, rfl⟩

end PepISA3CPU

variable {c c' : PepISA3CPU} {s s' : Sim3.CPU}

theorem SameState.fetched (h : SameState c s) {is : U8} (hs : s.readByte c.regbank.pc = .ok is) :
    is = c.opcode ∧ Agree c.fetched (s.writeReg .IS (is.setWidth 16)) := by
  have hagree : Agree c.fetched (s.writeReg .IS (c.opcode.setWidth 16)) := by
    constructor <;>
      simp [Sim3.CPU.readReg_writeReg, PepISA3CPU.fetched, h.a, h.x, h.sp, h.os, h.nzvc, h.span, h.lower, h.upper]
    exact h.memory
  have his : is = c.opcode := hagree.readByte (a := c.regbank.pc) hs
  exact ⟨his, his ▸ hagree⟩

/-- Storing the program counters turns agreement inside an instruction into agreement between two. -/
theorem sameStateIs_storePc (pc : U16) : SameStateIs (c.storePc pc) s ↔ Done c s := by
  have hb := PepISA3CPU.storePc_regbank (c := c) pc
  obtain ⟨hf, ht⟩ := PepISA3CPU.storePc_frame (c := c) pc
  constructor
  · rintro ⟨⟨ha, hx, hsp, hpc, hos, hn, hspan, hl, hu, hm⟩, his⟩
    rw [hb] at ha hx hsp hpc hos his
    rw [hf] at hn
    rw [ht] at hspan hm
    exact ⟨⟨ha, hx, hsp, hos, his, hn, hspan, hl, hu, hm⟩, hpc⟩
  · rintro ⟨⟨ha, hx, hsp, hos, his, hn, hspan, hl, hu, hm⟩, hpc⟩
    refine ⟨⟨?_, ?_, ?_, ?_, ?_, ?_, ?_, hl, hu, ?_⟩, ?_⟩
    all_goals first | rw [hb] | rw [hf] | rw [ht]
    all_goals assumption

theorem clock_cases (hs : s.clock = .ok s') :
    ∃ is, s.readByte (s.readReg .PC) = .ok is ∧
      ((s.writeReg .IS (is.setWidth 16)).unaryDispatch is (s.readReg .PC + 1) = .ok s' ∨
        ∃ os, (s.writeReg .IS (is.setWidth 16)).readWord (s.readReg .PC + 1) = .ok os ∧
          ((s.writeReg .IS (is.setWidth 16)).writeReg .OS os).nonunaryDispatch is os (s.readReg .PC + 1 + 2) =
            .ok s') := by
  obtain ⟨is, his, hs⟩ := bind_ok.mp hs
  refine ⟨is, his, ?_⟩
  by_cases hu : isOpcodeUnary is = true
  · exact .inl (by simpa [hu] using hs)
  · refine .inr (bind_ok.mp ?_)
    simpa [hu] using hs

/-- One tick of each processor ends in the same state exactly when the operands coincide. -/
theorem tick_iff (h : SameState c s) (hc : c.clockTick = .ok c') (hs : s.clock = .ok s') :
    SameStateIs c' s' ↔ c.Coincides := by
  obtain ⟨c₁, hh, rfl⟩ := PepISA3CPU.clockTick_full h.span hc
  obtain ⟨is, his, hs⟩ := clock_cases hs
  rw [h.pc] at his hs
  obtain ⟨rfl, hagree⟩ := h.fetched his
  rw [sameStateIs_storePc, PepISA3CPU.Coincides, ← PepISA3CPU.fetched_operandsCoincide]
  rcases hs with hs | ⟨os, hos, hs⟩
  · exact unaryDispatch_done hagree rfl hh hs
  · exact nonunaryDispatch_done hagree hos hh hs

/-- The two Pep/10 processors agree on a tick exactly when the operands of the instruction coincide,
and on every run whose instructions all do. -/
theorem pep10_simulators_agree (c : PepISA3CPU) (s : Sim3.CPU) (h : SameState c s) :
    (∀ c' s', c.clockTick = .ok c' → s.clock = .ok s' → (SameStateIs c' s' ↔ c.Coincides)) ∧
    (∀ n c' s', run PepISA3CPU.clockTick (n + 1) c = .ok c' → run Sim3.CPU.clock (n + 1) s = .ok s' →
      Along PepISA3CPU.clockTick PepISA3CPU.Coincides (n + 1) c → SameStateIs c' s') := by
  refine ⟨fun c' s' => tick_iff h, fun n c' s' hc hs hP => ?_⟩
  obtain ⟨c₁, hc₁, hc⟩ := run_succ.mp hc
  obtain ⟨s₁, hs₁, hs⟩ := run_succ.mp hs
  have h₁ := (tick_iff h hc₁ hs₁).mpr hP.1
  exact lockstep (fun a b a' b' hR hP ha hb => (tick_iff hR.toSameState ha hb).mpr hP) n h₁ (hP.2 c₁ hc₁) hc hs

/-- Cleared processors over a RAM that starts with `program`. -/
def PepISA3CPU.reset (program : List U8) : PepISA3CPU where
  regbank := ⟨0, 0, 0, 0, 0, 0⟩
  nzvc := 0
  callDepth := 0
  pcShadow := 0
  target := ⟨fullSpan, fun i => program.getD i 0⟩
  trace := []

def Sim3.CPU.reset (program : List U8) : Sim3.CPU where
  regs := fun _ => 0
  csrs := fun _ => 0
  memory := ⟨0, 0xFFFF, fun i => program.getD i 0⟩
  depth := 0
  callsViaRet := fun _ => false

theorem sameState_reset (program : List U8) :
    SameState (PepISA3CPU.reset program) (Sim3.CPU.reset program) := by
  have hreg : ∀ r, (Sim3.CPU.reset program).readReg r = 0 := fun r => show bigEndian 0 0 = 0 by decide
  have hflags : (Sim3.CPU.reset program).readPackedCSR = 0 :=
    show Sim3.packCSR false false false false = 0 by decide
  exact ⟨hreg _, hreg _, hreg _, hreg _, hreg _, hflags, rfl, rfl, rfl, fun _ _ => rfl⟩

/-- `LDBA 4,d` over the data bytes `0xAB 0xCD`. -/
def loadByteDirect : List U8 := [0xD1, 0x00, 0x04, 0x00, 0xAB, 0xCD]

/-- The core processor loads `0xCD`, sim3 loads `0xAB`. -/
theorem pep10_simulators_part :
    ¬ ∀ c s c' s', SameState c s → c.clockTick = .ok c' → Sim3.CPU.clock s = .ok s' → SameStateIs c' s' := by
  intro h
  have hc : (PepISA3CPU.reset loadByteDirect).clockTick.map (·.regbank.a) = .ok 0xCD := by decide +kernel
  have hs : (Sim3.CPU.reset loadByteDirect).clock.map (·.readReg .A) = .ok 0xAB := by decide +kernel
  cases hct : (PepISA3CPU.reset loadByteDirect).clockTick with
  | error e => simp [hct, Except.map] at hc
  | ok c' =>
    cases hst : (Sim3.CPU.reset loadByteDirect).clock with
    | error e => simp [hst, Except.map] at hs
    | ok s' =>
      have ha := (h _ _ _ _ (sameState_reset loadByteDirect) hct hst).a
      simp only [hct, Except.map, Except.ok.injEq] at hc
      simp only [hst, Except.map, Except.ok.injEq] at hs
      rw [hc, hs] at ha
      exact absurd ha (by decide)

theorem pep10_simulators_agree_reset :
    SameState (PepISA3CPU.reset loadByteDirect) (Sim3.CPU.reset loadByteDirect) ∧
    ∀ c' s', (PepISA3CPU.reset loadByteDirect).clockTick = .ok c' →
      (Sim3.CPU.reset loadByteDirect).clock = .ok s' →
      (SameStateIs c' s' ↔ (PepISA3CPU.reset loadByteDirect).Coincides) :=
  ⟨sameState_reset _, (pep10_simulators_agree _ _ (sameState_reset _)).1⟩

end Pepp

import Pepp.Mc2.Processor

/-!
# What a line does to the memory handshake

Either bus is described by the signals that matter for the handshake, and by
what one step does to the counter, the calls, the address and the status.
-/

namespace Pepp.Mc2

/-- A processor, and its lines as the memory handshake sees them. -/
structure Bus where
  Hidden : Type
  Code : Type
  step : Memory → Code → Cpu Hidden → Except Exception (Cpu Hidden)
  memRead : Code → Bool
  memWrite : Code → Bool
  clocksMAR : Code → Bool
  /-- A data register is clocked from memory. -/
  loadsMDR : Code → Bool
  /-- A data register is clocked from the C bus. -/
  changesMDR : Code → Bool
  mar : (Hidden → U8) → U16
  mdr : (Hidden → U8) → List U8

def byteBus : Bus where
  Hidden := ByteBus.HiddenRegisters
  Code := ByteBus.Code
  step := ByteBus.step
  memRead := ByteBus.Code.memRead
  memWrite := ByteBus.Code.memWrite
  clocksMAR := ByteBus.Code.marCk
  loadsMDR := fun code => code.mdrCk && !code.mdrMux
  changesMDR := fun code => code.mdrCk && code.mdrMux
  mar := ByteBus.mar
  mdr := ByteBus.mdr

def wordBus : Bus where
  Hidden := WordBus.HiddenRegisters
  Code := WordBus.Code
  step := WordBus.step
  memRead := WordBus.Code.memRead
  memWrite := WordBus.Code.memWrite
  clocksMAR := WordBus.Code.marCk
  loadsMDR := fun code => code.mdreCk && !code.mdreMux || code.mdroCk && !code.mdroMux
  changesMDR := fun code => code.mdreCk && code.mdreMux || code.mdroCk && code.mdroMux
  mar := WordBus.mar
  mdr := WordBus.mdr

inductive Kind where
  | none | read | write
  deriving DecidableEq, Repr

/-- The call that an access of this kind makes. -/
def Kind.transaction (kind : Kind) (mar : U16) (data : List U8) : List Transaction :=
  match kind with
  | .none => []
  | .read => [.read mar data.length]
  | .write => [.write mar data]

/-- A line that asserts both signals writes. -/
def accessKind (memWrite memRead : Bool) : Kind := if memWrite then .write else if memRead then .read else .none

def nextCycle (kind : Kind) (onCycle : Nat) : Nat := if kind = .none then 0 else onCycle % 3 + 1

namespace Bus

variable (bus : Bus)

def kind (code : bus.Code) : Kind := accessKind (bus.memWrite code) (bus.memRead code)

/-- The processor notices a violation in a line behind which the counter is `onCycle`. -/
def Flagged (code : bus.Code) (onCycle : Nat) : Prop :=
  (bus.clocksMAR code ∧ onCycle ≠ 0) ∨ (bus.changesMDR code ∧ 1 < onCycle) ∨ (bus.loadsMDR code ∧ onCycle ≠ 3)

/-- What a line does to the memory handshake. -/
structure Steps (code : bus.Code) (s s' : Cpu bus.Hidden) : Prop where
  microPC_eq : s'.microPC = s.microPC
  onCycle_eq : s'.onCycle = nextCycle (bus.kind code) s.onCycle
  calls_eq : s'.calls = s.calls ++
    if s.onCycle = 2 then (bus.kind code).transaction (bus.mar s.hiddenRegs) (bus.mdr s.hiddenRegs) else []
  mar_eq : s'.onCycle ≠ 0 → bus.mar s'.hiddenRegs = bus.mar s.hiddenRegs
  flagged : bus.Flagged code s'.onCycle → s'.status.isError
  unflagged : ¬bus.Flagged code s'.onCycle → s'.status = s.status

end Bus

/-! ## The parts of a step -/

namespace Cpu

variable {H : Type} {self self' : Cpu H} {memory : Memory} {memtemp : List U8}

theorem memoryCycle_eq {memWrite memRead : Bool} {mar : U16} {data : List U8}
    (h : self.memoryCycle memory memWrite memRead mar data = .ok (memtemp, self')) :
    self' = { self with
      onCycle := nextCycle (accessKind memWrite memRead) self.onCycle
      calls := self.calls ++ if self.onCycle = 2 then (accessKind memWrite memRead).transaction mar data else [] } := by
  unfold memoryCycle call at h
  by_cases hcycle : self.onCycle = 2
  · cases memWrite with
    | true =>
      cases hanswer : memory (self.calls ++ [.write mar data]) with
      | error e => simp [hcycle, hanswer, bind, Except.bind] at h
      | ok answer =>
        simp only [hcycle, hanswer, bind, Except.bind, pure, Except.pure, if_true] at h
        cases h
        simp [accessKind, nextCycle, Kind.transaction, hcycle]
    | false =>
      cases memRead with
      | true =>
        cases hanswer : memory (self.calls ++ [.read mar data.length]) with
        | error e => simp [hcycle, hanswer, bind, Except.bind] at h
        | ok answer =>
          simp only [hcycle, hanswer, bind, Except.bind, pure, Except.pure, if_true] at h
          cases h
          simp [accessKind, nextCycle, Kind.transaction, hcycle]
      | false =>
        cases h
        simp [accessKind, nextCycle, Kind.transaction]
  · rw [if_neg hcycle, List.append_nil]
    cases memWrite with
    | true =>
      simp only [hcycle, bind, Except.bind, pure, Except.pure, if_true, if_false] at h
      cases h
      simp [accessKind, nextCycle]
    | false =>
      cases memRead with
      | true =>
        simp only [hcycle, bind, Except.bind, pure, Except.pure, if_true, if_false] at h
        cases h
        simp [accessKind, nextCycle]
      | false =>
        cases h
        rfl

/-- A part of the step behind the memory cycle, which sets an error if and only if `flag` holds. -/
structure Passes (s s' : Cpu H) (flag : Prop) : Prop where
  microPC_eq : s'.microPC = s.microPC
  onCycle_eq : s'.onCycle = s.onCycle
  calls_eq : s'.calls = s.calls
  flagged : flag → s'.status.isError
  unflagged : ¬flag → s'.status = s.status

theorem Passes.trans {s s' s'' : Cpu H} {flag flag' : Prop} (h : Passes s s' flag) (h' : Passes s' s'' flag') :
    Passes s s'' (flag ∨ flag') := by
  constructor
  · rw [h'.microPC_eq, h.microPC_eq]
  · rw [h'.onCycle_eq, h.onCycle_eq]
  · rw [h'.calls_eq, h.calls_eq]
  · intro hflag
    by_cases hlast : flag'
    · exact h'.flagged hlast
    · rw [h'.unflagged hlast]
      exact h.flagged (hflag.resolve_right hlast)
  · intro hflag
    rw [not_or] at hflag
    rw [h'.unflagged hflag.2, h.unflagged hflag.1]

theorem clockCSRs_passes (self : Cpu H) (clocks : StatusClocks) (alu : AluResult) :
    Passes self (self.clockCSRs clocks alu) False ∧ (self.clockCSRs clocks alu).hiddenRegs = self.hiddenRegs := by
  have heq : self.clockCSRs clocks alu = { self with csrs := (self.clockCSRs clocks alu).csrs } := by
    unfold clockCSRs writeCSR
    split_ifs <;> rfl
  rw [heq]
  exact ⟨⟨rfl, rfl, rfl, False.elim, fun _ => rfl⟩, rfl⟩

theorem load_passes (self : Cpu H) (loadCk : Bool) (c : BitVec 5) (cOut : U8) :
    Passes self (self.load loadCk c cOut) False ∧ (self.load loadCk c cOut).hiddenRegs = self.hiddenRegs := by
  have heq : self.load loadCk c cOut = { self with bankRegs := (self.load loadCk c cOut).bankRegs } := by
    unfold load writeReg
    split_ifs <;> rfl
  rw [heq]
  exact ⟨⟨rfl, rfl, rfl, False.elim, fun _ => rfl⟩, rfl⟩

variable [DecidableEq H]

theorem clockMDR_passes (self : Cpu H) (ck mux : Bool) (reg : H) (cOut memtemp : U8) :
    Passes self (self.clockMDR ck mux reg cOut memtemp)
        ((ck && mux) = true ∧ 1 < self.onCycle ∨ (ck && !mux) = true ∧ self.onCycle ≠ 3) ∧
      ∀ r ≠ reg, (self.clockMDR ck mux reg cOut memtemp).hiddenRegs r = self.hiddenRegs r := by
  unfold clockMDR writeHidden
  cases ck with
  | false => exact ⟨⟨rfl, rfl, rfl, by simp, fun _ => rfl⟩, fun r _ => rfl⟩
  | true =>
    cases mux with
    | true =>
      by_cases h : 1 < self.onCycle
      · simp only [Bool.and_self, if_true, if_pos h]
        exact ⟨⟨rfl, rfl, rfl, fun _ => trivial, by simp [h]⟩, fun r hr => Function.update_of_ne hr _ _⟩
      · simp only [Bool.and_self, if_true, if_neg h]
        exact ⟨⟨rfl, rfl, rfl, by simp [h], fun _ => rfl⟩, fun r hr => Function.update_of_ne hr _ _⟩
    | false =>
      by_cases h : self.onCycle = 3
      · simp only [Bool.and_false, Bool.false_eq_true, if_true, if_false, if_pos h]
        exact ⟨⟨rfl, rfl, rfl, by simp [h], fun _ => rfl⟩, fun r hr => Function.update_of_ne hr _ _⟩
      · simp only [Bool.and_false, Bool.false_eq_true, if_true, if_false, if_neg h]
        exact ⟨⟨rfl, rfl, rfl, fun _ => trivial, by simp [h]⟩, fun r _ => trivial⟩

theorem clockMAR_passes (self : Cpu H) (ck : Bool) (mara marb : H) (a b : U8) :
    Passes self (self.clockMAR ck mara marb a b) (ck = true ∧ self.onCycle ≠ 0) ∧
      (self.onCycle ≠ 0 → (self.clockMAR ck mara marb a b).hiddenRegs = self.hiddenRegs) := by
  unfold clockMAR writeHidden
  cases ck with
  | false => exact ⟨⟨rfl, rfl, rfl, by simp, fun _ => rfl⟩, fun _ => rfl⟩
  | true =>
    by_cases h : self.onCycle = 0
    · rw [if_pos rfl, if_neg (not_not.mpr h)]
      exact ⟨⟨rfl, rfl, rfl, by simp [h], fun _ => rfl⟩, fun hne => absurd h hne⟩
    · rw [if_pos rfl, if_pos h]
      exact ⟨⟨rfl, rfl, rfl, fun _ => trivial, by simp [h]⟩, fun _ => rfl⟩

end Cpu

/-! ## One step -/

theorem byteBus_steps {memory : Memory} {code : ByteBus.Code} {self self' : ByteBus.State}
    (h : ByteBus.step memory code self = .ok self') : byteBus.Steps code self self' := by
  unfold ByteBus.step at h
  cases hcycle : self.memoryCycle memory code.memWrite code.memRead (ByteBus.mar self.hiddenRegs)
      (ByteBus.mdr self.hiddenRegs) with
  | error e => simp [hcycle, bind, Except.bind] at h
  | ok result =>
    obtain ⟨memtemp, s₁⟩ := result
    have hs₁ := Cpu.memoryCycle_eq hcycle
    simp only [hcycle, bind, Except.bind, pure, Except.pure, Except.ok.injEq] at h
    have hMAR := Cpu.clockMAR_passes s₁ code.marCk .MARA .MARB (self.readReg code.a) (self.readReg code.b)
    generalize s₁.clockMAR code.marCk .MARA .MARB (self.readReg code.a) (self.readReg code.b) = s₂ at h hMAR
    generalize computeALU _ _ _ _ = alu at h
    generalize (⟨_, _, _, _, _, _⟩ : Cpu.StatusClocks) = clocks at h
    have hCSRs := Cpu.clockCSRs_passes s₂ clocks alu
    generalize s₂.clockCSRs clocks alu = s₃ at h hCSRs
    generalize s₃.cOut code.cMux alu = cOut at h
    have hMDR := Cpu.clockMDR_passes s₃ code.mdrCk code.mdrMux .MDR cOut (memtemp.getD 0 0)
    generalize s₃.clockMDR code.mdrCk code.mdrMux .MDR cOut (memtemp.getD 0 0) = s₄ at h hMDR
    have hload := Cpu.load_passes s₄ code.loadCk code.c cOut
    rw [h] at hload
    have hpasses := ((hMAR.1.trans hCSRs.1).trans hMDR.1).trans hload.1
    have hcycle₃ : s₃.onCycle = self'.onCycle := (hMDR.1.trans hload.1).onCycle_eq.symm
    have hcycle₁ : s₁.onCycle = self'.onCycle := hpasses.onCycle_eq.symm
    have hflagged : byteBus.Flagged code self'.onCycle ↔ ((code.marCk = true ∧ s₁.onCycle ≠ 0 ∨ False) ∨
        ((code.mdrCk && code.mdrMux) = true ∧ 1 < s₃.onCycle ∨ (code.mdrCk && !code.mdrMux) = true ∧ s₃.onCycle ≠ 3)) ∨
          False := by
      rw [hcycle₃, hcycle₁, or_false, or_false]
      rfl
    have hhidden : self'.onCycle ≠ 0 → ∀ r ≠ ByteBus.HiddenRegisters.MDR, self'.hiddenRegs r = s₁.hiddenRegs r := by
      intro hne r hr
      rw [hload.2, hMDR.2 r hr, hCSRs.2, hMAR.2 (by rw [hcycle₁]; exact hne)]
    constructor
    · rw [hpasses.microPC_eq, hs₁]
    · rw [hpasses.onCycle_eq, hs₁]
      rfl
    · rw [hpasses.calls_eq, hs₁]
      rfl
    · intro hne
      change bigEndian (self'.hiddenRegs .MARA) (self'.hiddenRegs .MARB) = _
      rw [hhidden hne _ (by decide), hhidden hne _ (by decide), hs₁]
      rfl
    · exact fun hflag => hpasses.flagged (hflagged.mp hflag)
    · intro hflag
      rw [hpasses.unflagged (hflagged.not.mp hflag), hs₁]

/-- The two halves of the data register are clocked one after the other, and the earlier error may be replaced. -/
theorem wordBus_steps {memory : Memory} {code : WordBus.Code} {self self' : WordBus.State}
    (h : WordBus.step memory code self = .ok self') : wordBus.Steps code self self' := by
  unfold WordBus.step at h
  cases hcycle : self.memoryCycle memory code.memWrite code.memRead (WordBus.mar self.hiddenRegs)
      (WordBus.mdr self.hiddenRegs) with
  | error e => simp [hcycle, bind, Except.bind] at h
  | ok result =>
    obtain ⟨memtemp, s₁⟩ := result
    have hs₁ := Cpu.memoryCycle_eq hcycle
    simp only [hcycle, bind, Except.bind, pure, Except.pure, Except.ok.injEq] at h
    generalize (if code.marMux = true then self.readReg code.a else _) = a at h
    generalize (if code.marMux = true then self.readReg code.b else _) = b at h
    have hMAR := Cpu.clockMAR_passes s₁ code.marCk .MARA .MARB a b
    generalize s₁.clockMAR code.marCk .MARA .MARB a b = s₂ at h hMAR
    generalize computeALU _ _ _ _ = alu at h
    generalize (⟨_, _, _, _, _, _⟩ : Cpu.StatusClocks) = clocks at h
    have hCSRs := Cpu.clockCSRs_passes s₂ clocks alu
    generalize s₂.clockCSRs clocks alu = s₃ at h hCSRs
    generalize s₃.cOut code.cMux alu = cOut at h
    have hMDRE := Cpu.clockMDR_passes s₃ code.mdreCk code.mdreMux .MDRE cOut (memtemp.getD 0 0)
    generalize s₃.clockMDR code.mdreCk code.mdreMux .MDRE cOut (memtemp.getD 0 0) = s₄ at h hMDRE
    have hMDRO := Cpu.clockMDR_passes s₄ code.mdroCk code.mdroMux .MDRO cOut (memtemp.getD 1 0)
    generalize s₄.clockMDR code.mdroCk code.mdroMux .MDRO cOut (memtemp.getD 1 0) = s₅ at h hMDRO
    have hload := Cpu.load_passes s₅ code.loadCk code.c cOut
    rw [h] at hload
    have hpasses := (((hMAR.1.trans hCSRs.1).trans hMDRE.1).trans hMDRO.1).trans hload.1
    have hcycle₄ : s₄.onCycle = self'.onCycle := (hMDRO.1.trans hload.1).onCycle_eq.symm
    have hcycle₃ : s₃.onCycle = self'.onCycle := ((hMDRE.1.trans hMDRO.1).trans hload.1).onCycle_eq.symm
    have hcycle₁ : s₁.onCycle = self'.onCycle := hpasses.onCycle_eq.symm
    rw [hcycle₁, hcycle₃, hcycle₄] at hpasses
    have hflagged : wordBus.Flagged code self'.onCycle ↔ (((code.marCk = true ∧ self'.onCycle ≠ 0 ∨ False) ∨
        ((code.mdreCk && code.mdreMux) = true ∧ 1 < self'.onCycle ∨
          (code.mdreCk && !code.mdreMux) = true ∧ self'.onCycle ≠ 3)) ∨
        ((code.mdroCk && code.mdroMux) = true ∧ 1 < self'.onCycle ∨
          (code.mdroCk && !code.mdroMux) = true ∧ self'.onCycle ≠ 3)) ∨ False := by
      simp only [Bus.Flagged, wordBus, Bool.or_eq_true]
      tauto
    have hhidden : self'.onCycle ≠ 0 → ∀ r, r ≠ WordBus.HiddenRegisters.MDRE → r ≠ WordBus.HiddenRegisters.MDRO →
        self'.hiddenRegs r = s₁.hiddenRegs r := by
      intro hne r hE hO
      rw [hload.2, hMDRO.2 r hO, hMDRE.2 r hE, hCSRs.2, hMAR.2 (by rw [hcycle₁]; exact hne)]
    constructor
    · rw [hpasses.microPC_eq, hs₁]
    · rw [hpasses.onCycle_eq, hs₁]
      rfl
    · rw [hpasses.calls_eq, hs₁]
      rfl
    · intro hne
      change bigEndian (self'.hiddenRegs .MARA) (self'.hiddenRegs .MARB) &&& ~~~1 = _
      rw [hhidden hne _ (by decide) (by decide), hhidden hne _ (by decide) (by decide), hs₁]
      rfl
    · exact fun hflag => hpasses.flagged (hflagged.mp hflag)
    · intro hflag
      rw [hpasses.unflagged (hflagged.not.mp hflag), hs₁]

end Pepp.Mc2

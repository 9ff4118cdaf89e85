import Pepp.Mc2.StepSpec

/-!
# The memory handshake over whole runs

Lines of one kind follow each other in runs, and an access is three lines of
such a run. The counter gives the place of a line in its access as long as no
run begins with the counter of another one.
-/

namespace Pepp.Mc2

namespace Bus

variable (bus : Bus) (memory : Memory) (microcode : List bus.Code)

/-- The line that a clock executes, counted from the start of the microprogram. -/
def executed (i : Nat) : Option bus.Code :=
  if microcode.length < 2 ^ 16 then microcode[i]? else microcode[i % 2 ^ 16]?

def lineKind (i : Nat) : Kind :=
  match bus.executed microcode i with
  | some code => bus.kind code
  | none => .none

/-- The place of a line in its maximal run of lines of one kind. -/
def position : Nat → Nat
  | 0 => 1
  | i + 1 => if bus.lineKind microcode (i + 1) = bus.lineKind microcode i then position i + 1 else 1

/-- The address is clocked in an access, data from the C bus as well, or data from memory anywhere but in the
third line of a read. -/
def Violates (i : Nat) : Prop :=
  ∃ code, bus.executed microcode i = some code ∧
    (bus.clocksMAR code ∧ bus.lineKind microcode i ≠ .none ∨ bus.changesMDR code ∧ bus.lineKind microcode i ≠ .none ∨
      bus.loadsMDR code ∧ ¬(bus.lineKind microcode i = .read ∧ bus.position microcode i % 3 = 0))

/-- The states of a run after `resetMicroPC` and `init`, one behind each clock. -/
structure Run (n : Nat) (state : Nat → Cpu bus.Hidden) : Prop where
  start : ∃ s : Cpu bus.Hidden, state 0 = s.resetMicroPC.init
  clock : ∀ i < n, ∃ pause, (state i).clock (bus.step memory) microcode = .ok (pause, state (i + 1))

/-- Every third line of a run makes its access, at the address that the access began with, and nothing else does.
From a violation on the status is an error. -/
structure Handshake (n : Nat) (state : Nat → Cpu bus.Hidden) : Prop where
  calls : ∀ i < n, (state (i + 1)).calls = (state i).calls ++
    if bus.position microcode i % 3 = 0 then
      (bus.lineKind microcode i).transaction (bus.mar (state (i - 2)).hiddenRegs) (bus.mdr (state i).hiddenRegs)
    else []
  status : ∀ i < n, bus.Violates microcode i → ∀ j, i < j → j ≤ n → (state j).status.isError

/-- A run that the counter can follow, and whose violations are noticed and not hidden by its end. -/
structure WellTimed (onCycle n : Nat) : Prop where
  start : 0 < n → bus.lineKind microcode 0 ≠ .none → onCycle % 3 = 0
  switch : ∀ i, i + 1 < n → bus.lineKind microcode i ≠ .none → bus.lineKind microcode (i + 1) ≠ .none →
    bus.lineKind microcode (i + 1) ≠ bus.lineKind microcode i → bus.position microcode i % 3 = 0
  changed : ∀ i < n, ∀ code, bus.executed microcode i = some code → bus.changesMDR code →
    bus.lineKind microcode i ≠ .none → bus.position microcode i % 3 ≠ 1
  loaded : ∀ i < n, ∀ code, bus.executed microcode i = some code → bus.loadsMDR code →
    bus.lineKind microcode i = .write → bus.position microcode i % 3 ≠ 0
  ended : (∃ i < n, bus.Violates microcode i) → microcode.length < 2 ^ 16 → n < microcode.length

end Bus

/-! ## One clock -/

section Clocks

variable {bus : Bus} {memory : Memory} {microcode : List bus.Code} {n i : Nat} {state : Nat → Cpu bus.Hidden}

theorem position_pos (i : Nat) : 0 < bus.position microcode i := by
  cases i with
  | zero => exact Nat.one_pos
  | succ i =>
    rw [Bus.position]
    split <;> omega

/-- A line that is no first one of its run stands behind one of its kind. -/
theorem position_succ (h : 1 < bus.position microcode i) : ∃ j, i = j + 1 ∧
    bus.lineKind microcode j = bus.lineKind microcode i ∧ bus.position microcode i = bus.position microcode j + 1 := by
  cases i with
  | zero => exact absurd h (lt_irrefl 1)
  | succ i =>
    rw [Bus.position] at h
    split at h
    · next hsame => exact ⟨i, rfl, hsame.symm, by rw [Bus.position, if_pos hsame]⟩
    · exact absurd h (lt_irrefl 1)

variable {code : bus.Code}

theorem lineKind_some (h : bus.executed microcode i = some code) : bus.lineKind microcode i = bus.kind code := by
  rw [Bus.lineKind, h]

theorem lineKind_none (h : bus.executed microcode i = none) : bus.lineKind microcode i = .none := by
  rw [Bus.lineKind, h]

/-- The last line has been executed. -/
def Ended {Code : Type} (microcode : List Code) (i : Nat) : Prop := microcode.length < 2 ^ 16 ∧ microcode.length ≤ i

/-- What executing a line does, apart from halting. -/
structure Clocked (bus : Bus) (microcode : List bus.Code) (state : Nat → Cpu bus.Hidden) (i : Nat) (code : bus.Code) :
    Prop where
  onCycle_eq : (state (i + 1)).onCycle = nextCycle (bus.kind code) (state i).onCycle
  calls_eq : (state (i + 1)).calls = (state i).calls ++ if (state i).onCycle = 2 then
    (bus.kind code).transaction (bus.mar (state i).hiddenRegs) (bus.mdr (state i).hiddenRegs) else []
  mar_eq : (state (i + 1)).onCycle ≠ 0 → bus.mar (state (i + 1)).hiddenRegs = bus.mar (state i).hiddenRegs
  flagged : ¬Ended microcode (i + 1) → bus.Flagged code (state (i + 1)).onCycle → (state (i + 1)).status.isError
  unflagged : ¬Ended microcode (i + 1) → ¬bus.Flagged code (state (i + 1)).onCycle →
    (state (i + 1)).status = (state i).status

/-- The line that the micro program counter of a clock points to. -/
theorem executed_eq {pc : U16}
    (hpc : pc.toNat = if microcode.length < 2 ^ 16 then min i microcode.length else i % 2 ^ 16) :
    microcode[pc.toNat]? = bus.executed microcode i := by
  rw [hpc, Bus.executed]
  split
  · rcases Nat.lt_or_ge i microcode.length with h | h
    · rw [Nat.min_eq_left h.le]
    · rw [Nat.min_eq_right h, List.getElem?_eq_none le_rfl, List.getElem?_eq_none h]
  · rfl

theorem clock_cases (hsteps : ∀ code s s', bus.step memory code s = .ok s' → bus.Steps code s s') {s s' : Cpu bus.Hidden}
    {pause : Bool} (h : s.clock (bus.step memory) microcode = .ok (pause, s')) :
    (microcode[s.microPC.toNat]? = none ∧ s' = { s with status := .Halted }) ∨
      ∃ code s₁, microcode[s.microPC.toNat]? = some code ∧ bus.Steps code { s with microPC := s.microPC + 1 } s₁ ∧
        s' = if s₁.microPC.toNat = microcode.length then { s₁ with status := .Halted } else s₁ := by
  unfold Cpu.clock at h
  cases hcode : microcode[s.microPC.toNat]? with
  | none =>
    rw [hcode] at h
    cases h
    exact Or.inl ⟨rfl, rfl⟩
  | some code =>
    rw [hcode] at h
    cases hstep : bus.step memory code { s with microPC := s.microPC + 1 } with
    | error e =>
      simp only [hstep, bind, Except.bind] at h
      cases h
    | ok s₁ =>
      simp only [hstep, bind, Except.bind, pure, Except.pure, Except.ok.injEq, Prod.mk.injEq] at h
      exact Or.inr ⟨code, s₁, rfl, hsteps _ _ _ hstep, h.2.symm⟩

variable (hsteps : ∀ code s s', bus.step memory code s = .ok s' → bus.Steps code s s')
  (hrun : bus.Run memory microcode n state)
include hsteps hrun

theorem microPC_eq (hi : i ≤ n) : (state i).microPC.toNat =
    if microcode.length < 2 ^ 16 then min i microcode.length else i % 2 ^ 16 := by
  induction i with
  | zero =>
    obtain ⟨s, hs⟩ := hrun.start
    rw [hs]
    split
    · exact (Nat.zero_min _).symm
    · rfl
  | succ i ih =>
    have hpc := ih (by omega)
    obtain ⟨pause, hclock⟩ := hrun.clock i hi
    rcases clock_cases hsteps hclock with ⟨hnone, hstate⟩ | ⟨code, s₁, hcode, hspec, hstate⟩
    · rw [List.getElem?_eq_none_iff] at hnone
      rw [hstate]
      change (state i).microPC.toNat = _
      have hlt := (state i).microPC.isLt
      split at hpc
      · simp_all
        omega
      · omega
    · have hnext : (state (i + 1)).microPC = (state i).microPC + 1 := by
        rw [hstate]
        split
        · exact hspec.microPC_eq
        · exact hspec.microPC_eq
      obtain ⟨hlt, -⟩ := List.getElem?_eq_some_iff.mp hcode
      rw [hnext, BitVec.toNat_add]
      change (_ + 1) % 2 ^ 16 = _
      split at hpc
      · simp_all
        omega
      · simp_all

theorem clocked (hi : i < n) (hcode : bus.executed microcode i = some code) : Clocked bus microcode state i code := by
  obtain ⟨pause, hclock⟩ := hrun.clock i hi
  have hpc := microPC_eq hsteps hrun hi.le
  have hpc' := microPC_eq hsteps hrun (Nat.succ_le_of_lt hi)
  rcases clock_cases hsteps hclock with ⟨hnone, -⟩ | ⟨code', s₁, hcode', hspec, hstate⟩
  · rw [executed_eq hpc, hcode] at hnone
    cases hnone
  · rw [executed_eq hpc, hcode] at hcode'
    cases hcode'
    have hhalt : s₁.microPC.toNat = microcode.length → Ended microcode (i + 1) := by
      intro hlast
      have hsame : (state (i + 1)).microPC = s₁.microPC := by
        rw [hstate]
        split <;> rfl
      rw [hsame, hlast] at hpc'
      rw [Ended]
      split at hpc' <;> omega
    have hstate' : ¬Ended microcode (i + 1) → state (i + 1) = s₁ := fun hnot => by
      rw [hstate, if_neg (mt hhalt hnot)]
    constructor
    · rw [hstate]
      split
      · exact hspec.onCycle_eq
      · exact hspec.onCycle_eq
    · rw [hstate]
      split
      · exact hspec.calls_eq
      · exact hspec.calls_eq
    · rw [hstate]
      split
      · exact hspec.mar_eq
      · exact hspec.mar_eq
    · intro hnot
      rw [hstate' hnot]
      exact hspec.flagged
    · intro hnot
      rw [hstate' hnot]
      exact hspec.unflagged

/-- Behind the last line nothing is executed. -/
theorem unclocked (hi : i < n) (hcode : bus.executed microcode i = none) :
    Ended microcode i ∧ state (i + 1) = { state i with status := .Halted } := by
  obtain ⟨pause, hclock⟩ := hrun.clock i hi
  have hpc := microPC_eq hsteps hrun hi.le
  rcases clock_cases hsteps hclock with ⟨hnone, hstate⟩ | ⟨code', s₁, hcode', -⟩
  · rw [hpc, List.getElem?_eq_none_iff] at hnone
    refine ⟨?_, hstate⟩
    rw [Ended]
    split at hnone <;> omega
  · rw [executed_eq hpc, hcode] at hcode'
    cases hcode'

/-! ## The counter -/

theorem onCycle_succ (hi : i < n) (hkind : bus.lineKind microcode i ≠ .none) :
    (state (i + 1)).onCycle = (state i).onCycle % 3 + 1 := by
  cases hcode : bus.executed microcode i with
  | none => exact absurd (lineKind_none hcode) hkind
  | some code =>
    rw [lineKind_some hcode] at hkind
    rw [(clocked hsteps hrun hi hcode).onCycle_eq, nextCycle, if_neg hkind]

theorem onCycle_none (hi : i < n) (hcode : bus.executed microcode i = some code)
    (hkind : bus.lineKind microcode i = .none) : (state (i + 1)).onCycle = 0 := by
  rw [lineKind_some hcode] at hkind
  rw [(clocked hsteps hrun hi hcode).onCycle_eq, nextCycle, if_pos hkind]

section

variable (htimed : bus.WellTimed microcode (state 0).onCycle n) (hi : i < n) (hkind : bus.lineKind microcode i ≠ .none)
include htimed hi hkind

/-- The counter behind a line of an access. -/
theorem onCycle_eq : (state (i + 1)).onCycle = (bus.position microcode i - 1) % 3 + 1 := by
  induction i with
  | zero => rw [onCycle_succ hsteps hrun hi hkind, htimed.start hi hkind, Bus.position]
  | succ i ih =>
    rw [onCycle_succ hsteps hrun hi hkind, Bus.position]
    have hpos := @position_pos bus microcode i
    by_cases hbefore : bus.lineKind microcode i = .none
    · have hzero : (state (i + 1)).onCycle = 0 := by
        cases hcode : bus.executed microcode i with
        | none =>
          obtain ⟨hshort, hlen⟩ := (unclocked hsteps hrun (by omega) hcode).1
          have hnone : bus.executed microcode (i + 1) = none := by
            rw [Bus.executed, if_pos hshort, List.getElem?_eq_none (by omega)]
          exact absurd (lineKind_none hnone) hkind
        | some code => exact onCycle_none hsteps hrun (by omega) hcode hbefore
      rw [hzero, if_neg (fun hsame => hkind (hsame.trans hbefore))]
    · rw [ih (by omega) hbefore]
      split
      · omega
      · next hswitch =>
        have := htimed.switch i hi hbefore hkind hswitch
        omega

/-- The counter stands at 2 in front of every third line of a run, and of no other line of an access. -/
theorem onCycle_two_iff : (state i).onCycle = 2 ↔ bus.position microcode i % 3 = 0 := by
  have hpos := @position_pos bus microcode i
  have hbehind := onCycle_eq hsteps hrun htimed hi hkind
  rw [onCycle_succ hsteps hrun hi hkind] at hbehind
  constructor
  · omega
  · intro hthird
    obtain ⟨j, rfl, hsame, hnext⟩ := @position_succ bus microcode i (by omega)
    have hfront := onCycle_eq hsteps hrun htimed (show j < n by omega) (by rw [hsame]; exact hkind)
    omega

/-- The address has not changed since the access began. -/
theorem mar_eq (hthird : bus.position microcode i % 3 = 0) :
    bus.mar (state i).hiddenRegs = bus.mar (state (i - 2)).hiddenRegs := by
  have hkept : ∀ j < n, bus.lineKind microcode j ≠ .none →
      bus.mar (state (j + 1)).hiddenRegs = bus.mar (state j).hiddenRegs := by
    intro j hj hkind
    have hcounter := onCycle_eq hsteps hrun htimed hj hkind
    cases hcode : bus.executed microcode j with
    | none => exact absurd (lineKind_none hcode) hkind
    | some code => exact (clocked hsteps hrun hj hcode).mar_eq (by omega)
  have hpos := @position_pos bus microcode i
  obtain ⟨j, rfl, hsame, hnext⟩ := @position_succ bus microcode i (by omega)
  obtain ⟨k, rfl, hsame', -⟩ := @position_succ bus microcode j (by omega)
  rw [hkept (k + 1) (by omega) (by rw [hsame]; exact hkind),
    hkept k (by omega) (by rw [hsame', hsame]; exact hkind)]
  rfl

end

/-- In a well-timed run the processor notices every violation. -/
theorem flagged_of_violates (htimed : bus.WellTimed microcode (state 0).onCycle n) (hi : i < n)
    (hviolates : bus.Violates microcode i) :
    ∃ code, bus.executed microcode i = some code ∧ bus.Flagged code (state (i + 1)).onCycle := by
  obtain ⟨code, hcode, hviolates⟩ := hviolates
  refine ⟨code, hcode, ?_⟩
  have hpos := @position_pos bus microcode i
  have hcounter : bus.lineKind microcode i ≠ .none → _ := onCycle_eq hsteps hrun htimed hi
  rcases hviolates with ⟨hmar, hkind⟩ | ⟨hmdr, hkind⟩ | ⟨hmdr, hthird⟩
  · have := hcounter hkind
    exact Or.inl ⟨hmar, by omega⟩
  · have := hcounter hkind
    have := htimed.changed i hi code hcode hmdr hkind
    exact Or.inr (Or.inl ⟨hmdr, by omega⟩)
  · refine Or.inr (Or.inr ⟨hmdr, fun hthree => ?_⟩)
    have hkind : bus.lineKind microcode i ≠ .none := by
      intro hnone
      rw [onCycle_none hsteps hrun hi hcode hnone] at hthree
      cases hthree
    have hthree' : bus.position microcode i % 3 = 0 := by
      have := hcounter hkind
      omega
    cases hline : bus.lineKind microcode i with
    | none => exact hkind hline
    | read => exact hthird ⟨hline, hthree'⟩
    | write => exact htimed.loaded i hi code hcode hmdr hline hthree'

theorem handshake (htimed : bus.WellTimed microcode (state 0).onCycle n) : bus.Handshake microcode n state := by
  constructor
  · intro i hi
    cases hcode : bus.executed microcode i with
    | none =>
      rw [(unclocked hsteps hrun hi hcode).2, lineKind_none hcode]
      simp [Kind.transaction]
    | some code =>
      rw [(clocked hsteps hrun hi hcode).calls_eq, ← lineKind_some hcode]
      by_cases hkind : bus.lineKind microcode i = .none
      · simp [hkind, Kind.transaction]
      · simp only [onCycle_two_iff hsteps hrun htimed hi hkind]
        split
        · next hthird => rw [mar_eq hsteps hrun htimed hi hkind hthird]
        · rfl
  · intro i hi hviolates j hij hj
    have hrunning : ∀ j ≤ n, ¬Ended microcode j := fun j hj hended => by
      have := htimed.ended ⟨i, hi, hviolates⟩ hended.1
      have := hended.2
      omega
    induction j with
    | zero => omega
    | succ j ih =>
      rcases Nat.lt_or_eq_of_le (Nat.le_of_lt_succ hij) with hlater | rfl
      · have herror := ih hlater (by omega)
        cases hcode : bus.executed microcode j with
        | none => exact absurd (unclocked hsteps hrun hj hcode).1 (hrunning j (by omega))
        | some code =>
          have hclocked := clocked hsteps hrun hj hcode
          by_cases hflag : bus.Flagged code (state (j + 1)).onCycle
          · exact hclocked.flagged (hrunning _ hj) hflag
          · rw [hclocked.unflagged (hrunning _ hj) hflag]
            exact herror
      · obtain ⟨code, hcode, hflag⟩ := flagged_of_violates hsteps hrun htimed hi hviolates
        exact (clocked hsteps hrun hi hcode).flagged (hrunning _ hj) hflag

end Clocks

/-- In a well-timed run of either processor the memory handshake is kept. -/
theorem handshake_of_wellTimed (bus : Bus) (hbus : bus = byteBus ∨ bus = wordBus) (memory : Memory)
    (microcode : List bus.Code) (n : Nat) (state : Nat → Cpu bus.Hidden) (hrun : bus.Run memory microcode n state)
    (htimed : bus.WellTimed microcode (state 0).onCycle n) : bus.Handshake microcode n state := by
  rcases hbus with rfl | rfl
  · exact handshake (fun _ _ _ => byteBus_steps) hrun htimed
  · exact handshake (fun _ _ _ => wordBus_steps) hrun htimed

/-- A one-byte processor whose registers are all zero. -/
def cleared : ByteBus.State := ⟨.Ok, 0, fun _ => 0, fun _ => 0, fun _ => 0, 0, []⟩

/-- Its states while it executes a microprogram on a memory of zeros. -/
def statesOf (microcode : List ByteBus.Code) : Nat → ByteBus.State
  | 0 => cleared
  | i + 1 =>
    match (statesOf microcode i).clock (ByteBus.step fun _ => .ok [0]) microcode with
    | .ok result => result.2
    | .error _ => statesOf microcode i

/-- A byte is read. -/
theorem handshake_of_wellTimed_read : byteBus.Handshake
    [{ memRead := true }, { memRead := true }, { memRead := true, mdrCk := true }] 3
    (statesOf [{ memRead := true }, { memRead := true }, { memRead := true, mdrCk := true }]) := by
  refine handshake_of_wellTimed byteBus (Or.inl rfl) (fun _ => .ok [0]) _ 3 _ ⟨⟨cleared, rfl⟩, ?_⟩ ?_
  · intro i hi
    match i, hi with
    | 0, _ => exact ⟨_, rfl⟩
    | 1, _ => exact ⟨_, rfl⟩
    | 2, _ => exact ⟨_, rfl⟩
  · constructor
    · decide
    · intro i hi
      match i, hi with
      | 0, _ => decide
      | 1, _ => decide
    · intro i hi code hcode
      match i, hi with
      | 0, _ => cases hcode; decide
      | 1, _ => cases hcode; decide
      | 2, _ => cases hcode; decide
    · intro i hi code hcode
      match i, hi with
      | 0, _ => cases hcode; decide
      | 1, _ => cases hcode; decide
      | 2, _ => cases hcode; decide
    · rintro ⟨i, hi, code, hcode, hviolates⟩
      match i, hi with
      | 0, _ => cases hcode; revert hviolates; decide
      | 1, _ => cases hcode; revert hviolates; decide
      | 2, _ => cases hcode; revert hviolates; decide

/-- Behind two lines of a read, the first line of a write already writes. -/
theorem write_not_handshake : ¬∀ (memory : Memory) (microcode : List ByteBus.Code) (n : Nat)
    (state : Nat → ByteBus.State), byteBus.Run memory microcode n state → byteBus.Handshake microcode n state := by
  intro h
  have hrun : byteBus.Run (fun _ => .ok [0]) [{ memRead := true }, { memRead := true }, { memWrite := true }, {}] 3
      (statesOf [{ memRead := true }, { memRead := true }, { memWrite := true }, {}]) := by
    refine ⟨⟨cleared, rfl⟩, fun i hi => ?_⟩
    match i, hi with
    | 0, _ => exact ⟨_, rfl⟩
    | 1, _ => exact ⟨_, rfl⟩
    | 2, _ => exact ⟨_, rfl⟩
  have hcalls := (h _ _ _ _ hrun).calls 2 (by decide)
  revert hcalls
  decide

-- The address is clocked in an access, and the processor halts as if nothing had happened.
example : byteBus.Violates [{ memRead := true, marCk := true }] 0 ∧
    (statesOf [{ memRead := true, marCk := true }] 1).status = .Halted := ⟨⟨_, rfl, by decide⟩, rfl⟩

end Pepp.Mc2

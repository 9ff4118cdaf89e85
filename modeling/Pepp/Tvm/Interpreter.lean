import Pepp.Tvm.Backend
import Pepp.Tvm.Decoder

/-!
# The interpreter

Fetch, decode and dispatch until the live flag goes down. The backend, with its
replay direction, outlives the runs.
-/

namespace Pepp.Tvm

open Bts

structure Interpreter (σ : Type) where
  backend : Backend
  state : MachineState
  system : σ

namespace Interpreter

variable {σ : Type} (ops : TargetOps σ) (mgr : BufferManager) (self : Interpreter σ)

/-- Run an operation on the machine itself. -/
def onMachine (f : MachineState → MachineState) : Interpreter σ := { self with state := f self.state }

/-- Run an operation that may also move the nesting depth. -/
def onDepth (f : MachineState → Backend × MachineState) : Interpreter σ :=
  { self with backend := (f self.state).1, state := (f self.state).2 }

/-- Run an operation on the target. -/
def onTarget (f : MachineState → σ → MachineState × σ) : Interpreter σ :=
  { self with state := (f self.state self.system).1, system := (f self.state self.system).2 }

def dispatch (op : DecodedOp) : Interpreter σ :=
  let backend := self.backend
  match op with
  | .halt cause => self.onMachine (backend.onHalt cause)
  | .ret => self.onMachine Backend.onRet
  | .call nextIp => self.onMachine (Backend.onCall nextIp)
  | .invCall onForward onBackward => self.onDepth (backend.onInvCall onForward onBackward)
  | .invRet => self.onDepth backend.onInvRet
  | .aSyn _ => self
  | .iSyn _ => self
  | .lmr mask data => self.onMachine (Backend.onLmr mask data)
  | .br condition displacement => self.onMachine (Backend.onBr condition displacement)
  | .deltaMem op => self.onTarget (ops.onDeltaMem backend op)
  | .cmpMem target offset data size => self.onTarget (ops.onCmpMem backend target offset data size)
  | .clrMem target data => self.onTarget (ops.onClrMem backend target data)
  | .deltaReg op => self.onTarget (ops.onDeltaReg backend op)
  | .cmpReg reg data size => self.onTarget (ops.onCmpReg backend reg data size)
  | .clrReg reg => self.onTarget (ops.onClrReg backend reg)
  | .traddr target source targetOffset sourceOffset size =>
    self.onTarget (ops.onTraddr backend target source targetOffset sourceOffset size)
  | .ldp => self
  | .dpIncr dpIncr ds => self.onMachine (backend.onDpIncr dpIncr ds)
  | .mmio write data target access offset => self.onTarget (ops.onMmio backend write data target access offset)

/-- The instruction under `IP` and the machine once it is decoded. A decode that stopped the machine
has nothing to dispatch. -/
def decoded : Option DecodedOp × MachineState :=
  let (op, state) := Decoder.decode mgr self.state
  (if state.csrs.L then op else none, state)

def step : Interpreter σ :=
  let (op, state) := decoded mgr self
  let self := { self with state := state }
  match op with
  | some op => dispatch ops self op
  | none => self

/-- Step while the live flag is up. No value comes out of fuel that does not last. -/
def loop : Nat → Interpreter σ → Option (Interpreter σ)
  | 0, self => if self.state.csrs.L then none else some self
  | fuel + 1, self => if self.state.csrs.L then loop fuel (step ops mgr self) else some self

/-- The machine at the first instruction of a program. -/
def start (loc : ProgramLocation) (retain : RegisterRetention) : Interpreter σ :=
  let state := self.state.restart retain
  let state := if loc.data.id ≠ 0 then state.updateDp loc.data else state
  { self with state := state.updateIp loc.code }

def run (fuel : Nat) (loc : ProgramLocation) (retain : RegisterRetention) : Option (Interpreter σ) :=
  loop ops mgr fuel (start self loc retain)

/-- One program after the other, as far as the first hard stop. -/
def runEach (fuel : Nat) (retain : RegisterRetention) :
    List ProgramLocation → Interpreter σ → Option (Interpreter σ)
  | [], self => some self
  | loc :: locs, self => do
    let self ← run ops mgr self fuel loc retain
    if self.state.csrs.F then some self else runEach fuel retain locs self

end Interpreter

end Pepp.Tvm

/-! ## The replay direction over whole sessions

Invertible calls suspend the direction by raising the nesting depth, which lives
in the backend and survives a restart. The depth counts the regions that the
instructions have opened and not closed yet, so a run gives back the depth it was
given exactly when no instruction stops it inside a region. -/

namespace Pepp.Tvm

open Bts

namespace Interpreter

variable {σ : Type} (ops : TargetOps σ) (mgr : BufferManager) (self : Interpreter σ)

/-- How many of the regions that invertible calls open are open after an instruction, which closes none if there is none. -/
def regionsAfter (regions : Nat) : Option DecodedOp → Nat
  | some (.invCall _ _) => regions + 1
  | some .invRet => regions - 1
  | _ => regions

/-- What stops the machine at an instruction: that it halts, that the stack is full or has nothing on it, that no region
is open, that the data end, or that its handler refuses it. -/
def stops (regions : Nat) (op : DecodedOp) : Bool :=
  let backend := self.backend
  let state := self.state
  match op with
  | .halt _ => true
  | .ret => state.regs.SP < 4
  | .call _ => STACK_SIZE < state.regs.SP.toNat + 4
  | .invCall _ _ => STACK_SIZE < state.regs.SP.toNat + 4
  | .invRet => regions = 0 || state.regs.SP < 4
  | .aSyn _ => false
  | .iSyn _ => false
  | .lmr _ _ => false
  | .br _ _ => false
  | .deltaMem op => !(ops.onDeltaMem backend op state self.system).1.csrs.L
  | .cmpMem target offset data size => !(ops.onCmpMem backend target offset data size state self.system).1.csrs.L
  | .clrMem target data => !(ops.onClrMem backend target data state self.system).1.csrs.L
  | .deltaReg op => !(ops.onDeltaReg backend op state self.system).1.csrs.L
  | .cmpReg reg data size => !(ops.onCmpReg backend reg data size state self.system).1.csrs.L
  | .clrReg reg => !(ops.onClrReg backend reg state self.system).1.csrs.L
  | .traddr target source targetOffset sourceOffset size =>
    !(ops.onTraddr backend target source targetOffset sourceOffset size state self.system).1.csrs.L
  | .ldp => false
  | .dpIncr dpIncr ds => !(backend.onDpIncr dpIncr ds state).csrs.L
  | .mmio write data target access offset =>
    !(ops.onMmio backend write data target access offset state self.system).1.csrs.L

/-- Whether the machine stops at the instruction under `IP`, which may be none. -/
def stopsNext (regions : Nat) : Bool :=
  match decoded mgr self with
  | (none, state) => !state.csrs.L
  | (some op, state) => stops ops { self with state := state } regions op

/-- Over the steps that `loop` takes with this much fuel, no instruction stops the machine when regions are open after
it. So many are open at first. -/
def StopsOutside : (fuel regions : Nat) → Interpreter σ → Prop
  | 0, _, _ => True
  | fuel + 1, regions, self =>
    self.state.csrs.L = true →
      (stopsNext ops mgr self regions = true → regionsAfter regions (decoded mgr self).1 = 0) ∧
        StopsOutside fuel (regionsAfter regions (decoded mgr self).1) (step ops mgr self)

instance StopsOutside.decidable :
    ∀ (fuel regions : Nat) (self : Interpreter σ), Decidable (StopsOutside ops mgr fuel regions self)
  | 0, _, _ => isTrue trivial
  | fuel + 1, regions, self =>
    haveI := StopsOutside.decidable fuel (regionsAfter regions (decoded mgr self).1) (step ops mgr self)
    inferInstanceAs (Decidable (self.state.csrs.L = true →
      (stopsNext ops mgr self regions = true → regionsAfter regions (decoded mgr self).1 = 0) ∧
        StopsOutside ops mgr fuel (regionsAfter regions (decoded mgr self).1) (step ops mgr self)))

/-! ### One instruction -/

theorem push_live (state : MachineState) (v : SegmentPair) (hL : state.csrs.L = true) :
    (state.push v).csrs.L = !decide (STACK_SIZE < state.regs.SP.toNat + 4) := by
  unfold MachineState.push
  split
  · next h => simp [MachineState.hardStop, h]
  · next h => simp [hL, h]

theorem pop_live (state : MachineState) (hL : state.csrs.L = true) :
    state.pop.2.csrs.L = !decide (state.regs.SP < 4) := by
  unfold MachineState.pop
  split
  · next h => rw [decide_eq_true h]; rfl
  · next h => rw [decide_eq_false h]; exact hL

theorem loadMasked_live (r : RegMask) (w : U16) (state : MachineState) :
    (Backend.loadMasked r w state).csrs.L = state.csrs.L := by
  cases r <;> rfl

theorem onLmr_live (mask : U16) (data : List U8) (state : MachineState) :
    (Backend.onLmr mask data state).csrs.L = state.csrs.L := by
  have hloads : ∀ (loads : List (RegMask × U16)) (state : MachineState),
      (loads.foldl (fun state load => Backend.loadMasked load.1 load.2 state) state).csrs.L = state.csrs.L := by
    intro loads
    induction loads with
    | nil => exact fun _ => rfl
    | cons load loads ih => exact fun state => (ih _).trans (loadMasked_live load.1 load.2 state)
  exact hloads _ state

theorem onBr_live (condition : ConditionCode) (displacement : SegmentPair) (state : MachineState) :
    (Backend.onBr condition displacement state).csrs.L = state.csrs.L := by
  unfold Backend.onBr
  dsimp only
  split <;> rfl

variable {self}

/-- The depth above the floor counts the open regions. -/
def Counts (self : Interpreter σ) (regions : Nat) : Prop := self.backend.depth = self.backend.floor + regions

variable {regions : Nat} (fuel : Nat) {out : Interpreter σ}

theorem dispatch_counts (hn : Counts self regions) (op : DecodedOp) :
    Counts (dispatch ops self op) (regionsAfter regions (some op)) := by
  unfold Counts at *
  cases op with
  | invCall onForward onBackward =>
    simp only [dispatch, onDepth, Backend.onInvCall, regionsAfter]
    omega
  | invRet =>
    by_cases h : self.backend.depth ≤ self.backend.floor
    · simp only [dispatch, onDepth, Backend.onInvRet, if_pos h, regionsAfter]
      omega
    · simp only [dispatch, onDepth, Backend.onInvRet, if_neg h, regionsAfter]
      omega
  | _ => exact hn

theorem dispatch_stops (hL : self.state.csrs.L = true) (hn : Counts self regions) (op : DecodedOp) :
    (dispatch ops self op).state.csrs.L = !stops ops self regions op := by
  unfold Counts at hn
  cases op with
  | halt cause =>
    simp only [dispatch, onMachine, Backend.onHalt, stops]
    split <;> rfl
  | ret => exact pop_live _ hL
  | call nextIp => exact push_live _ _ hL
  | invCall onForward onBackward => exact push_live _ _ hL
  | invRet =>
    by_cases h : self.backend.depth ≤ self.backend.floor
    · have hzero : regions = 0 := by omega
      simp [dispatch, onDepth, Backend.onInvRet, h, stops, hzero, MachineState.hardStop]
    · have hpos : regions ≠ 0 := by omega
      simp only [dispatch, onDepth, Backend.onInvRet, if_neg h, stops, decide_eq_false hpos, Bool.false_or]
      exact pop_live _ hL
  | lmr mask data => exact (onLmr_live mask data _).trans hL
  | br condition displacement => exact (onBr_live condition displacement _).trans hL
  | aSyn _ => exact hL
  | iSyn _ => exact hL
  | ldp => exact hL
  | _ => exact (Bool.not_not _).symm

theorem step_counts (hn : Counts self regions) :
    Counts (step ops mgr self) (regionsAfter regions (decoded mgr self).1) := by
  unfold step
  generalize decoded mgr self = d
  obtain ⟨op, state⟩ := d
  cases op with
  | none => exact hn
  | some op => exact dispatch_counts ops (show Counts { self with state := state } regions from hn) op

/-- No instruction comes out of a decode that stopped the machine. -/
theorem decoded_live {op : DecodedOp} (h : (decoded mgr self).1 = some op) : (decoded mgr self).2.csrs.L = true := by
  have hdecoded : decoded mgr self = (if (Decoder.decode mgr self.state).2.csrs.L then (Decoder.decode mgr self.state).1
      else none, (Decoder.decode mgr self.state).2) := rfl
  rw [hdecoded] at h ⊢
  by_contra hdead
  rw [if_neg hdead] at h
  cases h

/-- A step stops the machine exactly when its instruction does. -/
theorem step_stops (hn : Counts self regions) : (step ops mgr self).state.csrs.L = !stopsNext ops mgr self regions := by
  have hlive := fun op => @decoded_live _ mgr self op
  unfold step stopsNext
  generalize decoded mgr self = d at *
  obtain ⟨op, state⟩ := d
  cases op with
  | none => exact (Bool.not_not _).symm
  | some op =>
    exact @dispatch_stops _ ops { self with state := state } _ (hlive op rfl) hn op

/-- The floor is moved by `setDirection` only. -/
theorem step_floor : (step ops mgr self).backend.floor = self.backend.floor := by
  unfold step
  obtain ⟨op, state⟩ := decoded mgr self
  cases op with
  | none => rfl
  | some op =>
    cases op with
    | invRet =>
      simp only [dispatch, onDepth, Backend.onInvRet]
      split <;> rfl
    | _ => rfl

/-! ### Runs -/

theorem loop_floor (h : loop ops mgr fuel self = some out) : out.backend.floor = self.backend.floor := by
  induction fuel generalizing self with
  | zero =>
    simp only [loop, Option.ite_none_left_eq_some, Option.some.injEq] at h
    rw [h.2]
  | succ fuel ih =>
    unfold loop at h
    split at h
    · rw [ih h, step_floor]
    · cases h
      rfl

theorem loop_counts (hn : Counts self regions) (h : loop ops mgr fuel self = some out) : ∃ left, Counts out left := by
  induction fuel generalizing self regions with
  | zero =>
    simp only [loop, Option.ite_none_left_eq_some, Option.some.injEq] at h
    exact ⟨regions, h.2 ▸ hn⟩
  | succ fuel ih =>
    unfold loop at h
    split at h
    · exact ih (step_counts ops mgr hn) h
    · cases h
      exact ⟨regions, hn⟩

/-- A machine that was live ends with no region open exactly when no instruction stopped it inside one. -/
theorem loop_closed (hL : self.state.csrs.L = true) (hn : Counts self regions) (h : loop ops mgr fuel self = some out) :
    Counts out 0 ↔ StopsOutside ops mgr fuel regions self := by
  induction fuel generalizing self regions with
  | zero => simp [loop, hL] at h
  | succ fuel ih =>
    rw [loop, if_pos hL] at h
    simp only [StopsOutside, hL, true_implies]
    have hnext := step_counts ops mgr hn
    have hstops := step_stops ops mgr hn
    cases hL' : (step ops mgr self).state.csrs.L with
    | true =>
      rw [hL'] at hstops
      have hgoes : stopsNext ops mgr self regions = false := by simpa using hstops.symm
      rw [ih hL' hnext h, hgoes]
      simp
    | false =>
      rw [hL'] at hstops
      have hhalts : stopsNext ops mgr self regions = true := by simpa using hstops.symm
      have hout : out = step ops mgr self := by
        cases fuel <;> simp only [loop, hL', Bool.false_eq_true, if_false, Option.some.injEq] at h <;> exact h.symm
      have hrest : StopsOutside ops mgr fuel (regionsAfter regions (decoded mgr self).1) (step ops mgr self) := by
        cases fuel <;> simp [StopsOutside, hL']
      rw [hout, hhalts]
      simp only [true_implies, hrest, and_true]
      unfold Counts at *
      omega

theorem start_live (loc : ProgramLocation) (retain : RegisterRetention) :
    (start self loc retain).state.csrs.L = true := by
  unfold start
  split <;> cases retain <;> rfl

end Interpreter

open Interpreter

/-- What a debugger does with an interpreter. The buffers, the links between them and the target are as
they are by then, and a run is given fuel. -/
inductive Event (σ : Type) where
  | setDirection : Direction → Event σ
  | run : (mgr : BufferManager) → (tb : Option DataLinks) → (system : σ) → (fuel : Nat) → ProgramLocation →
      RegisterRetention → Event σ

namespace Event

variable {σ : Type} (ops : TargetOps σ)

/-- The interpreter a run begins with. -/
def arranged (self : Interpreter σ) (tb : Option DataLinks) (system : σ) : Interpreter σ :=
  { self with backend := { self.backend with tb := tb }, system := system }

def apply (self : Interpreter σ) : Event σ → Option (Interpreter σ)
  | .setDirection d => some { self with backend := self.backend.setDirection d }
  | .run mgr tb system fuel loc retain => Interpreter.run ops mgr (arranged self tb system) fuel loc retain

/-- Events in order. No value comes out once a run's fuel does not last. -/
def session : List (Event σ) → Interpreter σ → Option (Interpreter σ)
  | [], self => some self
  | event :: events, self => (apply ops self event).bind (session events)

/-- No instruction stops the run, if the event is one, inside a region. -/
def RunClosed (self : Interpreter σ) : Event σ → Prop
  | .setDirection _ => True
  | .run mgr tb system fuel loc retain =>
    StopsOutside ops mgr fuel 0 (start (arranged self tb system) loc retain)

/-- No instruction stops a run of the session inside a region. -/
def AllClosed : List (Event σ) → Interpreter σ → Prop
  | [], _ => True
  | event :: events, self => RunClosed ops self event ∧ ∀ self' ∈ apply ops self event, AllClosed events self'

instance (self : Interpreter σ) : (event : Event σ) → Decidable (RunClosed ops self event)
  | .setDirection _ => isTrue trivial
  | .run .. => inferInstanceAs (Decidable (StopsOutside ..))

instance AllClosed.decidable : ∀ (events : List (Event σ)) (self : Interpreter σ), Decidable (AllClosed ops events self)
  | [], _ => isTrue trivial
  | event :: events, self =>
    haveI := AllClosed.decidable events
    inferInstanceAs (Decidable (RunClosed ops self event ∧ ∀ self' ∈ apply ops self event, AllClosed ops events self'))

/-- The direction last set, if one was. -/
def lastSet (d : Direction) : List (Event σ) → Direction
  | [] => d
  | .setDirection d' :: events => lastSet d' events
  | .run .. :: events => lastSet d events

end Event

namespace Backend

/-- The depth is where `setDirection` put it. -/
def Settled (self : Backend) (d : Direction) : Prop :=
  self.depth = self.floor ∧ self.floor = if d = .Backward then -1 else 0

theorem settled_setDirection (self : Backend) (d : Direction) : (self.setDirection d).Settled d := by
  cases d <;> exact ⟨rfl, rfl⟩

theorem Settled.isForward {self : Backend} {d : Direction} (h : self.Settled d) :
    self.isForward = true ↔ d = .Forward := by
  obtain ⟨hn, hf⟩ := h
  cases d <;> simp [Backend.isForward] at hf ⊢ <;> omega

end Backend

namespace Event

variable {σ : Type} (ops : TargetOps σ)

/-- A run that does not stop inside a region hands back the depth it was given. -/
theorem apply_settled {self self' : Interpreter σ} {d : Direction} {event : Event σ} (hs : self.backend.Settled d)
    (hc : RunClosed ops self event) (h : apply ops self event = some self') :
    self'.backend.Settled (lastSet d [event]) := by
  cases event with
  | setDirection d' =>
    cases h
    exact self.backend.settled_setDirection d'
  | run mgr tb system fuel loc retain =>
    have hn : Counts (start (arranged self tb system) loc retain) 0 := hs.1.trans (Int.add_zero _).symm
    have hcounts := (loop_closed ops mgr fuel (start_live loc retain) hn h).mpr hc
    exact ⟨hcounts.trans (Int.add_zero _), (loop_floor ops mgr fuel h).trans hs.2⟩

theorem lastSet_cons (d : Direction) (event : Event σ) (events : List (Event σ)) :
    lastSet d (event :: events) = lastSet (lastSet d [event]) events := by
  cases event <;> rfl

theorem session_settled (events : List (Event σ)) {self self' : Interpreter σ} {d : Direction}
    (hs : self.backend.Settled d) (hc : AllClosed ops events self) (h : session ops events self = some self') :
    self'.backend.Settled (lastSet d events) := by
  induction events generalizing self d with
  | nil =>
    cases h
    exact hs
  | cons event events ih =>
    obtain ⟨self₁, h₁, h⟩ := Option.bind_eq_some_iff.mp h
    rw [lastSet_cons]
    exact ih (apply_settled ops hs hc.1 h₁) (hc.2 self₁ h₁) h

end Event

/-- Over sessions in which no instruction stops a run inside a region, the next run starts in the direction last
set and with no region open. A single run gives the depth back exactly when no instruction stops it inside a region,
and then, or when the replay is a forward one, starts the next run in the right direction. -/
theorem replay_direction_survives {σ : Type} (ops : TargetOps σ) :
    (∀ (events : List (Event σ)) (tb : Option DataLinks) (state : MachineState) (system : σ) (self : Interpreter σ),
      Event.AllClosed ops events ⟨Backend.create tb, state, system⟩ →
      Event.session ops events ⟨Backend.create tb, state, system⟩ = some self →
      self.backend.depth = self.backend.floor ∧
        (self.backend.isForward = true ↔ Event.lastSet .Forward events = .Forward)) ∧
    ∀ (d : Direction) (self self' : Interpreter σ) (mgr : BufferManager) (fuel : Nat) (loc : ProgramLocation)
      (retain : RegisterRetention), self.backend.Settled d → run ops mgr self fuel loc retain = some self' →
      (self'.backend.depth = self'.backend.floor ↔ StopsOutside ops mgr fuel 0 (start self loc retain)) ∧
      ((self'.backend.isForward = true ↔ d = .Forward) ↔
        d = .Forward ∨ StopsOutside ops mgr fuel 0 (start self loc retain)) := by
  refine ⟨fun events tb state system self hc h => ?_, fun d self self' mgr fuel loc retain hs h => ?_⟩
  · have hs := Event.session_settled ops events (show (Backend.create tb).Settled .Forward from ⟨rfl, rfl⟩) hc h
    exact ⟨hs.1, hs.isForward⟩
  · have hn : Counts (start self loc retain) 0 := hs.1.trans (Int.add_zero _).symm
    have hclosed := loop_closed ops mgr fuel (start_live loc retain) hn h
    have hf : self'.backend.floor = _ := (loop_floor ops mgr fuel h).trans hs.2
    obtain ⟨left, hleft⟩ := loop_counts ops mgr fuel hn h
    rw [← hclosed]
    unfold Counts at *
    refine ⟨by omega, ?_⟩
    cases d <;> simp [Backend.isForward] at hf ⊢ <;> omega

/-- The handlers of a backend that was given no system. -/
def missingSystem : TargetOps Unit :=
  let inTargetMode := fun (state : MachineState) (u : Unit) =>
    (state.hardStop (if state.csrs.TR then .WrongTR else .MissingSystem), u)
  let inRegisterMode := fun (state : MachineState) (u : Unit) =>
    (state.hardStop (if state.csrs.TR then .MissingSystem else .WrongTR), u)
  { onDeltaMem := fun _ _ => inTargetMode
    onCmpMem := fun _ _ _ _ _ => inTargetMode
    onClrMem := fun _ _ _ => inTargetMode
    onDeltaReg := fun _ _ => inRegisterMode
    onCmpReg := fun _ _ _ _ => inRegisterMode
    onClrReg := fun _ _ => inRegisterMode
    onTraddr := fun _ _ _ _ _ _ state u => (state.hardStop .Unimplemented, u)
    onMmio := fun _ _ _ _ _ _ => inTargetMode }

/-- A manager whose one buffer starts with `code`. -/
def loaded (code : List U8) : BufferManager :=
  ⟨2, fun _ => ⟨true, 0, code.length, fun i => code.getD i 0⟩, []⟩

def powerOn : Interpreter Unit := ⟨Backend.create none, ⟨Flags.default, Registers.default, fun _ => 0⟩, ()⟩

def firstProgram : ProgramLocation := ⟨⟨1, 0⟩, ⟨0, 0⟩⟩

/-- A session of one backward run of `code`. -/
def backward (fuel : Nat) (code : List U8) : List (Event Unit) :=
  [.setDirection .Backward, .run (loaded code) none () fuel firstProgram .None]

/-- A backward run that calls an invertible region and then meets an opcode nobody knows leaves the next
run going forward. -/
theorem replay_direction_leaks :
    ∃ self, Event.session missingSystem (backward 2 (EncodedOp.invCall0 ++ [0x00, 0x3F])) powerOn = some self ∧
      ¬ (self.backend.isForward = true ↔
        Event.lastSet .Forward (backward 2 (EncodedOp.invCall0 ++ [0x00, 0x3F])) = .Forward) :=
  ⟨_, rfl, by decide⟩

/-- A backward run that calls an invertible region, returns from it and halts. -/
theorem replay_direction_survives_invRet :
    ∃ self, Event.session missingSystem
        (backward 3 (EncodedOp.invCall2 8 8 ++ EncodedOp.halt0 ++ EncodedOp.invRet0)) powerOn = some self ∧
      self.backend.depth = self.backend.floor ∧ (self.backend.isForward = true ↔ Direction.Backward = .Forward) ∧
      StopsOutside missingSystem (loaded EncodedOp.halt0) 1 0 (start powerOn firstProgram .None) := by
  obtain ⟨hs, hr⟩ := replay_direction_survives missingSystem
  obtain ⟨hd, hf⟩ := hs (backward 3 (EncodedOp.invCall2 8 8 ++ EncodedOp.halt0 ++ EncodedOp.invRet0)) none
    powerOn.state () _ (by decide) rfl
  exact ⟨_, rfl, hd, hf, (hr .Forward powerOn _ (loaded EncodedOp.halt0) 1 firstProgram .None ⟨rfl, rfl⟩ rfl).1.mp rfl⟩

end Pepp.Tvm

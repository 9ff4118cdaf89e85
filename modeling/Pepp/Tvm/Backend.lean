import Pepp.Tvm.Encoding

/-!
# The backend

Operations on the machine itself are the same for every backend; what happens to
the target under test is left to handlers. The replay direction is a nesting
depth that invertible calls raise and returns lower, above a floor of zero
(forward) or minus one (backward).
-/

namespace Pepp.Tvm

open Bts

inductive Direction where
  | Forward | Backward
  deriving DecidableEq, Repr

inductive AccessMode where
  | AsTraced | ReplaceWithInternal
  deriving DecidableEq, Repr

/-- The neighbours of a data buffer in its chain, zero when there is none. -/
structure DataLinks where
  dataSuccessor : Bts.ID → Bts.ID
  dataPredecessor : Bts.ID → Bts.ID

structure Backend where
  tb : Option DataLinks
  accessMode : AccessMode
  depth : Int
  floor : Int

/-- Handlers of the operations that involve the target, which has states `σ`. -/
structure TargetOps (σ : Type) where
  onDeltaMem : Backend → DeltaMem → MachineState → σ → MachineState × σ
  onCmpMem : Backend → (target : U8) → (offset : U32) → (data : SegmentPair) → (size : U16) → MachineState → σ →
    MachineState × σ
  onClrMem : Backend → (target : U8) → (data : U8) → MachineState → σ → MachineState × σ
  onDeltaReg : Backend → DeltaReg → MachineState → σ → MachineState × σ
  onCmpReg : Backend → RegisterRef → (data : SegmentPair) → (size : U16) → MachineState → σ → MachineState × σ
  onClrReg : Backend → RegisterRef → MachineState → σ → MachineState × σ
  onTraddr : Backend → (target source : U8) → (targetOffset sourceOffset size : U32) → MachineState → σ →
    MachineState × σ
  onMmio : Backend → (write : Bool) → (data : U8) → (target : U8) → Operation → (offset : U32) → MachineState → σ →
    MachineState × σ

namespace Backend

variable (self : Backend)

def create (tb : Option DataLinks) : Backend := ⟨tb, .AsTraced, 0, 0⟩

def setDirection (d : Direction) : Backend :=
  match d with
  | .Backward => { self with depth := -1, floor := -1 }
  | .Forward => { self with depth := 0, floor := 0 }

/-- The direction as the code now executing sees it. -/
def isForward : Bool := 0 ≤ self.depth

def onHalt (cause : StopCause) (state : MachineState) : MachineState :=
  if self.depth ≠ self.floor then state.hardStop .UnbalancedInvCall else state.softStop cause

def onRet (state : MachineState) : MachineState :=
  let (ip, state) := state.pop
  { state with regs := { state.regs with IP := ip } }

def onCall (nextIp : SegmentPair) (state : MachineState) : MachineState :=
  let state := state.push state.regs.IP
  { state with regs := { state.regs with IP := nextIp } }

/-- The target is chosen by the direction from before the call suspends it. -/
def onInvCall (onForward onBackward : SegmentPair) (state : MachineState) : Backend × MachineState :=
  let forward := self.isForward
  let state := state.push state.regs.IP
  ({ self with depth := self.depth + 1 },
    { state with regs := { state.regs with IP := if forward then onForward else onBackward } })

def onInvRet (state : MachineState) : Backend × MachineState :=
  if self.depth ≤ self.floor then (self, state.hardStop .UnbalancedInvCall)
  else ({ self with depth := self.depth - 1 }, onRet state)

/-- Load the register one mask bit names. `IP` stays aligned, and the live flag cannot be written. -/
def loadMasked (r : RegMask) (temp : U16) (state : MachineState) : MachineState :=
  let regs := state.regs
  let csrs := state.csrs
  match r with
  | .IP_HI => { state with regs := { regs with IP := { regs.IP with hi := temp } } }
  | .IP_LO => { state with regs := { regs with IP := { regs.IP with lo := temp &&& 0xFFFE } } }
  | .DP_HI => { state with regs := { regs with DP := { regs.DP with hi := temp } } }
  | .DP_LO => { state with regs := { regs with DP := { regs.DP with lo := temp } } }
  | .DS => { state with regs := { regs with DS := temp } }
  | .ACCESS => { state with regs := { regs with ACCESS := temp } }
  | .ID_HI => { state with regs := { regs with ID := { regs.ID with hi := temp } } }
  | .ID_LO => { state with regs := { regs with ID := { regs.ID with lo := temp } } }
  | .OFF_HI => { state with regs := { regs with OFF := { regs.OFF with hi := temp } } }
  | .OFF_LO => { state with regs := { regs with OFF := { regs.OFF with lo := temp } } }
  | .MOD1_HI =>
    { state with regs := { regs with MOD1 := { regs.MOD1 with hi := temp } }, csrs := { csrs with M1 := true } }
  | .MOD1_LO =>
    { state with regs := { regs with MOD1 := { regs.MOD1 with lo := temp } }, csrs := { csrs with M1 := true } }
  | .MOD2_HI =>
    { state with regs := { regs with MOD2 := { regs.MOD2 with hi := temp } }, csrs := { csrs with M2 := true } }
  | .MOD2_LO =>
    { state with regs := { regs with MOD2 := { regs.MOD2 with lo := temp } }, csrs := { csrs with M2 := true } }
  | .FLAGS => { state with csrs := { Flags.ofU8 (loByte temp) with L := csrs.L } }

/-- Words of the packet go to the registers of the mask, lowest bit first, until either runs out. -/
def onLmr (mask : U16) (data : List U8) (state : MachineState) : MachineState :=
  let word := fun i => bigEndian (data.getD (2 * i + 1) 0) (data.getD (2 * i) 0)
  let words := (List.range (data.length / 2)).map word
  ((RegMask.all.filter fun r => mask.getLsbD r.bit).zip words).foldl (fun state (r, w) => loadMasked r w state) state

def onBr (condition : ConditionCode) (displacement : SegmentPair) (state : MachineState) : MachineState :=
  let csrs := state.csrs
  let taken := csrs.Z && condition.E || csrs.N && condition.L || !csrs.N && !csrs.Z && condition.G ||
    csrs.F && condition.F
  if taken then
    { state with
      regs := { state.regs with IP := ⟨displacement.hi, (state.regs.IP.lo + displacement.lo) &&& 0xFFFE⟩ } }
  else state

/-- Step `DP`, over the end of its buffer into the next one when there is a trace buffer to ask. -/
def onDpIncr (dpIncr ds : U16) (state : MachineState) : MachineState :=
  let regs := { state.regs with DS := ds }
  match self.tb with
  | none => { state with regs := { regs with DP := { regs.DP with lo := regs.DP.lo + dpIncr } } }
  | some tb =>
    let newLo : Int := regs.DP.lo.toNat + dpIncr.toInt
    if SIZE ≤ newLo then
      let succ := tb.dataSuccessor regs.DP.hi
      if succ = 0 then ({ state with regs := regs } : MachineState).hardStop .InvalidDBuffer
      else { state with regs := { regs with DP := ⟨succ, BitVec.ofInt 16 (newLo - SIZE)⟩ } }
    else if newLo < 0 then
      let pred := tb.dataPredecessor regs.DP.hi
      if pred = 0 then ({ state with regs := regs } : MachineState).hardStop .InvalidDBuffer
      else { state with regs := { regs with DP := ⟨pred, BitVec.ofInt 16 (newLo + SIZE)⟩ } }
    else { state with regs := { regs with DP := { regs.DP with lo := BitVec.ofInt 16 newLo } } }

end Backend

end Pepp.Tvm

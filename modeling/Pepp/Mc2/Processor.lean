import Mathlib.Logic.Function.Basic
import Pepp.Sim.Memory

/-!
# The microcode processors

What the one-byte and the two-byte data path have in common: the ALU, the
register banks, the counter of the memory cycle, and the clock. The processor
talks to a memory target, of which only the calls and their answers are seen.
-/

namespace Pepp.Mc2

/-! ## The ALU -/

structure AluResult where
  n : Bool := false
  z : Bool := false
  v : Bool := false
  c : Bool := false
  value : U8 := 0
  deriving DecidableEq, Repr

def AluResult.ofValue (ret : U8) (v c : Bool) : AluResult := ⟨ret &&& 0x80 != 0, ret == 0, v, c, ret⟩

/-- `A plus B plus Cin`, where the other additions end. -/
def plus (a b : U8) (cin : Bool) : AluResult :=
  let ret := a + b + (if cin then 1 else 0)
  .ofValue ret ((a ^^^ ret) &&& (b ^^^ ret) &&& 0x80 != 0) (decide (ret < a) || decide (ret < b))

def rotateRight (a : U8) (cin : Bool) : AluResult :=
  .ofValue (a >>> 1 ||| (if cin then 0x80 else 0)) false (a &&& 1 != 0)

/-- `NAND` and `NOR` are logical negations in the source, not bitwise ones. -/
def computeALU (fn : BitVec 4) (a b : U8) (cin : Bool) : AluResult :=
  match fn.toNat with
  | 0 => .ofValue a false false
  | 1 => plus a b false
  | 2 => plus a b cin
  | 3 => plus a (~~~b) true
  | 4 => plus a (~~~b) cin
  | 5 => .ofValue (a &&& b) false false
  | 6 => .ofValue (if a &&& b = 0 then 1 else 0) false false
  | 7 => .ofValue (a ||| b) false false
  | 8 => .ofValue (if a ||| b = 0 then 1 else 0) false false
  | 9 => .ofValue (a ^^^ b) false false
  | 10 => .ofValue (~~~a) false false
  | 11 => .ofValue (a <<< 1) (((a <<< 1) ^^^ a) &&& 0x80 != 0) (a &&& 0x80 != 0)
  | 12 => .ofValue (a <<< 1 ||| (if cin then 1 else 0)) false (a &&& 0x80 != 0)
  | 13 => rotateRight a (a &&& 128 != 0)
  | 14 => rotateRight a cin
  | _ => ⟨a &&& 0x8 != 0, a &&& 0x4 != 0, a &&& 0x2 != 0, a &&& 0x1 != 0, 0⟩

/-! ## The state -/

inductive Status where
  | Ok | Halted | ChangedAddress | ChangedData | MemoryTooSoon
  deriving DecidableEq, Repr

def Status.isError : Status → Prop
  | .Ok | .Halted => False
  | _ => True

instance : DecidablePred Status.isError
  | .Ok | .Halted => inferInstanceAs (Decidable False)
  | .ChangedAddress | .ChangedData | .MemoryTooSoon => inferInstanceAs (Decidable True)

inductive CSRs where
  | N | Z | V | C | S
  deriving DecidableEq, Repr

/-- A call to the memory target. -/
inductive Transaction where
  | read (address : U16) (size : Nat)
  | write (address : U16) (src : List U8)
  deriving DecidableEq, Repr

/-- A memory target answers the last one of the calls that it has got; an answer to a write is not looked at. -/
abbrev Memory := List Transaction → Except Exception (List U8)

/-- `BaseCPU` with the hidden registers `H`. The trace of the register banks is left out. -/
structure Cpu (H : Type) where
  status : Status
  microPC : U16
  bankRegs : BitVec 5 → U8
  hiddenRegs : H → U8
  csrs : CSRs → U8
  onCycle : Nat
  calls : List Transaction

namespace Cpu

variable {H : Type} [DecidableEq H] (self : Cpu H)

def init : Cpu H := { self with status := .Ok }

def resetMicroPC : Cpu H := { self with microPC := 0 }

def readReg (reg : BitVec 5) : U8 := self.bankRegs reg

def writeReg (reg : BitVec 5) (val : U8) : Cpu H := { self with bankRegs := Function.update self.bankRegs reg val }

def readCSR (reg : CSRs) : Bool := self.csrs reg != 0

def writeCSR (reg : CSRs) (val : Bool) : Cpu H :=
  { self with csrs := Function.update self.csrs reg (if val then 1 else 0) }

def readHidden (reg : H) : U8 := self.hiddenRegs reg

def writeHidden (reg : H) (val : U8) : Cpu H :=
  { self with hiddenRegs := Function.update self.hiddenRegs reg val }

/-! ## Parts of a step -/

def call (memory : Memory) (t : Transaction) : Except Exception (List U8 × Cpu H) := do
  let answer ← memory (self.calls ++ [t])
  return (answer, { self with calls := self.calls ++ [t] })

/-- The memory cycle of a line: what is in `memtemp` behind it. The access is made in the third cycle, and a line
that asserts both signals writes. -/
def memoryCycle (memory : Memory) (memWrite memRead : Bool) (mar : U16) (data : List U8) :
    Except Exception (List U8 × Cpu H) :=
  if memWrite then do
    let (_, self) ← if self.onCycle = 2 then self.call memory (.write mar data) else pure (data, self)
    return (data, { self with onCycle := self.onCycle % 3 + 1 })
  else if memRead then do
    let (memtemp, self) ← if self.onCycle = 2 then self.call memory (.read mar data.length)
      else pure (List.replicate data.length 0, self)
    return (memtemp, { self with onCycle := self.onCycle % 3 + 1 })
  else return (List.replicate data.length 0, { self with onCycle := 0 })

/-- The clocked status bits of a line. -/
structure StatusClocks where
  nCk : Bool
  zCk : Bool
  vCk : Bool
  cCk : Bool
  sCk : Bool
  andZ : Bool

def clockCSRs (clocks : StatusClocks) (alu : AluResult) : Cpu H :=
  let self := if clocks.nCk then self.writeCSR .N alu.n else self
  let self := if clocks.zCk then self.writeCSR .Z (alu.z && (clocks.andZ && self.readCSR .Z || !clocks.andZ)) else self
  let self := if clocks.vCk then self.writeCSR .V alu.v else self
  let self := if clocks.cCk then self.writeCSR .C alu.c else self
  if clocks.sCk then self.writeCSR .S alu.c else self

/-- `c_out` -/
def cOut (cMux : Bool) (alu : AluResult) : U8 :=
  if cMux then alu.value
  else (if self.readCSR .N then 0x8 else 0) ||| (if self.readCSR .Z then 0x4 else 0) |||
    (if self.readCSR .V then 0x2 else 0) ||| (if self.readCSR .C then 0x1 else 0)

/-- Clock a memory data register, from the C bus or from memory. -/
def clockMDR (ck mux : Bool) (reg : H) (cOut memtemp : U8) : Cpu H :=
  if ck && mux then
    let self := if 1 < self.onCycle then { self with status := .ChangedData } else self
    self.writeHidden reg cOut
  else if ck then
    if self.onCycle = 3 then self.writeHidden reg memtemp else { self with status := .MemoryTooSoon }
  else self

/-- Clock the memory address register, which must not change during an access. -/
def clockMAR (ck : Bool) (mara marb : H) (a b : U8) : Cpu H :=
  if ck then
    if self.onCycle ≠ 0 then { self with status := .ChangedAddress }
    else (self.writeHidden mara a).writeHidden marb b
  else self

/-- The last registers are constants. -/
def load (loadCk : Bool) (c : BitVec 5) (cOut : U8) : Cpu H :=
  if loadCk && decide (c < 22) then self.writeReg c cOut else self

/-- `clock`: whether the processor pauses, and its state. -/
def clock {Code : Type} (step : Code → Cpu H → Except Exception (Cpu H)) (microcode : List Code) :
    Except Exception (Bool × Cpu H) :=
  match microcode[self.microPC.toNat]? with
  | none => .ok (true, { self with status := .Halted })
  | some code => do
    let self ← step code { self with microPC := self.microPC + 1 }
    let self := if self.microPC.toNat = microcode.length then { self with status := .Halted } else self
    return (decide (self.status ≠ .Ok), self)

end Cpu

end Pepp.Mc2

/-! ## The one-byte and the two-byte bus

A line of microcode for each data path, and the step that executes it. The
one-byte bus moves a byte through `MDR`, the two-byte bus an aligned word
through `MDRE` and `MDRO`. -/

namespace Pepp.Mc2

namespace ByteBus

inductive HiddenRegisters where
  | MARA | MARB | MDR
  deriving DecidableEq, Repr

structure Code where
  memRead : Bool := false
  memWrite : Bool := false
  a : BitVec 5 := 0
  b : BitVec 5 := 0
  aMux : Bool := false
  alu : BitVec 4 := 0
  csMux : Bool := false
  andZ : Bool := false
  cMux : Bool := false
  c : BitVec 5 := 0
  mdrMux : Bool := false
  nCk : Bool := false
  zCk : Bool := false
  vCk : Bool := false
  cCk : Bool := false
  sCk : Bool := false
  marCk : Bool := false
  loadCk : Bool := false
  mdrCk : Bool := false
  deriving DecidableEq, Repr

abbrev State := Cpu HiddenRegisters

def mar (hiddenRegs : HiddenRegisters → U8) : U16 := bigEndian (hiddenRegs .MARA) (hiddenRegs .MARB)

def mdr (hiddenRegs : HiddenRegisters → U8) : List U8 := [hiddenRegs .MDR]

def step (memory : Memory) (code : Code) (self : State) : Except Exception State := do
  let a := self.readReg code.a
  let b := self.readReg code.b
  let cIn := if code.csMux then self.readCSR .S else self.readCSR .C
  let aIn := if code.aMux then a else self.readHidden .MDR
  let alu := computeALU code.alu aIn b cIn
  let mar := mar self.hiddenRegs
  let (memtemp, self) ← self.memoryCycle memory code.memWrite code.memRead mar (mdr self.hiddenRegs)
  let self := self.clockMAR code.marCk .MARA .MARB a b
  let self := self.clockCSRs ⟨code.nCk, code.zCk, code.vCk, code.cCk, code.sCk, code.andZ⟩ alu
  let cOut := self.cOut code.cMux alu
  let self := self.clockMDR code.mdrCk code.mdrMux .MDR cOut (memtemp.getD 0 0)
  return self.load code.loadCk code.c cOut

end ByteBus

namespace WordBus

inductive HiddenRegisters where
  | MARA | MARB | MDRE | MDRO
  deriving DecidableEq, Repr

structure Code where
  memRead : Bool := false
  memWrite : Bool := false
  a : BitVec 5 := 0
  b : BitVec 5 := 0
  eoMux : Bool := false
  marMux : Bool := false
  aMux : Bool := false
  alu : BitVec 4 := 0
  csMux : Bool := false
  andZ : Bool := false
  cMux : Bool := false
  c : BitVec 5 := 0
  mdroMux : Bool := false
  mdreMux : Bool := false
  nCk : Bool := false
  zCk : Bool := false
  vCk : Bool := false
  cCk : Bool := false
  sCk : Bool := false
  marCk : Bool := false
  loadCk : Bool := false
  mdroCk : Bool := false
  mdreCk : Bool := false
  deriving DecidableEq, Repr

abbrev State := Cpu HiddenRegisters

/-- The low bit of the address is masked. -/
def mar (hiddenRegs : HiddenRegisters → U8) : U16 := bigEndian (hiddenRegs .MARA) (hiddenRegs .MARB) &&& ~~~1

def mdr (hiddenRegs : HiddenRegisters → U8) : List U8 := [hiddenRegs .MDRE, hiddenRegs .MDRO]

def step (memory : Memory) (code : Code) (self : State) : Except Exception State := do
  let a := self.readReg code.a
  let b := self.readReg code.b
  let mdre := self.readHidden .MDRE
  let mdro := self.readHidden .MDRO
  let cIn := if code.csMux then self.readCSR .S else self.readCSR .C
  let aIn := if code.aMux then a else if code.eoMux then mdro else mdre
  let alu := computeALU code.alu aIn b cIn
  let mar := mar self.hiddenRegs
  let (memtemp, self) ← self.memoryCycle memory code.memWrite code.memRead mar (mdr self.hiddenRegs)
  let self := self.clockMAR code.marCk .MARA .MARB (if code.marMux then a else mdre) (if code.marMux then b else mdro)
  let self := self.clockCSRs ⟨code.nCk, code.zCk, code.vCk, code.cCk, code.sCk, code.andZ⟩ alu
  let cOut := self.cOut code.cMux alu
  let self := self.clockMDR code.mdreCk code.mdreMux .MDRE cOut (memtemp.getD 0 0)
  let self := self.clockMDR code.mdroCk code.mdroMux .MDRO cOut (memtemp.getD 1 0)
  return self.load code.loadCk code.c cOut

end WordBus

end Pepp.Mc2

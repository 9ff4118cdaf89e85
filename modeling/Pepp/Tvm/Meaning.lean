import Pepp.Tvm.Forms

/-!
# What a packet says

Independent of how it is cracked: the registers a packet programs, and the
instruction it stands for on a machine that holds them. An operand that a form
leaves out is what its register retains.
-/

namespace Pepp.Tvm

open Bts Span

/-- `CLRMOD` of the instruction before takes effect. -/
def MachineState.cleared (self : MachineState) : MachineState :=
  if self.csrs.CLRMOD then
    { self with
      regs := { self.regs with MOD1 := ⟨0, 0⟩, MOD2 := ⟨0, 0⟩ }
      csrs := { self.csrs with M1 := false, M2 := false } }
  else self

/-- Bytes at an address, unless they are not all in a buffer. -/
def bytesAt (mgr : BufferManager) (loc : SegmentPair) (size : Nat) : Option (List U8) :=
  (mgr.find loc.hi).bind fun buf =>
    if loc.lo.toNat + size ≤ SIZE then some (slice buf.bytes loc.lo.toNat size) else none

/-- The address some bytes further on in the same buffer. -/
def SegmentPair.skip (loc : SegmentPair) (bytes : Nat) : SegmentPair :=
  { loc with lo := loc.lo + BitVec.ofNat 16 bytes }

/-- The offset in front of a payload: two little-endian words, the high one first. -/
def offsetOf : List U8 → SegmentPair
  | b₀ :: b₁ :: b₂ :: b₃ :: _ => ⟨bigEndian b₁ b₀, bigEndian b₃ b₂⟩
  | _ => Inhabited.default

def conditionOf : Opcode → ConditionCode
  | .BREQ => ⟨true, false, false, false⟩
  | .BRGT => ⟨false, true, false, false⟩
  | .BRGE => ⟨true, true, false, false⟩
  | .BRLT => ⟨false, false, true, false⟩
  | .BRLE => ⟨true, false, true, false⟩
  | .BRNE => ⟨false, true, true, false⟩
  | .BR => ⟨true, true, true, false⟩
  | .BRF => ⟨false, false, false, true⟩
  | _ => ⟨false, false, false, false⟩

namespace EncodedOp

/-- The bytes an immediate payload stands for. -/
def Immediate.octets : Immediate → List U8
  | .bytes data => data
  | .words data => leWords data

/-- Where a packet at `loc` keeps its payload, and of which size: behind the size word, which is the `k`-th word after
the opcode word, or else in the data registers. -/
def located (regs : Registers) (loc : SegmentPair) (k : Nat) : Option Immediate → SegmentPair × U16
  | some data => (loc.skip (2 * (k + 1)), data.size)
  | none => (regs.DP, regs.DS)

def Halt.cause : Halt → StopCause
  | .of0 => .None
  | .of1 cause => StopCause.ofU16 cause

/-- The target of a call, given the address behind it. -/
def Call.nextIp (next : SegmentPair) : Call → SegmentPair
  | .of0 => next
  | .of1 nextIpLo => { next with lo := nextIpLo }
  | .of2 nextIp => nextIp

def InvCall.onForward (next : SegmentPair) : InvCall → SegmentPair
  | .of0 => next
  | .of1 onForwardLo => { next with lo := onForwardLo }
  | .of2 onForwardLo _ => { next with lo := onForwardLo }
  | .of3 onForward _ => onForward
  | .of4 onForward _ => onForward

def InvCall.onBackward (next : SegmentPair) : InvCall → SegmentPair
  | .of0 => next
  | .of1 _ => next
  | .of2 _ onBackwardLo => { next with lo := onBackwardLo }
  | .of3 _ onBackwardLo => { next with lo := onBackwardLo }
  | .of4 _ onBackward => onBackward

/-- Timestamps have eight bytes at most. -/
def Syn.timestamp (mgr : BufferManager) (regs : Registers) : Syn → Option (List U8)
  | .of0 => bytesAt mgr regs.DP (min regs.DS.toNat 8)
  | .of1 timestamp => some (timestamp.octets.take 8)

/-- Without a displacement the one in `MOD2` counts, in the current buffer if it names none. -/
def BR.displacement (state : MachineState) (next : SegmentPair) : BR → SegmentPair
  | .of0 =>
    let displacement := if state.csrs.M2 then state.regs.MOD2 else { next with lo := 0 }
    { displacement with hi := if displacement.hi = 0 then next.hi else displacement.hi }
  | .of1 displacementLo => { next with lo := displacementLo }
  | .of2 displacement => displacement

def CmpMem.program (regs : Registers) : CmpMem → Registers
  | .of1 dev => { regs with ID.lo := dev }
  | .of2 dev offHi => { regs with ID.lo := dev, OFF.hi := offHi }
  | .of3 dev off => { regs with ID.lo := dev, OFF := off }
  | .of4 dev off _ => { regs with ID.lo := dev, OFF := off }

def CmpMem.data : CmpMem → Option Immediate
  | .of4 _ _ data => some data
  | _ => none

def SetMem.program (regs : Registers) : SetMem → Registers
  | .of1 access => { regs with ACCESS := access }
  | .of2 access dev => { regs with ACCESS := access, ID.lo := dev }
  | .of3 access dev offHi => { regs with ACCESS := access, ID.lo := dev, OFF.hi := offHi }
  | .of4 access dev off => { regs with ACCESS := access, ID.lo := dev, OFF := off }
  | .of5 access dev off _ => { regs with ACCESS := access, ID.lo := dev, OFF := off }

def SetMem.data : SetMem → Option Immediate
  | .of5 _ _ _ data => some data
  | _ => none

def SetReg.program (regs : Registers) : SetReg → Registers
  | .of1 access => { regs with ACCESS := access }
  | .of2 access reg => { regs with ACCESS := access, ID.hi := reg }
  | .of3 access reg field => { regs with ACCESS := access, ID := ⟨reg, field⟩ }
  | .of4 access reg field _ => { regs with ACCESS := access, ID := ⟨reg, field⟩ }

def SetReg.data : SetReg → Option Immediate
  | .of4 _ _ _ data => some data
  | _ => none

def StepMem.program (regs : Registers) : StepMem → Registers
  | .of1 access => { regs with ACCESS := access }
  | .of2 access dev => { regs with ACCESS := access, ID.lo := dev }
  | .of3 access dev offHi => { regs with ACCESS := access, ID.lo := dev, OFF.hi := offHi }
  | .of4 access dev off => { regs with ACCESS := access, ID.lo := dev, OFF := off }
  | .of5 access dev off _ => { regs with ACCESS := access, ID.lo := dev, OFF := off }
  | .of6 access dev off _ _ => { regs with ACCESS := access, ID.lo := dev, OFF := off }

def StepMem.data : StepMem → Option Immediate
  | .of6 _ _ _ _ data => some data
  | _ => none

/-- The byte order is little endian unless a word, supplied or left in `MOD1`, says otherwise. -/
def StepMem.order (state : MachineState) : StepMem → Order
  | .of5 _ _ _ order => decodeOrder order
  | .of6 _ _ _ order _ => decodeOrder order
  | _ => if state.csrs.M1 then decodeOrder state.regs.MOD1.hi else .LittleEndian

def SetMemDX.program (regs : Registers) : SetMemDX → Registers
  | .of1 access => { regs with ACCESS := access }
  | .of2 access dev => { regs with ACCESS := access, ID.lo := dev }

def ClrMem.program (regs : Registers) : ClrMem → Registers
  | .of1 dev => { regs with ID.lo := dev }
  | .of2 dev _ => { regs with ID.lo := dev }

def ClrMem.reset : ClrMem → U8
  | .of1 _ => 0
  | .of2 _ reset => reset

def CmpReg.program (regs : Registers) : CmpReg → Registers
  | .of1 reg => { regs with ID.hi := reg }
  | .of2 reg field => { regs with ID := ⟨reg, field⟩ }
  | .of3 reg field _ => { regs with ID := ⟨reg, field⟩ }

def CmpReg.data : CmpReg → Option Immediate
  | .of3 _ _ data => some data
  | _ => none

def ClrReg.program (regs : Registers) : ClrReg → Registers
  | .of1 reg => { regs with ID.hi := reg }
  | .of2 reg field => { regs with ID := ⟨reg, field⟩ }

def LDP.program (regs : Registers) : LDP → Registers
  | .of1 dpLo => { regs with DP.lo := dpLo }
  | .of2 dpLo ds => { regs with DP.lo := dpLo, DS := ds }
  | .of3 dp ds => { regs with DP := dp, DS := ds }

/-- The registers that outlive the instruction. -/
structure Operands where
  ACCESS : U16
  ID : SegmentPair
  OFF : SegmentPair
  DP : SegmentPair
  DS : U16
  deriving DecidableEq, Repr

def operands (regs : Registers) : Operands := ⟨regs.ACCESS, regs.ID, regs.OFF, regs.DP, regs.DS⟩

namespace Form

/-- The registers once the packet has supplied its words. -/
def program (mgr : BufferManager) (regs : Registers) : Form → Registers
  | .cmpMem form => form.program regs
  | .setMem _ form => form.program regs
  | .setReg _ form => form.program regs
  | .stepMem form => form.program regs
  | .setMemDX form =>
    { form.program regs with
      OFF := ((bytesAt mgr regs.DP (SETMEMDX_ADDRESS_BYTES + regs.DS.toNat)).map offsetOf).getD regs.OFF }
  | .clrMem form => form.program regs
  | .cmpReg form => form.program regs
  | .clrReg form => form.program regs
  | .ldp form => form.program regs
  | .mmio _ access dev =>
    { regs with
      ACCESS := access
      ID.lo := dev
      OFF := ((bytesAt mgr regs.DP (MMIO_PROLOGUE_BYTES + 1)).map offsetOf).getD regs.OFF }
  | _ => regs

/-- The payload an immediate form carries, and which word its size is. -/
def payload : Form → Option (Nat × Immediate)
  | .aSyn (.of1 timestamp) => some (1, timestamp)
  | .iSyn (.of1 timestamp) => some (1, timestamp)
  | .cmpMem form => form.data.map (4, ·)
  | .setMem _ form => form.data.map (5, ·)
  | .setReg _ form => form.data.map (4, ·)
  | .stepMem form => form.data.map (6, ·)
  | .cmpReg form => form.data.map (3, ·)
  | _ => none

/-- The instruction of the packet at `loc`, which `next` is the address behind. There is none when it takes
operands from data that is not there. -/
def meaning (mgr : BufferManager) (state : MachineState) (loc next : SegmentPair) (form : Form) : Option DecodedOp :=
  let regs := form.program mgr state.regs
  let ref : RegisterRef := ⟨regs.ID.hi, regs.ID.lo⟩
  match form with
  | .halt form => some (.halt form.cause)
  | .ret => some .ret
  | .invRet => some .invRet
  | .call form => some (.call (form.nextIp next))
  | .invCall form => some (.invCall (form.onForward next) (form.onBackward next))
  | .aSyn form => (form.timestamp mgr regs).map fun bytes => .aSyn (BitVec.ofNat 64 (leValue bytes))
  | .iSyn form =>
    (form.timestamp mgr regs).map fun bytes => .iSyn (signExtend (BitVec.ofNat 64 (leValue bytes)) bytes.length)
  | .lmr _ pairs => some (.lmr (combined (sortPairs pairs)) (leWords ((sortPairs pairs).map Prod.snd)))
  | .ldr mask value => some (.lmr mask (leBytes value))
  | .br op form => some (.br (conditionOf op) (form.displacement state next))
  | .cmpMem form =>
    let (data, size) := located state.regs loc 4 form.data
    some (.cmpMem (loByte regs.ID.lo) regs.OFF.asU32 data size)
  | .setMem x form =>
    let (data, size) := located state.regs loc 5 form.data
    some (.deltaMem ⟨if x then .Xor else .Assign, Operation.ofU16 regs.ACCESS, loByte regs.ID.lo, regs.OFF.asU32, data,
      size, .LittleEndian⟩)
  | .setReg kind form =>
    let (data, size) := located state.regs loc 4 form.data
    some (.deltaReg ⟨kind, ref, data, size⟩)
  | .stepMem form =>
    let (data, size) := located state.regs loc 6 form.data
    some (.deltaMem ⟨.Add, Operation.ofU16 regs.ACCESS, loByte regs.ID.lo, regs.OFF.asU32, data, size,
      form.order state⟩)
  | .setMemDX _ =>
    (bytesAt mgr state.regs.DP (SETMEMDX_ADDRESS_BYTES + state.regs.DS.toNat)).map fun bytes =>
      .deltaMem ⟨.Xor, Operation.ofU16 regs.ACCESS, loByte regs.ID.lo, (offsetOf bytes).asU32,
        state.regs.DP.skip SETMEMDX_ADDRESS_BYTES, state.regs.DS, .LittleEndian⟩
  | .clrMem form => some (.clrMem (loByte regs.ID.lo) form.reset)
  | .cmpReg form =>
    let (data, size) := located state.regs loc 3 form.data
    some (.cmpReg ref data size)
  | .clrReg _ => some (.clrReg ref)
  | .ldp _ => some .ldp
  | .accdp ds => some (.dpIncr regs.DS ds)
  | .incdp dpIncr ds => some (.dpIncr dpIncr ds)
  | .mmio readWrite _ _ =>
    (bytesAt mgr state.regs.DP (MMIO_PROLOGUE_BYTES + 1)).map fun bytes =>
      .mmio readWrite (bytes.getD MMIO_PROLOGUE_BYTES 0) (loByte regs.ID.lo) (Operation.ofU16 regs.ACCESS)
        (offsetOf bytes).asU32

end Form

end EncodedOp

end Pepp.Tvm

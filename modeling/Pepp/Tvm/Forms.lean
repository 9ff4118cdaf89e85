import Pepp.Tvm.Encoding

/-!
# Everything the encoder can build

A packet comes in as many forms as it has operands to leave out, from the last
one on. An immediate form ends in the size of a payload and the payload itself.
-/

namespace Pepp.Tvm.EncodedOp

/-- The payload of an immediate form, handed over as bytes or as words. -/
inductive Immediate where
  | bytes : (data : List U8) → Immediate
  | words : (data : List U16) → Immediate
  deriving DecidableEq, Repr

namespace Immediate

/-- The size word in front of the payload, in bytes. -/
def size : Immediate → U16
  | .bytes data => BitVec.ofNat 16 data.length
  | .words data => 2 * BitVec.ofNat 16 data.length

def packed : Immediate → List U16
  | .bytes data => packBytes data
  | .words data => data

/-- What `ImmediateEncoder` puts after the prefix words. -/
def mods (data : Immediate) : List U16 := data.size :: data.packed

end Immediate

inductive Halt where
  | of0
  | of1 : (cause : U16) → Halt

def Halt.mods : Halt → List U16
  | .of0 => []
  | .of1 cause => [cause]

inductive Call where
  | of0
  | of1 : (nextIpLo : U16) → Call
  | of2 : (nextIp : SegmentPair) → Call

def Call.mods : Call → List U16
  | .of0 => []
  | .of1 nextIpLo => [nextIpLo]
  | .of2 nextIp => [nextIp.lo, nextIp.hi]

/-- Targets are interleaved lo-first, so that two words reach both targets within the current buffer. -/
inductive InvCall where
  | of0
  | of1 : (onForwardLo : U16) → InvCall
  | of2 : (onForwardLo onBackwardLo : U16) → InvCall
  | of3 : (onForward : SegmentPair) → (onBackwardLo : U16) → InvCall
  | of4 : (onForward onBackward : SegmentPair) → InvCall

def InvCall.mods : InvCall → List U16
  | .of0 => []
  | .of1 onForwardLo => [onForwardLo]
  | .of2 onForwardLo onBackwardLo => [onForwardLo, onBackwardLo]
  | .of3 onForward onBackwardLo => [onForward.lo, onBackwardLo, onForward.hi]
  | .of4 onForward onBackward => [onForward.lo, onBackward.lo, onForward.hi, onBackward.hi]

/-- A timestamp at `DP`, or one the packet carries. -/
inductive Syn where
  | of0
  | of1 : (timestamp : Immediate) → Syn

def Syn.mods : Syn → List U16
  | .of0 => []
  | .of1 timestamp => timestamp.mods

/-- Put a pair behind all the pairs of the list whose mask is no larger. -/
def insertPair (key : U16 × U16) : List (U16 × U16) → List (U16 × U16)
  | [] => [key]
  | pair :: pairs => if key.1 < pair.1 then key :: pair :: pairs else pair :: insertPair key pairs

/-- Insertion sort, smallest bit first. -/
def sortPairs (pairs : List (U16 × U16)) : List (U16 × U16) := pairs.foldl (fun sorted key => insertPair key sorted) []

def combined (pairs : List (U16 × U16)) : U16 := pairs.foldl (fun mask pair => mask ||| pair.1) 0

def lmrMods (pairs : List (U16 × U16)) : List U16 := combined (sortPairs pairs) :: (sortPairs pairs).map Prod.snd

/-- The opcodes that share the branch packet. -/
def branches : List Opcode := [.NOP, .BREQ, .BRGT, .BRGE, .BRLT, .BRLE, .BRNE, .BR, .BRF]

inductive BR where
  | of0
  | of1 : (displacementLo : U16) → BR
  | of2 : (displacement : SegmentPair) → BR

def BR.mods : BR → List U16
  | .of0 => []
  | .of1 displacementLo => [displacementLo]
  | .of2 displacement => [displacement.lo, displacement.hi]

inductive CmpMem where
  | of1 : (dev : U16) → CmpMem
  | of2 : (dev offHi : U16) → CmpMem
  | of3 : (dev : U16) → (off : SegmentPair) → CmpMem
  | of4 : (dev : U16) → (off : SegmentPair) → Immediate → CmpMem

def CmpMem.mods : CmpMem → List U16
  | .of1 dev => [dev]
  | .of2 dev offHi => [dev, offHi]
  | .of3 dev off => [dev, off.hi, off.lo]
  | .of4 dev off data => dev :: off.hi :: off.lo :: data.mods

def setMemOp (x : Bool) : Opcode := if x then .SETMEMX else .SETMEM

inductive SetMem where
  | of1 : (access : U16) → SetMem
  | of2 : (access dev : U16) → SetMem
  | of3 : (access dev offHi : U16) → SetMem
  | of4 : (access dev : U16) → (off : SegmentPair) → SetMem
  | of5 : (access dev : U16) → (off : SegmentPair) → Immediate → SetMem

def SetMem.mods : SetMem → List U16
  | .of1 access => [access]
  | .of2 access dev => [access, dev]
  | .of3 access dev offHi => [access, dev, offHi]
  | .of4 access dev off => [access, dev, off.hi, off.lo]
  | .of5 access dev off data => access :: dev :: off.hi :: off.lo :: data.mods

/-- The opcode of a register packet, by what it does with its payload. -/
def setRegOp : Delta → Opcode
  | .Assign => .SETREG
  | .Xor => .SETREGX
  | .Add => .STEPREG

/-- `SetReg<false>`, `SetReg<true>` and `StepReg`, one packet under three opcodes. -/
inductive SetReg where
  | of1 : (access : U16) → SetReg
  | of2 : (access reg : U16) → SetReg
  | of3 : (access reg field : U16) → SetReg
  | of4 : (access reg field : U16) → Immediate → SetReg

def SetReg.mods : SetReg → List U16
  | .of1 access => [access]
  | .of2 access reg => [access, reg]
  | .of3 access reg field => [access, reg, field]
  | .of4 access reg field data => access :: reg :: field :: data.mods

inductive StepMem where
  | of1 : (access : U16) → StepMem
  | of2 : (access dev : U16) → StepMem
  | of3 : (access dev offHi : U16) → StepMem
  | of4 : (access dev : U16) → (off : SegmentPair) → StepMem
  | of5 : (access dev : U16) → (off : SegmentPair) → (order : U16) → StepMem
  | of6 : (access dev : U16) → (off : SegmentPair) → (order : U16) → Immediate → StepMem

def StepMem.mods : StepMem → List U16
  | .of1 access => [access]
  | .of2 access dev => [access, dev]
  | .of3 access dev offHi => [access, dev, offHi]
  | .of4 access dev off => [access, dev, off.hi, off.lo]
  | .of5 access dev off order => [access, dev, off.hi, off.lo, order]
  | .of6 access dev off order data => access :: dev :: off.hi :: off.lo :: order :: data.mods

inductive SetMemDX where
  | of1 : (access : U16) → SetMemDX
  | of2 : (access dev : U16) → SetMemDX

def SetMemDX.mods : SetMemDX → List U16
  | .of1 access => [access]
  | .of2 access dev => [access, dev]

inductive ClrMem where
  | of1 : (dev : U16) → ClrMem
  | of2 : (dev : U16) → (reset : U8) → ClrMem

def ClrMem.mods : ClrMem → List U16
  | .of1 dev => [dev]
  | .of2 dev reset => [dev, reset.setWidth 16]

inductive CmpReg where
  | of1 : (reg : U16) → CmpReg
  | of2 : (reg field : U16) → CmpReg
  | of3 : (reg field : U16) → Immediate → CmpReg

def CmpReg.mods : CmpReg → List U16
  | .of1 reg => [reg]
  | .of2 reg field => [reg, field]
  | .of3 reg field data => reg :: field :: data.mods

inductive ClrReg where
  | of1 : (reg : U16) → ClrReg
  | of2 : (reg field : U16) → ClrReg

def ClrReg.mods : ClrReg → List U16
  | .of1 reg => [reg]
  | .of2 reg field => [reg, field]

inductive LDP where
  | of1 : (dpLo : U16) → LDP
  | of2 : (dpLo ds : U16) → LDP
  | of3 : (dp : SegmentPair) → (ds : U16) → LDP

def LDP.mods : LDP → List U16
  | .of1 dpLo => [dpLo]
  | .of2 dpLo ds => [dpLo, ds]
  | .of3 dp ds => [dp.lo, ds, dp.hi]

/-- A packet before it is encoded. -/
inductive Form where
  | halt : Halt → Form
  | ret
  | invRet
  | call : Call → Form
  | invCall : InvCall → Form
  | aSyn : Syn → Form
  | iSyn : Syn → Form
  | lmr : (clrmod : Bool) → (pairs : List (U16 × U16)) → Form
  | ldr : (mask value : U16) → Form
  | br : (op : {op : Opcode // op ∈ branches}) → BR → Form
  | cmpMem : CmpMem → Form
  | setMem : (x : Bool) → SetMem → Form
  | setReg : (kind : Delta) → SetReg → Form
  | stepMem : StepMem → Form
  | setMemDX : SetMemDX → Form
  | clrMem : ClrMem → Form
  | cmpReg : CmpReg → Form
  | clrReg : ClrReg → Form
  | ldp : LDP → Form
  | accdp : (ds : U16) → Form
  | incdp : (dpIncr ds : U16) → Form
  | mmio : (readWrite : Bool) → (access dev : U16) → Form

namespace Form

def op : Form → Opcode
  | .halt _ => .HALT
  | .ret => .RET
  | .invRet => .INVRET
  | .call _ => .CALL
  | .invCall _ => .INVCALL
  | .aSyn _ => .ASYN
  | .iSyn _ => .ISYN
  | .lmr .. => .LMR
  | .ldr .. => .LMR
  | .br op _ => op
  | .cmpMem _ => .CMPMEM
  | .setMem x _ => setMemOp x
  | .setReg kind _ => setRegOp kind
  | .stepMem _ => .STEPMEM
  | .setMemDX _ => .SETMEMDX
  | .clrMem _ => .CLRMEM
  | .cmpReg _ => .CMPREG
  | .clrReg _ => .CLRREG
  | .ldp _ => .LDP
  | .accdp _ => .ACCDP
  | .incdp .. => .INCDP
  | .mmio .. => Opcode.MMIO

/-- Only loads of registers may keep the modifiers. -/
def clrmod : Form → Bool
  | .lmr clrmod _ => clrmod
  | .ldr .. => false
  | _ => true

/-- The words after the opcode word. -/
def mods : Form → List U16
  | .halt form => form.mods
  | .ret => []
  | .invRet => []
  | .call form => form.mods
  | .invCall form => form.mods
  | .aSyn form => form.mods
  | .iSyn form => form.mods
  | .lmr _ pairs => lmrMods pairs
  | .ldr mask value => [mask, value]
  | .br _ form => form.mods
  | .cmpMem form => form.mods
  | .setMem _ form => form.mods
  | .setReg _ form => form.mods
  | .stepMem form => form.mods
  | .setMemDX form => form.mods
  | .clrMem form => form.mods
  | .cmpReg form => form.mods
  | .clrReg form => form.mods
  | .ldp form => form.mods
  | .accdp ds => [ds]
  | .incdp dpIncr ds => [dpIncr, ds]
  | .mmio readWrite access dev => [access, dev, if readWrite then 1 else 0]

def encode (form : Form) : List U8 := encodeOp form.op form.clrmod form.mods

end Form

end Pepp.Tvm.EncodedOp

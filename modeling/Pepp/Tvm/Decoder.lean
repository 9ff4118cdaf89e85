import Pepp.Tvm.Encoding

/-!
# The decoder

Decoding a packet programs the registers its words supply and resolves every
operand, the supplied and the retained ones alike, before anything executes.
Words go from the last one a packet has to the first.
-/

namespace Pepp.Tvm

open Bts Span

/-- Decoding works on the machine state of its backend. -/
abbrev DecodeM := StateM MachineState

namespace Decoder

variable (mgr : BufferManager)

def read (id : Bts.ID) (offset : U16) : DecodeM U16 := fun s => s.read16 mgr id offset

def modifyRegs (f : Registers → Registers) : DecodeM Unit := modify fun s => { s with regs := f s.regs }

def modifyCsrs (f : Flags → Flags) : DecodeM Unit := modify fun s => { s with csrs := f s.csrs }

/-- `case k:` of a switch on the number of words that falls through, for a register the `k`-th word supplies. -/
def operand (ibp : Bts.ID) (iop : U16) (k : Nat) (assign : U16 → Registers → Registers) : DecodeM Unit := do
  let s ← get
  if k ≤ s.regs.IS.wordLen.toNat then
    let w ← read mgr ibp (iop + BitVec.ofNat 16 (2 * (k - 1)))
    modifyRegs (assign w)

/-- `case k:` for the size word of an immediate payload. Without one the payload is where `DP` and `DS` say. -/
def payload (ibp : Bts.ID) (iop : U16) (k : Nat) : DecodeM (SegmentPair × U16) := do
  let s ← get
  if k ≤ s.regs.IS.wordLen.toNat then
    let size ← read mgr ibp (iop + BitVec.ofNat 16 (2 * (k - 1)))
    modifyRegs fun regs =>
      { regs with
        MOD1 := { regs.MOD1 with lo := size }
        MOD2 := ⟨regs.IP.hi, iop + BitVec.ofNat 16 (2 * k)⟩ }
    modifyCsrs fun csrs => { csrs with M1 := true, M2 := true }
    let s ← get
    return (s.regs.MOD2, size)
  else return (s.regs.DP, s.regs.DS)

def enterTargetMode : DecodeM Unit := modifyCsrs fun csrs => { csrs with TR := false }

def enterRegisterMode : DecodeM Unit := modifyCsrs fun csrs => { csrs with TR := true }

def hardStop (cause : StopCause) : DecodeM Unit := modify fun s => s.hardStop cause

variable (ibp : Bts.ID) (iop : U16)

def decodeHalt : DecodeM DecodedOp := do
  let s ← get
  if s.regs.IS.wordLen = 0 then return .halt .None
  else return .halt (StopCause.ofU16 (← read mgr ibp iop))

def decodeCall : DecodeM DecodedOp := do
  let s ← get
  let wordLen := s.regs.IS.wordLen.toNat
  let hi ← if 2 ≤ wordLen then read mgr ibp (iop + 2) else pure s.regs.IP.hi
  let lo ← if 1 ≤ wordLen then read mgr ibp iop else pure iop
  return .call ⟨hi, lo⟩

/-- Every word of a target the packet leaves out is taken from the fall-through address. -/
def decodeInvCall : DecodeM DecodedOp := do
  let s ← get
  let wordLen := s.regs.IS.wordLen.toNat
  let backwardHi ← if 4 ≤ wordLen then read mgr ibp (iop + 6) else pure s.regs.IP.hi
  let forwardHi ← if 3 ≤ wordLen then read mgr ibp (iop + 4) else pure s.regs.IP.hi
  let backwardLo ← if 2 ≤ wordLen then read mgr ibp (iop + 2) else pure s.regs.IP.lo
  let forwardLo ← if 1 ≤ wordLen then read mgr ibp iop else pure s.regs.IP.lo
  if 1 ≤ wordLen then
    modifyRegs fun regs => { regs with MOD1 := ⟨forwardHi, forwardLo⟩ }
    modifyCsrs fun csrs => { csrs with M1 := true }
  if 2 ≤ wordLen then
    modifyRegs fun regs => { regs with MOD2 := ⟨backwardHi, backwardLo⟩ }
    modifyCsrs fun csrs => { csrs with M2 := true }
  return .invCall ⟨forwardHi, forwardLo⟩ ⟨backwardHi, backwardLo⟩

/-- The operand of a sync packet and how many bytes of it there were, eight at most. -/
def decodeSynData : DecodeM (U64 × Nat) := do
  let s ← get
  let (data, size) ←
    if 1 ≤ s.regs.IS.wordLen.toNat then do
      let w ← read mgr ibp iop
      let size := min w.toNat 8
      modifyRegs fun regs =>
        { regs with MOD1 := { regs.MOD1 with lo := BitVec.ofNat 16 size }, MOD2 := ⟨regs.IP.hi, iop + 2⟩ }
      modifyCsrs fun csrs => { csrs with M1 := true, M2 := true }
      pure ((⟨s.regs.IP.hi, iop + 2⟩ : SegmentPair), size)
    else pure (s.regs.DP, min s.regs.DS.toNat 8)
  match mgr.find data.hi with
  | none =>
    hardStop .InvalidDBuffer
    return (0, size)
  | some dbuff =>
    if SIZE < data.lo.toNat + size then
      hardStop .InvalidDBuffer
      return (0, size)
    else return (BitVec.ofNat 64 (leValue (slice dbuff.bytes data.lo.toNat size)), size)

def decodeASyn : DecodeM DecodedOp := do
  let (timestamp, _) ← decodeSynData mgr ibp iop
  return .aSyn timestamp

def decodeISyn : DecodeM DecodedOp := do
  let (raw, width) ← decodeSynData mgr ibp iop
  return .iSyn (signExtend raw width)

/-- The one packet that leaves its registers to the execute stage. -/
def decodeLmr : DecodeM DecodedOp := do
  let s ← get
  let wordLen := s.regs.IS.wordLen.toNat
  if wordLen = 0 then return .lmr 0 []
  else
    let mask ← read mgr ibp iop
    match mgr.find ibp with
    | none =>
      hardStop .InvalidIBuffer
      return .lmr mask []
    | some buf =>
      if SIZE < iop.toNat + 2 + (wordLen - 1) * 2 then
        hardStop .InvalidIBuffer
        return .lmr mask []
      else return .lmr mask (slice buf.bytes (iop.toNat + 2) ((wordLen - 1) * 2))

def decodeBr (op : Opcode) : DecodeM DecodedOp := do
  let condition := if op = .BRF then ⟨false, false, false, true⟩ else ConditionCode.ofU16 ((op.value &&& 7).setWidth 16)
  modifyRegs fun regs => { regs with MOD1 := { regs.MOD1 with lo := condition.asU16 } }
  modifyCsrs fun csrs => { csrs with M1 := true }
  let s ← get
  if s.regs.IS.wordLen.toNat = 0 then
    let displacement : SegmentPair := if s.csrs.M2 then s.regs.MOD2 else ⟨s.regs.IP.hi, 0⟩
    return .br condition { displacement with hi := if displacement.hi = 0 then s.regs.IP.hi else displacement.hi }
  else
    let hi ← if 2 ≤ s.regs.IS.wordLen.toNat then read mgr ibp (iop + 2) else pure s.regs.IP.hi
    let lo ← read mgr ibp iop
    modifyRegs fun regs => { regs with MOD2 := ⟨hi, lo⟩ }
    modifyCsrs fun csrs => { csrs with M2 := true }
    return .br condition ⟨hi, lo⟩

/-- `SETMEM` and `SETMEMX`, which differ only in the delta they resolve to. -/
def decodeSetmem (kind : Delta) : DecodeM DecodedOp := do
  enterTargetMode
  let (data, size) ← payload mgr ibp iop 5
  operand mgr ibp iop 4 fun w regs => { regs with OFF := { regs.OFF with lo := w } }
  operand mgr ibp iop 3 fun w regs => { regs with OFF := { regs.OFF with hi := w } }
  operand mgr ibp iop 2 fun w regs => { regs with ID := { regs.ID with lo := w } }
  operand mgr ibp iop 1 fun w regs => { regs with ACCESS := w }
  let s ← get
  return .deltaMem ⟨kind, Operation.ofU16 s.regs.ACCESS, loByte s.regs.ID.lo, s.regs.OFF.asU32, data, size,
    .LittleEndian⟩

/-- The offset in front of a payload: two little-endian words, the high one first. -/
def dataOffset (dbuff : Buffer) (lo : U16) : SegmentPair :=
  ⟨bigEndian (dbuff.bytes (lo.toNat + 1)) (dbuff.bytes lo.toNat),
    bigEndian (dbuff.bytes (lo.toNat + 3)) (dbuff.bytes (lo.toNat + 2))⟩

/-- Takes the offset from the payload instead of the packet. -/
def decodeSetmemdx : DecodeM DecodedOp := do
  enterTargetMode
  let s ← get
  let size := s.regs.DS
  operand mgr ibp iop 2 fun w regs => { regs with ID := { regs.ID with lo := w } }
  operand mgr ibp iop 1 fun w regs => { regs with ACCESS := w }
  let s ← get
  let refused : DecodedOp := .deltaMem ⟨.Xor, Operation.ofU16 0, 0, 0, Inhabited.default, size, .LittleEndian⟩
  match mgr.find s.regs.DP.hi with
  | none =>
    hardStop .InvalidDBuffer
    return refused
  | some dbuff =>
    if SIZE < s.regs.DP.lo.toNat + SETMEMDX_ADDRESS_BYTES + size.toNat then
      hardStop .InvalidDBuffer
      return refused
    else
      let off := dataOffset dbuff s.regs.DP.lo
      modifyRegs fun regs => { regs with OFF := off }
      return .deltaMem ⟨.Xor, Operation.ofU16 s.regs.ACCESS, loByte s.regs.ID.lo, off.asU32,
        ⟨s.regs.DP.hi, s.regs.DP.lo + BitVec.ofNat 16 SETMEMDX_ADDRESS_BYTES⟩, size, .LittleEndian⟩

def decodeStepmem : DecodeM DecodedOp := do
  enterTargetMode
  let s ← get
  let wordLen := s.regs.IS.wordLen.toNat
  let (data, size) ←
    if 6 ≤ wordLen then do
      let size ← read mgr ibp (iop + 10)
      modifyRegs fun regs => { regs with MOD1 := { regs.MOD1 with lo := size }, MOD2 := ⟨regs.IP.hi, iop + 12⟩ }
      modifyCsrs fun csrs => { csrs with M2 := true }
      pure ((⟨s.regs.IP.hi, iop + 12⟩ : SegmentPair), size)
    else pure (s.regs.DP, s.regs.DS)
  let order ←
    if 5 ≤ wordLen then do
      let w ← read mgr ibp (iop + 8)
      modifyRegs fun regs => { regs with MOD1 := { regs.MOD1 with hi := w } }
      modifyCsrs fun csrs => { csrs with M1 := true }
      pure (decodeOrder w)
    else pure (if s.csrs.M1 ∧ s.regs.MOD1.hi ≠ 0 then Order.BigEndian else .LittleEndian)
  operand mgr ibp iop 4 fun w regs => { regs with OFF := { regs.OFF with lo := w } }
  operand mgr ibp iop 3 fun w regs => { regs with OFF := { regs.OFF with hi := w } }
  operand mgr ibp iop 2 fun w regs => { regs with ID := { regs.ID with lo := w } }
  operand mgr ibp iop 1 fun w regs => { regs with ACCESS := w }
  let s ← get
  return .deltaMem ⟨.Add, Operation.ofU16 s.regs.ACCESS, loByte s.regs.ID.lo, s.regs.OFF.asU32, data, size, order⟩

def decodeCmpmem : DecodeM DecodedOp := do
  enterTargetMode
  let (data, size) ← payload mgr ibp iop 4
  operand mgr ibp iop 3 fun w regs => { regs with OFF := { regs.OFF with lo := w } }
  operand mgr ibp iop 2 fun w regs => { regs with OFF := { regs.OFF with hi := w } }
  operand mgr ibp iop 1 fun w regs => { regs with ID := { regs.ID with lo := w } }
  let s ← get
  return .cmpMem (loByte s.regs.ID.lo) s.regs.OFF.asU32 data size

def decodeClrmem : DecodeM DecodedOp := do
  enterTargetMode
  let s ← get
  let data ←
    if 2 ≤ s.regs.IS.wordLen.toNat then do
      let w ← read mgr ibp (iop + 2)
      modifyRegs fun regs => { regs with MOD1 := { regs.MOD1 with lo := w } }
      modifyCsrs fun csrs => { csrs with M1 := true }
      pure (loByte w)
    else pure 0
  operand mgr ibp iop 1 fun w regs => { regs with ID := { regs.ID with lo := w } }
  let s ← get
  return .clrMem (loByte s.regs.ID.lo) data

/-- `SETREG`, `SETREGX` and `STEPREG`, which share a packet layout. -/
def decodeDeltareg (kind : Delta) : DecodeM DecodedOp := do
  enterRegisterMode
  let (data, size) ← payload mgr ibp iop 4
  operand mgr ibp iop 3 fun w regs => { regs with ID := { regs.ID with lo := w } }
  operand mgr ibp iop 2 fun w regs => { regs with ID := { regs.ID with hi := w } }
  operand mgr ibp iop 1 fun w regs => { regs with ACCESS := w }
  let s ← get
  return .deltaReg ⟨kind, ⟨s.regs.ID.hi, s.regs.ID.lo⟩, data, size⟩

def decodeCmpreg : DecodeM DecodedOp := do
  enterRegisterMode
  let (data, size) ← payload mgr ibp iop 3
  operand mgr ibp iop 2 fun w regs => { regs with ID := { regs.ID with lo := w } }
  operand mgr ibp iop 1 fun w regs => { regs with ID := { regs.ID with hi := w } }
  let s ← get
  return .cmpReg ⟨s.regs.ID.hi, s.regs.ID.lo⟩ data size

def decodeClrreg : DecodeM DecodedOp := do
  enterRegisterMode
  operand mgr ibp iop 2 fun w regs => { regs with ID := { regs.ID with lo := w } }
  operand mgr ibp iop 1 fun w regs => { regs with ID := { regs.ID with hi := w } }
  let s ← get
  return .clrReg ⟨s.regs.ID.hi, s.regs.ID.lo⟩

def decodeTraddr : DecodeM DecodedOp := do
  enterTargetMode
  operand mgr ibp iop 8 fun w regs => { regs with MOD1 := { regs.MOD1 with hi := w } }
  operand mgr ibp iop 7 fun w regs => { regs with MOD1 := { regs.MOD1 with lo := w } }
  let s ← get
  if 7 ≤ s.regs.IS.wordLen.toNat then modifyCsrs fun csrs => { csrs with M1 := true }
  operand mgr ibp iop 6 fun w regs => { regs with MOD2 := { regs.MOD2 with lo := w } }
  operand mgr ibp iop 5 fun w regs => { regs with MOD2 := { regs.MOD2 with hi := w } }
  if 5 ≤ s.regs.IS.wordLen.toNat then modifyCsrs fun csrs => { csrs with M2 := true }
  operand mgr ibp iop 4 fun w regs => { regs with ID := { regs.ID with hi := w } }
  operand mgr ibp iop 3 fun w regs => { regs with OFF := { regs.OFF with lo := w } }
  operand mgr ibp iop 2 fun w regs => { regs with OFF := { regs.OFF with hi := w } }
  operand mgr ibp iop 1 fun w regs => { regs with ID := { regs.ID with lo := w } }
  let s ← get
  return .traddr (loByte s.regs.ID.lo) (loByte s.regs.ID.hi) s.regs.OFF.asU32 s.regs.MOD2.asU32 s.regs.MOD1.asU32

def decodeLdp : DecodeM DecodedOp := do
  operand mgr ibp iop 3 fun w regs => { regs with DP := { regs.DP with hi := w } }
  operand mgr ibp iop 2 fun w regs => { regs with DS := w }
  operand mgr ibp iop 1 fun w regs => { regs with DP := { regs.DP with lo := w } }
  return .ldp

def decodeAccdp : DecodeM DecodedOp := do
  let s ← get
  let ds ← if 1 ≤ s.regs.IS.wordLen.toNat then read mgr ibp iop else pure s.regs.DS
  return .dpIncr s.regs.DS ds

def decodeIncdp : DecodeM DecodedOp := do
  let s ← get
  let wordLen := s.regs.IS.wordLen.toNat
  let ds ← if 2 ≤ wordLen then read mgr ibp (iop + 2) else pure s.regs.DS
  let incr ← if 1 ≤ wordLen then read mgr ibp iop else pure 0
  return .dpIncr incr ds

def decodeMmio : DecodeM DecodedOp := do
  enterTargetMode
  let s ← get
  let write ←
    if 3 ≤ s.regs.IS.wordLen.toNat then do
      let w ← read mgr ibp (iop + 4)
      modifyRegs fun regs => { regs with MOD1 := { regs.MOD1 with lo := w } }
      modifyCsrs fun csrs => { csrs with M1 := true }
      pure (w != 0)
    else pure false
  operand mgr ibp iop 2 fun w regs => { regs with ID := { regs.ID with lo := w } }
  operand mgr ibp iop 1 fun w regs => { regs with ACCESS := w }
  let s ← get
  let refused : DecodedOp := .mmio write 0 0 (Operation.ofU16 0) 0
  match mgr.find s.regs.DP.hi with
  | none =>
    hardStop .InvalidDBuffer
    return refused
  | some dbuff =>
    if SIZE < s.regs.DP.lo.toNat + MMIO_PROLOGUE_BYTES + 1 then
      hardStop .InvalidDBuffer
      return refused
    else
      let off := dataOffset dbuff s.regs.DP.lo
      modifyRegs fun regs => { regs with OFF := off }
      return .mmio write (dbuff.bytes (s.regs.DP.lo.toNat + MMIO_PROLOGUE_BYTES)) (loByte s.regs.ID.lo)
        (Operation.ofU16 s.regs.ACCESS) off.asU32

/-- Fetch the opcode word, step `IP` past the packet and crack it. No operation comes out of an opcode
nobody knows, which stops the machine. -/
def decode : DecodeM (Option DecodedOp) := do
  let s ← get
  if s.csrs.CLRMOD then
    modifyRegs fun regs => { regs with MOD1 := ⟨0, 0⟩, MOD2 := ⟨0, 0⟩ }
    modifyCsrs fun csrs => { csrs with M1 := false, M2 := false }
  let ibp := s.regs.IP.hi
  let opcode ← read mgr ibp s.regs.IP.lo
  let is := OpWord.ofU16 opcode
  modifyCsrs fun csrs => { csrs with CLRMOD := is.clrmod }
  let iop := 2 + s.regs.IP.lo
  modifyRegs fun regs =>
    { regs with
      IS := is
      IP := { regs.IP with lo := (regs.IP.lo + 2 + is.wordLen.setWidth 16 * 2) &&& 0xFFFE } }
  match Opcode.ofBits? is.ocpode with
  | some .HALT => some <$> decodeHalt mgr ibp iop
  | some .RET => return some .ret
  | some .CALL => some <$> decodeCall mgr ibp iop
  | some .INVCALL => some <$> decodeInvCall mgr ibp iop
  | some .INVRET => return some .invRet
  | some .ASYN => some <$> decodeASyn mgr ibp iop
  | some .ISYN => some <$> decodeISyn mgr ibp iop
  | some .LMR => some <$> decodeLmr mgr ibp iop
  | some .BRF => some <$> decodeBr mgr ibp iop .BRF
  | some .NOP => some <$> decodeBr mgr ibp iop .NOP
  | some .BREQ => some <$> decodeBr mgr ibp iop .BREQ
  | some .BRGT => some <$> decodeBr mgr ibp iop .BRGT
  | some .BRGE => some <$> decodeBr mgr ibp iop .BRGE
  | some .BRLT => some <$> decodeBr mgr ibp iop .BRLT
  | some .BRLE => some <$> decodeBr mgr ibp iop .BRLE
  | some .BRNE => some <$> decodeBr mgr ibp iop .BRNE
  | some .BR => some <$> decodeBr mgr ibp iop .BR
  | some .SETMEM => some <$> decodeSetmem mgr ibp iop .Assign
  | some .SETMEMX => some <$> decodeSetmem mgr ibp iop .Xor
  | some .SETMEMDX => some <$> decodeSetmemdx mgr ibp iop
  | some .STEPMEM => some <$> decodeStepmem mgr ibp iop
  | some .CMPMEM => some <$> decodeCmpmem mgr ibp iop
  | some .CLRMEM => some <$> decodeClrmem mgr ibp iop
  | some .SETREG => some <$> decodeDeltareg mgr ibp iop .Assign
  | some .SETREGX => some <$> decodeDeltareg mgr ibp iop .Xor
  | some .STEPREG => some <$> decodeDeltareg mgr ibp iop .Add
  | some .CMPREG => some <$> decodeCmpreg mgr ibp iop
  | some .CLRREG => some <$> decodeClrreg mgr ibp iop
  | some .TRADDR => some <$> decodeTraddr mgr ibp iop
  | some .LDP => some <$> decodeLdp mgr ibp iop
  | some .ACCDP => some <$> decodeAccdp mgr ibp iop
  | some .INCDP => some <$> decodeIncdp mgr ibp iop
  | some Opcode.MMIO => some <$> decodeMmio mgr ibp iop
  | some .CCB | none =>
    hardStop .IllegalOpcode
    return none

end Decoder

end Pepp.Tvm

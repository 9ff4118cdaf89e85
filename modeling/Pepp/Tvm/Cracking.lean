import Pepp.Tvm.Fetch

/-!
# Cracking a packet

The words that a packet supplies reach their registers and the others stay as
they are, one result for each decoder and all the forms it is handed.
-/

namespace Pepp.Tvm.Decoder

open Bts Span EncodedOp

variable {mgr : BufferManager} {loc : SegmentPair} {iop : U16} {mods : List U16} {s : MachineState} {α : Type}

theorem read_first (h : Fetched mgr loc iop mods s) (hk : 0 < mods.length) (s' : MachineState) (g : U16 → DecodeM α) :
    (read mgr loc.hi iop >>= g) s' = g (mods.getD 0 0) s' := by
  have hread := h.supplies 0 _ (List.getElem?_eq_getElem hk) s'
  rw [Nat.mul_zero, BitVec.add_zero] at hread
  rw [List.getD_eq_getElem?_getD, List.getElem?_eq_getElem hk]
  exact States.bind_eq hread g

theorem read_later (h : Fetched mgr loc iop mods s) {w : U16} (heven : w.toNat % 2 = 0) (hk : w.toNat / 2 < mods.length)
    (s' : MachineState) (g : U16 → DecodeM α) :
    (read mgr loc.hi (iop + w) >>= g) s' = g (mods.getD (w.toNat / 2) 0) s' := by
  have hread := h.supplies (w.toNat / 2) _ (List.getElem?_eq_getElem hk) s'
  rw [show 2 * (w.toNat / 2) = w.toNat by omega, BitVec.ofNat_toNat, BitVec.setWidth_eq] at hread
  rw [List.getD_eq_getElem?_getD, List.getElem?_eq_getElem hk]
  exact States.bind_eq hread g

variable {k : Nat} {s' : MachineState}

theorem operand_supplied (h : Fetched mgr loc iop mods s) (hs : k < s'.regs.IS.wordLen.toNat) (hk : k < mods.length)
    (assign : U16 → Registers → Registers) (g : Unit → DecodeM α) :
    (operand mgr loc.hi iop (k + 1) assign >>= g) s' =
      g ⟨⟩ { s' with regs := assign (mods.getD k 0) s'.regs } := by
  refine States.bind_eq ?_ g
  rw [operand, States.get_bind_apply, if_pos (Nat.succ_le_of_lt hs), List.getD_eq_getElem?_getD,
    List.getElem?_eq_getElem hk]
  exact States.bind_eq (h.supplies k _ (List.getElem?_eq_getElem hk) s') _

theorem operand_omitted (hs : s'.regs.IS.wordLen.toNat ≤ k) (assign : U16 → Registers → Registers)
    (g : Unit → DecodeM α) : (operand mgr loc.hi iop (k + 1) assign >>= g) s' = g ⟨⟩ s' := by
  refine States.bind_eq ?_ g
  rw [operand, States.get_bind_apply, if_neg (by omega)]
  rfl

theorem payload_supplied (h : Fetched mgr loc iop mods s) (hs : k < s'.regs.IS.wordLen.toNat) (hk : k < mods.length)
    (g : SegmentPair × U16 → DecodeM α) :
    (payload mgr loc.hi iop (k + 1) >>= g) s' =
      g (⟨s'.regs.IP.hi, iop + BitVec.ofNat 16 (2 * (k + 1))⟩, mods.getD k 0)
        { s' with
          regs := { s'.regs with
            MOD1.lo := mods.getD k 0
            MOD2 := ⟨s'.regs.IP.hi, iop + BitVec.ofNat 16 (2 * (k + 1))⟩ }
          csrs := { s'.csrs with M1 := true, M2 := true } } := by
  refine States.bind_eq ?_ g
  rw [payload, States.get_bind_apply, if_pos (Nat.succ_le_of_lt hs), List.getD_eq_getElem?_getD,
    List.getElem?_eq_getElem hk]
  exact States.bind_eq (h.supplies k _ (List.getElem?_eq_getElem hk) s') _

theorem payload_omitted (hs : s'.regs.IS.wordLen.toNat ≤ k) (g : SegmentPair × U16 → DecodeM α) :
    (payload mgr loc.hi iop (k + 1) >>= g) s' = g (s'.regs.DP, s'.regs.DS) s' := by
  refine States.bind_eq ?_ g
  rw [payload, States.get_bind_apply, if_neg (by omega)]
  rfl

/-- The words behind the opcode word, as addresses from that word on. -/
theorem behind (h : Fetched mgr loc iop mods s) (w : U16) : iop + w = loc.lo + (w + 2) := by
  rw [h.iop_eq, BitVec.add_comm 2, BitVec.add_assoc, BitVec.add_comm 2]

/-- A packet cracked from `s` comes to an instruction, and to registers that agree with `regs` in their operands. -/
@[mk_iff]
structure Cracked (s : MachineState) (op : DecodedOp) (regs : Registers) (r : DecodedOp × MachineState) : Prop where
  op : r.1 = op
  ip : r.2.regs.IP = s.regs.IP
  operands : operands r.2.regs = operands regs
  live : r.2.csrs.L = s.csrs.L
  clrmod : r.2.csrs.CLRMOD = s.csrs.CLRMOD

theorem decodeHalt_cracked {form : Halt} (h : Fetched mgr loc iop form.mods s) :
    Cracked s (.halt form.cause) s.regs (decodeHalt mgr loc.hi iop s) := by
  have hlen := h.wordLen
  cases form <;> simp only [Halt.mods, List.length_cons, List.length_nil] at h hlen
  case of0 =>
    have hzero : s.regs.IS.wordLen = 0 := BitVec.eq_of_toNat_eq hlen
    simp [-bind_pure_comp, cracked_iff, decodeHalt, States.get_bind_apply, States.pure_apply, hzero, Halt.cause]
  case of1 cause =>
    have hzero : s.regs.IS.wordLen ≠ 0 := fun h => by simp [h] at hlen
    rw [decodeHalt, States.get_bind_apply, if_neg hzero, read_first h Nat.one_pos]
    exact ⟨rfl, rfl, rfl, rfl, rfl⟩

theorem decodeCall_cracked {form : EncodedOp.Call} (h : Fetched mgr loc iop form.mods s) :
    Cracked s (.call (form.nextIp s.regs.IP)) s.regs (decodeCall mgr loc.hi iop s) := by
  have hlen := h.wordLen
  cases form <;> simp only [Call.mods, List.length_cons, List.length_nil] at h hlen <;>
  simp [-bind_pure_comp, cracked_iff, decodeCall, States.get_bind_apply, States.pure_apply, hlen, Call.nextIp,
    read_first h, read_later h]
  rw [h.ip, h.iop_eq]
  simp [SegmentPair.skip, BitVec.add_comm]

theorem decodeInvCall_cracked {form : InvCall} (h : Fetched mgr loc iop form.mods s) :
    Cracked s (.invCall (form.onForward s.regs.IP) (form.onBackward s.regs.IP)) s.regs
      (decodeInvCall mgr loc.hi iop s) := by
  have hlen := h.wordLen
  cases form <;> simp only [InvCall.mods, List.length_cons, List.length_nil] at h hlen <;>
  simp [-bind_pure_comp, cracked_iff, decodeInvCall, modifyRegs, modifyCsrs, States.get_bind_apply,
    States.modify_bind_apply, States.pure_apply, hlen, InvCall.onForward, InvCall.onBackward, read_first h,
    read_later h, EncodedOp.operands]

theorem condition_eq {op : Opcode} (h : op ∈ branches) :
    (if op = .BRF then (⟨false, false, false, true⟩ : ConditionCode)
      else ConditionCode.ofU16 ((op.value &&& 7).setWidth 16)) = conditionOf op := by
  revert op
  decide

theorem decodeBr_cracked {op : Opcode} (hop : op ∈ branches) {form : BR} (h : Fetched mgr loc iop form.mods s) :
    Cracked s (.br (conditionOf op) (form.displacement s s.regs.IP)) s.regs (decodeBr mgr loc.hi iop op s) := by
  have hlen := h.wordLen
  dsimp only [decodeBr]
  rw [condition_eq hop]
  cases form <;> simp only [BR.mods, List.length_cons, List.length_nil] at h hlen <;>
  simp [-bind_pure_comp, cracked_iff, modifyRegs, modifyCsrs, States.get_bind_apply, States.modify_bind_apply,
    States.pure_apply, hlen, BR.displacement, read_first h, read_later h, EncodedOp.operands]

theorem decodeCmpmem_cracked {form : CmpMem} (h : Fetched mgr loc iop form.mods s) :
    Cracked s
      (.cmpMem (loByte (form.program s.regs).ID.lo) (form.program s.regs).OFF.asU32 (located s.regs loc 4 form.data).1
        (located s.regs loc 4 form.data).2)
      (form.program s.regs) (decodeCmpmem mgr loc.hi iop s) := by
  have hlen := h.wordLen
  cases form <;> simp [CmpMem.mods, Immediate.mods] at h hlen <;>
  simp [-bind_pure_comp, cracked_iff, decodeCmpmem, enterTargetMode, modifyCsrs, States.modify_bind_apply,
    States.get_bind_apply, States.pure_apply, payload_omitted, operand_omitted, payload_supplied h,
    operand_supplied h, hlen, h.ip,
    CmpMem.program, CmpMem.data, located, SegmentPair.skip, behind h, EncodedOp.operands]

theorem decodeSetmem_cracked (kind : Delta) {form : SetMem} (h : Fetched mgr loc iop form.mods s) :
    Cracked s
      (.deltaMem ⟨kind, Operation.ofU16 (form.program s.regs).ACCESS, loByte (form.program s.regs).ID.lo,
        (form.program s.regs).OFF.asU32, (located s.regs loc 5 form.data).1, (located s.regs loc 5 form.data).2,
        .LittleEndian⟩)
      (form.program s.regs) (decodeSetmem mgr loc.hi iop kind s) := by
  have hlen := h.wordLen
  cases form <;>
  simp [SetMem.mods, Immediate.mods] at h hlen <;>
  simp [-bind_pure_comp, cracked_iff, decodeSetmem, enterTargetMode, modifyCsrs, States.modify_bind_apply,
    States.get_bind_apply, States.pure_apply, payload_omitted, operand_omitted, payload_supplied h,
    operand_supplied h, hlen, h.ip,
    SetMem.program, SetMem.data, located, SegmentPair.skip, behind h, EncodedOp.operands]

theorem decodeDeltareg_cracked (kind : Delta) {form : SetReg} (h : Fetched mgr loc iop form.mods s) :
    Cracked s
      (.deltaReg ⟨kind, ⟨(form.program s.regs).ID.hi, (form.program s.regs).ID.lo⟩, (located s.regs loc 4 form.data).1,
        (located s.regs loc 4 form.data).2⟩)
      (form.program s.regs) (decodeDeltareg mgr loc.hi iop kind s) := by
  have hlen := h.wordLen
  cases form <;> simp [SetReg.mods, Immediate.mods] at h hlen <;>
  simp [-bind_pure_comp, cracked_iff, decodeDeltareg, enterRegisterMode, modifyCsrs, States.modify_bind_apply,
    States.get_bind_apply, States.pure_apply, payload_omitted, operand_omitted, payload_supplied h,
    operand_supplied h, hlen, h.ip,
    SetReg.program, SetReg.data, located, SegmentPair.skip, behind h, EncodedOp.operands]

theorem retained_order (supplied : Bool) (w : U16) :
    (if supplied = true ∧ ¬w = 0#16 then Order.BigEndian else .LittleEndian) =
      if supplied then decodeOrder w else .LittleEndian := by
  cases supplied with
  | false => rfl
  | true =>
    simp only [decodeOrder, true_and, reduceIte, ite_not]
    rfl

theorem decodeStepmem_cracked {form : StepMem} (h : Fetched mgr loc iop form.mods s) :
    Cracked s
      (.deltaMem ⟨.Add, Operation.ofU16 (form.program s.regs).ACCESS, loByte (form.program s.regs).ID.lo,
        (form.program s.regs).OFF.asU32, (located s.regs loc 6 form.data).1, (located s.regs loc 6 form.data).2,
        form.order s⟩)
      (form.program s.regs) (decodeStepmem mgr loc.hi iop s) := by
  have hlen := h.wordLen
  have hdata := behind h 12
  cases form <;> simp [StepMem.mods, Immediate.mods] at h hlen <;>
  simp [-bind_pure_comp, cracked_iff, decodeStepmem, enterTargetMode, modifyRegs, modifyCsrs, States.modify_bind_apply,
    States.get_bind_apply, States.pure_apply, read_later h, operand_omitted, operand_supplied h, hlen, h.ip,
    StepMem.program, StepMem.data, StepMem.order, located, SegmentPair.skip, retained_order, EncodedOp.operands]
  exact hdata

theorem decodeClrmem_cracked {form : ClrMem} (h : Fetched mgr loc iop form.mods s) :
    Cracked s (.clrMem (loByte (form.program s.regs).ID.lo) form.reset) (form.program s.regs)
      (decodeClrmem mgr loc.hi iop s) := by
  have hlen := h.wordLen
  cases form <;> simp only [ClrMem.mods, List.length_cons, List.length_nil] at h hlen <;>
  simp [-bind_pure_comp, cracked_iff, decodeClrmem, enterTargetMode, modifyRegs, modifyCsrs, States.modify_bind_apply,
    States.get_bind_apply, States.pure_apply, read_later h, operand_supplied h, hlen,
    ClrMem.program, ClrMem.reset, EncodedOp.operands, loByte]

theorem decodeCmpreg_cracked {form : CmpReg} (h : Fetched mgr loc iop form.mods s) :
    Cracked s
      (.cmpReg ⟨(form.program s.regs).ID.hi, (form.program s.regs).ID.lo⟩ (located s.regs loc 3 form.data).1
        (located s.regs loc 3 form.data).2)
      (form.program s.regs) (decodeCmpreg mgr loc.hi iop s) := by
  have hlen := h.wordLen
  cases form <;> simp [CmpReg.mods, Immediate.mods] at h hlen <;>
  simp [-bind_pure_comp, cracked_iff, decodeCmpreg, enterRegisterMode, modifyCsrs, States.modify_bind_apply,
    States.get_bind_apply, States.pure_apply, payload_omitted, operand_omitted, payload_supplied h,
    operand_supplied h, hlen, h.ip,
    CmpReg.program, CmpReg.data, located, SegmentPair.skip, behind h, EncodedOp.operands]

theorem decodeClrreg_cracked {form : ClrReg} (h : Fetched mgr loc iop form.mods s) :
    Cracked s (.clrReg ⟨(form.program s.regs).ID.hi, (form.program s.regs).ID.lo⟩) (form.program s.regs)
      (decodeClrreg mgr loc.hi iop s) := by
  have hlen := h.wordLen
  cases form <;> simp only [ClrReg.mods, List.length_cons, List.length_nil] at h hlen <;>
  simp [-bind_pure_comp, cracked_iff, decodeClrreg, enterRegisterMode, modifyCsrs, States.modify_bind_apply,
    States.get_bind_apply, States.pure_apply, operand_omitted, operand_supplied h, hlen, ClrReg.program,
    EncodedOp.operands]

theorem decodeLdp_cracked {form : LDP} (h : Fetched mgr loc iop form.mods s) :
    Cracked s .ldp (form.program s.regs) (decodeLdp mgr loc.hi iop s) := by
  have hlen := h.wordLen
  cases form <;> simp only [LDP.mods, List.length_cons, List.length_nil] at h hlen <;>
  simp [-bind_pure_comp, cracked_iff, decodeLdp, States.pure_apply, operand_omitted, operand_supplied h, hlen,
    LDP.program,
    EncodedOp.operands]

theorem decodeAccdp_cracked {ds : U16} (h : Fetched mgr loc iop [ds] s) :
    Cracked s (.dpIncr s.regs.DS ds) s.regs (decodeAccdp mgr loc.hi iop s) := by
  have hlen := h.wordLen
  simp only [List.length_cons, List.length_nil] at hlen
  simp [-bind_pure_comp, cracked_iff, decodeAccdp, States.get_bind_apply, States.pure_apply, read_first h, hlen]

theorem decodeIncdp_cracked {dpIncr ds : U16} (h : Fetched mgr loc iop [dpIncr, ds] s) :
    Cracked s (.dpIncr dpIncr ds) s.regs (decodeIncdp mgr loc.hi iop s) := by
  have hlen := h.wordLen
  simp only [List.length_cons, List.length_nil] at hlen
  simp [-bind_pure_comp, cracked_iff, decodeIncdp, States.get_bind_apply, States.pure_apply, read_first h,
    read_later h, hlen]

end Pepp.Tvm.Decoder

/-! ## Operands that are data

Timestamps and the offsets of stencils do not fit the registers, and are read
while cracking: from the packet, or from the data buffer, which stops the
machine where it does not have them. -/

namespace Pepp.Tvm.Decoder

open Bts Span EncodedOp

variable {mgr : BufferManager} {loc : SegmentPair} {iop : U16} {mods : List U16} {s : MachineState} {α : Type}

/-- Cracking stopped the machine for want of data. -/
@[mk_iff]
structure Refused (s : MachineState) (r : DecodedOp × MachineState) : Prop where
  ip : r.2.regs.IP = s.regs.IP
  live : r.2.csrs.L = false
  failed : r.2.csrs.F = true
  cause : r.2.regs.STOP_CAUSE = .InvalidDBuffer

theorem decodeLmr_cracked {op : Opcode} {clrmod : Bool} {mask : U16} {values : List U16}
    (h : Fetched mgr loc iop (mask :: values) s) (hloaded : Loaded mgr loc (encodeOp op clrmod (mask :: values))) :
    Cracked s (.lmr mask (leWords values)) s.regs (decodeLmr mgr loc.hi iop s) := by
  have hlen := h.wordLen
  obtain ⟨buf, hfind, hfits, hslice⟩ := bytesAt_eq_some.mp hloaded
  rw [length_encodeOp, List.length_cons] at hfits hslice
  -- Four bytes of the packet come before the values.
  rw [show 2 * (values.length + 1 + 1) = 4 + values.length * 2 by omega, slice_add] at hslice
  rw [encodeOp] at hslice
  generalize OpWord.asU16 _ = w at hslice
  change _ = [loByte w, hiByte w, loByte mask, hiByte mask] ++ leWords values at hslice
  have hvalues := (List.append_inj hslice (length_slice ..)).2
  have hiop : iop.toNat + 2 = loc.lo.toNat + 4 := by
    simp only [SIZE] at hfits
    rw [h.iop_eq, BitVec.toNat_add]
    change (2 + loc.lo.toNat) % 65536 + 2 = _
    omega
  have hzero : ¬s.regs.IS.wordLen.toNat = 0 := by rw [hlen]; exact Nat.succ_ne_zero _
  have hin : ¬SIZE < iop.toNat + 2 + (s.regs.IS.wordLen.toNat - 1) * 2 := by
    rw [hlen, hiop, List.length_cons]
    omega
  rw [decodeLmr, States.get_bind_apply]
  rw [if_neg hzero, read_first h (Nat.succ_pos _), hfind]
  dsimp only
  rw [if_neg hin, hlen, hiop, List.length_cons, Nat.add_sub_cancel, hvalues]
  exact ⟨rfl, rfl, rfl, rfl, rfl⟩

theorem offsetOf_slice {buf : Buffer} {lo : U16} {size : Nat} (h : 4 ≤ size) :
    offsetOf (slice buf.bytes lo.toNat size) = dataOffset buf lo := by
  obtain ⟨size, rfl⟩ := Nat.exists_eq_add_of_le' h
  simp only [slice_succ, offsetOf, dataOffset, Nat.add_assoc, Nat.reduceAdd]

variable {bytes : List U8} {form : Syn}

theorem decodeSetmemdx_cracked {form : SetMemDX} (h : Fetched mgr loc iop form.mods s)
    (hdata : bytesAt mgr s.regs.DP (SETMEMDX_ADDRESS_BYTES + s.regs.DS.toNat) = some bytes) :
    Cracked s
      (.deltaMem ⟨.Xor, Operation.ofU16 (form.program s.regs).ACCESS, loByte (form.program s.regs).ID.lo,
        (offsetOf bytes).asU32, s.regs.DP.skip SETMEMDX_ADDRESS_BYTES, s.regs.DS, .LittleEndian⟩)
      { form.program s.regs with OFF := offsetOf bytes } (decodeSetmemdx mgr loc.hi iop s) := by
  have hlen := h.wordLen
  obtain ⟨buf, hfind, hin, rfl⟩ := bytesAt_eq_some.mp hdata
  have hin' : ¬SIZE < s.regs.DP.lo.toNat + SETMEMDX_ADDRESS_BYTES + s.regs.DS.toNat := by omega
  have hoff := @offsetOf_slice buf s.regs.DP.lo (SETMEMDX_ADDRESS_BYTES + s.regs.DS.toNat) (Nat.le_add_right ..)
  cases form <;> simp only [SetMemDX.mods, List.length_cons, List.length_nil] at h hlen <;>
  simp [-bind_pure_comp, cracked_iff, decodeSetmemdx, enterTargetMode, modifyRegs, modifyCsrs, States.modify_bind_apply,
    States.get_bind_apply, States.pure_apply, operand_omitted, operand_supplied h, hlen, hfind, hin', hoff,
    SetMemDX.program, SegmentPair.skip, EncodedOp.operands]

theorem bytesAt_eq_none {data : SegmentPair} {size : Nat} (h : bytesAt mgr data size = none) :
    mgr.find data.hi = none ∨ ∃ buf, mgr.find data.hi = some buf ∧ SIZE < data.lo.toNat + size := by
  cases hfind : mgr.find data.hi with
  | none => exact .inl rfl
  | some buf =>
    rw [bytesAt, hfind, Option.bind_some] at h
    exact .inr ⟨buf, rfl, by by_contra hfits; rw [if_pos (by omega)] at h; cases h⟩

theorem decodeSetmemdx_refused {form : SetMemDX} (h : Fetched mgr loc iop form.mods s)
    (hdata : bytesAt mgr s.regs.DP (SETMEMDX_ADDRESS_BYTES + s.regs.DS.toNat) = none) :
    Refused s (decodeSetmemdx mgr loc.hi iop s) := by
  have hlen := h.wordLen
  obtain hfind | ⟨buf, hfind, hin⟩ := bytesAt_eq_none hdata
  · cases form <;> simp only [SetMemDX.mods, List.length_cons, List.length_nil] at h hlen <;>
    simp [-bind_pure_comp, refused_iff, decodeSetmemdx, enterTargetMode, modifyCsrs, hardStop, MachineState.hardStop,
      States.modify_bind_apply, States.get_bind_apply, States.pure_apply, operand_omitted, operand_supplied h, hlen,
      hfind]
  · have hin' : SIZE < s.regs.DP.lo.toNat + SETMEMDX_ADDRESS_BYTES + s.regs.DS.toNat := by omega
    cases form <;> simp only [SetMemDX.mods, List.length_cons, List.length_nil] at h hlen <;>
    simp [-bind_pure_comp, refused_iff, decodeSetmemdx, enterTargetMode, modifyCsrs, hardStop, MachineState.hardStop,
      States.modify_bind_apply, States.get_bind_apply, States.pure_apply, operand_omitted, operand_supplied h, hlen,
      hfind, hin']

theorem decodeMmio_cracked {readWrite : Bool} {access dev : U16}
    (h : Fetched mgr loc iop [access, dev, if readWrite then 1 else 0] s)
    (hdata : bytesAt mgr s.regs.DP (MMIO_PROLOGUE_BYTES + 1) = some bytes) :
    Cracked s
      (.mmio readWrite (bytes.getD MMIO_PROLOGUE_BYTES 0) (loByte dev) (Operation.ofU16 access) (offsetOf bytes).asU32)
      { s.regs with ACCESS := access, ID.lo := dev, OFF := offsetOf bytes } (decodeMmio mgr loc.hi iop s) := by
  have hlen := h.wordLen
  obtain ⟨buf, hfind, hin, rfl⟩ := bytesAt_eq_some.mp hdata
  have hin' : ¬SIZE ≤ s.regs.DP.lo.toNat + MMIO_PROLOGUE_BYTES := by omega
  have hoff := @offsetOf_slice buf s.regs.DP.lo (MMIO_PROLOGUE_BYTES + 1) (Nat.le_add_right ..)
  have hlast : (slice buf.bytes s.regs.DP.lo.toNat (MMIO_PROLOGUE_BYTES + 1)).getD MMIO_PROLOGUE_BYTES 0 =
      buf.bytes (s.regs.DP.lo.toNat + MMIO_PROLOGUE_BYTES) := by
    rw [List.getD_eq_getElem?_getD, List.getElem?_eq_getElem (by rw [length_slice]; exact Nat.lt_succ_self _),
      getElem_slice, Option.getD_some]
  rw [hoff, hlast]
  simp only [List.length_cons, List.length_nil] at hlen
  cases readWrite <;>
  simp [-bind_pure_comp, cracked_iff, decodeMmio, enterTargetMode, modifyRegs, modifyCsrs, States.modify_bind_apply,
    States.get_bind_apply, States.pure_apply, read_later h, operand_supplied h, hlen, hfind, Nat.lt_add_one_iff, hin',
    EncodedOp.operands]

theorem decodeMmio_refused {readWrite : Bool} {access dev : U16}
    (h : Fetched mgr loc iop [access, dev, if readWrite then 1 else 0] s)
    (hdata : bytesAt mgr s.regs.DP (MMIO_PROLOGUE_BYTES + 1) = none) : Refused s (decodeMmio mgr loc.hi iop s) := by
  have hlen := h.wordLen
  simp only [List.length_cons, List.length_nil] at hlen
  obtain hfind | ⟨buf, hfind, hin⟩ := bytesAt_eq_none hdata
  · simp [-bind_pure_comp, refused_iff, decodeMmio, enterTargetMode, modifyRegs, modifyCsrs, hardStop,
      MachineState.hardStop, States.modify_bind_apply, States.get_bind_apply, States.pure_apply, read_later h,
      operand_supplied h, hlen, hfind]
  · have hin' : SIZE ≤ s.regs.DP.lo.toNat + MMIO_PROLOGUE_BYTES := by omega
    simp [-bind_pure_comp, refused_iff, decodeMmio, enterTargetMode, modifyRegs, modifyCsrs, hardStop,
      MachineState.hardStop, States.modify_bind_apply, States.get_bind_apply, States.pure_apply, read_later h,
      operand_supplied h, hlen, hfind, Nat.lt_add_one_iff, hin']

theorem bytesAt_prefix {data : SegmentPair} {size n : Nat} (h : bytesAt mgr data size = some bytes) (hn : n ≤ size) :
    bytesAt mgr data n = some (bytes.take n) := by
  have hpart := bytesAt_skip (k := 0) h (by omega : 0 + n ≤ size)
  rwa [SegmentPair.skip, BitVec.add_zero, List.drop_zero] at hpart

section

variable {bytes : List U8} {form : Syn} (h : Fetched mgr loc iop form.mods s)
  (himmediate : ∀ timestamp, form = .of1 timestamp → bytesAt mgr (loc.skip 4) timestamp.size.toNat = some timestamp.octets)
  (hdata : form.timestamp mgr s.regs = some bytes)
include h himmediate hdata

theorem decodeSynData_cracked :
    ∃ s', decodeSynData mgr loc.hi iop s = ((BitVec.ofNat 64 (leValue bytes), bytes.length), s') ∧
      s'.regs.IP = s.regs.IP ∧ operands s'.regs = operands s.regs ∧ s'.csrs.L = s.csrs.L ∧
      s'.csrs.CLRMOD = s.csrs.CLRMOD := by
  have hlen := h.wordLen
  cases form with
  | of0 =>
    simp only [Syn.mods, List.length_nil] at h hlen
    obtain ⟨buf, hfind, hin, rfl⟩ := bytesAt_eq_some.mp hdata
    have hin' : ¬SIZE < s.regs.DP.lo.toNat + min s.regs.DS.toNat 8 := by omega
    refine ⟨s, ?_, rfl, rfl, rfl, rfl⟩
    simp [-bind_pure_comp, decodeSynData, States.get_bind_apply, States.pure_apply, hlen, hfind, hin']
  | of1 timestamp =>
    simp only [Syn.mods, Immediate.mods, List.length_cons] at h hlen
    cases hdata
    have hsize := length_of_bytesAt (himmediate timestamp rfl)
    have hpart := bytesAt_prefix (himmediate timestamp rfl) (Nat.min_le_right 8 _)
    rw [← hsize, ← List.take_eq_take_min, Nat.min_comm, hsize] at hpart
    obtain ⟨buf, hfind, hin, hslice⟩ := bytesAt_eq_some.mp hpart
    rw [show (loc.skip 4).lo = iop + 2#16 from (behind h 2).symm] at hin hslice
    have hfind' : mgr.find loc.hi = some buf := hfind
    have hin' : ¬SIZE < (iop + 2#16).toNat + min timestamp.size.toNat 8 := by omega
    rw [List.length_take, hsize, Nat.min_comm 8]
    refine ⟨{ s with
      regs := { s.regs with
        MOD1.lo := BitVec.ofNat 16 (min timestamp.size.toNat 8)
        MOD2 := ⟨loc.hi, iop + 2#16⟩ }
      csrs := { s.csrs with M1 := true, M2 := true } }, ?_, rfl, rfl, rfl, rfl⟩
    simp [-bind_pure_comp, -BitVec.toNat_add, decodeSynData, modifyRegs, modifyCsrs, States.get_bind_apply,
      States.modify_bind_apply, States.pure_apply, read_first h, hlen, h.ip, SegmentPair.skip, hfind', hin', hslice]

theorem decodeASyn_cracked :
    Cracked s (.aSyn (BitVec.ofNat 64 (leValue bytes))) s.regs (decodeASyn mgr loc.hi iop s) := by
  obtain ⟨s', hs', hip, hops, hlive, hclrmod⟩ := decodeSynData_cracked h himmediate hdata
  rw [decodeASyn, States.bind_eq hs']
  exact ⟨rfl, hip, hops, hlive, hclrmod⟩

theorem decodeISyn_cracked :
    Cracked s (.iSyn (signExtend (BitVec.ofNat 64 (leValue bytes)) bytes.length)) s.regs
      (decodeISyn mgr loc.hi iop s) := by
  obtain ⟨s', hs', hip, hops, hlive, hclrmod⟩ := decodeSynData_cracked h himmediate hdata
  rw [decodeISyn, States.bind_eq hs']
  exact ⟨rfl, hip, hops, hlive, hclrmod⟩

end

section

variable (h : Fetched mgr loc iop form.mods s) (hdata : form.timestamp mgr s.regs = none)
include h hdata

theorem decodeSynData_refused : ∃ size, decodeSynData mgr loc.hi iop s = ((0, size), s.hardStop .InvalidDBuffer) := by
  have hlen := h.wordLen
  cases form with
  | of0 =>
    simp only [Syn.mods, List.length_nil] at h hlen
    refine ⟨min s.regs.DS.toNat 8, ?_⟩
    obtain hfind | ⟨buf, hfind, hin⟩ := bytesAt_eq_none hdata
    · simp [-bind_pure_comp, decodeSynData, hardStop, States.get_bind_apply, States.modify_bind_apply,
        States.pure_apply, hlen, hfind]
    · simp [-bind_pure_comp, decodeSynData, hardStop, States.get_bind_apply, States.modify_bind_apply,
        States.pure_apply, hlen, hfind, hin]
  | of1 timestamp => cases hdata

theorem decodeASyn_refused : Refused s (decodeASyn mgr loc.hi iop s) := by
  obtain ⟨size, hs'⟩ := decodeSynData_refused h hdata
  rw [decodeASyn, States.bind_eq hs']
  exact ⟨rfl, rfl, rfl, rfl⟩

theorem decodeISyn_refused : Refused s (decodeISyn mgr loc.hi iop s) := by
  obtain ⟨size, hs'⟩ := decodeSynData_refused h hdata
  rw [decodeISyn, States.bind_eq hs']
  exact ⟨rfl, rfl, rfl, rfl⟩

end

end Pepp.Tvm.Decoder

import Pepp.Tvm.Interpreter
import Pepp.Tvm.Recorder
import Pepp.Tvm.RoundTrip

/-!
# Stepping the data pointer

One step of the machine over a packet that moves the data pointer, and over a
packet that leaves it where it is.
-/

namespace Pepp.Tvm

open Bts EncodedOp

namespace Interpreter

variable {σ : Type} {ops : TargetOps σ} {mgr : BufferManager} {self : Interpreter σ}

theorem operands_cleared (s : MachineState) : operands s.cleared.regs = operands s.regs := by
  rw [MachineState.cleared]
  split <;> rfl

/-- A live machine dispatches what its packet says. -/
theorem step_form {form : Form} {op : DecodedOp} (hlive : self.state.csrs.L = true)
    (h : Loaded mgr self.state.regs.IP form.encode) (heven : self.state.regs.IP.lo.getLsbD 0 = false)
    (hlen : form.mods.length ≤ 255)
    (hop : form.meaning mgr self.state.cleared self.state.regs.IP (self.state.regs.IP.skip form.encode.length) =
      some op) :
    ∃ s, step ops mgr self = dispatch ops { self with state := s } op ∧
      operands s.regs = operands (form.program mgr self.state.cleared.regs) ∧ s.csrs.L = true := by
  obtain ⟨r, hr, hcomes⟩ := Decoder.decode_form h heven hlen
  rw [hop] at hcomes
  have hl : r.2.csrs.L = true := (hcomes.live.trans (Decoder.cleared_live self.state)).trans hlive
  refine ⟨r.2, ?_, hcomes.operands, hl⟩
  rw [step, decoded, hr]
  dsimp only
  rw [if_pos hl, ← hcomes.op]

/-- The replay's trace buffer stays what it is. -/
theorem tb_dispatch (op : DecodedOp) : (dispatch ops self op).backend.tb = self.backend.tb := by
  cases op with
  | invRet =>
    change (self.backend.onInvRet self.state).1.tb = _
    unfold Backend.onInvRet
    split <;> rfl
  | _ => rfl

theorem tb_step : (step ops mgr self).backend.tb = self.backend.tb := by
  rw [step]
  obtain ⟨op, s⟩ := decoded mgr self
  cases op with
  | none => rfl
  | some op => exact tb_dispatch op

/-- The next slot is ahead by a signed word, as far as the step to it is made by adding under a trace buffer. -/
def WithinReach (tb : Option DataLinks) (anchor : DpAnchor) (slot : Location) : Prop :=
  tb = none ∨ anchor.set = false ∨ anchor.at_.id ≠ slot.id ∨
    (-32768 ≤ (slot.offset.toNat : Int) - anchor.at_.offset.toNat ∧
      (slot.offset.toNat : Int) - anchor.at_.offset.toNat < 32768)

theorem onDpIncr_reaches {b : Backend} {s : MachineState} {anchor : DpAnchor} {slot : Location} {incr ds : U16}
    (hdp : s.regs.DP = ⟨anchor.at_.id, anchor.at_.offset⟩) (hid : anchor.at_.id = slot.id) (hset : anchor.set = true)
    (hincr : incr = slot.offset - anchor.at_.offset) (hreach : WithinReach b.tb anchor slot) :
    (b.onDpIncr incr ds s).regs.DP = ⟨slot.id, slot.offset⟩ ∧ (b.onDpIncr incr ds s).regs.DS = ds := by
  have hadd : anchor.at_.offset + incr = slot.offset := by
    rw [hincr, BitVec.add_comm, BitVec.sub_add_cancel]
  unfold Backend.onDpIncr
  cases htb : b.tb with
  | none =>
    refine ⟨?_, rfl⟩
    change SegmentPair.mk s.regs.DP.hi (s.regs.DP.lo + incr) = _
    rw [hdp, ← hid, ← hadd]
  | some tb =>
    obtain ⟨hlow, hhigh⟩ : -32768 ≤ (slot.offset.toNat : Int) - anchor.at_.offset.toNat ∧
        (slot.offset.toNat : Int) - anchor.at_.offset.toNat < 32768 := by
      rcases hreach with h | h | h | h
      · rw [htb] at h
        cases h
      · rw [hset] at h
        cases h
      · exact absurd hid h
      · exact h
    have hslot := slot.offset.isLt
    have hat := anchor.at_.offset.isLt
    have hint : incr.toInt = (slot.offset.toNat : Int) - anchor.at_.offset.toNat := by
      rw [hincr, BitVec.toInt_sub, BitVec.toInt_eq_toNat_bmod, BitVec.toInt_eq_toNat_bmod, Int.bmod_def, Int.bmod_def,
        Int.bmod_def]
      omega
    have hnew : (s.regs.DP.lo.toNat : Int) + incr.toInt = slot.offset.toNat := by
      rw [show s.regs.DP.lo = anchor.at_.offset by rw [hdp], hint]
      omega
    dsimp only
    rw [hnew, if_neg (by simp only [SIZE]; omega), if_neg (by omega)]
    refine ⟨?_, rfl⟩
    change SegmentPair.mk s.regs.DP.hi (BitVec.ofInt 16 slot.offset.toNat) = _
    rw [hdp, ← hid, BitVec.ofInt_natCast, BitVec.ofNat_toNat, BitVec.setWidth_eq]

theorem onLmr_ds (w : U16) (s : MachineState) :
    Backend.onLmr RegMask.DS.value (leBytes w) s = { s with regs := { s.regs with DS := w } } := by
  have hregs : (RegMask.all.filter fun r => RegMask.DS.value.getLsbD r.bit) = [.DS] := by decide
  rw [Backend.onLmr, hregs]
  simp [leBytes, Backend.loadMasked]

/-- Wherever the last payload left the data pointer, the update moves it to the next one. -/
theorem step_dpUpdate {anchor : DpAnchor} {slot : Location} {len : U16} (hlive : self.state.csrs.L = true)
    (h : Loaded mgr self.state.regs.IP (Recorder.dpUpdate anchor slot len))
    (heven : self.state.regs.IP.lo.getLsbD 0 = false)
    (hset : anchor.set = true →
      self.state.regs.DP = ⟨anchor.at_.id, anchor.at_.offset⟩ ∧ self.state.regs.DS = anchor.size)
    (hunset : anchor.set = false → self.state.regs.DP = ⟨slot.id, slot.offset⟩)
    (hreach : WithinReach self.backend.tb anchor slot) :
    (step ops mgr self).state.regs.DP = ⟨slot.id, slot.offset⟩ ∧ (step ops mgr self).state.regs.DS = len := by
  have hcleared := operands_cleared self.state
  unfold Recorder.dpUpdate at h
  cases hs : anchor.set with
  | false =>
    rw [hs, Bool.not_false, if_pos rfl] at h
    obtain ⟨s, hstep, hops, -⟩ := @step_form _ ops _ _ (.ldr RegMask.DS.value len) _ hlive h heven
      (Nat.le_add_left 2 253) rfl
    have hdp : s.regs.DP = self.state.regs.DP := congrArg Operands.DP (hops.trans hcleared)
    rw [hstep]
    change (Backend.onLmr _ _ s).regs.DP = _ ∧ (Backend.onLmr _ _ s).regs.DS = _
    rw [onLmr_ds]
    exact ⟨hdp.trans (hunset hs), rfl⟩
  | true =>
    obtain ⟨hdp, hds⟩ := hset hs
    rw [hs, Bool.not_true, if_neg Bool.false_ne_true] at h
    by_cases hid : anchor.at_.id = slot.id
    · rw [if_neg (not_not.mpr hid)] at h
      split at h
      case isTrue hacc =>
        obtain ⟨s, hstep, hops, -⟩ := @step_form _ ops _ _ (.accdp len) _ hlive h heven
          (Nat.le_add_left 1 254) rfl
        have hdp' : s.regs.DP = self.state.regs.DP := congrArg Operands.DP (hops.trans hcleared)
        have hcds : self.state.cleared.regs.DS = self.state.regs.DS := congrArg Operands.DS hcleared
        rw [hstep]
        refine onDpIncr_reaches (hdp'.trans hdp) hid hs ?_ hreach
        rw [hacc.2, hacc.1]
        change self.state.cleared.regs.DS = _
        rw [hcds, hds, BitVec.add_comm, BitVec.add_sub_cancel]
      case isFalse =>
        obtain ⟨s, hstep, hops, -⟩ := @step_form _ ops _ _ (.incdp (slot.offset - anchor.at_.offset) len) _ hlive
          h heven (Nat.le_add_left 2 253) rfl
        have hdp' : s.regs.DP = self.state.regs.DP := congrArg Operands.DP (hops.trans hcleared)
        rw [hstep]
        exact onDpIncr_reaches (hdp'.trans hdp) hid hs rfl hreach
    · rw [if_pos hid] at h
      obtain ⟨s, hstep, hops, -⟩ := @step_form _ ops _ _ (.ldp (.of3 ⟨slot.id, slot.offset⟩ len)) _ hlive h heven
        (Nat.le_add_left 3 252) rfl
      rw [hstep]
      exact ⟨congrArg Operands.DP hops, congrArg Operands.DS hops⟩

end Interpreter

/-- Where the machine takes payloads from. -/
def MachineState.pointer (self : MachineState) : SegmentPair × U16 := (self.regs.DP, self.regs.DS)

namespace Interpreter

variable {σ : Type} {ops : TargetOps σ} {mgr : BufferManager} {self : Interpreter σ}

end Interpreter

end Pepp.Tvm

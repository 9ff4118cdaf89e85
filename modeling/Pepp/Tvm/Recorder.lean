import Pepp.Lib.Endian
import Pepp.Tvm.Emission

/-!
# The recorder of a device

A device reports a write before it makes it. When the write is to be recorded,
the exclusive or of what was there and what comes goes to the data chain, the
data pointer is stepped to it, and a packet names the target.
-/

namespace Pepp.Tvm

open Bts Outcome

namespace TraceBuffer

/-- Room in the data chain of the initiator. What lies there is left as it was. -/
def appendDataUninitialized (initiator : U8) (len : Nat) : TraceM Location := do
  let self ← get
  match self.findRecording initiator with
  | none => throw (.assertion "append_data_uninitialized() outside a begin()/commit() pair")
  | some recording =>
    let loc ← onChain (.data (self.index recording.slot) recording.id) (BufferChain.reserve len)
    let self ← get
    let self := { self with footprint := { self.footprint with data := self.footprint.data + len } }
    set (if recording.dataStart.id = 0 then self.setRecording initiator { recording with dataStart := loc } else self)
    return loc

/-- Write the bytes of a slot that was handed out. -/
def fillData (initiator : U8) (loc : Location) (bytes : List U8) : TraceM Unit := do
  let self ← get
  match self.findRecording initiator with
  | none => pure ()
  | some recording =>
    onChain (.data (self.index recording.slot) recording.id) (BufferChain.fill loc bytes)

end TraceBuffer

/-- `bound` says that there is a trace buffer. It keeps the flags of the device: whether it is traced, and
whether the addresses of its writes go with the payload. -/
structure Recorder where
  bound : Bool
  emitter : U8
  tracing : Bool
  addressInPayload : Bool
  deriving DecidableEq, Repr

namespace Recorder

open TraceBuffer

variable (self : Recorder)

def traced : Bool := self.bound && self.tracing

/-- Target and device of a packet are words. -/
def dev : U16 := self.emitter.setWidth 16

/-- The offset in front of a payload: high half, then low half. -/
def addressBytes (address : Address) : List U8 :=
  leWords [BitVec.ofNat 16 (address.toNat / 2 ^ 16), BitVec.ofNat 16 address.toNat]

def segment (address : Address) : SegmentPair :=
  ⟨BitVec.ofNat 16 (address.toNat / 2 ^ 16), BitVec.ofNat 16 address.toNat⟩

/-- The cheapest packet that moves the data pointer of the record to a slot. -/
def dpUpdate (anchor : DpAnchor) (slot : Location) (len : U16) : List U8 :=
  if !anchor.set then EncodedOp.ldr .DS len
  else if anchor.at_.id ≠ slot.id then EncodedOp.ldp3 ⟨slot.id, slot.offset⟩ len
  else if anchor.stride = anchor.size ∧ slot.offset = anchor.at_.offset + anchor.stride then EncodedOp.accdp len
  else EncodedOp.incdp (slot.offset - anchor.at_.offset) len

def emitDpUpdate (slot : Location) (initiator : U8) (len prologue : U16) : TraceM Unit := do
  let tb ← get
  match tb.findRecording initiator with
  | none => pure ()
  | some recording =>
    emitBody initiator (dpUpdate recording.dp slot len)
    setDpAnchor initiator slot len (prologue + len)

/-- A payload behind its prologue, the step to it and the packet that uses it. -/
def emitPayload (initiator : U8) (prologue payload packet : List U8) : TraceM Unit := do
  let slot ← appendDataUninitialized initiator (prologue.length + payload.length)
  fillData initiator slot (prologue ++ payload)
  emitDpUpdate slot initiator (BitVec.ofNat 16 payload.length) (BitVec.ofNat 16 prologue.length)
  emitBody initiator packet

/-- Whether an access of the initiator is recorded: an open recording takes it. -/
def records (tb : TraceBuffer) (op : Operation) : Prop :=
  self.traced ∧ op.type ≠ .BufferInternal ∧ tb.isRecording op.initiator

instance (tb : TraceBuffer) (op : Operation) : Decidable (self.records tb op) := inferInstanceAs (Decidable (_ ∧ _))

/-- Record a write. `fillPrior` gives as many bytes as the slot has, those that the write is about to replace. -/
def emitWrite (op : Operation) (address : Address) (now : List U8) (fillPrior : Nat → List U8) : TraceM Unit := do
  if now.length = 0 then return
  else if !self.traced then return
  else if op.type = .BufferInternal then return
  else
    let tb ← get
    if !tb.isRecording op.initiator then return
    else
      let payload := List.zipWith (· ^^^ ·) (fillPrior now.length) now
      if self.addressInPayload then
        emitPayload op.initiator (addressBytes address) payload (EncodedOp.setMemDX2 op.asU16 self.dev)
      else
        emitPayload op.initiator [] payload (EncodedOp.setMemX4 op.asU16 self.dev (segment address))

/-- The same for bytes that lie in one piece. The shorter span counts. -/
def emitWriteFlat (op : Operation) (address : Address) (prior now : List U8) : TraceM Unit :=
  if !self.traced then pure ()
  else
    let len := min prior.length now.length
    self.emitWrite op address (now.take len) fun n => (prior.take len).take n

/-- The bytes of a number in the order of the target. -/
def inOrder (order : Order) (bytes : List U8) : List U8 :=
  match order with
  | .LittleEndian => bytes
  | .BigEndian => bytes.reverse

/-- Record a write as the difference it makes, with the operands in the packet. Only these widths have that form. -/
def emitWriteIncrement (op : Operation) (address : Address) (prior now : List U8) (order : Order) : TraceM Unit := do
  if now.length = 0 then return
  else if !self.traced then return
  else if op.type = .BufferInternal then return
  else if now.length ≠ 1 ∧ now.length ≠ 2 ∧ now.length ≠ 4 ∧ now.length ≠ 8 then
    self.emitWriteFlat op address prior now
  else
    let tb ← get
    if !tb.isRecording op.initiator then return
    else
      let before : U64 := BitVec.ofNat 64 (leValue (inOrder order prior))
      let after : U64 := BitVec.ofNat 64 (leValue (inOrder order now))
      let delta := Endian.leBytes now.length (after - before).toNat
      emitBody op.initiator (EncodedOp.stepMem6 op.asU16 self.dev (segment address) (encodeOrder order) delta)

end Recorder

namespace TraceBuffer

variable {self : TraceBuffer} {d : U8} {recording : Recording}

/-- The chain and its manager with the bytes of a reservation written. -/
def filled (s : BufferManager × BufferChain) (loc : Location) (bytes : List U8) : BufferManager × BufferChain :=
  (s.1.setBuffer loc.id { s.1.deref loc.id with
    bytes := Span.overwrite (s.1.deref loc.id).bytes loc.offset.toNat bytes }, s.2)

theorem append_apply (bytes : List U8) (s : BufferManager × BufferChain) :
    BufferChain.append bytes s = match BufferChain.reserve bytes.length s with
      | .ok loc s' => .ok loc (filled s' loc bytes)
      | .error e s' => .error e s' := by
  rw [← BufferChain.reserve_fill]
  cases hr : BufferChain.reserve bytes.length s with
  | ok loc s' =>
    rw [bind_apply_ok hr]
    rfl
  | error e s' => rw [bind_apply_error hr]

/-- The buffer behind an append of `len` bytes that left the recording's chain as `s`. -/
def appendedAt (self : TraceBuffer) (d : U8) (recording : Recording) (len : Nat) (loc : Location)
    (s : BufferManager × BufferChain) : TraceBuffer :=
  let t := { self with mgr := s.1 }.setChain (.data (self.index recording.slot) recording.id) s.2
  let t := { t with footprint := { t.footprint with data := t.footprint.data + len } }
  if recording.dataStart.id = 0 then t.setRecording d { recording with dataStart := loc } else t

theorem findRecording_appendedAt (hf : self.findRecording d = some recording) (len : Nat) (loc : Location)
    (s : BufferManager × BufferChain) :
    (self.appendedAt d recording len loc s).findRecording d = some (Recording.appended recording loc) := by
  have hr := findRecording_eq_some.mp hf
  unfold appendedAt Recording.appended
  split
  · rw [findRecording_setRecording, if_pos rfl, if_pos hr.2]
  · rw [← hf]
    exact findRecording_congr recordings_setChain

/-- An operation of the chain behind the append comes to the same as one in its place. -/
theorem setChain_appendedAt (len : Nat) (loc : Location) (s s' : BufferManager × BufferChain) :
    ({ self.appendedAt d recording len loc s with mgr := s'.1 }.setChain
      (.data (self.index recording.slot) recording.id) s'.2) = self.appendedAt d recording len loc s' := by
  have hchain : { { self with mgr := s.1 }.setChain (.data (self.index recording.slot) recording.id) s.2 with
      mgr := s'.1 }.setChain (.data (self.index recording.slot) recording.id) s'.2 =
      { self with mgr := s'.1 }.setChain (.data (self.index recording.slot) recording.id) s'.2 := setChain_setChain
  let counted : TraceBuffer → TraceBuffer := fun t =>
    { t with footprint := { self.footprint with data := self.footprint.data + len } }
  unfold appendedAt
  split
  · exact congrArg (fun t => (counted t).setRecording d { recording with dataStart := loc }) hchain
  · exact congrArg counted hchain

theorem dataChain_appendedAt (len : Nat) (loc : Location) (s : BufferManager × BufferChain) :
    ((self.appendedAt d recording len loc s).mgr,
      (self.appendedAt d recording len loc s).chain (.data (self.index recording.slot) recording.id)) = s := by
  unfold appendedAt
  split <;> simp [chain, setChain, setNode, setRecording]

section

variable (hf : self.findRecording d = some recording)
include hf

theorem appendDataUninitialized_apply (len : Nat) :
    appendDataUninitialized d len self =
      match BufferChain.reserve len (self.mgr, self.chain (.data (self.index recording.slot) recording.id)) with
      | .ok loc s => .ok loc (self.appendedAt d recording len loc s)
      | .error e s =>
        .error e ({ self with mgr := s.1 }.setChain (.data (self.index recording.slot) recording.id) s.2) := by
  unfold appendDataUninitialized
  rw [get_bind_apply, hf]
  dsimp only
  cases hres : BufferChain.reserve len (self.mgr, self.chain (.data (self.index recording.slot) recording.id)) with
  | error e s => rw [bind_apply_error (by rw [onChain, hres])]
  | ok loc s =>
    rw [bind_apply_ok (by rw [onChain, hres])]
    rfl

theorem appendData_apply (data : List U8) :
    appendData d data self =
      match BufferChain.append data (self.mgr, self.chain (.data (self.index recording.slot) recording.id)) with
      | .ok loc s => .ok loc (self.appendedAt d recording data.length loc s)
      | .error e s =>
        .error e ({ self with mgr := s.1 }.setChain (.data (self.index recording.slot) recording.id) s.2) := by
  unfold appendData
  rw [get_bind_apply, hf]
  dsimp only
  cases hres : BufferChain.append data (self.mgr, self.chain (.data (self.index recording.slot) recording.id)) with
  | error e s => rw [bind_apply_error (by rw [onChain, hres])]
  | ok loc s =>
    rw [bind_apply_ok (by rw [onChain, hres])]
    rfl

/-- Filling the slot of an append comes to the same as appending the bytes. -/
theorem fillData_apply (len : Nat) (loc : Location) (s : BufferManager × BufferChain) (bytes : List U8) :
    fillData d loc bytes (self.appendedAt d recording len loc s) =
      .ok () (self.appendedAt d recording len loc (filled s loc bytes)) := by
  have hedit := edits_appended recording loc
  have hindex : (self.appendedAt d recording len loc s).index (Recording.appended recording loc).slot =
      self.index recording.slot := by
    rw [hedit.slot]
    unfold appendedAt
    split <;> rfl
  unfold fillData
  rw [get_bind_apply, findRecording_appendedAt hf]
  dsimp only
  rw [hindex, hedit.id, onChain, dataChain_appendedAt, ← setChain_appendedAt len loc s (filled s loc bytes)]
  rfl

end

/-- The recording behind a payload. -/
def Recording.withPayload (recording : Recording) (slot : Location) (len prologue : U16) (packet : List U8) :
    Recording :=
  { Recording.appended recording slot with
    body := recording.body ++ (Recorder.dpUpdate recording.dp slot len ++ packet)
    dp := ⟨true, slot, len, prologue + len⟩ }

theorem setRecording_setRecording (edited edited' : Recording) :
    (self.setRecording d edited).setRecording d edited' = self.setRecording d edited' := by
  have : (fun d' => if d' = d then some edited' else if d' = d then some edited else self.recordings d') =
      fun d' => if d' = d then some edited' else self.recordings d' := by
    funext d'
    split <;> rfl
  exact congrArg (fun recordings => { self with recordings := recordings }) this

section

variable (hf : self.findRecording d = some recording)
include hf

theorem emitTo_apply (edit : Recording → Recording) (message : String) :
    emitTo d edit message self = .ok () (self.setRecording d (edit recording)) := by
  unfold emitTo
  rw [get_bind_apply, hf]
  rfl

theorem findRecording_edit {edited : Recording} (he : Edits recording edited) :
    (self.setRecording d edited).findRecording d = some edited := by
  rw [findRecording_setRecording, if_pos rfl, he.active, if_pos (findRecording_eq_some.mp hf).2]

/-- A step of the data pointer stays with its record. -/
theorem emitDpUpdate_apply (slot : Location) (len prologue : U16) :
    Recorder.emitDpUpdate slot d len prologue self = .ok () (self.setRecording d { recording with
      body := recording.body ++ Recorder.dpUpdate recording.dp slot len
      dp := ⟨true, slot, len, prologue + len⟩ }) := by
  unfold Recorder.emitDpUpdate emitBody setDpAnchor
  rw [get_bind_apply, hf]
  dsimp only
  rw [bind_apply_ok (emitTo_apply hf _ _), emitTo_apply (findRecording_edit hf ?_), setRecording_setRecording]
  exact ⟨rfl, rfl, rfl, rfl⟩

/-- What a payload does: it is appended to the chain, and the record gets the step and the packet. -/
theorem emitPayload_apply (prologue payload packet : List U8) :
    Recorder.emitPayload d prologue payload packet self =
      match BufferChain.append (prologue ++ payload)
        (self.mgr, self.chain (.data (self.index recording.slot) recording.id)) with
      | .ok slot s => .ok () ((self.appendedAt d recording (prologue.length + payload.length) slot s).setRecording d
          (Recording.withPayload recording slot (BitVec.ofNat 16 payload.length) (BitVec.ofNat 16 prologue.length)
            packet))
      | .error e s =>
        .error e ({ self with mgr := s.1 }.setChain (.data (self.index recording.slot) recording.id) s.2) := by
  have hreserve := appendDataUninitialized_apply hf (prologue.length + payload.length)
  unfold Recorder.emitPayload
  rw [append_apply, List.length_append]
  cases hres : BufferChain.reserve (prologue.length + payload.length)
      (self.mgr, self.chain (.data (self.index recording.slot) recording.id)) with
  | error e s =>
    rw [hres] at hreserve
    rw [bind_apply_error hreserve]
  | ok slot s =>
    rw [hres] at hreserve
    have hfind := findRecording_appendedAt hf (prologue.length + payload.length) slot
      (filled s slot (prologue ++ payload))
    let stepped : Recording := { Recording.appended recording slot with
      body := (Recording.appended recording slot).body ++
        Recorder.dpUpdate (Recording.appended recording slot).dp slot (BitVec.ofNat 16 payload.length)
      dp := ⟨true, slot, BitVec.ofNat 16 payload.length,
        BitVec.ofNat 16 prologue.length + BitVec.ofNat 16 payload.length⟩ }
    have hedit : Edits (Recording.appended recording slot) stepped := ⟨rfl, rfl, rfl, rfl⟩
    have hstep := findRecording_edit hfind hedit
    rw [bind_apply_ok hreserve, bind_apply_ok (fillData_apply hf _ slot s _),
      bind_apply_ok (emitDpUpdate_apply hfind slot _ _)]
    unfold emitBody
    rw [emitTo_apply hstep, setRecording_setRecording]
    have hdp : (Recording.appended recording slot).dp = recording.dp := by
      unfold Recording.appended
      split <;> rfl
    have hbody : (Recording.appended recording slot).body = recording.body := by
      unfold Recording.appended
      split <;> rfl
    simp only [stepped, Recording.withPayload, hdp, hbody, List.append_assoc]

end

/-- A payload goes through when the chain takes it. -/
theorem emitPayload_ok_iff (h : Consistent self) (hf : self.findRecording d = some recording)
    (prologue payload packet : List U8) :
    (∃ self', Recorder.emitPayload d prologue payload packet self = .ok () self') ↔
      prologue.length + payload.length ≤ SIZE ∧
        BufferChain.needed (BufferChain.room (self.dataChain d recording)) (prologue.length + payload.length) ≤
          self.mgr.available := by
  obtain rfl := h.ident d recording (findRecording_eq_some.mp hf).1
  have hok := BufferChain.append_ok_iff (h.storage.owns (.data (self.index recording.slot) recording.id))
    (prologue ++ payload)
  rw [List.length_append] at hok
  rw [emitPayload_apply hf, dataChain, ← hok]
  cases BufferChain.append (prologue ++ payload)
      (self.mgr, self.chain (.data (self.index recording.slot) recording.id)) with
  | ok slot s => exact ⟨fun _ => ⟨slot, s, rfl⟩, fun _ => ⟨_, rfl⟩⟩
  | error e s =>
    constructor
    · rintro ⟨_, h⟩
      cases h
    · rintro ⟨_, _, h⟩
      cases h

end TraceBuffer

namespace Recorder

open TraceBuffer

variable (self : Recorder) {tb : TraceBuffer} {op : Operation} {address : Address} {now : List U8}

/-- A recorded write of `len` bytes fits one buffer, and the manager has the buffers that the chain takes
to have room for it. -/
def HasRoom (tb : TraceBuffer) (op : Operation) (len : Nat) : Prop :=
  ∀ recording, tb.findRecording op.initiator = some recording → self.records tb op →
    let size := (if self.addressInPayload then SETMEMDX_ADDRESS_BYTES else 0) + len
    size ≤ SIZE ∧ BufferChain.needed (BufferChain.room (tb.dataChain op.initiator recording)) size ≤ tb.mgr.available

@[simp] theorem length_addressBytes (address : Address) :
    (addressBytes address).length = SETMEMDX_ADDRESS_BYTES := rfl

section

variable (h : Consistent tb) (hnow : now ≠ [])
include h hnow

/-- The report of a write goes through when there is room for it. -/
theorem emitWrite_ok_iff {fillPrior : Nat → List U8} (hprior : (fillPrior now.length).length = now.length) :
    (∃ tb', self.emitWrite op address now fillPrior tb = .ok () tb') ↔ self.HasRoom tb op now.length := by
  have hlen : now.length ≠ 0 := fun h0 => hnow (List.length_eq_zero_iff.mp h0)
  unfold emitWrite
  rw [if_neg hlen]
  have hskip : ¬ self.records tb op →
      ((∃ tb', (pure () : TraceM Unit) tb = .ok () tb') ↔ self.HasRoom tb op now.length) :=
    fun hr => ⟨fun _ _ _ h => absurd h hr, fun _ => ⟨tb, rfl⟩⟩
  by_cases htr : self.traced = true
  · by_cases hop : op.type = .BufferInternal
    · rw [htr, if_neg (by simp), if_pos hop]
      exact hskip fun hr => hr.2.1 hop
    · rw [htr, if_neg (by simp), if_neg hop, get_bind_apply]
      cases hf : tb.findRecording op.initiator with
      | none =>
        have hrec : tb.isRecording op.initiator = false := by rw [isRecording, hf, Option.isSome_none]
        rw [hrec, if_pos (by rfl)]
        exact hskip fun hr => absurd hr.2.2 (by simp [hrec])
      | some recording =>
        have hrec : tb.isRecording op.initiator = true := by rw [isRecording, hf, Option.isSome_some]
        rw [hrec, if_neg (by simp)]
        have hpay : (List.zipWith (· ^^^ ·) (fillPrior now.length) now).length = now.length := by
          rw [List.length_zipWith, hprior, Nat.min_self]
        have hroom : self.HasRoom tb op now.length ↔
            let size := (if self.addressInPayload then SETMEMDX_ADDRESS_BYTES else 0) + now.length
            size ≤ SIZE ∧
              BufferChain.needed (BufferChain.room (tb.dataChain op.initiator recording)) size ≤ tb.mgr.available :=
          ⟨fun hr => hr recording hf ⟨htr, hop, hrec⟩, fun hr _ hf' _ => Option.some.inj (hf.symm.trans hf') ▸ hr⟩
        rw [hroom]
        by_cases hadd : self.addressInPayload = true
        · rw [if_pos hadd, emitPayload_ok_iff h hf, hpay, if_pos hadd, length_addressBytes]
        · rw [if_neg hadd, emitPayload_ok_iff h hf, hpay, if_neg hadd, List.length_nil]
  · rw [if_pos (by simp [htr])]
    exact hskip fun hr => htr hr.1

theorem emitWriteFlat_ok_iff {prior : List U8} (hprior : prior.length = now.length) :
    (∃ tb', self.emitWriteFlat op address prior now tb = .ok () tb') ↔ self.HasRoom tb op now.length := by
  unfold emitWriteFlat
  by_cases htr : self.traced = true
  · rw [htr, if_neg (by simp), hprior, Nat.min_self, List.take_length, ← hprior, List.take_length,
      emitWrite_ok_iff self h hnow (by rw [← hprior, List.take_length])]
    rw [hprior]
  · rw [if_pos (by simp [htr])]
    exact ⟨fun _ _ _ hr => absurd hr.1 htr, fun _ => ⟨tb, rfl⟩⟩

/-- A difference goes with the packet and takes no room, but only these widths have that form. -/
theorem emitWriteIncrement_ok_iff {prior : List U8} {order : Order} (hprior : prior.length = now.length) :
    (∃ tb', self.emitWriteIncrement op address prior now order tb = .ok () tb') ↔
      now.length ∈ [1, 2, 4, 8] ∨ self.HasRoom tb op now.length := by
  have hlen : now.length ≠ 0 := fun h0 => hnow (List.length_eq_zero_iff.mp h0)
  unfold emitWriteIncrement
  rw [if_neg hlen]
  have hskip : ¬ self.records tb op → ((∃ tb', (pure () : TraceM Unit) tb = .ok () tb') ↔
      now.length ∈ [1, 2, 4, 8] ∨ self.HasRoom tb op now.length) :=
    fun hr => ⟨fun _ => .inr fun _ _ h => absurd h hr, fun _ => ⟨tb, rfl⟩⟩
  by_cases htr : self.traced = true
  · rw [htr, if_neg (by simp)]
    by_cases hop : op.type = .BufferInternal
    · rw [if_pos hop]
      exact hskip fun hr => hr.2.1 hop
    · rw [if_neg hop]
      by_cases hwidth : now.length ∈ [1, 2, 4, 8]
      · rw [if_neg (by simp at hwidth; omega), get_bind_apply]
        cases hf : tb.findRecording op.initiator with
        | none =>
          have hrec : tb.isRecording op.initiator = false := by rw [isRecording, hf, Option.isSome_none]
          rw [hrec, if_pos (by rfl)]
          exact hskip fun hr => absurd hr.2.2 (by simp [hrec])
        | some recording =>
          have hrec : tb.isRecording op.initiator = true := by rw [isRecording, hf, Option.isSome_some]
          rw [hrec, if_neg (by simp)]
          exact ⟨fun _ => .inl hwidth, fun _ => ⟨_, emitTo_apply hf _ _⟩⟩
      · rw [if_pos (by simp at hwidth; omega), emitWriteFlat_ok_iff self h hnow hprior]
        exact (or_iff_right hwidth).symm
  · rw [if_pos (by simp [htr])]
    exact hskip fun hr => htr hr.1

end

end Recorder

end Pepp.Tvm

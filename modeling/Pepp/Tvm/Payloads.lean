import Pepp.Tvm.DataPointer
import Pepp.Tvm.Session

/-!
# Payloads of a record

A recording takes one payload after the other, and its replay takes the steps of
the data pointer in the same order. When every step is within reach, each
payload is used where it was stored.
-/

namespace Pepp.Tvm

open Bts Outcome EncodedOp TraceBuffer

/-- A payload: where it was stored, its length, and the packet that moves the data pointer to it. -/
structure Update where
  slot : Location
  length : Nat
  packet : List U8
  deriving DecidableEq, Repr

/-- A stretch of a recording of `d` with the payloads it takes. Whatever else clients do in between leaves alone
where the first and the last payload lie. -/
inductive Recorded (d : U8) : TraceBuffer → List Update → TraceBuffer → Prop where
  | done {tb : TraceBuffer} : Recorded d tb [] tb
  | payload {tb tb' tb'' : TraceBuffer} {recording : Recording} {prologue payload packet : List U8} {slot : Location}
      {s : BufferManager × BufferChain} {updates : List Update} :
      tb.findRecording d = some recording →
      BufferChain.append (prologue ++ payload) (tb.dataChain d recording) = .ok slot s →
      Recorder.emitPayload d prologue payload packet tb = .ok () tb' → Recorded d tb' updates tb'' →
      Recorded d tb
        (⟨slot, payload.length, Recorder.dpUpdate recording.dp slot (BitVec.ofNat 16 payload.length)⟩ :: updates) tb''
  | other {tb tb' tb'' : TraceBuffer} {hash : List U8 → U32} {op : Op} {updates : List Update} :
      TraceBuffer.step hash op tb = some tb' →
      (∀ recording, tb.findRecording d = some recording → ∃ recording', tb'.findRecording d = some recording' ∧
        recording'.dp = recording.dp ∧ recording'.dataStart = recording.dataStart) →
      Recorded d tb' updates tb'' → Recorded d tb updates tb''

section Replays

variable {σ : Type} (ops : TargetOps σ) (mgr : BufferManager)

/-- Steps of a replay, with the machine behind each update. Whatever else it executes in between leaves alone
the data pointer, and it may end anywhere. -/
inductive Replay : List Update → Interpreter σ → List (Update × Interpreter σ) → Prop where
  | done {updates : List Update} {interp : Interpreter σ} : Replay updates interp []
  | update {u : Update} {updates : List Update} {interp : Interpreter σ} {visited : List (Update × Interpreter σ)} :
      interp.state.csrs.L = true → interp.state.regs.IP.lo.getLsbD 0 = false →
      Loaded mgr interp.state.regs.IP u.packet → Replay updates (interp.step ops mgr) visited →
      Replay (u :: updates) interp ((u, interp.step ops mgr) :: visited)
  | other {updates : List Update} {interp : Interpreter σ} {visited : List (Update × Interpreter σ)} :
      (interp.step ops mgr).state.pointer = interp.state.pointer → Replay updates (interp.step ops mgr) visited →
      Replay updates interp visited

end Replays

/-- Lengths fit the size register. Under a trace buffer, a payload in the buffer of the one before starts
less than 32768 bytes from it. -/
def Fits (tb : Option DataLinks) : Option Location → List Update → Prop
  | _, [] => True
  | last, u :: updates =>
    u.length < 65536 ∧
      (∀ at_, last = some at_ → tb ≠ none → at_.id = u.slot.id →
        -32768 ≤ (u.slot.offset.toNat : Int) - at_.offset.toNat ∧
          (u.slot.offset.toNat : Int) - at_.offset.toNat < 32768) ∧
      Fits tb (some u.slot) updates

/-- Where the payload before lies. -/
def DpAnchor.last (self : DpAnchor) : Option Location := if self.set then some self.at_ else Option.none

section Recordings

variable {d : U8} {self self' : TraceBuffer} {recording : Recording}

theorem emitPayload_keeps (h : Consistent self) (hf : self.findRecording d = some recording)
    {prologue payload packet : List U8} {slot : Location} {s : BufferManager × BufferChain}
    (happend : BufferChain.append (prologue ++ payload) (self.dataChain d recording) = .ok slot s)
    (hemit : Recorder.emitPayload d prologue payload packet self = .ok () self') :
    Consistent self' ∧ slot.id ≠ 0 ∧
      self'.findRecording d = some (Recording.withPayload recording slot (BitVec.ofNat 16 payload.length)
        (BitVec.ofNat 16 prologue.length) packet) := by
  obtain rfl := h.ident d recording (findRecording_eq_some.mp hf).1
  have happend' := happend
  rw [dataChain] at happend'
  have hdata := appendData_apply hf (prologue ++ payload)
  rw [happend', List.length_append] at hdata
  rw [emitPayload_apply hf, happend'] at hemit
  cases hemit
  have hmeets := appendData_keeps h recording.id (prologue ++ payload)
  have hlive := BufferChain.append_meets (h.storage.owns (.data (self.index recording.slot) recording.id))
    (prologue ++ payload)
  unfold Meets at hmeets hlive
  rw [hdata] at hmeets
  rw [happend'] at hlive
  have hfind := findRecording_appendedAt hf (prologue.length + payload.length) slot s
  have hedit : Edits (Recording.appended recording slot) (Recording.withPayload recording slot
      (BitVec.ofNat 16 payload.length) (BitVec.ofNat 16 prologue.length) packet) := ⟨rfl, rfl, rfl, rfl⟩
  refine ⟨consistent_edit hmeets.1 hfind hedit, ?_, findRecording_edit hfind hedit⟩
  intro hzero
  have hindex := hlive.2.2.2.2.1.live.1
  rw [hzero] at hindex
  exact absurd hindex (by decide)

theorem dataStart_withPayload (slot : Location) (len prologue : U16) (packet : List U8) :
    (Recording.withPayload recording slot len prologue packet).dataStart =
      if recording.dataStart.id = 0 then slot else recording.dataStart := by
  change (Recording.appended recording slot).dataStart = _
  rw [Recording.appended]
  split <;> rfl

/-- Once set, where the first payload lies stays. -/
theorem Recorded.dataStart_eq {updates : List Update} (hrec : Recorded d self updates self') (h : Consistent self)
    (hf : self.findRecording d = some recording) (hstart : recording.dataStart.id ≠ 0) :
    ∃ recording', self'.findRecording d = some recording' ∧ recording'.dataStart = recording.dataStart := by
  induction hrec generalizing recording with
  | done => exact ⟨recording, hf, rfl⟩
  | @payload _ _ _ _ prologue payload packet slot _ _ hf₁ happend hemit _ ih =>
    obtain rfl := Option.some.inj (hf.symm.trans hf₁)
    obtain ⟨hcons, -, hf'⟩ := emitPayload_keeps h hf happend hemit
    have hsame : (Recording.withPayload recording slot (BitVec.ofNat 16 payload.length)
        (BitVec.ofNat 16 prologue.length) packet).dataStart = recording.dataStart :=
      (dataStart_withPayload ..).trans (if_neg hstart)
    obtain ⟨recording', hf'', heq⟩ := ih hcons hf' (by rw [hsame]; exact hstart)
    exact ⟨recording', hf'', heq.trans hsame⟩
  | other hop hkeep _ ih =>
    obtain ⟨recording', hf', -, hsame⟩ := hkeep recording hf
    obtain ⟨recording'', hf'', heq⟩ := ih (step_keeps h hop).1 hf' (by rw [hsame]; exact hstart)
    exact ⟨recording'', hf'', heq.trans hsame⟩

/-- Where a payload's record finds the chain: as the append left it. -/
theorem dataChain_withPayload (len : Nat) (slot : Location) (s : BufferManager × BufferChain)
    (size prologue : U16) (packet : List U8) (hd : recording.id = d) :
    ((self.appendedAt d recording len slot s).setRecording d
      (Recording.withPayload recording slot size prologue packet)).dataChain d
        (Recording.withPayload recording slot size prologue packet) = s := by
  subst hd
  have hindex : (self.appendedAt recording.id recording len slot s).index (Recording.appended recording slot).slot =
      self.index recording.slot := by
    rw [(edits_appended recording slot).slot]
    unfold appendedAt
    split <;> rfl
  have h := @dataChain_appendedAt self recording.id recording len slot s
  rw [← hindex] at h
  exact h

/-- A payload behind the reservation it is written into. -/
theorem exists_recorded (h : Consistent self) (hf : self.findRecording d = some recording) {payload packet : List U8}
    {slot : Location} {s : BufferManager × BufferChain}
    (hreserve : BufferChain.reserve payload.length (self.dataChain d recording) = .ok slot s) :
    let recording' := Recording.withPayload recording slot (BitVec.ofNat 16 payload.length) 0 packet
    ∃ self', Consistent self' ∧ self'.findRecording d = some recording' ∧
      self'.dataChain d recording' = filled s slot payload ∧
      ∀ {updates self''}, Recorded d self' updates self'' →
        Recorded d self
          (⟨slot, payload.length, Recorder.dpUpdate recording.dp slot (BitVec.ofNat 16 payload.length)⟩ :: updates)
          self'' := by
  have happend : BufferChain.append ([] ++ payload) (self.dataChain d recording) =
      .ok slot (filled s slot payload) := by
    rw [List.nil_append, append_apply, hreserve]
  have hid := h.ident d recording (findRecording_eq_some.mp hf).1
  have hemit := emitPayload_apply hf [] payload packet
  rw [hid] at hemit
  rw [dataChain] at happend
  rw [happend] at hemit
  obtain ⟨hcons, -, hf'⟩ := emitPayload_keeps h hf happend hemit
  exact ⟨_, hcons, hf', dataChain_withPayload _ slot _ _ _ packet hid, .payload hf happend hemit⟩

end Recordings

section Replays

variable {σ : Type} {ops : TargetOps σ} {mgr : BufferManager} {interp : Interpreter σ}
  {visited : List (Update × Interpreter σ)}

variable {updates : List Update}

/-- The first update of a replay finds the pointer where it was before. -/
theorem Replay.head {u : Update} (hrun : Replay ops mgr (u :: updates) interp visited) :
    visited = [] ∨ ∃ (interp' : Interpreter σ) (visited' : _), interp'.state.pointer = interp.state.pointer ∧
      interp'.backend.tb = interp.backend.tb ∧ interp'.state.csrs.L = true ∧
      interp'.state.regs.IP.lo.getLsbD 0 = false ∧ Loaded mgr interp'.state.regs.IP u.packet ∧
      Replay ops mgr updates (interp'.step ops mgr) visited' ∧ visited = (u, interp'.step ops mgr) :: visited' := by
  generalize hus : u :: updates = us at hrun
  induction hrun with
  | done => exact .inl rfl
  | update hlive heven hloaded hrest _ =>
    cases hus
    exact .inr ⟨_, _, rfl, rfl, hlive, heven, hloaded, hrest, rfl⟩
  | other hsame _ ih =>
    obtain rfl | ⟨interp', visited', hptr, htb, hrest⟩ := ih hus
    · exact .inl rfl
    · exact .inr ⟨interp', visited', hptr.trans hsame, htb.trans Interpreter.tb_step, hrest⟩

theorem Replay.nil (hrun : Replay ops mgr [] interp visited) : visited = [] := by
  generalize hus : [] = us at hrun
  induction hrun with
  | done => rfl
  | update => cases hus
  | other _ _ ih => exact ih hus

/-- Whether the machine is where the recording's anchor was left, or where its first payload lies. -/
structure Anchored (recording recording' : Recording) (interp : Interpreter σ) : Prop where
  set : recording.dp.set = true → recording.dataStart.id ≠ 0 ∧
    interp.state.pointer = (⟨recording.dp.at_.id, recording.dp.at_.offset⟩, recording.dp.size)
  unset : recording.dp.set = false → recording.dataStart.id = 0 ∧
    interp.state.regs.DP = ⟨recording'.dataStart.id, recording'.dataStart.offset⟩

theorem Recorded.addresses {d : U8} {self self' : TraceBuffer} (hrec : Recorded d self updates self')
    {recording recording' : Recording} (h : Consistent self) (hf : self.findRecording d = some recording)
    (hf' : self'.findRecording d = some recording') (hat : Anchored recording recording' interp)
    (hrun : Replay ops mgr updates interp visited) (hfits : Fits interp.backend.tb recording.dp.last updates) :
    ∀ p ∈ visited, p.2.state.regs.DP = ⟨p.1.slot.id, p.1.slot.offset⟩ ∧ p.2.state.regs.DS.toNat = p.1.length := by
  induction hrec generalizing recording interp visited with
  | done =>
    rw [hrun.nil]
    exact fun p hp => absurd hp List.not_mem_nil
  | other hop hkeep _ ih =>
    obtain ⟨recording₁, hf₁, hdp, hstart⟩ := hkeep recording hf
    refine ih (step_keeps h hop).1 hf₁ hf' ⟨?_, ?_⟩ hrun (by rw [hdp]; exact hfits)
    · rw [hdp, hstart]
      exact hat.set
    · rw [hdp, hstart]
      exact hat.unset
  | @payload _ _ _ _ prologue payload packet slot _ updates hf₁ happend hemit hrest ih =>
    obtain rfl := Option.some.inj (hf.symm.trans hf₁)
    obtain ⟨hcons, hslot, hfound⟩ := emitPayload_keeps h hf happend hemit
    obtain rfl | ⟨interp', visited', hptr, htb, hlive, heven, hloaded, hreplay, rfl⟩ := hrun.head
    · exact fun p hp => absurd hp List.not_mem_nil
    obtain ⟨hlen, hnear, hfits⟩ := hfits
    have hstart := @dataStart_withPayload recording slot (BitVec.ofNat 16 payload.length)
      (BitVec.ofNat 16 prologue.length) packet
    have hset : recording.dp.set = true → interp'.state.regs.DP = ⟨recording.dp.at_.id, recording.dp.at_.offset⟩ ∧
        interp'.state.regs.DS = recording.dp.size :=
      fun hset => Prod.mk.inj (hptr.trans (hat.set hset).2)
    have hfirst : (if recording.dataStart.id = 0 then slot else recording.dataStart).id ≠ 0 := by
      split
      · exact hslot
      · assumption
    obtain ⟨recording₁, hf₁, hsame⟩ := hrest.dataStart_eq hcons hfound (by rw [hstart]; exact hfirst)
    obtain rfl := Option.some.inj (hf'.symm.trans hf₁)
    have hunset : recording.dp.set = false → interp'.state.regs.DP = ⟨slot.id, slot.offset⟩ := fun hunset => by
      obtain ⟨hzero, hdp⟩ := hat.unset hunset
      rw [hsame, hstart, if_pos hzero] at hdp
      exact (congrArg Prod.fst hptr).trans hdp
    have hreach : Interpreter.WithinReach interp'.backend.tb recording.dp slot := by
      rw [htb]
      by_cases hnone : interp.backend.tb = none
      · exact .inl hnone
      cases hs : recording.dp.set with
      | false => exact .inr (.inl hs)
      | true =>
        by_cases hid : recording.dp.at_.id = slot.id
        · exact .inr (.inr (.inr (hnear _ (if_pos hs) hnone hid)))
        · exact .inr (.inr (.inl hid))
    obtain ⟨hdp, hds⟩ := @Interpreter.step_dpUpdate _ ops _ _ _ _ _ hlive hloaded heven hset hunset hreach
    intro p hp
    obtain rfl | hp := List.mem_cons.mp hp
    · refine ⟨hdp, ?_⟩
      rw [hds, BitVec.toNat_ofNat]
      exact Nat.mod_eq_of_lt hlen
    · refine ih hcons hfound hf' ⟨fun _ => ⟨by rw [hstart]; exact hfirst, Prod.ext hdp hds⟩, fun hunset => ?_⟩
        hreplay ?_ p hp
      · cases hunset
      · rw [Interpreter.tb_step, htb]
        exact hfits

theorem Recorded.dataStart_ne {d : U8} {self self' : TraceBuffer} (hrec : Recorded d self updates self')
    {recording recording' : Recording} (h : Consistent self) (hf : self.findRecording d = some recording)
    (hf' : self'.findRecording d = some recording') (hne : updates ≠ []) : recording'.dataStart.id ≠ 0 := by
  induction hrec generalizing recording with
  | done => exact absurd rfl hne
  | @payload _ _ _ _ prologue payload packet slot _ _ hf₁ happend hemit hrest _ =>
    obtain rfl := Option.some.inj (hf.symm.trans hf₁)
    obtain ⟨hcons, hslot, hfound⟩ := emitPayload_keeps h hf happend hemit
    have hfirst : (Recording.withPayload recording slot (BitVec.ofNat 16 payload.length)
        (BitVec.ofNat 16 prologue.length) packet).dataStart.id ≠ 0 := by
      rw [dataStart_withPayload]
      split
      · exact hslot
      · assumption
    obtain ⟨recording₁, hf₁, hsame⟩ := hrest.dataStart_eq hcons hfound hfirst
    obtain rfl := Option.some.inj (hf'.symm.trans hf₁)
    rw [hsame]
    exact hfirst
  | other hop hkeep _ ih =>
    obtain ⟨recording₁, hf₁, -, -⟩ := hkeep recording hf
    exact ih (step_keeps h hop).1 hf₁ hf' hne

/-- In a replay from the start of a record, every update whose step fits comes to its payload, as long as the
steps before it fit too. -/
theorem updates_address_payloads {hash : List U8 → U32} {d : U8} {self self' : TraceBuffer} {updates : List Update}
    {recording recording' : Recording} (h : Reachable hash self) (hf : self.findRecording d = some recording)
    (hdp : recording.dp.set = false) (hstart : recording.dataStart.id = 0) (hrec : Recorded d self updates self')
    (hf' : self'.findRecording d = some recording') {code : Location} {retain : RegisterRetention}
    (hrun : Replay ops mgr updates (interp.start ⟨code, recording'.dataStart⟩ retain) visited)
    (hfits : Fits interp.backend.tb none updates) :
    ∀ p ∈ visited, p.2.state.regs.DP = ⟨p.1.slot.id, p.1.slot.offset⟩ ∧ p.2.state.regs.DS.toNat = p.1.length := by
  by_cases hne : updates = []
  · subst hne
    rw [hrun.nil]
    exact fun p hp => absurd hp List.not_mem_nil
  have hdata := hrec.dataStart_ne h.consistent hf hf' hne
  refine hrec.addresses h.consistent hf hf' ⟨fun hset => ?_, fun _ => ⟨hstart, ?_⟩⟩ hrun ?_
  · rw [hdp] at hset
    cases hset
  · rw [Interpreter.start, if_pos hdata]
    rfl
  · rw [DpAnchor.last, hdp, if_neg Bool.false_ne_true]
    exact hfits

end Replays

set_option maxRecDepth 20000 in
/-- A fresh record of initiator 1 with room for a payload of 20000 or 40000 bytes and one more behind it. -/
theorem exists_begun : ∃ (self : TraceBuffer) (recording : Recording), Reachable (fun _ => 0) self ∧
    self.findRecording 1 = some recording ∧ recording.dp = DpAnchor.none ∧ recording.dataStart.id = 0 ∧
    ∀ n, n = 20000 ∨ n = 40000 → ∃ s, BufferChain.reserve n (self.dataChain 1 recording) = .ok ⟨3, 0⟩ s ∧
      ∀ payload, ∃ s', BufferChain.reserve 1 (filled s ⟨3, 0⟩ payload) = .ok ⟨3, BitVec.ofNat 16 n⟩ s' := by
  obtain ⟨tb, hcreate, tb', hbegin, recording, hrest⟩ : ∃ tb, TraceBuffer.create BufferManager.empty 1 = .ok tb ∧
      ∃ tb', TraceBuffer.step (fun _ => 0) (.begin (fun _ => []) 1) tb = some tb' ∧
      ∃ recording, tb'.findRecording 1 = some recording ∧ recording.dp = DpAnchor.none ∧ recording.dataStart.id = 0 ∧
        (∃ s, BufferChain.reserve 20000 (tb'.dataChain 1 recording) = .ok ⟨3, 0⟩ s ∧
          ∀ payload, ∃ s', BufferChain.reserve 1 (filled s ⟨3, 0⟩ payload) = .ok ⟨3, BitVec.ofNat 16 20000⟩ s') ∧
        (∃ s, BufferChain.reserve 40000 (tb'.dataChain 1 recording) = .ok ⟨3, 0⟩ s ∧
          ∀ payload, ∃ s', BufferChain.reserve 1 (filled s ⟨3, 0⟩ payload) = .ok ⟨3, BitVec.ofNat 16 40000⟩ s') :=
    ⟨_, rfl, _, rfl, _, rfl, rfl, rfl, ⟨_, rfl, fun _ => ⟨_, rfl⟩⟩, ⟨_, rfl, fun _ => ⟨_, rfl⟩⟩⟩
  obtain ⟨hf, hdp, hstart, hsmall, hlarge⟩ := hrest
  refine ⟨tb', recording, .step (.create BufferManager.wf_empty hcreate) hbegin, hf, hdp, hstart, fun n hn => ?_⟩
  rcases hn with rfl | rfl
  · exact hsmall
  · exact hlarge

/-- The updates of a payload of `n` bytes and of one byte behind it. -/
def pairUpdates (n : Nat) : List Update :=
  [⟨⟨3, 0⟩, n, ldr .DS (BitVec.ofNat 16 n)⟩, ⟨⟨3, BitVec.ofNat 16 n⟩, 1, accdp 1⟩]

/-- Their packets in a buffer. -/
def pairCode (n : Nat) : BufferManager := loaded ((pairUpdates n).flatMap Update.packet)

/-- A machine that replays under a trace buffer. -/
def replaying : Interpreter Unit := { powerOn with backend := Backend.create (some ⟨fun _ => 0, fun _ => 0⟩) }

/-- The machine behind each of the two updates. -/
def pairVisited (n : Nat) : List (Update × Interpreter Unit) :=
  let first := (replaying.start ⟨⟨1, 0⟩, ⟨3, 0⟩⟩ .None).step missingSystem (pairCode n)
  [(⟨⟨3, 0⟩, n, ldr .DS (BitVec.ofNat 16 n)⟩, first),
    (⟨⟨3, BitVec.ofNat 16 n⟩, 1, accdp 1⟩, first.step missingSystem (pairCode n))]

/-- A fresh record that took a payload of `n` bytes and one of one byte. -/
theorem exists_pair {n : Nat} (hn : n = 20000 ∨ n = 40000) :
    ∃ (self : TraceBuffer) (recording : Recording) (self' : TraceBuffer) (recording' : Recording),
      Reachable (fun _ => 0) self ∧ self.findRecording 1 = some recording ∧ recording.dp.set = false ∧
      recording.dataStart.id = 0 ∧ Recorded 1 self (pairUpdates n) self' ∧ self'.findRecording 1 = some recording' ∧
      recording'.dataStart = ⟨3, 0⟩ := by
  obtain ⟨self, recording, hreach, hf, hdp, hstart, hroom⟩ := exists_begun
  obtain ⟨s, hs, hnext⟩ := hroom n hn
  obtain ⟨payload, rfl⟩ : ∃ payload : List U8, payload.length = n := ⟨List.replicate n 0, List.length_replicate⟩
  obtain ⟨s', hs'⟩ := hnext payload
  obtain ⟨self₁, hcons₁, hf₁, hchain, hrec₁⟩ := @exists_recorded _ _ _ hreach.consistent hf _ [] _ _ hs
  rw [← hchain] at hs'
  obtain ⟨self₂, hcons₂, hf₂, -, hrec₂⟩ := @exists_recorded _ _ _ hcons₁ hf₁ [0] [] _ _ hs'
  have hrec := hrec₁ (hrec₂ .done)
  rw [hdp] at hrec
  refine ⟨self, recording, self₂, _, hreach, hf, by rw [hdp]; rfl, hstart, ?_, hf₂, ?_⟩
  · have haccdp : Recorder.dpUpdate ⟨true, ⟨3, 0⟩, BitVec.ofNat 16 payload.length, 0 + BitVec.ofNat 16 payload.length⟩
        ⟨3, BitVec.ofNat 16 payload.length⟩ 1 = accdp 1 := by
      simp [Recorder.dpUpdate]
    rw [pairUpdates, ← haccdp]
    exact hrec
  · rw [dataStart_withPayload, dataStart_withPayload, if_pos hstart]
    rfl

/-- Two payloads and their replay under a trace buffer. -/
theorem updates_address_payloads_pair : ∃ dataStart,
    Replay missingSystem (pairCode 20000) (pairUpdates 20000) (replaying.start ⟨⟨1, 0⟩, dataStart⟩ .None)
      (pairVisited 20000) ∧
    ∀ p ∈ pairVisited 20000,
      p.2.state.regs.DP = ⟨p.1.slot.id, p.1.slot.offset⟩ ∧ p.2.state.regs.DS.toNat = p.1.length := by
  obtain ⟨self, recording, self', recording', hreach, hf, hdp, hstart, hrec, hf', hdata⟩ := exists_pair (.inl rfl)
  have hrun : Replay missingSystem (pairCode 20000) (pairUpdates 20000)
      (replaying.start ⟨⟨1, 0⟩, recording'.dataStart⟩ .None) (pairVisited 20000) := by
    rw [hdata]
    exact .update rfl rfl rfl (.update rfl rfl rfl .done)
  have hfits : Fits replaying.backend.tb none (pairUpdates 20000) := by
    refine ⟨by decide, ?_, by decide, ?_, trivial⟩
    · rintro at_ ⟨⟩
    · rintro at_ ⟨⟩ - -
      decide
  exact ⟨_, hrun, updates_address_payloads hreach hf hdp hstart hrec hf' hrun hfits⟩

/-- The second of two payloads in one buffer, 40000 bytes behind the first: a replay under a trace buffer steps to it
as if the word were signed, and stops. -/
theorem not_updates_address_payloads :
    ∃ (self : TraceBuffer) (recording : Recording) (self' : TraceBuffer) (recording' : Recording),
      Reachable (fun _ => 0) self ∧ self.findRecording 1 = some recording ∧ recording.dp.set = false ∧
      recording.dataStart.id = 0 ∧ Recorded 1 self (pairUpdates 40000) self' ∧
      self'.findRecording 1 = some recording' ∧
      Replay missingSystem (pairCode 40000) (pairUpdates 40000)
        (replaying.start ⟨⟨1, 0⟩, recording'.dataStart⟩ .None) (pairVisited 40000) ∧
      ∃ p ∈ pairVisited 40000, p.2.state.regs.DP ≠ ⟨p.1.slot.id, p.1.slot.offset⟩ ∧ p.2.state.csrs.F = true := by
  obtain ⟨self, recording, self', recording', hreach, hf, hdp, hstart, hrec, hf', hdata⟩ := exists_pair (.inr rfl)
  refine ⟨self, recording, self', recording', hreach, hf, hdp, hstart, hrec, hf', ?_, ?_⟩
  · rw [hdata]
    exact .update rfl rfl rfl (.update rfl rfl rfl .done)
  · exact ⟨_, List.mem_cons_of_mem _ List.mem_cons_self, by decide, rfl⟩

end Pepp.Tvm

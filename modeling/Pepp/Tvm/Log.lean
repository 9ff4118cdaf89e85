import Pepp.Lib.SlotRingIteration
import Pepp.Tvm.RingRuns

/-!
# The log of a run

The recordings of the clients of a trace buffer, in the order in which they
began, with how each of them ended. The log says what the ring is to hold: its entries are
the ring's entries, by position.
-/

namespace Pepp.Tvm

open Outcome SlotRing

inductive Status where
  | opened | published | dropped
  deriving DecidableEq, Repr

/-- A recording: where its entry was reserved, who made it and how it ended. -/
structure Entry where
  at_ : Cursor
  initiator : U8
  status : Status

def Entry.close (status : Status) (self : Entry) : Entry := { self with status := status }

abbrev Log := List Entry

namespace Log

/-- Change the recording that `d` has open. -/
def amend (d : U8) (f : Entry → Entry) (log : Log) : Log :=
  log.map fun e => if e.initiator = d ∧ e.status = .opened then f e else e

/-- Where an initiator's last recording was reserved. -/
def placeOf (tb : TraceBuffer) (d : U8) : Cursor :=
  match tb.recordings d with
  | some recording => ⟨recording.slot, recording.entry⟩
  | none => ⟨0, 0⟩

/-- What an operation adds to the log, given whether it went through and the state after it. -/
def note (op : Op) (ok : Bool) (after : TraceBuffer) (log : Log) : Log :=
  match op with
  | .begin _ d => if ok then log ++ [⟨placeOf after d, d, .opened⟩] else log
  | .commit _ d => log.amend d (Entry.close (if ok then .published else .dropped))
  | .abort d => log.amend d (Entry.close .dropped)
  | .clear => []
  | .emitPrefix _ _ | .emitBody _ _ | .emitPostfix _ _ | .appendData _ _ | .setDpAnchor _ _ _ _ | .acknowledge _
  | .onWatermark _ => log

theorem length_amend (d : U8) (f : Entry → Entry) (log : Log) : (log.amend d f).length = log.length := List.length_map ..

theorem getElem?_amend (d : U8) (f : Entry → Entry) (log : Log) (k : Nat) :
    (log.amend d f)[k]? = log[k]?.map fun e => if e.initiator = d ∧ e.status = .opened then f e else e :=
  List.getElem?_map ..

end Log

/-- A trace buffer with the log of how it came about. -/
structure Session where
  tb : TraceBuffer
  log : Log

namespace Session

variable (hash : List U8 → U32)

def step (op : Op) (self : Session) : Option Session :=
  (TraceBuffer.attempt hash op self.tb).map fun r => ⟨r.2, self.log.note op r.1 r.2⟩

inductive Reachable : Session → Prop where
  | create {mgr : Bts.BufferManager} {ringSize : Nat} {tb : TraceBuffer} :
      mgr.Wf → TraceBuffer.create mgr ringSize = .ok tb → Reachable ⟨tb, []⟩
  | step {op : Op} {s s' : Session} : Reachable s → step hash op s = some s' → Reachable s'

variable {hash} {op : Op} {self self' : Session}

theorem step_eq_some : step hash op self = some self' ↔
    ∃ ok, TraceBuffer.attempt hash op self.tb = some (ok, self'.tb) ∧ self'.log = self.log.note op ok self'.tb := by
  cases self'
  simp only [step, Option.map_eq_some_iff, Prod.exists, Session.mk.injEq]
  constructor
  · rintro ⟨ok, tb, ha, rfl, rfl⟩
    exact ⟨ok, ha, rfl⟩
  · rintro ⟨ok, ha, rfl⟩
    exact ⟨ok, _, ha, rfl, rfl⟩

theorem step_tb (h : step hash op self = some self') : TraceBuffer.step hash op self.tb = some self'.tb := by
  obtain ⟨ok, ha, -⟩ := step_eq_some.mp h
  rw [TraceBuffer.step, ha]
  rfl

/-- Every state a trace buffer can come to comes with a log. -/
theorem reachable_tb {tb : TraceBuffer} : TraceBuffer.Reachable hash tb ↔ ∃ log, Reachable hash ⟨tb, log⟩ := by
  constructor
  · intro h
    induction h with
    | create hwf hc => exact ⟨[], .create hwf hc⟩
    | @step op _ _ _ hs ih =>
      obtain ⟨log, ih⟩ := ih
      obtain ⟨⟨ok, tb'⟩, ha, rfl⟩ := Option.map_eq_some_iff.mp hs
      exact ⟨log.note op ok tb', .step ih (step_eq_some.mpr ⟨ok, ha, rfl⟩)⟩
  · rintro ⟨log, h⟩
    have hall : ∀ s, Reachable hash s → TraceBuffer.Reachable hash s.tb := by
      intro s h
      induction h with
      | create hwf hc => exact .create hwf hc
      | step _ hs ih => exact .step ih (step_tb hs)
    exact hall _ h

end Session

/-- The log lists the entries of the ring, open ones as open. -/
structure Tracks (tb : TraceBuffer) (log : Log) : Prop where
  length : log.length = taken MAX_LOCATION_ENTRIES tb.ringState
  placed : ∀ (k : Nat) (e : Entry), log[k]? = some e → e.at_ = position MAX_LOCATION_ENTRIES k
  claimed : ∀ (k : Nat) (e : Entry), log[k]? = some e → e.status = .opened → tb.ringState.claims e.initiator = some e.at_
  opened : ∀ d p, tb.ringState.claims d = some p →
    ∃ e : Entry, log[rank MAX_LOCATION_ENTRIES p]? = some e ∧ e.initiator = d ∧ e.status = .opened

namespace Tracks

variable {tb tb' : TraceBuffer} {log : Log} {d : U8}

theorem congr (h : Tracks tb log) (ht : taken MAX_LOCATION_ENTRIES tb'.ringState = taken MAX_LOCATION_ENTRIES tb.ringState)
    (hc : tb'.ringState.claims = tb.ringState.claims) : Tracks tb' log :=
  ⟨h.length.trans ht.symm, h.placed, hc ▸ h.claimed, hc ▸ h.opened⟩

/-- Closing a recording. -/
theorem close (h : Tracks tb log) {status : Status} (hstat : status ≠ .opened)
    (ht : taken MAX_LOCATION_ENTRIES tb'.ringState = taken MAX_LOCATION_ENTRIES tb.ringState)
    (hc : ∀ d', tb'.ringState.claims d' = if d' = d then none else tb.ringState.claims d') :
    Tracks tb' (log.amend d (Entry.close status)) := by
  refine ⟨(Log.length_amend ..).trans (h.length.trans ht.symm), fun k e he => ?_, fun k e he hs => ?_, fun d' p hp => ?_⟩
  · rw [Log.getElem?_amend, Option.map_eq_some_iff] at he
    obtain ⟨e₀, he₀, rfl⟩ := he
    rw [← h.placed k e₀ he₀]
    split <;> rfl
  · rw [Log.getElem?_amend, Option.map_eq_some_iff] at he
    obtain ⟨e₀, he₀, rfl⟩ := he
    split at hs
    · exact absurd hs hstat
    · rename_i hne
      rw [if_neg hne, hc, if_neg fun hd => hne ⟨hd, hs⟩]
      exact h.claimed k e₀ he₀ hs
  · rw [hc] at hp
    split at hp
    · contradiction
    · rename_i hne
      obtain ⟨e, he, hi, hs⟩ := h.opened d' p hp
      exact ⟨e, by rw [Log.getElem?_amend, he, Option.map_some, if_neg fun hd => hne (hi ▸ hd.1)], hi, hs⟩

/-- A new recording goes to the end of the log. -/
theorem claim (h : Tracks tb log) (hs : Sound MAX_LOCATION_ENTRIES tb.ringState) (hroom : tb.HasRoom)
    (hcount : tb.currentNode.count < MAX_LOCATION_ENTRIES) (hn : tb.findRecording d = none)
    (hr : tb'.ringState = tb.ringState.claim d) :
    Tracks tb' (log ++ [⟨⟨tb.head, tb.currentNode.count⟩, d, .opened⟩]) := by
  have htake := hs.taken_eq hroom
  have hrank : rank MAX_LOCATION_ENTRIES ⟨tb.head, tb.currentNode.count⟩ = log.length := (h.length.trans htake).symm
  have hpos : position MAX_LOCATION_ENTRIES log.length = ⟨tb.head, tb.currentNode.count⟩ := by
    rw [← hrank, position_rank hcount]
  have hclaims : ∀ d', tb'.ringState.claims d' =
      if d' = d then some ⟨tb.head, tb.currentNode.count⟩ else tb.ringState.claims d' := by
    intro d'
    rw [hr]
    exact Function.update_apply ..
  have hold : ∀ (k : Nat) (e : Entry), (log ++ [⟨⟨tb.head, tb.currentNode.count⟩, d, .opened⟩])[k]? = some e →
      log[k]? = some e ∨ k = log.length ∧ e = ⟨⟨tb.head, tb.currentNode.count⟩, d, .opened⟩ := by
    intro k e he
    rcases Nat.lt_or_ge k log.length with hk | hk
    · rw [List.getElem?_append_left hk] at he
      exact .inl he
    · rw [List.getElem?_append_right hk, List.getElem?_singleton] at he
      split at he
      · exact .inr ⟨by omega, (Option.some.inj he).symm⟩
      · contradiction
  refine ⟨?_, fun k e he => ?_, fun k e he hst => ?_, fun d' p hp => ?_⟩
  · rw [List.length_append, h.length, hr, hs.taken_claim hroom]
    rfl
  · rcases hold k e he with he | ⟨rfl, rfl⟩
    · exact h.placed k e he
    · exact hpos.symm
  · rw [hclaims]
    rcases hold k e he with he | ⟨rfl, rfl⟩
    · have hc := h.claimed k e he hst
      split
      · rename_i hd
        rw [hd, TraceBuffer.claims_eq_none.mpr hn] at hc
        contradiction
      · exact hc
    · rw [if_pos rfl]
  · rw [hclaims] at hp
    split at hp
    · rename_i hd
      cases hp
      exact ⟨_, by rw [hrank, List.getElem?_append_right (Nat.le_refl _), Nat.sub_self]; rfl, hd.symm, rfl⟩
    · obtain ⟨e, he, hi, hst⟩ := h.opened d' p hp
      refine ⟨e, ?_, hi, hst⟩
      rw [List.getElem?_append_left (List.getElem?_eq_some_iff.mp he).1]
      exact he

end Tracks

theorem Still.taken {tb tb' : TraceBuffer} (h : Still tb tb') :
    taken MAX_LOCATION_ENTRIES tb'.ringState = taken MAX_LOCATION_ENTRIES tb.ringState := by
  unfold SlotRing.taken SlotRing.countAt SlotRing.node
  change MAX_LOCATION_ENTRIES * tb'.head + (if (tb'.ring (tb'.head % tb'.ringSize)).slot = some tb'.head then
    (tb'.ring (tb'.head % tb'.ringSize)).count else 0) = _
  rw [h.head, h.ringSize, h.slot, h.count]
  rfl

namespace TraceBuffer

variable {hash : List U8 → U32} {self self' : TraceBuffer} {d : U8}

/-- Releasing slots takes no entry back and closes nothing. -/
theorem lasting_books (n : Nat) (claims : U8 → Option Cursor) :
    Lasting fun t => Consistent t ∧ taken MAX_LOCATION_ENTRIES t.ringState = n ∧ t.ringState.claims = claims where
  release t h hlt ho := by
    refine ⟨lasting_consistent.release t h.1 hlt ho, ?_, ?_⟩
    · rw [ringState_release, h.1.sound.taken_retire hlt, h.2.1]
    · rw [ringState_release]
      exact h.2.2
  watermarks t wms h := ⟨lasting_consistent.watermarks t wms h.1, h.2⟩

theorem advanceSlot_books (h : Consistent self) (respond : Nat → List Cursor)
    (hs : self.currentNode.slot = some self.head) (hc : MAX_LOCATION_ENTRIES ≤ self.currentNode.count) :
    taken MAX_LOCATION_ENTRIES (self.advanceSlot respond).ringState = taken MAX_LOCATION_ENTRIES self.ringState ∧
      (self.advanceSlot respond).ringState.claims = self.ringState.claims := by
  have hnext : Consistent { self with head := self.head + 1 } :=
    ⟨h.sound.advance hs hc, ⟨h.storage.wf, h.storage.live, h.storage.nodup, h.storage.disjoint⟩, h.located, h.stencils,
      h.tombstone, h.ident, h.opened⟩
  have htake := h.sound.taken_advance hs (Nat.le_antisymm (h.sound.count_le _) hc)
  exact ((lasting_books _ _).advanceSlot respond ⟨hnext, htake, rfl⟩).2

theorem readied_books (h : Consistent self) (respond : Nat → List Cursor) :
    taken MAX_LOCATION_ENTRIES (self.readied respond).ringState = taken MAX_LOCATION_ENTRIES self.ringState ∧
      (self.readied respond).ringState.claims = self.ringState.claims := by
  unfold readied
  split
  · rename_i hfull
    exact advanceSlot_books h respond hfull.1 hfull.2
  · exact ⟨rfl, rfl⟩

theorem claims_closed {tb t : TraceBuffer} {recording : Recording}
    (h : t.recordings = fun d' => if d' = d then some (Recording.closed recording) else tb.recordings d') (d' : U8) :
    t.ringState.claims d' = if d' = d then none else tb.ringState.claims d' := by
  simp only [ringState, findRecording, h]
  split
  · simp [Recording.closed, Option.filter]
  · rfl

theorem Commits.books {tb tb' : TraceBuffer} {recording : Recording} {program : ProgramLocation}
    (h : Commits hash d recording program tb tb') :
    taken MAX_LOCATION_ENTRIES tb'.ringState = taken MAX_LOCATION_ENTRIES tb.ringState ∧
      ∀ d', tb'.ringState.claims d' = if d' = d then none else tb.ringState.claims d' := by
  obtain ⟨t, footprint, ht, hnext⟩ := h
  have hc := consistent_footprint ht.consistent footprint
  have hclaims := claims_closed ht.recordings
  rcases hnext with rfl | ⟨respond, rfl, hs, hcount⟩
  · exact ⟨ht.still.taken, hclaims⟩
  · obtain ⟨htake, hcl⟩ := advanceSlot_books hc respond hs hcount
    exact ⟨htake.trans ht.still.taken, fun d' => (congrFun hcl d').trans (hclaims d')⟩

theorem emitTo_ok {edit : Recording → Recording} (he : ∀ recording, Edits recording (edit recording)) (message : String) :
    Meets (emitTo d edit message) self fun r self' =>
      (∃ m, r = .error (.assertion m)) ∨ r = .ok () ∧ self'.ringState = self.ringState := by
  refine (emitTo_meets edit message d).mono fun r self' hr => ?_
  cases r with
  | ok _ =>
    obtain ⟨recording, hf, rfl⟩ := hr
    exact .inr ⟨rfl, ringState_edit hf (he recording)⟩
  | error e => exact .inl ⟨message, congrArg _ hr.1⟩

theorem appendData_ringState (h : Consistent self) (d : U8) (data : List U8) :
    Meets (appendData d data) self fun _ self' => self'.ringState = self.ringState := by
  refine (appendData_meets h d data).mono fun r self' hr => ?_
  cases r with
  | ok loc =>
    obtain ⟨recording, t, footprint, hf, hstep, rfl, -⟩ := hr
    have hf' : { t with footprint := footprint }.findRecording d = some recording := by
      rw [← hf]
      exact findRecording_congr hstep.books.recordings
    exact (ringState_edit hf' (edits_appended recording loc)).trans hstep.ringState
  | error e =>
    rcases hr with ⟨-, rfl⟩ | ⟨recording, -, hstep, -⟩
    · rfl
    · exact hstep.ringState

theorem tracks_fresh (h : Fresh self) : Tracks self [] := by
  have hvac := h.vacant
  refine ⟨?_, by simp, by simp, fun d p hp => ?_⟩
  · rw [hvac]
    simp [taken, SlotRing.countAt, vacant]
  · rw [hvac] at hp
    contradiction

theorem countAt_ringState (s : Nat) : self.ringState.countAt s = self.countAt s := by
  unfold TraceBuffer.countAt residentNode
  change (if (self.nodeAt s).slot = some s then (self.nodeAt s).count else 0) = _
  split <;> rfl

/-- The iterators of the ring are those of the trace buffer. -/
theorem next_ringState : self.ringState.next = self.next := by
  funext p
  rw [SlotRing.next, TraceBuffer.next, countAt_ringState]
  rfl

theorem prev_ringState : self.ringState.prev = self.prev := by
  funext p
  rw [SlotRing.prev, TraceBuffer.prev, countAt_ringState]

end TraceBuffer

namespace Session

open TraceBuffer

variable {hash : List U8 → U32} {op : Op} {self self' : Session}

/-- The log keeps up with every operation. -/
theorem tracks_step (hc : Consistent self.tb) (h : Tracks self.tb self.log) (hs : step hash op self = some self') :
    Tracks self'.tb self'.log := by
  obtain ⟨ok, ha, hlog⟩ := step_eq_some.mp hs
  rw [hlog]
  have hedit : ∀ {d edit message}, perform hash op = emitTo d edit message →
      (∀ recording, Edits recording (edit recording)) → Tracks self'.tb self.log := by
    intro d edit message hop he
    have hm : Meets (perform hash op) self.tb _ := hop ▸ emitTo_ok he message
    rcases of_attempt hm ha with ⟨-, ⟨m, hq⟩ | ⟨-, hq⟩⟩ | ⟨-, e, hne, ⟨m, hq⟩ | ⟨hq, -⟩⟩
    · contradiction
    · exact h.congr (congrArg _ hq) (congrArg _ hq)
    · exact absurd (Except.error.inj hq) (hne m)
    · contradiction
  cases op with
  | begin respond d =>
    have hm : Meets (perform hash (.begin respond d)) self.tb _ := begin_meets hc respond d
    have hc₁ := consistent_readied hc respond
    obtain ⟨htake, hclaims⟩ := readied_books hc respond
    have h₁ := h.congr htake hclaims
    rcases of_attempt hm ha with ⟨rfl, hroom, hn, hcl⟩ | ⟨rfl, e, hne, ⟨-, -, ht⟩ | ⟨-, ⟨⟨m, he⟩, -⟩ | ⟨-, ht, -⟩⟩⟩
    · have hplace : Log.placeOf self'.tb d =
          ⟨(self.tb.readied respond).head, (self.tb.readied respond).currentNode.count⟩ := by
        simp only [Log.placeOf, hcl.recordings, if_true]
      have hcount : (self.tb.readied respond).currentNode.count < MAX_LOCATION_ENTRIES := by
        rcases hroom with hs | hs
        · rw [show (self.tb.readied respond).currentNode.count = 0 from (hc₁.sound.free _ hs).1]
          decide
        · exact count_readied hc respond hs
      have := h₁.claim hc₁.sound hroom hcount hn hcl.ring
      rwa [← hplace] at this
    · exact ht ▸ h₁
    · exact absurd he (hne m)
    · exact ht ▸ h₁
  | emitPrefix d bytes | emitBody d bytes | emitPostfix d bytes | setDpAnchor d at_ size stride =>
    exact hedit rfl fun _ => ⟨rfl, rfl, rfl, rfl⟩
  | appendData d data =>
    have hm : Meets (perform hash (.appendData d data)) self.tb fun _ t => t.ringState = self.tb.ringState := by
      refine meets_bind ((appendData_ringState hc d data).mono fun r t hr => ?_)
      cases r with
      | ok _ => exact meets_pure hr
      | error e => exact hr
    rcases of_attempt hm ha with ⟨rfl, hq⟩ | ⟨rfl, e, -, hq⟩ <;> exact h.congr (congrArg _ hq) (congrArg _ hq)
  | commit respond d =>
    have hm : Meets (perform hash (.commit respond d)) self.tb fun r t =>
        (∃ m, r = .error (.assertion m)) ∨ taken MAX_LOCATION_ENTRIES t.ringState =
          taken MAX_LOCATION_ENTRIES self.tb.ringState ∧
          ∀ d', t.ringState.claims d' = if d' = d then none else self.tb.ringState.claims d' := by
      refine meets_bind ((commit_meets hash hc respond d).mono fun r t hr => ?_)
      cases r with
      | ok _ =>
        obtain ⟨recording, -, hr⟩ := hr
        exact meets_pure (.inr hr.books)
      | error e =>
        rcases hr with ⟨-, -, m, rfl⟩ | ⟨recording, -, hr⟩
        · exact .inl ⟨m, rfl⟩
        · exact .inr ⟨hr.still.taken, claims_closed hr.recordings⟩
    rcases of_attempt hm ha with ⟨rfl, ⟨m, hq⟩ | hq⟩ | ⟨rfl, e, hne, ⟨m, hq⟩ | hq⟩
    · contradiction
    · exact h.close (by decide) hq.1 hq.2
    · exact absurd (Except.error.inj hq) (hne m)
    · exact h.close (by decide) hq.1 hq.2
  | abort d =>
    have hm : Meets (perform hash (.abort d)) self.tb _ := abort_meets hc.sound d
    have hq : taken MAX_LOCATION_ENTRIES self'.tb.ringState = taken MAX_LOCATION_ENTRIES self.tb.ringState ∧
        ∀ d', self'.tb.ringState.claims d' = if d' = d then none else self.tb.ringState.claims d' := by
      rcases of_attempt hm ha with ⟨-, -, hq⟩ | ⟨-, e, -, hq, -⟩
      · cases hf : self.tb.findRecording d with
        | none =>
          rw [hf] at hq
          rw [hq]
          refine ⟨rfl, fun d' => ?_⟩
          split
          · rename_i he
            rw [he, claims_eq_none.mpr hf]
          · rfl
        | some recording =>
          rw [hf] at hq
          rw [hq]
          exact ⟨(still_close hc rfl).taken, claims_close rfl⟩
      · contradiction
    exact h.close (by decide) hq.1 hq.2
  | acknowledge upTo =>
    have hm : Meets (perform hash (.acknowledge upTo)) self.tb fun _ t => t = self.tb.acknowledge upTo :=
      meets_modify rfl
    have hq : self'.tb = self.tb.acknowledge upTo := by
      rcases of_attempt hm ha with ⟨-, hq⟩ | ⟨-, e, -, hq⟩ <;> exact hq
    obtain ⟨-, htake, hclaims⟩ := (lasting_books _ _).acknowledge upTo ⟨hc, rfl, rfl⟩
    rw [hq]
    exact h.congr htake hclaims
  | onWatermark threshold =>
    have hm : Meets (perform hash (.onWatermark threshold)) self.tb fun _ t => t = self.tb.onWatermark threshold :=
      meets_modify rfl
    have hq : self'.tb = self.tb.onWatermark threshold := by
      rcases of_attempt hm ha with ⟨-, hq⟩ | ⟨-, e, -, hq⟩ <;> exact hq
    rw [hq]
    exact h.congr rfl rfl
  | clear =>
    have hm : Meets (perform hash .clear) self.tb _ := clear_ok hc
    have hq : Fresh self'.tb := by
      rcases of_attempt hm ha with ⟨-, -, hq, -⟩ | ⟨-, e, -, -, hq, -⟩ <;> exact hq
    exact tracks_fresh hq

theorem Reachable.tracks {s : Session} (h : Reachable hash s) : Consistent s.tb ∧ Tracks s.tb s.log := by
  induction h with
  | create hwf hc =>
    have hf := (create_ok hwf hc).1
    exact ⟨hf.consistent, tracks_fresh hf⟩
  | step _ hs ih => exact ⟨(step_keeps ih.1 (step_tb hs)).1, tracks_step ih.1 ih.2 hs⟩

/-- The entries of the log whose slots are still in the ring, in the order in which they began. -/
def resident (self : Session) : List Cursor :=
  (self.log.filter fun e => (self.tb.residentNode e.at_.slot).isSome).map Entry.at_

/-- Going from the tail to the cursor and back visits the entries that are still in the ring, and a step undoes the
other one. -/
structure Iterates (s : Session) : Prop where
  onward : ∃ n, SlotRing.forward s.tb.next s.tb.cursor n ⟨s.tb.tail, 0⟩ = some s.resident
  back : ∃ n, SlotRing.backward s.tb.prev ⟨s.tb.tail, 0⟩ n s.tb.cursor = some s.resident.reverse
  prev_next : ∀ p ∈ s.resident, s.tb.prev (s.tb.next p) = p
  next_prev : ∀ p ∈ s.resident, p ≠ ⟨s.tb.tail, 0⟩ → s.tb.next (s.tb.prev p) = p

section

variable (hc : Consistent self.tb) (h : Tracks self.tb self.log)
include hc h

theorem resident_iff {k : Nat} {e : Entry} (he : self.log[k]? = some e) :
    (self.tb.residentNode e.at_.slot).isSome ↔ MAX_LOCATION_ENTRIES * self.tb.tail ≤ k := by
  have hk : k < taken MAX_LOCATION_ENTRIES self.tb.ringState := h.length ▸ (List.getElem?_eq_some_iff.mp he).1
  rw [h.placed k e he, residentNode, Option.isSome_ite]
  exact hc.sound.resident_position hk

/-- The entries that were acknowledged come first in the log. -/
theorem resident_eq_drop : self.resident = (self.log.drop (MAX_LOCATION_ENTRIES * self.tb.tail)).map Entry.at_ := by
  rw [resident]
  congr 1
  conv_lhs => rw [← List.take_append_drop (MAX_LOCATION_ENTRIES * self.tb.tail) self.log]
  rw [List.filter_append, List.filter_eq_nil_iff.mpr, List.nil_append, List.filter_eq_self.mpr]
  · intro e he
    obtain ⟨k, hk⟩ := List.mem_iff_getElem?.mp he
    rw [List.getElem?_drop] at hk
    exact (resident_iff hc h hk).mpr (Nat.le_add_right _ _)
  · intro e he
    obtain ⟨k, hk⟩ := List.mem_iff_getElem?.mp he
    have hlt : k < MAX_LOCATION_ENTRIES * self.tb.tail :=
      Nat.lt_of_lt_of_le (List.getElem?_eq_some_iff.mp hk).1 (List.length_take_le _ _)
    rw [List.getElem?_take_of_lt hlt] at hk
    exact fun hr => Nat.not_le.mpr hlt ((resident_iff hc h hk).mp hr)

theorem length_resident : self.resident.length =
    taken MAX_LOCATION_ENTRIES self.tb.ringState - MAX_LOCATION_ENTRIES * self.tb.tail := by
  rw [resident_eq_drop hc h, List.length_map, List.length_drop, h.length]

theorem resident_eq : self.resident =
    positions MAX_LOCATION_ENTRIES (MAX_LOCATION_ENTRIES * self.tb.tail) (taken MAX_LOCATION_ENTRIES self.tb.ringState) := by
  apply List.ext_getElem
  · rw [length_resident hc h]
    simp [positions]
  · intro k hk _
    simp only [resident_eq_drop hc h, positions, List.getElem_map, List.getElem_drop, List.getElem_range', Nat.one_mul]
    exact h.placed _ _ (List.getElem?_eq_getElem _)

theorem mem_resident {p : Cursor} (hp : p ∈ self.resident)
    (hspan : span MAX_LOCATION_ENTRIES self.tb.ringState = taken MAX_LOCATION_ENTRIES self.tb.ringState) :
    ∃ k, MAX_LOCATION_ENTRIES * self.tb.tail ≤ k ∧ k < span MAX_LOCATION_ENTRIES self.tb.ringState ∧
      p = iterator MAX_LOCATION_ENTRIES self.tb.ringState k := by
  rw [resident_eq hc h, positions, List.mem_map] at hp
  obtain ⟨k, hk, rfl⟩ := hp
  rw [List.mem_range'_1] at hk
  have hlt : k < span MAX_LOCATION_ENTRIES self.tb.ringState := by omega
  exact ⟨k, hk.1, hlt, (if_pos hlt).symm⟩

end

/-- Where the iterators come to what they should, the ring has room. -/
theorem room_of_iterates (h : Reachable hash self) (hi : self.Iterates) :
    self.tb.head < self.tb.tail + self.tb.ringSize := by
  obtain ⟨hc, htracks⟩ := h.tracks
  have hpos : 0 < MAX_LOCATION_ENTRIES := by decide
  obtain ⟨⟨n, hforward⟩, -⟩ := hc.sound.iterate hpos
  rw [next_ringState] at hforward
  obtain ⟨k, hk⟩ := hi.onward
  have hlength := congrArg List.length (forward_unique hk hforward)
  rw [resident_eq hc htracks] at hlength
  have hle : MAX_LOCATION_ENTRIES * self.tb.tail ≤ taken MAX_LOCATION_ENTRIES self.tb.ringState :=
    (Nat.mul_le_mul_left _ hc.sound.tail_le).trans (Nat.le_add_right _ _)
  have hle' : MAX_LOCATION_ENTRIES * self.tb.tail ≤ span MAX_LOCATION_ENTRIES self.tb.ringState :=
    (Nat.mul_le_mul_left _ hc.sound.tail_le).trans (Nat.le_add_right _ _)
  change (positions _ _ _).length = (positions _ (MAX_LOCATION_ENTRIES * self.tb.tail) _).length at hlength
  simp only [positions, List.length_map, List.length_range'] at hlength
  exact (hc.sound.span_eq_taken hpos).mp (by omega)

theorem iterates_of_room (h : Reachable hash self) (hroom : self.tb.head < self.tb.tail + self.tb.ringSize) :
    self.Iterates := by
  obtain ⟨hc, htracks⟩ := h.tracks
  have hpos : 0 < MAX_LOCATION_ENTRIES := by decide
  obtain ⟨⟨n, hforward⟩, m, hbackward⟩ := hc.sound.iterate hpos
  rw [next_ringState] at hforward
  rw [prev_ringState] at hbackward
  have hresident := resident_eq hc htracks
  have hall := (hc.sound.span_eq_taken hpos).mpr hroom
  rw [← hall] at hresident
  refine ⟨⟨n, hforward.trans (congrArg some hresident.symm)⟩, ⟨m, hbackward.trans (by rw [hresident]; rfl)⟩,
    fun p hp => ?_, fun p hp hne => ?_⟩
  · obtain ⟨k, hk, hk', rfl⟩ := mem_resident hc htracks hp hall
    rw [← next_ringState, ← prev_ringState, hc.sound.next_iterator hk hk', hc.sound.prev_iterator hk hk']
  · obtain ⟨k, hk, hk', rfl⟩ := mem_resident hc htracks hp hall
    -- The first position is the only one without a position in front of it.
    have hlt : MAX_LOCATION_ENTRIES * self.tb.tail < k := by
      refine Nat.lt_of_le_of_ne hk fun he => hne ?_
      rw [← he]
      exact hc.sound.iterator_tail hpos
    obtain ⟨k, rfl⟩ : ∃ j, k = j + 1 := ⟨k - 1, by omega⟩
    have hk : MAX_LOCATION_ENTRIES * self.tb.tail ≤ k := Nat.le_of_lt_succ hlt
    rw [← next_ringState, ← prev_ringState, hc.sound.prev_iterator hk (Nat.lt_of_succ_lt hk'),
      hc.sound.next_iterator hk (Nat.lt_of_succ_lt hk')]

/-- A recording begins, at a head where another one began before or where there is a buffer. -/
theorem Reachable.begin (h : Reachable hash self) {r : SlotRing U8} (hring : self.tb.ringState = r) {d : U8}
    (hroom : r.slot (r.node r.head) = some r.head ∧ r.count (r.node r.head) < MAX_LOCATION_ENTRIES ∨
      r.slot (r.node r.head) = none ∧ 0 < self.tb.mgr.available)
    (hn : r.claims d = none) :
    ∃ s, Reachable hash s ∧ s.tb.ringState = r.claim d ∧
      s.log.map Entry.initiator = self.log.map Entry.initiator ++ [d] := by
  subst hring
  have hslot : self.tb.currentNode.slot = self.tb.ringState.slot (self.tb.ringState.node self.tb.ringState.head) := rfl
  have hcount : self.tb.currentNode.count = self.tb.ringState.count (self.tb.ringState.node self.tb.ringState.head) := rfl
  obtain ⟨t, ht, hclaim⟩ := attempt_begin h.tracks.1 (fun _ => [])
    (by
      rintro ⟨hs, hle⟩
      rw [hslot] at hs
      rcases hroom with ⟨-, hlt⟩ | ⟨hnone, -⟩
      · exact Nat.not_le.mpr hlt hle
      · rw [hnone] at hs
        contradiction)
    (hroom.symm.imp And.left And.left) hn
    (fun hs => by
      rcases hroom with ⟨hsome, -⟩ | ⟨-, hav⟩
      · rw [hslot, hsome] at hs
        contradiction
      · exact hav)
  exact ⟨⟨t, self.log.note (.begin (fun _ => []) d) true t⟩, .step h (step_eq_some.mpr ⟨true, ht, rfl⟩), hclaim,
    by simp [Log.note]⟩

/-- A recording is given up. -/
theorem Reachable.abort (h : Reachable hash self) {d : U8} {p : Position} (hp : self.tb.ringState.claims d = some p) :
    ∃ s, Reachable hash s ∧ s.tb.ringState = self.tb.ringState.close d p ∧
      s.log.map Entry.initiator = self.log.map Entry.initiator := by
  obtain ⟨t, ht, hring⟩ := attempt_abort h.tracks.1 hp
  refine ⟨⟨t, self.log.note (.abort d) true t⟩, .step h (step_eq_some.mpr ⟨true, ht, rfl⟩), hring, ?_⟩
  simp only [Log.note, Log.amend, List.map_map]
  refine List.map_congr_left fun e _ => ?_
  simp only [Function.comp_apply]
  split <;> rfl

/-- In every run, however the recordings of the initiators were interleaved, the iterators visit the resident entries
unless the head has come round to the slot of the tail. -/
theorem iterates_iff (h : Reachable hash self) : self.Iterates ↔ self.tb.head < self.tb.tail + self.tb.ringSize :=
  ⟨room_of_iterates h, iterates_of_room h⟩

/-- Two initiators record at the same time, and one of them begins anew before the other is done. -/
theorem iterates_interleaved : ∃ s, Reachable (fun _ => 0) s ∧ s.log.map Entry.initiator = [1, 2, 1] ∧
    s.resident = [⟨0, 0⟩, ⟨0, 1⟩, ⟨0, 2⟩] ∧ s.Iterates := by
  have hav : 2 ≤ Bts.BufferManager.empty.available := by decide
  obtain ⟨tb, htb⟩ := create_succeeds Bts.BufferManager.wf_empty Nat.two_pos (by omega)
  obtain ⟨hfresh, hsize, hleft⟩ := create_ok Bts.BufferManager.wf_empty htb
  have h₀ : @Reachable (fun _ => 0) ⟨tb, []⟩ := .create Bts.BufferManager.wf_empty htb
  obtain ⟨s₁, h₁, hr₁, hl₁⟩ := h₀.begin (hfresh.vacant.trans (congrArg vacant hsize)) (d := 1)
    (.inr ⟨rfl, by change 0 < tb.mgr.available; omega⟩) rfl
  obtain ⟨s₂, h₂, hr₂, hl₂⟩ := h₁.begin hr₁ (d := 2) (.inl ⟨by decide, by decide⟩) (by decide)
  obtain ⟨s₃, h₃, hr₃, hl₃⟩ := h₂.abort (d := 1) (p := ⟨0, 0⟩) (by rw [hr₂]; decide)
  rw [hr₂] at hr₃
  obtain ⟨s₄, h₄, hr₄, hl₄⟩ := h₃.begin hr₃ (d := 1) (.inl ⟨by decide, by decide⟩) (by decide)
  have hhead : s₄.tb.head = 0 := congrArg SlotRing.head hr₄
  have htail : s₄.tb.tail = 0 := congrArg SlotRing.tail hr₄
  have hring : s₄.tb.ringSize = 2 := congrArg SlotRing.size hr₄
  refine ⟨s₄, h₄, ?_, ?_, (iterates_iff h₄).mpr (by omega)⟩
  · rw [hl₄, hl₃, hl₂, hl₁]
    rfl
  · rw [resident_eq h₄.tracks.1 h₄.tracks.2, htail, hr₄]
    decide

/-- In a ring whose only slot is full, a recording that is refused leaves the cursor at 8192 entries of a slot that has
none. -/
theorem full_not_iterates : ∃ s, Reachable (fun _ => 0) s ∧ ¬ s.Iterates := by
  obtain ⟨tb, hr, hring, -⟩ := @reachable_oneSlot (fun _ => 0) _ (Nat.le_refl _)
  obtain ⟨t, hb, ht⟩ := begin_oneSlot hr.consistent hring 1
  have hstep : TraceBuffer.step (fun _ => 0) (.begin (fun _ => []) 1) tb = some t := by
    rw [TraceBuffer.step, attempt, perform, hb]
    rfl
  have hrt : TraceBuffer.Reachable (fun _ => 0) t := .step hr hstep
  obtain ⟨log, hlog⟩ := reachable_tb.mp hrt
  have hhead : t.head = 1 := congrArg SlotRing.head ht
  have htail : t.tail = 0 := congrArg SlotRing.tail ht
  have hsize : t.ringSize = 1 := congrArg SlotRing.size ht
  refine ⟨⟨t, log⟩, hlog, fun h => ?_⟩
  have := room_of_iterates hlog h
  simp only [hhead, htail, hsize] at this
  omega

end Session

end Pepp.Tvm

import Pepp.Tvm.Ring

/-!
# Opening and closing recordings

`begin` claims the next entry at the head, or throws with the ring as it was.
Closing a recording gives its reservation back and leaves every byte alone.
-/

namespace Pepp.Tvm

open Bts Outcome BufferManager SlotRing

/-- The same chains and location buffers, with the same bytes in them. -/
structure SameBuffers (tb tb' : TraceBuffer) : Prop where
  mgr : tb'.mgr = tb.mgr
  chain : ∀ name, tb'.chain name = tb.chain name
  locations : ∀ i, (tb'.ring i).locations = (tb.ring i).locations

namespace SameBuffers

variable {tb tb' : TraceBuffer}

theorem bufsOf (h : SameBuffers tb tb') (o : Owner) : tb'.bufsOf o = tb.bufsOf o := by
  cases o with
  | chain name => simp only [TraceBuffer.bufsOf, h.chain]
  | locations i => simp only [TraceBuffer.bufsOf, h.locations]

theorem storage (h : SameBuffers tb tb') (hs : Storage tb) : Storage tb' := by
  refine ⟨h.mgr ▸ hs.wf, fun o id hid => ?_, fun o => ?_, fun o o' id hid hid' => ?_⟩
  · rw [h.bufsOf] at hid
    exact h.mgr ▸ hs.live o id hid
  · rw [h.bufsOf]
    exact hs.nodup o
  · rw [h.bufsOf] at hid hid'
    exact hs.disjoint o o' id hid hid'

theorem extends_ (h : SameBuffers tb tb') (hs : Storage tb) : Extends tb tb' := fun name => by
  rw [h.mgr, h.chain]
  exact hs.extends_refl name

theorem sameLocations (h : SameBuffers tb tb') : SameLocations tb tb' := fun i => ⟨h.locations i, fun _ _ => by rw [h.mgr]⟩

end SameBuffers

namespace TraceBuffer

variable {self self' : TraceBuffer} {d : U8} {recording : Recording}

/-- A node whose books change but not its buffers. -/
theorem sameBuffers_setNode {i : Nat} {node : Node} (hc : node.code = (self.ring i).code)
    (hd : node.data = (self.ring i).data) (hl : node.locations = (self.ring i).locations) :
    SameBuffers self (self.setNode i node) where
  mgr := rfl
  chain name := by
    cases name with
    | stencils => rfl
    | code j => by_cases hj : j = i <;> simp [chain, setNode, hj, hc]
    | data j _ => by_cases hj : j = i <;> simp [chain, setNode, hj, hd]
  locations j := by by_cases hj : j = i <;> simp [setNode, hj, hl]

theorem sameBuffers_setRecording : SameBuffers self (self.setRecording d recording) where
  mgr := rfl
  chain name := by cases name <;> rfl
  locations _ := rfl

/-- The first step of `begin`: on to the next slot if this one is full. -/
def readied (self : TraceBuffer) (respond : Nat → List Cursor) : TraceBuffer :=
  if self.currentNode.slot = some self.head ∧ MAX_LOCATION_ENTRIES ≤ self.currentNode.count then
    self.advanceSlot respond
  else self

/-- The node at the head is free, or holds the head. -/
def HasRoom (self : TraceBuffer) : Prop := self.currentNode.slot = none ∨ self.currentNode.slot = some self.head

section

variable (h : Consistent self) (respond : Nat → List Cursor)
include h respond

theorem consistent_readied : Consistent (self.readied respond) := by
  unfold readied
  split
  · rename_i hfull
    exact consistent_advanceSlot h respond hfull.1 hfull.2
  · exact h

theorem later_readied : Later self (self.readied respond) := by
  unfold readied
  split
  · rename_i hfull
    exact later_advanceSlot h respond hfull.1 hfull.2
  · exact Later.refl h

/-- The slot an advance comes to holds nothing yet. -/
theorem slot_advanceSlot : (self.advanceSlot respond).currentNode.slot ≠ some (self.advanceSlot respond).head := by
  have hr := released_advanceSlot h.storage respond
  have hsize : (self.advanceSlot respond).ringSize = self.ringSize := hr.ringSize
  rw [hr.head, currentNode, nodeAt, index, hsize, hr.head]
  by_cases hi : ∀ s, self.tail ≤ s → s < (self.advanceSlot respond).tail → self.index s ≠ (self.head + 1) % self.ringSize
  · rw [hr.ring _ hi]
    intro hs
    have := (h.sound.stamp _ _ hs).2.2
    exact Nat.not_succ_le_self _ this
  · push Not at hi
    obtain ⟨s, hl, hu, he⟩ := hi
    have := (hr.reset s hl hu).2
    rw [nodeAt, index, hsize] at this
    rw [← he, index, this]
    simp [Node.empty]

theorem count_readied (hs : (self.readied respond).currentNode.slot = some (self.readied respond).head) :
    (self.readied respond).currentNode.count < MAX_LOCATION_ENTRIES := by
  unfold readied at hs ⊢
  split
  · rename_i hfull
    rw [if_pos hfull] at hs
    exact absurd hs (slot_advanceSlot h respond)
  · rename_i hfull
    rw [if_neg hfull] at hs
    exact Nat.lt_of_not_le fun hc => hfull ⟨hs, hc⟩

end

/-- What `begin` leaves behind when it has claimed an entry. -/
structure Claimed (d : U8) (tb tb' : TraceBuffer) : Prop where
  ring : tb'.ringState = tb.ringState.claim d
  recordings : tb'.recordings = fun d' => if d' = d then
    some ⟨[], [], [], d, true, DpAnchor.none, Location.null, tb.head, tb.currentNode.count⟩ else tb.recordings d'
  storage : Storage tb'
  extends_ : Extends tb tb'
  located : ∀ i, (tb'.ring i).slot ≠ none → (tb'.ring i).locations ≠ none
  stencilMap : tb'.stencilMap = tb.stencilMap
  tombstone : tb'.tombstone = tb.tombstone
  written : tb'.entryAt (tb.index tb.head) tb.currentNode.count = tb.tombstone
  others : ∀ i e, i ≠ tb.index tb.head ∨ e < tb.currentNode.count → tb'.entryAt i e = tb.entryAt i e

/-- The part of `begin` that runs once the node at the head has a location buffer. -/
theorem claim_meets (h : Consistent self) {id : Bts.ID} {node : Node} (hn : node = self.currentNode)
    (hl : node.locations = some id) (hc : node.count < MAX_LOCATION_ENTRIES) :
    Meets (do
      let recording := (self.recordings d).getD (Recording.fresh d)
      assert (!recording.active) "begin() called while this initiator is already recording"
      let recording : Recording := ⟨[], [], [], d, true, DpAnchor.none, Location.null, self.head, node.count⟩
      let node := { node with slot := some self.head, count := node.count + 1, open_ := node.open_ + 1 }
      set ((self.setNode (self.index self.head) node).setRecording d recording)
      writeLocation (self.index self.head) recording.entry self.tombstone) self fun r self' =>
        match r with
        | .ok _ => self.findRecording d = none ∧ Claimed d self self'
        | .error e => (∃ m, e = .assertion m) ∧ self.findRecording d ≠ none := by
  subst hn
  cases hf : self.findRecording d with
  | some recording =>
    obtain ⟨hr, ha⟩ := findRecording_eq_some.mp hf
    simp only [hr, Option.getD_some, assert, ha, Bool.not_true]
    exact meets_throw ⟨⟨_, rfl⟩, nofun⟩
  | none =>
    have ha : ((self.recordings d).getD (Recording.fresh d)).active = false := by
      cases hr : self.recordings d with
      | none => rfl
      | some recording =>
        cases ha : recording.active with
        | false => exact ha
        | true => rw [findRecording_eq_some.mpr ⟨hr, ha⟩] at hf; contradiction
    simp only [assert, ha, Bool.not_false]
    refine meets_bind (meets_pure (meets_bind (meets_set ?_)))
    set opened : Recording := ⟨[], [], [], d, true, DpAnchor.none, Location.null, self.head, self.currentNode.count⟩
    set node : Node := { self.currentNode with
      slot := some self.head, count := self.currentNode.count + 1, open_ := self.currentNode.open_ + 1 }
    have hb : SameBuffers self ((self.setNode (self.index self.head) node).setRecording d opened) := by
      have h₁ : SameBuffers self (self.setNode (self.index self.head) node) := sameBuffers_setNode rfl rfl rfl
      have h₂ : SameBuffers _ ((self.setNode (self.index self.head) node).setRecording d opened) :=
        sameBuffers_setRecording
      exact ⟨h₂.mgr.trans h₁.mgr, fun n => (h₂.chain n).trans (h₁.chain n), fun i => (h₂.locations i).trans (h₁.locations i)⟩
    refine (writeLocation_meets (hb.storage h.storage) ((hb.locations _).trans hl) hc).mono fun r self' hw => ?_
    obtain ⟨⟨u, rfl⟩, hw⟩ := hw
    refine ⟨trivial, ?_, ?_, hw.storage, (hb.extends_ h.storage).trans hw.extends_, fun i hi => ?_, ?_, ?_, hw.written, fun i e hie => ?_⟩
    · rw [hw.only]
      exact show ((self.setNode (self.index self.head) node).setRecording d opened).ringState = _ from
        ringState_claim rfl rfl rfl
    · rw [hw.only]
      rfl
    · rw [hw.only] at hi ⊢
      by_cases he : i = self.index self.head
      · have : self.currentNode.locations = some id := hl
        simp [setRecording, setNode, he, node, this]
      · simp only [setRecording, setNode, if_neg he] at hi ⊢
        exact h.located i hi
    · rw [hw.only]
      rfl
    · rw [hw.only]
      rfl
    · rw [hw.others i e (hie.imp_right Nat.ne_of_lt), entryAt_of_sameLocations hb.sameLocations]

theorem allocBuffer_error {mgr : BufferManager} {e : Exception} (h : mgr.allocBuffer = .error e) :
    ∃ m, e = .runtimeError m := by
  unfold BufferManager.allocBuffer at h
  split at h
  · contradiction
  · split at h
    · exact ⟨_, (Except.error.inj h).symm⟩
    · contradiction

/-- Giving a node the location buffer it lacks. -/
theorem consistent_allocLocations (h : Consistent self) {i : Nat} {id : Bts.ID} {mgr : BufferManager}
    (hl : (self.ring i).locations = none) (ha : self.mgr.allocBuffer = .ok (id, mgr)) :
    Consistent ({ self with mgr := mgr }.setNode i { self.ring i with locations := some id }) := by
  obtain ⟨hst, hext, -, hoth⟩ := h.storage.allocLocations hl ha
  have hs : ({ self with mgr := mgr }.setNode i { self.ring i with locations := some id }).ringState = self.ringState := by
    refine SlotRing.ext rfl rfl rfl (funext fun j => ?_) (funext fun j => ?_) (funext fun j => ?_) rfl <;>
      by_cases hj : j = i <;> simp [ringState, setNode, hj]
  refine ⟨hs ▸ h.sound, hst, fun j hj => ?_, fun k entry he => (h.stencils k entry he).keeps (hext .stencils),
    ⟨h.tombstone.1, hext.holds h.tombstone.2⟩, h.ident, fun d at_ hc => ?_⟩
  · by_cases he : j = i
    · simp [setNode, he]
    · simp only [setNode, if_neg he] at hj ⊢
      exact h.located j hj
  · rw [hs] at hc
    have hne : self.index at_.slot ≠ i := by
      rintro rfl
      refine h.located (self.index at_.slot) ?_ hl
      rw [show (self.ring (self.index at_.slot)).slot = some at_.slot from (h.sound.claimed d at_ hc).1]
      simp
    exact (hoth _ hne _).trans (h.opened d at_ hc)

/-- `begin` claims an entry, or throws: at a node that holds another slot before anything happened, for lack of
buffers, or because this initiator is recording already. -/
theorem begin_meets (h : Consistent self) (respond : Nat → List Cursor) (d : U8) :
    Meets (begin respond d) self fun r self' =>
      match r with
      | .ok _ => (self.readied respond).HasRoom ∧ (self.readied respond).findRecording d = none ∧
          Claimed d (self.readied respond) self'
      | .error e => e = .ringOverflow (self.readied respond).head ∧ ¬ (self.readied respond).HasRoom ∧
            self' = self.readied respond ∨
          (self.readied respond).HasRoom ∧ ((∃ m, e = .assertion m) ∧ (self.readied respond).findRecording d ≠ none ∨
            (∃ m, e = .runtimeError m) ∧ self' = self.readied respond ∧
              (self.readied respond).currentNode.slot = none ∧ (self.readied respond).mgr.available = 0) := by
  have hready : ∀ {Q : Except Exception Unit → TraceBuffer → Prop} {f : TraceM Unit},
      Meets f (self.readied respond) Q →
      Meets (if self.currentNode.slot = some self.head ∧ MAX_LOCATION_ENTRIES ≤ self.currentNode.count then
        (do set (self.advanceSlot respond); f) else f) self Q := by
    intro Q f hf
    unfold readied at hf
    split at hf <;> rename_i hfull
    · rw [if_pos hfull]
      exact meets_bind (meets_set hf)
    · rw [if_neg hfull]
      exact hf
  have h₁ := consistent_readied h respond
  have hcount := count_readied h respond
  unfold begin
  apply meets_get
  apply hready
  set t := self.readied respond
  apply meets_get
  by_cases hroom : t.HasRoom
  · rw [if_neg (by rcases hroom with hs | hs <;> simp [hs])]
    have hc : t.currentNode.count < MAX_LOCATION_ENTRIES := by
      rcases hroom with hs | hs
      · rw [show t.currentNode.count = 0 from (h₁.sound.free _ hs).1]
        decide
      · exact hcount hs
    cases hl : t.currentNode.locations with
    | some id =>
      rw [if_neg (by simp)]
      apply meets_get
      refine (claim_meets (d := d) h₁ rfl hl hc).mono fun r self' hr => ?_
      cases r with
      | ok _ => exact ⟨hroom, hr⟩
      | error e => exact .inr ⟨hroom, .inl hr⟩
    | none =>
      rw [if_pos rfl]
      cases ha : t.mgr.allocBuffer with
      | error e =>
        have hslot : t.currentNode.slot = none := by
          by_contra hs
          exact h₁.located _ hs hl
        have hav : ¬ 0 < t.mgr.available := (allocBuffer_eq_ok h₁.storage.wf).not.mp (by simp [ha])
        exact meets_bind (meets_throw (.inr ⟨hroom, .inr ⟨allocBuffer_error ha, rfl, hslot, by omega⟩⟩))
      | ok r =>
        obtain ⟨id, mgr⟩ := r
        have h₂ := consistent_allocLocations h₁ hl ha
        obtain ⟨-, hext, -, hoth⟩ := h₁.storage.allocLocations hl ha
        set a := { t with mgr := mgr }.setNode (t.index t.head) { t.ring (t.index t.head) with locations := some id } with hadef
        have hnode : a.currentNode = { t.ring (t.index t.head) with locations := some id } := if_pos rfl
        have hcnt : a.currentNode.count = t.currentNode.count := by rw [hnode]; rfl
        have hring : a.ringState = t.ringState := by
          refine SlotRing.ext rfl rfl rfl (funext fun j => ?_) (funext fun j => ?_) (funext fun j => ?_) rfl <;>
            by_cases hj : j = t.index t.head <;> simp [hadef, ringState, setNode, hj]
        refine meets_bind (meets_set (meets_get ?_))
        refine (claim_meets (d := d) h₂ rfl (show a.currentNode.locations = some id by rw [hnode]) (hcnt ▸ hc)).mono fun r self' hr => ?_
        cases r with
        | error e => exact .inr ⟨hroom, .inl hr⟩
        | ok _ =>
          obtain ⟨hf, hcl⟩ := hr
          have hzero : t.currentNode.count = 0 := by
            by_contra hne
            cases hs : t.currentNode.slot with
            | none => exact hne (h₁.sound.free _ hs).1
            | some s => exact h₁.located _ (by rw [show (t.ring (t.index t.head)).slot = some s from hs]; simp) hl
          refine ⟨hroom, hf, hring ▸ hcl.ring, hcnt ▸ hcl.recordings, hcl.storage, hext.trans hcl.extends_, hcl.located,
            hcl.stencilMap, hcl.tombstone, hcnt ▸ hcl.written, fun i e hie => ?_⟩
          have hne : i ≠ t.index t.head := hie.resolve_right (by omega)
          rw [hcl.others i e (.inl hne), hoth i hne]
  · rw [if_pos (by simpa [HasRoom, not_or] using hroom)]
    exact meets_throw (.inl ⟨rfl, hroom, rfl⟩)

section Claim

variable {tb tb' : TraceBuffer}

theorem claims_eq_none : tb.ringState.claims d = none ↔ tb.findRecording d = none := Option.map_eq_none_iff

theorem Claimed.consistent (h : Claimed d tb tb') (hc : Consistent tb) (hroom : tb.HasRoom)
    (hcount : tb.currentNode.slot = some tb.head → tb.currentNode.count < MAX_LOCATION_ENTRIES)
    (hf : tb.findRecording d = none) : Consistent tb' where
  sound := h.ring ▸ hc.sound.claim (by decide) (claims_eq_none.mpr hf) (hroom.imp_right fun hs => ⟨hs, hcount hs⟩)
  storage := h.storage
  located := h.located
  stencils k entry he := (hc.stencils k entry (h.stencilMap ▸ he)).keeps (h.extends_ .stencils)
  tombstone := h.tombstone ▸ ⟨hc.tombstone.1, h.extends_.holds hc.tombstone.2⟩
  ident d' recording hr := by
    rw [h.recordings] at hr
    dsimp only at hr
    split at hr
    · rename_i he
      rw [← Option.some.inj hr, he]
    · exact hc.ident d' recording hr
  opened d' at_ hcl := by
    have hidx : tb'.index at_.slot = tb.index at_.slot := by
      simp only [index, show tb'.ringSize = tb.ringSize from congrArg SlotRing.size h.ring]
    rw [h.ring] at hcl
    simp only [SlotRing.claim, Function.update_apply] at hcl
    rw [hidx, h.tombstone]
    split at hcl
    · cases Option.some.inj hcl
      exact h.written
    · rw [h.others _ _ ?_, hc.opened d' at_ hcl]
      by_cases he : tb.index at_.slot = tb.index tb.head
      · refine .inr ?_
        have := (hc.sound.claimed d' at_ hcl).2
        change at_.entry < (tb.ring (tb.index at_.slot)).count at this
        rwa [he] at this
      · exact .inl he

theorem Claimed.later (h : Claimed d tb tb') (hroom : tb.HasRoom) : Later tb tb' := by
  have hsize : tb'.ringSize = tb.ringSize := congrArg SlotRing.size h.ring
  have hidx : ∀ s, tb'.index s = tb.index s := fun s => by simp only [index, hsize]
  have hslot : ∀ i, (tb'.ring i).slot = if i = tb.index tb.head then some tb.head else (tb.ring i).slot := by
    intro i
    have := congrFun (congrArg SlotRing.slot h.ring) i
    simp only [SlotRing.claim, Function.update_apply] at this
    exact this
  have hcount : ∀ i, (tb.ring i).count ≤ (tb'.ring i).count := by
    intro i
    have : (tb'.ring i).count = if i = tb.index tb.head then tb.currentNode.count + 1 else (tb.ring i).count := by
      have := congrFun (congrArg SlotRing.count h.ring) i
      simp only [SlotRing.claim, Function.update_apply] at this
      exact this
    rw [this]
    split
    · rename_i he
      rw [he]
      exact Nat.le_succ _
    · exact Nat.le_refl _
  have hat : ∀ s, (tb.nodeAt s).slot = some s → tb.index s = tb.index tb.head → s = tb.head := by
    intro s hs he
    rw [nodeAt, he] at hs
    rcases hroom with hr | hr <;> rw [currentNode, nodeAt] at hr <;> rw [hr] at hs
    · contradiction
    · exact (Option.some.inj hs).symm
  refine ⟨hsize, (congrArg SlotRing.head h.ring).ge, (congrArg SlotRing.tail h.ring).ge, h.tombstone,
    h.extends_ .stencils, fun k entry he => ⟨entry, h.stencilMap ▸ he, rfl, rfl⟩, fun s hs _ => ⟨?_, ?_⟩,
    fun _ name _ _ _ => h.extends_ name, fun d' at_ hc hr _ => ?_, fun at_ hr _ _ => h.others _ _ ?_⟩
  · rw [nodeAt, hidx, hslot]
    split
    · rename_i he
      rw [hat s hs he]
    · exact hs
  · rw [nodeAt, nodeAt, hidx]
    exact hcount _
  · rw [h.ring] at hc
    simp only [SlotRing.claim, Function.update_apply] at hc
    split at hc
    · have := Option.some.inj hc
      subst this
      exact absurd hr.2 (Nat.lt_irrefl _)
    · exact hc
  · by_cases he : tb.index at_.slot = tb.index tb.head
    · refine .inr ?_
      have := hr.2
      rwa [nodeAt, he] at this
    · exact .inl he

end Claim

/-- `begin` never leaves an inconsistent state, unless it was called out of turn. -/
theorem begin_keeps (h : Consistent self) (respond : Nat → List Cursor) (d : U8) :
    Meets (begin respond d) self fun r self' =>
      (∃ m, r = .error (.assertion m)) ∨ Consistent self' ∧ Later self self' := by
  refine (begin_meets h respond d).mono fun r self' hr => ?_
  have h₁ := consistent_readied h respond
  have hl := later_readied h respond
  cases r with
  | ok _ =>
    obtain ⟨hroom, hf, hc⟩ := hr
    exact .inr ⟨hc.consistent h₁ hroom (count_readied h respond) hf, hl.trans (hc.later hroom)⟩
  | error e =>
    rcases hr with ⟨-, -, rfl⟩ | ⟨-, ⟨⟨m, rfl⟩, -⟩ | ⟨-, rfl, -⟩⟩
    · exact .inr ⟨h₁, hl⟩
    · exact .inl ⟨m, rfl⟩
    · exact .inr ⟨h₁, hl⟩

/-- With room at the head, and a buffer for a node that has none, an initiator that is not recording can begin. -/
theorem begin_ok (h : Consistent self) (respond : Nat → List Cursor)
    (hfull : ¬ (self.currentNode.slot = some self.head ∧ MAX_LOCATION_ENTRIES ≤ self.currentNode.count))
    (hroom : self.HasRoom) (hn : self.findRecording d = none)
    (hav : self.currentNode.slot = none → 0 < self.mgr.available) :
    ∃ t, begin respond d self = .ok () t ∧ Claimed d self t := by
  have hready : self.readied respond = self := if_neg hfull
  have hm := begin_meets h respond d
  rw [hready] at hm
  unfold Meets at hm
  cases hb : begin respond d self with
  | ok _ t =>
    rw [hb] at hm
    exact ⟨t, rfl, hm.2.2⟩
  | error e t =>
    rw [hb] at hm
    rcases hm with ⟨-, hr, -⟩ | ⟨-, ⟨-, hf⟩ | ⟨-, -, hs, hz⟩⟩
    · exact absurd hroom hr
    · exact absurd hn hf
    · exact absurd (hav hs) (by omega)

/-! Closing and editing -/

/-- A recording closes: its reservation is given back, and it is left as `closed`. -/
def close (self : TraceBuffer) (d : U8) (recording closed : Recording) : TraceBuffer :=
  (self.setNode (self.index recording.slot) { self.ring (self.index recording.slot) with
    open_ := (self.ring (self.index recording.slot)).open_ - 1 }).setRecording d closed

variable {closed : Recording}

theorem sameBuffers_close : SameBuffers self (self.close d recording closed) := by
  have h₁ : SameBuffers self (self.setNode (self.index recording.slot) { self.ring (self.index recording.slot) with
    open_ := (self.ring (self.index recording.slot)).open_ - 1 }) := sameBuffers_setNode rfl rfl rfl
  have h₂ : SameBuffers _ (self.close d recording closed) := sameBuffers_setRecording
  exact ⟨h₂.mgr.trans h₁.mgr, fun n => (h₂.chain n).trans (h₁.chain n), fun i => (h₂.locations i).trans (h₁.locations i)⟩

theorem ring_close (i : Nat) : ((self.close d recording closed).ring i).slot = (self.ring i).slot ∧
    ((self.close d recording closed).ring i).count = (self.ring i).count := by
  by_cases hi : i = self.index recording.slot <;> simp [close, setRecording, setNode, hi]

theorem claims_close (hc : closed.active = false) (d' : U8) :
    (self.close d recording closed).ringState.claims d' = if d' = d then none else self.ringState.claims d' := by
  rw [show (self.close d recording closed).ringState = _ from ringState_close hc]
  exact Function.update_apply ..

theorem consistent_close (h : Consistent self) (hf : self.findRecording d = some recording) (hc : closed.active = false)
    (hid : closed.id = d) : Consistent (self.close d recording closed) where
  sound := by
    have hs := h.sound.close (claims_ringState.mpr ⟨recording, hf, rfl⟩)
    rwa [← ringState_close hc] at hs
  storage := sameBuffers_close.storage h.storage
  located i hi := by
    rw [(ring_close i).1] at hi
    rw [sameBuffers_close.locations]
    exact h.located i hi
  stencils k entry he := (h.stencils k entry he).keeps (sameBuffers_close.extends_ h.storage .stencils)
  tombstone := ⟨h.tombstone.1, (sameBuffers_close.extends_ h.storage).holds h.tombstone.2⟩
  ident d' recording' hr := by
    simp only [close, setRecording] at hr
    split at hr
    · rename_i he
      rw [← Option.some.inj hr, he, hid]
    · exact h.ident d' recording' hr
  opened d' at_ hcl := by
    rw [claims_close hc] at hcl
    split at hcl
    · contradiction
    · exact (entryAt_of_sameLocations sameBuffers_close.sameLocations).trans (h.opened d' at_ hcl)

theorem still_close (h : Consistent self) (hc : closed.active = false) :
    Still self (self.close d recording closed) where
  ringSize := rfl
  head := rfl
  tail := rfl
  tombstone := rfl
  slot i := (ring_close i).1
  count i := (ring_close i).2
  extends_ := sameBuffers_close.extends_ h.storage
  stencilMap _ entry he := ⟨entry, he, rfl, rfl⟩
  claims d' at_ hcl := by
    rw [claims_close hc] at hcl
    split at hcl
    · contradiction
    · exact hcl
  entries _ _ _ := entryAt_of_sameLocations sameBuffers_close.sameLocations

theorem opens_pos (h : Sound MAX_LOCATION_ENTRIES self.ringState) (hf : self.findRecording d = some recording) :
    0 < (self.ring (self.index recording.slot)).open_ :=
  h.opens_pos (claims_ringState.mpr ⟨recording, hf, rfl⟩)

/-- What `abort` leaves of a recording. -/
def Recording.aborted (recording : Recording) : Recording :=
  ⟨[], [], [], recording.id, false, DpAnchor.none, Location.null, recording.slot, recording.entry⟩

theorem abort_meets (h : Sound MAX_LOCATION_ENTRIES self.ringState) (d : U8) :
    Meets (abort d) self fun r self' => r = .ok () ∧
      match self.findRecording d with
      | none => self' = self
      | some recording => self' = self.close d recording (Recording.aborted recording) := by
  unfold abort
  apply meets_get
  cases hf : self.findRecording d with
  | none => exact meets_pure ⟨rfl, rfl⟩
  | some recording =>
    unfold assert
    dsimp only
    rw [if_pos (by simpa using opens_pos h hf)]
    exact meets_bind (meets_pure (meets_set ⟨rfl, rfl⟩))

theorem abort_keeps (h : Consistent self) (d : U8) :
    Meets (abort d) self fun r self' => r = .ok () ∧ Consistent self' ∧ Later self self' := by
  refine (abort_meets h.sound d).mono fun r self' hr => ⟨hr.1, ?_⟩
  cases hf : self.findRecording d with
  | none =>
    rw [hf] at hr
    obtain rfl := hr.2
    exact ⟨h, Later.refl h⟩
  | some recording =>
    rw [hf] at hr
    obtain rfl := hr.2
    have hid := h.ident d recording (findRecording_eq_some.mp hf).1
    exact ⟨consistent_close h hf rfl hid, (still_close h rfl).later⟩

end TraceBuffer

end Pepp.Tvm

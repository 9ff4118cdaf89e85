import Pepp.Tvm.Release

/-!
# The ring of a trace buffer

Read as a ring of slots, a trace buffer claims an entry when a recording begins
and closes it when the recording commits or aborts. Acknowledging retires slots.
-/

namespace Pepp

instance : Fintype U8 := Fintype.ofEquiv (Fin (2 ^ 8)) ⟨BitVec.ofFin, BitVec.toFin, fun _ => rfl, fun ⟨_⟩ => rfl⟩

namespace Tvm

open Bts Outcome BufferManager SlotRing

namespace TraceBuffer

/-- The slots, the counts and the reservations, without any bytes. -/
def ringState (tb : TraceBuffer) : SlotRing U8 where
  size := tb.ringSize
  head := tb.head
  tail := tb.tail
  slot i := (tb.ring i).slot
  count i := (tb.ring i).count
  opens i := (tb.ring i).open_
  claims d := (tb.findRecording d).map fun recording => ⟨recording.slot, recording.entry⟩

variable {self self' : TraceBuffer} {d : U8} {recording : Recording}

theorem claims_ringState {p : Position} :
    self.ringState.claims d = some p ↔ ∃ recording, self.findRecording d = some recording ∧
      p = ⟨recording.slot, recording.entry⟩ := by
  simp only [ringState, Option.map_eq_some_iff]
  exact ⟨fun ⟨r, h, he⟩ => ⟨r, h, he.symm⟩, fun ⟨r, h, he⟩ => ⟨r, h, he.symm⟩⟩

theorem findRecording_eq_some :
    self.findRecording d = some recording ↔ self.recordings d = some recording ∧ recording.active = true := by
  simp [findRecording, Option.filter_eq_some_iff]

theorem findRecording_congr (h : self'.recordings = self.recordings) : self'.findRecording d = self.findRecording d := by
  simp only [findRecording, h]

theorem findRecording_setRecording {d' : U8} :
    (self.setRecording d recording).findRecording d' =
      if d' = d then (if recording.active then some recording else none) else self.findRecording d' := by
  by_cases h : d' = d
  · subst h
    cases ha : recording.active <;> simp [findRecording, setRecording, Option.filter, ha]
  · simp [findRecording, setRecording, h]

theorem ringState_release :
    ({ self.resetNode (self.index self.tail) with tail := self.tail + 1 } : TraceBuffer).ringState =
      self.ringState.retire := by
  refine SlotRing.ext rfl rfl rfl (funext fun j => ?_) (funext fun j => ?_) (funext fun j => ?_) rfl <;>
    simp only [ringState, retire, ring_resetNode, Function.update_apply]
  iterate 3
    by_cases hj : j = self.index self.tail
    · subst hj
      simp [Node.empty, SlotRing.node, index]
    · have hne : j ≠ self.tail % self.ringSize := hj
      simp [SlotRing.node, hj, hne]

/-- Closing a recording that is open. -/
theorem ringState_close {closed : Recording} (hc : closed.active = false) :
    ((self.setNode (self.index recording.slot) { self.ring (self.index recording.slot) with
      open_ := (self.ring (self.index recording.slot)).open_ - 1 }).setRecording d closed).ringState =
      self.ringState.close d ⟨recording.slot, recording.entry⟩ := by
  refine SlotRing.ext rfl rfl rfl (funext fun j => ?_) (funext fun j => ?_) (funext fun j => ?_) (funext fun d' => ?_)
  iterate 3
    by_cases hj : j = self.index recording.slot
    · subst hj
      simp [ringState, SlotRing.close, setRecording, setNode, SlotRing.node, index]
    · have hne : j ≠ recording.slot % self.ringSize := hj
      simp [ringState, SlotRing.close, setRecording, setNode, SlotRing.node, hj, hne]
  simp only [ringState, SlotRing.close, findRecording_setRecording, hc, Function.update_apply]
  by_cases hd : d' = d <;> simp [hd, findRecording, setNode]

/-- Claiming the next entry at the head. -/
theorem ringState_claim {opened : Recording} (ha : opened.active = true) (hs : opened.slot = self.head)
    (he : opened.entry = self.currentNode.count) :
    ((self.setNode (self.index self.head) { self.currentNode with
      slot := some self.head
      count := self.currentNode.count + 1
      open_ := self.currentNode.open_ + 1 }).setRecording d opened).ringState = self.ringState.claim d := by
  refine SlotRing.ext rfl rfl rfl (funext fun j => ?_) (funext fun j => ?_) (funext fun j => ?_) (funext fun d' => ?_)
  iterate 3
    by_cases hj : j = self.index self.head
    · subst hj
      simp [ringState, SlotRing.claim, setRecording, setNode, SlotRing.node, index, currentNode, nodeAt]
    · have hne : j ≠ self.head % self.ringSize := hj
      simp [ringState, SlotRing.claim, setRecording, setNode, SlotRing.node, hj, hne]
  simp only [ringState, SlotRing.claim, findRecording_setRecording, ha, Function.update_apply]
  by_cases hd : d' = d
  · simp [hd, hs, he, currentNode, nodeAt, index, SlotRing.node]
  · simp [hd, findRecording, setNode]

end TraceBuffer

/-- The body lies where its entry says, in one piece with its `RET` where a buffer has room for both. -/
def Promoted (tb : TraceBuffer) (entry : StencilEntry) : Prop :=
  ∃ body, body.length = entry.size ∧ Holds tb .stencils entry.location body ∧
    (body.length + EncodedOp.ret0.length ≤ SIZE → Holds tb .stencils entry.location (body ++ EncodedOp.ret0))

theorem Promoted.keeps {tb tb' : TraceBuffer} {entry : StencilEntry} (h : Promoted tb entry)
    (hk : Keeps (tb.mgr, tb.stencils) (tb'.mgr, tb'.stencils)) : Promoted tb' entry := by
  obtain ⟨body, hs, hb, hr⟩ := h
  exact ⟨body, hs, hb.keeps hk, fun hle => (hr hle).keeps hk⟩

/-- What holds of a trace buffer between two operations. -/
structure Consistent (tb : TraceBuffer) : Prop where
  sound : Sound MAX_LOCATION_ENTRIES tb.ringState
  storage : Storage tb
  located : ∀ i, (tb.ring i).slot ≠ none → (tb.ring i).locations ≠ none
  stencils : ∀ h entry, tb.stencilMap h = some entry → Promoted tb entry
  tombstone : tb.tombstone.data = Location.null ∧ Holds tb .stencils tb.tombstone.code EncodedOp.halt0
  ident : ∀ d recording, tb.recordings d = some recording → recording.id = d
  opened : ∀ d at_, tb.ringState.claims d = some at_ →
    tb.entryAt (tb.index at_.slot) at_.entry = tb.tombstone

namespace TraceBuffer

variable {self self' : TraceBuffer} {d : U8} {recording : Recording}

theorem lasting_consistent : Lasting Consistent where
  watermarks tb wms h :=
    ⟨h.sound, ⟨h.storage.wf, h.storage.live, h.storage.nodup, h.storage.disjoint⟩, h.located, h.stencils, h.tombstone,
      h.ident, h.opened⟩
  release tb h hlt ho := by
    have hspec := resetNode_spec (i := tb.index tb.tail) h.storage
    have hkeep := hspec.keeps .stencils id
    refine ⟨ringState_release ▸ h.sound.retire hlt ho,
      ⟨hspec.storage.wf, hspec.storage.live, hspec.storage.nodup, hspec.storage.disjoint⟩, fun i hi => ?_,
      fun k entry he => (h.stencils k entry he).keeps hkeep, ⟨h.tombstone.1, h.tombstone.2.keeps hkeep⟩, h.ident,
      fun d at_ hc => ?_⟩
    · have hnode := @ring_resetNode tb (tb.index tb.tail) i
      change ((tb.resetNode (tb.index tb.tail)).ring i).slot ≠ none at hi
      change ((tb.resetNode (tb.index tb.tail)).ring i).locations ≠ none
      rw [hnode] at hi ⊢
      by_cases he : i = tb.index tb.tail
      · rw [if_pos he] at hi
        exact absurd rfl hi
      · rw [if_neg he] at hi ⊢
        exact h.located i hi
    · have hne : tb.index at_.slot ≠ tb.index tb.tail := by
        intro he
        have := h.sound.opens_pos hc
        change 0 < (tb.ring (tb.index at_.slot)).open_ at this
        rw [he] at this
        exact Nat.ne_of_gt this ho
      exact (hspec.entries _ hne _).trans (h.opened d at_ hc)

/-- The head may move on once its slot is full. -/
theorem consistent_advanceSlot (h : Consistent self) (respond : Nat → List Cursor)
    (hs : self.currentNode.slot = some self.head) (hc : MAX_LOCATION_ENTRIES ≤ self.currentNode.count) :
    Consistent (self.advanceSlot respond) :=
  lasting_consistent.advanceSlot respond
    ⟨h.sound.advance hs hc, ⟨h.storage.wf, h.storage.live, h.storage.nodup, h.storage.disjoint⟩, h.located, h.stencils,
      h.tombstone, h.ident, h.opened⟩

theorem consistent_acknowledge (h : Consistent self) (upTo : Cursor) : Consistent (self.acknowledge upTo) :=
  lasting_consistent.acknowledge upTo h

end TraceBuffer

end Tvm

end Pepp

/-! ## What moves on and what stays

Between two points of a run the ring moves on and chains grow. A slot that has
not been acknowledged keeps its node, its bytes, and every entry whose recording
was closed. -/

namespace Pepp.Tvm

open Bts SlotRing

/-- The entry was reserved and its slot is still in the ring. -/
def Reserved (tb : TraceBuffer) (at_ : Cursor) : Prop :=
  (tb.nodeAt at_.slot).slot = some at_.slot ∧ at_.entry < (tb.nodeAt at_.slot).count

/-- From `tb` to `tb'` recordings were made and slots released, but nothing was cleared. -/
structure Later (tb tb' : TraceBuffer) : Prop where
  ringSize : tb'.ringSize = tb.ringSize
  head : tb.head ≤ tb'.head
  tail : tb.tail ≤ tb'.tail
  tombstone : tb'.tombstone = tb.tombstone
  stencils : Keeps (tb.mgr, tb.stencils) (tb'.mgr, tb'.stencils)
  stencilMap : ∀ h entry, tb.stencilMap h = some entry →
    ∃ entry', tb'.stencilMap h = some entry' ∧ entry'.location = entry.location ∧ entry'.size = entry.size
  resident : ∀ s, (tb.nodeAt s).slot = some s → tb'.tail ≤ s →
    (tb'.nodeAt s).slot = some s ∧ (tb.nodeAt s).count ≤ (tb'.nodeAt s).count
  chains : ∀ s name, (tb.nodeAt s).slot = some s → tb'.tail ≤ s → name.inNode (tb.index s) →
    Keeps (tb.mgr, tb.chain name) (tb'.mgr, tb'.chain name)
  claims : ∀ d at_, tb'.ringState.claims d = some at_ → Reserved tb at_ → tb'.tail ≤ at_.slot →
    tb.ringState.claims d = some at_
  entries : ∀ at_, Reserved tb at_ → tb'.tail ≤ at_.slot →
    (∀ d, tb.ringState.claims d = some at_ → tb'.ringState.claims d = some at_) →
    tb'.entryAt (tb.index at_.slot) at_.entry = tb.entryAt (tb.index at_.slot) at_.entry

namespace Later

variable {tb t u : TraceBuffer}

theorem index (h : Later tb t) (s : Nat) : t.index s = tb.index s := by
  simp only [TraceBuffer.index, h.ringSize]

theorem reserved (h : Later tb t) {at_ : Cursor} (hr : Reserved tb at_) (ht : t.tail ≤ at_.slot) : Reserved t at_ := by
  obtain ⟨hs, hc⟩ := h.resident at_.slot hr.1 ht
  exact ⟨hs, Nat.lt_of_lt_of_le hr.2 hc⟩

theorem trans (h : Later tb t) (h' : Later t u) : Later tb u where
  ringSize := h'.ringSize.trans h.ringSize
  head := h.head.trans h'.head
  tail := h.tail.trans h'.tail
  tombstone := h'.tombstone.trans h.tombstone
  stencils := h.stencils.trans h'.stencils
  stencilMap k entry he := by
    obtain ⟨entry₁, he₁, hl₁, hs₁⟩ := h.stencilMap k entry he
    obtain ⟨entry₂, he₂, hl₂, hs₂⟩ := h'.stencilMap k entry₁ he₁
    exact ⟨entry₂, he₂, hl₂.trans hl₁, hs₂.trans hs₁⟩
  resident s hs ht := by
    obtain ⟨hs₁, hc₁⟩ := h.resident s hs (h'.tail.trans ht)
    obtain ⟨hs₂, hc₂⟩ := h'.resident s hs₁ ht
    exact ⟨hs₂, hc₁.trans hc₂⟩
  chains s name hs ht hn := by
    have ht₁ := h'.tail.trans ht
    refine (h.chains s name hs ht₁ hn).trans (h'.chains s name (h.resident s hs ht₁).1 ht ?_)
    rwa [h.index]
  claims d at_ hc hr ht :=
    have ht₁ := h'.tail.trans ht
    h.claims d at_ (h'.claims d at_ hc (h.reserved hr ht₁) ht) hr ht₁
  entries at_ hr ht hd := by
    have ht₁ := h'.tail.trans ht
    have hr₁ := h.reserved hr ht₁
    have h₁ := h.entries at_ hr ht₁ fun d hc => h'.claims d at_ (hd d hc) hr₁ ht
    have h₂ := h'.entries at_ hr₁ ht fun d hc => hd d (h.claims d at_ hc hr ht₁)
    rw [h.index] at h₂
    exact h₂.trans h₁

end Later

/-- The ring stands still between `tb` and `tb'`: chains may have grown and recordings may have closed. -/
structure Still (tb tb' : TraceBuffer) : Prop where
  ringSize : tb'.ringSize = tb.ringSize
  head : tb'.head = tb.head
  tail : tb'.tail = tb.tail
  tombstone : tb'.tombstone = tb.tombstone
  slot : ∀ i, (tb'.ring i).slot = (tb.ring i).slot
  count : ∀ i, (tb'.ring i).count = (tb.ring i).count
  extends_ : Extends tb tb'
  stencilMap : ∀ h entry, tb.stencilMap h = some entry →
    ∃ entry', tb'.stencilMap h = some entry' ∧ entry'.location = entry.location ∧ entry'.size = entry.size
  claims : ∀ d at_, tb'.ringState.claims d = some at_ → tb.ringState.claims d = some at_
  entries : ∀ at_, Reserved tb at_ → (∀ d, tb.ringState.claims d = some at_ → tb'.ringState.claims d = some at_) →
    tb'.entryAt (tb.index at_.slot) at_.entry = tb.entryAt (tb.index at_.slot) at_.entry

theorem Still.trans {tb t u : TraceBuffer} (h : Still tb t) (h' : Still t u) : Still tb u := by
  have hidx : ∀ s, t.index s = tb.index s := fun s => by simp only [TraceBuffer.index, h.ringSize]
  refine ⟨h'.ringSize.trans h.ringSize, h'.head.trans h.head, h'.tail.trans h.tail, h'.tombstone.trans h.tombstone,
    fun i => (h'.slot i).trans (h.slot i), fun i => (h'.count i).trans (h.count i), h.extends_.trans h'.extends_,
    fun k entry he => ?_, fun d at_ hc => h.claims d at_ (h'.claims d at_ hc), fun at_ hr hd => ?_⟩
  · obtain ⟨entry₁, he₁, hl₁, hs₁⟩ := h.stencilMap k entry he
    obtain ⟨entry₂, he₂, hl₂, hs₂⟩ := h'.stencilMap k entry₁ he₁
    exact ⟨entry₂, he₂, hl₂.trans hl₁, hs₂.trans hs₁⟩
  · have hr' : Reserved t at_ := by
      unfold Reserved TraceBuffer.nodeAt at *
      rwa [hidx, h.slot, h.count]
    have h₁ := h.entries at_ hr fun d hc => h'.claims d at_ (hd d hc)
    have h₂ := h'.entries at_ hr' fun d hc => hd d (h.claims d at_ hc)
    rw [hidx] at h₂
    exact h₂.trans h₁

theorem Still.later {tb tb' : TraceBuffer} (h : Still tb tb') : Later tb tb' := by
  have hnode : ∀ s, tb'.nodeAt s = tb'.ring (tb.index s) := fun s => by
    simp only [TraceBuffer.nodeAt, TraceBuffer.index, h.ringSize]
  refine ⟨h.ringSize, h.head.ge, h.tail.ge, h.tombstone, h.extends_ .stencils, h.stencilMap, fun s hs _ => ?_,
    fun s name _ _ _ => h.extends_ name, fun d at_ hc _ _ => h.claims d at_ hc, fun at_ hr _ hd => h.entries at_ hr hd⟩
  rw [hnode, h.slot, h.count]
  exact ⟨hs, Nat.le_refl _⟩

theorem Later.refl {tb : TraceBuffer} (h : Consistent tb) : Later tb tb :=
  Still.later ⟨rfl, rfl, rfl, rfl, fun _ => rfl, fun _ => rfl, h.storage.extends_refl,
    fun _ entry he => ⟨entry, he, rfl, rfl⟩, fun _ _ hc => hc, fun _ _ _ => rfl⟩

namespace TraceBuffer

variable {self : TraceBuffer}

/-- The released slots are not the ones that stayed. -/
theorem Released.later {tb tb' : TraceBuffer} (h : Released tb tb') (hs : Sound MAX_LOCATION_ENTRIES tb.ringState)
    (hs' : Sound MAX_LOCATION_ENTRIES tb'.ringState) : Later tb tb' := by
  have hother : ∀ s, (tb.nodeAt s).slot = some s → tb'.tail ≤ s →
      ∀ s', tb.tail ≤ s' → s' < tb'.tail → tb.index s' ≠ tb.index s := by
    intro s hres ht s' hl hu he
    have hhead : tb'.tail ≤ tb.head := h.head ▸ hs'.tail_le
    have hres' := (hs.full s' hl (Nat.lt_of_lt_of_le hu hhead)).1
    have := Sound.node_inj (r := tb.ringState) hres' hres he
    omega
  have hidx : ∀ s, tb'.index s = tb.index s := fun s => by simp only [TraceBuffer.index, h.ringSize]
  have hnode : ∀ s, (tb.nodeAt s).slot = some s → tb'.tail ≤ s → tb'.nodeAt s = tb.nodeAt s := by
    intro s hres ht
    rw [TraceBuffer.nodeAt, hidx, h.ring _ (hother s hres ht), TraceBuffer.nodeAt]
  have hclaims : tb'.ringState.claims = tb.ringState.claims := by
    funext d
    simp only [TraceBuffer.ringState, TraceBuffer.findRecording, h.recordings]
  refine ⟨h.ringSize, h.head.ge, h.tail_le, h.tombstone, ?_, fun k entry he => ⟨entry, h.stencilMap ▸ he, rfl, rfl⟩,
    fun s hres ht => ?_, fun s name hres ht hn => h.keeps name fun s' hl hu hn' => ?_,
    fun d at_ hc _ _ => hclaims ▸ hc, fun at_ hr ht _ => h.entries _ (hother _ hr.1 ht) _⟩
  · exact h.keeps .stencils fun _ _ _ hn => hn
  · rw [hnode s hres ht]
    exact ⟨hres, Nat.le_refl _⟩
  · refine hother s hres ht s' hl hu ?_
    cases name with
    | stencils => exact hn.elim
    | code j => exact hn'.symm.trans hn
    | data j _ => exact hn'.symm.trans hn

theorem later_acknowledge (h : Consistent self) (upTo : Cursor) : Later self (self.acknowledge upTo) :=
  (released_acknowledge h.storage upTo).later h.sound (consistent_acknowledge h upTo).sound

theorem later_advanceSlot (h : Consistent self) (respond : Nat → List Cursor)
    (hs : self.currentNode.slot = some self.head) (hc : MAX_LOCATION_ENTRIES ≤ self.currentNode.count) :
    Later self (self.advanceSlot respond) := by
  have hhead : Later self { self with head := self.head + 1 } := by
    refine ⟨rfl, Nat.le_succ _, Nat.le_refl _, rfl, h.storage.extends_refl .stencils, fun _ entry he => ⟨entry, he, rfl, rfl⟩,
      fun s hs _ => ⟨hs, Nat.le_refl _⟩, fun _ name _ _ _ => h.storage.extends_refl name, fun _ _ hc _ _ => hc,
      fun _ _ _ _ => rfl⟩
  exact hhead.trans ((released_advanceSlot h.storage respond).later (h.sound.advance hs hc)
    (consistent_advanceSlot h respond hs hc).sound)

end TraceBuffer

end Pepp.Tvm

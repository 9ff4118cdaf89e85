import Pepp.Alloc.Content
import Pepp.Tvm.TraceBuffer

/-!
# Who owns which buffer

Every chain and every location buffer of a trace buffer takes its buffers from
one manager. No two of them share a buffer, so an operation on one chain leaves
the others and all location buffers as they are.
-/

namespace Pepp.Tvm

open Bts Outcome BufferManager

namespace TraceBuffer

variable {self self' : TraceBuffer} {name name' : ChainName} {chain : BufferChain} {i : Nat}

@[simp] theorem mgr_setChain : (self.setChain name chain).mgr = self.mgr := by cases name <;> rfl
@[simp] theorem ringSize_setChain : (self.setChain name chain).ringSize = self.ringSize := by cases name <;> rfl
@[simp] theorem head_setChain : (self.setChain name chain).head = self.head := by cases name <;> rfl
@[simp] theorem tail_setChain : (self.setChain name chain).tail = self.tail := by cases name <;> rfl
@[simp] theorem recordings_setChain : (self.setChain name chain).recordings = self.recordings := by cases name <;> rfl
@[simp] theorem tombstone_setChain : (self.setChain name chain).tombstone = self.tombstone := by cases name <;> rfl
@[simp] theorem stencilMap_setChain : (self.setChain name chain).stencilMap = self.stencilMap := by cases name <;> rfl
@[simp] theorem pendingHashes_setChain : (self.setChain name chain).pendingHashes = self.pendingHashes := by
  cases name <;> rfl
@[simp] theorem watermarks_setChain : (self.setChain name chain).watermarks = self.watermarks := by cases name <;> rfl

theorem ring_setChain : ((self.setChain name chain).ring i).slot = (self.ring i).slot ∧
    ((self.setChain name chain).ring i).locations = (self.ring i).locations ∧
    ((self.setChain name chain).ring i).count = (self.ring i).count ∧
    ((self.setChain name chain).ring i).open_ = (self.ring i).open_ := by
  cases name with
  | stencils => exact ⟨rfl, rfl, rfl, rfl⟩
  | code j => by_cases h : i = j <;> simp [setChain, setNode, h]
  | data j d => by_cases h : i = j <;> simp [setChain, setNode, h]

@[simp] theorem chain_setChain : (self.setChain name chain).chain name' = if name' = name then chain else self.chain name' := by
  cases name with
  | stencils => cases name' <;> rfl
  | code j =>
    cases name' with
    | stencils => rfl
    | code k | data k d => by_cases h : k = j <;> simp [TraceBuffer.chain, setChain, setNode, h]
  | data j d =>
    cases name' with
    | stencils => rfl
    | code k => by_cases h : k = j <;> simp [TraceBuffer.chain, setChain, setNode, h]
    | data k d' =>
      by_cases h : k = j
      · by_cases hd : d' = d <;> simp [TraceBuffer.chain, setChain, setNode, h, hd]
      · simp [TraceBuffer.chain, setChain, setNode, h]

@[simp] theorem chain_with_mgr (mgr : BufferManager) : ({ self with mgr := mgr } : TraceBuffer).chain name = self.chain name := by
  cases name <;> rfl

end TraceBuffer

/-- What can own a buffer. -/
inductive Owner where
  | chain : ChainName → Owner
  | locations : Nat → Owner

def TraceBuffer.bufsOf (self : TraceBuffer) : Owner → List Bts.ID
  | .chain name => (self.chain name).bufs
  | .locations i => (self.ring i).locations.toList

/-- Owned buffers are live and have one owner. -/
structure Storage (tb : TraceBuffer) : Prop where
  wf : tb.mgr.Wf
  live : ∀ o, ∀ id ∈ tb.bufsOf o, tb.mgr.Live id
  nodup : ∀ o, (tb.bufsOf o).Nodup
  disjoint : ∀ o o' id, id ∈ tb.bufsOf o → id ∈ tb.bufsOf o' → o = o'

/-- Everything about the ring but what is in its buffers. -/
structure SameBooks (tb tb' : TraceBuffer) : Prop where
  ringSize : tb'.ringSize = tb.ringSize
  head : tb'.head = tb.head
  tail : tb'.tail = tb.tail
  recordings : tb'.recordings = tb.recordings
  tombstone : tb'.tombstone = tb.tombstone
  watermarks : tb'.watermarks = tb.watermarks
  slot : ∀ i, (tb'.ring i).slot = (tb.ring i).slot
  locations : ∀ i, (tb'.ring i).locations = (tb.ring i).locations
  count : ∀ i, (tb'.ring i).count = (tb.ring i).count
  open_ : ∀ i, (tb'.ring i).open_ = (tb.ring i).open_

namespace SameBooks

variable {self t u : TraceBuffer}

theorem trans (h : SameBooks self t) (h' : SameBooks t u) : SameBooks self u where
  ringSize := h'.ringSize.trans h.ringSize
  head := h'.head.trans h.head
  tail := h'.tail.trans h.tail
  recordings := h'.recordings.trans h.recordings
  tombstone := h'.tombstone.trans h.tombstone
  watermarks := h'.watermarks.trans h.watermarks
  slot i := (h'.slot i).trans (h.slot i)
  locations i := (h'.locations i).trans (h.locations i)
  count i := (h'.count i).trans (h.count i)
  open_ i := (h'.open_ i).trans (h.open_ i)

end SameBooks

/-- Chains have only grown. -/
def Extends (self self' : TraceBuffer) : Prop :=
  ∀ name, Keeps (self.mgr, self.chain name) (self'.mgr, self'.chain name)

theorem Extends.trans {self t u : TraceBuffer} (h : Extends self t) (h' : Extends t u) : Extends self u := fun name =>
  (h name).trans (h' name)

/-- No location buffer was written. -/
def SameLocations (self self' : TraceBuffer) : Prop :=
  ∀ i, (self'.ring i).locations = (self.ring i).locations ∧
    ∀ id, (self.ring i).locations = some id → self'.mgr.deref id = self.mgr.deref id

/-- The bytes `data` are handed out at `loc`, in a buffer of the chain. -/
def Holds (self : TraceBuffer) (name : ChainName) (loc : Location) (data : List U8) : Prop :=
  loc.id ∈ (self.chain name).bufs ∧ Stored self.mgr loc data

theorem Holds.keeps {self self' : TraceBuffer} {name : ChainName} {loc : Location} {data : List U8}
    (h : Holds self name loc data) (hk : Keeps (self.mgr, self.chain name) (self'.mgr, self'.chain name)) :
    Holds self' name loc data :=
  ⟨hk.subset h.1, hk.stored h.1 h.2⟩

theorem Extends.holds {self self' : TraceBuffer} (h : Extends self self') {name : ChainName} {loc : Location}
    {data : List U8} (hh : Holds self name loc data) : Holds self' name loc data := hh.keeps (h name)

namespace Storage

variable {self : TraceBuffer}

theorem owns (h : Storage self) (name : ChainName) : Owns (self.mgr, self.chain name) :=
  ⟨h.wf, h.live (.chain name), h.nodup (.chain name)⟩

theorem extends_refl (h : Storage self) : Extends self self := fun name =>
  Keeps.of_same rfl (h.live (.chain name)) fun _ _ => rfl

end Storage

/-- What an operation on one chain does to the trace buffer. -/
structure ChainStep (name : ChainName) (tb tb' : TraceBuffer) : Prop where
  storage : Storage tb'
  extends_ : Extends tb tb'
  locations : SameLocations tb tb'
  others : ∀ n, n ≠ name → ∀ id ∈ (tb.chain n).bufs, tb'.mgr.deref id = tb.mgr.deref id
  only : tb' = { tb with mgr := tb'.mgr }.setChain name (tb'.chain name)

namespace ChainStep

variable {name : ChainName} {self self' : TraceBuffer}

section

variable (h : ChainStep name self self')
include h

theorem chain_of_ne {name' : ChainName} (hne : name' ≠ name) : self'.chain name' = self.chain name' := by
  rw [h.only, TraceBuffer.chain_setChain, if_neg hne, TraceBuffer.chain_with_mgr]

theorem books : SameBooks self self' := by
  have hr := fun i => @TraceBuffer.ring_setChain { self with mgr := self'.mgr } name (self'.chain name) i
  rw [h.only]
  constructor <;> intros <;> first | simp | exact (hr _).1 | exact (hr _).2.1 | exact (hr _).2.2.1 | exact (hr _).2.2.2

theorem stencilMap : self'.stencilMap = self.stencilMap := by
  rw [h.only]
  simp

theorem pendingHashes : self'.pendingHashes = self.pendingHashes := by
  rw [h.only]
  simp

end

end ChainStep

/-- Growing one chain keeps every buffer in one pair of hands. -/
theorem Storage.chainStep {self : TraceBuffer} (h : Storage self) {name : ChainName} {s : BufferManager × BufferChain}
    (hg : Grows (self.mgr, self.chain name) s) (ho : Owns s) :
    ChainStep name self ({ self with mgr := s.1 }.setChain name s.2) := by
  have hown : ∀ o, ({ self with mgr := s.1 }.setChain name s.2).bufsOf o =
      match o with
      | .chain n => if n = name then s.2.bufs else (self.chain n).bufs
      | .locations i => (self.ring i).locations.toList := by
    intro o
    cases o with
    | chain n =>
      simp only [TraceBuffer.bufsOf, TraceBuffer.chain_setChain, TraceBuffer.chain_with_mgr]
      split <;> rfl
    | locations i => simp only [TraceBuffer.bufsOf, TraceBuffer.ring_setChain.2.1]
  -- A buffer of anyone else is live already and not one of the chain's.
  have hother : ∀ o, o ≠ .chain name → ∀ id ∈ self.bufsOf o, self.mgr.Live id ∧ id ∉ (self.chain name).bufs := by
    intro o hne id hid
    exact ⟨h.live o id hid, fun hmem => hne (h.disjoint _ _ id hid hmem)⟩
  have hframe : ∀ o, o ≠ .chain name → ∀ id ∈ self.bufsOf o, s.1.deref id = self.mgr.deref id := by
    intro o hne id hid
    exact hg.frame id (hother o hne id hid).1 (hother o hne id hid).2
  -- A buffer of the chain is an old one of it, or was free.
  have hmine : ∀ id ∈ s.2.bufs, id ∈ (self.chain name).bufs ∨ ¬ self.mgr.Live id := by
    intro id hid
    obtain ⟨new, hb, hn⟩ := hg.bufs
    rw [hb] at hid
    exact (List.mem_append.mp hid).imp_right (hn id)
  have hsame : ∀ o, o ≠ .chain name → ({ self with mgr := s.1 }.setChain name s.2).bufsOf o = self.bufsOf o := by
    intro o hne
    rw [hown]
    cases o with
    | chain n => simp only [if_neg fun he : n = name => hne (he ▸ rfl), TraceBuffer.bufsOf]
    | locations i => rfl
  have hself : ({ self with mgr := s.1 }.setChain name s.2).bufsOf (.chain name) = s.2.bufs := by
    rw [hown]
    exact if_pos rfl
  refine ⟨⟨by simpa using ho.wf, fun o id hid => ?_, fun o => ?_, fun o o' id hid hid' => ?_⟩, fun n => ?_, fun i => ?_,
    fun n hn id hid => ?_, by simp⟩
  · rw [TraceBuffer.mgr_setChain]
    by_cases hne : o = .chain name
    · subst hne
      rw [hself] at hid
      exact ho.live id hid
    · rw [hsame o hne] at hid
      exact hg.live id (h.live o id hid)
  · by_cases hne : o = .chain name
    · subst hne
      rw [hself]
      exact ho.nodup
    · rw [hsame o hne]
      exact h.nodup o
  · have hcross : ∀ o, o ≠ .chain name → id ∈ self.bufsOf o → id ∈ s.2.bufs → False := by
      intro o hne hid hmem
      obtain ⟨hl, hn⟩ := hother o hne id hid
      exact (hmine id hmem).elim hn fun hd => hd hl
    by_cases hne : o = .chain name <;> by_cases hne' : o' = .chain name
    · rw [hne, hne']
    · subst hne
      rw [hself] at hid
      rw [hsame o' hne'] at hid'
      exact (hcross o' hne' hid' hid).elim
    · subst hne'
      rw [hself] at hid'
      rw [hsame o hne] at hid
      exact (hcross o hne hid hid').elim
    · rw [hsame o hne] at hid
      rw [hsame o' hne'] at hid'
      exact h.disjoint o o' id hid hid'
  · rw [TraceBuffer.mgr_setChain, TraceBuffer.chain_setChain, TraceBuffer.chain_with_mgr]
    by_cases hn : n = name
    · subst hn
      rw [if_pos rfl]
      exact hg.keeps (h.owns _)
    · rw [if_neg hn]
      refine Keeps.of_same rfl (fun id hid => hg.live id (h.live (.chain n) id hid)) fun id hid => ?_
      exact hframe (.chain n) (fun he => hn (Owner.chain.inj he)) id hid
  · refine ⟨TraceBuffer.ring_setChain.2.1, fun id hid => ?_⟩
    rw [TraceBuffer.mgr_setChain]
    exact hframe (.locations i) (by simp) id (by simp [TraceBuffer.bufsOf, hid])
  · rw [TraceBuffer.mgr_setChain]
    exact hframe (.chain n) (fun he => hn (Owner.chain.inj he)) id hid

/-- An operation of a chain, run on the trace buffer. -/
theorem onChain_meets {α : Type} {self : TraceBuffer} (h : Storage self) {name : ChainName} {x : ChainM α}
    {Q : Except Exception α → BufferManager × BufferChain → Prop}
    (hx : Meets x (self.mgr, self.chain name) fun r s' => Grows (self.mgr, self.chain name) s' ∧ Owns s' ∧ Q r s') :
    Meets (TraceBuffer.onChain name x) self fun r self' => ChainStep name self self' ∧
      Q r (self'.mgr, self'.chain name) := by
  unfold Meets TraceBuffer.onChain at *
  cases hs : x (self.mgr, self.chain name) with
  | ok a s | error e s =>
    rw [hs] at hx
    refine ⟨h.chainStep hx.1 hx.2.1, ?_⟩
    simpa using hx.2.2

end Pepp.Tvm

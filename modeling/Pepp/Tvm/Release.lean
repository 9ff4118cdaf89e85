import Pepp.Tvm.Storage

/-!
# Releasing slots

An entry of a location buffer is eight bytes. Writing one changes no other
entry, of this buffer or another, and nothing that a chain handed out.
-/

namespace Pepp.Tvm

open Bts Span Outcome BufferManager

namespace TraceBuffer

variable {self self' : TraceBuffer} {i j entry e : Nat} {id : Bts.ID} {program : ProgramLocation}

/-- What the `e`-th entry of node `i` reads as. -/
def entryAt (self : TraceBuffer) (i e : Nat) : ProgramLocation := self.readLocation (self.ring i) e

theorem length_locationBytes (program : ProgramLocation) : (locationBytes program).length = 8 := by
  simp [locationBytes, EncodedOp.length_leWords]

theorem entryAt_eq (h : (self.ring i).locations = some id) :
    self.entryAt i e =
      let word := fun k => bigEndian ((self.mgr.deref id).bytes (e * 8 + 2 * k + 1)) ((self.mgr.deref id).bytes (e * 8 + 2 * k))
      ⟨⟨word 0, word 1⟩, ⟨word 2, word 3⟩⟩ := by
  simp only [entryAt, readLocation, h]

theorem entryAt_of_bytes {id' : Bts.ID} (h : (self.ring i).locations = some id) (h' : (self'.ring j).locations = some id')
    (hb : ∀ k, e * 8 ≤ k → k < e * 8 + 8 → (self'.mgr.deref id').bytes k = (self.mgr.deref id).bytes k) :
    self'.entryAt j e = self.entryAt i e := by
  rw [entryAt_eq h, entryAt_eq h']
  simp only [hb (e * 8 + 2 * 0 + 1) (by omega) (by omega), hb (e * 8 + 2 * 0) (by omega) (by omega),
    hb (e * 8 + 2 * 1 + 1) (by omega) (by omega), hb (e * 8 + 2 * 1) (by omega) (by omega),
    hb (e * 8 + 2 * 2 + 1) (by omega) (by omega), hb (e * 8 + 2 * 2) (by omega) (by omega),
    hb (e * 8 + 2 * 3 + 1) (by omega) (by omega), hb (e * 8 + 2 * 3) (by omega) (by omega)]

theorem entryAt_of_sameLocations (h : SameLocations self self') : self'.entryAt i e = self.entryAt i e := by
  obtain ⟨hl, hd⟩ := h i
  cases hloc : (self.ring i).locations with
  | none => simp [entryAt, readLocation, hl, hloc]
  | some id => exact entryAt_of_bytes hloc (hl.trans hloc) fun k _ _ => by rw [hd id hloc]

/-- A program location survives being written and read. -/
theorem entryAt_written (h : (self.ring i).locations = some id)
    (hb : ∀ k (hk : k < 8), (self.mgr.deref id).bytes (e * 8 + k) =
      (locationBytes program).get ⟨k, by rw [length_locationBytes]; exact hk⟩) :
    self.entryAt i e = program := by
  rw [entryAt_eq h]
  simp only [Nat.add_assoc, hb (2 * 0 + 1) (by omega), hb (2 * 0) (by omega), hb (2 * 1 + 1) (by omega),
    hb (2 * 1) (by omega), hb (2 * 2 + 1) (by omega), hb (2 * 2) (by omega), hb (2 * 3 + 1) (by omega),
    hb (2 * 3) (by omega)]
  simp [locationBytes, leWords, leBytes]

/-- What writing an entry does. -/
structure LocationWritten (i entry : Nat) (program : ProgramLocation) (tb tb' : TraceBuffer) : Prop where
  storage : Storage tb'
  extends_ : Extends tb tb'
  only : tb' = { tb with mgr := tb'.mgr }
  written : tb'.entryAt i entry = program
  others : ∀ j e, j ≠ i ∨ e ≠ entry → tb'.entryAt j e = tb.entryAt j e
  available : tb'.mgr.available = tb.mgr.available

/-- A location buffer with `program` in its `entry`-th place. -/
def withLocation (self : TraceBuffer) (id : Bts.ID) (entry used : Nat) (program : ProgramLocation) : TraceBuffer :=
  { self with
    mgr := self.mgr.setBuffer id ⟨used, overwrite (self.mgr.deref id).bytes (entry * 8) (locationBytes program)⟩ }

theorem withLocation_written (h : Storage self) (hl : (self.ring i).locations = some id) {used : Nat}
    (hu : used ≤ SIZE) : LocationWritten i entry program self (self.withLocation id entry used program) := by
  have hmem : id ∈ self.bufsOf (.locations i) := by simp [bufsOf, hl]
  have hlive := h.live (.locations i) id hmem
  have hlen := length_locationBytes program
  have hframe : ∀ o, o ≠ .locations i → ∀ id' ∈ self.bufsOf o,
      (self.withLocation id entry used program).mgr.deref id' = self.mgr.deref id' := by
    intro o hne id' hid'
    refine deref_setBuffer_of_ne hlive (h.live o id' hid') ?_
    rintro rfl
    exact hne (h.disjoint _ _ _ hid' hmem)
  have hself : (self.withLocation id entry used program).mgr.deref id =
      ⟨used, overwrite (self.mgr.deref id).bytes (entry * 8) (locationBytes program)⟩ := deref_setBuffer_self
  refine ⟨⟨h.wf.setBuffer hlive hu, fun o id' hid' => live_setBuffer.mpr (h.live o id' hid'), h.nodup, h.disjoint⟩,
    fun name => ?_, rfl, ?_, fun j e hje => ?_, rfl⟩
  · exact Keeps.of_same rfl (fun id' hid' => live_setBuffer.mpr (h.live (.chain name) id' hid'))
      fun id' hid' => hframe (.chain name) (by simp) id' hid'
  · refine entryAt_written hl fun k hk => ?_
    rw [hself]
    exact overwrite_inside _ _ _ _ (by omega)
  · cases hj : (self.ring j).locations with
    | none => simp [entryAt, readLocation, withLocation, hj]
    | some id' =>
      refine entryAt_of_bytes hj hj fun k hk hk' => ?_
      by_cases hne : j = i
      · subst hne
        rw [hl, Option.some.injEq] at hj
        subst hj
        have he := hje.resolve_left (not_not.mpr rfl)
        rw [hself]
        rcases Nat.lt_or_gt_of_ne he with hlt | hgt
        · exact overwrite_of_lt _ _ _ _ (by omega)
        · exact overwrite_of_le _ _ _ _ (by omega)
      · rw [hframe (.locations j) (fun he => hne (Owner.locations.inj he)) id' (by simp [bufsOf, hj])]

theorem writeLocation_meets (h : Storage self) (hl : (self.ring i).locations = some id)
    (he : entry < MAX_LOCATION_ENTRIES) :
    Meets (writeLocation i entry program) self fun r self' =>
      (∃ u, r = .ok u) ∧ LocationWritten i entry program self self' := by
  have hu : (self.mgr.deref id).used ≤ SIZE := h.wf.used id.indexOf
  unfold writeLocation assert
  rw [if_pos (by simpa using he)]
  refine meets_bind (meets_pure (meets_get ?_))
  simp only [MAX_LOCATION_ENTRIES] at he
  simp only [hl]
  by_cases hlt : (self.mgr.deref id).used < entry * 8 + 8
  · have hrem : ¬ SIZE - (self.mgr.deref id).used < entry * 8 + 8 - (self.mgr.deref id).used := by
      simp only [SIZE]
      omega
    rw [if_pos hlt]
    unfold Buffer.allocateUninitialized Buffer.remaining
    rw [if_neg hrem]
    refine meets_set ⟨⟨(), rfl⟩, withLocation_written h hl ?_⟩
    simp only [SIZE] at hu ⊢
    omega
  · rw [if_neg hlt]
    exact meets_set ⟨⟨(), rfl⟩, withLocation_written h hl hu⟩

end TraceBuffer

/-- Giving a node a fresh location buffer. -/
theorem Storage.allocLocations {self : TraceBuffer} (h : Storage self) {i : Nat} {id : Bts.ID} {mgr : BufferManager}
    (hl : (self.ring i).locations = none) (ha : self.mgr.allocBuffer = .ok (id, mgr)) :
    let self' := { self with mgr := mgr }.setNode i { self.ring i with locations := some id }
    Storage self' ∧ Extends self self' ∧ (∀ name, self'.chain name = self.chain name) ∧
      ∀ j, j ≠ i → ∀ e, self'.entryAt j e = self.entryAt j e := by
  have hal := allocBuffer_ok h.wf ha
  intro self'
  have hchain : ∀ name, self'.chain name = self.chain name := by
    intro name
    cases name with
    | stencils => rfl
    | code j | data j d => by_cases hj : j = i <;> simp [self', TraceBuffer.chain, TraceBuffer.setNode, hj]
  have hown : ∀ o, self'.bufsOf o = self.bufsOf o ∨ o = .locations i ∧ self'.bufsOf o = [id] := by
    intro o
    cases o with
    | chain name => exact .inl (by simp only [TraceBuffer.bufsOf, hchain])
    | locations j =>
      by_cases hj : j = i
      · subst hj
        exact .inr ⟨rfl, by simp [self', TraceBuffer.bufsOf, TraceBuffer.setNode]⟩
      · exact .inl (by simp [self', TraceBuffer.bufsOf, TraceBuffer.setNode, hj])
  have hold : self.bufsOf (.locations i) = [] := by simp [TraceBuffer.bufsOf, hl]
  refine ⟨⟨hal.wf, fun o id' hid' => ?_, fun o => ?_, fun o o' id' hid hid' => ?_⟩, fun name => ?_, hchain,
    fun j hj e => ?_⟩
  · rcases hown o with he | ⟨rfl, he⟩ <;> rw [he] at hid'
    · exact (hal.live id').mpr (.inr (h.live o id' hid'))
    · exact (hal.live id').mpr (.inl (List.mem_singleton.mp hid'))
  · rcases hown o with he | ⟨rfl, he⟩ <;> rw [he]
    · exact h.nodup o
    · exact List.nodup_singleton id
  · rcases hown o with he | ⟨rfl, he⟩ <;> rcases hown o' with he' | ⟨rfl, he'⟩ <;> rw [he] at hid <;> rw [he'] at hid'
    · exact h.disjoint o o' id' hid hid'
    · rw [List.mem_singleton.mp hid'] at hid
      exact absurd (h.live o id hid) hal.fresh
    · rw [List.mem_singleton.mp hid] at hid'
      exact absurd (h.live o' id hid') hal.fresh
  · refine Keeps.of_same (congrArg BufferChain.bufs (hchain name)) (fun id' hid' => ?_) fun id' hid' => ?_
    · exact (hal.live id').mpr (.inr (h.live (.chain name) id' hid'))
    · exact hal.frame id' (h.live (.chain name) id' hid')
  · have hnode : self'.ring j = self.ring j := by simp [self', TraceBuffer.setNode, hj]
    cases hloc : (self.ring j).locations with
    | none => simp [TraceBuffer.entryAt, TraceBuffer.readLocation, hnode, hloc]
    | some id' =>
      refine TraceBuffer.entryAt_of_bytes hloc (by rw [hnode, hloc]) fun k _ _ => ?_
      exact congrArg (fun b => b.bytes k) (hal.frame id' (h.live (.locations j) id' (by simp [TraceBuffer.bufsOf, hloc])))

end Pepp.Tvm

/-! ## Releasing slots

Acknowledging resets nodes from the tail on and stops at an open one. Watermark
callbacks acknowledge in the middle of an advance, so what holds of one released
slot is lifted to every way an advance can go. -/

namespace Pepp.Tvm

open Bts BufferManager

theorem mem_devices (d : U8) : d ∈ devices :=
  List.mem_map.mpr ⟨d.toNat, List.mem_range.mpr d.isLt, BitVec.ofNat_toNat ..⟩

theorem nodup_devices : devices.Nodup := by
  refine List.Nodup.map_on (fun a ha b hb h => ?_) List.nodup_range
  have := congrArg BitVec.toNat h
  simp only [BitVec.toNat_ofNat] at this
  rw [List.mem_range] at ha hb
  omega

def ChainName.inNode (i : Nat) : ChainName → Prop
  | .code j => j = i
  | .data j _ => j = i
  | .stencils => False

def Owner.inNode (i : Nat) : Owner → Prop
  | .chain name => name.inNode i
  | .locations j => j = i

/-- The buffers of a node. -/
def Node.bufs (node : Node) : List Bts.ID :=
  node.code.bufs ++ devices.flatMap (fun d => (node.data d).bufs) ++ node.locations.toList

namespace TraceBuffer

variable {self : TraceBuffer} {i : Nat}

theorem mem_nodeBufs {id : Bts.ID} : id ∈ (self.ring i).bufs ↔ ∃ o : Owner, o.inNode i ∧ id ∈ self.bufsOf o := by
  simp only [Node.bufs, List.mem_append, List.mem_flatMap]
  constructor
  · rintro ((h | ⟨d, -, h⟩) | h)
    · exact ⟨.chain (.code i), rfl, h⟩
    · exact ⟨.chain (.data i d), rfl, h⟩
    · exact ⟨.locations i, rfl, h⟩
  · rintro ⟨o, ho, h⟩
    match o with
    | .chain (.code _) => cases ho; exact .inl (.inl h)
    | .chain (.data _ d) => cases ho; exact .inl (.inr ⟨d, mem_devices d, h⟩)
    | .locations _ => cases ho; exact .inr h

theorem nodup_nodeBufs (h : Storage self) : (self.ring i).bufs.Nodup := by
  have hd := h.disjoint
  rw [Node.bufs, List.nodup_append, List.nodup_append, List.nodup_flatMap]
  refine ⟨⟨h.nodup (.chain (.code i)), ⟨fun d _ => h.nodup (.chain (.data i d)), ?_⟩, ?_⟩, h.nodup (.locations i), ?_⟩
  · have hne : List.Pairwise (fun d d' => d ≠ d') devices := nodup_devices
    refine hne.imp ?_
    intro d d' hne id hid hid'
    refine hne ?_
    simpa using hd (.chain (.data i d)) (.chain (.data i d')) id hid hid'
  · rintro id hid id' hid' rfl
    obtain ⟨d, -, hid'⟩ := List.mem_flatMap.mp hid'
    simpa using hd (.chain (.code i)) (.chain (.data i d)) id hid hid'
  · rintro id hid id' hid' rfl
    rcases List.mem_append.mp hid with hid | hid
    · simpa using hd (.chain (.code i)) (.locations i) id hid hid'
    · obtain ⟨d, -, hid⟩ := List.mem_flatMap.mp hid
      simpa using hd (.chain (.data i d)) (.locations i) id hid hid'

theorem mgr_resetNode : (self.resetNode i).mgr = (self.ring i).bufs.foldl freeBuffer self.mgr := by
  rw [Node.bufs, List.foldl_append, List.foldl_append, List.foldl_flatMap]
  simp only [resetNode, setNode]
  cases (self.ring i).locations with
  | none => simp only [Option.toList, List.foldl_nil]
  | some id => simp only [Option.toList, List.foldl_cons, List.foldl_nil]

theorem ring_resetNode (j : Nat) :
    (self.resetNode i).ring j = if j = i then { Node.empty with open_ := (self.ring i).open_ } else self.ring j := rfl

theorem chain_resetNode {name : ChainName} (h : ¬ name.inNode i) : (self.resetNode i).chain name = self.chain name := by
  cases name with
  | stencils => rfl
  | code j | data j d => simp only [chain, ring_resetNode, if_neg (show ¬ j = i from h)]

theorem bufsOf_resetNode_of_not {o : Owner} (h : ¬ o.inNode i) : (self.resetNode i).bufsOf o = self.bufsOf o := by
  cases o with
  | chain name => simp only [bufsOf, chain_resetNode h]
  | locations j => simp only [bufsOf, ring_resetNode, if_neg (show ¬ j = i from h)]

theorem bufsOf_resetNode_of_in {o : Owner} (h : o.inNode i) : (self.resetNode i).bufsOf o = [] := by
  match o with
  | .chain (.code _) | .chain (.data _ _) =>
      cases h; simp [bufsOf, chain, ring_resetNode, Node.empty, BufferChain.empty]
  | .locations _ => cases h; simp [bufsOf, ring_resetNode, Node.empty]

/-- What resetting a node does: its own buffers go, everything else stays. -/
structure NodeReset (i : Nat) (tb tb' : TraceBuffer) : Prop where
  storage : Storage tb'
  keeps : ∀ name : ChainName, ¬ name.inNode i → Keeps (tb.mgr, tb.chain name) (tb'.mgr, tb'.chain name)
  entries : ∀ j, j ≠ i → ∀ e, tb'.entryAt j e = tb.entryAt j e
  available : tb.mgr.available ≤ tb'.mgr.available

theorem resetNode_spec (h : Storage self) : NodeReset i self (self.resetNode i) := by
  have hf := BufferChain.foldl_freeBuffer (self.ring i).bufs h.wf
    (fun id hid => by obtain ⟨o, -, ho⟩ := mem_nodeBufs.mp hid; exact h.live o id ho) (nodup_nodeBufs h)
  rw [← mgr_resetNode] at hf
  have hout : ∀ {o : Owner} {id}, ¬ o.inNode i → id ∈ self.bufsOf o → id ∉ (self.ring i).bufs := by
    intro o id ho hid hmem
    obtain ⟨o', ho', hid'⟩ := mem_nodeBufs.mp hmem
    exact ho (h.disjoint _ _ id hid hid' ▸ ho')
  refine ⟨⟨hf.wf, fun o id hid => ?_, fun o => ?_, fun o o' id hid hid' => ?_⟩, fun name hname => ?_, fun j hj e => ?_,
    by rw [hf.available]; omega⟩
  · by_cases ho : o.inNode i
    · rw [bufsOf_resetNode_of_in ho] at hid
      contradiction
    · rw [bufsOf_resetNode_of_not ho] at hid
      exact (hf.live id).mpr ⟨h.live o id hid, hout ho hid⟩
  · by_cases ho : o.inNode i
    · rw [bufsOf_resetNode_of_in ho]
      exact List.nodup_nil
    · rw [bufsOf_resetNode_of_not ho]
      exact h.nodup o
  · by_cases ho : o.inNode i
    · rw [bufsOf_resetNode_of_in ho] at hid
      contradiction
    · by_cases ho' : o'.inNode i
      · rw [bufsOf_resetNode_of_in ho'] at hid'
        contradiction
      · rw [bufsOf_resetNode_of_not ho] at hid
        rw [bufsOf_resetNode_of_not ho'] at hid'
        exact h.disjoint o o' id hid hid'
  · refine Keeps.of_same (congrArg BufferChain.bufs (chain_resetNode hname)) (fun id hid => ?_) fun id hid => ?_
    · exact (hf.live id).mpr ⟨h.live (.chain name) id hid, hout (o := .chain name) hname hid⟩
    · exact hf.frame id (h.live (.chain name) id hid) (hout (o := .chain name) hname hid)
  · have hnode : (self.resetNode i).ring j = self.ring j := by rw [ring_resetNode, if_neg hj]
    cases hloc : (self.ring j).locations with
    | none => simp [entryAt, readLocation, hnode, hloc]
    | some id =>
      have hid : id ∈ self.bufsOf (.locations j) := by simp [bufsOf, hloc]
      refine entryAt_of_bytes hloc (by rw [hnode, hloc]) fun k _ _ => ?_
      rw [hf.frame id (h.live (.locations j) id hid) (hout (o := .locations j) hj hid)]

/-- A property that survives the release of a slot and does not look at the watermarks. -/
structure Lasting (P : TraceBuffer → Prop) : Prop where
  release : ∀ tb : TraceBuffer, P tb → tb.tail < tb.head → (tb.nodeAt tb.tail).open_ = 0 →
    P { tb.resetNode (tb.index tb.tail) with tail := tb.tail + 1 }
  watermarks : ∀ (tb : TraceBuffer) (watermarks : List Watermark), P tb → P { tb with watermarks := watermarks }

namespace Lasting

variable {P : TraceBuffer → Prop} (hP : Lasting P)

include hP

theorem acknowledgeLoop (n : Nat) (h : P self) (hn : 0 < n → self.tail + n ≤ self.head) :
    P (TraceBuffer.acknowledgeLoop n self) := by
  induction n generalizing self with
  | zero => exact h
  | succ n ih =>
    have hn := hn (Nat.succ_pos n)
    unfold TraceBuffer.acknowledgeLoop
    split
    · exact h
    · rename_i ho
      refine ih (hP.release self h (by omega) (by omega)) fun _ => ?_
      change self.tail + 1 + n ≤ self.head
      omega

theorem acknowledge (upTo : Cursor) (h : P self) : P (self.acknowledge upTo) :=
  hP.watermarks _ _ (hP.acknowledgeLoop _ h (by omega))

theorem fireWatermarks (used : Nat) (respond : Nat → List Cursor) (indices : List Nat) (h : P self) :
    P (TraceBuffer.fireWatermarks used respond indices self) := by
  induction indices generalizing self with
  | nil => exact h
  | cons i indices ih =>
    have hfold : ∀ (cursors : List Cursor) {self}, P self → P (cursors.foldl TraceBuffer.acknowledge self) := by
      intro cursors
      induction cursors with
      | nil => exact fun h => h
      | cons c cursors ihc => exact fun h => ihc (hP.acknowledge c h)
    unfold TraceBuffer.fireWatermarks
    apply ih
    split
    · split
      · exact hfold _ (hP.watermarks _ _ h)
      · exact h
    · exact h

theorem advanceSlot (respond : Nat → List Cursor) (h : P { self with head := self.head + 1 }) :
    P (self.advanceSlot respond) := hP.fireWatermarks _ _ _ h

end Lasting

/-- From `tb` to `tb'` slots may have been released at the tail, and nothing else happened. -/
structure Released (tb tb' : TraceBuffer) : Prop where
  storage : Storage tb'
  ringSize : tb'.ringSize = tb.ringSize
  head : tb'.head = tb.head
  tail_le : tb.tail ≤ tb'.tail
  recordings : tb'.recordings = tb.recordings
  stencils : tb'.stencils = tb.stencils
  tombstone : tb'.tombstone = tb.tombstone
  stencilMap : tb'.stencilMap = tb.stencilMap
  pendingHashes : tb'.pendingHashes = tb.pendingHashes
  ring : ∀ i, (∀ s, tb.tail ≤ s → s < tb'.tail → tb.index s ≠ i) → tb'.ring i = tb.ring i
  reset : ∀ s, tb.tail ≤ s → s < tb'.tail → (tb.nodeAt s).open_ = 0 ∧ tb'.nodeAt s = Node.empty
  keeps : ∀ name : ChainName, (∀ s, tb.tail ≤ s → s < tb'.tail → ¬ name.inNode (tb.index s)) →
    Keeps (tb.mgr, tb.chain name) (tb'.mgr, tb'.chain name)
  entries : ∀ i, (∀ s, tb.tail ≤ s → s < tb'.tail → tb.index s ≠ i) → ∀ e, tb'.entryAt i e = tb.entryAt i e
  available : tb.mgr.available ≤ tb'.mgr.available

theorem released_refl (h : Storage self) : Released self self where
  storage := h
  ringSize := rfl
  head := rfl
  tail_le := Nat.le_refl _
  recordings := rfl
  stencils := rfl
  tombstone := rfl
  stencilMap := rfl
  pendingHashes := rfl
  ring _ _ := rfl
  reset _ hl hu := absurd hu (Nat.not_lt.mpr hl)
  keeps name _ := h.extends_refl name
  entries _ _ _ := rfl
  available := Nat.le_refl _

theorem lasting_released (tb : TraceBuffer) : Lasting (Released tb) where
  watermarks t wms h := by
    refine ⟨⟨h.storage.wf, h.storage.live, h.storage.nodup, h.storage.disjoint⟩, h.ringSize, h.head, h.tail_le,
      h.recordings, h.stencils, h.tombstone, h.stencilMap, h.pendingHashes, h.ring, h.reset, h.keeps, h.entries,
      h.available⟩
  release t h hlt ho := by
    have hspec := resetNode_spec (i := t.index t.tail) h.storage
    have hidx : ∀ s, t.index s = tb.index s := fun s => by simp only [index, h.ringSize]
    have hbefore : ∀ {i}, (∀ s, tb.tail ≤ s → s < t.tail + 1 → tb.index s ≠ i) →
        (∀ s, tb.tail ≤ s → s < t.tail → tb.index s ≠ i) ∧ i ≠ t.index t.tail := by
      intro i hi
      refine ⟨fun s hl hu => hi s hl (Nat.lt_succ_of_lt hu), ?_⟩
      rw [hidx]
      exact (hi t.tail h.tail_le (Nat.lt_succ_self _)).symm
    refine ⟨⟨hspec.storage.wf, hspec.storage.live, hspec.storage.nodup, hspec.storage.disjoint⟩, h.ringSize, h.head,
      Nat.le_succ_of_le h.tail_le, h.recordings, h.stencils, h.tombstone, h.stencilMap, h.pendingHashes,
      fun i hi => ?_, fun s hl hu => ?_, fun name hname => ?_, fun i hi e => ?_, h.available.trans hspec.available⟩
    · obtain ⟨hb, hne⟩ := hbefore hi
      exact (if_neg hne).trans (h.ring i hb)
    · change (tb.nodeAt s).open_ = 0 ∧ (t.resetNode (t.index t.tail)).ring (t.index s) = Node.empty
      rw [ring_resetNode]
      by_cases he : t.index s = t.index t.tail
      · rw [if_pos he]
        have hopen : (t.ring (t.index t.tail)).open_ = 0 := ho
        rcases Nat.lt_succ_iff_lt_or_eq.mp hu with hu | rfl
        · exact ⟨(h.reset s hl hu).1, by rw [hopen]; rfl⟩
        · by_cases hall : ∀ s', tb.tail ≤ s' → s' < t.tail → tb.index s' ≠ tb.index t.tail
          · refine ⟨?_, by rw [hopen]; rfl⟩
            rw [hidx, h.ring _ hall] at hopen
            exact hopen
          · push Not at hall
            obtain ⟨s', hl', hu', he'⟩ := hall
            have := (h.reset s' hl' hu').1
            rw [nodeAt, he'] at this
            exact ⟨this, by rw [hopen]; rfl⟩
      · rw [if_neg he]
        have hu' : s < t.tail := Nat.lt_of_le_of_ne (Nat.le_of_lt_succ hu) fun hs => he (hs ▸ rfl)
        exact h.reset s hl hu'
    · refine (h.keeps name fun s hl hu => hname s hl (Nat.lt_succ_of_lt hu)).trans (hspec.keeps name ?_)
      rw [hidx]
      exact hname t.tail h.tail_le (Nat.lt_succ_self _)
    · obtain ⟨hb, hne⟩ := hbefore hi
      exact (hspec.entries i hne e).trans (h.entries i hb e)

theorem released_acknowledge (h : Storage self) (upTo : Cursor) : Released self (self.acknowledge upTo) :=
  (lasting_released self).acknowledge upTo (released_refl h)

/-- An advance moves the head by one and may release slots. -/
theorem released_advanceSlot (h : Storage self) (respond : Nat → List Cursor) :
    Released { self with head := self.head + 1 } (self.advanceSlot respond) :=
  (lasting_released _).advanceSlot respond (released_refl ⟨h.wf, h.live, h.nodup, h.disjoint⟩)

end TraceBuffer

end Pepp.Tvm

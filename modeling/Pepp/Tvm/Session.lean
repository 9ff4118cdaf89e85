import Pepp.Tvm.Commit

/-!
# Runs of a trace buffer

`clear` closes every recording, gives all buffers back and seeds the stencil
chain with the tombstone. It is also what the constructor ends with.
-/

namespace Pepp.Tvm

open Bts Outcome BufferManager SlotRing

namespace TraceBuffer

variable {self self' : TraceBuffer} {d : U8} {recording : Recording}

/-- Recordings know whose they are. -/
def Labelled (self : TraceBuffer) : Prop := ∀ d recording, self.recordings d = some recording → recording.id = d

/-- What is left after some recordings were aborted. -/
structure Aborted (ds : List U8) (tb tb' : TraceBuffer) : Prop where
  sound : Sound MAX_LOCATION_ENTRIES tb'.ringState
  buffers : SameBuffers tb tb'
  ringSize : tb'.ringSize = tb.ringSize
  labelled : Labelled tb'
  closed : ∀ d, d ∈ ds ∨ tb.findRecording d = none → tb'.findRecording d = none

theorem aborted_one (h : Sound MAX_LOCATION_ENTRIES self.ringState) (hid : Labelled self) (d : U8) :
    Meets (abort d) self fun r self' => r = .ok () ∧ Aborted [d] self self' := by
  refine (abort_meets h d).mono fun r t hr => ⟨hr.1, ?_⟩
  cases hf : self.findRecording d with
  | none =>
    rw [hf] at hr
    obtain rfl := hr.2
    refine ⟨h, ⟨rfl, fun _ => rfl, fun _ => rfl⟩, rfl, hid, ?_⟩
    rintro d' (hd | hd)
    · rw [List.mem_singleton.mp hd, hf]
    · exact hd
  | some recording =>
    rw [hf] at hr
    obtain rfl := hr.2
    have hs := h.close (claims_ringState.mpr ⟨recording, hf, rfl⟩)
    have hring : (self.close d recording (Recording.aborted recording)).ringState = _ := ringState_close rfl
    rw [← hring] at hs
    refine ⟨hs, sameBuffers_close, rfl, fun d' r hr => ?_, fun d' hd => ?_⟩
    · simp only [close, setRecording] at hr
      split at hr
      · rename_i he
        rw [← Option.some.inj hr, he]
        exact hid d recording (findRecording_eq_some.mp hf).1
      · exact hid d' r hr
    · rw [← claims_eq_none, claims_close rfl]
      split
      · rfl
      · rename_i hne
        exact claims_eq_none.mpr (hd.resolve_left fun hm => hne (List.mem_singleton.mp hm))

/-- Aborting everyone leaves nothing open and all buffers where they were. -/
theorem forM_abort_meets (h : Sound MAX_LOCATION_ENTRIES self.ringState) (hid : Labelled self) (ds : List U8) :
    Meets (ds.forM abort) self fun r self' => r = .ok () ∧ Aborted ds self self' := by
  induction ds generalizing self with
  | nil => exact meets_pure ⟨rfl, h, ⟨rfl, fun _ => rfl, fun _ => rfl⟩, rfl, hid, by simp⟩
  | cons d ds ih =>
    change Meets (abort d >>= fun _ => ds.forM abort) self _
    apply meets_bind
    refine (aborted_one h hid d).mono fun r t ht => ?_
    obtain ⟨rfl, ht⟩ := ht
    refine (ih ht.sound ht.labelled).mono fun r u hu => ?_
    obtain ⟨rfl, hu⟩ := hu
    have hb := ht.buffers
    have hb' := hu.buffers
    refine ⟨rfl, hu.sound, ⟨hb'.mgr.trans hb.mgr, fun n => (hb'.chain n).trans (hb.chain n),
      fun i => (hb'.locations i).trans (hb.locations i)⟩, hu.ringSize.trans ht.ringSize, hu.labelled, fun d' hd => ?_⟩
    refine hu.closed d' ?_
    rcases hd with hd | hd
    · rcases List.mem_cons.mp hd with rfl | hd
      · exact .inr (ht.closed _ (.inl (by simp)))
      · exact .inl hd
    · exact .inr (ht.closed _ (.inr hd))

/-- Every node of a list has been reset. -/
structure AllReset (nodes : List Nat) (tb tb' : TraceBuffer) : Prop where
  storage : Storage tb'
  ringSize : tb'.ringSize = tb.ringSize
  recordings : tb'.recordings = tb.recordings
  stencils : tb'.stencils = tb.stencils
  open_ : ∀ i, (tb'.ring i).open_ = (tb.ring i).open_
  reset : ∀ i ∈ nodes, (tb'.ring i).slot = none ∧ (tb'.ring i).count = 0
  others : ∀ i, i ∉ nodes → tb'.ring i = tb.ring i
  available : tb.mgr.available ≤ tb'.mgr.available

theorem allReset (h : Storage self) (nodes : List Nat) : AllReset nodes self (nodes.foldl resetNode self) := by
  induction nodes generalizing self with
  | nil => exact ⟨h, rfl, rfl, rfl, fun _ => rfl, by simp, fun _ _ => rfl, Nat.le_refl _⟩
  | cons i nodes ih =>
    have hspec := resetNode_spec (i := i) h
    have hr := ih hspec.storage
    refine ⟨hr.storage, hr.ringSize, hr.recordings, hr.stencils, fun j => (hr.open_ j).trans ?_, fun j hj => ?_,
      fun j hj => ?_, hspec.available.trans hr.available⟩
    · rw [ring_resetNode]
      split
      · rename_i he
        rw [he]
      · rfl
    · by_cases hmem : j ∈ nodes
      · exact hr.reset j hmem
      · have hji : j = i := (List.mem_cons.mp hj).resolve_right hmem
        rw [List.foldl_cons, hr.others j hmem, ring_resetNode, if_pos hji]
        exact ⟨rfl, rfl⟩
    · rw [List.mem_cons, not_or] at hj
      rw [List.foldl_cons, hr.others j hj.2, ring_resetNode, if_neg hj.1]

/-- A trace buffer nobody has recorded into. -/
structure Fresh (tb : TraceBuffer) : Prop where
  consistent : Consistent tb
  vacant : tb.ringState = vacant tb.ringSize
  stencilMap : tb.stencilMap = fun _ => none
  pendingHashes : tb.pendingHashes = []

/-- Giving back the stencils leaves every other buffer to its owner. -/
theorem storage_clearStencils (h : Storage self) :
    Storage { self with mgr := self.stencils.bufs.foldl freeBuffer self.mgr, stencils := BufferChain.empty } ∧
      (self.stencils.bufs.foldl freeBuffer self.mgr).available = self.mgr.available + self.stencils.bufs.length := by
  have hf := BufferChain.foldl_freeBuffer self.stencils.bufs h.wf (h.live (.chain .stencils)) (h.nodup (.chain .stencils))
  set t : TraceBuffer := { self with mgr := self.stencils.bufs.foldl freeBuffer self.mgr, stencils := BufferChain.empty }
  have hown : ∀ o, o = .chain .stencils ∧ t.bufsOf o = [] ∨ o ≠ .chain .stencils ∧ t.bufsOf o = self.bufsOf o := by
    intro o
    match o with
    | .chain .stencils => exact .inl ⟨rfl, rfl⟩
    | .chain (.code _) => exact .inr ⟨by simp, rfl⟩
    | .chain (.data _ _) => exact .inr ⟨by simp, rfl⟩
    | .locations _ => exact .inr ⟨by simp, rfl⟩
  refine ⟨⟨hf.wf, fun o id hid => ?_, fun o => ?_, fun o o' id hid hid' => ?_⟩, hf.available⟩
  · rcases hown o with ⟨-, he⟩ | ⟨hne, he⟩ <;> rw [he] at hid
    · contradiction
    · exact (hf.live id).mpr ⟨h.live o id hid, fun hmem => hne (h.disjoint _ _ id hid hmem)⟩
  · rcases hown o with ⟨-, he⟩ | ⟨-, he⟩ <;> rw [he]
    · exact List.nodup_nil
    · exact h.nodup o
  · rcases hown o with ⟨-, he⟩ | ⟨-, he⟩ <;> rw [he] at hid
    · contradiction
    · rcases hown o' with ⟨-, he'⟩ | ⟨-, he'⟩ <;> rw [he'] at hid'
      · contradiction
      · exact h.disjoint o o' id hid hid'

/-- With nothing open and every node reset, the ring is vacant. -/
theorem ringState_reset (h : Sound MAX_LOCATION_ENTRIES self.ringState) (hn : ∀ d, self.findRecording d = none)
    (hr : AllReset (List.range self.ringSize) self self') :
    ({ self' with head := 0, tail := 0 } : TraceBuffer).ringState = vacant self.ringSize := by
  have hclaims : ∀ d, self.ringState.claims d = none := fun d => claims_eq_none.mpr (hn d)
  have hopen : ∀ i, (self.ring i).open_ = 0 := by
    intro i
    cases hs : (self.ring i).slot with
    | none => exact (h.free i hs).2
    | some s =>
      have hcard : (self.ring i).open_ = (self.ringState.holders s).card := h.opens_eq i s hs
      rw [hcard, Finset.card_eq_zero]
      ext d
      simp [mem_holders, hclaims]
  have hslot : ∀ i, (self'.ring i).slot = none ∧ (self'.ring i).count = 0 := by
    intro i
    by_cases hi : i ∈ List.range self.ringSize
    · exact hr.reset i hi
    · rw [hr.others i hi]
      cases hs : (self.ring i).slot with
      | none => exact ⟨rfl, (h.free i hs).1⟩
      | some s =>
        have hnode : s % self.ringSize = i := (h.stamp i s hs).1
        exact absurd (List.mem_range.mpr (hnode ▸ Nat.mod_lt s h.size_pos)) hi
  refine SlotRing.ext hr.ringSize rfl rfl (funext fun i => (hslot i).1) (funext fun i => (hslot i).2)
    (funext fun i => (hr.open_ i).trans (hopen i)) (funext fun d => ?_)
  change (self'.findRecording d).map _ = none
  rw [findRecording_congr hr.recordings, hn d]
  rfl

theorem clearStencils_meets {Q : Except Exception Unit → TraceBuffer → Prop}
    (h : Q (.ok ()) { self with mgr := self.stencils.bufs.foldl freeBuffer self.mgr, stencils := BufferChain.empty }) :
    Meets (onChain .stencils BufferChain.clear) self Q := h

theorem clear_meets (h : Sound MAX_LOCATION_ENTRIES self.ringState) (hst : Storage self) (hid : Labelled self) :
    Meets clear self fun r self' =>
      match r with
      | .ok _ => Fresh self' ∧ self'.ringSize = self.ringSize ∧
          self.mgr.available + self.stencils.bufs.length ≤ self'.mgr.available + 1
      | .error _ => self.mgr.available + self.stencils.bufs.length = 0 := by
  unfold clear
  apply meets_bind
  refine (forM_abort_meets h hid devices).mono fun r t ht => ?_
  obtain ⟨rfl, ht⟩ := ht
  refine meets_bind (meets_modify (meets_bind (meets_modify ?_)))
  have hreset := allReset (ht.buffers.storage hst) (List.range t.ringSize)
  have hring := ringState_reset ht.sound (fun d => ht.closed d (.inl (mem_devices d))) hreset
  set u := (List.range t.ringSize).foldl resetNode t
  obtain ⟨hst', hav⟩ := storage_clearStencils hreset.storage
  set mgr := u.stencils.bufs.foldl freeBuffer u.mgr
  refine meets_bind (clearStencils_meets (meets_bind (meets_modify (meets_bind ?_))))
  set v : TraceBuffer := ⟨mgr, u.ringSize, u.ring, 0, 0, u.recordings, BufferChain.empty, ProgramLocation.null,
    fun _ => none, [], u.watermarks, Footprint.zero⟩
  have hv : Storage v := ⟨hst'.wf, hst'.live, hst'.nodup, hst'.disjoint⟩
  have how := hv.owns .stencils
  refine (onChain_meets hv (BufferChain.append_meets how EncodedOp.halt0)).mono fun r w hw => ?_
  obtain ⟨hstep, hw⟩ := hw
  have hneed : BufferChain.needed (BufferChain.room (v.mgr, v.chain .stencils)) EncodedOp.halt0.length = 1 := rfl
  have hmgr : self.mgr.available + self.stencils.bufs.length ≤ v.mgr.available := by
    have hle := hreset.available
    rw [ht.buffers.mgr] at hle
    have hbufs : u.stencils.bufs = self.stencils.bufs := by
      rw [hreset.stencils]
      exact congrArg BufferChain.bufs (ht.buffers.chain .stencils)
    rw [← hbufs]
    change _ ≤ mgr.available
    omega
  cases r with
  | error e =>
    rcases hw with hlt | hlt
    · rw [hneed] at hlt
      have : v.mgr.available < 1 := hlt
      change _ = 0
      omega
    · exact absurd hlt (by decide)
  | ok code =>
    obtain ⟨hleft, -, hstored, hlast, -⟩ := hw
    have hwring : w.ringState = vacant t.ringSize := hstep.ringState.trans hring
    have hsize : w.ringSize = t.ringSize := congrArg SlotRing.size hwring
    refine meets_modify ⟨⟨⟨?_, ⟨hstep.storage.wf, hstep.storage.live, hstep.storage.nodup, hstep.storage.disjoint⟩,
      fun i hi => ?_, fun k entry hk => ?_, ⟨rfl, List.mem_of_getLast? hlast, hstored⟩, fun d r hr => ?_, fun d at_ hc => ?_⟩,
      ?_, ?_, ?_⟩, ?_, ?_⟩
    · exact (show Sound _ w.ringState from hwring ▸ vacant_sound (ht.ringSize ▸ h.size_pos))
    · exact absurd (congrFun (congrArg SlotRing.slot hwring) i) hi
    · have : w.stencilMap k = none := congrFun hstep.stencilMap k
      exact absurd (hk.symm.trans this) (by simp)
    · have : w.recordings = t.recordings := hstep.books.recordings.trans hreset.recordings
      exact ht.labelled d r (this ▸ hr)
    · have : w.ringState.claims d = none := congrFun (congrArg SlotRing.claims hwring) d
      exact absurd (hc.symm.trans this) (by simp)
    · exact hwring.trans (congrArg vacant hsize.symm)
    · exact hstep.stencilMap
    · exact hstep.pendingHashes
    · exact hsize.trans ht.ringSize
    · rw [hneed] at hleft
      exact hmgr.trans (Nat.le_of_eq hleft.symm)

/-- A trace buffer in use can always be cleared: the tombstone's own buffer makes room for the next one. -/
theorem clear_ok (h : Consistent self) :
    Meets clear self fun r self' => r = .ok () ∧ Fresh self' ∧ self'.ringSize = self.ringSize := by
  refine (clear_meets h.sound h.storage h.ident).mono fun r self' hr => ?_
  cases r with
  | ok _ => exact ⟨rfl, hr.1, hr.2.1⟩
  | error e =>
    have hmem : self.tombstone.code.id ∈ self.stencils.bufs := h.tombstone.2.1
    have := List.length_pos_of_mem hmem
    omega

variable {mgr : BufferManager} {ringSize : Nat}

theorem blank_ready (hwf : mgr.Wf) (hpos : 0 < ringSize) :
    Sound MAX_LOCATION_ENTRIES (blank mgr ringSize).ringState ∧ Storage (blank mgr ringSize) ∧
      Labelled (blank mgr ringSize) := by
  have hnil : ∀ o, (blank mgr ringSize).bufsOf o = [] := by
    intro o
    match o with
    | .chain .stencils => rfl
    | .chain (.code _) => rfl
    | .chain (.data _ _) => rfl
    | .locations _ => rfl
  refine ⟨@vacant_sound U8 _ _ _ hpos, ⟨hwf, fun o id hid => ?_, fun o => ?_, fun o o' id hid _ => ?_⟩, ?_⟩
  · rw [hnil] at hid
    contradiction
  · rw [hnil]
    exact List.nodup_nil
  · rw [hnil] at hid
    contradiction
  · exact fun _ _ hr => nomatch hr

theorem create_ok (hwf : mgr.Wf) (h : create mgr ringSize = .ok self) :
    Fresh self ∧ self.ringSize = ringSize ∧ mgr.available ≤ self.mgr.available + 1 := by
  unfold create at h
  split at h
  · cases h
  · rename_i hpos
    obtain ⟨hs, hst, hid⟩ := blank_ready hwf (Nat.pos_of_ne_zero hpos)
    have hsize : (blank mgr ringSize).ringSize = ringSize := rfl
    have hmgr : (blank mgr ringSize).mgr = mgr := rfl
    generalize blank mgr ringSize = b at *
    have hm := clear_meets hs hst hid
    unfold Meets at hm
    split at hm <;> rename_i hc <;> rw [hc] at h <;> cases h
    exact ⟨hm.1, hm.2.1.trans hsize, hmgr ▸ (Nat.le_add_right _ _).trans hm.2.2⟩

/-- The constructor needs a node and a buffer for the tombstone. -/
theorem create_succeeds (hwf : mgr.Wf) (hpos : 0 < ringSize) (hav : 0 < mgr.available) :
    ∃ tb, create mgr ringSize = .ok tb := by
  obtain ⟨hs, hst, hid⟩ := blank_ready hwf hpos
  have hmgr : (blank mgr ringSize).mgr = mgr := rfl
  unfold create
  rw [if_neg (Nat.ne_of_gt hpos)]
  generalize blank mgr ringSize = b at *
  have hm := clear_meets hs hst hid
  unfold Meets at hm
  cases hc : clear b with
  | ok _ tb => exact ⟨tb, rfl⟩
  | error e tb =>
    rw [hc] at hm
    rw [hmgr] at hm
    omega

end TraceBuffer

end Pepp.Tvm

/-! ## Runs of a trace buffer

Everything that can be asked of a trace buffer is an operation. An operation
that throws leaves a state behind too; only a failed assertion ends the run. -/

namespace Pepp.Tvm

open Outcome SlotRing

/-- What a client of the trace buffer can do. The callbacks of an advance answer with acknowledgments. -/
inductive Op where
  | begin : (respond : Nat → List Cursor) → (initiator : U8) → Op
  | emitPrefix : (initiator : U8) → (encoded : List U8) → Op
  | emitBody : (initiator : U8) → (encoded : List U8) → Op
  | emitPostfix : (initiator : U8) → (encoded : List U8) → Op
  | setDpAnchor : (initiator : U8) → (at_ : Bts.Location) → (size stride : U16) → Op
  | appendData : (initiator : U8) → (data : List U8) → Op
  | commit : (respond : Nat → List Cursor) → (initiator : U8) → Op
  | abort : (initiator : U8) → Op
  | acknowledge : (upTo : Cursor) → Op
  | onWatermark : (threshold : Nat → Bool) → Op
  | clear : Op

namespace TraceBuffer

variable (hash : List U8 → U32)

def perform : Op → TraceM Unit
  | .begin respond initiator => begin respond initiator
  | .emitPrefix initiator encoded => emitPrefix initiator encoded
  | .emitBody initiator encoded => emitBody initiator encoded
  | .emitPostfix initiator encoded => emitPostfix initiator encoded
  | .setDpAnchor initiator at_ size stride => setDpAnchor initiator at_ size stride
  | .appendData initiator data => do
    let _ ← appendData initiator data
  | .commit respond initiator => do
    let _ ← commit hash respond initiator
  | .abort initiator => abort initiator
  | .acknowledge upTo => modify fun self => self.acknowledge upTo
  | .onWatermark threshold => modify fun self => self.onWatermark threshold
  | .clear => clear

/-- Whether the operation went through, and the state it left, unless an assertion failed. -/
def attempt (op : Op) (self : TraceBuffer) : Option (Bool × TraceBuffer) :=
  match perform hash op self with
  | .ok _ self => some (true, self)
  | .error (.assertion _) _ => none
  | .error _ self => some (false, self)

def step (op : Op) (self : TraceBuffer) : Option TraceBuffer := (attempt hash op self).map Prod.snd

/-- The states a run can come to, from a manager that others may have used before. -/
inductive Reachable : TraceBuffer → Prop where
  | create {mgr : Bts.BufferManager} {ringSize : Nat} {tb : TraceBuffer} :
      mgr.Wf → create mgr ringSize = .ok tb → Reachable tb
  | step {op : Op} {tb tb' : TraceBuffer} : Reachable tb → step hash op tb = some tb' → Reachable tb'

variable {hash} {op : Op} {self self' : TraceBuffer}

/-- An outcome that is no failed assertion, read off a specification. -/
theorem of_attempt {ok : Bool} {Q : Except Exception Unit → TraceBuffer → Prop} (hm : Meets (perform hash op) self Q)
    (h : attempt hash op self = some (ok, self')) :
    (ok = true ∧ Q (.ok ()) self') ∨ (ok = false ∧ ∃ e, (∀ m, e ≠ .assertion m) ∧ Q (.error e) self') := by
  unfold attempt at h
  unfold Meets at hm
  split at h
  · rename_i hp
    rw [hp] at hm
    cases h
    exact .inl ⟨rfl, hm⟩
  · contradiction
  · rename_i e _ hne hp
    rw [hp] at hm
    cases h
    exact .inr ⟨rfl, e, fun m he => hne m he, hm⟩

/-- An operation keeps what has to hold between operations, and unless it clears the ring only moves on. -/
theorem perform_keeps (h : Consistent self) (op : Op) :
    Meets (perform hash op) self fun r self' =>
      (∃ m, r = .error (.assertion m)) ∨ Consistent self' ∧ (op ≠ .clear → Later self self') := by
  have hedit : ∀ {d message edit op}, (∀ recording, Edits recording (edit recording)) →
      Meets (emitTo d edit message) self fun r self' =>
        (∃ m, r = .error (.assertion m)) ∨ Consistent self' ∧ (op ≠ Op.clear → Later self self') :=
    fun he => (emitTo_keeps h he _ _).mono fun _ _ hr => .inr ⟨hr.1, fun _ => hr.2⟩
  cases op with
  | begin respond d =>
    exact (begin_keeps h respond d).mono fun r t hr => hr.imp_right fun hr => ⟨hr.1, fun _ => hr.2⟩
  | emitPrefix d encoded => exact hedit fun _ => ⟨rfl, rfl, rfl, rfl⟩
  | emitBody d encoded => exact hedit fun _ => ⟨rfl, rfl, rfl, rfl⟩
  | emitPostfix d encoded => exact hedit fun _ => ⟨rfl, rfl, rfl, rfl⟩
  | setDpAnchor d at_ size stride => exact hedit fun _ => ⟨rfl, rfl, rfl, rfl⟩
  | appendData d data =>
    refine meets_bind ((appendData_keeps h d data).mono fun r t hr => ?_)
    cases r with
    | ok _ => exact meets_pure (.inr ⟨hr.1, fun _ => hr.2⟩)
    | error e => exact .inr ⟨hr.1, fun _ => hr.2⟩
  | commit respond d =>
    refine meets_bind ((commit_keeps hash h respond d).mono fun r t hr => ?_)
    cases r with
    | ok _ => exact meets_pure (.inr ⟨hr.1, fun _ => hr.2⟩)
    | error e => exact .inr ⟨hr.1, fun _ => hr.2⟩
  | abort d => exact (abort_keeps h d).mono fun r t hr => .inr ⟨hr.2.1, fun _ => hr.2.2⟩
  | acknowledge upTo =>
    exact meets_modify (.inr ⟨consistent_acknowledge h upTo, fun _ => later_acknowledge h upTo⟩)
  | onWatermark threshold =>
    have hc : Consistent (self.onWatermark threshold) := lasting_consistent.watermarks _ _ h
    have hl : Released self (self.onWatermark threshold) := (lasting_released self).watermarks _ _ (released_refl h.storage)
    exact meets_modify (.inr ⟨hc, fun _ => hl.later h.sound hc.sound⟩)
  | clear => exact (clear_ok h).mono fun r t hr => .inr ⟨hr.2.1.consistent, fun hne => absurd rfl hne⟩

theorem step_keeps (h : Consistent self) (hs : step hash op self = some self') :
    Consistent self' ∧ (op ≠ .clear → Later self self') := by
  obtain ⟨⟨ok, t⟩, ha, rfl⟩ := Option.map_eq_some_iff.mp hs
  rcases of_attempt (perform_keeps h op) ha with ⟨-, hq⟩ | ⟨-, e, hne, hq⟩
  · exact hq.resolve_left fun ⟨m, hm⟩ => by contradiction
  · exact hq.resolve_left fun ⟨m, hm⟩ => hne m (Except.error.inj hm)

theorem Reachable.consistent {tb : TraceBuffer} (h : Reachable hash tb) : Consistent tb := by
  induction h with
  | create hwf hc => exact (create_ok hwf hc).1.consistent
  | step _ hs ih => exact (step_keeps ih hs).1

end TraceBuffer

end Pepp.Tvm

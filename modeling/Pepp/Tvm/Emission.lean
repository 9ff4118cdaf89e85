import Pepp.Tvm.Recordings

/-!
# What a recording collects

Code is collected in the recording itself. Payload goes to the data chain of the
initiator in the claimed slot, so it ends up behind what is there and nowhere else.
-/

namespace Pepp.Tvm

open Bts Outcome BufferManager SlotRing

namespace ChainStep

variable {name : ChainName} {tb tb' : TraceBuffer}

theorem ringState (h : ChainStep name tb tb') : tb'.ringState = tb.ringState := by
  have hb := h.books
  refine SlotRing.ext hb.ringSize hb.head hb.tail (funext hb.slot) (funext hb.count) (funext hb.open_) (funext fun d => ?_)
  simp only [TraceBuffer.ringState, TraceBuffer.findRecording, hb.recordings]

theorem consistent (h : ChainStep name tb tb') (hc : Consistent tb) : Consistent tb' where
  sound := h.ringState ▸ hc.sound
  storage := h.storage
  located i hi := by
    rw [h.books.slot] at hi
    rw [h.books.locations]
    exact hc.located i hi
  stencils k entry he := (hc.stencils k entry (h.stencilMap ▸ he)).keeps (h.extends_ .stencils)
  tombstone := h.books.tombstone ▸ ⟨hc.tombstone.1, h.extends_.holds hc.tombstone.2⟩
  ident d recording hr := hc.ident d recording (h.books.recordings ▸ hr)
  opened d at_ hcl := by
    rw [h.ringState] at hcl
    rw [TraceBuffer.entryAt_of_sameLocations h.locations, TraceBuffer.index, h.books.ringSize, h.books.tombstone]
    exact hc.opened d at_ hcl

theorem still (h : ChainStep name tb tb') : Still tb tb' where
  ringSize := h.books.ringSize
  head := h.books.head
  tail := h.books.tail
  tombstone := h.books.tombstone
  slot := h.books.slot
  count := h.books.count
  extends_ := h.extends_
  stencilMap _ entry he := ⟨entry, h.stencilMap ▸ he, rfl, rfl⟩
  claims _ _ hc := h.ringState ▸ hc
  entries _ _ _ := TraceBuffer.entryAt_of_sameLocations h.locations

end ChainStep

namespace TraceBuffer

variable {self self' : TraceBuffer} {d : U8} {recording edited : Recording}

/-- The counters of the footprint have no bearing on anything else. -/
theorem consistent_footprint (h : Consistent self) (footprint : Footprint) : Consistent { self with footprint := footprint } :=
  ⟨h.sound, ⟨h.storage.wf, h.storage.live, h.storage.nodup, h.storage.disjoint⟩, h.located, h.stencils, h.tombstone,
    h.ident, h.opened⟩

theorem still_footprint (h : Consistent self) (footprint : Footprint) : Still self { self with footprint := footprint } :=
  ⟨rfl, rfl, rfl, rfl, fun _ => rfl, fun _ => rfl, h.storage.extends_refl, fun _ entry he => ⟨entry, he, rfl, rfl⟩,
    fun _ _ hc => hc, fun _ _ _ => rfl⟩

/-- An edit of an open recording that keeps its place. -/
structure Edits (recording edited : Recording) : Prop where
  active : edited.active = recording.active
  id : edited.id = recording.id
  slot : edited.slot = recording.slot
  entry : edited.entry = recording.entry

theorem ringState_edit (hf : self.findRecording d = some recording) (he : Edits recording edited) :
    (self.setRecording d edited).ringState = self.ringState := by
  refine SlotRing.ext rfl rfl rfl rfl rfl rfl (funext fun d' => ?_)
  simp only [ringState, findRecording_setRecording, he.active, (findRecording_eq_some.mp hf).2, if_true]
  by_cases hd : d' = d
  · simp [hd, hf, he.slot, he.entry]
  · simp [hd]

theorem consistent_edit (h : Consistent self) (hf : self.findRecording d = some recording)
    (he : Edits recording edited) : Consistent (self.setRecording d edited) where
  sound := ringState_edit hf he ▸ h.sound
  storage := sameBuffers_setRecording.storage h.storage
  located := h.located
  stencils k entry hk := (h.stencils k entry hk).keeps (sameBuffers_setRecording.extends_ h.storage .stencils)
  tombstone := ⟨h.tombstone.1, (sameBuffers_setRecording.extends_ h.storage).holds h.tombstone.2⟩
  ident d' recording' hr := by
    simp only [setRecording] at hr
    split at hr
    · rename_i hd
      rw [← Option.some.inj hr, hd, he.id, h.ident d recording (findRecording_eq_some.mp hf).1]
    · exact h.ident d' recording' hr
  opened d' at_ hcl := by
    rw [ringState_edit hf he] at hcl
    exact (entryAt_of_sameLocations sameBuffers_setRecording.sameLocations).trans (h.opened d' at_ hcl)

theorem still_edit (h : Consistent self) (hf : self.findRecording d = some recording)
    (he : Edits recording edited) : Still self (self.setRecording d edited) where
  ringSize := rfl
  head := rfl
  tail := rfl
  tombstone := rfl
  slot _ := rfl
  count _ := rfl
  extends_ := sameBuffers_setRecording.extends_ h.storage
  stencilMap _ entry hk := ⟨entry, hk, rfl, rfl⟩
  claims _ _ hc := ringState_edit hf he ▸ hc
  entries _ _ _ := entryAt_of_sameLocations sameBuffers_setRecording.sameLocations

theorem emitTo_meets (edit : Recording → Recording) (message : String) (d : U8) :
    Meets (emitTo d edit message) self fun r self' =>
      match r with
      | .ok _ => ∃ recording, self.findRecording d = some recording ∧ self' = self.setRecording d (edit recording)
      | .error e => e = .assertion message ∧ self' = self := by
  unfold emitTo
  apply meets_get
  cases hf : self.findRecording d with
  | none => exact meets_throw ⟨rfl, rfl⟩
  | some recording => exact meets_set ⟨recording, rfl, rfl⟩

theorem emitTo_keeps (h : Consistent self) {edit : Recording → Recording} (he : ∀ recording, Edits recording (edit recording))
    (message : String) (d : U8) :
    Meets (emitTo d edit message) self fun _ self' => Consistent self' ∧ Later self self' := by
  refine (emitTo_meets edit message d).mono fun r self' hr => ?_
  cases r with
  | ok _ =>
    obtain ⟨recording, hf, rfl⟩ := hr
    exact ⟨consistent_edit h hf (he recording), (still_edit h hf (he recording)).later⟩
  | error e =>
    obtain ⟨-, rfl⟩ := hr
    exact ⟨h, Later.refl h⟩

/-- What an append leaves in the recording: the first one is remembered. -/
def Recording.appended (recording : Recording) (loc : Location) : Recording :=
  if recording.dataStart.id = 0 then { recording with dataStart := loc } else recording

theorem edits_appended (recording : Recording) (loc : Location) : Edits recording (Recording.appended recording loc) := by
  unfold Recording.appended
  split <;> exact ⟨rfl, rfl, rfl, rfl⟩

theorem setRecording_self (h : self.recordings d = some recording) : self.setRecording d recording = self := by
  have : (fun d' => if d' = d then some recording else self.recordings d') = self.recordings := by
    funext d'
    split
    · rename_i he
      rw [he, h]
    · rfl
  rw [setRecording, this]

/-- The data chain a recording appends to. -/
def dataChain (self : TraceBuffer) (d : U8) (recording : Recording) : BufferManager × BufferChain :=
  (self.mgr, self.chain (.data (self.index recording.slot) d))

/-- Payload ends up at the end of the recording's data chain. -/
theorem appendData_meets (h : Consistent self) (d : U8) (data : List U8) :
    Meets (appendData d data) self fun r self' =>
      match r with
      | .ok loc => ∃ recording t footprint, self.findRecording d = some recording ∧
          ChainStep (.data (self.index recording.slot) d) self t ∧
          self' = ({ t with footprint := footprint }).setRecording d (Recording.appended recording loc) ∧
          content (t.dataChain d recording) = content (self.dataChain d recording) ++ data ∧
          t.mgr.Live loc.id ∧
          (data ≠ [] ∨ BufferChain.room (self.dataChain d recording) ≠ some 0 →
            PlacedAt (t.dataChain d recording) loc (content (self.dataChain d recording)).length)
      | .error _ => self.findRecording d = none ∧ self' = self ∨ ∃ recording, self.findRecording d = some recording ∧
          ChainStep (.data (self.index recording.slot) d) self self' ∧
          content (self'.dataChain d recording) = content (self.dataChain d recording) := by
  unfold appendData
  apply meets_get
  cases hf : self.findRecording d with
  | none => exact meets_throw (.inl ⟨rfl, rfl⟩)
  | some recording =>
    have hid := h.ident d recording (findRecording_eq_some.mp hf).1
    subst hid
    dsimp only
    have how := h.storage.owns (.data (self.index recording.slot) recording.id)
    apply meets_bind
    refine (onChain_meets h.storage ((BufferChain.append_meets how data).and (BufferChain.append_content how data)
      |>.mono fun r s' hr => ⟨hr.1.1, hr.1.2.1, hr⟩)).mono fun r t ht => ?_
    obtain ⟨hstep, ⟨-, -, hr⟩, hcont⟩ := ht
    have hidx : t.index recording.slot = self.index recording.slot := by simp only [index, hstep.books.ringSize]
    cases r with
    | error e => exact .inr ⟨recording, rfl, hstep, by rw [dataChain, hidx]; exact hcont⟩
    | ok loc =>
      refine meets_get (meets_bind (meets_set (meets_pure ⟨recording, t,
        { t.footprint with data := t.footprint.data + data.length }, rfl, hstep, ?_, ?_, hr.2.2.1.live, ?_⟩)))
      · unfold Recording.appended
        split
        · rfl
        · refine (setRecording_self ?_).symm
          exact (congrFun hstep.books.recordings _).trans (findRecording_eq_some.mp hf).1
      · rw [dataChain, hidx]
        exact hcont.1
      · simp only [dataChain, hidx]
        exact hcont.2

theorem appendData_keeps (h : Consistent self) (d : U8) (data : List U8) :
    Meets (appendData d data) self fun _ self' => Consistent self' ∧ Later self self' := by
  refine (appendData_meets h d data).mono fun r self' hr => ?_
  cases r with
  | ok loc =>
    obtain ⟨recording, t, footprint, hf, hstep, rfl, -⟩ := hr
    have ht := hstep.consistent h
    have hf' : { t with footprint := footprint }.findRecording d = some recording := by
      rw [← hf]
      exact findRecording_congr hstep.books.recordings
    have hedit := edits_appended recording loc
    have hfoot := consistent_footprint ht footprint
    exact ⟨consistent_edit hfoot hf' hedit,
      hstep.still.later.trans ((still_footprint ht footprint).later.trans (still_edit hfoot hf' hedit).later)⟩
  | error e =>
    rcases hr with ⟨-, rfl⟩ | ⟨recording, -, hstep, -⟩
    · exact ⟨h, Later.refl h⟩
    · exact ⟨hstep.consistent h, hstep.still.later⟩

end TraceBuffer

end Pepp.Tvm

/-! ## Storing code

Promoting a body and flushing a program are each one series of appends to one
chain: the stencil chain and the code chain of the claimed slot. -/

namespace Pepp.Tvm

open Bts Outcome BufferManager

namespace TraceBuffer

variable {self self' : TraceBuffer} {name : ChainName} {α β : Type}

theorem setChain_setChain {mgr : BufferManager} {chain chain' : BufferChain} :
    ({ self.setChain name chain with mgr := mgr }).setChain name chain' =
      ({ self with mgr := mgr }).setChain name chain' := by
  cases name with
  | stencils => rfl
  | code i =>
    simp only [setChain, setNode, TraceBuffer.mk.injEq, true_and, and_true, if_true]
    funext j
    by_cases hj : j = i <;> simp [hj]
  | data i d =>
    simp only [setChain, setNode, TraceBuffer.mk.injEq, true_and, and_true, if_true]
    funext j
    by_cases hj : j = i
    · simp only [hj, if_true, Node.mk.injEq, true_and, and_true]
      funext d'
      by_cases hd : d' = d <;> simp [hd]
    · simp [hj]

/-- Operations of one chain in a row are one operation of the chain. -/
theorem onChain_bind (x : ChainM α) (f : α → ChainM β) :
    onChain name (x >>= f) = onChain name x >>= fun a => onChain name (f a) := by
  funext self
  change onChain name (EStateM.bind x f) self = EStateM.bind (onChain name x) _ self
  unfold onChain EStateM.bind
  dsimp only
  cases hx : x (self.mgr, self.chain name) with
  | error e s => rfl
  | ok a s =>
    simp only [mgr_setChain, chain_setChain, if_true]
    cases f a (s.1, s.2) with
    | ok b s' => simp only [setChain_setChain]
    | error e s' => simp only [setChain_setChain]

theorem setChain_chain : self.setChain name (self.chain name) = self := by
  cases name with
  | stencils => rfl
  | code i =>
    have : (fun j => if j = i then { self.ring i with code := (self.ring i).code } else self.ring j) = self.ring := by
      funext j
      by_cases hj : j = i <;> simp [hj]
    simp only [setChain, setNode, chain, this]
  | data i d =>
    have hdata : (fun d' => if d' = d then (self.ring i).data d else (self.ring i).data d') = (self.ring i).data := by
      funext d'
      by_cases hd : d' = d <;> simp [hd]
    have : (fun j => if j = i then { self.ring i with data := (self.ring i).data } else self.ring j) = self.ring := by
      funext j
      by_cases hj : j = i <;> simp [hj]
    simp only [setChain, setNode, chain, hdata, this]

theorem onChain_pure (a : α) : onChain name (pure a : ChainM α) = pure a := by
  funext self
  change EStateM.Result.ok a (({ self with mgr := self.mgr }).setChain name (self.chain name)) = EStateM.Result.ok a self
  rw [setChain_chain]

theorem onChain_map (g : α → β) (x : ChainM α) : onChain name (g <$> x) = g <$> onChain name x := by
  rw [map_eq_pure_bind, map_eq_pure_bind, onChain_bind]
  simp only [onChain_pure]

/-- The code of a recording's middle part: the call of a stencil, or the body itself. -/
def midCode (recording : Recording) (resolution : BodyResolution) : List U8 :=
  if resolution.isStencil then EncodedOp.call2 ⟨resolution.location.id, resolution.location.offset⟩ else recording.body

/-- The parts of a recording's subroutine. -/
def codeParts (recording : Recording) (resolution : BodyResolution) : List (List U8) :=
  [recording.prefix_, midCode recording resolution, recording.postfix_]

theorem flushToRing_eq (recording : Recording) (resolution : BodyResolution) (hp : recording.postfix_ ≠ []) :
    flushToRing recording resolution = (do
      let self ← get
      let i := self.index recording.slot
      let start ← onChain (.code i) (BufferChain.storeParts (codeParts recording resolution))
      modify fun self =>
        { self with
          footprint :=
            { self.footprint with
              code := self.footprint.code + (codeParts recording resolution).flatten.length
              codeIfInlined := self.footprint.codeIfInlined +
                (recording.prefix_.length + recording.body.length + recording.postfix_.length) } }
      let program : ProgramLocation := ⟨start.getD Location.null, recording.dataStart⟩
      writeLocation i recording.entry program
      return program) := by
  have hlen : recording.prefix_.length + recording.postfix_.length + (if resolution.isStencil = true then
      (EncodedOp.call2 ⟨resolution.location.id, resolution.location.offset⟩).length else recording.body.length) =
      (codeParts recording resolution).flatten.length := by
    cases hs : resolution.isStencil <;> simp [codeParts, midCode, hs] <;> omega
  have hcall : ∀ loc : Location, EncodedOp.call2 ⟨loc.id, loc.offset⟩ ≠ [] := by
    intro loc h
    have := congrArg List.length h
    rw [EncodedOp.call2, EncodedOp.length_encodeOp] at this
    contradiction
  unfold flushToRing BufferChain.storeParts
  congr 1
  funext self
  simp only [hlen]
  generalize (codeParts recording resolution).flatten.length = total
  unfold codeParts midCode appendPart
  by_cases hpre : recording.prefix_ = [] <;> by_cases hs : resolution.isStencil = true <;>
    by_cases hb : recording.body = [] <;>
    simp [hpre, hs, hb, hp, hcall, BufferChain.appendParts, onChain_bind, onChain_map]

/-- What flushing leaves behind. -/
structure Flushed (recording : Recording) (parts : List (List U8)) (program : ProgramLocation) (tb tb' : TraceBuffer) :
    Prop where
  data : program.data = recording.dataStart
  storage : Storage tb'
  extends_ : Extends tb tb'
  books : SameBooks tb tb'
  stencilMap : tb'.stencilMap = tb.stencilMap
  written : tb'.entryAt (tb.index recording.slot) recording.entry = program
  others : ∀ i e, i ≠ tb.index recording.slot ∨ e ≠ recording.entry → tb'.entryAt i e = tb.entryAt i e
  inChain : program.code.id ∈ (tb'.chain (.code (tb.index recording.slot))).bufs
  spent : tb'.mgr.available + cost (BufferChain.room (tb.mgr, tb.chain (.code (tb.index recording.slot))))
    (parts.map List.length) = tb.mgr.available
  parts_le : ∀ part ∈ parts, part.length ≤ SIZE
  stored : parts.flatten.length ≤ SIZE → Stored tb'.mgr program.code parts.flatten

/-- Either the program is stored and its entry written, or only spare bytes of the code chain were. -/
theorem flushToRing_meets (h : Consistent self) {recording : Recording} {resolution : BodyResolution} {id : Bts.ID}
    (hp : recording.postfix_ ≠ []) (hl : (self.ring (self.index recording.slot)).locations = some id)
    (he : recording.entry < MAX_LOCATION_ENTRIES) :
    Meets (flushToRing recording resolution) self fun r self' =>
      match r with
      | .ok program => Flushed recording (codeParts recording resolution) program self self'
      | .error _ => ChainStep (.code (self.index recording.slot)) self self' ∧
          (self.mgr.available < cost
              (BufferChain.room (self.mgr, self.chain (.code (self.index recording.slot))))
              ((codeParts recording resolution).map List.length) ∨
            ∃ part ∈ codeParts recording resolution, SIZE < part.length) := by
  have hne : (codeParts recording resolution).flatten ≠ [] := by
    simp [codeParts, hp]
  have how := h.storage.owns (.code (self.index recording.slot))
  rw [flushToRing_eq recording resolution hp]
  apply meets_get
  apply meets_bind
  refine (onChain_meets h.storage (BufferChain.storeParts_meets how hne)).mono fun r t ht => ?_
  obtain ⟨hstep, ht⟩ := ht
  cases r with
  | error e => exact ⟨hstep, ht⟩
  | ok start =>
    obtain ⟨loc, rfl, hid, hav, hle, hst, -⟩ := ht
    refine meets_bind (meets_modify ?_)
    set footprint : Footprint := { t.footprint with
      code := t.footprint.code + (codeParts recording resolution).flatten.length
      codeIfInlined := t.footprint.codeIfInlined +
        (recording.prefix_.length + recording.body.length + recording.postfix_.length) }
    have hf := consistent_footprint (hstep.consistent h) footprint
    apply meets_bind
    refine (writeLocation_meets hf.storage (hstep.books.locations _ |>.trans hl) he).mono fun r self' hw => ?_
    obtain ⟨⟨u, rfl⟩, hw⟩ := hw
    have hwb : SameBooks t self' := by rw [hw.only]; constructor <;> intros <;> rfl
    have hws : self'.stencilMap = t.stencilMap := by rw [hw.only]
    refine meets_pure ⟨rfl, hw.storage, hstep.extends_.trans hw.extends_, hstep.books.trans hwb,
      hws.trans hstep.stencilMap, hw.written, fun i e hie => ?_, (hw.extends_ _).subset hid, ?_, hle, fun hlen => ?_⟩
    · rw [hw.others i e hie]
      exact entryAt_of_sameLocations hstep.locations
    · have := hw.available
      change self'.mgr.available = t.mgr.available at this
      rw [this]
      exact hav
    · exact (hw.extends_ (.code (self.index recording.slot))).stored hid (hst hlen)

end TraceBuffer

end Pepp.Tvm

import Pepp.Tvm.Stencils

/-!
# Committing

A commit closes the recording first. Then it stores the program and publishes
where, or it throws and the entry stays the tombstone that `begin` wrote.
-/

namespace Pepp.Tvm

open Bts Outcome BufferManager SlotRing

namespace TraceBuffer

variable {self self' : TraceBuffer} {d : U8} {recording : Recording}

/-- The recording with the `HALT` that every program ends in. -/
def Recording.finished (recording : Recording) : Recording :=
  { recording with postfix_ := recording.postfix_ ++ EncodedOp.halt0 }

def Recording.closed (recording : Recording) : Recording := { Recording.finished recording with active := false }

section

variable (hash : List U8 → U32)

/-- How long the code of the middle part is going to be. -/
def midLength (self : TraceBuffer) (body : List U8) : Nat :=
  if Calls hash self body then (EncodedOp.call2 ⟨0, 0⟩).length else body.length

/-- The lengths of a recording's parts, as a commit stores them. -/
def partLengths (self : TraceBuffer) (recording : Recording) : List Nat :=
  [recording.prefix_.length, midLength hash self recording.body, recording.postfix_.length + EncodedOp.halt0.length]

/-- The manager is short of buffers, or a part is longer than one. -/
def CommitThrows (self : TraceBuffer) (recording : Recording) : Prop :=
  Promotes hash self recording.body ∧ SIZE < recording.body.length ∨
    self.mgr.available < promotionCost hash self recording.body +
      cost (BufferChain.room (self.mgr, self.chain (.code (self.index recording.slot)))) (partLengths hash self recording) ∨
    ∃ n ∈ partLengths hash self recording, SIZE < n

end

/-- A flush publishes the entry of a closed recording and touches no other. -/
theorem Flushed.still {tb t₁ t₂ : TraceBuffer} {parts : List (List U8)} {program : ProgramLocation}
    (h : Flushed recording parts program t₁ t₂) (hc : Consistent tb)
    (hclaim : tb.ringState.claims d = some ⟨recording.slot, recording.entry⟩) (hs : Still tb t₁) (hd : t₁.ringState.claims d = none) : Still tb t₂ := by
  have hidx : ∀ s, t₁.index s = tb.index s := fun s => by simp only [index, hs.ringSize]
  have hring : t₂.ringState.claims = t₁.ringState.claims := by
    funext d'
    simp only [ringState, findRecording, h.books.recordings]
  refine ⟨h.books.ringSize.trans hs.ringSize, h.books.head.trans hs.head, h.books.tail.trans hs.tail,
    h.books.tombstone.trans hs.tombstone, fun i => (h.books.slot i).trans (hs.slot i),
    fun i => (h.books.count i).trans (hs.count i), hs.extends_.trans h.extends_,
    fun k entry he => h.stencilMap ▸ hs.stencilMap k entry he,
    fun d' at_ hcl => hs.claims d' at_ (hring ▸ hcl), fun at_ hr hcl => ?_⟩
  have hne : at_ ≠ ⟨recording.slot, recording.entry⟩ := by
    rintro rfl
    have := hcl d hclaim
    rw [hring, hd] at this
    contradiction
  rw [h.others _ _ ?_]
  · exact hs.entries at_ hr fun d' hcd => hring ▸ hcl d' hcd
  · by_contra hnot
    push Not at hnot
    obtain ⟨hi, he⟩ := hnot
    rw [hidx] at hi
    have hslot := Sound.node_inj (r := tb.ringState) hr.1 (hc.sound.claimed d _ hclaim).1 hi
    exact hne (by cases at_; cases hslot; cases he; rfl)

theorem Flushed.consistent {t₁ t₂ : TraceBuffer} {parts : List (List U8)} {program : ProgramLocation}
    (h : Flushed recording parts program t₁ t₂) (hc : Consistent t₁)
    (hfree : ∀ d' at_, t₁.ringState.claims d' = some at_ →
      t₁.index at_.slot ≠ t₁.index recording.slot ∨ at_.entry ≠ recording.entry) : Consistent t₂ := by
  have hring : t₂.ringState = t₁.ringState := by
    refine SlotRing.ext h.books.ringSize h.books.head h.books.tail (funext h.books.slot) (funext h.books.count)
      (funext h.books.open_) (funext fun d => ?_)
    simp only [ringState, findRecording, h.books.recordings]
  refine ⟨hring ▸ hc.sound, h.storage, fun i hi => ?_, fun k entry he => ?_, ?_, fun d' r hr => ?_, fun d' at_ hcl => ?_⟩
  · rw [h.books.slot] at hi
    rw [h.books.locations]
    exact hc.located i hi
  · exact (hc.stencils k entry (h.stencilMap ▸ he)).keeps (h.extends_ .stencils)
  · exact h.books.tombstone ▸ ⟨hc.tombstone.1, h.extends_.holds hc.tombstone.2⟩
  · exact hc.ident d' r (h.books.recordings ▸ hr)
  · rw [hring] at hcl
    rw [index, h.books.ringSize, h.books.tombstone]
    exact (h.others _ _ (hfree d' at_ hcl)).trans (hc.opened d' at_ hcl)

section

variable (hash : List U8 → U32)

/-- What a commit has done once it has published its entry. -/
structure Published (d : U8) (recording : Recording) (program : ProgramLocation) (tb t : TraceBuffer) : Prop where
  consistent : Consistent t
  still : Still tb t
  recordings : t.recordings = fun d' => if d' = d then some (Recording.closed recording) else tb.recordings d'
  data : program.data = recording.dataStart
  written : t.entryAt (tb.index recording.slot) recording.entry = program
  inChain : program.code.id ∈ (t.chain (.code (tb.index recording.slot))).bufs
  stored : ∃ resolution : BodyResolution, (resolution.isStencil = true ↔ Calls hash tb recording.body) ∧
    (resolution.isStencil = true → Holds t .stencils resolution.location recording.body ∧
      (recording.body.length + EncodedOp.ret0.length ≤ SIZE →
        Holds t .stencils resolution.location (recording.body ++ EncodedOp.ret0))) ∧
    ((codeParts (Recording.finished recording) resolution).flatten.length ≤ SIZE →
      Stored t.mgr program.code (codeParts (Recording.finished recording) resolution).flatten)
  fits : ¬ CommitThrows hash tb recording

/-- What a commit has done when it throws: only spare bytes were written. -/
structure Failed (d : U8) (recording : Recording) (tb t : TraceBuffer) : Prop where
  consistent : Consistent t
  still : Still tb t
  recordings : t.recordings = fun d' => if d' = d then some (Recording.closed recording) else tb.recordings d'
  entries : ∀ i e, t.entryAt i e = tb.entryAt i e
  throws : CommitThrows hash tb recording

theorem room_congr {s s' : BufferManager × BufferChain} (hc : s'.2 = s.2)
    (hd : ∀ id ∈ s.2.bufs, s'.1.deref id = s.1.deref id) : BufferChain.room s' = BufferChain.room s := by
  unfold BufferChain.room
  rw [hc]
  cases hl : s.2.bufs.getLast? with
  | none => rfl
  | some id => rw [Option.map_some, Option.map_some, hd id (List.mem_of_getLast? hl)]

theorem partLengths_eq {resolution : BodyResolution}
    (h : resolution.isStencil = true ↔ Calls hash self recording.body) :
    (codeParts (Recording.finished recording) resolution).map List.length = partLengths hash self recording := by
  have hmid : (midCode (Recording.finished recording) resolution).length = midLength hash self recording.body := by
    unfold midCode midLength
    by_cases hs : resolution.isStencil = true
    · rw [if_pos hs, if_pos (h.mp hs)]
      simp only [EncodedOp.call2, EncodedOp.length_encodeOp, List.length_cons]
    · rw [if_neg hs, if_neg (fun hc => hs (h.mpr hc))]
      rfl
  rw [codeParts, List.map_cons, List.map_cons, List.map_cons, List.map_nil, hmid, partLengths]
  simp [Recording.finished]

/-- Resolving and flushing after the recording was closed. -/
theorem publish_meets (h : Consistent self) (hf : self.findRecording d = some recording) :
    Meets (do
      let resolution ← resolveBody hash recording.body
      flushToRing (Recording.finished recording) resolution)
      (self.close d recording (Recording.closed recording)) fun r t =>
        match r with
        | .ok program => Published hash d recording program self t
        | .error _ => Failed hash d recording self t := by
  have hid : recording.id = d := h.ident d recording (findRecording_eq_some.mp hf).1
  have h₀ : Consistent (self.close d recording (Recording.closed recording)) := consistent_close h hf rfl hid
  have hs₀ : Still self (self.close d recording (Recording.closed recording)) := still_close h rfl
  have hclaim := claims_ringState.mpr ⟨recording, hf, rfl⟩
  have hn₀ : ∀ d', (self.close d recording (Recording.closed recording)).ringState.claims d' = _ := claims_close rfl
  have hcode : (self.close d recording (Recording.closed recording)).chain (.code (self.index recording.slot)) =
      self.chain (.code (self.index recording.slot)) := sameBuffers_close.chain _
  have hlocs : SameLocations self (self.close d recording (Recording.closed recording)) :=
    sameBuffers_close.sameLocations
  apply meets_bind
  refine (resolveBody_meets hash h₀ recording.body).mono fun r t₁ hr => ?_
  cases r with
  | error e =>
    obtain ⟨hstep, hp, hthrow⟩ := hr
    refine ⟨hstep.consistent h₀, hs₀.trans hstep.still, hstep.books.recordings, fun i e => ?_, ?_⟩
    · rw [entryAt_of_sameLocations hstep.locations, entryAt_of_sameLocations hlocs]
    · exact hthrow.elim (fun hav => .inr (.inl (Nat.lt_of_lt_of_le hav (Nat.le_add_right _ _)))) fun hl => .inl ⟨hp, hl⟩
  | ok resolution =>
    have hcalls : resolution.isStencil = true ↔ Calls hash self recording.body := hr.calls
    have hstill₁ := hs₀.trans hr.still
    have hd₁ : t₁.ringState.claims d = none := by
      cases hc : t₁.ringState.claims d with
      | none => rfl
      | some at_ =>
        have := hr.still.claims d at_ hc
        rw [hn₀, if_pos rfl] at this
        contradiction
    have hidx : t₁.index recording.slot = self.index recording.slot := by simp only [index, hstill₁.ringSize]
    obtain ⟨hchain, hframe⟩ := hr.others (.code (self.index recording.slot)) (by simp)
    have hroom : BufferChain.room (t₁.mgr, t₁.chain (.code (t₁.index recording.slot))) =
        BufferChain.room (self.mgr, self.chain (.code (self.index recording.slot))) := by
      rw [hidx]
      refine room_congr (hchain.trans hcode) fun id hid => ?_
      exact hframe id (by rw [hcode]; exact hid)
    have hparts := partLengths_eq hash hcalls
    have hspent : t₁.mgr.available + promotionCost hash self recording.body = self.mgr.available := hr.spent
    have hslot : (self.ring (self.index recording.slot)).slot = some recording.slot := (h.sound.claimed d _ hclaim).1
    obtain ⟨id, hloc⟩ : ∃ id, (t₁.ring (t₁.index recording.slot)).locations = some id := by
      rw [hidx, (hr.locations _).1, sameBuffers_close.locations]
      exact Option.ne_none_iff_exists'.mp (h.located _ (by rw [hslot]; simp))
    have hentry : recording.entry < MAX_LOCATION_ENTRIES :=
      Nat.lt_of_lt_of_le (h.sound.claimed d _ hclaim).2 (h.sound.count_le _)
    have hpost : (Recording.finished recording).postfix_ ≠ [] := fun he =>
      absurd (List.append_eq_nil_iff.mp he).2 (by decide)
    refine (@flushToRing_meets t₁ hr.consistent (Recording.finished recording) resolution id hpost hloc
      hentry).mono fun r t₂ hr₂ => ?_
    cases r with
    | error e =>
      obtain ⟨hstep, hthrow⟩ := hr₂
      refine ⟨hstep.consistent hr.consistent, hstill₁.trans hstep.still, hstep.books.recordings.trans hr.books.recordings,
        fun i e => ?_, ?_⟩
      · rw [entryAt_of_sameLocations hstep.locations, entryAt_of_sameLocations hr.locations, entryAt_of_sameLocations hlocs]
      · rcases hthrow with hav | ⟨part, hpart, hlt⟩
        · rw [hparts] at hav
          have hav : t₁.mgr.available < cost (BufferChain.room (t₁.mgr, t₁.chain (.code (t₁.index recording.slot))))
            (partLengths hash self recording) := hav
          rw [hroom] at hav
          exact .inr (.inl (by omega))
        · exact .inr (.inr ⟨part.length, hparts ▸ List.mem_map_of_mem hpart, hlt⟩)
    | ok program =>
      have hsub : ∀ {i}, t₁.index i = self.index i := fun {i} => by simp only [index, hstill₁.ringSize]
      refine ⟨hr₂.consistent hr.consistent fun d' at_ hc => ?_, hr₂.still h hclaim hstill₁ hd₁,
        hr₂.books.recordings.trans hr.books.recordings, hr₂.data, hidx ▸ hr₂.written, hidx ▸ hr₂.inChain,
        ⟨resolution, hcalls, fun hs => ?_, hr₂.stored⟩, ?_⟩
      · by_contra hnot
        push Not at hnot
        obtain ⟨hi, he⟩ := hnot
        have hc' := hstill₁.claims d' at_ hc
        have hi' : self.index at_.slot = self.index recording.slot := by rwa [hsub, hsub] at hi
        have hsl := Sound.node_inj (r := self.ringState) (h.sound.claimed d' at_ hc').1 hslot hi'
        have heq : at_ = ⟨recording.slot, recording.entry⟩ := by cases at_; cases hsl; cases he; rfl
        obtain rfl := h.sound.claims_inj d' d at_ hc' (heq ▸ hclaim)
        rw [hd₁] at hc
        contradiction
      · obtain ⟨hb, hret⟩ := hr.location hs
        exact ⟨hr₂.extends_.holds hb, fun hle => hr₂.extends_.holds (hret hle)⟩
      · have hsp := hr₂.spent
        rw [hparts] at hsp
        have hsp : t₂.mgr.available + cost (BufferChain.room (t₁.mgr, t₁.chain (.code (t₁.index recording.slot))))
          (partLengths hash self recording) = t₁.mgr.available := hsp
        rw [hroom] at hsp
        rintro (⟨hp, hl⟩ | hav | ⟨n, hn, hlt⟩)
        · exact absurd (hr.size_le hp) (Nat.not_le.mpr hl)
        · omega
        · rw [← hparts] at hn
          obtain ⟨part, hpart, rfl⟩ := List.mem_map.mp hn
          exact absurd (hr₂.parts_le part hpart) (Nat.not_le.mpr hlt)

/-- The program is published in `t`, after which the head may have moved on and callbacks may have released slots. -/
def Commits (d : U8) (recording : Recording) (program : ProgramLocation) (tb tb' : TraceBuffer) : Prop :=
  ∃ t footprint, Published hash d recording program tb t ∧
    (tb' = { t with footprint := footprint } ∨
      ∃ respond, tb' = ({ t with footprint := footprint } : TraceBuffer).advanceSlot respond ∧
        t.currentNode.slot = some t.head ∧ MAX_LOCATION_ENTRIES ≤ t.currentNode.count)

/-- `commit` publishes the program or fails, and fails for lack of buffers or over a part that no buffer can hold. -/
theorem commit_meets (h : Consistent self) (respond : Nat → List Cursor) (d : U8) :
    Meets (commit hash respond d) self fun r self' =>
      match r with
      | .ok program => ∃ recording, self.findRecording d = some recording ∧ Commits hash d recording program self self'
      | .error e => self.findRecording d = none ∧ self' = self ∧ (∃ m, e = .assertion m) ∨
          ∃ recording, self.findRecording d = some recording ∧ Failed hash d recording self self' := by
  unfold commit
  apply meets_get
  cases hf : self.findRecording d with
  | none => exact meets_throw (.inl ⟨rfl, rfl, _, rfl⟩)
  | some recording =>
    unfold assert
    dsimp only
    rw [if_pos (by simpa using opens_pos h.sound hf)]
    refine meets_bind (meets_pure (meets_bind (meets_set ?_)))
    rw [← bind_assoc]
    apply meets_bind
    refine (publish_meets hash h hf).mono fun r t ht => ?_
    cases r with
    | error e => exact .inr ⟨recording, rfl, ht⟩
    | ok program =>
      refine meets_bind (meets_modify (meets_get ?_))
      have hclaim := claims_ringState.mpr ⟨recording, hf, rfl⟩
      have hslot : (t.ring (self.index recording.slot)).slot = some recording.slot := by
        rw [ht.still.slot]
        exact (h.sound.claimed d _ hclaim).1
      split
      · rename_i hfull
        obtain ⟨hhead, hcount, -⟩ := hfull
        have hhead : recording.slot = t.head := hhead
        have hnode : t.currentNode = t.ring (self.index recording.slot) := by
          rw [currentNode, nodeAt, ← hhead, index, ht.still.ringSize, index]
        refine meets_bind (meets_set (meets_pure ⟨recording, rfl, t, _, ht, .inr ⟨respond, rfl, ?_, ?_⟩⟩))
        · rw [hnode, hslot, hhead]
        · rw [hnode]
          exact hcount
      · exact meets_pure ⟨recording, rfl, t, _, ht, .inl rfl⟩

/-- After the publication the head may move on, and nothing published before is touched. -/
theorem Commits.later {tb tb' : TraceBuffer} {program : ProgramLocation} (h : Commits hash d recording program tb tb') :
    ∃ t, Published hash d recording program tb t ∧ Consistent tb' ∧ Later t tb' ∧ tb'.recordings = t.recordings := by
  obtain ⟨t, footprint, ht, hnext⟩ := h
  have hc := consistent_footprint ht.consistent footprint
  have hl := (still_footprint ht.consistent footprint).later
  refine ⟨t, ht, ?_⟩
  rcases hnext with rfl | ⟨respond, rfl, hs, hcount⟩
  · exact ⟨hc, hl, rfl⟩
  · exact ⟨consistent_advanceSlot hc respond hs hcount, hl.trans (later_advanceSlot hc respond hs hcount),
      (released_advanceSlot hc.storage respond).recordings⟩

theorem commit_keeps (h : Consistent self) (respond : Nat → List Cursor) (d : U8) :
    Meets (commit hash respond d) self fun _ self' => Consistent self' ∧ Later self self' := by
  refine (commit_meets hash h respond d).mono fun r self' hr => ?_
  cases r with
  | ok program =>
    obtain ⟨recording, -, hc⟩ := hr
    obtain ⟨t, ht, hc', hl, -⟩ := hc.later
    exact ⟨hc', ht.still.later.trans hl⟩
  | error e =>
    rcases hr with ⟨-, rfl, -⟩ | ⟨recording, -, hfail⟩
    · exact ⟨h, Later.refl h⟩
    · exact ⟨hfail.consistent, hfail.still.later⟩

end

end TraceBuffer

end Pepp.Tvm

import Pepp.Sim.Fifo

/-!
# Undo and redo of FIFO accesses

Undo counts: it takes one step back for each recorded read and drops one output
for each recorded write. It is exact when every recorded read moved the position
and no write wrapped the output queue.
-/

namespace Pepp

open Span

namespace Fifo

variable {q q' : Fifo}

theorem contents_eq_iff : q.contents = q'.contents ↔ q.maxIndex = q'.maxIndex ∧ ∀ i < q.size, q.data i = q'.data i := by
  constructor
  · intro h
    have hs : q.size = q'.size := by simpa [contents] using congrArg List.length h
    refine ⟨BitVec.eq_of_toNat_eq hs, fun i hi => ?_⟩
    have := congrArg (·[i]?) h
    simpa [contents, slice, hi, hs ▸ hi] using this
  · rintro ⟨hm, hd⟩
    have hs : q.size = q'.size := by rw [size, size, hm]
    rw [contents, contents, ← hs]
    exact slice_congr fun i _ hi => hd i (by omega)

theorem contents_push (h : q.contents = q'.contents) (v : U8) : (q.push v).contents = (q'.push v).contents := by
  obtain ⟨hm, hd⟩ := (contents_eq_iff).mp h
  refine (contents_eq_iff).mpr ⟨by rw [push, push, hm], fun i hi => ?_⟩
  simp only [push, size, BitVec.toNat_add] at hi ⊢
  rw [← hm]
  rcases Nat.lt_trichotomy i q.maxIndex.toNat with hlt | he | hgt
  · rw [overwrite_of_lt _ _ _ _ hlt, overwrite_of_lt _ _ _ _ hlt]
    exact hd i hlt
  · subst he
    have := overwrite_inside q.data q.maxIndex.toNat 0 [v] (by simp)
    have := overwrite_inside q'.data q.maxIndex.toNat 0 [v] (by simp)
    simp_all
  · have : (1 : U32).toNat = 1 := rfl
    omega

def pushAll (q : Fifo) (values : List U8) : Fifo := values.foldl push q

theorem contents_pushAll (values : List U8) (h : q.contents = q'.contents) :
    (q.pushAll values).contents = (q'.pushAll values).contents := by
  induction values generalizing q q' with
  | nil => exact h
  | cons v values ih => exact ih (contents_push h v)

theorem maxIndex_pushAll (q : Fifo) (values : List U8) :
    (q.pushAll values).maxIndex = q.maxIndex + BitVec.ofNat 32 values.length := by
  induction values generalizing q with
  | nil => simp [pushAll]
  | cons v values ih =>
    change ((q.push v).pushAll values).maxIndex = _
    rw [ih, push, List.length_cons, BitVec.add_assoc]
    congr 1
    apply BitVec.eq_of_toNat_eq
    simp [Nat.add_comm]

theorem data_pushAll (q : Fifo) (values : List U8) (h : q.size + values.length < 2 ^ 32) (i : Nat) (hi : i < q.size) :
    (q.pushAll values).data i = q.data i := by
  induction values generalizing q with
  | nil => rfl
  | cons v values ih =>
    have hs : (q.push v).size = q.size + 1 := by
      simp only [push, size, BitVec.toNat_add, List.length_cons] at h ⊢
      have : (1 : U32).toNat = 1 := rfl
      omega
    change ((q.push v).pushAll values).data i = _
    rw [List.length_cons] at h
    rw [ih _ (by omega) (by omega), push]
    exact overwrite_of_lt _ _ _ _ hi

def popAll (q : Fifo) (n : Nat) : Fifo := popBack^[n] q

theorem popAll_eq (q : Fifo) (n : Nat) : q.popAll n = { q with maxIndex := BitVec.ofNat 32 (q.size - n) } := by
  induction n generalizing q with
  | zero => simp [popAll, size]
  | succ n ih =>
    change q.popBack.popAll n = _
    rw [ih]
    unfold popBack
    by_cases h0 : q.maxIndex = 0
    · simp [h0, size]
    · have hpos : q.maxIndex.toNat ≠ 0 := fun h => h0 (BitVec.eq_of_toNat_eq h)
      have hs : (q.maxIndex - 1).toNat = q.maxIndex.toNat - 1 := by
        rw [BitVec.toNat_sub_of_le]
        · rfl
        · rw [BitVec.le_def]
          change 1 ≤ _
          omega
      simp only [h0, if_false, size, hs]
      congr 2
      omega

/-- Taking away as many bytes as were appended restores the queue, unless its index has wrapped. -/
theorem pop_pushAll (q : Fifo) (values : List U8) :
    ((q.pushAll values).popAll values.length).contents = q.contents ↔ q.size = 0 ∨ q.size + values.length < 2 ^ 32 := by
  rw [popAll_eq, contents_eq_iff]
  have hm := maxIndex_pushAll q values
  have hs : (q.pushAll values).size = (q.size + values.length) % 2 ^ 32 := by
    rw [size, hm, BitVec.toNat_add, BitVec.toNat_ofNat]
    simp [size]
  have hlt := q.maxIndex.isLt
  change q.size < 2 ^ 32 at hlt
  have hsize : (BitVec.ofNat 32 ((q.pushAll values).size - values.length)) = q.maxIndex ↔
      q.size = 0 ∨ q.size + values.length < 2 ^ 32 := by
    rw [← BitVec.toNat_inj, BitVec.toNat_ofNat, hs]
    change _ = q.size ↔ _
    omega
  constructor
  · exact fun h => hsize.mp h.1
  · intro h
    refine ⟨hsize.mpr h, fun i hi => ?_⟩
    rw [hsize.mpr h] at hi
    rcases h with h | h
    · change i < q.size at hi
      omega
    · exact data_pushAll q values h i hi

end Fifo

namespace FifoRegister

variable {self : FifoRegister}

/-- The bytes of the recorded writes, in order. -/
def written (record : List MmioRecord) : List U8 := (record.filter MmioRecord.write).map MmioRecord.data

/-- How many reads were recorded. -/
def reads (record : List MmioRecord) : Nat := record.countP fun op => !op.write

/-- Undoing a record counts its reads and its writes. -/
theorem replay_backward (record : List MmioRecord) (self : FifoRegister) : replay false record self =
    { self with
      inputIt := self.inputIt - reads record
      output := self.output.popAll (written record).length } := by
  induction record generalizing self with
  | nil => rfl
  | cons op record ih =>
    change replay false record (self.onMmio false op) = _
    rw [ih]
    cases hw : op.write with
    | true => simp [onMmio, hw, reads, written, Fifo.popAll, Function.iterate_succ]
    | false =>
      simp [onMmio, hw, reads, written, rewindInput]
      omega

theorem undo_eq (records : List (List MmioRecord)) (self : FifoRegister) : undo records self =
    { self with
      inputIt := self.inputIt - reads records.flatten
      output := self.output.popAll (written records.flatten).length } := by
  have hflat : undo records self = replay false records.reverse.flatten self := by
    unfold undo replay
    rw [List.foldl_flatten]
  have hperm : records.reverse.flatten.Perm records.flatten := (List.reverse_perm records).flatten
  rw [hflat, replay_backward, reads, hperm.countP_eq, written, written, List.length_map, List.length_map,
    (hperm.filter _).length_eq]
  rfl

/-- Redoing a record repeats its writes and takes a step for each of its reads. -/
theorem replay_forward (record : List MmioRecord) (self : FifoRegister) :
    (replay true record self).inputIt = self.inputIt + reads record ∧
      (replay true record self).output = self.output.pushAll (written record) := by
  induction record generalizing self with
  | nil => exact ⟨rfl, rfl⟩
  | cons op record ih =>
    change (replay true record (self.onMmio true op)).inputIt = _ ∧ (replay true record (self.onMmio true op)).output = _
    obtain ⟨hi, ho⟩ := ih (self.onMmio true op)
    rw [hi, ho]
    cases hw : op.write with
    | true => simp [onMmio, hw, reads, written, Fifo.pushAll]
    | false =>
      simp [onMmio, hw, reads, written, advanceInput]
      omega

theorem redo_eq (records : List (List MmioRecord)) (self : FifoRegister) :
    redo records self = replay true records.flatten self := by
  unfold redo replay
  rw [List.foldl_flatten]

theorem recording_append (accesses accesses' : List Access) (self : FifoRegister) :
    recording (accesses ++ accesses') self =
      ((recording accesses' (recording accesses self).1).1,
        (recording accesses self).2 ++ (recording accesses' (recording accesses self).1).2) := by
  induction accesses generalizing self with
  | nil => rfl
  | cons a accesses ih => simp [recording, ih]

/-- The accesses of several recordings are those of one, apart from where the records end. -/
theorem recordings_flatten (accesses : List (List Access)) (self : FifoRegister) :
    (recordings accesses self).1 = (recording accesses.flatten self).1 ∧
      (recordings accesses self).2.flatten = (recording accesses.flatten self).2 := by
  induction accesses generalizing self with
  | nil => exact ⟨rfl, rfl⟩
  | cons a accesses ih =>
    obtain ⟨h₁, h₂⟩ := ih (recording a self).1
    simp [recordings, recording_append, h₁, h₂]

/-- What one access does: nothing, a recorded read or a recorded write. -/
theorem perform_cases (self : FifoRegister) (a : Access) :
    (self.perform a = (self, none) ∧ self.Emits a = false ∧
      (self.Consumes a = true → self.failPolicy = .RaiseError ∧ self.atEnd = true)) ∨
    (∃ v, self.perform a = (if self.atEnd then self else { self with inputIt := self.inputIt + 1 }, some ⟨false, v⟩) ∧
      self.Emits a = false ∧ self.Consumes a = true ∧ (self.failPolicy = .RaiseError → self.atEnd = false)) ∨
    (∃ v, self.perform a = ({ self with output := self.output.push v }, some ⟨true, v⟩) ∧ self.Emits a = true ∧
      self.Consumes a = false) := by
  cases a with
  | read address len op =>
    by_cases hb : self.inBounds address len
    · by_cases hi : self.directionInput = true
      · by_cases ha : op.advances = true
        · by_cases hr : self.atEnd = true ∧ self.failPolicy = .RaiseError
          · refine .inl ⟨?_, rfl, fun _ => hr.symm⟩
            simp [perform, read, hb, hi, ha, hr]
          · refine .inr (.inl ⟨self.valueOr self.fill, ?_, rfl, by simp [Consumes, hb, hi, ha], fun hf => ?_⟩)
            · simp [perform, read, hb, hi, ha, hr]
            · simpa [hf] using hr
        · exact .inl ⟨by simp [perform, read, hb, hi, ha], rfl, by simp [Consumes, ha]⟩
      · refine .inl ⟨?_, rfl, by simp [Consumes, hi]⟩
        by_cases ho : self.directionOutput = true <;> simp [perform, read, hb, hi, ho]
    · exact .inl ⟨by simp [perform, read, hb], rfl, by simp [Consumes, hb]⟩
  | write address src op =>
    by_cases hb : self.inBounds address src.length
    · by_cases ha : op.advances = true ∧ self.directionOutput = true
      · refine .inr (.inr ⟨src.headD 0, ?_, by simp [Emits, hb, ha], rfl⟩)
        simp [perform, write, hb, ha]
      · refine .inl ⟨by simp [perform, write, hb, ha], ?_, fun h => by simp [Consumes] at h⟩
        simp only [Emits, hb, true_and]
        simpa using ha
    · exact .inl ⟨by simp [perform, write, hb], by simp [Emits, hb], fun h => by simp [Consumes] at h⟩

/-- Which accesses count depends on the configuration alone. -/
theorem counts_congr {self' : FifoRegister} (ho : self'.offset = self.offset)
    (hi : self'.directionInput = self.directionInput) (hd : self'.directionOutput = self.directionOutput) :
    self'.Consumes = self.Consumes ∧ self'.Emits = self.Emits := by
  cases self
  cases self'
  cases ho
  cases hi
  cases hd
  exact ⟨rfl, rfl⟩

/-- The reads that were recorded: all of them, unless the input used up is an error. -/
def recordedReads (self : FifoRegister) (consuming : Nat) : Nat :=
  if self.failPolicy = .YieldDefaultValue then consuming else min consuming (self.input.size - self.inputIt)

/-- What a run of accesses does to the register, and what of it is on record. -/
structure Ran (self : FifoRegister) (accesses : List Access) (after : FifoRegister) (record : List MmioRecord) :
    Prop where
  inputIt : after.inputIt = self.inputIt + min (accesses.countP self.Consumes) (self.input.size - self.inputIt)
  output : after.output = self.output.pushAll (written record)
  reads : reads record = self.recordedReads (accesses.countP self.Consumes)
  writes : (written record).length = accesses.countP self.Emits

theorem recording_ran (accesses : List Access) (self : FifoRegister) :
    Ran self accesses (recording accesses self).1 (recording accesses self).2 := by
  induction accesses generalizing self with
  | nil => constructor <;> simp [recording, written, Fifo.pushAll, FifoRegister.reads, recordedReads]
  | cons a accesses ih =>
    rcases perform_cases self a with ⟨hp, he, hc⟩ | ⟨v, hp, he, hc, hr⟩ | ⟨v, hp, he, hc⟩
    · obtain ⟨hi, ho, hreads, hw⟩ := ih self
      have hrec : recording (a :: accesses) self = recording accesses self := by simp [recording, hp]
      rw [hrec]
      have hend : self.Consumes a = true → self.failPolicy ≠ .YieldDefaultValue ∧ self.input.size - self.inputIt = 0 := by
        intro h
        obtain ⟨hf, ha⟩ := hc h
        rw [atEnd, decide_eq_true_eq] at ha
        exact ⟨by simp [hf], by omega⟩
      cases hcons : self.Consumes a with
      | false => constructor <;> simp [hcons, he, hi, ho, hreads, hw]
      | true =>
        obtain ⟨hf, h0⟩ := hend hcons
        constructor <;> simp [List.countP_cons, he, hi, ho, hreads, hw, recordedReads, hf, h0]
    · cases hend : self.atEnd with
      | true =>
        obtain ⟨hi, ho, hreads, hw⟩ := ih self
        have hrec : recording (a :: accesses) self =
            ((recording accesses self).1, ⟨false, v⟩ :: (recording accesses self).2) := by
          simp [recording, hp, hend]
        have hf : self.failPolicy = .YieldDefaultValue := by
          cases hf : self.failPolicy with
          | YieldDefaultValue => rfl
          | RaiseError => simp [hend] at hr; exact absurd hf hr
        have h0 : self.input.size - self.inputIt = 0 := by
          rw [atEnd, decide_eq_true_eq] at hend
          omega
        rw [hrec]
        refine ⟨?_, ?_, ?_, ?_⟩
        · simp [hi, h0]
        · simpa [written] using ho
        · simpa [FifoRegister.reads, List.countP_cons, hc, recordedReads, hf] using hreads
        · simpa [written, List.countP_cons, he] using hw
      | false =>
        obtain ⟨hi, ho, hreads, hw⟩ := ih { self with inputIt := self.inputIt + 1 }
        have hrec : recording (a :: accesses) self =
            ((recording accesses { self with inputIt := self.inputIt + 1 }).1,
              ⟨false, v⟩ :: (recording accesses { self with inputIt := self.inputIt + 1 }).2) := by
          simp [recording, hp, hend]
        have hlt : self.inputIt < self.input.size := by simpa [atEnd] using hend
        obtain ⟨hC, hE⟩ := @counts_congr self { self with inputIt := self.inputIt + 1 } rfl rfl rfl
        rw [hC] at hi hreads
        rw [hE] at hw
        rw [hrec]
        refine ⟨?_, ?_, ?_, ?_⟩
        · simp only [List.countP_cons, hc, if_true]
          simp only at hi
          omega
        · simpa [written] using ho
        · simp only [FifoRegister.reads, recordedReads, List.countP_cons, hc, if_true, Bool.not_false] at hreads ⊢
          rw [hreads]
          split <;> omega
        · simpa [written, List.countP_cons, he] using hw
    · obtain ⟨hi, ho, hreads, hw⟩ := ih { self with output := self.output.push v }
      have hrec : recording (a :: accesses) self = ((recording accesses { self with output := self.output.push v }).1,
          ⟨true, v⟩ :: (recording accesses { self with output := self.output.push v }).2) := by
        simp [recording, hp]
      obtain ⟨hC, hE⟩ := @counts_congr self { self with output := self.output.push v } rfl rfl rfl
      rw [hC] at hi hreads
      rw [hE] at hw
      rw [hrec]
      refine ⟨?_, ?_, ?_, ?_⟩
      · simp [hi, hc]
      · simpa [written, Fifo.pushAll] using ho
      · simpa [FifoRegister.reads, hc, recordedReads] using hreads
      · simpa [written, List.countP_cons, he] using hw

/-- Undo and redo of traced FIFO accesses are exact just when the input lasts and the output does not wrap. -/
theorem reversible_iff (accesses : List (List Access)) (self : FifoRegister) :
    Reversible accesses self ↔ Supplied accesses self := by
  obtain ⟨h₁, h₂⟩ := recordings_flatten accesses self
  obtain ⟨hi, ho, hreads, hw⟩ := recording_ran accesses.flatten self
  have hpop := Fifo.pop_pushAll self.output (written (recording accesses.flatten self).2)
  unfold Reversible
  simp only [h₁]
  rw [undo_eq, redo_eq, h₂, hreads]
  obtain ⟨hf, hfo⟩ := replay_forward (recording accesses.flatten self).2
    { (recording accesses.flatten self).1 with
      inputIt := (recording accesses.flatten self).1.inputIt -
        self.recordedReads (accesses.flatten.countP self.Consumes)
      output := (recording accesses.flatten self).1.output.popAll (written (recording accesses.flatten self).2).length }
  unfold Restored Supplied
  rw [hf, hfo, hreads, hi, ho, ← hw]
  dsimp only
  rw [hpop]
  have hredo : self.output.size = 0 ∨
      self.output.size + (written (recording accesses.flatten self).2).length < 2 ^ 32 →
      (((self.output.pushAll (written (recording accesses.flatten self).2)).popAll
        (written (recording accesses.flatten self).2).length).pushAll
          (written (recording accesses.flatten self).2)).contents =
        (self.output.pushAll (written (recording accesses.flatten self).2)).contents :=
    fun h => Fifo.contents_pushAll _ (hpop.mpr h)
  unfold recordedReads
  constructor
  · rintro ⟨⟨hit, hout⟩, hit', -⟩
    refine ⟨fun hy => ?_, hout⟩
    rw [if_pos hy] at hit hit'
    omega
  · rintro ⟨hsup, hout⟩
    refine ⟨⟨?_, hout⟩, ?_, hredo hout⟩
    · split
      · rename_i hy
        have := hsup hy
        omega
      · omega
    · split
      · rename_i hy
        have := hsup hy
        omega
      · omega

/-- A register at the start of an empty input queue that reads as 0xAA. -/
def exhausted : FifoRegister := ⟨0xAA, true, false, 0, .YieldDefaultValue, ⟨1, fun _ => 0x41⟩, ⟨0, fun _ => 0⟩, 1⟩

/-- One read past the last available input, undone, leaves the read position one too low. -/
theorem exhausted_not_reversible : ¬ Reversible [[.read 0 1 ⟨.Standard, true, 0⟩]] exhausted := by
  rintro ⟨⟨hit, -⟩, -⟩
  exact absurd hit (by decide)

end FifoRegister

end Pepp

import Pepp.Ds.PagedPool
import Pepp.Tvm.Recorder
import Pepp.Tvm.Session

/-!
# Random access memory with its trace

Both memories check the span of an access in the 32-bit arithmetic of addresses.
Then they report a write to the recorder, copy the bytes and count them. `Dense`
keeps a vector over its span, `Sparse` a pool of pages.
-/

namespace Pepp.Ram

open Span Tvm

/-- How an access ends that does not return: with the error of the memory or an exception of the trace
buffer, with a pointer outside the vector, or never. -/
inductive Fault where
  | oobAccess (address : Address)
  | thrown (e : Exception)
  | outside
  | endless
  deriving DecidableEq, Repr

/-- An access of a memory with states `σ`, which shares the trace buffer with others. -/
abbrev RamM (σ : Type) := EStateM Fault (σ × TraceBuffer)

def isPerformanceCountable (op : Operation) : Bool := op.type = .Standard || op.type = .Speculative

/-- `size_inclusive`, in a type where it does not overflow. -/
def sizeInclusive (span : AddressSpan) : Nat :=
  if span.lower ≤ span.upper then span.upper.toNat - span.lower.toNat + 1 else 0

/-- The last address of an access. Length is 1-indexed and addresses are 0-indexed, so it is one short. -/
def maxAddr (address : Address) (len : Nat) : Address := address + (BitVec.ofNat 32 len - 1)

/-- The check in front of every access. -/
def checkSpan {σ : Type} (span : AddressSpan) (address : Address) (len : Nat) : RamM σ Unit :=
  if address < span.lower ∨ span.upper < maxAddr address len then throw (.oobAccess address)
  else pure ()

def record {σ : Type} (emit : TraceM Unit) : RamM σ Unit := fun s =>
  match emit s.2 with
  | .ok _ tb => .ok () (s.1, tb)
  | .error e tb => .error (.thrown e) (s.1, tb)

/-- `mayTrace` is cleared when the trace buffer says that the device is not traced. -/
structure Dense where
  span : AddressSpan
  data : Nat → U8
  rdBytes : U64
  wrBytes : U64
  mayTrace : Bool
  trace : Recorder

namespace Dense

variable (self : Dense)

def offset (address : Address) : Nat := (address - self.span.lower).toNat

/-- Copy `src` into the vector, which has no byte for what lies behind the span, and count `len` bytes. -/
def store (offset : Nat) (src : List U8) (len : Nat) (op : Operation) : RamM Dense Unit :=
  if sizeInclusive self.span < offset + src.length then throw .outside
  else
    modify fun s =>
      ({ s.1 with
        data := overwrite s.1.data offset src
        wrBytes := if isPerformanceCountable op then s.1.wrBytes + BitVec.ofNat 64 len else s.1.wrBytes }, s.2)

/-- Copy `len` bytes out of the vector, and count them. -/
def load (offset len : Nat) (op : Operation) : RamM Dense (List U8) :=
  if sizeInclusive self.span < offset + len then throw .outside
  else do
    modify fun s =>
      ({ s.1 with
        rdBytes := if isPerformanceCountable op then s.1.rdBytes + BitVec.ofNat 64 len else s.1.rdBytes }, s.2)
    return slice self.data offset len

def read (address : Address) (len : Nat) (op : Operation) : RamM Dense (List U8) := do
  let (self, _) ← get
  checkSpan self.span address len
  self.load (self.offset address) len op

def write (address : Address) (src : List U8) (op : Operation) : RamM Dense Unit := do
  let (self, _) ← get
  checkSpan self.span address src.length
  let prior := slice self.data (self.offset address) src.length
  record (if self.mayTrace then self.trace.emitWriteFlat op address prior src else pure ())
  self.store (self.offset address) src src.length op

/-- The report of an increment. The bytes it replaces are cut from the rest of the vector. -/
def reportIncrement (address : Address) (offset : Nat) (src : List U8) (op : Operation) (order : Order) :
    RamM Dense Unit :=
  if self.mayTrace then
    if sizeInclusive self.span < offset + src.length then throw .outside
    else record (self.trace.emitWriteIncrement op address (slice self.data offset src.length) src order)
  else pure ()

/-- A copy that is too long ends with the vector here. -/
def writeIncrement (address : Address) (src : List U8) (op : Operation) (order : Order) : RamM Dense Unit := do
  let (self, _) ← get
  checkSpan self.span address src.length
  let offset := self.offset address
  if sizeInclusive self.span < offset then throw .outside
  else
    self.reportIncrement address offset src op order
    self.store offset (src.take (sizeInclusive self.span - offset)) src.length op

end Dense

structure Sparse where
  span : AddressSpan
  pool : Bts.PagedPool
  rdBytes : U64
  wrBytes : U64
  trace : Recorder

namespace Sparse

variable (self : Sparse)

def offset (address : Address) : U64 := (address - self.span.lower).setWidth 64

def load (offset : U64) (len : Nat) (op : Operation) : RamM Sparse (List U8) :=
  match self.pool.read offset len with
  | none => throw .endless
  | some dest => do
    modify fun s =>
      ({ s.1 with
        rdBytes := if isPerformanceCountable op then s.1.rdBytes + BitVec.ofNat 64 len else s.1.rdBytes }, s.2)
    return dest

def store (offset : U64) (src : List U8) (op : Operation) : RamM Sparse Unit :=
  match self.pool.write offset src with
  | none => throw .endless
  | some pool =>
    modify fun s =>
      ({ s.1 with
        pool := pool
        wrBytes := if isPerformanceCountable op then s.1.wrBytes + BitVec.ofNat 64 src.length else s.1.wrBytes }, s.2)

/-- The bytes that a slot of the trace is filled with. A slot has at most a buffer, and such a read returns. -/
def fillPrior (offset : U64) (len : Nat) : List U8 := (self.pool.read offset len).getD (List.replicate len 0)

def read (address : Address) (len : Nat) (op : Operation) : RamM Sparse (List U8) := do
  let (self, _) ← get
  checkSpan self.span address len
  self.load (self.offset address) len op

/-- The pool has no span of the bytes that are replaced, so the slot is filled from it. -/
def write (address : Address) (src : List U8) (op : Operation) : RamM Sparse Unit := do
  let (self, _) ← get
  checkSpan self.span address src.length
  record (self.trace.emitWrite op address src (self.fillPrior (self.offset address)))
  self.store (self.offset address) src op

end Sparse

end Pepp.Ram

/-! ## The bounds of an access

The last address of an access is computed in 32 bits. An access that runs over
the end of the address space and comes to an end below the upper address of the
span passes the check; every other access is let through when all of its bytes
lie in the span, and only then. -/

namespace Pepp.Ram

open Span Tvm Outcome

/-- Every byte of the access lies in the span, without wraparound. -/
def Inside (span : AddressSpan) (address : Address) (len : Nat) : Prop :=
  ∀ i < len, span.lower.toNat ≤ address.toNat + i ∧ address.toNat + i ≤ span.upper.toNat

/-- The access runs over the end of the address space, and its last address comes out in the span or below. -/
def Wraps (span : AddressSpan) (address : Address) (len : Nat) : Prop :=
  span.lower ≤ address ∧ 2 ^ 32 ≤ address.toNat + (len - 1) ∧
    (address.toNat + (len - 1)) % 2 ^ 32 ≤ span.upper.toNat

/-- An access inside succeeds, and any other is rejected with nothing changed, neither a byte nor the trace. -/
def Exact {σ α : Type} (x : RamM σ α) (s : σ × TraceBuffer) (span : AddressSpan) (address : Address) (len : Nat) :
    Prop :=
  (Inside span address len → ∃ a s', x s = .ok a s') ∧
    (¬ Inside span address len → x s = .error (.oobAccess address) s)

section Check

variable {span : AddressSpan} {address : Address} {len : Nat}

section

variable (hlen : 0 < len)
include hlen

theorem toNat_maxAddr : (maxAddr address len).toNat = (address.toNat + (len - 1)) % 2 ^ 32 := by
  have h1 : (1 : BitVec 32).toNat = 1 := rfl
  rw [maxAddr, BitVec.toNat_add, BitVec.toNat_sub, BitVec.toNat_ofNat, h1]
  omega

theorem inside_iff : Inside span address len ↔
    span.lower ≤ address ∧ address.toNat + (len - 1) ≤ span.upper.toNat := by
  constructor
  · intro h
    exact ⟨by simpa [BitVec.le_def] using (h 0 hlen).1, (h (len - 1) (by omega)).2⟩
  · rintro ⟨hlo, hhi⟩ i hi
    rw [BitVec.le_def] at hlo
    omega

/-- What the check lets through. -/
theorem accepts_iff : ¬ (address < span.lower ∨ span.upper < maxAddr address len) ↔
    Inside span address len ∨ Wraps span address len := by
  rw [inside_iff hlen, Wraps, not_or, BitVec.lt_def, BitVec.lt_def, toNat_maxAddr hlen, BitVec.le_def]
  have := span.upper.isLt
  omega

theorem not_wraps_of_inside (h : Inside span address len) : ¬ Wraps span address len := by
  rw [inside_iff hlen] at h
  have := span.upper.isLt
  exact fun hw => by have := hw.2.1; omega

theorem inside_size (h : Inside span address len) : (address - span.lower).toNat + len ≤ sizeInclusive span := by
  rw [inside_iff hlen, BitVec.le_def] at h
  rw [sizeInclusive, if_pos (BitVec.le_def.mpr (by omega)), BitVec.toNat_sub]
  have := address.isLt
  omega

end

end Check

section Faults

variable {σ α β : Type}

/-- The program does not throw the error of the check. -/
def NoOob (x : RamM σ α) : Prop := ∀ s s' a, x s ≠ .error (.oobAccess a) s'

theorem NoOob.bind {x : RamM σ β} {f : β → RamM σ α} (hx : NoOob x) (hf : ∀ b, NoOob (f b)) : NoOob (x >>= f) := by
  intro s s' a h
  cases hb : x s with
  | ok b t =>
    rw [bind_apply_ok hb] at h
    exact hf b t s' a h
  | error e t =>
    rw [bind_apply_error hb] at h
    cases h
    exact hx s _ a hb

theorem NoOob.pure (a : α) : NoOob (pure a : RamM σ α) := fun _ _ _ h => nomatch h

theorem NoOob.modify (g : σ × TraceBuffer → σ × TraceBuffer) : NoOob (modify g : RamM σ PUnit) :=
  fun _ _ _ h => nomatch h

theorem NoOob.outside : NoOob (throw .outside : RamM σ α) := fun _ _ _ h => nomatch h

theorem NoOob.endless : NoOob (throw .endless : RamM σ α) := fun _ _ _ h => nomatch h

theorem NoOob.record (emit : TraceM Unit) : NoOob (record emit : RamM σ Unit) := by
  intro s s' a h
  unfold Ram.record at h
  split at h <;> cases h

/-- What comes behind the check decides the accesses inside, and never the others. -/
theorem exact_iff {span : AddressSpan} {address : Address} {len : Nat} {s : σ × TraceBuffer} {x rest : RamM σ α}
    (hx : x s = (checkSpan span address len >>= fun _ => rest) s) (hrest : NoOob rest) (hlen : 0 < len) :
    Exact x s span address len ↔
      ¬ Wraps span address len ∧ (Inside span address len → ∃ a s', rest s = .ok a s') := by
  have haccept : ¬ (address < span.lower ∨ span.upper < maxAddr address len) ↔ _ := accepts_iff hlen
  rw [Exact, hx, checkSpan]
  by_cases hin : Inside span address len
  · rw [if_neg (haccept.mpr (.inl hin)), pure_bind_apply]
    simp [hin, not_wraps_of_inside hlen hin]
  · by_cases hw : Wraps span address len
    · rw [if_neg (haccept.mpr (.inr hw)), pure_bind_apply]
      exact ⟨fun h => absurd (h.2 hin) (hrest s s address), fun h => absurd hw h.1⟩
    · rw [if_pos (not_not.mp fun h => (haccept.mp h).elim hin hw), throw_bind_apply]
      simp [hin, hw]

/-- A report that goes through leaves the memory to what comes behind it. -/
theorem record_ok_iff {emit : TraceM Unit} {s : σ × TraceBuffer} {f : Unit → RamM σ α} :
    (∃ a s', (record emit >>= f) s = .ok a s') ↔ ∃ tb', emit s.2 = .ok () tb' ∧ ∃ a s', f () (s.1, tb') = .ok a s' := by
  cases he : emit s.2 with
  | ok u tb =>
    have hrec : record emit s = .ok () (s.1, tb) := by rw [record, he]
    rw [bind_apply_ok hrec]
    exact ⟨fun h => ⟨tb, rfl, h⟩, fun ⟨_, h, h'⟩ => by cases h; exact h'⟩
  | error e tb =>
    have hrec : record emit s = .error (.thrown e) (s.1, tb) := by rw [record, he]
    rw [bind_apply_error hrec]
    exact ⟨fun ⟨_, _, h⟩ => (nomatch h), fun ⟨_, h, _⟩ => (nomatch h)⟩

end Faults

section Accesses

variable {tb : TraceBuffer} {address : Address} {len : Nat} {src : List U8} {op : Operation} {order : Order}

namespace Dense

variable (self : Dense)

theorem store_noOob (offset : Nat) (src : List U8) (len : Nat) (op : Operation) :
    NoOob (self.store offset src len op) := by
  unfold store
  split
  · exact NoOob.outside
  · exact NoOob.modify _

theorem store_ok {offset : Nat} {src : List U8} (h : offset + src.length ≤ sizeInclusive self.span) (len : Nat)
    (op : Operation) (s : Dense × TraceBuffer) : ∃ a s', self.store offset src len op s = .ok a s' := by
  unfold store
  rw [if_neg (by omega)]
  exact ⟨_, _, rfl⟩

theorem load_noOob (offset len : Nat) (op : Operation) : NoOob (self.load offset len op) := by
  unfold load
  split
  · exact NoOob.outside
  · exact NoOob.bind (NoOob.modify _) fun _ => NoOob.pure _

theorem load_ok {offset len : Nat} (h : offset + len ≤ sizeInclusive self.span) (op : Operation)
    (s : Dense × TraceBuffer) : ∃ a s', self.load offset len op s = .ok a s' := by
  unfold load
  rw [if_neg (by omega)]
  exact ⟨_, _, rfl⟩

theorem read_exact_iff (hlen : 0 < len) :
    Exact (read address len op) (self, tb) self.span address len ↔ ¬ Wraps self.span address len := by
  have hx : read address len op (self, tb) =
      (checkSpan self.span address len >>= fun _ => self.load (self.offset address) len op) (self, tb) := rfl
  rw [exact_iff hx (self.load_noOob _ _ _) hlen]
  exact and_iff_left fun hin => self.load_ok (inside_size hlen hin) op (self, tb)

/-- The trace takes the report of a write. -/
def Reports (self : Dense) (tb : TraceBuffer) (op : Operation) (len : Nat) : Prop :=
  self.mayTrace = true → self.trace.HasRoom tb op len

theorem write_exact_iff (h : Consistent tb) (hsrc : src ≠ []) :
    Exact (write address src op) (self, tb) self.span address src.length ↔
      ¬ Wraps self.span address src.length ∧ (Inside self.span address src.length → self.Reports tb op src.length) := by
  have hlen : 0 < src.length := List.length_pos_iff.mpr hsrc
  let emit : TraceM Unit :=
    if self.mayTrace then self.trace.emitWriteFlat op address (slice self.data (self.offset address) src.length) src
    else pure ()
  have hx : write address src op (self, tb) = (checkSpan self.span address src.length >>= fun _ =>
      record emit >>= fun _ => self.store (self.offset address) src src.length op) (self, tb) := rfl
  rw [exact_iff hx (NoOob.bind (NoOob.record _) fun _ => self.store_noOob _ _ _ _) hlen]
  refine and_congr_right fun _ => forall_congr' fun hin => ?_
  have hsize : self.offset address + src.length ≤ sizeInclusive self.span := inside_size hlen hin
  have hstore := self.store_ok hsize src.length op
  simp only [record_ok_iff, hstore, and_true]
  dsimp only [emit]
  by_cases hmay : self.mayTrace = true
  · rw [if_pos hmay, Recorder.emitWriteFlat_ok_iff _ h hsrc (length_slice ..)]
    exact ⟨fun hr _ => hr, fun hr => hr hmay⟩
  · rw [if_neg hmay]
    exact ⟨fun _ hr => absurd hr hmay, fun _ => ⟨tb, rfl⟩⟩

/-- A difference of a register's width goes with the packet. -/
def ReportsIncrement (self : Dense) (tb : TraceBuffer) (op : Operation) (len : Nat) : Prop :=
  self.mayTrace = true → len ∈ [1, 2, 4, 8] ∨ self.trace.HasRoom tb op len

theorem reportIncrement_noOob (address : Address) (offset : Nat) (src : List U8) (op : Operation) (order : Order) :
    NoOob (self.reportIncrement address offset src op order) := by
  unfold reportIncrement
  split
  · split
    · exact NoOob.outside
    · exact NoOob.record _
  · exact NoOob.pure _

theorem writeIncrement_exact_iff (h : Consistent tb) (hsrc : src ≠ []) :
    Exact (writeIncrement address src op order) (self, tb) self.span address src.length ↔
      ¬ Wraps self.span address src.length ∧
        (Inside self.span address src.length → self.ReportsIncrement tb op src.length) := by
  have hlen : 0 < src.length := List.length_pos_iff.mpr hsrc
  let offset := self.offset address
  let copy := self.store offset (src.take (sizeInclusive self.span - offset)) src.length op
  have hx : writeIncrement address src op order (self, tb) = (checkSpan self.span address src.length >>= fun _ =>
      if sizeInclusive self.span < offset then throw .outside
      else self.reportIncrement address offset src op order >>= fun _ => copy) (self, tb) := rfl
  rw [exact_iff hx ?_ hlen]
  · refine and_congr_right fun _ => forall_congr' fun hin => ?_
    have hsize : offset + src.length ≤ sizeInclusive self.span := inside_size hlen hin
    have hcopy : ∀ s, ∃ a s', copy s = .ok a s' :=
      self.store_ok (by rw [List.length_take]; omega) src.length op
    rw [if_neg (by omega), reportIncrement]
    by_cases hmay : self.mayTrace = true
    · rw [if_pos hmay, if_neg (by omega)]
      simp only [record_ok_iff, hcopy, and_true]
      rw [Recorder.emitWriteIncrement_ok_iff _ h hsrc (length_slice ..)]
      exact ⟨fun hr _ => hr, fun hr => hr hmay⟩
    · rw [if_neg hmay, pure_bind_apply]
      exact ⟨fun _ hr => absurd hr hmay, fun _ => hcopy (self, tb)⟩
  · split
    · exact NoOob.outside
    · exact NoOob.bind (self.reportIncrement_noOob _ _ _ _ _) fun _ => self.store_noOob _ _ _ _

end Dense

namespace Sparse

variable (self : Sparse)

variable (offset : U64)

theorem load_noOob (len : Nat) (op : Operation) : NoOob (self.load offset len op) := by
  unfold load
  split
  · exact NoOob.endless
  · exact NoOob.bind (NoOob.modify _) fun _ => NoOob.pure _

theorem store_noOob (src : List U8) (op : Operation) : NoOob (self.store offset src op) := by
  unfold store
  split
  · exact NoOob.endless
  · exact NoOob.modify _

theorem load_ok_iff {offset : U64} {len : Nat} {op : Operation} {s : Sparse × TraceBuffer} :
    (∃ a s', self.load offset len op s = .ok a s') ↔ len < 2 ^ 32 := by
  unfold load
  rcases Nat.lt_or_ge len (2 ^ 32) with hlt | hge
  · rw [Bts.PagedPool.read_eq offset hlt]
    exact ⟨fun _ => hlt, fun _ => ⟨_, _, rfl⟩⟩
  · rw [Bts.PagedPool.read, Bts.PagedPool.readLoop_none len offset len hge]
    exact ⟨fun ⟨_, _, h⟩ => (nomatch h), fun h => absurd h (by omega)⟩

theorem store_ok_iff {offset : U64} {src : List U8} {op : Operation} {s : Sparse × TraceBuffer} :
    (∃ a s', self.store offset src op s = .ok a s') ↔ src.length < 2 ^ 32 := by
  unfold store
  rcases Nat.lt_or_ge src.length (2 ^ 32) with hlt | hge
  · obtain ⟨pool', hwrite, -⟩ := self.pool.write_spec offset hlt
    rw [hwrite]
    exact ⟨fun _ => hlt, fun _ => ⟨_, _, rfl⟩⟩
  · rw [Bts.PagedPool.write, Bts.PagedPool.writeLoop_none src.length offset src self.pool hge]
    exact ⟨fun ⟨_, _, h⟩ => (nomatch h), fun h => absurd h (by omega)⟩

theorem read_exact_iff (hlen : 0 < len) :
    Exact (read address len op) (self, tb) self.span address len ↔
      ¬ Wraps self.span address len ∧ (Inside self.span address len → len < 2 ^ 32) := by
  have hx : read address len op (self, tb) =
      (checkSpan self.span address len >>= fun _ => self.load (self.offset address) len op) (self, tb) := rfl
  rw [exact_iff hx (self.load_noOob _ _ _) hlen, load_ok_iff]

theorem length_fillPrior (len : Nat) : (self.fillPrior offset len).length = len := by
  rw [fillPrior]
  rcases Nat.lt_or_ge len (2 ^ 32) with hlt | hge
  · rw [Bts.PagedPool.read_eq offset hlt, Option.getD_some, List.length_map, List.length_range]
  · rw [Bts.PagedPool.read, Bts.PagedPool.readLoop_none len offset len hge, Option.getD_none, List.length_replicate]

theorem write_exact_iff (h : Consistent tb) (hsrc : src ≠ []) :
    Exact (write address src op) (self, tb) self.span address src.length ↔
      ¬ Wraps self.span address src.length ∧
        (Inside self.span address src.length → src.length < 2 ^ 32 ∧ self.trace.HasRoom tb op src.length) := by
  have hlen : 0 < src.length := List.length_pos_iff.mpr hsrc
  let emit := self.trace.emitWrite op address src (self.fillPrior (self.offset address))
  have hx : write address src op (self, tb) = (checkSpan self.span address src.length >>= fun _ =>
      record emit >>= fun _ => self.store (self.offset address) src op) (self, tb) := rfl
  rw [exact_iff hx (NoOob.bind (NoOob.record _) fun _ => self.store_noOob _ _ _) hlen]
  refine and_congr_right fun _ => forall_congr' fun hin => ?_
  have hemit : (∃ tb', emit tb = .ok () tb') ↔ self.trace.HasRoom tb op src.length :=
    Recorder.emitWrite_ok_iff self.trace h hsrc (self.length_fillPrior _ _)
  rw [← hemit, record_ok_iff]
  simp only [store_ok_iff]
  constructor
  · rintro ⟨tb', hok, hlt⟩
    exact ⟨hlt, tb', hok⟩
  · rintro ⟨hlt, tb', hok⟩
    exact ⟨tb', hok, hlt⟩

end Sparse

/-- Bounds checks are exact but for accesses that come round to the span, for pools that are asked for 2^32
bytes, and for writes that the trace has no room to report. -/
theorem bounds_exact_iff (h : Consistent tb) (address : Address) (op : Operation) :
    (∀ (self : Dense) (len : Nat), 0 < len →
      (Exact (Dense.read address len op) (self, tb) self.span address len ↔ ¬ Wraps self.span address len)) ∧
    (∀ (self : Dense) (src : List U8), src ≠ [] →
      (Exact (Dense.write address src op) (self, tb) self.span address src.length ↔
        ¬ Wraps self.span address src.length ∧
          (Inside self.span address src.length → self.Reports tb op src.length))) ∧
    (∀ (self : Dense) (src : List U8) (order : Order), src ≠ [] →
      (Exact (Dense.writeIncrement address src op order) (self, tb) self.span address src.length ↔
        ¬ Wraps self.span address src.length ∧
          (Inside self.span address src.length → self.ReportsIncrement tb op src.length))) ∧
    (∀ (self : Sparse) (len : Nat), 0 < len →
      (Exact (Sparse.read address len op) (self, tb) self.span address len ↔
        ¬ Wraps self.span address len ∧ (Inside self.span address len → len < 2 ^ 32))) ∧
    (∀ (self : Sparse) (src : List U8), src ≠ [] →
      (Exact (Sparse.write address src op) (self, tb) self.span address src.length ↔
        ¬ Wraps self.span address src.length ∧
          (Inside self.span address src.length → src.length < 2 ^ 32 ∧ self.trace.HasRoom tb op src.length))) :=
  ⟨fun self _ hlen => self.read_exact_iff hlen, fun self _ hsrc => self.write_exact_iff h hsrc,
    fun self _ _ hsrc => self.writeIncrement_exact_iff h hsrc, fun self _ hlen => self.read_exact_iff hlen,
    fun self _ hsrc => self.write_exact_iff h hsrc⟩

/-- Of a new trace buffer, and a memory of a 16-bit address space. -/
theorem bounds_exact_full : ∃ tb, TraceBuffer.create Bts.BufferManager.empty 1 = .ok tb ∧
    ∀ self : Sparse, self.span = fullSpan →
      Exact (Sparse.read 0xFFFF 2 ⟨.Standard, true, 0⟩) (self, tb) self.span 0xFFFF 2 := by
  obtain ⟨tb, htb⟩ := TraceBuffer.create_succeeds Bts.BufferManager.wf_empty Nat.one_pos (by decide)
  have hreach : TraceBuffer.Reachable (fun _ => 0) tb := .create Bts.BufferManager.wf_empty htb
  have h := hreach.consistent
  refine ⟨tb, htb, fun self hspan => ?_⟩
  refine ((bounds_exact_iff h 0xFFFF ⟨.Standard, true, 0⟩).2.2.2.1 self 2 (by decide)).mpr ⟨?_, fun _ => by decide⟩
  rw [hspan]
  intro hw
  exact absurd hw.2.1 (by decide)

/-- Two bytes from the last address on are let through, and end at the first one. -/
theorem not_bounds_exact :
    ¬ ∀ tb, Consistent tb → ∀ (address : Address) (op : Operation),
      (∀ (self : Dense) (len : Nat), 0 < len → Exact (Dense.read address len op) (self, tb) self.span address len) ∧
      (∀ (self : Dense) (src : List U8), src ≠ [] →
        Exact (Dense.write address src op) (self, tb) self.span address src.length) ∧
      (∀ (self : Sparse) (len : Nat), 0 < len → Exact (Sparse.read address len op) (self, tb) self.span address len) ∧
      (∀ (self : Sparse) (src : List U8), src ≠ [] →
        Exact (Sparse.write address src op) (self, tb) self.span address src.length) := by
  intro hall
  obtain ⟨tb, htb⟩ := TraceBuffer.create_succeeds Bts.BufferManager.wf_empty Nat.one_pos (by decide)
  have hreach : TraceBuffer.Reachable (fun _ => 0) tb := .create Bts.BufferManager.wf_empty htb
  have h := hreach.consistent
  let ram : Sparse := ⟨fullSpan, Bts.PagedPool.create 0, 0, 0, ⟨false, 0, false, false⟩⟩
  have hexact := (hall tb h 0xFFFFFFFF ⟨.Standard, true, 0⟩).2.2.1 ram 2 (by decide)
  exact ((ram.read_exact_iff (by decide)).mp hexact).1 ⟨by decide, by decide, by decide⟩

end Accesses

end Pepp.Ram

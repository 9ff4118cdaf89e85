import Pepp.Ds.PagedPool

/-!
# Runs of a sparse pool

A pool is compared with an array that has a byte for each 64-bit offset. Pages
are looked up by the low half of an offset, so offsets that are a multiple of
2^32 apart share a cell. As long as no byte is read whose cell was written
through another offset, every read gives what the array holds.
-/

namespace Pepp.Bts

inductive PoolOp where
  | write (offset : U64) (src : List U8)
  | read (offset : U64) (size : Nat)
  | clear (fill : U8)
  deriving DecidableEq, Repr

namespace PagedPool

/-- What an operation gives, and the pool behind it. -/
def step (self : PagedPool) : PoolOp → Option (List U8 × PagedPool)
  | .write offset src => (self.write offset src).map fun pool => ([], pool)
  | .read offset size => (self.read offset size).map fun bytes => (bytes, self)
  | .clear fill => some ([], self.clear fill)

/-- A run, latest operation first: what the latest gives and the pool behind it. -/
def run (fill : U8) : List PoolOp → Option (List U8 × PagedPool)
  | [] => some ([], create fill)
  | op :: past => (run fill past).bind fun done => done.2.step op

/-- The fill byte of the latest `clear`. -/
def fillOf (fill : U8) : List PoolOp → U8
  | [] => fill
  | .clear fill :: _ => fill
  | _ :: past => fillOf fill past

/-- The byte last written at `x` since the latest `clear`, or the fill byte. -/
def valueAt (fill : U8) : List PoolOp → U64 → U8
  | [], _ => fill
  | .clear fill :: _, _ => fill
  | .read _ _ :: past, x => valueAt fill past x
  | .write offset src :: past, x => (src[(x - offset).toNat]?).getD (valueAt fill past x)

/-- The offset through which the cell of `x` was last written since the latest `clear`. -/
def lastOffset : List PoolOp → U64 → Option U64
  | [], _ => none
  | .clear _ :: _, _ => none
  | .read _ _ :: past, x => lastOffset past x
  | .write offset src :: past, x =>
    if lowDistance offset x < src.length then some (offset + BitVec.ofNat 64 (lowDistance offset x))
    else lastOffset past x

/-- Different offsets with one cell. -/
def Aliases (x y : U64) : Prop := x ≠ y ∧ x.setWidth 32 = y.setWidth 32

/-- No operation spans 2^32 bytes, and no byte is read whose cell was last written through another offset. -/
def Unaliased : List PoolOp → Prop
  | [] => True
  | .write _ src :: past => src.length < 2 ^ 32 ∧ Unaliased past
  | .read offset size :: past =>
    (size < 2 ^ 32 ∧
      ∀ i < size, ∀ y ∈ lastOffset past (offset + BitVec.ofNat 64 i), y = offset + BitVec.ofNat 64 i) ∧
      Unaliased past
  | .clear _ :: past => Unaliased past

/-- The read behind `past` returns the byte last written at each of its offsets. -/
def ReadsBack (fill : U8) (past : List PoolOp) (offset : U64) (size : Nat) : Prop :=
  ∃ pool, run fill (.read offset size :: past) =
    some ((List.range size).map fun i => valueAt fill past (offset + BitVec.ofNat 64 i), pool)

/-- The write behind `past` returns, and what is read at `x` is the same behind it as before it. -/
def LeavesAlone (fill : U8) (past : List PoolOp) (offset : U64) (src : List U8) (x : U64) : Prop :=
  ∃ done done', run fill past = some done ∧ run fill (.write offset src :: past) = some done' ∧
    done'.2.read x 1 = done.2.read x 1

theorem lowDistance_eq_zero {x y : U64} (h : y.setWidth 32 = x.setWidth 32) (offset : U64) :
    lowDistance offset y = lowDistance offset x := by
  have h := congrArg BitVec.toNat h
  simp only [BitVec.toNat_setWidth] at h
  simp only [lowDistance, BitVec.toNat_sub]
  have := offset.isLt
  omega

/-- The offset at the distance of `x` has the cell of `x`. -/
theorem setWidth_lowDistance (offset x : U64) :
    (offset + BitVec.ofNat 64 (lowDistance offset x)).setWidth 32 = x.setWidth 32 := by
  apply BitVec.eq_of_toNat_eq
  simp only [lowDistance, BitVec.toNat_setWidth, BitVec.toNat_add, BitVec.toNat_ofNat, BitVec.toNat_sub]
  have := offset.isLt
  omega

/-- A cell keeps the value at the offset through which it was last written. -/
def Holds (fill : U8) (past : List PoolOp) (pool : PagedPool) : Prop :=
  pool.fill = fillOf fill past ∧
    ∀ x, pool.cell x = match lastOffset past x with
      | some y => valueAt fill past y
      | none => fillOf fill past

theorem lastOffset_setWidth (past : List PoolOp) {x y : U64} (h : y ∈ lastOffset past x) :
    y.setWidth 32 = x.setWidth 32 := by
  induction past with
  | nil => cases h
  | cons op past ih =>
    cases op with
    | clear fill => cases h
    | read offset size => exact ih h
    | write offset src =>
      simp only [lastOffset] at h
      split at h
      · cases h
        exact setWidth_lowDistance offset x
      · exact ih h

variable {past : List PoolOp}

/-- A byte whose cell was not written holds the fill byte. -/
theorem valueAt_of_none (fill : U8) (hlen : Unaliased past) {x : U64} (h : lastOffset past x = none) :
    valueAt fill past x = fillOf fill past := by
  induction past with
  | nil => rfl
  | cons op past ih =>
    cases op with
    | clear fill => rfl
    | read offset size => exact ih hlen.2 h
    | write offset src =>
      simp only [lastOffset] at h
      split at h
      · cases h
      · next hd =>
        have hfar : src.length ≤ (x - offset).toNat := by
          simp only [lowDistance] at hd
          omega
        rw [valueAt, List.getElem?_eq_none hfar, Option.getD_none, ih hlen.2 h, fillOf]
        all_goals simp

theorem Holds.write {fill : U8} {pool pool' : PagedPool} (h : Holds fill past pool) {offset : U64} {src : List U8}
    (hlen : src.length < 2 ^ 32) (hfill : pool'.fill = pool.fill)
    (hcell : ∀ x, pool'.cell x = (src[lowDistance offset x]?).getD (pool.cell x)) :
    Holds fill (.write offset src :: past) pool' := by
  refine ⟨hfill.trans h.1, ?_⟩
  intro x
  rw [hcell, h.2 x]
  by_cases hd : lowDistance offset x < src.length
  · have hnear : (offset + BitVec.ofNat 64 (lowDistance offset x) - offset).toNat = lowDistance offset x := by
      rw [BitVec.toNat_sub, BitVec.toNat_add, BitVec.toNat_ofNat]
      have := offset.isLt
      omega
    simp only [lastOffset, if_pos hd, valueAt, hnear, List.getElem?_eq_getElem hd, Option.getD_some]
  · rw [List.getElem?_eq_none (by omega), Option.getD_none, lastOffset, if_neg hd]
    cases hy : lastOffset past x with
    | none => rfl
    | some y =>
      have hfar : src.length ≤ (y - offset).toNat := by
        have := lowDistance_eq_zero (lastOffset_setWidth past hy) offset
        have hmod : lowDistance offset y ≤ (y - offset).toNat := Nat.mod_le _ _
        omega
      simp only [valueAt, List.getElem?_eq_none hfar, Option.getD_none]

/-- A run without operations of 2^32 bytes returns, and its pool holds what it wrote. -/
theorem run_keeps (fill : U8) (h : Unaliased past) : ∃ done, run fill past = some done ∧ Holds fill past done.2 := by
  induction past with
  | nil => exact ⟨_, rfl, rfl, fun x => rfl⟩
  | cons op past ih =>
    cases op with
    | clear fill' =>
      obtain ⟨done, hrun, -⟩ := ih h
      exact ⟨([], done.2.clear fill'), by rw [run, hrun, Option.bind_some, step], rfl, fun x => rfl⟩
    | read offset size =>
      obtain ⟨done, hrun, hholds⟩ := ih h.2
      refine ⟨((List.range size).map fun i => done.2.cell (offset + BitVec.ofNat 64 i), done.2), ?_, hholds⟩
      rw [run, hrun, Option.bind_some, step, read_eq offset h.1.1, Option.map_some]
    | write offset src =>
      obtain ⟨done, hrun, hholds⟩ := ih h.2
      obtain ⟨pool', hwrite, hfill, hcell⟩ := done.2.write_spec offset h.1
      exact ⟨([], pool'), by rw [run, hrun, Option.bind_some, step, hwrite, Option.map_some],
        hholds.write h.1 hfill hcell⟩

theorem Unaliased.suffix {history past : List PoolOp} (h : Unaliased history) (hs : past <:+ history) :
    Unaliased past := by
  induction history with
  | nil => exact List.suffix_nil.mp hs ▸ h
  | cons op history ih =>
    rcases List.suffix_cons_iff.mp hs with heq | hs'
    · exact heq ▸ h
    · cases op with
      | clear fill => exact ih h hs'
      | read offset size => exact ih h.2 hs'
      | write offset src => exact ih h.2 hs'

/-- Every read of a run gives the bytes last written, and every write leaves what is not in its range alone. -/
theorem run_reads_back (fill : U8) {history : List PoolOp} (h : Unaliased history) :
    (∀ offset size past, .read offset size :: past <:+ history → ReadsBack fill past offset size) ∧
    (∀ offset src past, .write offset src :: past <:+ history → ∀ x, src.length ≤ (x - offset).toNat →
      (∀ i < src.length, ¬ Aliases (offset + BitVec.ofNat 64 i) x) → LeavesAlone fill past offset src x) := by
  constructor
  · intro offset size past hs
    have hread := h.suffix hs
    obtain ⟨done, hrun, -, hcell⟩ := run_keeps fill hread.2
    refine ⟨done.2, ?_⟩
    rw [run, hrun, Option.bind_some, step, read_eq offset hread.1.1, Option.map_some]
    congr 2
    apply List.map_congr_left
    intro i hi
    have hlast := hread.1.2 i (List.mem_range.mp hi)
    rw [hcell]
    cases hy : lastOffset past (offset + BitVec.ofNat 64 i) with
    | none => exact (valueAt_of_none fill hread.2 hy).symm
    | some y => rw [hlast y hy]
  · intro offset src past hs x hfar halias
    have hwrite := h.suffix hs
    obtain ⟨done, hrun, -⟩ := run_keeps fill hwrite.2
    obtain ⟨pool', hdone, -, hcell⟩ := done.2.write_spec offset hwrite.1
    refine ⟨done, ([], pool'), hrun, by rw [run, hrun, Option.bind_some, step, hdone, Option.map_some], ?_⟩
    have hd : src.length ≤ lowDistance offset x := by
      by_contra hd
      refine halias (lowDistance offset x) (by omega) ⟨?_, setWidth_lowDistance offset x⟩
      intro hx
      rw [← hx, BitVec.toNat_sub, BitVec.toNat_add, BitVec.toNat_ofNat] at hfar
      have := offset.isLt
      omega
    have hx : pool'.cell x = done.2.cell x := by
      rw [hcell, List.getElem?_eq_none hd, Option.getD_none]
    rw [read_eq x (by decide), read_eq x (by decide)]
    simp [hx]

/-- A byte is read back, and a write to its neighbour leaves it alone. -/
theorem run_reads_back_five :
    ReadsBack 0 [.write 6 [8], .write 5 [7]] 5 1 ∧ LeavesAlone 0 [.write 5 [7]] 6 [8] 5 := by
  have h : Unaliased [.read 5 1, .write 6 [8], .write 5 [7]] := by
    refine ⟨⟨by decide, ?_⟩, by decide, by decide, trivial⟩
    intro i hi y hy
    obtain rfl : i = 0 := by omega
    exact (Option.mem_some.mp hy).symm
  refine ⟨(run_reads_back 0 h).1 5 1 _ List.suffix_rfl,
    (run_reads_back 0 h).2 6 [8] _ (List.suffix_cons _ _) 5 ?_ ?_⟩
  · decide
  · intro i hi halias
    obtain rfl : i = 0 := by simpa using hi
    exact absurd halias.2 (by decide)

/-- A byte written at 0 is read at 2^32. -/
theorem not_run_reads_back :
    ¬ ∀ fill history,
      (∀ offset size past, .read offset size :: past <:+ history → ReadsBack fill past offset size) ∧
      (∀ offset src past, .write offset src :: past <:+ history → ∀ x, src.length ≤ (x - offset).toNat →
        LeavesAlone fill past offset src x) := by
  intro h
  obtain ⟨pool, hread⟩ := (h 0 [.read 0x100000000 1, .write 0 [7]]).1 0x100000000 1 [.write 0 [7]] List.suffix_rfl
  have hwrong : (run 0 [.read 0x100000000 1, .write 0 [7]]).map (·.1) = some [7] := by decide
  have hread := congrArg (Option.map (·.1)) hread
  rw [hwrong, Option.map_some] at hread
  have hread : [7] = [valueAt 0 [.write 0 [7]] 0x100000000] := Option.some.inj hread
  exact absurd hread (by decide)

end PagedPool

end Pepp.Bts

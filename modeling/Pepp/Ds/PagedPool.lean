import Pepp.Ds.Paged

/-!
# Sparse pools

A pool is an array of bytes over the offsets of the host. Pages of it are
allocated when they are first written, under the offset of their first byte.
What is cleared goes to a stack of free pages and is filled again before use.
-/

namespace Pepp.Bts

open Span

def SPARSE_PAGE_SIZE : Nat := DEFAULT_PAGE_SIZE

def SPARSE_PAGE_MASK : U32 := BitVec.ofNat 32 (SPARSE_PAGE_SIZE - 1)

/-- The complement is taken in 32 bits and then extended. -/
def pageAddr (offset : U64) : U64 := offset &&& (~~~SPARSE_PAGE_MASK).setWidth 64

def pageOffset (offset : U64) : Nat := (offset &&& SPARSE_PAGE_MASK.setWidth 64).toNat

/-- `std::min<u32>` of what is left and the rest of the page. -/
def chunk (offset : U64) (size : Nat) : Nat := min (size % 2 ^ 32) (SPARSE_PAGE_SIZE - pageOffset offset)

/-- A page is `SPARSE_PAGE_SIZE` bytes. The map keeps no order; the list has one for `clear`. -/
structure PagedPool where
  fill : U8
  free : List (Nat → U8)
  pages : List (U64 × (Nat → U8))

namespace PagedPool

def create (fill : U8) : PagedPool := ⟨fill, [], []⟩

variable (self : PagedPool)

def find (addr : U64) : Option (Nat → U8) := self.pages.lookup addr

/-- `read` while there is fuel. -/
def readLoop : Nat → U64 → Nat → Option (List U8)
  | _, _, 0 => some []
  | 0, _, _ + 1 => none
  | fuel + 1, offset, size + 1 =>
    let len := chunk offset (size + 1)
    let bytes := match self.find (pageAddr offset) with
      | some page => slice page (pageOffset offset) len
      | none => List.replicate len self.fill
    (readLoop fuel (offset + BitVec.ofNat 64 len) (size + 1 - len)).map (bytes ++ ·)

/-- No read that returns takes more rounds than it reads bytes. -/
def read (offset : U64) (size : Nat) : Option (List U8) := self.readLoop size offset size

/-- `make_page(true)`: a free page before a new one, in either case filled. -/
def makePage : (Nat → U8) × PagedPool :=
  let page := self.free.headD fun _ => 0
  (overwrite page 0 (List.replicate SPARSE_PAGE_SIZE self.fill), { self with free := self.free.tail })

/-- The page of an offset, which is allocated when there is none. -/
def pageFor (addr : U64) : (Nat → U8) × PagedPool :=
  match self.find addr with
  | some page => (page, self)
  | none =>
    let (page, pool) := self.makePage
    (page, { pool with pages := (addr, page) :: pool.pages })

def setPage (addr : U64) (page : Nat → U8) : PagedPool :=
  { self with pages := self.pages.map fun entry => if entry.1 = addr then (addr, page) else entry }

/-- One round of `write`. -/
def writeChunk (offset : U64) (src : List U8) : PagedPool :=
  let (page, pool) := self.pageFor (pageAddr offset)
  pool.setPage (pageAddr offset) (overwrite page (pageOffset offset) src)

/-- `write` while there is fuel. -/
def writeLoop : Nat → U64 → List U8 → PagedPool → Option PagedPool
  | _, _, [], pool => some pool
  | 0, _, _ :: _, _ => none
  | fuel + 1, offset, b :: src, pool =>
    let len := chunk offset (src.length + 1)
    writeLoop fuel (offset + BitVec.ofNat 64 len) ((b :: src).drop len)
      (pool.writeChunk offset ((b :: src).take len))

def write (offset : U64) (src : List U8) : Option PagedPool := writeLoop src.length offset src self

def clear (fill : U8) : PagedPool := ⟨fill, (self.pages.map (·.2)).reverse ++ self.free, []⟩

end PagedPool

variable (offset : U64)

theorem pageOffset_eq : pageOffset offset = offset.toNat % SPARSE_PAGE_SIZE := by
  rw [pageOffset, BitVec.toNat_and]
  exact Nat.and_two_pow_sub_one_eq_mod offset.toNat 12

theorem pageAddr_eq : (pageAddr offset).toNat = offset.toNat % 2 ^ 32 / SPARSE_PAGE_SIZE * SPARSE_PAGE_SIZE := by
  have hmask : ∀ i : Fin 64,
      ((~~~SPARSE_PAGE_MASK).setWidth 64).getLsbD i = (decide (12 ≤ i.val) && decide (i.val < 32)) := by
    decide
  have h : pageAddr offset = ((offset.setWidth 32 >>> 12) <<< 12).setWidth 64 := by
    apply BitVec.eq_of_getLsbD_eq
    intro i hi
    rw [pageAddr, BitVec.getLsbD_and, hmask ⟨i, hi⟩]
    rcases Nat.lt_or_ge i 12 with h12 | h12
    · simp [h12, show ¬ 12 ≤ i by omega]
    · by_cases h32 : i < 32 <;> simp [h12, h32, hi, show ¬ i < 12 by omega, show 12 + (i - 12) = i by omega]
  have hlt : (offset.setWidth 32 >>> 12).toNat = offset.toNat % 2 ^ 32 / 4096 := by
    simp [Nat.shiftRight_eq_div_pow]
  rw [h, BitVec.toNat_setWidth, BitVec.toNat_shiftLeft, hlt, Nat.shiftLeft_eq]
  simp only [SPARSE_PAGE_SIZE, DEFAULT_PAGE_SIZE]
  omega

/-- How far `x` lies behind `offset` when only the low halves of both count. -/
def lowDistance (offset x : U64) : Nat := (x - offset).toNat % 2 ^ 32

theorem lowDistance_lt (offset x : U64) : lowDistance offset x < 2 ^ 32 := Nat.mod_lt _ (by decide)

/-- The distance from a later offset. -/
theorem lowDistance_shift (offset x : U64) (n : Nat) :
    lowDistance (offset + BitVec.ofNat 64 n) x = (lowDistance offset x + (2 ^ 32 - n % 2 ^ 32)) % 2 ^ 32 := by
  simp only [lowDistance, BitVec.toNat_sub, BitVec.toNat_add, BitVec.toNat_ofNat]
  omega

theorem chunk_le (size : Nat) : chunk offset size ≤ size :=
  Nat.le_trans (Nat.min_le_left _ _) (Nat.mod_le _ _)

theorem chunk_in_page (size : Nat) : pageOffset offset + chunk offset size ≤ SPARSE_PAGE_SIZE := by
  have h : pageOffset offset < SPARSE_PAGE_SIZE := by
    rw [pageOffset_eq]
    exact Nat.mod_lt _ (by decide)
  have := Nat.min_le_right (size % 2 ^ 32) (SPARSE_PAGE_SIZE - pageOffset offset)
  simp only [chunk]
  omega

theorem chunk_pos {size : Nat} (h : 0 < size % 2 ^ 32) : 0 < chunk offset size := by
  have hp : pageOffset offset < SPARSE_PAGE_SIZE := by
    rw [pageOffset_eq]
    exact Nat.mod_lt _ (by decide)
  exact Nat.lt_min.mpr ⟨h, by omega⟩

/-- The bytes of one round lie on one page. -/
theorem pageAddr_add {i : Nat} (h : pageOffset offset + i < SPARSE_PAGE_SIZE) :
    pageAddr (offset + BitVec.ofNat 64 i) = pageAddr offset := by
  apply BitVec.eq_of_toNat_eq
  rw [pageOffset_eq] at h
  rw [pageAddr_eq, pageAddr_eq, BitVec.toNat_add, BitVec.toNat_ofNat]
  simp only [SPARSE_PAGE_SIZE, DEFAULT_PAGE_SIZE] at *
  have := offset.isLt
  omega

theorem pageOffset_add {i : Nat} (h : pageOffset offset + i < SPARSE_PAGE_SIZE) :
    pageOffset (offset + BitVec.ofNat 64 i) = pageOffset offset + i := by
  rw [pageOffset_eq] at h
  rw [pageOffset_eq, pageOffset_eq, BitVec.toNat_add, BitVec.toNat_ofNat]
  simp only [SPARSE_PAGE_SIZE, DEFAULT_PAGE_SIZE] at *
  omega

/-- Two offsets have one page when neither the distance nor the place in the page carries out of it. -/
theorem samePage_of_lowDistance {offset x : U64} (h : pageOffset offset + lowDistance offset x < SPARSE_PAGE_SIZE) :
    pageAddr x = pageAddr offset ∧ pageOffset x = pageOffset offset + lowDistance offset x := by
  rw [pageOffset_eq, lowDistance, BitVec.toNat_sub] at h
  have ha := offset.isLt
  have hx := x.isLt
  constructor
  · apply BitVec.eq_of_toNat_eq
    rw [pageAddr_eq, pageAddr_eq]
    simp only [SPARSE_PAGE_SIZE, DEFAULT_PAGE_SIZE] at *
    omega
  · rw [pageOffset_eq, pageOffset_eq, lowDistance, BitVec.toNat_sub]
    simp only [SPARSE_PAGE_SIZE, DEFAULT_PAGE_SIZE] at *
    omega

theorem lowDistance_of_samePage {offset x : U64} (h : pageAddr x = pageAddr offset)
    (hle : pageOffset offset ≤ pageOffset x) : pageOffset x = pageOffset offset + lowDistance offset x := by
  have h := congrArg BitVec.toNat h
  rw [pageAddr_eq, pageAddr_eq] at h
  rw [pageOffset_eq, pageOffset_eq] at *
  rw [lowDistance, BitVec.toNat_sub]
  simp only [SPARSE_PAGE_SIZE, DEFAULT_PAGE_SIZE] at *
  have ha := offset.isLt
  have hx := x.isLt
  omega

namespace PagedPool

variable {self : PagedPool}

/-- What the pool holds at an offset. -/
def cell (self : PagedPool) (x : U64) : U8 :=
  match self.find (pageAddr x) with
  | some page => page (pageOffset x)
  | none => self.fill

/-- What one round of a read copies. -/
theorem chunk_cells (offset : U64) {len : Nat} (h : pageOffset offset + len ≤ SPARSE_PAGE_SIZE) :
    (match self.find (pageAddr offset) with
      | some page => slice page (pageOffset offset) len
      | none => List.replicate len self.fill) =
    (List.range len).map fun i => self.cell (offset + BitVec.ofNat 64 i) := by
  have hcell : ∀ i < len, self.cell (offset + BitVec.ofNat 64 i) =
      match self.find (pageAddr offset) with
      | some page => page (pageOffset offset + i)
      | none => self.fill := by
    intro i hi
    have hi : pageOffset offset + i < SPARSE_PAGE_SIZE := by omega
    rw [cell, pageAddr_add offset hi, pageOffset_add offset hi]
  rw [List.map_congr_left fun i hi => hcell i (List.mem_range.mp hi)]
  cases self.find (pageAddr offset) with
  | none => simp
  | some page => rfl

variable (fuel : Nat)

theorem readLoop_eq (offset : U64) (size : Nat) (hfuel : size ≤ fuel) (hsize : size < 2 ^ 32) :
    self.readLoop fuel offset size = some ((List.range size).map fun i => self.cell (offset + BitVec.ofNat 64 i)) := by
  induction fuel generalizing offset size with
  | zero =>
    obtain rfl : size = 0 := by omega
    rfl
  | succ fuel ih =>
    cases size with
    | zero => rfl
    | succ size =>
      have hle := chunk_le offset (size + 1)
      have hpos : 0 < chunk offset (size + 1) := chunk_pos offset (by omega)
      have hsplit : List.range (size + 1) = List.range (chunk offset (size + 1)) ++
          (List.range (size + 1 - chunk offset (size + 1))).map (chunk offset (size + 1) + ·) := by
        rw [← List.range_add, Nat.add_sub_cancel' hle]
      rw [readLoop, chunk_cells offset (chunk_in_page offset (size + 1)), ih _ _ (by omega) (by omega), hsplit,
        List.map_append, List.map_map, Option.map_some]
      congr 2
      apply List.map_congr_left
      intro i _
      simp [BitVec.ofNat_add, BitVec.add_assoc]

/-- A short read gives the cells of its bytes. -/
theorem read_eq (offset : U64) {size : Nat} (h : size < 2 ^ 32) :
    self.read offset size = some ((List.range size).map fun i => self.cell (offset + BitVec.ofNat 64 i)) :=
  readLoop_eq size offset size (Nat.le_refl size) h

/-- A long read makes no progress once what is left is a multiple of 2^32. -/
theorem readLoop_none (offset : U64) (size : Nat) (h : 2 ^ 32 ≤ size) : self.readLoop fuel offset size = none := by
  induction fuel generalizing offset size with
  | zero =>
    cases size with
    | zero => omega
    | succ size => rfl
  | succ fuel ih =>
    cases size with
    | zero => omega
    | succ size =>
      have hlen : chunk offset (size + 1) ≤ (size + 1) % 2 ^ 32 := Nat.min_le_left _ _
      rw [readLoop, ih _ _ (by omega), Option.map_none]

/-- The page under an offset holds what the pool has there, and no other page changes. -/
theorem pageFor_spec (addr : U64) :
    let (page, pool) := self.pageFor addr
    pool.fill = self.fill ∧ pool.find addr = some page ∧ (∀ a ≠ addr, pool.find a = self.find a) ∧
      ∀ k < SPARSE_PAGE_SIZE, page k = match self.find addr with
        | some page => page k
        | none => self.fill := by
  rw [pageFor]
  cases hf : self.find addr with
  | some page => exact ⟨rfl, hf, fun _ _ => rfl, fun _ _ => rfl⟩
  | none =>
    refine ⟨rfl, ?_, ?_, ?_⟩
    · simp [find]
    · intro a ha
      simp [find, List.lookup_cons, beq_false_of_ne ha]
    · intro k hk
      rw [← Nat.zero_add k, overwrite_inside _ _ _ _ (by simpa using hk), List.getElem_replicate]

theorem find_setPage_self {addr : U64} {page page' : Nat → U8} (h : self.find addr = some page) :
    (self.setPage addr page').find addr = some page' := by
  simp only [find, setPage] at *
  generalize self.pages = pages at h ⊢
  induction pages with
  | nil => cases h
  | cons entry pages ih =>
    obtain ⟨key, old⟩ := entry
    by_cases he : key = addr
    · simp [he]
    · have hne := beq_false_of_ne (Ne.symm he)
      rw [List.lookup_cons, hne] at h
      rw [List.map_cons, if_neg he, List.lookup_cons, hne]
      exact ih h

theorem find_setPage_ne {addr a : U64} (page : Nat → U8) (ha : a ≠ addr) :
    (self.setPage addr page).find a = self.find a := by
  simp only [find, setPage]
  induction self.pages with
  | nil => rfl
  | cons entry pages ih =>
    obtain ⟨key, old⟩ := entry
    by_cases he : key = addr
    · rw [List.map_cons, if_pos he, List.lookup_cons, List.lookup_cons, he, beq_false_of_ne ha]
      exact ih
    · rw [List.map_cons, if_neg he, List.lookup_cons, List.lookup_cons, ih]

/-- One round of a write replaces the cells within its distance. -/
theorem cell_writeChunk (offset : U64) {src : List U8} (h : pageOffset offset + src.length ≤ SPARSE_PAGE_SIZE)
    (x : U64) :
    (self.writeChunk offset src).cell x = (src[lowDistance offset x]?).getD (self.cell x) := by
  have hpage := self.pageFor_spec (pageAddr offset)
  rw [writeChunk]
  generalize self.pageFor (pageAddr offset) = found at hpage ⊢
  obtain ⟨page, pool⟩ := found
  obtain ⟨hfill, hfind, hother, hbytes⟩ := hpage
  dsimp only
  have hlt : pageOffset x < SPARSE_PAGE_SIZE := by
    rw [pageOffset_eq]
    exact Nat.mod_lt _ (by decide)
  by_cases hx : pageAddr x = pageAddr offset
  · have hold : self.cell x = page (pageOffset x) := by rw [cell, hx, hbytes _ hlt]
    rw [cell, hx, find_setPage_self hfind, hold]
    dsimp only
    by_cases hle : pageOffset offset ≤ pageOffset x
    · have hd := lowDistance_of_samePage hx hle
      rw [hd, overwrite, if_pos (by omega), show pageOffset offset + lowDistance offset x - pageOffset offset =
        lowDistance offset x by omega]
    · have hd : src.length ≤ lowDistance offset x := by
        by_contra hd
        have hsame : pageOffset offset + lowDistance offset x < SPARSE_PAGE_SIZE := by omega
        have := (samePage_of_lowDistance hsame).2
        omega
      rw [overwrite_of_lt _ _ _ _ (by omega), List.getElem?_eq_none hd, Option.getD_none]
  · have hd : src.length ≤ lowDistance offset x := by
      by_contra hd
      exact hx (samePage_of_lowDistance (by omega)).1
    rw [List.getElem?_eq_none hd, Option.getD_none, cell, cell, find_setPage_ne _ hx, hother _ hx]
    show (match self.find (pageAddr x) with | some page => page (pageOffset x) | none => pool.fill) = _
    rw [hfill]

theorem fill_writeChunk (offset : U64) (src : List U8) : (self.writeChunk offset src).fill = self.fill := by
  have hpage := self.pageFor_spec (pageAddr offset)
  rw [writeChunk]
  generalize self.pageFor (pageAddr offset) = found at hpage ⊢
  exact hpage.1

theorem writeLoop_spec (offset : U64) (src : List U8) (pool : PagedPool) (hfuel : src.length ≤ fuel)
    (hsrc : src.length < 2 ^ 32) :
    ∃ pool', writeLoop fuel offset src pool = some pool' ∧ pool'.fill = pool.fill ∧
      ∀ x, pool'.cell x = (src[lowDistance offset x]?).getD (pool.cell x) := by
  induction fuel generalizing offset src pool with
  | zero =>
    obtain rfl : src = [] := List.length_eq_zero_iff.mp (by omega)
    exact ⟨pool, rfl, rfl, fun x => by simp⟩
  | succ fuel ih =>
    cases src with
    | nil => exact ⟨pool, rfl, rfl, fun x => by simp⟩
    | cons b src =>
      simp only [List.length_cons] at hfuel hsrc
      have hle := chunk_le offset (src.length + 1)
      have hpos : 0 < chunk offset (src.length + 1) := chunk_pos offset (by omega)
      have hpage := chunk_in_page offset (src.length + 1)
      rw [writeLoop]
      generalize chunk offset (src.length + 1) = len at hle hpos hpage ⊢
      obtain ⟨pool', hrun, hfill, hcell⟩ := ih (offset + BitVec.ofNat 64 len) ((b :: src).drop len)
        (pool.writeChunk offset ((b :: src).take len)) (by simp; omega) (by simp; omega)
      refine ⟨pool', hrun, hfill.trans (fill_writeChunk offset _), ?_⟩
      intro x
      rw [hcell, cell_writeChunk offset (by simp; omega), lowDistance_shift, List.getElem?_drop]
      have hd := lowDistance_lt offset x
      rcases Nat.lt_or_ge (lowDistance offset x) len with hlt | hge
      · -- the rest starts behind the byte, and is too short to come round to it
        rw [List.getElem?_eq_none (by simp; omega), Option.getD_none, List.getElem?_take_of_lt hlt]
      · rw [List.getElem?_eq_none (l := (b :: src).take len) (by simp; omega), Option.getD_none]
        congr 2
        omega

/-- A short write returns, and changes the cells in its range only. -/
theorem write_spec (offset : U64) {src : List U8} (h : src.length < 2 ^ 32) :
    ∃ pool', self.write offset src = some pool' ∧ pool'.fill = self.fill ∧
      ∀ x, pool'.cell x = (src[lowDistance offset x]?).getD (self.cell x) :=
  writeLoop_spec src.length offset src self (Nat.le_refl _) h

theorem writeLoop_none (offset : U64) (src : List U8) (pool : PagedPool) (h : 2 ^ 32 ≤ src.length) :
    writeLoop fuel offset src pool = none := by
  induction fuel generalizing offset src pool with
  | zero =>
    cases src with
    | nil => simp at h
    | cons b src => rfl
  | succ fuel ih =>
    cases src with
    | nil => simp at h
    | cons b src =>
      have hlen : chunk offset (src.length + 1) ≤ (src.length + 1) % 2 ^ 32 := Nat.min_le_left _ _
      rw [List.length_cons] at h
      rw [writeLoop, ih]
      rw [List.length_drop, List.length_cons]
      omega

end PagedPool

end Pepp.Bts

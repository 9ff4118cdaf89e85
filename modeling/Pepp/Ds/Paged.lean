import Mathlib.Data.Nat.Log
import Pepp.Integers
import Pepp.Lib.Bytes

/-!
# Paged allocation

Slabs are power-of-two blocks of elements filled from the front. The allocator
adds slabs on demand and inserts into the first one with enough room. The offset
of an insertion counts elements over all slabs; its indices name a slab and a
place in it.
-/

namespace Pepp.Bts

open Span

/-- What the containers throw. -/
inductive PoolError where
  | invalidArgument (what : String)
  | runtimeError (what : String)
  deriving DecidableEq, Repr

def MIN_PAGE_SIZE : Nat := 256
def DEFAULT_PAGE_SIZE : Nat := 4096
def MAX_PAGE_SIZE : Nat := 65536

/-- `bits::nearest_power_of_two`. -/
def nearestPowerOfTwo (value : Nat) : Nat := if value = 0 then 1 else 2 ^ Nat.clog 2 value

/-- A page and how much of it is in use. What a fresh page holds is not specified. -/
structure Slab where
  capacity : Nat
  used : Nat
  data : Nat → U8

namespace Slab

def create (capacity : Nat) : Except PoolError Slab :=
  let capacity := nearestPowerOfTwo capacity
  if capacity < MIN_PAGE_SIZE then .error (.invalidArgument "Allocation smaller than MIN_PAGE_SIZE")
  else if MAX_PAGE_SIZE < capacity then .error (.invalidArgument "Allocation larger than MAX_PAGE_SIZE")
  else .ok ⟨capacity, 0, fun _ => 0⟩

variable (self : Slab)

def remainingCapacity : Nat := self.capacity - self.used

/-- `padded_size` of bytes, which are never misaligned. -/
def paddedSize (count pad : Nat) : Nat := count + pad

def canFit (count pad : Nat) : Bool := paddedSize count pad ≤ self.remainingCapacity

/-- Copy `data` into the next free space, with `pad` elements of `fill` behind it. -/
def append (data : List U8) (pad : Nat) (fill : U8) : Except PoolError (Nat × Slab) :=
  let totalSize := paddedSize data.length pad
  if self.remainingCapacity < totalSize then .error (.runtimeError "Page overflow")
  else .ok (self.used, { self with
    data := overwrite (overwrite self.data self.used data) (self.used + data.length) (List.replicate pad fill)
    used := self.used + totalSize })

end Slab

/-- `size` is what the pages have in use; `pageBase` caches the offset of each page. -/
structure PagedAllocator where
  size : Nat
  pages : List Slab
  pageBase : List Nat

/-- An insertion moves the offsets from `adjustAbove` on up by `adjustBy`. -/
structure InsertResult where
  adjustAbove : Nat
  adjustBy : Nat
  index : Nat
  offset : Nat

namespace PagedAllocator

def empty : PagedAllocator := ⟨0, [], []⟩

variable (self : PagedAllocator)

/-- At the end of the last page, or else in a new one, which stays when the data does not fit it. -/
def append (data : List U8) (pad : Nat) (fill : U8) : Except PoolError Nat × PagedAllocator :=
  match self.pages.getLast?.filter fun page => page.canFit data.length pad with
  | some page =>
    match page.append data pad fill with
    | .error e => (.error e, self)
    | .ok (_, page') =>
      (.ok self.size, { self with
        size := self.size + page'.used - page.used
        pages := self.pages.dropLast ++ [page'] })
  | none =>
    match Slab.create (max DEFAULT_PAGE_SIZE data.length) with
    | .error e => (.error e, self)
    | .ok page =>
      match page.append data pad fill with
      | .error e => (.error e, { self with
          pages := self.pages ++ [page]
          pageBase := self.pageBase ++ [self.size] })
      | .ok (_, page) =>
        (.ok self.size, {
          size := self.size + page.used
          pages := self.pages ++ [page]
          pageBase := self.pageBase ++ [self.size] })

/-- In the first page with enough room; pages behind it move by the length of the data alone. -/
def insert (data : List U8) (pad : Nat) (fill : U8) : Except PoolError InsertResult × PagedAllocator :=
  match self.pages.findFinIdx? fun page => page.canFit data.length pad with
  | some it =>
    match self.pages[it].append data pad fill with
    | .error e => (.error e, self)
    | .ok (insertedOffset, page) =>
      let paddedSize := Slab.paddedSize data.length pad
      (.ok ⟨self.pageBase.getD it 0 + insertedOffset, paddedSize, it, insertedOffset⟩, {
        size := self.size + paddedSize
        pages := self.pages.set it page
        pageBase := self.pageBase.mapIdx fun jt base => if it < jt then base + data.length else base })
  | none =>
    match self.append data pad fill with
    | (.error e, self) => (.error e, self)
    | (.ok adjustAbove, self) =>
      (.ok ⟨adjustAbove, 0, self.pages.length - 1, adjustAbove - self.pageBase.getLastD 0⟩, self)

end PagedAllocator

theorem le_nearestPowerOfTwo (value : Nat) : value ≤ nearestPowerOfTwo value := by
  unfold nearestPowerOfTwo
  split
  · omega
  · exact Nat.le_pow_clog (by decide) value

theorem nearestPowerOfTwo_le {value e : Nat} (h : value ≤ 2 ^ e) : nearestPowerOfTwo value ≤ 2 ^ e := by
  unfold nearestPowerOfTwo
  split
  · exact Nat.one_le_two_pow
  · exact Nat.pow_le_pow_right (by decide) (Nat.clog_le_of_le_pow h)

namespace Slab

/-- No more of a page is in use than there is of it. -/
def Sized (self : Slab) : Prop := self.used ≤ self.capacity ∧ self.capacity ≤ MAX_PAGE_SIZE

/-- The page has the same size and starts with what was in use before. -/
def Prefix (self self' : Slab) : Prop :=
  self'.capacity = self.capacity ∧ self.used ≤ self'.used ∧ ∀ k < self.used, self'.data k = self.data k

variable {self self' : Slab} {data : List U8} {pad offset : Nat} {fill : U8}

theorem Prefix.refl (self : Slab) : self.Prefix self := ⟨rfl, Nat.le_refl _, fun _ _ => rfl⟩

theorem Prefix.slice_eq (h : self.Prefix self') {len : Nat} (hl : offset + len ≤ self.used) :
    slice self'.data offset len = slice self.data offset len :=
  slice_congr fun i _ hi => h.2.2 i (by omega)

/-- An append that fits puts the data and its padding where the free space began. -/
theorem append_ok (hs : self.Sized) (h : self.append data pad fill = .ok (offset, self')) :
    offset = self.used ∧ self.Prefix self' ∧ self'.Sized ∧ self'.used = offset + data.length + pad ∧
      slice self'.data offset (data.length + pad) = data ++ List.replicate pad fill := by
  unfold append at h
  dsimp only at h
  split at h
  · contradiction
  · rename_i hfit
    obtain ⟨rfl, rfl⟩ := Prod.mk.inj (Except.ok.inj h)
    unfold remainingCapacity paddedSize at hfit
    have := hs.1
    refine ⟨rfl, ⟨rfl, by simp [paddedSize], fun k hk => ?_⟩, ⟨by simp only [paddedSize]; omega, hs.2⟩,
      by simp only [paddedSize]; omega, ?_⟩
    · dsimp only
      rw [overwrite_of_lt _ _ _ _ (by omega), overwrite_of_lt _ _ _ _ hk]
    · have hpad := slice_overwrite (overwrite self.data self.used data) (self.used + data.length) (List.replicate pad fill)
      rw [List.length_replicate] at hpad
      rw [slice_add, hpad, slice_overwrite_disjoint _ _ _ _ _ (.inl (by omega)), slice_overwrite]

theorem append_of_fits (h : data.length + pad ≤ self.capacity - self.used) :
    ∃ r, self.append data pad fill = .ok r := by
  unfold append
  dsimp only
  rw [if_neg (by unfold remainingCapacity paddedSize; omega)]
  exact ⟨_, rfl⟩

theorem append_overflow (h : self.capacity - self.used < data.length + pad) :
    self.append data pad fill = .error (.runtimeError "Page overflow") := by
  unfold append
  dsimp only
  rw [if_pos (by unfold remainingCapacity paddedSize; omega)]

end Slab

namespace PagedAllocator

variable {self self' : PagedAllocator} {data : List U8} {pad : Nat} {fill : U8} {r : InsertResult}

def Sized (self : PagedAllocator) : Prop := ∀ page ∈ self.pages, page.Sized

/-- Every page is still there with what it held. -/
def Grows (self self' : PagedAllocator) : Prop :=
  ∀ (i : Nat) (page : Slab), self.pages[i]? = some page → ∃ page' : Slab, self'.pages[i]? = some page' ∧ page.Prefix page'

/-- The bytes are in use at a place of the allocator. -/
def Holds (self : PagedAllocator) (index offset : Nat) (bytes : List U8) : Prop :=
  ∃ page, self.pages[index]? = some page ∧ offset + bytes.length ≤ page.used ∧
    slice page.data offset bytes.length = bytes

/-- Some page has room for the data and its padding. -/
def Fits (self : PagedAllocator) (count pad : Nat) : Prop := ∃ page ∈ self.pages, page.canFit count pad = true

theorem Grows.refl (self : PagedAllocator) : self.Grows self := fun _ page h => ⟨page, h, Slab.Prefix.refl page⟩

/-- An insertion into a page that has room. -/
theorem insert_fits (hs : self.Sized) (h : self.Fits data.length pad) :
    ∃ r self', self.insert data pad fill = (.ok r, self') ∧ self.Grows self' ∧ self'.Sized ∧
      self'.pages.length = self.pages.length ∧ self'.Holds r.index r.offset (data ++ List.replicate pad fill) := by
  unfold insert
  cases hf : self.pages.findFinIdx? fun page => page.canFit data.length pad with
  | none =>
    obtain ⟨page, hp, hfit⟩ := h
    exact absurd hfit (List.findFinIdx?_eq_none_iff.mp hf page hp)
  | some it =>
    have hfit := (List.findFinIdx?_eq_some_iff.mp hf).1
    have hsized : self.pages[it].Sized := hs _ (List.getElem_mem it.isLt)
    obtain ⟨⟨offset, page⟩, ha⟩ := @Slab.append_of_fits self.pages[it] data pad fill (of_decide_eq_true hfit)
    obtain ⟨ho, hpre, hsz, hused, hslice⟩ := Slab.append_ok hsized ha
    simp only [ha]
    refine ⟨_, _, rfl, fun i p hi => ?_, fun p hp => ?_, List.length_set, page, ?_, ?_, ?_⟩
    · by_cases hit : i = it
      · subst hit
        refine ⟨page, List.getElem?_set_self it.isLt, ?_⟩
        rw [List.getElem?_eq_getElem it.isLt] at hi
        rw [← Option.some.inj hi]
        exact hpre
      · exact ⟨p, by rw [List.getElem?_set_ne (Ne.symm hit)]; exact hi, Slab.Prefix.refl p⟩
    · rcases List.mem_or_eq_of_mem_set hp with hp | rfl
      · exact hs p hp
      · exact hsz
    · exact List.getElem?_set_self it.isLt
    · rw [List.length_append, List.length_replicate, hused]
      change offset + (data.length + pad) ≤ offset + data.length + pad
      omega
    · rw [List.length_append, List.length_replicate]
      exact hslice

theorem create_ok (hl : data.length ≤ MAX_PAGE_SIZE) :
    Slab.create (max DEFAULT_PAGE_SIZE data.length) =
      .ok ⟨nearestPowerOfTwo (max DEFAULT_PAGE_SIZE data.length), 0, fun _ => 0⟩ ∧
    nearestPowerOfTwo (max DEFAULT_PAGE_SIZE data.length) ≤ MAX_PAGE_SIZE := by
  have hlow := le_nearestPowerOfTwo (max DEFAULT_PAGE_SIZE data.length)
  have hhigh : nearestPowerOfTwo (max DEFAULT_PAGE_SIZE data.length) ≤ 2 ^ 16 :=
    nearestPowerOfTwo_le (by unfold DEFAULT_PAGE_SIZE MAX_PAGE_SIZE at *; omega)
  unfold DEFAULT_PAGE_SIZE at hlow
  unfold Slab.create MIN_PAGE_SIZE MAX_PAGE_SIZE DEFAULT_PAGE_SIZE at *
  dsimp only
  rw [if_neg (by omega), if_neg (by omega)]
  exact ⟨rfl, by omega⟩

/-- When no page has room, the data goes to the front of a new one or not at all. -/
theorem insert_unfit (h : ¬ self.Fits data.length pad) (hl : data.length ≤ MAX_PAGE_SIZE) :
    self.insert data pad fill =
      match (Slab.mk (nearestPowerOfTwo (max DEFAULT_PAGE_SIZE data.length)) 0 fun _ => 0).append data pad fill with
      | .error e => (.error e, { self with
          pages := self.pages ++ [⟨nearestPowerOfTwo (max DEFAULT_PAGE_SIZE data.length), 0, fun _ => 0⟩]
          pageBase := self.pageBase ++ [self.size] })
      | .ok (_, page) => (.ok ⟨self.size, 0, self.pages.length, 0⟩, {
          size := self.size + page.used
          pages := self.pages ++ [page]
          pageBase := self.pageBase ++ [self.size] }) := by
  have hf : self.pages.findFinIdx? (fun page => page.canFit data.length pad) = none :=
    List.findFinIdx?_eq_none_iff.mpr fun page hp hfit => h ⟨page, hp, hfit⟩
  have hlast : (self.pages.getLast?.filter fun page => page.canFit data.length pad) = none :=
    Option.filter_eq_none_iff.mpr fun page hp hfit => h ⟨page, List.mem_of_getLast? hp, hfit⟩
  unfold insert append
  rw [hf, hlast, (create_ok hl).1]
  dsimp only
  cases (Slab.mk (nearestPowerOfTwo (max DEFAULT_PAGE_SIZE data.length)) 0 fun _ => 0).append data pad fill with
  | error e => rfl
  | ok r => simp

/-- An insertion that needs a page of its own and fits there. -/
theorem insert_new (hs : self.Sized) (h : ¬ self.Fits data.length pad) (hl : data.length ≤ MAX_PAGE_SIZE)
    (hf : data.length + pad ≤ nearestPowerOfTwo (max DEFAULT_PAGE_SIZE data.length)) :
    ∃ r self', self.insert data pad fill = (.ok r, self') ∧ self.Grows self' ∧ self'.Sized ∧
      self'.pages.length = self.pages.length + 1 ∧ r.index = self.pages.length ∧ r.offset = 0 ∧
      self'.Holds r.index r.offset (data ++ List.replicate pad fill) := by
  rw [insert_unfit h hl]
  generalize hc : nearestPowerOfTwo (max DEFAULT_PAGE_SIZE data.length) = capacity at hf
  have hsized : (Slab.mk capacity 0 fun _ => 0).Sized := ⟨Nat.zero_le _, hc ▸ (create_ok hl).2⟩
  obtain ⟨⟨offset, page⟩, ha⟩ := @Slab.append_of_fits ⟨capacity, 0, fun _ => 0⟩ data pad fill (by simpa using hf)
  obtain ⟨rfl, hpre, hsz, hused, hslice⟩ := Slab.append_ok hsized ha
  rw [ha]
  refine ⟨_, _, rfl, fun i p hi => ?_, fun p hp => ?_, by simp, rfl, rfl, page, ?_, ?_, ?_⟩
  · refine ⟨p, ?_, Slab.Prefix.refl p⟩
    rw [List.getElem?_append_left (List.getElem?_eq_some_iff.mp hi).1]
    exact hi
  · rcases List.mem_append.mp hp with hp | hp
    · exact hs p hp
    · rw [List.mem_singleton.mp hp]
      exact hsz
  · simp
  · rw [List.length_append, List.length_replicate, hused]
    simp
  · rw [List.length_append, List.length_replicate]
    exact hslice

/-- The size of a new page does not count the padding. -/
theorem insert_overflow (h : ¬ self.Fits data.length pad) (hl : data.length ≤ MAX_PAGE_SIZE)
    (hf : nearestPowerOfTwo (max DEFAULT_PAGE_SIZE data.length) < data.length + pad) :
    ∃ self', self.insert data pad fill = (.error (.runtimeError "Page overflow"), self') := by
  rw [insert_unfit h hl, Slab.append_overflow (by simpa using hf)]
  exact ⟨_, rfl⟩

end PagedAllocator

end Pepp.Bts

import Pepp.Ds.Paged
import Pepp.Lib.Algorithms

/-!
# Paged allocation of any elements

The allocator for elements of any integral type, with the alignment of data in
the address space of the host. Where a new page lies and what it holds is up to
the host, so both are inputs of the operations that may need one.
-/

namespace Pepp.Slabs

open Span Bts

/-- `sizeof` and `alignof` of the elements. -/
structure ElemType where
  size : Nat
  align : Nat
  size_pos : 0 < size

/-- What the host gives for a new page. -/
structure Fresh (α : Type) where
  address : Nat
  data : Nat → α

/-- `bits::ceil_div`, in 64 bits. -/
def ceilDiv (a b : Nat) : Nat := (a + b - 1) % 2 ^ 64 / b

variable {α : Type} (elem : ElemType)

structure Slab (α : Type) where
  address : Nat
  capacity : Nat
  used : Nat
  data : Nat → α

namespace Slab

def create (capacity : Nat) (fresh : Fresh α) : Except PoolError (Slab α) :=
  let capacity := nearestPowerOfTwo capacity
  if capacity < MIN_PAGE_SIZE then .error (.invalidArgument "Allocation smaller than MIN_PAGE_SIZE")
  else if MAX_PAGE_SIZE < capacity then .error (.invalidArgument "Allocation larger than MAX_PAGE_SIZE")
  else .ok ⟨fresh.address, capacity, 0, fresh.data⟩

variable (self : Slab α)

def remainingCapacity : Nat := self.capacity - self.used

/-- `Page::fill`: the ends are cut to the page, and swapped when they are in the wrong order. -/
def fillRange (start stop : Nat) (fill : α) : Slab α :=
  let start := min start self.capacity
  let stop := min stop self.capacity
  { self with data := overwrite self.data (min start stop) (List.replicate (max start stop - min start stop) fill) }

/-- How many elements of padding bring the free space to an alignment. -/
def alignElems (align : Nat) : Nat :=
  if elem.align < align then
    let mis := (self.address + self.used * elem.size) % align
    if mis = 0 then 0 else ceilDiv (align - mis) elem.size
  else 0

/-- The sum is taken in 64 bits. -/
def paddedSize (count align pad : Nat) : Nat :=
  (count + self.alignElems elem align + ceilDiv pad elem.size) % 2 ^ 64

def canFit (count align pad : Nat) : Bool := self.paddedSize elem count align pad ≤ self.remainingCapacity

/-- Copy the data behind the padding that aligns it, and pad it at its end. -/
def append (data : List α) (align pad : Nat) (fill : α) : Except PoolError (Nat × Slab α) :=
  let totalSize := self.paddedSize elem data.length align pad
  let paddedBase := self.paddedSize elem self.used align 0
  if self.remainingCapacity < totalSize then .error (.runtimeError "Page overflow")
  else
    let filled := self.fillRange self.used paddedBase fill
    let copied := { filled with data := overwrite filled.data paddedBase data }
    let padded := copied.fillRange (paddedBase + data.length) (self.used + totalSize) fill
    .ok (paddedBase, { padded with used := self.used + totalSize })

/-- `can_fit` of a request without data. -/
def canFitSize (request : Nat) : Bool := request ≤ self.remainingCapacity

def allocateInitialized (size : Nat) (v : α) : Except PoolError (Nat × Slab α) :=
  if self.remainingCapacity < size then .error (.runtimeError "Page overflow")
  else .ok (self.used, { self.fillRange self.used (self.used + size) v with used := self.used + size })

def allocateUninitialized (size : Nat) : Except PoolError (Nat × Slab α) :=
  if self.remainingCapacity < size then .error (.runtimeError "Page overflow")
  else .ok (self.used, { self with used := self.used + size })

end Slab

structure PagedAllocator (α : Type) where
  size : Nat
  pages : List (Slab α)
  pageBase : List Nat

namespace PagedAllocator

def empty : PagedAllocator α := ⟨0, [], []⟩

variable (self : PagedAllocator α)

/-- The common shape of what goes to the end: in the last page if that has room, else in a new one, which
stays when the request does not fit it. The offset is where the last page ended before. -/
def extend (fits : Slab α → Bool) (request : Nat) (fresh : Fresh α)
    (put : Slab α → Except PoolError (Nat × Slab α)) : Except PoolError Nat × PagedAllocator α :=
  match self.pages.getLast?.filter fits with
  | some page =>
    match put page with
    | .error e => (.error e, self)
    | .ok (_, page') =>
      (.ok self.size, { self with
        size := self.size + page'.used - page.used
        pages := self.pages.dropLast ++ [page'] })
  | none =>
    match Slab.create (max DEFAULT_PAGE_SIZE request) fresh with
    | .error e => (.error e, self)
    | .ok page =>
      match put page with
      | .error e => (.error e, { self with
          pages := self.pages ++ [page]
          pageBase := self.pageBase ++ [self.size] })
      | .ok (_, page) =>
        (.ok self.size, {
          size := self.size + page.used
          pages := self.pages ++ [page]
          pageBase := self.pageBase ++ [self.size] })

def append (data : List α) (align pad : Nat) (fill : α) (fresh : Fresh α) : Except PoolError Nat × PagedAllocator α :=
  self.extend (fun page => page.canFit elem data.length align pad) data.length fresh
    fun page => page.append elem data align pad fill

/-- The size grows by the request, which is what the page grows by. -/
def allocateInitialized (size : Nat) (fill : α) (fresh : Fresh α) : Except PoolError Nat × PagedAllocator α :=
  self.extend (fun page => page.canFitSize size) size fresh fun page => page.allocateInitialized size fill

def allocateUninitialized (size : Nat) (fresh : Fresh α) : Except PoolError Nat × PagedAllocator α :=
  self.extend (fun page => page.canFitSize size) size fresh fun page => page.allocateUninitialized size

/-- In the first page with enough room; pages behind it move by the length of the data alone. -/
def insert (data : List α) (align pad : Nat) (fill : α) (fresh : Fresh α) :
    Except PoolError InsertResult × PagedAllocator α :=
  match self.pages.findFinIdx? fun page => page.canFit elem data.length align pad with
  | some it =>
    let paddedSize := self.pages[it].paddedSize elem data.length align pad
    match self.pages[it].append elem data align pad fill with
    | .error e => (.error e, self)
    | .ok (insertedOffset, page) =>
      (.ok ⟨self.pageBase.getD it 0 + insertedOffset, paddedSize, it, insertedOffset⟩, {
        size := self.size + paddedSize
        pages := self.pages.set it page
        pageBase := self.pageBase.mapIdx fun jt base => if it < jt then base + data.length else base })
  | none =>
    match self.append elem data align pad fill fresh with
    | (.error e, self) => (.error e, self)
    | (.ok adjustAbove, self) =>
      (.ok ⟨adjustAbove, 0, self.pages.length - 1, adjustAbove - self.pageBase.getLastD 0⟩, self)

/-- The page of an offset is the last one whose base is not above it. -/
def indicesForOffset (offset : Nat) : Except PoolError (Nat × Nat) :=
  if self.size ≤ offset then .error (.runtimeError "Invalid offset!!")
  else if self.pageBase.isEmpty then .error (.runtimeError "No pages!!")
  else
    match Algorithms.partitionPoint (fun base => decide (base ≤ offset)) self.pageBase with
    | 0 => .error (.runtimeError "Offset before first page!!")
    | index + 1 => .ok (index, offset - self.pageBase.getD index 0)

/-- The function is `noexcept`: none is a program that an exception of `indices_for_offset` has ended. -/
def get (offset length : Nat) : Option (List α) :=
  if self.size < offset + length then some []
  else
    match self.indicesForOffset offset with
    | .error _ => none
    | .ok (index, pageOffset) =>
      match self.pages[index]? with
      | none => none
      | some page => if page.used < pageOffset + length then some [] else some (slice page.data pageOffset length)

end PagedAllocator

/-! ## Pages -/

theorem ceilDiv_le {a b : Nat} (hb : 0 < b) (h : a + b ≤ 2 ^ 64) : ceilDiv a b ≤ a := by
  rw [ceilDiv, Nat.mod_eq_of_lt (by omega), Nat.div_le_iff_le_mul_add_pred hb]
  have := Nat.le_mul_of_pos_left a hb
  omega

@[simp] theorem ceilDiv_zero {b : Nat} (hb : 0 < b) : ceilDiv 0 b = 0 := by
  rw [ceilDiv, Nat.zero_add]
  exact Nat.div_eq_of_lt (Nat.lt_of_le_of_lt (Nat.mod_le _ _) (by omega))

/-- The sizes of a request stay below 2^64 in all sums. -/
def Bounded (elem : ElemType) (count align pad : Nat) : Prop := count + align + pad + elem.size + MAX_PAGE_SIZE ≤ 2 ^ 64

namespace Slab

variable {elem : ElemType} {self self' : Slab α} {data : List α} {count align pad offset : Nat} {fill : α}

/-- No more of a page is in use than there is of it. -/
def Sized (self : Slab α) : Prop := self.used ≤ self.capacity ∧ self.capacity ≤ MAX_PAGE_SIZE

/-- The same page with `n` more elements in use. -/
structure Grown (page page' : Slab α) (n : Nat) : Prop where
  sized : page'.Sized
  more : page'.used = page.used + n
  same : ∀ k < page.used, page'.data k = page.data k

theorem Grown.slice_eq {n len : Nat} (h : self.Grown self' n) (hl : offset + len ≤ self.used) :
    slice self'.data offset len = slice self.data offset len :=
  slice_congr fun i _ hi => h.same i (by omega)

theorem alignElems_le (elem : ElemType) (self : Slab α) (h : align + elem.size ≤ 2 ^ 64) :
    self.alignElems elem align ≤ align := by
  rw [alignElems]
  split
  · dsimp only
    split
    · exact Nat.zero_le _
    · exact Nat.le_trans (ceilDiv_le elem.size_pos (by omega)) (Nat.sub_le _ _)
  · exact Nat.zero_le _

theorem paddedSize_eq (self : Slab α) (h : count + align + pad + elem.size ≤ 2 ^ 64) :
    self.paddedSize elem count align pad = count + self.alignElems elem align + ceilDiv pad elem.size := by
  have ha := alignElems_le elem self (show align + elem.size ≤ 2 ^ 64 by omega)
  have hp := ceilDiv_le elem.size_pos (show pad + elem.size ≤ 2 ^ 64 by omega)
  have hpos := elem.size_pos
  rw [paddedSize]
  exact Nat.mod_eq_of_lt (by omega)

theorem paddedBase_eq (hs : self.Sized) (h : Bounded elem count align pad) :
    self.paddedSize elem self.used align 0 = self.used + self.alignElems elem align := by
  have hused := hs.1
  have hcap := hs.2
  unfold Bounded at h
  rw [paddedSize_eq self (by omega), ceilDiv_zero elem.size_pos, Nat.add_zero]

theorem fillRange_lt (self : Slab α) (start stop : Nat) (fill : α) {k : Nat} (hk : k < min start stop)
    (hcap : k < self.capacity) : (self.fillRange start stop fill).data k = self.data k := by
  rw [fillRange]
  exact overwrite_of_lt _ _ _ _ (by omega)

/-- An append that fits puts the data behind the padding that aligns it. -/
theorem append_ok (hs : self.Sized) (h : Bounded elem data.length align pad)
    (hfit : self.canFit elem data.length align pad = true) :
    ∃ page, self.append elem data align pad fill = .ok (self.used + self.alignElems elem align, page) ∧
      self.Grown page (self.paddedSize elem data.length align pad) ∧
      slice page.data (self.used + self.alignElems elem align) data.length = data := by
  have hbase := paddedBase_eq hs h
  have htotal := paddedSize_eq self (show data.length + align + pad + elem.size ≤ 2 ^ 64 by unfold Bounded at h; omega)
  have hroom : self.paddedSize elem data.length align pad ≤ self.capacity - self.used := of_decide_eq_true hfit
  have hused := hs.1
  unfold append
  dsimp only
  rw [if_neg (by unfold remainingCapacity; omega), hbase]
  -- the three writes, one behind the other: none goes below its start
  let filled := self.fillRange self.used (self.used + self.alignElems elem align) fill
  let copied := { filled with data := overwrite filled.data (self.used + self.alignElems elem align) data }
  have hpad : ∀ k < self.used + self.alignElems elem align + data.length,
      (copied.fillRange (self.used + self.alignElems elem align + data.length)
        (self.used + self.paddedSize elem data.length align pad) fill).data k = copied.data k :=
    fun k hk => fillRange_lt copied _ _ fill (by omega) (show k < self.capacity by omega)
  refine ⟨_, rfl, ⟨⟨?_, hs.2⟩, rfl, ?_⟩, ?_⟩
  · show self.used + _ ≤ self.capacity
    omega
  · intro k hk
    calc _ = copied.data k := hpad k (by omega)
      _ = filled.data k := overwrite_of_lt _ _ _ _ (by omega)
      _ = self.data k := fillRange_lt self _ _ fill (by omega) (by omega)
  · exact (slice_congr fun k _ hk => hpad k hk).trans (slice_overwrite _ _ _)

theorem allocateInitialized_ok (hs : self.Sized) (hfit : self.canFitSize count = true) :
    ∃ page, self.allocateInitialized count fill = .ok (self.used, page) ∧ self.Grown page count ∧
      slice page.data self.used count = List.replicate count fill := by
  have hroom : count ≤ self.capacity - self.used := of_decide_eq_true hfit
  have hused := hs.1
  unfold allocateInitialized
  rw [if_neg (by unfold remainingCapacity; omega)]
  refine ⟨_, rfl, ⟨⟨show self.used + count ≤ self.capacity by omega, hs.2⟩, rfl, ?_⟩, ?_⟩
  · intro k hk
    exact fillRange_lt _ _ _ fill (by omega) (by omega)
  · have hslice := slice_overwrite self.data self.used (List.replicate count fill)
    rw [List.length_replicate] at hslice
    show slice (self.fillRange self.used (self.used + count) fill).data _ _ = _
    rw [fillRange]
    dsimp only
    rw [show min self.used self.capacity = self.used by omega,
      show min (self.used + count) self.capacity = self.used + count by omega,
      show min self.used (self.used + count) = self.used by omega,
      show max self.used (self.used + count) - self.used = count by omega]
    exact hslice

theorem allocateUninitialized_ok (hs : self.Sized) (hfit : self.canFitSize count = true) :
    ∃ page, self.allocateUninitialized count = .ok (self.used, page) ∧ self.Grown page count := by
  have hroom : count ≤ self.capacity - self.used := of_decide_eq_true hfit
  have hused := hs.1
  unfold allocateUninitialized
  rw [if_neg (by unfold remainingCapacity; omega)]
  exact ⟨_, rfl, ⟨show self.used + count ≤ self.capacity by omega, hs.2⟩, rfl, fun _ _ => rfl⟩

theorem create_ok {request : Nat} (h : request ≤ MAX_PAGE_SIZE) (fresh : Fresh α) :
    create (max DEFAULT_PAGE_SIZE request) fresh =
      .ok ⟨fresh.address, nearestPowerOfTwo (max DEFAULT_PAGE_SIZE request), 0, fresh.data⟩ ∧
    nearestPowerOfTwo (max DEFAULT_PAGE_SIZE request) ≤ MAX_PAGE_SIZE := by
  have hlow := le_nearestPowerOfTwo (max DEFAULT_PAGE_SIZE request)
  have hhigh : nearestPowerOfTwo (max DEFAULT_PAGE_SIZE request) ≤ 2 ^ 16 :=
    nearestPowerOfTwo_le (by unfold DEFAULT_PAGE_SIZE MAX_PAGE_SIZE at *; omega)
  unfold DEFAULT_PAGE_SIZE at hlow
  unfold create MIN_PAGE_SIZE MAX_PAGE_SIZE DEFAULT_PAGE_SIZE at *
  dsimp only
  rw [if_neg (by omega), if_neg (by omega)]
  exact ⟨rfl, by omega⟩

/-- No page is made for a request that is larger than a page can be. -/
theorem create_oversize {request : Nat} (h : MAX_PAGE_SIZE < request) (fresh : Fresh α) :
    create (max DEFAULT_PAGE_SIZE request) fresh =
      .error (.invalidArgument "Allocation larger than MAX_PAGE_SIZE") := by
  have hlow := le_nearestPowerOfTwo (max DEFAULT_PAGE_SIZE request)
  unfold create MIN_PAGE_SIZE MAX_PAGE_SIZE at *
  dsimp only
  rw [if_neg (by omega), if_pos (by omega)]

end Slab

end Pepp.Slabs

/-! ## Where allocations lie

The base of a page is the sum of what the pages in front of it have in use. An
allocation is placed when it lies in the used part of one page; then `get` finds
it, and it stays placed when a page grows, at an offset that moves by as much as
the pages in front of it have grown. -/

namespace Pepp.Slabs

open Span Bts

variable {α : Type}

/-- What the first `i` pages have in use. -/
def base (pages : List (Slab α)) (i : Nat) : Nat := ((pages.take i).map Slab.used).sum

/-- The data lies in the used part of a page. -/
def Placed (pages : List (Slab α)) (offset : Nat) (data : List α) : Prop :=
  ∃ (i : Nat) (page : Slab α) (o : Nat), pages[i]? = some page ∧ offset = base pages i + o ∧
    o + data.length ≤ page.used ∧ slice page.data o data.length = data

/-- The bases are the running sums of the sizes of the pages. -/
structure Tallied (alloc : PagedAllocator α) : Prop where
  sized : ∀ page ∈ alloc.pages, page.Sized
  bases : alloc.pageBase = (List.range alloc.pages.length).map (base alloc.pages)
  size : alloc.size = base alloc.pages alloc.pages.length

section Bases

variable {pages : List (Slab α)} {page page' : Slab α} {it i n : Nat}

theorem base_succ (h : pages[i]? = some page) : base pages (i + 1) = base pages i + page.used := by
  obtain ⟨hi, rfl⟩ := List.getElem?_eq_some_iff.mp h
  rw [base, base, List.take_succ_eq_append_getElem hi, List.map_append, List.sum_append]
  simp

theorem base_mono {j : Nat} (h : i ≤ j) : base pages i ≤ base pages j := by
  induction h with
  | refl => exact Nat.le_refl _
  | step _ ih =>
    rename_i j _
    refine Nat.le_trans ih ?_
    cases hj : pages[j]? with
    | none =>
      have hlen := List.getElem?_eq_none_iff.mp hj
      rw [base, base, List.take_of_length_le hlen, List.take_of_length_le (by omega)]
    | some page =>
      rw [base_succ hj]
      exact Nat.le_add_right _ _

theorem base_append_left (rest : List (Slab α)) (h : i ≤ pages.length) : base (pages ++ rest) i = base pages i := by
  rw [base, base, List.take_append_of_le_length h]

/-- The pages behind one that grows move. -/
theorem base_set (h : pages[it]? = some page) (hused : page'.used = page.used + n) (i : Nat) :
    base (pages.set it page') i = base pages i + if it < i then n else 0 := by
  obtain ⟨hit, -⟩ := List.getElem?_eq_some_iff.mp h
  induction i with
  | zero => simp [base]
  | succ i ih =>
    cases hi : pages[i]? with
    | none =>
      have hlen := List.getElem?_eq_none_iff.mp hi
      rw [base, base, List.take_of_length_le (by simp; omega), List.take_of_length_le (by omega)]
      rw [base, base, List.take_of_length_le (by simp; omega), List.take_of_length_le (by omega)] at ih
      rw [ih, if_pos (by omega), if_pos (by omega)]
    | some old =>
      by_cases he : i = it
      · subst he
        rw [base_succ (List.getElem?_set_self hit), base_succ h, ih, hused, if_neg (by omega), if_pos (by omega)]
        omega
      · have hset : (pages.set it page')[i]? = some old := by rw [List.getElem?_set_ne (Ne.symm he), hi]
        rw [base_succ hset, base_succ hi, ih]
        split <;> split <;> omega

/-- A page may hold other data. -/
theorem Tallied.rewrite {alloc : PagedAllocator α} (h : Tallied alloc) (hit : alloc.pages[it]? = some page)
    (hused : page'.used = page.used) (hsized : page'.Sized) :
    Tallied { alloc with pages := alloc.pages.set it page' } := by
  have hbase : ∀ j, base (alloc.pages.set it page') j = base alloc.pages j := fun j => by
    rw [base_set hit (show page'.used = page.used + 0 by rw [hused, Nat.add_zero]), ite_self, Nat.add_zero]
  refine ⟨?_, ?_, ?_⟩
  · intro p hp
    rcases List.mem_or_eq_of_mem_set hp with hp | rfl
    · exact h.sized p hp
    · exact hsized
  · dsimp only
    rw [h.bases, List.length_set]
    exact List.map_congr_left fun j _ => (hbase j).symm
  · dsimp only
    rw [hbase, List.length_set, h.size]

section

variable {data : List α} {offset : Nat} (h : Placed pages offset data)
include h

/-- An allocation in the pages lies below their end. -/
theorem placed_le : offset + data.length ≤ base pages pages.length := by
  obtain ⟨i, page, o, hp, rfl, hfit, -⟩ := h
  obtain ⟨hi, -⟩ := List.getElem?_eq_some_iff.mp hp
  have hmono : base pages (i + 1) ≤ base pages pages.length := base_mono hi
  rw [base_succ hp] at hmono
  omega

/-- What is placed stays placed when pages are added. -/
theorem Placed.append (rest : List (Slab α)) : Placed (pages ++ rest) offset data := by
  obtain ⟨i, page, o, hp, rfl, hfit, hdata⟩ := h
  obtain ⟨hi, -⟩ := List.getElem?_eq_some_iff.mp hp
  exact ⟨i, page, o, by rw [List.getElem?_append_left hi, hp], by rw [base_append_left rest (by omega)], hfit, hdata⟩

/-- And when bytes of a page change that are not its own. -/
theorem Placed.rewrite (hit : pages[it]? = some page) (hused : page'.used = page.used)
    (hkeep : ∀ o, offset = base pages it + o → slice page'.data o data.length = slice page.data o data.length) :
    Placed (pages.set it page') offset data := by
  obtain ⟨hlt, -⟩ := List.getElem?_eq_some_iff.mp hit
  obtain ⟨i, old, o, hp, rfl, hfit, hdata⟩ := h
  have hbase := base_set hit (show page'.used = page.used + 0 by rw [hused, Nat.add_zero]) i
  rw [ite_self, Nat.add_zero] at hbase
  by_cases hi : it = i
  · subst hi
    obtain rfl := Option.some.inj (hp.symm.trans hit)
    exact ⟨it, page', o, List.getElem?_set_self hlt, by rw [hbase], by rw [hused]; exact hfit,
      (hkeep o rfl).trans hdata⟩
  · exact ⟨i, old, o, by rw [List.getElem?_set_ne hi, hp], by rw [hbase], hfit, hdata⟩

/-- And when a page grows: what lies behind it moves with the pages. -/
theorem Placed.set (hne : data ≠ []) (hit : pages[it]? = some page) (hgrown : page.Grown page' n) :
    Placed (pages.set it page') (if base pages it + page.used ≤ offset then offset + n else offset) data := by
  obtain ⟨i, old, o, hp, rfl, hfit, hdata⟩ := h
  have hpos := List.length_pos_iff.mpr hne
  obtain ⟨hlt, -⟩ := List.getElem?_eq_some_iff.mp hit
  have hbase := base_set hit hgrown.more i
  rw [← base_succ hit]
  rcases Nat.lt_trichotomy i it with hlt' | rfl | hgt
  · have hmono : base pages (i + 1) ≤ base pages it := base_mono hlt'
    have hnext : base pages it ≤ base pages (it + 1) := base_mono (Nat.le_succ it)
    rw [base_succ hp] at hmono
    rw [if_neg (by omega)] at hbase ⊢
    refine ⟨i, old, o, by rw [List.getElem?_set_ne (by omega), hp], by omega, hfit, hdata⟩
  · obtain rfl := Option.some.inj (hp.symm.trans hit)
    rw [if_neg (by omega)] at hbase
    rw [if_neg (by rw [base_succ hp]; omega)]
    refine ⟨i, page', o, List.getElem?_set_self hlt, by omega, by rw [hgrown.more]; omega, ?_⟩
    rw [hgrown.slice_eq hfit, hdata]
  · have hmono : base pages (it + 1) ≤ base pages i := base_mono hgt
    rw [if_pos hgt] at hbase
    rw [if_pos (by omega)]
    exact ⟨i, old, o, by rw [List.getElem?_set_ne (by omega), hp], by omega, hfit, hdata⟩

end

end Bases

namespace PagedAllocator

variable {self : PagedAllocator α} {offset : Nat} {data : List α}

/-- The search finds the page of an allocation. -/
theorem partitionPoint_bases {pages : List (Slab α)} {i o : Nat} {page : Slab α} (hp : pages[i]? = some page)
    (ho : o < page.used) :
    Algorithms.partitionPoint (fun b => decide (b ≤ base pages i + o)) ((List.range pages.length).map (base pages)) =
      i + 1 := by
  obtain ⟨hi, -⟩ := List.getElem?_eq_some_iff.mp hp
  have hsorted : ((List.range pages.length).map (base pages)).Pairwise
      fun a b => decide (b ≤ base pages i + o) = true → decide (a ≤ base pages i + o) = true := by
    rw [List.pairwise_map]
    refine List.pairwise_lt_range.imp fun hab hb => ?_
    have := @base_mono _ pages _ _ (Nat.le_of_lt hab)
    simp only [decide_eq_true_eq] at hb ⊢
    omega
  have hspec := Algorithms.partitionPoint_spec hsorted
  have hle := Algorithms.partitionPoint_le (fun b => decide (b ≤ base pages i + o))
    ((List.range pages.length).map (base pages))
  simp only [List.length_map, List.length_range, List.getElem_map, List.getElem_range, decide_eq_true_eq] at hspec hle
  have hat := (hspec i hi).mpr (Nat.le_add_right _ _)
  by_contra hne
  have hnext := (hspec (i + 1) (by omega)).mp (by omega)
  rw [base_succ hp] at hnext
  omega

/-- The indices of an offset in the used part of a page. -/
theorem indicesForOffset_page (h : Tallied self) {i o : Nat} {page : Slab α} (hp : self.pages[i]? = some page)
    (ho : o < page.used) : self.indicesForOffset (base self.pages i + o) = .ok (i, o) := by
  obtain ⟨hi, -⟩ := List.getElem?_eq_some_iff.mp hp
  have hmono : base self.pages (i + 1) ≤ base self.pages self.pages.length := base_mono hi
  have hnonempty : self.pageBase.isEmpty = false := by
    rw [h.bases, List.isEmpty_eq_false_iff, ne_eq, List.map_eq_nil_iff, List.range_eq_nil]
    omega
  rw [base_succ hp, ← h.size] at hmono
  rw [indicesForOffset, if_neg (by omega), hnonempty, if_neg (by simp), h.bases, partitionPoint_bases hp ho]
  have hget : ((List.range self.pages.length).map (base self.pages)).getD i 0 = base self.pages i := by
    simp [List.getD_eq_getElem?_getD, hi]
  simp only [hget, Nat.add_sub_cancel_left]

/-- `get` finds the start of what is placed. -/
theorem get_placed_take (h : Tallied self) (hplaced : Placed self.pages offset data) (hne : data ≠ []) {k : Nat}
    (hk : k ≤ data.length) : self.get offset k = some (data.take k) := by
  have hend := placed_le hplaced
  obtain ⟨i, page, o, hp, rfl, hfit, hdata⟩ := hplaced
  have hpos := List.length_pos_iff.mpr hne
  rw [← h.size] at hend
  rw [get, if_neg (by omega), indicesForOffset_page h hp (by omega)]
  simp only [hp]
  rw [if_neg (by omega), ← slice_take _ _ hk, hdata]

/-- `get` returns what is placed. -/
theorem get_placed (h : Tallied self) (hplaced : Placed self.pages offset data) (hne : data ≠ []) :
    self.get offset data.length = some data := by
  rw [get_placed_take h hplaced hne le_rfl, List.take_length]

/-- What a request at the end leaves: a page has grown, or a new one was added, and everything else stayed. -/
structure Extended (alloc alloc' : PagedAllocator α) (page page' : Slab α) : Prop where
  tallied : Tallied alloc'
  last : alloc'.pages.getLast? = some page'
  kept : ∀ offset data, data ≠ [] → Placed alloc.pages offset data → Placed alloc'.pages offset data
  here : ∀ data, page.used + data.length ≤ page'.used → slice page'.data page.used data.length = data →
    Placed alloc'.pages alloc.size data

variable {fits : Slab α → Bool} {request n o : Nat} {fresh : Fresh α} {put : Slab α → Except PoolError (Nat × Slab α)}
  {page page' : Slab α}

theorem extend_last (h : Tallied self) (hlast : self.pages.getLast?.filter fits = some page)
    (hput : put page = .ok (o, page')) (hgrown : page.Grown page' n) :
    ∃ alloc, self.extend fits request fresh put = (.ok self.size, alloc) ∧ Extended self alloc page page' := by
  have hpage := (Option.filter_eq_some_iff.mp hlast).1
  obtain ⟨front, hfront⟩ := List.getLast?_eq_some_iff.mp hpage
  have hat : self.pages[front.length]? = some page := by simp [hfront]
  have hset : self.pages.dropLast ++ [page'] = self.pages.set front.length page' := by simp [hfront]
  have hbase : ∀ j ≤ front.length, base (self.pages.set front.length page') j = base self.pages j := by
    intro j hj
    rw [base_set hat hgrown.more, if_neg (by omega), Nat.add_zero]
  have hsize : self.size = base self.pages front.length + page.used := by
    rw [h.size, ← base_succ hat]
    simp [hfront]
  rw [extend, hlast]
  simp only [hput, hset]
  refine ⟨_, rfl, ⟨⟨?_, ?_, ?_⟩, ?_, ?_, ?_⟩⟩
  · intro p hp
    rcases List.mem_or_eq_of_mem_set hp with hp | rfl
    · exact h.sized p hp
    · exact hgrown.sized
  · dsimp only
    rw [h.bases, List.length_set]
    refine List.map_congr_left fun j hj => (hbase j ?_).symm
    have := List.mem_range.mp hj
    simp only [hfront, List.length_append, List.length_singleton] at this
    omega
  · dsimp only
    rw [List.length_set, base_set hat hgrown.more, if_pos (by simp [hfront]), ← h.size, hgrown.more]
    omega
  · simp [hfront]
  · intro offset data hne hplaced
    have hend := placed_le hplaced
    have hpos := List.length_pos_iff.mpr hne
    have hmoved := hplaced.set hne hat hgrown
    rw [if_neg (by rw [← hsize, h.size]; omega)] at hmoved
    exact hmoved
  · intro data hfit hdata
    refine ⟨front.length, page', page.used, List.getElem?_set_self (by simp [hfront]), ?_, hfit, hdata⟩
    rw [hbase _ (Nat.le_refl _), hsize]

theorem extend_new (h : Tallied self) (hlast : self.pages.getLast?.filter fits = none)
    (hcreate : Slab.create (max DEFAULT_PAGE_SIZE request) fresh = .ok page) (hused : page.used = 0)
    (hput : put page = .ok (o, page')) (hgrown : page.Grown page' n) :
    ∃ alloc, self.extend fits request fresh put = (.ok self.size, alloc) ∧ Extended self alloc page page' := by
  rw [extend, hlast, hcreate]
  dsimp only
  rw [hput]
  refine ⟨_, rfl, ⟨⟨?_, ?_, ?_⟩, by simp, fun offset data _ hplaced => hplaced.append _, ?_⟩⟩
  · intro p hp
    rcases List.mem_append.mp hp with hp | hp
    · exact h.sized p hp
    · rw [List.mem_singleton.mp hp]
      exact hgrown.sized
  · dsimp only
    rw [List.length_append, List.length_singleton, List.range_succ, List.map_append, List.map_singleton,
      base_append_left _ (Nat.le_refl _), ← h.size, h.bases]
    congr 1
    refine List.map_congr_left fun j hj => (base_append_left _ ?_).symm
    exact Nat.le_of_lt (List.mem_range.mp hj)
  · have hat : (self.pages ++ [page'])[self.pages.length]? = some page' := by simp
    dsimp only
    rw [List.length_append, List.length_singleton, base_succ hat, base_append_left _ (Nat.le_refl _), ← h.size]
  · intro data hfit hdata
    refine ⟨self.pages.length, page', page.used, by simp, ?_, hfit, hdata⟩
    rw [base_append_left _ (Nat.le_refl _), ← h.size, hused, Nat.add_zero]

/-- The page that a request at the end goes to. -/
def Home (self : PagedAllocator α) (fits : Slab α → Bool) (request : Nat) (fresh : Fresh α) (page : Slab α) : Prop :=
  self.pages.getLast?.filter fits = some page ∨
    self.pages.getLast?.filter fits = none ∧ Slab.create (max DEFAULT_PAGE_SIZE request) fresh = .ok page ∧
      page.used = 0

/-- A request that its page serves leaves the allocator extended, at the offset where it ended. -/
theorem extend_spec (h : Tallied self) (hhome : self.Home fits request fresh page)
    (put : Slab α → Except PoolError (Nat × Slab α)) (hput : put page = .ok (o, page')) (hgrown : page.Grown page' n) :
    ∃ alloc, self.extend fits request fresh put = (.ok self.size, alloc) ∧ Extended self alloc page page' := by
  rcases hhome with hlast | ⟨hlast, hcreate, hused⟩
  · exact extend_last h hlast hput hgrown
  · exact extend_new h hlast hcreate hused hput hgrown

/-- The size grows by as much as the page does. -/
theorem extend_size (hhome : self.Home fits request fresh page) (put : Slab α → Except PoolError (Nat × Slab α))
    (hput : put page = .ok (o, page')) (hmore : page'.used = page.used + n) :
    (self.extend fits request fresh put).2.size = self.size + n := by
  rcases hhome with hlast | ⟨hlast, hcreate, hused⟩
  · rw [extend, hlast]
    simp only [hput]
    omega
  · rw [extend, hlast, hcreate]
    simp only [hput]
    omega

end PagedAllocator

end Pepp.Slabs

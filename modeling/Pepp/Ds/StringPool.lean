import Pepp.Ds.Paged
import Pepp.Lib.OrderedSet

/-!
# The string pool

Strings are kept in pages and named by handles. An insertion first looks for the
string among the identifiers, then for an identifier it is a part of, and only
then allocates. Identifiers are ordered by length and then by their characters,
which are signed.
-/

namespace Pepp.Bts

open Span

def INVALID_PAGE : U16 := 0xFFFF

/-- A handle into a pool. `length` includes the terminator if there is one. -/
structure PooledString where
  page : U16
  offset : U16
  length : U16
  deriving DecidableEq, Repr

namespace PooledString

/-- A handle as it is constructed by default. -/
def invalid : PooledString := ⟨INVALID_PAGE, 0, 0⟩

def valid (self : PooledString) : Prop := self.page ≠ INVALID_PAGE

instance (self : PooledString) : Decidable self.valid := inferInstanceAs (Decidable (_ ≠ _))

end PooledString

inductive AddNullTerminator where
  | Always | Never | IfNotPresent
  deriving DecidableEq, Repr

/-- Position of the first occurrence. -/
def indexOf (sub : List U8) : List U8 → Option Nat
  | [] => if sub = [] then some 0 else none
  | c :: str => if sub.isPrefixOf (c :: str) then some 0 else (indexOf sub str).map (· + 1)

/-- What `PooledString::Less` compares: the lengths, then the strings. -/
def order (str : List U8) : ℕ ×ₗ List ℤ := toLex (str.length, str.map BitVec.toInt)

/-- `PooledString::Less` on two strings. -/
def lessStr (lhs rhs : List U8) : Bool :=
  if lhs.length ≠ rhs.length then decide (lhs.length < rhs.length)
  else decide (lhs.map BitVec.toInt < rhs.map BitVec.toInt)

structure StringPool where
  allocator : PagedAllocator
  identifiers : List PooledString

namespace StringPool

def empty : StringPool := ⟨PagedAllocator.empty, []⟩

variable (self : StringPool)

/-- The string behind a handle. -/
def find (id : PooledString) : Option (List U8) :=
  if ¬ id.valid then none
  else
    match self.allocator.pages[id.page.toNat]? with
    | none => none
    | some page =>
      if page.capacity < id.offset.toNat + id.length.toNat then none
      else some (slice page.data id.offset.toNat id.length.toNat)

/-- An argument of `PooledString::Less`, which must be a good handle. -/
def operand (id : PooledString) (side : String) : Except PoolError (List U8) :=
  match self.find id with
  | none => .error (.invalidArgument ("PooledString::Less given bad " ++ side))
  | some str => .ok str

/-- `PooledString::Less` on two handles. -/
def less (lhs rhs : PooledString) : Except PoolError Bool := do
  let lhs ← self.operand lhs "lhs"
  let rhs ← self.operand rhs "rhs"
  return lessStr lhs rhs

def lowerBound (str : List U8) : List PooledString → Except PoolError (List PooledString)
  | [] => .ok []
  | id :: ids => do
    let lhs ← self.operand id "lhs"
    if lessStr lhs str then lowerBound str ids else return id :: ids

/-- The identifier of a string. -/
def findStr (str : List U8) : Except PoolError (Option PooledString) := do
  match ← self.lowerBound str self.identifiers with
  | [] => return none
  | id :: _ =>
    let rhs ← self.operand id "rhs"
    return if lessStr str rhs then none else some id

/-- `std::set::insert`: the element equivalent to `id`, which is put in unless there is one. -/
def emplace (id : PooledString) : List PooledString → Except PoolError (PooledString × List PooledString)
  | [] => .ok (id, [id])
  | other :: ids => do
    if ← self.less id other then return (id, id :: other :: ids)
    else if ← self.less other id then
      let (existing, ids) ← emplace id ids
      return (existing, other :: ids)
    else return (other, other :: ids)

/-- Add a handle to the identifiers. -/
def addIdentifier (id : PooledString) : Except PoolError PooledString × StringPool :=
  match self.emplace id self.identifiers with
  | .error e => (.error e, self)
  | .ok (existing, identifiers) => (.ok existing, { self with identifiers := identifiers })

/-- The first identifier, by length, that contains the string. -/
def longestContainerOf (target : List U8) : Except PoolError PooledString := do
  let ids ← self.lowerBound target self.identifiers
  return (ids.find? fun id => (self.find id).any fun str => (indexOf target str).isSome).getD .invalid

def needsNullTerminator (str : List U8) (terminator : AddNullTerminator) : Bool :=
  let isNullTerminated := str.getLast? = some 0
  terminator = .Always ∨ (terminator = .IfNotPresent ∧ ¬ isNullTerminated)

/-- Allocate space for a new string. The terminator is the padding behind it. -/
def allocate (str : List U8) (terminator : AddNullTerminator) : Except PoolError PooledString × StringPool :=
  let pad := if needsNullTerminator str terminator then 1 else 0
  let strLength := str.length + pad
  if MAX_PAGE_SIZE ≤ strLength then (.error (.invalidArgument "String too long to allocate"), self)
  else
    match self.allocator.insert str pad 0 with
    | (.error e, allocator) => (.error e, { self with allocator := allocator })
    | (.ok globalIndex, allocator) =>
      { self with allocator := allocator }.addIdentifier
        ⟨BitVec.ofNat 16 globalIndex.index, BitVec.ofNat 16 globalIndex.offset, BitVec.ofNat 16 strLength⟩

def insert (str : List U8) (terminator : AddNullTerminator) : Except PoolError PooledString × StringPool :=
  match self.findStr str with
  | .error e => (.error e, self)
  | .ok (some existing) => (.ok existing, self)
  | .ok none =>
    match self.longestContainerOf str with
    | .error e => (.error e, self)
    | .ok superstring =>
      if superstring.valid then
        let substrOffset := ((self.find superstring).bind (indexOf str)).getD 0 + superstring.offset.toNat
        self.addIdentifier ⟨superstring.page, BitVec.ofNat 16 substrOffset, BitVec.ofNat 16 str.length⟩
      else self.allocate str terminator

end StringPool

/-! ## Searching a string -/

theorem order_lt {lhs rhs : List U8} : order lhs < order rhs ↔ lessStr lhs rhs = true := by
  unfold order lessStr
  rw [Prod.Lex.toLex_lt_toLex]
  by_cases h : lhs.length = rhs.length <;> simp [h]

theorem order_injective : Function.Injective order := by
  intro lhs rhs h
  have h := (Prod.mk.inj (toLex.injective h)).2
  exact List.map_injective_iff.mpr (fun _ _ => BitVec.eq_of_toInt_eq) h

theorem indexOf_eq_none {sub str : List U8} : indexOf sub str = none ↔ ¬ sub <:+: str := by
  induction str with
  | nil => simp [indexOf]
  | cons c str ih =>
    unfold indexOf
    rw [List.infix_cons_iff, ← List.isPrefixOf_iff_prefix]
    by_cases h : sub.isPrefixOf (c :: str) = true
    · simp [h]
    · simp [h, ih]

theorem indexOf_nil (str : List U8) : indexOf [] str = some 0 := by
  cases str <;> rfl

/-- The occurrence that is found is one. -/
theorem indexOf_eq_some {sub str : List U8} {i : Nat} (h : indexOf sub str = some i) :
    i + sub.length ≤ str.length ∧ (str.drop i).take sub.length = sub := by
  induction str generalizing i with
  | nil =>
    unfold indexOf at h
    split at h
    · rename_i hs
      subst hs
      simpa using h.symm
    · contradiction
  | cons c str ih =>
    unfold indexOf at h
    split at h
    · rename_i hp
      obtain rfl := Option.some.inj h
      have hp := List.isPrefixOf_iff_prefix.mp hp
      refine ⟨by simpa using hp.length_le, ?_⟩
      rw [List.drop_zero]
      exact (List.prefix_iff_eq_take.mp hp).symm
    · obtain ⟨j, hj, rfl⟩ := Option.map_eq_some_iff.mp h
      obtain ⟨hle, heq⟩ := ih hj
      refine ⟨?_, heq⟩
      rw [List.length_cons]
      omega

end Pepp.Bts

/-! ## What an insertion does

In a pool whose handles all name bytes in use, searches see the strings behind
the identifiers. A string that is part of a stored one gets a handle of its own
length, whatever the policy; only an allocation adds a terminator. -/

namespace Pepp.Bts

open Span PagedAllocator

/-- How much the policy adds to a string. -/
def padding (str : List U8) (terminator : AddNullTerminator) : Nat :=
  if StringPool.needsNullTerminator str terminator then 1 else 0

/-- What the pool is asked to keep: the string, with its terminator when the policy adds one. -/
def stored (str : List U8) (terminator : AddNullTerminator) : List U8 :=
  str ++ List.replicate (padding str terminator) 0

namespace StringPool

variable {self self' : StringPool} {id other : PooledString} {ids : List PooledString} {str s : List U8}
  {terminator : AddNullTerminator}

theorem allocate_eq (str : List U8) (terminator : AddNullTerminator) :
    self.allocate str terminator =
      if MAX_PAGE_SIZE ≤ str.length + padding str terminator then
        (.error (.invalidArgument "String too long to allocate"), self)
      else
        match self.allocator.insert str (padding str terminator) 0 with
        | (.error e, allocator) => (.error e, { self with allocator := allocator })
        | (.ok globalIndex, allocator) =>
          { self with allocator := allocator }.addIdentifier
            ⟨BitVec.ofNat 16 globalIndex.index, BitVec.ofNat 16 globalIndex.offset,
              BitVec.ofNat 16 (str.length + padding str terminator)⟩ := rfl

/-- The handle names bytes that are in use. -/
def InUse (self : StringPool) (id : PooledString) : Prop :=
  ∃ page, self.allocator.pages[id.page.toNat]? = some page ∧ id.offset.toNat + id.length.toNat ≤ page.used

/-- The string is a part of the one behind the handle. -/
def Contains (self : StringPool) (id : PooledString) (str : List U8) : Prop :=
  ∃ s, self.find id = some s ∧ str <:+: s

/-- Where a handle sorts. -/
def key (self : StringPool) (id : PooledString) : ℕ ×ₗ List ℤ := order ((self.find id).getD [])

structure WellFormed (pool : StringPool) : Prop where
  sized : pool.allocator.Sized
  pages : pool.allocator.pages.length ≤ INVALID_PAGE.toNat
  inUse : ∀ id ∈ pool.identifiers, pool.InUse id
  sorted : OrderedSet.Sorted pool.key pool.identifiers

/-- A pool between insertions; pages come with the first identifier. -/
structure Inv (pool : StringPool) : Prop extends WellFormed pool where
  occupied : pool.identifiers = [] → pool.allocator.pages = []

theorem inv_empty : Inv empty where
  sized := by simp [empty, PagedAllocator.empty, Sized]
  pages := by simp [empty, PagedAllocator.empty]
  inUse := by simp [empty]
  sorted := List.Pairwise.nil
  occupied := fun _ => rfl

theorem find_of_page {page : Slab} (hv : id.valid) (hp : self.allocator.pages[id.page.toNat]? = some page)
    (hl : id.offset.toNat + id.length.toNat ≤ page.capacity) :
    self.find id = some (slice page.data id.offset.toNat id.length.toNat) := by
  unfold find
  rw [if_neg (not_not.mpr hv), hp]
  exact if_neg (by omega)

theorem InUse.valid (hu : self.InUse id) (h : self.allocator.pages.length ≤ INVALID_PAGE.toNat) : id.valid := by
  obtain ⟨page, hp, -⟩ := hu
  obtain ⟨hlt, -⟩ := List.getElem?_eq_some_iff.mp hp
  intro he
  rw [he] at hlt
  omega

theorem find_inUse (h : self.WellFormed) (hu : self.InUse id) :
    ∃ page, self.allocator.pages[id.page.toNat]? = some page ∧ id.offset.toNat + id.length.toNat ≤ page.used ∧
      page.used ≤ MAX_PAGE_SIZE ∧ self.find id = some (slice page.data id.offset.toNat id.length.toNat) := by
  have hvalid := hu.valid h.pages
  obtain ⟨page, hp, hl⟩ := hu
  have hsized := h.sized page (List.mem_of_getElem? hp)
  exact ⟨page, hp, hl, hsized.1.trans hsized.2, find_of_page hvalid hp (hl.trans hsized.1)⟩

theorem exists_find (h : self.WellFormed) (hi : id ∈ self.identifiers) : ∃ s, self.find id = some s := by
  obtain ⟨page, -, -, -, hf⟩ := find_inUse h (h.inUse id hi)
  exact ⟨_, hf⟩

theorem key_eq (hf : self.find id = some s) : self.key id = order s := by
  unfold key
  rw [hf]
  rfl

theorem key_eq_iff (hf : self.find id = some s) : self.key id = order str ↔ s = str := by
  rw [key_eq hf]
  exact order_injective.eq_iff

theorem operand_eq (hf : self.find id = some s) (side : String) : self.operand id side = .ok s := by
  unfold operand
  rw [hf]

theorem lowerBound_eq (h : ∀ id ∈ ids, ∃ s, self.find id = some s) :
    self.lowerBound str ids = .ok (OrderedSet.lowerBound self.key (order str) ids) := by
  induction ids with
  | nil => rfl
  | cons id ids ih =>
    obtain ⟨s, hf⟩ := h id List.mem_cons_self
    unfold lowerBound OrderedSet.lowerBound
    rw [operand_eq hf, List.dropWhile_cons, key_eq hf]
    simp only [bind, Except.bind, order_lt, Bool.decide_eq_true]
    split
    · exact ih fun id hi => h id (List.mem_cons_of_mem _ hi)
    · rfl

theorem findStr_eq (h : ∀ id ∈ self.identifiers, ∃ s, self.find id = some s) :
    self.findStr str = .ok (OrderedSet.find self.key (order str) self.identifiers) := by
  unfold findStr OrderedSet.find
  rw [lowerBound_eq h]
  cases hl : OrderedSet.lowerBound self.key (order str) self.identifiers with
  | nil => rfl
  | cons id ids =>
    obtain ⟨s, hf⟩ := h id ((List.dropWhile_sublist _).mem (by
      unfold OrderedSet.lowerBound at hl
      rw [hl]
      exact List.mem_cons_self))
    simp only [bind, Except.bind, operand_eq hf, key_eq hf, order_lt, List.head?_cons, Option.filter_some,
      Bool.not_eq_true, decide_eq_true_eq]
    cases lessStr str s <;> rfl

theorem emplace_eq (hid : ∃ s, self.find id = some s) (h : ∀ id ∈ ids, ∃ s, self.find id = some s) :
    self.emplace id ids = .ok (OrderedSet.insert self.key id ids) := by
  obtain ⟨s, hs⟩ := hid
  induction ids with
  | nil => rfl
  | cons other ids ih =>
    obtain ⟨t, ht⟩ := h other List.mem_cons_self
    unfold emplace OrderedSet.insert less
    rw [ih fun id hi => h id (List.mem_cons_of_mem _ hi)]
    simp only [bind, Except.bind, operand_eq hs, operand_eq ht, key_eq hs, key_eq ht, order_lt, pure, Except.pure]
    cases lessStr s t <;> cases lessStr t s <;> rfl

/-- The search among the identifiers is exact. -/
theorem findStr_some (h : self.WellFormed) (hi : id ∈ self.identifiers) (hf : self.find id = some str) :
    self.findStr str = .ok (some id) := by
  rw [findStr_eq fun id hi => exists_find h hi]
  exact congrArg _ ((OrderedSet.find_eq_some h.sorted).mpr ⟨hi, key_eq hf⟩)

theorem findStr_none (h : self.WellFormed) (hn : ∀ id ∈ self.identifiers, self.find id ≠ some str) :
    self.findStr str = .ok none := by
  rw [findStr_eq fun id hi => exists_find h hi]
  refine congrArg _ ((OrderedSet.find_eq_none h.sorted).mpr fun id hi hk => ?_)
  obtain ⟨s, hf⟩ := exists_find h hi
  exact hn id hi (by rw [hf, (key_eq_iff hf).mp hk])

theorem order_le_of_infix (h : str <:+: s) : order str ≤ order s := by
  rcases Nat.lt_or_ge str.length s.length with hl | hl
  · exact (Prod.Lex.toLex_lt_toLex.mpr (.inl hl)).le
  · rw [h.eq_of_length (Nat.le_antisymm h.length_le hl)]

theorem contains_iff : ((self.find id).any fun s => (indexOf str s).isSome) = true ↔ self.Contains id str := by
  unfold Contains
  rw [Option.any_eq_true]
  refine exists_congr fun s => and_congr Iff.rfl ?_
  rw [← not_iff_not, Bool.not_eq_true, Option.isSome_eq_false_iff, Option.isNone_iff_eq_none, indexOf_eq_none]

/-- The search for a container finds one if there is one. -/
theorem longestContainerOf_some (h : self.WellFormed) (hc : ∃ id ∈ self.identifiers, self.Contains id str) :
    ∃ id ∈ self.identifiers, self.longestContainerOf str = .ok id ∧ self.Contains id str := by
  unfold longestContainerOf
  rw [lowerBound_eq fun id hi => exists_find h hi]
  obtain ⟨id, hi, hc⟩ := hc
  have hmem : id ∈ OrderedSet.lowerBound self.key (order str) self.identifiers := by
    obtain ⟨s, hf, hin⟩ := hc
    exact (OrderedSet.mem_lowerBound h.sorted).mpr ⟨hi, by rw [key_eq hf]; exact order_le_of_infix hin⟩
  simp only [bind, Except.bind, pure, Except.pure]
  cases hfd : (OrderedSet.lowerBound self.key (order str) self.identifiers).find? fun id =>
      (self.find id).any fun str' => (indexOf str str').isSome with
  | none => exact absurd (contains_iff.mpr hc) (List.find?_eq_none.mp hfd id hmem)
  | some id' =>
    have hin := (OrderedSet.mem_lowerBound h.sorted).mp (List.mem_of_find?_eq_some hfd)
    have hany := List.find?_some hfd
    exact ⟨id', hin.1, rfl, contains_iff.mp hany⟩

theorem longestContainerOf_none (h : self.WellFormed) (hc : ∀ id ∈ self.identifiers, ¬ self.Contains id str) :
    self.longestContainerOf str = .ok .invalid := by
  unfold longestContainerOf
  rw [lowerBound_eq fun id hi => exists_find h hi]
  simp only [bind, Except.bind, pure, Except.pure]
  rw [List.find?_eq_none.mpr fun id hi => ?_]
  · rfl
  · rw [contains_iff]
    exact hc id ((OrderedSet.mem_lowerBound h.sorted).mp hi).1

/-- A handle to a string without an identifier becomes one of the identifiers. -/
theorem addIdentifier_new (h : self.WellFormed) (hu : self.InUse id) (hf : self.find id = some s)
    (hn : ∀ other ∈ self.identifiers, self.find other ≠ some s) :
    ∃ identifiers, self.addIdentifier id = (.ok id, { self with identifiers := identifiers }) ∧
      (∀ other, other ∈ identifiers ↔ other = id ∨ other ∈ self.identifiers) ∧
      WellFormed { self with identifiers := identifiers } := by
  have hkey : ∀ other ∈ self.identifiers, self.key other ≠ self.key id := by
    intro other ho hk
    obtain ⟨t, ht⟩ := exists_find h ho
    rw [key_eq hf] at hk
    exact hn other ho (by rw [ht, (key_eq_iff ht).mp hk])
  obtain ⟨hfst, hmem, hsorted⟩ := OrderedSet.insert_new h.sorted hkey
  refine ⟨(OrderedSet.insert self.key id self.identifiers).2, ?_, hmem, h.sized, h.pages, fun other ho => ?_, hsorted⟩
  · unfold addIdentifier
    rw [emplace_eq ⟨s, hf⟩ fun id hi => exists_find h hi]
    simp only [hfst]
  · rcases (hmem other).mp ho with rfl | ho
    · exact hu
    · exact h.inUse other ho

/-- An insertion went well: the handle names `str`, and nothing that was there changed. -/
structure Inserted (pool pool' : StringPool) (id : PooledString) (str : List U8) : Prop where
  inv : Inv pool'
  grows : pool.allocator.Grows pool'.allocator
  mem : id ∈ pool'.identifiers
  kept : ∀ other ∈ pool.identifiers, other ∈ pool'.identifiers
  found : pool'.find id = some str

theorem InUse.grow (hu : self.InUse id) (hg : self.allocator.Grows self'.allocator) : self'.InUse id := by
  obtain ⟨page, hp, hl⟩ := hu
  obtain ⟨page', hp', hpre⟩ := hg _ _ hp
  exact ⟨page', hp', hl.trans hpre.2.1⟩

/-- A handle in use names the same string as pages grow. -/
theorem find_grow (h : self.WellFormed) (hu : self.InUse id) (hg : self.allocator.Grows self'.allocator) :
    self'.find id = self.find id := by
  obtain ⟨page, hp, hl, -, hf⟩ := find_inUse h hu
  obtain ⟨page', hp', hpre⟩ := hg _ _ hp
  have hsized := h.sized page (List.mem_of_getElem? hp)
  rw [hf, find_of_page (hu.valid h.pages) hp' (by rw [hpre.1]; exact hl.trans hsized.1), hpre.slice_eq hl]

/-- A string with an identifier is found again. -/
theorem insert_existing (h : self.WellFormed) (hi : id ∈ self.identifiers) (hf : self.find id = some str) :
    self.insert str terminator = (.ok id, self) := by
  unfold insert
  rw [findStr_some h hi hf]

theorem slice_part (f : Nat → U8) {base len i n : Nat} (h : i + n ≤ len) :
    ((slice f base len).drop i).take n = slice f (base + i) n := by
  obtain ⟨k, rfl⟩ : ∃ k, len = i + (n + k) := ⟨len - (i + n), by omega⟩
  rw [slice_add, slice_add, List.drop_left' (length_slice f base i), List.take_left' (length_slice f _ n)]

/-- The handle made for a part of the string behind another one. -/
theorem inUse_part {i : Nat} (h : self.WellFormed) (hu : self.InUse id) (hf : self.find id = some s)
    (hs : indexOf str s = some i) :
    let part : PooledString := ⟨id.page, BitVec.ofNat 16 (i + id.offset.toNat), BitVec.ofNat 16 str.length⟩
    self.InUse part ∧ self.find part = some str := by
  obtain ⟨page, hp, hl, hmax, hf'⟩ := find_inUse h hu
  obtain ⟨hle, htake⟩ := indexOf_eq_some hs
  obtain rfl := Option.some.inj (hf.symm.trans hf')
  rw [length_slice] at hle
  have hlen := id.length.isLt
  have hoff := id.offset.isLt
  unfold MAX_PAGE_SIZE at hmax
  have hi : i + id.offset.toNat < 2 ^ 16 := by
    by_cases he : str = []
    · rw [he, indexOf_nil] at hs
      have := Option.some.inj hs
      omega
    · have := List.length_pos_of_ne_nil he
      omega
  have ho : (BitVec.ofNat 16 (i + id.offset.toNat)).toNat = i + id.offset.toNat := Nat.mod_eq_of_lt hi
  have hn : (BitVec.ofNat 16 str.length).toNat = str.length := Nat.mod_eq_of_lt (by omega)
  have hu' : self.InUse ⟨id.page, BitVec.ofNat 16 (i + id.offset.toNat), BitVec.ofNat 16 str.length⟩ :=
    ⟨page, hp, by rw [ho, hn]; omega⟩
  refine ⟨hu', ?_⟩
  have hsized := h.sized page (List.mem_of_getElem? hp)
  rw [find_of_page (hu'.valid h.pages) hp (by have := hsized.1; rw [ho, hn]; omega), ho, hn]
  rw [slice_part page.data hle] at htake
  rw [Nat.add_comm i, htake]

/-- A part of a stored string becomes an identifier without a terminator. -/
theorem insert_contained (h : self.Inv) (hc : ∃ id ∈ self.identifiers, self.Contains id str) :
    ∃ id self', self.insert str terminator = (.ok id, self') ∧ self'.allocator = self.allocator ∧
      Inserted self self' id str := by
  by_cases he : ∃ id ∈ self.identifiers, self.find id = some str
  · obtain ⟨id, hi, hf⟩ := he
    exact ⟨id, self, insert_existing h.toWellFormed hi hf, rfl, h, Grows.refl _, hi, fun _ ho => ho, hf⟩
  · have hn : ∀ id ∈ self.identifiers, self.find id ≠ some str := fun id hi hf => he ⟨id, hi, hf⟩
    obtain ⟨super, hi, hl, s, hf, hin⟩ := longestContainerOf_some h.toWellFormed hc
    have hu := h.inUse super hi
    obtain ⟨i, hs⟩ : ∃ i, indexOf str s = some i := by
      rw [← Option.isSome_iff_exists, ← Option.ne_none_iff_isSome]
      exact fun h => indexOf_eq_none.mp h hin
    obtain ⟨hup, hfp⟩ := inUse_part h.toWellFormed hu hf hs
    obtain ⟨identifiers, ha, hmem, hwf⟩ := addIdentifier_new h.toWellFormed hup hfp hn
    refine ⟨_, { self with identifiers := identifiers }, ?_, rfl, ⟨hwf, fun he => ?_⟩, Grows.refl _,
      (hmem _).mpr (.inl rfl), fun o ho => (hmem o).mpr (.inr ho), ?_⟩
    · unfold insert
      rw [findStr_none h.toWellFormed hn, hl]
      simp only [if_pos (hu.valid h.pages), hf, Option.bind_some, hs, Option.getD_some]
      exact ha
    · have := (hmem _).mpr (.inl rfl)
      rw [show identifiers = [] from he] at this
      exact absurd this List.not_mem_nil
    · exact hfp

/-- Any other string is allocated. -/
theorem insert_uncontained (h : self.WellFormed) (hc : ∀ id ∈ self.identifiers, ¬ self.Contains id str) :
    self.insert str terminator = self.allocate str terminator := by
  unfold insert
  rw [findStr_none h fun id hi hf => hc id hi ⟨str, hf, List.infix_refl str⟩, longestContainerOf_none h hc]
  rfl

end StringPool

end Pepp.Bts

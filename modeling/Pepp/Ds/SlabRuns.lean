import Pepp.Ds.Slabs

/-!
# Runs of the allocator

A session remembers the offset that each allocation was given, moved by every
later insertion as its result says. A request above the size of a page is thrown
out and changes nothing. The others are served, and what they were given is
found again, as long as data is placed without padding in front of it, no page in
front of others takes padding, and a new page has room for the padding too.
-/

namespace Pepp.Slabs

open Span Bts

variable {α : Type}

inductive AllocOp (α : Type) where
  | append (data : List α) (align pad : Nat) (fill : α) (fresh : Fresh α)
  | allocateInitialized (size : Nat) (fill : α) (fresh : Fresh α)
  | allocateUninitialized (size : Nat) (fresh : Fresh α)
  | insert (data : List α) (align pad : Nat) (fill : α) (fresh : Fresh α)

/-- The offsets of the allocations so far and what was put there. -/
structure Session (α : Type) where
  alloc : PagedAllocator α
  live : List (Nat × List α)

namespace Session

def start : Session α := ⟨PagedAllocator.empty, []⟩

/-- Offsets from `adjustAbove` on are moved. -/
def adjust (r : InsertResult) (entry : Nat × List α) : Nat × List α :=
  (if r.adjustAbove ≤ entry.1 then entry.1 + r.adjustBy else entry.1, entry.2)

/-- What lies in the last elements in use, which is what uninitialized memory is taken to hold. -/
def lastElems (alloc : PagedAllocator α) (size : Nat) : List α :=
  match alloc.pages.getLast? with
  | some page => slice page.data (page.used - size) size
  | none => []

/-- The session behind a request at the end. -/
def extended (s : Session α) (data : PagedAllocator α → List α) :
    Except PoolError Nat × PagedAllocator α → Option PoolError × Session α
  | (.ok offset, alloc) => (none, ⟨alloc, (offset, data alloc) :: s.live⟩)
  | (.error e, alloc) => (some e, { s with alloc := alloc })

/-- A request, what it throws and the session behind it. -/
def step (elem : ElemType) (s : Session α) : AllocOp α → Option PoolError × Session α
  | .append data align pad fill fresh => s.extended (fun _ => data) (s.alloc.append elem data align pad fill fresh)
  | .allocateInitialized size fill fresh =>
    s.extended (fun _ => List.replicate size fill) (s.alloc.allocateInitialized size fill fresh)
  | .allocateUninitialized size fresh =>
    s.extended (fun alloc => lastElems alloc size) (s.alloc.allocateUninitialized size fresh)
  | .insert data align pad fill fresh =>
    match s.alloc.insert elem data align pad fill fresh with
    | (.ok r, alloc) => (none, ⟨alloc, (r.adjustAbove, data) :: s.live.map (adjust r)⟩)
    | (.error e, alloc) => (some e, { s with alloc := alloc })

def run (elem : ElemType) (ops : List (AllocOp α)) : Session α := ops.foldl (fun s op => (s.step elem op).2) start

/-- Every allocation is found where it was put, and the bases are the running sums of the sizes. -/
structure Sound (s : Session α) : Prop where
  found : ∀ entry ∈ s.live, s.alloc.get entry.1 entry.2.length = some entry.2
  bases : s.alloc.pageBase = (List.range s.alloc.pages.length).map (base s.alloc.pages)
  size : s.alloc.size = base s.alloc.pages s.alloc.pages.length

end Session

namespace AllocOp

/-- How many elements a request asks for. -/
def count : AllocOp α → Nat
  | .append data _ _ _ _ => data.length
  | .allocateInitialized size _ _ => size
  | .allocateUninitialized size _ => size
  | .insert data _ _ _ _ => data.length

/-- The sizes of a request do not run over 64 bits. -/
def Bounded (elem : ElemType) : AllocOp α → Prop
  | .append data align pad _ _ => Slabs.Bounded elem data.length align pad
  | .insert data align pad _ _ => Slabs.Bounded elem data.length align pad
  | _ => True

/-- No page can hold the request. -/
def Oversize (op : AllocOp α) : Prop := MAX_PAGE_SIZE < op.count

/-- A new page is aligned as the data asks, and has room for its padding. -/
def FreshFits (elem : ElemType) (data : List α) (align pad : Nat) (fresh : Fresh α) : Prop :=
  let page : Slab α := ⟨fresh.address, nearestPowerOfTwo (max DEFAULT_PAGE_SIZE data.length), 0, fresh.data⟩
  page.alignElems elem align = 0 ∧ page.canFit elem data.length align pad = true

/-- The place that the request is given needs no padding the offsets do not account for. -/
def Placeable (elem : ElemType) (alloc : PagedAllocator α) : AllocOp α → Prop
  | .append data align pad _ fresh =>
    match alloc.pages.getLast?.filter fun page => page.canFit elem data.length align pad with
    | some page => page.alignElems elem align = 0
    | none => FreshFits elem data align pad fresh
  | .insert data align pad _ fresh =>
    match alloc.pages.findFinIdx? fun page => page.canFit elem data.length align pad with
    | some it =>
      it.val + 1 = alloc.pages.length ∨ (alloc.pages.get it).paddedSize elem data.length align pad = data.length
    | none => FreshFits elem data align pad fresh
  | _ => True

/-- The request is too large for any page, or asks for something and can be placed. -/
def Fine (elem : ElemType) (alloc : PagedAllocator α) (op : AllocOp α) : Prop :=
  op.Bounded elem ∧ (op.Oversize ∨ 0 < op.count ∧ op.Placeable elem alloc)

end AllocOp

section Specs

variable {elem : ElemType} {self : PagedAllocator α} {data : List α} {align pad size : Nat} {fill : α} {fresh : Fresh α}

variable {page : Slab α}

/-- An append to a page that needs no padding in front. -/
theorem Slab.append_aligned (hs : page.Sized) (h : Slabs.Bounded elem data.length align pad)
    (hfit : page.canFit elem data.length align pad = true) (halign : page.alignElems elem align = 0) :
    ∃ page', page.append elem data align pad fill = .ok (page.used, page') ∧
      page.Grown page' (page.paddedSize elem data.length align pad) ∧ page.used + data.length ≤ page'.used ∧
      slice page'.data page.used data.length = data := by
  obtain ⟨page', happend, hgrown, hslice⟩ := @Slab.append_ok _ _ _ _ _ _ fill hs h hfit
  rw [halign, Nat.add_zero] at happend hslice
  refine ⟨page', happend, hgrown, ?_, hslice⟩
  have hbound : data.length + align + pad + elem.size ≤ 2 ^ 64 := by unfold Slabs.Bounded at h; omega
  rw [hgrown.more, Slab.paddedSize_eq page hbound]
  omega

/-- A page that fits is one of the pages. -/
theorem sized_of_filter (h : Tallied self) {fits : Slab α → Bool} {page : Slab α}
    (hlast : self.pages.getLast?.filter fits = some page) : page.Sized ∧ fits page = true := by
  obtain ⟨hpage, hfit⟩ := Option.filter_eq_some_iff.mp hlast
  exact ⟨h.sized page (List.mem_of_getLast? hpage), hfit⟩

/-- A page that was made for some data. -/
theorem fresh_home (hsize : size ≤ MAX_PAGE_SIZE) (fresh : Fresh α) : ∃ page : Slab α,
    Slab.create (max DEFAULT_PAGE_SIZE size) fresh = .ok page ∧ page.Sized ∧ size ≤ page.capacity ∧
      page = ⟨fresh.address, nearestPowerOfTwo (max DEFAULT_PAGE_SIZE size), 0, fresh.data⟩ := by
  obtain ⟨hcreate, hcap⟩ := Slab.create_ok hsize fresh
  have hlow := le_nearestPowerOfTwo (max DEFAULT_PAGE_SIZE size)
  exact ⟨_, hcreate, ⟨Nat.zero_le _, hcap⟩, Nat.le_trans (Nat.le_max_right _ _) hlow, rfl⟩

section

variable (h : Tallied self)
include h

/-- Data at the end goes to a page that fits it and needs no padding in front. -/
theorem append_home (hp : (AllocOp.append data align pad fill fresh).Placeable elem self)
    (hsize : data.length ≤ MAX_PAGE_SIZE) :
    ∃ page, self.Home (fun page => page.canFit elem data.length align pad) data.length fresh page ∧ page.Sized ∧
      page.canFit elem data.length align pad = true ∧ page.alignElems elem align = 0 := by
  cases hlast : self.pages.getLast?.filter fun page => page.canFit elem data.length align pad with
  | none =>
    rw [AllocOp.Placeable, hlast] at hp
    obtain ⟨page, hcreate, hsized, -, rfl⟩ := fresh_home hsize fresh
    exact ⟨_, .inr ⟨hlast, hcreate, rfl⟩, hsized, hp.2, hp.1⟩
  | some page =>
    rw [AllocOp.Placeable, hlast] at hp
    obtain ⟨hsized, hfit⟩ := sized_of_filter h hlast
    exact ⟨page, .inl hlast, hsized, hfit, hp⟩

/-- A request without data always fits. -/
theorem allocate_home (hsize : size ≤ MAX_PAGE_SIZE) (fresh : Fresh α) :
    ∃ page, self.Home (fun page => page.canFitSize size) size fresh page ∧ page.Sized ∧
      page.canFitSize size = true := by
  cases hlast : self.pages.getLast?.filter fun page => page.canFitSize size with
  | none =>
    obtain ⟨page, hcreate, hsized, hroom, rfl⟩ := fresh_home hsize fresh
    exact ⟨_, .inr ⟨hlast, hcreate, rfl⟩, hsized, decide_eq_true hroom⟩
  | some page =>
    obtain ⟨hsized, hfit⟩ := sized_of_filter h hlast
    exact ⟨page, .inl hlast, hsized, hfit⟩

theorem append_spec (hb : Slabs.Bounded elem data.length align pad)
    (hp : (AllocOp.append data align pad fill fresh).Placeable elem self) (hsize : data.length ≤ MAX_PAGE_SIZE) :
    ∃ alloc page page', self.append elem data align pad fill fresh = (.ok self.size, alloc) ∧
      self.Extended alloc page page' ∧ Placed alloc.pages self.size data := by
  obtain ⟨page, hhome, hsized, hfit, halign⟩ := append_home h hp hsize
  obtain ⟨page', hput, hgrown, hroom, hslice⟩ := @Slab.append_aligned _ _ _ _ _ fill _ hsized hb hfit halign
  obtain ⟨alloc, hrun, hext⟩ := PagedAllocator.extend_spec h hhome
    (fun page => page.append elem data align pad fill) hput hgrown
  exact ⟨alloc, page, page', hrun, hext, hext.here data hroom hslice⟩

theorem allocateInitialized_spec (hsize : size ≤ MAX_PAGE_SIZE) :
    ∃ alloc page page', self.allocateInitialized size fill fresh = (.ok self.size, alloc) ∧
      self.Extended alloc page page' ∧ Placed alloc.pages self.size (List.replicate size fill) := by
  obtain ⟨page, hhome, hsized, hfit⟩ := allocate_home h hsize fresh
  obtain ⟨page', hput, hgrown, hslice⟩ := @Slab.allocateInitialized_ok _ _ _ fill hsized hfit
  obtain ⟨alloc, hrun, hext⟩ := PagedAllocator.extend_spec h hhome
    (fun page => page.allocateInitialized size fill) hput hgrown
  refine ⟨alloc, page, page', hrun, hext, hext.here _ ?_ ?_⟩
  · rw [List.length_replicate, hgrown.more]
  · rw [List.length_replicate, hslice]

theorem allocateUninitialized_spec (hsize : size ≤ MAX_PAGE_SIZE) :
    ∃ alloc page page', self.allocateUninitialized size fresh = (.ok self.size, alloc) ∧
      self.Extended alloc page page' ∧ Placed alloc.pages self.size (Session.lastElems alloc size) ∧
      (Session.lastElems alloc size).length = size := by
  obtain ⟨page, hhome, hsized, hfit⟩ := allocate_home h hsize fresh
  obtain ⟨page', hput, hgrown⟩ := Slab.allocateUninitialized_ok hsized hfit
  obtain ⟨alloc, hrun, hext⟩ := PagedAllocator.extend_spec h hhome
    (fun page => page.allocateUninitialized size) hput hgrown
  have hlast : Session.lastElems alloc size = slice page'.data page.used size := by
    rw [Session.lastElems, hext.last]
    dsimp only
    rw [hgrown.more, Nat.add_sub_cancel]
  have hlen : (Session.lastElems alloc size).length = size := by rw [hlast, length_slice]
  refine ⟨alloc, page, page', hrun, hext, hext.here _ ?_ ?_, hlen⟩
  · rw [hlen, hgrown.more]
  · rw [hlen, hlast]

/-- Data inserted into a page moves everything behind that page. -/
theorem insert_page (hb : Slabs.Bounded elem data.length align pad) {it : Fin self.pages.length}
    (hit : self.pages.findFinIdx? (fun page => page.canFit elem data.length align pad) = some it)
    (hfit : (self.pages.get it).canFit elem data.length align pad = true)
    (hp : it.val + 1 = self.pages.length ∨ (self.pages.get it).paddedSize elem data.length align pad = data.length) :
    ∃ r alloc, self.insert elem data align pad fill fresh = (.ok r, alloc) ∧ Tallied alloc ∧
      Placed alloc.pages r.adjustAbove data ∧
      ∀ entry : Nat × List α, entry.2 ≠ [] → Placed self.pages entry.1 entry.2 →
        Placed alloc.pages (Session.adjust r entry).1 entry.2 := by
  rw [List.get_eq_getElem] at hfit hp
  have hat : self.pages[it.val]? = some self.pages[it.val] := List.getElem?_eq_getElem it.isLt
  have hsized := h.sized _ (List.getElem_mem it.isLt)
  obtain ⟨page, happend, hgrown, hslice⟩ := @Slab.append_ok _ _ _ _ _ _ fill hsized hb hfit
  have hbound : data.length + align + pad + elem.size ≤ 2 ^ 64 := by unfold Slabs.Bounded at hb; omega
  have htotal := Slab.paddedSize_eq self.pages[it.val] hbound
  have hbase : self.pageBase.getD it.val 0 = base self.pages it.val := by
    rw [h.bases]
    simp [List.getD_eq_getElem?_getD]
  have hnext := base_succ hat
  rw [PagedAllocator.insert, hit]
  simp only [Fin.getElem_fin]
  rw [happend, hbase]
  refine ⟨_, _, rfl, ⟨?_, ?_, ?_⟩, ?_, ?_⟩
  · intro p hp
    rcases List.mem_or_eq_of_mem_set hp with hp | rfl
    · exact h.sized p hp
    · exact hgrown.sized
  · dsimp only
    rw [h.bases, List.length_set]
    apply List.ext_getElem
    · simp
    · intro j hj _
      simp only [List.length_mapIdx, List.length_map, List.length_range] at hj
      have hset := base_set hat hgrown.more j
      simp only [List.getElem_mapIdx, List.getElem_map, List.getElem_range, hset]
      rcases hp with hlast | hsame
      · rw [if_neg (by omega), if_neg (by omega), Nat.add_zero]
      · rw [hsame]
        split <;> rfl
  · dsimp only
    rw [List.length_set, base_set hat hgrown.more, if_pos it.isLt, h.size]
  · refine ⟨it.val, page, _, List.getElem?_set_self it.isLt, ?_, ?_, hslice⟩
    · rw [base_set hat hgrown.more, if_neg (Nat.lt_irrefl _), Nat.add_zero]
    · rw [hgrown.more, htotal]
      omega
  · intro entry hne hplaced
    have hmoved := hplaced.set hne hat hgrown
    have hend := placed_le hplaced
    have hpos := List.length_pos_iff.mpr hne
    dsimp only [Session.adjust]
    -- either nothing is behind the page, or nothing lies between its end and the data
    rcases hp with hlast | hsame
    · rw [← hlast, hnext] at hend
      rw [if_neg (by omega)] at hmoved ⊢
      exact hmoved
    · rw [show self.pages[it.val].alignElems elem align = 0 by omega, Nat.add_zero]
      exact hmoved

/-- What an insertion leaves: its data is placed, and everything from its offset on has moved. -/
theorem insert_spec (hb : Slabs.Bounded elem data.length align pad)
    (hp : (AllocOp.insert data align pad fill fresh).Placeable elem self) (hsize : data.length ≤ MAX_PAGE_SIZE) :
    ∃ r alloc, self.insert elem data align pad fill fresh = (.ok r, alloc) ∧ Tallied alloc ∧
      Placed alloc.pages r.adjustAbove data ∧
      ∀ entry : Nat × List α, entry.2 ≠ [] → Placed self.pages entry.1 entry.2 →
        Placed alloc.pages (Session.adjust r entry).1 entry.2 := by
  cases hit : self.pages.findFinIdx? fun page => page.canFit elem data.length align pad with
  | some it =>
    rw [AllocOp.Placeable, hit] at hp
    exact insert_page h hb hit (List.findFinIdx?_eq_some_iff.mp hit).1 hp
  | none =>
    rw [AllocOp.Placeable, hit] at hp
    -- the last page does not fit either
    have hlast : self.pages.getLast?.filter (fun page => page.canFit elem data.length align pad) = none := by
      rw [Option.filter_eq_none_iff]
      intro page hpage
      exact List.findFinIdx?_eq_none_iff.mp hit page (List.mem_of_getLast? hpage)
    have happend : (AllocOp.append data align pad fill fresh).Placeable elem self := by
      rw [AllocOp.Placeable, hlast]
      exact hp
    obtain ⟨alloc, page, page', hrun, hext, hplaced⟩ := append_spec h hb happend hsize
    rw [PagedAllocator.insert, hit]
    dsimp only
    rw [hrun]
    refine ⟨_, _, rfl, hext.tallied, hplaced, ?_⟩
    intro entry hne hold
    have hkept := hext.kept entry.1 entry.2 hne hold
    simpa [Session.adjust] using hkept

end

/-- A page has no room for a request that is larger than a page can be. -/
theorem Slab.not_canFit (hs : page.Sized) (h : Slabs.Bounded elem size align pad) (hsize : MAX_PAGE_SIZE < size) :
    page.canFit elem size align pad = false := by
  have hbound : size + align + pad + elem.size ≤ 2 ^ 64 := by unfold Slabs.Bounded at h; omega
  have htotal := Slab.paddedSize_eq page hbound
  have hcap := hs.2
  rw [Slab.canFit, decide_eq_false_iff_not, Slab.remainingCapacity]
  omega

theorem Slab.not_canFitSize (hs : page.Sized) (hsize : MAX_PAGE_SIZE < size) : page.canFitSize size = false := by
  have hcap := hs.2
  rw [Slab.canFitSize, decide_eq_false_iff_not, Slab.remainingCapacity]
  omega

/-- A request for which no page can be made changes nothing. -/
theorem extend_oversize {fits : Slab α → Bool} (h : Tallied self)
    (hfits : ∀ page : Slab α, page.Sized → fits page = false) (hsize : MAX_PAGE_SIZE < size) (put : Slab α → Except PoolError (Nat × Slab α)) :
    self.extend fits size fresh put = (.error (.invalidArgument "Allocation larger than MAX_PAGE_SIZE"), self) := by
  have hlast : self.pages.getLast?.filter fits = none := by
    rw [Option.filter_eq_none_iff]
    intro page hpage
    simp [hfits page (h.sized page (List.mem_of_getLast? hpage))]
  rw [PagedAllocator.extend, hlast, Slab.create_oversize hsize]

end Specs

namespace Session

variable {elem : ElemType} {s : Session α} {op : AllocOp α}

/-- Every allocation is placed, and the bases are right. -/
structure Kept (s : Session α) : Prop where
  tallied : Tallied s.alloc
  placed : ∀ entry ∈ s.live, entry.2 ≠ [] ∧ Placed s.alloc.pages entry.1 entry.2

theorem Kept.sound (h : s.Kept) : s.Sound := by
  refine ⟨?_, h.tallied.bases, h.tallied.size⟩
  intro entry hentry
  obtain ⟨hne, hplaced⟩ := h.placed entry hentry
  exact PagedAllocator.get_placed h.tallied hplaced hne

theorem kept_start : (start : Session α).Kept := by
  refine ⟨⟨?_, rfl, rfl⟩, ?_⟩
  · intro page hpage
    exact absurd hpage List.not_mem_nil
  · intro entry hentry
    exact absurd hentry List.not_mem_nil

/-- What was placed stays so, and what is new is placed. -/
theorem Kept.extended (h : s.Kept) {alloc : PagedAllocator α} {page page' : Slab α} {offset : Nat} {data : List α}
    (hext : s.alloc.Extended alloc page page') (hne : data ≠ []) (hplaced : Placed alloc.pages offset data) :
    Kept ⟨alloc, (offset, data) :: s.live⟩ := by
  refine ⟨hext.tallied, ?_⟩
  intro entry hentry
  rcases List.mem_cons.mp hentry with rfl | hentry
  · exact ⟨hne, hplaced⟩
  · obtain ⟨hne', hplaced'⟩ := h.placed entry hentry
    exact ⟨hne', hext.kept _ _ hne' hplaced'⟩

/-- A request that is too large is thrown out. -/
theorem Kept.step_oversize (h : s.Kept) (hb : op.Bounded elem) (hover : op.Oversize) :
    s.step elem op = (some (.invalidArgument "Allocation larger than MAX_PAGE_SIZE"), s) := by
  cases op with
  | append data align pad fill fresh =>
    have hover : MAX_PAGE_SIZE < data.length := hover
    rw [step, PagedAllocator.append,
      extend_oversize h.tallied (fun page hs => Slab.not_canFit hs hb hover) hover]
    rfl
  | allocateInitialized size fill fresh =>
    have hover : MAX_PAGE_SIZE < size := hover
    rw [step, PagedAllocator.allocateInitialized,
      extend_oversize h.tallied (fun page hs => Slab.not_canFitSize hs hover) hover]
    rfl
  | allocateUninitialized size fresh =>
    have hover : MAX_PAGE_SIZE < size := hover
    rw [step, PagedAllocator.allocateUninitialized,
      extend_oversize h.tallied (fun page hs => Slab.not_canFitSize hs hover) hover]
    rfl
  | insert data align pad fill fresh =>
    have hover : MAX_PAGE_SIZE < data.length := hover
    have hnone : s.alloc.pages.findFinIdx? (fun page => page.canFit elem data.length align pad) = none := by
      rw [List.findFinIdx?_eq_none_iff]
      intro page hpage
      simp [Slab.not_canFit (h.tallied.sized page hpage) hb hover]
    rw [step, PagedAllocator.insert, hnone]
    dsimp only
    rw [PagedAllocator.append,
      extend_oversize h.tallied (fun page hs => Slab.not_canFit hs hb hover) hover]

/-- Any other is served. -/
theorem Kept.step_ok (h : s.Kept) (hb : op.Bounded elem) (hsize : op.count ≤ MAX_PAGE_SIZE) (hpos : 0 < op.count)
    (hp : op.Placeable elem s.alloc) : ∃ s', s.step elem op = (none, s') ∧ s'.Kept := by
  cases op with
  | append data align pad fill fresh =>
    obtain ⟨alloc, page, page', hrun, hext, hplaced⟩ := append_spec h.tallied hb hp hsize
    rw [step, hrun]
    exact ⟨_, rfl, h.extended hext (List.length_pos_iff.mp hpos) hplaced⟩
  | allocateInitialized size fill fresh =>
    have hsize : size ≤ MAX_PAGE_SIZE := hsize
    obtain ⟨alloc, page, page', hrun, hext, hplaced⟩ :=
      @allocateInitialized_spec _ _ _ fill fresh h.tallied hsize
    have hne : List.replicate size fill ≠ [] := by
      rw [← List.length_pos_iff, List.length_replicate]
      exact hpos
    rw [step, hrun]
    exact ⟨_, rfl, h.extended hext hne hplaced⟩
  | allocateUninitialized size fresh =>
    have hsize : size ≤ MAX_PAGE_SIZE := hsize
    obtain ⟨alloc, page, page', hrun, hext, hplaced, hlen⟩ :=
      @allocateUninitialized_spec _ _ _ fresh h.tallied hsize
    have hne : lastElems alloc size ≠ [] := by
      rw [← List.length_pos_iff, hlen]
      exact hpos
    rw [step, hrun]
    exact ⟨_, rfl, h.extended hext hne hplaced⟩
  | insert data align pad fill fresh =>
    obtain ⟨r, alloc, hrun, htallied, hplaced, hmoved⟩ := insert_spec h.tallied hb hp hsize
    rw [step, hrun]
    refine ⟨_, rfl, htallied, ?_⟩
    intro entry hentry
    rcases List.mem_cons.mp hentry with rfl | hentry
    · exact ⟨List.length_pos_iff.mp hpos, hplaced⟩
    · obtain ⟨old, hold, rfl⟩ := List.mem_map.mp hentry
      obtain ⟨hne, hplaced'⟩ := h.placed old hold
      exact ⟨hne, hmoved old hne hplaced'⟩

/-- What the requests of a run throw: nothing, but for those too large for a page, which change nothing. -/
def Answered (elem : ElemType) (s : Session α) (op : AllocOp α) : Prop :=
  (op.Oversize → s.step elem op = (some (.invalidArgument "Allocation larger than MAX_PAGE_SIZE"), s)) ∧
    (¬ op.Oversize → (s.step elem op).1 = none)

theorem Kept.step (h : s.Kept) (hfine : op.Fine elem s.alloc) :
    s.Answered elem op ∧ (s.step elem op).2.Kept := by
  obtain ⟨hb, hop⟩ := hfine
  by_cases hover : op.Oversize
  · have hstep := h.step_oversize hb hover
    exact ⟨⟨fun _ => hstep, fun hn => absurd hover hn⟩, by rw [hstep]; exact h⟩
  · obtain ⟨hpos, hp⟩ := hop.resolve_left hover
    obtain ⟨s', hstep, hkept⟩ := h.step_ok hb (Nat.not_lt.mp hover) hpos hp
    exact ⟨⟨fun ho => absurd ho hover, fun _ => by rw [hstep]⟩, by rw [hstep]; exact hkept⟩

/-- Each request can be served where it comes in the run. -/
def FineRun (elem : ElemType) (ops : List (AllocOp α)) : Prop :=
  ∀ (done : List (AllocOp α)) (op : AllocOp α), done ++ [op] <+: ops → op.Fine elem (run elem done).alloc

theorem run_snoc (ops : List (AllocOp α)) (op : AllocOp α) :
    run elem (ops ++ [op]) = ((run elem ops).step elem op).2 := by
  rw [run, List.foldl_append]
  rfl

theorem fineRun_nil : FineRun elem ([] : List (AllocOp α)) := by
  intro done op h
  simp at h

theorem FineRun.snoc {ops : List (AllocOp α)} (h : FineRun elem ops) (hop : op.Fine elem (run elem ops).alloc) :
    FineRun elem (ops ++ [op]) := by
  intro done op' hd
  rcases List.prefix_concat_iff.mp hd with heq | hd
  · obtain ⟨rfl, rfl⟩ := List.append_singleton_inj.mp heq
    exact hop
  · exact h done op' hd

theorem run_kept {ops : List (AllocOp α)} (h : FineRun elem ops) : (run elem ops).Kept := by
  induction ops using List.reverseRecOn with
  | nil => exact kept_start
  | append_singleton ops op ih =>
    have hkept := ih fun done op' hd => h done op' (hd.trans (List.prefix_append _ _))
    rw [run_snoc]
    exact (hkept.step (h ops op (List.prefix_refl _))).2

/-- Whatever is asked for, in any order, is found where it was put, and only what no page can hold is thrown out. -/
theorem run_sound (elem : ElemType) (ops : List (AllocOp α)) (h : FineRun elem ops) :
    (run elem ops).Sound ∧
      ∀ (done : List (AllocOp α)) (op : AllocOp α), done ++ [op] <+: ops → (run elem done).Answered elem op := by
  refine ⟨(run_kept h).sound, ?_⟩
  intro done op hd
  have hdone : FineRun elem done := fun done' op' hd' =>
    h done' op' ((hd'.trans (List.prefix_append done [op])).trans hd)
  exact ((run_kept hdone).step (h done op hd)).1

/-- Seven bytes go to a second page, and move when a byte is put into what is left of the first one. -/
theorem run_sound_shifted :
    let byte : ElemType := ⟨1, 1, Nat.one_pos⟩
    let fresh : Fresh U8 := ⟨4096, fun _ => 0⟩
    let ops := [] ++ [.allocateInitialized 4090 0 fresh] ++ [.append [1, 2, 3, 4, 5, 6, 7] 1 2 0 fresh] ++
      [.insert [9] 2 0 0 fresh] ++ [.allocateUninitialized 65537 fresh]
    (run byte ops).live.map Prod.fst = [4090, 4091, 0] ∧ (run byte ops).Sound := by
  refine ⟨by decide, (run_sound _ _ ?_).1⟩
  refine (((fineRun_nil.snoc ?_).snoc ?_).snoc ?_).snoc ?_
  · exact ⟨trivial, .inr ⟨by decide, trivial⟩⟩
  · exact ⟨by simp [AllocOp.Bounded, Slabs.Bounded, MAX_PAGE_SIZE], .inr ⟨by decide, rfl, rfl⟩⟩
  · exact ⟨by simp [AllocOp.Bounded, Slabs.Bounded, MAX_PAGE_SIZE], .inr ⟨by decide, .inr rfl⟩⟩
  · exact ⟨trivial, .inl (by simp [AllocOp.Oversize, AllocOp.count, MAX_PAGE_SIZE])⟩

/-- Not every size is served: one element more than the largest page is thrown out of an empty allocator. -/
theorem not_every_size_served :
    (start.step ⟨1, 1, Nat.one_pos⟩ (.allocateUninitialized 65537 ⟨4096, fun _ => (0 : U8)⟩)).1 =
      some (.invalidArgument "Allocation larger than MAX_PAGE_SIZE") := by
  have hover : AllocOp.Oversize (.allocateUninitialized 65537 ⟨4096, fun _ => (0 : U8)⟩) := by
    simp [AllocOp.Oversize, AllocOp.count, MAX_PAGE_SIZE]
  rw [kept_start.step_oversize _ hover]
  trivial

end Session

end Pepp.Slabs

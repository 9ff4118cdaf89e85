import Pepp.Ds.SlabRuns
import Pepp.Elf.CombiningStorage

/-!
# Storages of strings

The two storages that grow, one vector and the pages of an allocator, with the
operations that string tables use. Bytes that were allocated lie together, in
one page, so that what is written there is read back.
-/

namespace Pepp.Elf

open Span Bts Slabs

/-- What adding a string can end with. -/
inductive StorageError where
  | pool (e : PoolError)
  | outOfRange (what : String)
  /-- The standard says nothing about what happens. -/
  | undefined
  deriving DecidableEq, Repr

def byteElem : ElemType := ⟨1, 1, Nat.one_pos⟩

inductive StringStorage where
  | block (bytes : List U8)
  | paged (allocator : PagedAllocator U8)

/-- The bytes of a page that are in use. -/
def usedBytes (page : Slab U8) : List U8 := slice page.data 0 page.used

/-- A write that may go over the ends of pages. It does not end where nothing can be written. -/
def writePages : Nat → PagedAllocator U8 → Nat → List U8 → Except StorageError Unit × PagedAllocator U8
  | _, allocator, _, [] => (.ok (), allocator)
  | 0, allocator, _, _ :: _ => (.error .undefined, allocator)
  | fuel + 1, allocator, offset, b :: data =>
    match allocator.indicesForOffset offset with
    | .error e => (.error (.pool e), allocator)
    | .ok (pageIndex, pageOffset) =>
      match allocator.pages[pageIndex]? with
      | none => (.error .undefined, allocator)
      | some page =>
        let toWrite := min (b :: data).length (page.used - pageOffset)
        let page := { page with data := overwrite page.data pageOffset ((b :: data).take toWrite) }
        writePages fuel { allocator with pages := allocator.pages.set pageIndex page } (offset + toWrite)
          ((b :: data).drop toWrite)

namespace StringStorage

variable (self : StringStorage)

def toLeaf : Leaf :=
  match self with
  | .block bytes => .block bytes
  | .paged allocator => .paged (allocator.pages.map usedBytes)

def size : Nat :=
  match self with
  | .block bytes => bytes.length
  | .paged allocator => allocator.size

def append (data : List U8) (fresh : Fresh U8) : Except PoolError Nat × StringStorage :=
  match self with
  | .block bytes => (.ok bytes.length, .block (bytes ++ data))
  | .paged allocator =>
    let (offset, allocator) := allocator.append byteElem data 0 0 0 fresh
    (offset, .paged allocator)

def allocate (size : Nat) (fill : U8) (fresh : Fresh U8) : Except PoolError Nat × StringStorage :=
  match self with
  | .block bytes => (.ok bytes.length, .block (bytes ++ List.replicate size fill))
  | .paged allocator =>
    let (offset, allocator) := allocator.allocateInitialized size fill fresh
    (offset, .paged allocator)

def set (offset : Nat) (data : List U8) : Except StorageError Unit × StringStorage :=
  match self with
  | .block bytes =>
    if bytes.length < addSize offset data.length then (.error (.outOfRange "BlockStorage::set out of range"), self)
    else (.ok (), .block (bytes.take offset ++ data ++ bytes.drop (offset + data.length)))
  | .paged allocator =>
    let (result, allocator) := writePages data.length allocator offset data
    (result, .paged allocator)

/-- None is a program that an exception has ended: the function is `noexcept`. -/
def get (offset length : Nat) : Option (List U8) :=
  match self with
  | .block bytes => some (if bytes.length < addSize offset length then [] else (bytes.drop offset).take length)
  | .paged allocator => allocator.get offset length

/-- How many bytes there are in front of a zero, or of the end. -/
def strlen (offset : Nat) : Option Nat :=
  match self with
  | .block bytes => some ((bytes.drop offset).takeWhile (· != 0)).length
  | .paged allocator =>
    if allocator.size ≤ offset then some 0
    else
      match allocator.indicesForOffset offset with
      | .error _ => none
      | .ok (pageIndex, pageOffset) =>
        some ((((allocator.pages.drop pageIndex).map usedBytes).flatten.drop pageOffset).takeWhile (· != 0)).length

def find (needle : List U8) : Nat := self.toLeaf.find needle

/-! ## What lies in a storage -/

/-- The bases of the pages are the running sums of their sizes. -/
def Sound : Prop :=
  match self with
  | .block _ => True
  | .paged allocator => Tallied allocator

/-- The data lies at the offset, within one page. -/
def Holds (offset : Nat) (data : List U8) : Prop :=
  match self with
  | .block bytes => data <+: bytes.drop offset
  | .paged allocator => Slabs.Placed allocator.pages offset data

/-- A request that the storage refuses: a page is not made as large as that. -/
def Refuses (request : Nat) : Prop :=
  match self with
  | .block _ => False
  | .paged _ => MAX_PAGE_SIZE < request

section Specs

variable {self : StringStorage} {offset n : Nat} {data : List U8} {fill : U8} {fresh : Fresh U8}

theorem drop_prefix_append {bytes : List U8} (hne : data ≠ []) (h : data <+: bytes.drop offset) (rest : List U8) :
    data <+: (bytes ++ rest).drop offset := by
  have hpos := List.length_pos_iff.mpr hne
  have hlen := h.length_le
  rw [List.length_drop] at hlen
  rw [List.drop_append_of_le_length (by omega)]
  exact h.trans (List.prefix_append _ _)

/-- What lies in a storage ends with it at the latest. -/
theorem Holds.le_size (hs : self.Sound) (h : self.Holds offset data) (hne : data ≠ []) :
    offset + data.length ≤ self.size := by
  have hpos := List.length_pos_iff.mpr hne
  cases self with
  | block bytes =>
    have hlen := List.IsPrefix.length_le h
    rw [List.length_drop] at hlen
    exact (by omega : offset + data.length ≤ bytes.length)
  | paged allocator =>
    have hend := placed_le h
    rw [← hs.size] at hend
    exact hend

/-- The storage behind a request: longer by `n` bytes, with everything that was there. -/
structure Longer (old st : StringStorage) (n : Nat) : Prop where
  sound : st.Sound
  size : st.size = old.size + n
  kept : ∀ offset data, data ≠ [] → old.Holds offset data → st.Holds offset data
  refuses : ∀ request, st.Refuses request ↔ old.Refuses request

variable {allocator : PagedAllocator U8}

theorem longer_of_home (hs : Tallied allocator) {fits : Slab U8 → Bool} {request o : Nat} {page page' : Slab U8}
    (hhome : allocator.Home fits request fresh page) (put : Slab U8 → Except PoolError (Nat × Slab U8))
    (hput : put page = .ok (o, page')) (hgrown : page.Grown page' n) :
    ∃ alloc, allocator.extend fits request fresh put = (.ok allocator.size, alloc) ∧
      (paged allocator).Longer (.paged alloc) n ∧ allocator.Extended alloc page page' := by
  obtain ⟨alloc, hrun, hext⟩ := PagedAllocator.extend_spec hs hhome put hput hgrown
  have hsize := PagedAllocator.extend_size hhome put hput hgrown.more
  rw [hrun] at hsize
  exact ⟨alloc, hrun, ⟨hext.tallied, hsize, hext.kept, fun _ => Iff.rfl⟩, hext⟩

/-- One byte fits every new page. -/
theorem byte_placeable (allocator : PagedAllocator U8) (b : U8) (fresh : Fresh U8) :
    (AllocOp.append [b] 0 0 0 fresh).Placeable byteElem allocator := by
  rw [AllocOp.Placeable]
  split
  · rfl
  · refine ⟨rfl, decide_eq_true ?_⟩
    have hlow := le_nearestPowerOfTwo (max DEFAULT_PAGE_SIZE 1)
    unfold DEFAULT_PAGE_SIZE at hlow
    exact (by omega : 1 ≤ nearestPowerOfTwo (max 4096 1) - 0)

theorem append_longer (hs : self.Sound) (b : U8) (fresh : Fresh U8) :
    ∃ st, self.append [b] fresh = (.ok self.size, st) ∧ self.Longer st 1 := by
  cases self with
  | block bytes =>
    refine ⟨_, rfl, trivial, List.length_append, fun offset data hne h => ?_, fun _ => Iff.rfl⟩
    exact drop_prefix_append hne h _
  | paged allocator =>
    have hbounded : Slabs.Bounded byteElem [b].length 0 0 := by
      unfold Slabs.Bounded MAX_PAGE_SIZE
      exact (by decide : 1 + 0 + 0 + 1 + 65536 ≤ 2 ^ 64)
    have hmax : [b].length ≤ MAX_PAGE_SIZE := (by decide : 1 ≤ 65536)
    obtain ⟨page, hhome, hsized, hfit, halign⟩ := append_home hs (byte_placeable allocator b fresh) hmax
    obtain ⟨page', hput, hgrown, -, -⟩ := @Slab.append_aligned _ _ _ _ _ 0 _ hsized hbounded hfit halign
    obtain ⟨alloc, hrun, hlonger, -⟩ := longer_of_home hs hhome (fun page => page.append byteElem [b] 0 0 0) hput hgrown
    refine ⟨.paged alloc, ?_, hlonger⟩
    rw [append, Slabs.PagedAllocator.append, hrun]
    rfl

/-- Bytes are allocated at the end. -/
theorem allocate_longer (hs : self.Sound) (hn : ¬ self.Refuses n) (fill : U8) (fresh : Fresh U8) :
    ∃ st, self.allocate n fill fresh = (.ok self.size, st) ∧ self.Longer st n ∧
      st.Holds self.size (List.replicate n fill) := by
  cases self with
  | block bytes =>
    refine ⟨_, rfl, ⟨trivial, ?_, fun offset data hne h => drop_prefix_append hne h _, fun _ => Iff.rfl⟩, ?_⟩
    · rw [size, size, List.length_append, List.length_replicate]
    · rw [Holds, size, List.drop_left]
  | paged allocator =>
    have hmax : n ≤ MAX_PAGE_SIZE := Nat.not_lt.mp hn
    obtain ⟨page, hhome, hsized, hfit⟩ := allocate_home hs hmax fresh
    obtain ⟨page', hput, hgrown, hslice⟩ := @Slab.allocateInitialized_ok _ _ _ fill hsized hfit
    obtain ⟨alloc, hrun, hlonger, hext⟩ := longer_of_home hs hhome
      (fun page => page.allocateInitialized n fill) hput hgrown
    refine ⟨.paged alloc, ?_, hlonger, hext.here _ ?_ ?_⟩
    · rw [allocate, Slabs.PagedAllocator.allocateInitialized, hrun]
      rfl
    · rw [List.length_replicate, hgrown.more]
    · rw [List.length_replicate, hslice]

/-- A request that is refused changes nothing. -/
theorem allocate_refused (hs : self.Sound) (hn : self.Refuses n) (fill : U8) (fresh : Fresh U8) :
    self.allocate n fill fresh = (.error (.invalidArgument "Allocation larger than MAX_PAGE_SIZE"), self) := by
  cases self with
  | block bytes => exact hn.elim
  | paged allocator =>
    have hover : MAX_PAGE_SIZE < n := hn
    rw [allocate, Slabs.PagedAllocator.allocateInitialized,
      extend_oversize hs (fun page hpage => Slab.not_canFitSize hpage hover) hover]

/-- Data in front of everything that has changed. -/
theorem drop_prefix_of_take_eq {bytes bytes' : List U8} {m : Nat} (h : bytes'.take m = bytes.take m)
    (hm : offset + data.length ≤ m) (hd : data <+: bytes.drop offset) : data <+: bytes'.drop offset := by
  rw [List.prefix_iff_eq_take, List.take_drop] at hd ⊢
  have htake : ∀ l : List U8, l.take (offset + data.length) = (l.take m).take (offset + data.length) := fun l => by
    rw [List.take_take, Nat.min_eq_left hm]
  rw [htake, h, ← htake, ← hd]

/-- What a write within data leaves: the data with the new bytes, and everything in front of them. -/
structure Rewritten (old st : StringStorage) (offset : Nat) (front data back : List U8) : Prop where
  sound : st.Sound
  size : st.size = old.size
  here : st.Holds offset (front ++ data ++ back)
  kept : ∀ offset' data', data' ≠ [] → offset' + data'.length ≤ offset + front.length → old.Holds offset' data' →
    st.Holds offset' data'

theorem set_block {bytes front old back : List U8} (h : (block bytes).Holds offset (front ++ old ++ back))
    (hlen : data.length = old.length) (hend : offset + (front.length + old.length + back.length) ≤ bytes.length)
    (hroom : bytes.length < 2 ^ 64) :
    ∃ st, (block bytes).set (offset + front.length) data = (.ok (), st) ∧
      (block bytes).Rewritten st offset front data back := by
  have hadd : addSize (offset + front.length) data.length = offset + front.length + data.length := addSize_eq (by omega)
  obtain ⟨pre, rest, hpre, rfl⟩ :
      ∃ pre rest, pre.length = offset ∧ bytes = pre ++ (front ++ (old ++ (back ++ rest))) := by
    obtain ⟨rest, hrest⟩ := h
    refine ⟨bytes.take offset, rest, List.length_take_of_le (by omega), ?_⟩
    rw [← List.append_assoc old, ← List.append_assoc front, ← List.append_assoc front, hrest, List.take_append_drop]
  have htake : (pre ++ (front ++ (old ++ (back ++ rest)))).take (offset + front.length) = pre ++ front := by
    rw [← List.append_assoc]
    exact List.take_left' (by rw [List.length_append, hpre])
  have hdrop :
      (pre ++ (front ++ (old ++ (back ++ rest)))).drop (offset + front.length + data.length) = back ++ rest := by
    rw [← List.append_assoc, ← List.append_assoc]
    exact List.drop_left' (by rw [List.length_append, List.length_append, hpre, hlen])
  rw [set, if_neg (by omega), htake, hdrop]
  refine ⟨_, rfl, trivial, ?_, ?_, ?_⟩
  · simp only [size, List.length_append, hlen, Nat.add_assoc]
  · have hregroup : pre ++ front ++ data ++ (back ++ rest) = pre ++ (front ++ data ++ back ++ rest) := by
      simp only [List.append_assoc]
    rw [Holds, hregroup, List.drop_left' hpre]
    exact List.prefix_append _ _
  · intro offset' data' _ hle hheld
    refine drop_prefix_of_take_eq ?_ hle hheld
    rw [htake, List.append_assoc]
    exact List.take_left' (by rw [List.length_append, hpre])

theorem writePages_page (hs : Tallied allocator) {i o : Nat} {page : Slab U8} (hp : allocator.pages[i]? = some page)
    (hne : data ≠ []) (hfit : o + data.length ≤ page.used) :
    writePages data.length allocator (base allocator.pages i + o) data =
      (.ok (), { allocator with
        pages := allocator.pages.set i { page with data := overwrite page.data o data } }) := by
  cases data with
  | nil => exact absurd rfl hne
  | cons b data =>
    rw [List.length_cons] at hfit ⊢
    have hwrite : min (b :: data).length (page.used - o) = (b :: data).length := by
      rw [List.length_cons]
      omega
    rw [writePages, PagedAllocator.indicesForOffset_page hs hp (by omega)]
    simp only [hp, hwrite, List.take_length, List.drop_length, writePages]

theorem set_paged (hs : Tallied allocator) {front old back : List U8}
    (h : (paged allocator).Holds offset (front ++ old ++ back)) (hlen : data.length = old.length) (hne : data ≠ []) :
    ∃ st, (paged allocator).set (offset + front.length) data = (.ok (), st) ∧
      (paged allocator).Rewritten st offset front data back := by
  obtain ⟨i, page, o, hp, rfl, hfit, hdata⟩ := h
  rw [List.length_append, List.length_append] at hfit hdata
  rw [slice_add, slice_add] at hdata
  obtain ⟨hdata, hback⟩ := List.append_inj hdata (by simp)
  obtain ⟨hfront, -⟩ := List.append_inj hdata (by simp)
  rw [set, Nat.add_assoc, writePages_page hs hp hne (by omega)]
  obtain ⟨hi, -⟩ := List.getElem?_eq_some_iff.mp hp
  let page' : Slab U8 := { page with data := overwrite page.data (o + front.length) data }
  have hbase := base_set hp (show page'.used = page.used + 0 from rfl) i
  rw [ite_self, Nat.add_zero] at hbase
  refine ⟨.paged { allocator with pages := allocator.pages.set i page' }, rfl,
    hs.rewrite hp rfl (hs.sized page (List.mem_of_getElem? hp)), rfl, ?_, ?_⟩
  · refine ⟨i, page', o, List.getElem?_set_self hi, by rw [hbase], ?_, ?_⟩
    · rw [List.length_append, List.length_append, hlen]
      exact hfit
    · have hfront' : slice page'.data o front.length = front :=
        (slice_overwrite_disjoint _ _ _ _ _ (.inl le_rfl)).trans hfront
      have hback' : slice page'.data (o + (front.length + data.length)) back.length = back := by
        rw [hlen]
        exact (slice_overwrite_disjoint _ _ _ _ _ (.inr (by rw [hlen, Nat.add_assoc]))).trans hback
      rw [List.length_append, List.length_append, slice_add, slice_add, hfront', hback']
      exact congrArg (front ++ · ++ back) (slice_overwrite _ _ _)
  · intro offset' data' _ hle hheld
    refine Slabs.Placed.rewrite hheld hp rfl fun o' ho' => ?_
    exact slice_overwrite_disjoint _ _ _ _ _ (.inl (by omega))

/-- Bytes within data that lies in the storage are replaced. -/
theorem set_spec (hs : self.Sound) {front old back : List U8} (h : self.Holds offset (front ++ old ++ back))
    (hlen : data.length = old.length) (hne : data ≠ []) (hroom : self.size < 2 ^ 64) :
    ∃ st, self.set (offset + front.length) data = (.ok (), st) ∧ self.Rewritten st offset front data back := by
  have hall : front ++ old ++ back ≠ [] := by
    have hpos := List.length_pos_iff.mpr hne
    rw [← List.length_pos_iff, List.length_append, List.length_append]
    omega
  have hend := h.le_size hs hall
  rw [List.length_append, List.length_append] at hend
  cases self with
  | block bytes => exact set_block h hlen hend hroom
  | paged allocator => exact set_paged hs h hlen hne

theorem takeWhile_terminated {s : List U8} (hs0 : ∀ c ∈ s, c ≠ 0) (rest : List U8) :
    (s ++ 0 :: rest).takeWhile (· != 0) = s := by
  rw [List.takeWhile_append_of_pos fun c hc => bne_iff_ne.mpr (hs0 c hc), List.takeWhile_cons_of_neg (by decide),
    List.append_nil]

/-- A string with its terminator is read back. -/
theorem read_spec (hs : self.Sound) {s : List U8} (hs0 : ∀ c ∈ s, c ≠ 0) (h : self.Holds offset (s ++ [0]))
    (hroom : self.size < 2 ^ 64) : self.strlen offset = some s.length ∧ self.get offset s.length = some s := by
  cases self with
  | block bytes =>
    obtain ⟨rest, hrest⟩ := h
    have hend : offset + (s.length + 1) ≤ bytes.length := by
      have hlen := congrArg List.length hrest
      simp only [List.length_append, List.length_singleton, List.length_drop] at hlen
      omega
    change bytes.length < 2 ^ 64 at hroom
    rw [List.append_assoc, List.singleton_append] at hrest
    rw [strlen, get, ← hrest, takeWhile_terminated hs0, if_neg (by rw [addSize_eq (by omega)]; omega),
      List.take_left' rfl]
    exact ⟨rfl, rfl⟩
  | paged allocator =>
    have hne : s ++ [0] ≠ [] := List.append_ne_nil_of_right_ne_nil _ (List.cons_ne_nil _ _)
    have hget := PagedAllocator.get_placed_take hs h hne (k := s.length) (by simp)
    rw [List.take_left' rfl] at hget
    refine ⟨?_, hget⟩
    have hend := Holds.le_size hs h hne
    rw [List.length_append, List.length_singleton] at hend
    change _ ≤ allocator.size at hend
    obtain ⟨i, page, o, hp, rfl, hfit, hdata⟩ := h
    rw [List.length_append, List.length_singleton] at hfit hdata
    obtain ⟨hi, hpage⟩ := List.getElem?_eq_some_iff.mp hp
    have hused : (usedBytes page).drop o =
        s ++ 0 :: slice page.data (o + (s.length + 1)) (page.used - (o + (s.length + 1))) := by
      rw [usedBytes, slice_drop _ _ (by omega), Nat.zero_add,
        show page.used - o = s.length + 1 + (page.used - (o + (s.length + 1))) by omega, slice_add, hdata,
        List.append_assoc, List.singleton_append]
    rw [strlen, if_neg (by omega), PagedAllocator.indicesForOffset_page hs hp (by omega)]
    simp only [Option.some_inj]
    rw [List.drop_eq_getElem_cons hi, hpage, List.map_cons, List.flatten_cons,
      List.drop_append_of_le_length (by rw [usedBytes, length_slice]; omega), hused, List.append_assoc,
      List.cons_append,
      takeWhile_terminated hs0]

end Specs

end StringStorage

end Pepp.Elf

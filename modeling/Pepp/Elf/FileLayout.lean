import Pepp.Elf.Storage
import Pepp.Elf.SymbolTable
import Pepp.Lib.Endian

/-!
# The layout of a file

`calculate_layout` puts the header first, then the section header table, the
program header table and the data of the sections, each at an offset aligned for
it. Then the constraints are gone through, and each that names sections sets a
program header, and the addresses of those of its sections that have none yet.
-/

namespace Pepp.Elf

open Endian Patches

variable {b : ElfBits}

/-! ## Headers -/

structure Ehdr (b : ElfBits) where
  eIdent : Vector U8 16
  eType : U16 := 0
  eMachine : U16 := 0
  eVersion : U32 := 0
  eEntry : Word b := 0
  ePhoff : Word b := 0
  eShoff : Word b := 0
  eFlags : U32 := 0
  eEhsize : U16 := 0
  ePhentsize : U16 := 0
  ePhnum : U16 := 0
  eShentsize : U16 := 0
  eShnum : U16 := 0
  eShstrndx : U16 := 0

structure Shdr (b : ElfBits) where
  shName : U32 := 0
  shType : U32 := 0
  shFlags : Word b := 0
  shAddr : Word b := 0
  shOffset : Word b := 0
  shSize : Word b := 0
  shLink : U32 := 0
  shInfo : U32 := 0
  shAddralign : Word b := 0
  shEntsize : Word b := 0

structure Phdr (b : ElfBits) where
  pType : U32 := 0
  pFlags : U32 := 0
  pOffset : Word b := 0
  pVaddr : Word b := 0
  pPaddr : Word b := 0
  pFilesz : Word b := 0
  pMemsz : Word b := 0
  pAlign : Word b := 0

/-- Fields of these many bytes one after another. -/
def pack (o : Order) (fields : List (Nat × Nat)) : List U8 := fields.flatMap fun f => encode o f.1 f.2

def wordSize : ElfBits → Nat
  | .b32 => 4
  | .b64 => 8

def Ehdr.bytes (o : Order) (h : Ehdr b) : List U8 :=
  h.eIdent.toList ++ pack o [(2, h.eType.toNat), (2, h.eMachine.toNat), (4, h.eVersion.toNat),
    (wordSize b, h.eEntry.toNat), (wordSize b, h.ePhoff.toNat), (wordSize b, h.eShoff.toNat), (4, h.eFlags.toNat),
    (2, h.eEhsize.toNat), (2, h.ePhentsize.toNat), (2, h.ePhnum.toNat), (2, h.eShentsize.toNat), (2, h.eShnum.toNat),
    (2, h.eShstrndx.toNat)]

def Shdr.bytes (o : Order) (h : Shdr b) : List U8 :=
  pack o [(4, h.shName.toNat), (4, h.shType.toNat), (wordSize b, h.shFlags.toNat), (wordSize b, h.shAddr.toNat),
    (wordSize b, h.shOffset.toNat), (wordSize b, h.shSize.toNat), (4, h.shLink.toNat), (4, h.shInfo.toNat),
    (wordSize b, h.shAddralign.toNat), (wordSize b, h.shEntsize.toNat)]

/-- The flags are at different places in the two kinds of files. -/
def Phdr.bytes (o : Order) (h : Phdr b) : List U8 :=
  let words := [h.pOffset, h.pVaddr, h.pPaddr, h.pFilesz, h.pMemsz]
  match b with
  | .b32 => pack o ((4, h.pType.toNat) :: words.map (fun w => (4, w.toNat)) ++ [(4, h.pFlags.toNat), (4, h.pAlign.toNat)])
  | .b64 => pack o ((4, h.pType.toNat) :: (4, h.pFlags.toNat) :: words.map (fun w => (8, w.toNat)) ++ [(8, h.pAlign.toNat)])

/-- `sizeof(PackedElfEhdr<B, E>)` -/
def ehdrSize : ElfBits → Nat
  | .b32 => 52
  | .b64 => 64

/-- `sizeof(PackedElfShdr<B, E>)` -/
def shdrSize : ElfBits → Nat
  | .b32 => 40
  | .b64 => 64

/-- `sizeof(PackedElfPhdr<B, E>)` -/
def phdrSize : ElfBits → Nat
  | .b32 => 32
  | .b64 => 56

structure PackedElf (b : ElfBits) where
  header : Ehdr b
  sectionHeaders : List (Shdr b)
  programHeaders : List (Phdr b)
  sectionData : List AStorage

/-! ## Items -/

/-- What an item of a layout refers to: a header or a table of the file, or bytes of a section. -/
inductive Chunk where
  | header
  | sectionHeaders
  | programHeaders
  | data (bytes : List U8)

structure LayoutItem where
  offset : Nat
  chunk : Chunk

/-- The pieces of a section's data. -/
def dataItems (patches : List (Patch U8)) : List LayoutItem := patches.map fun p => ⟨p.1, .data p.2⟩

def Chunk.bytes (o : Order) (elf : PackedElf b) : Chunk → List U8
  | .header => elf.header.bytes o
  | .sectionHeaders => elf.sectionHeaders.flatMap (Shdr.bytes o)
  | .programHeaders => elf.programHeaders.flatMap (Phdr.bytes o)
  | .data bytes => bytes

/-- The bytes that the item stands for in the end, at its offset. -/
def LayoutItem.patch (o : Order) (elf : PackedElf b) (item : LayoutItem) : Patch U8 :=
  (item.offset, item.chunk.bytes o elf)

def sizeForLayout (o : Order) (elf : PackedElf b) (items : List LayoutItem) : Nat :=
  items.foldl (fun size item => max size (item.offset + (item.chunk.bytes o elf).length)) 0

/-- An item beyond the end of the output is an exception. -/
def write (o : Order) (elf : PackedElf b) (out : List U8) (items : List LayoutItem) : Option (List U8) :=
  patchAll out (items.map (LayoutItem.patch o elf))

/-! ## Offsets -/

structure SegmentLayoutConstraint where
  alignment : U16 := 0
  fromSec : U16 := 0
  toSec : U16 := 0
  baseAddress : U64 := 0

/-- `align_to`, whose alignment has 32 bits. -/
def alignTo (addr align : Nat) : Nat :=
  let align := align % 2 ^ 32
  if align < 2 then addr else (addr + (align - 1)) % 2 ^ 64 / align * align

def placeHeaderTablesAt (elf : PackedElf b) (off : Nat) : PackedElf b × List LayoutItem × Nat :=
  let (elf, items, off) :=
    if elf.sectionHeaders.isEmpty then (elf, [], off)
    else ({ elf with header := { elf.header with eShoff := BitVec.ofNat _ off } }, [⟨off, .sectionHeaders⟩],
      off + elf.header.eShentsize.toNat * elf.header.eShnum.toNat)
  if elf.programHeaders.isEmpty then (elf, items, off)
  else ({ elf with header := { elf.header with ePhoff := BitVec.ofNat _ off } }, items ++ [⟨off, .programHeaders⟩],
    off + elf.header.ePhentsize.toNat * elf.header.ePhnum.toNat)

/-- The alignments that constraints ask for in their first sections; the last one that is larger than the section's own
counts. -/
def overAlignments (hdrs : List (Shdr b)) (constraints : List SegmentLayoutConstraint) : Option (List Nat) :=
  constraints.foldlM (fun overAlign c =>
    if c.fromSec = 0 then some overAlign
    else
      match hdrs[c.fromSec.toNat]? with
      | none => none
      | some shdr =>
        some (if shdr.shAddralign.toNat < c.alignment.toNat then overAlign.set c.fromSec.toNat c.alignment.toNat else overAlign))
    (List.replicate hdrs.length 0)

def placeSections : List (Shdr b) → List Nat → List AStorage → Nat → Option (List (Shdr b) × List LayoutItem)
  | [], _, _, _ => some ([], [])
  | shdr :: hdrs, overAlign :: overs, data :: datas, rollingOffset => do
    let align := shdr.shAddralign.toNat
    let rollingOffset :=
      if align < overAlign then alignTo rollingOffset overAlign
      else if 1 < align then alignTo rollingOffset align
      else rollingOffset
    let shdr := { shdr with shOffset := BitVec.ofNat _ rollingOffset, shSize := BitVec.ofNat _ data.size }
    let (items, rollingOffset) := data.calculateLayout shdr.shOffset.toNat
    let (hdrs, items') ← placeSections hdrs overs datas rollingOffset
    return (shdr :: hdrs, dataItems items ++ items')
  | _ :: _, _, _, _ => none

/-! ## Addresses -/

/-- The sections with these indices, as far as they have no address yet. -/
def assignAddresses : List Nat → Nat → List (Shdr b) × List Bool → List (Shdr b) × List Bool
  | [], _, s => s
  | jt :: jts, baseAddress, (hdrs, touched) =>
    if touched.getD jt false then assignAddresses jts baseAddress (hdrs, touched)
    else
      let shdr := hdrs.getD jt {}
      assignAddresses jts ((baseAddress + alignTo shdr.shSize.toNat shdr.shAddralign.toNat) % 2 ^ 64)
        (hdrs.set jt { shdr with shAddr := BitVec.ofNat _ baseAddress }, touched.set jt true)

structure Segments (b : ElfBits) where
  sectionHeaders : List (Shdr b)
  touched : List Bool
  programHeaders : List (Phdr b)

/-- `PT_LOAD` -/
def ptLoad : U32 := 1

/-- The segment from the first to the last of its sections in the file, at its address. -/
def locate (c : SegmentLayoutConstraint) (first last : Shdr b) (phdr : Phdr b) : Phdr b :=
  let baseAddress := alignTo c.baseAddress.toNat c.alignment.toNat
  { phdr with
    pOffset := first.shOffset
    pFilesz := last.shOffset + last.shSize - first.shOffset
    pAlign := BitVec.ofNat _ c.alignment.toNat
    pVaddr := BitVec.ofNat _ baseAddress
    pPaddr := BitVec.ofNat _ baseAddress }

/-- The size in memory, up to the end of the last section. -/
def sizeMemory (c : SegmentLayoutConstraint) (last : Shdr b) (phdr : Phdr b) : Phdr b :=
  let memsz := (last.shAddr.toNat + alignTo last.shSize.toNat c.alignment.toNat + 2 ^ 64 - phdr.pVaddr.toNat) % 2 ^ 64
  if phdr.pType = ptLoad then { phdr with pMemsz := BitVec.ofNat _ (alignTo memsz phdr.pAlign.toNat) } else phdr

/-- One constraint, for the program header with its index. With 16 bits `jt` does not get past the last section that can
be named. -/
def applyConstraint (it : Nat) (c : SegmentLayoutConstraint) (s : Segments b) : Option (Segments b) :=
  if c.fromSec = 0 then some s
  else do
    let phdr ← s.programHeaders[it]?
    let first ← s.sectionHeaders[c.fromSec.toNat]?
    let last ← s.sectionHeaders[c.toSec.toNat]?
    if c.toSec.toNat = 65535 ∧ c.fromSec ≤ c.toSec then none
    let (hdrs, touched) := assignAddresses (List.range' c.fromSec.toNat (c.toSec.toNat + 1 - c.fromSec.toNat))
      (alignTo c.baseAddress.toNat c.alignment.toNat) (s.sectionHeaders, s.touched)
    let last' ← hdrs[c.toSec.toNat]?
    return ⟨hdrs, touched, s.programHeaders.set it (sizeMemory c last' (locate c first last phdr))⟩

def applyConstraints : Nat → List SegmentLayoutConstraint → Segments b → Option (Segments b)
  | _, [], s => some s
  | it, c :: constraints, s => (applyConstraint it c s).bind (applyConstraints (it + 1) constraints)

def calculateLayout (elf : PackedElf b) (constraints : Option (List SegmentLayoutConstraint)) :
    Option (PackedElf b × List LayoutItem) := do
  let (elf, tables, rollingOffset) := placeHeaderTablesAt elf (ehdrSize b)
  let overs ← overAlignments elf.sectionHeaders (constraints.getD [])
  let (hdrs, items) ← placeSections elf.sectionHeaders overs elf.sectionData rollingOffset
  let elf := { elf with sectionHeaders := hdrs }
  let constraints := constraints.getD []
  -- The assertion, and an index of 16 bits.
  if elf.programHeaders.length < constraints.length ∨ 65535 < constraints.length then none
  let s ← applyConstraints 0 constraints ⟨hdrs, List.replicate hdrs.length false, elf.programHeaders⟩
  return ({ elf with sectionHeaders := s.sectionHeaders, programHeaders := s.programHeaders },
    ⟨0, .header⟩ :: tables ++ items)

end Pepp.Elf

/-! ## Where the data of a file go

As long as a file fits into its offsets, the sections are at the places that
their sizes and alignments lead to, and the written file has their bytes there. -/

namespace Pepp.Elf

open Endian Padding Patches

variable {b : ElfBits}

/-! ## Sizes of headers -/

variable (o : Order)

theorem length_pack (fields : List (Nat × Nat)) : (pack o fields).length = (fields.map Prod.fst).sum := by
  induction fields with
  | nil => rfl
  | cons f fields ih =>
    rw [pack, List.flatMap_cons, List.length_append, length_encode, List.map_cons, List.sum_cons, ← ih]
    rfl

theorem length_ehdr (h : Ehdr b) : (h.bytes o).length = ehdrSize b := by
  rw [Ehdr.bytes, List.length_append, length_pack, Vector.length_toList]
  cases b <;> rfl

theorem length_shdr (h : Shdr b) : (h.bytes o).length = shdrSize b := by
  rw [Shdr.bytes, length_pack]
  cases b <;> rfl

theorem length_phdr (h : Phdr b) : (h.bytes o).length = phdrSize b := by
  cases b <;> exact length_pack o _

theorem length_table {α : Type} {f : α → List U8} {k : Nat} (hf : ∀ x, (f x).length = k) (l : List α) :
    (l.flatMap f).length = l.length * k := by
  induction l with
  | nil => exact (Nat.zero_mul k).symm
  | cons x l ih => rw [List.flatMap_cons, List.length_append, hf, ih, List.length_cons, Nat.add_mul, Nat.one_mul, Nat.add_comm]

/-! ## Rounding -/

/-- What a section is aligned for in the file. -/
def fileAlign (overAlign align : Nat) : Nat := if align < overAlign then overAlign else align

/-- Sizes and offsets below this are computed without loss. -/
def limit : ElfBits → Nat
  | .b32 => 2 ^ 32
  | .b64 => 2 ^ 63

theorem limit_le (b : ElfBits) : limit b ≤ 2 ^ b.width ∧ limit b ≤ 2 ^ 63 := by cases b <;> decide

theorem alignTo_eq {addr align : Nat} (ha : align < 2 ^ 32) (h : addr + (align - 1) < 2 ^ 64) :
    alignTo addr align = alignUp addr align := by
  simp only [alignTo, alignUp]
  rw [Nat.mod_eq_of_lt ha, Nat.mod_eq_of_lt h]

/-- For an alignment that divides 2⁶⁴ it is enough that the result fits. -/
theorem alignTo_eq_of_dvd {addr align : Nat} (ha : align < 2 ^ 32) (hpos : 0 < align) (hdvd : align ∣ 2 ^ 64)
    (h : alignUp addr align < 2 ^ 64) : alignTo addr align = alignUp addr align := by
  refine alignTo_eq ha ?_
  by_contra hge
  have hsmall : ¬ align < 2 := by
    intro hlt
    rw [alignUp_of_small hlt] at h
    omega
  rw [alignUp, if_neg hsmall] at h
  have hle : 2 ^ 64 / align * align ≤ (addr + (align - 1)) / align * align :=
    Nat.mul_le_mul_right align (Nat.div_le_div_right (by omega))
  rw [Nat.div_mul_cancel hdvd] at hle
  omega

/-- The place of the next section. -/
theorem rolling_eq {overAlign align rolling : Nat} (hover : overAlign < 2 ^ 32) (halign : align < 2 ^ 32) (h : rolling < 2 ^ 63) :
    (if align < overAlign then alignTo rolling overAlign else if 1 < align then alignTo rolling align else rolling) =
      alignUp rolling (fileAlign overAlign align) := by
  unfold fileAlign
  split
  · exact alignTo_eq hover (by omega)
  · split
    · exact alignTo_eq halign (by omega)
    · rw [alignUp_of_small (by omega)]

/-! ## Sections -/

theorem dataItems_append (ps qs : List (Patch U8)) : dataItems (ps ++ qs) = dataItems ps ++ dataItems qs :=
  List.map_append

/-- Sizes and alignments of sections. -/
def pieces : List (Shdr b) → List Nat → List AStorage → List (Nat × Nat)
  | shdr :: hdrs, overAlign :: overs, data :: datas =>
    (data.size, fileAlign overAlign shdr.shAddralign.toNat) :: pieces hdrs overs datas
  | _, _, _ => []

theorem getElem?_pieces {hdrs : List (Shdr b)} {overs : List Nat} {datas : List AStorage} {i : Nat} {shdr : Shdr b}
    {overAlign : Nat} {data : AStorage} (hshdr : hdrs[i]? = some shdr) (hover : overs[i]? = some overAlign)
    (hdata : datas[i]? = some data) :
    (pieces hdrs overs datas)[i]? = some (data.size, fileAlign overAlign shdr.shAddralign.toNat) := by
  induction i generalizing hdrs overs datas with
  | zero =>
    cases hdrs with
    | nil => cases hshdr
    | cons =>
      cases overs with
      | nil => cases hover
      | cons =>
        cases datas with
        | nil => cases hdata
        | cons =>
          rw [List.getElem?_cons_zero, Option.some.injEq] at hshdr hover hdata
          rw [hshdr, hover, hdata]
          rfl
  | succ i ih =>
    cases hdrs with
    | nil => cases hshdr
    | cons =>
      cases overs with
      | nil => cases hover
      | cons =>
        cases datas with
        | nil => cases hdata
        | cons => exact ih hshdr hover hdata

/-- A section header with its offset and size. -/
def Shdr.placed (shdr : Shdr b) (place size : Nat) : Shdr b :=
  { shdr with shOffset := BitVec.ofNat _ place, shSize := BitVec.ofNat _ size }

/-- Sections that are placed from `start` on, each storing what it does at its alignment. -/
structure Placed (hdrs : List (Shdr b)) (overs : List Nat) (datas : List AStorage) (start : Nat)
    (hdrs' : List (Shdr b)) (patches : List (Patch U8)) : Prop where
  length : hdrs'.length = hdrs.length
  header : ∀ (i : Nat) shdr data place, hdrs[i]? = some shdr → datas[i]? = some data →
    (places start (pieces hdrs overs datas))[i]? = some place → hdrs'[i]? = some (shdr.placed place data.size)
  inOrder : InOrder start (extent start (pieces hdrs overs datas)) patches
  covers : ∀ (i : Nat) shdr overAlign data place content, hdrs[i]? = some shdr → overs[i]? = some overAlign →
    datas[i]? = some data → (places start (pieces hdrs overs datas))[i]? = some place →
    Stores (fileAlign overAlign shdr.shAddralign.toNat) data content → content.length < 2 ^ 63 → Covers place patches content

theorem placeSections_placed {hdrs : List (Shdr b)} {overs : List Nat} {datas : List AStorage} {start : Nat}
    (hovers : overs.length = hdrs.length) (hdatas : datas.length = hdrs.length)
    (hsmall : ∀ overAlign ∈ overs, overAlign < 2 ^ 32) (halign : ∀ shdr ∈ hdrs, shdr.shAddralign.toNat < 2 ^ 32)
    (hstores : ∀ (i : Nat) shdr overAlign data, hdrs[i]? = some shdr → overs[i]? = some overAlign → datas[i]? = some data →
      ∃ content, Stores (fileAlign overAlign shdr.shAddralign.toNat) data content ∧ content.length < 2 ^ 63)
    (hfits : extent start (pieces hdrs overs datas) < limit b) :
    ∃ hdrs' patches, placeSections hdrs overs datas start =
      some (hdrs', dataItems patches) ∧ Placed hdrs overs datas start hdrs' patches := by
  induction hdrs generalizing overs datas start with
  | nil =>
    exact ⟨[], [], rfl, ⟨rfl, nofun, ⟨List.Pairwise.nil, nofun⟩, nofun⟩⟩
  | cons shdr hdrs ih =>
    obtain ⟨overAlign, overs, rfl⟩ := List.exists_cons_of_length_eq_add_one hovers
    obtain ⟨data, datas, rfl⟩ := List.exists_cons_of_length_eq_add_one hdatas
    rw [List.forall_mem_cons] at hsmall halign
    obtain ⟨hlimit, hlimit'⟩ := limit_le b
    obtain ⟨content, hcontent, hclen⟩ := hstores 0 shdr overAlign data rfl rfl rfl
    obtain ⟨place, hplace⟩ : ∃ place, place = alignUp start (fileAlign overAlign shdr.shAddralign.toNat) := ⟨_, rfl⟩
    have hext : extent start (pieces (shdr :: hdrs) (overAlign :: overs) (data :: datas)) =
        extent (place + data.size) (pieces hdrs overs datas) := by rw [hplace]; rfl
    have hle := le_extent (place + data.size) (pieces hdrs overs datas)
    have hstart : start ≤ place := hplace ▸ le_alignUp start _
    rw [hext] at hfits
    have hrolling := @rolling_eq overAlign shdr.shAddralign.toNat start hsmall.1 halign.1 (by omega)
    rw [← hplace] at hrolling
    have hoffset : (BitVec.ofNat b.width place).toNat = place := Nat.mod_eq_of_lt (by omega)
    have haligned : Aligned (fileAlign overAlign shdr.shAddralign.toNat) place := hplace ▸ aligned_alignUp start _
    -- One storage, whatever it is said to store.
    have hlaid : ∀ content, Stores (fileAlign overAlign shdr.shAddralign.toNat) data content → content.length < 2 ^ 63 →
        content.length = data.size ∧ LaidOut place content (data.calculateLayout place) := by
      intro content hcontent hclen
      obtain ⟨hsize, hlayout⟩ := hcontent.spec hclen
      exact ⟨hsize.symm, hlayout place haligned (by omega)⟩
    obtain ⟨hsize, hhead⟩ := hlaid content hcontent hclen
    obtain ⟨hdrs', patches, hrest, hplaced⟩ := @ih overs datas (place + data.size) (by simpa using hovers)
      (by simpa using hdatas) hsmall.2 halign.2
      (fun i shdr' overAlign' data' h1 h2 h3 => hstores (i + 1) shdr' overAlign' data' h1 h2 h3) hfits
    refine ⟨shdr.placed place data.size :: hdrs', (data.calculateLayout place).1 ++ patches, ?_, ?_⟩
    · simp only [placeSections, hrolling, hoffset]
      rw [show (data.calculateLayout place).2 = place + data.size by rw [hhead.next, hsize]]
      rw [hrest, dataItems_append]
      rfl
    · constructor
      · rw [List.length_cons, List.length_cons, hplaced.length]
      · intro i shdr' data' place' hshdr' hdata' hplace'
        cases i with
        | zero =>
          rw [List.getElem?_cons_zero, Option.some.injEq] at hshdr' hdata'
          have hplace' : some (alignUp start (fileAlign overAlign shdr.shAddralign.toNat)) = some place' := hplace'
          rw [← hplace, Option.some.injEq] at hplace'
          rw [← hshdr', ← hdata', ← hplace']
          rfl
        | succ i =>
          have hplace' : (places (alignUp start (fileAlign overAlign shdr.shAddralign.toNat) + data.size)
            (pieces hdrs overs datas))[i]? = some place' := hplace'
          rw [← hplace] at hplace'
          exact hplaced.header i shdr' data' place' hshdr' hdata' hplace'
      · have horder := hhead.inOrder
        rw [hsize] at horder
        rw [hext]
        have := horder.append hplaced.inOrder le_rfl (by omega) (by omega)
        exact ⟨this.1, fun p hp => ⟨hstart.trans (this.2 p hp).1, (this.2 p hp).2⟩⟩
      · intro i shdr' overAlign' data' place' content' hshdr' hover' hdata' hplace' hcontent' hclen'
        cases i with
        | zero =>
          rw [List.getElem?_cons_zero, Option.some.injEq] at hshdr' hover' hdata'
          have hplace' : some (alignUp start (fileAlign overAlign shdr.shAddralign.toNat)) = some place' := hplace'
          rw [← hplace, Option.some.injEq] at hplace'
          rw [← hshdr', ← hover', ← hdata'] at hcontent'
          rw [← hplace']
          intro k byte hk
          obtain ⟨p, hp, hat⟩ := (hlaid content' hcontent' hclen').2.covers k byte hk
          exact ⟨p, List.mem_append_left _ hp, hat⟩
        | succ i =>
          have hplace' : (places (alignUp start (fileAlign overAlign shdr.shAddralign.toNat) + data.size)
            (pieces hdrs overs datas))[i]? = some place' := hplace'
          rw [← hplace] at hplace'
          intro k byte hk
          obtain ⟨p, hp, hat⟩ := hplaced.covers i shdr' overAlign' data' place' content' hshdr' hover' hdata' hplace' hcontent'
            hclen' k byte hk
          exact ⟨p, List.mem_append_right _ hp, hat⟩

end Pepp.Elf

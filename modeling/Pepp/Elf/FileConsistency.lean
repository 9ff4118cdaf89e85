import Pepp.Elf.FileSegments

/-!
# Consistent files

What a layout should be: items that do not overlap, the bytes of every section
at its offset, and segments that can be loaded as they are in the file. The
sections that a segment assigns are at the same distances in the file and in
memory if and only if there is as much padding in front of each as behind the
one before.
-/

namespace Pepp.Elf

open Endian Padding Patches

variable {b : ElfBits}

/-- `SHT_NOBITS` -/
def shtNobits : U32 := 8

/-! ## What is asked for -/

namespace PackedElf

variable (elf : PackedElf b) (cs : List SegmentLayoutConstraint)

/-- What the constraints ask for in each section, if they name sections of the file. -/
def overs : List Nat := (overAlignments elf.sectionHeaders cs).getD []

/-- Sizes and alignments of the sections in the file. -/
def filePieces : List (Nat × Nat) := pieces elf.sectionHeaders (elf.overs cs) elf.sectionData

/-- Sizes and alignments of the sections in memory. -/
def memoryPieces : List (Nat × Nat) :=
  List.zipWith (fun shdr data => (data.size, shdr.shAddralign.toNat)) elf.sectionHeaders elf.sectionData

/-- The end of the tables. -/
def tablesEnd : Nat :=
  ehdrSize b + elf.sectionHeaders.length * shdrSize b + elf.programHeaders.length * phdrSize b

/-- Where the tables and the pieces before it put a section. -/
def offset (i : Nat) : Nat := (places elf.tablesEnd (elf.filePieces cs)).getD i 0

/-- A file whose header is right about its tables, which fits into its offsets and addresses, and whose sections store
what they do at their alignments. Alignments that a constraint asks for are multiples of the section's own. -/
structure Regular (contents : List (List (Option U8))) : Prop where
  shdrs : elf.sectionHeaders ≠ [] →
    elf.header.eShentsize.toNat = shdrSize b ∧ elf.header.eShnum.toNat = elf.sectionHeaders.length
  phdrs : elf.programHeaders ≠ [] →
    elf.header.ePhentsize.toNat = phdrSize b ∧ elf.header.ePhnum.toNat = elf.programHeaders.length
  datas : elf.sectionData.length = elf.sectionHeaders.length
  align : ∀ shdr ∈ elf.sectionHeaders, shdr.shAddralign.toNat < 2 ^ 32
  fits : extent elf.tablesEnd (elf.filePieces cs) < limit b
  overAlign : ∀ (i : Nat) shdr overAlign, elf.sectionHeaders[i]? = some shdr → (elf.overs cs)[i]? = some overAlign →
    Aligned shdr.shAddralign.toNat (fileAlign overAlign shdr.shAddralign.toNat)
  stores : ∀ (i : Nat) shdr overAlign data, elf.sectionHeaders[i]? = some shdr → (elf.overs cs)[i]? = some overAlign →
    elf.sectionData[i]? = some data → ∃ content, contents[i]? = some content ∧
      Stores (fileAlign overAlign shdr.shAddralign.toNat) data content ∧ content.length < 2 ^ 63
  segments : Elf.Regular elf.memoryPieces elf.programHeaders cs

/-- Sections without bits have the size that their data have. -/
def NobitsSized : Prop := ∀ (i : Nat) shdr data, elf.sectionHeaders[i]? = some shdr → elf.sectionData[i]? = some data →
  shdr.shType = shtNobits → shdr.shSize.toNat = data.size

/-- The address of a segment and the sizes up to a section that it assigns, each rounded up to its own alignment, are a
multiple of the section's. -/
def AddressAligned : Prop := ∀ (l : Nat) c j size a, cs[l]? = some c → Owns cs l c j →
  elf.memoryPieces[j]? = some (size, a) → Aligned a (c.address elf.memoryPieces j)

/-- Between two sections that a segment assigns, what rounds up the size of the first to its own alignment is less than
the alignment of the second, and where the segment begins in the file and the sizes so far, each rounded up, are a
multiple of that. -/
def Seamless : Prop := ∀ (l : Nat) c j size a size' a', cs[l]? = some c → Owns cs l c j → Owns cs l c (j + 1) →
  elf.memoryPieces[j]? = some (size, a) → (elf.filePieces cs)[j + 1]? = some (size', a') →
    alignUp size a < size + max 1 a' ∧
      Aligned a' (elf.offset cs c.fromSec.toNat + reserve elf.memoryPieces c.fromSec.toNat (j + 1))

/-- Sections of one segment that two others assign do not overlap. -/
def Apart : Prop := ∀ (l l₁ l₂ : Nat) c c₁ c₂ i j size a size' a', cs[l]? = some c → c.Names i → c.Names j → i < j →
  cs[l₁]? = some c₁ → Owns cs l₁ c₁ i → cs[l₂]? = some c₂ → Owns cs l₂ c₂ j → l₁ ≠ l₂ →
    elf.memoryPieces[i]? = some (size, a) → elf.memoryPieces[j]? = some (size', a') →
      c₁.address elf.memoryPieces i + size ≤ c₂.address elf.memoryPieces j ∨
        c₂.address elf.memoryPieces j + size' ≤ c₁.address elf.memoryPieces i

/-- What is loaded is not larger in the file than in memory, where another segment assigns its last section. -/
def Loads : Prop := ∀ (l l' : Nat) c c' p size a, cs[l]? = some c → elf.programHeaders[l]? = some p → p.pType = ptLoad →
  cs[l']? = some c' → Owns cs l' c' c.toSec.toNat → c.Names c.toSec.toNat → l' ≠ l →
    elf.memoryPieces[c.toSec.toNat]? = some (size, a) →
      elf.offset cs c.toSec.toNat + size ≤ elf.offset cs c.fromSec.toNat + c.memorySize c' elf.memoryPieces size

end PackedElf

/-- No two items overlap; the written file has the bytes of the sections at their offsets, which are aligned; and
sections without bits keep their sizes. -/
structure FileConsistent (o : Order) (before after : PackedElf b) (items : List LayoutItem)
    (contents : List (List (Option U8))) : Prop where
  disjoint : (items.map (LayoutItem.patch o after)).Pairwise Patches.Disjoint
  written : ∀ out : List U8, sizeForLayout o after items ≤ out.length → ∃ file, write o after out items = some file ∧
    ∀ (i : Nat) shdr content, after.sectionHeaders[i]? = some shdr → contents[i]? = some content →
      (shdr.shType ≠ shtNobits → content.length = shdr.shSize.toNat) ∧
      ∀ k byte, content[k]? = some (some byte) → file[shdr.shOffset.toNat + k]? = some byte
  aligned : ∀ shdr ∈ after.sectionHeaders, Aligned shdr.shAddralign.toNat shdr.shOffset.toNat
  nobits : ∀ (i : Nat) shdr shdr', before.sectionHeaders[i]? = some shdr → after.sectionHeaders[i]? = some shdr' →
    shdr.shType = shtNobits → shdr'.shSize = shdr.shSize

/-- The sections that the segment was the first to name are at aligned addresses, as far from its start as they are in
the file; none of its sections overlap; and what is loaded is not larger in the file. -/
structure SegmentConsistent (cs : List SegmentLayoutConstraint) (after : PackedElf b) (l : Nat)
    (c : SegmentLayoutConstraint) (phdr : Phdr b) : Prop where
  addresses : ∀ (j : Nat) shdr, c.Names j → ¬ Named cs l j → after.sectionHeaders[j]? = some shdr →
    Aligned shdr.shAddralign.toNat shdr.shAddr.toNat ∧
      (shdr.shAddr.toNat : Int) - phdr.pVaddr.toNat = shdr.shOffset.toNat - phdr.pOffset.toNat
  disjoint : ∀ (i j : Nat) shdr shdr', c.Names i → c.Names j → i < j → after.sectionHeaders[i]? = some shdr →
    after.sectionHeaders[j]? = some shdr' → shdr.shAddr.toNat + shdr.shSize.toNat ≤ shdr'.shAddr.toNat ∨
      shdr'.shAddr.toNat + shdr'.shSize.toNat ≤ shdr.shAddr.toNat
  loaded : phdr.pType = ptLoad → phdr.pFilesz.toNat ≤ phdr.pMemsz.toNat

/-- There is a layout, and it is as it should be. -/
def Consistent (o : Order) (elf : PackedElf b) (constraints : Option (List SegmentLayoutConstraint))
    (contents : List (List (Option U8))) : Prop :=
  ∃ after items, calculateLayout elf constraints = some (after, items) ∧ FileConsistent o elf after items contents ∧
    ∀ (l : Nat) c phdr, (constraints.getD [])[l]? = some c → c.fromSec ≠ 0 → after.programHeaders[l]? = some phdr →
      SegmentConsistent (constraints.getD []) after l c phdr

/-! ## The steps of a layout -/

variable {hdrs : List (Shdr b)}

theorem overAlignments_spec {cs : List SegmentLayoutConstraint}
    (hrange : ∀ c ∈ cs, c.fromSec ≠ 0 → c.fromSec.toNat < hdrs.length) :
    ∃ overs, overAlignments hdrs cs = some overs ∧ overs.length = hdrs.length ∧ ∀ overAlign ∈ overs, overAlign < 2 ^ 32 := by
  have hsmall : ∀ overAlign ∈ List.replicate hdrs.length 0, overAlign < 2 ^ 32 := by
    intro overAlign hover
    rw [List.eq_of_mem_replicate hover]
    decide
  have hlen : (List.replicate hdrs.length 0).length = hdrs.length := List.length_replicate
  rw [overAlignments]
  -- The alignments so far are as many and as small.
  generalize List.replicate hdrs.length 0 = start at hsmall hlen
  induction cs generalizing start with
  | nil => exact ⟨start, rfl, hlen, hsmall⟩
  | cons c cs ih =>
    rw [List.forall_mem_cons] at hrange
    rw [List.foldlM_cons]
    by_cases hfrom : c.fromSec = 0
    · rw [if_pos hfrom]
      exact ih hrange.2 start hsmall hlen
    · rw [if_neg hfrom, List.getElem?_eq_getElem (hrange.1 hfrom)]
      simp only [Option.bind_eq_bind, Option.bind_some]
      split
      · refine ih hrange.2 _ (fun overAlign hover => ?_) (List.length_set.trans hlen)
        rcases List.mem_or_eq_of_mem_set hover with hover | rfl
        · exact hsmall overAlign hover
        · have := c.alignment.isLt
          omega
      · exact ih hrange.2 start hsmall hlen

/-- The tables follow the header, and each other. -/
theorem placeHeaderTablesAt_spec (o : Order) (elf : PackedElf b)
    (hshdrs : elf.sectionHeaders ≠ [] →
      elf.header.eShentsize.toNat = shdrSize b ∧ elf.header.eShnum.toNat = elf.sectionHeaders.length)
    (hphdrs : elf.programHeaders ≠ [] →
      elf.header.ePhentsize.toNat = phdrSize b ∧ elf.header.ePhnum.toNat = elf.programHeaders.length) :
    ∃ header tables, placeHeaderTablesAt elf (ehdrSize b) = ({ elf with header := header }, tables, elf.tablesEnd) ∧
      ∀ after : PackedElf b, after.sectionHeaders.length = elf.sectionHeaders.length →
        after.programHeaders.length = elf.programHeaders.length →
        InOrder 0 elf.tablesEnd ((⟨0, .header⟩ :: tables).map (LayoutItem.patch o after)) := by
  have hone : ∀ (dst stop : Nat) (bytes : List U8), dst + bytes.length = stop → InOrder dst stop [(dst, bytes)] :=
    fun dst stop bytes hstop => ⟨List.pairwise_singleton _ _, by rw [List.forall_mem_singleton]; exact ⟨le_rfl, hstop.le⟩⟩
  have hheader : ∀ after : PackedElf b, InOrder 0 (ehdrSize b) [(0, after.header.bytes o)] :=
    fun after => hone _ _ _ (by rw [length_ehdr, Nat.zero_add])
  have hsection : ∀ after : PackedElf b, after.sectionHeaders.length = elf.sectionHeaders.length → ∀ off,
      InOrder off (off + elf.sectionHeaders.length * shdrSize b) [(off, after.sectionHeaders.flatMap (Shdr.bytes o))] :=
    fun after hlen off => hone _ _ _ (by rw [length_table (length_shdr o), hlen])
  have hprogram : ∀ after : PackedElf b, after.programHeaders.length = elf.programHeaders.length → ∀ off,
      InOrder off (off + elf.programHeaders.length * phdrSize b) [(off, after.programHeaders.flatMap (Phdr.bytes o))] :=
    fun after hlen off => hone _ _ _ (by rw [length_table (length_phdr o), hlen])
  by_cases hs : elf.sectionHeaders = []
  · have hnone : elf.sectionHeaders.length * shdrSize b = 0 := by rw [hs, List.length_nil, Nat.zero_mul]
    by_cases hp : elf.programHeaders = []
    · have hnone' : elf.programHeaders.length * phdrSize b = 0 := by rw [hp, List.length_nil, Nat.zero_mul]
      refine ⟨elf.header, [], ?_, fun after _ _ => ?_⟩
      · simp only [placeHeaderTablesAt, PackedElf.tablesEnd, List.isEmpty_iff, hs, hp, if_true, List.length_nil,
          Nat.zero_mul, Nat.add_zero]
        rw [← hs, ← hp]
      · rw [PackedElf.tablesEnd, hnone, hnone']
        exact hheader after
    · refine ⟨{ elf.header with ePhoff := BitVec.ofNat _ (ehdrSize b) }, [⟨ehdrSize b, .programHeaders⟩], ?_,
        fun after _ hlen => ?_⟩
      · simp only [placeHeaderTablesAt, PackedElf.tablesEnd, List.isEmpty_iff, hs, hp, if_true, if_false, hphdrs hp,
          List.length_nil, Nat.zero_mul, Nat.add_zero, List.nil_append]
        rw [← hs, Nat.mul_comm]
      · rw [PackedElf.tablesEnd, hnone]
        exact (hheader after).append (hprogram after hlen _) le_rfl (Nat.zero_le _) (Nat.le_add_right _ _)
  · by_cases hp : elf.programHeaders = []
    · have hnone' : elf.programHeaders.length * phdrSize b = 0 := by rw [hp, List.length_nil, Nat.zero_mul]
      refine ⟨{ elf.header with eShoff := BitVec.ofNat _ (ehdrSize b) }, [⟨ehdrSize b, .sectionHeaders⟩], ?_,
        fun after hlen _ => ?_⟩
      · simp only [placeHeaderTablesAt, PackedElf.tablesEnd, List.isEmpty_iff, hs, hp, if_true, if_false, hshdrs hs,
          List.length_nil, Nat.zero_mul, Nat.add_zero]
        rw [← hp, Nat.mul_comm]
      · rw [PackedElf.tablesEnd, hnone']
        exact (hheader after).append (hsection after hlen _) le_rfl (Nat.zero_le _) (Nat.le_add_right _ _)
    · refine ⟨{ elf.header with
          eShoff := BitVec.ofNat _ (ehdrSize b)
          ePhoff := BitVec.ofNat _ (ehdrSize b + elf.sectionHeaders.length * shdrSize b) },
        [⟨ehdrSize b, .sectionHeaders⟩, ⟨ehdrSize b + elf.sectionHeaders.length * shdrSize b, .programHeaders⟩], ?_,
        fun after hlen hlen' => ?_⟩
      · simp only [placeHeaderTablesAt, PackedElf.tablesEnd, List.isEmpty_iff, hs, hp, if_false, hshdrs hs, hphdrs hp]
        rw [Nat.mul_comm, Nat.mul_comm (phdrSize b)]
        rfl
      · have htwo := (hsection after hlen (ehdrSize b)).append (hprogram after hlen' _) le_rfl (Nat.le_add_right _ _)
          (Nat.le_add_right _ _)
        refine (hheader after).append htwo le_rfl (Nat.zero_le _) ?_
        rw [PackedElf.tablesEnd, Nat.add_assoc]
        exact Nat.le_add_right _ _

/-- The rest of the constraints, one after the other. -/
theorem Applied.run {phdrs : List (Phdr b)} {cs : List SegmentLayoutConstraint}
    (hreg : Elf.Regular (memory hdrs) phdrs cs)
    (hsmall : ∀ h ∈ hdrs, h.shSize.toNat < 2 ^ 63 ∧ h.shAddralign.toNat < 2 ^ 32) {rest : List SegmentLayoutConstraint}
    {k : Nat} {s : Segments b} (hrest : cs.drop k = rest) (h : Applied hdrs phdrs cs k s) :
    ∃ s', applyConstraints k rest s = some s' ∧ Applied hdrs phdrs cs (k + rest.length) s' := by
  induction rest generalizing k s with
  | nil => exact ⟨s, rfl, h⟩
  | cons c rest ih =>
    have hc : cs[k]? = some c := by
      rw [← List.head?_drop, hrest]
      rfl
    obtain ⟨s₁, happly, h₁⟩ := h.step hreg hsmall hc
    have hrest₁ : cs.drop (k + 1) = rest := by rw [← List.drop_drop, hrest, List.drop_one, List.tail_cons]
    obtain ⟨s₂, hrun, h₂⟩ := ih hrest₁ h₁
    refine ⟨s₂, ?_, ?_⟩
    · rw [applyConstraints, happly, Option.bind_some, hrun]
    · rw [List.length_cons, show k + (rest.length + 1) = k + 1 + rest.length by omega]
      exact h₂

/-- A section, and where it is placed. -/
structure At (elf : PackedElf b) (overs : List Nat) (hdrs : List (Shdr b)) (i : Nat) (shdr : Shdr b) (overAlign : Nat)
    (data : AStorage) (place : Nat) : Prop where
  isShdr : elf.sectionHeaders[i]? = some shdr
  isOver : overs[i]? = some overAlign
  isData : elf.sectionData[i]? = some data
  isPlace : (places elf.tablesEnd (pieces elf.sectionHeaders overs elf.sectionData))[i]? = some place
  placed : hdrs[i]? = some (shdr.placed place data.size)
  end_ : place + data.size < limit b
  aligned : Aligned (fileAlign overAlign shdr.shAddralign.toNat) place
  offset : (shdr.placed place data.size).shOffset.toNat = place
  size : (shdr.placed place data.size).shSize.toNat = data.size

theorem Placed.at {elf : PackedElf b} {overs : List Nat} {patches : List (Patch U8)}
    (h : Placed elf.sectionHeaders overs elf.sectionData elf.tablesEnd hdrs patches)
    (hovers : overs.length = elf.sectionHeaders.length) (hdatas : elf.sectionData.length = elf.sectionHeaders.length)
    (hfits : extent elf.tablesEnd (pieces elf.sectionHeaders overs elf.sectionData) < limit b) {i : Nat}
    (hi : i < elf.sectionHeaders.length) :
    ∃ shdr overAlign data place, At elf overs hdrs i shdr overAlign data place := by
  obtain ⟨hlimit, -⟩ := limit_le b
  have hshdr := List.getElem?_eq_getElem hi
  have hover : overs[i]? = some overs[i] := List.getElem?_eq_getElem (by omega)
  have hdata : elf.sectionData[i]? = some elf.sectionData[i] := List.getElem?_eq_getElem (by omega)
  obtain ⟨place, hplace, -, haligned, hend, -⟩ := places_spec _ (getElem?_pieces hshdr hover hdata)
  exact ⟨_, _, _, place, hshdr, hover, hdata, hplace, h.header i _ _ _ hshdr hdata hplace, by omega, haligned,
    Nat.mod_eq_of_lt (by omega), Nat.mod_eq_of_lt (by omega)⟩

/-- A layout as the places of its sections and what the constraints make of them. -/
theorem calculateLayout_spec (o : Order) {elf : PackedElf b} {constraints : Option (List SegmentLayoutConstraint)}
    {contents : List (List (Option U8))} (h : elf.Regular (constraints.getD []) contents) :
    ∃ header tables hdrs patches s, calculateLayout elf constraints =
        some (⟨header, s.sectionHeaders, s.programHeaders, elf.sectionData⟩,
          ⟨0, .header⟩ :: tables ++ dataItems patches) ∧
      (∀ after : PackedElf b, after.sectionHeaders.length = elf.sectionHeaders.length →
        after.programHeaders.length = elf.programHeaders.length →
        InOrder 0 elf.tablesEnd ((⟨0, .header⟩ :: tables).map (LayoutItem.patch o after))) ∧
      Placed elf.sectionHeaders (elf.overs (constraints.getD [])) elf.sectionData elf.tablesEnd hdrs patches ∧
      memory hdrs = elf.memoryPieces ∧
      (∀ i < elf.sectionHeaders.length, ∃ shdr overAlign data place,
        At elf (elf.overs (constraints.getD [])) hdrs i shdr overAlign data place) ∧
      Applied hdrs elf.programHeaders (constraints.getD []) (constraints.getD []).length s := by
  obtain ⟨hlimit, hlimit'⟩ := limit_le b
  have hmemlen : elf.memoryPieces.length = elf.sectionHeaders.length := by
    rw [PackedElf.memoryPieces, List.length_zipWith, h.datas, Nat.min_self]
  obtain ⟨overs, hovers, hoverslen, hsmall⟩ := @overAlignments_spec b elf.sectionHeaders (constraints.getD [])
    (fun c hc hfrom => by have := h.segments.range c hc hfrom; omega)
  have hovers' : elf.overs (constraints.getD []) = overs := by rw [PackedElf.overs, hovers, Option.getD_some]
  obtain ⟨header, tables, htables, htorder⟩ := placeHeaderTablesAt_spec o elf h.shdrs h.phdrs
  have hfits := h.fits
  rw [PackedElf.filePieces, hovers'] at hfits
  have hstores := h.stores
  rw [hovers'] at hstores
  obtain ⟨hdrs, patches, hplace, hplaced⟩ := placeSections_placed hoverslen h.datas hsmall h.align
    (fun i shdr overAlign data h1 h2 h3 => by
      obtain ⟨content, -, hrest⟩ := hstores i shdr overAlign data h1 h2 h3
      exact ⟨content, hrest⟩) hfits
  have hat := fun i (hi : i < elf.sectionHeaders.length) => hplaced.at hoverslen h.datas hfits hi
  have hmemory : memory hdrs = elf.memoryPieces := by
    refine List.ext_getElem (by rw [memory, List.length_map, hplaced.length, hmemlen]) fun i hi hi' => ?_
    obtain ⟨shdr, overAlign, data, place, hat⟩ := hat i (by omega)
    have h1 : (memory hdrs)[i]? = some (data.size, shdr.shAddralign.toNat) := by
      rw [memory, List.getElem?_map, hat.placed, Option.map_some, hat.size]
      rfl
    have h2 : elf.memoryPieces[i]? = some (data.size, shdr.shAddralign.toNat) := by
      rw [PackedElf.memoryPieces, List.getElem?_zipWith, hat.isShdr, hat.isData]
    rw [List.getElem?_eq_getElem hi] at h1
    rw [List.getElem?_eq_getElem hi'] at h2
    exact Option.some.inj (h1.trans h2.symm)
  have hsmall' : ∀ h ∈ hdrs, h.shSize.toNat < 2 ^ 63 ∧ h.shAddralign.toNat < 2 ^ 32 := by
    intro shdr' hshdr'
    obtain ⟨i, hi, rfl⟩ := List.mem_iff_getElem.mp hshdr'
    obtain ⟨shdr, overAlign, data, place, hi'⟩ := hat i (by rw [← hplaced.length]; exact hi)
    have heq := hi'.placed
    rw [List.getElem?_eq_getElem hi, Option.some.injEq] at heq
    rw [heq, hi'.size]
    have := hi'.end_
    exact ⟨by omega, h.align shdr (List.mem_of_getElem? hi'.isShdr)⟩
  have hreg := h.segments
  rw [← hmemory] at hreg
  obtain ⟨s, hrun, happlied⟩ := Applied.run hreg hsmall' List.drop_zero
    (applied_start hdrs elf.programHeaders (constraints.getD []))
  rw [Nat.zero_add] at happlied
  refine ⟨header, tables, hdrs, patches, s, ?_, htorder, hovers' ▸ hplaced, hmemory, hovers' ▸ hat, happlied⟩
  rw [calculateLayout, htables]
  simp only [hovers, hplace, Option.bind_eq_bind, Option.bind_some]
  rw [if_neg (by have := h.segments.segments; omega), hrun]
  rfl

end Pepp.Elf

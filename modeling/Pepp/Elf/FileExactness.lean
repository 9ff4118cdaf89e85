import Pepp.Elf.FileConsistency

/-!
# When files are consistent

Whatever the sections, the items of a layout are disjoint and the bytes where
the headers say. Sections without bits keep their sizes if their data are as
large, and segments are the same in the file and in memory if they are seamless
and those that share sections do not overlap.
-/

namespace Pepp.Elf

open Endian Padding Patches

variable {b : ElfBits}

/-! ## The file -/

theorem le_sizeForLayout (o : Order) (elf : PackedElf b) (items : List LayoutItem) :
    ∀ item ∈ items, item.offset + (item.chunk.bytes o elf).length ≤ sizeForLayout o elf items := by
  have hgen : ∀ start : Nat, start ≤ items.foldl (fun size item => max size (item.offset +
      (item.chunk.bytes o elf).length)) start ∧ ∀ item ∈ items, item.offset + (item.chunk.bytes o elf).length ≤
        items.foldl (fun size item => max size (item.offset + (item.chunk.bytes o elf).length)) start := by
    induction items with
    | nil => exact fun start => ⟨le_rfl, nofun⟩
    | cons item items ih =>
      intro start
      obtain ⟨hstart, hall⟩ := ih (max start (item.offset + (item.chunk.bytes o elf).length))
      rw [List.foldl_cons, List.forall_mem_cons]
      exact ⟨(le_max_left _ _).trans hstart, (le_max_right _ _).trans hstart, hall⟩
  exact (hgen 0).2

section

variable {elf : PackedElf b} {cs : List SegmentLayoutConstraint} {contents : List (List (Option U8))}
  {hdrs : List (Shdr b)} {patches : List (Patch U8)} {s : Segments b} {o : Order} {header : Ehdr b}
  {tables : List LayoutItem}

theorem file_consistent_iff (h : elf.Regular cs contents)
    (horder : ∀ after : PackedElf b, after.sectionHeaders.length = elf.sectionHeaders.length →
      after.programHeaders.length = elf.programHeaders.length →
      InOrder 0 elf.tablesEnd ((⟨0, .header⟩ :: tables).map (LayoutItem.patch o after)))
    (hplaced : Placed elf.sectionHeaders (elf.overs cs) elf.sectionData elf.tablesEnd hdrs patches)
    (hat : ∀ i < elf.sectionHeaders.length, ∃ shdr overAlign data place, At elf (elf.overs cs) hdrs i shdr overAlign data place)
    (happlied : Applied hdrs elf.programHeaders cs cs.length s) :
    FileConsistent o elf ⟨header, s.sectionHeaders, s.programHeaders, elf.sectionData⟩
      (⟨0, .header⟩ :: tables ++ dataItems patches) contents ↔ elf.NobitsSized := by
  obtain ⟨after, hafter⟩ : ∃ after : PackedElf b,
    after = ⟨header, s.sectionHeaders, s.programHeaders, elf.sectionData⟩ := ⟨_, rfl⟩
  have hsections : after.sectionHeaders = s.sectionHeaders := by rw [hafter]
  have hlen : after.sectionHeaders.length = elf.sectionHeaders.length := by
    rw [hsections, happlied.length.1, hplaced.length]
  -- The header of a section is the placed one, but for the address.
  have hheader : ∀ (i : Nat) shdr', after.sectionHeaders[i]? = some shdr' → ∃ shdr overAlign data place addr,
      At elf (elf.overs cs) hdrs i shdr overAlign data place ∧ shdr' = { shdr.placed place data.size with shAddr := addr } := by
    intro i shdr' hi
    obtain ⟨shdr, overAlign, data, place, hat⟩ := hat i (by rw [← hlen]; exact (List.getElem?_eq_some_iff.mp hi).1)
    obtain ⟨addr, haddr⟩ := happlied.same i _ hat.placed
    rw [hsections, haddr, Option.some.injEq] at hi
    exact ⟨shdr, overAlign, data, place, addr, hat, hi.symm⟩
  rw [← hafter]
  have hpatches : (dataItems patches).map (LayoutItem.patch o after) = patches := by
    rw [dataItems, List.map_map]
    exact List.map_id patches
  have hitems : InOrder 0 (extent elf.tablesEnd (elf.filePieces cs))
      (((⟨0, .header⟩ : LayoutItem) :: tables ++ dataItems patches).map (LayoutItem.patch o after)) := by
    rw [List.map_append, hpatches]
    exact (horder after hlen (by rw [hafter]; exact happlied.length.2.2)).append hplaced.inOrder le_rfl (Nat.zero_le _)
      (le_extent _ _)
  have hdisjoint : (((⟨0, .header⟩ : LayoutItem) :: tables ++ dataItems patches).map
      (LayoutItem.patch o after)).Pairwise Patches.Disjoint := hitems.1.imp .inl
  constructor
  · intro hconsistent i shdr data hshdr hdata htype
    obtain ⟨shdr', overAlign, data', place, hi⟩ := hat i (List.getElem?_eq_some_iff.mp hshdr).1
    have hs := hshdr.symm.trans hi.isShdr
    have hd := hdata.symm.trans hi.isData
    rw [Option.some.injEq] at hs hd
    subst hs hd
    obtain ⟨addr, haddr⟩ := happlied.same i _ hi.placed
    have := hconsistent.nobits i shdr _ hshdr (by rw [hsections]; exact haddr) htype
    rw [← this]
    exact hi.size
  · intro hnobits
    refine ⟨hdisjoint, fun out hout => ?_, fun shdr' hshdr' => ?_, fun i shdr shdr' hshdr hshdr' htype => ?_⟩
    · obtain ⟨file, hwrite, -, hholds, -⟩ := @patchAll_holds U8 out _ (fun p hp => by
        obtain ⟨item, hitem, rfl⟩ := List.mem_map.mp hp
        exact (le_sizeForLayout o after _ item hitem).trans hout) hdisjoint
      refine ⟨file, hwrite, fun i shdr' content hshdr' hcontent => ?_⟩
      obtain ⟨shdr, overAlign, data, place, addr, hi, rfl⟩ := hheader i shdr' hshdr'
      obtain ⟨content', hcontent', hstores, hsmall⟩ := h.stores i shdr overAlign data hi.isShdr hi.isOver hi.isData
      rw [hcontent, Option.some.injEq] at hcontent'
      subst hcontent'
      refine ⟨fun _ => ?_, fun k byte hk => ?_⟩
      · rw [← (hstores.spec hsmall).1]
        exact hi.size.symm
      · obtain ⟨p, hp, hle, hbyte⟩ := hplaced.covers i shdr overAlign data place content hi.isShdr hi.isOver hi.isData hi.isPlace
          hstores hsmall k byte hk
        have hmem : p ∈ ((⟨0, .header⟩ : LayoutItem) :: tables ++ dataItems patches).map
            (LayoutItem.patch o after) := by
          rw [List.map_append, hpatches]
          exact List.mem_append_right _ hp
        have hfile := hholds p hmem (place + k - p.1) (List.getElem?_eq_some_iff.mp hbyte).1
        rw [show p.1 + (place + k - p.1) = place + k by omega, hbyte] at hfile
        have hoffset : ({ shdr.placed place data.size with shAddr := addr } : Shdr b).shOffset.toNat = place := hi.offset
        rw [hoffset, hfile]
    · obtain ⟨i, hat⟩ := List.mem_iff_getElem?.mp hshdr'
      obtain ⟨shdr, overAlign, data, place, addr, hi, rfl⟩ := hheader i shdr' hat
      have halign := h.overAlign i shdr overAlign hi.isShdr hi.isOver
      have hoffset : ({ shdr.placed place data.size with shAddr := addr } : Shdr b).shOffset.toNat = place := hi.offset
      rw [hoffset]
      refine hi.aligned.trans halign fun hsmall => ?_
      change shdr.shAddralign.toNat < 2
      unfold fileAlign at hsmall
      split at hsmall <;> omega
    · obtain ⟨shdr₁, overAlign, data, place, addr, hi, rfl⟩ := hheader i shdr' hshdr'
      have hs := hshdr.symm.trans hi.isShdr
      rw [Option.some.injEq] at hs
      subst hs
      have hsize := hnobits i shdr data hi.isShdr hi.isData htype
      exact BitVec.eq_of_toNat_eq (hi.size.trans hsize.symm)

/-! ## The segments -/

variable {i : Nat} {data : AStorage} {overAlign : Nat} {place : Nat} {shdr : Shdr b} {c : SegmentLayoutConstraint}

/-- Two sections next to each other in the file. -/
theorem At.next {shdr shdr' : Shdr b} {overAlign overAlign' : Nat} {data data' : AStorage} {place place' : Nat}
    (h : At elf (elf.overs cs) hdrs i shdr overAlign data place)
    (h' : At elf (elf.overs cs) hdrs (i + 1) shdr' overAlign' data' place') :
    place' = alignUp (place + data.size) (fileAlign overAlign' shdr'.shAddralign.toNat) := by
  obtain ⟨place₁, hplace₁, -, -, -, hnext⟩ := @places_spec elf.tablesEnd _ i _ _
    (getElem?_pieces h.isShdr h.isOver h.isData)
  rw [h.isPlace, Option.some.injEq] at hplace₁
  subst hplace₁
  have := hnext _ _ (getElem?_pieces h'.isShdr h'.isOver h'.isData)
  rw [h'.isPlace, Option.some.injEq] at this
  exact this

section

variable (h : At elf (elf.overs cs) hdrs i shdr overAlign data place)
include h

theorem At.memory_piece : elf.memoryPieces[i]? = some (data.size, shdr.shAddralign.toNat) := by
  rw [PackedElf.memoryPieces, List.getElem?_zipWith, h.isShdr, h.isData]

theorem At.file_piece : (elf.filePieces cs)[i]? = some (data.size, fileAlign overAlign shdr.shAddralign.toNat) :=
  getElem?_pieces h.isShdr h.isOver h.isData

theorem At.offset_eq : elf.offset cs i = place := by
  have hplace : (places elf.tablesEnd (elf.filePieces cs))[i]? = some place := h.isPlace
  rw [PackedElf.offset, List.getD_eq_getElem?_getD, hplace, Option.getD_some]

end

/-- The sections that a segment assigns are as far from its first one in the file as in memory. -/
def Equidistant (elf : PackedElf b) (cs : List SegmentLayoutConstraint) (l : Nat) (c : SegmentLayoutConstraint) : Prop :=
  ∀ j, Owns cs l c j → elf.offset cs j = elf.offset cs c.fromSec.toNat + reserve elf.memoryPieces c.fromSec.toNat j

/-- The next section is at its distance if and only if there is no seam. -/
theorem seam_iff {d : Nat} {shdr shdr' : Shdr b} {overAlign overAlign' : Nat} {data data' : AStorage}
    {place place' : Nat} (hj : At elf (elf.overs cs) hdrs (c.fromSec.toNat + d) shdr overAlign data place)
    (hj' : At elf (elf.overs cs) hdrs (c.fromSec.toNat + d + 1) shdr' overAlign' data' place')
    (hplace : place = elf.offset cs c.fromSec.toNat + reserve elf.memoryPieces c.fromSec.toNat (c.fromSec.toNat + d)) :
    place' = elf.offset cs c.fromSec.toNat + reserve elf.memoryPieces c.fromSec.toNat (c.fromSec.toNat + d + 1) ↔
      alignUp data.size shdr.shAddralign.toNat < data.size + max 1 (fileAlign overAlign' shdr'.shAddralign.toNat) ∧
        Aligned (fileAlign overAlign' shdr'.shAddralign.toNat) (elf.offset cs c.fromSec.toNat +
          reserve elf.memoryPieces c.fromSec.toNat (c.fromSec.toNat + d + 1)) := by
  have hup := le_alignUp data.size shdr.shAddralign.toNat
  rw [hj.next hj', alignUp_eq_iff, reserve_last hj.memory_piece, hplace]
  constructor
  · rintro ⟨haligned, -, hlt⟩
    exact ⟨by omega, haligned⟩
  · rintro ⟨hlt, haligned⟩
    exact ⟨haligned, by omega, by omega⟩

theorem Owns.lt {l j : Nat} (h : elf.Regular cs contents) (hc : cs[l]? = some c) (hj : c.Names j) :
    j < elf.sectionHeaders.length := by
  have hmemlen : elf.memoryPieces.length = elf.sectionHeaders.length := by
    rw [PackedElf.memoryPieces, List.length_zipWith, h.datas, Nat.min_self]
  have := (h.segments.range c (List.mem_of_getElem? hc) hj.1).2
  have := hj.2.2
  omega

/-- So all segments are equidistant if and only if there are no seams. -/
theorem equidistant_iff (h : elf.Regular cs contents)
    (hat : ∀ i < elf.sectionHeaders.length, ∃ shdr overAlign data place, At elf (elf.overs cs) hdrs i shdr overAlign data place) :
    (∀ (l : Nat) c, cs[l]? = some c → Equidistant elf cs l c) ↔ elf.Seamless cs := by
  constructor
  · intro hequi l c j size a size' a' hc hj hj' hsize hsize'
    obtain ⟨d, rfl⟩ := Nat.exists_eq_add_of_le hj.1.2.1
    obtain ⟨shdr, overAlign, data, place, hatj⟩ := hat _ (Owns.lt h hc hj.1)
    obtain ⟨shdr', overAlign', data', place', hatj'⟩ := hat _ (Owns.lt h hc hj'.1)
    obtain ⟨rfl, rfl⟩ := Prod.mk.inj (Option.some_inj.mp (hsize.symm.trans hatj.memory_piece))
    obtain ⟨rfl, rfl⟩ := Prod.mk.inj (Option.some_inj.mp (hsize'.symm.trans hatj'.file_piece))
    have hplace := hequi l c hc _ hj
    have hplace' := hequi l c hc _ hj'
    rw [hatj.offset_eq] at hplace
    rw [hatj'.offset_eq] at hplace'
    exact (seam_iff hatj hatj' hplace).mp hplace'
  · intro hseam l c hc j hj
    obtain ⟨d, rfl⟩ := Nat.exists_eq_add_of_le hj.1.2.1
    induction d with
    | zero => rw [Nat.add_zero, reserve_self, Nat.add_zero]
    | succ d ih =>
      have hprev : Owns cs l c (c.fromSec.toNat + d) :=
        h.segments.initial l c _ _ hc ⟨hj.1.1, by omega, by have := hj.1.2.2; omega⟩ (by omega) hj
      obtain ⟨shdr, overAlign, data, place, hatj⟩ := hat _ (Owns.lt h hc hprev.1)
      obtain ⟨shdr', overAlign', data', place', hatj'⟩ := hat _ (Owns.lt h hc hj.1)
      have hplace := ih hprev
      rw [hatj.offset_eq] at hplace
      rw [hatj'.offset_eq]
      exact (seam_iff hatj hatj' hplace).mpr (hseam l c _ _ _ _ _ hc hprev hj hatj.memory_piece hatj'.file_piece)

/-- The header that a section has in the end. -/
theorem address_at (h : elf.Regular cs contents) (hmemory : memory hdrs = elf.memoryPieces)
    (happlied : Applied hdrs elf.programHeaders cs cs.length s) {l : Nat} (hc : cs[l]? = some c) {j : Nat}
    (hj : Owns cs l c j) (hatj : At elf (elf.overs cs) hdrs j shdr overAlign data place) :
    ∃ shdr', s.sectionHeaders[j]? = some shdr' ∧ shdr'.shAddr.toNat = c.address elf.memoryPieces j ∧
      shdr'.shOffset.toNat = place ∧ shdr'.shSize.toNat = data.size ∧ shdr'.shAddralign = shdr.shAddralign := by
  refine ⟨(shdr.placed place data.size).at (c.address elf.memoryPieces j), ?_, ?_, hatj.offset, hatj.size, rfl⟩
  · rw [happlied.assigned l (List.getElem?_eq_some_iff.mp hc).1 c hc j hj, hatj.placed, hmemory, Option.map_some]
  · exact Nat.mod_eq_of_lt (h.segments.address l c j hc hj)

/-- The header that a segment has in the end. -/
theorem segment_at (h : elf.Regular cs contents)
    (hat : ∀ i < elf.sectionHeaders.length, ∃ shdr overAlign data place, At elf (elf.overs cs) hdrs i shdr overAlign data place)
    (hmemory : memory hdrs = elf.memoryPieces) (happlied : Applied hdrs elf.programHeaders cs cs.length s) {l : Nat}
    {p phdr : Phdr b} (hc : cs[l]? = some c) (hfrom : c.fromSec ≠ 0) (hp : elf.programHeaders[l]? = some p)
    (hphdr : s.programHeaders[l]? = some phdr) :
    phdr.pType = p.pType ∧ phdr.pVaddr.toNat = c.base ∧ phdr.pOffset.toNat = elf.offset cs c.fromSec.toNat ∧
      ∀ size a, elf.memoryPieces[c.toSec.toNat]? = some (size, a) →
        elf.offset cs c.fromSec.toNat + phdr.pFilesz.toNat = elf.offset cs c.toSec.toNat + size ∧
        ∀ (l' : Nat) c', cs[l']? = some c' → Owns cs l' c' c.toSec.toNat → p.pType = ptLoad →
          phdr.pMemsz.toNat = c.memorySize c' elf.memoryPieces size := by
  obtain ⟨hlimit, -⟩ := limit_le b
  obtain ⟨hle, -⟩ := h.segments.range c (List.mem_of_getElem? hc) hfrom
  have hnames : c.Names c.toSec.toNat := ⟨hfrom, hle, le_rfl⟩
  obtain ⟨first, overAlign₀, data₀, start, hfirst⟩ := hat _ (Owns.lt h hc ⟨hfrom, le_rfl, hle⟩)
  obtain ⟨last, overAlign₁, data₁, stop, hlast⟩ := hat _ (Owns.lt h hc hnames)
  obtain ⟨p', hp', htype, hoffset, hfilesz, hvaddr, hmemsz⟩ :=
    happlied.segment l (List.getElem?_eq_some_iff.mp hc).1 c p _ _ hc hfrom hp hfirst.placed hlast.placed
  rw [hphdr, Option.some.injEq] at hp'
  subst hp'
  rw [hfirst.offset_eq, hlast.offset_eq]
  refine ⟨htype, ?_, ?_, fun size a hsize => ⟨?_, fun l' c' hc' howns hload => ?_⟩⟩
  · rw [hvaddr]
    exact Nat.mod_eq_of_lt (h.segments.base c (List.mem_of_getElem? hc) hfrom)
  · rw [hoffset, hfirst.offset]
  · obtain ⟨rfl, -⟩ := Prod.mk.inj (Option.some_inj.mp (hsize.symm.trans hlast.memory_piece))
    have hend := hlast.end_
    have horder : start ≤ stop := by
      have hpieces := places_mono elf.tablesEnd hle hfirst.isPlace hlast.isPlace
      exact hpieces
    rw [hfilesz, BitVec.toNat_sub, BitVec.toNat_add, hlast.offset, hlast.size, hfirst.offset,
      Nat.mod_eq_of_lt (show stop + data₁.size < 2 ^ b.width by omega),
      show 2 ^ b.width - start + (stop + data₁.size) = 2 ^ b.width + (stop + data₁.size - start) by omega,
      Nat.add_mod_left, Nat.mod_eq_of_lt (by omega)]
    omega
  · obtain ⟨rfl, -⟩ := Prod.mk.inj (Option.some_inj.mp (hsize.symm.trans hlast.memory_piece))
    rw [hmemsz l' c' hc' howns hload, hmemory, hlast.size]
    exact Nat.mod_eq_of_lt (h.segments.loaded l l' c c' p _ _ hc hp hload hc' howns hnames hlast.memory_piece).2

/-- All segments are consistent if and only if addresses are aligned, there are no seams, segments that share sections
are apart, and what is loaded of others is no larger in the file. -/
theorem segments_consistent_iff (h : elf.Regular cs contents)
    (hat : ∀ i < elf.sectionHeaders.length, ∃ shdr overAlign data place, At elf (elf.overs cs) hdrs i shdr overAlign data place)
    (hmemory : memory hdrs = elf.memoryPieces) (happlied : Applied hdrs elf.programHeaders cs cs.length s) :
    (∀ (l : Nat) c phdr, cs[l]? = some c → c.fromSec ≠ 0 → s.programHeaders[l]? = some phdr →
      SegmentConsistent cs ⟨header, s.sectionHeaders, s.programHeaders, elf.sectionData⟩ l c phdr) ↔
        elf.AddressAligned cs ∧ elf.Seamless cs ∧ elf.Apart cs ∧ elf.Loads cs := by
  have hphdrs : ∀ (l : Nat) c, cs[l]? = some c → ∃ p phdr, elf.programHeaders[l]? = some p ∧
      s.programHeaders[l]? = some phdr := by
    intro l c hc
    have hl := (List.getElem?_eq_some_iff.mp hc).1
    have hlen := h.segments.segments.1
    exact ⟨_, _, List.getElem?_eq_getElem (by omega), List.getElem?_eq_getElem (by rw [happlied.length.2.2]; omega)⟩
  constructor
  · intro hall
    have hequi : ∀ (l : Nat) c, cs[l]? = some c → Equidistant elf cs l c := by
      intro l c hc j hj
      obtain ⟨p, phdr, hp, hphdr⟩ := hphdrs l c hc
      obtain ⟨shdr, overAlign, data, place, hatj⟩ := hat _ (Owns.lt h hc hj.1)
      obtain ⟨shdr', hshdr', haddr, hoffset, -, -⟩ := address_at h hmemory happlied hc hj hatj
      obtain ⟨-, hvaddr, hstart, -⟩ := segment_at h hat hmemory happlied hc hj.1.1 hp hphdr
      have heq := ((hall l c phdr hc hj.1.1 hphdr).addresses j shdr' hj.1 hj.2 hshdr').2
      rw [haddr, hoffset, hvaddr, hstart, SegmentLayoutConstraint.address] at heq
      rw [hatj.offset_eq]
      omega
    refine ⟨fun l c j size a hc hj hsize => ?_, (equidistant_iff h hat).mp hequi,
      fun l l₁ l₂ c c₁ c₂ i j size a size' a' hc hi hj hij hc₁ howns hc₂ howns' _ hsize hsize' => ?_,
      fun l l' c c' p size a hc hp hload hc' howns hnames _ hsize => ?_⟩
    · obtain ⟨p, phdr, hp, hphdr⟩ := hphdrs l c hc
      obtain ⟨shdr, overAlign, data, place, hatj⟩ := hat _ (Owns.lt h hc hj.1)
      obtain ⟨shdr', hshdr', haddr, -, -, halign⟩ := address_at h hmemory happlied hc hj hatj
      obtain ⟨-, rfl⟩ := Prod.mk.inj (Option.some_inj.mp (hsize.symm.trans hatj.memory_piece))
      have haligned := ((hall l c phdr hc hj.1.1 hphdr).addresses j shdr' hj.1 hj.2 hshdr').1
      rwa [halign, haddr] at haligned
    · obtain ⟨p, phdr, hp, hphdr⟩ := hphdrs l c hc
      obtain ⟨shdr, overAlign, data, place, hati⟩ := hat _ (Owns.lt h hc hi)
      obtain ⟨shdr', overAlign', data', place', hatj⟩ := hat _ (Owns.lt h hc hj)
      obtain ⟨shdr₁, hshdr₁, haddr, -, hlen, -⟩ := address_at h hmemory happlied hc₁ howns hati
      obtain ⟨shdr₂, hshdr₂, haddr', -, hlen', -⟩ := address_at h hmemory happlied hc₂ howns' hatj
      obtain ⟨rfl, -⟩ := Prod.mk.inj (Option.some_inj.mp (hsize.symm.trans hati.memory_piece))
      obtain ⟨rfl, -⟩ := Prod.mk.inj (Option.some_inj.mp (hsize'.symm.trans hatj.memory_piece))
      have hdisjoint := (hall l c phdr hc hi.1 hphdr).disjoint i j shdr₁ shdr₂ hi hj hij hshdr₁ hshdr₂
      rwa [haddr, haddr', hlen, hlen'] at hdisjoint
    · obtain ⟨-, phdr, -, hphdr⟩ := hphdrs l c hc
      obtain ⟨htype, -, -, hsizes⟩ := segment_at h hat hmemory happlied hc hnames.1 hp hphdr
      obtain ⟨hfilesz, hmemsz⟩ := hsizes size a hsize
      have hle := (hall l c phdr hc hnames.1 hphdr).loaded (htype.trans hload)
      rw [hmemsz l' c' hc' howns hload] at hle
      omega
  · rintro ⟨haligned, hseamless, hapart, hloads⟩ l c phdr hc hfrom hphdr
    have hequi := (equidistant_iff h hat).mpr hseamless
    obtain ⟨p, -, hp, -⟩ := hphdrs l c hc
    obtain ⟨htype, hvaddr, hstart, hsizes⟩ := segment_at h hat hmemory happlied hc hfrom hp hphdr
    have howner : ∀ {j}, c.Names j → ∃ (l' : Nat) (c' : SegmentLayoutConstraint), cs[l']? = some c' ∧ Owns cs l' c' j := by
      intro j hj
      obtain ⟨l', -, hrest⟩ := Named.exists_owner ⟨l, Nat.lt_succ_self l, c, hc, hj⟩
      exact ⟨l', hrest⟩
    refine ⟨fun j shdr' hj hfresh hshdr' => ?_, fun i j shdr shdr' hi hj hij hshdr hshdr' => ?_, fun hload => ?_⟩
    · obtain ⟨shdr, overAlign, data, place, hatj⟩ := hat j (Owns.lt h hc hj)
      obtain ⟨shdr₁, hshdr₁, haddr, hoffset, -, halign⟩ := address_at h hmemory happlied hc ⟨hj, hfresh⟩ hatj
      obtain rfl := Option.some_inj.mp (hshdr'.symm.trans hshdr₁)
      have hplace := hequi l c hc j ⟨hj, hfresh⟩
      rw [hatj.offset_eq] at hplace
      rw [halign, haddr, hoffset, hvaddr, hstart, hplace, SegmentLayoutConstraint.address]
      exact ⟨haligned l c j _ _ hc ⟨hj, hfresh⟩ hatj.memory_piece, by omega⟩
    · obtain ⟨l₁, c₁, hc₁, howns⟩ := howner hi
      obtain ⟨l₂, c₂, hc₂, howns'⟩ := howner hj
      obtain ⟨shdr₀, overAlign, data, place, hati⟩ := hat _ (Owns.lt h hc hi)
      obtain ⟨shdr₀', overAlign', data', place', hatj⟩ := hat _ (Owns.lt h hc hj)
      obtain ⟨shdr₁, hshdr₁, haddr, -, hlen, -⟩ := address_at h hmemory happlied hc₁ howns hati
      obtain ⟨shdr₂, hshdr₂, haddr', -, hlen', -⟩ := address_at h hmemory happlied hc₂ howns' hatj
      obtain rfl := Option.some_inj.mp (hshdr.symm.trans hshdr₁)
      obtain rfl := Option.some_inj.mp (hshdr'.symm.trans hshdr₂)
      rw [haddr, haddr', hlen, hlen']
      by_cases hsame : l₁ = l₂
      · -- One segment assigns both, one behind the other.
        subst hsame
        obtain rfl := Option.some_inj.mp (hc₁.symm.trans hc₂)
        obtain ⟨d, rfl⟩ := Nat.exists_eq_add_of_le howns.1.2.1
        have hnext := reserve_last hati.memory_piece
        have hmono := @reserve_mono elf.memoryPieces c₁.fromSec.toNat (c₁.fromSec.toNat + d + 1) j (by omega)
        have hup := le_alignUp data.size shdr₀.shAddralign.toNat
        refine .inl ?_
        rw [SegmentLayoutConstraint.address, SegmentLayoutConstraint.address]
        omega
      · exact hapart l l₁ l₂ c c₁ c₂ i j _ _ _ _ hc hi hj hij hc₁ howns hc₂ howns' hsame hati.memory_piece
          hatj.memory_piece
    · have hnames : c.Names c.toSec.toNat := ⟨hfrom, (h.segments.range c (List.mem_of_getElem? hc) hfrom).1, le_rfl⟩
      obtain ⟨l', c', hc', howns⟩ := howner hnames
      obtain ⟨last, overAlign, data, stop, hlast⟩ := hat _ (Owns.lt h hc hnames)
      obtain ⟨hfilesz, hmemsz⟩ := hsizes _ _ hlast.memory_piece
      rw [hmemsz l' c' hc' howns (htype ▸ hload)]
      by_cases hsame : l' = l
      · subst hsame
        obtain rfl := Option.some_inj.mp (hc.symm.trans hc')
        have hplace := hequi l' c hc _ howns
        have hup := le_alignUp data.size c.alignment.toNat
        have hup' := le_alignUp (c.address elf.memoryPieces c.toSec.toNat + alignUp data.size c.alignment.toNat - c.base)
          c.alignment.toNat
        rw [SegmentLayoutConstraint.memorySize]
        rw [SegmentLayoutConstraint.address] at hup' ⊢
        omega
      · have := hloads l l' c c' p _ _ hc hp (htype ▸ hload) hc' howns hnames hsame hlast.memory_piece
        omega

end

/-- A regular file has a consistent layout if and only if its sections without bits have data of their size, the
addresses of segments are aligned, there are no seams in them, and those that share sections are apart and not larger
in the file. -/
theorem consistent_iff (o : Order) {elf : PackedElf b} {constraints : Option (List SegmentLayoutConstraint)}
    {contents : List (List (Option U8))} (h : elf.Regular (constraints.getD []) contents) :
    Consistent o elf constraints contents ↔ elf.NobitsSized ∧ elf.AddressAligned (constraints.getD []) ∧
      elf.Seamless (constraints.getD []) ∧ elf.Apart (constraints.getD []) ∧ elf.Loads (constraints.getD []) := by
  obtain ⟨header, tables, hdrs, patches, s, hlayout, horder, hplaced, hmemory, hat, happlied⟩ := calculateLayout_spec o h
  have hfile := @file_consistent_iff b elf _ contents hdrs patches s o header tables h horder hplaced hat happlied
  have hsegments := @segments_consistent_iff b elf _ contents hdrs s header h hat hmemory happlied
  constructor
  · rintro ⟨after, items, hlayout', hconsistent, hall⟩
    rw [hlayout, Option.some.injEq, Prod.mk.injEq] at hlayout'
    obtain ⟨rfl, rfl⟩ := hlayout'
    exact ⟨hfile.mp hconsistent, hsegments.mp hall⟩
  · rintro ⟨hnobits, hrest⟩
    exact ⟨_, _, hlayout, hfile.mpr hnobits, hsegments.mpr hrest⟩

/-- `PT_DYNAMIC` -/
def ptDynamic : U32 := 2

/-- Two segments of the same two sections, the second one at multiples of 4. -/
def twoSections (data : List U8) : PackedElf .b64 where
  header := { eIdent := Vector.replicate 16 0, eShentsize := 64, eShnum := 3, ePhentsize := 56, ePhnum := 2 }
  sectionHeaders := [{}, { shType := 1, shAddralign := 1 }, { shType := 1, shAddralign := 4 }]
  programHeaders := [{ pType := ptDynamic }, { pType := ptLoad }]
  sectionData := [.null, .block data, .block [0x62]]

def bothSections : SegmentLayoutConstraint where
  alignment := 16
  fromSec := 1
  toSec := 2
  baseAddress := 4096

theorem names_bothSections {j : Nat} (h : bothSections.Names j) : j = 1 ∨ j = 2 := by
  obtain ⟨-, hle, hge⟩ := h
  have h1 : bothSections.fromSec.toNat = 1 := rfl
  have h2 : bothSections.toSec.toNat = 2 := rfl
  omega

theorem eq_bothSections {l : Nat} {c : SegmentLayoutConstraint} (hc : [bothSections, bothSections][l]? = some c) :
    c = bothSections := by
  have hmem := List.mem_of_getElem? hc
  simpa using hmem

/-- The first of the two segments assigns the sections. -/
theorem owns_bothSections {l j : Nat} {c : SegmentLayoutConstraint} (hc : [bothSections, bothSections][l]? = some c)
    (h : Owns [bothSections, bothSections] l c j) : l = 0 ∧ c = bothSections ∧ (j = 1 ∨ j = 2) := by
  obtain rfl := eq_bothSections hc
  refine ⟨?_, rfl, names_bothSections h.1⟩
  by_contra hl
  exact h.2 ⟨0, by omega, bothSections, rfl, h.1⟩

theorem regular_twoSections : (twoSections [0x61, 0x61, 0x61, 0x61]).Regular [bothSections, bothSections]
    [[], [some 0x61, some 0x61, some 0x61, some 0x61], [some 0x62]] := by
  have hfile : (twoSections [0x61, 0x61, 0x61, 0x61]).filePieces [bothSections, bothSections] =
      [(0, 0), (4, 16), (1, 4)] := rfl
  have hmem : (twoSections [0x61, 0x61, 0x61, 0x61]).memoryPieces = [(0, 0), (4, 1), (1, 4)] := rfl
  have hovers : (twoSections [0x61, 0x61, 0x61, 0x61]).overs [bothSections, bothSections] = [0, 16, 0] := rfl
  constructor
  · exact fun _ => ⟨rfl, rfl⟩
  · exact fun _ => ⟨rfl, rfl⟩
  · rfl
  · intro shdr hshdr
    simp only [twoSections, List.mem_cons, List.not_mem_nil, or_false] at hshdr
    rcases hshdr with rfl | rfl | rfl <;> decide
  · rw [hfile]
    decide
  · rw [hovers]
    intro i shdr overAlign hshdr hover
    rcases i with _ | _ | _ | i
    · obtain rfl := Option.some.inj hshdr
      exact .inl (by decide)
    · obtain rfl := Option.some.inj hshdr
      exact .inl (by decide)
    · obtain rfl := Option.some.inj hshdr
      obtain rfl := Option.some.inj hover
      exact .inr (by decide)
    · cases hshdr
  · rw [hovers]
    intro i shdr overAlign data hshdr hover hdata
    rcases i with _ | _ | _ | i
    · obtain rfl := Option.some.inj hdata
      exact ⟨_, rfl, .null, by decide⟩
    · obtain rfl := Option.some.inj hdata
      exact ⟨_, rfl, .block _, by decide⟩
    · obtain rfl := Option.some.inj hdata
      exact ⟨_, rfl, .block _, by decide⟩
    · cases hdata
  · rw [hmem]
    have hall : ∀ c ∈ [bothSections, bothSections], c = bothSections := by simp
    constructor
    · decide
    · decide
    · intro c hc _
      rw [hall c hc]
      decide
    · intro c hc _
      rw [hall c hc]
      exact ⟨4, rfl⟩
    · rintro l c i j hc hi - hj
      obtain ⟨rfl, rfl, -⟩ := owns_bothSections hc hj
      exact ⟨hi, fun ⟨l', hl', _⟩ => Nat.not_lt_zero l' hl'⟩
    · intro c hc _
      rw [hall c hc]
      decide
    · intro l c j hc hj
      obtain ⟨-, rfl, rfl | rfl⟩ := owns_bothSections hc hj <;> decide
    · intro l l' c c' p size a hc _ _ hc' _ _ hlast
      obtain rfl := eq_bothSections hc
      obtain rfl := eq_bothSections hc'
      obtain ⟨rfl, rfl⟩ := Prod.mk.inj (Option.some.inj hlast)
      decide

theorem consistent_twoSections : Consistent .little (twoSections [0x61, 0x61, 0x61, 0x61])
    (some [bothSections, bothSections]) [[], [some 0x61, some 0x61, some 0x61, some 0x61], [some 0x62]] := by
  have hfile : (twoSections [0x61, 0x61, 0x61, 0x61]).filePieces [bothSections, bothSections] =
      [(0, 0), (4, 16), (1, 4)] := rfl
  have hmem : (twoSections [0x61, 0x61, 0x61, 0x61]).memoryPieces = [(0, 0), (4, 1), (1, 4)] := rfl
  refine (consistent_iff .little regular_twoSections).mpr ⟨fun i shdr data hshdr _ htype => ?_,
    fun l c j size a hc hj hsize => ?_, fun l c j size a size' a' hc hj hj' hsize hsize' => ?_,
    fun l l₁ l₂ c c₁ c₂ i j size a size' a' _ _ _ _ hc₁ h₁ hc₂ h₂ hne => ?_,
    fun l l' c c' p size a hc _ _ hc' _ _ _ hsize => ?_⟩
  · have hmem := List.mem_of_getElem? hshdr
    simp only [twoSections, List.mem_cons, List.not_mem_nil, or_false] at hmem
    rcases hmem with rfl | rfl | rfl <;> cases htype
  · rw [hmem] at hsize ⊢
    obtain ⟨-, rfl, rfl | rfl⟩ := owns_bothSections hc hj
    · obtain ⟨rfl, rfl⟩ := Prod.mk.inj (Option.some.inj hsize)
      exact .inl (by decide)
    · obtain ⟨rfl, rfl⟩ := Prod.mk.inj (Option.some.inj hsize)
      exact .inr (by decide)
  · obtain ⟨-, rfl, hj⟩ := owns_bothSections hc hj
    obtain ⟨-, -, hj'⟩ := owns_bothSections hc hj'
    obtain rfl : j = 1 := by omega
    rw [PackedElf.offset, hfile, hmem] at *
    obtain ⟨rfl, rfl⟩ := Prod.mk.inj (Option.some.inj hsize)
    obtain ⟨rfl, rfl⟩ := Prod.mk.inj (Option.some.inj hsize')
    exact ⟨by decide, .inr (by decide)⟩
  · exact absurd ((owns_bothSections hc₁ h₁).1.trans (owns_bothSections hc₂ h₂).1.symm) hne
  · obtain rfl := eq_bothSections hc
    obtain rfl := eq_bothSections hc'
    rw [PackedElf.offset, PackedElf.offset, hfile, hmem] at *
    obtain ⟨rfl, rfl⟩ := Prod.mk.inj (Option.some.inj hsize)
    decide

/-- With one byte in the first section, the second one is at an odd address. -/
theorem layout_parts_twoSections :
    (calculateLayout (twoSections [0x61]) (some [bothSections, bothSections])).map (fun r =>
      r.1.sectionHeaders.map fun h => (h.shAddralign.toNat, h.shAddr.toNat, h.shOffset.toNat)) =
        some [(0, 0, 368), (1, 4096, 368), (4, 4097, 372)] ∧
    ¬ Consistent .little (twoSections [0x61]) (some [bothSections, bothSections]) [[], [some 0x61], [some 0x62]] := by
  have hlayout : (calculateLayout (twoSections [0x61]) (some [bothSections, bothSections])).map (fun r =>
      r.1.sectionHeaders.map fun h => (h.shAddralign.toNat, h.shAddr.toNat, h.shOffset.toNat)) =
        some [(0, 0, 368), (1, 4096, 368), (4, 4097, 372)] := by decide
  have hprogram : (calculateLayout (twoSections [0x61]) (some [bothSections, bothSections])).map (fun r =>
      r.1.programHeaders.length) = some 2 := by decide
  refine ⟨hlayout, ?_⟩
  rintro ⟨after, items, hafter, -, hsegments⟩
  rw [hafter, Option.map_some, Option.some.injEq] at hlayout hprogram
  have hlen : after.sectionHeaders.length = 3 := by
    have := congrArg List.length hlayout
    rwa [List.length_map] at this
  have hlen' : 0 < after.programHeaders.length := by
    have htwo : after.programHeaders.length = 2 := hprogram
    omega
  have hsecond := congrArg (fun l => l[2]?) hlayout
  simp only [List.getElem?_map] at hsecond
  have hat : after.sectionHeaders[2]? = some after.sectionHeaders[2] := List.getElem?_eq_getElem (by omega)
  rw [hat, Option.map_some] at hsecond
  obtain ⟨halign, haddr, -⟩ : after.sectionHeaders[2].shAddralign.toNat = 4 ∧
      after.sectionHeaders[2].shAddr.toNat = 4097 ∧ after.sectionHeaders[2].shOffset.toNat = 372 := by
    simpa using hsecond
  have hconsistent := hsegments 0 bothSections _ rfl (by decide) (List.getElem?_eq_getElem hlen')
  have haligned := (hconsistent.addresses 2 _ ⟨by decide, by decide, by decide⟩ (fun ⟨l, hl, _⟩ => Nat.not_lt_zero l hl) hat).1
  rw [halign, haddr] at haligned
  rcases haligned with hsmall | hdvd
  · omega
  · omega

end Pepp.Elf

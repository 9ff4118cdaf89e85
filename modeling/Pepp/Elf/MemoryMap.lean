import Mathlib.Data.List.Induction
import Mathlib.Data.List.Pairwise
import Pepp.Integers

/-!
# The memory map of a file

Segments that end where another one with the same permissions begins become one
region of memory. A segment is compared with the regions that the earlier ones
made, of which there can be one below and one above it.
-/

namespace Pepp.Elf

def PT_LOAD : U32 := 1

def PT_LOPROC : U32 := 0x70000000

def PF_X : U32 := 1

def PF_W : U32 := 2

def PF_R : U32 := 4

/-- Its place in the file stands for the pointer to a segment. -/
structure Segment where
  index : Nat
  type : U32
  flags : U32
  virtualAddress : U64
  memorySize : U64
  deriving DecidableEq, Repr

structure SegmentRegion where
  r : Bool
  w : Bool
  x : Bool
  minOffset : U16
  maxOffset : U16
  seg : Segment
  deriving DecidableEq, Repr

structure MemoryRegion where
  r : Bool
  w : Bool
  minOffset : U16
  maxOffset : U16
  segs : List Segment
  deriving DecidableEq, Repr

/-- The larger of an unsigned number and zero is the number, so that an empty segment ends below its first address. -/
def loadableSegment (seg : Segment) : SegmentRegion :=
  let minOffset : U16 := seg.virtualAddress.setWidth 16
  ⟨seg.flags &&& PF_R != 0, seg.flags &&& PF_W != 0, seg.flags &&& PF_X != 0, minOffset,
    (minOffset.setWidth 64 + (seg.memorySize - 1)).setWidth 16, seg⟩

def getLoadableSegments (segments : List Segment) : List SegmentRegion :=
  (segments.filter fun seg => seg.type == PT_LOAD || seg.type == PT_LOPROC + 1).map loadableSegment

/-- `similar`, in the arithmetic of wider integers -/
def MemoryRegion.similar (self : MemoryRegion) (seg : SegmentRegion) : Bool :=
  self.r == seg.r && self.w == seg.w &&
    (self.maxOffset.toNat + 1 == seg.minOffset.toNat || seg.maxOffset.toNat + 1 == self.minOffset.toNat)

def MemoryRegion.extend (self : MemoryRegion) (reg : SegmentRegion) : MemoryRegion :=
  { self with
    maxOffset := if self.maxOffset < reg.maxOffset then reg.maxOffset else self.maxOffset
    minOffset := if reg.minOffset < self.minOffset then reg.minOffset else self.minOffset
    segs := if reg.seg.type = PT_LOAD then self.segs ++ [reg.seg] else self.segs }

def MemoryRegion.visit (reg : SegmentRegion) (self : MemoryRegion) : MemoryRegion :=
  if self.similar reg then self.extend reg else self

/-- A turn of the loop of `mergeSegmentRegions`. -/
def mergeSegmentRegion (ret : List MemoryRegion) (reg : SegmentRegion) : List MemoryRegion :=
  if ret.any (·.similar reg) then ret.map (·.visit reg)
  else ret ++ [⟨reg.r, reg.w, reg.minOffset, reg.maxOffset, [reg.seg]⟩]

def mergeSegmentRegions (regions : List SegmentRegion) : List MemoryRegion := regions.foldl mergeSegmentRegion []

/-! ## What a memory map should be -/

def SegmentRegion.Has (self : SegmentRegion) (a : Nat) : Prop := self.minOffset.toNat ≤ a ∧ a ≤ self.maxOffset.toNat

def MemoryRegion.Has (self : MemoryRegion) (a : Nat) : Prop := self.minOffset.toNat ≤ a ∧ a ≤ self.maxOffset.toNat

def MemoryRegion.Apart (self other : MemoryRegion) : Prop := ∀ a, self.Has a → ¬other.Has a

def MemoryRegion.Contains (self : MemoryRegion) (seg : SegmentRegion) : Prop := ∀ a, seg.Has a → self.Has a

/-- Each segment is there once, with addresses of its own. -/
structure Separate (segs : List SegmentRegion) : Prop where
  nonempty : ∀ s ∈ segs, s.minOffset.toNat ≤ s.maxOffset.toNat
  disjoint : segs.Pairwise fun s t => ∀ a, s.Has a → ¬t.Has a
  once : (segs.map SegmentRegion.seg).Nodup

structure ExactMap (segs : List SegmentRegion) (regions : List MemoryRegion) : Prop where
  disjoint : regions.Pairwise MemoryRegion.Apart
  union : ∀ a, (∃ r ∈ regions, r.Has a) ↔ ∃ s ∈ segs, s.Has a
  permissions : ∀ r ∈ regions, ∀ s ∈ segs, ∀ a, r.Has a → s.Has a → r.r = s.r ∧ r.w = s.w
  loaded : ∀ s ∈ segs, s.seg.type = PT_LOAD → ∃ i : Nat, ∃ r : MemoryRegion, regions[i]? = some r ∧ s.seg ∈ r.segs ∧
    r.Contains s ∧ ∀ j : Nat, ∀ r' : MemoryRegion, regions[j]? = some r' → s.seg ∈ r'.segs → j = i
  others : ∀ s ∈ segs, s.seg.type ≠ PT_LOAD → ∀ r ∈ regions, s.seg ∉ r.segs

/-- A segment with the same permissions ends right below another one. -/
def SegmentRegion.Below (self other : SegmentRegion) : Prop :=
  self.r = other.r ∧ self.w = other.w ∧ self.maxOffset.toNat + 1 = other.minOffset.toNat

/-- The earlier segments touch a new one on one side at most, and on one side if it is not loaded. -/
structure Joins (front : List SegmentRegion) (s : SegmentRegion) : Prop where
  one : ¬((∃ t ∈ front, t.Below s) ∧ ∃ t ∈ front, s.Below t)
  some : s.seg.type = PT_LOAD ∨ (∃ t ∈ front, t.Below s) ∨ ∃ t ∈ front, s.Below t

def Mergeable (segs : List SegmentRegion) : Prop := ∀ front s back, segs = front ++ s :: back → Joins front s

variable {seg : Segment} {a : Nat}

/-- The handles of the loadable segments of a file are different. -/
theorem nodup_getLoadableSegments {segments : List Segment} (h : segments.Nodup) :
    ((getLoadableSegments segments).map SegmentRegion.seg).Nodup := by
  have hseg : SegmentRegion.seg ∘ loadableSegment = id := rfl
  rw [getLoadableSegments, List.map_map, hseg, List.map_id]
  exact h.filter _

/-- The range of a segment that is not empty and ends below the last address. -/
theorem loadableSegment_range (hsize : 0 < seg.memorySize.toNat)
    (hfits : seg.virtualAddress.toNat + seg.memorySize.toNat ≤ 65536) :
    (loadableSegment seg).minOffset.toNat = seg.virtualAddress.toNat ∧
      (loadableSegment seg).maxOffset.toNat + 1 = seg.virtualAddress.toNat + seg.memorySize.toNat := by
  have hlt := seg.memorySize.isLt
  have hone : 1#64 ≤ seg.memorySize := BitVec.le_def.mpr hsize
  have hsub : (seg.memorySize - 1).toNat = seg.memorySize.toNat - 1 := BitVec.toNat_sub_of_le hone
  rw [loadableSegment]
  dsimp only
  rw [BitVec.toNat_setWidth, BitVec.toNat_setWidth, BitVec.toNat_add, hsub, BitVec.toNat_setWidth,
    BitVec.toNat_setWidth]
  omega

variable {segs front : List SegmentRegion} {regions : List MemoryRegion} {s : SegmentRegion} {r r' : MemoryRegion}

/-! ## Regions -/

theorem similar_iff : r.similar s = true ↔ r.r = s.r ∧ r.w = s.w ∧
    (r.maxOffset.toNat + 1 = s.minOffset.toNat ∨ s.maxOffset.toNat + 1 = r.minOffset.toNat) := by
  simp [MemoryRegion.similar, and_assoc]

theorem extend_maxOffset : (r.extend s).maxOffset.toNat = max r.maxOffset.toNat s.maxOffset.toNat := by
  rw [MemoryRegion.extend]
  dsimp only
  split
  · next h =>
    have hlt := BitVec.lt_def.mp h
    omega
  · next h =>
    have hle := Nat.not_lt.mp fun hlt => h (BitVec.lt_def.mpr hlt)
    omega

theorem extend_minOffset : (r.extend s).minOffset.toNat = min r.minOffset.toNat s.minOffset.toNat := by
  rw [MemoryRegion.extend]
  dsimp only
  split
  · next h =>
    have hlt := BitVec.lt_def.mp h
    omega
  · next h =>
    have hle := Nat.not_lt.mp fun hlt => h (BitVec.lt_def.mpr hlt)
    omega

theorem mem_extend : seg ∈ (r.extend s).segs ↔ seg ∈ r.segs ∨ (s.seg.type = PT_LOAD ∧ seg = s.seg) := by
  rw [MemoryRegion.extend]
  dsimp only
  split
  · next h => simp [h]
  · next h => simp [h]

/-- Regions only grow. -/
theorem has_visit (h : r.Has a) : (r.visit s).Has a := by
  rw [MemoryRegion.visit]
  split
  · rw [MemoryRegion.Has, extend_maxOffset, extend_minOffset]
    obtain ⟨hle, hle'⟩ := h
    omega
  · exact h

theorem mem_visit (h : seg ∈ r.segs) : seg ∈ (r.visit s).segs := by
  rw [MemoryRegion.visit]
  split
  · exact mem_extend.mpr (.inl h)
  · exact h

/-- A region and a segment that touch become the addresses of both. -/
theorem has_extend (hsimilar : r.similar s = true) (hr : r.minOffset.toNat ≤ r.maxOffset.toNat)
    (hs : s.minOffset.toNat ≤ s.maxOffset.toNat) : (r.extend s).Has a ↔ r.Has a ∨ s.Has a := by
  obtain ⟨-, -, htouch⟩ := similar_iff.mp hsimilar
  rw [MemoryRegion.Has, MemoryRegion.Has, SegmentRegion.Has, extend_maxOffset, extend_minOffset]
  omega

theorem visit_permissions : (r.visit s).r = r.r ∧ (r.visit s).w = r.w := by
  rw [MemoryRegion.visit]
  split
  · exact ⟨rfl, rfl⟩
  · exact ⟨rfl, rfl⟩

theorem has_visit_cases (hr : r.minOffset.toNat ≤ r.maxOffset.toNat) (hs : s.minOffset.toNat ≤ s.maxOffset.toNat)
    (h : (r.visit s).Has a) : r.Has a ∨ (r.similar s = true ∧ s.Has a) := by
  rw [MemoryRegion.visit] at h
  split at h
  · next hsimilar => exact ((has_extend hsimilar hr hs).mp h).imp_right fun ha => ⟨hsimilar, ha⟩
  · exact .inl h

theorem mem_visit_cases (h : seg ∈ (r.visit s).segs) :
    seg ∈ r.segs ∨ (r.similar s = true ∧ s.seg.type = PT_LOAD ∧ seg = s.seg) := by
  rw [MemoryRegion.visit] at h
  split at h
  · next hsimilar => exact (mem_extend.mp h).imp_right fun hseg => ⟨hsimilar, hseg⟩
  · exact .inl h

instance : Std.Symm MemoryRegion.Apart where
  symm _ _ h a ha hb := h a hb ha

theorem eq_of_has (h : regions.Pairwise MemoryRegion.Apart) (hr : r ∈ regions) (hr' : r' ∈ regions) (ha : r.Has a)
    (ha' : r'.Has a) : r = r' := by
  by_contra hne
  exact h.forall hr hr' hne a ha ha'

/-! ## Merged segments -/

/-- A region has a segment, and its handle if the segment is loaded. -/
structure Hosts (r : MemoryRegion) (s : SegmentRegion) : Prop where
  read : r.r = s.r
  write : r.w = s.w
  contains : r.Contains s
  attached : s.seg.type = PT_LOAD → s.seg ∈ r.segs

/-- What holds after each turn that has merged a segment as it should be. -/
structure Merged (segs : List SegmentRegion) (regions : List MemoryRegion) : Prop where
  nonempty : ∀ r ∈ regions, r.minOffset.toNat ≤ r.maxOffset.toNat
  disjoint : regions.Pairwise MemoryRegion.Apart
  covered : ∀ r ∈ regions, ∀ a, r.Has a → ∃ s ∈ segs, s.Has a
  hosted : ∀ s ∈ segs, ∃ r ∈ regions, Hosts r s
  attached : ∀ r ∈ regions, ∀ seg ∈ r.segs, ∃ s ∈ segs, s.seg = seg ∧ seg.type = PT_LOAD ∧ r.Contains s

/-- A region that has an address of a segment has all of the segment. -/
theorem Merged.hosts (h : Merged segs regions) (hr : r ∈ regions) (hs : s ∈ segs) (ha : r.Has a) (hsa : s.Has a) :
    Hosts r s := by
  obtain ⟨r', hr', hhosts⟩ := h.hosted s hs
  rw [eq_of_has h.disjoint hr hr' ha (hhosts.contains a hsa)]
  exact hhosts

theorem Separate.of_append {back : List SegmentRegion} (h : Separate (front ++ back)) : Separate front where
  nonempty s hs := h.nonempty s (List.mem_append_left _ hs)
  disjoint := (List.pairwise_append.mp h.disjoint).1
  once := by
    have honce := h.once
    rw [List.map_append] at honce
    exact (List.nodup_append.mp honce).1

theorem Separate.last (h : Separate (front ++ [s])) :
    s.minOffset.toNat ≤ s.maxOffset.toNat ∧ ∀ t ∈ front, ∀ a, t.Has a → ¬s.Has a :=
  ⟨h.nonempty s (List.mem_append_right _ List.mem_cons_self), fun t ht a =>
    (List.pairwise_append.mp h.disjoint).2.2 t ht s List.mem_cons_self a⟩

section Step

variable (hmerged : Merged front regions) (hseparate : Separate (front ++ [s]))

include hmerged hseparate

/-- No region has an address of a new segment. -/
theorem Merged.not_has (hr : r ∈ regions) {a : Nat} (ha : r.Has a) : ¬s.Has a := by
  obtain ⟨t, ht, hta⟩ := hmerged.covered r hr a ha
  exact hseparate.last.2 t ht a hta

/-- A region that ends below a new segment ends with an earlier segment. -/
theorem Merged.below_iff :
    (∃ r ∈ regions, r.r = s.r ∧ r.w = s.w ∧ r.maxOffset.toNat + 1 = s.minOffset.toNat) ↔ ∃ t ∈ front, t.Below s := by
  constructor
  · rintro ⟨r, hr, hread, hwrite, hend⟩
    have hmax : r.Has r.maxOffset.toNat := ⟨hmerged.nonempty r hr, Nat.le_refl _⟩
    obtain ⟨t, ht, hta⟩ := hmerged.covered r hr _ hmax
    have hhosts := hmerged.hosts hr ht hmax hta
    have hle := (hhosts.contains t.maxOffset.toNat ⟨hseparate.of_append.nonempty t ht, Nat.le_refl _⟩).2
    have hge := hta.2
    exact ⟨t, ht, hhosts.read.symm.trans hread, hhosts.write.symm.trans hwrite, by omega⟩
  · rintro ⟨t, ht, hread, hwrite, hend⟩
    obtain ⟨r, hr, hhosts⟩ := hmerged.hosted t ht
    obtain ⟨hmin, hmax⟩ := hhosts.contains t.maxOffset.toNat ⟨hseparate.of_append.nonempty t ht, Nat.le_refl _⟩
    refine ⟨r, hr, hhosts.read.trans hread, hhosts.write.trans hwrite, ?_⟩
    by_contra hne
    exact hmerged.not_has hseparate hr ⟨by omega, by omega⟩ ⟨Nat.le_refl _, hseparate.last.1⟩

theorem Merged.above_iff :
    (∃ r ∈ regions, r.r = s.r ∧ r.w = s.w ∧ s.maxOffset.toNat + 1 = r.minOffset.toNat) ↔ ∃ t ∈ front, s.Below t := by
  constructor
  · rintro ⟨r, hr, hread, hwrite, hend⟩
    have hmin : r.Has r.minOffset.toNat := ⟨Nat.le_refl _, hmerged.nonempty r hr⟩
    obtain ⟨t, ht, hta⟩ := hmerged.covered r hr _ hmin
    have hhosts := hmerged.hosts hr ht hmin hta
    have hle := (hhosts.contains t.minOffset.toNat ⟨Nat.le_refl _, hseparate.of_append.nonempty t ht⟩).1
    have hge := hta.1
    exact ⟨t, ht, hread.symm.trans hhosts.read, hwrite.symm.trans hhosts.write, by omega⟩
  · rintro ⟨t, ht, hread, hwrite, hend⟩
    obtain ⟨r, hr, hhosts⟩ := hmerged.hosted t ht
    obtain ⟨hmin, hmax⟩ := hhosts.contains t.minOffset.toNat ⟨Nat.le_refl _, hseparate.of_append.nonempty t ht⟩
    refine ⟨r, hr, hhosts.read.trans hread.symm, hhosts.write.trans hwrite.symm, ?_⟩
    by_contra hne
    exact hmerged.not_has hseparate hr ⟨by omega, by omega⟩ ⟨hseparate.last.1, Nat.le_refl _⟩

/-- The regions that a new segment is merged into. -/
theorem Merged.touches_iff :
    (∃ r ∈ regions, r.similar s = true) ↔ (∃ t ∈ front, t.Below s) ∨ ∃ t ∈ front, s.Below t := by
  rw [← hmerged.below_iff hseparate, ← hmerged.above_iff hseparate, ← exists_or]
  refine exists_congr fun r => ?_
  rw [similar_iff]
  tauto

/-- A segment that touches earlier ones on one side is merged into one region only. -/
theorem Merged.unique (hone : ¬((∃ t ∈ front, t.Below s) ∧ ∃ t ∈ front, s.Below t)) (hr : r ∈ regions)
    (hr' : r' ∈ regions) (hsimilar : r.similar s = true) (hsimilar' : r'.similar s = true) : r = r' := by
  rw [← hmerged.below_iff hseparate, ← hmerged.above_iff hseparate] at hone
  obtain ⟨hread, hwrite, htouch⟩ := similar_iff.mp hsimilar
  obtain ⟨hread', hwrite', htouch'⟩ := similar_iff.mp hsimilar'
  have hvalid := hmerged.nonempty r hr
  have hvalid' := hmerged.nonempty r' hr'
  obtain hbelow | habove := htouch
  · obtain hbelow' | habove' := htouch'
    · refine eq_of_has (a := r.maxOffset.toNat) hmerged.disjoint hr hr' ⟨hvalid, Nat.le_refl _⟩ ⟨by omega, by omega⟩
    · exact absurd ⟨⟨r, hr, hread, hwrite, hbelow⟩, r', hr', hread', hwrite', habove'⟩ hone
  · obtain hbelow' | habove' := htouch'
    · exact absurd ⟨⟨r', hr', hread', hwrite', hbelow'⟩, r, hr, hread, hwrite, habove⟩ hone
    · exact eq_of_has (a := r.minOffset.toNat) hmerged.disjoint hr hr' ⟨Nat.le_refl _, hvalid⟩ ⟨by omega, by omega⟩

theorem Merged.map (hone : ¬((∃ t ∈ front, t.Below s) ∧ ∃ t ∈ front, s.Below t)) (hr : r ∈ regions)
    (hsimilar : r.similar s = true) : Merged (front ++ [s]) (regions.map (·.visit s)) := by
  have hs := hseparate.last.1
  refine ⟨?_, ?_, ?_, ?_, ?_⟩
  · refine List.forall_mem_map.mpr fun r hr => ?_
    have hmin := (has_visit (s := s) (r := r) ⟨Nat.le_refl _, hmerged.nonempty r hr⟩).1
    have hmax := (has_visit (s := s) (r := r) ⟨hmerged.nonempty r hr, Nat.le_refl _⟩).2
    have hle := hmerged.nonempty r hr
    omega
  · refine List.pairwise_map.mpr (hmerged.disjoint.imp_of_mem ?_)
    intro r r' hr hr' hapart a ha ha'
    obtain ha | ⟨hsimilar, hsa⟩ := has_visit_cases (hmerged.nonempty r hr) hs ha
    · obtain ha' | ⟨-, hsa⟩ := has_visit_cases (hmerged.nonempty r' hr') hs ha'
      · exact hapart a ha ha'
      · exact hmerged.not_has hseparate hr ha hsa
    · obtain ha' | ⟨hsimilar', -⟩ := has_visit_cases (hmerged.nonempty r' hr') hs ha'
      · exact hmerged.not_has hseparate hr' ha' hsa
      · obtain rfl := hmerged.unique hseparate hone hr hr' hsimilar hsimilar'
        exact hapart _ ⟨Nat.le_refl _, hmerged.nonempty r hr⟩ ⟨Nat.le_refl _, hmerged.nonempty r hr⟩
  · refine List.forall_mem_map.mpr fun r hr a ha => ?_
    obtain ha | ⟨-, hsa⟩ := has_visit_cases (hmerged.nonempty r hr) hs ha
    · obtain ⟨t, ht, hta⟩ := hmerged.covered r hr a ha
      exact ⟨t, List.mem_append_left _ ht, hta⟩
    · exact ⟨s, List.mem_append_right _ List.mem_cons_self, hsa⟩
  · refine List.forall_mem_append.mpr ⟨fun t ht => ?_, List.forall_mem_singleton.mpr ?_⟩
    · obtain ⟨r, hr, hhosts⟩ := hmerged.hosted t ht
      exact ⟨_, List.mem_map_of_mem hr, visit_permissions.1.trans hhosts.read, visit_permissions.2.trans hhosts.write,
        fun a ha => has_visit (hhosts.contains a ha), fun hload => mem_visit (hhosts.attached hload)⟩
    · obtain ⟨hread, hwrite, -⟩ := similar_iff.mp hsimilar
      refine ⟨_, List.mem_map_of_mem hr, visit_permissions.1.trans hread, visit_permissions.2.trans hwrite, ?_, ?_⟩
      · intro a ha
        rw [MemoryRegion.visit, if_pos hsimilar]
        exact (has_extend hsimilar (hmerged.nonempty r hr) hs).mpr (.inr ha)
      · intro hload
        rw [MemoryRegion.visit, if_pos hsimilar]
        exact mem_extend.mpr (.inr ⟨hload, rfl⟩)
  · refine List.forall_mem_map.mpr fun r hr seg hseg => ?_
    obtain hseg | ⟨hsimilar, hload, rfl⟩ := mem_visit_cases hseg
    · obtain ⟨t, ht, heq, hload, hcontains⟩ := hmerged.attached r hr seg hseg
      exact ⟨t, List.mem_append_left _ ht, heq, hload, fun a ha => has_visit (hcontains a ha)⟩
    · refine ⟨s, List.mem_append_right _ List.mem_cons_self, rfl, hload, fun a ha => ?_⟩
      rw [MemoryRegion.visit, if_pos hsimilar]
      exact (has_extend hsimilar (hmerged.nonempty r hr) hs).mpr (.inr ha)

theorem Merged.concat (hload : s.seg.type = PT_LOAD) :
    Merged (front ++ [s]) (regions ++ [⟨s.r, s.w, s.minOffset, s.maxOffset, [s.seg]⟩]) := by
  have hlast : s ∈ front ++ [s] := List.mem_append_right _ List.mem_cons_self
  refine ⟨?_, ?_, ?_, ?_, ?_⟩
  · exact List.forall_mem_append.mpr ⟨hmerged.nonempty, List.forall_mem_singleton.mpr hseparate.last.1⟩
  · refine List.pairwise_append.mpr ⟨hmerged.disjoint, List.pairwise_singleton _ _, fun r hr => ?_⟩
    exact List.forall_mem_singleton.mpr fun a ha => hmerged.not_has hseparate hr ha
  · refine List.forall_mem_append.mpr ⟨fun r hr a ha => ?_, List.forall_mem_singleton.mpr fun a ha => ⟨s, hlast, ha⟩⟩
    obtain ⟨t, ht, hta⟩ := hmerged.covered r hr a ha
    exact ⟨t, List.mem_append_left _ ht, hta⟩
  · refine List.forall_mem_append.mpr ⟨fun t ht => ?_, List.forall_mem_singleton.mpr ?_⟩
    · obtain ⟨r, hr, hhosts⟩ := hmerged.hosted t ht
      exact ⟨r, List.mem_append_left _ hr, hhosts⟩
    · exact ⟨_, List.mem_append_right _ List.mem_cons_self, rfl, rfl, fun a ha => ha, fun _ => List.mem_cons_self⟩
  · refine List.forall_mem_append.mpr ⟨fun r hr seg hseg => ?_, List.forall_mem_singleton.mpr ?_⟩
    · obtain ⟨t, ht, h⟩ := hmerged.attached r hr seg hseg
      exact ⟨t, List.mem_append_left _ ht, h⟩
    · exact List.forall_mem_singleton.mpr ⟨s, hlast, rfl, hload, fun a ha => ha⟩

/-- A turn for a segment that joins the earlier ones. -/
theorem Merged.step (hjoins : Joins front s) : Merged (front ++ [s]) (mergeSegmentRegion regions s) := by
  rw [mergeSegmentRegion]
  split
  · next hany =>
    obtain ⟨r, hr, hsimilar⟩ := List.any_eq_true.mp hany
    exact hmerged.map hseparate hjoins.one hr hsimilar
  · next hany =>
    refine hmerged.concat hseparate (hjoins.some.resolve_right fun htouch => hany ?_)
    obtain ⟨r, hr, hsimilar⟩ := (hmerged.touches_iff hseparate).mpr htouch
    exact List.any_eq_true.mpr ⟨r, hr, hsimilar⟩

end Step

theorem mergeable_nil : Mergeable [] := by
  intro front s back heq
  cases front <;> cases heq

theorem mergeable_concat : Mergeable (front ++ [s]) ↔ Mergeable front ∧ Joins front s := by
  constructor
  · intro h
    refine ⟨fun front' t back heq => h front' t (back ++ [s]) ?_, h front s [] rfl⟩
    rw [heq, List.append_assoc]
    rfl
  · rintro ⟨hfront, hs⟩ front' t back heq
    induction back using List.reverseRecOn with
    | nil =>
      obtain ⟨rfl, hlast⟩ := List.append_inj' heq rfl
      obtain rfl := List.singleton_inj.mp hlast
      exact hs
    | append_singleton back u _ =>
      rw [← List.cons_append, ← List.append_assoc] at heq
      exact hfront front' t back (List.append_inj_left' heq rfl)

/-- Where every segment joins the earlier ones. -/
theorem merged (hseparate : Separate segs) (h : Mergeable segs) : Merged segs (mergeSegmentRegions segs) := by
  induction segs using List.reverseRecOn with
  | nil =>
    exact ⟨fun r hr => absurd hr List.not_mem_nil, .nil, fun r hr => absurd hr List.not_mem_nil,
      fun t ht => absurd ht List.not_mem_nil, fun r hr => absurd hr List.not_mem_nil⟩
  | append_singleton front s ih =>
    obtain ⟨hfront, hjoins⟩ := mergeable_concat.mp h
    rw [mergeSegmentRegions, List.foldl_append]
    exact (ih hseparate.of_append hfront).step hseparate hjoins

/-- The handles of two segments are different. -/
theorem Separate.eq_of_seg (h : Separate segs) {t : SegmentRegion} (hs : s ∈ segs) (ht : t ∈ segs)
    (heq : s.seg = t.seg) : s = t := List.inj_on_of_nodup_map h.once hs ht heq

theorem Merged.exact (h : Merged segs regions) (hseparate : Separate segs) : ExactMap segs regions := by
  refine ⟨h.disjoint, fun a => ⟨?_, ?_⟩, ?_, ?_, ?_⟩
  · rintro ⟨r, hr, ha⟩
    exact h.covered r hr a ha
  · rintro ⟨s, hs, ha⟩
    obtain ⟨r, hr, hhosts⟩ := h.hosted s hs
    exact ⟨r, hr, hhosts.contains a ha⟩
  · intro r hr s hs a ha hsa
    have hhosts := h.hosts hr hs ha hsa
    exact ⟨hhosts.read, hhosts.write⟩
  · intro s hs hload
    obtain ⟨r, hr, hhosts⟩ := h.hosted s hs
    obtain ⟨i, hi, hri⟩ := List.mem_iff_getElem.mp hr
    refine ⟨i, r, List.getElem?_eq_some_iff.mpr ⟨hi, hri⟩, hhosts.attached hload, hhosts.contains, ?_⟩
    intro j r' hr' hseg
    obtain ⟨hj, rfl⟩ := List.getElem?_eq_some_iff.mp hr'
    obtain ⟨t, ht, heq, -, hcontains⟩ := h.attached _ (List.getElem_mem hj) _ hseg
    obtain rfl := hseparate.eq_of_seg ht hs heq
    have hfirst : t.Has t.minOffset.toNat := ⟨Nat.le_refl _, hseparate.nonempty t hs⟩
    have hpairwise := List.pairwise_iff_getElem.mp h.disjoint
    subst hri
    by_contra hne
    obtain hlt | hgt := Nat.lt_or_gt_of_ne hne
    · exact hpairwise j i hj hi hlt _ (hcontains _ hfirst) (hhosts.contains _ hfirst)
    · exact hpairwise i j hi hj hgt _ (hhosts.contains _ hfirst) (hcontains _ hfirst)
  · intro s hs hload r hr hseg
    obtain ⟨t, ht, -, hload', -⟩ := h.attached r hr _ hseg
    exact hload hload'

/-! ## Segments that do not join -/

/-- Regions that overlap, or hold a segment that is not loaded. -/
def Spoiled (segs : List SegmentRegion) (regions : List MemoryRegion) : Prop :=
  ¬regions.Pairwise MemoryRegion.Apart ∨ ∃ s ∈ segs, s.seg.type ≠ PT_LOAD ∧ ∃ r ∈ regions, s.seg ∈ r.segs

theorem Spoiled.not_exact (h : Spoiled segs regions) : ¬ExactMap segs regions := by
  intro hexact
  obtain hdisjoint | ⟨s, hs, hload, r, hr, hseg⟩ := h
  · exact hdisjoint hexact.disjoint
  · exact hexact.others s hs hload r hr hseg

theorem Spoiled.step (h : Spoiled front regions) : Spoiled (front ++ [s]) (mergeSegmentRegion regions s) := by
  rw [mergeSegmentRegion]
  obtain hdisjoint | ⟨t, ht, hload, r, hr, hseg⟩ := h
  · refine .inl fun hall => hdisjoint ?_
    split at hall
    · refine (List.pairwise_map.mp hall).imp fun h a ha ha' => ?_
      exact h a (has_visit ha) (has_visit ha')
    · exact (List.pairwise_append.mp hall).1
  · refine .inr ⟨t, List.mem_append_left _ ht, hload, ?_⟩
    split
    · exact ⟨_, List.mem_map_of_mem hr, mem_visit hseg⟩
    · exact ⟨r, List.mem_append_left _ hr, hseg⟩

/-- A segment between two regions is merged into both. -/
theorem Merged.overlapping (h : Merged front regions) (hseparate : Separate (front ++ [s]))
    (hboth : (∃ t ∈ front, t.Below s) ∧ ∃ t ∈ front, s.Below t) :
    ¬(mergeSegmentRegion regions s).Pairwise MemoryRegion.Apart := by
  rw [← h.below_iff hseparate, ← h.above_iff hseparate] at hboth
  obtain ⟨⟨r, hr, hread, hwrite, hend⟩, r', hr', hread', hwrite', hend'⟩ := hboth
  have hs := hseparate.last.1
  have hsimilar : r.similar s = true := similar_iff.mpr ⟨hread, hwrite, .inl hend⟩
  have hsimilar' : r'.similar s = true := similar_iff.mpr ⟨hread', hwrite', .inr hend'⟩
  have hne : r ≠ r' := by
    rintro rfl
    have hvalid := h.nonempty r hr
    omega
  have hsymm : Std.Symm fun a b : MemoryRegion => (a.visit s).Apart (b.visit s) :=
    ⟨fun _ _ h a ha hb => h a hb ha⟩
  have hfirst : s.Has s.minOffset.toNat := ⟨Nat.le_refl _, hs⟩
  rw [mergeSegmentRegion, if_pos (List.any_eq_true.mpr ⟨r, hr, hsimilar⟩), List.pairwise_map]
  intro hall
  refine hall.forall hr hr' hne s.minOffset.toNat ?_ ?_
  · rw [MemoryRegion.visit, if_pos hsimilar]
    exact (has_extend hsimilar (h.nonempty r hr) hs).mpr (.inr hfirst)
  · rw [MemoryRegion.visit, if_pos hsimilar']
    exact (has_extend hsimilar' (h.nonempty r' hr') hs).mpr (.inr hfirst)

/-- What a turn does for a segment that does not join cannot be undone. -/
theorem Merged.spoiled (h : Merged front regions) (hseparate : Separate (front ++ [s])) (hjoins : ¬Joins front s) :
    Spoiled (front ++ [s]) (mergeSegmentRegion regions s) := by
  by_cases hone : (∃ t ∈ front, t.Below s) ∧ ∃ t ∈ front, s.Below t
  · exact .inl (h.overlapping hseparate hone)
  · have hnot : ¬(s.seg.type = PT_LOAD ∨ (∃ t ∈ front, t.Below s) ∨ ∃ t ∈ front, s.Below t) :=
      fun hsome => hjoins ⟨hone, hsome⟩
    obtain ⟨hload, htouch⟩ := not_or.mp hnot
    rw [← h.touches_iff hseparate] at htouch
    rw [mergeSegmentRegion, if_neg fun hany => htouch (List.any_eq_true.mp hany)]
    exact .inr ⟨s, List.mem_append_right _ List.mem_cons_self, hload, _, List.mem_append_right _ List.mem_cons_self,
      List.mem_cons_self⟩

/-- The map is exact if and only if every segment joins the earlier ones. -/
theorem mergeSegmentRegions_exact_iff (hseparate : Separate segs) :
    ExactMap segs (mergeSegmentRegions segs) ↔ Mergeable segs := by
  refine ⟨fun hexact => ?_, fun h => (merged hseparate h).exact hseparate⟩
  have hunspoiled : ¬Spoiled segs (mergeSegmentRegions segs) := fun hspoiled => hspoiled.not_exact hexact
  clear hexact
  induction segs using List.reverseRecOn with
  | nil => exact mergeable_nil
  | append_singleton front s ih =>
    rw [mergeSegmentRegions, List.foldl_append] at hunspoiled
    have hfront := ih hseparate.of_append fun hspoiled => hunspoiled hspoiled.step
    refine mergeable_concat.mpr ⟨hfront, ?_⟩
    by_contra hjoins
    exact hunspoiled ((merged hseparate.of_append hfront).spoiled hseparate hjoins)

def textSegment : SegmentRegion := ⟨true, false, true, 0, 9, ⟨0, PT_LOAD, 5, 0, 10⟩⟩

def bufferSegment : SegmentRegion := ⟨true, false, false, 10, 19, ⟨1, PT_LOPROC + 1, 4, 10, 10⟩⟩

theorem text_buffer : ExactMap [textSegment, bufferSegment] (mergeSegmentRegions [textSegment, bufferSegment]) := by
  refine (mergeSegmentRegions_exact_iff ⟨by decide, ?_, by decide⟩).mpr ?_
  · refine List.pairwise_pair.mpr fun a ha ha' => ?_
    exact absurd (Nat.le_trans ha'.1 ha.2) (by decide)
  · have htext : Mergeable [textSegment] := (mergeable_concat (s := textSegment)).mpr
      ⟨mergeable_nil, by simp, .inl rfl⟩
    refine (mergeable_concat (s := bufferSegment)).mpr ⟨htext, fun h => ?_, ?_⟩
    · obtain ⟨t, ht, -, -, hend⟩ := h.2
      obtain rfl := List.mem_singleton.mp ht
      exact absurd hend (by decide)
    · exact .inr (.inl ⟨textSegment, List.mem_cons_self, rfl, rfl, rfl⟩)

/-- A buffer that comes first opens a region, to which it is attached. -/
theorem buffer_attached : ¬ExactMap [bufferSegment] (mergeSegmentRegions [bufferSegment]) := by
  intro h
  exact h.others bufferSegment List.mem_cons_self (by decide) _ List.mem_cons_self List.mem_cons_self

example : mergeSegmentRegions [textSegment, ⟨true, false, true, 20, 29, ⟨2, PT_LOAD, 5, 20, 10⟩⟩, bufferSegment] =
    [⟨true, false, 0, 19, [textSegment.seg]⟩, ⟨true, false, 10, 29, [⟨2, PT_LOAD, 5, 20, 10⟩]⟩] := by decide

end Pepp.Elf

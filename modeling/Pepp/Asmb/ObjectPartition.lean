import Pepp.Asmb.Partition

/-!
# When emission completes

Emission completes, and partitions the sections as it should, exactly when every
section has what it is emitted from: an entry for each `.ALIGN`, lines the
visitor knows, and no bytes in a `z` section.
-/

namespace Pepp.Tc

open Span Runs

/-- The recorded lines of a section are those of the table with its sizes, side by side over all of its part. -/
structure SectionCovered (code : ObjectCode) (it : Nat) (extent : Extent) (span : ByteSpan) : Prop where
  lines : ((code.irToObjectCode.filter fun c => c.sectionIdx = it).map fun c => (c.placed, c.code.size)) =
    extent.placed.filterMap fun p => p.address.map fun address => (p, address.size)
  tiles : Tiles span.start ((code.irToObjectCode.filter fun c => c.sectionIdx = it).map LineCode.code)
    (span.start + span.size)

/-- The arena before the first visit. -/
def Emission.start : Emission := ⟨fun _ => 0, [], []⟩

/-- Visiting a section changes no byte in the part of another. -/
def Isolated (ctx : SymbolContext) (work : List (ByteSpan × Extent)) : Prop :=
  ∀ it before after, emitSections ctx 0 (work.take it) .start = .ok before →
    emitSections ctx 0 (work.take (it + 1)) .start = .ok after →
    ∀ j other, j ≠ it → work[j]? = some other → ∀ x, other.1.start ≤ x → x < other.1.start + other.1.size →
      after.objectCode x = before.objectCode x

/-- Emission completes, its spans cover each section that has bytes, and the sections are kept apart. -/
def Partitioned (ctx : SymbolContext) (prog : List Section) (layout : Layout) : Prop :=
  ∃ code, peppToObjectCode ctx prog layout = .ok code ∧
    (∀ it sec extent span, prog[it]? = some sec → layout.extents[it]? = some extent →
      code.sectionSpans[it]? = some span → sec.1.flags.z = false → SectionCovered code it extent span) ∧
    Isolated ctx (sectionWork prog layout)

/-- The section can be emitted: each `.ALIGN` has an entry, the visitor knows each line, its addressing mode and
its symbol, a `z` section has no bytes, and another one fewer than a `u32` counts. -/
def Complete (ctx : SymbolContext) (sec : Section) (extent : Extent) : Prop :=
  (∀ p ∈ extent.placed, p.Listed ∧ p.line.ir.Emittable ctx) ∧
    if sec.1.flags.z then totalSize extent.placed = 0 else totalSize extent.placed < 2 ^ 32

variable {ctx : SymbolContext} {prog : List Section} {layout : Layout}

/-! ## The parts of the arena -/

variable {l : List (Section × Extent)}

/-- A section with bytes has a part of its size. -/
theorem size_sectionSpans {size it : Nat} {span : ByteSpan} {w : Section × Extent}
    (hspan : (sectionSpans size l)[it]? = some span) (hw : l[it]? = some w) (hz : w.1.1.flags.z = false) :
    span.size = w.2.byteCount := by
  induction l generalizing size it with
  | nil => cases hw
  | cons w' l ih =>
    rw [sectionSpans] at hspan
    cases it with
    | zero =>
      obtain rfl := Option.some.inj hw
      rw [if_neg (by rw [hz]; exact Bool.false_ne_true)] at hspan
      obtain rfl := Option.some.inj hspan
      rfl
    | succ it =>
      split at hspan
      · exact ih hspan hw
      · exact ih hspan hw

theorem le_sectionSpans (l : List (Section × Extent)) (size : Nat) :
    ∀ span ∈ sectionSpans size l, span.size = 0 ∨ size ≤ span.start := by
  induction l generalizing size with
  | nil => exact fun _ hs => absurd hs List.not_mem_nil
  | cons w l ih =>
    rw [sectionSpans]
    split
    · exact List.forall_mem_cons.mpr ⟨.inl rfl, ih size⟩
    · refine List.forall_mem_cons.mpr ⟨.inr le_rfl, fun span hs => (ih _ span hs).imp_right fun h => ?_⟩
      omega

/-- Parts that have bytes do not overlap. -/
theorem sectionSpans_apart (l : List (Section × Extent)) (size : Nat) :
    (sectionSpans size l).Pairwise fun a b => a.size = 0 ∨ b.size = 0 ∨ a.start + a.size ≤ b.start := by
  induction l generalizing size with
  | nil => exact .nil
  | cons w l ih =>
    rw [sectionSpans]
    split
    · exact List.pairwise_cons.mpr ⟨fun _ _ => .inl rfl, ih size⟩
    · exact List.pairwise_cons.mpr ⟨fun span hs => .inr (le_sectionSpans l _ span hs), ih _⟩

/-- No place is in two parts. -/
theorem sectionSpans_disjoint {size i j x : Nat} {a b : ByteSpan} (hij : i ≠ j)
    (ha : (sectionSpans size l)[i]? = some a) (hb : (sectionSpans size l)[j]? = some b)
    (hx : a.start ≤ x ∧ x < a.start + a.size) : x < b.start ∨ b.start + b.size ≤ x := by
  have hpair := List.pairwise_iff_getElem.mp (sectionSpans_apart l size)
  obtain ⟨hi, rfl⟩ := List.getElem?_eq_some_iff.mp ha
  obtain ⟨hj, rfl⟩ := List.getElem?_eq_some_iff.mp hb
  rcases Nat.lt_or_gt_of_ne hij with h | h
  · have := hpair i j hi hj h
    omega
  · have := hpair j i hj hi h
    omega

/-- A section's part is as large as its bytes need exactly when it can be emitted. -/
theorem emits_iff_complete (hb : ∀ w ∈ l, w.2.byteCount = totalSize w.2.placed % 2 ^ 32) (size : Nat) :
    (∀ w ∈ (sectionSpans size l).zip (l.map Prod.snd), Emits ctx w.1 w.2) ↔ ∀ w ∈ l, Complete ctx w.1 w.2 := by
  induction l generalizing size with
  | nil => exact iff_of_true (fun _ hw => absurd hw List.not_mem_nil) (fun _ hw => absurd hw List.not_mem_nil)
  | cons w l ih =>
    obtain ⟨hw, hrest⟩ := List.forall_mem_cons.mp hb
    obtain ⟨sec, extent⟩ := w
    simp only at hw
    rw [sectionSpans]
    cases hz : sec.1.flags.z with
    | true =>
      have hhead : Emits ctx ⟨0, 0⟩ extent ↔ Complete ctx sec extent := by
        rw [Emits, Complete, if_pos hz, Nat.le_zero]
      rw [if_pos rfl, List.map_cons, List.zip_cons_cons, List.forall_mem_cons, List.forall_mem_cons, ih hrest size,
        hhead]
    | false =>
      have hfits : totalSize extent.placed ≤ extent.byteCount ↔ totalSize extent.placed < 2 ^ 32 := by omega
      have hhead : Emits ctx ⟨size, extent.byteCount⟩ extent ↔ Complete ctx sec extent := by
        rw [Emits, Complete, if_neg (by rw [hz]; exact Bool.false_ne_true), hfits]
      rw [if_neg Bool.false_ne_true, List.map_cons, List.zip_cons_cons, List.forall_mem_cons, List.forall_mem_cons,
        ih hrest, hhead]

/-! ## Sections apart -/

theorem isolated_sectionWork (hc : ∀ extent ∈ layout.extents, ∀ p ∈ extent.placed, p.Consistent) :
    Isolated ctx (sectionWork prog layout) := by
  intro it before after hbefore hafter j other hj hother x hlo hhi
  by_cases hit : it < (sectionWork prog layout).length
  · obtain ⟨w, hw⟩ : ∃ w, (sectionWork prog layout)[it]? = some w := ⟨_, List.getElem?_eq_getElem hit⟩
    rw [List.take_add_one, hw, Option.toList_some, emitSections_append, hbefore] at hafter
    have hlen : (List.take it (sectionWork prog layout)).length = it := by
      rw [List.length_take, Nat.min_eq_left hit.le]
    rw [hlen, Nat.zero_add] at hafter
    obtain ⟨span, extent⟩ := w
    change emitSections ctx it [(span, extent)] before = .ok after at hafter
    simp only [emitSections, bind_ok] at hafter
    obtain ⟨r, hvisit, hr⟩ := hafter
    obtain rfl := Except.ok.inj hr
    have hmem : ∀ p ∈ extent.placed, p.Consistent :=
      hc extent (List.of_mem_zip (List.mem_of_getElem? hw)).2
    have hv := ObjectVisitor.visited_of_visitLines hmem hvisit
    have hspan := (List.getElem?_zip_eq_some.mp hw).1
    have hother' := (List.getElem?_zip_eq_some.mp hother).1
    refine hv.elsewhere x ((sectionSpans_disjoint hj hother' hspan ⟨hlo, hhi⟩).imp_right fun h => ?_)
    exact (Nat.add_le_add_left hv.fits _).trans h
  · have htake : (sectionWork prog layout).take (it + 1) = (sectionWork prog layout).take it := by
      rw [List.take_of_length_le (by omega), List.take_of_length_le (by omega)]
    rw [htake, hbefore] at hafter
    rw [Except.ok.inj hafter]

/-! ## Completion -/

/-- Emission completes, and partitions the sections, exactly when every section can be emitted. -/
theorem partitioned_iff_complete {prog : List Section} {initial : U16} {layout : Layout}
    (h : peppAssignAddresses prog initial = .ok layout) (state : Name → DefinitionState) (depth : Nat)
    (padding : Vector U8 7) :
    Partitioned (layout.context state depth padding) prog layout ↔
      ∀ w ∈ prog.zip layout.extents, Complete (layout.context state depth padding) w.1 w.2 := by
  obtain ⟨hne, hdef⟩ := defined_of_assignAddresses h
  obtain ⟨visited, -, hassign⟩ := assignAddresses_ok initial.toNat hne hdef
  have hextents : layout.extents = regions .pepp peppLineToSymbol prog initial.toNat := by
    rw [← Except.ok.inj (hassign.symm.trans h)]
  have hlen : layout.extents.length = prog.length := by rw [hextents, length_regions]
  have hc : ∀ extent ∈ layout.extents, ∀ p ∈ extent.placed, p.Consistent := by
    rw [hextents]
    exact regions_consistent
  have hb : ∀ w ∈ prog.zip layout.extents, w.2.byteCount = totalSize w.2.placed % 2 ^ 32 := by
    intro w hw
    rw [hextents] at hw
    exact regions_byteCount w.2 (List.of_mem_zip hw).2
  have hsnd : (prog.zip layout.extents).map Prod.snd = layout.extents := List.map_snd_zip hlen.le
  have hemits := @emits_iff_complete (layout.context state depth padding) _ hb 0
  rw [hsnd] at hemits
  have hwork : ∀ w ∈ sectionWork prog layout, ∀ p ∈ w.2.placed, p.Consistent := fun w hw =>
    hc w.2 (List.of_mem_zip hw).2
  rw [← hemits]
  constructor
  · rintro ⟨code, hcode, -, -⟩
    simp only [peppToObjectCode, bind_ok] at hcode
    obtain ⟨emission, he, -⟩ := hcode
    exact (emits_of_emitSections hwork he).1
  · intro hall
    obtain ⟨emission, he⟩ := exists_emitSections hwork hall 0 .start
    refine ⟨⟨emission.irToObjectCode, emission.relocations, _, _⟩, by
      simp only [peppToObjectCode, Emission.start] at he ⊢
      rw [he]
      rfl, ?_, isolated_sectionWork hc⟩
    intro it sec extent span hsec hextent hspan hz
    have hget : (sectionWork prog layout)[it]? = some (span, extent) :=
      List.getElem?_zip_eq_some.mpr ⟨hspan, hextent⟩
    have hentries := filter_sectionEntries hget 0
    obtain ⟨-, hmap⟩ := emits_of_emitSections hwork he
    rw [Nat.zero_add] at hentries
    have hown : emission.irToObjectCode.filter (fun c => c.sectionIdx = it) =
        (ObjectVisitor.mk (BitVec.ofNat 16 extent.lowAddress) it).entries span.start extent.placed := by
      rw [hmap]
      exact hentries
    have hsize : span.size = totalSize extent.placed := by
      have hzip : (prog.zip layout.extents)[it]? = some (sec, extent) :=
        List.getElem?_zip_eq_some.mpr ⟨hsec, hextent⟩
      have hbytes := hb _ (List.mem_of_getElem? hzip)
      have hfits := (hall _ (List.mem_of_getElem? hget)).2
      have hpart := size_sectionSpans hspan hzip hz
      simp only at hbytes hfits hpart
      omega
    refine ⟨?_, ?_⟩
    · simp only [hown, entries_lines]
    · simp only [hown, hsize]
      exact tiles_entries _ _ _

/-- `RET` and `.BLOCK 2`: both lines are emitted. -/
theorem partitioned_ret_block :
    ∃ layout, peppAssignAddresses [(defaultDescriptor, [⟨.monadic .RET, none⟩, ⟨.dotBlock ⟨.unsignedDecimal, 2, 2⟩, none⟩])] 0 =
        .ok layout ∧
      Partitioned (layout.context (fun _ => .undefined) 1 (Vector.replicate 7 0))
        [(defaultDescriptor, [⟨.monadic .RET, none⟩, ⟨.dotBlock ⟨.unsignedDecimal, 2, 2⟩, none⟩])] layout := by
  refine ⟨_, rfl, (partitioned_iff_complete rfl _ _ _).mpr fun w hw => ?_⟩
  obtain rfl := List.mem_singleton.mp hw
  refine ⟨fun p hp => ?_, by decide⟩
  rcases List.mem_cons.mp hp with rfl | hp
  · exact ⟨trivial, trivial⟩
  · obtain rfl := List.mem_singleton.mp hp
    exact ⟨trivial, trivial⟩

/-- `.ALIGN 8` at address 0. -/
def alignedAlign : List Line := [⟨.dotAlign .byteCount ⟨.unsignedDecimal, 8, 2⟩, none⟩]

/-- `.BLOCK 2` in a `z` section. -/
def zeroBlock : List Line :=
  [⟨.dotSection ".bss" ⟨true, true, false, true⟩, none⟩, ⟨.dotBlock ⟨.unsignedDecimal, 2, 2⟩, none⟩]

/-- An `.ALIGN` without padding has no entry to look up, and a `z` section no bytes to take. -/
theorem not_partitioned :
    (∃ grouping layout, peppSplitToSections (fun _ => .undefined) alignedAlign defaultDescriptor = .ok grouping ∧
      peppAssignAddresses grouping.groupedIr 0 = .ok layout ∧
      ¬ Partitioned (layout.context (fun _ => .undefined) 1 (Vector.replicate 7 0)) grouping.groupedIr layout) ∧
    ∃ grouping layout, peppSplitToSections (fun _ => .undefined) zeroBlock defaultDescriptor = .ok grouping ∧
      peppAssignAddresses grouping.groupedIr 0 = .ok layout ∧
      ¬ Partitioned (layout.context (fun _ => .undefined) 1 (Vector.replicate 7 0)) grouping.groupedIr layout := by
  constructor
  · refine ⟨_, _, rfl, rfl, ?_⟩
    rintro ⟨code, hcode, -⟩
    cases hcode
  · refine ⟨_, _, rfl, rfl, ?_⟩
    rintro ⟨code, hcode, -⟩
    cases hcode

end Pepp.Tc

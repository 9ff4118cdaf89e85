import Pepp.Asmb.Visiting

/-!
# Object code as a partition

When emission completes, the spans of the lines of each section stand side by
side in source order and fill the section's part of the arena, and no section
writes into the part of another.
-/

namespace Pepp.Tc

open Span Runs

variable {kind : AddressKind} {lineToSymbol : LinearIR → SymbolType} {direction : Direction} {prog : List Section}
  {initial : Nat} {ctx : SymbolContext}

/-! ## Entries of the address table -/

theorem place_consistent (line : Line) (base : Nat) :
    (line.place kind lineToSymbol direction base (line.ir.sizeAt base)).1.Consistent := by
  obtain ⟨ir, symbol⟩ := line
  cases ir with
  | monadic mnemonic => cases direction <;> exact ⟨_, rfl⟩
  | dyadic mnemonic mode argument => cases direction <;> exact ⟨_, rfl⟩
  | dotLiteral which argument => cases which <;> cases direction <;> rfl
  | dotBlock argument => cases direction <;> rfl
  | dotAlign which argument =>
    simp only [Placed.Consistent, line_place]
  | integer => cases direction <;> trivial
  | _ => rfl

theorem walk_consistent (lines : List Line) (base : Nat) :
    ∀ p ∈ (walk kind lineToSymbol direction base lines).1, p.Consistent := by
  induction lines generalizing base with
  | nil => exact fun _ hp => absurd hp List.not_mem_nil
  | cons line lines ih => exact List.forall_mem_cons.mpr ⟨place_consistent line base, ih _⟩

/-- What the three kinds of extents have in common every region has. -/
theorem forall_regions {P : Extent → Prop} (hforward : ∀ base lines, P (forwardExtent kind lineToSymbol base lines))
    (hbackward : ∀ base lines, P (backwardExtent kind lineToSymbol base lines))
    (horg : ∀ lines, P (orgExtent kind lineToSymbol lines)) :
    ∀ extent ∈ regions kind lineToSymbol prog initial, P extent := by
  have hahead : ∀ (rest : List (List Line)) (base : Nat), ∀ extent ∈ forwardSections kind lineToSymbol base rest, P extent := by
    intro rest
    induction rest with
    | nil => exact fun _ _ he => absurd he List.not_mem_nil
    | cons lines rest ih => exact fun base => List.forall_mem_cons.mpr ⟨hforward base lines, ih _⟩
  have hback : ∀ (rest : List (List Line)) (base : Nat), ∀ extent ∈ backwardSections kind lineToSymbol base rest, P extent := by
    intro rest
    induction rest with
    | nil => exact fun _ _ he => absurd he List.not_mem_nil
    | cons lines rest ih => exact fun base => List.forall_mem_cons.mpr ⟨hbackward base lines, ih _⟩
  intro extent he
  rw [regions] at he
  split at he
  · exact hahead _ _ extent he
  · rcases List.mem_append.mp he with he | he
    · exact hback _ _ extent (List.mem_reverse.mp he)
    · rcases List.mem_cons.mp he with rfl | he
      · exact horg _
      · exact hahead _ _ extent he

theorem regions_consistent :
    ∀ extent ∈ regions kind lineToSymbol prog initial, ∀ p ∈ extent.placed, p.Consistent := by
  refine forall_regions (fun base lines => walk_consistent lines base) (fun base lines p hp => ?_) fun lines p hp => ?_
  · exact walk_consistent _ _ p (List.mem_reverse.mp hp)
  · rcases List.mem_append.mp hp with hp | hp
    · exact walk_consistent _ _ p (List.mem_reverse.mp hp)
    · exact walk_consistent _ _ p hp

theorem regions_byteCount :
    ∀ extent ∈ regions kind lineToSymbol prog initial, extent.byteCount = totalSize extent.placed % 2 ^ 32 := by
  refine forall_regions (fun _ _ => rfl) (fun base lines => ?_) fun _ => rfl
  simp only [backwardExtent, byteCount, totalSize, List.map_reverse, List.sum_reverse]
  rfl

/-! ## The sections one after the other -/

/-- The entries of the sections from number `it` on. -/
def sectionEntries : Nat → List (ByteSpan × Extent) → List LineCode
  | _, [] => []
  | it, (span, extent) :: rest =>
    (ObjectVisitor.mk (BitVec.ofNat 16 extent.lowAddress) it).entries span.start extent.placed ++
      sectionEntries (it + 1) rest

/-- The section has all it is emitted from. -/
def Emits (ctx : SymbolContext) (span : ByteSpan) (extent : Extent) : Prop :=
  (∀ p ∈ extent.placed, p.Listed ∧ p.line.ir.Emittable ctx) ∧ totalSize extent.placed ≤ span.size

variable {work : List (ByteSpan × Extent)} (visitor : ObjectVisitor)

theorem emits_of_emitSections (hc : ∀ w ∈ work, ∀ p ∈ w.2.placed, p.Consistent) {it : Nat} {emission r : Emission}
    (h : emitSections ctx it work emission = .ok r) :
    (∀ w ∈ work, Emits ctx w.1 w.2) ∧ r.irToObjectCode = emission.irToObjectCode ++ sectionEntries it work := by
  induction work generalizing it emission with
  | nil =>
    obtain rfl := Except.ok.inj h
    exact ⟨fun _ hw => absurd hw List.not_mem_nil, (List.append_nil _).symm⟩
  | cons w work ih =>
    obtain ⟨hw, hrest⟩ := List.forall_mem_cons.mp hc
    obtain ⟨span, extent⟩ := w
    simp only [emitSections, bind_ok] at h
    obtain ⟨r₁, hvisit, h⟩ := h
    have hv := ObjectVisitor.visited_of_visitLines hw hvisit
    obtain ⟨hemits, hmap⟩ := ih hrest h
    refine ⟨List.forall_mem_cons.mpr ⟨⟨hv.emitted, hv.fits⟩, hemits⟩, ?_⟩
    rw [hmap, hv.irToObjectCode, List.append_assoc]
    rfl

theorem exists_emitSections (hc : ∀ w ∈ work, ∀ p ∈ w.2.placed, p.Consistent) (he : ∀ w ∈ work, Emits ctx w.1 w.2)
    (it : Nat) (emission : Emission) : ∃ r, emitSections ctx it work emission = .ok r := by
  induction work generalizing it emission with
  | nil => exact ⟨_, rfl⟩
  | cons w work ih =>
    obtain ⟨hw, hrest⟩ := List.forall_mem_cons.mp hc
    obtain ⟨⟨hem, hfits⟩, herest⟩ := List.forall_mem_cons.mp he
    obtain ⟨span, extent⟩ := w
    obtain ⟨r, hr⟩ := @ObjectVisitor.exists_visitLines ⟨BitVec.ofNat 16 extent.lowAddress, it⟩ _ _ emission _ hw hem hfits
    simp only [emitSections, hr, bind, Except.bind]
    exact ih hrest herest _ _

theorem emitSections_append (xs ys : List (ByteSpan × Extent)) (it : Nat) (emission : Emission) :
    emitSections ctx it (xs ++ ys) emission =
      (emitSections ctx it xs emission >>= emitSections ctx (it + xs.length) ys) := by
  induction xs generalizing it emission with
  | nil => rfl
  | cons w xs ih =>
    simp only [List.cons_append, emitSections, bind_assoc, ih, List.length_cons, Nat.add_assoc, Nat.add_comm 1]

/-! ## Spans side by side -/

/-- Spans that follow each other without a gap from one place to another. -/
inductive Tiles : Nat → List ByteSpan → Nat → Prop where
  | nil (start : Nat) : Tiles start [] start
  | cons {start stop : Nat} {span : ByteSpan} {rest : List ByteSpan} :
      span.start = start → Tiles (start + span.size) rest stop → Tiles start (span :: rest) stop

theorem Tiles.append {a b c : Nat} {xs ys : List ByteSpan} (h : Tiles a xs b) (h' : Tiles b ys c) :
    Tiles a (xs ++ ys) c := by
  induction h with
  | nil start => exact h'
  | cons hs _ ih => exact .cons hs (ih h')

variable (placed : List Placed)

theorem tiles_entries (start : Nat) :
    Tiles start ((visitor.entries start placed).map LineCode.code) (start + totalSize placed) := by
  induction placed generalizing start with
  | nil => exact .nil start
  | cons p placed ih =>
    rw [ObjectVisitor.entries, List.map_append, totalSize_cons, ← Nat.add_assoc]
    refine Tiles.append ?_ (ih _)
    rw [ObjectVisitor.entry, Placed.size]
    cases p.address with
    | none => exact .nil start
    | some address => exact .cons rfl (.nil _)

/-! ## What each section's entries are -/

theorem entries_lines (start : Nat) :
    (visitor.entries start placed).map (fun c => (c.placed, c.code.size)) =
      placed.filterMap fun p => p.address.map fun address => (p, address.size) := by
  induction placed generalizing start with
  | nil => rfl
  | cons p placed ih =>
    rw [ObjectVisitor.entries, List.map_append, ih, ObjectVisitor.entry]
    cases ha : p.address with
    | none => rw [List.filterMap_cons_none (by rw [ha]; rfl)]; rfl
    | some address => rw [List.filterMap_cons_some (by rw [ha]; rfl)]; rfl

theorem sectionIdx_entries (start : Nat) : ∀ c ∈ visitor.entries start placed, c.sectionIdx = visitor.sectionIdx := by
  induction placed generalizing start with
  | nil => exact fun _ hc => absurd hc List.not_mem_nil
  | cons p placed ih =>
    intro c hc
    rcases List.mem_append.mp hc with hc | hc
    · obtain ⟨address, -, rfl⟩ := Option.map_eq_some_iff.mp (Option.mem_toList.mp hc)
      rfl
    · exact ih _ c hc

theorem le_sectionIdx (work : List (ByteSpan × Extent)) (it : Nat) : ∀ c ∈ sectionEntries it work, it ≤ c.sectionIdx := by
  induction work generalizing it with
  | nil => exact fun _ hc => absurd hc List.not_mem_nil
  | cons w work ih =>
    intro c hc
    rcases List.mem_append.mp hc with hc | hc
    · exact (sectionIdx_entries _ _ _ c hc).ge
    · exact (Nat.le_succ it).trans (ih (it + 1) c hc)

/-- The entries of one section among those of all. -/
theorem filter_sectionEntries {k : Nat} {w : ByteSpan × Extent} (h : work[k]? = some w) (it : Nat) :
    (sectionEntries it work).filter (fun c => c.sectionIdx = it + k) =
      (ObjectVisitor.mk (BitVec.ofNat 16 w.2.lowAddress) (it + k)).entries w.1.start w.2.placed := by
  induction work generalizing it k with
  | nil => cases h
  | cons w' work ih =>
    obtain ⟨span, extent⟩ := w'
    rw [sectionEntries, List.filter_append]
    cases k with
    | zero =>
      obtain rfl := Option.some.inj h
      simp only [Nat.add_zero]
      rw [List.filter_eq_self.mpr, List.filter_eq_nil_iff.mpr, List.append_nil]
      · intro c hc
        have := le_sectionIdx work (it + 1) c hc
        simp only [decide_eq_true_eq]
        omega
      · exact fun c hc => decide_eq_true (sectionIdx_entries _ _ _ c hc)
    | succ k =>
      have hrest := ih (by simpa using h) (it + 1)
      rw [show it + 1 + k = it + (k + 1) by omega] at hrest
      rw [hrest, List.filter_eq_nil_iff.mpr, List.nil_append]
      intro c hc
      have hown : c.sectionIdx = it := sectionIdx_entries _ _ _ c hc
      simp only [decide_eq_true_eq]
      omega

end Pepp.Tc

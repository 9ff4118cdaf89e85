import Pepp.Elf.FileLayout

/-!
# The addresses of a file

A section gets its address from the first constraint that names it. Where the
sections that a constraint is the first to name come before its other ones, they
are at distances of their sizes, each rounded up to its own alignment.
-/

namespace Pepp.Elf

open Padding

variable {b : ElfBits}

/-! ## Assigning addresses -/

/-- Sizes and alignments of sections in memory. -/
def memory (hdrs : List (Shdr b)) : List (Nat × Nat) := hdrs.map fun h => (h.shSize.toNat, h.shAddralign.toNat)

/-- The memory from one section up to another, every size rounded up to the section's own alignment. -/
def reserve (mem : List (Nat × Nat)) (first j : Nat) : Nat :=
  (((mem.drop first).take (j - first)).map fun p => alignUp p.1 p.2).sum

@[simp] theorem reserve_self (mem : List (Nat × Nat)) (j : Nat) : reserve mem j j = 0 := by
  rw [reserve, Nat.sub_self]
  rfl

variable {mem : List (Nat × Nat)}

theorem reserve_first {first j size a : Nat} (hp : mem[first]? = some (size, a)) (hj : first < j) :
    reserve mem first j = alignUp size a + reserve mem (first + 1) j := by
  obtain ⟨hlt, hp⟩ := List.getElem?_eq_some_iff.mp hp
  rw [reserve, reserve, List.drop_eq_getElem_cons hlt, show j - first = j - (first + 1) + 1 by omega,
    List.take_succ_cons, List.map_cons, List.sum_cons, hp]

theorem reserve_last {first d size a : Nat} (hp : mem[first + d]? = some (size, a)) :
    reserve mem first (first + d + 1) = reserve mem first (first + d) + alignUp size a := by
  induction d generalizing first with
  | zero =>
    simp only [Nat.add_zero] at hp ⊢
    rw [reserve_first hp (by omega), reserve_self, reserve_self, Nat.add_comm]
  | succ d ih =>
    obtain ⟨⟨size', a'⟩, hq⟩ : ∃ q, mem[first]? = some q := by
      have := (List.getElem?_eq_some_iff.mp hp).1
      exact ⟨_, List.getElem?_eq_getElem (by omega)⟩
    simp only [show first + (d + 1) = first + 1 + d by omega] at hp ⊢
    rw [reserve_first hq (by omega), reserve_first hq (by omega), ih hp]
    exact (Nat.add_assoc _ _ _).symm

theorem reserve_mono {first i j : Nat} (hij : i ≤ j) : reserve mem first i ≤ reserve mem first j := by
  obtain ⟨rest, hrest⟩ : (mem.drop first).take (i - first) <+: (mem.drop first).take (j - first) :=
    List.take_prefix_take_left (by omega)
  rw [reserve, reserve, ← hrest, List.map_append, List.sum_append]
  exact Nat.le_add_right _ _

def Shdr.at (shdr : Shdr b) (addr : Nat) : Shdr b := { shdr with shAddr := BitVec.ofNat _ addr }

/-- Sections without addresses get them one after another. -/
theorem assignAddresses_free {n first base : Nat} {hdrs : List (Shdr b)} {touched : List Bool}
    (hsmall : ∀ h ∈ hdrs, h.shSize.toNat < 2 ^ 63 ∧ h.shAddralign.toNat < 2 ^ 32) (hlen : touched.length = hdrs.length)
    (hfirst : first + n ≤ hdrs.length) (hfree : ∀ j, first ≤ j → j < first + n → touched[j]? = some false)
    (hfits : ∀ j, first ≤ j → j < first + n → base + reserve (memory hdrs) first j < 2 ^ 64) :
    (assignAddresses (List.range' first n) base (hdrs, touched)).1.length = hdrs.length ∧
    (assignAddresses (List.range' first n) base (hdrs, touched)).2.length = touched.length ∧
    (∀ j, (first ≤ j → j < first + n →
        (assignAddresses (List.range' first n) base (hdrs, touched)).1[j]? =
          hdrs[j]?.map (fun h => h.at (base + reserve (memory hdrs) first j)) ∧
        (assignAddresses (List.range' first n) base (hdrs, touched)).2[j]? = some true) ∧
      (j < first ∨ first + n ≤ j →
        (assignAddresses (List.range' first n) base (hdrs, touched)).1[j]? = hdrs[j]? ∧
        (assignAddresses (List.range' first n) base (hdrs, touched)).2[j]? = touched[j]?)) := by
  induction n generalizing first base hdrs touched with
  | zero => exact ⟨rfl, rfl, fun j => ⟨fun _ _ => by omega, fun _ => ⟨rfl, rfl⟩⟩⟩
  | succ n ih =>
    have hlt : first < hdrs.length := by omega
    have hgetD : hdrs.getD first {} = hdrs[first] := List.getD_eq_getElem _ _ hlt
    have hat : (memory hdrs)[first]? = some (hdrs[first].shSize.toNat, hdrs[first].shAddralign.toNat) := by
      rw [memory, List.getElem?_map, List.getElem?_eq_getElem hlt, Option.map_some]
    have huntouched : touched.getD first false = false := by
      rw [List.getD_eq_getElem?_getD, hfree first le_rfl (by omega), Option.getD_some]
    obtain ⟨hsize, halign⟩ := hsmall _ (List.getElem_mem hlt)
    have hround : alignTo hdrs[first].shSize.toNat hdrs[first].shAddralign.toNat =
        alignUp hdrs[first].shSize.toNat hdrs[first].shAddralign.toNat := alignTo_eq halign (by omega)
    rw [List.range'_succ, assignAddresses, huntouched, if_neg Bool.false_ne_true]
    simp only [hgetD, hround]
    have hmem : memory (hdrs.set first { hdrs[first] with shAddr := BitVec.ofNat _ base }) = memory hdrs := by
      refine List.ext_getElem? fun k => ?_
      rw [memory, memory, List.getElem?_map, List.getElem?_map]
      by_cases hk : first = k
      · subst hk
        rw [List.getElem?_set_self hlt, List.getElem?_eq_getElem hlt]
        rfl
      · rw [List.getElem?_set_ne hk]
    have hsum : ∀ j, first < j → reserve (memory hdrs) first j =
        alignUp hdrs[first].shSize.toNat hdrs[first].shAddralign.toNat + reserve (memory hdrs) (first + 1) j :=
      fun j hj => reserve_first hat hj
    have hnext : ∀ j, first + 1 ≤ j → j < first + 1 + n →
        (base + alignUp hdrs[first].shSize.toNat hdrs[first].shAddralign.toNat) % 2 ^ 64 +
          reserve (memory hdrs) (first + 1) j = base + reserve (memory hdrs) first j := by
      intro j hj hjn
      have := hfits j (by omega) (by omega)
      rw [hsum j (by omega)] at this ⊢
      rw [Nat.mod_eq_of_lt (by omega), Nat.add_assoc]
    have hsmall' : ∀ h ∈ hdrs.set first { hdrs[first] with shAddr := BitVec.ofNat _ base },
        h.shSize.toNat < 2 ^ 63 ∧ h.shAddralign.toNat < 2 ^ 32 := by
      intro h hh
      rcases List.mem_or_eq_of_mem_set hh with hh | rfl
      · exact hsmall h hh
      · exact ⟨hsize, halign⟩
    have hfree' : ∀ j, first + 1 ≤ j → j < first + 1 + n → (touched.set first true)[j]? = some false := by
      intro j hj hjn
      rw [List.getElem?_set_ne (by omega)]
      exact hfree j (by omega) (by omega)
    obtain ⟨ihlen, ihlen', ihat⟩ := @ih (first + 1)
      ((base + alignUp hdrs[first].shSize.toNat hdrs[first].shAddralign.toNat) % 2 ^ 64)
      (hdrs.set first { hdrs[first] with shAddr := BitVec.ofNat _ base }) (touched.set first true) hsmall'
      (by rw [List.length_set, List.length_set, hlen]) (by rw [List.length_set]; omega) hfree'
      (fun j hj hjn => by rw [hmem, hnext j hj hjn]; exact hfits j (by omega) (by omega))
    refine ⟨ihlen.trans List.length_set, ihlen'.trans List.length_set, fun j => ⟨fun hj hjn => ?_, fun hj => ?_⟩⟩
    · by_cases hjf : first = j
      · subst hjf
        obtain ⟨h1, h2⟩ := (ihat first).2 (.inl (by omega))
        rw [h1, h2, List.getElem?_set_self hlt, List.getElem?_set_self (by omega), List.getElem?_eq_getElem hlt,
          reserve_self, Nat.add_zero]
        exact ⟨rfl, rfl⟩
      · obtain ⟨h1, h2⟩ := (ihat j).1 (by omega) (by omega)
        rw [h1, h2, List.getElem?_set_ne hjf, hmem, hnext j (by omega) (by omega)]
        exact ⟨rfl, rfl⟩
    · obtain ⟨h1, h2⟩ := (ihat j).2 (by omega)
      rw [h1, h2, List.getElem?_set_ne (by omega), List.getElem?_set_ne (by omega)]
      exact ⟨rfl, rfl⟩

/-- Sections that have addresses keep them. -/
theorem assignAddresses_touched {jts : List Nat} {base : Nat} {hdrs : List (Shdr b)} {touched : List Bool}
    (h : ∀ j ∈ jts, touched[j]? = some true) : assignAddresses jts base (hdrs, touched) = (hdrs, touched) := by
  induction jts with
  | nil => rfl
  | cons j jts ih =>
    rw [List.forall_mem_cons] at h
    rw [assignAddresses, List.getD_eq_getElem?_getD, h.1, Option.getD_some, if_pos rfl]
    exact ih h.2

/-- Sections that have addresses change nothing behind others. -/
theorem assignAddresses_append {jts jts' : List Nat} {base : Nat} {s : List (Shdr b) × List Bool}
    (h : ∀ j ∈ jts', (assignAddresses jts base s).2[j]? = some true) :
    assignAddresses (jts ++ jts') base s = assignAddresses jts base s := by
  induction jts generalizing base s with
  | nil => exact assignAddresses_touched h
  | cons j jts ih =>
    rw [List.cons_append]
    rw [assignAddresses] at h ⊢
    rw [assignAddresses]
    split at h
    · next htouched => rw [if_pos htouched, if_pos htouched, ih h]
    · next hfree => rw [if_neg hfree, if_neg hfree, ih h]

/-- What holds of an index only if it does of all before holds of the first ones. -/
theorem exists_initial {P : Nat → Prop} (n : Nat) (h : ∀ i j, i < j → j < n → P j → P i) :
    ∃ m ≤ n, ∀ i < n, (i < m ↔ P i) := by
  induction n with
  | zero => exact ⟨0, le_rfl, nofun⟩
  | succ n ih =>
    by_cases hn : P n
    · refine ⟨n + 1, le_rfl, fun i hi => iff_of_true hi ?_⟩
      obtain hlt | rfl := Nat.lt_succ_iff_lt_or_eq.mp hi
      · exact h i n hlt (Nat.lt_succ_self n) hn
      · exact hn
    · obtain ⟨m, hm, hiff⟩ := ih fun i j hij hj => h i j hij (hj.trans (Nat.lt_succ_self n))
      refine ⟨m, hm.trans (Nat.le_succ n), fun i hi => ?_⟩
      obtain hlt | rfl := Nat.lt_succ_iff_lt_or_eq.mp hi
      · exact hiff i hlt
      · exact iff_of_false (by omega) hn

/-! ## One constraint after the other -/

namespace SegmentLayoutConstraint

/-- The section is one of the constraint's. -/
def Names (c : SegmentLayoutConstraint) (j : Nat) : Prop := c.fromSec ≠ 0 ∧ c.fromSec.toNat ≤ j ∧ j ≤ c.toSec.toNat

/-- The address of the segment. -/
def base (c : SegmentLayoutConstraint) : Nat := alignUp c.baseAddress.toNat c.alignment.toNat

/-- The address of a section that the constraint assigns. -/
def address (c : SegmentLayoutConstraint) (mem : List (Nat × Nat)) (j : Nat) : Nat :=
  c.base + reserve mem c.fromSec.toNat j

/-- The size in memory where the last section, of this size, gets its address from another constraint. -/
def memorySize (c c' : SegmentLayoutConstraint) (mem : List (Nat × Nat)) (size : Nat) : Nat :=
  alignUp (c'.address mem c.toSec.toNat + alignUp size c.alignment.toNat - c.base) c.alignment.toNat

end SegmentLayoutConstraint

/-- A constraint has a section before the one with the index. -/
def Named (cs : List SegmentLayoutConstraint) (k j : Nat) : Prop := ∃ l < k, ∃ c, cs[l]? = some c ∧ c.Names j

/-- The constraint with the index is the first one to name the section. -/
def Owns (cs : List SegmentLayoutConstraint) (l : Nat) (c : SegmentLayoutConstraint) (j : Nat) : Prop :=
  c.Names j ∧ ¬ Named cs l j

/-- Constraints that name sections of the file, the new ones of each before the others. What is loaded does not begin
behind its last section, and the addresses fit. -/
structure Regular (mem : List (Nat × Nat)) (phdrs : List (Phdr b)) (cs : List SegmentLayoutConstraint) : Prop where
  count : mem.length < 2 ^ 16
  segments : cs.length ≤ phdrs.length ∧ phdrs.length < 2 ^ 16
  range : ∀ c ∈ cs, c.fromSec ≠ 0 → c.fromSec.toNat ≤ c.toSec.toNat ∧ c.toSec.toNat < mem.length
  power : ∀ c ∈ cs, c.fromSec ≠ 0 → ∃ k, c.alignment.toNat = 2 ^ k
  initial : ∀ (l : Nat) c i j, cs[l]? = some c → c.Names i → i < j → Owns cs l c j → Owns cs l c i
  base : ∀ c ∈ cs, c.fromSec ≠ 0 → c.base < 2 ^ b.width
  address : ∀ (l : Nat) c j, cs[l]? = some c → Owns cs l c j → c.address mem j < 2 ^ b.width
  loaded : ∀ (l l' : Nat) c c' p size a, cs[l]? = some c → phdrs[l]? = some p → p.pType = ptLoad → cs[l']? = some c' →
    Owns cs l' c' c.toSec.toNat → c.Names c.toSec.toNat → mem[c.toSec.toNat]? = some (size, a) →
      c.base ≤ c'.address mem c.toSec.toNat + alignUp size c.alignment.toNat ∧ c.memorySize c' mem size < 2 ^ b.width

/-- The first `k` constraints have been applied. -/
structure Applied (hdrs : List (Shdr b)) (phdrs : List (Phdr b)) (cs : List SegmentLayoutConstraint) (k : Nat)
    (s : Segments b) : Prop where
  length : s.sectionHeaders.length = hdrs.length ∧ s.touched.length = hdrs.length ∧ s.programHeaders.length = phdrs.length
  same : ∀ (j : Nat) h, hdrs[j]? = some h → ∃ addr, s.sectionHeaders[j]? = some { h with shAddr := addr }
  touched : ∀ j < hdrs.length, (Named cs k j → s.touched[j]? = some true) ∧ (¬ Named cs k j → s.touched[j]? = some false)
  unnamed : ∀ j, ¬ Named cs k j → s.sectionHeaders[j]? = hdrs[j]?
  assigned : ∀ l < k, ∀ c, cs[l]? = some c → ∀ j, Owns cs l c j →
    s.sectionHeaders[j]? = hdrs[j]?.map fun h => h.at (c.address (memory hdrs) j)
  segment : ∀ l < k, ∀ c p first last, cs[l]? = some c → c.fromSec ≠ 0 → phdrs[l]? = some p →
    hdrs[c.fromSec.toNat]? = some first → hdrs[c.toSec.toNat]? = some last →
    ∃ p', s.programHeaders[l]? = some p' ∧ p'.pType = p.pType ∧ p'.pOffset = first.shOffset ∧
      p'.pFilesz = last.shOffset + last.shSize - first.shOffset ∧ p'.pVaddr = BitVec.ofNat _ c.base ∧
      ∀ l' c', cs[l']? = some c' → Owns cs l' c' c.toSec.toNat → p.pType = ptLoad →
        p'.pMemsz = BitVec.ofNat _ (c.memorySize c' (memory hdrs) last.shSize.toNat)
  later : ∀ l, k ≤ l → s.programHeaders[l]? = phdrs[l]?

theorem named_succ {cs : List SegmentLayoutConstraint} {k j : Nat} {c : SegmentLayoutConstraint} (hc : cs[k]? = some c) :
    Named cs (k + 1) j ↔ Named cs k j ∨ c.Names j := by
  constructor
  · rintro ⟨l, hl, c', hc', hnames⟩
    rcases Nat.lt_succ_iff_lt_or_eq.mp hl with hl | rfl
    · exact .inl ⟨l, hl, c', hc', hnames⟩
    · rw [hc, Option.some.injEq] at hc'
      exact .inr (hc' ▸ hnames)
  · rintro (⟨l, hl, hrest⟩ | hnames)
    · exact ⟨l, by omega, hrest⟩
    · exact ⟨k, by omega, c, hc, hnames⟩

/-- A section that is named has a first constraint. -/
theorem Named.exists_owner {cs : List SegmentLayoutConstraint} {k j : Nat} (h : Named cs k j) :
    ∃ l < k, ∃ c, cs[l]? = some c ∧ Owns cs l c j := by
  induction k with
  | zero =>
    obtain ⟨l, hl, -⟩ := h
    omega
  | succ k ih =>
    by_cases hk : Named cs k j
    · obtain ⟨l, hl, hrest⟩ := ih hk
      exact ⟨l, by omega, hrest⟩
    · obtain ⟨l, hl, c, hc, hnames⟩ := h
      obtain hlt | rfl := Nat.lt_succ_iff_lt_or_eq.mp hl
      · exact absurd ⟨l, hlt, c, hc, hnames⟩ hk
      · exact ⟨l, hl, c, hc, hnames, hk⟩

theorem Owns.le {cs : List SegmentLayoutConstraint} {l l' j : Nat} {c c' : SegmentLayoutConstraint} (h : Owns cs l c j)
    (hc' : cs[l']? = some c') (hnames : c'.Names j) : l ≤ l' :=
  le_of_not_gt fun hlt => h.2 ⟨l', hlt, c', hc', hnames⟩

theorem applied_start (hdrs : List (Shdr b)) (phdrs : List (Phdr b)) (cs : List SegmentLayoutConstraint) :
    Applied hdrs phdrs cs 0 ⟨hdrs, List.replicate hdrs.length false, phdrs⟩ := by
  have hnone : ∀ j, ¬ Named cs 0 j := by
    rintro j ⟨l, hl, -⟩
    omega
  refine ⟨⟨rfl, List.length_replicate, rfl⟩, fun j h hj => ⟨h.shAddr, hj⟩, fun j hj => ⟨fun h => absurd h (hnone j),
    fun _ => ?_⟩, fun j _ => rfl, nofun, nofun, fun l _ => rfl⟩
  rw [List.getElem?_replicate, if_pos hj]

theorem Applied.memory_eq {hdrs : List (Shdr b)} {phdrs : List (Phdr b)} {cs : List SegmentLayoutConstraint} {k : Nat}
    {s : Segments b} (h : Applied hdrs phdrs cs k s) : memory s.sectionHeaders = memory hdrs := by
  refine List.ext_getElem? fun j => ?_
  rw [memory, memory, List.getElem?_map, List.getElem?_map]
  cases hj : hdrs[j]? with
  | none =>
    rw [List.getElem?_eq_none_iff] at hj
    rw [List.getElem?_eq_none (by rw [h.length.1]; exact hj)]
  | some shdr =>
    obtain ⟨addr, hat⟩ := h.same j shdr hj
    rw [hat]
    rfl

section Steps

variable {hdrs : List (Shdr b)} {phdrs : List (Phdr b)} {cs : List SegmentLayoutConstraint} {k : Nat} {s : Segments b}
  {c : SegmentLayoutConstraint}

theorem Regular.base_eq (hreg : Regular (memory hdrs) phdrs cs) (hc : cs[k]? = some c) (hfrom : c.fromSec ≠ 0) :
    alignTo c.baseAddress.toNat c.alignment.toNat = c.base := by
  have hwidth : 2 ^ b.width ≤ 2 ^ 64 := by cases b <;> decide
  have hmem := List.mem_of_getElem? hc
  obtain ⟨e, he⟩ := hreg.power c hmem hfrom
  have hlt := c.alignment.isLt
  have hfits := hreg.base c hmem hfrom
  refine alignTo_eq_of_dvd (by omega) (by rw [he]; exact Nat.two_pow_pos e) ?_ ?_
  · rw [he] at hlt ⊢
    exact Nat.pow_dvd_pow 2 (by have := (Nat.pow_lt_pow_iff_right (by decide)).mp hlt; omega)
  · change c.base < 2 ^ 64
    omega

/-- What one constraint does to the sections: the first ones, up to `m`, get addresses. -/
theorem Applied.assign (hreg : Regular (memory hdrs) phdrs cs)
    (hsmall : ∀ h ∈ hdrs, h.shSize.toNat < 2 ^ 63 ∧ h.shAddralign.toNat < 2 ^ 32) (h : Applied hdrs phdrs cs k s)
    (hc : cs[k]? = some c) (hfrom : c.fromSec ≠ 0) :
    ∃ hdrs' touched', assignAddresses (List.range' c.fromSec.toNat (c.toSec.toNat + 1 - c.fromSec.toNat)) c.base
        (s.sectionHeaders, s.touched) = (hdrs', touched') ∧
      hdrs'.length = hdrs.length ∧ touched'.length = hdrs.length ∧
      (∀ (j : Nat) h, hdrs[j]? = some h → ∃ addr, hdrs'[j]? = some { h with shAddr := addr }) ∧
      (∀ j < hdrs.length, (Named cs (k + 1) j → touched'[j]? = some true) ∧
        (¬ Named cs (k + 1) j → touched'[j]? = some false)) ∧
      (∀ j, ¬ Named cs (k + 1) j → hdrs'[j]? = hdrs[j]?) ∧
      ∀ l < k + 1, ∀ c', cs[l]? = some c' → ∀ j, Owns cs l c' j →
        hdrs'[j]? = hdrs[j]?.map fun h => h.at (c'.address (memory hdrs) j) := by
  have hwidth : 2 ^ b.width ≤ 2 ^ 64 := by cases b <;> decide
  have hmemlen : (memory hdrs).length = hdrs.length := List.length_map _
  obtain ⟨hle, hto⟩ := hreg.range c (List.mem_of_getElem? hc) hfrom
  have hnames : ∀ j, c.Names j ↔ c.fromSec.toNat ≤ j ∧ j ≤ c.toSec.toNat := fun j => and_iff_right hfrom
  have hsame := h.memory_eq
  have hsmall' : ∀ h ∈ s.sectionHeaders, h.shSize.toNat < 2 ^ 63 ∧ h.shAddralign.toNat < 2 ^ 32 := by
    intro shdr hshdr
    obtain ⟨j, hj, rfl⟩ := List.mem_iff_getElem.mp hshdr
    have hj' : j < hdrs.length := h.length.1 ▸ hj
    obtain ⟨addr, hat⟩ := h.same j hdrs[j] (List.getElem?_eq_getElem hj')
    rw [List.getElem?_eq_getElem hj, Option.some.injEq] at hat
    rw [hat]
    exact hsmall hdrs[j] (List.getElem_mem hj')
  -- The new sections are the first `m` ones.
  obtain ⟨m, hm, hinitial⟩ := @exists_initial (fun d => Owns cs k c (c.fromSec.toNat + d))
    (c.toSec.toNat + 1 - c.fromSec.toNat) (fun d d' hd hd' => hreg.initial k c _ _ hc ((hnames _).mpr (by omega)) (by omega))
  have howns : ∀ j, c.Names j → (j < c.fromSec.toNat + m ↔ Owns cs k c j) := by
    intro j hj
    obtain ⟨hfj, hjt⟩ := (hnames j).mp hj
    obtain ⟨d, rfl⟩ := Nat.exists_eq_add_of_le hfj
    rw [← hinitial d (by omega)]
    omega
  have hfree : ∀ j, c.fromSec.toNat ≤ j → j < c.fromSec.toNat + m → Owns cs k c j := fun j hj hjm =>
    (howns j ((hnames j).mpr (by omega))).mp hjm
  obtain ⟨hlen, hlen', hat⟩ := @assignAddresses_free b m c.fromSec.toNat c.base s.sectionHeaders s.touched hsmall'
    (h.length.2.1.trans h.length.1.symm) (by rw [h.length.1]; omega)
    (fun j hj hjm => (h.touched j (by omega)).2 (hfree j hj hjm).2)
    (fun j hj hjm => by
      rw [hsame]
      exact lt_of_lt_of_le (hreg.address k c j hc (hfree j hj hjm)) hwidth)
  have hrange : List.range' c.fromSec.toNat (c.toSec.toNat + 1 - c.fromSec.toNat) =
      List.range' c.fromSec.toNat m ++ List.range' (c.fromSec.toNat + m) (c.toSec.toNat + 1 - c.fromSec.toNat - m) := by
    rw [List.range'_append_1]
    congr 1
    omega
  have hrun := @assignAddresses_append b (List.range' c.fromSec.toNat m)
    (List.range' (c.fromSec.toNat + m) (c.toSec.toNat + 1 - c.fromSec.toNat - m)) c.base (s.sectionHeaders, s.touched)
    (fun j hj => by
      obtain ⟨hmj, hjt⟩ := List.mem_range'_1.mp hj
      have hj' : c.Names j := (hnames j).mpr (by omega)
      have hnot : ¬ Owns cs k c j := fun hown => by
        have := (howns j hj').mpr hown
        omega
      exact ((hat j).2 (by omega)).2.trans ((h.touched j (by omega)).1 (not_not.mp fun hn => hnot ⟨hj', hn⟩)))
  rw [hrange, hrun]
  have hin : ∀ j, Owns cs k c j → hdrs[j]? = s.sectionHeaders[j]? := fun j hj => (h.unnamed j hj.2).symm
  have hout : ∀ j, ¬ Owns cs k c j → j < c.fromSec.toNat ∨ c.fromSec.toNat + m ≤ j := by
    intro j hj
    by_contra hboth
    exact hj (hfree j (by omega) (by omega))
  refine ⟨_, _, rfl, hlen.trans h.length.1, hlen'.trans h.length.2.1, fun j shdr hj => ?_, fun j hj => ?_,
    fun j hj => ?_, fun l hl c' hc' j hj => ?_⟩
  · by_cases hcj : Owns cs k c j
    · have hjm := (howns j hcj.1).mpr hcj
      refine ⟨BitVec.ofNat _ (c.base + reserve (memory s.sectionHeaders) c.fromSec.toNat j), ?_⟩
      rw [((hat j).1 hcj.1.2.1 hjm).1, ← hin j hcj, hj]
      rfl
    · obtain ⟨addr, haddr⟩ := h.same j shdr hj
      exact ⟨addr, ((hat j).2 (hout j hcj)).1.trans haddr⟩
  · rw [named_succ hc]
    by_cases hcj : Owns cs k c j
    · exact ⟨fun _ => ((hat j).1 hcj.1.2.1 ((howns j hcj.1).mpr hcj)).2, fun hnot => absurd (.inr hcj.1) hnot⟩
    · rw [((hat j).2 (hout j hcj)).2]
      refine ⟨fun hnamed => (h.touched j hj).1 ?_, fun hnot => (h.touched j hj).2 fun hn => hnot (.inl hn)⟩
      obtain hn | hnames' := hnamed
      · exact hn
      · exact not_not.mp fun hn => hcj ⟨hnames', hn⟩
  · rw [named_succ hc, not_or] at hj
    exact ((hat j).2 (hout j fun hown => hj.2 hown.1)).1.trans (h.unnamed j hj.1)
  · rcases Nat.lt_succ_iff_lt_or_eq.mp hl with hl | rfl
    · have hcj : ¬ Owns cs k c j := fun hown => hown.2 ⟨l, hl, c', hc', hj.1⟩
      exact ((hat j).2 (hout j hcj)).1.trans (h.assigned l hl c' hc' j hj)
    · rw [hc, Option.some.injEq] at hc'
      subst hc'
      rw [((hat j).1 hj.1.2.1 ((howns j hj.1).mpr hj)).1, hsame, hin j hj]
      rfl

/-- The fields of a segment that its constraint sets. -/
theorem sizeMemory_locate (c : SegmentLayoutConstraint) (first last last' : Shdr b) (phdr : Phdr b) :
    let p := sizeMemory c last' (locate c first last phdr)
    p.pType = phdr.pType ∧ p.pOffset = first.shOffset ∧ p.pFilesz = last.shOffset + last.shSize - first.shOffset ∧
      p.pVaddr = BitVec.ofNat _ (alignTo c.baseAddress.toNat c.alignment.toNat) ∧
      (phdr.pType = ptLoad → p.pMemsz = BitVec.ofNat _ (alignTo ((last'.shAddr.toNat +
        alignTo last'.shSize.toNat c.alignment.toNat + 2 ^ 64 -
          (BitVec.ofNat b.width (alignTo c.baseAddress.toNat c.alignment.toNat)).toNat) % 2 ^ 64)
        (BitVec.ofNat b.width c.alignment.toNat).toNat)) := by
  by_cases hload : phdr.pType = ptLoad
  · simp only [sizeMemory, locate, hload, if_true]
    exact ⟨trivial, trivial, trivial, trivial, fun _ => trivial⟩
  · simp only [sizeMemory, locate, hload, if_false]
    exact ⟨trivial, trivial, trivial, trivial, nofun⟩

theorem Applied.step (hreg : Regular (memory hdrs) phdrs cs)
    (hsmall : ∀ h ∈ hdrs, h.shSize.toNat < 2 ^ 63 ∧ h.shAddralign.toNat < 2 ^ 32) (h : Applied hdrs phdrs cs k s)
    (hc : cs[k]? = some c) : ∃ s', applyConstraint k c s = some s' ∧ Applied hdrs phdrs cs (k + 1) s' := by
  by_cases hfrom : c.fromSec = 0
  · have hnames : ∀ j, ¬ c.Names j := fun j hj => hj.1 hfrom
    have hnamed : ∀ j, Named cs (k + 1) j ↔ Named cs k j := by
      intro j
      rw [named_succ hc]
      exact or_iff_left (hnames j)
    refine ⟨s, if_pos hfrom, h.length, h.same, fun j hj => ?_, fun j hj => ?_, fun l hl c' hc' j hj => ?_,
      fun l hl c' p first last hc' hfrom' => ?_, fun l hl => h.later l (by omega)⟩
    · rw [hnamed]
      exact h.touched j hj
    · rw [hnamed] at hj
      exact h.unnamed j hj
    · rcases Nat.lt_succ_iff_lt_or_eq.mp hl with hl | rfl
      · exact h.assigned l hl c' hc' j hj
      · rw [hc, Option.some.injEq] at hc'
        exact absurd (hc' ▸ hj.1) (hnames j)
    · rcases Nat.lt_succ_iff_lt_or_eq.mp hl with hl | rfl
      · exact h.segment l hl c' p first last hc' hfrom'
      · rw [hc, Option.some.injEq] at hc'
        exact absurd (hc' ▸ hfrom) hfrom'
  · have hwidth : 2 ^ b.width ≤ 2 ^ 64 ∧ 16 ≤ b.width := by cases b <;> decide
    have hmemlen : (memory hdrs).length = hdrs.length := List.length_map _
    have hcount := hreg.count
    have hmem := List.mem_of_getElem? hc
    obtain ⟨hle, hto⟩ := hreg.range c hmem hfrom
    have hk : k < phdrs.length := lt_of_lt_of_le (List.getElem?_eq_some_iff.mp hc).1 hreg.segments.1
    have hphdr : s.programHeaders[k]? = some phdrs[k] := (h.later k le_rfl).trans (List.getElem?_eq_getElem hk)
    obtain ⟨first, hfirst⟩ : ∃ first, hdrs[c.fromSec.toNat]? = some first := ⟨_, List.getElem?_eq_getElem (by omega)⟩
    obtain ⟨last, hlast⟩ : ∃ last, hdrs[c.toSec.toNat]? = some last := ⟨_, List.getElem?_eq_getElem (by omega)⟩
    obtain ⟨faddr, hfirst'⟩ := h.same _ _ hfirst
    obtain ⟨laddr, hlast'⟩ := h.same _ _ hlast
    obtain ⟨hdrs', touched', hassign, hlen, hlen', hsame, htouched, hunnamed, hassigned⟩ := h.assign hreg hsmall hc hfrom
    rw [← hreg.base_eq hc hfrom] at hassign
    obtain ⟨naddr, hlast''⟩ := hsame _ _ hlast
    refine ⟨⟨hdrs', touched', s.programHeaders.set k (sizeMemory c { last with shAddr := naddr }
      (locate c { first with shAddr := faddr } { last with shAddr := laddr } phdrs[k]))⟩, ?_, ?_⟩
    · rw [applyConstraint, if_neg hfrom, hphdr, hfirst', hlast']
      simp only [Option.bind_eq_bind, Option.bind_some]
      rw [if_neg (by omega)]
      simp only [hassign, hlast'', Option.bind_some]
      rfl
    · refine ⟨⟨hlen, hlen', by rw [List.length_set, h.length.2.2]⟩, hsame, htouched, hunnamed, hassigned,
        fun l hl c' p first₁ last₁ hc' hfrom' hp hfirst₁ hlast₁ => ?_, fun l hl => ?_⟩
      · rcases Nat.lt_succ_iff_lt_or_eq.mp hl with hl | rfl
        · rw [List.getElem?_set_ne (by omega)]
          exact h.segment l hl c' p first₁ last₁ hc' hfrom' hp hfirst₁ hlast₁
        · rw [hc, Option.some.injEq] at hc'
          subst hc'
          rw [List.getElem?_eq_getElem hk, Option.some.injEq] at hp
          rw [hfirst, Option.some.injEq] at hfirst₁
          rw [hlast, Option.some.injEq] at hlast₁
          subst hp hfirst₁ hlast₁
          obtain ⟨htype, hoffset, hfilesz, hvaddr, hmemsz⟩ := sizeMemory_locate c { first with shAddr := faddr }
            { last with shAddr := laddr } { last with shAddr := naddr } phdrs[l]
          have hkl : l < s.programHeaders.length := by rw [h.length.2.2]; exact hk
          rw [hreg.base_eq hc hfrom] at hvaddr hmemsz
          refine ⟨_, List.getElem?_set_self hkl, htype, hoffset, hfilesz, hvaddr, fun l' c' hc' howns hload =>
            (hmemsz hload).trans ?_⟩
          have hnames : c.Names c.toSec.toNat := ⟨hfrom, hle, le_rfl⟩
          have hat := hassigned l' (by have := howns.le hc hnames; omega) c' hc' c.toSec.toNat howns
          rw [hlast'', hlast, Option.map_some, Option.some.injEq] at hat
          have hnaddr : naddr = BitVec.ofNat _ (c'.address (memory hdrs) c.toSec.toNat) := congrArg Shdr.shAddr hat
          have hmemlast : (memory hdrs)[c.toSec.toNat]? = some (last.shSize.toNat, last.shAddralign.toNat) := by
            rw [memory, List.getElem?_map, hlast, Option.map_some]
          obtain ⟨hbase, hfits⟩ := hreg.loaded l l' c c' _ _ _ hc (List.getElem?_eq_getElem hk) hload hc' howns hnames hmemlast
          have haddr := hreg.address l' c' _ hc' howns
          have hcbase := hreg.base c hmem hfrom
          obtain ⟨e, he⟩ := hreg.power c hmem hfrom
          have hlt := c.alignment.isLt
          have hpow16 : 2 ^ 16 ≤ 2 ^ b.width := Nat.pow_le_pow_right (by decide) hwidth.2
          have hdvd : c.alignment.toNat ∣ 2 ^ 64 := by
            rw [he] at hlt ⊢
            exact Nat.pow_dvd_pow 2 (by have := (Nat.pow_lt_pow_iff_right (by decide)).mp hlt; omega)
          have hpos : 0 < c.alignment.toNat := by rw [he]; exact Nat.two_pow_pos e
          have hsize := (hsmall last (List.mem_of_getElem? hlast)).1
          have hround : alignTo last.shSize.toNat c.alignment.toNat = alignUp last.shSize.toNat c.alignment.toNat :=
            alignTo_eq (by omega) (by omega)
          rw [SegmentLayoutConstraint.memorySize] at hfits ⊢
          have hup := le_alignUp (c'.address (memory hdrs) c.toSec.toNat + alignUp last.shSize.toNat c.alignment.toNat -
            c.base) c.alignment.toNat
          simp only [hround, hnaddr, BitVec.toNat_ofNat]
          rw [Nat.mod_eq_of_lt haddr, Nat.mod_eq_of_lt hcbase,
            Nat.mod_eq_of_lt (show c.alignment.toNat < 2 ^ b.width by omega),
            Nat.sub_add_comm hbase, Nat.add_mod_right, Nat.mod_eq_of_lt (by omega),
            alignTo_eq_of_dvd (by omega) hpos hdvd (by omega)]
      · rw [List.getElem?_set_ne (by omega)]
        exact h.later l (by omega)

end Steps

end Pepp.Elf

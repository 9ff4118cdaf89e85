import Pepp.Trace.AddressBiMap
import Pepp.Trace.Dense

/-!
# Layers of a bus

Targets are pushed in front of each other. The address map keeps one region for
each that still shows, and a region that lost its end to another one may go on
to store it, hidden behind the start of the next. `SimpleBus` has a list of its
devices next to the map, and each of its functions finds the way from the one to
the other by itself.
-/

namespace Pepp.Trace

open Interval Algorithms XorDeltas

/-! ## The map under layers -/

/-- A region that is left of a mapping, from its start on. -/
structure Node.StartOf {w : Nat} {D : Type} (n c : Node w D) : Prop where
  device : n.device = c.device
  lower : n.fromSpan.lower = c.fromSpan.lower
  toLower : n.toSpan.lower = c.toSpan.lower
  high : n.fromSpan.high ≤ c.fromSpan.high

section StartOf

variable {w : Nat} {D : Type} {n m node : Node w D}

theorem Node.StartOf.refl (n : Node w D) : n.StartOf n := ⟨rfl, rfl, rfl, le_rfl⟩

theorem Node.StartOf.trans (h : n.StartOf m) (h' : m.StartOf node) : n.StartOf node :=
  ⟨h.device.trans h'.device, h.lower.trans h'.lower, h.toLower.trans h'.toLower, h.high.trans h'.high⟩

theorem Node.StartOf.low (h : n.StartOf m) : n.fromSpan.low = m.fromSpan.low := congrArg BitVec.toNat h.lower

theorem Node.StartOf.has {k : BitVec w} (h : n.StartOf m) (hk : n.fromSpan.has k) : m.fromSpan.has k := by
  have hlow := h.low
  have hhigh := h.high
  rw [has_iff] at hk ⊢
  omega

end StartOf

namespace AddressBiMap

variable {w : Nat} {D : Type} {std : StdSort} {elements history : List (Node w D)} {n m node : Node w D} {k : BitVec w}

/-- An interval that the map can take in front of its regions. It reaches into none from below, and those that it
reaches into from above do not show behind its end. -/
def Layers (elements : List (Node w D)) (fromSpan : Interval w) : Prop :=
  (∀ n ∈ elements, fromSpan.contains n.fromSpan ∨ ¬fromSpan.intersects n.fromSpan ∨
    n.fromSpan.lower < fromSpan.lower ∧ ∀ k, fromSpan.upper < k → ¬Shows elements n k) ∧
      (fromSpan.lower = 0 ∨ ∃ n ∈ elements, n.fromSpan.lower = 0)

/-- The map after insertions of layers. -/
structure Layered (elements history : List (Node w D)) : Prop where
  sorted : elements.Pairwise fun a b => a.fromSpan.low < b.fromSpan.low
  fine : ∀ n ∈ elements, n.Fine
  start : ∀ n ∈ elements, ∃ c ∈ history, n.StartOf c
  bottom : elements = [] ∨ ∃ n ∈ elements, n.fromSpan.lower = 0
  latest : ∀ n k, Shows elements n k → ∃ c, latest history k = some c ∧ n.StartOf c
  shown : ∀ c k, AddressBiMap.latest history k = some c → ∃ n, Shows elements n k

/-! ### Insertions -/

/-- What becomes of a region in front of which an interval is put. -/
def Trimmed (fromSpan : Interval w) (n m : Node w D) : Prop :=
  m = n ∨ n.fromSpan.low < fromSpan.low ∧ fromSpan.low ≤ n.fromSpan.high ∧ m = shrinkUpper fromSpan n

section Trimmed

variable {fromSpan : Interval w}

/-- A region that is shrunk ends with the first address of the interval. -/
theorem shrinkUpper_spec (hfrom : fromSpan.valid) (hn : n.Fine) (hlow : n.fromSpan.low < fromSpan.low)
    (hhigh : fromSpan.low ≤ n.fromSpan.high) : (shrinkUpper fromSpan n).Fine ∧ (shrinkUpper fromSpan n).StartOf n ∧
      (shrinkUpper fromSpan n).fromSpan.high = fromSpan.low := by
  have hin : fromSpan.intersects n.fromSpan :=
    (intersects_iff hfrom hn.from_valid).mpr ⟨hhigh, hlow.le.trans (valid_iff.mp hfrom)⟩
  have hvalid : (⟨n.fromSpan.lower, fromSpan.lower⟩ : Interval w).valid := valid_iff.mpr hlow.le
  have hsize : (⟨n.fromSpan.lower, fromSpan.lower⟩ : Interval w).size true = fromSpan.low - n.fromSpan.low :=
    size_eq hvalid
  have hlengths := hn.lengths
  rw [size_eq hn.from_valid, size_eq hn.to_valid] at hlengths
  have hto := valid_iff.mp hn.to_valid
  have hbound := n.toSpan.high_lt
  have hend : (n.toSpan.lower + .ofNat w (fromSpan.low - n.fromSpan.low)).toNat =
      n.toSpan.low + (fromSpan.low - n.fromSpan.low) := by
    have hofNat : (BitVec.ofNat w (fromSpan.low - n.fromSpan.low)).toNat = fromSpan.low - n.fromSpan.low := by
      rw [BitVec.toNat_ofNat, Nat.mod_eq_of_lt (by omega)]
    rw [BitVec.toNat_add_of_lt, hofNat]
    · rfl
    · rw [hofNat]
      change n.toSpan.low + _ < _
      omega
  have htarget : (⟨n.toSpan.lower, n.toSpan.lower + .ofNat w (fromSpan.low - n.fromSpan.low)⟩ : Interval w).valid := by
    rw [valid_iff, low_mk, high_mk, hend]
    exact Nat.le_add_right _ _
  rw [shrinkUpper, if_pos hin]
  dsimp only
  rw [hsize]
  refine ⟨⟨hvalid, htarget, ?_⟩, ⟨rfl, rfl, rfl, hhigh⟩, rfl⟩
  rw [hsize, size_eq htarget, high_mk, hend]
  exact (Nat.add_sub_cancel_left _ _).symm

theorem Trimmed.spec (hfrom : fromSpan.valid) (hn : n.Fine) (h : Trimmed fromSpan n m) : m.Fine ∧ m.StartOf n := by
  rcases h with rfl | ⟨hlow, hhigh, rfl⟩
  · exact ⟨hn, .refl _⟩
  · obtain ⟨hfine, hstart, -⟩ := shrinkUpper_spec hfrom hn hlow hhigh
    exact ⟨hfine, hstart⟩

/-- In front of the interval, the region has what it had. -/
theorem Trimmed.has_iff_of_lt (hfrom : fromSpan.valid) (hn : n.Fine) (h : Trimmed fromSpan n m)
    (hk : k.toNat < fromSpan.low) : m.fromSpan.has k ↔ n.fromSpan.has k := by
  rcases h with rfl | ⟨hlow, hhigh, rfl⟩
  · rfl
  · obtain ⟨-, hstart, hend⟩ := shrinkUpper_spec hfrom hn hlow hhigh
    rw [has_iff, has_iff, hend, hstart.low]
    omega

theorem forall₂_left {α β : Type} {R : α → β → Prop} {l : List α} {l' : List β} (h : List.Forall₂ R l l') :
    ∀ a ∈ l, ∃ b ∈ l', R a b := by
  induction h with
  | nil => exact List.forall_mem_nil _
  | cons hab _ ih =>
    refine List.forall_mem_cons.mpr ⟨⟨_, List.mem_cons_self, hab⟩, fun a ha => ?_⟩
    obtain ⟨b, hb, hab⟩ := ih a ha
    exact ⟨b, List.mem_cons_of_mem _ hb, hab⟩

theorem forall₂_right {α β : Type} {R : α → β → Prop} {l : List α} {l' : List β} (h : List.Forall₂ R l l') :
    ∀ b ∈ l', ∃ a ∈ l, R a b :=
  forall₂_left (@List.Forall₂.flip _ _ (flip R) _ _ h)

theorem forall₂_modify {α : Type} {R : α → α → Prop} {f : α → α} {l : List α} (hrefl : ∀ a ∈ l, R a a)
    (hf : ∀ a ∈ l, R a (f a)) (i : Nat) : List.Forall₂ R l (l.modify i f) := by
  induction l generalizing i with
  | nil =>
    rw [List.modify_nil]
    exact .nil
  | cons a l ih =>
    rw [List.forall_mem_cons] at hrefl hf
    cases i with
    | zero =>
      rw [List.modify_zero_cons]
      exact .cons hf.1 (List.forall₂_same.mpr hrefl.2)
    | succ i =>
      rw [List.modify_succ_cons]
      exact .cons hrefl.1 (ih hrefl.2 hf.2 i)

/-- The second shrinking changes nothing when the intervals behind the inserted one miss it. -/
theorem shrinkAfter_eq_self
    (h : ∀ n ∈ elements, fromSpan.key < n.fromSpan.key → ¬fromSpan.intersects n.fromSpan) :
    shrinkAfter fromSpan elements = elements := by
  rw [shrinkAfter]
  refine List.ext_getElem (List.length_modify _ _ _) fun i hi hi' => ?_
  rw [List.getElem_modify]
  split
  · next hub =>
    subst hub
    have hbehind := partitionPoint_at hi'
    rw [Bool.not_eq_false', decide_eq_true_iff] at hbehind
    exact if_neg (h _ (List.getElem_mem hi') hbehind)
  · rfl

/-- The regions that stay when an interval is put in front of them. -/
theorem shrink_trimmed (hfrom : fromSpan.valid) (hfine : ∀ n ∈ elements, n.Fine)
    (hkept : ∀ n ∈ elements, ¬fromSpan.intersects n.fromSpan ∨ n.fromSpan.low < fromSpan.low) :
    List.Forall₂ (Trimmed fromSpan) elements (shrinkAfter fromSpan (shrinkBefore fromSpan elements)) := by
  have hbefore : List.Forall₂ (Trimmed fromSpan) elements (shrinkBefore fromSpan elements) := by
    have hsame : ∀ n ∈ elements, Trimmed fromSpan n n := fun n _ => Or.inl rfl
    rw [shrinkBefore]
    split
    · refine forall₂_modify hsame (fun n hn => ?_) _
      by_cases hin : fromSpan.intersects n.fromSpan
      · have hhigh := ((intersects_iff hfrom (hfine n hn).from_valid).mp hin).1
        exact Or.inr ⟨(hkept n hn).resolve_left (not_not_intro hin), hhigh, rfl⟩
      · exact Or.inl (if_neg hin)
    · exact List.forall₂_same.mpr hsame
  have hafter : shrinkAfter fromSpan (shrinkBefore fromSpan elements) = shrinkBefore fromSpan elements := by
    refine shrinkAfter_eq_self fun m hm hkey => ?_
    obtain ⟨n, hn, htrimmed⟩ := forall₂_right hbefore m hm
    obtain ⟨hmfine, hstart⟩ := htrimmed.spec hfrom (hfine n hn)
    rw [key_lt hfrom hmfine.from_valid, hstart.low] at hkey
    rcases htrimmed with rfl | ⟨hlow, -, -⟩
    · exact (hkept m hn).resolve_right (by omega)
    · omega
  rw [hafter]
  exact hbefore

end Trimmed

/-- The map after an insertion in front of its regions. -/
structure Inserted (elements : List (Node w D)) (node : Node w D) (result : List (Node w D)) : Prop where
  sorted : result.Pairwise fun a b => a.fromSpan.low < b.fromSpan.low
  inserted : node ∈ result
  kept : ∀ n ∈ elements, ¬node.fromSpan.contains n.fromSpan → ∃ m ∈ result, Trimmed node.fromSpan n m
  old : ∀ m ∈ result, m = node ∨ ∃ n ∈ elements, ¬node.fromSpan.contains n.fromSpan ∧ Trimmed node.fromSpan n m

/-- Sorted by their intervals, regions with different starts are sorted by these. -/
theorem pairwise_low (hfine : ∀ n ∈ elements, n.Fine)
    (hsort : elements.Pairwise fun a b => toLex (a.fromSpan.key, a.toSpan.key) ≤ toLex (b.fromSpan.key, b.toSpan.key))
    (hdistinct : elements.Pairwise fun a b => a.fromSpan.low ≠ b.fromSpan.low) :
    elements.Pairwise fun a b => a.fromSpan.low < b.fromSpan.low := by
  refine (List.Pairwise.and hsort hdistinct).imp_of_mem fun {a b} ha hb hab => ?_
  have hle : ¬b.fromSpan.key < a.fromSpan.key := fun hlt => not_lt.mpr hab.1 (Prod.Lex.toLex_lt_toLex.mpr (Or.inl hlt))
  rw [key_lt (hfine b hb).from_valid (hfine a ha).from_valid] at hle
  have := hab.2
  omega

theorem insert_inserted (hsorted : elements.Pairwise fun a b => a.fromSpan.low < b.fromSpan.low)
    (hfine : ∀ n ∈ elements, n.Fine) (hnode : node.Fine) (hlayers : Layers elements node.fromSpan) :
    Inserted elements node (insertOrOverwrite std elements node) := by
  obtain ⟨kept, hkept⟩ : ∃ kept, kept = elements.filter fun n => !decide (node.fromSpan.contains n.fromSpan) := ⟨_, rfl⟩
  have hmem : ∀ n, n ∈ kept ↔ n ∈ elements ∧ ¬node.fromSpan.contains n.fromSpan := fun n => by simp [hkept]
  have hmissed : ∀ n ∈ kept, ¬node.fromSpan.intersects n.fromSpan ∨ n.fromSpan.low < node.fromSpan.low := by
    intro n hn
    obtain ⟨hn, hout⟩ := (hmem n).mp hn
    exact ((hlayers.1 n hn).resolve_left hout).imp_right fun h => BitVec.lt_def.mp h.1
  have hkeptFine : ∀ n ∈ kept, n.Fine := fun n hn => hfine n ((hmem n).mp hn).1
  have htrimmed := shrink_trimmed hnode.from_valid hkeptFine hmissed
  obtain ⟨trimmed, hdef⟩ : ∃ trimmed, trimmed = shrinkAfter node.fromSpan (shrinkBefore node.fromSpan kept) := ⟨_, rfl⟩
  have hinsert : insertOrOverwrite std elements node = std.sort lt (trimmed ++ [node]) := by
    rw [hdef, hkept]
    rfl
  have hperm := std.perm lt (trimmed ++ [node])
  have hsort := std.sorted (fun n : Node w D => toLex (n.fromSpan.key, n.toSpan.key)) lt (trimmed ++ [node]) lt_iff
  rw [← hinsert] at hsort hperm
  rw [← hdef] at htrimmed
  have hold : ∀ m ∈ trimmed, ∃ n ∈ kept, Trimmed node.fromSpan n m := forall₂_right htrimmed
  have hresult : ∀ m, m ∈ insertOrOverwrite std elements node ↔ m ∈ trimmed ∨ m = node := fun m => by
    rw [hperm.mem_iff, List.mem_append, List.mem_singleton]
  have hresultFine : ∀ m ∈ insertOrOverwrite std elements node, m.Fine := by
    intro m hm
    rcases (hresult m).mp hm with hm | rfl
    · obtain ⟨n, hn, h⟩ := hold m hm
      exact (h.spec hnode.from_valid (hkeptFine n hn)).1
    · exact hnode
  have hlows : kept.map (·.fromSpan.low) = trimmed.map (·.fromSpan.low) := by
    rw [← List.forall₂_eq_eq_eq, List.forall₂_map_left_iff, List.forall₂_map_right_iff]
    exact ((List.forall₂_and_left _ _).mpr ⟨hkeptFine, htrimmed⟩).imp fun n m h =>
      (h.2.spec hnode.from_valid h.1).2.low.symm
  constructor
  · refine pairwise_low hresultFine hsort ((hperm.pairwise_iff fun {a b} hab => hab.symm).mpr ?_)
    refine List.pairwise_append.mpr ⟨?_, List.pairwise_singleton _ _, fun m hm b hb => ?_⟩
    · have hpair : (kept.map (·.fromSpan.low)).Pairwise (· < ·) :=
        List.pairwise_map.mpr (hkept ▸ hsorted.sublist List.filter_sublist)
      rw [hlows] at hpair
      exact (List.pairwise_map.mp hpair).imp fun h => h.ne
    · obtain ⟨n, hn, h⟩ := hold m hm
      rw [List.mem_singleton.mp hb, (h.spec hnode.from_valid (hkeptFine n hn)).2.low]
      rcases hmissed n hn with hmiss | hlow
      · intro heq
        rw [intersects_iff hnode.from_valid (hkeptFine n hn).from_valid] at hmiss
        have := valid_iff.mp hnode.from_valid
        have := valid_iff.mp (hkeptFine n hn).from_valid
        omega
      · exact hlow.ne
  · exact (hresult node).mpr (Or.inr rfl)
  · intro n hn hout
    obtain ⟨m, hm, h⟩ := forall₂_left htrimmed n ((hmem n).mpr ⟨hn, hout⟩)
    exact ⟨m, (hresult m).mpr (Or.inl hm), h⟩
  · intro m hm
    rcases (hresult m).mp hm with hm | rfl
    · obtain ⟨n, hn, h⟩ := hold m hm
      exact Or.inr ⟨n, ((hmem n).mp hn).1, ((hmem n).mp hn).2, h⟩
    · exact Or.inl rfl

section Shown

variable {result : List (Node w D)}

section

variable (h : Inserted elements node result) (hfine : ∀ n ∈ elements, n.Fine) (hnode : node.Fine)
include h hfine hnode

theorem Inserted.fine : ∀ m ∈ result, m.Fine := by
  intro m hm
  rcases h.old m hm with rfl | ⟨n, hn, -, htrimmed⟩
  · exact hnode
  · exact (htrimmed.spec hnode.from_valid (hfine n hn)).1

/-- Within the interval, the new region shows. -/
theorem Inserted.shows_node (hlayers : Layers elements node.fromSpan) (hk : node.fromSpan.has k) :
    Shows result node k := by
  refine ⟨h.inserted, hk, fun m hm hmk => ?_⟩
  rcases h.old m hm with rfl | ⟨n, hn, hout, htrimmed⟩
  · exact le_rfl
  · have hnfine := hfine n hn
    have hlow := (htrimmed.spec hnode.from_valid hnfine).2.low
    rcases (hlayers.1 n hn).resolve_left hout with hmiss | ⟨hlt, -⟩
    · rw [intersects_iff hnode.from_valid hnfine.from_valid] at hmiss
      have := valid_iff.mp hnfine.from_valid
      rw [has_iff] at hk
      omega
    · have := BitVec.lt_def.mp hlt
      change n.fromSpan.low < node.fromSpan.low at this
      omega

/-- In front of it, the same region shows, though it may be shorter. -/
theorem Inserted.shows_before (hk : k.toNat < node.fromSpan.low) (hn : Shows elements n k) :
    ∃ m, Shows result m k ∧ m.StartOf n := by
  have hnlow := (has_iff.mp hn.has).1
  have hout : ¬node.fromSpan.contains n.fromSpan := fun hin => by
    rw [contains_iff hnode.from_valid (hfine n hn.mem).from_valid] at hin
    omega
  obtain ⟨m, hm, htrimmed⟩ := h.kept n hn.mem hout
  obtain ⟨-, hstart⟩ := htrimmed.spec hnode.from_valid (hfine n hn.mem)
  have hhas := (htrimmed.has_iff_of_lt hnode.from_valid (hfine n hn.mem) hk).mpr hn.has
  refine ⟨m, ⟨hm, hhas, fun m' hm' hm'k => ?_⟩, hstart⟩
  rcases h.old m' hm' with rfl | ⟨n', hn', -, htrimmed'⟩
  · omega
  · have hlow := (htrimmed'.spec hnode.from_valid (hfine n' hn')).2.low
    rw [hlow] at hm'k ⊢
    rw [hstart.low]
    exact hn.last n' hn' hm'k

/-- Behind it, the same region shows, which the interval misses. -/
theorem Inserted.shows_after (hlayers : Layers elements node.fromSpan) (hk : node.fromSpan.high < k.toNat)
    (hn : Shows elements n k) : ∃ m, Shows result m k ∧ m.StartOf n := by
  have hnfine := hfine n hn.mem
  have hhas := has_iff.mp hn.has
  have hout : ¬node.fromSpan.contains n.fromSpan := fun hin => by
    rw [contains_iff hnode.from_valid hnfine.from_valid] at hin
    omega
  have hmiss : ¬node.fromSpan.intersects n.fromSpan :=
    ((hlayers.1 n hn.mem).resolve_left hout).resolve_right fun hhidden => hhidden.2 k (BitVec.lt_def.mpr hk) hn
  have hbehind : node.fromSpan.high < n.fromSpan.low := by
    have := valid_iff.mp hnode.from_valid
    rw [intersects_iff hnode.from_valid hnfine.from_valid] at hmiss
    omega
  have := valid_iff.mp hnode.from_valid
  obtain ⟨m, hm, rfl | ⟨hlow, -, -⟩⟩ := h.kept n hn.mem hout
  · refine ⟨m, ⟨hm, hn.has, fun m' hm' hm'k => ?_⟩, .refl _⟩
    rcases h.old m' hm' with rfl | ⟨n', hn', -, htrimmed'⟩
    · omega
    · have hlow := (htrimmed'.spec hnode.from_valid (hfine n' hn')).2.low
      rw [hlow] at hm'k ⊢
      exact hn.last n' hn' hm'k
  · omega

/-- Outside of it, the same region shows. -/
theorem Inserted.shows_outside (hlayers : Layers elements node.fromSpan) (hk : ¬node.fromSpan.has k)
    (hn : Shows elements n k) : ∃ m, Shows result m k ∧ m.StartOf n := by
  rw [has_iff] at hk
  rcases Nat.lt_or_ge k.toNat node.fromSpan.low with hlt | hge
  · exact h.shows_before hfine hnode hlt hn
  · exact h.shows_after hfine hnode hlayers (by omega) hn

end

end Shown

/-- An address in a region of the map belongs to one that shows. -/
theorem Layered.shows_of_has (h : Layered elements history) (hn : n ∈ elements) (hk : n.fromSpan.has k) :
    ∃ m, Shows elements m k := by
  obtain ⟨c, hc, hstart⟩ := h.start n hn
  cases hlatest : AddressBiMap.latest history k with
  | none => exact absurd (decide_eq_true (hstart.has hk)) (List.find?_eq_none.mp hlatest c (List.mem_reverse.mpr hc))
  | some c' => exact h.shown c' k hlatest

theorem Layered.insert (h : Layered elements history) (hnode : node.Fine) (hlayers : Layers elements node.fromSpan) :
    Layered (insertOrOverwrite std elements node) (history ++ [node]) := by
  have hinserted : Inserted elements node (insertOrOverwrite std elements node) :=
    insert_inserted h.sorted h.fine hnode hlayers
  generalize insertOrOverwrite std elements node = result at hinserted
  constructor
  · exact hinserted.sorted
  · exact hinserted.fine h.fine hnode
  · intro m hm
    rcases hinserted.old m hm with rfl | ⟨n, hn, -, htrimmed⟩
    · exact ⟨m, List.mem_append_right _ (List.mem_singleton_self _), .refl _⟩
    · obtain ⟨c, hc, hstart⟩ := h.start n hn
      exact ⟨c, List.mem_append_left _ hc, (htrimmed.spec hnode.from_valid (h.fine n hn)).2.trans hstart⟩
  · right
    rcases hlayers.2 with hzero | ⟨n, hn, hzero⟩
    · exact ⟨node, hinserted.inserted, hzero⟩
    · by_cases hin : node.fromSpan.contains n.fromSpan
      · have hle := hin.2.2.1
        rw [hzero] at hle
        exact ⟨node, hinserted.inserted, BitVec.le_zero_iff.mp hle⟩
      · obtain ⟨m, hm, htrimmed⟩ := hinserted.kept n hn hin
        exact ⟨m, hm, (htrimmed.spec hnode.from_valid (h.fine n hn)).2.lower.trans hzero⟩
  · intro m k hm
    rw [latest_append]
    split
    · next hk =>
      obtain rfl := hm.unique hinserted.sorted (hinserted.shows_node h.fine hnode hlayers hk)
      exact ⟨m, rfl, .refl _⟩
    · next hk =>
      rcases hinserted.old m hm.mem with rfl | ⟨n, hn, -, htrimmed⟩
      · exact absurd hm.has hk
      · have hnk := (htrimmed.spec hnode.from_valid (h.fine n hn)).2.has hm.has
        obtain ⟨n', hn'⟩ := h.shows_of_has hn hnk
        obtain ⟨m', hm', hstart⟩ := hinserted.shows_outside h.fine hnode hlayers hk hn'
        obtain ⟨c, hc, hcstart⟩ := h.latest n' k hn'
        obtain rfl := hm.unique hinserted.sorted hm'
        exact ⟨c, hc, hstart.trans hcstart⟩
  · intro c k hc
    rw [latest_append] at hc
    split at hc
    · next hk => exact ⟨node, hinserted.shows_node h.fine hnode hlayers hk⟩
    · next hk =>
      obtain ⟨n, hn⟩ := h.shown c k hc
      obtain ⟨m, hm, -⟩ := hinserted.shows_outside h.fine hnode hlayers hk hn
      exact ⟨m, hm⟩

end AddressBiMap

/-! ## The bus -/

open AddressBiMap

def Dense.dump {k : Nat} (self : Dense k) (dest : List U8) : Except Exception (List U8) :=
  if dest.length = 0 then .error (.logicError "dump requires non-0 size")
  else .ok (memcpy dest self.data)

/-- How an access to a bus ends that does not return. -/
inductive BusFault (w : Nat) where
  | thrown (e : Exception)
  | unmapped (address : BitVec w)
  | endless

/-- A bus without a trace buffer. Its devices are sorted by their ids. -/
structure SimpleBus (k : Nat) where
  span : Interval (8 * k)
  addrs : List (Node (8 * k) U16)
  devices : List (Nat × Dense k)

namespace SimpleBus

variable {k : Nat}

/-- `device`; with no device of the id, the result is null. -/
def device (bus : SimpleBus k) (id : Nat) : Option (Dense k) :=
  let it := partitionPoint (fun V : Nat × Dense k => decide (V.1 < id)) bus.devices
  (bus.devices[it]?.filter fun V => V.1 = id).map Prod.snd

def pushFrontTarget (std : StdSort) (bus : SimpleBus k) (range : Interval (8 * k)) (target : Dense k) :
    Except Exception (SimpleBus k) :=
  if (bus.device target.device.toNat).isSome then .error (.logicError "Device ID already in use")
  else .ok { bus with
    addrs := insertOrOverwrite std bus.addrs ⟨target.device.toNat, range, target.span, 0⟩
    devices := std.sort (fun lhs rhs => decide (lhs.1 < rhs.1)) (bus.devices ++ [(target.device.toNat, target)]) }

def deviceAt (bus : SimpleBus k) (address : BitVec (8 * k)) : Except Exception (Option (Dense k)) := do
  match ← regionAt bus.addrs address with
  | none => return none
  | some region =>
    match bus.devices[region.device]? with
    | some V => return some V.2
    | none => throw (.assertion "index out of range")

/-- The device that an access goes on to at an address, and the address there. -/
def part (bus : SimpleBus k) (address : BitVec (8 * k)) : Except (BusFault (8 * k)) (Dense k × BitVec (8 * k)) :=
  match regionAt bus.addrs address with
  | .error e => .error (.thrown e)
  | .ok none => .error (.unmapped address)
  | .ok (some region) =>
    match bus.device region.device with
    | none => .error (.thrown (.assertion "dev"))
    | some dev => ((offsetMap address region.fromSpan region.toSpan).map (dev, ·)).mapError .thrown

/-- The loop of `read`. No device takes less than one byte, unless its span is empty. -/
def readRest (bus : SimpleBus k) (op : AccessType) :
    Nat → BitVec (8 * k) → List U8 → Except (BusFault (8 * k)) (List U8)
  | _, _, [] => .ok []
  | 0, _, _ :: _ => .error .endless
  | fuel + 1, address, dest => do
    let (dev, busToDev) ← bus.part address
    let usableLength := min dest.length (dev.span.size false)
    let acc ← (dev.read busToDev (dest.take usableLength) op).mapError .thrown
    let rest ← bus.readRest op fuel (address + .ofNat (8 * k) usableLength) (dest.drop usableLength)
    return acc.1 ++ rest

def read (bus : SimpleBus k) (address : BitVec (8 * k)) (dest : List U8) (op : AccessType) :
    Except (BusFault (8 * k)) (List U8) :=
  if bus.span.lower ≤ address ∧ Dense.maxDestAddr address dest.length ≤ bus.span.upper.toNat then
    bus.readRest op dest.length address dest
  else .error (.thrown (.oobAccess address.toNat))

def forward (bus : SimpleBus k) (address : BitVec (8 * k)) : Except Exception (Option (Nat × BitVec (8 * k))) :=
  value bus.addrs address

def backward (bus : SimpleBus k) (child : Nat) (address : BitVec (8 * k)) :
    Except Exception (Option (BitVec (8 * k))) :=
  key bus.addrs child address

/-- One turn of the loop of `dump`. -/
def dumpRegion (bus : SimpleBus k) (dest : List U8) (rit : Node (8 * k) U16) : Except Exception (List U8) :=
  match bus.device rit.device with
  | none => .ok dest
  | some dev =>
    let lower := rit.fromSpan.lower.toNat
    let size := rit.fromSpan.size false
    if lower + size ≤ dest.length then do
      let piece ← dev.dump ((dest.drop lower).take size)
      return dest.take lower ++ piece ++ dest.drop (lower + size)
    else .error (.assertion "offset + count <= size()")

def dump (bus : SimpleBus k) (dest : List U8) : Except Exception (List U8) :=
  if dest.length = 0 then .error (.logicError "dump requires non-0 size")
  else bus.addrs.foldlM bus.dumpRegion dest

/-! ### What the views promise -/

/-- A call of `pushFrontTarget`. -/
structure Push (k : Nat) where
  range : Interval (8 * k)
  target : Dense k

/-- Its mapping. -/
def Push.node (p : Push k) : Node (8 * k) U16 := ⟨p.target.device.toNat, p.range, p.target.span, 0⟩

/-- The address of the target that an address of the range translates to. -/
def Push.translate (p : Push k) (address : BitVec (8 * k)) : BitVec (8 * k) :=
  p.target.span.lower + (address - p.range.lower)

/-- A bus after the calls. -/
def run (std : StdSort) (span : Interval (8 * k)) (pushes : List (Push k)) : Except Exception (SimpleBus k) :=
  pushes.foldlM (fun bus p => bus.pushFrontTarget std p.range p.target) ⟨span, [], []⟩

/-- The call that pushed the target in front at an address. -/
def front (pushes : List (Push k)) (address : BitVec (8 * k)) : Option (Push k) :=
  pushes.reverse.find? fun p => p.range.has address

/-- At every address of the bus, all views are those of the target in front. -/
structure Agrees (bus : SimpleBus k) (pushes : List (Push k)) : Prop where
  deviceAt : ∀ a, bus.deviceAt a = .ok ((front pushes a).map Push.target)
  read : ∀ a p, bus.span.has a → front pushes a = some p → ∀ b op,
    bus.read a [b] op = ((p.target.read (p.translate a) [b] op).map Prod.fst).mapError .thrown
  unmapped : ∀ a, bus.span.has a → front pushes a = none → ∀ b op, bus.read a [b] op = .error (.unmapped a)
  forward : ∀ a, bus.forward a = .ok ((front pushes a).map fun p => (p.target.device.toNat, p.translate a))
  backward : ∀ a d v, bus.forward a = .ok (some (d, v)) → bus.backward d v = .ok (some a)
  dump : ∀ dest, dest.length = bus.span.size false → ∃ image, bus.dump dest = .ok image ∧
    image.length = dest.length ∧ ∀ a, bus.span.has a → front pushes a ≠ none → ∀ b op,
      ∃ byte, image[a.toNat]? = some byte ∧ bus.read a [b] op = .ok [byte]

/-- A call that keeps the views together. Its target has the next id, and its range goes in front of the regions
without reaching into one from below or hiding what shows behind it. -/
def Fits (bus : SimpleBus k) (p : Push k) : Prop :=
  p.target.device.toNat = bus.devices.length ∧ bus.span.contains p.range ∧ Layers bus.addrs p.range

/-- The bus as long as its calls fit. -/
structure Invariant (bus : SimpleBus k) (pushes : List (Push k)) : Prop where
  layered : Layered bus.addrs (pushes.map Push.node)
  devices : bus.devices = pushes.map fun p => (p.target.device.toNat, p.target)
  ids : ∀ (i : Nat) (hi : i < pushes.length), pushes[i].target.device.toNat = i
  fine : ∀ p ∈ pushes, p.node.Fine
  inside : ∀ p ∈ pushes, bus.span.contains p.range

section Lookups

variable {bus : SimpleBus k} {pushes : List (Push k)} {p : Push k} {n : Node (8 * k) U16} {a : BitVec (8 * k)}

section

variable (h : Invariant bus pushes)
include h

theorem Invariant.getElem?_devices (hp : p ∈ pushes) :
    bus.devices[p.target.device.toNat]? = some (p.target.device.toNat, p.target) := by
  obtain ⟨i, hi, rfl⟩ := List.getElem_of_mem hp
  rw [h.ids i hi, h.devices, List.getElem?_map, List.getElem?_eq_getElem hi, Option.map_some, h.ids i hi]

/-- With the ids in the order of the positions, the search for an id ends at its position. -/
theorem Invariant.partitionPoint_devices (i : Nat) :
    partitionPoint (fun V : Nat × Dense k => decide (V.1 < i)) bus.devices = min i pushes.length := by
  have hlen : bus.devices.length = pushes.length := by rw [h.devices, List.length_map]
  have hid : ∀ (j : Nat) (hj : j < bus.devices.length), bus.devices[j].1 = j := fun j hj => by
    have hj' : j < pushes.length := hlen ▸ hj
    simp only [h.devices, List.getElem_map, h.ids j hj']
  have hspec := @partitionPoint_spec _ bus.devices (fun V : Nat × Dense k => decide (V.1 < i))
    (List.pairwise_iff_getElem.mpr fun j j' hj hj' hlt hp => by
      rw [hid j' hj', decide_eq_true_iff] at hp
      rw [hid j hj, decide_eq_true_iff]
      omega)
  have hle := partitionPoint_le (fun V : Nat × Dense k => decide (V.1 < i)) bus.devices
  generalize partitionPoint (fun V : Nat × Dense k => decide (V.1 < i)) bus.devices = lb at hspec hle
  have hiff : ∀ j, j < pushes.length → (j < lb ↔ j < i) := fun j hj => by
    rw [← hlen] at hj
    rw [hspec j hj, hid j hj, decide_eq_true_iff]
  have hlb := hiff lb
  have hi := hiff i
  omega

theorem Invariant.device_eq (hp : p ∈ pushes) : bus.device p.target.device.toNat = some p.target := by
  obtain ⟨i, hi, hpi⟩ := List.getElem_of_mem hp
  have hid : p.target.device.toNat = i := by rw [← hpi, h.ids i hi]
  have hfound := h.getElem?_devices hp
  rw [device, h.partitionPoint_devices, hid, Nat.min_eq_left hi.le]
  rw [hid] at hfound
  rw [hfound, Option.filter_some, if_pos (decide_eq_true rfl), Option.map_some]

/-- The next id is not in use. -/
theorem Invariant.device_next : bus.device bus.devices.length = none := by
  have hlen : bus.devices.length = pushes.length := by rw [h.devices, List.length_map]
  rw [device, h.partitionPoint_devices, hlen, Nat.min_self, List.getElem?_eq_none hlen.le]
  rfl

end

theorem latest_map (pushes : List (Push k)) (a : BitVec (8 * k)) :
    latest (pushes.map Push.node) a = (front pushes a).map Push.node := by
  rw [latest, front, ← List.map_reverse, List.find?_map]
  rfl

/-- The region that shows at an address is a start of the mapping of the target in front. -/
theorem Invariant.front_iff (h : Invariant bus pushes) :
    (∀ n, Shows bus.addrs n a → ∃ p ∈ pushes, front pushes a = some p ∧ n.StartOf p.node) ∧
      (∀ p, front pushes a = some p → ∃ n, Shows bus.addrs n a) := by
  constructor
  · intro n hn
    obtain ⟨c, hc, hstart⟩ := h.layered.latest n a hn
    rw [latest_map, Option.map_eq_some_iff] at hc
    obtain ⟨p, hp, rfl⟩ := hc
    exact ⟨p, List.mem_reverse.mp (List.mem_of_find?_eq_some hp), hp, hstart⟩
  · intro p hp
    refine h.layered.shown p.node a ?_
    rw [latest_map, hp, Option.map_some]

/-- The lookup of an address. -/
theorem Invariant.regionAt_eq (h : Invariant bus pushes) (a : BitVec (8 * k)) :
    front pushes a = none ∧ regionAt bus.addrs a = .ok none ∨
      ∃ p n, p ∈ pushes ∧ front pushes a = some p ∧ regionAt bus.addrs a = .ok (some n) ∧
        Shows bus.addrs n a ∧ n.Fine ∧ n.StartOf p.node := by
  obtain ⟨r, hr, hiff⟩ := regionAt_shows h.layered.sorted h.layered.fine h.layered.bottom a
  cases r with
  | none =>
    refine Or.inl ⟨?_, hr⟩
    cases hfront : front pushes a with
    | none => rfl
    | some p =>
      obtain ⟨n, hn⟩ := h.front_iff.2 p hfront
      cases (hiff n).mpr hn
  | some n =>
    have hn := (hiff n).mp rfl
    obtain ⟨p, hp, hfront, hstart⟩ := h.front_iff.1 n hn
    exact Or.inr ⟨p, n, hp, hfront, hr, hn, h.layered.fine n hn.mem, hstart⟩

theorem offsetMap_start (hfine : n.Fine) (hstart : n.StartOf p.node) (hk : n.fromSpan.has a) :
    offsetMap a n.fromSpan n.toSpan = .ok (p.translate a) ∧ n.toSpan.has (p.translate a) ∧
      offsetMap (p.translate a) n.toSpan n.fromSpan = .ok a := by
  have htranslate : n.toSpan.lower + (a - n.fromSpan.lower) = p.translate a := by
    rw [hstart.lower, hstart.toLower]
    rfl
  obtain ⟨hmap, hhas, -⟩ := offsetMap_fine hfine.from_valid hfine.to_valid hfine.lengths hk
  have hback := offsetMap_back hfine.from_valid hfine.to_valid hfine.lengths hk
  rw [htranslate] at hmap hhas hback
  exact ⟨hmap, hhas, hback⟩

/-! ### The views -/

section

variable (h : Invariant bus pushes)
include h

theorem Invariant.deviceAt (a : BitVec (8 * k)) : bus.deviceAt a = .ok ((front pushes a).map Push.target) := by
  rcases h.regionAt_eq a with ⟨hfront, hregion⟩ | ⟨p, n, hp, hfront, hregion, -, -, hstart⟩
  · rw [SimpleBus.deviceAt, hregion, hfront]
    rfl
  · have hdevice : bus.devices[n.device]? = some (p.target.device.toNat, p.target) := by
      rw [hstart.device]
      exact h.getElem?_devices hp
    rw [SimpleBus.deviceAt, hregion, hfront]
    simp only [bind, Except.bind, hdevice]
    rfl

theorem Invariant.forward (a : BitVec (8 * k)) :
    bus.forward a = .ok ((front pushes a).map fun p => (p.target.device.toNat, p.translate a)) := by
  rcases h.regionAt_eq a with ⟨hfront, hregion⟩ | ⟨p, n, hp, hfront, hregion, hshows, hfine, hstart⟩
  · rw [SimpleBus.forward, value, hregion, hfront]
    rfl
  · rw [SimpleBus.forward, value, hregion, hfront]
    change (do return some (n.device, ← offsetMap a n.fromSpan n.toSpan)) = _
    rw [(offsetMap_start hfine hstart hshows.has).1, hstart.device]
    rfl

theorem Invariant.push_inj {q : Push k} (hp : p ∈ pushes) (hq : q ∈ pushes)
    (hid : p.target.device.toNat = q.target.device.toNat) : p = q := by
  obtain ⟨i, hi, rfl⟩ := List.getElem_of_mem hp
  obtain ⟨j, hj, rfl⟩ := List.getElem_of_mem hq
  obtain rfl : i = j := by rw [← h.ids i hi, hid, h.ids j hj]
  rfl

/-- Two regions of one device are one. -/
theorem Invariant.device_inj {m : Node (8 * k) U16} (hn : n ∈ bus.addrs) (hm : m ∈ bus.addrs)
    (hdevice : n.device = m.device) : n = m := by
  obtain ⟨c, hc, hnc⟩ := h.layered.start n hn
  obtain ⟨c', hc', hmc⟩ := h.layered.start m hm
  obtain ⟨p, hp, rfl⟩ := List.mem_map.mp hc
  obtain ⟨p', hp', rfl⟩ := List.mem_map.mp hc'
  obtain rfl := h.push_inj hp hp' (hnc.device.symm.trans (hdevice.trans hmc.device))
  exact low_inj h.layered.sorted hn hm (hnc.low.trans hmc.low.symm)

theorem Invariant.backward {d : Nat} {v : BitVec (8 * k)} (hforward : bus.forward a = .ok (some (d, v))) :
    bus.backward d v = .ok (some a) := by
  rw [h.forward] at hforward
  rcases h.regionAt_eq a with ⟨hfront, -⟩ | ⟨p, n, hp, hfront, -, hshows, hfine, hstart⟩
  · rw [hfront] at hforward
    cases hforward
  · rw [hfront] at hforward
    cases hforward
    obtain ⟨-, hhas, hback⟩ := offsetMap_start hfine hstart hshows.has
    have hfound : (bus.addrs.find? fun m => decide (m.device = p.target.device.toNat ∧ m.toSpan.has (p.translate a))) =
        some n := by
      cases hfind : bus.addrs.find? fun m => decide (m.device = p.target.device.toNat ∧
          m.toSpan.has (p.translate a)) with
      | none => exact absurd (decide_eq_true ⟨hstart.device, hhas⟩) (List.find?_eq_none.mp hfind n hshows.mem)
      | some m =>
        have hdevice := (of_decide_eq_true (@List.find?_some _ _ m bus.addrs hfind)).1
        rw [h.device_inj (List.mem_of_find?_eq_some hfind) hshows.mem (hdevice.trans hstart.device.symm)]
    rw [SimpleBus.backward, AddressBiMap.key, hfound]
    change (offsetMap (p.translate a) n.toSpan n.fromSpan).map some = _
    rw [hback]
    rfl

theorem Invariant.part (a : BitVec (8 * k)) :
    (front pushes a = none → bus.part a = .error (.unmapped a)) ∧
      ∀ p, front pushes a = some p → bus.part a = .ok (p.target, p.translate a) := by
  rcases h.regionAt_eq a with ⟨hfront, hregion⟩ | ⟨p, n, hp, hfront, hregion, hshows, hfine, hstart⟩
  · rw [SimpleBus.part, hregion, hfront]
    exact ⟨fun _ => rfl, by rintro p ⟨⟩⟩
  · have hdevice : bus.device n.device = some p.target := by
      rw [hstart.device]
      exact h.device_eq hp
    rw [SimpleBus.part, hregion, hfront]
    refine ⟨by rintro ⟨⟩, ?_⟩
    rintro p ⟨⟩
    simp only [hdevice, (offsetMap_start hfine hstart hshows.has).1]
    rfl

end

/-! ### Bytes -/

theorem maxDestAddr_one (a : BitVec (8 * k)) : Dense.maxDestAddr a 1 = a.toNat := by
  have hzero : (BitVec.ofNat (8 * k) 1 - 1).toNat = 0 := by
    rw [BitVec.ofNat_eq_ofNat, BitVec.sub_self]
    rfl
  rw [Dense.maxDestAddr, hzero, Nat.add_zero, Nat.mod_eq_of_lt a.isLt, ite_self]

/-- The offset of an address into the target. -/
theorem offset_lt (hfine : p.node.Fine) (ha : p.range.has a) : a.toNat - p.range.low < p.target.data.length := by
  have hlengths := hfine.lengths
  have hsize := p.target.size_data
  have hvalid : p.target.span.valid := hfine.to_valid
  rw [size_eq hfine.from_valid, size_eq hfine.to_valid] at hlengths
  rw [Interval.size, if_pos hvalid] at hsize
  change p.range.high - p.range.low = p.target.span.high - p.target.span.low at hlengths
  change _ = p.target.span.high - p.target.span.low + 1 at hsize
  rw [has_iff] at ha
  omega

theorem memcpy_singleton (b x : U8) (rest : List U8) : memcpy [b] (x :: rest) = [x] := by
  rw [memcpy, copy]
  simp

/-- A byte that is read from the target. -/
theorem target_read (hfine : p.node.Fine) (ha : p.range.has a) (b : U8) (op : AccessType) :
    ∃ byte, p.target.data[a.toNat - p.range.low]? = some byte ∧
      (p.target.read (p.translate a) [b] op).map Prod.fst = .ok [byte] := by
  obtain ⟨-, hhas, -⟩ := offsetMap_fine hfine.from_valid hfine.to_valid hfine.lengths ha
  have hin : p.target.inBounds (p.translate a) [b].length := by
    refine ⟨hhas.2.1, ?_⟩
    rw [List.length_singleton, maxDestAddr_one]
    exact BitVec.le_def.mp hhas.2.2
  have hoffset : (p.target.offset (p.translate a)).toNat = a.toNat - p.range.low := by
    rw [Dense.offset, Push.translate, BitVec.add_comm, BitVec.add_sub_cancel, BitVec.toNat_sub_of_le ha.2.1]
    rfl
  have hlt := offset_lt hfine ha
  refine ⟨_, List.getElem?_eq_getElem hlt, ?_⟩
  have hcopy : memcpy [b] (p.target.data.drop (a.toNat - p.range.low)) = [p.target.data[a.toNat - p.range.low]] := by
    rw [List.drop_eq_getElem_cons hlt, memcpy_singleton]
  rw [Dense.read, if_pos hin]
  simp only [hoffset, hcopy]
  rfl

theorem one_inBounds (ha : bus.span.has a) (b : U8) :
    bus.span.lower ≤ a ∧ Dense.maxDestAddr a [b].length ≤ bus.span.upper.toNat := by
  rw [List.length_singleton, maxDestAddr_one]
  exact ⟨ha.2.1, BitVec.le_def.mp ha.2.2⟩

/-- A read of one byte is one of the device that it goes on to. -/
theorem read_one (ha : bus.span.has a) {dev : Dense k} {busToDev : BitVec (8 * k)}
    (hpart : bus.part a = .ok (dev, busToDev)) (hvalid : dev.span.valid) (b : U8) (op : AccessType) :
    bus.read a [b] op = ((dev.read busToDev [b] op).map Prod.fst).mapError .thrown := by
  have husable : min [b].length (dev.span.size false) = 1 := by
    rw [Interval.size, if_pos hvalid]
    simp
  have htake : [b].take (min [b].length (dev.span.size false)) = [b] := by rw [husable]; rfl
  have hdrop : [b].drop (min [b].length (dev.span.size false)) = [] := by rw [husable]; rfl
  rw [read, if_pos (one_inBounds ha b), List.length_singleton,
    readRest.eq_3 bus op _ _ _ (List.cons_ne_nil b []), hpart]
  simp only [bind, Except.bind, htake, hdrop]
  cases dev.read busToDev [b] op with
  | error e => rfl
  | ok acc =>
    simp only [Except.mapError, Except.map, readRest, pure, Except.pure, List.append_nil]

theorem Invariant.high_le (h : Invariant bus pushes) (hn : n ∈ bus.addrs) : n.fromSpan.high ≤ bus.span.high := by
  obtain ⟨c, hc, hstart⟩ := h.layered.start n hn
  obtain ⟨p, hp, rfl⟩ := List.mem_map.mp hc
  exact hstart.high.trans (BitVec.le_def.mp (h.inside p hp).2.2.2)

theorem getElem?_patch {dest piece : List U8} {base : Nat} (hfit : base + piece.length ≤ dest.length) (i : Nat) :
    (dest.take base ++ piece ++ dest.drop (base + piece.length))[i]? =
      if base ≤ i ∧ i < base + piece.length then piece[i - base]? else dest[i]? := by
  have hbase : (dest.take base).length = base := List.length_take_of_le (by omega)
  have hfront : (dest.take base ++ piece).length = base + piece.length := by rw [List.length_append, hbase]
  rcases Nat.lt_or_ge i (base + piece.length) with hlt | hge
  · rw [List.getElem?_append_left (by omega)]
    rcases Nat.lt_or_ge i base with hlt' | hge'
    · rw [List.getElem?_append_left (by omega), List.getElem?_take_of_lt hlt', if_neg (by omega)]
    · rw [List.getElem?_append_right (by omega), hbase, if_pos ⟨hge', hlt⟩]
  · rw [List.getElem?_append_right (by omega), hfront, List.getElem?_drop, if_neg (by omega)]
    congr 1
    omega

/-- A turn of the loop replaces the bytes of its region. -/
theorem Invariant.dumpRegion (h : Invariant bus pushes) (hn : n ∈ bus.addrs) (hp : p ∈ pushes)
    (hstart : n.StartOf p.node) {dest : List U8} (hlen : bus.span.high < dest.length) :
    ∃ image, bus.dumpRegion dest n = .ok image ∧ image.length = dest.length ∧
      ∀ a : BitVec (8 * k), image[a.toNat]? =
        if n.fromSpan.has a then p.target.data[a.toNat - p.range.low]? else dest[a.toNat]? := by
  have hdevice : bus.device n.device = some p.target := by
    rw [hstart.device]
    exact h.device_eq hp
  have hvalid := (h.layered.fine n hn).from_valid
  have hsize : n.fromSpan.size false = n.fromSpan.high - n.fromSpan.low + 1 := if_pos hvalid
  have hhigh := h.high_le hn
  have hle := valid_iff.mp hvalid
  have hlow : n.fromSpan.low = p.range.low := hstart.low
  have hdata : n.fromSpan.high - p.range.low < p.target.data.length :=
    offset_lt (h.fine p hp) (hstart.has (k := n.fromSpan.upper) (has_iff.mpr ⟨hle, le_rfl⟩))
  obtain ⟨slot, hslot⟩ : ∃ slot, slot = (dest.drop n.fromSpan.low).take (n.fromSpan.size false) := ⟨_, rfl⟩
  have hslotLen : slot.length = n.fromSpan.size false := by
    rw [hslot, List.length_take, List.length_drop]
    omega
  have hpiece : (memcpy slot p.target.data).length = n.fromSpan.size false := by rw [memcpy, length_copy, hslotLen]
  have hdump : p.target.dump slot = .ok (memcpy slot p.target.data) := if_neg (by omega)
  have hfit : n.fromSpan.low + (memcpy slot p.target.data).length ≤ dest.length := by omega
  refine ⟨dest.take n.fromSpan.low ++ memcpy slot p.target.data ++
    dest.drop (n.fromSpan.low + (memcpy slot p.target.data).length), ?_, ?_, fun a => ?_⟩
  · have hin : n.fromSpan.lower.toNat + n.fromSpan.size false ≤ dest.length := by
      change n.fromSpan.low + _ ≤ _
      omega
    have hslot' : (dest.drop n.fromSpan.lower.toNat).take (n.fromSpan.size false) = slot := hslot.symm
    rw [SimpleBus.dumpRegion, hpiece]
    simp only [hdevice, if_pos hin, hslot', hdump]
    rfl
  · rw [List.length_append, List.length_append, List.length_take, List.length_drop]
    omega
  · have hhas := @has_iff _ n.fromSpan a
    rw [getElem?_patch hfit]
    split
    · rw [if_pos (hhas.mpr (by omega)), memcpy, getElem?_copy _ _ (by omega), if_pos (by omega), hlow]
    · rw [if_neg fun hk => absurd (hhas.mp hk) (by omega)]

/-- After the first regions of the map have been dumped, the last of them that has an address is the one that counts. -/
theorem Invariant.dumpRegions (h : Invariant bus pushes) {regions : List (Node (8 * k) U16)}
    (hregions : regions <+: bus.addrs) {dest : List U8} (hlen : bus.span.high < dest.length) :
    ∃ image, regions.foldlM bus.dumpRegion dest = .ok image ∧ image.length = dest.length ∧
      ∀ a, ∀ n ∈ regions, n.fromSpan.has a → (∀ m ∈ regions, m.fromSpan.has a → m.fromSpan.low ≤ n.fromSpan.low) →
        ∀ p ∈ pushes, n.StartOf p.node → image[a.toNat]? = p.target.data[a.toNat - p.range.low]? := by
  induction regions using List.reverseRecOn with
  | nil => exact ⟨dest, rfl, rfl, fun a n hn => absurd hn List.not_mem_nil⟩
  | append_singleton regions m ih =>
    obtain ⟨image, himage, hlength, hbytes⟩ := ih ((List.prefix_append _ _).trans hregions)
    have hm : m ∈ bus.addrs := hregions.subset (List.mem_append_right _ (List.mem_singleton_self _))
    obtain ⟨c, hc, hstart⟩ := h.layered.start m hm
    obtain ⟨q, hq, rfl⟩ := List.mem_map.mp hc
    obtain ⟨image', himage', hlength', hbytes'⟩ := h.dumpRegion hm hq hstart (hlength ▸ hlen)
    have hlast : ∀ n ∈ regions, n.fromSpan.low < m.fromSpan.low := fun n hn =>
      (List.pairwise_append.mp (h.layered.sorted.sublist hregions.sublist)).2.2 n hn m (List.mem_singleton_self _)
    refine ⟨image', ?_, hlength'.trans hlength, fun a n hn hna hfront p hp hnp => ?_⟩
    · rw [List.foldlM_append, himage]
      change [m].foldlM bus.dumpRegion image = _
      rw [List.foldlM_cons, himage']
      rfl
    · rw [hbytes' a]
      rcases List.mem_append.mp hn with hn | hn
      · have hout : ¬m.fromSpan.has a := fun hma =>
          absurd (hfront m (List.mem_append_right _ (List.mem_singleton_self _)) hma) (hlast n hn).not_ge
        rw [if_neg hout]
        exact hbytes a n hn hna (fun m' hm' => hfront m' (List.mem_append_left _ hm')) p hp hnp
      · obtain rfl := List.mem_singleton.mp hn
        obtain rfl := h.push_inj hp hq (hnp.device.symm.trans hstart.device)
        rw [if_pos hna]

/-- As long as its calls fit, all views of the bus agree. -/
theorem Invariant.agrees (h : Invariant bus pushes) (hlower : bus.span.lower = 0) : Agrees bus pushes := by
  have hread : ∀ a p, bus.span.has a → front pushes a = some p → ∀ b op,
      bus.read a [b] op = ((p.target.read (p.translate a) [b] op).map Prod.fst).mapError .thrown := by
    intro a p ha hp b op
    have hmem : p ∈ pushes := List.mem_reverse.mp (List.mem_of_find?_eq_some hp)
    exact read_one ha ((h.part a).2 p hp) (h.fine p hmem).to_valid b op
  refine ⟨h.deviceAt, hread, fun a ha hfront b op => ?_, h.forward, fun a d v => h.backward, fun dest hdest => ?_⟩
  · rw [SimpleBus.read, if_pos (one_inBounds ha b), List.length_singleton,
      readRest.eq_3 bus op _ _ _ (List.cons_ne_nil b []), (h.part a).1 hfront]
    rfl
  · have hvalid : bus.span.valid := by
      rw [valid_iff, low, hlower]
      exact Nat.zero_le _
    have hlen : dest.length = bus.span.high + 1 := by
      rw [hdest, Interval.size, if_pos hvalid, hlower]
      rfl
    have hroom : bus.span.high < dest.length := by omega
    obtain ⟨image, himage, hlength, hbytes⟩ := h.dumpRegions (List.prefix_refl _) hroom
    refine ⟨image, (if_neg (by omega)).trans himage, hlength, fun a ha hfront b op => ?_⟩
    rcases h.regionAt_eq a with ⟨hnone, -⟩ | ⟨p, n, hp, hfound, -, hshows, hfine, hstart⟩
    · exact absurd hnone hfront
    · obtain ⟨byte, hbyte, hone⟩ := target_read (h.fine p hp) (hstart.has hshows.has) b op
      refine ⟨byte, ?_, ?_⟩
      · rw [← hbyte]
        exact hbytes a n hshows.mem hshows.has (fun m hm hma => hshows.last m hm (has_iff.mp hma).1) p hp hstart
      · rw [hread a p ha hfound, hone]
        rfl

end Lookups

/-! ### Runs -/

section Runs

variable {std : StdSort} {bus : SimpleBus k} {pushes : List (Push k)} {p : Push k}

theorem Invariant.initial (span : Interval (8 * k)) : Invariant (⟨span, [], []⟩ : SimpleBus k) [] := by
  refine ⟨⟨.nil, List.forall_mem_nil _, List.forall_mem_nil _, .inl rfl, fun n a hn => ?_, fun c a hc => ?_⟩, rfl,
    fun i hi => ?_, List.forall_mem_nil _, List.forall_mem_nil _⟩
  · exact absurd hn.mem List.not_mem_nil
  · cases hc
  · exact absurd hi (Nat.not_lt_zero i)

/-- Devices that were pushed in the order of their ids are in order. -/
theorem sort_devices (std : StdSort)
    (hids : ∀ (i : Nat) (hi : i < (pushes ++ [p]).length), (pushes ++ [p])[i].target.device.toNat = i) :
    std.sort (fun lhs rhs : Nat × Dense k => decide (lhs.1 < rhs.1))
      (pushes.map (fun p => (p.target.device.toNat, p.target)) ++ [(p.target.device.toNat, p.target)]) =
        (pushes ++ [p]).map fun p => (p.target.device.toNat, p.target) := by
  rw [← List.map_singleton (f := fun p : Push k => (p.target.device.toNat, p.target)), ← List.map_append]
  obtain ⟨devices, hdevices⟩ : ∃ devices, devices = (pushes ++ [p]).map fun p => (p.target.device.toNat, p.target) :=
    ⟨_, rfl⟩
  rw [← hdevices]
  have horder : devices.Pairwise fun lhs rhs : Nat × Dense k => lhs.1 < rhs.1 := by
    rw [hdevices, List.pairwise_map, List.pairwise_iff_getElem]
    intro i j hi hj hij
    simpa only [hids i hi, hids j hj] using hij
  have hperm := std.perm (fun lhs rhs : Nat × Dense k => decide (lhs.1 < rhs.1)) devices
  have hsorted := std.sorted (fun V : Nat × Dense k => V.1) (fun lhs rhs => decide (lhs.1 < rhs.1)) devices
    fun lhs rhs => decide_eq_true_iff
  have hdistinct := (hperm.pairwise_iff fun {lhs rhs} (hne : lhs.1 ≠ rhs.1) => hne.symm).mpr
    (horder.imp fun hlt => hlt.ne)
  refine List.Perm.eq_of_pairwise (fun lhs rhs _ _ hlt hgt => absurd hlt (lt_asymm hgt)) ?_ horder hperm
  exact (hsorted.and hdistinct).imp fun hle => lt_of_le_of_ne hle.1 hle.2

theorem Invariant.push (std : StdSort) (h : Invariant bus pushes) (hfine : p.node.Fine) (hfits : bus.Fits p) :
    ∃ bus', bus.pushFrontTarget std p.range p.target = .ok bus' ∧ bus'.span = bus.span ∧
      Invariant bus' (pushes ++ [p]) := by
  obtain ⟨hid, hinside, hlayers⟩ := hfits
  have hfree : ¬(bus.device p.target.device.toNat).isSome := by
    rw [hid, h.device_next]
    exact Bool.false_ne_true
  have hlen : bus.devices.length = pushes.length := by rw [h.devices, List.length_map]
  have hids : ∀ (i : Nat) (hi : i < (pushes ++ [p]).length), (pushes ++ [p])[i].target.device.toNat = i := by
    intro i hi
    rw [List.getElem_append]
    split
    · next hlt => exact h.ids i hlt
    · rw [List.length_append, List.length_singleton] at hi
      rw [List.getElem_singleton, hid]
      omega
  refine ⟨_, if_neg hfree, rfl, ?_⟩
  constructor
  · rw [List.map_append, List.map_singleton]
    exact h.layered.insert hfine hlayers
  · change std.sort _ (bus.devices ++ [(p.target.device.toNat, p.target)]) = _
    rw [h.devices]
    exact sort_devices std hids
  · exact hids
  · intro q hq
    rcases List.mem_append.mp hq with hq | hq
    · exact h.fine q hq
    · rw [List.mem_singleton.mp hq]
      exact hfine
  · intro q hq
    rcases List.mem_append.mp hq with hq | hq
    · exact h.inside q hq
    · rw [List.mem_singleton.mp hq]
      exact hinside

theorem run_append (pushes : List (Push k)) (p : Push k) (span : Interval (8 * k)) :
    run std span (pushes ++ [p]) = run std span pushes >>= fun bus => bus.pushFrontTarget std p.range p.target := by
  rw [run, List.foldlM_append]
  refine congrArg (_ >>= ·) (funext fun bus => ?_)
  rw [List.foldlM_cons]
  exact bind_pure _

/-- As long as every call fits, all views agree after each of them. -/
theorem run_agrees (std : StdSort) {span : Interval (8 * k)} (hlower : span.lower = 0) (pushes : List (Push k))
    (hfine : ∀ p ∈ pushes, p.node.Fine)
    (hfits : ∀ earlier p bus, earlier ++ [p] <+: pushes → run std span earlier = .ok bus → bus.Fits p)
    (earlier : List (Push k)) (hfirst : earlier <+: pushes) :
    ∃ bus, run std span earlier = .ok bus ∧ bus.span = span ∧ Agrees bus earlier := by
  have hrun : ∃ bus, run std span earlier = .ok bus ∧ bus.span = span ∧ Invariant bus earlier := by
    induction earlier using List.reverseRecOn with
    | nil =>
      exact ⟨⟨span, [], []⟩, rfl, rfl, Invariant.initial span⟩
    | append_singleton earlier p ih =>
      obtain ⟨bus, hbus, hspan, hinvariant⟩ := ih ((List.prefix_append _ _).trans hfirst)
      have hp : p ∈ pushes := hfirst.subset (List.mem_append_right _ (List.mem_singleton_self _))
      obtain ⟨bus', hpush, hspan', hinvariant'⟩ :=
        hinvariant.push std (hfine p hp) (hfits earlier p bus hfirst hbus)
      refine ⟨bus', ?_, hspan'.trans hspan, hinvariant'⟩
      rw [run_append, hbus]
      exact hpush
  obtain ⟨bus, hbus, hspan, hinvariant⟩ := hrun
  exact ⟨bus, hbus, hspan, hinvariant.agrees (hspan ▸ hlower)⟩

/-- A memory with one value in all of its bytes. -/
def filled (id : U16) (span : Interval 8) (fill : U8) : Dense 1 :=
  ⟨span, id, List.replicate (span.size false) fill, none, List.length_replicate⟩

/-- The end of a target is covered by the next one. -/
theorem run_agrees_covered : ∃ bus,
    run StdSort.insertion ⟨0, 15⟩ [⟨⟨0, 9⟩, filled 0 ⟨0, 9⟩ 7⟩, ⟨⟨5, 15⟩, filled 1 ⟨100, 110⟩ 8⟩] = .ok bus ∧
      bus.span = ⟨0, 15⟩ ∧
        Agrees bus [⟨⟨0, 9⟩, filled 0 ⟨0, 9⟩ 7⟩, ⟨⟨5, 15⟩, filled 1 ⟨100, 110⟩ 8⟩] := by
  refine run_agrees StdSort.insertion rfl [⟨⟨0, 9⟩, filled 0 ⟨0, 9⟩ 7⟩, ⟨⟨5, 15⟩, filled 1 ⟨100, 110⟩ 8⟩]
    (by decide) ?_ _ (List.prefix_refl _)
  rintro earlier p bus ⟨rest, h⟩ hrun
  rcases earlier with _ | ⟨first, _ | ⟨second, earlier⟩⟩
  · cases h
    cases hrun
    exact ⟨rfl, by decide, List.forall_mem_nil _, Or.inl rfl⟩
  · cases h
    have haddrs : bus.addrs = [(⟨⟨0, 9⟩, filled 0 ⟨0, 9⟩ 7⟩ : Push 1).node] := by
      cases hrun
      rfl
    have hlen : bus.devices.length = 1 := by
      cases hrun
      rfl
    have hspan : bus.span = ⟨0, 15⟩ := by
      cases hrun
      rfl
    refine ⟨hlen.symm, by rw [hspan]; decide, ?_, Or.inr ?_⟩
    · rw [haddrs, List.forall_mem_singleton]
      refine Or.inr (Or.inr ⟨by decide, fun k hk hshows => ?_⟩)
      have hbehind := BitVec.lt_def.mp hk
      have hend : k.toNat ≤ 9 := BitVec.le_def.mp hshows.has.2.2
      exact absurd (hbehind.trans_le hend) (by decide)
    · rw [haddrs]
      exact ⟨_, List.mem_singleton_self _, rfl⟩
  · have hlength := congrArg List.length h
    simp at hlength

/-- With the ids 1 and 2, the first target is found at position 0, but is looked for at position 1. -/
theorem run_not_agrees : ¬∀ pushes : List (Push 1), (∀ p ∈ pushes, p.node.Fine) →
    (pushes.map fun p => p.target.device).Nodup → (∀ p ∈ pushes, (⟨0, 15⟩ : Interval 8).contains p.range) →
      ∃ bus, run StdSort.insertion ⟨0, 15⟩ pushes = .ok bus ∧ bus.span = ⟨0, 15⟩ ∧ Agrees bus pushes := by
  intro h
  obtain ⟨bus, hrun, -, hagrees⟩ := h [⟨⟨0, 7⟩, filled 1 ⟨0, 7⟩ 7⟩, ⟨⟨8, 15⟩, filled 2 ⟨0, 7⟩ 8⟩]
    (by decide) (by decide) (by decide)
  have hat := hagrees.deviceAt 0
  cases hrun
  have hdevice := congrArg (Except.map (Option.map Dense.device)) hat
  revert hdevice
  decide

end Runs

end SimpleBus

end Pepp.Trace

import Mathlib.Data.List.TakeWhile
import Pepp.Sim.Memory

/-!
# Address translation map

A sorted vector of regions, each translating an interval of addresses to an
interval of some device. An insertion erases the regions it covers and shrinks
its neighbours; a lookup searches for the greatest lower bound of the key.
-/

namespace Pepp

/-- A translation of `from_` to addresses `to_` of device `id`. -/
structure Node (D : Type) where
  id : U8
  from_ : AddressSpan
  to_ : AddressSpan
  data : D

/-- What a caller may insert: both intervals have the same length. -/
structure Mapping (D : Type) extends Node D where
  same : from_.sizeInclusive = to_.sizeInclusive

/-- `std::lower_bound` on a range whose elements satisfying `p` come first: the first that does not. -/
def lowerBound {α : Type} (p : α → Bool) (l : List α) : Nat := (l.takeWhile p).length

namespace AddressTranslationMap

variable {D : Type}

/-- Cut a region off at the start of the new interval. -/
def clipBelow (start : AddressSpan) (prev : Node D) : Node D :=
  if start.intersects prev.from_ then
    let kept : AddressSpan := ⟨prev.from_.lower, start.lower⟩
    { prev with
      from_ := kept
      to_ := ⟨prev.to_.lower, BitVec.ofNat 32 (prev.to_.lower.toNat + kept.sizeExclusive)⟩ }
  else prev

/-- Cut a region off at the end of the new interval. -/
def clipAbove (start : AddressSpan) (ub : Node D) : Node D :=
  if start.intersects ub.from_ then
    let kept : AddressSpan := ⟨start.upper, ub.from_.upper⟩
    { ub with
      from_ := kept
      to_ := ⟨ub.to_.upper - BitVec.ofNat 32 kept.sizeInclusive, ub.to_.upper⟩ }
  else ub

/-- Only the neighbours of the new interval need to shrink. A region is below it only if some other
region follows. -/
def shrinkBelow (start : AddressSpan) (elements : List (Node D)) : List (Node D) :=
  let lb := lowerBound (fun V => decide (V.from_.lt start)) elements
  if lb ≠ elements.length ∧ lb ≠ 0 then elements.modify (lb - 1) (clipBelow start) else elements

def shrinkAbove (start : AddressSpan) (elements : List (Node D)) : List (Node D) :=
  let ub := lowerBound (fun V => decide (¬ start.lt V.from_)) elements
  elements.modify ub (clipAbove start)

def resort (elements : List (Node D)) : List (Node D) :=
  elements.mergeSort fun a b => decide (¬ b.from_.lt a.from_)

/-- Create a translation; regions it covers go, and regions it overlaps are cut off. -/
def insertOrOverwrite (elements : List (Node D)) (node : Node D) : List (Node D) :=
  let kept := elements.filter fun n => decide (¬ node.from_.contains n.from_)
  resort (shrinkAbove node.from_ (shrinkBelow node.from_ kept) ++ [node])

/-- The region of `key`. In front of the first element there is none to step back to. -/
def regionAt (elements : List (Node D)) (key : Address) : Except Exception (Option (Node D)) :=
  if elements.isEmpty then .ok none
  else
    let lb := lowerBound (fun V => decide (V.from_.lower < key)) elements
    let prev : Except Exception (Option (Node D)) :=
      if lb = 0 then .error (.assertion "std::prev(begin())")
      else .ok (elements[lb - 1]?.filter fun n => n.from_.has key)
    match elements[lb]? with
    | some n => if (lb = 0 ∧ n.from_.has key) ∨ n.from_.lower ≤ key then .ok (some n) else prev
    | none => prev

/-- The map after the insertions of `history`, newest first. -/
def build : List (Mapping D) → List (Node D)
  | [] => []
  | m :: history => insertOrOverwrite (build history) m.toNode

/-- The newest mapping of `key`. -/
def latest (history : List (Mapping D)) (key : Address) : Option (Mapping D) :=
  history.find? fun m => m.from_.has key

/-- A lookup answers as the newest mapping of its key would. -/
def Answers (elements : List (Node D)) (history : List (Mapping D)) (key : Address) : Prop :=
  match latest history key with
  | none => regionAt elements key = .ok none
  | some m => ∃ n, regionAt elements key = .ok (some n) ∧ n.id = m.id ∧ n.data = m.data ∧ n.from_.has key ∧
      AddressSpan.offsetMap key n.from_ n.to_ = AddressSpan.offsetMap key m.from_ m.to_

/-- The map is sorted, free of overlaps and last-writer-wins. -/
structure Exact (elements : List (Node D)) (history : List (Mapping D)) : Prop where
  sorted : elements.Pairwise fun a b => ¬ b.from_.lt a.from_
  disjoint : elements.Pairwise fun a b => ¬ a.from_.intersects b.from_
  answers : ∀ key, Answers elements history key

/-- The insertion neither clips nor splits a region, its interval is not empty, and the first one
starts at address zero. -/
structure Clean (elements : List (Node D)) (node : Node D) : Prop where
  valid : node.from_.valid
  start : elements = [] → node.from_.lower = 0
  whole : ∀ n ∈ elements, n.from_.intersects node.from_ → node.from_.contains n.from_

def Cleanly : List (Mapping D) → Prop
  | [] => True
  | m :: history => Cleanly history ∧ Clean (build history) m.toNode

/-! A clean run stores the mappings themselves, in order and without overlap. -/

/-- What clean insertions keep: every stored region is the newest mapping of its keys. -/
structure Inv (elements : List (Node D)) (history : List (Mapping D)) : Prop where
  valid : ∀ n ∈ elements, n.from_.valid
  ordered : elements.Pairwise fun a b => a.from_.upper < b.from_.lower
  start : ∀ n, elements.head? = some n → n.from_.lower = 0
  newest : ∀ key n, (n ∈ elements ∧ n.from_.has key) ↔ (latest history key).map Mapping.toNode = some n

variable {elements elements' : List (Node D)} {history : List (Mapping D)} {node n : Node D} {key : Address}

theorem Inv.disjoint (h : Inv elements history) : elements.Pairwise fun a b => ¬ a.from_.intersects b.from_ :=
  h.ordered.imp fun hab hi => by
    have := hi.2.2.2
    exact absurd hab (BitVec.not_lt.mpr this)

theorem Inv.sorted (h : Inv elements history) : elements.Pairwise fun a b => ¬ b.from_.lt a.from_ := by
  refine h.ordered.imp_of_mem fun {a b} ha hb hab => ?_
  have hva := h.valid a ha
  rw [AddressSpan.lt_valid (h.valid b hb) hva]
  simp only [AddressSpan.valid, BitVec.le_def, BitVec.lt_def, ← BitVec.toNat_inj] at *
  omega

variable {α : Type}

/-- Searching a partitioned range splits it where the predicate changes. -/
theorem lowerBound_split (p : α → Bool) (l : List α) :
    ∃ pre post, l = pre ++ post ∧ lowerBound p l = pre.length ∧ (∀ a ∈ pre, p a = true) ∧
      ∀ a, post.head? = some a → p a = false := by
  refine ⟨l.takeWhile p, l.dropWhile p, List.takeWhile_append_dropWhile.symm, rfl, fun a ha => List.mem_takeWhile_imp ha,
    fun a ha => ?_⟩
  have := List.head?_dropWhile_not p l
  rw [ha] at this
  simpa using this

/-- At most one region of a map without overlaps holds a key. -/
theorem find_of_has (h : elements.Pairwise fun a b => ¬ a.from_.intersects b.from_) (hn : n ∈ elements)
    (hk : n.from_.has key) : elements.find? (fun n => n.from_.has key) = some n := by
  induction elements with
  | nil => simp at hn
  | cons e elements ih =>
    obtain ⟨he, h⟩ := List.pairwise_cons.mp h
    rcases List.mem_cons.mp hn with rfl | hn
    · simp [hk]
    · have hne : ¬ e.from_.has key := fun hek => he n hn (AddressSpan.intersects_of_has hek hk)
      rw [List.find?_cons_of_neg (by simpa using hne)]
      exact ih h hn

/-- If the key lies behind the start of one region and in front of the next, only that one can hold it. -/
theorem find_before {pre post : List (Node D)} (h : Inv (pre ++ n :: post) history) (hn : n.from_.lower < key)
    (hpost : ∀ e ∈ post, key < e.from_.lower) :
    (pre ++ n :: post).find? (fun n => n.from_.has key) = (some n).filter fun n => n.from_.has key := by
  by_cases hk : n.from_.has key
  · rw [find_of_has h.disjoint (by simp) hk, Option.filter_some_pos (by simpa using hk)]
  · rw [Option.filter_some_neg (by simpa using hk), List.find?_eq_none]
    intro e he hek
    simp only [decide_eq_true_eq] at hek
    rcases List.mem_append.mp he with he | he
    · have hlt : e.from_.upper < n.from_.lower := (List.pairwise_append.mp h.ordered).2.2 e he n (by simp)
      exact absurd hek.2.2 (BitVec.not_le.mpr (BitVec.lt_trans hlt hn))
    · rcases List.mem_cons.mp he with rfl | he
      · exact hk hek
      · exact absurd hek.2.1 (BitVec.not_le.mpr (hpost e he))

/-- In a map that starts at address zero, the lookup finds the one region that holds the key. -/
theorem Inv.regionAt_eq (h : Inv elements history) (key : Address) :
    regionAt elements key = .ok (elements.find? fun n => n.from_.has key) := by
  obtain ⟨pre, post, rfl, hlb, hpre, hpost⟩ :=
    lowerBound_split (fun V : Node D => decide (V.from_.lower < key)) elements
  have hgo : ∀ pre' p, pre = pre' ++ [p] → (∀ e ∈ post, key < e.from_.lower) →
      (Except.ok ((pre ++ post)[pre.length - 1]?.filter fun n => n.from_.has key) : Except Exception _) =
        .ok ((pre ++ post).find? fun n => n.from_.has key) := by
    rintro pre' p rfl hpost'
    have hp : p.from_.lower < key := by simpa using hpre p (by simp)
    rw [List.append_assoc, List.singleton_append] at h ⊢
    rw [find_before h hp hpost']
    simp
  unfold regionAt
  simp only [hlb]
  cases post with
  | nil =>
    rcases List.eq_nil_or_concat pre with rfl | ⟨pre', p, hp⟩
    · simp
    · rw [List.concat_eq_append] at hp
      have hne : pre.length ≠ 0 := by simp [hp]
      rw [if_neg (by simp [hp]), List.getElem?_eq_none (by simp)]
      simp only [if_neg hne]
      exact hgo pre' p hp (by simp)
  | cons n post =>
    have hge : key ≤ n.from_.lower := by simpa using hpost n rfl
    have hn := h.valid n (by simp)
    rw [if_neg (by simp), List.getElem?_append_right (Nat.le_refl _), Nat.sub_self]
    simp only [List.getElem?_cons_zero]
    by_cases he : n.from_.lower ≤ key
    · rw [if_pos (.inr he), find_of_has h.disjoint (by simp) ⟨hn, he, BitVec.le_trans hge hn⟩]
    · have hlt := BitVec.not_le.mp he
      rw [if_neg (by rintro (⟨-, hk⟩ | hk); exacts [he hk.2.1, he hk])]
      rcases List.eq_nil_or_concat pre with rfl | ⟨pre', p, hp⟩
      · have h0 := h.start n rfl
        rw [h0] at hlt
        simp at hlt
      · rw [List.concat_eq_append] at hp
        have hne : pre.length ≠ 0 := by simp [hp]
        rw [if_neg hne]
        refine hgo pre' p hp fun e he => ?_
        rcases List.mem_cons.mp he with rfl | he
        · exact hlt
        · have hord := (List.pairwise_cons.mp (List.pairwise_append.mp h.ordered).2.1).1 e he
          simp only [AddressSpan.valid, BitVec.le_def, BitVec.lt_def] at hn hlt hord ⊢
          omega

theorem Inv.exact (h : Inv elements history) : Exact elements history := by
  refine ⟨h.sorted, h.disjoint, fun key => ?_⟩
  unfold Answers
  rw [h.regionAt_eq]
  cases hm : latest history key with
  | none =>
    suffices hf : elements.find? (fun n => n.from_.has key) = none by rw [hf]
    rw [List.find?_eq_none]
    intro n hn hk
    have := (h.newest key n).mp ⟨hn, by simpa using hk⟩
    rw [hm] at this
    contradiction
  | some m =>
    obtain ⟨hn, hk⟩ := (h.newest key m.toNode).mpr (by rw [hm]; rfl)
    exact ⟨m.toNode, by rw [find_of_has h.disjoint hn hk], rfl, rfl, hk, rfl⟩

theorem inv_nil : Inv ([] : List (Node D)) [] := by
  refine ⟨by simp, List.Pairwise.nil, by simp, fun key n => ?_⟩
  simp [latest]

theorem mem_resort : n ∈ resort elements ↔ n ∈ elements := List.mem_mergeSort

theorem pairwise_resort : (resort elements).Pairwise fun a b => ¬ b.from_.lt a.from_ := by
  have htrans : ∀ a b c : Node D, decide (¬ b.from_.lt a.from_) = true → decide (¬ c.from_.lt b.from_) = true →
      decide (¬ c.from_.lt a.from_) = true := by
    intro a b c hab hbc
    simp only [decide_eq_true_eq] at *
    exact AddressSpan.not_lt_trans hab hbc
  have htotal : ∀ a b : Node D, (decide (¬ b.from_.lt a.from_) || decide (¬ a.from_.lt b.from_)) = true := by
    intro a b
    simp only [Bool.or_eq_true, decide_eq_true_eq]
    exact AddressSpan.not_lt_total
  exact (List.pairwise_mergeSort htrans htotal elements).imp (by simp)

theorem disjoint_resort : (resort elements).Pairwise (fun a b => ¬ a.from_.intersects b.from_) ↔
    elements.Pairwise fun a b => ¬ a.from_.intersects b.from_ :=
  (List.mergeSort_perm elements _).pairwise_iff fun h hi => h (AddressSpan.intersects_comm.mp hi)

/-- Regions in order that do not overlap lie one behind the other. -/
theorem ordered_of_disjoint (hv : ∀ n ∈ elements, n.from_.valid)
    (hs : elements.Pairwise fun a b => ¬ b.from_.lt a.from_)
    (hd : elements.Pairwise fun a b => ¬ a.from_.intersects b.from_) :
    elements.Pairwise fun a b => a.from_.upper < b.from_.lower := by
  refine (hs.and hd).imp_of_mem fun {a b} ha hb hab => ?_
  obtain ⟨hlt, hi⟩ := hab
  have hva := hv a ha
  have hvb := hv b hb
  rw [AddressSpan.lt_valid hvb hva] at hlt
  unfold AddressSpan.intersects at hi
  simp only [hva, hvb, true_and] at hi
  simp only [AddressSpan.valid, BitVec.le_def, BitVec.lt_def, ← BitVec.toNat_inj] at *
  omega

theorem modify_eq_self {f : Node D → Node D} (i : Nat) (hf : ∀ n ∈ elements, f n = n) : elements.modify i f = elements := by
  refine List.ext_getElem? fun j => ?_
  rw [List.getElem?_modify]
  cases hj : elements[j]? with
  | none => rfl
  | some n =>
    have := hf n (List.mem_of_getElem? hj)
    split <;> simp [this]

/-- With nothing to clip, an insertion erases what it covers and adds its own region. -/
theorem insert_clean (h : ∀ n ∈ elements, n.from_.intersects node.from_ → node.from_.contains n.from_) :
    insertOrOverwrite elements node =
      resort (elements.filter (fun n => decide (¬ node.from_.contains n.from_)) ++ [node]) := by
  have hkept : ∀ n ∈ elements.filter (fun n => decide (¬ node.from_.contains n.from_)),
      ¬ node.from_.intersects n.from_ := by
    intro n hn hi
    rw [List.mem_filter] at hn
    exact (of_decide_eq_true hn.2) (h n hn.1 (AddressSpan.intersects_comm.mp hi))
  have hbelow : shrinkBelow node.from_ (elements.filter fun n => decide (¬ node.from_.contains n.from_)) =
      elements.filter fun n => decide (¬ node.from_.contains n.from_) := by
    unfold shrinkBelow
    dsimp only
    split
    · exact modify_eq_self _ fun n hn => if_neg (hkept n hn)
    · rfl
  have habove : shrinkAbove node.from_ (elements.filter fun n => decide (¬ node.from_.contains n.from_)) =
      elements.filter fun n => decide (¬ node.from_.contains n.from_) :=
    modify_eq_self _ fun n hn => if_neg (hkept n hn)
  unfold insertOrOverwrite
  dsimp only
  rw [hbelow, habove]

theorem insert_nil : insertOrOverwrite [] node = [node] := by
  rw [insert_clean (by simp)]
  exact List.mergeSort_singleton _

theorem mem_insert_clean (h : ∀ n ∈ elements, n.from_.intersects node.from_ → node.from_.contains n.from_) :
    n ∈ insertOrOverwrite elements node ↔ (n ∈ elements ∧ ¬ node.from_.contains n.from_) ∨ n = node := by
  rw [insert_clean h, mem_resort, List.mem_append, List.mem_filter, List.mem_singleton, decide_eq_true_eq]

/-- A clean insertion adds the newest mapping and keeps the others. -/
theorem Inv.insert {m : Mapping D} (h : Inv elements history) (hc : Clean elements m.toNode) :
    Inv (insertOrOverwrite elements m.toNode) (m :: history) := by
  have hmem := fun n => @mem_insert_clean _ _ _ n hc.whole
  have hv : ∀ n ∈ insertOrOverwrite elements m.toNode, n.from_.valid := by
    intro n hn
    rcases (hmem n).mp hn with ⟨hn, -⟩ | rfl
    · exact h.valid n hn
    · exact hc.valid
  have hs : (insertOrOverwrite elements m.toNode).Pairwise fun a b => ¬ b.from_.lt a.from_ := pairwise_resort
  have hd : (insertOrOverwrite elements m.toNode).Pairwise fun a b => ¬ a.from_.intersects b.from_ := by
    rw [insert_clean hc.whole, disjoint_resort, List.pairwise_append]
    refine ⟨h.disjoint.filter _, List.pairwise_singleton _ _, fun n hn n' hn' hi => ?_⟩
    rw [List.mem_filter, decide_eq_true_eq] at hn
    rw [List.mem_singleton] at hn'
    subst hn'
    exact hn.2 (hc.whole n hn.1 hi)
  refine ⟨hv, ordered_of_disjoint hv hs hd, fun n hn => ?_, fun key n => ?_⟩
  · have hzero : ∃ z ∈ insertOrOverwrite elements m.toNode, z.from_.lower = 0 := by
      cases elements with
      | nil => exact ⟨m.toNode, (hmem _).mpr (.inr rfl), hc.start rfl⟩
      | cons e elements =>
        have he := h.start e rfl
        by_cases hcov : m.from_.contains e.from_
        · refine ⟨m.toNode, (hmem _).mpr (.inr rfl), ?_⟩
          simpa [he] using hcov.2.2.1
        · exact ⟨e, (hmem _).mpr (.inl ⟨by simp, hcov⟩), he⟩
    obtain ⟨z, hz, hz0⟩ := hzero
    cases hl : insertOrOverwrite elements m.toNode with
    | nil => simp [hl] at hn
    | cons e rest =>
      rw [hl] at hn hz hs hv
      obtain rfl := Option.some.inj hn
      rcases List.mem_cons.mp hz with rfl | hz'
      · exact hz0
      · have hlt := (List.pairwise_cons.mp hs).1 z hz'
        rw [AddressSpan.lt_valid (hv z hz) (hv e (by simp))] at hlt
        rw [hz0] at hlt
        exact not_not.mp fun he => hlt (.inl (by simpa [BitVec.pos_iff_ne_zero] using he))
  · rw [hmem, latest, List.find?_cons]
    by_cases hk : m.from_.has key
    · simp only [hk, decide_true, Option.map_some, Option.some.injEq]
      constructor
      · rintro ⟨⟨hn, hcov⟩ | rfl, hkn⟩
        · exact absurd (hc.whole n hn (AddressSpan.intersects_of_has hkn hk)) hcov
        · rfl
      · rintro rfl
        exact ⟨.inr rfl, hk⟩
    · simp only [hk, decide_false]
      rw [← latest, ← h.newest key n]
      constructor
      · rintro ⟨⟨hn, -⟩ | rfl, hkn⟩
        · exact ⟨hn, hkn⟩
        · exact absurd hkn hk
      · rintro ⟨hn, hkn⟩
        exact ⟨.inl ⟨hn, fun hcov => hk (AddressSpan.has_of_contains hcov hkn)⟩, hkn⟩

/-! Every other insertion breaks the map: one that starts a map above address zero or is empty leaves a
lookup that steps in front of the first element, and one that clips a region leaves an endpoint to both. -/

theorem regionAt_zero (hn : elements.head? = some n) (h0 : n.from_.lower ≠ 0) :
    regionAt elements 0 = .error (.assertion "std::prev(begin())") := by
  cases elements with
  | nil => simp at hn
  | cons e elements =>
    obtain rfl := Option.some.inj hn
    have hne : ¬ e.from_.lower ≤ 0 := by simpa using h0
    have hk : ¬ e.from_.has 0 := fun hk => hne hk.2.1
    have hlb : lowerBound (fun V : Node D => decide (V.from_.lower < 0)) (e :: elements) = 0 := by simp [lowerBound]
    unfold regionAt
    simp only [hlb, List.getElem?_cons_zero]
    rw [if_neg (by simp), if_neg (by rintro (⟨-, h⟩ | h); exacts [hk h, hne h]), if_pos trivial]

theorem not_exact_of_head (hn : elements.head? = some n) (h0 : n.from_.lower ≠ 0) : ¬ Exact elements history := by
  intro he
  have ha := he.answers 0
  unfold Answers at ha
  rw [regionAt_zero hn h0] at ha
  cases hm : latest history 0 with
  | none =>
    rw [hm] at ha
    contradiction
  | some m =>
    rw [hm] at ha
    obtain ⟨n, hn, -⟩ := ha
    contradiction

variable {start : AddressSpan} {i : Nat}

theorem lt_of_lowerBound {p : α → Bool} {l : List α} {a : α} (h0 : lowerBound p l ≠ 0)
    (ha : l[lowerBound p l - 1]? = some a) : p a = true := by
  obtain ⟨pre, post, hl, hlb, hpre, -⟩ := lowerBound_split p l
  rw [hlb] at h0 ha
  rw [hl, List.getElem?_append_left (by omega)] at ha
  exact hpre a (List.mem_of_getElem? ha)

theorem not_of_lowerBound {p : α → Bool} {l : List α} {a : α} (ha : l[lowerBound p l]? = some a) : p a = false := by
  obtain ⟨pre, post, hl, hlb, -, hpost⟩ := lowerBound_split p l
  rw [hlb, hl, List.getElem?_append_right (Nat.le_refl _), Nat.sub_self] at ha
  exact hpost a (by rw [← ha, List.head?_eq_getElem?])

/-- A region that was not erased reaches past the new one if it starts behind it. -/
def Sticks (start : AddressSpan) (n : Node D) : Prop :=
  n.from_.valid ∧ (start.lt n.from_ → start.upper < n.from_.upper)

section

variable (hs : start.valid)
include hs

theorem sticks_of_kept (hv : n.from_.valid) (hc : ¬ start.contains n.from_) : Sticks start n := by
  refine ⟨hv, fun hlt => ?_⟩
  rw [AddressSpan.lt_valid hs hv] at hlt
  unfold AddressSpan.contains at hc
  simp only [hs, hv, true_and] at hc
  simp only [BitVec.le_def, BitVec.lt_def, ← BitVec.toNat_inj] at *
  omega

theorem clipBelow_meets (hn : Sticks start n) (hlt : n.from_.lt start) (hi : start.intersects n.from_) :
    start.intersects (clipBelow start n).from_ ∧ Sticks start (clipBelow start n) := by
  unfold clipBelow
  rw [if_pos hi]
  have hv := hn.1
  rw [AddressSpan.lt_valid hv hs] at hlt
  have hle : n.from_.lower ≤ start.lower := by
    simp only [BitVec.le_def, BitVec.lt_def, ← BitVec.toNat_inj] at *
    omega
  have hkept : (⟨n.from_.lower, start.lower⟩ : AddressSpan).valid := hle
  refine ⟨⟨hs, hkept, BitVec.le_refl _, BitVec.le_trans hle hs⟩, hkept, fun hlt' => ?_⟩
  have hlt' := (AddressSpan.lt_valid hs hkept).mp hlt'
  simp only [AddressSpan.valid, BitVec.le_def, BitVec.lt_def, ← BitVec.toNat_inj] at *
  omega

theorem clipAbove_meets (hn : Sticks start n) (hlt : start.lt n.from_) (hi : start.intersects n.from_) :
    start.intersects (clipAbove start n).from_ := by
  unfold clipAbove
  rw [if_pos hi]
  have hle := hn.2 hlt
  have hge : start.upper ≤ n.from_.upper := by
    simp only [BitVec.le_def, BitVec.lt_def] at *
    omega
  exact ⟨hs, hge, BitVec.le_trans hs hge, BitVec.le_refl _⟩

/-- What meets the new interval still meets it after being cut off below. -/
theorem shrinkBelow_meets (hk : ∀ n ∈ elements, Sticks start n) (hn : ∃ n ∈ elements, start.intersects n.from_) :
    (∃ n ∈ shrinkBelow start elements, start.intersects n.from_) ∧ ∀ n ∈ shrinkBelow start elements, Sticks start n := by
  unfold shrinkBelow
  dsimp only
  split
  · rename_i hlb
    have hstep : ∀ (i : Nat) (n : Node D), elements[i]? = some n →
        ∃ n' : Node D, (elements.modify (lowerBound (fun V : Node D => decide (V.from_.lt start)) elements - 1)
          (clipBelow start))[i]? = some n' ∧ Sticks start n' ∧
            (start.intersects n.from_ → start.intersects n'.from_) := by
      intro i n hi
      have hmem := hk n (List.mem_of_getElem? hi)
      rw [List.getElem?_modify, hi]
      split
      · rename_i he
        rw [← he] at hi
        have hlt : n.from_.lt start := by simpa using lt_of_lowerBound hlb.2 hi
        by_cases hm : start.intersects n.from_
        · have := clipBelow_meets hs hmem hlt hm
          exact ⟨_, rfl, this.2, fun _ => this.1⟩
        · have hf : clipBelow start n = n := if_neg hm
          exact ⟨n, congrArg some hf, hmem, fun h => absurd h hm⟩
      · exact ⟨n, rfl, hmem, id⟩
    constructor
    · obtain ⟨n, hn, hm⟩ := hn
      obtain ⟨i, hi⟩ := List.getElem?_of_mem hn
      obtain ⟨n', hi', -, hm'⟩ := hstep i n hi
      exact ⟨n', List.mem_of_getElem? hi', hm' hm⟩
    · intro n' hn'
      obtain ⟨i, hi'⟩ := List.getElem?_of_mem hn'
      have hlt : i < elements.length := by
        have := (List.getElem?_eq_some_iff.mp hi').1
        simpa using this
      obtain ⟨n'', hi'', hst, -⟩ := hstep i _ (List.getElem?_eq_getElem hlt)
      rw [hi'] at hi''
      rw [Option.some.inj hi'']
      exact hst
  · exact ⟨hn, hk⟩

theorem shrinkAbove_meets (hk : ∀ n ∈ elements, Sticks start n) (hn : ∃ n ∈ elements, start.intersects n.from_) :
    ∃ n ∈ shrinkAbove start elements, start.intersects n.from_ := by
  obtain ⟨n, hn, hm⟩ := hn
  obtain ⟨i, hi⟩ := List.getElem?_of_mem hn
  unfold shrinkAbove
  dsimp only
  by_cases he : lowerBound (fun V : Node D => decide (¬ start.lt V.from_)) elements = i
  · refine ⟨clipAbove start n, List.mem_of_getElem? (i := i) ?_, ?_⟩
    · rw [he, List.getElem?_modify_eq, hi]
      rfl
    · rw [← he] at hi
      have hlt : start.lt n.from_ := by simpa using not_of_lowerBound hi
      exact clipAbove_meets hs (hk n hn) hlt hm
  · exact ⟨n, List.mem_of_getElem? (i := i) (by rw [List.getElem?_modify_ne _ _ he, hi]), hm⟩

end

/-- An insertion into a clean map is exact just when it is clean. -/
theorem Inv.exact_insert {m : Mapping D} (h : Inv elements history) :
    Exact (insertOrOverwrite elements m.toNode) (m :: history) ↔ Clean elements m.toNode := by
  refine ⟨fun he => ?_, fun hc => (h.insert hc).exact⟩
  have hvalid : m.from_.valid := by
    by_contra hv
    have hclean : ∀ n ∈ elements, n.from_.intersects m.toNode.from_ → m.toNode.from_.contains n.from_ :=
      fun n _ hi => absurd hi.2.1 hv
    have hnew := insert_clean hclean
    have hmem : m.toNode ∈ insertOrOverwrite elements m.toNode := by simp [hnew, mem_resort]
    have h0 : m.from_.lower ≠ 0 := by
      intro h0
      exact hv (by simp [AddressSpan.valid, h0, BitVec.le_def])
    cases hl : insertOrOverwrite elements m.toNode with
    | nil => simp [hl] at hmem
    | cons e rest =>
      have hhead : (insertOrOverwrite elements m.toNode).head? = some e := by rw [hl]; rfl
      by_cases hem : e = m.toNode
      · exact not_exact_of_head hhead (by rw [hem]; exact h0) he
      · have hin : e ∈ insertOrOverwrite elements m.toNode := by simp [hl]
        have hlt := he.sorted
        rw [hl] at hlt hmem
        rw [hnew, mem_resort, List.mem_append, List.mem_filter, List.mem_singleton] at hin
        have hev := h.valid e (hin.resolve_right hem).1
        exact (List.pairwise_cons.mp hlt).1 _ ((List.mem_cons.mp hmem).resolve_left (Ne.symm hem))
          (AddressSpan.lt_empty hv hev)
  refine ⟨hvalid, ?_, ?_⟩
  · rintro rfl
    by_contra h0
    refine not_exact_of_head (n := m.toNode) ?_ h0 he
    rw [insert_nil, List.head?_cons]
  · intro n hn hi
    by_contra hc
    have hkept : n ∈ elements.filter (fun n => decide (¬ m.from_.contains n.from_)) :=
      List.mem_filter.mpr ⟨hn, by simpa using hc⟩
    have hst : ∀ n ∈ elements.filter (fun n => decide (¬ m.from_.contains n.from_)), Sticks m.from_ n := by
      intro n hn
      obtain ⟨hn, hc⟩ := List.mem_filter.mp hn
      exact sticks_of_kept hvalid (h.valid n hn) (of_decide_eq_true hc)
    have hbelow := shrinkBelow_meets hvalid hst ⟨n, hkept, AddressSpan.intersects_comm.mp hi⟩
    obtain ⟨n', hn', hm⟩ := shrinkAbove_meets hvalid hbelow.2 hbelow.1
    have hd := disjoint_resort.mp he.disjoint
    exact (List.pairwise_append.mp hd).2.2 n' hn' m.toNode (by simp) (AddressSpan.intersects_comm.mp hm)

theorem inv_build (hc : Cleanly history) : Inv (build history) history := by
  induction history with
  | nil => exact inv_nil
  | cons m history ih => exact (ih hc.1).insert hc.2

/-- The map is last-writer-wins after every insertion of a run just when all of them are clean. -/
theorem exact_iff_cleanly (history : List (Mapping D)) :
    (∀ earlier, earlier <:+ history → Exact (build earlier) earlier) ↔ Cleanly history := by
  induction history with
  | nil =>
    refine ⟨fun _ => trivial, fun _ earlier he => ?_⟩
    rw [List.suffix_nil.mp he]
    exact inv_nil.exact
  | cons m history ih =>
    constructor
    · intro he
      have hc := ih.mp fun earlier hs => he earlier (hs.trans (List.suffix_cons m history))
      exact ⟨hc, (inv_build hc).exact_insert.mp (he _ (List.suffix_refl _))⟩
    · rintro ⟨hc, hm⟩ earlier hs
      rcases List.suffix_cons_iff.mp hs with rfl | hs
      · exact ((inv_build hc).insert hm).exact
      · exact ih.mpr hc earlier hs

/-- Two mappings, the second running on from the middle of the first. -/
def overlapping : List (Mapping Unit) :=
  [⟨⟨1, ⟨5, 15⟩, ⟨0, 10⟩, ()⟩, by decide⟩, ⟨⟨0, ⟨0, 10⟩, ⟨0, 10⟩, ()⟩, by decide⟩]

/-- A mapping that reaches over the end of the last region leaves both in the map. -/
theorem overlapping_not_exact : ¬ Exact (build overlapping) overlapping := by
  intro he
  have hfirst : Cleanly overlapping.tail := ⟨trivial, by decide, fun _ => rfl, by simp [build]⟩
  have hwhole := ((inv_build hfirst).exact_insert.mp he).whole
  rw [show build overlapping.tail = [⟨0, ⟨0, 10⟩, ⟨0, 10⟩, ()⟩] from insert_nil] at hwhole
  exact absurd (hwhole _ (List.mem_singleton.mpr rfl) (by decide)) (by decide)

end AddressTranslationMap

end Pepp

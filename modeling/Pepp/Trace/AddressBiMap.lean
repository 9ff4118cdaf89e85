import Pepp.Lib.Algorithms
import Pepp.Sim.Memory
import Pepp.Trace.Interval

/-!
# The bidirectional address map

Each node translates an interval of addresses to one of a device. An insertion
erases the nodes that it contains and shrinks its two neighbours where they
reach into it; the nodes are kept sorted, so that an address can be looked up
by a binary search.
-/

namespace Pepp.Trace

open Interval

/-- A translation of the addresses in `fromSpan`, and a tag. -/
structure Node (w : Nat) (D : Type) where
  device : Nat
  fromSpan : Interval w
  toSpan : Interval w
  data : D
  deriving DecidableEq

/-- `offset_map`: the point of `dst` as far from its start as `v` is from the start of `src`. -/
def offsetMap {w : Nat} (v : BitVec w) (src dst : Interval w) : Except Exception (BitVec w) :=
  if src.lower ≤ v ∧ v ≤ src.upper then
    let ret := dst.lower + (v - src.lower)
    if dst.lower ≤ ret ∧ ret ≤ dst.upper then .ok ret
    else .error (.assertion "dst.lower() <= ret && ret <= dst.upper()")
  else .error (.assertion "src.lower() <= v && v <= src.upper()")

namespace AddressBiMap

variable {w : Nat} {D : Type}

/-- `Node::operator<` -/
def lt (a b : Node w D) : Bool := decide (toLex (a.fromSpan.key, a.toSpan.key) < toLex (b.fromSpan.key, b.toSpan.key))

/-- The end of a node that reaches into `fromSpan` from below. -/
def shrinkUpper (fromSpan : Interval w) (prev : Node w D) : Node w D :=
  if fromSpan.intersects prev.fromSpan then
    let shrunk : Interval w := ⟨prev.fromSpan.lower, fromSpan.lower⟩
    { prev with
      fromSpan := shrunk
      toSpan := ⟨prev.toSpan.lower, prev.toSpan.lower + .ofNat w (shrunk.size true)⟩ }
  else prev

/-- The start of one that reaches into it from above. -/
def shrinkLower (fromSpan : Interval w) (ub : Node w D) : Node w D :=
  if fromSpan.intersects ub.fromSpan then
    let shrunk : Interval w := ⟨fromSpan.upper, ub.fromSpan.upper⟩
    { ub with
      fromSpan := shrunk
      toSpan := ⟨ub.toSpan.upper - .ofNat w (shrunk.size true), ub.toSpan.upper⟩ }
  else ub

/-- Shrink the node before the lower bound, if there is one on either side of the bound. -/
def shrinkBefore (fromSpan : Interval w) (elements : List (Node w D)) : List (Node w D) :=
  let lb := Algorithms.partitionPoint (fun n => decide (n.fromSpan.key < fromSpan.key)) elements
  if lb < elements.length ∧ lb ≠ 0 then elements.modify (lb - 1) (shrinkUpper fromSpan) else elements

/-- Shrink the node at the upper bound. -/
def shrinkAfter (fromSpan : Interval w) (elements : List (Node w D)) : List (Node w D) :=
  let ub := Algorithms.partitionPoint (fun n => !decide (fromSpan.key < n.fromSpan.key)) elements
  elements.modify ub (shrinkLower fromSpan)

def insertOrOverwrite (std : Algorithms.StdSort) (elements : List (Node w D)) (node : Node w D) : List (Node w D) :=
  let kept := elements.filter fun n => !decide (node.fromSpan.contains n.fromSpan)
  std.sort lt (shrinkAfter node.fromSpan (shrinkBefore node.fromSpan kept) ++ [node])

/-- The region of an address. With all regions above it the search steps in front of the first element. -/
def regionAt (elements : List (Node w D)) (fromKey : BitVec w) : Except Exception (Option (Node w D)) :=
  if elements = [] then .ok none
  else
    let lb := Algorithms.partitionPoint (fun n => decide (n.fromSpan.lower < fromKey)) elements
    let found := elements[lb]?.filter fun n => lb = 0 ∧ n.fromSpan.has fromKey ∨ n.fromSpan.lower ≤ fromKey
    match found with
    | some n => .ok (some n)
    | none =>
      match lb with
      | 0 => .error (.oobAccess 0)
      | prev + 1 => .ok (elements[prev]?.filter fun n => n.fromSpan.has fromKey)

/-- `value` -/
def value (elements : List (Node w D)) (fromKey : BitVec w) : Except Exception (Option (Nat × BitVec w)) := do
  match ← regionAt elements fromKey with
  | some region => return some (region.device, ← offsetMap fromKey region.fromSpan region.toSpan)
  | none => return none

/-- `key` -/
def key (elements : List (Node w D)) (device : Nat) (toValue : BitVec w) : Except Exception (Option (BitVec w)) :=
  match elements.find? fun n => n.device = device ∧ n.toSpan.has toValue with
  | some node => (offsetMap toValue node.toSpan node.fromSpan).map some
  | none => .ok none

end AddressBiMap

end Pepp.Trace

/-! ## Runs of insertions

As long as an inserted interval either contains or misses each of those in the
map, the map translates by the mapping that was inserted last. A node that the
interval only reaches into keeps an address of it, whether it is shrunk or not. -/

namespace Pepp.Trace

open Interval Algorithms

/-- A mapping between intervals of one length. -/
structure Node.Fine {w : Nat} {D : Type} (c : Node w D) : Prop where
  from_valid : c.fromSpan.valid
  to_valid : c.toSpan.valid
  lengths : c.fromSpan.size true = c.toSpan.size true

instance {w : Nat} {D : Type} (c : Node w D) : Decidable c.Fine :=
  decidable_of_iff (c.fromSpan.valid ∧ c.toSpan.valid ∧ c.fromSpan.size true = c.toSpan.size true)
    ⟨fun h => ⟨h.1, h.2.1, h.2.2⟩, fun h => ⟨h.from_valid, h.to_valid, h.lengths⟩⟩

namespace AddressBiMap

variable {w : Nat} {D : Type} {std : StdSort}

/-- The map after the insertions in `history`. -/
def run (std : StdSort) (history : List (Node w D)) : List (Node w D) := history.foldl (insertOrOverwrite std) []

/-- The mapping of an address that was inserted last. -/
def latest (history : List (Node w D)) (k : BitVec w) : Option (Node w D) :=
  history.reverse.find? fun c => c.fromSpan.has k

/-- What the map promises after the insertions in `history`. -/
structure Holds (elements history : List (Node w D)) : Prop where
  disjoint : elements.Pairwise fun a b => ¬a.fromSpan.intersects b.fromSpan
  lengths : ∀ n ∈ elements, n.fromSpan.size true = n.toSpan.size true
  value : ∀ k, value elements k =
    .ok ((latest history k).map fun c => (c.device, c.toSpan.lower + (k - c.fromSpan.lower)))
  key : ∀ k d v, AddressBiMap.value elements k = .ok (some (d, v)) → key elements d v = .ok (some k)

/-- An insertion that the map can take: it reaches into no node, and no address lies below all nodes. -/
def Fits (elements : List (Node w D)) (fromSpan : Interval w) : Prop :=
  (∀ n ∈ elements, fromSpan.contains n.fromSpan ∨ ¬fromSpan.intersects n.fromSpan) ∧
    (fromSpan.lower = 0 ∨ ∃ n ∈ elements, n.fromSpan.lower = 0)

instance (elements : List (Node w D)) (fromSpan : Interval w) : Decidable (Fits elements fromSpan) :=
  inferInstanceAs (Decidable (_ ∧ _))

/-- The map as long as all insertions fit. -/
structure Invariant (elements history : List (Node w D)) : Prop where
  sorted : elements.Pairwise fun a b => a.fromSpan.high < b.fromSpan.low
  fine : ∀ n ∈ elements, n.Fine
  inserted : ∀ n ∈ elements, n ∈ history
  bottom : elements = [] ∨ ∃ n ∈ elements, n.fromSpan.lower = 0
  latest_iff : ∀ k c, latest history k = some c ↔ c ∈ elements ∧ c.fromSpan.has k

/-! ## Lookups -/

section Lookups

variable {elements : List (Node w D)} {n m : Node w D} {k : BitVec w}

theorem size_eq {i : Interval w} (h : i.valid) : i.size true = i.high - i.low := by
  rw [size, if_pos h, if_pos rfl]
  rfl

/-- An address of a fine mapping is translated, and back again. -/
theorem offsetMap_fine {src dst : Interval w} (hsrc : src.valid) (hdst : dst.valid) (hsize : src.size true = dst.size true)
    (hk : src.has k) : offsetMap k src dst = .ok (dst.lower + (k - src.lower)) ∧
      dst.has (dst.lower + (k - src.lower)) ∧ dst.lower + (k - src.lower) - dst.lower + src.lower = k := by
  rw [size_eq hsrc, size_eq hdst] at hsize
  have hhas := has_iff.mp hk
  have hlow : (dst.lower + (k - src.lower)).toNat = dst.low + (k.toNat - src.low) := by
    have hlt := dst.high_lt
    have hsub : (k - src.lower).toNat = k.toNat - src.low := BitVec.toNat_sub_of_le (BitVec.le_def.mpr hhas.1)
    rw [valid_iff] at hsrc hdst
    rw [BitVec.toNat_add_of_lt, hsub]
    · rfl
    · rw [hsub]
      change dst.low + _ < _
      omega
  have hret : dst.has (dst.lower + (k - src.lower)) := by
    rw [has_iff, hlow]
    rw [valid_iff] at hdst
    omega
  refine ⟨?_, hret, ?_⟩
  · rw [offsetMap, if_pos ⟨hk.2.1, hk.2.2⟩]
    dsimp only
    rw [if_pos ⟨hret.2.1, hret.2.2⟩]
  · rw [BitVec.add_comm dst.lower, BitVec.add_sub_cancel, BitVec.sub_add_cancel]

theorem offsetMap_back {src dst : Interval w} (hsrc : src.valid) (hdst : dst.valid) (hsize : src.size true = dst.size true)
    (hk : src.has k) : offsetMap (dst.lower + (k - src.lower)) dst src = .ok k := by
  obtain ⟨-, hret, hback⟩ := offsetMap_fine hsrc hdst hsize hk
  obtain ⟨hmap, -, -⟩ := offsetMap_fine hdst hsrc hsize.symm hret
  rw [hmap, BitVec.add_comm, hback]

/-- The region in front of the others at an address is the one with the last start. -/
structure Shows (elements : List (Node w D)) (n : Node w D) (k : BitVec w) : Prop where
  mem : n ∈ elements
  has : n.fromSpan.has k
  last : ∀ m ∈ elements, m.fromSpan.low ≤ k.toNat → m.fromSpan.low ≤ n.fromSpan.low

section

variable (hsorted : elements.Pairwise fun a b => a.fromSpan.low < b.fromSpan.low)
include hsorted

theorem low_inj (hn : n ∈ elements) (hm : m ∈ elements) (h : n.fromSpan.low = m.fromSpan.low) : n = m := by
  obtain ⟨i, hi, rfl⟩ := List.getElem_of_mem hn
  obtain ⟨j, hj, rfl⟩ := List.getElem_of_mem hm
  have hlt := List.pairwise_iff_getElem.mp hsorted
  rcases Nat.lt_trichotomy i j with hij | rfl | hij
  · exact absurd h (hlt i j hi hj hij).ne
  · rfl
  · exact absurd h (hlt j i hj hi hij).ne'

theorem Shows.unique (hn : Shows elements n k) (hm : Shows elements m k) : n = m :=
  low_inj hsorted hn.mem hm.mem
    (Nat.le_antisymm (hm.last n hn.mem (has_iff.mp hn.has).1) (hn.last m hm.mem (has_iff.mp hm.has).1))

/-- The search ends at the region that shows. -/
theorem regionAt_shows (hfine : ∀ n ∈ elements, n.Fine) (hbottom : elements = [] ∨ ∃ n ∈ elements, n.fromSpan.lower = 0)
    (k : BitVec w) : ∃ r, regionAt elements k = .ok r ∧ ∀ n, r = some n ↔ Shows elements n k := by
  by_cases hnil : elements = []
  · refine ⟨none, by rw [regionAt, if_pos hnil], fun n => ⟨by rintro ⟨⟩, fun h => ?_⟩⟩
    rw [hnil] at h
    exact absurd h.mem List.not_mem_nil
  have hle : ∀ i (hi : i < elements.length), elements[i].fromSpan.low ≤ elements[i].fromSpan.high := fun i hi =>
    valid_iff.mp (hfine _ (List.getElem_mem hi)).from_valid
  have hlt := List.pairwise_iff_getElem.mp hsorted
  have hpart := @partitionPoint_spec _ elements (fun n : Node w D => decide (n.fromSpan.lower < k))
    (hsorted.imp fun {a b} hab hb => by
      rw [decide_eq_true_iff, BitVec.lt_def] at hb ⊢
      exact hab.trans hb)
  have hlen := partitionPoint_le (fun n : Node w D => decide (n.fromSpan.lower < k)) elements
  rw [regionAt, if_neg hnil]
  generalize partitionPoint (fun n : Node w D => decide (n.fromSpan.lower < k)) elements = lb at hpart hlen ⊢
  have hlow : ∀ i (hi : i < elements.length), i < lb ↔ elements[i].fromSpan.low < k.toNat := fun i hi => by
    rw [hpart i hi, decide_eq_true_iff, BitVec.lt_def]
    rfl
  dsimp only
  by_cases hat : ∃ hi : lb < elements.length, elements[lb].fromSpan.low ≤ k.toNat
  · obtain ⟨hi, hat⟩ := hat
    have hshows : Shows elements elements[lb] k := by
      have := hle lb hi
      have := hlow lb hi
      refine ⟨List.getElem_mem hi, has_iff.mpr (by omega), fun m _ hm => by omega⟩
    have hfound : (elements[lb]?.filter fun n => decide (lb = 0 ∧ n.fromSpan.has k ∨ n.fromSpan.lower ≤ k)) =
        some elements[lb] := by
      rw [List.getElem?_eq_getElem hi, Option.filter_some, if_pos]
      exact decide_eq_true (Or.inr (BitVec.le_def.mpr hat))
    refine ⟨some elements[lb], by rw [hfound], fun n => ⟨?_, fun h => ?_⟩⟩
    · rintro ⟨⟩
      exact hshows
    · rw [hshows.unique hsorted h]
  · have habove : ∀ i (hi : i < elements.length), lb ≤ i → k.toNat < elements[i].fromSpan.low := by
      intro i hi hlbi
      have hstart := Nat.lt_of_not_le fun h => hat ⟨hlbi.trans_lt hi, h⟩
      rcases Nat.lt_or_eq_of_le hlbi with h | rfl
      · exact hstart.trans (hlt lb i _ hi h)
      · exact hstart
    have hfound : (elements[lb]?.filter fun n => decide (lb = 0 ∧ n.fromSpan.has k ∨ n.fromSpan.lower ≤ k)) = none := by
      rw [Option.filter_eq_none_iff]
      intro n hn
      obtain ⟨hi, rfl⟩ := List.getElem?_eq_some_iff.mp hn
      have := habove lb hi le_rfl
      rw [decide_eq_true_iff, has_iff, BitVec.le_def]
      change ¬(_ ∨ low _ ≤ _)
      omega
    cases lb with
    | zero =>
      obtain ⟨n, hn, hzero⟩ := hbottom.resolve_left hnil
      obtain ⟨j, hj, rfl⟩ := List.getElem_of_mem hn
      have hfirst := habove j hj j.zero_le
      rw [low, hzero] at hfirst
      exact absurd hfirst (Nat.not_lt_zero _)
    | succ prev =>
      refine ⟨_, by rw [hfound], fun n => ?_⟩
      have hlast : ∀ m ∈ elements, m.fromSpan.low ≤ k.toNat → m.fromSpan.low ≤ elements[prev].fromSpan.low := by
        intro m hm hmk
        obtain ⟨j, hj, rfl⟩ := List.getElem_of_mem hm
        have hjle : j ≤ prev := by
          by_contra hgt
          have := habove j hj (by omega)
          omega
        rcases Nat.lt_or_eq_of_le hjle with h | rfl
        · exact (hlt j prev hj hlen h).le
        · exact le_rfl
      have hprev : elements[prev].fromSpan.low ≤ k.toNat := ((hlow prev hlen).mp prev.lt_succ_self).le
      rw [List.getElem?_eq_getElem hlen, Option.filter_eq_some_iff]
      constructor
      · rintro ⟨⟨⟩, hk⟩
        exact ⟨List.getElem_mem hlen, of_decide_eq_true hk, hlast⟩
      · intro h
        obtain rfl := low_inj hsorted h.mem (List.getElem_mem hlen)
          (Nat.le_antisymm (hlast n h.mem (has_iff.mp h.has).1) (h.last _ (List.getElem_mem hlen) hprev))
        exact ⟨rfl, decide_eq_true h.has⟩

end

/-- In order, the region of the address shows, and no other one does. -/
theorem regionAt_spec (hsorted : elements.Pairwise fun a b => a.fromSpan.high < b.fromSpan.low)
    (hfine : ∀ n ∈ elements, n.Fine) (hbottom : elements = [] ∨ ∃ n ∈ elements, n.fromSpan.lower = 0) (k : BitVec w) :
    ∃ r, regionAt elements k = .ok r ∧ ∀ n, r = some n ↔ n ∈ elements ∧ n.fromSpan.has k := by
  have hle : ∀ n ∈ elements, n.fromSpan.low ≤ n.fromSpan.high := fun n hn => valid_iff.mp (hfine n hn).from_valid
  have hstarts : elements.Pairwise fun a b => a.fromSpan.low < b.fromSpan.low :=
    hsorted.imp_of_mem fun {a b} ha _ hab => (hle a ha).trans_lt hab
  obtain ⟨r, hr, hshows⟩ := regionAt_shows hstarts hfine hbottom k
  refine ⟨r, hr, fun n => (hshows n).trans ⟨fun h => ⟨h.mem, h.has⟩, fun ⟨hn, hk⟩ => ⟨hn, hk, fun m hm hmk => ?_⟩⟩⟩
  obtain ⟨i, hi, rfl⟩ := List.getElem_of_mem hn
  obtain ⟨j, hj, rfl⟩ := List.getElem_of_mem hm
  have hlt := List.pairwise_iff_getElem.mp hsorted
  have hmle := hle _ hm
  have hnle := hle _ hn
  rw [has_iff] at hk
  rcases Nat.lt_trichotomy i j with h | rfl | h
  · have := hlt i j hi hj h
    omega
  · exact le_rfl
  · have := hlt j i hj hi h
    omega

/-- What the map promises, as long as its lookups find the latest mapping. -/
theorem Invariant.holds {history : List (Node w D)} (h : Invariant elements history)
    (hdevices : (history.map Node.device).Nodup) : Holds elements history := by
  have hregion : ∀ k, regionAt elements k = .ok (latest history k) := by
    intro k
    obtain ⟨r, hr, hiff⟩ := regionAt_spec h.sorted h.fine h.bottom k
    have : r = latest history k := Option.ext fun n => by rw [hiff, h.latest_iff]
    rw [hr, this]
  have hmapped : ∀ k c, latest history k = some c → c ∈ elements ∧ c.Fine ∧ c.fromSpan.has k := fun k c hc =>
    have hmem := (h.latest_iff k c).mp hc
    ⟨hmem.1, h.fine c hmem.1, hmem.2⟩
  have hvalue : ∀ k, AddressBiMap.value elements k =
      .ok ((latest history k).map fun c => (c.device, c.toSpan.lower + (k - c.fromSpan.lower))) := by
    intro k
    rw [AddressBiMap.value, hregion]
    cases hc : latest history k with
    | none => rfl
    | some c =>
      obtain ⟨-, hfine, hk⟩ := hmapped k c hc
      obtain ⟨hmap, -, -⟩ := offsetMap_fine hfine.from_valid hfine.to_valid hfine.lengths hk
      change (do return some (c.device, ← offsetMap k c.fromSpan c.toSpan)) = _
      rw [hmap]
      rfl
  refine ⟨?_, fun n hn => (h.fine n hn).lengths, hvalue, ?_⟩
  · refine h.sorted.imp_of_mem fun {a b} ha hb hab => ?_
    rw [intersects_iff (h.fine a ha).from_valid (h.fine b hb).from_valid]
    omega
  · intro k d v hdv
    rw [hvalue] at hdv
    cases hc : latest history k with
    | none => simp [hc] at hdv
    | some c =>
      obtain ⟨hmem, hfine, hk⟩ := hmapped k c hc
      obtain ⟨rfl, rfl⟩ : c.device = d ∧ c.toSpan.lower + (k - c.fromSpan.lower) = v := by simpa [hc] using hdv
      obtain ⟨-, hhas, -⟩ := offsetMap_fine hfine.from_valid hfine.to_valid hfine.lengths hk
      have hfound : (elements.find? fun n => decide (n.device = c.device ∧
          n.toSpan.has (c.toSpan.lower + (k - c.fromSpan.lower)))) = some c := by
        cases hfind : elements.find? fun n => decide (n.device = c.device ∧
          n.toSpan.has (c.toSpan.lower + (k - c.fromSpan.lower))) with
        | none => exact absurd (decide_eq_true ⟨rfl, hhas⟩) (List.find?_eq_none.mp hfind c hmem)
        | some n =>
          have hdevice : n.device = c.device := (of_decide_eq_true (@List.find?_some _ _ n elements hfind)).1
          have hsame := List.inj_on_of_nodup_map hdevices (h.inserted n (List.mem_of_find?_eq_some hfind))
            (h.inserted c hmem) hdevice
          rw [hsame]
      rw [AddressBiMap.key, hfound]
      change (offsetMap _ c.toSpan c.fromSpan).map some = _
      rw [offsetMap_back hfine.from_valid hfine.to_valid hfine.lengths hk]
      rfl

end Lookups

/-! ## Insertions -/

section Insertions

variable {elements history : List (Node w D)} {node : Node w D}

theorem modify_self {α : Type} {f : α → α} {l : List α} (h : ∀ a ∈ l, f a = a) (i : Nat) : l.modify i f = l := by
  apply List.ext_getElem?
  intro j
  rw [List.getElem?_modify]
  cases hj : l[j]? with
  | none => rfl
  | some a =>
    change some (if i = j then f a else a) = some a
    split
    · rw [h a (List.mem_of_getElem? hj)]
    · rfl

/-- Nodes that the interval misses are not shrunk. -/
theorem shrink_of_missed {fromSpan : Interval w} (h : ∀ n ∈ elements, ¬fromSpan.intersects n.fromSpan) :
    shrinkAfter fromSpan (shrinkBefore fromSpan elements) = elements := by
  have hbefore : shrinkBefore fromSpan elements = elements := by
    rw [shrinkBefore]
    split
    · exact modify_self (fun n hn => if_neg (h n hn)) _
    · rfl
  rw [hbefore]
  exact modify_self (fun n hn => if_neg (h n hn)) _

theorem lt_iff (a b : Node w D) :
    lt a b = true ↔ toLex (a.fromSpan.key, a.toSpan.key) < toLex (b.fromSpan.key, b.toSpan.key) := decide_eq_true_iff

theorem latest_append (k : BitVec w) : latest (history ++ [node]) k =
    if node.fromSpan.has k then some node else latest history k := by
  rw [latest, List.reverse_append, List.reverse_singleton, List.singleton_append, List.find?_cons]
  split <;> simp_all [latest]

theorem Invariant.insert (h : Invariant elements history) (hnode : node.Fine) (hfits : Fits elements node.fromSpan) :
    Invariant (insertOrOverwrite std elements node) (history ++ [node]) := by
  have hkept : ∀ n, (n ∈ elements.filter fun n => !decide (node.fromSpan.contains n.fromSpan)) ↔
      n ∈ elements ∧ ¬node.fromSpan.contains n.fromSpan := fun n => by simp
  have hmissed : ∀ n ∈ elements.filter fun n => !decide (node.fromSpan.contains n.fromSpan),
      ¬node.fromSpan.intersects n.fromSpan := fun n hn =>
    have hn := (hkept n).mp hn
    (hfits.1 n hn.1).resolve_left hn.2
  have hperm : (insertOrOverwrite std elements node).Perm
      ((elements.filter fun n => !decide (node.fromSpan.contains n.fromSpan)) ++ [node]) := by
    rw [insertOrOverwrite, shrink_of_missed hmissed]
    exact std.perm _ _
  have hmem : ∀ n, n ∈ insertOrOverwrite std elements node ↔
      n ∈ elements ∧ ¬node.fromSpan.contains n.fromSpan ∨ n = node := fun n => by
    rw [hperm.mem_iff, List.mem_append, hkept, List.mem_singleton]
  have hfine : ∀ n ∈ insertOrOverwrite std elements node, n.Fine := by
    intro n hn
    rcases (hmem n).mp hn with ⟨hn, -⟩ | rfl
    · exact h.fine n hn
    · exact hnode
  have hdisjoint : (insertOrOverwrite std elements node).Pairwise fun a b => ¬a.fromSpan.intersects b.fromSpan := by
    refine (hperm.pairwise_iff fun {a b} hab hba => hab (intersects_comm.mp hba)).mpr ?_
    refine List.pairwise_append.mpr ⟨?_, List.pairwise_singleton _ _, fun a ha b hb => ?_⟩
    · refine (h.sorted.sublist (List.filter_sublist)).imp_of_mem fun {a b} ha hb hab => ?_
      rw [intersects_iff (h.fine a (List.mem_of_mem_filter ha)).from_valid (h.fine b (List.mem_of_mem_filter hb)).from_valid]
      omega
    · rw [List.mem_singleton.mp hb, intersects_comm]
      exact hmissed a ha
  have hsorted := std.sorted (fun n : Node w D => toLex (n.fromSpan.key, n.toSpan.key)) lt
    (shrinkAfter node.fromSpan (shrinkBefore node.fromSpan
      (elements.filter fun n => !decide (node.fromSpan.contains n.fromSpan))) ++ [node]) lt_iff
  constructor
  · refine (List.Pairwise.and hsorted hdisjoint).imp_of_mem fun {a b} ha hb hab => ?_
    have ha' := (hfine a ha).from_valid
    have hb' := (hfine b hb).from_valid
    have hle : ¬b.fromSpan.key < a.fromSpan.key := fun hlt =>
      not_lt.mpr hab.1 (Prod.Lex.toLex_lt_toLex.mpr (Or.inl hlt))
    have hapart := hab.2
    rw [key_lt hb' ha'] at hle
    rw [intersects_iff ha' hb'] at hapart
    rw [valid_iff] at ha' hb'
    omega
  · exact hfine
  · intro n hn
    rw [List.mem_append, List.mem_singleton]
    exact ((hmem n).mp hn).imp (fun hn => h.inserted n hn.1) id
  · right
    rcases hfits.2 with hzero | ⟨n, hn, hzero⟩
    · exact ⟨node, (hmem node).mpr (Or.inr rfl), hzero⟩
    · by_cases hin : node.fromSpan.contains n.fromSpan
      · refine ⟨node, (hmem node).mpr (Or.inr rfl), ?_⟩
        have := hin.2.2.1
        rw [hzero] at this
        exact BitVec.le_zero_iff.mp this
      · exact ⟨n, (hmem n).mpr (Or.inl ⟨hn, hin⟩), hzero⟩
  · intro k c
    rw [latest_append, hmem]
    split
    · next hk =>
      constructor
      · rintro ⟨⟩
        exact ⟨Or.inr rfl, hk⟩
      · rintro ⟨⟨hc, hout⟩ | rfl, hck⟩
        · have hmiss := (hfits.1 c hc).resolve_left hout
          rw [intersects_iff hnode.from_valid (h.fine c hc).from_valid] at hmiss
          rw [has_iff] at hk hck
          omega
        · rfl
    · next hk =>
      rw [h.latest_iff]
      constructor
      · rintro ⟨hc, hck⟩
        refine ⟨Or.inl ⟨hc, fun hin => hk ?_⟩, hck⟩
        rw [contains_iff hnode.from_valid (h.fine c hc).from_valid] at hin
        rw [has_iff] at hck ⊢
        omega
      · rintro ⟨⟨hc, -⟩ | rfl, hck⟩
        · exact ⟨hc, hck⟩
        · exact absurd hck hk

theorem run_append (history : List (Node w D)) (node : Node w D) :
    run std (history ++ [node]) = insertOrOverwrite std (run std history) node := by
  rw [run, List.foldl_append]
  rfl

end Insertions

/-- As long as every insertion fits, the map keeps its promises. -/
theorem run_holds (std : StdSort) (calls : List (Node w D)) (hfine : ∀ c ∈ calls, c.Fine)
    (hdevices : (calls.map Node.device).Nodup)
    (hfits : ∀ history c, history ++ [c] <+: calls → Fits (run std history) c.fromSpan) (history : List (Node w D))
    (hfirst : history <+: calls) : Holds (run std history) history := by
  have hinvariant : Invariant (run std history) history := by
    induction history using List.reverseRecOn with
    | nil => exact ⟨List.Pairwise.nil, by simp [run], by simp [run], Or.inl rfl, by simp [run, latest]⟩
    | append_singleton history c ih =>
      have hshorter := ih ((List.prefix_append _ _).trans hfirst)
      rw [run_append]
      exact hshorter.insert (hfine c (hfirst.subset (by simp))) (hfits history c hfirst)
  exact hinvariant.holds (hdevices.sublist (hfirst.sublist.map _))

/-- A region that starts at the first address, one behind it, and a longer one that takes the place of that. -/
def replacing : List (Node 16 Unit) :=
  [⟨1, ⟨0, 9⟩, ⟨100, 109⟩, ()⟩, ⟨2, ⟨10, 15⟩, ⟨0, 5⟩, ()⟩, ⟨3, ⟨10, 20⟩, ⟨50, 60⟩, ()⟩]

theorem run_holds_replacing : Holds (run StdSort.insertion replacing) replacing ∧
    run StdSort.insertion replacing = [⟨1, ⟨0, 9⟩, ⟨100, 109⟩, ()⟩, ⟨3, ⟨10, 20⟩, ⟨50, 60⟩, ()⟩] := by
  refine ⟨run_holds StdSort.insertion replacing (by decide) (by decide) ?_ _ (List.prefix_refl _), by decide⟩
  rintro history c ⟨rest, h⟩
  match history, h with
  | [], h =>
    cases h
    decide
  | [_], h =>
    cases h
    decide
  | [_, _], h =>
    cases h
    decide
  | _ :: _ :: _ :: history, h => simp [replacing] at h

/-- The last node is not shrunk, so that `[0, 10]` and `[5, 15]` are both kept. -/
theorem run_not_disjoint : ¬∀ calls : List (Node 16 Unit), (∀ c ∈ calls, c.Fine) → (calls.map Node.device).Nodup →
    Holds (run StdSort.insertion calls) calls := fun h => by
  have hholds := h [⟨1, ⟨0, 10⟩, ⟨0, 10⟩, ()⟩, ⟨2, ⟨5, 15⟩, ⟨0, 10⟩, ()⟩]
    (by decide) (by decide)
  have hdisjoint := hholds.disjoint
  revert hdisjoint
  decide

end AddressBiMap

end Pepp.Trace

import Mathlib.Data.List.Nodup
import Mathlib.Data.List.Perm.Subperm
import Mathlib.Logic.Relation
import Pepp.Lib.Trees

/-!
# Traversal of the device tree

A node is allocated behind all others and points to its parent and its children.
The iterator has only the current node and the one where it began: it goes down to
a first child, or climbs until there is a next sibling and no further than to
where it began.
-/

namespace RoseTree

variable {α : Type}

/-- A node in front of those below it, children in their order. -/
def preorder : RoseTree α → List α
  | node a ts => a :: preorders ts
where
  preorders : List (RoseTree α) → List α
    | [] => []
    | t :: ts => t.preorder ++ preorders ts

end RoseTree

namespace Pepp.Sys

/-- The pointers are the places of other nodes. -/
structure DeviceTree (D : Type) where
  device : D
  parent : Option Nat
  children : List Nat
  deriving DecidableEq, Repr

namespace DeviceTree

variable {D : Type}

/-- A new node under a parent. -/
def appendChild (nodes : List (DeviceTree D)) (this : Nat) (dev : D) : List (DeviceTree D) :=
  (nodes.modify this fun node => { node with children := node.children ++ [nodes.length] }) ++ [⟨dev, some this, []⟩]

/-- All nodes that the constructor and calls of `append_child` have made, and the nodes that it was called on. -/
inductive Built : List Nat → List (DeviceTree D) → Prop where
  | root (dev : D) : Built [] [⟨dev, none, []⟩]
  | append {calls : List Nat} {nodes : List (DeviceTree D)} {this : Nat} (dev : D) (h : Built calls nodes)
    (hthis : this < nodes.length) : Built (calls ++ [this]) (appendChild nodes this dev)

/-- The nodes that the calls on a node made, in the order of the calls. -/
def appendedTo (calls : List Nat) (this : Nat) : List Nat :=
  ((List.range calls.length).filter fun k => calls[k]? = some this).map (· + 1)

def childrenOf (nodes : List (DeviceTree D)) (i : Nat) : List Nat := (nodes[i]?.map children).getD []

def parentOf (nodes : List (DeviceTree D)) (i : Nat) : Option Nat := nodes[i]?.bind parent

/-- The sibling behind a node, as the siblings are searched for it. -/
def nextSibling (current : Nat) : List Nat → Option Nat
  | [] => none
  | sibling :: sibs => if sibling = current then sibs.head? else nextSibling current sibs

variable (nodes : List (DeviceTree D)) (root : Nat)

/-- The loop of `preorder`; no result stands for a loop that goes on. -/
def climb : Nat → Nat → Option (Option Nat)
  | 0, _ => none
  | turns + 1, current =>
    if current = root then some none
    else
      match parentOf nodes current with
      | none => some none
      | some p =>
        match nextSibling current (childrenOf nodes p) with
        | some sibling => some (some sibling)
        | none => climb turns p

def preorder (turns current : Nat) : Option (Option Nat) :=
  match childrenOf nodes current with
  | child :: _ => some (some child)
  | [] => climb nodes root turns current

/-- What is seen from an iterator up to the end, which has no current node, in at most so many steps. -/
def iterate (turns : Nat) : Nat → Option Nat → Option (List Nat)
  | _, none => some []
  | 0, some _ => none
  | steps + 1, some current =>
    match preorder nodes root turns current with
    | none => none
    | some next => (iterate turns steps next).map (current :: ·)

variable {nodes root}

/-! ## What is built -/

/-- Pointers between parents and children, where a parent is in front of its children. -/
structure Linked (nodes : List (DeviceTree D)) : Prop where
  parent_lt : ∀ i p, parentOf nodes i = some p → p < i ∧ i < nodes.length
  mem_children : ∀ i p, i ∈ childrenOf nodes p ↔ parentOf nodes i = some p
  nodup : ∀ p, (childrenOf nodes p).Nodup

variable (dev : D) {this : Nat} {calls : List Nat} {front back : List Nat} {i : Nat} {ts : List (RoseTree Nat)}

theorem childrenOf_appendChild (hthis : this < nodes.length) (i : Nat) :
    childrenOf (appendChild nodes this dev) i =
      if i = this then childrenOf nodes i ++ [nodes.length] else childrenOf nodes i := by
  rw [childrenOf, appendChild, List.getElem?_append, List.length_modify, childrenOf]
  split
  · next hlt =>
    rw [List.getElem?_modify, List.getElem?_eq_getElem hlt]
    split
    · next h =>
      rw [if_pos h.symm]
      rfl
    · next h =>
      rw [if_neg fun heq => h heq.symm]
      rfl
  · next hge =>
    have hne : i ≠ this := by omega
    rw [if_neg hne, List.getElem?_eq_none (Nat.not_lt.mp hge)]
    cases i - nodes.length <;> rfl

theorem parentOf_appendChild (i : Nat) :
    parentOf (appendChild nodes this dev) i = if i = nodes.length then some this else parentOf nodes i := by
  rw [parentOf, appendChild, List.getElem?_append, List.length_modify, parentOf]
  split
  · next hlt =>
    rw [if_neg (Nat.ne_of_lt hlt), List.getElem?_modify, List.getElem?_eq_getElem hlt]
    split <;> rfl
  · next hge =>
    rw [List.getElem?_eq_none (Nat.not_lt.mp hge)]
    cases hi : i - nodes.length with
    | zero =>
      rw [if_pos (by omega)]
      rfl
    | succ j =>
      rw [if_neg (by omega)]
      rfl

theorem linked_root : Linked [⟨dev, none, []⟩] := by
  have hparent : ∀ i, parentOf [(⟨dev, none, []⟩ : DeviceTree D)] i = none := by
    intro i
    cases i <;> rfl
  have hchildren : ∀ i, childrenOf [(⟨dev, none, []⟩ : DeviceTree D)] i = [] := by
    intro i
    cases i <;> rfl
  refine ⟨?_, ?_, ?_⟩
  · intro i p h
    rw [hparent] at h
    cases h
  · intro i p
    rw [hparent, hchildren]
    exact iff_of_false List.not_mem_nil fun h => by cases h
  · intro p
    rw [hchildren]
    exact List.nodup_nil

/-- The new node has no children, and is one of its parent only. -/
theorem Linked.append (h : Linked nodes) (dev : D) (hthis : this < nodes.length) :
    Linked (appendChild nodes this dev) := by
  have hnew : ∀ p, nodes.length ∉ childrenOf nodes p := by
    intro p hmem
    exact Nat.lt_irrefl _ (h.parent_lt _ _ ((h.mem_children _ _).mp hmem)).2
  have hlength : (appendChild nodes this dev).length = nodes.length + 1 := by
    rw [appendChild, List.length_append, List.length_modify, List.length_singleton]
  refine ⟨?_, ?_, ?_⟩
  · intro i p hparent
    rw [parentOf_appendChild] at hparent
    rw [hlength]
    split at hparent
    · next hi =>
      obtain rfl := Option.some_inj.mp hparent
      omega
    · obtain ⟨hlt, hlt'⟩ := h.parent_lt i p hparent
      omega
  · intro i p
    rw [parentOf_appendChild, childrenOf_appendChild dev hthis]
    by_cases hi : i = nodes.length
    · subst hi
      rw [if_pos rfl, Option.some_inj]
      split
      · next hp => exact iff_of_true (List.mem_append_right _ List.mem_cons_self) hp.symm
      · next hp => exact iff_of_false (hnew p) fun heq => hp heq.symm
    · rw [if_neg hi, ← h.mem_children]
      split
      · rw [List.mem_append, List.mem_singleton]
        exact or_iff_left hi
      · exact Iff.rfl
  · intro p
    rw [childrenOf_appendChild dev hthis]
    split
    · refine List.nodup_append.mpr ⟨h.nodup p, List.nodup_singleton _, ?_⟩
      rintro i hi j hj rfl
      rw [List.mem_singleton.mp hj] at hi
      exact hnew p hi
    · exact h.nodup p

theorem Built.linked (h : Built calls nodes) : Linked nodes := by
  induction h with
  | root dev => exact linked_root dev
  | append dev _ hthis ih => exact ih.append dev hthis

theorem Built.length_eq (h : Built calls nodes) : nodes.length = calls.length + 1 := by
  induction h with
  | root dev => rfl
  | append dev _ _ ih => rw [appendChild, List.length_append, List.length_modify, ih, List.length_append]; rfl

theorem appendedTo_append (calls : List Nat) (this p : Nat) :
    appendedTo (calls ++ [this]) p =
      if p = this then appendedTo calls p ++ [calls.length + 1] else appendedTo calls p := by
  have hold : (List.range calls.length).filter (fun k => (calls ++ [this])[k]? = some p) =
      (List.range calls.length).filter fun k => calls[k]? = some p := by
    refine List.filter_congr fun k hk => ?_
    rw [List.getElem?_append_left (List.mem_range.mp hk)]
  rw [appendedTo, List.length_append, List.length_singleton, List.range_succ, List.filter_append, hold]
  split
  · next hp => simp [hp, appendedTo]
  · next hp => simp [appendedTo, Ne.symm hp]

/-- Every node has the children that were appended to it, in that order. -/
theorem Built.childrenOf_eq (h : Built calls nodes) : childrenOf nodes = appendedTo calls := by
  induction h with
  | root dev =>
    funext i
    cases i <;> rfl
  | append dev h hthis ih =>
    funext i
    rw [childrenOf_appendChild dev hthis, appendedTo_append, ih, h.length_eq]

/-! ## Subtrees -/

/-- A tree of nodes with the children that they have. -/
def Shape (children : Nat → List Nat) : RoseTree Nat → Prop
  | .node i ts => children i = ts.map RoseTree.value ∧ each children ts
where
  each (children : Nat → List Nat) : List (RoseTree Nat) → Prop
    | [] => True
    | t :: ts => Shape children t ∧ each children ts

/-- A node is in the subtree of a root, which is reached from parent to parent. -/
def Below (nodes : List (DeviceTree D)) (root i : Nat) : Prop :=
  Relation.ReflTransGen (fun i p => parentOf nodes i = some p) i root

/-- The children of every node are behind it, so that every node has a subtree. -/
theorem Linked.exists_shape (h : Linked nodes) (i : Nat) : ∃ t, t.value = i ∧ Shape (childrenOf nodes) t := by
  induction hn : nodes.length - i using Nat.strongRecOn generalizing i with
  | ind n ih =>
    have hforest : ∀ l : List Nat, (∀ c ∈ l, i < c ∧ c < nodes.length) →
        ∃ ts : List (RoseTree Nat), ts.map RoseTree.value = l ∧ Shape.each (childrenOf nodes) ts := by
      intro l hl
      induction l with
      | nil => exact ⟨[], rfl, trivial⟩
      | cons c l ihl =>
        obtain ⟨hic, hc⟩ := hl c List.mem_cons_self
        obtain ⟨t, rfl, ht⟩ := ih (nodes.length - c) (by omega) c rfl
        obtain ⟨ts, rfl, hts⟩ := ihl fun c' hc' => hl c' (List.mem_cons_of_mem _ hc')
        exact ⟨t :: ts, rfl, ht, hts⟩
    obtain ⟨ts, hmap, hts⟩ := hforest (childrenOf nodes i) fun c hc => h.parent_lt c i ((h.mem_children c i).mp hc)
    exact ⟨.node i ts, rfl, hmap.symm, hts⟩

/-! ## Steps of the iterator -/

theorem nextSibling_append (h : i ∉ front) : nextSibling i (front ++ i :: back) = back.head? := by
  induction front with
  | nil =>
    rw [List.nil_append, nextSibling, if_pos rfl]
  | cons j front ih =>
    have hne : j ≠ i := fun heq => h (heq ▸ List.mem_cons_self)
    rw [List.cons_append, nextSibling, if_neg hne]
    exact ih fun hmem => h (List.mem_cons_of_mem _ hmem)

/-- Turns enough to climb to the first node are enough. -/
theorem Linked.climb_eq (h : Linked nodes) {turns turns' i : Nat} (hi : i < turns) (hi' : i < turns') :
    climb nodes root turns i = climb nodes root turns' i := by
  induction turns generalizing turns' i with
  | zero => exact absurd hi (Nat.not_lt_zero _)
  | succ turns ih =>
    cases turns' with
    | zero => exact absurd hi' (Nat.not_lt_zero _)
    | succ turns' =>
      rw [climb, climb]
      cases hparent : parentOf nodes i with
      | none => rfl
      | some p =>
        have hlt := (h.parent_lt i p hparent).1
        have hp : p < turns := by omega
        have hp' : p < turns' := by omega
        dsimp only
        rw [ih hp hp']

/-- What is searched for among the siblings. -/
theorem Linked.nextSibling_eq (h : Linked nodes) {p i : Nat} (hchildren : childrenOf nodes p = front ++ i :: back) :
    parentOf nodes i = some p ∧ nextSibling i (childrenOf nodes p) = back.head? := by
  have hnodup := h.nodup p
  rw [hchildren] at hnodup
  have hmem : i ∈ childrenOf nodes p := by
    rw [hchildren]
    exact List.mem_append_right _ List.mem_cons_self
  refine ⟨(h.mem_children i p).mp hmem, ?_⟩
  rw [hchildren]
  refine nextSibling_append fun hfront => ?_
  exact (List.nodup_append.mp hnodup).2.2 i hfront i List.mem_cons_self rfl

theorem Linked.climb_sibling (h : Linked nodes) {turns p i sibling : Nat}
    (hchildren : childrenOf nodes p = front ++ i :: sibling :: back) (hroot : i ≠ root) (hi : i < turns) :
    climb nodes root turns i = some (some sibling) := by
  obtain ⟨hparent, hnext⟩ := h.nextSibling_eq hchildren
  cases turns with
  | zero => exact absurd hi (Nat.not_lt_zero _)
  | succ turns =>
    rw [climb, if_neg hroot, hparent]
    dsimp only
    rw [hnext]
    rfl

theorem Linked.climb_last (h : Linked nodes) {turns p i : Nat} {front : List Nat}
    (hchildren : childrenOf nodes p = front ++ [i]) (hroot : i ≠ root) (hi : i < turns) :
    climb nodes root turns i = climb nodes root turns p := by
  obtain ⟨hparent, hnext⟩ := h.nextSibling_eq hchildren
  have hlt := (h.parent_lt i p hparent).1
  cases turns with
  | zero => exact absurd hi (Nat.not_lt_zero _)
  | succ turns =>
    rw [climb, if_neg hroot, hparent]
    dsimp only
    rw [hnext]
    exact h.climb_eq (by omega) (by omega)

/-- Where a forest begins, or what follows it. -/
def first (ts : List (RoseTree Nat)) (next : Option Nat) : Option Nat := (ts.head?.map RoseTree.value).or next

theorem Linked.climb_first (h : Linked nodes) {turns p : Nat} {front : List Nat} {t : RoseTree Nat} {next : Option Nat}
    (hchildren : childrenOf nodes p = front ++ t.value :: ts.map RoseTree.value) (hroot : t.value ≠ root)
    (hlt : t.value < turns) (hnext : climb nodes root turns p = some next) :
    climb nodes root turns t.value = some (first ts next) := by
  cases ts with
  | nil => exact (h.climb_last hchildren hroot hlt).trans hnext
  | cons t' ts => exact h.climb_sibling hchildren hroot hlt

theorem preorder_eq {turns i : Nat} {next : Option Nat} (hchildren : childrenOf nodes i = ts.map RoseTree.value)
    (hnext : climb nodes root turns i = some next) : preorder nodes root turns i = some (first ts next) := by
  rw [preorder, hchildren]
  cases ts with
  | nil => exact hnext
  | cons t ts => rfl

mutual

/-- A subtree is gone through before what follows it. -/
theorem Linked.iterate_tree (h : Linked nodes) {turns : Nat} (hturns : nodes.length ≤ turns) :
    ∀ (t : RoseTree Nat) (next : Option Nat) (steps : Nat),
      Shape (childrenOf nodes) t → root ≤ t.value → climb nodes root turns t.value = some next →
      iterate nodes root turns (t.preorder.length + steps) (some t.value) =
        (iterate nodes root turns steps next).map (t.preorder ++ ·)
  | .node i ts, next, steps, ht, hroot, hnext => by
    have hforest := h.iterate_forest hturns ts i [] next steps ht.1 ht.2 hroot hnext
    have hlength : (RoseTree.node i ts).preorder.length + steps =
        (RoseTree.preorder.preorders ts).length + steps + 1 := by
      rw [RoseTree.preorder, List.length_cons]
      omega
    rw [hlength, RoseTree.value, iterate, preorder_eq ht.1 hnext]
    dsimp only
    rw [hforest, Option.map_map, RoseTree.preorder]
    rfl

theorem Linked.iterate_forest (h : Linked nodes) {turns : Nat} (hturns : nodes.length ≤ turns) :
    ∀ (ts : List (RoseTree Nat)) (i : Nat) (front : List Nat) (next : Option Nat) (steps : Nat),
      childrenOf nodes i = front ++ ts.map RoseTree.value → Shape.each (childrenOf nodes) ts → root ≤ i →
      climb nodes root turns i = some next →
      iterate nodes root turns ((RoseTree.preorder.preorders ts).length + steps) (first ts next) =
        (iterate nodes root turns steps next).map (RoseTree.preorder.preorders ts ++ ·)
  | [], i, front, next, steps, _, _, _, _ => by
    have hid : (fun l : List Nat => RoseTree.preorder.preorders [] ++ l) = id := rfl
    have hlength : (RoseTree.preorder.preorders ([] : List (RoseTree Nat))).length + steps = steps := Nat.zero_add _
    have hfirst : first [] next = next := rfl
    rw [hid, Option.map_id, hlength, hfirst]
    rfl
  | t :: ts, i, front, next, steps, hchildren, hts, hroot, hnext => by
    have hmem : t.value ∈ childrenOf nodes i := by
      rw [hchildren]
      exact List.mem_append_right _ List.mem_cons_self
    obtain ⟨hlt, hlt'⟩ := h.parent_lt _ _ ((h.mem_children _ _).mp hmem)
    have hclimb := h.climb_first hchildren (by omega) (by omega) hnext
    have hfront : childrenOf nodes i = (front ++ [t.value]) ++ ts.map RoseTree.value := by
      rw [hchildren, List.append_assoc]
      rfl
    have hforest := h.iterate_forest hturns ts i (front ++ [t.value]) next steps hfront hts.2 hroot hnext
    have htree := h.iterate_tree hturns t (first ts next) ((RoseTree.preorder.preorders ts).length + steps) hts.1
      (by omega) hclimb
    have hfirst : first (t :: ts) next = some t.value := rfl
    rw [hfirst, RoseTree.preorder.preorders, List.length_append, Nat.add_assoc, htree, hforest, Option.map_map]
    refine congrArg (fun f => Option.map f _) (funext fun l => ?_)
    exact (List.append_assoc _ _ _).symm

end

/-! ## The nodes of a subtree -/

theorem Linked.le_of_below (h : Linked nodes) (hi : Below nodes root i) : root ≤ i := by
  induction hi using Relation.ReflTransGen.head_induction_on with
  | refl => exact Nat.le_refl _
  | head hparent _ ih => exact Nat.le_trans ih (Nat.le_of_lt (h.parent_lt _ _ hparent).1)

mutual

theorem Linked.below_of_mem (h : Linked nodes) : ∀ t : RoseTree Nat, Shape (childrenOf nodes) t →
    ∀ i ∈ t.preorder, Below nodes t.value i
  | .node r ts, ht, i, hi => by
    rw [RoseTree.preorder] at hi
    obtain rfl | hi := List.mem_cons.mp hi
    · exact .refl
    · obtain ⟨c, hc, hbelow⟩ := h.below_of_mem_forest ts ht.2 i hi
      rw [← ht.1] at hc
      exact hbelow.tail ((h.mem_children c r).mp hc)

theorem Linked.below_of_mem_forest (h : Linked nodes) : ∀ ts : List (RoseTree Nat), Shape.each (childrenOf nodes) ts →
    ∀ i ∈ RoseTree.preorder.preorders ts, ∃ c ∈ ts.map RoseTree.value, Below nodes c i
  | [], _, _, hi => absurd hi List.not_mem_nil
  | t :: ts, hts, i, hi => by
    rw [RoseTree.preorder.preorders] at hi
    obtain hi | hi := List.mem_append.mp hi
    · exact ⟨t.value, List.mem_cons_self, h.below_of_mem t hts.1 i hi⟩
    · obtain ⟨c, hc, hbelow⟩ := h.below_of_mem_forest ts hts.2 i hi
      exact ⟨c, List.mem_cons_of_mem _ hc, hbelow⟩

end

/-- What is below a node is a node. -/
theorem Linked.lt_of_below (h : Linked nodes) (hroot : root < nodes.length) (hi : Below nodes root i) :
    i < nodes.length := by
  obtain rfl | ⟨p, hp, _⟩ := hi.cases_head
  · exact hroot
  · exact (h.parent_lt i p hp).2

theorem value_mem_preorder (t : RoseTree Nat) : t.value ∈ t.preorder := by
  cases t with
  | node i ts => exact List.mem_cons_self

theorem value_mem_preorders (hi : i ∈ ts.map RoseTree.value) : i ∈ RoseTree.preorder.preorders ts := by
  induction ts with
  | nil => exact absurd hi List.not_mem_nil
  | cons t ts ih =>
    rw [RoseTree.preorder.preorders]
    obtain rfl | hi := List.mem_cons.mp hi
    · exact List.mem_append_left _ (value_mem_preorder t)
    · exact List.mem_append_right _ (ih hi)

mutual

/-- With a node its children are listed. -/
theorem children_mem : ∀ t : RoseTree Nat, Shape (childrenOf nodes) t → ∀ i ∈ t.preorder, ∀ c ∈ childrenOf nodes i, c ∈ t.preorder
  | .node r ts, ht, i, hi, c, hc => by
    rw [RoseTree.preorder] at hi ⊢
    obtain rfl | hi := List.mem_cons.mp hi
    · rw [ht.1] at hc
      exact List.mem_cons_of_mem _ (value_mem_preorders hc)
    · exact List.mem_cons_of_mem _ (children_mem_forest ts ht.2 i hi c hc)

theorem children_mem_forest : ∀ ts : List (RoseTree Nat), Shape.each (childrenOf nodes) ts →
    ∀ i ∈ RoseTree.preorder.preorders ts, ∀ c ∈ childrenOf nodes i, c ∈ RoseTree.preorder.preorders ts
  | [], _, _, hi, _, _ => absurd hi List.not_mem_nil
  | t :: ts, hts, i, hi, c, hc => by
    rw [RoseTree.preorder.preorders] at hi ⊢
    obtain hi | hi := List.mem_append.mp hi
    · exact List.mem_append_left _ (children_mem t hts.1 i hi c hc)
    · exact List.mem_append_right _ (children_mem_forest ts hts.2 i hi c hc)

end

theorem Linked.mem_preorder_iff (h : Linked nodes) {t : RoseTree Nat} (ht : Shape (childrenOf nodes) t) (i : Nat) :
    i ∈ t.preorder ↔ Below nodes t.value i := by
  refine ⟨h.below_of_mem t ht i, fun hi => ?_⟩
  induction hi using Relation.ReflTransGen.head_induction_on with
  | refl => exact value_mem_preorder t
  | head hparent _ ih => exact children_mem t ht _ ih _ ((h.mem_children _ _).mpr hparent)

/-- Two nodes above a third one are one above the other. -/
theorem below_total {a b i : Nat} (ha : Below nodes a i) (hb : Below nodes b i) :
    Below nodes a b ∨ Below nodes b a := by
  have hunique : Relator.RightUnique fun i p => parentOf nodes i = some p :=
    fun i p p' hp hp' => Option.some_inj.mp (hp.symm.trans hp')
  exact (Relation.ReflTransGen.total_of_right_unique hunique ha hb).symm

/-- Children of one node have no nodes below them in common. -/
theorem Linked.children_disjoint (h : Linked nodes) {a b i r : Nat} (ha : a ∈ childrenOf nodes r)
    (hb : b ∈ childrenOf nodes r) (hia : Below nodes a i) (hib : Below nodes b i) : a = b := by
  have hparent : ∀ {a b}, a ∈ childrenOf nodes r → b ∈ childrenOf nodes r → Below nodes a b → a = b := by
    intro a b ha hb hab
    obtain heq | ⟨p, hp, hbelow⟩ := hab.cases_head
    · exact heq.symm
    · rw [(h.mem_children b r).mp hb] at hp
      obtain rfl := Option.some_inj.mp hp
      have hle := h.le_of_below hbelow
      have hlt := (h.parent_lt _ _ ((h.mem_children a _).mp ha)).1
      omega
  obtain hab | hba := below_total hia hib
  · exact hparent ha hb hab
  · exact (hparent hb ha hba).symm

mutual

theorem Linked.nodup_preorder (h : Linked nodes) : ∀ t : RoseTree Nat, Shape (childrenOf nodes) t → t.preorder.Nodup
  | .node r ts, ht => by
    rw [RoseTree.preorder]
    have hnodup := h.nodup r
    rw [ht.1] at hnodup
    refine List.nodup_cons.mpr ⟨fun hmem => ?_, h.nodup_preorders ts r ht.2 (fun c hc => ht.1 ▸ hc) hnodup⟩
    obtain ⟨c, hc, hbelow⟩ := h.below_of_mem_forest ts ht.2 r hmem
    rw [← ht.1] at hc
    have hle := h.le_of_below hbelow
    have hlt := (h.parent_lt _ _ ((h.mem_children c r).mp hc)).1
    omega

theorem Linked.nodup_preorders (h : Linked nodes) : ∀ (ts : List (RoseTree Nat)) (r : Nat), Shape.each (childrenOf nodes) ts →
    (∀ c ∈ ts.map RoseTree.value, c ∈ childrenOf nodes r) → (ts.map RoseTree.value).Nodup →
      (RoseTree.preorder.preorders ts).Nodup
  | [], _, _, _, _ => List.nodup_nil
  | t :: ts, r, hts, hmem, hnodup => by
    rw [RoseTree.preorder.preorders]
    obtain ⟨hhead, htail⟩ := List.nodup_cons.mp hnodup
    refine List.nodup_append.mpr ⟨h.nodup_preorder t hts.1,
      h.nodup_preorders ts r hts.2 (fun c hc => hmem c (List.mem_cons_of_mem _ hc)) htail, ?_⟩
    rintro i hi j hj rfl
    obtain ⟨c, hc, hbelow⟩ := h.below_of_mem_forest ts hts.2 i hj
    have heq := h.children_disjoint (hmem _ List.mem_cons_self) (hmem c (List.mem_cons_of_mem _ hc))
      (h.below_of_mem t hts.1 i hi) hbelow
    exact hhead (heq ▸ hc)

end

/-- From a node of a built tree the iterator goes through its subtree, once through each node and children in the order
in which they were appended. -/
theorem iterate_exact {calls : List Nat} {root : Nat} (h : Built calls nodes) (hroot : root < nodes.length) :
    ∃ t : RoseTree Nat, t.value = root ∧ Shape (appendedTo calls) t ∧ t.preorder.Nodup ∧
      (∀ i, i ∈ t.preorder ↔ Below nodes root i) ∧
      ∀ turns steps, nodes.length ≤ turns → nodes.length ≤ steps →
        iterate nodes root turns steps (some root) = some t.preorder := by
  have hlinked := h.linked
  obtain ⟨t, rfl, ht⟩ := hlinked.exists_shape root
  refine ⟨t, rfl, h.childrenOf_eq ▸ ht, hlinked.nodup_preorder t ht, hlinked.mem_preorder_iff ht, ?_⟩
  intro turns steps hturns hsteps
  have hlength : t.preorder.length ≤ nodes.length := by
    have hsubset : t.preorder ⊆ List.range nodes.length := by
      intro i hi
      exact List.mem_range.mpr (hlinked.lt_of_below hroot (hlinked.below_of_mem t ht i hi))
    have hle := (List.subperm_of_subset (hlinked.nodup_preorder t ht) hsubset).length_le
    rwa [List.length_range] at hle
  have hclimb : climb nodes t.value turns t.value = some none := by
    cases turns with
    | zero => omega
    | succ turns => rw [climb, if_pos rfl]
  have htree := hlinked.iterate_tree hturns t none (steps - t.preorder.length) ht (Nat.le_refl _) hclimb
  rw [Nat.add_sub_cancel' (Nat.le_trans hlength hsteps)] at htree
  rw [htree, iterate, Option.map_some, List.append_nil]

/-- Two nodes are appended to the root, and then one to the first of them: it comes before the second one. -/
theorem iterate_family : ∃ t : RoseTree Nat, t.value = 0 ∧ Shape (appendedTo [0, 0, 1]) t ∧ t.preorder = [0, 1, 3, 2] ∧
    (∀ i, i ∈ t.preorder ↔ Below (appendChild (appendChild (appendChild [⟨(), none, []⟩] 0 ()) 0 ()) 1 ()) 0 i) ∧
      iterate (appendChild (appendChild (appendChild [⟨(), none, []⟩] 0 ()) 0 ()) 1 ()) 0 4 4 (some 0) =
        some [0, 1, 3, 2] := by
  have hbuilt : Built [0, 0, 1] (appendChild (appendChild (appendChild [⟨(), none, []⟩] 0 ()) 0 ()) 1 ()) :=
    .append () (.append () (.append () (.root ()) (by decide)) (by decide)) (by decide)
  obtain ⟨t, hvalue, hshape, -, hbelow, hiterate⟩ := iterate_exact hbuilt (show 0 < _ by decide)
  have hrun : iterate (appendChild (appendChild (appendChild [⟨(), none, []⟩] 0 ()) 0 ()) 1 ()) 0 4 4 (some 0) =
      some [0, 1, 3, 2] := by decide
  exact ⟨t, hvalue, hshape, Option.some_inj.mp ((hiterate 4 4 (by decide) (by decide)).symm.trans hrun), hbelow, hrun⟩

end DeviceTree

end Pepp.Sys

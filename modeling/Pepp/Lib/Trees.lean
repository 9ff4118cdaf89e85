import Mathlib.Data.List.Basic
import Mathlib.Tactic.Tauto

/-!
# Growing trees

A finitely branching tree that grows at its leaves' side only: new children come
behind the others. A node is found by its path, and its path stays the same
while the tree grows.
-/

inductive RoseTree (α : Type) where
  | node (value : α) (children : List (RoseTree α))

namespace RoseTree

variable {α β : Type}

def value : RoseTree α → α
  | node a _ => a

def children : RoseTree α → List (RoseTree α)
  | node _ ts => ts

/-- The number of nodes. -/
def size : RoseTree α → Nat
  | node _ ts => sizes ts + 1
where
  sizes : List (RoseTree α) → Nat
    | [] => 0
    | t :: ts => t.size + sizes ts

/-- The depths of all nodes together, where the root has depth `d`. -/
def depths (d : Nat) : RoseTree α → Nat
  | node _ ts => d + all (d + 1) ts
where
  all (d : Nat) : List (RoseTree α) → Nat
    | [] => 0
    | t :: ts => t.depths d + all d ts

def map (f : α → β) : RoseTree α → RoseTree β
  | node a ts => node (f a) (maps f ts)
where
  maps (f : α → β) : List (RoseTree α) → List (RoseTree β)
    | [] => []
    | t :: ts => t.map f :: maps f ts

/-- All nodes satisfy `p`. -/
def All (p : α → Prop) : RoseTree α → Prop
  | node a ts => p a ∧ each p ts
where
  each (p : α → Prop) : List (RoseTree α) → Prop
    | [] => True
    | t :: ts => t.All p ∧ each p ts

/-- The node that a path of child positions leads to. -/
def at? : List Nat → RoseTree α → Option (RoseTree α)
  | [], t => some t
  | i :: path, node _ ts => ts[i]?.bind (at? path)

def graft (ts : List (RoseTree α)) : RoseTree α → RoseTree α
  | node a us => node a (us ++ ts)

/-- Put new children behind those of the node at a path. -/
def graftAt : List Nat → List (RoseTree α) → RoseTree α → RoseTree α
  | [], ts, t => t.graft ts
  | i :: path, ts, node a us => node a (us.modify i (graftAt path ts))

variable {t u c : RoseTree α} {ts us : List (RoseTree α)} {p q : List Nat}

@[simp] theorem value_graft : (t.graft ts).value = t.value := by
  cases t with
  | node a us => rfl

theorem size_pos : 0 < t.size := by
  cases t with
  | node a us => exact Nat.succ_pos _

theorem sizes_append (ts us : List (RoseTree α)) : size.sizes (ts ++ us) = size.sizes ts + size.sizes us := by
  induction ts with
  | nil => rw [List.nil_append, size.sizes, Nat.zero_add]
  | cons t ts ih => rw [List.cons_append, size.sizes, size.sizes, ih, Nat.add_assoc]

theorem depths_append (d : Nat) (ts us : List (RoseTree α)) :
    depths.all d (ts ++ us) = depths.all d ts + depths.all d us := by
  induction ts with
  | nil => rw [List.nil_append, depths.all, Nat.zero_add]
  | cons t ts ih => rw [List.cons_append, depths.all, depths.all, ih, Nat.add_assoc]

theorem maps_eq (f : α → β) (ts : List (RoseTree α)) : map.maps f ts = ts.map (map f) := by
  induction ts with
  | nil => rfl
  | cons t ts ih => rw [map.maps, ih, List.map_cons]

theorem graft_graft : (t.graft ts).graft us = t.graft (ts ++ us) := by
  cases t with
  | node a vs => exact congrArg (node a) (List.append_assoc ..)

theorem graft_nil : t.graft [] = t := by
  cases t with
  | node a us => exact congrArg (node a) (List.append_nil us)

theorem graftAt_nil : graftAt p [] t = t := by
  induction p generalizing t with
  | nil => exact graft_nil
  | cons i p ih =>
    cases t with
    | node a us =>
      have hid : graftAt p ([] : List (RoseTree α)) = id := funext fun t => ih
      rw [graftAt, hid, List.modify_id]

theorem graftAt_graftAt : graftAt p us (graftAt p ts t) = graftAt p (ts ++ us) t := by
  induction p generalizing t with
  | nil => exact graft_graft
  | cons i p ih =>
    cases t with
    | node a vs =>
      rw [graftAt, graftAt, graftAt, List.modify_modify_eq]
      exact congrArg (node a) (congrArg (vs.modify i) (funext fun t => ih))

theorem map_graftAt (f : α → β) : (graftAt p ts t).map f = graftAt p (ts.map (map f)) (t.map f) := by
  induction p generalizing t with
  | nil =>
    cases t with
    | node a us =>
      rw [graftAt, graft, graftAt, map, map, graft, maps_eq, maps_eq, List.map_append]
  | cons i p ih =>
    cases t with
    | node a us =>
      rw [graftAt, map, map, graftAt, maps_eq, maps_eq]
      refine congrArg (node (f a)) (List.ext_getElem? fun j => ?_)
      rw [List.getElem?_map, List.getElem?_modify, List.getElem?_modify, List.getElem?_map]
      cases us[j]? with
      | none => rfl
      | some u =>
        by_cases hij : i = j
        · simp [hij, ih]
        · simp [hij]

theorem at?_append : at? (p ++ q) t = (at? p t).bind (at? q) := by
  induction p generalizing t with
  | nil => rfl
  | cons i p ih =>
    cases t with
    | node a us =>
      rw [List.cons_append, at?, at?]
      cases us[i]? with
      | none => rfl
      | some u => exact ih

theorem at?_graftAt (h : at? p t = some u) : at? p (graftAt p ts t) = some (u.graft ts) := by
  induction p generalizing t with
  | nil => exact congrArg (fun v => some (v.graft ts)) (Option.some.inj h)
  | cons i p ih =>
    cases t with
    | node a us =>
      rw [at?, Option.bind_eq_some_iff] at h
      obtain ⟨v, hv, h⟩ := h
      rw [graftAt, at?, List.getElem?_modify_eq, hv]
      exact ih h

/-- The first of the new children comes behind the old ones. -/
theorem at?_graftAt_new (h : at? p t = some u) : at? (p ++ [u.children.length]) (graftAt p (c :: ts) t) = some c := by
  rw [at?_append, at?_graftAt h]
  cases u with
  | node a us =>
    change (us ++ c :: ts)[us.length]?.bind (at? []) = some c
    rw [List.getElem?_append_right (Nat.le_refl _), Nat.sub_self]
    rfl

/-- All nodes keep their paths and values. -/
theorem at?_graftAt_old (p : List Nat) (ts : List (RoseTree α)) (h : at? q t = some u) :
    ∃ u', at? q (graftAt p ts t) = some u' ∧ u'.value = u.value := by
  induction p generalizing t q with
  | nil =>
    cases t with
    | node a us =>
      cases q with
      | nil =>
        obtain rfl := Option.some.inj h
        exact ⟨_, rfl, rfl⟩
      | cons i q =>
        rw [at?, Option.bind_eq_some_iff] at h
        obtain ⟨v, hv, h⟩ := h
        obtain ⟨hlt, -⟩ := List.getElem?_eq_some_iff.mp hv
        refine ⟨u, ?_, rfl⟩
        rw [graftAt, graft, at?, List.getElem?_append_left hlt, hv]
        exact h
  | cons j p ih =>
    cases t with
    | node a us =>
      cases q with
      | nil =>
        obtain rfl := Option.some.inj h
        exact ⟨_, rfl, rfl⟩
      | cons i q =>
        rw [at?, Option.bind_eq_some_iff] at h
        obtain ⟨v, hv, h⟩ := h
        by_cases hij : j = i
        · subst hij
          obtain ⟨u', hu', hvalue⟩ := ih h
          refine ⟨u', ?_, hvalue⟩
          rw [graftAt, at?, List.getElem?_modify_eq, hv]
          exact hu'
        · refine ⟨u, ?_, rfl⟩
          rw [graftAt, at?, List.getElem?_modify_ne _ _ hij, hv]
          exact h

theorem modify_concat (f : α → α) (xs : List α) (x : α) : (xs ++ [x]).modify xs.length f = xs ++ [f x] := by
  induction xs with
  | nil => rfl
  | cons y xs ih => exact congrArg (y :: ·) ih

/-- What is put under a new child has been put there with it. -/
theorem graftAt_snoc (h : at? p t = some u) :
    graftAt (p ++ [u.children.length]) us (graftAt p [c] t) = graftAt p [c.graft us] t := by
  induction p generalizing t with
  | nil =>
    obtain rfl := Option.some.inj h
    cases t with
    | node a vs =>
      exact congrArg (node a) (modify_concat (graftAt [] us) vs c)
  | cons i p ih =>
    cases t with
    | node a vs =>
      rw [at?, Option.bind_eq_some_iff] at h
      obtain ⟨v, hv, h⟩ := h
      rw [List.cons_append, graftAt, graftAt, graftAt, List.modify_modify_eq]
      refine congrArg (node a) (List.ext_getElem? fun j => ?_)
      rw [List.getElem?_modify, List.getElem?_modify]
      by_cases hij : i = j
      · subst hij
        rw [hv]
        simp [ih h]
      · simp [hij]

variable {f : RoseTree α → RoseTree α} {P : α → Prop}

theorem sizes_modify {i : Nat} (h : ts[i]? = some c) :
    size.sizes (ts.modify i f) + c.size = size.sizes ts + (f c).size := by
  induction ts generalizing i with
  | nil => cases h
  | cons t ts ih =>
    cases i with
    | zero =>
      obtain rfl := Option.some.inj h
      rw [List.modify_zero_cons, size.sizes, size.sizes]
      omega
    | succ i =>
      have := ih h
      rw [List.modify_succ_cons, size.sizes, size.sizes]
      omega

theorem depths_modify {i d : Nat} (h : ts[i]? = some c) :
    depths.all d (ts.modify i f) + c.depths d = depths.all d ts + (f c).depths d := by
  induction ts generalizing i with
  | nil => cases h
  | cons t ts ih =>
    cases i with
    | zero =>
      obtain rfl := Option.some.inj h
      rw [List.modify_zero_cons, depths.all, depths.all]
      omega
    | succ i =>
      have := ih h
      rw [List.modify_succ_cons, depths.all, depths.all]
      omega

theorem size_graftAt (h : at? p t = some u) : (graftAt p ts t).size = t.size + size.sizes ts := by
  induction p generalizing t with
  | nil =>
    cases t with
    | node a us =>
      rw [graftAt, graft, size, size, sizes_append]
      omega
  | cons i p ih =>
    cases t with
    | node a us =>
      rw [at?, Option.bind_eq_some_iff] at h
      obtain ⟨v, hv, h⟩ := h
      have hmodify := sizes_modify (f := graftAt p ts) hv
      have := ih h
      rw [graftAt, size, size]
      omega

theorem depths_graftAt {d : Nat} (h : at? p t = some u) :
    (graftAt p ts t).depths d = t.depths d + depths.all (d + p.length + 1) ts := by
  induction p generalizing t d with
  | nil =>
    cases t with
    | node a us =>
      rw [graftAt, graft, depths, depths, depths_append, List.length_nil, Nat.add_zero]
      omega
  | cons i p ih =>
    cases t with
    | node a us =>
      rw [at?, Option.bind_eq_some_iff] at h
      obtain ⟨v, hv, h⟩ := h
      have hmodify := depths_modify (d := d + 1) (f := graftAt p ts) hv
      have := ih (d := d + 1) h
      rw [graftAt, depths, depths, List.length_cons]
      rw [show d + (p.length + 1) + 1 = d + 1 + p.length + 1 by omega]
      omega

mutual

theorem size_map (f : α → β) : ∀ t : RoseTree α, (t.map f).size = t.size
  | node a ts => by rw [map, size, size, sizes_maps f ts]

theorem sizes_maps (f : α → β) : ∀ ts : List (RoseTree α), size.sizes (map.maps f ts) = size.sizes ts
  | [] => rfl
  | t :: ts => by rw [map.maps, size.sizes, size.sizes, size_map f t, sizes_maps f ts]

end

mutual

theorem depths_map (f : α → β) (d : Nat) : ∀ t : RoseTree α, (t.map f).depths d = t.depths d
  | node a ts => by rw [map, depths, depths, depths_maps f (d + 1) ts]

theorem depths_maps (f : α → β) (d : Nat) : ∀ ts : List (RoseTree α), depths.all d (map.maps f ts) = depths.all d ts
  | [] => rfl
  | t :: ts => by rw [map.maps, depths.all, depths.all, depths_map f d t, depths_maps f d ts]

end

mutual

theorem depths_mono {d e : Nat} (h : d ≤ e) : ∀ t : RoseTree α, t.depths d ≤ t.depths e
  | node a ts => by
    rw [depths, depths]
    exact Nat.add_le_add h (all_mono (Nat.succ_le_succ h) ts)

theorem all_mono {d e : Nat} (h : d ≤ e) : ∀ ts : List (RoseTree α), depths.all d ts ≤ depths.all e ts
  | [] => Nat.le_refl 0
  | t :: ts => by
    rw [depths.all, depths.all]
    exact Nat.add_le_add (depths_mono h t) (all_mono h ts)

end

theorem each_append : All.each P (ts ++ us) ↔ All.each P ts ∧ All.each P us := by
  induction ts with
  | nil => rw [List.nil_append, All.each, true_and]
  | cons t ts ih => rw [List.cons_append, All.each, All.each, ih, and_assoc]

theorem each_modify {Q : Prop} {i : Nat} (h : ts[i]? = some c) (hf : (f c).All P ↔ c.All P ∧ Q) :
    All.each P (ts.modify i f) ↔ All.each P ts ∧ Q := by
  induction ts generalizing i with
  | nil => cases h
  | cons t ts ih =>
    cases i with
    | zero =>
      obtain rfl := Option.some.inj h
      rw [List.modify_zero_cons, All.each, All.each, hf]
      tauto
    | succ i =>
      rw [List.modify_succ_cons, All.each, All.each, ih h, and_assoc]

theorem all_graftAt (h : at? p t = some u) : (graftAt p ts t).All P ↔ t.All P ∧ All.each P ts := by
  induction p generalizing t with
  | nil =>
    cases t with
    | node a us => rw [graftAt, graft, All, All, each_append, and_assoc]
  | cons i p ih =>
    cases t with
    | node a us =>
      rw [at?, Option.bind_eq_some_iff] at h
      obtain ⟨v, hv, h⟩ := h
      rw [graftAt, All, All, each_modify hv (ih h), and_assoc]

/-- The same of the trees below the root. -/
theorem each_children_graftAt (h : at? p t = some u) :
    All.each P (graftAt p ts t).children ↔ All.each P t.children ∧ All.each P ts := by
  cases p with
  | nil =>
    cases t with
    | node a us => exact each_append
  | cons i p =>
    cases t with
    | node a us =>
      rw [at?, Option.bind_eq_some_iff] at h
      obtain ⟨v, hv, h⟩ := h
      exact each_modify hv (all_graftAt h)

theorem at?_map (f : α → β) : at? p (t.map f) = (at? p t).map (map f) := by
  induction p generalizing t with
  | nil => rfl
  | cons i p ih =>
    cases t with
    | node a us =>
      rw [map, at?, at?, maps_eq, List.getElem?_map]
      cases us[i]? with
      | none => rfl
      | some u => exact ih

theorem length_children_map (f : α → β) : (t.map f).children.length = t.children.length := by
  cases t with
  | node a us => rw [map, maps_eq, children, List.length_map, children]

end RoseTree

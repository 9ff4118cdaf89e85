import Pepp.Lib.FlatMap

/-!
# Maps by increasing key

A map is the list of its entries by increasing key. What it holds for each key
determines it.
-/

namespace Containers

/-- `std::map` -/
structure OrderedMap (K V : Type) [LinearOrder K] where
  entries : List (K × V)
  sorted : Sorted id entries

namespace OrderedMap

variable {K V W : Type} [LinearOrder K]

theorem compares_lt : Compares (fun a b : K => decide (a < b)) id := fun _ _ => decide_eq_true_iff

def empty : OrderedMap K V := ⟨[], .nil⟩

def find (m : OrderedMap K V) (k : K) : Option V :=
  (m.entries.find? fun p => !decide (p.1 < k) && !decide (k < p.1)).map Prod.snd

/-- `m[k] = v` -/
def assign (m : OrderedMap K V) (k : K) (v : V) : OrderedMap K V :=
  ⟨insertByKey (fun a b => decide (a < b)) k v m.entries, sorted_insertByKey compares_lt m.sorted⟩

def size (m : OrderedMap K V) : Nat := m.entries.length

def keys (m : OrderedMap K V) : List K := m.entries.map Prod.fst

variable {m m' : OrderedMap K V} {k k' : K} {v v' : V}

theorem find_eq_some : m.find k = some v ↔ (k, v) ∈ m.entries := by
  rw [find, Option.map_eq_some_iff]
  constructor
  · rintro ⟨p, hfind, rfl⟩
    obtain ⟨hp, rfl⟩ := (find_by_key compares_lt m.sorted p).mp hfind
    exact hp
  · intro hmem
    exact ⟨(k, v), (find_by_key compares_lt m.sorted _).mpr ⟨hmem, rfl⟩, rfl⟩

theorem mem_keys : k ∈ m.keys ↔ ∃ v, m.find k = some v := by
  rw [keys, List.mem_map]
  constructor
  · rintro ⟨⟨k, v⟩, hmem, rfl⟩
    exact ⟨v, (find_eq_some).mpr hmem⟩
  · rintro ⟨v, hfind⟩
    exact ⟨(k, v), (find_eq_some).mp hfind, rfl⟩

theorem find_eq_none : m.find k = none ↔ k ∉ m.keys := by
  rw [mem_keys, Option.eq_none_iff_forall_ne_some, not_exists]

theorem find_empty : (empty : OrderedMap K V).find k = none := rfl

theorem mem_assign (p : K × V) : p ∈ (m.assign k v).entries ↔ p = (k, v) ∨ p ∈ m.entries ∧ p.1 ≠ k :=
  mem_insertByKey compares_lt m.sorted (fun _ _ h => h) p

theorem find_assign : (m.assign k v).find k' = if k' = k then some v else m.find k' := by
  apply Option.ext
  intro v'
  rw [find_eq_some, mem_assign, Prod.mk.injEq]
  by_cases h : k' = k
  · rw [if_pos h, Option.some.injEq]
    constructor
    · rintro (⟨-, rfl⟩ | ⟨-, hne⟩)
      · rfl
      · exact absurd h hne
    · rintro rfl
      exact .inl ⟨h, rfl⟩
  · rw [if_neg h, find_eq_some]
    constructor
    · rintro (⟨heq, -⟩ | ⟨hmem, -⟩)
      · exact absurd heq h
      · exact hmem
    · intro hmem
      exact .inr ⟨hmem, h⟩

theorem nodup_keys : m.keys.Nodup := by
  rw [keys, List.Nodup, List.pairwise_map]
  exact m.sorted.imp fun h => h.ne

/-- A map is determined by what it holds for each key. -/
theorem ext_find (h : ∀ k, m.find k = m'.find k) : m = m' := by
  obtain ⟨l, hl⟩ := m
  obtain ⟨l', hl'⟩ := m'
  have hmem : ∀ p, p ∈ l ↔ p ∈ l' := by
    rintro ⟨k, v⟩
    have hk := congrArg (fun o => o = some v) (h k)
    simp only [find_eq_some, eq_iff_iff] at hk
    exact hk
  have hanti : ∀ p q : K × V, id p.1 < id q.1 → id q.1 < id p.1 → p = q := fun p q hpq hqp => absurd hpq hqp.asymm
  have hnodup : ∀ {l : List (K × V)}, Sorted id l → l.Nodup := fun hs => hs.imp fun hlt heq => hlt.ne (congrArg Prod.fst heq)
  obtain rfl : l = l' := List.Perm.eq_of_pairwise (fun p q _ _ => hanti p q) hl hl'
    ((List.perm_ext_iff_of_nodup (hnodup hl) (hnodup hl')).mpr hmem)
  rfl

/-- A new key makes one more entry. -/
theorem perm_assign (h : m.find k = none) : (m.assign k v).entries.Perm ((k, v) :: m.entries) := by
  have hnodup : ∀ m : OrderedMap K V, m.entries.Nodup := fun m => m.sorted.imp fun hlt heq => hlt.ne (congrArg Prod.fst heq)
  have hnew : ∀ p ∈ m.entries, p.1 ≠ k := by
    rintro ⟨k', v'⟩ hmem rfl
    exact (find_eq_none).mp h (mem_keys.mpr ⟨v', (find_eq_some).mpr hmem⟩)
  refine (List.perm_ext_iff_of_nodup (hnodup _) (List.nodup_cons.mpr ⟨fun hmem => hnew _ hmem rfl, hnodup m⟩)).mpr ?_
  intro p
  rw [mem_assign, List.mem_cons]
  exact or_congr_right ⟨And.left, fun hmem => ⟨hmem, hnew p hmem⟩⟩

theorem size_assign (h : m.find k = none) : (m.assign k v).size = m.size + 1 := (perm_assign h).length_eq

/-- All entries of a list are assigned in turn. -/
def assignAll (m : OrderedMap K V) (l : List (K × V)) : OrderedMap K V := l.foldl (fun m p => m.assign p.1 p.2) m

theorem find_assignAll {l : List (K × V)} (h : l.Pairwise fun p q => p.1 ≠ q.1) :
    (m.assignAll l).find k = some v ↔ (k, v) ∈ l ∨ (∀ p ∈ l, p.1 ≠ k) ∧ m.find k = some v := by
  induction l generalizing m with
  | nil => exact ⟨fun hm => .inr ⟨nofun, hm⟩, fun hm => hm.resolve_left List.not_mem_nil |>.2⟩
  | cons p l ih =>
    obtain ⟨hp, hl⟩ := List.pairwise_cons.mp h
    change ((m.assign p.1 p.2).assignAll l).find k = some v ↔ _
    rw [ih hl, find_assign, List.mem_cons, List.forall_mem_cons]
    by_cases hk : k = p.1
    · subst hk
      rw [if_pos rfl, Option.some.injEq]
      constructor
      · rintro (hmem | ⟨-, rfl⟩)
        · exact .inl (.inr hmem)
        · exact .inl (.inl rfl)
      · rintro ((heq | hmem) | ⟨⟨hne, -⟩, -⟩)
        · exact .inr ⟨fun q hq => (hp q hq).symm, (congrArg Prod.snd heq).symm⟩
        · exact .inl hmem
        · exact absurd rfl hne
    · rw [if_neg hk]
      constructor
      · rintro (hmem | ⟨hl, hfind⟩)
        · exact .inl (.inr hmem)
        · exact .inr ⟨⟨Ne.symm hk, hl⟩, hfind⟩
      · rintro ((rfl | hmem) | ⟨⟨-, hl⟩, hfind⟩)
        · exact absurd rfl hk
        · exact .inl hmem
        · exact .inr ⟨hl, hfind⟩

/-- A map with no other keys than another becomes this by all its entries. -/
theorem assignAll_entries (h : ∀ k ∈ m.keys, k ∈ m'.keys) : m.assignAll m'.entries = m' := by
  apply ext_find
  intro k
  apply Option.ext
  intro v
  rw [find_assignAll (m'.sorted.imp fun hlt => hlt.ne), ← find_eq_some]
  constructor
  · rintro (hfind | ⟨hnone, hfind⟩)
    · exact hfind
    · obtain ⟨v', hfind'⟩ := (mem_keys).mp (h k (mem_keys.mpr ⟨v, hfind⟩))
      exact absurd rfl (hnone (k, v') (find_eq_some.mp hfind'))
  · exact .inl

def mapValues (f : V → W) (m : OrderedMap K V) : OrderedMap K W where
  entries := m.entries.map fun p => (p.1, f p.2)
  sorted := by
    rw [Sorted, List.pairwise_map]
    exact m.sorted

theorem find_mapValues (f : V → W) : (m.mapValues f).find k = (m.find k).map f := by
  apply Option.ext
  intro w
  rw [find_eq_some, Option.map_eq_some_iff, mapValues, List.mem_map]
  constructor
  · rintro ⟨⟨k, v⟩, hmem, heq⟩
    obtain ⟨rfl, rfl⟩ := Prod.mk.inj heq
    exact ⟨v, (find_eq_some).mpr hmem, rfl⟩
  · rintro ⟨v, hfind, rfl⟩
    exact ⟨(k, v), (find_eq_some).mp hfind, rfl⟩

end OrderedMap

end Containers

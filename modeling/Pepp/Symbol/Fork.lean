import Pepp.Lib.OrderedMap
import Pepp.Symbol.Tables

/-!
# Forks of symbol tables

The objects that shared pointers lead to are kept in a heap: tables, entries and
values, each under the number with which it was made. A fork makes a table, goes
through the tables of a tree three times, and remembers what it made of each
table and entry.
-/

namespace Pepp.Symbol.Fork

open Containers

/-- `symbol::Type` -/
inductive SymbolType where
  | Empty | Object | Code | Constant | PtrToSym | Deleted
  deriving DecidableEq, Repr

inductive Value where
  | empty (bytes : U8)
  | deleted
  | constant (value : MaskedBits)
  | location (pointerSize pointedSize : U16) (base offset : U64) (type : SymbolType)
  | externalPointer (ptrSize : U16) (symbolTable symbolPointer : Option Nat)
  | internalPointer (ptrSize : U16) (symbolPointer : Option Nat)
  deriving DecidableEq, Repr

structure Entry (Name : Type) where
  parent : Nat
  name : Name
  state : DefinitionState
  binding : Binding
  value : Nat
  sectionIndex : U32

structure Table (Name : Type) [LinearOrder Name] where
  parent : Option Nat
  pointerSize : U16
  children : List Nat
  nameToEntry : OrderedMap Name Nat

/-- All objects that were made. -/
structure Heap (Name : Type) [LinearOrder Name] where
  tables : List (Table Name)
  entries : List (Entry Name)
  values : List Value

structure ForkMap where
  tableMap : Nat → Option Nat
  symbolMap : Nat → Option Nat

variable {Name : Type} [LinearOrder Name]

namespace Heap

def newValue (h : Heap Name) (value : Value) : Heap Name × Nat :=
  ({ h with values := h.values ++ [value] }, h.values.length)

def newEntry (h : Heap Name) (parent : Nat) (name : Name) : Heap Name × Nat :=
  let (h, value) := h.newValue (.empty 0)
  ({ h with entries := h.entries ++ [⟨parent, name, .Undefined, .Local, value, 0⟩] }, h.entries.length)

/-- A table without parent. -/
def newTable (h : Heap Name) (pointerSize : U16) : Heap Name × Nat :=
  ({ h with tables := h.tables ++ [⟨none, pointerSize, [], .empty⟩] }, h.tables.length)

def modifyEntry (h : Heap Name) (e : Nat) (f : Entry Name → Entry Name) : Heap Name :=
  { h with entries := h.entries.modify e f }

def get (h : Heap Name) (t : Nat) (name : Name) : Option Nat := h.tables[t]?.bind fun o => o.nameToEntry.find name

/-- The entry with a name in a table, which is made when there is none. -/
def localDefinition (h : Heap Name) (t : Nat) (name : Name) : Heap Name × Nat :=
  match h.get t name with
  | some e => (h, e)
  | none =>
    let (h, e) := h.newEntry t name
    let assign (o : Table Name) : Table Name := { o with nameToEntry := o.nameToEntry.assign name e }
    ({ h with tables := h.tables.modify t assign }, e)

def selectByName (h : Heap Name) (tree : RoseTree Nat) (name : Name) : List Nat :=
  (visit tree).filterMap fun t => h.get t name

/-- The entry `definition` becomes an import of `other`, if that is global. -/
def importGlobal (pointerSize : U16) (definition : Nat) (h : Heap Name) (other : Nat) : Heap Name :=
  match h.entries[other]?.filter fun o => o.binding = .Global with
  | none => h
  | some o =>
    let (h, value) := h.newValue (.internalPointer pointerSize (some other))
    h.modifyEntry definition fun l => { l with value := value, binding := .Imported, state := o.state }

/-- `reference` on the table `t` of a tree. -/
def reference (h : Heap Name) (tree : RoseTree Nat) (t : Nat) (name : Name) : Heap Name × Nat :=
  let (h, definition) := h.localDefinition t name
  let symbols := h.selectByName tree name
  let globalCount := symbols.countP fun e => h.entries[e]?.any fun o => o.parent ≠ t ∧ o.binding = .Global
  if 1 < globalCount then
    (h.modifyEntry definition fun l => { l with state := .ExternalMultiple, binding := .Global }, definition)
  else if globalCount = 1 then
    let pointerSize := (h.tables[t]?.map Table.pointerSize).getD 0
    (symbols.foldl (importGlobal pointerSize definition) h, definition)
  else (h, definition)

end Heap

def ForkMap.empty : ForkMap := ⟨fun _ => none, fun _ => none⟩

/-- `forkTables` -/
def forkTables (toParent : Nat) (map : ForkMap) : RoseTree Nat → ForkMap
  | .node t ts => each { map with tableMap := Function.update map.tableMap t (some toParent) } ts
where
  each (map : ForkMap) : List (RoseTree Nat) → ForkMap
    | [] => map
    | t :: ts => each (forkTables toParent map t) ts

/-- What `forkSymbolRefs` makes of an entry. The table that it is made in has neither parent nor children. -/
def forkSymbolRef (toParent : Nat) (s : Heap Name × ForkMap) (e : Nat) : Option (Heap Name × ForkMap) := do
  let fromSymbol ← s.1.entries[e]?
  let (h, toSymbol) := s.1.reference (.node toParent []) toParent fromSymbol.name
  let h := h.modifyEntry toSymbol fun o =>
    { o with binding := fromSymbol.binding, state := fromSymbol.state, sectionIndex := fromSymbol.sectionIndex }
  return (h, { s.2 with symbolMap := Function.update s.2.symbolMap e (some toSymbol) })

/-- The entries of a table by their names. -/
def Heap.entriesOf (h : Heap Name) (t : Nat) : Option (List Nat) :=
  h.tables[t]?.map fun o => o.nameToEntry.entries.map Prod.snd

/-- `forkSymbolRefs`. There is no result where a pointer to no object is followed. -/
def forkSymbolRefs (toParent : Nat) (s : Heap Name × ForkMap) : RoseTree Nat → Option (Heap Name × ForkMap)
  | .node t ts => do
    let s ← (← s.1.entriesOf t).foldlM (forkSymbolRef toParent) s
    each s ts
where
  each (s : Heap Name × ForkMap) : List (RoseTree Nat) → Option (Heap Name × ForkMap)
    | [] => some s
    | t :: ts => do each (← forkSymbolRefs toParent s t) ts

/-- A pointer within the tree is mapped, and another value is cloned. -/
def Value.fork (map : ForkMap) : Value → Value
  | internalPointer ptrSize symbolPointer => internalPointer ptrSize (symbolPointer.bind map.symbolMap)
  | value => value

def forkSymbolValue (map : ForkMap) (h : Heap Name) (e : Nat) : Option (Heap Name) := do
  let fromSymbol ← h.entries[e]?
  let toSymbol ← map.symbolMap e
  let value ← h.values[fromSymbol.value]?
  let (h, clone) := h.newValue (value.fork map)
  return h.modifyEntry toSymbol fun o => { o with value := clone }

/-- `forkSymbolValues`, which is for one table. -/
def forkSymbolValues (map : ForkMap) (h : Heap Name) (t : Nat) : Option (Heap Name) := do
  (← h.entriesOf t).foldlM (forkSymbolValue map) h

/-- `fork` -/
def fork (h : Heap Name) (tree : RoseTree Nat) : Option (Heap Name × ForkMap) := do
  let root ← h.tables[tree.value]?
  let (h, toParent) := h.newTable root.pointerSize
  let map := forkTables toParent .empty tree
  let (h, map) ← forkSymbolRefs toParent (h, map) tree
  let h ← forkSymbolValues map h tree.value
  return (h, map)

/-! ## Copies -/

/-- The tables below a parent hang together in the form of the tree. -/
def Heap.Hangs (h : Heap Name) (parent : Option Nat) : RoseTree Nat → Prop
  | .node t ts => (∃ o, h.tables[t]? = some o ∧ o.parent = parent ∧ o.children = ts.map RoseTree.value) ∧ each t ts
where
  each (parent : Nat) : List (RoseTree Nat) → Prop
    | [] => True
    | t :: ts => h.Hangs (some parent) t ∧ each parent ts

/-- A tree of tables whose entries belong to them, and point to entries of the tree only. -/
structure Heap.WellFormed (h : Heap Name) (tree : RoseTree Nat) : Prop where
  hangs : ∃ parent, h.Hangs parent tree
  nodup : (visit tree).Nodup
  entry : ∀ t ∈ visit tree, ∀ name e, h.get t name = some e → ∃ o v, h.entries[e]? = some o ∧ o.parent = t ∧
    o.name = name ∧ h.values[o.value]? = some v ∧
      ∀ ptrSize p, v = .internalPointer ptrSize (some p) → ∃ t' ∈ visit tree, ∃ name', h.get t' name' = some p

/-- Some objects are the same in two heaps. -/
structure Heap.SameOn (h h' : Heap Name) (table entry value : Nat → Prop) : Prop where
  tables : ∀ i, table i → h'.tables[i]? = h.tables[i]?
  entries : ∀ i, entry i → h'.entries[i]? = h.entries[i]?
  values : ∀ i, value i → h'.values[i]? = h.values[i]?

/-- The objects that a heap has. -/
def Heap.Same (h h' : Heap Name) : Prop :=
  h.SameOn h' (· < h.tables.length) (· < h.entries.length) (· < h.values.length)

/-- The tree has a copy with its own tables and entries. -/
structure Copied (h : Heap Name) (tree : RoseTree Nat) (h' : Heap Name) (map : ForkMap) : Prop where
  tables : ∃ f : Nat → Nat, (∀ t ∈ visit tree, map.tableMap t = some (f t)) ∧
    (∀ t ∈ visit tree, ∀ u ∈ visit tree, f t = f u → t = u) ∧ h'.Hangs none (tree.map f)
  entries : ∀ t ∈ visit tree, ∀ t', map.tableMap t = some t' → ∀ name,
    h'.get t' name = (h.get t name).bind map.symbolMap
  entry : ∀ t ∈ visit tree, ∀ t', map.tableMap t = some t' → ∀ name e o, h.get t name = some e →
    h.entries[e]? = some o → ∃ e' value, map.symbolMap e = some e' ∧
      h'.entries[e']? = some { o with parent := t', value := value } ∧
        ∀ v, h.values[o.value]? = some v → h'.values[value]? = some (v.fork map)
  /-- Whatever else is made of the objects of the copy, the original stays. -/
  independent : ∀ h'' : Heap Name,
    h'.SameOn h'' (fun i => i < h'.tables.length ∧ ∀ t ∈ visit tree, map.tableMap t ≠ some i)
      (fun i => i < h'.entries.length ∧ ∀ t ∈ visit tree, ∀ name e, h.get t name = some e → map.symbolMap e ≠ some i)
      (fun i => i < h'.values.length ∧ ∀ t ∈ visit tree, ∀ name e e' o, h.get t name = some e →
        map.symbolMap e = some e' → h'.entries[e']? = some o → o.value ≠ i) → h.Same h''

/-! ## One table for all -/

section Tables

variable {toParent t : Nat} {s s' : Heap Name × ForkMap}

mutual

theorem tableMap_forkTables : ∀ (tree : RoseTree Nat) (map : ForkMap), t ∈ visit tree ∨ map.tableMap t = some toParent →
    (forkTables toParent map tree).tableMap t = some toParent
  | .node r ts, map, ht => by
    refine tableMap_each ts _ ?_
    rw [visit, List.mem_append, List.mem_singleton, or_assoc] at ht
    refine ht.imp_right fun h => ?_
    rcases eq_or_ne t r with rfl | hne
    · exact Function.update_self ..
    · exact (Function.update_of_ne hne ..).trans (h.resolve_left hne)

theorem tableMap_each : ∀ (ts : List (RoseTree Nat)) (map : ForkMap),
    t ∈ visit.visits ts ∨ map.tableMap t = some toParent → (forkTables.each toParent map ts).tableMap t = some toParent
  | [], map, ht => ht.resolve_left List.not_mem_nil
  | u :: us, map, ht => by
    refine tableMap_each us _ ?_
    rw [visit.visits, List.mem_append] at ht
    rcases ht with (hu | hus) | hmap
    · exact Or.inr (tableMap_forkTables u map (Or.inl hu))
    · exact Or.inl hus
    · exact Or.inr (tableMap_forkTables u map (Or.inr hmap))

end

theorem forkSymbolRef_tableMap {e : Nat} (h : forkSymbolRef toParent s e = some s') : s'.2.tableMap = s.2.tableMap := by
  rw [forkSymbolRef] at h
  obtain ⟨fromSymbol, -, hrest⟩ := Option.bind_eq_some_iff.mp h
  cases hrest
  rfl

theorem foldlM_tableMap {es : List Nat} (h : es.foldlM (forkSymbolRef toParent) s = some s') :
    s'.2.tableMap = s.2.tableMap := by
  induction es generalizing s with
  | nil =>
    cases h
    rfl
  | cons e es ih =>
    rw [List.foldlM_cons] at h
    obtain ⟨s₁, hs₁, hrest⟩ := Option.bind_eq_some_iff.mp h
    exact (ih hrest).trans (forkSymbolRef_tableMap hs₁)

mutual

theorem forkSymbolRefs_tableMap : ∀ (tree : RoseTree Nat) (s s' : Heap Name × ForkMap),
    forkSymbolRefs toParent s tree = some s' → s'.2.tableMap = s.2.tableMap
  | .node r ts, s, s', h => by
    rw [forkSymbolRefs] at h
    obtain ⟨es, -, hrest⟩ := Option.bind_eq_some_iff.mp h
    obtain ⟨s₁, hs₁, hrest⟩ := Option.bind_eq_some_iff.mp hrest
    exact (refs_each_tableMap ts s₁ s' hrest).trans (foldlM_tableMap hs₁)

theorem refs_each_tableMap : ∀ (ts : List (RoseTree Nat)) (s s' : Heap Name × ForkMap),
    forkSymbolRefs.each toParent s ts = some s' → s'.2.tableMap = s.2.tableMap
  | [], s, s', h => by
    cases h
    rfl
  | u :: us, s, s', h => by
    rw [forkSymbolRefs.each] at h
    obtain ⟨s₁, hs₁, hrest⟩ := Option.bind_eq_some_iff.mp h
    exact (refs_each_tableMap us s₁ s' hrest).trans (forkSymbolRefs_tableMap u s s₁ hs₁)

end

/-- A fork maps every table of the tree to the one that it makes. -/
theorem fork_tableMap {h h' : Heap Name} {tree : RoseTree Nat} {map : ForkMap} (hfork : fork h tree = some (h', map))
    (ht : t ∈ visit tree) : map.tableMap t = some h.tables.length := by
  rw [fork] at hfork
  obtain ⟨root, -, hrest⟩ := Option.bind_eq_some_iff.mp hfork
  obtain ⟨⟨h₁, map₁⟩, hrefs, hrest⟩ := Option.bind_eq_some_iff.mp hrest
  obtain ⟨h₂, -, hrest⟩ := Option.bind_eq_some_iff.mp hrest
  cases hrest
  rw [show map.tableMap = _ from forkSymbolRefs_tableMap _ _ _ hrefs]
  exact tableMap_forkTables tree _ (Or.inl ht)

/-- So the tables do not have copies of their own when there is more than one. -/
theorem children_of_copied {h h' : Heap Name} {tree : RoseTree Nat} {map : ForkMap} (hnodup : (visit tree).Nodup)
    (hfork : fork h tree = some (h', map)) (hcopied : Copied h tree h' map) : tree.children = [] := by
  obtain ⟨f, hf, hinj, -⟩ := hcopied.tables
  have hsame : ∀ t ∈ visit tree, f t = h.tables.length := fun t ht =>
    Option.some.inj ((hf t ht).symm.trans (fork_tableMap hfork ht))
  cases tree with
  | node r ts =>
    cases ts with
    | nil => rfl
    | cons u us =>
      cases u with
      | node c vs =>
        have hr : r ∈ visit (.node r (.node c vs :: us)) := List.mem_append_right _ (List.mem_singleton_self r)
        have hc : c ∈ visit.visits (.node c vs :: us) :=
          List.mem_append_left _ (List.mem_append_right _ (List.mem_singleton_self c))
        have hc' : c ∈ visit (.node r (.node c vs :: us)) := List.mem_append_left _ hc
        have hcr := hinj c hc' r hr ((hsame c hc').trans (hsame r hr).symm)
        rw [visit, List.nodup_append] at hnodup
        exact absurd hcr (hnodup.2.2 c hc r (List.mem_singleton_self r))

end Tables

/-! ## A single table -/

theorem modify_append {α : Type} (f : α → α) (l l' : List α) (i : Nat) :
    (l ++ l').modify (l.length + i) f = l ++ l'.modify i f := by
  induction l with
  | nil => rw [List.nil_append, List.length_nil, Nat.zero_add, List.nil_append]
  | cons a l ih =>
    rw [List.length_cons, List.cons_append, Nat.add_right_comm, List.modify_succ_cons, ih, List.cons_append]

section Single

variable {tables : List (Table Name)} {pointerSize : U16} {m : OrderedMap Name Nat} {entries : List (Entry Name)}
  {values : List Value} {name : Name}

/-- With no other table around, a reference to a new name makes an entry and no more. -/
theorem reference_new (hname : m.find name = none) :
    (⟨tables ++ [⟨none, pointerSize, [], m⟩], entries, values⟩ : Heap Name).reference (.node tables.length [])
      tables.length name =
        (⟨tables ++ [⟨none, pointerSize, [], m.assign name entries.length⟩],
          entries ++ [⟨tables.length, name, .Undefined, .Local, values.length, 0⟩], values ++ [.empty 0]⟩,
            entries.length) := by
  have hdefinition : (⟨tables ++ [⟨none, pointerSize, [], m⟩], entries, values⟩ : Heap Name).localDefinition
      tables.length name = (⟨tables ++ [⟨none, pointerSize, [], m.assign name entries.length⟩],
        entries ++ [⟨tables.length, name, .Undefined, .Local, values.length, 0⟩], values ++ [.empty 0]⟩,
          entries.length) := by
    rw [Heap.localDefinition, Heap.get]
    simp only [List.getElem?_concat_length, Option.bind_some, hname, Heap.newEntry, Heap.newValue, RoseTree.modify_concat]
  have hselect : (⟨tables ++ [⟨none, pointerSize, [], m.assign name entries.length⟩],
      entries ++ [⟨tables.length, name, .Undefined, .Local, values.length, 0⟩], values ++ [.empty 0]⟩ :
        Heap Name).selectByName (.node tables.length []) name = [entries.length] := by
    have hget : (m.assign name entries.length).find name = some entries.length := by
      rw [OrderedMap.find_assign, if_pos rfl]
    rw [Heap.selectByName, visit, visit.visits, List.nil_append, List.filterMap_cons, Heap.get,
      List.getElem?_concat_length]
    simp only [Option.bind_some, hget, List.filterMap_nil]
  rw [Heap.reference, hdefinition]
  dsimp only
  rw [hselect]
  simp only [List.countP_singleton, List.getElem?_concat_length]
  simp

theorem forkSymbolRef_new (hname : m.find name = none) {e : Nat} {fromSymbol : Entry Name} {map : ForkMap}
    (he : entries[e]? = some fromSymbol) (hsame : fromSymbol.name = name) :
    forkSymbolRef tables.length (⟨tables ++ [⟨none, pointerSize, [], m⟩], entries, values⟩, map) e =
      some (⟨tables ++ [⟨none, pointerSize, [], m.assign name entries.length⟩],
        entries ++ [{ fromSymbol with parent := tables.length, value := values.length }], values ++ [.empty 0]⟩,
          { map with symbolMap := Function.update map.symbolMap e (some entries.length) }) := by
  have hreference := @reference_new _ _ tables pointerSize m entries values name hname
  rw [forkSymbolRef, he]
  simp only [bind, Option.bind, hsame, hreference, Heap.modifyEntry, RoseTree.modify_concat]
  rfl

end Single

section Root

variable {h : Heap Name} {t : Nat} {o : Table Name}

/-- After some entries of the only table have been made in a new one, which is empty before. -/
structure Refs (h : Heap Name) (pointerSize : U16) (start : ForkMap) (made : List (Name × Nat))
    (s : Heap Name × ForkMap) (m : OrderedMap Name Nat) (copies : List (Entry Name)) : Prop where
  heap : s.1 = ⟨h.tables ++ [⟨none, pointerSize, [], m⟩], h.entries ++ copies,
    h.values ++ List.replicate made.length (.empty 0)⟩
  tableMap : s.2.tableMap = start.tableMap
  length : copies.length = made.length
  find : ∀ (i : Nat) (p : Name × Nat), made[i]? = some p → m.find p.1 = some (h.entries.length + i)
  absent : ∀ name, name ∉ made.map Prod.fst → m.find name = none
  copy : ∀ (i : Nat) (p : Name × Nat) (o : Entry Name), made[i]? = some p → h.entries[p.2]? = some o →
    copies[i]? = some { o with parent := h.tables.length, value := h.values.length + i }
  symbol : ∀ (i : Nat) (p : Name × Nat), made[i]? = some p → s.2.symbolMap p.2 = some (h.entries.length + i)

theorem getElem?_concat_iff {α : Type} {l : List α} {a b : α} {i : Nat} :
    (l ++ [a])[i]? = some b ↔ l[i]? = some b ∨ i = l.length ∧ a = b := by
  rw [List.getElem?_append]
  split
  · next hlt => simp [hlt.ne]
  · next hge =>
    rw [List.getElem?_eq_none (Nat.not_lt.mp hge), List.getElem?_singleton]
    split
    · simp
      omega
    · simp
      omega

theorem Refs.step {pointerSize : U16} {start : ForkMap} {made : List (Name × Nat)} {s : Heap Name × ForkMap}
    {m : OrderedMap Name Nat} {copies : List (Entry Name)} (hs : Refs h pointerSize start made s m copies)
    {p : Name × Nat} {fromSymbol : Entry Name} (hnew : p.1 ∉ made.map Prod.fst)
    (he : h.entries[p.2]? = some fromSymbol) (hname : fromSymbol.name = p.1) (hentry : p.2 ∉ made.map Prod.snd) :
    ∃ s' m' copies', forkSymbolRef h.tables.length s p.2 = some s' ∧
      Refs h pointerSize start (made ++ [p]) s' m' copies' := by
  obtain ⟨heap, map⟩ := s
  obtain rfl := hs.heap
  have hlt : p.2 < h.entries.length := (List.getElem?_eq_some_iff.mp he).1
  have hold : (h.entries ++ copies)[p.2]? = some fromSymbol := by rw [List.getElem?_append_left hlt, he]
  have hentries : (h.entries ++ copies).length = h.entries.length + made.length := by
    rw [List.length_append, hs.length]
  have hvalues : (h.values ++ List.replicate made.length (Value.empty 0)).length = h.values.length + made.length := by
    rw [List.length_append, List.length_replicate]
  refine ⟨_, m.assign p.1 (h.entries.length + made.length),
    copies ++ [{ fromSymbol with parent := h.tables.length, value := h.values.length + made.length }],
      forkSymbolRef_new (hs.absent p.1 hnew) hold hname, ?_⟩
  rw [hentries, hvalues]
  constructor
  · rw [List.append_assoc, List.append_assoc, List.length_append, List.replicate_add]
    rfl
  · exact hs.tableMap
  · rw [List.length_append, List.length_append, hs.length]
    rfl
  · intro i q hq
    rw [OrderedMap.find_assign]
    rcases getElem?_concat_iff.mp hq with hq | ⟨rfl, rfl⟩
    · have hne : q.1 ≠ p.1 := fun heq => hnew (heq ▸ List.mem_map_of_mem (List.mem_of_getElem? hq))
      rw [if_neg hne]
      exact hs.find i q hq
    · exact if_pos rfl
  · intro name hname
    rw [List.map_append, List.mem_append, not_or, List.map_singleton, List.mem_singleton] at hname
    rw [OrderedMap.find_assign, if_neg hname.2]
    exact hs.absent name hname.1
  · intro i q o hq ho
    rcases getElem?_concat_iff.mp hq with hq | ⟨rfl, rfl⟩
    · exact getElem?_concat_iff.mpr (Or.inl (hs.copy i q o hq ho))
    · obtain rfl := Option.some.inj (he.symm.trans ho)
      exact getElem?_concat_iff.mpr (Or.inr ⟨hs.length.symm, rfl⟩)
  · intro i q hq
    rcases getElem?_concat_iff.mp hq with hq | ⟨rfl, rfl⟩
    · have hne : q.2 ≠ p.2 := fun heq => hentry (heq ▸ List.mem_map_of_mem (List.mem_of_getElem? hq))
      exact (Function.update_of_ne hne ..).trans (hs.symbol i q hq)
    · exact Function.update_self ..

section Loops

variable {l : List (Name × Nat)} (hnames : (l.map Prod.fst).Nodup)
  (hentries : ∀ p ∈ l, ∃ o v, h.entries[p.2]? = some o ∧ o.name = p.1 ∧ h.values[o.value]? = some v)

include hnames hentries in
theorem Refs.fold (pointerSize : U16) (start : ForkMap) {made : List (Name × Nat)} (hmade : made <+: l) :
    ∃ s m copies, (made.map Prod.snd).foldlM (forkSymbolRef h.tables.length)
        (⟨h.tables ++ [⟨none, pointerSize, [], .empty⟩], h.entries, h.values⟩, start) = some s ∧
      Refs h pointerSize start made s m copies := by
  induction made using List.reverseRecOn with
  | nil =>
    refine ⟨_, .empty, [], rfl, ?_⟩
    constructor
    · rw [List.append_nil, List.length_nil, List.replicate_zero, List.append_nil]
    · rfl
    · rfl
    · intro i p hp
      cases hp
    · intro name _
      exact OrderedMap.find_empty
    · intro i p o hp
      cases hp
    · intro i p hp
      cases hp
  | append_singleton made p ih =>
    obtain ⟨s, m, copies, hfold, hs⟩ := ih ((List.prefix_append _ _).trans hmade)
    have hp : p ∈ l := hmade.subset (List.mem_append_right _ (List.mem_singleton_self p))
    obtain ⟨o, -, ho, hname, -⟩ := hentries p hp
    have hnew : p.1 ∉ made.map Prod.fst := by
      have hnodup := hnames.sublist (hmade.sublist.map Prod.fst)
      rw [List.map_append, List.nodup_append] at hnodup
      exact fun hmem => hnodup.2.2 p.1 hmem p.1 (List.mem_singleton_self _) rfl
    have hentry : p.2 ∉ made.map Prod.snd := by
      intro hmem
      obtain ⟨q, hq, heq⟩ := List.mem_map.mp hmem
      obtain ⟨o', -, ho', hname', -⟩ := hentries q (hmade.subset (List.mem_append_left _ hq))
      rw [heq, ho] at ho'
      cases ho'
      exact hnew (hname ▸ hname' ▸ List.mem_map_of_mem hq)
    obtain ⟨s', m', copies', hstep, hs'⟩ := hs.step hnew ho hname hentry
    refine ⟨s', m', copies', ?_, hs'⟩
    rw [List.map_append, List.foldlM_append, hfold]
    change List.foldlM (forkSymbolRef h.tables.length) s [p.2] = some s'
    rw [List.foldlM_cons, hstep]
    rfl

/-- After the values of some entries have been cloned. -/
structure Clones (h : Heap Name) (map : ForkMap) (l cloned : List (Name × Nat)) (copies : List (Entry Name))
    (values : List Value) : Prop where
  copy : ∀ (i : Nat) (p : Name × Nat) (o : Entry Name), l[i]? = some p → h.entries[p.2]? = some o →
    ∃ value, h.values.length ≤ value ∧ copies[i]? = some { o with parent := h.tables.length, value := value } ∧
      (i < cloned.length → ∀ v, h.values[o.value]? = some v → (h.values ++ values)[value]? = some (v.fork map))

theorem Clones.step {map : ForkMap} {cloned : List (Name × Nat)} {copies : List (Entry Name)} {values : List Value}
    {tables : List (Table Name)} (hc : Clones h map l cloned copies values) {p : Name × Nat} {o : Entry Name}
    {v : Value} (hp : l[cloned.length]? = some p) (ho : h.entries[p.2]? = some o) (hv : h.values[o.value]? = some v)
    (hsymbol : map.symbolMap p.2 = some (h.entries.length + cloned.length)) :
    ∃ copies' values', forkSymbolValue map ⟨tables, h.entries ++ copies, h.values ++ values⟩ p.2 =
      some ⟨tables, h.entries ++ copies', h.values ++ values'⟩ ∧ Clones h map l (cloned ++ [p]) copies' values' := by
  have hlt : p.2 < h.entries.length := (List.getElem?_eq_some_iff.mp ho).1
  have hvlt : o.value < h.values.length := (List.getElem?_eq_some_iff.mp hv).1
  refine ⟨copies.modify cloned.length fun o => { o with value := (h.values ++ values).length },
    values ++ [v.fork map], ?_, ⟨fun i q o' hq ho' => ?_⟩⟩
  · rw [forkSymbolValue]
    simp only [List.getElem?_append_left hlt, ho, hsymbol, List.getElem?_append_left hvlt, hv, bind, Option.bind,
      Heap.newValue, Heap.modifyEntry, modify_append, List.append_assoc]
    rfl
  · obtain ⟨value, hvalue, hcopy, hdone⟩ := hc.copy i q o' hq ho'
    rw [List.getElem?_modify, hcopy]
    rcases Nat.lt_trichotomy i cloned.length with hi | rfl | hi
    · refine ⟨value, hvalue, congrArg some (if_neg hi.ne'), fun _ v hv => ?_⟩
      have hold := hdone hi v hv
      rw [← List.append_assoc, List.getElem?_append_left (List.getElem?_eq_some_iff.mp hold).1, hold]
    · cases hp.symm.trans hq
      cases ho.symm.trans ho'
      refine ⟨(h.values ++ values).length, ?_, congrArg some (if_pos rfl), fun _ v' hv' => ?_⟩
      · rw [List.length_append]
        exact Nat.le_add_right _ _
      · cases hv.symm.trans hv'
        rw [← List.append_assoc, List.getElem?_concat_length]
    · refine ⟨value, hvalue, congrArg some (if_neg hi.ne), fun hlt => ?_⟩
      rw [List.length_append, List.length_singleton] at hlt
      exact absurd hlt (by omega)

include hentries in
theorem Clones.fold {map : ForkMap} {copies : List (Entry Name)} {values : List Value} {tables : List (Table Name)}
    (hc : Clones h map l [] copies values)
    (hsymbol : ∀ i p, l[i]? = some p → map.symbolMap p.2 = some (h.entries.length + i))
    {cloned : List (Name × Nat)} (hcloned : cloned <+: l) :
    ∃ copies' values', (cloned.map Prod.snd).foldlM (forkSymbolValue map)
        ⟨tables, h.entries ++ copies, h.values ++ values⟩ =
          some ⟨tables, h.entries ++ copies', h.values ++ values'⟩ ∧ Clones h map l cloned copies' values' := by
  induction cloned using List.reverseRecOn with
  | nil => exact ⟨copies, values, rfl, hc⟩
  | append_singleton cloned p ih =>
    obtain ⟨copies₁, values₁, hfold, hc₁⟩ := ih ((List.prefix_append _ _).trans hcloned)
    have hp : l[cloned.length]? = some p := by
      obtain ⟨rest, rfl⟩ := hcloned
      rw [List.append_assoc, List.getElem?_append_right le_rfl, Nat.sub_self]
      rfl
    obtain ⟨o, v, ho, -, hv⟩ := hentries p (List.mem_of_getElem? hp)
    obtain ⟨copies', values', hstep, hc'⟩ := @Clones.step _ _ h l map cloned copies₁ values₁ tables hc₁ p o v hp ho hv
      (hsymbol _ p hp)
    refine ⟨copies', values', ?_, hc'⟩
    rw [List.map_append, List.foldlM_append, hfold]
    change List.foldlM (forkSymbolValue map) _ [p.2] = _
    rw [List.foldlM_cons, hstep]
    rfl

end Loops

theorem get_eq (ho : h.tables[t]? = some o) (name : Name) : h.get t name = o.nameToEntry.find name := by
  rw [Heap.get, ho]
  rfl

/-- The result of a fork of a single table. -/
theorem fork_eq (ho : h.tables[t]? = some o)
    (hentries : ∀ p ∈ o.nameToEntry.entries, ∃ e v, h.entries[p.2]? = some e ∧ e.name = p.1 ∧
      h.values[e.value]? = some v) :
    ∃ s m made copies values,
      Refs h o.pointerSize (forkTables h.tables.length .empty (.node t [])) o.nameToEntry.entries s m made ∧
      Clones h s.2 o.nameToEntry.entries o.nameToEntry.entries copies values ∧
      fork h (.node t []) =
        some (⟨h.tables ++ [⟨none, o.pointerSize, [], m⟩], h.entries ++ copies, h.values ++ values⟩, s.2) := by
  have hnames : (o.nameToEntry.entries.map Prod.fst).Nodup := OrderedMap.nodup_keys
  obtain ⟨⟨h₁, map⟩, m, made, hrefs, hs⟩ := Refs.fold hnames hentries o.pointerSize
    (forkTables h.tables.length .empty (.node t [])) (List.prefix_refl _)
  have hheap : h₁ = ⟨h.tables ++ [⟨none, o.pointerSize, [], m⟩], h.entries ++ made,
    h.values ++ List.replicate o.nameToEntry.entries.length (.empty 0)⟩ := hs.heap
  have hc : Clones h map o.nameToEntry.entries [] made (List.replicate o.nameToEntry.entries.length (.empty 0)) :=
    ⟨fun i p e hp he => ⟨_, Nat.le_add_right _ i, hs.copy i p e hp he, fun hlt => absurd hlt (Nat.not_lt_zero i)⟩⟩
  obtain ⟨copies, values, hvalues, hc'⟩ := @Clones.fold _ _ h _ hentries map made _
    (h.tables ++ [⟨none, o.pointerSize, [], m⟩]) hc hs.symbol _ (List.prefix_refl _)
  rw [← hheap] at hvalues
  refine ⟨_, m, made, copies, values, hs, hc', ?_⟩
  have hroot : ∀ new : Table Name, (h.tables ++ [new])[t]? = some o := fun new => by
    rw [List.getElem?_append_left (List.getElem?_eq_some_iff.mp ho).1, ho]
  have hrefs' : forkSymbolRefs h.tables.length (⟨h.tables ++ [⟨none, o.pointerSize, [], .empty⟩], h.entries, h.values⟩,
      forkTables h.tables.length .empty (.node t [])) (.node t []) = some (h₁, map) := by
    rw [forkSymbolRefs, Heap.entriesOf, hroot]
    change (List.foldlM (forkSymbolRef h.tables.length) _ (o.nameToEntry.entries.map Prod.snd) >>= _) = _
    rw [hrefs]
    rfl
  have hvalues' : forkSymbolValues map h₁ t =
      (o.nameToEntry.entries.map Prod.snd).foldlM (forkSymbolValue map) h₁ := by
    rw [forkSymbolValues, Heap.entriesOf, hheap, hroot]
    rfl
  change (h.tables[t]?.bind fun root => _) = _
  rw [ho, Option.bind_some]
  change (forkSymbolRefs h.tables.length (_, _) _).bind _ = _
  rw [hrefs']
  change (forkSymbolValues map h₁ t).bind _ = _
  rw [hvalues', hvalues]
  rfl

theorem mem_visit_single {t' : Nat} (h : t' ∈ visit (.node t [])) : t' = t := List.mem_singleton.mp h

/-- A fork copies a table without children. -/
theorem fork_single (hw : h.WellFormed (.node t [])) :
    ∃ h' map, fork h (.node t []) = some (h', map) ∧ Copied h (.node t []) h' map := by
  obtain ⟨-, ⟨o, ho, -, -⟩, -⟩ := hw.hangs
  have hentries : ∀ p ∈ o.nameToEntry.entries, ∃ e v, h.entries[p.2]? = some e ∧ e.name = p.1 ∧
      h.values[e.value]? = some v := by
    intro p hp
    obtain ⟨e, v, he, -, hname, hv, -⟩ := hw.entry t (List.mem_singleton_self t) p.1 p.2
      ((get_eq ho p.1).trans (OrderedMap.find_eq_some.mpr hp))
    exact ⟨e, v, he, hname, hv⟩
  obtain ⟨⟨h₁, map⟩, m, made, copies, values, hs, hc, hfork⟩ := fork_eq ho hentries
  refine ⟨_, map, hfork, ?_⟩
  have hmap : map.tableMap t = some h.tables.length := fork_tableMap hfork (List.mem_singleton_self t)
  have hnew : ∀ name, (⟨h.tables ++ [⟨none, o.pointerSize, [], m⟩], h.entries ++ copies, h.values ++ values⟩ :
      Heap Name).get h.tables.length name = m.find name := fun name => by
    rw [Heap.get, List.getElem?_concat_length]
    rfl
  -- every entry of the table has a position
  have hposition : ∀ name e, h.get t name = some e → ∃ i < o.nameToEntry.entries.length,
      o.nameToEntry.entries[i]? = some (name, e) := by
    intro name e he
    rw [get_eq ho] at he
    obtain ⟨i, hi⟩ := List.getElem?_of_mem (OrderedMap.find_eq_some.mp he)
    exact ⟨i, (List.getElem?_eq_some_iff.mp hi).1, hi⟩
  have hcopy : ∀ name e o', h.get t name = some e → h.entries[e]? = some o' → ∃ e' value,
      map.symbolMap e = some e' ∧ h.entries.length ≤ e' ∧ h.values.length ≤ value ∧
        (h.entries ++ copies)[e']? = some { o' with parent := h.tables.length, value := value } ∧
          ∀ v, h.values[o'.value]? = some v → (h.values ++ values)[value]? = some (v.fork map) := by
    intro name e o' he ho'
    obtain ⟨i, hi, hp⟩ := hposition name e he
    obtain ⟨value, hvalue, hentry, hclone⟩ := hc.copy i _ o' hp ho'
    refine ⟨_, value, hs.symbol i _ hp, Nat.le_add_right _ i, hvalue, ?_, hclone hi⟩
    rw [List.getElem?_append_right (Nat.le_add_right _ i), Nat.add_sub_cancel_left, hentry]
  constructor
  · refine ⟨fun _ => h.tables.length, fun t' ht' => mem_visit_single ht' ▸ hmap, fun t' ht' u hu _ => ?_, ?_⟩
    · rw [mem_visit_single ht', mem_visit_single hu]
    · exact ⟨⟨_, List.getElem?_concat_length, rfl, rfl⟩, trivial⟩
  · intro t' ht' u hu name
    obtain rfl := mem_visit_single ht'
    cases hmap.symm.trans hu
    rw [hnew]
    cases he : h.get t' name with
    | some e =>
      obtain ⟨i, -, hp⟩ := hposition name e he
      exact (hs.find i _ hp).trans (hs.symbol i _ hp).symm
    | none =>
      rw [get_eq ho, OrderedMap.find_eq_none] at he
      exact hs.absent name he
  · intro t' ht' u hu name e o' he ho'
    obtain rfl := mem_visit_single ht'
    cases hmap.symm.trans hu
    obtain ⟨e', value, hsymbol, -, -, hentry, hclone⟩ := hcopy name e o' he ho'
    exact ⟨e', value, hsymbol, hentry, hclone⟩
  · intro h'' hsame
    have hlocated : ∀ name e, h.get t name = some e → ∃ o', h.entries[e]? = some o' := fun name e he => by
      obtain ⟨o', -, ho', -⟩ := hw.entry t (List.mem_singleton_self t) name e he
      exact ⟨o', ho'⟩
    constructor
    · intro i hi
      rw [hsame.tables i ⟨?_, fun t' ht' heq => ?_⟩]
      · exact List.getElem?_append_left hi
      · rw [List.length_append]
        exact Nat.lt_add_right _ hi
      · rw [mem_visit_single ht', hmap] at heq
        exact absurd (Option.some.inj heq) hi.ne'
    · intro i hi
      rw [hsame.entries i ⟨?_, fun t' ht' name e he heq => ?_⟩]
      · exact List.getElem?_append_left hi
      · rw [List.length_append]
        exact Nat.lt_add_right _ hi
      · rw [mem_visit_single ht'] at he
        obtain ⟨o', ho'⟩ := hlocated name e he
        obtain ⟨e', -, hsymbol, hle, -⟩ := hcopy name e o' he ho'
        cases hsymbol.symm.trans heq
        exact absurd hi hle.not_gt
    · intro i hi
      rw [hsame.values i ⟨?_, fun t' ht' name e e' o'' he he' ho'' heq => ?_⟩]
      · exact List.getElem?_append_left hi
      · rw [List.length_append]
        exact Nat.lt_add_right _ hi
      · rw [mem_visit_single ht'] at he
        obtain ⟨o', ho'⟩ := hlocated name e he
        obtain ⟨_, value, hsymbol, -, hle, hentry, -⟩ := hcopy name e o' he ho'
        cases hsymbol.symm.trans he'
        cases hentry.symm.trans ho''
        exact absurd (lt_of_eq_of_lt heq hi) hle.not_gt

/-- A fork copies a tree of symbol tables just when it consists of one table. -/
theorem fork_copies_iff (h : Heap Name) (tree : RoseTree Nat) (hw : h.WellFormed tree) :
    (∃ h' map, fork h tree = some (h', map) ∧ Copied h tree h' map) ↔ tree.children = [] := by
  constructor
  · rintro ⟨h', map, hfork, hcopied⟩
    exact children_of_copied hw.nodup hfork hcopied
  · intro hchildren
    cases tree with
    | node t ts =>
      cases hchildren
      exact fork_single hw

/-- A table with a constant and a pointer to it. -/
def pointed : Heap Nat :=
  ⟨[⟨none, 2, [], (OrderedMap.empty.assign 0 0).assign 1 1⟩],
    [⟨0, 0, .Single, .Global, 0, 3⟩, ⟨0, 1, .Single, .Local, 1, 0⟩],
    [.constant ⟨2, 7, 0xffff⟩, .internalPointer 2 (some 0)]⟩

theorem fork_copies_pointed :
    (∃ h' map, fork pointed (.node 0 []) = some (h', map) ∧ Copied pointed (.node 0 []) h' map) ↔
      RoseTree.children (.node 0 [] : RoseTree Nat) = [] := by
  refine fork_copies_iff pointed (.node 0 []) ⟨⟨none, ⟨_, rfl, rfl, rfl⟩, trivial⟩, List.nodup_singleton 0, ?_⟩
  intro t ht name e he
  obtain rfl := mem_visit_single ht
  have hmem : (name, e) ∈ [((0 : Nat), 0), (1, 1)] :=
    OrderedMap.find_eq_some.mp ((get_eq (o := ⟨none, 2, [], _⟩) rfl name).symm.trans he)
  simp only [List.mem_cons, Prod.mk.injEq, List.not_mem_nil, or_false] at hmem
  obtain ⟨rfl, rfl⟩ | ⟨rfl, rfl⟩ := hmem
  · exact ⟨_, _, rfl, rfl, rfl, rfl, by rintro _ _ ⟨⟩⟩
  · refine ⟨_, _, rfl, rfl, rfl, rfl, ?_⟩
    rintro _ _ ⟨⟩
    exact ⟨0, List.mem_singleton_self 0, 0, rfl⟩

/-- Two tables with an entry of one name. -/
def nested : Heap Nat :=
  ⟨[⟨none, 2, [1], OrderedMap.empty.assign 0 0⟩, ⟨some 0, 2, [], OrderedMap.empty.assign 0 1⟩],
    [⟨0, 0, .Single, .Local, 0, 0⟩, ⟨1, 0, .Multiple, .Local, 1, 1⟩],
    [.constant ⟨2, 7, 0xffff⟩, .constant ⟨2, 8, 0xffff⟩]⟩

/-- Both tables are mapped to one. -/
theorem not_fork_copies : ¬∀ (h : Heap Nat) (tree : RoseTree Nat), h.WellFormed tree →
    ∃ h' map, fork h tree = some (h', map) ∧ Copied h tree h' map := by
  intro hall
  have hw : nested.WellFormed (.node 0 [.node 1 []]) := by
    refine ⟨⟨none, ⟨_, rfl, rfl, rfl⟩, ⟨⟨_, rfl, rfl, rfl⟩, trivial⟩, trivial⟩, by decide, fun t ht name e he => ?_⟩
    have htables : t = 1 ∨ t = 0 := by simpa [visit, visit.visits] using ht
    rcases htables with rfl | rfl
    · have hmem : (name, e) ∈ [((0 : Nat), 1)] :=
        OrderedMap.find_eq_some.mp ((get_eq (o := ⟨some 0, 2, [], _⟩) rfl name).symm.trans he)
      cases List.mem_singleton.mp hmem
      exact ⟨_, _, rfl, rfl, rfl, rfl, by rintro _ _ ⟨⟩⟩
    · have hmem : (name, e) ∈ [((0 : Nat), 0)] :=
        OrderedMap.find_eq_some.mp ((get_eq (o := ⟨none, 2, [1], _⟩) rfl name).symm.trans he)
      cases List.mem_singleton.mp hmem
      exact ⟨_, _, rfl, rfl, rfl, rfl, by rintro _ _ ⟨⟩⟩
  obtain ⟨h', map, hfork, hcopied⟩ := hall nested _ hw
  cases children_of_copied hw.nodup hfork hcopied

end Root

end Pepp.Symbol.Fork

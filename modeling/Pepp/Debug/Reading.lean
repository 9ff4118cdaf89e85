import Pepp.Debug.Archive
import Pepp.Debug.Registration

/-!
# Strings and single types are read back

A string that has no zero comes back from the pool. A type comes back if what it
refers to does, and if its members can be counted by a byte.
-/

namespace Pepp.Debug

open Containers Readers

variable {Name : Type} [LinearOrder Name] {text : Strings Name} {ar : Archives}

theorem cString_append {bytes rest : List U8} (h : 0 ∉ bytes) : cString (bytes ++ 0 :: rest) = some bytes := by
  induction bytes with
  | nil => rfl
  | cons b bytes ih =>
    obtain ⟨hb, hbytes⟩ := not_or.mp (List.mem_cons.not.mp h)
    rw [List.cons_append, cString, if_neg (Ne.symm hb), ih hbytes]
    rfl

/-- A name that comes back from its bytes in the pool. -/
structure Survives (text : Strings Name) (name : Name) : Prop where
  zero : 0 ∉ text.toUtf8 name
  fromUtf8 : text.fromUtf8 (text.toUtf8 name) = name

namespace StringInternPool

variable {pool : StringInternPool Name} {name str : Name} {strs : List Name} {i : U32}

/-- Strings that were added are in the pool, each with a zero behind it. -/
def Pooled (text : Strings Name) (pool : StringInternPool Name) : Prop :=
  ∀ name i, pool.added.find name = some i →
    ∃ before after, i = BitVec.ofNat 32 before.length ∧ pool.data = before ++ (text.toUtf8 name ++ 0 :: after)

theorem pooled_create : Pooled text create := nofun

theorem add_of_find (h : pool.added.find name = some i) : pool.add text name = (pool, i) := by rw [add, h]

theorem Pooled.add (h : Pooled text pool) (str : Name) : Pooled text (pool.add text str).1 := by
  rw [StringInternPool.add]
  cases hstr : pool.added.find str with
  | some i => exact h
  | none =>
    intro name i hname
    replace hname : (pool.added.assign str (BitVec.ofNat 32 pool.data.length)).find name = some i := hname
    rw [OrderedMap.find_assign] at hname
    split at hname
    · next heq =>
      subst heq
      refine ⟨pool.data, [], (Option.some.inj hname).symm, ?_⟩
      exact List.append_assoc _ _ _
    · obtain ⟨before, after, hi, hdata⟩ := h name i hname
      refine ⟨before, after ++ (text.toUtf8 str ++ [0]), hi, ?_⟩
      change pool.data ++ text.toUtf8 str ++ [0] = _
      rw [hdata]
      simp

theorem Pooled.addAll (h : Pooled text pool) (strs : List Name) : Pooled text (pool.addAll text strs) := by
  induction strs generalizing pool with
  | nil => exact h
  | cons str strs ih => exact ih (h.add str)

theorem find_add (str : Name) : ∃ i, (pool.add text str).1.added.find str = some i := by
  rw [StringInternPool.add]
  cases hstr : pool.added.find str with
  | some i => exact ⟨i, hstr⟩
  | none =>
    refine ⟨BitVec.ofNat 32 pool.data.length, ?_⟩
    change (pool.added.assign _ _).find str = _
    rw [OrderedMap.find_assign, if_pos rfl]

theorem find_add_of_find (h : ∃ i, pool.added.find name = some i) (str : Name) :
    ∃ i, (pool.add text str).1.added.find name = some i := by
  by_cases hne : name = str
  · subst hne
    exact find_add name
  · rw [StringInternPool.add]
    cases pool.added.find str with
    | some i => exact h
    | none =>
      change ∃ i, (pool.added.assign _ _).find name = some i
      rwa [OrderedMap.find_assign, if_neg hne]

/-- All strings get a place. -/
theorem find_addAll (h : name ∈ strs ∨ ∃ i, pool.added.find name = some i) :
    ∃ i, (pool.addAll text strs).added.find name = some i := by
  induction strs generalizing pool with
  | nil => exact h.resolve_left List.not_mem_nil
  | cons str strs ih =>
    refine ih ?_
    rcases h with hmem | hfind
    · rcases List.mem_cons.mp hmem with rfl | hmem
      · exact .inr (find_add name)
      · exact .inl hmem
    · exact .inr (find_add_of_find hfind str)

/-- A name is found at its place as long as places fit in 32 bits. -/
theorem Pooled.stringForIndex (h : Pooled text pool) (hlt : pool.data.length < 2 ^ 32) (hsurvives : Survives text name)
    (hfind : pool.added.find name = some i) {helper : SerializationHelper Name} (hdata : helper.strs.data = pool.data) :
    helper.stringForIndex text i = .ok name := by
  obtain ⟨before, after, rfl, hpool⟩ := h name i hfind
  have hplace : (BitVec.ofNat 32 before.length).toNat = before.length := by
    rw [hpool, List.length_append] at hlt
    rw [BitVec.toNat_ofNat, Nat.mod_eq_of_lt (by omega)]
  rw [SerializationHelper.stringForIndex, hdata, hplace, hpool, List.drop_left, cString_append hsurvives.zero]
  exact congrArg Except.ok hsurvives.fromUtf8

end StringInternPool

/-- A count that fits is read back. -/
theorem Archives.reads_count (ar : Archives) {n : Nat} (h : n < 2 ^ 16) :
    ∃ v : U16, v.toNat = n ∧ Reads ar.readU16 (ar.writeU16 (BitVec.ofNat 16 n)) v := by
  refine ⟨BitVec.ofNat 16 n, ?_, ar.reads_u16 _⟩
  rw [BitVec.toNat_ofNat, Nat.mod_eq_of_lt h]

section Types

variable {h h' : SerializationHelper Name}

/-- The index that one side writes for a type is the type to the other. -/
def Known (h h' : SerializationHelper Name) (t : BoxedType Name) : Prop :=
  ∃ i, h.indexForType t = .ok i ∧ h'.typeForIndex i = .ok t

/-- One side has the name in its pool, and the other finds it there. -/
def Readable (text : Strings Name) (h h' : SerializationHelper Name) (name : Name) : Prop :=
  ∃ i, h.strs.added.find name = some i ∧ h'.stringForIndex text i = .ok name

theorem Readable.index {name : Name} (hname : Readable text h h' name) :
    ∃ i, h.indexForString text name = (h, i) ∧ h'.stringForIndex text i = .ok name := by
  obtain ⟨i, hfind, hread⟩ := hname
  refine ⟨i, ?_, hread⟩
  rw [SerializationHelper.indexForString, StringInternPool.add_of_find hfind]

/-- The members, as many as are announced. -/
theorem reads_members : ∀ members : Members Name, (∀ t ∈ members.types, Known h h' t) →
    (∀ name ∈ members.names, Readable text h h' name) → ∃ bytes, serializeMembers text ar h members = .ok (bytes, h) ∧
      Reads (readMembers text ar h' members.length) bytes members
  | .nil, _, _ => ⟨[], rfl, reads_pure _⟩
  | .cons name t offset members, htypes, hnames => by
    obtain ⟨ht, htypes⟩ := List.forall_mem_cons.mp htypes
    obtain ⟨hname, hnames⟩ := List.forall_mem_cons.mp hnames
    obtain ⟨bytes, hwrite, hread⟩ := reads_members members htypes hnames
    obtain ⟨typeIndex, hindex, htype⟩ := ht
    obtain ⟨nameIndex, hstring, hname⟩ := hname.index
    refine ⟨ar.writeU32 nameIndex ++ (ar.writeU16 typeIndex ++ (ar.writeU16 offset ++ bytes)), ?_, ?_⟩
    · rw [serializeMembers, hstring]
      dsimp only
      rw [hindex, hwrite]
      rfl
    · refine (ar.reads_u32 _).bind (.of_lift hname ((ar.reads_u16 _).bind (.of_lift htype ((ar.reads_u16 _).bind ?_))))
      exact hread.bind_last (reads_pure _)

def BoxedType.memberCount : BoxedType Name → Nat
  | struct _ members => members.length
  | _ => 0

theorem Primitives.ofU8_toU8 (p : Primitives) : ofU8 p.toU8 = .ok p := by
  cases p <;> rfl

theorem reads_type (t : BoxedType Name) (hparts : ∀ u ∈ t.parts, Known h h' u)
    (hnames : ∀ name ∈ t.memberNames, Readable text h h' name) (hcount : t.memberCount < 2 ^ 8) :
    ∃ bytes, serializeType text ar h t = .ok (bytes, h) ∧ Reads (readType text ar h') bytes t := by
  cases t with
  | never => exact ⟨ar.writeU8 0, rfl, (ar.reads_u8 0).bind_last (reads_pure _)⟩
  | primitive p =>
    refine ⟨ar.writeU8 1 ++ ar.writeU8 p.toU8, rfl, (ar.reads_u8 1).bind ?_⟩
    exact (ar.reads_u8 p.toU8).bind_last (.of_lift p.ofU8_toU8 (reads_pure _))
  | pointer n t =>
    obtain ⟨i, hindex, ht⟩ := hparts t (List.mem_singleton_self t)
    refine ⟨ar.writeU8 2 ++ (ar.writeU8 n ++ ar.writeU16 i), ?_, ?_⟩
    · rw [serializeType, hindex]
      rfl
    · refine (ar.reads_u8 2).bind ((ar.reads_u8 n).bind ?_)
      exact (ar.reads_u16 i).bind_last (.of_lift ht (reads_pure _))
  | array n k t =>
    obtain ⟨i, hindex, ht⟩ := hparts t (List.mem_singleton_self t)
    refine ⟨ar.writeU8 3 ++ (ar.writeU8 n ++ (ar.writeU16 k ++ ar.writeU16 i)), ?_, ?_⟩
    · rw [serializeType, hindex]
      rfl
    · refine (ar.reads_u8 3).bind ((ar.reads_u8 n).bind ((ar.reads_u16 k).bind ?_))
      exact (ar.reads_u16 i).bind_last (.of_lift ht (reads_pure _))
  | struct n members =>
    obtain ⟨bytes, hwrite, hread⟩ := reads_members members hparts hnames
    refine ⟨ar.writeU8 4 ++ (ar.writeU8 n ++ (ar.writeU8 (BitVec.ofNat 8 members.length) ++ bytes)), ?_, ?_⟩
    · rw [serializeType, hwrite]
      rfl
    · refine (ar.reads_u8 4).bind ((ar.reads_u8 n).bind ((ar.reads_u8 _).bind ?_))
      replace hcount : members.length < 2 ^ 8 := hcount
      rw [BitVec.toNat_ofNat, Nat.mod_eq_of_lt hcount]
      exact hread.bind_last (reads_pure _)

end Types

end Pepp.Debug

/-! ## Types are registered again

Reading boxes the types in the order in which they were registered. Each is new
and its parts are there, so it gets the handle that it had. -/

namespace Pepp.Debug

open Containers Readers

variable {Name : Type} [LinearOrder Name] {text : Strings Name} {ar : Archives}

namespace DirectTypes

variable {d : DirectTypes Name} {ts : List (BoxedType Name)} {t u : BoxedType Name}

/-- A type is registered unless it is there. -/
def put (self : DirectTypes Name) (t : BoxedType Name) : DirectTypes Name :=
  match self.directTypes.find t with
  | some _ => self
  | none => (self.insert t).1

theorem put_of_mem (h : t ∈ d.directTypes.keys) : d.put t = d := by
  obtain ⟨entry, hfind⟩ := OrderedMap.mem_keys.mp h
  rw [put, hfind]

theorem put_of_not_mem (h : t ∉ d.directTypes.keys) : d.put t = (d.insert t).1 := by
  rw [put, OrderedMap.find_eq_none.mpr h]

theorem mem_keys_put : u ∈ (d.put t).directTypes.keys ↔ u = t ∨ u ∈ d.directTypes.keys := by
  by_cases h : t ∈ d.directTypes.keys
  · rw [put_of_mem h]
    exact ⟨.inr, fun hu => hu.elim (fun heq => heq ▸ h) id⟩
  · rw [put_of_not_mem h]
    change u ∈ (d.directTypes.assign _ _).keys ↔ _
    rw [OrderedMap.mem_keys, OrderedMap.mem_keys, OrderedMap.find_assign]
    by_cases heq : u = t
    · rw [if_pos heq]
      exact ⟨fun _ => .inl heq, fun _ => ⟨_, rfl⟩⟩
    · rw [if_neg heq]
      exact ⟨.inr, fun hu => hu.resolve_left heq⟩

theorem findOrInsert_self : (d.findOrInsert t d).1 = d.put t := by
  rw [findOrInsert, put]
  cases d.directTypes.find t <;> rfl

theorem addOrGetDirect_of_mem (h : t ∈ d.directTypes.keys) : (d.addOrGetDirect t).1 = d := by
  obtain ⟨entry, hfind⟩ := OrderedMap.mem_keys.mp h
  have hfound : ∀ registered, (d.findOrInsert t registered).1 = d := by
    intro registered
    rw [findOrInsert, hfind]
  cases t with
  | _ => exact hfound _

theorem registerMembers_known : ∀ members : Members Name, (∀ t ∈ members.types, t ∈ d.directTypes.keys) →
    d.registerMembers members = d
  | .nil, _ => rfl
  | .cons _ t _ members, h => by
    obtain ⟨ht, hmembers⟩ := List.forall_mem_cons.mp h
    rw [registerMembers, addOrGetDirect_of_mem ht]
    exact registerMembers_known members hmembers

/-- Nothing else is registered for a type whose parts are. -/
theorem addOrGetDirect_known (h : ∀ u ∈ t.parts, u ∈ d.directTypes.keys) : (d.addOrGetDirect t).1 = d.put t := by
  cases t with
  | never => exact findOrInsert_self
  | primitive p => exact findOrInsert_self
  | pointer n t | array n k t =>
    rw [addOrGetDirect, addOrGetDirect_of_mem (h t (List.mem_singleton_self t))]
    exact findOrInsert_self
  | struct n members =>
    rw [addOrGetDirect, registerMembers_known members h]
    exact findOrInsert_self

def putAll (self : DirectTypes Name) (ts : List (BoxedType Name)) : DirectTypes Name := ts.foldl put self

theorem putAll_of_mem (h : ∀ t ∈ ts, t ∈ d.directTypes.keys) : d.putAll ts = d := by
  induction ts with
  | nil => rfl
  | cons t ts ih =>
    obtain ⟨ht, hts⟩ := List.forall_mem_cons.mp h
    rw [putAll, List.foldl_cons, put_of_mem ht]
    exact ih hts

theorem putAll_create (h : (basicTypes Name ++ ts).Nodup) : create.putAll (basicTypes Name ++ ts) = create.insertAll ts := by
  rw [putAll, List.foldl_append]
  have hbasic : create.putAll (basicTypes Name) = create := putAll_of_mem fun t ht => indexed_create.mem_keys.mpr ht
  rw [putAll] at hbasic
  rw [hbasic]
  induction ts using List.reverseRecOn with
  | nil => rfl
  | append_singleton ts t ih =>
    rw [← List.append_assoc] at h
    obtain ⟨hts, -, hdisjoint⟩ := List.nodup_append.mp h
    have hnew : t ∉ (create.insertAll ts).directTypes.keys := fun hmem =>
      hdisjoint t ((indexed_insertAll hts).mem_keys.mp hmem) t (List.mem_singleton_self t) rfl
    rw [List.foldl_concat, ih hts, put_of_not_mem hnew, insertAll_concat]

end DirectTypes

open DirectTypes

/-- The helper has the types in order, each with its place. -/
def Placed (h : SerializationHelper Name) (order : List (BoxedType Name)) : Prop :=
  h.typeToIndex.entries.Perm (order.zipIdx.map fun p => (p.1, BitVec.ofNat 16 p.2))

variable {h h' : SerializationHelper Name} {order : List (BoxedType Name)} {t : BoxedType Name} {k : Nat}

theorem placed_empty {strs : StringInternPool Name} : Placed ⟨strs, .empty⟩ [] := .refl _

theorem Placed.mem_keys (hplaced : Placed h order) : t ∈ h.typeToIndex.keys ↔ t ∈ order := by
  have hmem := (hplaced.map Prod.fst).mem_iff (a := t)
  rw [List.map_map] at hmem
  change t ∈ h.typeToIndex.keys ↔ t ∈ order.zipIdx.map Prod.fst at hmem
  rwa [List.zipIdx_map_fst] at hmem

theorem Placed.assign (hplaced : Placed h order) (ht : t ∉ order) :
    Placed { h with typeToIndex := h.typeToIndex.assign t (BitVec.ofNat 16 order.length) } (order ++ [t]) := by
  have hnone : h.typeToIndex.find t = none := OrderedMap.find_eq_none.mpr fun hmem => ht (hplaced.mem_keys.mp hmem)
  refine (OrderedMap.perm_assign hnone).trans ?_
  rw [List.zipIdx_append, List.map_append, Nat.zero_add]
  exact (hplaced.cons _).trans (List.perm_append_singleton _ _).symm

/-- A place leads to its type as long as places fit in 16 bits. -/
theorem Placed.typeForIndex (hplaced : Placed h order) (hlt : order.length < 2 ^ 16) (hk : order[k]? = some t) :
    h.typeForIndex (BitVec.ofNat 16 k) = .ok t := by
  have hmem : ∀ p : BoxedType Name × U16, p ∈ h.typeToIndex.entries ↔ ∃ j, order[j]? = some p.1 ∧ p.2 = BitVec.ofNat 16 j := by
    rintro ⟨u, i⟩
    rw [hplaced.mem_iff, List.mem_map]
    constructor
    · rintro ⟨⟨u, j⟩, hj, heq⟩
      obtain ⟨rfl, rfl⟩ := Prod.mk.inj heq
      exact ⟨j, List.mk_mem_zipIdx_iff_getElem?.mp hj, rfl⟩
    · rintro ⟨j, hj, rfl⟩
      exact ⟨(u, j), List.mk_mem_zipIdx_iff_getElem?.mpr hj, rfl⟩
  have hplace : ∀ {j u}, order[j]? = some u → BitVec.ofNat 16 k = BitVec.ofNat 16 j → t = u := by
    intro j u hj heq
    obtain ⟨hjlt, -⟩ := List.getElem?_eq_some_iff.mp hj
    obtain ⟨hklt, -⟩ := List.getElem?_eq_some_iff.mp hk
    replace heq := congrArg BitVec.toNat heq
    rw [BitVec.toNat_ofNat, BitVec.toNat_ofNat, Nat.mod_eq_of_lt (by omega), Nat.mod_eq_of_lt (by omega)] at heq
    rw [heq, hj] at hk
    exact (Option.some.inj hk).symm
  rw [SerializationHelper.typeForIndex]
  cases hfind : h.typeToIndex.entries.find? fun p => p.2 = BitVec.ofNat 16 k with
  | none =>
    have hnone := List.find?_eq_none.mp hfind (t, BitVec.ofNat 16 k) ((hmem _).mpr ⟨k, hk, rfl⟩)
    exact absurd (decide_eq_true rfl) hnone
  | some p =>
    obtain ⟨j, hj, hindex⟩ := (hmem p).mp (List.mem_of_find?_eq_some hfind)
    have hfound := List.find?_some hfind
    have heq := of_decide_eq_true hfound
    exact congrArg Except.ok (hplace hj (heq.symm.trans hindex)).symm

/-- Everything that is written about a list of types is known in time. -/
structure Writable (text : Strings Name) (h : SerializationHelper Name) (order : List (BoxedType Name)) : Prop where
  length : order.length < 2 ^ 16
  nodup : order.Nodup
  parts : ∀ (i : Nat) (t : BoxedType Name), order[i]? = some t → ∀ u ∈ t.parts, u ∈ order.take i
  index : ∀ (i : Nat) (t : BoxedType Name), order[i]? = some t → h.indexForType t = .ok (BitVec.ofNat 16 i)
  count : ∀ t ∈ order, t.memberCount < 2 ^ 8
  names : ∀ t ∈ order, ∀ name ∈ t.memberNames, ∃ i, h.strs.added.find name = some i ∧
    ∀ h' : SerializationHelper Name, h'.strs.data = h.strs.data → h'.stringForIndex text i = .ok name

/-- The types that are left are read and boxed. -/
theorem reads_types (hw : Writable text h order) (h' : SerializationHelper Name) (self : TypeInfo Name)
    (pre : List (BoxedType Name)) {post : List (BoxedType Name)} (heq : order = pre ++ post) (hdata : h'.strs.data = h.strs.data) (hplaced : Placed h' pre)
    (hkeys : ∀ t ∈ pre, t ∈ self.directTypes.keys) :
    ∃ bytes h'', serializeTypes text ar h post = .ok (bytes, h) ∧
      Reads (readTypes text ar post.length pre.length self h') bytes
        (⟨self.toDirectTypes.putAll post, self.nameToIndirect, self.indirectTypes⟩, h'') ∧
      Placed h'' order ∧ h''.strs.data = h.strs.data := by
  induction post generalizing pre h' self with
  | nil =>
    rw [List.append_nil] at heq
    subst heq
    exact ⟨[], h', rfl, reads_pure _, hplaced, hdata⟩
  | cons t post ih =>
    have hlength := hw.length
    have hnodup := hw.nodup
    rw [heq] at hlength hnodup
    obtain ⟨-, -, hdisjoint⟩ := List.nodup_append.mp hnodup
    have hnew : t ∉ pre := fun hmem => hdisjoint t hmem t List.mem_cons_self rfl
    have hplace : order[pre.length]? = some t := by rw [heq, List.getElem?_append_right (Nat.le_refl _), Nat.sub_self]; rfl
    have ht : t ∈ order := List.mem_of_getElem? hplace
    have hparts : ∀ u ∈ t.parts, u ∈ pre := by
      intro u hu
      have hmem := hw.parts pre.length t hplace u hu
      rwa [heq, List.take_left] at hmem
    have hknown : ∀ u ∈ t.parts, Known h h' u := by
      intro u hu
      obtain ⟨k, hk⟩ := List.getElem?_of_mem (hparts u hu)
      obtain ⟨hklt, -⟩ := List.getElem?_eq_some_iff.mp hk
      refine ⟨BitVec.ofNat 16 k, hw.index k u ?_, hplaced.typeForIndex ?_ hk⟩
      · rw [heq, List.getElem?_append_left hklt, hk]
      · rw [List.length_append] at hlength
        omega
    have hnames : ∀ name ∈ t.memberNames, Readable text h h' name := by
      intro name hname
      obtain ⟨i, hfind, hread⟩ := hw.names t ht name hname
      exact ⟨i, hfind, hread h' hdata⟩
    obtain ⟨bytes, hwrite, hread⟩ := reads_type t hknown hnames (hw.count t ht)
    have hput : (self.toDirectTypes.addOrGetDirect t).1 = self.toDirectTypes.put t :=
      addOrGetDirect_known fun u hu => hkeys u (hparts u hu)
    have hbox : self.box t = (⟨self.toDirectTypes.put t, self.nameToIndirect, self.indirectTypes⟩, t) := by
      rw [TypeInfo.box, TypeInfo.registerDirect, ← hput]
    have hrest : order = (pre ++ [t]) ++ post := by rw [heq, List.append_assoc]; rfl
    have hkeys' : ∀ u ∈ pre ++ [t], u ∈ (self.toDirectTypes.put t).directTypes.keys := by
      intro u hu
      rw [mem_keys_put]
      rcases List.mem_append.mp hu with hu | hu
      · exact .inr (hkeys u hu)
      · exact .inl (List.mem_singleton.mp hu)
    obtain ⟨more, h'', hwrite', hread', hplaced', hdata'⟩ :=
      ih { h' with typeToIndex := h'.typeToIndex.assign t (BitVec.ofNat 16 pre.length) }
        ⟨self.toDirectTypes.put t, self.nameToIndirect, self.indirectTypes⟩ (pre ++ [t]) hrest hdata (hplaced.assign hnew) hkeys'
    refine ⟨bytes ++ more, h'', ?_, ?_, hplaced', hdata'⟩
    · rw [serializeTypes, hwrite]
      dsimp only [bind, Except.bind]
      rw [hwrite']
      rfl
    · rw [List.length_append] at hread'
      refine hread.bind ?_
      rw [hbox]
      exact hread'

end Pepp.Debug

import Pepp.Debug.Types

/-!
# The order of registration

The registered types are those the constructor registers and then others, each
once and after its parts. Inserting them in this order gives the same map again,
handles included.
-/

namespace Pepp.Debug

open Containers

variable {Name : Type}

/-- The types that a type consists of. -/
def BoxedType.parts : BoxedType Name → List (BoxedType Name)
  | never | primitive _ => []
  | pointer _ t | array _ _ t => [t]
  | struct _ members => members.types

/-- What the constructor registers. -/
def basicTypes (Name : Type) : List (BoxedType Name) :=
  [.never, .primitive .i8, .primitive .u8, .primitive .i16, .primitive .u16, .primitive .i32, .primitive .u32]

variable [LinearOrder Name]

namespace DirectTypes

variable {d : DirectTypes Name} {ts us : List (BoxedType Name)} {t : BoxedType Name}

def insertAll (self : DirectTypes Name) (ts : List (BoxedType Name)) : DirectTypes Name :=
  ts.foldl (fun d t => (d.insert t).1) self

theorem insertAll_concat : d.insertAll (ts ++ [t]) = ((d.insertAll ts).insert t).1 := List.foldl_concat _ _ _ _

/-- The map has been grown by these types in turn. -/
structure Grown (d : DirectTypes Name) (ts : List (BoxedType Name)) : Prop where
  eq : d = create.insertAll ts
  nodup : (basicTypes Name ++ ts).Nodup
  parts : ∀ (i : Nat) (t : BoxedType Name), ts[i]? = some t → ∀ u ∈ t.parts, u ∈ basicTypes Name ++ ts.take i

/-- Every entry has its place in the order. -/
def Indexed (d : DirectTypes Name) (order : List (BoxedType Name)) : Prop :=
  (d.directTypes.entries.map fun p => (p.1, p.2.2)).Perm (order.zipIdx.map fun p => (p.1, BitVec.ofNat 16 p.2))

theorem Indexed.size (h : Indexed d us) : d.directTypes.size = us.length := by
  have hlength := h.length_eq
  rwa [List.length_map, List.length_map, List.length_zipIdx] at hlength

theorem Indexed.mem_keys (h : Indexed d us) : t ∈ d.directTypes.keys ↔ t ∈ us := by
  have hmem := (h.map Prod.fst).mem_iff (a := t)
  rw [List.map_map, List.map_map] at hmem
  change t ∈ d.directTypes.keys ↔ t ∈ us.zipIdx.map Prod.fst at hmem
  rwa [List.zipIdx_map_fst] at hmem

/-- The place of a type. -/
theorem Indexed.place (h : Indexed d us) {i : U16} :
    (∃ hnd, d.directTypes.find t = some (hnd, i)) ↔ ∃ k, us[k]? = some t ∧ i = BitVec.ofNat 16 k := by
  have hmem := h.mem_iff (a := (t, i))
  rw [List.mem_map, List.mem_map] at hmem
  constructor
  · rintro ⟨hnd, hfind⟩
    obtain ⟨⟨u, k⟩, hk, heq⟩ := hmem.mp ⟨_, OrderedMap.find_eq_some.mp hfind, rfl⟩
    obtain ⟨rfl, rfl⟩ := Prod.mk.inj heq
    exact ⟨k, List.mk_mem_zipIdx_iff_getElem?.mp hk, rfl⟩
  · rintro ⟨k, hk, rfl⟩
    obtain ⟨⟨u, hnd, j⟩, hentry, heq⟩ := hmem.mpr ⟨(t, k), List.mk_mem_zipIdx_iff_getElem?.mpr hk, rfl⟩
    obtain ⟨rfl, rfl⟩ := Prod.mk.inj heq
    exact ⟨hnd, OrderedMap.find_eq_some.mpr hentry⟩

theorem Indexed.insert (h : Indexed d us) (ht : t ∉ us) : Indexed (d.insert t).1 (us ++ [t]) := by
  have hnone : d.directTypes.find t = none := OrderedMap.find_eq_none.mpr fun hmem => ht (h.mem_keys.mp hmem)
  have hperm := (OrderedMap.perm_assign (v := ((d.insert t).2, BitVec.ofNat 16 d.directTypes.size)) hnone).map
    fun p => (p.1, p.2.2)
  refine hperm.trans ?_
  rw [List.map_cons, List.zipIdx_append, List.map_append, h.size]
  refine (h.cons _).trans ?_
  rw [Nat.zero_add]
  exact (List.perm_append_singleton _ _).symm

theorem indexed_create : Indexed create (basicTypes Name) := .refl _

theorem indexed_insertAll (h : (basicTypes Name ++ ts).Nodup) : Indexed (create.insertAll ts) (basicTypes Name ++ ts) := by
  induction ts using List.reverseRecOn with
  | nil => exact indexed_create
  | append_singleton ts t ih =>
    rw [← List.append_assoc] at h ⊢
    obtain ⟨hts, -, hdisjoint⟩ := List.nodup_append.mp h
    rw [insertAll_concat]
    exact (ih hts).insert fun hmem => hdisjoint t hmem t (List.mem_singleton_self t) rfl

theorem Grown.indexed (h : Grown d ts) : Indexed d (basicTypes Name ++ ts) := by
  rw [h.eq]
  exact indexed_insertAll h.nodup

/-- Parts come before the types that consist of them. -/
theorem Grown.parts_take (h : Grown d ts) {i : Nat} {t u : BoxedType Name}
    (hi : (basicTypes Name ++ ts)[i]? = some t) (hu : u ∈ t.parts) : u ∈ (basicTypes Name ++ ts).take i := by
  rcases Nat.lt_or_ge i (basicTypes Name).length with hlt | hge
  · have hbasic : ∀ t ∈ basicTypes Name, t.parts = [] := by simp [basicTypes, BoxedType.parts]
    rw [List.getElem?_append_left hlt] at hi
    rw [hbasic t (List.mem_of_getElem? hi)] at hu
    exact absurd hu List.not_mem_nil
  · rw [List.getElem?_append_right hge] at hi
    rw [List.take_append, List.take_of_length_le hge]
    exact h.parts _ t hi u hu

theorem grown_create : Grown create ([] : List (BoxedType Name)) := by
  constructor
  · rfl
  · rw [List.append_nil, basicTypes]
    simp
  · nofun

theorem Grown.insert (h : Grown d ts) (ht : t ∉ basicTypes Name ++ ts) (hparts : ∀ u ∈ t.parts, u ∈ basicTypes Name ++ ts) :
    Grown (d.insert t).1 (ts ++ [t]) := by
  constructor
  · rw [insertAll_concat, ← h.eq]
  · rw [← List.append_assoc]
    exact List.nodup_append.mpr ⟨h.nodup, List.nodup_singleton t, fun u hu v hv heq => ht (by
      rw [List.mem_singleton] at hv
      rwa [← hv, ← heq])⟩
  · intro i u hi v hv
    rcases Nat.lt_or_ge i ts.length with hlt | hge
    · rw [List.getElem?_append_left hlt] at hi
      rw [List.take_append_of_le_length hlt.le]
      exact h.parts i u hi v hv
    · rw [List.getElem?_append_right hge] at hi
      obtain ⟨hzero, rfl⟩ : i - ts.length = 0 ∧ t = u := by
        cases hk : i - ts.length with
        | zero =>
          rw [hk] at hi
          exact ⟨rfl, Option.some.inj hi⟩
        | succ k =>
          rw [hk] at hi
          nomatch hi
      obtain rfl : i = ts.length := by omega
      rw [List.take_left]
      exact hparts v hv

/-- What is registered for a type is no larger than it. -/
theorem Grown.findOrInsert {registered : DirectTypes Name} (h : Grown d ts) (us : List (BoxedType Name)) (hreg : Grown registered (ts ++ us))
    (hsize : ∀ u ∈ us, sizeOf u < sizeOf t) (hparts : ∀ u ∈ t.parts, u ∈ basicTypes Name ++ (ts ++ us)) :
    ∃ vs, Grown (d.findOrInsert t registered).1 (ts ++ vs) ∧ t ∈ basicTypes Name ++ (ts ++ vs) ∧
      ∀ u ∈ vs, sizeOf u ≤ sizeOf t := by
  rw [DirectTypes.findOrInsert]
  cases hfind : d.directTypes.find t with
  | some entry =>
    have hmem := h.indexed.mem_keys.mp (OrderedMap.mem_keys.mpr ⟨entry, hfind⟩)
    refine ⟨[], ?_, ?_, nofun⟩
    · rwa [List.append_nil]
    · rwa [List.append_nil]
  | none =>
    have hold : t ∉ basicTypes Name ++ ts := fun hmem => OrderedMap.find_eq_none.mp hfind (h.indexed.mem_keys.mpr hmem)
    have hnew : t ∉ basicTypes Name ++ (ts ++ us) := by
      rw [← List.append_assoc, List.mem_append]
      rintro (hmem | hmem)
      · exact hold hmem
      · exact absurd (hsize t hmem) (Nat.lt_irrefl _)
    refine ⟨us ++ [t], ?_, ?_, ?_⟩
    · rw [← List.append_assoc]
      exact hreg.insert hnew hparts
    · simp
    · intro u hu
      rcases List.mem_append.mp hu with hu | hu
      · exact (hsize u hu).le
      · rw [List.mem_singleton.mp hu]

mutual

theorem Grown.addOrGetDirect {d : DirectTypes Name} : ∀ (t : BoxedType Name) {ts : List (BoxedType Name)}, Grown d ts →
    ∃ us, Grown (d.addOrGetDirect t).1 (ts ++ us) ∧ t ∈ basicTypes Name ++ (ts ++ us) ∧ ∀ u ∈ us, sizeOf u ≤ sizeOf t
  | .never, ts, h => h.findOrInsert [] (by rwa [List.append_nil]) nofun nofun
  | .primitive p, ts, h => h.findOrInsert [] (by rwa [List.append_nil]) nofun nofun
  | .pointer n t, ts, h => by
    obtain ⟨us, hgrown, hmem, hsize⟩ := Grown.addOrGetDirect t h
    refine h.findOrInsert us hgrown (fun u hu => ?_) (fun u hu => ?_)
    · have := hsize u hu
      rw [BoxedType.pointer.sizeOf_spec]
      omega
    · rwa [List.mem_singleton.mp hu]
  | .array n k t, ts, h => by
    obtain ⟨us, hgrown, hmem, hsize⟩ := Grown.addOrGetDirect t h
    refine h.findOrInsert us hgrown (fun u hu => ?_) (fun u hu => ?_)
    · have := hsize u hu
      rw [BoxedType.array.sizeOf_spec]
      omega
    · rwa [List.mem_singleton.mp hu]
  | .struct n members, ts, h => by
    obtain ⟨us, hgrown, hmem, hsize⟩ := Grown.registerMembers members h
    refine h.findOrInsert us hgrown (fun u hu => ?_) hmem
    have := hsize u hu
    rw [BoxedType.struct.sizeOf_spec]
    omega

theorem Grown.registerMembers {d : DirectTypes Name} : ∀ (members : Members Name) {ts : List (BoxedType Name)}, Grown d ts →
    ∃ us, Grown (d.registerMembers members) (ts ++ us) ∧ (∀ t ∈ members.types, t ∈ basicTypes Name ++ (ts ++ us)) ∧
      ∀ u ∈ us, sizeOf u ≤ sizeOf members
  | .nil, ts, h => ⟨[], by rwa [List.append_nil], nofun, nofun⟩
  | .cons _ t _ members, ts, h => by
    obtain ⟨us, hgrown, hmem, hsize⟩ := Grown.addOrGetDirect t h
    obtain ⟨vs, hgrown', hmem', hsize'⟩ := Grown.registerMembers members hgrown
    rw [List.append_assoc] at hgrown' hmem'
    refine ⟨us ++ vs, hgrown', ?_, ?_⟩
    · intro u hu
      rcases List.mem_cons.mp hu with rfl | hu
      · rw [← List.append_assoc, ← List.append_assoc, List.append_assoc _ ts us]
        exact List.mem_append_left _ hmem
      · exact hmem' u hu
    · intro u hu
      rw [Members.cons.sizeOf_spec]
      rcases List.mem_append.mp hu with hu | hu
      · have := hsize u hu
        omega
      · have := hsize' u hu
        omega

end

theorem Grown.typeFrom (h : Grown d ts) (handle : DirectHandle) : d.typeFrom handle ∈ basicTypes Name ++ ts := by
  rw [DirectTypes.typeFrom]
  cases hfind : d.directTypes.entries.find? fun p => p.2.1 = handle with
  | none => exact List.mem_append_left _ List.mem_cons_self
  | some p => exact h.indexed.mem_keys.mp (List.mem_map_of_mem (List.mem_of_find?_eq_some hfind))

end DirectTypes

namespace TypeInfo

open DirectTypes

variable {empty name : Name} {info : TypeInfo Name} {ts : List (BoxedType Name)}

/-- The direct types have been grown, handle zero and its name are there, and names stand for registered types. -/
structure Sound (empty : Name) (info : TypeInfo Name) (ts : List (BoxedType Name)) : Prop where
  grown : Grown info.toDirectTypes ts
  empty : info.nameToIndirect.find empty = some ⟨0⟩
  zero : ∃ versioned, info.indirectTypes.find ⟨0⟩ = some versioned
  bound : ∀ hnd versioned, info.indirectTypes.find hnd = some versioned → versioned.type ∈ basicTypes Name ++ ts

theorem sound_create : Sound empty (create empty) [] := by
  constructor
  · exact grown_create
  · rw [create, OrderedMap.find_assign, if_pos rfl]
  · exact ⟨_, rfl⟩
  · intro hnd versioned hfind
    rw [create, OrderedMap.find_assign] at hfind
    split at hfind
    · rw [← Option.some.inj hfind]
      exact List.mem_append_left _ List.mem_cons_self
    · nomatch hfind

section

variable (h : Sound empty info ts)
include h

theorem Sound.registerDirect (t : BoxedType Name) : ∃ us, Sound empty (info.registerDirect t).1 (ts ++ us) := by
  obtain ⟨us, hgrown, -, -⟩ := h.grown.addOrGetDirect t
  refine ⟨us, hgrown, h.empty, h.zero, fun hnd versioned hfind => ?_⟩
  rw [← List.append_assoc]
  exact List.mem_append_left _ (h.bound hnd versioned hfind)

theorem Sound.assign (hnd : IndirectHandle) {versioned : VersionedType Name}
    (ht : versioned.type ∈ basicTypes Name ++ ts) :
    Sound empty { info with indirectTypes := info.indirectTypes.assign hnd versioned } ts := by
  refine ⟨h.grown, h.empty, ?_, fun hnd' versioned' hfind => ?_⟩
  · change ∃ versioned', (info.indirectTypes.assign hnd versioned).find ⟨0⟩ = some versioned'
    rw [OrderedMap.find_assign]
    split
    · exact ⟨_, rfl⟩
    · exact h.zero
  · replace hfind : (info.indirectTypes.assign hnd versioned).find hnd' = some versioned' := hfind
    rw [OrderedMap.find_assign] at hfind
    split at hfind
    · rwa [← Option.some.inj hfind]
    · exact h.bound hnd' versioned' hfind

theorem Sound.registerIndirect (name : Name) : ∃ us, Sound empty (info.registerIndirect name).1 (ts ++ us) := by
  rw [TypeInfo.registerIndirect]
  cases hname : info.nameToIndirect.find name with
  | some hnd => exact ⟨[], by rwa [List.append_nil]⟩
  | none =>
    obtain ⟨us, hsound⟩ := h.registerDirect .never
    have hnever : (⟨.never, 0⟩ : VersionedType Name).type ∈ basicTypes Name ++ (ts ++ us) :=
      List.mem_append_left _ List.mem_cons_self
    have hassign := hsound.assign ⟨BitVec.ofNat 16 info.nameToIndirect.size⟩ hnever
    refine ⟨us, hassign.grown, ?_, hassign.zero, hassign.bound⟩
    have hne : empty ≠ name := by
      rintro rfl
      exact absurd (h.empty.symm.trans hname) nofun
    change (OrderedMap.assign _ _ _).find empty = _
    rw [OrderedMap.find_assign, if_neg hne]
    exact hsound.empty

theorem Sound.setIndirectType {indirect : IndirectHandle} {direct : DirectHandle} {info' : TypeInfo Name}
    (hset : info.setIndirectType indirect direct = .ok info') : Sound empty info' ts := by
  rw [TypeInfo.setIndirectType] at hset
  have ht := h.grown.typeFrom direct
  split at hset
  · nomatch hset
  · split at hset
    · rw [← Except.ok.inj hset]
      exact h.assign indirect ht
    · rw [← Except.ok.inj hset]
      exact h.assign indirect ht

theorem Sound.perform (op : TypeOp Name) : ∃ us, Sound empty (info.perform op) (ts ++ us) := by
  have hset : ∀ indirect direct, Sound empty ((info.setIndirectType indirect direct).toOption.getD info) ts := by
    intro indirect direct
    cases heq : info.setIndirectType indirect direct with
    | error => exact h
    | ok info' => exact h.setIndirectType heq
  cases op with
  | registerDirect t => exact h.registerDirect t
  | box t => exact h.registerDirect t
  | registerIndirect name => exact h.registerIndirect name
  | setIndirectType indirect direct => exact ⟨[], by rw [List.append_nil]; exact hset indirect direct⟩
  | setIndirectTypeOf name direct =>
    refine ⟨[], ?_⟩
    rw [List.append_nil, TypeInfo.perform, setIndirectTypeOf]
    cases info.nameToIndirect.find name with
    | none => exact h
    | some indirect => exact hset indirect direct

end

theorem Reachable.sound (h : Reachable empty info) : ∃ ts, Sound empty info ts := by
  induction h with
  | create => exact ⟨[], sound_create⟩
  | perform op _ ih =>
    obtain ⟨ts, hsound⟩ := ih
    obtain ⟨us, hsound'⟩ := hsound.perform op
    exact ⟨ts ++ us, hsound'⟩

end TypeInfo

end Pepp.Debug

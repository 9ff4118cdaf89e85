import Mathlib.Data.List.Dedup
import Pepp.Debug.Registration

/-!
# Handles of direct types

A type keeps the handle it is given. The types of one kind are counted, and the
low bits of the count are the handle: it stands for one type alone as long as
the bits suffice. Parts are registered before the types that consist of them.
-/

namespace Pepp.Debug

open Containers

variable {Name : Type}

mutual

/-- A type, and what it consists of all the way down. -/
def BoxedType.closure : BoxedType Name → List (BoxedType Name)
  | .never => [.never]
  | .primitive p => [.primitive p]
  | .pointer n t => .pointer n t :: t.closure
  | .array n k t => .array n k t :: t.closure
  | .struct n members => .struct n members :: members.closure

def Members.closure : Members Name → List (BoxedType Name)
  | .nil => []
  | .cons _ t _ members => t.closure ++ members.closure

end

/-- How many of the types have the metatype `m`. -/
def countOf (m : MetaType) (ts : List (BoxedType Name)) : Nat := ts.countP fun t => t.metatype = m

theorem countOf_cons (m : MetaType) (t : BoxedType Name) (ts : List (BoxedType Name)) :
    countOf m (t :: ts) = countOf m ts + if t.metatype = m then 1 else 0 := by
  rw [countOf, List.countP_cons]
  simp [countOf]

theorem length_eq_countOf (ts : List (BoxedType Name)) : ts.length =
    countOf .Never ts + countOf .Primitive ts + countOf .Pointer ts + countOf .Array ts + countOf .Struct ts := by
  induction ts with
  | nil => rfl
  | cons t ts ih =>
    rw [List.length_cons, ih]
    simp only [countOf_cons]
    cases t.metatype <;> simp <;> omega

theorem length_le_of_room {ts : List (BoxedType Name)} (hroom : ∀ m, countOf m ts ≤ 2 ^ 13) :
    (basicTypes Name ++ ts).length < 2 ^ 16 := by
  have hbasic : (basicTypes Name).length = 7 := rfl
  have hsum := length_eq_countOf ts
  have hnever := hroom .Never
  have hprimitive := hroom .Primitive
  have hpointer := hroom .Pointer
  have harray := hroom .Array
  have hstruct := hroom .Struct
  rw [List.length_append, hbasic]
  omega

theorem mem_basicTypes {t : BoxedType Name} : t ∈ basicTypes Name ↔ t.metatype = .Never ∨ t.metatype = .Primitive := by
  constructor
  · intro h
    simp only [basicTypes, List.mem_cons, List.not_mem_nil, or_false] at h
    obtain rfl | rfl | rfl | rfl | rfl | rfl | rfl := h
    · exact .inl rfl
    all_goals exact .inr rfl
  · intro h
    cases t with
    | never => exact List.mem_cons_self
    | primitive p => cases p <;> simp [basicTypes]
    | _ => simp [BoxedType.metatype] at h

variable [LinearOrder Name]

namespace DirectTypes

variable {d : DirectTypes Name} {ts us : List (BoxedType Name)} {t u : BoxedType Name}

/-- `get_direct` -/
def getDirect (self : DirectTypes Name) (t : BoxedType Name) : Option DirectHandle :=
  (self.directTypes.find t).map Prod.fst

/-- With the type `t` there are as many types of each kind as there are handles. -/
def Room (d : DirectTypes Name) (t : BoxedType Name) : Prop :=
  ∀ m, countOf m (d.directTypes.keys ++ t.closure).dedup ≤ 2 ^ 13

theorem findOrInsert_find (self registered : DirectTypes Name) (t : BoxedType Name) :
    (self.findOrInsert t registered).1.getDirect t = some (self.findOrInsert t registered).2 := by
  rw [findOrInsert]
  cases hfind : self.directTypes.find t with
  | some entry => rw [getDirect, hfind]; rfl
  | none =>
    rw [getDirect]
    change ((registered.directTypes.assign t _).find t).map Prod.fst = _
    rw [OrderedMap.find_assign, if_pos rfl]
    rfl

/-- A type is there once it has been asked for, with the handle that is returned. -/
theorem addOrGetDirect_find (self : DirectTypes Name) (t : BoxedType Name) :
    (self.addOrGetDirect t).1.getDirect t = some (self.addOrGetDirect t).2 := by
  cases t <;> exact findOrInsert_find _ _ _

variable {entry : DirectHandle × U16} {hnd : DirectHandle}

theorem addOrGetDirect_of_find (h : d.directTypes.find t = some entry) : d.addOrGetDirect t = (d, entry.1) := by
  have hfound : ∀ registered, d.findOrInsert t registered = (d, entry.1) := by
    intro registered
    rw [findOrInsert, h]
  cases t <;> exact hfound _

/-! ## What is registered -/

theorem keys_findOrInsert {registered : DirectTypes Name} (h : u ∈ (d.findOrInsert t registered).1.directTypes.keys) :
    u = t ∨ u ∈ d.directTypes.keys ∨ u ∈ registered.directTypes.keys := by
  rw [findOrInsert] at h
  split at h
  · exact .inr (.inl h)
  · obtain ⟨v, hv⟩ := OrderedMap.mem_keys.mp h
    have hassign := (OrderedMap.mem_assign _).mp (OrderedMap.find_eq_some.mp hv)
    obtain heq | ⟨hold, -⟩ := hassign
    · exact .inl (Prod.mk.inj heq).1
    · exact .inr (.inr (OrderedMap.mem_keys.mpr ⟨v, OrderedMap.find_eq_some.mpr hold⟩))

mutual

/-- Only a type and what it consists of are added for it. -/
theorem keys_addOrGetDirect {u : BoxedType Name} : ∀ (t : BoxedType Name) {d : DirectTypes Name},
    u ∈ (d.addOrGetDirect t).1.directTypes.keys → u ∈ d.directTypes.keys ∨ u ∈ t.closure
  | .never, d, h | .primitive p, d, h => by
    obtain rfl | hold | hold := keys_findOrInsert h
    · exact .inr List.mem_cons_self
    · exact .inl hold
    · exact .inl hold
  | .pointer n t, d, h | .array n k t, d, h => by
    obtain rfl | hold | hnew := keys_findOrInsert h
    · exact .inr List.mem_cons_self
    · exact .inl hold
    · exact (keys_addOrGetDirect t hnew).imp_right (List.mem_cons_of_mem _)
  | .struct n members, d, h => by
    obtain rfl | hold | hnew := keys_findOrInsert h
    · exact .inr List.mem_cons_self
    · exact .inl hold
    · exact (keys_registerMembers members hnew).imp_right (List.mem_cons_of_mem _)

theorem keys_registerMembers {u : BoxedType Name} : ∀ (members : Members Name) {d : DirectTypes Name},
    u ∈ (d.registerMembers members).directTypes.keys → u ∈ d.directTypes.keys ∨ u ∈ members.closure
  | .nil, d, h => .inl h
  | .cons _ t _ members, d, h => by
    obtain hhead | hmembers := keys_registerMembers members h
    · exact (keys_addOrGetDirect t hhead).imp_right (List.mem_append_left _)
    · exact .inr (List.mem_append_right _ hmembers)

end

/-! ## The numbers of types -/

theorem find_insert_of_ne (h : u ≠ t) : (d.insert t).1.directTypes.find u = d.directTypes.find u := by
  rw [insert]
  exact OrderedMap.find_assign.trans (if_neg h)

theorem getDirect_insert :
    (d.insert t).1.getDirect t = some ⟨t.metatype, (d.nextDirectHandle t.metatype + 1).setWidth 13⟩ := by
  rw [getDirect, insert]
  dsimp only
  rw [OrderedMap.find_assign, if_pos rfl]
  rfl

/-- Types that are there are left as they are. -/
theorem find_insertAll (h : u ∉ ts) : (d.insertAll ts).directTypes.find u = d.directTypes.find u := by
  induction ts using List.reverseRecOn with
  | nil => rfl
  | append_singleton ts t ih =>
    rw [List.mem_append, List.mem_singleton, not_or] at h
    rw [insertAll_concat, find_insert_of_ne h.2, ih h.1]

theorem next_insertAll (m : MetaType) :
    (d.insertAll ts).nextDirectHandle m = d.nextDirectHandle m + BitVec.ofNat 16 (countOf m ts) := by
  induction ts using List.reverseRecOn with
  | nil => exact (BitVec.add_zero _).symm
  | append_singleton ts t ih =>
    rw [insertAll_concat, countOf, List.countP_append, List.countP_singleton]
    change (if m = t.metatype then (d.insertAll ts).nextDirectHandle t.metatype + 1 else
      (d.insertAll ts).nextDirectHandle m) = _
    by_cases hm : m = t.metatype
    · subst hm
      rw [if_pos rfl, if_pos (by exact decide_eq_true rfl), ih, BitVec.ofNat_add, ← BitVec.add_assoc]
      rfl
    · rw [if_neg hm, if_neg (by simpa using Ne.symm hm), ih]
      rfl

theorem next_create {m : MetaType} (h : m ≠ .Never) : (create : DirectTypes Name).nextDirectHandle m = 0 := by
  cases m with
  | Never => exact absurd rfl h
  | _ => rfl

theorem insertAll_append : d.insertAll (ts ++ us) = (d.insertAll ts).insertAll us := List.foldl_append

theorem handle_bits (n : Nat) : ((0 : U16) + BitVec.ofNat 16 n + 1).setWidth 13 = BitVec.ofNat 13 (n + 1) := by
  refine BitVec.eq_of_toNat_eq ?_
  have hzero : (0 : U16).toNat = 0 := rfl
  have hone : (1 : U16).toNat = 1 := rfl
  rw [BitVec.toNat_setWidth, BitVec.toNat_add, BitVec.toNat_add, BitVec.toNat_ofNat, BitVec.toNat_ofNat, hzero, hone]
  omega

/-- The types of a kind are numbered from one. -/
theorem Grown.getDirect_new (h : Grown d ts) {i : Nat} (hi : ts[i]? = some t) :
    d.getDirect t = some ⟨t.metatype, BitVec.ofNat 13 (countOf t.metatype (ts.take i) + 1)⟩ := by
  have hlt : i < ts.length := (List.getElem?_eq_some_iff.mp hi).1
  have hget : ts[i] = t := (List.getElem?_eq_some_iff.mp hi).2
  have hsplit : ts = (ts.take i ++ [t]) ++ ts.drop (i + 1) := by
    rw [← hget, List.take_append_getElem hlt, List.take_append_drop]
  have hnodup := h.nodup
  rw [hsplit, List.nodup_append] at hnodup
  obtain ⟨-, htail, hbasic⟩ := hnodup
  have hlater : t ∉ ts.drop (i + 1) := by
    intro hmem
    exact (List.nodup_append.mp htail).2.2 t (List.mem_append_right _ (List.mem_singleton_self t)) t hmem rfl
  have hnever : t.metatype ≠ .Never := by
    intro hmeta
    have hmem : t ∈ (ts.take i ++ [t]) ++ ts.drop (i + 1) :=
      List.mem_append_left _ (List.mem_append_right _ (List.mem_singleton_self t))
    refine hbasic .never List.mem_cons_self t hmem ?_
    cases t with
    | never => rfl
    | _ => exact nomatch hmeta
  have hfold : create.insertAll ts = (((create.insertAll (ts.take i)).insert t).1).insertAll (ts.drop (i + 1)) := by
    conv_lhs => rw [hsplit]
    rw [insertAll_append, insertAll_concat]
  rw [getDirect, h.eq, hfold, find_insertAll hlater]
  refine getDirect_insert.trans ?_
  rw [next_insertAll, next_create hnever, handle_bits]

theorem getDirect_primitive (p : Primitives) :
    (create : DirectTypes Name).getDirect (.primitive p) = some (.ofPrimitive p) := by
  cases p <;> rfl

theorem getDirect_never : (create : DirectTypes Name).getDirect .never = some ⟨.Never, 1⟩ := rfl

theorem Grown.notMem_basic (h : Grown d ts) (ht : t ∈ ts) : t ∉ basicTypes Name := by
  intro hbasic
  exact (List.nodup_append.mp h.nodup).2.2 t hbasic t ht rfl

theorem Grown.getDirect_basic (h : Grown d ts) (ht : t ∈ basicTypes Name) :
    d.getDirect t = (create : DirectTypes Name).getDirect t := by
  rw [getDirect, h.eq, find_insertAll fun hmem => h.notMem_basic hmem ht]
  rfl

/-- Handles show the kind of their types. -/
theorem Grown.metatype_eq (h : Grown d ts) (ht : d.getDirect t = some hnd) : hnd.metatype = t.metatype := by
  obtain ⟨entry, hfind, -⟩ := Option.map_eq_some_iff.mp ht
  obtain hbasic | hnew := List.mem_append.mp (h.indexed.mem_keys.mp (OrderedMap.mem_keys.mpr ⟨entry, hfind⟩))
  · rw [h.getDirect_basic hbasic] at ht
    cases t with
    | never => rw [← Option.some.inj ht]
    | primitive p =>
      rw [getDirect_primitive] at ht
      rw [← Option.some.inj ht]
      rfl
    | _ => simp [mem_basicTypes, BoxedType.metatype] at hbasic
  · obtain ⟨i, hi⟩ := List.mem_iff_getElem?.mp hnew
    rw [h.getDirect_new hi] at ht
    rw [← Option.some.inj ht]

/-- Fewer types of a kind than there are handles have distinct handles. -/
theorem Grown.distinct_new (h : Grown d ts) {m : MetaType} (hroom : countOf m ts ≤ 2 ^ 13) {i j : Nat} (hij : i < j)
    (hi : ts[i]? = some t) (hj : ts[j]? = some u) (ht : t.metatype = m) (hu : u.metatype = m) :
    d.getDirect t ≠ d.getDirect u := by
  rw [h.getDirect_new hi, h.getDirect_new hj, ht, hu]
  have hjlt : j < ts.length := (List.getElem?_eq_some_iff.mp hj).1
  have hcount : ∀ {k : Nat} {v : BoxedType Name}, ts[k]? = some v → v.metatype = m →
      countOf m (ts.take (k + 1)) = countOf m (ts.take k) + 1 := by
    intro k v hk hv
    rw [List.take_add_one, hk, countOf, List.countP_append]
    simp [countOf, hv]
  have hfirst : countOf m (ts.take i) + 1 ≤ countOf m (ts.take j) := by
    rw [← hcount hi ht]
    exact ((List.take_prefix_take_left (Nat.succ_le_of_lt hij)).sublist).countP_le
  have hsecond : countOf m (ts.take j) + 1 ≤ countOf m ts := by
    rw [← hcount hj hu]
    exact (List.take_sublist _ _).countP_le
  intro heq
  have hbits := congrArg BitVec.toNat (DirectHandle.mk.inj (Option.some.inj heq)).2
  rw [BitVec.toNat_ofNat, BitVec.toNat_ofNat] at hbits
  omega

theorem create_distinct (ht : t ∈ basicTypes Name) (hu : u ∈ basicTypes Name)
    (h : (create : DirectTypes Name).getDirect t = (create : DirectTypes Name).getDirect u) : t = u := by
  have hbasic : ∀ v ∈ basicTypes Name, v = .never ∨ ∃ p, v = .primitive p := by simp [basicTypes]
  have hprimitives : ∀ p q : Primitives, DirectHandle.ofPrimitive p = .ofPrimitive q → p = q := by
    intro p q hpq
    have hbits := congrArg (fun hnd : DirectHandle => hnd.type.setWidth 8) hpq
    exact Primitives.toU8_inj (by simpa [DirectHandle.ofPrimitive] using hbits)
  have hnever : ∀ p : Primitives, (⟨.Never, 1⟩ : DirectHandle) ≠ .ofPrimitive p := by
    intro p hp
    cases congrArg DirectHandle.metatype hp
  obtain rfl | ⟨p, rfl⟩ := hbasic t ht
  · obtain rfl | ⟨q, rfl⟩ := hbasic u hu
    · rfl
    · rw [getDirect_never, getDirect_primitive] at h
      exact absurd (Option.some_inj.mp h) (hnever q)
  · obtain rfl | ⟨q, rfl⟩ := hbasic u hu
    · rw [getDirect_never, getDirect_primitive] at h
      exact absurd (Option.some_inj.mp h).symm (hnever p)
    · rw [getDirect_primitive, getDirect_primitive] at h
      rw [hprimitives p q (Option.some_inj.mp h)]

/-- Distinct types have distinct handles. -/
theorem Grown.distinct (h : Grown d ts) (hroom : ∀ m, countOf m ts ≤ 2 ^ 13) (ht : d.getDirect t = some hnd)
    (hu : d.getDirect u = some hnd) : t = u := by
  have hmeta : t.metatype = u.metatype := (h.metatype_eq ht).symm.trans (h.metatype_eq hu)
  have hkind : t ∈ basicTypes Name ↔ u ∈ basicTypes Name := by rw [mem_basicTypes, mem_basicTypes, hmeta]
  have hmem : ∀ {v : BoxedType Name}, d.getDirect v = some hnd → v ∈ basicTypes Name ∨ v ∈ ts := by
    intro v hv
    obtain ⟨entry, hfind, -⟩ := Option.map_eq_some_iff.mp hv
    exact List.mem_append.mp (h.indexed.mem_keys.mp (OrderedMap.mem_keys.mpr ⟨entry, hfind⟩))
  by_cases hbasic : t ∈ basicTypes Name
  · have hubasic := hkind.mp hbasic
    rw [h.getDirect_basic hbasic] at ht
    rw [h.getDirect_basic hubasic] at hu
    exact create_distinct hbasic hubasic (ht.trans hu.symm)
  · obtain ⟨i, hi⟩ := List.mem_iff_getElem?.mp ((hmem ht).resolve_left hbasic)
    obtain ⟨j, hj⟩ := List.mem_iff_getElem?.mp ((hmem hu).resolve_left (hbasic ∘ hkind.mpr))
    rcases Nat.lt_trichotomy i j with hij | rfl | hij
    · exact absurd (ht.trans hu.symm) (h.distinct_new (hroom _) hij hi hj rfl hmeta.symm)
    · exact Option.some.inj (hi.symm.trans hj)
    · exact absurd (hu.trans ht.symm) (h.distinct_new (hroom _) hij hj hi rfl hmeta)

/-- Types that are registered stay as they are. -/
theorem Grown.find_append {d' : DirectTypes Name} (h : Grown d ts) (h' : Grown d' (ts ++ us))
    (ht : d.directTypes.find t = some entry) : d'.directTypes.find t = some entry := by
  have hmem : t ∈ basicTypes Name ++ ts := h.indexed.mem_keys.mp (OrderedMap.mem_keys.mpr ⟨entry, ht⟩)
  have hnodup := h'.nodup
  rw [← List.append_assoc, List.nodup_append] at hnodup
  rw [h'.eq, insertAll_append, ← h.eq, find_insertAll fun hus => hnodup.2.2 t hmem t hus rfl]
  exact ht

/-- What is added for a type leaves room. -/
theorem Grown.room (hroom : Room d t) (h : Grown (d.addOrGetDirect t).1 us) (m : MetaType) :
    countOf m us ≤ 2 ^ 13 := by
  have hsubset : us ⊆ (d.directTypes.keys ++ t.closure).dedup := by
    intro u hu
    rw [List.mem_dedup, List.mem_append]
    exact keys_addOrGetDirect t (h.indexed.mem_keys.mpr (List.mem_append_right _ hu))
  have hnodup : us.Nodup := (List.nodup_append.mp h.nodup).2.1
  exact ((hnodup.subperm hsubset).countP_le _).trans (hroom m)

/-- The type of a handle is the one it was given to. -/
theorem Grown.typeFrom_eq (h : Grown d ts) (hroom : ∀ m, countOf m ts ≤ 2 ^ 13) (ht : d.getDirect t = some hnd) :
    d.typeFrom hnd = t := by
  obtain ⟨entry, hfind, hfirst⟩ := Option.map_eq_some_iff.mp ht
  rw [DirectTypes.typeFrom]
  cases hsearch : d.directTypes.entries.find? fun p => p.2.1 = hnd with
  | none =>
    have hnot := List.find?_eq_none.mp hsearch (t, entry) (OrderedMap.find_eq_some.mp hfind)
    exact absurd (decide_eq_true hfirst) hnot
  | some p =>
    have hp : p.2.1 = hnd := by simpa using List.find?_some hsearch
    have hother : d.getDirect p.1 = some hnd := by
      rw [getDirect, OrderedMap.find_eq_some.mpr (List.mem_of_find?_eq_some hsearch), Option.map_some, hp]
    exact h.distinct hroom hother ht

/-! ## Places -/

/-- What a type consists of has been registered before it. -/
theorem Grown.parts_before (h : Grown d ts) (hroom : ∀ m, countOf m ts ≤ 2 ^ 13)
    (ht : d.directTypes.find t = some entry) (hu : u ∈ t.parts) :
    ∃ entry', d.directTypes.find u = some entry' ∧ entry'.2.toNat < entry.2.toNat := by
  have hlt := length_le_of_room hroom
  obtain ⟨k, hk, hplace⟩ := h.indexed.place.mp ⟨entry.1, ht⟩
  obtain ⟨l, hl, hfound⟩ := List.mem_take_iff_getElem.mp (h.parts_take hk hu)
  have hklt := (List.getElem?_eq_some_iff.mp hk).1
  have hlk : l < k := hl.trans_le (Nat.min_le_left _ _)
  obtain ⟨hnd, hentry⟩ := h.indexed.place.mpr
    ⟨l, List.getElem?_eq_some_iff.mpr ⟨hlk.trans hklt, hfound⟩, rfl⟩
  refine ⟨_, hentry, ?_⟩
  rw [hplace, BitVec.toNat_ofNat, BitVec.toNat_ofNat, Nat.mod_eq_of_lt (by omega), Nat.mod_eq_of_lt (by omega)]
  exact hlk

end DirectTypes

end Pepp.Debug

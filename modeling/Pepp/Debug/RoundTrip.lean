import Mathlib.Data.List.Lex
import Pepp.Debug.Reading

/-!
# Type information survives serialization

Counts, places and string offsets are written with few bits, and a string is
read up to its first zero. Within these bounds everything is read back, handles
included. A struct of 256 members is not.
-/

namespace Pepp.Debug

open Containers Readers DirectTypes
open Algorithms (StdSort)

variable {Name : Type} [LinearOrder Name] {text : Strings Name} {ar : Archives}

/-- What names stand for, in a first version. -/
def TypeInfo.unversioned (info : TypeInfo Name) : OrderedMap IndirectHandle (VersionedType Name) :=
  info.indirectTypes.mapValues fun versioned => ⟨versioned.type, 0⟩

/-- All of the handles, the names and what they stand for; only the versions begin anew. -/
structure Restored (info again : TypeInfo Name) : Prop where
  direct : again.toDirectTypes = info.toDirectTypes
  names : again.nameToIndirect = info.nameToIndirect
  indirect : again.indirectTypes = info.unversioned

/-- What is written is read back completely by an instance that is new, and places of types stay what they are. -/
def RoundTrips (text : Strings Name) (ar : Archives) (sort : StdSort) (info : TypeInfo Name) : Prop :=
  ∃ bytes h again h', info.serialize text ar sort = .ok (bytes, h) ∧
    Reads ((TypeInfo.create text.empty).deserialize text ar) bytes (again, h') ∧ Restored info again ∧
    ∀ t i, h.indexForType t = .ok i → h'.typeForIndex i = .ok t

/-- Everything fits in the bits that it is written with, and the strings survive. -/
structure Fits (text : Strings Name) (info : TypeInfo Name) : Prop where
  types : info.directTypes.size < 2 ^ 16
  names : info.nameToIndirect.size < 2 ^ 16
  indirect : info.indirectTypes.size < 2 ^ 16
  members : ∀ t ∈ info.directTypes.keys, t.memberCount < 2 ^ 8
  strings : ∀ name ∈ info.strings, Survives text name
  pool : (info.extractStrings text).data.length < 2 ^ 32

section Loops

variable {h h' : SerializationHelper Name}

theorem reads_names (entries : List (Name × IndirectHandle)) (self : TypeInfo Name)
    (hnames : ∀ p ∈ entries, Readable text h h' p.1) : ∃ bytes, serializeNames text ar h entries = .ok (bytes, h) ∧
      Reads (readNames text ar h' entries.length self) bytes
        ⟨self.toDirectTypes, self.nameToIndirect.assignAll entries, self.indirectTypes⟩ := by
  induction entries generalizing self with
  | nil => exact ⟨[], rfl, reads_pure _⟩
  | cons p entries ih =>
    obtain ⟨name, hnd⟩ := p
    obtain ⟨hname, hnames⟩ := List.forall_mem_cons.mp hnames
    obtain ⟨i, hstring, hread⟩ := hname.index
    obtain ⟨bytes, hwrite, hmore⟩ := ih ⟨self.toDirectTypes, self.nameToIndirect.assign name hnd, self.indirectTypes⟩ hnames
    refine ⟨ar.writeU32 i ++ (ar.writeU16 hnd.index ++ bytes), ?_, ?_⟩
    · rw [serializeNames, hstring]
      dsimp only
      rw [hwrite]
      rfl
    · exact (ar.reads_u32 _).bind (.of_lift hread ((ar.reads_u16 _).bind hmore))

theorem reads_indirect (entries : List (IndirectHandle × VersionedType Name)) (self : TypeInfo Name)
    (htypes : ∀ p ∈ entries, Known h h' p.2.type) : ∃ bytes, serializeIndirect ar h entries = .ok bytes ∧
      Reads (readIndirect ar h' entries.length self) bytes
        ⟨self.toDirectTypes, self.nameToIndirect,
          self.indirectTypes.assignAll (entries.map fun p => (p.1, ⟨p.2.type, 0⟩))⟩ := by
  induction entries generalizing self with
  | nil => exact ⟨[], rfl, reads_pure _⟩
  | cons p entries ih =>
    obtain ⟨hnd, versioned⟩ := p
    obtain ⟨⟨i, hindex, htype⟩, htypes⟩ := List.forall_mem_cons.mp htypes
    obtain ⟨bytes, hwrite, hmore⟩ :=
      ih ⟨self.toDirectTypes, self.nameToIndirect, self.indirectTypes.assign hnd ⟨versioned.type, 0⟩⟩ htypes
    refine ⟨ar.writeU16 hnd.index ++ (ar.writeU16 i ++ bytes), ?_, ?_⟩
    · rw [serializeIndirect]
      dsimp only at hindex
      rw [hindex, hwrite]
      rfl
    · exact (ar.reads_u16 _).bind ((ar.reads_u16 _).bind (.of_lift htype hmore))

end Loops

variable {info : TypeInfo Name} {order : List (BoxedType Name)}

variable {t : BoxedType Name} {ts : List (BoxedType Name)}

theorem placeOf_eq (h : Indexed info.toDirectTypes order) {k : Nat} (hk : order[k]? = some t) :
    info.placeOf t = BitVec.ofNat 16 k := by
  obtain ⟨hnd, hfind⟩ := h.place.mpr ⟨k, hk, rfl⟩
  rw [TypeInfo.placeOf, hfind]

/-- Sorting by places gives the order of registration. -/
theorem sort_keys (sort : StdSort) (h : Indexed info.toDirectTypes order) (hlt : order.length < 2 ^ 16) (hnodup : order.Nodup) :
    sort.sort (fun lhs rhs => (info.placeOf lhs).ult (info.placeOf rhs)) info.directTypes.keys = order := by
  have hplace : ∀ {k : Nat} {t : BoxedType Name}, order[k]? = some t → (info.placeOf t).toNat = k := by
    intro k t hk
    obtain ⟨hklt, -⟩ := List.getElem?_eq_some_iff.mp hk
    rw [placeOf_eq h hk, BitVec.toNat_ofNat, Nat.mod_eq_of_lt (by omega)]
  have hperm : info.directTypes.keys.Perm order :=
    (List.perm_ext_iff_of_nodup OrderedMap.nodup_keys hnodup).mpr fun t => h.mem_keys
  have hsorted := sort.sorted (fun t => (info.placeOf t).toNat) (fun lhs rhs => (info.placeOf lhs).ult (info.placeOf rhs))
    info.directTypes.keys fun a b => BitVec.ult_iff_toNat_lt
  have horder : order.Pairwise fun a b => (info.placeOf a).toNat ≤ (info.placeOf b).toNat := by
    rw [List.pairwise_iff_getElem]
    intro i j hi hj hij
    rw [hplace (List.getElem?_eq_getElem hi), hplace (List.getElem?_eq_getElem hj)]
    exact hij.le
  refine List.Perm.eq_of_pairwise (fun a b ha hb hab hba => ?_) hsorted horder ((sort.perm _ _).trans hperm)
  obtain ⟨i, hi⟩ := List.getElem?_of_mem (((sort.perm _ _).trans hperm).mem_iff.mp ha)
  obtain ⟨j, hj⟩ := List.getElem?_of_mem hb
  rw [hplace hi, hplace hj] at hab hba
  obtain rfl : i = j := Nat.le_antisymm hab hba
  exact Option.some.inj (hi.symm.trans hj)

/-- The helper of the writer has the places of the types. -/
theorem find_helper (h : Indexed info.toDirectTypes order) {i : U16} :
    (info.helper text).typeToIndex.find t = some i ↔ ∃ k, order[k]? = some t ∧ i = BitVec.ofNat 16 k := by
  have hdistinct : (info.directTypes.entries.map fun p => (p.1, p.2.2)).Pairwise fun p q => p.1 ≠ q.1 := by
    rw [List.pairwise_map]
    exact info.directTypes.sorted.imp fun hlt => hlt.ne
  rw [TypeInfo.helper, OrderedMap.find_assignAll hdistinct, h.mem_iff, List.mem_map]
  constructor
  · rintro (⟨⟨u, k⟩, hk, heq⟩ | ⟨-, hnone⟩)
    · obtain ⟨rfl, rfl⟩ := Prod.mk.inj heq
      exact ⟨k, List.mk_mem_zipIdx_iff_getElem?.mp hk, rfl⟩
    · nomatch hnone
  · rintro ⟨k, hk, rfl⟩
    exact .inl ⟨(t, k), List.mk_mem_zipIdx_iff_getElem?.mpr hk, rfl⟩

theorem index_helper (h : Indexed info.toDirectTypes order) {i : U16} :
    (info.helper text).indexForType t = .ok i ↔ ∃ k, order[k]? = some t ∧ i = BitVec.ofNat 16 k := by
  rw [← find_helper h, SerializationHelper.indexForType]
  cases (info.helper text).typeToIndex.find t with
  | none => exact ⟨nofun, nofun⟩
  | some j => exact ⟨fun heq => congrArg some (Except.ok.inj heq), fun heq => congrArg Except.ok (Option.some.inj heq)⟩

theorem readable_strings (hfits : Fits text info) {name : Name} (hname : name ∈ info.strings) :
    ∃ i, (info.extractStrings text).added.find name = some i ∧ ∀ h' : SerializationHelper Name,
      h'.strs.data = (info.extractStrings text).data → h'.stringForIndex text i = .ok name := by
  have hpooled : StringInternPool.Pooled text (info.extractStrings text) := StringInternPool.pooled_create.addAll _
  obtain ⟨i, hfind⟩ : ∃ i, (info.extractStrings text).added.find name = some i :=
    StringInternPool.find_addAll (.inl hname)
  exact ⟨i, hfind, fun h' hdata => hpooled.stringForIndex hfits.pool (hfits.strings name hname) hfind hdata⟩

section

variable (hs : TypeInfo.Sound text.empty info ts)
include hs

theorem writable (hfits : Fits text info) : Writable text (info.helper text) (basicTypes Name ++ ts) := by
  have hindexed := hs.grown.indexed
  constructor
  · rw [← hindexed.size]
    exact hfits.types
  · exact hs.grown.nodup
  · exact fun i t hi u hu => hs.grown.parts_take hi hu
  · intro i t hi
    exact (index_helper hindexed).mpr ⟨i, hi, rfl⟩
  · intro t ht
    exact hfits.members t (hindexed.mem_keys.mpr ht)
  · intro t ht name hname
    refine readable_strings hfits (List.mem_append_left _ ?_)
    exact List.mem_flatMap.mpr ⟨t, hindexed.mem_keys.mpr ht, hname⟩

theorem assignAll_names :
    (TypeInfo.create text.empty).nameToIndirect.assignAll info.nameToIndirect.entries = info.nameToIndirect := by
  refine OrderedMap.assignAll_entries fun name hname => ?_
  obtain rfl : name = text.empty := List.mem_singleton.mp hname
  exact OrderedMap.mem_keys.mpr ⟨_, hs.empty⟩

theorem assignAll_indirect :
    (TypeInfo.create text.empty).indirectTypes.assignAll (info.indirectTypes.entries.map fun p => (p.1, ⟨p.2.type, 0⟩)) =
      info.unversioned := by
  change (TypeInfo.create text.empty).indirectTypes.assignAll info.unversioned.entries = _
  refine OrderedMap.assignAll_entries fun hnd hmem => ?_
  obtain rfl : hnd = ⟨0⟩ := List.mem_singleton.mp hmem
  obtain ⟨versioned, hzero⟩ := hs.zero
  refine OrderedMap.mem_keys.mpr ⟨⟨versioned.type, 0⟩, ?_⟩
  rw [TypeInfo.unversioned, OrderedMap.find_mapValues, hzero]
  rfl

end

/-- Whatever has been registered survives, as long as everything fits. -/
theorem roundTrips_of_fits (ar : Archives) (sort : StdSort) (h : TypeInfo.Reachable text.empty info) (hfits : Fits text info) :
    RoundTrips text ar sort info := by
  obtain ⟨ts, hs⟩ := h.sound
  have hindexed := hs.grown.indexed
  have hw := writable hs hfits
  have hlt := hw.length
  have hsize := hindexed.size
  generalize horder : basicTypes Name ++ ts = order at hindexed hw hlt hsize
  obtain ⟨types, h', htypes, hreadTypes, hplaced, hdata⟩ := reads_types hw ⟨⟨.empty, (info.extractStrings text).data⟩, .empty⟩
    (TypeInfo.create text.empty) [] rfl rfl placed_empty (List.forall_mem_nil _)
  have hreadable : ∀ p ∈ info.nameToIndirect.entries, Readable text (info.helper text) h' p.1 := by
    intro p hp
    obtain ⟨i, hfind, hread⟩ := readable_strings hfits (List.mem_append_right _ (List.mem_map_of_mem hp))
    exact ⟨i, hfind, hread h' hdata⟩
  have hknown : ∀ p ∈ info.indirectTypes.entries, Known (info.helper text) h' p.2.type := by
    rintro ⟨hnd, versioned⟩ hp
    have hbound := hs.bound hnd versioned (OrderedMap.find_eq_some.mpr hp)
    rw [horder] at hbound
    obtain ⟨k, hk⟩ := List.getElem?_of_mem hbound
    exact ⟨_, hw.index k _ hk, hplaced.typeForIndex hlt hk⟩
  have hdirect : (TypeInfo.create text.empty).toDirectTypes.putAll order = info.toDirectTypes := by
    rw [← horder, hs.grown.eq]
    exact putAll_create hs.grown.nodup
  rw [hdirect] at hreadTypes
  obtain ⟨names, hnames, hreadNames⟩ := reads_names _
    ⟨info.toDirectTypes, (TypeInfo.create text.empty).nameToIndirect, (TypeInfo.create text.empty).indirectTypes⟩ hreadable
  dsimp only at hreadNames
  rw [assignAll_names hs] at hreadNames
  obtain ⟨indirect, hindirect, hreadIndirect⟩ := reads_indirect _
    ⟨info.toDirectTypes, info.nameToIndirect, (TypeInfo.create text.empty).indirectTypes⟩ hknown
  dsimp only at hreadIndirect
  rw [assignAll_indirect hs] at hreadIndirect
  obtain ⟨typeCount, htypeCount, hreadTypeCount⟩ := ar.reads_count hlt
  obtain ⟨handleCount, hhandleCount, hreadHandleCount⟩ := ar.reads_count hfits.names
  obtain ⟨count, hcount, hreadCount⟩ := ar.reads_count hfits.indirect
  refine ⟨ar.writeSpan (info.extractStrings text).data ++ (ar.writeU16 (BitVec.ofNat 16 order.length) ++ (types ++
    (ar.writeU16 (BitVec.ofNat 16 info.nameToIndirect.size) ++ (names ++
      (ar.writeU16 (BitVec.ofNat 16 info.indirectTypes.size) ++ indirect))))), info.helper text,
    ⟨info.toDirectTypes, info.nameToIndirect, info.unversioned⟩, h', ?_, ?_, ⟨rfl, rfl, rfl⟩, ?_⟩
  · rw [TypeInfo.serialize, sort_keys sort hindexed hlt hw.nodup, htypes]
    dsimp only [bind, Except.bind]
    rw [hnames]
    dsimp only
    rw [hindirect]
    rfl
  · refine (ar.reads_vector _ hfits.pool).bind (hreadTypeCount.bind ?_)
    rw [htypeCount]
    refine hreadTypes.bind (hreadHandleCount.bind ?_)
    rw [hhandleCount]
    refine hreadNames.bind (hreadCount.bind ?_)
    rw [hcount]
    exact hreadIndirect.bind_last (reads_pure _)
  · intro t i hi
    obtain ⟨k, hk, rfl⟩ := (index_helper hindexed).mp hi
    exact hplaced.typeForIndex hlt hk

/-- Numbers with their low bytes first, and characters with their number in front. -/
def Archives.littleEndian : Archives where
  writeU8 v := Endian.leBytes 1 v.toNat
  writeU16 v := Endian.leBytes 2 v.toNat
  writeU32 v := Endian.leBytes 4 v.toNat
  writeSpan data := Endian.leBytes 4 data.length ++ data
  readU8 := word .resultOutOfRange 1 8
  readU16 := word .resultOutOfRange 2 16
  readU32 := word .resultOutOfRange 4 32
  readVector := do
    let size ← word .resultOutOfRange 4 32
    next .resultOutOfRange size.toNat
  reads_u8 := reads_word _ (by decide)
  reads_u16 := reads_word _ (by decide)
  reads_u32 := reads_word _ (by decide)
  reads_vector data h := by
    have hlength : (BitVec.ofNat 32 data.length).toNat = data.length := by rw [BitVec.toNat_ofNat, Nat.mod_eq_of_lt h]
    have hsize := reads_word ReadError.resultOutOfRange (k := 4) (w := 32) (by decide) (BitVec.ofNat 32 data.length)
    rw [hlength] at hsize
    refine hsize.bind ?_
    rw [hlength]
    exact reads_next _ data

section Ascii

/-- Names of ASCII characters, as their codes. -/
def ascii : Strings (List Nat) where
  empty := []
  toUtf8 name := name.map (BitVec.ofNat 8)
  fromUtf8 bytes := bytes.map BitVec.toNat
  toUtf8_empty := rfl
  fromUtf8_nil := rfl

theorem survives_ascii {name : List Nat} (h : ∀ c ∈ name, 0 < c ∧ c < 128) : Survives ascii name := by
  have hcode : ∀ c ∈ name, (BitVec.ofNat 8 c).toNat = c := by
    intro c hc
    have := h c hc
    rw [BitVec.toNat_ofNat, Nat.mod_eq_of_lt (by omega)]
  constructor
  · intro hzero
    obtain ⟨c, hc, heq⟩ := List.mem_map.mp hzero
    have hpos := h c hc
    have hnat := hcode c hc
    rw [heq] at hnat
    change 0 = c at hnat
    omega
  · change (name.map (BitVec.ofNat 8)).map BitVec.toNat = name
    rw [List.map_map]
    exact List.map_congr_left hcode |>.trans (List.map_id name)

def point : BoxedType (List Nat) :=
  .struct 2 (.cons [120] (.primitive .u8) 0 (.cons [121] (.pointer 2 (.primitive .i16)) 1 .nil))

/-- A struct of two members is registered under the name `P`. -/
def pointInfo : TypeInfo (List Nat) :=
  (((TypeInfo.create []).perform (.registerDirect point)).perform (.registerIndirect [80])).perform
    (.setIndirectTypeOf [80] ⟨.Struct, 1⟩)

theorem roundTrips_point : RoundTrips ascii .littleEndian StdSort.insertion pointInfo := by
  refine roundTrips_of_fits .littleEndian StdSort.insertion (.perform _ (.perform _ (.perform _ .create))) ?_
  constructor
  · decide +kernel
  · decide +kernel
  · decide +kernel
  · decide +kernel
  · have hcodes : ∀ name ∈ pointInfo.strings, ∀ c ∈ name, 0 < c ∧ c < 128 := by decide +kernel
    exact fun name hname => survives_ascii (hcodes name hname)
  · decide +kernel

end Ascii

end Pepp.Debug

/-! ## Structs that are too wide

No byte counts more than 255 members. Whatever bytes are read, no struct with
more of them is registered, so an instance that has one does not survive. -/

namespace Pepp.Debug

open Containers Readers DirectTypes
open Algorithms (StdSort)

variable {Name : Type} [LinearOrder Name] {text : Strings Name} {ar : Archives} {h h' : SerializationHelper Name} {s s' : List U8}

variable {t : BoxedType Name} {n : Nat} {self again : TypeInfo Name}

theorem mem_of_typeForIndex {i : U16} (ht : h.typeForIndex i = .ok t) : t ∈ h.typeToIndex.keys := by
  rw [SerializationHelper.typeForIndex] at ht
  cases hfind : h.typeToIndex.entries.find? fun p => p.2 = i with
  | none =>
    rw [hfind] at ht
    cases ht
  | some p =>
    rw [hfind] at ht
    rw [← Except.ok.inj ht]
    exact List.mem_map_of_mem (List.mem_of_find?_eq_some hfind)

theorem readMembers_spec {members : Members Name} (hread : readMembers text ar h n s = .ok (members, s')) :
    members.length = n ∧ ∀ t ∈ members.types, t ∈ h.typeToIndex.keys := by
  induction n generalizing s s' members with
  | zero =>
    obtain ⟨rfl, -⟩ := ok_of_pure hread
    exact ⟨rfl, List.forall_mem_nil _⟩
  | succ n ih =>
    obtain ⟨_, _, -, hread⟩ := ok_of_bind hread
    obtain ⟨_, -, hread⟩ := ok_of_lift hread
    obtain ⟨_, _, -, hread⟩ := ok_of_bind hread
    obtain ⟨t, ht, hread⟩ := ok_of_lift hread
    obtain ⟨_, _, -, hread⟩ := ok_of_bind hread
    obtain ⟨rest, _, hrest, hread⟩ := ok_of_bind hread
    obtain ⟨rfl, -⟩ := ok_of_pure hread
    obtain ⟨hlength, htypes⟩ := ih hrest
    exact ⟨congrArg (· + 1) hlength, List.forall_mem_cons.mpr ⟨mem_of_typeForIndex ht, htypes⟩⟩

/-- A type that is read is narrow, and its parts have been read before. -/
theorem readType_spec (hread : readType text ar h s = .ok (t, s')) :
    t.memberCount < 2 ^ 8 ∧ ∀ u ∈ t.parts, u ∈ h.typeToIndex.keys := by
  obtain ⟨tag, _, -, hread⟩ := ok_of_bind hread
  generalize tag.toNat = kind at hread
  obtain _ | _ | _ | _ | _ | kind := kind
  · obtain ⟨rfl, -⟩ := ok_of_pure hread
    exact ⟨Nat.two_pow_pos 8, List.forall_mem_nil _⟩
  · obtain ⟨_, _, -, hread⟩ := ok_of_bind hread
    obtain ⟨_, -, hread⟩ := ok_of_lift hread
    obtain ⟨rfl, -⟩ := ok_of_pure hread
    exact ⟨Nat.two_pow_pos 8, List.forall_mem_nil _⟩
  · obtain ⟨_, _, -, hread⟩ := ok_of_bind hread
    obtain ⟨_, _, -, hread⟩ := ok_of_bind hread
    obtain ⟨u, hu, hread⟩ := ok_of_lift hread
    obtain ⟨rfl, -⟩ := ok_of_pure hread
    exact ⟨Nat.two_pow_pos 8, List.forall_mem_singleton.mpr (mem_of_typeForIndex hu)⟩
  · obtain ⟨_, _, -, hread⟩ := ok_of_bind hread
    obtain ⟨_, _, -, hread⟩ := ok_of_bind hread
    obtain ⟨_, _, -, hread⟩ := ok_of_bind hread
    obtain ⟨u, hu, hread⟩ := ok_of_lift hread
    obtain ⟨rfl, -⟩ := ok_of_pure hread
    exact ⟨Nat.two_pow_pos 8, List.forall_mem_singleton.mpr (mem_of_typeForIndex hu)⟩
  · obtain ⟨_, _, -, hread⟩ := ok_of_bind hread
    obtain ⟨count, _, -, hread⟩ := ok_of_bind hread
    obtain ⟨members, _, hmembers, hread⟩ := ok_of_bind hread
    obtain ⟨rfl, -⟩ := ok_of_pure hread
    obtain ⟨hlength, htypes⟩ := readMembers_spec hmembers
    refine ⟨?_, htypes⟩
    change members.length < 2 ^ 8
    rw [hlength]
    exact count.isLt
  · change Except.error _ = Except.ok _ at hread
    cases hread

/-- All types are narrow, and those with a place are registered. -/
structure Narrow (info : TypeInfo Name) (h : SerializationHelper Name) : Prop where
  count : ∀ t ∈ info.directTypes.keys, t.memberCount < 2 ^ 8
  placed : ∀ t ∈ h.typeToIndex.keys, t ∈ info.directTypes.keys

theorem Narrow.box {self : TypeInfo Name} (hn : Narrow self h) (hcount : t.memberCount < 2 ^ 8)
    (hparts : ∀ u ∈ t.parts, u ∈ h.typeToIndex.keys) (i : U16) :
    Narrow (self.box t).1 { h with typeToIndex := h.typeToIndex.assign t i } := by
  have hkeys : ∀ u, u ∈ (self.box t).1.directTypes.keys ↔ u = t ∨ u ∈ self.directTypes.keys := by
    intro u
    have hput : (self.box t).1.toDirectTypes = self.toDirectTypes.put t :=
      addOrGetDirect_known fun u hu => hn.placed u (hparts u hu)
    rw [hput, mem_keys_put]
  constructor
  · intro u hu
    rcases (hkeys u).mp hu with rfl | hu
    · exact hcount
    · exact hn.count u hu
  · intro u hu
    obtain ⟨j, hfind⟩ := OrderedMap.mem_keys.mp hu
    rw [OrderedMap.find_assign] at hfind
    split at hfind
    · next heq => exact (hkeys u).mpr (.inl heq)
    · exact (hkeys u).mpr (.inr (hn.placed u (OrderedMap.mem_keys.mpr ⟨j, hfind⟩)))

theorem readTypes_narrow {n i : Nat} (hn : Narrow self h)
    (hread : readTypes text ar n i self h s = .ok ((again, h'), s')) : Narrow again h' := by
  induction n generalizing i self h s with
  | zero =>
    obtain ⟨heq, -⟩ := ok_of_pure hread
    obtain ⟨rfl, rfl⟩ := Prod.mk.inj heq
    exact hn
  | succ n ih =>
    obtain ⟨t, _, ht, hread⟩ := ok_of_bind hread
    obtain ⟨hcount, hparts⟩ := readType_spec ht
    exact ih (hn.box hcount hparts _) hread

theorem readNames_direct (hread : readNames text ar h n self s = .ok (again, s')) :
    again.toDirectTypes = self.toDirectTypes := by
  induction n generalizing self s with
  | zero =>
    obtain ⟨rfl, -⟩ := ok_of_pure hread
    rfl
  | succ n ih =>
    obtain ⟨_, _, -, hread⟩ := ok_of_bind hread
    obtain ⟨_, -, hread⟩ := ok_of_lift hread
    obtain ⟨_, _, -, hread⟩ := ok_of_bind hread
    exact (ih hread).trans rfl

theorem readIndirect_direct (hread : readIndirect ar h n self s = .ok (again, s')) :
    again.toDirectTypes = self.toDirectTypes := by
  induction n generalizing self s with
  | zero =>
    obtain ⟨rfl, -⟩ := ok_of_pure hread
    rfl
  | succ n ih =>
    obtain ⟨_, _, -, hread⟩ := ok_of_bind hread
    obtain ⟨_, _, -, hread⟩ := ok_of_bind hread
    obtain ⟨_, -, hread⟩ := ok_of_lift hread
    exact (ih hread).trans rfl

theorem narrow_create {strs : StringInternPool Name} : Narrow (TypeInfo.create text.empty) ⟨strs, .empty⟩ := by
  constructor
  · intro t ht
    have hbasic : ∀ t ∈ basicTypes Name, t.memberCount = 0 := by simp [basicTypes, BoxedType.memberCount]
    rw [hbasic t (indexed_create.mem_keys.mp ht)]
    exact Nat.two_pow_pos 8
  · exact List.forall_mem_nil _

/-- Every struct of type information that survives can be counted by a byte. -/
theorem members_of_roundTrips {sort : StdSort} {info : TypeInfo Name} (hround : RoundTrips text ar sort info) :
    ∀ t ∈ info.directTypes.keys, t.memberCount < 2 ^ 8 := by
  obtain ⟨bytes, _, again, _, -, hread, hrestored, -⟩ := hround
  replace hread := hread []
  obtain ⟨data, _, -, hread⟩ := ok_of_bind hread
  obtain ⟨_, _, -, hread⟩ := ok_of_bind hread
  obtain ⟨⟨self, h'⟩, _, htypes, hread⟩ := ok_of_bind hread
  obtain ⟨_, _, -, hread⟩ := ok_of_bind hread
  obtain ⟨named, _, hnames, hread⟩ := ok_of_bind hread
  obtain ⟨_, _, -, hread⟩ := ok_of_bind hread
  obtain ⟨bound, _, hbound, hread⟩ := ok_of_bind hread
  obtain ⟨heq, -⟩ := ok_of_pure hread
  obtain ⟨rfl, -⟩ := Prod.mk.inj heq
  have hnarrow := readTypes_narrow narrow_create htypes
  rw [← hrestored.direct, readIndirect_direct hbound, readNames_direct hnames]
  exact hnarrow.count

/-- So many members of the same name and type. -/
def copies : Nat → Members (List Nat)
  | 0 => .nil
  | n + 1 => .cons [97] (.primitive .u8) 0 (copies n)

theorem length_copies (n : Nat) : (copies n).length = n := by
  induction n with
  | zero => rfl
  | succ n ih => rw [copies, Members.length, ih]

theorem lt_of_roundTrips_copies {n : Nat} (hround : RoundTrips ascii .littleEndian StdSort.insertion
    ((TypeInfo.create []).perform (.registerDirect (.struct 2 (copies n))))) : n < 2 ^ 8 := by
  obtain ⟨us, hgrown, hmem, -⟩ := grown_create.addOrGetDirect (.struct 2 (copies n))
  have hnarrow : (copies n).length < 2 ^ 8 := members_of_roundTrips hround _ (hgrown.indexed.mem_keys.mpr hmem)
  rwa [length_copies] at hnarrow

theorem roundTrips_wide_fails : ∃ info, TypeInfo.Reachable ascii.empty info ∧ ¬RoundTrips ascii .littleEndian StdSort.insertion info :=
  ⟨_, .perform (.registerDirect (.struct 2 (copies 256))) .create,
    fun hround => absurd (lt_of_roundTrips_copies hround) (Nat.lt_irrefl 256)⟩

end Pepp.Debug

import Pepp.Debug.Handles

/-!
# The registry of types

Every call holds the lock of the registry while it works. Asking for it again
while it is held never returns. Over a sequence of calls handles of types and
of names stay what they are, and the version of a name grows each time its type
is set.
-/

namespace Pepp.Debug

open Containers

variable {Name : Type} [LinearOrder Name]

namespace TypeInfo

/-- `versioned_from` -/
def versionedFrom (self : TypeInfo Name) (handle : IndirectHandle) : Except TypeError (VersionedType Name) :=
  if handle.index.toNat ≥ self.nameToIndirect.size then .error .outOfRange
  else
    match self.indirectTypes.find handle with
    | some versioned => .ok versioned
    | none => .ok ⟨.never, 0⟩

/-- `version_of` looks at handle zero, whatever it is asked for. -/
def versionOf (self : TypeInfo Name) (_ : IndirectHandle) : Except TypeError U32 :=
  (self.versionedFrom ⟨0⟩).map VersionedType.version

def clearIndirectTypes (self : TypeInfo Name) (boxed : BoxedType Name) : TypeInfo Name :=
  { self with indirectTypes := OrderedMap.empty.assign ⟨0⟩ ⟨boxed, 0⟩ }

end TypeInfo

/-! ## The lock -/

/-- How a call ends other than by returning. -/
inductive Stop where
  | thrown (error : TypeError)
  /-- The call waits for a lock that it holds itself. -/
  | deadlock
  deriving DecidableEq, Repr

/-- A registry, and whether its lock is held. -/
structure Guarded (Name : Type) [LinearOrder Name] where
  info : TypeInfo Name
  held : Bool := false

abbrev Guard (Name : Type) [LinearOrder Name] (α : Type) := EStateM Stop (Guarded Name) α

namespace Guarded

variable {α : Type}

/-- `QMutexLocker locker(&_mut)` around the rest of a function, which also unlocks when that throws. -/
def locked (body : Guard Name α) : Guard Name α := fun self =>
  if self.held then .error .deadlock self
  else
    match body { self with held := true } with
    | .ok a self => .ok a { self with held := false }
    | .error .deadlock self => .error .deadlock self
    | .error (.thrown e) self => .error (.thrown e) { self with held := false }

def update (f : TypeInfo Name → TypeInfo Name × α) : Guard Name α := fun self =>
  .ok (f self.info).2 { self with info := (f self.info).1 }

def attempt (f : TypeInfo Name → Except TypeError (TypeInfo Name)) : Guard Name Unit := fun self =>
  match f self.info with
  | .ok info => .ok () { self with info }
  | .error e => .error (.thrown e) self

def registerDirect (t : BoxedType Name) : Guard Name DirectHandle := locked (update fun info => info.registerDirect t)

def box (t : BoxedType Name) : Guard Name (BoxedType Name) := locked (update fun info => info.box t)

def typeFrom (handle : DirectHandle) : Guard Name (BoxedType Name) :=
  locked (update fun info => (info, info.typeFrom handle))

def registerIndirect (name : Name) : Guard Name (Bool × IndirectHandle) :=
  locked (update fun info => info.registerIndirect name)

def getIndirect (name : Name) : Guard Name (Option IndirectHandle) :=
  locked (update fun info => (info, info.nameToIndirect.find name))

/-- The type is looked up before the lock is taken. -/
def setIndirectType (indirect : IndirectHandle) (direct : DirectHandle) : Guard Name Unit := do
  let _ ← typeFrom direct
  locked (attempt fun info => info.setIndirectType indirect direct)

def setIndirectTypeOf (name : Name) (direct : DirectHandle) : Guard Name Unit := do
  match ← getIndirect name with
  | none => throw (.thrown .invalidArgument)
  | some hnd => setIndirectType hnd direct

/-- The lock is held when the type is boxed. -/
def clearIndirectTypes : Guard Name Unit := locked do
  let boxed ← box .never
  update fun info => (info.clearIndirectTypes boxed, ())

end Guarded

/-- What a registry can be asked to do. -/
inductive Call (Name : Type) where
  | op (op : TypeOp Name)
  | clearIndirectTypes

namespace Guarded

def perform : Call Name → Guard Name Unit
  | .op (.registerDirect t) => do let _ ← registerDirect t
  | .op (.box t) => do let _ ← box t
  | .op (.registerIndirect name) => do let _ ← registerIndirect name
  | .op (.setIndirectType indirect direct) => setIndirectType indirect direct
  | .op (.setIndirectTypeOf name direct) => setIndirectTypeOf name direct
  | .clearIndirectTypes => clearIndirectTypes

/-- The registry that a call leaves, if it comes back. -/
def settle : EStateM.Result Stop (Guarded Name) Unit → Option (Guarded Name)
  | .ok _ self => some self
  | .error (.thrown _) self => some self
  | .error .deadlock _ => none

def call (self : Guarded Name) (c : Call Name) : Option (Guarded Name) := settle (perform c self)

theorem settle_attempt (f : TypeInfo Name → Except TypeError (TypeInfo Name)) (info : TypeInfo Name) :
    settle (locked (attempt f) ⟨info, false⟩) = some ⟨(f info).toOption.getD info, false⟩ := by
  rw [locked, attempt]
  cases f info <;> rfl

theorem settle_setIndirectType (indirect : IndirectHandle) (direct : DirectHandle) (info : TypeInfo Name) :
    settle (setIndirectType indirect direct ⟨info, false⟩) =
      some ⟨(info.setIndirectType indirect direct).toOption.getD info, false⟩ :=
  settle_attempt (fun info => info.setIndirectType indirect direct) info

theorem setIndirectTypeOf_apply (name : Name) (direct : DirectHandle) (info : TypeInfo Name) :
    setIndirectTypeOf name direct ⟨info, false⟩ =
      (match info.nameToIndirect.find name with
        | none => throw (.thrown .invalidArgument)
        | some hnd => setIndirectType hnd direct : Guard Name Unit) ⟨info, false⟩ := rfl

/-- A call that the lock lets through does what the operation does. -/
theorem call_op (info : TypeInfo Name) (op : TypeOp Name) :
    call ⟨info, false⟩ (.op op) = some ⟨info.perform op, false⟩ := by
  cases op with
  | registerDirect t => rfl
  | box t => rfl
  | registerIndirect name => rfl
  | setIndirectType indirect direct => exact settle_setIndirectType indirect direct info
  | setIndirectTypeOf name direct =>
    rw [call, perform, setIndirectTypeOf_apply, TypeInfo.perform, TypeInfo.setIndirectTypeOf]
    cases info.nameToIndirect.find name with
    | none => rfl
    | some hnd => exact settle_setIndirectType hnd direct info

end Guarded

/-! ## Sequences of calls -/

/-- The registry after some calls, if they all come back. -/
def after (empty : Name) (calls : List (Call Name)) : Option (Guarded Name) :=
  calls.foldlM Guarded.call ⟨TypeInfo.create empty, false⟩

/-- The call has set the type of the handle. -/
def Redefines (info info' : TypeInfo Name) : Call Name → IndirectHandle → Prop
  | .op (.setIndirectType indirect direct), hnd => indirect = hnd ∧ info.setIndirectType indirect direct = .ok info'
  | .op (.setIndirectTypeOf name direct), hnd =>
    info.nameToIndirect.find name = some hnd ∧ info.setIndirectTypeOf name direct = .ok info'
  | _, _ => False

/-- Handles are unique and stable over the calls, all of which come back, and each version of a name is a new one. -/
structure UniqueHandles (empty : Name) (calls : List (Call Name)) : Prop where
  returns : ∃ info, after empty calls = some ⟨info, false⟩
  distinct : ∀ self, after empty calls = some self → ∀ t u hnd, self.info.getDirect t = some hnd →
    self.info.getDirect u = some hnd → t = u
  direct : ∀ front t tail before self, calls = front ++ .op (.registerDirect t) :: tail →
    after empty front = some before → after empty calls = some self →
    self.info.getDirect t = some (before.info.registerDirect t).2 ∧
      self.info.typeFrom (before.info.registerDirect t).2 = t
  parts : ∀ self, after empty calls = some self → ∀ t entry, self.info.directTypes.find t = some entry →
    ∀ u ∈ t.parts, ∃ entry', self.info.directTypes.find u = some entry' ∧ entry'.2.toNat < entry.2.toNat
  apart : ∀ self, after empty calls = some self → ∀ name name' hnd, self.info.nameToIndirect.find name = some hnd →
    self.info.nameToIndirect.find name' = some hnd → name = name'
  names : ∀ front name tail before self, calls = front ++ .op (.registerIndirect name) :: tail →
    after empty front = some before → after empty calls = some self →
    self.info.nameToIndirect.find name = some (before.info.registerIndirect name).2.2 ∧
      (before.info.registerIndirect name).2.2 ≠ ⟨0⟩
  versions : ∀ front c tail before next hnd, calls = front ++ c :: tail → after empty front = some before →
    before.call c = some next → Redefines before.info next.info c hnd →
    ∃ versioned, next.info.versionedFrom hnd = .ok versioned ∧
      ∀ earlier rest old v, front = earlier ++ rest → after empty earlier = some old →
        old.info.versionedFrom hnd = .ok v → v.version ≠ versioned.version

/-- A call that the counters of the registry have room for. -/
def TypeInfo.Admits (empty : Name) (info : TypeInfo Name) : Call Name → Prop
  | .op (.registerDirect t) => info.Room t
  | .op (.box t) => info.Room t
  | .op (.registerIndirect name) =>
    name ≠ empty ∧ (info.nameToIndirect.find name = none → info.nameToIndirect.size < 2 ^ 16)
  | .op (.setIndirectType indirect _) =>
    ∀ versioned, info.indirectTypes.find indirect = some versioned → versioned.version ≠ -1
  | .op (.setIndirectTypeOf name _) => ∀ hnd versioned, info.nameToIndirect.find name = some hnd →
    info.indirectTypes.find hnd = some versioned → versioned.version ≠ -1
  | .clearIndirectTypes => False

/-- Every call is admitted when it is made. -/
def Admitted (empty : Name) (calls : List (Call Name)) : Prop :=
  ∀ front c tail before, calls = front ++ c :: tail → after empty front = some before → before.info.Admits empty c

/-! ## What a call keeps -/

namespace TypeInfo

open DirectTypes

variable {empty name : Name} {info info' info'' : TypeInfo Name} {ts us : List (BoxedType Name)}

/-- Handles fit their counters, and the names have the handles below their number. -/
structure Numbered (empty : Name) (info : TypeInfo Name) (ts : List (BoxedType Name)) : Prop where
  sound : Sound empty info ts
  room : ∀ m, countOf m ts ≤ 2 ^ 13
  size : info.nameToIndirect.size ≤ 2 ^ 16
  below : ∀ name hnd, info.nameToIndirect.find name = some hnd → hnd.index.toNat < info.nameToIndirect.size
  apart : ∀ name name' hnd, info.nameToIndirect.find name = some hnd → info.nameToIndirect.find name' = some hnd →
    name = name'
  listed : ∀ hnd : IndirectHandle, (∃ versioned, info.indirectTypes.find hnd = some versioned) ↔
    hnd.index.toNat < info.nameToIndirect.size

/-- What has been registered is still there, and versions have not gone back. -/
structure Extends (info info' : TypeInfo Name) : Prop where
  direct : ∀ t entry, info.directTypes.find t = some entry → info'.directTypes.find t = some entry
  names : ∀ name hnd, info.nameToIndirect.find name = some hnd → info'.nameToIndirect.find name = some hnd
  versions : ∀ hnd versioned, info.indirectTypes.find hnd = some versioned →
    ∃ versioned', info'.indirectTypes.find hnd = some versioned' ∧ versioned.version.toNat ≤ versioned'.version.toNat

theorem Extends.refl (info : TypeInfo Name) : info.Extends info where
  direct _ _ h := h
  names _ _ h := h
  versions _ versioned h := ⟨versioned, h, Nat.le_refl _⟩

theorem Extends.trans (h : info.Extends info') (h' : info'.Extends info'') : info.Extends info'' where
  direct t entry hfind := h'.direct t entry (h.direct t entry hfind)
  names name hnd hfind := h'.names name hnd (h.names name hnd hfind)
  versions hnd versioned hfind := by
    obtain ⟨middle, hmiddle, hle⟩ := h.versions hnd versioned hfind
    obtain ⟨last, hlast, hle'⟩ := h'.versions hnd middle hmiddle
    exact ⟨last, hlast, hle.trans hle'⟩

theorem find_create {name : Name} {hnd : IndirectHandle}
    (h : (create empty).nameToIndirect.find name = some hnd) : name = empty ∧ hnd = ⟨0⟩ := by
  rw [create, OrderedMap.find_assign] at h
  split at h
  · next heq => exact ⟨heq, (Option.some.inj h).symm⟩
  · exact absurd h (Option.not_mem_none _)

theorem size_create : (create empty).nameToIndirect.size = 1 :=
  (OrderedMap.size_assign OrderedMap.find_empty).trans rfl

theorem numbered_create : Numbered empty (create empty) [] where
  sound := sound_create
  room m := Nat.zero_le _
  size := by rw [size_create]; decide
  below name hnd hfind := by
    rw [(find_create hfind).2, size_create]
    decide
  apart name name' hnd hfind hfind' := (find_create hfind).1.trans (find_create hfind').1.symm
  listed hnd := by
    rw [size_create, create]
    dsimp only
    simp only [OrderedMap.find_assign]
    constructor
    · rintro ⟨versioned, hfind⟩
      split at hfind
      · next heq => rw [heq]; decide
      · exact absurd hfind (Option.not_mem_none _)
    · intro hlt
      have hzero : hnd = ⟨0⟩ := IndirectHandle.toNat_inj (Nat.lt_one_iff.mp hlt)
      exact ⟨_, if_pos hzero⟩

theorem Numbered.registerDirect (h : Numbered empty info ts) {t : BoxedType Name} (hroom : info.Room t) :
    ∃ us, Numbered empty (info.registerDirect t).1 (ts ++ us) ∧ info.Extends (info.registerDirect t).1 := by
  obtain ⟨us, hsound⟩ := h.sound.registerDirect t
  refine ⟨us, ⟨hsound, fun m => ?_, h.size, h.below, h.apart, h.listed⟩,
    ⟨fun t entry hfind => ?_, fun _ _ hfind => hfind, fun _ versioned hfind => ⟨versioned, hfind, Nat.le_refl _⟩⟩⟩
  · exact Grown.room hroom hsound.grown m
  · exact h.sound.grown.find_append hsound.grown hfind

/-- Never is registered from the start. -/
theorem registerIndirect_new (h : Sound empty info ts) (hname : info.nameToIndirect.find name = none) :
    info.registerIndirect name =
      ({ info with
        indirectTypes := info.indirectTypes.assign ⟨BitVec.ofNat 16 info.nameToIndirect.size⟩ ⟨.never, 0⟩
        nameToIndirect := info.nameToIndirect.assign name ⟨BitVec.ofNat 16 info.nameToIndirect.size⟩ },
        true, ⟨BitVec.ofNat 16 info.nameToIndirect.size⟩) := by
  have hnever : BoxedType.never ∈ info.directTypes.keys :=
    h.grown.indexed.mem_keys.mpr (List.mem_append_left _ List.mem_cons_self)
  obtain ⟨entry, hfind⟩ := OrderedMap.mem_keys.mp hnever
  have hbox : (info.box .never).1 = info := by
    rw [box, TypeInfo.registerDirect, addOrGetDirect_of_find hfind]
  rw [TypeInfo.registerIndirect, hname]
  dsimp only
  rw [hbox]
  rfl

/-- A new name gets the next handle. -/
theorem Numbered.newName (h : Numbered empty info ts) (hname : info.nameToIndirect.find name = none)
    {new : IndirectHandle} (hnew : new.index.toNat = info.nameToIndirect.size)
    (hsize : info.nameToIndirect.size < 2 ^ 16) :
    Numbered empty { info with
      indirectTypes := info.indirectTypes.assign new ⟨.never, 0⟩
      nameToIndirect := info.nameToIndirect.assign name new } ts := by
  have hnever : (⟨.never, 0⟩ : VersionedType Name).type ∈ basicTypes Name ++ ts :=
    List.mem_append_left _ List.mem_cons_self
  have hassign := h.sound.assign new hnever
  have hnames : ∀ {name' : Name} {hnd : IndirectHandle}, (info.nameToIndirect.assign name new).find name' = some hnd →
      name' = name ∧ hnd = new ∨ info.nameToIndirect.find name' = some hnd := by
    intro name' hnd hfind
    rw [OrderedMap.find_assign] at hfind
    split at hfind
    · next heq => exact .inl ⟨heq, (Option.some.inj hfind).symm⟩
    · exact .inr hfind
  have hold : ∀ {name' : Name}, info.nameToIndirect.find name' ≠ some new := by
    intro name' hfind
    exact absurd (h.below name' new hfind) (by omega)
  constructor
  · refine ⟨hassign.grown, ?_, hassign.zero, hassign.bound⟩
    have hne : empty ≠ name := by
      rintro rfl
      exact absurd (h.sound.empty.symm.trans hname) nofun
    exact (OrderedMap.find_assign.trans (if_neg hne)).trans h.sound.empty
  · exact h.room
  · rw [OrderedMap.size_assign hname]
    exact hsize
  · intro name' hnd hfind
    rw [OrderedMap.size_assign hname]
    obtain ⟨-, rfl⟩ | hfind := hnames hfind
    · omega
    · exact (h.below name' hnd hfind).trans (Nat.lt_succ_self _)
  · intro name₁ name₂ hnd hfind hfind'
    obtain ⟨hname₁, hnew₁⟩ | hold₁ := hnames hfind
    · obtain ⟨hname₂, -⟩ | hold₂ := hnames hfind'
      · rw [hname₁, hname₂]
      · exact absurd (hnew₁ ▸ hold₂) hold
    · obtain ⟨-, hnew₂⟩ | hold₂ := hnames hfind'
      · exact absurd (hnew₂ ▸ hold₁) hold
      · exact h.apart name₁ name₂ hnd hold₁ hold₂
  · intro hnd
    rw [OrderedMap.size_assign hname]
    dsimp only
    rw [OrderedMap.find_assign]
    split
    · next heq => rw [heq]; exact ⟨fun _ => by omega, fun _ => ⟨_, rfl⟩⟩
    · next hne =>
      have hother : hnd.index.toNat ≠ info.nameToIndirect.size := by
        intro heq
        exact hne (IndirectHandle.toNat_inj (heq.trans hnew.symm))
      rw [h.listed hnd]
      omega

theorem Numbered.registerIndirect (h : Numbered empty info ts)
    (hsize : info.nameToIndirect.find name = none → info.nameToIndirect.size < 2 ^ 16) :
    Numbered empty (info.registerIndirect name).1 ts ∧ info.Extends (info.registerIndirect name).1 := by
  cases hname : info.nameToIndirect.find name with
  | some hnd =>
    rw [TypeInfo.registerIndirect, hname]
    exact ⟨h, .refl info⟩
  | none =>
    have hlt := hsize hname
    have hnew : (⟨BitVec.ofNat 16 info.nameToIndirect.size⟩ : IndirectHandle).index.toNat =
        info.nameToIndirect.size := by
      rw [BitVec.toNat_ofNat, Nat.mod_eq_of_lt hlt]
    rw [registerIndirect_new h.sound hname]
    refine ⟨h.newName hname hnew hlt,
      ⟨fun _ _ hfind => hfind, fun name' hnd hfind => ?_, fun hnd versioned hfind => ?_⟩⟩
    · have hne : name' ≠ name := by
        rintro rfl
        exact absurd (hfind.symm.trans hname) (Option.some_ne_none hnd)
      exact (OrderedMap.find_assign.trans (if_neg hne)).trans hfind
    · have hbelow := (h.listed hnd).mp ⟨versioned, hfind⟩
      have hne : hnd ≠ ⟨BitVec.ofNat 16 info.nameToIndirect.size⟩ := by
        rintro rfl
        omega
      exact ⟨versioned, (OrderedMap.find_assign.trans (if_neg hne)).trans hfind, Nat.le_refl _⟩

/-- A name is there once it has been asked for, with the handle that is returned. -/
theorem registerIndirect_find (info : TypeInfo Name) (name : Name) :
    (info.registerIndirect name).1.nameToIndirect.find name = some (info.registerIndirect name).2.2 := by
  rw [TypeInfo.registerIndirect]
  cases hname : info.nameToIndirect.find name with
  | some hnd => exact hname
  | none => exact OrderedMap.find_assign.trans (if_pos rfl)

variable {indirect : IndirectHandle}

theorem Numbered.setIndirectType (h : Numbered empty info ts) {direct : DirectHandle}
    (hset : info.setIndirectType indirect direct = .ok info') : ∃ versioned,
      info.indirectTypes.find indirect = some versioned ∧ indirect.index.toNat < info.nameToIndirect.size ∧
      info' = { info with
        indirectTypes := info.indirectTypes.assign indirect ⟨info.typeFrom direct, versioned.version + 1⟩ } := by
  rw [TypeInfo.setIndirectType] at hset
  split at hset
  · cases hset
  · next hrange =>
    have hlt : indirect.index.toNat < info.nameToIndirect.size := by omega
    obtain ⟨versioned, hfind⟩ := (h.listed indirect).mpr hlt
    rw [hfind] at hset
    exact ⟨versioned, hfind, hlt, (Except.ok.inj hset).symm⟩

theorem toNat_next {version : U32} (h : version ≠ -1) : (version + 1).toNat = version.toNat + 1 := by
  have hlast : version.toNat ≠ 2 ^ 32 - 1 := fun heq => h (BitVec.eq_of_toNat_eq heq)
  have hone : (1 : U32).toNat = 1 := rfl
  have hlt := version.isLt
  rw [BitVec.toNat_add, hone]
  omega

/-- Setting a type again gives it the next version. -/
theorem Numbered.assign (h : Numbered empty info ts) {versioned next : VersionedType Name}
    (hfind : info.indirectTypes.find indirect = some versioned) (hle : versioned.version.toNat ≤ next.version.toNat)
    (ht : next.type ∈ basicTypes Name ++ ts) :
    Numbered empty { info with indirectTypes := info.indirectTypes.assign indirect next } ts ∧
      info.Extends { info with indirectTypes := info.indirectTypes.assign indirect next } := by
  refine ⟨⟨h.sound.assign indirect ht, h.room, h.size, h.below, h.apart, fun hnd => ?_⟩,
    ⟨fun _ _ hfind => hfind, fun _ _ hfind => hfind, fun hnd old hold => ?_⟩⟩
  · rw [← h.listed hnd]
    dsimp only
    rw [OrderedMap.find_assign]
    split
    · next heq => rw [heq, hfind]; exact ⟨fun _ => ⟨_, rfl⟩, fun _ => ⟨_, rfl⟩⟩
    · rfl
  · dsimp only
    rw [OrderedMap.find_assign]
    split
    · next heq =>
      rw [heq, hfind] at hold
      exact ⟨next, rfl, by rw [← Option.some.inj hold]; exact hle⟩
    · exact ⟨old, hold, Nat.le_refl _⟩

theorem Numbered.set (h : Numbered empty info ts) {direct : DirectHandle}
    (hversion : ∀ versioned, info.indirectTypes.find indirect = some versioned → versioned.version ≠ -1) :
    Numbered empty ((info.setIndirectType indirect direct).toOption.getD info) ts ∧
      info.Extends ((info.setIndirectType indirect direct).toOption.getD info) := by
  cases hset : info.setIndirectType indirect direct with
  | error e => exact ⟨h, .refl info⟩
  | ok info' =>
    obtain ⟨versioned, hfind, -, rfl⟩ := h.setIndirectType hset
    refine h.assign hfind ?_ (h.sound.grown.typeFrom direct)
    rw [toNat_next (hversion versioned hfind)]
    exact Nat.le_succ _

/-- A call that is admitted keeps the numbering and everything that is registered. -/
theorem Numbered.perform (h : Numbered empty info ts) {op : TypeOp Name} (hadmits : info.Admits empty (.op op)) :
    ∃ us, Numbered empty (info.perform op) (ts ++ us) ∧ info.Extends (info.perform op) := by
  cases op with
  | registerDirect t => exact h.registerDirect hadmits
  | box t => exact h.registerDirect hadmits
  | registerIndirect name =>
    refine ⟨[], ?_⟩
    rw [List.append_nil]
    exact h.registerIndirect hadmits.2
  | setIndirectType indirect direct =>
    refine ⟨[], ?_⟩
    rw [List.append_nil]
    exact h.set hadmits
  | setIndirectTypeOf name direct =>
    refine ⟨[], ?_⟩
    rw [List.append_nil, TypeInfo.perform, setIndirectTypeOf]
    cases hname : info.nameToIndirect.find name with
    | none => exact ⟨h, .refl info⟩
    | some hnd => exact h.set fun versioned hfind => hadmits hnd versioned hname hfind

end TypeInfo

/-! ## What a sequence of calls keeps -/

variable {empty : Name} {calls front tail : List (Call Name)} {c : Call Name}

theorem after_append (empty : Name) (front tail : List (Call Name)) :
    after empty (front ++ tail) = (after empty front).bind fun self => tail.foldlM Guarded.call self :=
  List.foldlM_append

theorem Admitted.initial (h : Admitted empty (front ++ tail)) : Admitted empty front := by
  intro before c rest self hfront hself
  exact h before c (rest ++ tail) self (by rw [hfront, List.append_assoc, List.cons_append]) hself

theorem Admitted.op (h : Admitted empty (front ++ [c])) {info : TypeInfo Name}
    (hafter : after empty front = some ⟨info, false⟩) :
    ∃ op, c = .op op ∧ info.Admits empty (.op op) ∧ after empty (front ++ [c]) = some ⟨info.perform op, false⟩ := by
  have hadmits := h front c [] _ rfl hafter
  cases c with
  | clearIndirectTypes => exact hadmits.elim
  | op op =>
    refine ⟨op, rfl, hadmits, ?_⟩
    rw [after_append, hafter, Option.bind_some, List.foldlM_cons, Guarded.call_op]
    rfl

/-- Calls that are admitted come back, and leave a registry whose numbering holds. -/
theorem Admitted.numbered (h : Admitted empty calls) :
    ∃ info ts, after empty calls = some ⟨info, false⟩ ∧ info.Numbered empty ts := by
  induction calls using List.reverseRecOn with
  | nil => exact ⟨_, _, rfl, TypeInfo.numbered_create⟩
  | append_singleton front c ih =>
    obtain ⟨info, ts, hafter, hnumbered⟩ := ih h.initial
    obtain ⟨op, rfl, hadmits, hnext⟩ := h.op hafter
    obtain ⟨us, hperform, -⟩ := hnumbered.perform hadmits
    exact ⟨_, _, hnext, hperform⟩

/-- Later calls keep what is registered. -/
theorem Admitted.extends (h : Admitted empty (front ++ tail)) {self self' : Guarded Name}
    (hfront : after empty front = some self) (hall : after empty (front ++ tail) = some self') :
    self.info.Extends self'.info := by
  induction tail using List.reverseRecOn generalizing self' with
  | nil =>
    rw [List.append_nil, hfront] at hall
    rw [Option.some.inj hall]
    exact .refl _
  | append_singleton tail c ih =>
    rw [← List.append_assoc] at h hall
    obtain ⟨info, ts, hafter, hnumbered⟩ := h.initial.numbered
    obtain ⟨op, rfl, hadmits, hnext⟩ := h.op hafter
    obtain ⟨us, -, hextends⟩ := hnumbered.perform hadmits
    rw [← Option.some.inj (hnext.symm.trans hall)]
    exact (ih h.initial hafter).trans hextends

/-- What a call has registered is there at the end. -/
theorem Admitted.between (h : Admitted empty calls) (hcalls : calls = front ++ c :: tail) {before self : Guarded Name}
    (hbefore : after empty front = some before) (hself : after empty calls = some self) :
    ∃ info ts, before = ⟨info, false⟩ ∧ info.Numbered empty ts ∧ ∃ op, c = .op op ∧
      (info.perform op).Extends self.info ∧ ∃ us, (info.perform op).Numbered empty us := by
  have hsplit : calls = (front ++ [c]) ++ tail := by rw [hcalls, List.append_assoc, List.singleton_append]
  rw [hsplit] at h hself
  obtain ⟨info, ts, hafter, hnumbered⟩ := h.initial.initial.numbered
  obtain ⟨op, rfl, hadmits, hnext⟩ := h.initial.op hafter
  obtain ⟨us, hperform, -⟩ := hnumbered.perform hadmits
  exact ⟨info, ts, Option.some.inj (hbefore.symm.trans hafter), hnumbered, op, rfl, h.extends hnext hself, _, hperform⟩

variable {hnd : IndirectHandle}

/-- A handle is set by its number, where there is room for one more version. -/
theorem Redefines.set {info info' : TypeInfo Name} (hset : Redefines info info' c hnd) :
    ∃ direct, info.setIndirectType hnd direct = .ok info' ∧ (info.Admits empty c →
      ∀ versioned, info.indirectTypes.find hnd = some versioned → versioned.version ≠ -1) := by
  cases c with
  | clearIndirectTypes => exact absurd hset id
  | op op =>
    cases op with
    | setIndirectType indirect direct =>
      obtain ⟨rfl, hok⟩ := hset
      exact ⟨direct, hok, id⟩
    | setIndirectTypeOf name direct =>
      obtain ⟨hname, hok⟩ := hset
      rw [TypeInfo.setIndirectTypeOf, hname] at hok
      exact ⟨direct, hok, fun hadmits versioned hfind => hadmits hnd versioned hname hfind⟩
    | registerDirect t => exact absurd hset id
    | box t => exact absurd hset id
    | registerIndirect name => exact absurd hset id

/-- The call that sets a type gives it the version after the last one. -/
theorem TypeInfo.Numbered.redefines {info info' : TypeInfo Name} {ts : List (BoxedType Name)}
    (h : info.Numbered empty ts) (hset : Redefines info info' c hnd) (hadmits : info.Admits empty c) :
    ∃ versioned next, info.indirectTypes.find hnd = some versioned ∧ info'.versionedFrom hnd = .ok next ∧
      next.version.toNat = versioned.version.toNat + 1 := by
  obtain ⟨direct, hok, hversion⟩ := hset.set
  obtain ⟨versioned, hfind, hlt, rfl⟩ := h.setIndirectType hok
  refine ⟨versioned, ⟨info.typeFrom direct, versioned.version + 1⟩, hfind, ?_, toNat_next (hversion hadmits versioned hfind)⟩
  rw [TypeInfo.versionedFrom, if_neg (by dsimp only; omega)]
  dsimp only
  rw [OrderedMap.find_assign, if_pos rfl]

/-- A new version of any handle but zero does not show in `version_of`, whatever that is asked for. -/
theorem TypeInfo.Numbered.versionOf_redefines {info info' : TypeInfo Name} {ts : List (BoxedType Name)}
    (h : info.Numbered empty ts) (hset : Redefines info info' c hnd) (hzero : hnd ≠ ⟨0⟩) (handle : IndirectHandle) :
    info'.versionOf handle = info.versionOf handle := by
  obtain ⟨direct, hok, -⟩ := @Redefines.set _ _ empty _ _ _ _ hset
  obtain ⟨versioned, -, -, rfl⟩ := h.setIndirectType hok
  rw [TypeInfo.versionOf, TypeInfo.versionOf, TypeInfo.versionedFrom, TypeInfo.versionedFrom]
  dsimp only
  rw [OrderedMap.find_assign, if_neg (Ne.symm hzero)]

/-- Versions that are seen are those of the names there are. -/
theorem TypeInfo.Numbered.versionedFrom {info : TypeInfo Name} {ts : List (BoxedType Name)}
    {versioned : VersionedType Name} (h : info.Numbered empty ts) (hok : info.versionedFrom hnd = .ok versioned) :
    info.indirectTypes.find hnd = some versioned := by
  rw [TypeInfo.versionedFrom] at hok
  split at hok
  · exact absurd hok nofun
  · next hlt =>
    obtain ⟨v, hfind⟩ := (h.listed hnd).mpr (by omega)
    rw [hfind] at hok ⊢
    exact congrArg some (Except.ok.inj hok)

/-- Handles are unique and stable over every sequence of calls that the registry has room for. -/
theorem uniqueHandles_of_admitted (empty : Name) (calls : List (Call Name)) (h : Admitted empty calls) :
    UniqueHandles empty calls := by
  obtain ⟨info, ts, hafter, hnumbered⟩ := h.numbered
  have hself : ∀ {self : Guarded Name}, after empty calls = some self → self = ⟨info, false⟩ := by
    intro self hself
    exact Option.some.inj (hself.symm.trans hafter)
  have hgrown := hnumbered.sound.grown
  constructor
  · exact ⟨info, hafter⟩
  · intro self heq t u hnd ht hu
    rw [hself heq] at ht hu
    exact hgrown.distinct hnumbered.room ht hu
  · intro front t tail before self hcalls hbefore heq
    obtain ⟨middle, us, rfl, -, op, hop, hextends, -⟩ := h.between hcalls hbefore heq
    obtain rfl : .registerDirect t = op := Call.op.inj hop
    obtain ⟨entry, hfind, hfirst⟩ := Option.map_eq_some_iff.mp (DirectTypes.addOrGetDirect_find middle.toDirectTypes t)
    have hlater : self.info.getDirect t = some (middle.registerDirect t).2 := by
      rw [DirectTypes.getDirect, hextends.direct t entry hfind, Option.map_some, hfirst]
      rfl
    refine ⟨hlater, ?_⟩
    rw [hself heq] at hlater ⊢
    exact hgrown.typeFrom_eq hnumbered.room hlater
  · intro self heq t entry ht u hu
    rw [hself heq] at ht ⊢
    exact hgrown.parts_before hnumbered.room ht hu
  · intro self heq name name' hnd hname hname'
    rw [hself heq] at hname hname'
    exact hnumbered.apart name name' hnd hname hname'
  · intro front name tail before self hcalls hbefore heq
    obtain ⟨middle, us, rfl, hmiddle, op, hop, hextends, vs, hnext⟩ := h.between hcalls hbefore heq
    obtain rfl : .registerIndirect name = op := Call.op.inj hop
    have hfind : (middle.registerIndirect name).1.nameToIndirect.find name =
        some (middle.registerIndirect name).2.2 := middle.registerIndirect_find name
    refine ⟨hextends.names name _ hfind, fun hzero => ?_⟩
    have hadmits : name ≠ empty := (h front _ tail _ hcalls hbefore).1
    rw [hzero] at hfind
    exact hadmits (hnext.apart name empty ⟨0⟩ hfind hnext.sound.empty)
  · intro front c tail before next hnd hcalls hbefore hcall hset
    have hfront : Admitted empty front := by rw [hcalls] at h; exact h.initial
    obtain ⟨middle, us, hmiddle, hmnumbered⟩ := hfront.numbered
    obtain rfl := Option.some.inj (hmiddle.symm.trans hbefore)
    obtain ⟨versioned, new, hfind, hnew, hversion⟩ := hmnumbered.redefines hset (h front c tail _ hcalls hbefore)
    refine ⟨new, hnew, fun earlier rest old v hsplit hold hv heq => ?_⟩
    rw [hsplit] at hfront hbefore
    obtain ⟨first, vs, hfirst, hfnumbered⟩ := hfront.initial.numbered
    obtain rfl := Option.some.inj (hfirst.symm.trans hold)
    obtain ⟨current, hcurrent, hle⟩ := (hfront.extends hfirst hbefore).versions hnd v (hfnumbered.versionedFrom hv)
    obtain rfl : versioned = current := Option.some.inj (hfind.symm.trans hcurrent)
    rw [heq, hversion] at hle
    exact absurd hle (Nat.not_succ_le_self _)

theorem admitted_nil : Admitted empty [] := by
  intro front c tail before hsplit hbefore
  exact absurd hsplit (by simp)

theorem Admitted.concat (h : Admitted empty front)
    (hadmits : ∀ before, after empty front = some before → before.info.Admits empty c) :
    Admitted empty (front ++ [c]) := by
  intro first c' tail before hsplit hbefore
  obtain rfl | ⟨rest, last, rfl⟩ := List.eq_nil_or_concat tail
  · obtain ⟨rfl, hc⟩ := List.append_inj' hsplit rfl
    rw [← List.singleton_inj.mp hc]
    exact hadmits before hbefore
  · rw [List.concat_eq_append, ← List.cons_append, ← List.append_assoc] at hsplit
    exact h first c' rest before (List.append_inj' hsplit rfl).1 hbefore

/-- A pointer and a name for it. -/
def pointerCalls : List (Call Nat) :=
  [.op (.registerDirect (.pointer 2 (.primitive .u8))), .op (.registerIndirect 1),
    .op (.setIndirectTypeOf 1 ⟨.Pointer, 1⟩)]

theorem uniqueHandles_pointerCalls : UniqueHandles 0 pointerCalls := by
  have hpointer : Admitted 0 (pointerCalls.take 1) := by
    refine admitted_nil.concat fun before hbefore m => ?_
    obtain rfl := Option.some.inj hbefore
    cases m <;> decide
  have hname : Admitted 0 (pointerCalls.take 2) := by
    refine hpointer.concat fun before hbefore => ⟨by decide, fun _ => ?_⟩
    obtain rfl := Option.some.inj hbefore
    decide
  have hset : Admitted 0 pointerCalls := by
    refine hname.concat fun before hbefore hnd versioned hfind hversioned => ?_
    obtain rfl := Option.some.inj hbefore
    obtain rfl := Option.some.inj hfind
    obtain rfl := Option.some.inj hversioned
    decide
  exact uniqueHandles_of_admitted 0 pointerCalls hset

/-- Clearing asks for the lock that it holds. -/
theorem clear_not_uniqueHandles : ¬UniqueHandles 0 [.clearIndirectTypes] := by
  intro h
  obtain ⟨info, hafter⟩ := h.returns
  have hnone : after 0 [.clearIndirectTypes] = none := rfl
  exact absurd (hafter.symm.trans hnone) nofun

end Pepp.Debug

import Pepp.Sim.TargetBytes

/-!
# Accesses of several bytes

The loops of the buses between a caller and the devices cut an access into
stretches, each of which reaches a device as a whole. Where they cut depends on
the maps and the spans only, so that an access does what its stretches do one
after the other. It does what its bytes do one by one as long as the devices
take the stretches and their bytes are the ones behind the addresses.
-/

namespace Pepp.Targets

/-- A part of an access that reaches a device as a whole. -/
structure Stretch where
  id : U8
  address : Address
  len : Nat
  deriving DecidableEq, Repr

section Cut

variable (buses : U8 → Option SimpleBus) (spans : U8 → AddressSpan)

/-- The loop takes from a target what it has in all, wherever in it the stretch begins. -/
def stretchesLoop (inner : U8 → Address → Nat → Option (List Stretch)) (bus : SimpleBus) :
    Nat → Address → Nat → Option (List Stretch)
  | 0, _, _ => some []
  | fuel + 1, address, len =>
    if len = 0 then some []
    else
      match bus.translate address with
      | .error _ => none
      | .ok (id, target) =>
        let usable := min len (spans id).sizeInclusive
        if usable = 0 then none
        else do
          let first ← inner id target usable
          let rest ← stretchesLoop inner bus fuel (address + BitVec.ofNat 32 usable) (len - usable)
          return first ++ rest

/-- The stretches of an access, if every part of it is mapped. -/
def stretches : Nat → U8 → Address → Nat → Option (List Stretch)
  | 0, _, _, _ => none
  | depth + 1, id, address, len =>
    match buses id with
    | none => some [⟨id, address, len⟩]
    | some bus =>
      if bus.span.inBounds address len then stretchesLoop spans (stretches depth) bus len address len else none

/-- The device and the address there that a single byte goes to. -/
def place : Nat → U8 → Address → Option (U8 × Address)
  | 0, _, _ => none
  | depth + 1, id, address =>
    if (spans id).has address then
      match buses id with
      | none => some (id, address)
      | some bus =>
        match bus.translate address with
        | .error _ => none
        | .ok (id, target) => place depth id target
    else none

end Cut

/-- What is behind the place of a byte: a byte that is kept there, or one that is constant. -/
inductive Cell where
  | kept (id : U8) (address : Address)
  | constant (value : U8)
  deriving DecidableEq, Repr

def cellOf (devices : Devices) (p : U8 × Address) : Cell :=
  match (devices p.1).constant p.2 with
  | some v => .constant v
  | none => .kept p.1 p.2

def Stretch.places (self : Stretch) : List (U8 × Address) := (addresses self.address self.len).map (self.id, ·)

def Stretch.single (p : U8 × Address) : Stretch := ⟨p.1, p.2, 1⟩

/-- The same devices, whatever they hold. -/
def Alike (devices devices' : Devices) : Prop := ∀ id, (devices id).Alike (devices' id)

section

variable (buses : U8 → Option SimpleBus) (depth : Nat) (devices : Devices) (id : U8) (address : Address) (len : Nat)

/-- An access has no more bytes than there are addresses, and each of them is mapped to a device that has it. -/
def Mapped : Prop :=
  len ≤ 2 ^ 32 ∧ ∀ a ∈ addresses address len, (place buses (spanOf buses devices) depth id a).isSome

/-- The devices take the stretches of the access, whose bytes are the ones behind the addresses. -/
def Unbroken : Prop :=
  ∃ l, stretches buses (spanOf buses devices) depth id address len = some l ∧
    (∀ s ∈ l, (devices s.id).Takes s.address s.len) ∧
      ((l.flatMap Stretch.places).map fun p => some (cellOf devices p)) =
        (addresses address len).map fun a => (place buses (spanOf buses devices) depth id a).map (cellOf devices)

/-- Whatever the devices hold, an access does what its bytes do one by one. -/
def Splits : Prop :=
  ∀ (op : Operation) (devices' : Devices), Alike devices devices' → ∀ bytes : List U8, bytes.length = len → ∀ r,
    (readEach buses op depth devices' id address bytes = .ok r → read buses op depth devices' id address bytes = .ok r) ∧
      (writeEach buses op depth devices' id address bytes = .ok r →
        write buses op depth devices' id address bytes = .ok r)

end

theorem Alike.refl (devices : Devices) : Alike devices devices := fun _ => .refl _

theorem Alike.trans {devices devices' devices'' : Devices} (h : Alike devices devices') (h' : Alike devices' devices'') :
    Alike devices devices'' := fun id => (h id).trans (h' id)

theorem alike_update {devices : Devices} {id : U8} {device : Device} (h : (devices id).Alike device) :
    Alike devices (Function.update devices id device) := by
  intro id'
  by_cases he : id' = id
  · subst he
    rwa [Function.update_self]
  · rw [Function.update_of_ne he]
    exact .refl _

theorem Alike.spanOf_eq {buses : U8 → Option SimpleBus} {devices devices' : Devices} (h : Alike devices devices') :
    spanOf buses devices' = spanOf buses devices := by
  funext id
  unfold spanOf
  split
  · rfl
  · exact (h id).span_eq

theorem Alike.cellOf_eq {devices devices' : Devices} (h : Alike devices devices') (p : U8 × Address) :
    cellOf devices' p = cellOf devices p := by
  rw [cellOf, cellOf, (h p.1).constant_eq]

/-! ## Stretches one after the other -/

section Run

variable (step : Device → Address → List U8 → Except TargetError (Device × List U8))

def run : List Stretch → Devices → List U8 → Except TargetError (Devices × List U8)
  | [], devices, _ => .ok (devices, [])
  | s :: l, devices, bytes => do
    let (device, out) ← step (devices s.id) s.address (bytes.take s.len)
    let (devices, rest) ← run l (Function.update devices s.id device) (bytes.drop s.len)
    return (devices, out ++ rest)

def total (l : List Stretch) : Nat := (l.map Stretch.len).sum

variable {step} {answer : U8 → U8 → U8} {buses : U8 → Option SimpleBus} {spans : U8 → AddressSpan}
  {devices devices' : Devices} {id : U8} {address : Address} {bytes : List U8} {l : List Stretch} {depth fuel len : Nat}
  {r : Devices × List U8}

theorem run_cons {s : Stretch} : run step (s :: l) devices bytes = .ok r ↔
    ∃ device out rest, step (devices s.id) s.address (bytes.take s.len) = .ok (device, out) ∧
      run step l (Function.update devices s.id device) (bytes.drop s.len) = .ok rest ∧ r = (rest.1, out ++ rest.2) :=
  Runs.append_ok.trans Prod.exists

theorem run_append {l' : List Stretch} : run step (l ++ l') devices bytes = .ok r ↔
    ∃ mid rest, run step l devices (bytes.take (total l)) = .ok mid ∧
      run step l' mid.1 (bytes.drop (total l)) = .ok rest ∧ r = (rest.1, mid.2 ++ rest.2) := by
  induction l generalizing devices bytes r with
  | nil =>
    constructor
    · exact fun h => ⟨(devices, []), r, rfl, h, rfl⟩
    · rintro ⟨mid, rest, h₁, h₂, rfl⟩
      obtain rfl := Except.ok.inj h₁
      exact h₂
  | cons s l ih =>
    have htotal : total (s :: l) = s.len + total l := List.sum_cons
    simp only [List.cons_append, run_cons, ih, htotal, List.take_take, List.drop_drop, List.drop_take,
      Nat.min_eq_left (Nat.le_add_right s.len (total l)), Nat.add_sub_cancel_left]
    constructor
    · rintro ⟨device, out, _, h₁, ⟨mid, rest, h₂, h₃, rfl⟩, rfl⟩
      exact ⟨_, rest, ⟨device, out, mid, h₁, h₂, rfl⟩, h₃, by rw [List.append_assoc]⟩
    · rintro ⟨_, rest, ⟨device, out, mid, h₁, h₂, rfl⟩, h₃, rfl⟩
      exact ⟨device, out, _, h₁, ⟨mid, rest, h₂, h₃, rfl⟩, by rw [List.append_assoc]⟩

theorem alike_run (hb : Device.Bytewise step answer) (h : run step l devices bytes = .ok r) : Alike devices r.1 := by
  induction l generalizing devices bytes r with
  | nil =>
    obtain rfl := Except.ok.inj h
    exact .refl _
  | cons s l ih =>
    obtain ⟨device, out, rest, h₁, h₂, rfl⟩ := run_cons.mp h
    have hrest := ih h₂
    exact (alike_update (hb.alike h₁)).trans hrest

/-! ## The stretches of an access -/

/-- A stretch comes to a device and has no more bytes than the device. -/
def Fits (buses : U8 → Option SimpleBus) (spans : U8 → AddressSpan) (s : Stretch) : Prop :=
  buses s.id = none ∧ 0 < s.len ∧ s.len ≤ (spans s.id).sizeInclusive

/-- The stretches have all bytes of an access, as long as it is not larger than its target. -/
def Whole (buses : U8 → Option SimpleBus) (spans : U8 → AddressSpan)
    (inner : U8 → Address → Nat → Option (List Stretch)) : Prop :=
  ∀ id address n l, 0 < n → n ≤ (spans id).sizeInclusive → inner id address n = some l →
    total l = n ∧ ∀ s ∈ l, Fits buses spans s

variable {bus : SimpleBus} {inner : U8 → Address → Nat → Option (List Stretch)} {p : U8 × Address}
  {places : List (U8 × Address)}

theorem whole_loop (hinner : Whole buses spans inner) (hfuel : len ≤ fuel)
    (h : stretchesLoop spans inner bus fuel address len = some l) : total l = len ∧ ∀ s ∈ l, Fits buses spans s := by
  induction fuel generalizing address len l with
  | zero =>
    cases h
    exact ⟨(Nat.le_zero.mp hfuel).symm, fun _ hs => absurd hs List.not_mem_nil⟩
  | succ fuel ih =>
    rw [stretchesLoop] at h
    split at h
    · rename_i hzero
      cases h
      exact ⟨hzero.symm, fun _ hs => absurd hs List.not_mem_nil⟩
    · cases ht : bus.translate address with
      | error f => simp [ht] at h
      | ok found =>
        rw [ht] at h
        dsimp only at h
        split at h
        · cases h
        · obtain ⟨first, hfirst, h⟩ := Option.bind_eq_some_iff.mp h
          obtain ⟨rest, hrest, h⟩ := Option.bind_eq_some_iff.mp h
          cases h
          obtain ⟨htotal, hfits⟩ := hinner _ _ _ _ (by omega) (Nat.min_le_right _ _) hfirst
          obtain ⟨htotal', hfits'⟩ := ih (by omega) hrest
          refine ⟨?_, List.forall_mem_append.mpr ⟨hfits, hfits'⟩⟩
          rw [total, List.map_append, List.sum_append, ← total, ← total, htotal, htotal']
          omega

theorem whole_stretches (buses : U8 → Option SimpleBus) (spans : U8 → AddressSpan) (depth : Nat) :
    Whole buses spans (stretches buses spans depth) := by
  induction depth with
  | zero => exact fun _ _ _ _ _ _ h => by cases h
  | succ depth ih =>
    intro id address n l hpos hle h
    rw [stretches] at h
    split at h
    · rename_i hnone
      cases h
      exact ⟨Nat.add_zero n, List.forall_mem_singleton.mpr ⟨hnone, hpos, hle⟩⟩
    · split at h
      · exact whole_loop ih (Nat.le_refl n) h
      · cases h

theorem run_nil_iff : (.ok (devices, []) : Except TargetError (Devices × List U8)) = .ok r ↔
    ∃ l, some [] = some l ∧ run step l devices bytes = .ok r :=
  ⟨fun h => ⟨[], rfl, h⟩, fun ⟨_, hl, h⟩ => by cases hl; exact h⟩

theorem loop_iff {call : Call} {inner : U8 → Address → Nat → Option (List Stretch)} (hb : Device.Bytewise step answer)
    (hcall : ∀ devices id address bytes r, spanOf buses devices = spans → (call devices id address bytes = .ok r ↔
      ∃ l, inner id address bytes.length = some l ∧ run step l devices bytes = .ok r))
    (hinner : Whole buses spans inner) {bus : SimpleBus} (hspans : spanOf buses devices = spans) :
    accessLoop buses call bus fuel devices address bytes = .ok r ↔
      ∃ l, stretchesLoop spans inner bus fuel address bytes.length = some l ∧ run step l devices bytes = .ok r := by
  induction fuel generalizing devices address bytes r with
  | zero => exact run_nil_iff
  | succ fuel ih =>
    rw [accessLoop, stretchesLoop]
    by_cases hzero : bytes.length = 0
    · rw [if_pos hzero, if_pos hzero]
      exact run_nil_iff
    rw [if_neg hzero, if_neg hzero]
    cases ht : bus.translate address with
    | error f => simp
    | ok found =>
      obtain ⟨id, target⟩ := found
      dsimp only
      rw [hspans]
      have husable : min bytes.length (spans id).sizeInclusive ≤ bytes.length := Nat.min_le_left _ _
      have hsize : min bytes.length (spans id).sizeInclusive ≤ (spans id).sizeInclusive := Nat.min_le_right _ _
      generalize min bytes.length (spans id).sizeInclusive = usable at husable hsize ⊢
      by_cases hnone : usable = 0
      · simp [hnone]
      rw [if_neg hnone, if_neg hnone]
      have htake : (bytes.take usable).length = usable := List.length_take_of_le husable
      have hdrop : (bytes.drop usable).length = bytes.length - usable := List.length_drop
      constructor
      · intro h
        obtain ⟨mid, rest, h₁, h₂, rfl⟩ := Runs.append_ok.mp h
        obtain ⟨first, hfirst, hrun⟩ := (hcall _ _ _ _ _ hspans).mp h₁
        rw [htake] at hfirst
        have hmid : spanOf buses mid.1 = _ := (alike_run hb hrun).spanOf_eq
        obtain ⟨l, hl, hrest⟩ := (ih (hmid.trans hspans)).mp h₂
        rw [hdrop] at hl
        refine ⟨first ++ l, Option.bind_eq_some_iff.mpr ⟨first, hfirst, Option.bind_eq_some_iff.mpr ⟨l, hl, rfl⟩⟩, ?_⟩
        rw [run_append, (hinner _ _ _ _ (Nat.pos_of_ne_zero hnone) hsize hfirst).1]
        exact ⟨mid, rest, hrun, hrest, rfl⟩
      · rintro ⟨l, hl, hrun⟩
        obtain ⟨first, hfirst, hl⟩ := Option.bind_eq_some_iff.mp hl
        obtain ⟨rest, hrest, hl⟩ := Option.bind_eq_some_iff.mp hl
        cases hl
        rw [run_append, (hinner _ _ _ _ (Nat.pos_of_ne_zero hnone) hsize hfirst).1] at hrun
        obtain ⟨mid, out, h₁, h₂, rfl⟩ := hrun
        have hmid : spanOf buses mid.1 = _ := (alike_run hb h₁).spanOf_eq
        exact Runs.append_ok.mpr ⟨mid, out, (hcall _ _ _ _ _ hspans).mpr ⟨first, by rw [htake]; exact hfirst, h₁⟩,
          (ih (hmid.trans hspans)).mpr ⟨rest, by rw [hdrop]; exact hrest, h₂⟩, rfl⟩

/-- An access does what its stretches do one after the other. -/
theorem access_iff (hb : Device.Bytewise step answer) (hspans : spanOf buses devices = spans) :
    access buses step depth devices id address bytes = .ok r ↔
      ∃ l, stretches buses spans depth id address bytes.length = some l ∧ run step l devices bytes = .ok r := by
  induction depth generalizing devices id address bytes r with
  | zero => simp [access, stretches]
  | succ depth ih =>
    rw [access, stretches]
    cases buses id with
    | none =>
      dsimp only
      constructor
      · intro h
        obtain ⟨⟨device, out⟩, h₁, h⟩ := Runs.bind_ok.mp h
        cases h
        refine ⟨_, rfl, run_cons.mpr ⟨device, out, (_, []), ?_, rfl, by rw [List.append_nil]⟩⟩
        rw [List.take_length]
        exact h₁
      · rintro ⟨l, hl, hrun⟩
        cases hl
        obtain ⟨device, out, rest, h₁, h₂, rfl⟩ := run_cons.mp hrun
        rw [List.take_length] at h₁
        obtain rfl := Except.ok.inj h₂
        exact Runs.bind_ok.mpr ⟨_, h₁, by rw [List.append_nil]; rfl⟩
    | some bus =>
      dsimp only
      by_cases hin : bus.span.inBounds address bytes.length
      · rw [if_pos hin, if_pos hin]
        refine loop_iff hb ?_ (whole_stretches buses spans depth) hspans
        exact fun _ _ _ _ _ hspans => ih hspans
      · rw [if_neg hin, if_neg hin]
        simp

/-! ## Bytes one by one -/

theorem has_of_place (h : place buses spans depth id address = some p) : (spans id).has address := by
  cases depth with
  | zero => cases h
  | succ depth =>
    rw [place] at h
    split at h
    · rename_i hhas
      exact hhas
    · cases h

theorem inBounds_of_has {span : AddressSpan} (h : span.has address) : span.inBounds address 1 := by
  refine ⟨h.2.1, ?_⟩
  rw [show (BitVec.ofNat 32 1 - 1 : U32) = 0#32 from rfl, BitVec.add_zero]
  exact h.2.2

theorem size_of_has {span : AddressSpan} (h : span.has address) :
    (address - span.lower).toNat + 1 ≤ span.sizeInclusive := by
  obtain ⟨hvalid, hlower, hupper⟩ := h
  rw [AddressSpan.sizeInclusive, AddressSpan.size, if_neg (not_not.mpr hvalid), BitVec.toNat_sub_of_le hlower]
  have : address.toNat ≤ span.upper.toNat := hupper
  have : span.lower.toNat ≤ address.toNat := hlower
  simp only [Bool.false_eq_true, if_false]
  omega

theorem takes_of_has {device : Device} (h : device.span.has address) : device.Takes address 1 := by
  cases device with
  | ram memory =>
    cases memory with
    | dense ram => exact ⟨inBounds_of_has h, size_of_has h⟩
    | sparse span pool => exact ⟨inBounds_of_has h, (by decide : 1 < 2 ^ 32)⟩
  | _ => exact inBounds_of_has h

theorem stretches_of_place (hspans : spanOf buses devices = spans) (h : place buses spans depth id address = some p) :
    stretches buses spans depth id address 1 = some [.single p] ∧ buses p.1 = none ∧ (spans p.1).has p.2 := by
  induction depth generalizing id address with
  | zero => cases h
  | succ depth ih =>
    have hhas := has_of_place h
    rw [place, if_pos hhas] at h
    rw [stretches]
    cases hbus : buses id with
    | none =>
      rw [hbus] at h
      cases h
      exact ⟨rfl, hbus, hhas⟩
    | some bus =>
      rw [hbus] at h
      dsimp only at h ⊢
      have hspan : spans id = bus.span := by rw [← hspans, spanOf, hbus]
      rw [if_pos (inBounds_of_has (hspan ▸ hhas)), stretchesLoop, if_neg Nat.one_ne_zero]
      cases ht : bus.translate address with
      | error f => simp [ht] at h
      | ok found =>
        obtain ⟨id', target⟩ := found
        rw [ht] at h
        dsimp only at h ⊢
        obtain ⟨hl, hrest⟩ := ih h
        have hsize := size_of_has (has_of_place h)
        have hone : min 1 (spans id').sizeInclusive = 1 := by omega
        rw [hone, if_neg Nat.one_ne_zero, hl]
        exact ⟨rfl, hrest⟩

/-- Accesses of one byte each do what the devices behind the bytes do. -/
theorem accessEach_iff (hb : Device.Bytewise step answer) (hspans : spanOf buses devices = spans)
    (hplaces : (addresses address bytes.length).map (place buses spans depth id) = places.map some) :
    accessEach buses step depth devices id address bytes = .ok r ↔
      run step (places.map Stretch.single) devices bytes = .ok r := by
  induction bytes generalizing devices address places r with
  | nil =>
    obtain rfl : places = [] := by simpa [addresses] using hplaces
    exact Iff.rfl
  | cons b bytes ih =>
    rw [List.length_cons, addresses_succ, List.map_cons] at hplaces
    obtain ⟨p, places, rfl⟩ : ∃ p rest, places = p :: rest := by
      cases places with
      | nil => cases hplaces
      | cons p rest => exact ⟨p, rest, rfl⟩
    obtain ⟨hp, hplaces⟩ := List.cons.inj hplaces
    have hone := (stretches_of_place hspans hp).1
    rw [List.map_cons, run_cons]
    constructor
    · intro h
      obtain ⟨mid, rest, h₁, h₂, rfl⟩ := Runs.append_ok.mp h
      obtain ⟨l, hl, hrun⟩ := (access_iff hb hspans).mp h₁
      cases hone.symm.trans hl
      obtain ⟨device, out, last, h₃, h₄, rfl⟩ := run_cons.mp hrun
      obtain rfl := Except.ok.inj h₄
      have hmid : spanOf buses _ = _ := (alike_run hb hrun).spanOf_eq
      rw [List.append_nil]
      exact ⟨device, out, rest, h₃, (ih (hmid.trans hspans) hplaces).mp h₂, rfl⟩
    · rintro ⟨device, out, rest, h₁, h₂, rfl⟩
      have hmid : spanOf buses _ = _ := (alike_update (hb.alike h₁)).spanOf_eq
      refine Runs.append_ok.mpr ⟨(Function.update devices p.1 device, out), rest,
        (access_iff hb hspans).mpr ⟨_, hone, ?_⟩, (ih (hmid.trans hspans) hplaces).mpr h₂, rfl⟩
      exact run_cons.mpr ⟨device, out, (_, []), h₁, rfl, by rw [List.append_nil]; rfl⟩

section Cells

variable (step) (answer)

def stepCell (devices : Devices) : Cell → U8 → Except TargetError (Devices × List U8)
  | .constant v, b => .ok (devices, [answer v b])
  | .kept id address, b => do
    let (device, out) ← step (devices id) address [b]
    return (Function.update devices id device, out)

def runCells : List Cell → Devices → List U8 → Except TargetError (Devices × List U8)
  | c :: cells, devices, b :: bytes => do
    let (devices, out) ← stepCell step answer devices c b
    let (devices, rest) ← runCells cells devices bytes
    return (devices, out ++ rest)
  | _, devices, _ => .ok (devices, [])

end Cells

theorem runCells_cons {c : Cell} {cells : List Cell} {b : U8} : runCells step answer (c :: cells) devices (b :: bytes) = .ok r ↔
    ∃ mid rest, stepCell step answer devices c b = .ok mid ∧ runCells step answer cells mid.1 bytes = .ok rest ∧
      r = (rest.1, mid.2 ++ rest.2) := Runs.append_ok

theorem runCells_append {cells cells' : List Cell} {bytes' : List U8} (hlen : cells.length = bytes.length)
    (h : runCells step answer (cells ++ cells') devices (bytes ++ bytes') = .ok r) :
    ∃ mid rest, runCells step answer cells devices bytes = .ok mid ∧ runCells step answer cells' mid.1 bytes' = .ok rest ∧
      r = (rest.1, mid.2 ++ rest.2) := by
  induction cells generalizing devices bytes r with
  | nil =>
    obtain rfl := List.length_eq_zero_iff.mp hlen.symm
    exact ⟨(devices, []), r, rfl, h, rfl⟩
  | cons c cells ih =>
    cases bytes with
    | nil => cases hlen
    | cons b bytes =>
      obtain ⟨mid, rest, h₁, h₂, rfl⟩ := runCells_cons.mp h
      obtain ⟨mid', rest', h₃, h₄, rfl⟩ := ih (Nat.succ.inj hlen) h₂
      exact ⟨_, rest', runCells_cons.mpr ⟨mid, mid', h₁, h₃, rfl⟩, h₄, by rw [List.append_assoc]⟩

/-- A byte in a stretch of its own does what the cell behind it does. -/
theorem run_singles (hb : Device.Bytewise step answer) (halike : Alike devices devices')
    (htakes : ∀ p ∈ places, (devices p.1).Takes p.2 1) (hlen : places.length = bytes.length)
    (h : run step (places.map Stretch.single) devices' bytes = .ok r) :
    runCells step answer (places.map (cellOf devices)) devices' bytes = .ok r := by
  induction places generalizing devices' bytes r with
  | nil =>
    cases bytes with
    | nil => exact h
    | cons b bytes => cases hlen
  | cons p places ih =>
    obtain ⟨b, bytes, rfl⟩ : ∃ b rest, bytes = b :: rest := by
      cases bytes with
      | nil => cases hlen
      | cons b rest => exact ⟨b, rest, rfl⟩
    obtain ⟨hp, htakes⟩ := List.forall_mem_cons.mp htakes
    obtain ⟨device, out, rest, h₁, h₂, rfl⟩ := run_cons.mp h
    have hrest := ih (halike.trans (alike_update (hb.alike h₁))) htakes (Nat.succ.inj hlen) h₂
    refine runCells_cons.mpr ⟨(Function.update devices' p.1 device, out), rest, ?_, hrest, rfl⟩
    have h₁ : step (devices' p.1) p.2 [b] = .ok (device, out) := h₁
    rw [← halike.cellOf_eq, cellOf]
    cases hv : (devices' p.1).constant p.2 with
    | none => exact Runs.bind_ok.mpr ⟨_, h₁, rfl⟩
    | some v =>
      obtain ⟨rfl, rfl⟩ := Prod.mk.inj (Except.ok.inj ((hb.constant b hv ((halike p.1).takes_iff.mpr hp)).symm.trans h₁))
      rw [Function.update_eq_self]
      rfl

/-- The cells of one device do what the device does byte by byte. -/
theorem eachByte_of_cells (hb : Device.Bytewise step answer) (halike : Alike devices devices')
    (h : runCells step answer ((addresses address bytes.length).map fun a => cellOf devices (id, a)) devices' bytes = .ok r) :
    ∃ device out, Device.eachByte step answer (devices' id) address bytes = .ok (device, out) ∧
      r = (Function.update devices' id device, out) := by
  induction bytes generalizing address devices' r with
  | nil =>
    obtain rfl := Except.ok.inj h
    exact ⟨devices' id, [], rfl, by rw [Function.update_eq_self]⟩
  | cons b bytes ih =>
    rw [List.length_cons, addresses_succ, List.map_cons] at h
    obtain ⟨mid, rest, h₁, h₂, rfl⟩ := runCells_cons.mp h
    obtain ⟨device, hbyte, hmid, hd⟩ : ∃ device, Device.stepByte step answer (devices' id) address b = .ok (device, mid.2) ∧
        mid.1 = Function.update devices' id device ∧ (devices' id).Alike device := by
      rw [← halike.cellOf_eq, cellOf] at h₁
      rw [Device.stepByte]
      cases hv : (devices' id).constant address with
      | some v =>
        rw [hv] at h₁
        cases h₁
        exact ⟨devices' id, rfl, (Function.update_eq_self id devices').symm, .refl _⟩
      | none =>
        rw [hv] at h₁
        obtain ⟨⟨device, out⟩, hstep, h₁⟩ := Runs.bind_ok.mp h₁
        cases h₁
        exact ⟨device, hstep, rfl, hb.alike hstep⟩
    rw [hmid] at h₂
    obtain ⟨device', out, heach, hrest⟩ := ih (halike.trans (alike_update hd)) h₂
    rw [Function.update_self] at heach
    refine ⟨device', mid.2 ++ out, Device.eachByte_cons.mpr ⟨device, mid.2, (device', out), hbyte, heach, rfl⟩, ?_⟩
    rw [hrest, Function.update_idem]

/-- Stretches that are taken do what their cells do. -/
theorem run_of_cells (hb : Device.Bytewise step answer) (halike : Alike devices devices')
    (hfits : ∀ s ∈ l, (devices s.id).Takes s.address s.len ∧ 0 < s.len ∧ s.len ≤ (devices s.id).span.sizeInclusive)
    (hlen : total l = bytes.length)
    (h : runCells step answer ((l.flatMap Stretch.places).map (cellOf devices)) devices' bytes = .ok r) :
    run step l devices' bytes = .ok r := by
  induction l generalizing devices' bytes r with
  | nil =>
    obtain rfl := List.length_eq_zero_iff.mp hlen.symm
    exact h
  | cons s l ih =>
    obtain ⟨⟨htakes, hpos, hle⟩, hfits⟩ := List.forall_mem_cons.mp hfits
    have htotal : s.len + total l = bytes.length := List.sum_cons.symm.trans hlen
    have htake : (bytes.take s.len).length = s.len := List.length_take_of_le (by omega)
    rw [← List.take_append_drop s.len bytes, List.flatMap_cons, List.map_append] at h
    have hcells : s.places.map (cellOf devices) =
        (addresses s.address (bytes.take s.len).length).map fun a => cellOf devices (s.id, a) := by
      rw [Stretch.places, List.map_map, htake]
      rfl
    rw [hcells] at h
    obtain ⟨mid, rest, h₁, h₂, rfl⟩ := runCells_append (by rw [List.length_map, length_addresses]) h
    obtain ⟨device, out, heach, rfl⟩ := eachByte_of_cells hb halike h₁
    have hstep := hb.each ((halike s.id).takes_iff.mpr (by rw [htake]; exact htakes))
      (List.ne_nil_of_length_pos (by omega)) (by rw [htake, (halike s.id).span_eq]; exact hle) heach
    have hdrop : total l = (bytes.drop s.len).length := by
      rw [List.length_drop]
      omega
    exact run_cons.mpr ⟨device, out, rest, hstep,
      ih (halike.trans (alike_update (hb.alike hstep))) hfits hdrop h₂, rfl⟩

/-! ## Unbroken accesses -/

theorem whole_bus (hbus : buses id = some bus) (h : stretches buses spans depth id address len = some l) :
    total l = len ∧ ∀ s ∈ l, Fits buses spans s := by
  cases depth with
  | zero => cases h
  | succ depth =>
    rw [stretches, hbus] at h
    dsimp only at h
    split at h
    · exact whole_loop (whole_stretches buses spans depth) (Nat.le_refl len) h
    · cases h

theorem Fits.size_le {s : Stretch} (h : Fits buses (spanOf buses devices) s) :
    s.len ≤ (devices s.id).span.sizeInclusive := by
  have hle := h.2.2
  rwa [spanOf, h.1] at hle

theorem takes_of_place (h : place buses (spanOf buses devices) depth id address = some p) :
    Fits buses (spanOf buses devices) (.single p) ∧ (devices p.1).Takes p.2 1 := by
  obtain ⟨-, hnone, hhas⟩ := stretches_of_place rfl h
  have hsize := size_of_has hhas
  refine ⟨⟨hnone, Nat.one_pos, (Nat.le_add_left 1 _).trans hsize⟩, takes_of_has ?_⟩
  rwa [spanOf, hnone] at hhas

theorem Mapped.exists_places (h : Mapped buses depth devices id address len) : ∃ places : List (U8 × Address),
    (addresses address len).map (place buses (spanOf buses devices) depth id) = places.map some := by
  obtain ⟨-, hall⟩ := h
  generalize addresses address len = row at hall ⊢
  induction row with
  | nil => exact ⟨[], rfl⟩
  | cons a row ih =>
    obtain ⟨ha, hall⟩ := List.forall_mem_cons.mp hall
    obtain ⟨p, hp⟩ := Option.isSome_iff_exists.mp ha
    obtain ⟨places, hplaces⟩ := ih hall
    exact ⟨p :: places, by rw [List.map_cons, List.map_cons, hp, hplaces]⟩

/-- The cells behind the addresses of an access. -/
theorem cells_iff
    (hplaces : (addresses address len).map (place buses (spanOf buses devices) depth id) = places.map some) :
    ((l.flatMap Stretch.places).map fun p => some (cellOf devices p)) =
        (addresses address len).map (fun a => (place buses (spanOf buses devices) depth id a).map (cellOf devices)) ↔
      (l.flatMap Stretch.places).map (cellOf devices) = places.map (cellOf devices) := by
  have hright : (addresses address len).map (fun a => (place buses (spanOf buses devices) depth id a).map (cellOf devices)) =
      (places.map (cellOf devices)).map some := by
    have hmap := congrArg (List.map (Option.map (cellOf devices))) hplaces
    rw [List.map_map, List.map_map] at hmap
    rw [List.map_map]
    exact hmap
  have hleft : ((l.flatMap Stretch.places).map fun p => some (cellOf devices p)) =
      ((l.flatMap Stretch.places).map (cellOf devices)).map some := by
    rw [List.map_map]
    rfl
  rw [hleft, hright]
  exact (List.map_injective_iff.mpr (Option.some_injective _)).eq_iff

theorem access_of_each (hb : Device.Bytewise step answer) (hbus : buses id = some bus)
    (hmapped : Mapped buses depth devices id address bytes.length)
    (hunbroken : Unbroken buses depth devices id address bytes.length) (halike : Alike devices devices')
    (h : accessEach buses step depth devices' id address bytes = .ok r) :
    access buses step depth devices' id address bytes = .ok r := by
  obtain ⟨places, hplaces⟩ := hmapped.exists_places
  obtain ⟨l, hl, htakes, hcells⟩ := hunbroken
  obtain ⟨htotal, hfits⟩ := whole_bus hbus hl
  have hmem : ∀ p ∈ places, (devices p.1).Takes p.2 1 := by
    intro p hp
    have hp : some p ∈ places.map some := List.mem_map_of_mem hp
    rw [← hplaces] at hp
    obtain ⟨a, -, ha⟩ := List.mem_map.mp hp
    exact (takes_of_place ha).2
  have hlen : places.length = bytes.length := by
    have := congrArg List.length hplaces
    rw [List.length_map, List.length_map, length_addresses] at this
    exact this.symm
  have hrun := run_singles hb halike hmem hlen ((accessEach_iff hb halike.spanOf_eq hplaces).mp h)
  rw [← (cells_iff hplaces).mp hcells] at hrun
  refine (access_iff hb halike.spanOf_eq).mpr ⟨l, hl, run_of_cells hb halike (fun s hs => ?_) htotal hrun⟩
  exact ⟨htakes s hs, (hfits s hs).2.1, (hfits s hs).size_le⟩

end Run

end Pepp.Targets

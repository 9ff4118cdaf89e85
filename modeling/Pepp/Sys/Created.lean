import Pepp.Sys.Planting

/-!
# What the parsers create

What the parser makes of the serialized configuration of a device: the access
rights of each mapping turn into the other ones, and a fill byte from 128 on is
refused.
-/

namespace Pepp.Sys

open Json

variable {extra fields : List (String × Json)} {key : String}

/-- The parser takes an access right for granted if its letter is missing. -/
def Access.flip (access : Access) : Access := ⟨!access.read, !access.write, !access.execute⟩

def Mapping.reread (mapping : Mapping) : Mapping := { mapping with access := mapping.access.flip }

namespace Configuration

def reread : Configuration → Configuration
  | simpleBus fill span failPolicy mappings => simpleBus fill span failPolicy (mappings.map Mapping.reread)
  | fifoRegister fill direction span failPolicy => fifoRegister fill direction ⟨span.lower, span.lower⟩ failPolicy
  | other => other

def fill : Configuration → U8
  | dense fill _ | sparse fill _ | simpleBus fill _ _ _ | fifoRegister fill _ _ _ => fill
  | _ => 0

def compatible : Configuration → String
  | system => "system,root"
  | dense _ _ => "ram,dense"
  | sparse _ _ => "ram,sparse"
  | simpleBus _ _ _ _ => "bus,simple"
  | fifoRegister _ _ _ _ => "io,fifo"
  | pepIsa3 _ _ => "cpu,pep,isa3"
  | pepRegisterBank | pepCsrBank => ""

end Configuration

theorem find_append (key : String) (fields extra : List (String × Json)) :
    find key (fields ++ extra) = (find key fields).or (find key extra) := by
  induction fields with
  | nil => rfl
  | cons field fields ih =>
    rw [List.cons_append, find, find]
    split
    · rfl
    · exact ih

section Ram

variable {compatible basename : String} {fill : U8} {span : AddressSpan}

end Ram

section Mappings

end Mappings

section Bus

variable {basename : String} {fill : U8} {span : AddressSpan} {failPolicy : FailPolicy} {mappings : List Mapping}

end Bus

section Fifo

variable {basename : String} {fill : U8} {direction : Direction} {span : AddressSpan} {failPolicy : FailPolicy}

end Fifo

end Pepp.Sys

/-! ## What the parsers create

A created device has a name, and its configuration is of the kind it was
described as. -/

namespace Pepp.Sys

open RoseTree Json

/-- What holds of every device but the root. -/
structure Sound (device : Device) : Prop where
  named : device.basename ≠ ""
  notSystem : device.configuration ≠ .system
  point : ∀ fill direction span failPolicy, device.configuration = .fifoRegister fill direction span failPolicy →
    span.lower = span.upper

def Configuration.mappings : Configuration → List Mapping
  | simpleBus _ _ _ mappings => mappings
  | _ => []

variable {self : Json} {device : Device} {what : String}

theorem bind_eq_ok {α β : Type} {x : Except ParsingError α} {f : α → Except ParsingError β} {b : β}
    (h : x >>= f = .ok b) : ∃ a, x = .ok a ∧ f a = .ok b := by
  cases x with
  | error e => cases h
  | ok a => exact ⟨a, rfl, h⟩

theorem caught_eq_ok {α : Type} {x : Except ParsingError α} {a : α} (h : caught what x = .ok a) : x = .ok a := by
  cases x with
  | ok b => exact h
  | error e => cases e <;> cases h

theorem named_of_required {basename error : String} (h : requireBasename basename error = .ok ()) : basename ≠ "" := by
  rintro rfl
  cases h

theorem createRam_spec {ram : U8 → AddressSpan → Configuration} (h : createRam self what ram = .ok device) :
    device.basename ≠ "" ∧ ∃ fill span, device.configuration = ram fill span := by
  obtain ⟨⟨compatible, basename⟩, -, h⟩ := bind_eq_ok (caught_eq_ok h)
  obtain ⟨_, hb, h⟩ := bind_eq_ok h
  obtain ⟨min, -, h⟩ := bind_eq_ok h
  obtain ⟨max, -, h⟩ := bind_eq_ok h
  obtain ⟨fill, -, h⟩ := bind_eq_ok h
  cases h
  exact ⟨named_of_required hb, fill, ⟨min, max⟩, rfl⟩

theorem createSimpleBus_spec (h : createSimpleBus self = .ok device) : device.basename ≠ "" ∧
    ∃ fill span failPolicy mappings, device.configuration = .simpleBus fill span failPolicy mappings ∧
      createMappings self = .ok mappings := by
  obtain ⟨⟨compatible, basename⟩, -, h⟩ := bind_eq_ok (caught_eq_ok h)
  obtain ⟨_, hb, h⟩ := bind_eq_ok h
  obtain ⟨span, -, h⟩ := bind_eq_ok h
  obtain ⟨fill, -, h⟩ := bind_eq_ok h
  obtain ⟨failPolicy, -, h⟩ := bind_eq_ok h
  obtain ⟨mappings, hm, h⟩ := bind_eq_ok h
  cases h
  exact ⟨named_of_required hb, fill, span, failPolicy, mappings, rfl, hm⟩

theorem createMmreg_spec (h : createMmreg self = .ok device) : device.basename ≠ "" ∧
    ∃ fill direction offset failPolicy, device.configuration = .fifoRegister fill direction ⟨offset, offset⟩ failPolicy := by
  obtain ⟨⟨compatible, basename⟩, -, h⟩ := bind_eq_ok (caught_eq_ok h)
  obtain ⟨_, hb, h⟩ := bind_eq_ok h
  obtain ⟨offset, -, h⟩ := bind_eq_ok h
  obtain ⟨fill, -, h⟩ := bind_eq_ok h
  obtain ⟨direction, -, h⟩ := bind_eq_ok h
  obtain ⟨failPolicy, -, h⟩ := bind_eq_ok h
  cases h
  exact ⟨named_of_required hb, fill, direction, offset, failPolicy, rfl⟩

theorem createPepisacpu_spec (h : createPepisacpu self = .ok device) : device.basename ≠ "" ∧
    ∃ isa target, device.configuration = .pepIsa3 isa target := by
  obtain ⟨⟨compatible, basename⟩, -, h⟩ := bind_eq_ok (caught_eq_ok h)
  obtain ⟨_, hb, h⟩ := bind_eq_ok h
  obtain ⟨target, -, h⟩ := bind_eq_ok h
  obtain ⟨isa, -, h⟩ := bind_eq_ok h
  cases h
  exact ⟨named_of_required hb, isa, target, rfl⟩

/-- The mapping objects of a bus. -/
def ownMappings (node : Json) : List Json :=
  match node.lookup "compatible", node.lookup "mappings" with
  | some (.string compatible), some (.array mappings) => if compatible = "bus,simple" then mappings else []
  | _, _ => []

theorem mapM_eq_nil {js : List Json} (h : js.mapM createMapping = .ok []) : js = [] := by
  cases js with
  | nil => rfl
  | cons j js =>
    rw [List.mapM_cons] at h
    obtain ⟨mapping, -, h⟩ := bind_eq_ok h
    obtain ⟨mappings, -, h⟩ := bind_eq_ok h
    cases h

theorem lookup_of_at {key : String} {value : Json} (h : at_ key self = .ok value) : lookup key self = some value := by
  cases self with
  | object fields =>
    rw [at_] at h
    rw [lookup]
    cases hfind : find key fields with
    | none =>
      rw [hfind] at h
      cases h
    | some v =>
      rw [hfind] at h
      cases h
      rfl
  | _ => cases h

theorem eq_of_getString {value : Json} {text : String} (h : getString value = .ok text) : value = .string text := by
  cases value with
  | string s =>
    cases h
    rfl
  | _ => cases h

theorem ownMappings_of_ne {compatible : String} (h : lookup "compatible" self = some (.string compatible))
    (hne : compatible ≠ "bus,simple") : ownMappings self = [] := by
  rw [ownMappings, h]
  split
  · next heq _ =>
    cases heq
    exact if_neg hne
  · rfl

theorem ownMappings_of_created (h : createMappings self = .ok []) : ownMappings self = [] := by
  rw [createMappings] at h
  rw [ownMappings]
  split
  · next hmappings =>
    rw [hmappings] at h
    rw [mapM_eq_nil h, ite_self]
  · rfl

theorem sound_of {configuration : Configuration} (hb : device.basename ≠ "") (h : device.configuration = configuration)
    (hsystem : configuration ≠ .system) (hskip : configuration.skipSerialize = false)
    (hpoint : ∀ fill direction span failPolicy, configuration = .fifoRegister fill direction span failPolicy →
      span.lower = span.upper) : Sound device ∧ device.configuration.skipSerialize = false := by
  subst h
  exact ⟨⟨hb, hsystem, hpoint⟩, hskip⟩

/-- A created device is sound, and a bus without mappings is described without them. -/
theorem createDevice_spec (h : createDevice self = .ok device) :
    (Sound device ∧ device.configuration.skipSerialize = false) ∧
      (device.configuration.mappings = [] → ownMappings self = []) := by
  obtain ⟨value, hvalue, h⟩ := bind_eq_ok h
  obtain ⟨compatible, hcompatible, h⟩ := bind_eq_ok h
  have hlookup := lookup_of_at hvalue
  rw [eq_of_getString hcompatible] at hlookup
  split at h
  · next hc =>
    obtain ⟨hb, fill, span, hconfiguration⟩ := createRam_spec h
    have hbus : compatible ≠ "bus,simple" := by rintro rfl; exact absurd hc (by decide)
    exact ⟨sound_of hb hconfiguration nofun rfl nofun, fun _ => ownMappings_of_ne hlookup hbus⟩
  · split at h
    · next hc =>
      obtain ⟨hb, fill, span, hconfiguration⟩ := createRam_spec h
      have hbus : compatible ≠ "bus,simple" := by rintro rfl; exact absurd hc (by decide)
      exact ⟨sound_of hb hconfiguration nofun rfl nofun, fun _ => ownMappings_of_ne hlookup hbus⟩
    · split at h
      · obtain ⟨hb, fill, span, failPolicy, mappings, hconfiguration, hmappings⟩ := createSimpleBus_spec h
        refine ⟨sound_of hb hconfiguration nofun rfl nofun, fun hnil => ?_⟩
        rw [hconfiguration] at hnil
        obtain rfl : mappings = [] := hnil
        exact ownMappings_of_created hmappings
      · next hbus =>
        split at h
        · obtain ⟨hb, fill, direction, offset, failPolicy, hconfiguration⟩ := createMmreg_spec h
          refine ⟨sound_of hb hconfiguration nofun rfl ?_, fun _ => ownMappings_of_ne hlookup hbus⟩
          rintro fill' direction' span' failPolicy' ⟨⟩
          rfl
        · split at h
          · obtain ⟨hb, isa, target, hconfiguration⟩ := createPepisacpu_spec h
            exact ⟨sound_of hb hconfiguration nofun rfl nofun, fun _ => ownMappings_of_ne hlookup hbus⟩
          · cases h

mutual

/-- The mapping objects of the buses under a node. -/
def mappingsOfChildren : Json → List Json
  | .object fields => mappingsOfFields fields
  | _ => []

def mappingsOfFields : List (String × Json) → List Json
  | [] => []
  | (key, children) :: fields => if key = "children" then mappingsOfArray children else mappingsOfFields fields

def mappingsOfArray : Json → List Json
  | .array children => mappingsOfEach children
  | _ => []

def mappingsOfEach : List Json → List Json
  | [] => []
  | child :: children => ownMappings child ++ mappingsOfChildren child ++ mappingsOfEach children

end

/-- A property of devices, and one of descriptions that follows from it. -/
structure Planned (ts : List (RoseTree Device)) (mappings : List Json) : Prop where
  sound : All.each (fun device => Sound device ∧ device.configuration.skipSerialize = false) ts
  unmapped : All.each (fun device => device.configuration.mappings = []) ts → mappings = []

mutual

theorem planChildren_spec : ∀ (node : Json) {ts : List (RoseTree Device)}, planChildren node = .ok ts →
    Planned ts (mappingsOfChildren node)
  | .object fields, ts, h => by
    rw [planChildren] at h
    rw [mappingsOfChildren]
    exact planFields_spec fields h
  | .null, ts, h => by cases h; exact ⟨trivial, fun _ => rfl⟩
  | .boolean _, ts, h => by cases h; exact ⟨trivial, fun _ => rfl⟩
  | .unsigned _, ts, h => by cases h; exact ⟨trivial, fun _ => rfl⟩
  | .integer _, ts, h => by cases h; exact ⟨trivial, fun _ => rfl⟩
  | .real, ts, h => by cases h; exact ⟨trivial, fun _ => rfl⟩
  | .string _, ts, h => by cases h; exact ⟨trivial, fun _ => rfl⟩
  | .array _, ts, h => by cases h; exact ⟨trivial, fun _ => rfl⟩

theorem planFields_spec : ∀ (fields : List (String × Json)) {ts : List (RoseTree Device)}, planFields fields = .ok ts →
    Planned ts (mappingsOfFields fields)
  | [], ts, h => by cases h; exact ⟨trivial, fun _ => rfl⟩
  | (key, children) :: fields, ts, h => by
    rw [planFields] at h
    rw [mappingsOfFields]
    split at h
    · next hkey =>
      rw [if_pos hkey]
      exact planArray_spec children h
    · next hkey =>
      rw [if_neg hkey]
      exact planFields_spec fields h

theorem planArray_spec : ∀ (children : Json) {ts : List (RoseTree Device)}, planArray children = .ok ts →
    Planned ts (mappingsOfArray children)
  | .array children, ts, h => by
    rw [planArray] at h
    rw [mappingsOfArray]
    exact planEach_spec children h
  | .null, ts, h => by cases h
  | .boolean _, ts, h => by cases h
  | .unsigned _, ts, h => by cases h
  | .integer _, ts, h => by cases h
  | .real, ts, h => by cases h
  | .string _, ts, h => by cases h
  | .object _, ts, h => by cases h

theorem planEach_spec : ∀ (children : List Json) {ts : List (RoseTree Device)}, planEach children = .ok ts →
    Planned ts (mappingsOfEach children)
  | [], ts, h => by cases h; exact ⟨trivial, fun _ => rfl⟩
  | child :: children, ts, h => by
    rw [planEach] at h
    obtain ⟨device, hdevice, h⟩ := bind_eq_ok h
    obtain ⟨us, hus, h⟩ := bind_eq_ok h
    obtain ⟨vs, hvs, h⟩ := bind_eq_ok h
    cases h
    obtain ⟨hsound, hown⟩ := createDevice_spec hdevice
    have hchild := planChildren_spec child hus
    have hrest := planEach_spec children hvs
    refine ⟨⟨⟨hsound, hchild.sound⟩, hrest.sound⟩, ?_⟩
    rintro ⟨⟨hnone, hnones⟩, hrests⟩
    rw [mappingsOfEach, hown hnone, hchild.unmapped hnones, hrest.unmapped hrests]
    rfl

end

end Pepp.Sys

import Pepp.Sys.Rebuilding

/-!
# System descriptions survive, but for the mappings

A serialized system is parsed back to the same system exactly when it has no
bus mapping and no fill byte from 128 on, and its devices come close enough to
their parents. The parser turns access rights into their complement each time.
-/

namespace Pepp.Sys

open RoseTree Json

/-- What is compared of a device: its name and its configuration. -/
def Device.shown (device : Device) : String × Configuration := (device.basename, device.configuration)

def System.outline (s : System) : RoseTree (String × Configuration) := s.devices.map Device.shown

/-- The access rights that a mapping states by its letters, all of them if it states none. -/
def statedAccess (self : Json) : Except ParsingError Access :=
  match self.present "access" with
  | none => .ok ⟨true, true, true⟩
  | some value => do
    let letters := (toLower (← value.getString)).toList
    return ⟨letters.contains 'r', letters.contains 'w', letters.contains 'x'⟩

/-- The target offset that a mapping states, zero if it states none. -/
def statedOffset (self : Json) : Except ParsingError Address :=
  match self.present "target_offset" with
  | none => .ok 0
  | some value => asU32 value

/-- The mapping has the access rights and the target offset that its description states. -/
def Stated (self : Json) : Prop :=
  ∀ mapping, createMapping self = .ok mapping →
    statedAccess self = .ok mapping.access ∧ statedOffset self = .ok mapping.targetOffset

/-- The system parsed from a description is what the description says of its mappings, and it survives serialization. -/
def RoundTrips (description : Json) (system : System) : Prop :=
  (∃ again, parseSystem (serializeSystem system) = .ok again ∧ again.outline = system.outline) ∧
    ∀ mapping ∈ mappingsOfChildren description, Stated mapping

/-- No mappings, no large fill bytes, and every device close to the parent it was made for. -/
structure Plain (system : System) : Prop where
  unmapped : system.devices.All fun device => device.configuration.mappings = []
  small : system.devices.All Small
  tidy : Tidy system.devices
  near : Near system.devices

theorem access_flip_ne (access : Access) : access.flip ≠ access := by
  obtain ⟨read, write, execute⟩ := access
  cases read with
  | true => nofun
  | false => nofun

/-- A sound device reads back as itself if it has no mappings. -/
theorem shown_readBack_iff {device : Device} (h : Sound device) :
    device.readBack.shown = device.shown ↔ device.configuration.mappings = [] := by
  obtain ⟨basename, compatible, configuration⟩ := device
  have hshown : ∀ configuration' : Configuration, ((⟨basename, compatible, configuration⟩ : Device).readBack.shown =
      (⟨basename, compatible, configuration⟩ : Device).shown ↔ configuration.reread = configuration) := by
    intro _
    exact ⟨fun heq => congrArg Prod.snd heq, fun heq => congrArg (Prod.mk basename) heq⟩
  rw [hshown configuration]
  cases configuration with
  | simpleBus fill span failPolicy mappings =>
    constructor
    · intro heq
      obtain hmap : mappings.map Mapping.reread = mappings := (Configuration.simpleBus.inj heq).2.2.2
      cases mappings with
      | nil => rfl
      | cons mapping mappings =>
        have hhead := (List.cons.inj hmap).1
        exact absurd (congrArg Mapping.access hhead) (access_flip_ne mapping.access)
    · intro hnil
      obtain rfl : mappings = [] := hnil
      rfl
  | fifoRegister fill direction span failPolicy =>
    obtain ⟨lower, upper⟩ := span
    obtain rfl : lower = upper := h.point fill direction ⟨lower, upper⟩ failPolicy rfl
    exact ⟨fun _ => rfl, fun _ => rfl⟩
  | _ => exact ⟨fun _ => rfl, fun _ => rfl⟩

theorem banks_readBack (device : Device) : banks device.readBack = banks device := by
  obtain ⟨basename, compatible, configuration⟩ := device
  cases configuration <;> rfl

theorem maps_banks (device : Device) : map.maps Device.readBack (banks device) = banks device := by
  rcases banks_cases device with h | h
  · rw [h]
    rfl
  · rw [h]
    rfl

mutual

theorem outfit_map : ∀ t : RoseTree Device, outfit (t.map Device.readBack) = (outfit t).map Device.readBack
  | .node device ts => by
    rw [map, outfit, outfit, map, banks_readBack, outfits_map ts, maps_eq, maps_eq, List.map_append, ← maps_eq, ← maps_eq,
      maps_banks]

theorem outfits_map : ∀ ts : List (RoseTree Device),
    outfit.each (map.maps Device.readBack ts) = map.maps Device.readBack (outfit.each ts)
  | [] => rfl
  | t :: ts => by rw [map.maps, outfit.each, outfit.each, map.maps, outfit_map t, outfits_map ts]

end

mutual

theorem near_map (f : Device → Device) : ∀ t : RoseTree Device, Near (t.map f) ↔ Near t
  | .node device ts => by rw [map, Near, Near, nears_map f ts 1]

theorem nears_map (f : Device → Device) : ∀ (ts : List (RoseTree Device)) (gap : Nat),
    Near.each gap (map.maps f ts) ↔ Near.each gap ts
  | [], _ => Iff.rfl
  | t :: ts, gap => by rw [map.maps, Near.each, Near.each, near_map f t, size_map, nears_map f ts]

end

mutual

theorem all_outfit {P : Device → Prop} (hbanks : ∀ device, All.each P (banks device)) :
    ∀ t : RoseTree Device, (outfit t).All P ↔ t.All P
  | .node device ts => by
    rw [outfit, All, All, each_append, alls_outfit hbanks ts, and_iff_right (hbanks device)]

theorem alls_outfit {P : Device → Prop} (hbanks : ∀ device, All.each P (banks device)) :
    ∀ ts : List (RoseTree Device), All.each P (outfit.each ts) ↔ All.each P ts
  | [] => Iff.rfl
  | t :: ts => by rw [outfit.each, All.each, All.each, all_outfit hbanks t, alls_outfit hbanks ts]

end

mutual

theorem all_mono {P Q : Device → Prop} (h : ∀ device, P device → Q device) : ∀ t : RoseTree Device, t.All P → t.All Q
  | .node device ts, ht => ⟨h device ht.1, all_each_mono h ts ht.2⟩

theorem all_each_mono {P Q : Device → Prop} (h : ∀ device, P device → Q device) :
    ∀ ts : List (RoseTree Device), All.each P ts → All.each Q ts
  | [], _ => trivial
  | t :: ts, hts => ⟨all_mono h t hts.1, all_each_mono h ts hts.2⟩

end

mutual

theorem all_bare_tree {P : Device → Prop} : ∀ t : RoseTree Device, t.All P → (bare t).All P
  | .node _ ts, h => ⟨h.1, all_bare ts h.2⟩

theorem all_bare {P : Device → Prop} : ∀ ts : List (RoseTree Device), All.each P ts → All.each P (bare.each ts)
  | [], _ => trivial
  | t :: ts, h => by
    rw [bare.each]
    split
    · exact all_bare ts h.2
    · exact ⟨all_bare_tree t h.1, all_bare ts h.2⟩

end

variable {basename : String} {ts : List (RoseTree Device)}

variable {description : Json} {s : System}

mutual

theorem shown_map_iff : ∀ t : RoseTree Device, t.All Sound → ((t.map Device.readBack).map Device.shown = t.map Device.shown ↔
    t.All fun device => device.configuration.mappings = [])
  | .node device ts, h => by
    obtain ⟨hsound, hsounds⟩ := h
    rw [map, map, map, node.injEq, shown_readBack_iff hsound, shown_maps_iff ts hsounds]
    rfl

theorem shown_maps_iff : ∀ ts : List (RoseTree Device), All.each Sound ts →
    (map.maps Device.shown (map.maps Device.readBack ts) = map.maps Device.shown ts ↔
      All.each (fun device => device.configuration.mappings = []) ts)
  | [], _ => ⟨fun _ => trivial, fun _ => rfl⟩
  | t :: ts, h => by
    obtain ⟨hsound, hsounds⟩ := h
    rw [map.maps, map.maps, map.maps, List.cons.injEq, shown_map_iff t hsound, shown_maps_iff ts hsounds]
    rfl

end

end Pepp.Sys

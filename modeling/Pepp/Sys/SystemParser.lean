import Pepp.Lib.Trees
import Pepp.Sys.Devices

/-!
# The system parser

The device tree owns the devices; pointers into it are paths, which stay valid
as the tree grows. Devices find their parents by identities of eight bits.
-/

namespace Pepp.Sys

/-- A device of the tree with the identity it was given. -/
structure Node where
  id : U8
  device : Device

structure System where
  root : RoseTree Node
  nextId : U8
  idToDevice : U8 → Option (List Nat)

/-- The constructor of the system makes its basename start with a slash. -/
def rootName (basename : String) : String :=
  if basename.isEmpty then "/" else if basename.toList.head? = some '/' then basename else "/" ++ basename

namespace System

variable (self : System)

def create (basename compatible : String) : System :=
  ⟨.node ⟨0, rootName basename, compatible, .system⟩ [], 1, fun id => if id = 0 then some [] else none⟩

/-- Where the next device under a parent comes, as the parent is found by its identity. -/
def place (parent : U8) : Except ParsingError (List Nat × Nat) :=
  match self.idToDevice parent with
  | none => .error (.runtimeError "Parent device not found")
  | some path =>
    match self.root.at? path with
    | none => .error .assertion
    | some tree => .ok (path, tree.children.length)

/-- `make_device` without the deferred constructors; it gives the new node. -/
def attach (parent : U8) (device : Device) : Except ParsingError (List Nat × System) := do
  let (path, i) ← self.place parent
  let id := self.nextId
  return (path ++ [i], ⟨self.root.graftAt path [.node ⟨id, device⟩ []], id + 1,
    fun other => if other = id then some (path ++ [i]) else self.idToDevice other⟩)

def regs : Device := ⟨"regs", "", .pepRegisterBank⟩

def csrs : Device := ⟨"csrs", "", .pepCsrBank⟩

/-- `make_device`; a CPU defers the construction of its register banks until it is in the tree. -/
def makeDevice (parent : U8) (device : Device) : Except ParsingError (List Nat × System) := do
  let id := self.nextId
  let (path, s) ← self.attach parent device
  match device.configuration with
  | .pepIsa3 _ _ => do
    let (_, s) ← s.attach id regs
    let (_, s) ← s.attach id csrs
    return (path, s)
  | _ => return (path, s)

/-- The identity of the device that a pointer leads to. -/
def idAt (path : List Nat) : Except ParsingError U8 :=
  match self.root.at? path with
  | some tree => .ok tree.value.id
  | none => .error .assertion

def dispatchParser (node : Json) (parent : List Nat) : Except ParsingError (List Nat × System) := do
  let device ← createDevice node
  self.makeDevice (← self.idAt parent) device

mutual

def dispatchChildren (parent : List Nat) (self : System) : Json → Except ParsingError System
  | .object fields => dispatchFields parent self fields
  | _ => .ok self

def dispatchFields (parent : List Nat) (self : System) : List (String × Json) → Except ParsingError System
  | [] => .ok self
  | (key, children) :: fields =>
    if key = "children" then dispatchArray parent self children else dispatchFields parent self fields

def dispatchArray (parent : List Nat) (self : System) : Json → Except ParsingError System
  | .array children => dispatchEach parent self children
  | _ => .error (.message "Children must be an array")

def dispatchEach (parent : List Nat) (self : System) : List Json → Except ParsingError System
  | [] => .ok self
  | child :: children => do
    let (dev, s) ← self.dispatchParser child parent
    let s ← dispatchChildren dev s child
    dispatchEach parent s children

end

end System

def createSystem (obj : Json) : Except ParsingError System :=
  caught "system description" do
    let (compatible, basename) ← parseStandardFields obj
    if compatible.isEmpty ∨ compatible = "system,root" then
      return System.create (if basename.isEmpty then "/" else basename) "system,root"
    else .error (.message ("System description must have compatible: " ++ "system,root"))

/-- `parse_system`, of the value that the text stands for. -/
def parseSystem (description : Json) : Except ParsingError System :=
  match description with
  | .object fields => do
    let system ← createSystem (.object fields)
    system.dispatchChildren [] (.object fields)
  | _ => .error (.message "System description must be a JSON object")

def childrenField (children : List Json) : List (String × Json) :=
  if children.isEmpty then [] else [("children", .array children)]

mutual

def serializeTree : RoseTree Node → Json
  | .node node children => .object (serializeDevice node.device ++ childrenField (serializeChildren children))

def serializeChildren : List (RoseTree Node) → List Json
  | [] => []
  | tree :: trees =>
    if tree.value.device.configuration.skipSerialize then serializeChildren trees
    else serializeTree tree :: serializeChildren trees

end

def serializeSystem (system : System) : Json := serializeTree system.root

end Pepp.Sys

/-! ## Growing the device tree

Devices get consecutive identities of eight bits, so a device is found by its
identity until 256 more have been made. From then on a child goes to a younger
device, which lies deeper in the tree. -/

namespace Pepp.Sys

open RoseTree

/-- The devices that come with a device. -/
def banks (device : Device) : List (RoseTree Device) :=
  match device.configuration with
  | .pepIsa3 _ _ => [.node System.regs [], .node System.csrs []]
  | _ => []

namespace System

variable {s s' : System} {paths : List (List Nat)} {k : Nat} {p q : List Nat} {device : Device}

/-- The identities have been given out in turn, and each leads to the latest device that has it. -/
structure Issued (s : System) (paths : List (List Nat)) : Prop where
  nextId : s.nextId = BitVec.ofNat 8 paths.length
  id : ∀ (k : Nat) (p : List Nat), paths[k]? = some p →
    ∃ t : RoseTree Node, s.root.at? p = some t ∧ t.value.id = BitVec.ofNat 8 k
  latest : ∀ (k : Nat) (p : List Nat), paths[k]? = some p → paths.length ≤ k + 256 →
    s.idToDevice (BitVec.ofNat 8 k) = some p

/-- An identity leads to the device it belongs to, or to one that came 256 or more devices later. -/
theorem place_spec (h : Issued s paths) (hk : paths[k]? = some p) : ∃ k' q t, k ≤ k' ∧ paths[k']? = some q ∧
    paths.length ≤ k' + 256 ∧ (paths.length ≤ k + 256 → k' = k) ∧ s.root.at? q = some t ∧
    s.place (BitVec.ofNat 8 k) = .ok (q, t.children.length) := by
  obtain ⟨hlt, -⟩ := List.getElem?_eq_some_iff.mp hk
  obtain ⟨m, hm⟩ : ∃ m, m = (paths.length - 1 - k) / 256 := ⟨_, rfl⟩
  obtain ⟨q, hq⟩ : ∃ q, paths[k + 256 * m]? = some q := ⟨_, List.getElem?_eq_getElem (by omega)⟩
  have hlate : paths.length ≤ k + 256 * m + 256 := by omega
  obtain ⟨t, ht, -⟩ := h.id _ q hq
  have hsame : BitVec.ofNat 8 (k + 256 * m) = BitVec.ofNat 8 k := by
    apply BitVec.eq_of_toNat_eq
    rw [BitVec.toNat_ofNat, BitVec.toNat_ofNat]
    omega
  refine ⟨k + 256 * m, q, t, by omega, hq, hlate, by omega, ht, ?_⟩
  rw [place, ← hsame, h.latest _ q hq hlate]
  change (match s.root.at? q with
    | none => (.error .assertion : Except ParsingError (List Nat × Nat))
    | some tree => .ok (q, tree.children.length)) = _
  rw [ht]

/-- The system with one more device. -/
def grown (s : System) (path : List Nat) (device : Device) (c : List Nat) : System :=
  ⟨s.root.graftAt path [.node ⟨s.nextId, device⟩ []], s.nextId + 1,
    fun other => if other = s.nextId then some c else s.idToDevice other⟩

variable {t : RoseTree Node}

theorem attach_eq {parent : U8} (device : Device) (hplace : s.place parent = .ok (q, t.children.length)) :
    s.attach parent device = .ok (q ++ [t.children.length], s.grown q device (q ++ [t.children.length])) := by
  rw [attach, hplace]
  rfl

theorem issued_grown (device : Device) (h : Issued s paths) (ht : s.root.at? q = some t) :
    Issued (s.grown q device (q ++ [t.children.length])) (paths ++ [q ++ [t.children.length]]) := by
  constructor
  · change s.nextId + 1 = _
    rw [h.nextId, List.length_append, List.length_singleton]
    exact (BitVec.ofNat_add paths.length 1).symm
  · intro k p hk
    rw [List.getElem?_append] at hk
    split at hk
    · obtain ⟨u, hu, hid⟩ := h.id k p hk
      obtain ⟨u', hu', hvalue⟩ := at?_graftAt_old q [.node ⟨s.nextId, device⟩ []] hu
      exact ⟨u', hu', by rw [hvalue, hid]⟩
    · next hge =>
      rw [List.getElem?_singleton] at hk
      split at hk
      · next hzero =>
        obtain rfl := Option.some.inj hk
        refine ⟨_, at?_graftAt_new ht, ?_⟩
        change s.nextId = _
        rw [h.nextId, show k = paths.length by omega]
      · cases hk
  · intro k p hk hlate
    rw [List.length_append, List.length_singleton] at hlate
    rw [List.getElem?_append] at hk
    change (if BitVec.ofNat 8 k = s.nextId then some (q ++ [t.children.length]) else s.idToDevice (BitVec.ofNat 8 k)) = _
    split at hk
    · next hlt =>
      have hne : BitVec.ofNat 8 k ≠ s.nextId := by
        rw [h.nextId]
        intro heq
        have := congrArg BitVec.toNat heq
        rw [BitVec.toNat_ofNat, BitVec.toNat_ofNat] at this
        omega
      rw [if_neg hne]
      exact h.latest k p hk (by omega)
    · next hge =>
      rw [List.getElem?_singleton] at hk
      split at hk
      · next hzero =>
        obtain rfl := Option.some.inj hk
        rw [if_pos (by rw [h.nextId, show k = paths.length by omega])]
      · cases hk

/-- A device that is given to one of the last 256 comes there. -/
theorem attach_last (device : Device) (h : Issued s paths) (hk : paths[k]? = some p) (hlate : paths.length ≤ k + 256)
    (ht : s.root.at? p = some t) :
    s.attach (BitVec.ofNat 8 k) device = .ok (p ++ [t.children.length], s.grown p device (p ++ [t.children.length])) := by
  obtain ⟨k', q, u, -, hq, -, hsame, hu, hplace⟩ := place_spec h hk
  obtain rfl : k' = k := hsame hlate
  obtain rfl : p = q := Option.some.inj (hk.symm.trans hq)
  obtain rfl : t = u := Option.some.inj (ht.symm.trans hu)
  exact attach_eq device hplace

/-- A CPU gets its two banks. -/
theorem banks_spec (h : Issued s paths) {c : List Nat} (hk : paths[k]? = some c) (hlate : paths.length < k + 256)
    {node : Node} (hc : s.root.at? c = some (.node node [])) : ∃ regbank csrbank : Node, ∃ p₁ s₁ p₂ s₂,
    s.attach (BitVec.ofNat 8 k) regs = .ok (p₁, s₁) ∧ s₁.attach (BitVec.ofNat 8 k) csrs = .ok (p₂, s₂) ∧
      Issued s₂ (paths ++ [c ++ [0], c ++ [1]]) ∧
      s₂.root = s.root.graftAt c [.node regbank [], .node csrbank []] ∧ regbank.device = regs ∧ csrbank.device = csrs := by
  obtain ⟨hlt, -⟩ := List.getElem?_eq_some_iff.mp hk
  have hfirst := attach_last regs h hk (by omega) hc
  have hissued := issued_grown regs h hc
  have hk₁ : (paths ++ [c ++ [0]])[k]? = some c := by rw [List.getElem?_append_left hlt, hk]
  have hc₁ : (s.grown c regs (c ++ [0])).root.at? c = some (.node node [.node ⟨s.nextId, regs⟩ []]) := at?_graftAt hc
  have hsecond := attach_last csrs hissued hk₁ (by rw [List.length_append, List.length_singleton]; omega) hc₁
  have hissued₂ := issued_grown csrs hissued hc₁
  refine ⟨⟨s.nextId, regs⟩, ⟨s.nextId + 1, csrs⟩, _, _, _, _, hfirst, hsecond, ?_, graftAt_graftAt, rfl, rfl⟩
  rwa [List.append_assoc] at hissued₂

/-- The devices come with their banks, as one tree. -/
theorem makeDevice_spec (h : Issued s paths) (hk : paths[k]? = some p) (device : Device) :
    ∃ k' q t tree bankPaths s', k ≤ k' ∧ paths[k']? = some q ∧ paths.length ≤ k' + 256 ∧
      (paths.length ≤ k + 256 → k' = k) ∧ s.root.at? q = some t ∧
      s.makeDevice (BitVec.ofNat 8 k) device = .ok (q ++ [t.children.length], s') ∧
      Issued s' (paths ++ (q ++ [t.children.length]) :: bankPaths) ∧ s'.root = s.root.graftAt q [tree] ∧
      tree.map Node.device = .node device (banks device) ∧ bankPaths.length = (banks device).length ∧
      ∀ b ∈ bankPaths, (q ++ [t.children.length]).length < b.length := by
  obtain ⟨k', q, t, hkk, hq, hlate, hsame, ht, hplace⟩ := place_spec h hk
  have hattach := attach_eq device hplace
  have hissued := issued_grown device h ht
  have hc : (s.grown q device (q ++ [t.children.length])).root.at? (q ++ [t.children.length]) =
      some (.node ⟨s.nextId, device⟩ []) := at?_graftAt_new ht
  generalize hcpath : q ++ [t.children.length] = c at hattach hissued hc
  by_cases hcpu : ∃ isa target, device.configuration = .pepIsa3 isa target
  · obtain ⟨isa, target, hcpu⟩ := hcpu
    obtain ⟨regbank, csrbank, p₁, s₁, p₂, s₂, hregs, hcsrs, hissued₂, hroot, hr, hs⟩ :=
      banks_spec hissued (List.getElem?_concat_length ..) (by rw [List.length_append, List.length_singleton]; omega) hc
    have hbanks : banks device = [.node regs [], .node csrs []] := by rw [banks, hcpu]
    refine ⟨k', q, t, .node ⟨s.nextId, device⟩ [.node regbank [], .node csrbank []], [c ++ [0], c ++ [1]], s₂, hkk, hq,
      hlate, hsame, ht, ?_, ?_, ?_, ?_, ?_, ?_⟩
    · rw [makeDevice, hattach, hcpu, hcpath]
      change ((s.grown q device c).attach s.nextId regs >>= _) = _
      rw [h.nextId, hregs]
      change (s₁.attach _ csrs >>= _) = _
      rw [hcsrs]
      rfl
    · rw [hcpath]
      rwa [List.append_assoc] at hissued₂
    · rw [hroot]
      change graftAt c _ (graftAt q [.node ⟨s.nextId, device⟩ []] s.root) = _
      rw [← hcpath, graftAt_snoc ht]
      rfl
    · rw [hbanks, map, map.maps, map.maps, map, map, hr, hs]
      rfl
    · rw [hbanks]
      rfl
    · intro b hb
      rw [hcpath]
      rcases List.mem_cons.mp hb with rfl | hb
      · simp
      · obtain rfl := List.mem_singleton.mp hb
        simp
  · have hbanks : banks device = [] := by
      rw [banks]
      split
      · next hcfg => exact absurd ⟨_, _, hcfg⟩ hcpu
      · rfl
    refine ⟨k', q, t, .node ⟨s.nextId, device⟩ [], [], s.grown q device c, hkk, hq, hlate, hsame, ht, ?_, ?_, rfl, ?_, ?_, ?_⟩
    · rw [makeDevice, hattach, hcpath]
      obtain ⟨basename, compatible, configuration⟩ := device
      cases configuration with
      | pepIsa3 isa target => exact absurd ⟨_, _, rfl⟩ hcpu
      | _ => rfl
    · rwa [hcpath]
    · rw [hbanks]
      rfl
    · rw [hbanks]
      rfl
    · intro b hb
      cases hb

end System

end Pepp.Sys

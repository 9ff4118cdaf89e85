import Pepp.Sys.SystemParser

/-!
# Planting trees of devices

What comes of a description whose nodes have been read: every device is made
under its parent, in preorder. As long as no device comes more than 256 devices
after its parent, the tree is the one described. Otherwise it gets deeper.
-/

namespace Pepp.Sys

open RoseTree

/-- A described tree with the banks of its devices. -/
def outfit : RoseTree Device → RoseTree Device
  | .node device ts => .node device (banks device ++ each ts)
where
  each : List (RoseTree Device) → List (RoseTree Device)
    | [] => []
    | t :: ts => outfit t :: each ts

/-- No device comes more than 256 devices after its parent. -/
def Near : RoseTree Device → Prop
  | .node _ ts => each 1 ts
where
  each (gap : Nat) : List (RoseTree Device) → Prop
    | [] => True
    | t :: ts => gap ≤ 256 ∧ Near t ∧ each (gap + t.size) ts

/-- The children of a device are its banks and described ones. -/
def Row (device : Device) (children : List Device) : Prop :=
  ∃ others : List Device, children = (banks device).map value ++ others ∧
    ∀ other ∈ others, other.configuration.skipSerialize = false

def Kept : RoseTree Device → Prop
  | .node device ts => Row device (ts.map value) ∧ each ts
where
  each : List (RoseTree Device) → Prop
    | [] => True
    | t :: ts => Kept t ∧ each ts

namespace System

def devices (s : System) : RoseTree Device := s.root.map Node.device

mutual

def plant (parent : List Nat) (s : System) : RoseTree Device → Except ParsingError System
  | .node device ts => do
    let (path, s) ← s.makeDevice (← s.idAt parent) device
    plantEach path s ts

def plantEach (parent : List Nat) (s : System) : List (RoseTree Device) → Except ParsingError System
  | [] => .ok s
  | t :: ts => do
    let s ← plant parent s t
    plantEach parent s ts

end

end System

variable {t u : RoseTree Device} {ts us : List (RoseTree Device)} {device : Device} {p q : List Nat}

theorem outfits_append (ts us : List (RoseTree Device)) : outfit.each (ts ++ us) = outfit.each ts ++ outfit.each us := by
  induction ts with
  | nil => rfl
  | cons t ts ih => exact congrArg (outfit t :: ·) ih

theorem near_append {gap : Nat} : Near.each gap (ts ++ us) ↔ Near.each gap ts ∧ Near.each (gap + size.sizes ts) us := by
  induction ts generalizing gap with
  | nil => rw [List.nil_append, Near.each, true_and, size.sizes, Nat.add_zero]
  | cons t ts ih =>
    rw [List.cons_append, Near.each, Near.each, ih, size.sizes, Nat.add_assoc]
    tauto

theorem banks_cases (device : Device) :
    banks device = [] ∨ banks device = [.node System.regs [], .node System.csrs []] := by
  rw [banks]
  split
  · exact Or.inr rfl
  · exact Or.inl rfl

theorem sizes_banks (device : Device) : size.sizes (banks device) = (banks device).length := by
  rcases banks_cases device with h | h
  · rw [h]
    rfl
  · rw [h]
    rfl

theorem near_banks (device : Device) : Near.each 1 (banks device) := by
  rcases banks_cases device with h | h
  · rw [h]
    exact trivial
  · rw [h]
    exact ⟨by decide, trivial, by decide, trivial, trivial⟩

theorem kept_banks (device : Device) : Kept (.node device (banks device)) := by
  refine ⟨⟨[], (List.append_nil _).symm, fun other h => absurd h List.not_mem_nil⟩, ?_⟩
  rcases banks_cases device with h | h
  · rw [h]
    exact trivial
  · rw [h]
    exact ⟨⟨⟨[], rfl, fun other h => absurd h List.not_mem_nil⟩, trivial⟩,
      ⟨⟨[], rfl, fun other h => absurd h List.not_mem_nil⟩, trivial⟩, trivial⟩

@[simp] theorem value_graftAt : (graftAt p ts t).value = t.value := by
  cases p with
  | nil => exact value_graft
  | cons i p =>
    cases t with
    | node a us => rfl

theorem map_value_modify (i : Nat) : (us.modify i (graftAt p ts)).map value = us.map value := by
  refine List.ext_getElem? fun j => ?_
  rw [List.getElem?_map, List.getElem?_map, List.getElem?_modify]
  cases us[j]? with
  | none => rfl
  | some u =>
    by_cases h : i = j
    · simp [h]
    · simp [h]

theorem keptEach_append : Kept.each (ts ++ us) ↔ Kept.each ts ∧ Kept.each us := by
  induction ts with
  | nil => rw [List.nil_append, Kept.each, true_and]
  | cons t ts ih => rw [List.cons_append, Kept.each, Kept.each, ih, and_assoc]

theorem keptEach_modify {i : Nat} {f : RoseTree Device → RoseTree Device} {c : RoseTree Device} (hc : us[i]? = some c)
    (h : Kept.each us) (hf : Kept c → Kept (f c)) : Kept.each (us.modify i f) := by
  induction us generalizing i with
  | nil => cases hc
  | cons u us ih =>
    obtain ⟨hu, hus⟩ := h
    cases i with
    | zero =>
      obtain rfl := Option.some.inj hc
      exact ⟨hf hu, hus⟩
    | succ i => exact ⟨hu, ih hc hus⟩

theorem kept_graftAt (h : at? p t = some u) (hkept : Kept t) (hts : Kept.each ts)
    (hvalues : ∀ t ∈ ts, t.value.configuration.skipSerialize = false) : Kept (graftAt p ts t) := by
  induction p generalizing t with
  | nil =>
    cases t with
    | node a us =>
      obtain ⟨⟨others, hrow, hothers⟩, hus⟩ := hkept
      refine ⟨⟨others ++ ts.map value, ?_, ?_⟩, keptEach_append.mpr ⟨hus, hts⟩⟩
      · rw [List.map_append, hrow, List.append_assoc]
      · intro other hmem
        rcases List.mem_append.mp hmem with hold | hnew
        · exact hothers other hold
        · obtain ⟨t, ht, rfl⟩ := List.mem_map.mp hnew
          exact hvalues t ht
  | cons i p ih =>
    cases t with
    | node a us =>
      rw [at?, Option.bind_eq_some_iff] at h
      obtain ⟨v, hv, h⟩ := h
      obtain ⟨hrow, hus⟩ := hkept
      exact ⟨by rwa [map_value_modify], keptEach_modify hv hus (ih h)⟩

namespace System

variable {s s₁ s₂ : System} {paths new₁ new₂ : List (List Nat)} {k : Nat} {parent : List Nat}

/-- The devices that are younger than the `k`-th lie deeper. -/
def Deeper (paths : List (List Nat)) (k : Nat) (parent : List Nat) : Prop :=
  ∀ (j : Nat) (q : List Nat), k < j → paths[j]? = some q → parent.length < q.length

/-- What has come of `s` when trees have been planted under its `k`-th device. -/
structure Planted (s s' : System) (paths new : List (List Nat)) (k : Nat) (parent : List Nat) (ts : List (RoseTree Device)) :
    Prop where
  issued : Issued s' (paths ++ new)
  length_eq : new.length = size.sizes (outfit.each ts)
  deeper : ∀ q ∈ new, parent.length < q.length
  size_eq : s'.devices.size = s.devices.size + size.sizes (outfit.each ts)
  depths_le : s.devices.depths 0 + depths.all (parent.length + 1) (outfit.each ts) ≤ s'.devices.depths 0
  near : s'.devices.depths 0 = s.devices.depths 0 + depths.all (parent.length + 1) (outfit.each ts) →
    Near.each (paths.length - k) (outfit.each ts)
  faithful : Near.each (paths.length - k) (outfit.each ts) → s'.devices = graftAt parent (outfit.each ts) s.devices
  all_iff : ∀ P : Device → Prop,
    All.each P s'.devices.children ↔ All.each P s.devices.children ∧ All.each P (outfit.each ts)
  value_eq : s'.devices.value = s.devices.value
  kept : All.each (fun device => device.configuration.skipSerialize = false) ts → Kept s.devices → Kept s'.devices

theorem planted_nil (h : Issued s paths) : Planted s s paths [] k parent [] := by
  refine ⟨by rwa [List.append_nil], rfl, fun q hq => absurd hq List.not_mem_nil, rfl, Nat.le_refl _, fun _ => trivial,
    fun _ => graftAt_nil.symm, fun P => (and_iff_left trivial).symm, rfl, fun _ h => h⟩

theorem Planted.append (h₁ : Planted s s₁ paths new₁ k parent ts) (hk : k < paths.length)
    (h₂ : Planted s₁ s₂ (paths ++ new₁) new₂ k parent us) : Planted s s₂ paths (new₁ ++ new₂) k parent (ts ++ us) := by
  have hsizes := outfits_append ts us
  have hgap : (paths ++ new₁).length - k = paths.length - k + size.sizes (outfit.each ts) := by
    rw [List.length_append, h₁.length_eq]
    omega
  have hdepths := depths_append (parent.length + 1) (outfit.each ts) (outfit.each us)
  have hle₁ := h₁.depths_le
  have hle₂ := h₂.depths_le
  constructor
  · rw [← List.append_assoc]
    exact h₂.issued
  · rw [List.length_append, h₁.length_eq, h₂.length_eq, hsizes, sizes_append]
  · intro q hq
    rcases List.mem_append.mp hq with hq | hq
    · exact h₁.deeper q hq
    · exact h₂.deeper q hq
  · rw [h₂.size_eq, h₁.size_eq, hsizes, sizes_append, Nat.add_assoc]
  · rw [hsizes, hdepths]
    omega
  · intro heq
    rw [hsizes, hdepths] at heq
    rw [hsizes, near_append, ← hgap]
    exact ⟨h₁.near (by omega), h₂.near (by omega)⟩
  · intro hnear
    rw [hsizes, near_append, ← hgap] at hnear
    rw [h₂.faithful hnear.2, h₁.faithful hnear.1, graftAt_graftAt, hsizes]
  · intro P
    rw [h₂.all_iff P, h₁.all_iff P, hsizes, each_append, and_assoc]
  · exact h₂.value_eq.trans h₁.value_eq
  · intro hplain hkept
    rw [each_append] at hplain
    exact h₂.kept hplain.2 (h₁.kept hplain.1 hkept)

theorem Deeper.append (h : Deeper paths k parent) (hnew : ∀ q ∈ new₁, parent.length < q.length) :
    Deeper (paths ++ new₁) k parent := by
  intro j q hj hq
  rw [List.getElem?_append] at hq
  split at hq
  · exact h j q hj hq
  · exact hnew q (List.mem_of_getElem? hq)

/-- One device with its banks is planted, and the trees under it. -/
theorem planted_node (hk : paths[k]? = some parent) (hdeeper : Deeper paths k parent)
    {k' : Nat} {q : List Nat} {n : Nat} {tq : RoseTree Node} {tree : RoseTree Node} {bankPaths : List (List Nat)}
    (hkk : k ≤ k') (hq : paths[k']? = some q) (hlate : paths.length ≤ k' + 256) (hsame : paths.length ≤ k + 256 → k' = k)
    (htq : s.root.at? q = some tq) (hn : n = tq.children.length) (hroot : s₁.root = s.root.graftAt q [tree])
    (htree : tree.map Node.device = .node device (banks device)) (hlen : bankPaths.length = (banks device).length)
    (hbanks : ∀ b ∈ bankPaths, (q ++ [n]).length < b.length)
    (hplanted : Planted s₁ s₂ (paths ++ (q ++ [n]) :: bankPaths) new₂ paths.length (q ++ [n]) ts) :
    Planted s s₂ paths ((q ++ [n]) :: bankPaths ++ new₂) k parent [.node device ts] := by
  have hdevices : s₁.devices = graftAt q [.node device (banks device)] s.devices := by
    rw [devices, hroot, map_graftAt, List.map_cons, htree]
    rfl
  have hat : at? q s.devices = some (tq.map Node.device) := by
    rw [devices, at?_map, htq]
    rfl
  have houtfit : outfit.each [.node device ts] = [.node device (banks device ++ outfit.each ts)] := rfl
  have hclen : (q ++ [n]).length = q.length + 1 := List.length_append
  have hq' : k' = k ∧ q = parent ∨ parent.length < q.length := by
    rcases Nat.eq_or_lt_of_le hkk with rfl | hlt
    · exact Or.inl ⟨rfl, Option.some.inj (hq.symm.trans hk)⟩
    · exact Or.inr (hdeeper k' q hlt hq)
  have hle : parent.length ≤ q.length := by
    rcases hq' with ⟨-, rfl⟩ | hlt
    · exact Nat.le_refl _
    · omega
  have hgap : (paths ++ (q ++ [n]) :: bankPaths).length - paths.length = 1 + size.sizes (banks device) := by
    rw [List.length_append, List.length_cons, hlen, sizes_banks]
    omega
  have hsize : s₁.devices.size = s.devices.size + size.sizes [.node device (banks device)] := by
    rw [hdevices, size_graftAt hat]
  have hdepths : s₁.devices.depths 0 =
      s.devices.depths 0 + depths.all (q.length + 1) [.node device (banks device)] := by
    rw [hdevices, depths_graftAt hat, Nat.zero_add]
  have hone : ∀ d (us : List (RoseTree Device)), depths.all d [.node device us] = d + depths.all (d + 1) us := by
    intro d us
    rw [depths.all, depths, depths.all, Nat.add_zero]
  have hsizeOne : ∀ us : List (RoseTree Device), size.sizes [.node device us] = size.sizes us + 1 := by
    intro us
    rw [size.sizes, size, size.sizes, Nat.add_zero]
  have hbankDepths := all_mono (show parent.length + 1 + 1 ≤ q.length + 1 + 1 by omega) (banks device)
  have hrestDepths := all_mono (show parent.length + 1 + 1 ≤ q.length + 1 + 1 by omega) (outfit.each ts)
  have hplantedDepths := hplanted.depths_le
  rw [hone] at hdepths
  rw [hclen] at hplantedDepths
  constructor
  · rw [List.cons_append, ← List.cons_append, ← List.append_assoc]
    exact hplanted.issued
  · rw [List.cons_append, List.length_cons, List.length_append, hlen, hplanted.length_eq, houtfit, hsizeOne, sizes_append,
      sizes_banks]
  · intro b hb
    rw [List.cons_append, List.mem_cons, List.mem_append] at hb
    rcases hb with rfl | hb | hb
    · omega
    · have := hbanks b hb
      omega
    · have := hplanted.deeper b hb
      omega
  · rw [hplanted.size_eq, hsize, houtfit, hsizeOne, hsizeOne, sizes_append]
    omega
  · rw [houtfit, hone, depths_append]
    omega
  · intro heq
    rw [houtfit, hone, depths_append] at heq
    have hsameLength : q.length = parent.length := by omega
    have hrest := hplanted.near (by rw [hclen]; omega)
    rw [hgap] at hrest
    rcases hq' with ⟨rfl, rfl⟩ | hlt
    · exact ⟨by omega, near_append.mpr ⟨near_banks device, hrest⟩, trivial⟩
    · omega
  · rintro ⟨hnear, hrest, -⟩
    obtain rfl := hsame (by omega)
    obtain rfl : q = parent := Option.some.inj (hq.symm.trans hk)
    have hfaithful := hplanted.faithful (by rw [hgap]; exact (near_append.mp hrest).2)
    rw [hfaithful, hdevices, hn, ← length_children_map Node.device, graftAt_snoc hat]
    rfl
  · intro P
    rw [hplanted.all_iff P, hdevices, each_children_graftAt hat, houtfit, All.each, All.each, All.each, All.each, All, All,
      each_append]
    tauto
  · rw [hplanted.value_eq, hdevices, value_graftAt]
  · rintro ⟨⟨hplain, hplains⟩, -⟩ hkept
    refine hplanted.kept hplains ?_
    rw [hdevices]
    refine kept_graftAt hat hkept ⟨kept_banks device, trivial⟩ ?_
    intro t ht
    obtain rfl := List.mem_singleton.mp ht
    exact hplain

theorem idAt_eq (h : Issued s paths) (hk : paths[k]? = some parent) : s.idAt parent = .ok (BitVec.ofNat 8 k) := by
  obtain ⟨t, ht, hid⟩ := h.id k parent hk
  rw [idAt, ht]
  exact congrArg Except.ok hid

/-- The paths of a device and its banks: the banks lie deeper. -/
theorem deeper_made {c : List Nat} {bankPaths : List (List Nat)} (hbanks : ∀ b ∈ bankPaths, c.length < b.length) :
    (paths ++ c :: bankPaths)[paths.length]? = some c ∧ Deeper (paths ++ c :: bankPaths) paths.length c := by
  constructor
  · rw [List.getElem?_append_right (Nat.le_refl _), Nat.sub_self]
    rfl
  · intro j r hj hr
    rw [List.getElem?_append_right (Nat.le_of_lt hj)] at hr
    obtain ⟨i, hi⟩ : ∃ i, j - paths.length = i + 1 := ⟨j - paths.length - 1, by omega⟩
    rw [hi, List.getElem?_cons_succ] at hr
    exact hbanks r (List.mem_of_getElem? hr)

mutual

theorem plant_spec : ∀ (t : RoseTree Device) {s : System} {paths : List (List Nat)} {k : Nat} {parent : List Nat},
    Issued s paths → paths[k]? = some parent → Deeper paths k parent →
    ∃ s' new, plant parent s t = .ok s' ∧ Planted s s' paths new k parent [t]
  | .node device ts, s, paths, k, parent, h, hk, hdeeper => by
    have hid := idAt_eq h hk
    obtain ⟨k', q, tq, tree, bankPaths, s₁, hkk, hq, hlate, hsame, htq, hmake, hissued, hroot, htree, hlen, hbanks⟩ :=
      makeDevice_spec h hk device
    obtain ⟨hc, hcdeeper⟩ := deeper_made hbanks
    obtain ⟨s₂, new₂, hplant, hplanted⟩ := plantEach_spec ts hissued hc hcdeeper
    refine ⟨s₂, _, ?_, planted_node hk hdeeper hkk hq hlate hsame htq rfl hroot htree hlen hbanks hplanted⟩
    rw [plant, hid]
    change (s.makeDevice (BitVec.ofNat 8 k) device >>= _) = _
    rw [hmake]
    exact hplant

theorem plantEach_spec : ∀ (ts : List (RoseTree Device)) {s : System} {paths : List (List Nat)} {k : Nat} {parent : List Nat},
    Issued s paths → paths[k]? = some parent → Deeper paths k parent →
    ∃ s' new, plantEach parent s ts = .ok s' ∧ Planted s s' paths new k parent ts
  | [], s, paths, k, parent, h, hk, hdeeper => ⟨s, [], rfl, planted_nil h⟩
  | t :: ts, s, paths, k, parent, h, hk, hdeeper => by
    obtain ⟨hlt, -⟩ := List.getElem?_eq_some_iff.mp hk
    obtain ⟨s₁, new₁, hplant, h₁⟩ := plant_spec t h hk hdeeper
    have hk₁ : (paths ++ new₁)[k]? = some parent := by rw [List.getElem?_append_left hlt, hk]
    obtain ⟨s₂, new₂, hrest, h₂⟩ := plantEach_spec ts h₁.issued hk₁ (hdeeper.append h₁.deeper)
    refine ⟨s₂, new₁ ++ new₂, ?_, h₁.append hlt h₂⟩
    rw [plantEach, hplant]
    exact hrest

end

end System

end Pepp.Sys

/-! ## What a description plans

The nodes of a description can be read before any device is made: the parser
plants the tree of the devices that they describe. -/

namespace Pepp.Sys

open RoseTree Json

mutual

def planChildren : Json → Except ParsingError (List (RoseTree Device))
  | .object fields => planFields fields
  | _ => .ok []

def planFields : List (String × Json) → Except ParsingError (List (RoseTree Device))
  | [] => .ok []
  | (key, children) :: fields => if key = "children" then planArray children else planFields fields

def planArray : Json → Except ParsingError (List (RoseTree Device))
  | .array children => planEach children
  | _ => .error (.message "Children must be an array")

def planEach : List Json → Except ParsingError (List (RoseTree Device))
  | [] => .ok []
  | child :: children => do
    let device ← createDevice child
    let ts ← planChildren child
    let us ← planEach children
    return .node device ts :: us

end

namespace System

variable {s : System} {paths : List (List Nat)} {k : Nat} {parent : List Nat}

theorem plantEach_node (device : Device) (ts us : List (RoseTree Device)) {c : List Nat} {s₁ : System} {id : U8}
    (hid : s.idAt parent = .ok id) (hmake : s.makeDevice id device = .ok (c, s₁)) :
    plantEach parent s (.node device ts :: us) = plantEach c s₁ ts >>= fun s => plantEach parent s us := by
  rw [plantEach, plant, hid]
  change ((s.makeDevice id device >>= fun r => plantEach r.1 r.2 ts) >>= _) = _
  rw [hmake]
  rfl

mutual

theorem dispatchChildren_eq : ∀ (node : Json) {s : System} {paths : List (List Nat)} {k : Nat} {parent : List Nat},
    Issued s paths → paths[k]? = some parent → Deeper paths k parent →
    dispatchChildren parent s node = planChildren node >>= plantEach parent s
  | .object fields, s, paths, k, parent, h, hk, hdeeper => by
    rw [dispatchChildren, planChildren, dispatchFields_eq fields h hk hdeeper]
  | .null, _, _, _, _, _, _, _ => rfl
  | .boolean _, _, _, _, _, _, _, _ => rfl
  | .unsigned _, _, _, _, _, _, _, _ => rfl
  | .integer _, _, _, _, _, _, _, _ => rfl
  | .real, _, _, _, _, _, _, _ => rfl
  | .string _, _, _, _, _, _, _, _ => rfl
  | .array _, _, _, _, _, _, _, _ => rfl

theorem dispatchFields_eq : ∀ (fields : List (String × Json)) {s : System} {paths : List (List Nat)} {k : Nat}
    {parent : List Nat}, Issued s paths → paths[k]? = some parent → Deeper paths k parent →
    dispatchFields parent s fields = planFields fields >>= plantEach parent s
  | [], _, _, _, _, _, _, _ => rfl
  | (key, children) :: fields, s, paths, k, parent, h, hk, hdeeper => by
    rw [dispatchFields, planFields]
    split
    · exact dispatchArray_eq children h hk hdeeper
    · exact dispatchFields_eq fields h hk hdeeper

theorem dispatchArray_eq : ∀ (children : Json) {s : System} {paths : List (List Nat)} {k : Nat} {parent : List Nat},
    Issued s paths → paths[k]? = some parent → Deeper paths k parent →
    dispatchArray parent s children = planArray children >>= plantEach parent s
  | .array children, s, paths, k, parent, h, hk, hdeeper => by
    rw [dispatchArray, planArray, dispatchEach_eq children h hk hdeeper]
  | .null, _, _, _, _, _, _, _ => rfl
  | .boolean _, _, _, _, _, _, _, _ => rfl
  | .unsigned _, _, _, _, _, _, _, _ => rfl
  | .integer _, _, _, _, _, _, _, _ => rfl
  | .real, _, _, _, _, _, _, _ => rfl
  | .string _, _, _, _, _, _, _, _ => rfl
  | .object _, _, _, _, _, _, _, _ => rfl

theorem dispatchEach_eq : ∀ (children : List Json) {s : System} {paths : List (List Nat)} {k : Nat} {parent : List Nat},
    Issued s paths → paths[k]? = some parent → Deeper paths k parent →
    dispatchEach parent s children = planEach children >>= plantEach parent s
  | [], _, _, _, _, _, _, _ => rfl
  | child :: children, s, paths, k, parent, h, hk, hdeeper => by
    rw [dispatchEach, dispatchParser, planEach]
    cases hcreate : createDevice child with
    | error e => rfl
    | ok device =>
      have hid := idAt_eq h hk
      obtain ⟨k', q, tq, tree, bankPaths, s₁, -, -, -, -, -, hmake, hissued, -, -, -, hbanks⟩ := makeDevice_spec h hk device
      obtain ⟨hc, hcdeeper⟩ := deeper_made hbanks
      change ((s.idAt parent >>= fun id => s.makeDevice id device) >>= _) = _
      rw [hid]
      change (s.makeDevice (BitVec.ofNat 8 k) device >>= _) = _
      rw [hmake]
      change (dispatchChildren (q ++ [tq.children.length]) s₁ child >>= _) = _
      rw [dispatchChildren_eq child hissued hc hcdeeper]
      cases planChildren child with
      | error e => rfl
      | ok ts =>
        obtain ⟨s₂, new, hplant, hplanted⟩ := plantEach_spec [.node device ts] h hk hdeeper
        obtain ⟨hlt, -⟩ := List.getElem?_eq_some_iff.mp hk
        have hk₂ : (paths ++ new)[k]? = some parent := by rw [List.getElem?_append_left hlt, hk]
        rw [plantEach_node device ts [] hid hmake] at hplant
        have hrest : plantEach (q ++ [tq.children.length]) s₁ ts = .ok s₂ := by
          cases hts : plantEach (q ++ [tq.children.length]) s₁ ts with
          | error e =>
            rw [hts] at hplant
            cases hplant
          | ok s₃ =>
            rw [hts] at hplant
            exact hplant
        change (plantEach (q ++ [tq.children.length]) s₁ ts >>= fun s => dispatchEach parent s children) =
          ((planEach children >>= fun us => .ok (.node device ts :: us)) >>= plantEach parent s)
        rw [hrest]
        change dispatchEach parent s₂ children = _
        rw [dispatchEach_eq children hplanted.issued hk₂ (hdeeper.append hplanted.deeper)]
        cases planEach children with
        | error e => rfl
        | ok us =>
          change plantEach parent s₂ us = plantEach parent s (.node device ts :: us)
          rw [plantEach_node device ts us hid hmake, hrest]
          rfl

end

end System

end Pepp.Sys

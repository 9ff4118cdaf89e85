import Pepp.Sys.Created

/-!
# Planning what was serialized

Serializing a tree leaves out the banks, and what may have come under them. The
plan of the output is the rest of the tree, each device read back.
-/

namespace Pepp.Sys

open RoseTree Json

/-- The tree without the devices that are not serialized. -/
def bare : RoseTree Device → RoseTree Device
  | .node device ts => .node device (each ts)
where
  each : List (RoseTree Device) → List (RoseTree Device)
    | [] => []
    | t :: ts => if t.value.configuration.skipSerialize then each ts else bare t :: each ts

/-- Nothing has come under a bank. -/
def Tidy : RoseTree Device → Prop
  | .node _ ts => each ts
where
  each : List (RoseTree Device) → Prop
    | [] => True
    | t :: ts => (t.value.configuration.skipSerialize = true → t.children = []) ∧ Tidy t ∧ each ts

def Device.readBack (device : Device) : Device :=
  ⟨device.basename, device.configuration.compatible, device.configuration.reread⟩

/-- The fill byte is one that the parser takes. -/
def Small (device : Device) : Prop := device.configuration.fill.toNat ≤ 127

variable (device : Device)

variable {t : RoseTree Device} {ts : List (RoseTree Device)}

theorem banks_skip : ∀ t ∈ banks device, t.value.configuration.skipSerialize = true ∧ t.children = [] := by
  intro t ht
  rcases banks_cases device with h | h
  · rw [h] at ht
    cases ht
  · rw [h, List.mem_cons, List.mem_singleton] at ht
    rcases ht with rfl | rfl
    · exact ⟨rfl, rfl⟩
    · exact ⟨rfl, rfl⟩

/-- The number of banks in a row. -/
theorem countP_row {device : Device} (h : Row device (ts.map value)) :
    ts.countP (fun t => t.value.configuration.skipSerialize) = (banks device).length := by
  obtain ⟨others, hrow, hothers⟩ := h
  have hcount : ts.countP (fun t => t.value.configuration.skipSerialize) =
      (ts.map value).countP fun device => device.configuration.skipSerialize := by
    rw [List.countP_map]
    rfl
  have hnone : others.countP (fun device => device.configuration.skipSerialize) = 0 := by
    rw [List.countP_eq_zero]
    intro other hmem
    rw [hothers other hmem]
    exact Bool.false_ne_true
  have hall : ((banks device).map value).countP (fun device => device.configuration.skipSerialize) =
      ((banks device).map value).length := by
    rw [List.countP_eq_length]
    intro bank hmem
    obtain ⟨t, ht, rfl⟩ := List.mem_map.mp hmem
    exact (banks_skip device t ht).1
  rw [hcount, hrow, List.countP_append, hall, hnone, List.length_map, Nat.add_zero]

theorem leaf_of_size (h : t.size = 1) : t.children = [] ∧ Tidy t := by
  cases t with
  | node device ts =>
    cases ts with
    | nil => exact ⟨rfl, trivial⟩
    | cons u us =>
      have := u.size_pos
      rw [size, size.sizes] at h
      omega

mutual

/-- Leaving out the banks and making them again loses what has come under them. -/
theorem size_outfit_bare : ∀ t : RoseTree Device, Kept t →
    (outfit (bare t)).size ≤ t.size ∧ ((outfit (bare t)).size = t.size → Tidy t)
  | .node device ts, h => by
    obtain ⟨hrow, hts⟩ := h
    have hcount := countP_row hrow
    obtain ⟨hle, htidy⟩ := sizes_outfit_bare ts hts
    have hsize : (outfit (bare (.node device ts))).size = (banks device).length + size.sizes (outfit.each (bare.each ts)) + 1 := by
      rw [bare, outfit, size, sizes_append, sizes_banks]
    rw [hsize, size]
    exact ⟨by omega, fun heq => htidy (by omega)⟩

theorem sizes_outfit_bare : ∀ ts : List (RoseTree Device), Kept.each ts →
    size.sizes (outfit.each (bare.each ts)) + ts.countP (fun t => t.value.configuration.skipSerialize) ≤ size.sizes ts ∧
      (size.sizes (outfit.each (bare.each ts)) + ts.countP (fun t => t.value.configuration.skipSerialize) = size.sizes ts →
        Tidy.each ts)
  | [], _ => ⟨Nat.le_refl _, fun _ => trivial⟩
  | t :: ts, h => by
    obtain ⟨ht, hts⟩ := h
    obtain ⟨hle, htidy⟩ := sizes_outfit_bare ts hts
    obtain ⟨htle, httidy⟩ := size_outfit_bare t ht
    rw [bare.each, size.sizes, List.countP_cons]
    cases hskip : t.value.configuration.skipSerialize with
    | true =>
      rw [if_pos rfl, if_pos rfl]
      have hpos := t.size_pos
      refine ⟨by omega, fun heq => ?_⟩
      obtain ⟨hchildren, htidyt⟩ := leaf_of_size (show t.size = 1 by omega)
      exact ⟨fun _ => hchildren, htidyt, htidy (by omega)⟩
    | false =>
      rw [if_neg Bool.false_ne_true, if_neg Bool.false_ne_true, outfit.each, size.sizes]
      refine ⟨by omega, fun heq => ⟨fun htrue => ?_, httidy (by omega), htidy (by omega)⟩⟩
      rw [hskip] at htrue
      cases htrue

end

theorem eq_of_leaves {us : List (RoseTree Device)} (h : ts.map value = us.map value) (hts : ∀ t ∈ ts, t.children = [])
    (hus : ∀ u ∈ us, u.children = []) : ts = us := by
  induction ts generalizing us with
  | nil => exact (List.map_eq_nil_iff.mp h.symm).symm
  | cons t ts ih =>
    cases us with
    | nil => cases h
    | cons u us =>
      rw [List.map_cons, List.map_cons, List.cons.injEq] at h
      have ht := hts t List.mem_cons_self
      have hu := hus u List.mem_cons_self
      obtain ⟨a, as⟩ := t
      obtain ⟨b, bs⟩ := u
      obtain rfl : as = [] := ht
      obtain rfl : bs = [] := hu
      obtain rfl : a = b := h.1
      rw [ih h.2 (fun t ht => hts t (List.mem_cons_of_mem _ ht)) fun u hu => hus u (List.mem_cons_of_mem _ hu)]

theorem leaf_of_tidy (h : Tidy.each ts) (ht : t ∈ ts) (hskip : t.value.configuration.skipSerialize = true) :
    t.children = [] := by
  induction ts with
  | nil => cases ht
  | cons u ts ih =>
    obtain ⟨hu, -, hts⟩ := h
    rcases List.mem_cons.mp ht with rfl | ht
    · exact hu hskip
    · exact ih hts ht

/-- A tidy row is its banks and the rest. -/
theorem row_split {device : Device} (h : Row device (ts.map value)) (ht : Tidy.each ts) :
    banks device ++ ts.filter (fun t => !t.value.configuration.skipSerialize) = ts := by
  obtain ⟨others, hrow, hothers⟩ := h
  obtain ⟨bs, us, rfl, hbs, rfl⟩ := List.map_eq_append_iff.mp hrow
  have hskip : ∀ b ∈ bs, b.value.configuration.skipSerialize = true := by
    intro b hb
    have hmem := List.mem_map_of_mem (f := value) hb
    rw [hbs] at hmem
    obtain ⟨bank, hbank, heq⟩ := List.mem_map.mp hmem
    rw [← heq]
    exact (banks_skip device bank hbank).1
  have hleaves : ∀ b ∈ bs, b.children = [] := fun b hb => leaf_of_tidy ht (List.mem_append_left us hb) (hskip b hb)
  have hplain : ∀ u ∈ us, u.value.configuration.skipSerialize = false := fun u hu => hothers _ (List.mem_map_of_mem hu)
  have hbanks : bs = banks device := eq_of_leaves hbs hleaves fun u hu => (banks_skip device u hu).2
  have hnone : bs.filter (fun t => !t.value.configuration.skipSerialize) = [] := by
    rw [List.filter_eq_nil_iff]
    intro b hb
    rw [hskip b hb]
    exact Bool.false_ne_true
  have hall : us.filter (fun t => !t.value.configuration.skipSerialize) = us := by
    rw [List.filter_eq_self]
    intro u hu
    rw [hplain u hu]
    rfl
  rw [List.filter_append, hnone, hall, List.nil_append, hbanks]

mutual

/-- A tidy tree is made again. -/
theorem outfit_bare : ∀ t : RoseTree Device, Kept t → Tidy t → outfit (bare t) = t
  | .node device ts, h, ht => by
    obtain ⟨hrow, hts⟩ := h
    rw [bare, outfit, outfits_bare ts hts ht, row_split hrow ht]

theorem outfits_bare : ∀ ts : List (RoseTree Device), Kept.each ts → Tidy.each ts →
    outfit.each (bare.each ts) = ts.filter fun t => !t.value.configuration.skipSerialize
  | [], _, _ => rfl
  | t :: ts, h, ht => by
    obtain ⟨hkept, hkepts⟩ := h
    obtain ⟨-, htidy, htidys⟩ := ht
    have hrest := outfits_bare ts hkepts htidys
    rw [bare.each, List.filter_cons]
    cases hskip : t.value.configuration.skipSerialize with
    | true => exact hrest
    | false =>
      change outfit (bare t) :: outfit.each (bare.each ts) = t :: _
      rw [outfit_bare t hkept htidy, hrest]

end

end Pepp.Sys

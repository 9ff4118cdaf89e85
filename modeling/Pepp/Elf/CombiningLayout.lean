import Pepp.Elf.CombiningStorage

/-!
# The layout of combined storage

Every leaf is laid out from the place of its part on. An offset refers to the
byte that is laid out there exactly if every storage in the tree is steady.
-/

namespace Pepp.Elf

open Padding Patches

/-! ## The layout -/

/-- A place in a part, seen from the storage around. -/
abbrev placeWithin (part : Nat) (p : List Nat × Nat) : List Nat × Nat := (part :: p.1, p.2)

theorem placedAt_append (items items' : List Piece) (x : Nat) :
    placedAt (items ++ items') x = (placedAt items x).or (placedAt items' x) := by
  induction items with
  | nil => rfl
  | cons p items ih =>
    rw [List.cons_append, placedAt, placedAt]
    split
    · rfl
    · exact ih

theorem placedAt_within (part : Nat) (items : List Piece) (x : Nat) :
    placedAt (items.map (Piece.within part)) x = (placedAt items x).map (placeWithin part) := by
  induction items with
  | nil => rfl
  | cons p items ih =>
    rw [List.map_cons, placedAt, placedAt]
    change (if p.dst ≤ x ∧ x < p.dst + p.length then _ else _) = _
    split
    · rfl
    · exact ih

/-- What a storage must be for the layout of one around it: in its room, with its first byte at its start, and with no byte
at two offsets. -/
structure Laid (data : Answers) (base : Nat) : Prop where
  next : (data.calculateLayout base).2 = base + data.size
  outside : ∀ x, x < base ∨ base + data.size ≤ x → placedAt (data.calculateLayout base).1 x = none
  first : 0 < data.size → ∃ p, placedAt (data.calculateLayout base).1 base = some p ∧ data.get 0 1 = some (p.1, p.2, 1)
  inj : ∀ l l' q, l < data.size → l' < data.size → data.get l 1 = some q → data.get l' 1 = some q → l = l'

/-- Every offset of a storage refers to the byte that is laid out there. -/
def Refers (data : Answers) (base : Nat) : Prop :=
  ∀ l < data.size, data.get l 1 = (placedAt (data.calculateLayout base).1 (base + l)).map fun p => (p.1, p.2, 1)

namespace CombiningStorage

variable {entries : Entries} {data : Answers} {part base x y o i align place : Nat}

theorem FitsFrom.tail (h : FitsFrom ((align, data) :: entries) base x) :
    FitsFrom entries base (alignUp x align + data.size) :=
  ⟨fun e he => h.maskable e (List.mem_cons_of_mem _ he), fun e he => h.aligned e (List.mem_cons_of_mem _ he), h.room⟩

theorem FitsFrom.head (h : FitsFrom ((align, data) :: entries) base x) : Maskable align ∧ Aligned align base :=
  ⟨h.maskable _ List.mem_cons_self, h.aligned _ List.mem_cons_self⟩

/-- The parts fit, and each of them is laid out at its place. -/
structure LaidFrom (entries : Entries) (base x : Nat) : Prop extends FitsFrom entries base x where
  laid : ∀ (i align : Nat) (data : Answers) (place : Nat), entries[i]? = some (align, data) →
    (places x (shape entries))[i]? = some place → Laid data (base + place)

theorem LaidFrom.tail (h : LaidFrom ((align, data) :: entries) base x) :
    LaidFrom entries base (alignUp x align + data.size) :=
  ⟨h.toFitsFrom.tail, fun i align' data' place hi hp => h.laid (i + 1) align' data' place hi hp⟩

theorem LaidFrom.head (h : LaidFrom ((align, data) :: entries) base x) : Laid data (base + alignUp x align) :=
  h.laid 0 align data _ rfl rfl

theorem shape_getElem? (h : entries[i]? = some (align, data)) : (shape entries)[i]? = some (data.size, align) := by
  rw [shape, List.getElem?_map, h]
  rfl

/-- One part in front of the others. -/
theorem LaidFrom.cons (h : LaidFrom ((align, data) :: entries) base x) (part : Nat) :
    (layoutFrom part (base + x) ((align, data) :: entries)).2 =
        (layoutFrom (part + 1) (base + (alignUp x align + data.size)) entries).2 ∧
      ∀ z, placedAt (layoutFrom part (base + x) ((align, data) :: entries)).1 z =
        ((placedAt (data.calculateLayout (base + alignUp x align)).1 z).map (placeWithin part)).or
          (placedAt (layoutFrom (part + 1) (base + (alignUp x align + data.size)) entries).1 z) := by
  have hroom := h.tail.room
  have hle := le_extent (alignUp x align + data.size) (shape entries)
  have hup := le_alignUp x align
  have hstart : alignUpMask (base + x) align = base + alignUp x align := by
    rw [alignUpMask_eq h.toFitsFrom.head.1 (by omega), alignUp_add h.toFitsFrom.head.2]
  have hlayout : layoutFrom part (base + x) ((align, data) :: entries) =
      ((data.calculateLayout (alignUpMask (base + x) align)).1.map (Piece.within part) ++
        (layoutFrom (part + 1) (data.calculateLayout (alignUpMask (base + x) align)).2 entries).1,
        (layoutFrom (part + 1) (data.calculateLayout (alignUpMask (base + x) align)).2 entries).2) := rfl
  rw [hlayout, hstart, h.head.next, Nat.add_assoc]
  refine ⟨rfl, fun z => ?_⟩
  rw [placedAt_append, placedAt_within]

theorem layoutFrom_next (part : Nat) (h : LaidFrom entries base x) :
    (layoutFrom part (base + x) entries).2 = base + extent x (shape entries) := by
  induction entries generalizing part x with
  | nil => rfl
  | cons e entries ih =>
    obtain ⟨align, data⟩ := e
    rw [(h.cons part).1, ih (part + 1) h.tail]
    rfl

theorem sizeFrom_eq (h : FitsFrom entries base x) : sizeFrom x entries = extent x (shape entries) := by
  induction entries generalizing x with
  | nil => rfl
  | cons e entries ih =>
    obtain ⟨align, data⟩ := e
    have hroom := h.tail.room
    have hle := le_extent (alignUp x align + data.size) (shape entries)
    have hup := le_alignUp x align
    rw [sizeFrom, alignUpMask_eq h.head.1 (by omega), addSize_eq (by omega), ih h.tail]
    rfl

theorem layoutFrom_outside (part : Nat) (h : LaidFrom entries base x) {z : Nat}
    (hz : z < base + x ∨ base + extent x (shape entries) ≤ z) : placedAt (layoutFrom part (base + x) entries).1 z = none := by
  induction entries generalizing part x with
  | nil => rfl
  | cons e entries ih =>
    obtain ⟨align, data⟩ := e
    have hup := le_alignUp x align
    have hle := le_extent (alignUp x align + data.size) (shape entries)
    change _ ∨ base + extent (alignUp x align + data.size) (shape entries) ≤ z at hz
    rw [(h.cons part).2, h.head.outside z (by omega), ih (part + 1) h.tail (by omega)]
    rfl

/-- The bytes of a part are laid out where the part is. -/
theorem placedAt_part (part : Nat) (h : LaidFrom entries base x) (hi : entries[i]? = some (align, data))
    (hp : (places x (shape entries))[i]? = some place) (hlo : place ≤ o) (hhi : o < place + data.size) :
    placedAt (layoutFrom part (base + x) entries).1 (base + o) =
      (placedAt (data.calculateLayout (base + place)).1 (base + o)).map (placeWithin (part + i)) := by
  induction entries generalizing part x i with
  | nil => cases hi
  | cons e entries ih =>
    obtain ⟨a, d⟩ := e
    rw [(h.cons part).2]
    cases i with
    | zero =>
      obtain ⟨rfl, rfl⟩ : a = align ∧ d = data := Prod.mk.inj (Option.some_inj.mp hi)
      obtain rfl : alignUp x a = place := Option.some_inj.mp hp
      rw [layoutFrom_outside (part + 1) h.tail (.inl (by omega)), Option.or_none, Nat.add_zero]
    | succ i =>
      have hi' : entries[i]? = some (align, data) := hi
      have hp' : (places (alignUp x a + d.size) (shape entries))[i]? = some place := hp
      obtain ⟨place', hplace, hle, -⟩ := places_spec (alignUp x a + d.size) (shape_getElem? hi')
      obtain rfl : place' = place := Option.some_inj.mp (hplace.symm.trans hp')
      rw [h.head.outside _ (.inr (by omega)), Option.map_none, Option.none_or, ih (part + 1) h.tail hi' hp',
        Nat.add_right_comm, Nat.add_assoc]

/-! ## The count -/

theorem steadyFrom_cons {size a : Nat} {pieces : List (Nat × Nat)} : SteadyFrom x y ((size, a) :: pieces) ↔
    (0 < size → alignUp x a = y) ∧ SteadyFrom (alignUp x a + size) (y + alignUp size a) pieces := by
  constructor
  · intro h
    exact ⟨fun hpos => Option.some_inj.mp (h 0 size a rfl hpos), fun i size' a' hi => h (i + 1) size' a' hi⟩
  · rintro ⟨hhead, htail⟩ i size' a' hi hpos
    cases i with
    | zero =>
      cases hi
      exact congrArg some (hhead hpos)
    | succ i => exact htail i size' a' hi hpos

/-- Nothing is laid out in front of what is counted. -/
theorem placedAt_of_lt (part : Nat) (h : LaidFrom entries base x) (hsteady : SteadyFrom x y (shape entries)) (ho : o < y) :
    placedAt (layoutFrom part (base + x) entries).1 (base + o) = none := by
  induction entries generalizing part x y with
  | nil => rfl
  | cons e entries ih =>
    obtain ⟨align, data⟩ := e
    obtain ⟨hhead, htail⟩ : (0 < data.size → alignUp x align = y) ∧ _ := steadyFrom_cons.mp hsteady
    have hup := le_alignUp data.size align
    have hout : base + o < base + alignUp x align ∨ base + alignUp x align + data.size ≤ base + o := by
      by_cases hpos : 0 < data.size
      · have := hhead hpos
        omega
      · omega
    rw [(h.cons part).2, h.head.outside _ hout, ih (part + 1) h.tail htail (by omega)]
    rfl

/-- What is laid out is in the part that the count finds, at the offset that it finds there. -/
theorem placedAt_eq (part : Nat) (h : LaidFrom entries base x) (hsteady : SteadyFrom x y (shape entries)) (ho : y ≤ o) :
    placedAt (layoutFrom part (base + x) entries).1 (base + o) = (locate part entries (o - y)).bind fun r =>
      (placedAt (r.2.1.calculateLayout (base + (o - r.2.2))).1 (base + o)).map (placeWithin r.1) := by
  induction entries generalizing part x y with
  | nil => rfl
  | cons e entries ih =>
    obtain ⟨align, data⟩ := e
    obtain ⟨hhead, htail⟩ : (0 < data.size → alignUp x align = y) ∧ _ := steadyFrom_cons.mp hsteady
    have hroom := h.tail.room
    have hle := le_extent (alignUp x align + data.size) (shape entries)
    have hup := le_alignUp data.size align
    have hrest := h.tail
    rw [locate, (h.cons part).2, alignUpMask_eq h.toFitsFrom.head.1 (by omega)]
    by_cases hin : o - y < data.size
    · have hstart := hhead (by omega)
      rw [if_pos hin, layoutFrom_outside (part + 1) h.tail (.inl (by omega)), Option.or_none, Option.bind_some, hstart,
        Nat.sub_sub_self ho]
    · have hout : base + o < base + alignUp x align ∨ base + alignUp x align + data.size ≤ base + o := by
        by_cases hpos : 0 < data.size
        · have := hhead hpos
          omega
        · omega
      rw [if_neg hin, h.head.outside _ hout, Option.map_none, Option.none_or]
      by_cases hpad : o - y < alignUp data.size align
      · rw [if_pos hpad, placedAt_of_lt (part + 1) h.tail htail (by omega)]
        rfl
      · rw [if_neg hpad, ih (part + 1) h.tail htail (by omega), Nat.sub_sub]

/-- What is located is in the part that the count says. -/
theorem locate_some {part' l : Nat} (h : FitsFrom entries base x) (hl : locate part entries o = some (part', data, l)) :
    l < data.size ∧ ∃ (i a q : Nat), part' = part + i ∧ entries[i]? = some (a, data) ∧
      (counted y (shape entries))[i]? = some q ∧ y + o = q + l := by
  induction entries generalizing part x y o with
  | nil => cases hl
  | cons e entries ih =>
    obtain ⟨align, d⟩ := e
    have hroom := h.tail.room
    have hle := le_extent (alignUp x align + d.size) (shape entries)
    rw [locate, alignUpMask_eq h.head.1 (by omega)] at hl
    split at hl
    · next hin =>
      cases hl
      exact ⟨hin, 0, align, y, rfl, rfl, rfl, rfl⟩
    · split at hl
      · cases hl
      · next hpad =>
        obtain ⟨hlt, i, a, q, hpart, hentry, hq, heq⟩ := @ih (part + 1) (alignUp x align + d.size)
          (y + alignUp d.size align) (o - alignUp d.size align) h.tail hl
        exact ⟨hlt, i + 1, a, q, by omega, hentry, hq, by omega⟩

theorem le_counted {pieces : List (Nat × Nat)} {q : Nat} (hq : (counted y pieces)[i]? = some q) : y ≤ q := by
  induction pieces generalizing y i with
  | nil => cases hq
  | cons piece pieces ih =>
    cases i with
    | zero => exact (Option.some_inj.mp hq).le
    | succ i =>
      have := ih (y := y + alignUp piece.1 piece.2) (i := i) hq
      omega

/-- Every offset in a part that the count has passed is located there. -/
theorem locate_counted (part : Nat) (h : FitsFrom entries base x) {l q : Nat} (hi : entries[i]? = some (align, data))
    (hq : (counted y (shape entries))[i]? = some q) (hl : l < data.size) :
    locate part entries (q + l - y) = some (part + i, data, l) := by
  induction entries generalizing part x y i with
  | nil => cases hi
  | cons e entries ih =>
    obtain ⟨a, d⟩ := e
    have hroom := h.tail.room
    have hle := le_extent (alignUp x a + d.size) (shape entries)
    have hup := le_alignUp d.size a
    rw [locate, alignUpMask_eq h.head.1 (by omega)]
    cases i with
    | zero =>
      obtain ⟨rfl, rfl⟩ : a = align ∧ d = data := Prod.mk.inj (Option.some_inj.mp hi)
      obtain rfl : y = q := Option.some_inj.mp hq
      rw [Nat.add_sub_cancel_left, if_pos hl]
      rfl
    | succ i =>
      have hq' : (counted (y + alignUp d.size a) (shape entries))[i]? = some q := hq
      have hpast := le_counted hq'
      rw [if_neg (by omega), if_neg (by omega), Nat.sub_sub, ih (part + 1) h.tail hi hq', Nat.add_right_comm,
        Nat.add_assoc]

/-- The first byte of all is found at the start, where it is. -/
theorem locate_first (part : Nat) (h : LaidFrom entries base 0) (hpos : 0 < extent 0 (shape entries)) :
    ∃ (i : Nat) (data : Answers) (p : List Nat × Nat), locate part entries 0 = some (i, data, 0) ∧
      data.get 0 1 = some (p.1, p.2, 1) ∧ placedAt (layoutFrom part base entries).1 base = some (i :: p.1, p.2) := by
  induction entries generalizing part with
  | nil => exact absurd hpos (Nat.lt_irrefl 0)
  | cons e entries ih =>
    obtain ⟨align, data⟩ := e
    have hzero : ∀ a, alignUp 0 a = 0 := fun a => alignUp_of_aligned (.inr (Nat.dvd_zero a))
    have hroom := h.tail.room
    have hle := le_extent (alignUp 0 align + data.size) (shape entries)
    have hcons := (h.cons part).2 (base + 0)
    have hhead := h.head
    have htail := h.tail
    rw [hzero] at hcons hhead htail
    simp only [Nat.add_zero, Nat.zero_add] at hcons hhead htail
    rw [locate, alignUpMask_eq h.toFitsFrom.head.1 (by omega), hcons]
    by_cases hdata : 0 < data.size
    · obtain ⟨p, hplaced, hget⟩ := hhead.first hdata
      rw [if_pos hdata, hplaced]
      exact ⟨part, data, p, rfl, hget, rfl⟩
    · obtain hempty : data.size = 0 := by omega
      rw [hempty] at htail
      have hpos' : 0 < extent 0 (shape entries) := by
        change 0 < extent (alignUp 0 align + data.size) (shape entries) at hpos
        rwa [hzero, hempty] at hpos
      rw [if_neg hdata, hempty, hzero, if_neg (Nat.lt_irrefl 0), hhead.outside base (.inr (by omega)), Option.map_none,
        Option.none_or]
      exact ih (part + 1) htail hpos'

/-! ## Lookups -/

theorem get_eq (entries : Entries) (o : Nat) : get entries o 1 = (locate 0 (plain entries) o).bind fun r =>
    (r.2.1.get r.2.2 1).map fun q => (r.1 :: q.1, q.2) := by
  unfold get
  cases locate 0 (plain entries) o with
  | none => rfl
  | some r =>
    obtain ⟨part, data, l⟩ := r
    cases hget : data.get l 1 <;> simp [hget]

/-- A combination of storages that are laid out is laid out. -/
theorem laid_answers (h : LaidFrom (plain entries) base 0) : Laid (answers entries) base := by
  have hsize : size entries = extent 0 (shape (plain entries)) := sizeFrom_eq h.toFitsFrom
  have hnext : (calculateLayout entries base).2 = base + extent 0 (shape (plain entries)) := layoutFrom_next 0 h
  constructor
  · exact hnext.trans (congrArg (base + ·) hsize.symm)
  · intro z hz
    change z < base ∨ base + size entries ≤ z at hz
    rw [hsize] at hz
    exact layoutFrom_outside 0 h (by omega)
  · intro hpos
    change 0 < size entries at hpos
    rw [hsize] at hpos
    obtain ⟨i, data, p, hlocate, hget, hplaced⟩ := locate_first 0 h hpos
    refine ⟨(i :: p.1, p.2), hplaced, ?_⟩
    change get entries 0 1 = _
    rw [get_eq, hlocate, Option.bind_some, hget]
    rfl
  · intro l l' q _ _ hl hl'
    change get entries l 1 = some q at hl
    change get entries l' 1 = some q at hl'
    rw [get_eq, Option.bind_eq_some_iff] at hl hl'
    obtain ⟨⟨part, data, k⟩, hlocate, hget⟩ := hl
    obtain ⟨⟨part', data', k'⟩, hlocate', hget'⟩ := hl'
    obtain ⟨q₁, hq₁, rfl⟩ := Option.map_eq_some_iff.mp hget
    obtain ⟨q₂, hq₂, heq⟩ := Option.map_eq_some_iff.mp hget'
    obtain ⟨hcons, hspan⟩ := Prod.mk.inj heq
    obtain ⟨hparts, hpath⟩ := List.cons.inj hcons
    dsimp only at hparts hq₁ hq₂
    obtain ⟨hk, i, a, c, hpart, hi, hc, hsum⟩ := @locate_some _ data 0 base 0 0 l part k h.toFitsFrom hlocate
    obtain ⟨hk', i', a', c', hpart', hi', hc', hsum'⟩ := @locate_some _ data' 0 base 0 0 l' part' k' h.toFitsFrom hlocate'
    obtain rfl : i = i' := by omega
    obtain ⟨rfl, rfl⟩ := Prod.mk.inj (Option.some_inj.mp (hi.symm.trans hi'))
    obtain rfl : c = c' := Option.some_inj.mp (hc.symm.trans hc')
    obtain ⟨place, hplace, -⟩ := places_spec 0 (shape_getElem? hi)
    have hinj := (h.laid i a data place hi hplace).inj k k' q₁ hk hk' hq₁ (by rw [hq₂, Prod.ext hpath hspan])
    omega

/-- The offsets of a combination refer to its bytes exactly if it is steady and those of the parts do. -/
theorem refers_iff (h : LaidFrom (plain entries) base 0) : Refers (answers entries) base ↔
    SteadyFrom 0 0 (shape (plain entries)) ∧ ∀ (i align : Nat) (data : Answers) (place : Nat),
      (plain entries)[i]? = some (align, data) → (places 0 (shape (plain entries)))[i]? = some place →
        Refers data (base + place) := by
  have hsize : size entries = extent 0 (shape (plain entries)) := sizeFrom_eq h.toFitsFrom
  have hpart : ∀ {i align : Nat} {data : Answers} {place l : Nat}, (plain entries)[i]? = some (align, data) →
      (places 0 (shape (plain entries)))[i]? = some place → l < data.size →
      placedAt (calculateLayout entries base).1 (base + (place + l)) =
        (placedAt (data.calculateLayout (base + place)).1 (base + place + l)).map (placeWithin i) := by
    intro i align data place l hi hp hl
    have hplaced := placedAt_part 0 h hi hp (show place ≤ place + l by omega) (by omega)
    rw [Nat.zero_add, Nat.add_zero] at hplaced
    rw [Nat.add_assoc base]
    exact hplaced
  have hlast : ∀ {i align : Nat} {data : Answers} {place : Nat}, (plain entries)[i]? = some (align, data) →
      (places 0 (shape (plain entries)))[i]? = some place → place + data.size ≤ size entries := by
    intro i align data place hi hp
    obtain ⟨place', hplace, -, -, hle, -⟩ := places_spec 0 (shape_getElem? hi)
    obtain rfl : place' = place := Option.some_inj.mp (hplace.symm.trans hp)
    omega
  constructor
  · intro hrefers
    change ∀ l < size entries, get entries l 1 = (placedAt (calculateLayout entries base).1 (base + l)).map _ at hrefers
    -- The first byte of a part is only found at the part's own offset 0.
    have hsteady : SteadyFrom 0 0 (shape (plain entries)) := by
      intro i size a hi hpos
      obtain ⟨⟨align, data⟩, hentry, heq⟩ : ∃ e, (plain entries)[i]? = some e ∧ (e.2.size, e.1) = (size, a) := by
        rw [shape, List.getElem?_map, Option.map_eq_some_iff] at hi
        exact hi
      obtain ⟨rfl, rfl⟩ := Prod.mk.inj heq
      obtain ⟨place, hplace, -⟩ := places_spec 0 hi
      have hlaid := h.laid i align data place hentry hplace
      obtain ⟨p, hfirst, hfound⟩ := hlaid.first hpos
      have hend := hlast hentry hplace
      dsimp only at hpos
      have hget := hrefers place (by omega)
      have hplaced := hpart hentry hplace hpos
      rw [Nat.add_zero, Nat.add_zero, hfirst] at hplaced
      rw [hplaced, get_eq] at hget
      obtain ⟨⟨part, data', k⟩, hlocate, hmap⟩ := Option.bind_eq_some_iff.mp hget
      obtain ⟨q, hq, hplace'⟩ := Option.map_eq_some_iff.mp hmap
      obtain ⟨hcons, hspan⟩ := Prod.mk.inj hplace'
      obtain ⟨rfl, hpath⟩ := List.cons.inj hcons
      dsimp only at hq hpath hspan
      obtain ⟨hk, j, a', c, hpart', hj, hc, hsum⟩ := @locate_some _ data' 0 base 0 0 place part k h.toFitsFrom hlocate
      obtain rfl : part = j := by omega
      obtain ⟨rfl, rfl⟩ := Prod.mk.inj (Option.some_inj.mp (hentry.symm.trans hj))
      have hzero := hlaid.inj k 0 q hk hpos hq (by rw [hfound, ← hpath, ← hspan])
      rw [hplace, hc]
      exact congrArg some (by omega)
    refine ⟨hsteady, fun i align data place hi hp l hl => ?_⟩
    have hend := hlast hi hp
    have hget := hrefers (place + l) (by omega)
    have hcounted : (counted 0 (shape (plain entries)))[i]? = some place := by
      rw [← hsteady i data.size align (shape_getElem? hi) (by omega), hp]
    have hlocate := locate_counted 0 h.toFitsFrom hi hcounted hl
    rw [Nat.sub_zero, Nat.zero_add] at hlocate
    rw [hpart hi hp hl, get_eq, hlocate, Option.bind_some] at hget
    cases hchild : data.get l 1 with
    | none =>
      rw [hchild, Option.map_none, Option.map_map, eq_comm, Option.map_eq_none_iff] at hget
      rw [hget]
      rfl
    | some q =>
      rw [hchild, Option.map_some, Option.map_map, eq_comm, Option.map_eq_some_iff] at hget
      obtain ⟨p, hp', heq⟩ := hget
      obtain ⟨hcons, hspan⟩ := Prod.mk.inj heq
      rw [hp', Option.map_some]
      exact congrArg some (Prod.ext (List.cons.inj hcons).2.symm hspan.symm)
  · rintro ⟨hsteady, hparts⟩ l _
    change get entries l 1 = (placedAt (calculateLayout entries base).1 (base + l)).map _
    have hplaced := placedAt_eq 0 h hsteady (Nat.zero_le l)
    rw [Nat.sub_zero] at hplaced
    rw [get_eq, show placedAt (calculateLayout entries base).1 (base + l) = _ from hplaced]
    cases hlocate : locate 0 (plain entries) l with
    | none => rfl
    | some r =>
      obtain ⟨part, data, k⟩ := r
      obtain ⟨hk, i, a, c, hpart', hi, hc, hsum⟩ := @locate_some _ data 0 base 0 0 l part k h.toFitsFrom hlocate
      have hplace : (places 0 (shape (plain entries)))[i]? = some c := by
        rw [hsteady i data.size a (shape_getElem? hi) (by omega), hc]
      have hchild := hparts i a data c hi hplace k hk
      rw [Option.bind_some, Option.bind_some, hchild, show l - k = c by omega, show base + l = base + c + k by omega,
        Option.map_map, Option.map_map]
      rfl

end CombiningStorage

/-! ## Leaves -/

namespace Leaf

theorem flatten_pieces (data : Leaf) : data.pieces.flatten = data.bytes := by
  cases data with
  | block bytes =>
    change (if bytes.isEmpty then [] else [bytes]).flatten = [bytes].flatten
    split
    · next h => rw [List.isEmpty_iff.mp h, List.flatten_nil, List.flatten_singleton]
    · rfl
  | paged pages => exact List.flatten_filter_not_isEmpty
  | mapped bytes => rfl
  | null => rfl

theorem layoutPieces_spec (pieces : List (List U8)) (dst offset : Nat) (h : dst + pieces.flatten.length < 2 ^ 63) :
    (layoutPieces dst offset pieces).2 = dst + pieces.flatten.length ∧ ∀ x,
      placedAt (layoutPieces dst offset pieces).1 x =
        if dst ≤ x ∧ x < dst + pieces.flatten.length then some ([], offset + (x - dst)) else none := by
  induction pieces generalizing dst offset with
  | nil =>
    refine ⟨rfl, fun x => ?_⟩
    rw [if_neg (by simp only [List.flatten_nil, List.length_nil]; omega)]
    rfl
  | cons piece pieces ih =>
    rw [List.flatten_cons, List.length_append] at h ⊢
    have hadd : addSize dst piece.length = dst + piece.length := addSize_eq (by omega)
    obtain ⟨hnext, hplaced⟩ := @ih (dst + piece.length) (offset + piece.length) (by omega)
    rw [layoutPieces, hadd]
    refine ⟨by rw [hnext]; omega, fun x => ?_⟩
    rw [placedAt, hplaced]
    by_cases hx : dst ≤ x ∧ x < dst + piece.length
    · rw [if_pos hx, if_pos (by omega)]
    · rw [if_neg hx]
      split
      · rw [if_pos (by omega), show offset + piece.length + (x - (dst + piece.length)) = offset + (x - dst) by omega]
      · rw [if_neg (by omega)]

theorem getPage_one {l : Nat} (pages : List (List U8)) {offset : Nat} (hle : offset ≤ l)
    (hlt : l < offset + pages.flatten.length) : getPage l 1 offset pages = some (l, 1) := by
  induction pages generalizing offset with
  | nil =>
    rw [List.flatten_nil, List.length_nil] at hlt
    omega
  | cons page pages ih =>
    rw [List.flatten_cons, List.length_append] at hlt
    rw [getPage]
    split
    · rw [if_neg (by omega)]
    · exact ih (by omega) (by omega)

variable {data : Leaf} {base : Nat}

theorem get_one {l : Nat} (hl : l < data.size) (hsize : data.size < 2 ^ 63) : data.get l 1 = some (l, 1) := by
  unfold get
  rw [if_neg (by rw [addSize_eq (by omega)]; omega)]
  cases data with
  | block bytes => rfl
  | paged pages => exact getPage_one pages (Nat.zero_le l) (by rwa [Nat.zero_add])
  | mapped bytes => rfl
  | null => exact absurd hl (Nat.not_lt_zero l)

theorem placedAt_answers (h : base + data.size < 2 ^ 63) : (data.answers.calculateLayout base).2 = base + data.size ∧
    ∀ x, placedAt (data.answers.calculateLayout base).1 x =
      if base ≤ x ∧ x < base + data.size then some ([], x - base) else none := by
  have hsize : data.pieces.flatten.length = data.size := by
    rw [flatten_pieces]
    rfl
  obtain ⟨hnext, hplaced⟩ := layoutPieces_spec data.pieces base 0 (by rw [hsize]; exact h)
  rw [hsize] at hnext hplaced
  refine ⟨hnext, fun x => (hplaced x).trans ?_⟩
  simp only [Nat.zero_add]

/-- The offsets of a leaf refer to its bytes. -/
theorem refers_answers (h : base + data.size < 2 ^ 63) : Refers data.answers base := by
  intro l hl
  change l < data.size at hl
  rw [(placedAt_answers h).2, if_pos (by omega), Nat.add_sub_cancel_left]
  change (data.get l 1).map _ = _
  rw [get_one hl (by omega)]
  rfl

theorem laid_answers (h : base + data.size < 2 ^ 63) : Laid data.answers base := by
  obtain ⟨hnext, hplaced⟩ := placedAt_answers h
  refine ⟨hnext, fun x hx => ?_, fun hpos => ?_, fun l l' q hl hl' hget hget' => ?_⟩
  · change x < base ∨ base + data.size ≤ x at hx
    rw [hplaced, if_neg (by omega)]
  · change 0 < data.size at hpos
    refine ⟨([], 0), by rw [hplaced, if_pos (by omega), Nat.sub_self], ?_⟩
    rw [refers_answers h 0 hpos, Nat.add_zero, hplaced, if_pos (by omega), Nat.sub_self]
    rfl
  · change l < data.size at hl
    change l' < data.size at hl'
    rw [refers_answers h l hl, hplaced, if_pos (by omega)] at hget
    rw [refers_answers h l' hl', hplaced, if_pos (by omega)] at hget'
    have := (Prod.mk.inj (Prod.mk.inj (Option.some_inj.mp (hget.trans hget'.symm))).2).1
    omega

end Leaf

/-! ## Trees of storages -/

namespace Part

open CombiningStorage

variable {self : Part} {base : Nat}

theorem answersOf_eq (entries : List (Nat × Part)) : answersOf entries = entries.map fun e => (e.1, e.2.answers) := by
  induction entries with
  | nil => rfl
  | cons e entries ih =>
    rw [List.map_cons, ← ih]
    rfl

theorem plain_getElem? {entries : List (Nat × Part)} {i align : Nat} {data : Answers}
    (h : (plain (answersOf entries))[i]? = some (align, data)) :
    ∃ e, entries[i]? = some e ∧ e.2.answers = data := by
  cases entries with
  | nil => cases h
  | cons e entries =>
    cases i with
    | zero => exact ⟨e, rfl, congrArg Prod.snd (Option.some_inj.mp h)⟩
    | succ i =>
      have h : (answersOf entries)[i]? = some (align, data) := h
      rw [answersOf_eq, List.getElem?_map, Option.map_eq_some_iff] at h
      obtain ⟨e', he', heq⟩ := h
      exact ⟨e', he', congrArg Prod.snd heq⟩

theorem exists_plain {entries : List (Nat × Part)} {i : Nat} {e : Nat × Part} (h : entries[i]? = some e) :
    ∃ align, (plain (answersOf entries))[i]? = some (align, e.2.answers) := by
  cases entries with
  | nil => cases h
  | cons d entries =>
    cases i with
    | zero => exact ⟨0, by rw [← Option.some_inj.mp h]; rfl⟩
    | succ i =>
      have h : entries[i]? = some e := h
      refine ⟨e.1, ?_⟩
      change (answersOf entries)[i]? = _
      rw [answersOf_eq, List.getElem?_map, h]
      rfl

/-- What fits is laid out, down to the leaves. -/
theorem Fits.laid (h : self.Fits base) : Laid self.answers base := by
  induction h with
  | leaf room => exact Leaf.laid_answers room
  | @combining entries base fits parts ih =>
    refine CombiningStorage.laid_answers ⟨fits, fun i align data place hi hp => ?_⟩
    obtain ⟨e, he, rfl⟩ := plain_getElem? hi
    exact ih i e.1 e.2 place he hp

theorem Fits.laidFrom {entries : List (Nat × Part)} (h : (Part.combining entries).Fits base) :
    LaidFrom (plain (answersOf entries)) base 0 := by
  cases h with
  | combining fits parts =>
    refine ⟨fits, fun i align data place hi hp => ?_⟩
    obtain ⟨e, he, rfl⟩ := plain_getElem? hi
    exact (parts i e.1 e.2 place he hp).laid

/-- Offsets refer to the bytes laid out there just where rounding sizes and rounding starts come to the same. -/
theorem Fits.refers_iff (h : self.Fits base) : Refers self.answers base ↔ self.Steady := by
  induction h with
  | leaf room => exact iff_of_true (Leaf.refers_answers room) (.leaf _)
  | @combining entries base fits parts ih =>
    have hlaid : LaidFrom (plain (answersOf entries)) base 0 := Fits.laidFrom (.combining fits parts)
    refine (CombiningStorage.refers_iff hlaid).trans ⟨fun ⟨hsteady, hparts⟩ => .combining hsteady fun e he => ?_, ?_⟩
    · obtain ⟨i, hi⟩ := List.mem_iff_getElem?.mp he
      obtain ⟨align, hplain⟩ := exists_plain hi
      obtain ⟨place, hplace, -⟩ := places_spec 0 (shape_getElem? hplain)
      exact (ih i e.1 e.2 place hi hplace).mp (hparts i align _ place hplain hplace)
    · intro hsteady
      cases hsteady with
      | combining hsteady hparts =>
        refine ⟨hsteady, fun i align data place hi hp => ?_⟩
        obtain ⟨e, he, rfl⟩ := plain_getElem? hi
        exact (ih i e.1 e.2 place he hp).mpr (hparts e (List.mem_of_getElem? he))

/-- A string is as long as it is in its leaf. -/
theorem Fits.strlen_eq (h : self.Fits base) (hsteady : self.Steady) {o : Nat} {path : List Nat} {offset : Nat}
    (hplaced : placedAt (self.calculateLayout base).1 (base + o) = some (path, offset)) :
    ∃ data, self.leafAt path = some data ∧ self.strlen o = data.strlen offset := by
  induction h generalizing o path offset with
  | @leaf data base room =>
    change placedAt (data.answers.calculateLayout base).1 (base + o) = _ at hplaced
    rw [(Leaf.placedAt_answers room).2] at hplaced
    split at hplaced
    · obtain ⟨rfl, rfl⟩ := Prod.mk.inj (Option.some_inj.mp hplaced)
      exact ⟨data, rfl, by rw [Nat.add_sub_cancel_left]; rfl⟩
    · cases hplaced
  | @combining entries base fits parts ih =>
    have hlaid : LaidFrom (plain (answersOf entries)) base 0 := Fits.laidFrom (.combining fits parts)
    cases hsteady with
    | combining hsteady hparts =>
      have hat := placedAt_eq 0 hlaid hsteady (Nat.zero_le o)
      rw [show placedAt (layoutFrom 0 (base + 0) (plain (answersOf entries))).1 (base + o) = _ from hplaced,
        Nat.sub_zero, eq_comm, Option.bind_eq_some_iff] at hat
      obtain ⟨⟨part, data, l⟩, hlocate, hmap⟩ := hat
      obtain ⟨p, hp, heq⟩ := Option.map_eq_some_iff.mp hmap
      obtain ⟨rfl, rfl⟩ := Prod.mk.inj heq
      obtain ⟨hl, i, a, c, hpart, hi, hc, hsum⟩ := @locate_some _ data 0 base 0 0 o part l fits hlocate
      obtain rfl : part = i := by omega
      have hplace : (places 0 (shape (plain (answersOf entries))))[part]? = some c := by
        rw [hsteady part data.size a (shape_getElem? hi) (by omega), hc]
      obtain ⟨e, he, rfl⟩ := plain_getElem? hi
      dsimp only at hp
      rw [show o - l = c by omega, show base + o = base + c + l by omega] at hp
      obtain ⟨leaf, hleaf, hlen⟩ := ih part e.1 e.2 c he hplace (hparts e (List.mem_of_getElem? he)) hp
      refine ⟨leaf, by rw [leafAt, he]; exact hleaf, ?_⟩
      change CombiningStorage.strlen (answersOf entries) o = _
      rw [CombiningStorage.strlen, hlocate]
      exact hlen

end Part

end Pepp.Elf

import Pepp.Elf.CombiningLayout

/-!
# Agreement of combined storage with its layout

Searching ends in the first leaf, which answers even where it has not found
the needle.
-/

namespace Pepp.Elf

open Padding Patches

/-! ## Searches in leaves -/

namespace Leaf

/-- The needle is at an offset, within one page. -/
def Has (self : Leaf) (needle : List U8) (l : Nat) : Prop :=
  ∃ (pre : List (List U8)) (page : List U8) (post : List (List U8)) (k : Nat), self.pages = pre ++ page :: post ∧
    l = pre.flatten.length + k ∧ k < page.length ∧ needle <+: page.drop k

/-- What the search answers for a needle that it does not find. -/
def miss (self : Leaf) : Nat :=
  match self with
  | .block _ => 0
  | .paged _ => self.size
  | .mapped _ => 0
  | .null => 0

theorem search_le (needle bytes : List U8) : search needle bytes ≤ bytes.length := by
  induction bytes with
  | nil => exact le_rfl
  | cons b bytes ih =>
    rw [search]
    split
    · exact Nat.zero_le _
    · exact Nat.succ_le_succ ih

variable {needle bytes : List U8}

theorem search_found (h : search needle bytes ≠ bytes.length) :
    search needle bytes < bytes.length ∧ needle <+: bytes.drop (search needle bytes) := by
  refine ⟨lt_of_le_of_ne (search_le needle bytes) h, ?_⟩
  induction bytes with
  | nil => exact absurd rfl h
  | cons b bytes ih =>
    rw [search] at h ⊢
    split
    · next hprefix => exact List.isPrefixOf_iff_prefix.mp hprefix
    · next hprefix =>
      rw [if_neg hprefix] at h
      exact ih fun heq => h (congrArg (· + 1) heq)

theorem search_missed (h : search needle bytes = bytes.length) {k : Nat} (hk : k < bytes.length) :
    ¬ needle <+: bytes.drop k := by
  induction bytes generalizing k with
  | nil => exact absurd hk (Nat.not_lt_zero k)
  | cons b bytes ih =>
    rw [search] at h
    by_cases hprefix : needle.isPrefixOf (b :: bytes) = true
    · rw [if_pos hprefix] at h
      exact absurd h.symm (Nat.succ_ne_zero _)
    · rw [if_neg hprefix] at h
      cases k with
      | zero => exact fun hp => hprefix (List.isPrefixOf_iff_prefix.mpr hp)
      | succ k => exact ih (Nat.succ.inj h) (Nat.lt_of_succ_lt_succ hk)

/-- Some page has the needle where the search says, or none has it. -/
theorem findPage_spec (needle : List U8) (pages : List (List U8)) (offset : Nat) :
    (∃ (pre : List (List U8)) (page : List U8) (post : List (List U8)) (k : Nat), pages = pre ++ page :: post ∧
      findPage needle offset pages = offset + (pre.flatten.length + k) ∧ k < page.length ∧ needle <+: page.drop k) ∨
    (findPage needle offset pages = offset + pages.flatten.length ∧
      ∀ page ∈ pages, ∀ k < page.length, ¬ needle <+: page.drop k) := by
  induction pages generalizing offset with
  | nil => exact .inr ⟨rfl, List.forall_mem_nil _⟩
  | cons page pages ih =>
    rw [findPage]
    by_cases hfound : search needle page ≠ page.length
    · obtain ⟨hlt, hprefix⟩ := search_found hfound
      rw [if_pos hfound]
      exact .inl ⟨[], page, pages, search needle page, rfl, by rw [List.flatten_nil, List.length_nil, Nat.zero_add],
        hlt, hprefix⟩
    · rw [if_neg hfound]
      rcases ih (offset + page.length) with ⟨pre, page', post, k, rfl, hfind, hk, hprefix⟩ | ⟨hfind, hnone⟩
      · refine .inl ⟨page :: pre, page', post, k, rfl, ?_, hk, hprefix⟩
        rw [hfind, List.flatten_cons, List.length_append]
        omega
      · refine .inr ⟨?_, List.forall_mem_cons.mpr ⟨fun k hk => search_missed (not_not.mp hfound) hk, hnone⟩⟩
        rw [hfind, List.flatten_cons, List.length_append, Nat.add_assoc]

theorem has_lt {data : Leaf} {needle : List U8} {l : Nat} (h : data.Has needle l) : l < data.size := by
  obtain ⟨pre, page, post, k, hpages, rfl, hk, -⟩ := h
  rw [size, bytes, hpages, List.flatten_append, List.flatten_cons, List.length_append, List.length_append]
  omega

/-- A leaf with one page. -/
theorem find_single {data : Leaf} (hpages : data.pages = [bytes])
    (hfind : data.find needle = if search needle bytes = bytes.length then 0 else search needle bytes)
    (hmiss : data.miss = 0) :
    data.Has needle (data.find needle) ∨ data.find needle = data.miss ∧ ∀ l, ¬ data.Has needle l := by
  by_cases hfound : search needle bytes = bytes.length
  · rw [if_pos hfound] at hfind
    refine .inr ⟨hfind.trans hmiss.symm, fun l => ?_⟩
    rintro ⟨pre, page, post, k, hp, -, hk, hprefix⟩
    have hmem : page ∈ data.pages := by
      rw [hp]
      exact List.mem_append_right _ List.mem_cons_self
    rw [hpages, List.mem_singleton] at hmem
    subst hmem
    exact search_missed hfound hk hprefix
  · rw [if_neg hfound] at hfind
    obtain ⟨hlt, hprefix⟩ := search_found hfound
    refine .inl ⟨[], bytes, [], search needle bytes, hpages, ?_, hlt, hprefix⟩
    rw [hfind, List.flatten_nil, List.length_nil, Nat.zero_add]

/-- A search finds the needle, or answers with a miss and there is none. -/
theorem find_spec (data : Leaf) (needle : List U8) :
    data.Has needle (data.find needle) ∨ data.find needle = data.miss ∧ ∀ l, ¬ data.Has needle l := by
  cases data with
  | block bytes => exact find_single rfl rfl rfl
  | mapped bytes => exact find_single rfl rfl rfl
  | null =>
    refine .inr ⟨rfl, fun l => ?_⟩
    rintro ⟨pre, page, post, k, hpages, -⟩
    exact absurd hpages (by simp [pages])
  | paged pages =>
    rcases findPage_spec needle pages 0 with ⟨pre, page, post, k, hpages, hfind, hk, hprefix⟩ | ⟨hfind, hnone⟩
    · rw [Nat.zero_add] at hfind
      exact .inl ⟨pre, page, post, k, hpages, hfind, hk, hprefix⟩
    · rw [Nat.zero_add] at hfind
      refine .inr ⟨hfind, fun l => ?_⟩
      rintro ⟨pre, page, post, k, hpages, -, hk, hprefix⟩
      have hmem : page ∈ pages := by
        change pages = _ at hpages
        rw [hpages]
        exact List.mem_append_right _ List.mem_cons_self
      exact hnone page hmem k hk hprefix

end Leaf

/-! ## Searches in combinations -/

namespace CombiningStorage

variable {entries : Entries} {data : Answers} {base x y i align : Nat}

/-- An answer is relative to what was counted in front of its part. -/
theorem findFrom_spec {needle : List U8} (h : FitsFrom entries base x) (hi : entries[i]? = some (align, data))
    (hbefore : ∀ j < i, ∀ e, entries[j]? = some e → e.2.find needle = notFound) (hdata : data.find needle ≠ notFound) :
    ∃ q, (counted y (shape entries))[i]? = some q ∧
      findFrom needle (y % 2 ^ 64) entries = (q + data.find needle) % 2 ^ 64 := by
  induction entries generalizing x y i with
  | nil => cases hi
  | cons e entries ih =>
    obtain ⟨a, d⟩ := e
    have hroom := h.tail.room
    have hle := le_extent (alignUp x a + d.size) (shape entries)
    rw [findFrom]
    cases i with
    | zero =>
      obtain ⟨rfl, rfl⟩ : a = align ∧ d = data := Prod.mk.inj (Option.some_inj.mp hi)
      rw [if_pos hdata]
      exact ⟨y, rfl, Nat.mod_add_mod _ _ _⟩
    | succ i =>
      have hmissed : d.find needle = notFound := hbefore 0 (Nat.succ_pos i) (a, d) rfl
      obtain ⟨q, hq, hfind⟩ := ih (y := y + alignUp d.size a) h.tail hi fun j hj e he => hbefore (j + 1) (by omega) e he
      refine ⟨q, hq, ?_⟩
      rw [if_neg (not_not.mpr hmissed), alignUpMask_eq h.head.1 (by omega), addSize, Nat.mod_add_mod]
      exact hfind

/-- Behind parts that are empty, nothing has been counted, and nothing rounded. -/
theorem places_empty {pieces : List (Nat × Nat)} {size a : Nat} (hi : pieces[i]? = some (size, a))
    (hempty : ∀ j < i, ∀ p, pieces[j]? = some p → p.1 = 0) :
    (places 0 pieces)[i]? = some 0 ∧ (counted 0 pieces)[i]? = some 0 := by
  have hzero : ∀ a, alignUp 0 a = 0 := fun a => alignUp_of_aligned (.inr (Nat.dvd_zero a))
  induction pieces generalizing i with
  | nil => cases hi
  | cons piece pieces ih =>
    obtain ⟨size', a'⟩ := piece
    cases i with
    | zero => exact ⟨congrArg some (hzero a'), rfl⟩
    | succ i =>
      obtain rfl : size' = 0 := hempty 0 (Nat.succ_pos i) (size', a') rfl
      rw [places, counted, hzero, Nat.add_zero]
      exact ih hi fun j hj p hp => hempty (j + 1) (by omega) p hp

end CombiningStorage

namespace Leaf

theorem miss_lt {data : Leaf} (h : data.size < CombiningStorage.notFound) : data.miss < CombiningStorage.notFound := by
  cases data with
  | block bytes => exact (by decide : 0 < CombiningStorage.notFound)
  | paged pages => exact h
  | mapped bytes => exact (by decide : 0 < CombiningStorage.notFound)
  | null => exact (by decide : 0 < CombiningStorage.notFound)

/-- No leaf below four gigabytes answers that it has not found anything. -/
theorem find_lt {data : Leaf} (h : data.size < CombiningStorage.notFound) (needle : List U8) :
    data.find needle < CombiningStorage.notFound := by
  rcases data.find_spec needle with hhas | ⟨hmiss, -⟩
  · exact (has_lt hhas).trans h
  · rw [hmiss]
    exact miss_lt h

end Leaf

namespace Part

open CombiningStorage

variable {self : Part} {base : Nat}

theorem find_combining (entries : List (Nat × Part)) (needle : List U8) :
    (combining entries).find needle = findFrom needle (0 % 2 ^ 64) (plain (answersOf entries)) := rfl

/-- The parts of a combination in front of one. -/
theorem plain_before {before after : List (Nat × Part)} {e : Nat × Part} {j : Nat} (hj : j < before.length)
    {d : Nat × Answers} (hd : (plain (answersOf (before ++ e :: after)))[j]? = some d) :
    ∃ e' ∈ before, e'.2.answers = d.2 := by
  obtain ⟨e', he', hdata⟩ := @plain_getElem? _ j d.1 d.2 hd
  rw [List.getElem?_append_left hj] at he'
  exact ⟨e', List.mem_of_getElem? he', hdata⟩

theorem getElem?_middle (before : List (Nat × Part)) (e : Nat × Part) (after : List (Nat × Part)) :
    (before ++ e :: after)[before.length]? = some e := by
  rw [List.getElem?_append_right le_rfl, Nat.sub_self, List.getElem?_cons_zero]

/-- What a search answers is laid out where it says, if the leaf has it at all. -/
theorem Fits.find_eq (h : self.Fits base) (hsteady : self.Steady) {needle : List U8} {path : List Nat} {offset : Nat}
    {data : Leaf} (hstops : Stops needle self path offset) (hleaf : self.leafAt path = some data) (hlt : offset < data.size) :
    placedAt (self.calculateLayout base).1 (base + self.find needle) = some (path, offset) := by
  induction h generalizing path offset with
  | @leaf data' base room =>
    cases hstops with
    | leaf =>
      obtain rfl : data' = data := Option.some_inj.mp hleaf
      change placedAt (data'.answers.calculateLayout base).1 (base + data'.find needle) = _
      rw [(Leaf.placedAt_answers room).2, if_pos (by omega), Nat.add_sub_cancel_left]
  | @combining entries base fits parts ih =>
    have hlaid : LaidFrom (plain (answersOf entries)) base 0 := Fits.laidFrom (.combining fits parts)
    cases hstops with
    | @part before after align data' path offset hbefore hdata hstops =>
      have hentry := getElem?_middle before (align, data') after
      cases hsteady with
      | combining hsteady hparts =>
        obtain ⟨a, hplain⟩ := exists_plain hentry
        obtain ⟨place, hplace, -, -, hle, -⟩ := places_spec 0 (shape_getElem? hplain)
        rw [leafAt, hentry] at hleaf
        have hchild := ih before.length align data' place hentry hplace
          (hparts _ (List.mem_of_getElem? hentry)) hstops hleaf hlt
        have hsame : data'.answers.find needle = data'.find needle := rfl
        have hle : place + data'.answers.size ≤ extent 0 (shape (plain (answersOf (before ++ (align, data') :: after)))) :=
          hle
        have hinside : data'.find needle < data'.answers.size := by
          by_contra hout
          have hnone := (parts before.length align data' place hentry hplace).laid.outside
            (base + place + data'.find needle) (.inr (by omega))
          rw [show placedAt (data'.answers.calculateLayout (base + place)).1 _ = _ from hchild] at hnone
          cases hnone
        obtain ⟨q, hq, hfind⟩ := @findFrom_spec _ data'.answers base 0 0 _ a needle fits hplain
          (fun j hj d hd => by
            obtain ⟨e', he', hd⟩ := plain_before hj hd
            rw [← hd]
            exact hbefore e' he') hdata
        have hpos : 0 < data'.answers.size := by omega
        obtain rfl : place = q := Option.some_inj.mp (hplace.symm.trans
          ((hsteady _ _ _ (shape_getElem? hplain) hpos).trans hq))
        have hroom := fits.room
        have hfound : (Part.combining (before ++ (align, data') :: after)).find needle = place + data'.find needle :=
          hfind.trans (Nat.mod_eq_of_lt (by omega))
        have hplaced := placedAt_part 0 hlaid hplain hplace (show place ≤ place + data'.find needle by omega)
          (show place + data'.find needle < place + data'.answers.size by omega)
        rw [hfound, ← Nat.add_assoc]
        rw [Nat.zero_add, Nat.add_zero, ← Nat.add_assoc] at hplaced
        refine hplaced.trans ?_
        rw [show placedAt (data'.answers.calculateLayout (base + place)).1 _ = _ from hchild]
        rfl

theorem agrees_of_steady (h : self.Fits base) (hsteady : self.Steady) : self.Agrees base where
  size := h.laid.next.symm
  get := h.refers_iff.mpr hsteady
  strlen _ _ _ _ hplaced := h.strlen_eq hsteady hplaced
  find _ _ _ _ hstops hleaf hlt := h.find_eq hsteady hstops hleaf hlt

/-! ## The first leaf -/

theorem leavesOf_cases (entries : List (Nat × Part)) : (leavesOf entries = [] ∧ ∀ e ∈ entries, e.2.leaves = []) ∨
    ∃ (before : List (Nat × Part)) (e : Nat × Part) (after : List (Nat × Part)) (leaf : Leaf) (rest rest' : List Leaf),
      entries = before ++ e :: after ∧ (∀ d ∈ before, d.2.leaves = []) ∧ e.2.leaves = leaf :: rest ∧
        leavesOf entries = leaf :: rest' := by
  induction entries with
  | nil => exact .inl ⟨rfl, List.forall_mem_nil _⟩
  | cons e entries ih =>
    obtain ⟨align, data⟩ := e
    cases hleaves : data.leaves with
    | cons leaf rest =>
      refine .inr ⟨[], (align, data), entries, leaf, rest, rest ++ leavesOf entries, rfl, List.forall_mem_nil _, hleaves, ?_⟩
      rw [leavesOf, hleaves]
      rfl
    | nil =>
      have hskip : leavesOf ((align, data) :: entries) = leavesOf entries := by
        rw [leavesOf, hleaves]
        rfl
      rw [hskip]
      rcases ih with ⟨hnone, hall⟩ | ⟨before, e, after, leaf, rest, rest', rfl, hbefore, he, hfirst⟩
      · exact .inl ⟨hnone, List.forall_mem_cons.mpr ⟨hleaves, hall⟩⟩
      · exact .inr ⟨(align, data) :: before, e, after, leaf, rest, rest', rfl, List.forall_mem_cons.mpr ⟨hleaves, hbefore⟩,
          he, hfirst⟩

/-- Nothing is in a combination without leaves, and nothing is found there. -/
theorem Fits.leafless (h : self.Fits base) (hnone : self.leaves = []) :
    self.size = 0 ∧ ∀ needle, self.find needle = notFound := by
  induction h with
  | leaf room => cases hnone
  | @combining entries base fits parts ih =>
    have hall : ∀ e ∈ entries, e.2.leaves = [] := by
      rcases leavesOf_cases entries with ⟨-, hall⟩ | ⟨_, _, _, leaf, _, rest, _, _, _, hfirst⟩
      · exact hall
      · rw [leaves, hfirst] at hnone
        cases hnone
    have hempty : ∀ d ∈ plain (answersOf entries), d.2.size = 0 ∧ ∀ needle, d.2.find needle = notFound := by
      intro d hd
      obtain ⟨i, hi⟩ := List.mem_iff_getElem?.mp hd
      obtain ⟨e, he, hdata⟩ := @plain_getElem? _ i d.1 d.2 hi
      obtain ⟨place, hplace, -⟩ := places_spec 0 (@shape_getElem? _ d.2 i d.1 hi)
      rw [← hdata]
      exact ih i e.1 e.2 place he hplace (hall e (List.mem_of_getElem? he))
    have hextent : ∀ l : Entries, (∀ d ∈ l, d.2.size = 0) → extent 0 (shape l) = 0 := by
      intro l hl
      induction l with
      | nil => rfl
      | cons d l ih =>
        obtain ⟨hd, hl⟩ := List.forall_mem_cons.mp hl
        change extent (alignUp 0 d.1 + d.2.size) (shape l) = 0
        rw [hd, alignUp_of_aligned (.inr (Nat.dvd_zero d.1))]
        exact ih hl
    have hfind : ∀ (needle : List U8) (l : Entries) (rolling : Nat), (∀ d ∈ l, d.2.find needle = notFound) →
        findFrom needle rolling l = notFound := by
      intro needle l
      induction l with
      | nil => exact fun _ _ => rfl
      | cons d l ih =>
        intro rolling hl
        obtain ⟨hd, hl⟩ := List.forall_mem_cons.mp hl
        rw [findFrom, if_neg (not_not.mpr hd)]
        exact ih _ hl
    refine ⟨?_, fun needle => hfind needle _ _ fun d hd => (hempty d hd).2 needle⟩
    exact (sizeFrom_eq fits).trans (hextent _ fun d hd => (hempty d hd).1)

/-- The first leaf is at the start, and below four gigabytes every search ends there. -/
theorem Fits.first (h : self.Fits base) {leaf : Leaf} {rest : List Leaf} (hleaves : self.leaves = leaf :: rest) :
    ∃ path, self.leafAt path = some leaf ∧
      (∀ l < leaf.size, placedAt (self.calculateLayout base).1 (base + l) = some (path, l)) ∧
      (leaf.size < notFound → ∀ needle, self.find needle = leaf.find needle) := by
  induction h generalizing rest with
  | @leaf data base room =>
    obtain rfl : data = leaf := (List.cons.inj hleaves).1
    refine ⟨[], rfl, fun l hl => ?_, fun _ _ => rfl⟩
    change placedAt (data.answers.calculateLayout base).1 (base + l) = _
    rw [(Leaf.placedAt_answers room).2, if_pos (by omega), Nat.add_sub_cancel_left]
  | @combining entries base fits parts ih =>
    have hlaid : LaidFrom (plain (answersOf entries)) base 0 := Fits.laidFrom (.combining fits parts)
    rcases leavesOf_cases entries with ⟨hnone, -⟩ | ⟨before, e, after, leaf', rest', rest'', rfl, hbefore, he, hfirst⟩
    · rw [leaves, hnone] at hleaves
      cases hleaves
    · obtain rfl : leaf' = leaf := by
        rw [leaves, hfirst] at hleaves
        exact (List.cons.inj hleaves).1
      have hentry := getElem?_middle before e after
      obtain ⟨a, hplain⟩ := exists_plain hentry
      have hempty : ∀ j < before.length, ∀ d, (plain (answersOf (before ++ e :: after)))[j]? = some d →
          d.2.size = 0 ∧ ∀ needle, d.2.find needle = notFound := by
        intro j hj d hd
        obtain ⟨e', he', hdata⟩ := @plain_getElem? _ j d.1 d.2 hd
        obtain ⟨place, hplace, -⟩ := places_spec 0 (@shape_getElem? _ d.2 j d.1 hd)
        rw [← hdata]
        have hmem : e' ∈ before := by
          rw [List.getElem?_append_left hj] at he'
          exact List.mem_of_getElem? he'
        exact (parts j e'.1 e'.2 place he' hplace).leafless (hbefore e' hmem)
      obtain ⟨hplace, hcounted⟩ := places_empty (shape_getElem? hplain) fun j hj p hp => by
        rw [shape, List.getElem?_map, Option.map_eq_some_iff] at hp
        obtain ⟨d, hd, rfl⟩ := hp
        exact (hempty j hj d hd).1
      obtain ⟨path, hleaf, hplaced, hfind⟩ := ih before.length e.1 e.2 0 hentry hplace he
      rw [Nat.add_zero] at hplaced
      refine ⟨before.length :: path, by rw [leafAt, hentry]; exact hleaf, fun l hl => ?_, fun hsmall needle => ?_⟩
      · have hinside : l < e.2.answers.size := by
          by_contra hout
          have hnone := (parts before.length e.1 e.2 0 hentry hplace).laid.outside (base + l) (.inr (by omega))
          rw [Nat.add_zero, show placedAt (e.2.answers.calculateLayout base).1 (base + l) = _ from hplaced l hl] at hnone
          cases hnone
        have hat := placedAt_part 0 hlaid hplain hplace (Nat.zero_le l) (by omega)
        rw [Nat.zero_add, Nat.add_zero, show placedAt (e.2.answers.calculateLayout base).1 (base + l) = _ from
          hplaced l hl] at hat
        exact hat
      · have hdata : e.2.answers.find needle = leaf'.find needle := hfind hsmall needle
        have hlt := Leaf.find_lt hsmall needle
        have hnotFound : notFound < 2 ^ 64 := by decide
        obtain ⟨q, hq, hrolling⟩ := @findFrom_spec _ e.2.answers base 0 0 _ a needle fits hplain
          (fun j hj d hd => (hempty j hj d hd).2 needle) (by omega)
        obtain rfl : 0 = q := Option.some_inj.mp (hcounted.symm.trans hq)
        rw [find_combining, hrolling, hdata, Nat.zero_add, Nat.mod_eq_of_lt (by omega)]

/-- The layout has the needle at the offset from the base. -/
def HasAt (self : Part) (base : Nat) (needle : List U8) (o : Nat) : Prop :=
  ∃ path data l, self.leafAt path = some data ∧ data.Has needle l ∧
    placedAt (self.calculateLayout base).1 (base + o) = some (path, l)

/-- A needle is found where it is laid out if the first leaf has it, and otherwise only by coincidence. -/
theorem Fits.hasAt_find_iff (h : self.Fits base) {leaf : Leaf} {rest : List Leaf} (hleaves : self.leaves = leaf :: rest)
    (hsize : leaf.size < notFound) (needle : List U8) : self.HasAt base needle (self.find needle) ↔
      (∃ l, leaf.Has needle l) ∨ self.HasAt base needle leaf.miss := by
  obtain ⟨path, hleaf, hplaced, hfind⟩ := h.first hleaves
  rw [hfind hsize]
  rcases leaf.find_spec needle with hhas | ⟨hmiss, hnone⟩
  · exact iff_of_true ⟨path, leaf, _, hleaf, hhas, hplaced _ (Leaf.has_lt hhas)⟩ (.inl ⟨_, hhas⟩)
  · rw [hmiss]
    constructor
    · exact .inr
    · rintro (⟨l, hl⟩ | hat)
      · exact absurd hl (hnone l)
      · exact hat

end Part

/-! ## Bytes of the layout -/

/-- Pieces one after another, with their bytes. -/
def patches : Nat → List (List U8) → List (Patch U8) × Nat
  | dst, [] => ([], dst)
  | dst, piece :: pieces =>
    ((dst, piece) :: (patches (addSize dst piece.length) pieces).1, (patches (addSize dst piece.length) pieces).2)

/-- What is written for a piece, where `content` gives the bytes of the leaves. -/
def toPatch (content : List Nat → List U8) (p : Piece) : Patch U8 :=
  (p.dst, ((content p.path).drop p.offset).take p.length)

/-- The items of a layout with their bytes, and where it ends. -/
def filled (content : List Nat → List U8) (layout : List Piece × Nat) : List (Patch U8) × Nat :=
  (layout.1.map (toPatch content), layout.2)

namespace Leaf

def toStorage : Leaf → AStorage
  | .block bytes => .block bytes
  | .paged pages => .paged pages
  | .mapped bytes => .mapped bytes
  | .null => .null

theorem layoutPages_patches (dst : Nat) (pages : List (List U8)) :
    AStorage.layoutPages dst pages = patches dst (pages.filter (!·.isEmpty)) := by
  induction pages generalizing dst with
  | nil => rfl
  | cons page pages ih =>
    rw [AStorage.layoutPages]
    split
    · next hempty => rw [ih, List.filter_cons_of_neg (by rw [hempty]; decide)]
    · next hempty =>
      rw [List.filter_cons_of_pos (by rw [Bool.not_eq_true] at hempty; rw [hempty]; rfl), ih]
      rfl

theorem calculateLayout_toStorage (data : Leaf) (dst : Nat) :
    data.toStorage.calculateLayout dst = patches dst data.pieces := by
  cases data with
  | block bytes =>
    change (if bytes.isEmpty then ([], dst) else ([(dst, bytes)], addSize dst bytes.length)) =
      patches dst (if bytes.isEmpty then [] else [bytes])
    split <;> rfl
  | paged pages =>
    change (if (pages.map List.length).sum = 0 then ([], dst) else AStorage.layoutPages dst pages) = _
    split
    · next hzero =>
      have hnone : pages.filter (!·.isEmpty) = [] := by
        rw [← List.length_flatten, List.length_eq_zero_iff, List.flatten_eq_nil_iff] at hzero
        rw [List.filter_eq_nil_iff]
        intro page hmem
        rw [hzero page hmem]
        decide
      exact (congrArg (patches dst) hnone).symm
    · exact layoutPages_patches dst pages
  | mapped bytes => rfl
  | null => rfl

theorem layoutPieces_patches (content : List Nat → List U8) (dst offset : Nat) (pieces : List (List U8))
    (h : pieces.flatten <+: (content []).drop offset) :
    filled content (layoutPieces dst offset pieces) = patches dst pieces := by
  induction pieces generalizing dst offset with
  | nil => rfl
  | cons piece pieces ih =>
    obtain ⟨rest, hrest⟩ := h
    rw [List.flatten_cons, List.append_assoc] at hrest
    have htail : pieces.flatten <+: (content []).drop (offset + piece.length) := by
      rw [← List.drop_drop, ← hrest, List.drop_left]
      exact List.prefix_append _ _
    have hpiece : toPatch content ⟨dst, [], offset, piece.length⟩ = (dst, piece) := by
      rw [toPatch, ← hrest, List.take_left]
    rw [patches, ← ih (addSize dst piece.length) (offset + piece.length) htail]
    exact congrArg (fun p => (p :: _, _)) hpiece

end Leaf

namespace Part

mutual

def toStorage : Part → AStorage
  | .leaf data => data.toStorage
  | .combining entries => .combining (toStorages entries)

def toStorages : List (Nat × Part) → List (Nat × AStorage)
  | [] => []
  | (align, data) :: entries => (align, toStorage data) :: toStorages entries

end

/-- The bytes of the leaf that a path leads to. -/
def content (self : Part) (path : List Nat) : List U8 := ((self.leafAt path).map Leaf.bytes).getD []

/-- A property of storages goes from the parts to their combination. -/
theorem inner_induction {P : Part → Prop} (leaf : ∀ data, P (.leaf data))
    (combining : ∀ entries, (∀ e ∈ entries, P e.2) → P (.combining entries)) : ∀ self, P self
  | .leaf data => leaf data
  | .combining entries => combining entries fun e _ => inner_induction leaf combining e.2
termination_by self => sizeOf self
decreasing_by
  rename_i he
  have hlt := List.sizeOf_lt_of_mem he
  obtain ⟨align, data⟩ := e
  simp only [Prod.mk.sizeOf_spec, Part.combining.sizeOf_spec] at hlt ⊢
  omega

theorem layoutFrom_patches (content : List Nat → List U8) (entries : List (Nat × Part)) (part dst : Nat)
    (h : ∀ i e, entries[i]? = some e → ∀ dst, filled (fun path => content ((part + i) :: path)) (e.2.calculateLayout dst) =
      e.2.toStorage.calculateLayout dst) :
    filled content (CombiningStorage.layoutFrom part dst (answersOf entries)) =
      AStorage.layoutEntries dst (toStorages entries) := by
  induction entries generalizing part dst with
  | nil => rfl
  | cons e entries ih =>
    obtain ⟨align, data⟩ := e
    have hhead := h 0 (align, data) rfl (alignUpMask dst align)
    have hrest := ih (part + 1) (data.calculateLayout (alignUpMask dst align)).2 fun i e he => by
      rw [Nat.add_right_comm]
      exact h (i + 1) e he
    rw [toStorages, AStorage.layoutEntries, ← show _ = data.toStorage.calculateLayout _ from hhead]
    change (List.map (toPatch content) (_ ++ _), _) = (_ ++ _, _)
    rw [List.map_append, List.map_map]
    have hitems := congrArg Prod.fst hrest
    have hnext := congrArg Prod.snd hrest
    exact Prod.ext (congrArg (List.map _ (data.calculateLayout (alignUpMask dst align)).1 ++ ·) hitems) hnext

/-- With the bytes of its pieces, the layout is that of the section data. -/
theorem calculateLayout_patches (self : Part) (dst : Nat) :
    filled self.content (self.calculateLayout dst) = self.toStorage.calculateLayout dst := by
  induction self using inner_induction generalizing dst with
  | leaf data =>
    have hprefix : data.pieces.flatten <+: ((Part.leaf data).content []).drop 0 := by
      rw [Leaf.flatten_pieces]
      exact List.prefix_rfl
    exact (Leaf.layoutPieces_patches _ dst 0 data.pieces hprefix).trans (Leaf.calculateLayout_toStorage data dst).symm
  | combining entries ih =>
    have hparts : ∀ entries' : List (Nat × Part),
        (∀ (i : Nat) (e' : Nat × Part), entries'[i]? = some e' → ∃ e : Nat × Part, entries[i]? = some e ∧ e.2 = e'.2) →
        filled (Part.combining entries).content (CombiningStorage.layoutFrom 0 dst (answersOf entries')) =
          AStorage.layoutEntries dst (toStorages entries') := by
      intro entries' hsame
      refine layoutFrom_patches _ entries' 0 dst fun i e' he' dst' => ?_
      obtain ⟨e, he, heq⟩ := hsame i e' he'
      rw [← heq, ← ih e (List.mem_of_getElem? he) dst', Nat.zero_add]
      have hcontent : (fun path => (Part.combining entries).content (i :: path)) = e.2.content := by
        funext path
        rw [content, leafAt, he]
        rfl
      rw [hcontent]
    cases entries with
    | nil => rfl
    | cons e rest =>
      obtain ⟨align, data⟩ := e
      refine hparts ((0, data) :: rest) fun i e' he' => ?_
      cases i with
      | zero =>
        have he' : (0, data) = e' := Option.some_inj.mp he'
        exact ⟨(align, data), rfl, by rw [← he']⟩
      | succ i => exact ⟨e', he', rfl⟩

/-! ## Both -/

/-- Offsets agree with the layout just where rounding sizes and rounding starts do, at every depth; and a needle is found
just where the first leaf has it, unless the offset of a miss is right by coincidence. -/
theorem agrees_iff (entries : List (Nat × Part)) (base : Nat) (h : (combining entries).Fits base) :
    ((combining entries).Agrees base ↔ (combining entries).Steady) ∧
      ∀ leaf rest needle, (combining entries).leaves = leaf :: rest → leaf.size < CombiningStorage.notFound →
        ((combining entries).HasAt base needle ((combining entries).find needle) ↔
          (∃ l, leaf.Has needle l) ∨ (combining entries).HasAt base needle leaf.miss) :=
  ⟨⟨fun hagrees => h.refers_iff.mp hagrees.get, agrees_of_steady h⟩,
    fun _ _ needle hleaves hsize => h.hasAt_find_iff hleaves hsize needle⟩

/-- Four bytes, and behind them a combination of four more and of another one. -/
def nested : List (Nat × Part) :=
  [(1, .leaf (.block [1, 2, 3, 4])),
    (4, .combining [(1, .leaf (.paged [[5, 6], [7, 0]])), (2, .combining [(2, .leaf (.mapped [8, 9]))])])]

theorem nested_fits : (combining nested).Fits 0 := by
  have hinner : (combining [(2, .leaf (.mapped [8, 9]))]).Fits 8 := by
    refine .combining ⟨?_, ?_, by decide⟩ ?_
    · exact List.forall_mem_singleton.mpr (.inl (by decide))
    · exact List.forall_mem_singleton.mpr (.inl (by decide))
    · rintro (_ | i) align data place hi hp
      · cases hi
        cases hp
        exact .leaf (by decide)
      · cases hi
  have hmiddle : (combining [(1, .leaf (.paged [[5, 6], [7, 0]])), (2, .combining [(2, .leaf (.mapped [8, 9]))])]).Fits 4 := by
    refine .combining ⟨?_, ?_, by decide⟩ ?_
    · exact List.forall_mem_cons.mpr ⟨.inl (by decide), List.forall_mem_singleton.mpr (.inr ⟨1, by decide, rfl⟩)⟩
    · exact List.forall_mem_cons.mpr ⟨.inl (by decide), List.forall_mem_singleton.mpr (.inr (by decide))⟩
    · rintro (_ | _ | i) align data place hi hp
      · cases hi
        cases hp
        exact .leaf (by decide)
      · cases hi
        cases hp
        exact hinner
      · cases hi
  refine .combining ⟨?_, ?_, by decide⟩ ?_
  · exact List.forall_mem_cons.mpr ⟨.inl (by decide), List.forall_mem_singleton.mpr (.inr ⟨2, by decide, rfl⟩)⟩
  · exact List.forall_mem_cons.mpr ⟨.inl (by decide), List.forall_mem_singleton.mpr (.inr (by decide))⟩
  · rintro (_ | _ | i) align data place hi hp
    · cases hi
      cases hp
      exact .leaf (by decide)
    · cases hi
      cases hp
      exact hmiddle
    · cases hi

theorem nested_steady : (combining nested).Steady := by
  have hinner : (combining [(2, .leaf (.mapped [8, 9]))]).Steady := by
    refine .combining ?_ (List.forall_mem_singleton.mpr (.leaf _))
    rintro (_ | i) size a hi hpos
    · rfl
    · cases hi
  have hmiddle : (combining [(1, .leaf (.paged [[5, 6], [7, 0]])), (2, .combining [(2, .leaf (.mapped [8, 9]))])]).Steady := by
    refine .combining ?_ (List.forall_mem_cons.mpr ⟨.leaf _, List.forall_mem_singleton.mpr hinner⟩)
    rintro (_ | _ | i) size a hi hpos
    · rfl
    · rfl
    · cases hi
  refine .combining ?_ (List.forall_mem_cons.mpr ⟨.leaf _, List.forall_mem_singleton.mpr hmiddle⟩)
  rintro (_ | _ | i) size a hi hpos
  · rfl
  · rfl
  · cases hi

/-- Every byte of `nested` is found at its place, and `[3, 4]` in the first leaf. -/
theorem agrees_iff_nested :
    (combining nested).Agrees 0 ∧ (combining nested).HasAt 0 [3, 4] ((combining nested).find [3, 4]) :=
  have h := agrees_iff nested 0 nested_fits
  have hhas : (Leaf.block [1, 2, 3, 4]).Has [3, 4] 2 := ⟨[], [1, 2, 3, 4], [], 2, rfl, rfl, by decide, by decide⟩
  ⟨h.1.mpr nested_steady, (h.2 (.block [1, 2, 3, 4]) _ [3, 4] rfl (by decide)).mpr (.inl ⟨2, hhas⟩)⟩

/-- Three bytes, and in a combination four more at the next multiple of four. -/
def mixed : List (Nat × Part) :=
  [(1, .combining [(1, .leaf (.block [1, 2, 3])), (4, .leaf (.block [4, 5, 6, 7]))])]

theorem mixed_fits : (combining mixed).Fits 0 := by
  have hinner : (combining [(1, .leaf (.block [1, 2, 3])), (4, .leaf (.block [4, 5, 6, 7]))]).Fits 0 := by
    refine .combining ⟨?_, ?_, by decide⟩ ?_
    · exact List.forall_mem_cons.mpr ⟨.inl (by decide), List.forall_mem_singleton.mpr (.inr ⟨2, by decide, rfl⟩)⟩
    · exact List.forall_mem_cons.mpr ⟨.inl (by decide), List.forall_mem_singleton.mpr (.inr (by decide))⟩
    · rintro (_ | _ | i) align data place hi hp
      · cases hi
        cases hp
        exact .leaf (by decide)
      · cases hi
        cases hp
        exact .leaf (by decide)
      · cases hi
  refine .combining ⟨?_, ?_, by decide⟩ ?_
  · exact List.forall_mem_singleton.mpr (.inl (by decide))
  · exact List.forall_mem_singleton.mpr (.inl (by decide))
  · rintro (_ | i) align data place hi hp
    · cases hi
      cases hp
      exact hinner
    · cases hi

/-- The first byte of the second leaf is laid out at 4, where its second byte is read. -/
theorem mixed_not_agrees : (combining mixed).Fits 0 ∧ ¬ (combining mixed).Agrees 0 :=
  ⟨mixed_fits, fun h => absurd (h.get 4 (by decide)) (by decide)⟩

end Part

end Pepp.Elf

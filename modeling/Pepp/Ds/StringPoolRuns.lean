import Pepp.Ds.StringPool

/-!
# Sequences of insertions

The searches of an insertion look for the string without its terminator. A
string that needs one is therefore kept properly only the first time, and only
if it is part of nothing that is stored; and a page made for it has no room for
the terminator when the string alone fills it.
-/

namespace Pepp.Bts

open Span PagedAllocator

namespace StringPool

variable {self self' : StringPool} {id : PooledString} {str s : List U8} {terminator : AddNullTerminator}

/-- There is room for the string and its terminator: on a page that exists, or on a new one that a handle can
name and that the two of them fit. -/
def Room (self : StringPool) (str : List U8) (terminator : AddNullTerminator) : Prop :=
  (stored str terminator).length < MAX_PAGE_SIZE ∧
    (self.allocator.Fits str.length (padding str terminator) ∨
      (self.allocator.pages.length < INVALID_PAGE.toNat ∧
        (stored str terminator).length ≤ nearestPowerOfTwo (max DEFAULT_PAGE_SIZE str.length)))

/-- A string that gets a terminator is part of no stored one, and what is part of no stored one finds room. -/
def Placeable (self : StringPool) (str : List U8) (terminator : AddNullTerminator) : Prop :=
  (needsNullTerminator str terminator → ∀ id ∈ self.identifiers, ¬ self.Contains id str) ∧
    ((∀ id ∈ self.identifiers, ¬ self.Contains id str) → self.Room str terminator)

theorem length_stored : (stored str terminator).length = str.length + padding str terminator := by
  simp [stored]

theorem infix_stored : str <:+: stored str terminator := (List.prefix_append _ _).isInfix

theorem stored_eq : stored str terminator = str ↔ needsNullTerminator str terminator = false := by
  unfold stored padding
  cases needsNullTerminator str terminator <;> simp

/-- The allocator finds room when there is some. -/
theorem allocator_insert (h : self.Inv) (hc : ∀ id ∈ self.identifiers, ¬ self.Contains id str)
    (hr : self.Room str terminator) :
    ∃ r allocator, self.allocator.insert str (padding str terminator) 0 = (.ok r, allocator) ∧
      self.allocator.Grows allocator ∧ allocator.Sized ∧ allocator.pages.length ≤ INVALID_PAGE.toNat ∧
      allocator.Holds r.index r.offset (stored str terminator) ∧ r.offset < 2 ^ 16 := by
  obtain ⟨hlen, hroom⟩ := hr
  rw [length_stored] at hlen
  by_cases hf : self.allocator.Fits str.length (padding str terminator)
  · obtain ⟨r, allocator, hi, hg, hs, hp, hh⟩ := @insert_fits self.allocator str (padding str terminator) 0 h.sized hf
    refine ⟨r, allocator, hi, hg, hs, hp ▸ h.pages, hh, ?_⟩
    obtain ⟨page, hpage, hused, -⟩ := hh
    have hsz := hs page (List.mem_of_getElem? hpage)
    have hmax := hsz.1.trans hsz.2
    unfold MAX_PAGE_SIZE at hmax
    rw [List.length_append] at hused
    by_cases h0 : str.length = 0
    · obtain rfl := List.eq_nil_of_length_eq_zero h0
      obtain ⟨page, hp, -⟩ := hf
      have hids : self.identifiers = [] := List.eq_nil_iff_forall_not_mem.mpr fun id hi => by
        obtain ⟨s, hs⟩ := exists_find h.toWellFormed hi
        exact hc id hi ⟨s, hs, List.nil_infix⟩
      rw [h.occupied hids] at hp
      exact absurd hp List.not_mem_nil
    · omega
  · obtain ⟨hpages, hfit⟩ := hroom.resolve_left hf
    rw [length_stored] at hfit
    obtain ⟨r, allocator, hi, hg, hs, hp, -, ho, hh⟩ := @insert_new self.allocator str (padding str terminator) 0 h.sized hf (by omega) hfit
    exact ⟨r, allocator, hi, hg, hs, by omega, hh, by omega⟩

theorem allocate_ok (h : self.Inv) (hc : ∀ id ∈ self.identifiers, ¬ self.Contains id str)
    (hr : self.Room str terminator) :
    ∃ id self', self.allocate str terminator = (.ok id, self') ∧ Inserted self self' id (stored str terminator) := by
  obtain ⟨r, allocator, hi, hg, hs, hp, ⟨page, hpage, hused, hslice⟩, ho⟩ := allocator_insert h hc hr
  have hlen := hr.1
  rw [length_stored] at hlen hused hslice
  unfold MAX_PAGE_SIZE at hlen
  obtain ⟨hlt, -⟩ := List.getElem?_eq_some_iff.mp hpage
  have hidx : (BitVec.ofNat 16 r.index).toNat = r.index := Nat.mod_eq_of_lt (by
    have : INVALID_PAGE.toNat = 65535 := rfl
    omega)
  have hoff : (BitVec.ofNat 16 r.offset).toNat = r.offset := Nat.mod_eq_of_lt ho
  have hl : (BitVec.ofNat 16 (str.length + padding str terminator)).toNat = str.length + padding str terminator :=
    Nat.mod_eq_of_lt hlen
  generalize hid : PooledString.mk (BitVec.ofNat 16 r.index) (BitVec.ofNat 16 r.offset)
    (BitVec.ofNat 16 (str.length + padding str terminator)) = id
  have hfind : ∀ other ∈ self.identifiers, StringPool.find ⟨allocator, self.identifiers⟩ other = self.find other :=
    fun other ho => @find_grow self ⟨allocator, self.identifiers⟩ other h.toWellFormed (h.inUse other ho) hg
  have hwf : WellFormed ⟨allocator, self.identifiers⟩ := by
    refine ⟨hs, hp, fun other ho => (h.inUse other ho).grow hg, h.sorted.imp_of_mem fun ha hb hlt => ?_⟩
    unfold key at hlt ⊢
    rwa [hfind _ ha, hfind _ hb]
  have hu : InUse ⟨allocator, self.identifiers⟩ id := by
    subst hid
    exact ⟨page, by rw [hidx]; exact hpage, by rw [hoff, hl]; exact hused⟩
  have hf : StringPool.find ⟨allocator, self.identifiers⟩ id = some (stored str terminator) := by
    have hsz := hs page (List.mem_of_getElem? hpage)
    subst hid
    rw [find_of_page (hu.valid hp) (by rw [hidx]; exact hpage) (by rw [hoff, hl]; exact hused.trans hsz.1), hoff, hl, hslice]
  obtain ⟨identifiers, ha, hmem, hwf'⟩ := addIdentifier_new hwf hu hf fun other ho he => by
    rw [hfind other ho] at he
    exact hc other ho ⟨_, he, infix_stored⟩
  refine ⟨id, ⟨allocator, identifiers⟩, ?_, ⟨hwf', fun he => ?_⟩, hg, (hmem _).mpr (.inl rfl),
    fun o ho => (hmem o).mpr (.inr ho), hf⟩
  · rw [allocate_eq, if_neg (by unfold MAX_PAGE_SIZE; omega), hi]
    dsimp only
    rw [← ha, ← hid]
  · have := (hmem id).mpr (.inl rfl)
    rw [show identifiers = [] from he] at this
    exact absurd this List.not_mem_nil

/-- A handle to a page that handles cannot number makes the comparison throw. -/
theorem addIdentifier_bad (hf : self.find id = none) (hn : self.identifiers ≠ []) :
    ∃ e self', self.addIdentifier id = (.error e, self') := by
  unfold addIdentifier
  obtain ⟨other, ids, he⟩ := List.exists_cons_of_ne_nil hn
  have hop : self.operand id "lhs" = .error (.invalidArgument ("PooledString::Less given bad " ++ "lhs")) := by
    unfold operand
    rw [hf]
  rw [he]
  unfold emplace less
  rw [hop]
  exact ⟨_, _, rfl⟩

theorem allocate_error (h : self.Inv) (hl : str.length < MAX_PAGE_SIZE) (hr : ¬ self.Room str terminator) :
    ∃ e self', self.allocate str terminator = (.error e, self') := by
  rw [allocate_eq]
  by_cases hlen : MAX_PAGE_SIZE ≤ str.length + padding str terminator
  · rw [if_pos hlen]
    exact ⟨_, _, rfl⟩
  · rw [if_neg hlen]
    unfold Room at hr
    rw [length_stored] at hr
    have hf : ¬ self.allocator.Fits str.length (padding str terminator) := fun hf => hr ⟨by omega, .inl hf⟩
    by_cases hfit : str.length + padding str terminator ≤ nearestPowerOfTwo (max DEFAULT_PAGE_SIZE str.length)
    · have hpages : ¬ self.allocator.pages.length < INVALID_PAGE.toNat := fun hp => hr ⟨by omega, .inr ⟨hp, hfit⟩⟩
      have hmax := h.pages
      obtain ⟨r, allocator, hi, -, -, -, hidx, -⟩ :=
        @insert_new self.allocator str (padding str terminator) 0 h.sized hf (by omega) hfit
      have hpage : BitVec.ofNat 16 r.index = INVALID_PAGE := by
        rw [show r.index = INVALID_PAGE.toNat by omega]
        rfl
      rw [hi]
      refine addIdentifier_bad ?_ fun he => ?_
      · unfold StringPool.find
        exact if_pos (not_not.mpr hpage)
      · rw [h.occupied he] at hpages
        exact hpages (by decide)
    · obtain ⟨allocator, hi⟩ :=
        @insert_overflow self.allocator str (padding str terminator) 0 hf (by omega) (by omega)
      rw [hi]
      exact ⟨_, _, rfl⟩

theorem insert_placeable (h : self.Inv) (hp : self.Placeable str terminator) :
    ∃ id self', self.insert str terminator = (.ok id, self') ∧ Inserted self self' id (stored str terminator) := by
  by_cases hc : ∃ id ∈ self.identifiers, self.Contains id str
  · have hneed : needsNullTerminator str terminator = false := by
      obtain ⟨id, hi, hc⟩ := hc
      exact Bool.eq_false_iff.mpr fun hn => hp.1 hn id hi hc
    obtain ⟨id, self', hi, -, hins⟩ := @insert_contained self str terminator h hc
    rw [stored_eq.mpr hneed]
    exact ⟨id, self', hi, hins⟩
  · have hc : ∀ id ∈ self.identifiers, ¬ self.Contains id str := fun id hi hcon => hc ⟨id, hi, hcon⟩
    rw [insert_uncontained h.toWellFormed hc]
    exact allocate_ok h hc (hp.2 hc)

/-- An insertion keeps what it was given exactly when that can be placed. -/
theorem insert_iff (h : self.Inv) (hl : str.length < MAX_PAGE_SIZE) :
    (∃ id self', self.insert str terminator = (.ok id, self') ∧ self'.find id = some (stored str terminator)) ↔
      self.Placeable str terminator := by
  constructor
  · rintro ⟨id, self', hi, hf⟩
    by_cases hc : ∃ id ∈ self.identifiers, self.Contains id str
    · obtain ⟨id', self'', hi', -, hins⟩ := @insert_contained self str terminator h hc
      obtain ⟨hid, rfl⟩ := Prod.mk.inj (hi.symm.trans hi')
      obtain rfl := Except.ok.inj hid
      have hneed := stored_eq.mp (Option.some.inj (hf.symm.trans hins.found))
      refine ⟨fun hn => ?_, fun hn => ?_⟩
      · rw [hneed] at hn
        contradiction
      · obtain ⟨id, hi, hcon⟩ := hc
        exact absurd hcon (hn id hi)
    · have hc : ∀ id ∈ self.identifiers, ¬ self.Contains id str := fun id hi hcon => hc ⟨id, hi, hcon⟩
      refine ⟨fun _ => hc, fun _ => ?_⟩
      by_contra hr
      obtain ⟨e, self'', he⟩ := allocate_error h hl hr
      rw [insert_uncontained h.toWellFormed hc, he] at hi
      exact absurd (Prod.mk.inj hi).1 (by simp)
  · intro hp
    obtain ⟨id, self', hi, hins⟩ := insert_placeable h hp
    exact ⟨id, self', hi, hins.found⟩

end StringPool

/-- An insertion of a string shorter than a page can be. -/
structure Call where
  str : List U8
  terminator : AddNullTerminator
  short : str.length < MAX_PAGE_SIZE

namespace StringPool

/-- What `calls`, newest first, returned, and the pool after them. -/
def run : List Call → Except PoolError (List (Call × PooledString) × StringPool)
  | [] => .ok ([], empty)
  | c :: earlier =>
    match run earlier with
    | .error e => .error e
    | .ok (returned, pool) =>
      match pool.insert c.str c.terminator with
      | (.error e, _) => .error e
      | (.ok id, pool) => .ok ((c, id) :: returned, pool)

/-- Every insertion succeeds, every handle names what was inserted for it from then on, and a call made again
returns its handle and stores nothing. -/
def Sound : List Call → Prop
  | [] => True
  | c :: earlier => Sound earlier ∧ ∃ returned pool id pool', run earlier = .ok (returned, pool) ∧
      pool.insert c.str c.terminator = (.ok id, pool') ∧
      (∀ r ∈ (c, id) :: returned, pool'.find r.2 = some (stored r.1.str r.1.terminator)) ∧
      ∀ id', (c, id') ∈ returned → id = id' ∧ pool'.allocator = pool.allocator

/-- Every call can be placed in the pool it meets. -/
def AllPlaceable : List Call → Prop
  | [] => True
  | c :: earlier => AllPlaceable earlier ∧
      ∀ returned pool, run earlier = .ok (returned, pool) → pool.Placeable c.str c.terminator

variable {calls : List Call} {c : Call}

/-- What holds after calls that could all be placed. -/
theorem run_placeable (h : AllPlaceable calls) : ∃ returned pool, run calls = .ok (returned, pool) ∧ pool.Inv ∧
    ∀ r ∈ returned, r.2 ∈ pool.identifiers ∧ pool.find r.2 = some (stored r.1.str r.1.terminator) := by
  induction calls with
  | nil => exact ⟨[], empty, rfl, inv_empty, by simp⟩
  | cons c earlier ih =>
    obtain ⟨returned, pool, hrun, hinv, hret⟩ := ih h.1
    obtain ⟨id, pool', hi, hins⟩ := insert_placeable hinv (h.2 returned pool hrun)
    refine ⟨(c, id) :: returned, pool', by rw [run, hrun]; simp only [hi], hins.inv, fun r hr => ?_⟩
    rcases List.mem_cons.mp hr with rfl | hr
    · exact ⟨hins.mem, hins.found⟩
    · obtain ⟨hmem, hf⟩ := hret r hr
      exact ⟨hins.kept _ hmem, by rw [find_grow hinv.toWellFormed (hinv.inUse _ hmem) hins.grows, hf]⟩

theorem placeable_of_sound (h : Sound calls) : AllPlaceable calls := by
  induction calls with
  | nil => trivial
  | cons c earlier ih =>
    obtain ⟨hs, returned, pool, id, pool', hrun, hi, hret, -⟩ := h
    refine ⟨ih hs, fun returned₁ pool₁ hrun₁ => ?_⟩
    obtain ⟨returned₂, pool₂, hrun₂, hinv, -⟩ := run_placeable (ih hs)
    obtain ⟨rfl, rfl⟩ := Prod.mk.inj (Except.ok.inj (hrun.symm.trans hrun₁))
    obtain ⟨-, rfl⟩ := Prod.mk.inj (Except.ok.inj (hrun.symm.trans hrun₂))
    exact (insert_iff hinv c.short).mp ⟨id, pool', hi, hret _ List.mem_cons_self⟩

theorem sound_of_placeable (h : AllPlaceable calls) : Sound calls := by
  induction calls with
  | nil => trivial
  | cons c earlier ih =>
    obtain ⟨hc, hplace⟩ := h
    obtain ⟨returned, pool, hrun, hinv, hret⟩ := run_placeable hc
    obtain ⟨id, pool', hi, hins⟩ := insert_placeable hinv (hplace returned pool hrun)
    refine ⟨ih hc, returned, pool, id, pool', hrun, hi, fun r hr => ?_, fun id' hid' => ?_⟩
    · rcases List.mem_cons.mp hr with rfl | hr
      · exact hins.found
      · obtain ⟨hmem, hf⟩ := hret r hr
        rw [find_grow hinv.toWellFormed (hinv.inUse _ hmem) hins.grows, hf]
    · obtain ⟨hmem, hf⟩ := hret _ hid'
      have hneed : needsNullTerminator c.str c.terminator = false :=
        Bool.eq_false_iff.mpr fun hn => (hplace returned pool hrun).1 hn id' hmem ⟨_, hf, infix_stored⟩
      rw [stored_eq.mpr hneed] at hf
      rw [insert_existing hinv.toWellFormed hmem hf] at hi
      obtain ⟨hid, rfl⟩ := Prod.mk.inj hi
      exact ⟨(Except.ok.inj hid).symm, rfl⟩

/-- The pool is sound over a sequence of insertions exactly when all of them can be placed. -/
theorem sound_iff_placeable (calls : List Call) : Sound calls ↔ AllPlaceable calls :=
  ⟨placeable_of_sound, sound_of_placeable⟩

/-- A string that needs a terminator cannot be inserted twice. -/
theorem not_sound_twice (hn : needsNullTerminator c.str c.terminator) : ¬ Sound (c :: c :: calls) := by
  intro hs
  obtain ⟨⟨hc, hfirst⟩, hsecond⟩ := placeable_of_sound hs
  obtain ⟨returned, pool, hrun, hinv, -⟩ := run_placeable hc
  obtain ⟨id, pool', hi, hins⟩ := insert_placeable hinv (hfirst returned pool hrun)
  have hrun' : run (c :: calls) = .ok ((c, id) :: returned, pool') := by
    rw [run, hrun]
    simp only [hi]
  exact (hsecond _ _ hrun').1 hn id hins.mem ⟨_, hins.found, infix_stored⟩

/-- "a" with a terminator. -/
def a0 : Call := ⟨[97], .Always, by decide⟩

/-- The second insertion of a terminated string is answered without its terminator. -/
theorem a0_twice_not_sound : ¬ Sound [a0, a0] := not_sound_twice (by decide)

end StringPool

end Pepp.Bts

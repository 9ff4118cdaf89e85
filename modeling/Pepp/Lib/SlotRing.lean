import Mathlib.Data.Fintype.Card
import Mathlib.Data.List.Range
import Mathlib.Data.List.Basic

/-!
# Rings of numbered slots

A ring of `size` nodes holds a window of an unbounded sequence of slots, each
with room for `cap` entries. Slots are filled at the head and retired at the
tail. Claimants of a type `D` hold at most one open entry each.
-/

/-- A slot of the sequence and an entry in it. -/
structure SlotRing.Position where
  slot : Nat
  entry : Nat
  deriving DecidableEq, Repr

/-- `slot i` is the slot that occupies node `i`, `count i` how many entries of it are taken and `opens i`
how many of these are open. -/
@[ext]
structure SlotRing (D : Type) where
  size : Nat
  head : Nat
  tail : Nat
  slot : Nat → Option Nat
  count : Nat → Nat
  opens : Nat → Nat
  claims : D → Option SlotRing.Position

namespace SlotRing

variable {D : Type}

section Operations

variable (r : SlotRing D)

def node (s : Nat) : Nat := s % r.size

/-- Nothing held, nothing claimed. -/
def vacant (size : Nat) : SlotRing D := ⟨size, 0, 0, fun _ => none, fun _ => 0, fun _ => 0, fun _ => none⟩

def advance : SlotRing D := { r with head := r.head + 1 }

def claim [DecidableEq D] (d : D) : SlotRing D :=
  { r with
    slot := Function.update r.slot (r.node r.head) (some r.head)
    count := Function.update r.count (r.node r.head) (r.count (r.node r.head) + 1)
    opens := Function.update r.opens (r.node r.head) (r.opens (r.node r.head) + 1)
    claims := Function.update r.claims d (some ⟨r.head, r.count (r.node r.head)⟩) }

/-- Close the entry that `d` holds at `p`. -/
def close [DecidableEq D] (d : D) (p : Position) : SlotRing D :=
  { r with
    opens := Function.update r.opens (r.node p.slot) (r.opens (r.node p.slot) - 1)
    claims := Function.update r.claims d none }

def retire : SlotRing D :=
  { r with
    tail := r.tail + 1
    slot := Function.update r.slot (r.node r.tail) none
    count := Function.update r.count (r.node r.tail) 0 }

end Operations

variable [Fintype D]

/-- The claimants whose open entry is in slot `s`. -/
def holders (r : SlotRing D) (s : Nat) : Finset D := {d | (r.claims d).any fun p => p.slot = s}

theorem mem_holders {r : SlotRing D} {s : Nat} {d : D} : d ∈ r.holders s ↔ ∃ e, r.claims d = some ⟨s, e⟩ := by
  simp only [holders, Finset.mem_filter, Finset.mem_univ, true_and, Option.any_eq_true, decide_eq_true_eq]
  constructor
  · rintro ⟨⟨s', e⟩, hp, rfl⟩
    exact ⟨e, hp⟩
  · rintro ⟨e, hp⟩
    exact ⟨_, hp, rfl⟩

/-- What every operation keeps. -/
structure Sound (cap : Nat) (r : SlotRing D) : Prop where
  size_pos : 0 < r.size
  tail_le : r.tail ≤ r.head
  head_le : r.head ≤ r.tail + r.size
  stamp : ∀ i s, r.slot i = some s → r.node s = i ∧ r.tail ≤ s ∧ s ≤ r.head
  full : ∀ s, r.tail ≤ s → s < r.head → r.slot (r.node s) = some s ∧ r.count (r.node s) = cap
  free : ∀ i, r.slot i = none → r.count i = 0 ∧ r.opens i = 0
  count_le : ∀ i, r.count i ≤ cap
  opens_eq : ∀ i s, r.slot i = some s → r.opens i = (r.holders s).card
  claimed : ∀ d p, r.claims d = some p → r.slot (r.node p.slot) = some p.slot ∧ p.entry < r.count (r.node p.slot)
  claims_inj : ∀ d d' p, r.claims d = some p → r.claims d' = some p → d = d'

theorem vacant_sound {size cap : Nat} (h : 0 < size) : Sound cap (vacant size : SlotRing D) := by
  constructor <;> simp [vacant, h]

namespace Sound

variable {cap : Nat} {r : SlotRing D}

/-- A node at the head that is taken by another slot holds the tail of a ring with no room left. -/
theorem stale (h : Sound cap r) {s : Nat} (hs : r.slot (r.node r.head) = some s) (hne : s ≠ r.head) :
    s = r.tail ∧ r.head = r.tail + r.size := by
  obtain ⟨hmod, hle, hlt⟩ := h.stamp _ s hs
  have hhead := h.head_le
  have hpos := h.size_pos
  have hdvd : r.size ∣ r.head - s := Nat.dvd_of_mod_eq_zero (Nat.sub_mod_eq_zero_of_mod_eq hmod.symm)
  obtain ⟨k, hk⟩ := hdvd
  rcases k with _ | k
  · omega
  · have : r.size * (k + 1) = r.size * k + r.size := Nat.mul_succ _ _
    omega

/-- With no room left the node at the head holds the tail, full. -/
theorem lapped (h : Sound cap r) (hr : r.head = r.tail + r.size) :
    r.slot (r.node r.head) = some r.tail ∧ r.count (r.node r.head) = cap := by
  have hpos := h.size_pos
  have hf := h.full r.tail (Nat.le_refl _) (by omega)
  have hn : r.node r.head = r.node r.tail := by simp [node, hr]
  rwa [hn]

/-- The slot at the head is resident only in a ring with room. -/
theorem room_of_resident (h : Sound cap r) (hs : r.slot (r.node r.head) = some r.head) : r.head < r.tail + r.size := by
  have hpos := h.size_pos
  refine Nat.lt_of_le_of_ne h.head_le fun hr => ?_
  have := (h.lapped hr).1
  rw [hs, Option.some.injEq] at this
  omega

omit [Fintype D] in
theorem node_inj {s s' : Nat} (hs : r.slot (r.node s) = some s) (hs' : r.slot (r.node s') = some s')
    (hn : r.node s = r.node s') : s = s' := by
  rw [hn, hs'] at hs
  exact (Option.some.inj hs).symm

theorem advance (h : Sound cap r) (hs : r.slot (r.node r.head) = some r.head)
    (hc : cap ≤ r.count (r.node r.head)) : Sound cap r.advance where
  size_pos := h.size_pos
  tail_le := Nat.le_succ_of_le h.tail_le
  head_le := h.room_of_resident hs
  stamp i s hi := by
    obtain ⟨hm, hl, hu⟩ := h.stamp i s hi
    exact ⟨hm, hl, Nat.le_succ_of_le hu⟩
  full s hl hu := by
    rcases Nat.lt_succ_iff_lt_or_eq.mp hu with hu | rfl
    · exact h.full s hl hu
    · exact ⟨hs, Nat.le_antisymm (h.count_le _) hc⟩
  free := h.free
  count_le := h.count_le
  opens_eq := h.opens_eq
  claimed := h.claimed
  claims_inj := h.claims_inj

variable {d : D}

theorem opens_pos (h : Sound cap r) {p : Position} (hd : r.claims d = some p) : 0 < r.opens (r.node p.slot) := by
  rw [h.opens_eq _ _ (h.claimed d p hd).1, Finset.card_pos]
  exact ⟨d, mem_holders.mpr ⟨p.entry, hd⟩⟩

theorem retire (h : Sound cap r) (hlt : r.tail < r.head) (ho : r.opens (r.node r.tail) = 0) : Sound cap r.retire := by
  have hst := (h.full r.tail (Nat.le_refl _) hlt).1
  have hnone : ∀ d p, r.claims d = some p → p.slot ≠ r.tail := by
    rintro d p hp he
    have := h.opens_pos hp
    rw [he] at this
    omega
  have hkept : ∀ {i s}, Function.update r.slot (r.node r.tail) none i = some s → i ≠ r.node r.tail ∧ r.slot i = some s := by
    intro i s hi
    by_cases he : i = r.node r.tail
    · simp [he] at hi
    · exact ⟨he, by simpa [he] using hi⟩
  have hne : ∀ {i s}, r.slot i = some s → i ≠ r.node r.tail → s ≠ r.tail := by
    rintro i s hi he rfl
    exact he (h.stamp i _ hi).1.symm
  have hnode : ∀ {s}, r.slot (r.node s) = some s → s ≠ r.tail → r.node s ≠ r.node r.tail := by
    intro s hs he hn
    exact he (node_inj hs hst hn)
  refine ⟨h.size_pos, hlt, ?_, fun i s hi => ?_, fun s hl hu => ?_, fun i hi => ?_, fun i => ?_, fun i s hi => ?_,
    fun d p hp => ?_, h.claims_inj⟩
  · have := h.head_le
    simp only [SlotRing.retire]
    omega
  · obtain ⟨he, hi⟩ := hkept hi
    obtain ⟨hm, hl, hu⟩ := h.stamp i s hi
    exact ⟨hm, Nat.lt_of_le_of_ne hl (hne hi he).symm, hu⟩
  · have hl' : r.tail < s := hl
    have hf := h.full s (Nat.le_of_lt hl') hu
    have he := hnode hf.1 (Nat.ne_of_gt hl')
    change Function.update r.slot _ _ (r.node s) = _ ∧ Function.update r.count _ _ (r.node s) = _
    rwa [Function.update_of_ne he, Function.update_of_ne he]
  · by_cases he : i = r.node r.tail
    · subst he
      simp [SlotRing.retire, ho]
    · have hi' : r.slot i = none := by simpa [SlotRing.retire, he] using hi
      simpa [SlotRing.retire, he] using h.free i hi'
  · by_cases he : i = r.node r.tail <;> simp [SlotRing.retire, he, h.count_le]
  · exact h.opens_eq i s (hkept hi).2
  · obtain ⟨hs, hc⟩ := h.claimed d p hp
    have he := hnode hs (hnone d p hp)
    change Function.update r.slot _ _ (r.node p.slot) = _ ∧ _ < Function.update r.count _ _ (r.node p.slot)
    rw [Function.update_of_ne he, Function.update_of_ne he]
    exact ⟨hs, hc⟩

variable [DecidableEq D]

theorem claim (h : Sound cap r) (hcap : 0 < cap) (hd : r.claims d = none)
    (hs : r.slot (r.node r.head) = none ∨ r.slot (r.node r.head) = some r.head ∧ r.count (r.node r.head) < cap) :
    Sound cap (r.claim d) := by
  have hcount : r.count (r.node r.head) < cap := by
    rcases hs with hs | hs
    · rw [(h.free _ hs).1]
      exact hcap
    · exact hs.2
  have hother : ∀ s, s < r.head → r.slot (r.node s) = some s → r.node s ≠ r.node r.head := by
    intro s hlt hr hn
    rw [hn] at hr
    rcases hs with hs | ⟨hs, -⟩ <;> rw [hs] at hr
    · contradiction
    · exact Nat.ne_of_gt hlt (Option.some.inj hr)
  have hclaims : ∀ d' p, Function.update r.claims d (some ⟨r.head, r.count (r.node r.head)⟩) d' = some p →
      (d' = d ∧ p = ⟨r.head, r.count (r.node r.head)⟩) ∨ (d' ≠ d ∧ r.claims d' = some p) := by
    intro d' p hp
    by_cases he : d' = d
    · subst he
      rw [Function.update_self] at hp
      exact .inl ⟨rfl, (Option.some.inj hp).symm⟩
    · rw [Function.update_of_ne he] at hp
      exact .inr ⟨he, hp⟩
  refine ⟨h.size_pos, h.tail_le, h.head_le, fun i s hi => ?_, fun s hl hu => ?_, fun i hi => ?_, fun i => ?_,
    fun i s hi => ?_, fun d' p hp => ?_, fun d₁ d₂ p h₁ h₂ => ?_⟩
  · by_cases he : i = r.node r.head
    · subst he
      simp only [SlotRing.claim, Function.update_self, Option.some.injEq] at hi
      subst hi
      exact ⟨rfl, h.tail_le, Nat.le_refl _⟩
    · simp only [SlotRing.claim, Function.update_of_ne he] at hi
      exact h.stamp i s hi
  · have hf := h.full s hl hu
    have hne := hother s hu hf.1
    change Function.update r.slot (r.node r.head) (some r.head) (r.node s) = some s ∧
      Function.update r.count (r.node r.head) _ (r.node s) = cap
    rwa [Function.update_of_ne hne, Function.update_of_ne hne]
  · by_cases he : i = r.node r.head
    · subst he
      simp [SlotRing.claim] at hi
    · simp only [SlotRing.claim, Function.update_of_ne he] at hi ⊢
      exact h.free i hi
  · by_cases he : i = r.node r.head
    · subst he
      simpa [SlotRing.claim] using Nat.succ_le_of_lt hcount
    · simpa only [SlotRing.claim, Function.update_of_ne he] using h.count_le i
  · by_cases he : i = r.node r.head
    · subst he
      simp only [SlotRing.claim, Function.update_self, Option.some.injEq] at hi ⊢
      subst hi
      have hnew : (r.claim d).holders r.head = insert d (r.holders r.head) := by
        ext d'
        rw [mem_holders, Finset.mem_insert, mem_holders]
        by_cases he : d' = d
        · simp [SlotRing.claim, he]
        · simp [SlotRing.claim, he, Function.update_of_ne]
      have hnot : d ∉ r.holders r.head := by simp [mem_holders, hd]
      change _ = ((r.claim d).holders r.head).card
      rw [hnew, Finset.card_insert_of_notMem hnot, Nat.add_right_cancel_iff]
      rcases hs with hs | hs
      · have hempty : r.holders r.head = ∅ := by
          ext d'
          simp only [mem_holders, Finset.notMem_empty, iff_false, not_exists]
          intro e he
          have := (h.claimed d' _ he).1
          rw [hs] at this
          contradiction
        rw [hempty, (h.free _ hs).2, Finset.card_empty]
      · exact h.opens_eq _ _ hs.1
    · simp only [SlotRing.claim, Function.update_of_ne he] at hi ⊢
      have hne : s ≠ r.head := fun hs => he (hs ▸ (h.stamp i s hi).1.symm)
      rw [h.opens_eq i s hi]
      congr 1
      ext d'
      rw [mem_holders, mem_holders]
      by_cases he : d' = d
      · subst he
        simp [hd, Ne.symm hne]
      · simp [Function.update_of_ne he]
  · rcases hclaims d' p hp with ⟨rfl, rfl⟩ | ⟨-, hp⟩
    · change Function.update r.slot _ _ (r.node r.head) = _ ∧ _ < Function.update r.count _ _ (r.node r.head)
      rw [Function.update_self, Function.update_self]
      exact ⟨rfl, Nat.lt_succ_self _⟩
    · obtain ⟨hst, hlt⟩ := h.claimed d' p hp
      change Function.update r.slot _ _ (r.node p.slot) = _ ∧ _ < Function.update r.count _ _ (r.node p.slot)
      by_cases he : r.node p.slot = r.node r.head
      · rw [he] at hst hlt
        rcases hs with hs | ⟨hs, -⟩
        · rw [hs] at hst
          contradiction
        · rw [hs] at hst
          rw [he, Function.update_self, Function.update_self]
          exact ⟨hst, Nat.lt_succ_of_lt hlt⟩
      · rw [Function.update_of_ne he, Function.update_of_ne he]
        exact ⟨hst, hlt⟩
  · have hfresh : ∀ d', r.claims d' ≠ some ⟨r.head, r.count (r.node r.head)⟩ := by
      intro d' hp
      exact Nat.lt_irrefl _ (h.claimed d' _ hp).2
    rcases hclaims d₁ p h₁ with ⟨he₁, hp₁⟩ | ⟨-, hp₁⟩ <;> rcases hclaims d₂ p h₂ with ⟨he₂, hp₂⟩ | ⟨-, hp₂⟩
    · rw [he₁, he₂]
    · exact absurd (hp₁ ▸ hp₂) (hfresh d₂)
    · exact absurd (hp₂ ▸ hp₁) (hfresh d₁)
    · exact h.claims_inj d₁ d₂ p hp₁ hp₂

theorem close (h : Sound cap r) {p : Position} (hd : r.claims d = some p) : Sound cap (r.close d p) := by
  have hclaims : ∀ d' p', (r.close d p).claims d' = some p' → d' ≠ d ∧ r.claims d' = some p' := by
    intro d' p' hp
    by_cases he : d' = d
    · simp [SlotRing.close, he] at hp
    · exact ⟨he, by simpa [SlotRing.close, he] using hp⟩
  have hst := (h.claimed d p hd).1
  refine ⟨h.size_pos, h.tail_le, h.head_le, h.stamp, h.full, fun i hi => ?_, h.count_le, fun i s hi => ?_,
    fun d' p' hp => h.claimed d' p' (hclaims d' p' hp).2,
    fun d₁ d₂ p' h₁ h₂ => h.claims_inj d₁ d₂ p' (hclaims d₁ p' h₁).2 (hclaims d₂ p' h₂).2⟩
  · have he : i ≠ r.node p.slot := by
      rintro rfl
      have hi' : r.slot (r.node p.slot) = none := hi
      rw [hst] at hi'
      contradiction
    simpa [SlotRing.close, he] using h.free i hi
  · have hi' : r.slot i = some s := hi
    by_cases he : i = r.node p.slot
    · subst he
      rw [hst, Option.some.injEq] at hi'
      subst hi'
      have hnew : (r.close d p).holders p.slot = (r.holders p.slot).erase d := by
        ext d'
        rw [mem_holders, Finset.mem_erase, mem_holders]
        by_cases he : d' = d
        · simp [SlotRing.close, he]
        · simp [SlotRing.close, he]
      have hmem : d ∈ r.holders p.slot := mem_holders.mpr ⟨p.entry, hd⟩
      change Function.update r.opens _ _ _ = _
      rw [hnew, Finset.card_erase_of_mem hmem, Function.update_self, h.opens_eq _ _ hst]
    · have hne : s ≠ p.slot := fun hs => he (hs ▸ (h.stamp i s hi').1.symm)
      change Function.update r.opens _ _ i = _
      rw [Function.update_of_ne he, h.opens_eq i s hi']
      congr 1
      ext d'
      rw [mem_holders, mem_holders]
      by_cases he : d' = d
      · subst he
        have : ∀ e, p ≠ ⟨s, e⟩ := by
          rintro e rfl
          exact hne rfl
        simp [SlotRing.close, hd, this]
      · simp [SlotRing.close, he]

end Sound

end SlotRing

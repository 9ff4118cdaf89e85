import Mathlib.Data.Nat.Bitwise
import Pepp.Integers
import Pepp.Lib.Padding

/-!
# Section data

What a section keeps its data in: one vector, the pages of an allocator, a
mapped file, nothing at all, or the data of sections of other files one after
another. Each kind lays its data out from an offset on.
-/

namespace Pepp.Elf

open Padding Patches

/-- The part of the interface that layouts need: how much there is, and where the pieces of it go from an offset on, with
the offset behind them. -/
structure AStorage where
  size : Nat
  calculateLayout : Nat → List (Patch U8) × Nat

/-- Sums of `size_t`. -/
def addSize (m n : Nat) : Nat := (m + n) % 2 ^ 64

/-- `bits::align_up`, which masks the low bits. -/
def alignUpMask (x a : Nat) : Nat := if a ≤ 1 then x else addSize x (a - 1) &&& (2 ^ 64 - 1 - (a - 1))

namespace AStorage

def block (bytes : List U8) : AStorage where
  size := bytes.length
  calculateLayout dst := if bytes.isEmpty then ([], dst) else ([(dst, bytes)], addSize dst bytes.length)

/-- The pages one after another, without those that are not used. -/
def layoutPages : Nat → List (List U8) → List (Patch U8) × Nat
  | dst, [] => ([], dst)
  | dst, page :: pages =>
    if page.isEmpty then layoutPages dst pages
    else
      let (items, dst') := layoutPages (addSize dst page.length) pages
      ((dst, page) :: items, dst')

def paged (pages : List (List U8)) : AStorage where
  size := (pages.map List.length).sum
  calculateLayout dst := if (pages.map List.length).sum = 0 then ([], dst) else layoutPages dst pages

def mapped (bytes : List U8) : AStorage where
  size := bytes.length
  calculateLayout dst := ([(dst, bytes)], addSize dst bytes.length)

def null : AStorage where
  size := 0
  calculateLayout dst := ([], dst)

def sizeEntries : Nat → List (Nat × AStorage) → Nat
  | total, [] => total
  | total, (align, data) :: entries => sizeEntries (addSize (alignUpMask total align) data.size) entries

def layoutEntries : Nat → List (Nat × AStorage) → List (Patch U8) × Nat
  | dst, [] => ([], dst)
  | dst, (align, data) :: entries =>
    let (items, dst) := data.calculateLayout (alignUpMask dst align)
    let (items', dst) := layoutEntries dst entries
    (items ++ items', dst)

/-- Sections of other files, with their alignments; nothing is aligned in front of the first. -/
def combining (entries : List (Nat × AStorage)) : AStorage :=
  match entries with
  | [] => { size := sizeEntries 0 [], calculateLayout := fun dst => layoutEntries dst [] }
  | (_, data) :: entries =>
    { size := sizeEntries 0 ((0, data) :: entries), calculateLayout := fun dst => layoutEntries dst ((0, data) :: entries) }

end AStorage

/-! ## Masks -/

/-- Alignments that a mask can round to. -/
def Maskable (a : Nat) : Prop := a < 2 ∨ ∃ k < 63, a = 2 ^ k

theorem and_mask {x k : Nat} (hx : x < 2 ^ 64) (hk : k ≤ 64) :
    x &&& (2 ^ 64 - 1 - (2 ^ k - 1)) = x / 2 ^ k * 2 ^ k := by
  have hpos := Nat.two_pow_pos k
  have hle : 2 ^ k ≤ 2 ^ 64 := Nat.pow_le_pow_right (by decide) hk
  refine Nat.eq_of_testBit_eq fun i => ?_
  rw [Nat.testBit_and, Nat.testBit_mul_two_pow, Nat.testBit_div_two_pow,
    show 2 ^ 64 - 1 - (2 ^ k - 1) = 2 ^ 64 - (2 ^ k - 1 + 1) by omega, Nat.testBit_two_pow_sub_succ (by omega),
    Nat.testBit_two_pow_sub_one]
  by_cases hik : k ≤ i
  · rw [decide_eq_true hik, Nat.sub_add_cancel hik, decide_eq_false (show ¬ i < k by omega)]
    by_cases hi : i < 64
    · simp [hi]
    · have : x.testBit i = false := Nat.testBit_lt_two_pow (hx.trans_le (Nat.pow_le_pow_right (by decide) (by omega)))
      simp [this]
  · simp [show i < k by omega, show ¬ k ≤ i by omega]

theorem addSize_eq {m n : Nat} (h : m + n < 2 ^ 64) : addSize m n = m + n := Nat.mod_eq_of_lt h

theorem alignUpMask_eq {x a : Nat} (ha : Maskable a) (hx : x < 2 ^ 63) : alignUpMask x a = alignUp x a := by
  rcases ha with hsmall | ⟨k, hk, rfl⟩
  · rw [alignUpMask, if_pos (by omega), alignUp_of_small hsmall]
  · have hpow : 2 ^ k ≤ 2 ^ 62 := Nat.pow_le_pow_right (by decide) (by omega)
    by_cases hone : 2 ^ k ≤ 1
    · rw [alignUpMask, if_pos hone, alignUp_of_small (by omega)]
    · rw [alignUpMask, if_neg hone, addSize_eq (by omega), and_mask (by omega) (by omega), alignUp, if_neg (by omega)]

/-! ## What is laid out -/

/-- The bytes that a storage stands for where its offset is aligned for `a`; there is nothing in the padding. -/
inductive Stores : Nat → AStorage → List (Option U8) → Prop
  | block {a : Nat} (bytes : List U8) : Stores a (.block bytes) (bytes.map some)
  | paged {a : Nat} (pages : List (List U8)) : Stores a (.paged pages) (pages.flatten.map some)
  | mapped {a : Nat} (bytes : List U8) : Stores a (.mapped bytes) (bytes.map some)
  | null {a : Nat} : Stores a .null []
  | empty {a : Nat} : Stores a (.combining []) []
  | first {a align : Nat} {data : AStorage} {content : List (Option U8)} (h : Stores a data content) :
    Stores a (.combining [(align, data)]) content
  | next {a : Nat} {e : Nat × AStorage} {entries : List (Nat × AStorage)} {content : List (Option U8)} {align : Nat}
    {data : AStorage} {content' : List (Option U8)} (h : Stores a (.combining (e :: entries)) content)
    (hmask : Maskable align) (halign : Aligned align a) (hsmall : a < 2 → align < 2) (h' : Stores align data content') :
    Stores a (.combining (e :: (entries ++ [(align, data)])))
      (content ++ (List.replicate (alignUp content.length align - content.length) none ++ content'))

/-- Pieces that lie in order from `dst` on, before `stop`. -/
def InOrder (dst stop : Nat) (items : List (Patch U8)) : Prop :=
  items.Pairwise (fun p q => p.1 + p.2.length ≤ q.1) ∧ ∀ p ∈ items, dst ≤ p.1 ∧ p.1 + p.2.length ≤ stop

theorem InOrder.append {dst mid mid' stop : Nat} {items items' : List (Patch U8)} (h : InOrder dst mid items)
    (h' : InOrder mid' stop items') (hle : mid ≤ mid') (hdst : dst ≤ mid') (hstop : mid ≤ stop) :
    InOrder dst stop (items ++ items') := by
  refine ⟨List.pairwise_append.mpr ⟨h.1, h'.1, fun p hp q hq => ?_⟩, fun p hp => ?_⟩
  · have := (h.2 p hp).2
    have := (h'.2 q hq).1
    omega
  · rcases List.mem_append.mp hp with hp | hp
    · have := h.2 p hp
      omega
    · have := h'.2 p hp
      omega

/-- Every byte of the content is in the piece that goes to its place. -/
def Covers (dst : Nat) (items : List (Patch U8)) (content : List (Option U8)) : Prop :=
  ∀ k byte, content[k]? = some (some byte) → ∃ p ∈ items, p.1 ≤ dst + k ∧ p.2[dst + k - p.1]? = some byte

variable {dst : Nat}

theorem Covers.append {items items' : List (Patch U8)} {content content' : List (Option U8)}
    (h : Covers dst items content) (h' : Covers (dst + content.length) items' content') :
    Covers dst (items ++ items') (content ++ content') := by
  intro k byte hk
  by_cases hlt : k < content.length
  · rw [List.getElem?_append_left hlt] at hk
    obtain ⟨p, hp, hat⟩ := h k byte hk
    exact ⟨p, List.mem_append_left _ hp, hat⟩
  · rw [List.getElem?_append_right (by omega)] at hk
    obtain ⟨p, hp, hat⟩ := h' (k - content.length) byte hk
    rw [show dst + content.length + (k - content.length) = dst + k by omega] at hat
    exact ⟨p, List.mem_append_right _ hp, hat⟩

/-- Padding needs no pieces. -/
theorem covers_padding (dst n : Nat) : Covers dst [] (List.replicate n none) := by
  intro k byte hk
  rw [List.getElem?_replicate] at hk
  split at hk <;> cases hk

theorem covers_piece (dst : Nat) (bytes : List U8) : Covers dst [(dst, bytes)] (bytes.map some) := by
  intro k byte hk
  rw [List.getElem?_map, Option.map_eq_some_iff] at hk
  obtain ⟨b, hk, hb⟩ := hk
  rw [Option.some.injEq] at hb
  subst hb
  exact ⟨(dst, bytes), List.mem_singleton_self _, Nat.le_add_right _ _, by rw [Nat.add_sub_cancel_left, hk]⟩

/-- Data laid out from `dst` on. -/
structure LaidOut (dst : Nat) (content : List (Option U8)) (layout : List (Patch U8) × Nat) : Prop where
  next : layout.2 = dst + content.length
  inOrder : InOrder dst (dst + content.length) layout.1
  covers : Covers dst layout.1 content

theorem laidOut_piece {bytes : List U8} (h : dst + bytes.length < 2 ^ 63) :
    LaidOut dst (bytes.map some) ([(dst, bytes)], addSize dst bytes.length) := by
  refine ⟨?_, ⟨List.pairwise_singleton _ _, ?_⟩, covers_piece dst bytes⟩
  · rw [List.length_map, addSize_eq (by omega)]
  · rw [List.length_map, List.forall_mem_singleton]
    exact ⟨le_rfl, le_rfl⟩

theorem laidOut_nothing (dst : Nat) : LaidOut dst [] ([], dst) :=
  ⟨rfl, ⟨List.Pairwise.nil, nofun⟩, nofun⟩

/-- One layout behind the other. -/
theorem LaidOut.append {content content' : List (Option U8)} {layout layout' : List (Patch U8) × Nat}
    (h : LaidOut dst content layout) (h' : LaidOut (dst + content.length) content' layout') :
    LaidOut dst (content ++ content') (layout.1 ++ layout'.1, layout'.2) := by
  refine ⟨?_, h.inOrder.append ?_ le_rfl (by omega) ?_, h.covers.append h'.covers⟩
  · rw [h'.next, List.length_append, Nat.add_assoc]
  · rw [List.length_append, ← Nat.add_assoc]
    exact h'.inOrder
  · rw [List.length_append]
    omega

theorem laidOut_pages {pages : List (List U8)} (h : dst + pages.flatten.length < 2 ^ 63) :
    LaidOut dst (pages.flatten.map some) (AStorage.layoutPages dst pages) := by
  induction pages generalizing dst with
  | nil => exact laidOut_nothing dst
  | cons page pages ih =>
    rw [List.flatten_cons, List.length_append] at h
    rw [List.flatten_cons, List.map_append, AStorage.layoutPages]
    split
    · next hempty =>
      rw [List.isEmpty_iff.mp hempty] at h ⊢
      exact ih (by simpa using h)
    · rw [addSize_eq (by omega)]
      have hone := @laidOut_piece dst page (by omega)
      have hrest := @ih (dst + page.length) (by omega)
      rw [← @List.length_map _ _ page some] at hrest
      have := hone.append hrest
      rwa [List.length_map] at this

namespace AStorage

theorem sizeEntries_append (total : Nat) (entries entries' : List (Nat × AStorage)) :
    sizeEntries total (entries ++ entries') = sizeEntries (sizeEntries total entries) entries' := by
  induction entries generalizing total with
  | nil => rfl
  | cons e entries ih => exact ih _

theorem layoutEntries_append (dst : Nat) (entries entries' : List (Nat × AStorage)) :
    layoutEntries dst (entries ++ entries') =
      ((layoutEntries dst entries).1 ++ (layoutEntries (layoutEntries dst entries).2 entries').1,
        (layoutEntries (layoutEntries dst entries).2 entries').2) := by
  induction entries generalizing dst with
  | nil => rfl
  | cons e entries ih =>
    simp only [List.cons_append, layoutEntries, ih, List.append_assoc]

end AStorage

/-- Every kind of storage has the size of its content, and lays it out. -/
theorem Stores.spec {a : Nat} {data : AStorage} {content : List (Option U8)} (h : Stores a data content)
    (hsize : content.length < 2 ^ 63) : data.size = content.length ∧
      ∀ dst, Aligned a dst → dst + content.length < 2 ^ 63 → LaidOut dst content (data.calculateLayout dst) := by
  induction h with
  | block bytes =>
    refine ⟨by simp [AStorage.block], fun dst _ hdst => ?_⟩
    rw [List.length_map] at hdst
    simp only [AStorage.block]
    split
    · next hempty =>
      rw [List.isEmpty_iff.mp hempty]
      exact laidOut_nothing dst
    · exact laidOut_piece hdst
  | paged pages =>
    have hsum : (pages.map List.length).sum = pages.flatten.length := List.length_flatten.symm
    refine ⟨by rw [List.length_map, ← hsum]; rfl, fun dst _ hdst => ?_⟩
    rw [List.length_map] at hdst
    simp only [AStorage.paged]
    split
    · next hzero =>
      rw [hsum, List.length_eq_zero_iff] at hzero
      rw [hzero]
      exact laidOut_nothing dst
    · exact laidOut_pages hdst
  | mapped bytes =>
    refine ⟨by simp [AStorage.mapped], fun dst _ hdst => ?_⟩
    rw [List.length_map] at hdst
    exact laidOut_piece hdst
  | null => exact ⟨rfl, fun dst _ _ => laidOut_nothing dst⟩
  | empty => exact ⟨rfl, fun dst _ _ => laidOut_nothing dst⟩
  | @first a align data content h ih =>
    obtain ⟨ihsize, ihlayout⟩ := ih hsize
    refine ⟨?_, fun dst hdst hlt => ?_⟩
    · simp only [AStorage.combining, AStorage.sizeEntries, alignUpMask]
      rw [if_pos (by decide), ihsize, addSize_eq (by omega), Nat.zero_add]
    · simp only [AStorage.combining, AStorage.layoutEntries, alignUpMask]
      rw [if_pos (by decide), List.append_nil]
      exact ihlayout dst hdst hlt
  | @next a e entries content align data content' h hmask halign hsmall h' ih ih' =>
    rw [List.length_append, List.length_append, List.length_replicate] at hsize
    have hup := le_alignUp content.length align
    obtain ⟨ihsize, ihlayout⟩ := ih (by omega)
    obtain ⟨ihsize', ihlayout'⟩ := ih' (by omega)
    refine ⟨?_, fun dst hdst hlt => ?_⟩
    · simp only [AStorage.combining] at ihsize ⊢
      rw [← List.cons_append, AStorage.sizeEntries_append, ihsize]
      simp only [AStorage.sizeEntries]
      rw [alignUpMask_eq hmask (by omega), ihsize', addSize_eq (by omega)]
      simp only [List.length_append, List.length_replicate]
      omega
    · rw [List.length_append, List.length_append, List.length_replicate] at hlt
      have hfirst := ihlayout dst hdst (by omega)
      have hdst' : Aligned align dst := hdst.trans halign hsmall
      have hplace : alignUp (dst + content.length) align = dst + alignUp content.length align := alignUp_add hdst' _
      have hsecond := ihlayout' (dst + alignUp content.length align)
        (hdst'.add (aligned_alignUp _ _)) (by omega)
      simp only [AStorage.combining] at hfirst ⊢
      rw [← List.cons_append, AStorage.layoutEntries_append, hfirst.next]
      simp only [AStorage.layoutEntries, List.append_nil]
      rw [alignUpMask_eq hmask (by omega), hplace]
      have hpadding : LaidOut (dst + content.length) (List.replicate (alignUp content.length align - content.length) none)
          ([], dst + alignUp content.length align) := by
        refine ⟨?_, ⟨List.Pairwise.nil, nofun⟩, covers_padding _ _⟩
        rw [List.length_replicate]
        omega
      have hnext : dst + content.length + (List.replicate (alignUp content.length align - content.length)
          (none : Option U8)).length = dst + alignUp content.length align := by
        rw [List.length_replicate]
        omega
      have hboth := @LaidOut.append _ _ content' _ (data.calculateLayout _) hpadding (by rw [hnext]; exact hsecond)
      exact hfirst.append hboth

end Pepp.Elf

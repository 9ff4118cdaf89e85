import Mathlib.Data.Finset.Card
import Mathlib.Data.Finset.Range
import Pepp.Integers

/-!
# Bit sets of a fixed size

A set of numbers below `COUNT` is kept in the smallest word that has a bit for
each of them. What is asked about the set is answered from the whole word, so
that the bits that stand for no number have to be zero. An assignment from a
word does not see to this.
-/

namespace Pepp.Bits

/-- The width of `storage_t`. -/
abbrev storageBits (COUNT : Nat) : Nat :=
  if COUNT ≤ 8 then 8 else if COUNT ≤ 16 then 16 else if COUNT ≤ 32 then 32 else 64

structure FixedBitset (COUNT : Nat) where
  storage : BitVec (storageBits COUNT)
  deriving DecidableEq

namespace FixedBitset

variable {COUNT : Nat}

def MASK (COUNT : Nat) : BitVec (storageBits COUNT) :=
  if storageBits COUNT = COUNT then ~~~0#_ else 1#_ <<< COUNT - 1#_

/-- `1ULL << pos`, which is defined up to 63. -/
def bit (pos : Nat) : U64 := 1#64 <<< pos

/-- The low bits of a word are stored. -/
def store (word : U64) : FixedBitset COUNT := ⟨word.setWidth _⟩

def toU64 (self : FixedBitset COUNT) : U64 := self.storage.setWidth 64

def mask (COUNT : Nat) : U64 := (MASK COUNT).setWidth 64

/-- The constructor from a word. -/
def ofU64 (value : U64) : FixedBitset COUNT := store (value &&& mask COUNT)

/-- `operator=` from a word -/
def assign (value : U64) : FixedBitset COUNT := store value

def ones : FixedBitset COUNT := ofU64 (mask COUNT)

def zeros : FixedBitset COUNT := ofU64 0

/-! ## Operations -/

def andAssign (self rhs : FixedBitset COUNT) : FixedBitset COUNT := ⟨self.storage &&& (rhs.storage &&& MASK COUNT)⟩

def orAssign (self rhs : FixedBitset COUNT) : FixedBitset COUNT := ⟨self.storage ||| (rhs.storage &&& MASK COUNT)⟩

def xorAssign (self rhs : FixedBitset COUNT) : FixedBitset COUNT := ⟨self.storage ^^^ (rhs.storage &&& MASK COUNT)⟩

def shiftLeftAssign (self : FixedBitset COUNT) (pos : Nat) : FixedBitset COUNT :=
  ⟨(self.storage <<< pos) &&& MASK COUNT⟩

def set : FixedBitset COUNT := ⟨MASK COUNT⟩

/-- `reset` and `clear` -/
def reset : FixedBitset COUNT := ⟨0#_⟩

/-- `reset` and `clear_bit` of a position -/
def resetBit (self : FixedBitset COUNT) (pos : Nat) : FixedBitset COUNT :=
  store (self.toU64 &&& (~~~bit pos &&& mask COUNT))

def complement (self : FixedBitset COUNT) : FixedBitset COUNT := ofU64 ((~~~self.storage &&& MASK COUNT).setWidth 64)

def flip (self : FixedBitset COUNT) : FixedBitset COUNT := ⟨~~~self.storage &&& MASK COUNT⟩

/-- `flip` and `toggle_bit` of a position -/
def flipBit (self : FixedBitset COUNT) (pos : Nat) : FixedBitset COUNT :=
  store (self.toU64 ^^^ (bit pos &&& mask COUNT))

def enableBit (self : FixedBitset COUNT) (pos : Nat) : FixedBitset COUNT :=
  store (self.toU64 ||| (bit pos &&& mask COUNT))

/-- The value of a `Reference`. -/
def reference (self : FixedBitset COUNT) (pos : Nat) : Bool := self.toU64 &&& bit pos != 0#64

/-- The assignment to a `Reference`. -/
def setReference (self : FixedBitset COUNT) (pos : Nat) (value : Bool) : FixedBitset COUNT :=
  if !value then self.resetBit pos else self.enableBit pos

/-! ## Questions -/

def test (self : FixedBitset COUNT) (pos : Nat) : Bool := self.storage >>> pos &&& 1#_ != 0#_

/-- The number of ones, which fits in a byte. -/
def count (self : FixedBitset COUNT) : U8 := self.storage.cpop.setWidth 8

/-- `operator==` -/
def equal (self other : FixedBitset COUNT) : Bool := self.storage == other.storage

def all (self : FixedBitset COUNT) : Bool := self.count.toNat == COUNT

def any (self : FixedBitset COUNT) : Bool := self.storage != 0#_

def none (self : FixedBitset COUNT) : Bool := self.storage == 0#_

/-! ## Members -/

/-- The numbers that the set has. -/
def members (self : FixedBitset COUNT) : Finset Nat := (Finset.range COUNT).filter (self.test ·)

/-- The bits that stand for no number are zero. -/
def Clean (self : FixedBitset COUNT) : Prop := ∀ i, COUNT ≤ i → self.storage.getLsbD i = false

theorem le_storageBits (hcount : COUNT ≤ 64) : COUNT ≤ storageBits COUNT := by
  unfold storageBits
  split_ifs <;> omega

theorem storageBits_le : storageBits COUNT ≤ 64 := by
  unfold storageBits
  split_ifs <;> decide

theorem getLsbD_MASK (hcount : COUNT ≤ 64) (i : Nat) : (MASK COUNT).getLsbD i = decide (i < COUNT) := by
  have hle := le_storageBits hcount
  rw [MASK]
  split
  · next hfull =>
    rw [BitVec.getLsbD_not, BitVec.getLsbD_zero, Bool.not_false, Bool.and_true, hfull]
  · next hpart =>
    have hlt : COUNT < storageBits COUNT := by omega
    have hpow : (1#(storageBits COUNT) <<< COUNT).toNat = 2 ^ COUNT := BitVec.toNat_twoPow_of_lt hlt
    have hone : (1#(storageBits COUNT)).toNat = 1 := Nat.mod_eq_of_lt (Nat.one_lt_two_pow (by omega))
    rw [← BitVec.testBit_toNat, BitVec.toNat_sub_of_le, hpow, hone, Nat.testBit_two_pow_sub_one]
    rw [BitVec.le_def, hpow, hone]
    exact Nat.one_le_two_pow

theorem getLsbD_mask (hcount : COUNT ≤ 64) (i : Nat) : (mask COUNT).getLsbD i = decide (i < COUNT) := by
  rw [mask, BitVec.getLsbD_setWidth, getLsbD_MASK hcount, Bool.and_eq_right_iff_imp]
  intro hi
  exact decide_eq_true ((of_decide_eq_true hi).trans_le hcount)

theorem test_eq (self : FixedBitset COUNT) (i : Nat) : self.test i = self.storage.getLsbD i := by
  have hpos : 0 < storageBits COUNT := by
    unfold storageBits
    split_ifs <;> decide
  have hone : ∀ b, (BitVec.ofBool b).setWidth (storageBits COUNT) = 0#_ ↔ b = false := by
    intro b
    cases b with
    | false => exact iff_of_true (BitVec.setWidth_zero _ _) rfl
    | true =>
      refine iff_of_false (fun h => ?_) Bool.true_eq_false.mp
      have hbit := congrArg (·.getLsbD 0) h
      simp only [BitVec.getLsbD_setWidth, BitVec.getLsbD_zero, hpos, decide_true, Bool.true_and] at hbit
      exact absurd hbit (by decide)
  rw [test, BitVec.and_one_eq_setWidth_ofBool_getLsbD, BitVec.getLsbD_ushiftRight, Nat.add_zero]
  cases hbit : self.storage.getLsbD i with
  | false => exact bne_eq_false_iff_eq.mpr ((hone false).mpr rfl)
  | true => exact bne_iff_ne.mpr fun h => Bool.noConfusion ((hone true).mp h)

theorem mem_members {self : FixedBitset COUNT} {i : Nat} :
    i ∈ self.members ↔ i < COUNT ∧ self.storage.getLsbD i = true := by
  rw [members, Finset.mem_filter, Finset.mem_range, test_eq]

/-- The ones among the low bits are as many as the numbers of their positions. -/
theorem cpopNatRec_eq_card {w : Nat} (x : BitVec w) (n : Nat) :
    x.cpopNatRec n 0 = ((Finset.range n).filter (x.getLsbD ·)).card := by
  induction n with
  | zero => rfl
  | succ n ih =>
    rw [BitVec.cpopNatRec_succ, BitVec.cpopNatRec_eq, ih, Finset.range_add_one, Finset.filter_insert]
    cases x.getLsbD n with
    | true =>
      rw [if_pos rfl, Finset.card_insert_of_notMem]
      · rfl
      · exact fun h => Finset.notMem_range_self (Finset.mem_of_mem_filter n h)
    | false => rfl

/-- A clean set answers as its members do. -/
theorem Clean.count (hcount : COUNT ≤ 64) {self : FixedBitset COUNT} (h : self.Clean) :
    self.count.toNat = self.members.card := by
  have hle := @storageBits_le COUNT
  have hones : self.storage.cpop.toNat ≤ storageBits COUNT := BitVec.toNat_cpop_le _
  have hmembers : (Finset.range (storageBits COUNT)).filter (self.storage.getLsbD ·) = self.members := by
    ext i
    rw [Finset.mem_filter, Finset.mem_range, mem_members]
    refine and_congr_left fun hi => ⟨fun _ => ?_, fun hlt => hlt.trans_le (le_storageBits hcount)⟩
    by_contra hge
    rw [h i (Nat.not_lt.mp hge)] at hi
    cases hi
  rw [FixedBitset.count, BitVec.toNat_setWidth, Nat.mod_eq_of_lt (by omega), BitVec.toNat_cpop, cpopNatRec_eq_card,
    hmembers]

theorem Clean.all (hcount : COUNT ≤ 64) {self : FixedBitset COUNT} (h : self.Clean) :
    self.all = true ↔ self.members = Finset.range COUNT := by
  rw [FixedBitset.all, beq_iff_eq, h.count hcount]
  constructor
  · intro hcard
    refine Finset.eq_of_subset_of_card_le (Finset.filter_subset _ _) ?_
    rw [hcard, Finset.card_range]
  · intro heq
    rw [heq, Finset.card_range]

theorem Clean.equal {self other : FixedBitset COUNT} (h : self.Clean) (h' : other.Clean) :
    self.equal other = true ↔ self.members = other.members := by
  rw [FixedBitset.equal, beq_iff_eq]
  constructor
  · intro heq
    ext i
    rw [mem_members, mem_members, heq]
  · intro heq
    refine BitVec.eq_of_getLsbD_eq fun i _ => ?_
    obtain hlt | hge := Nat.lt_or_ge i COUNT
    · have hmem := congrArg (i ∈ ·) heq
      simp only [mem_members, hlt, true_and, eq_iff_iff] at hmem
      exact Bool.eq_iff_iff.mpr hmem
    · rw [h i hge, h' i hge]

theorem Clean.none {self : FixedBitset COUNT} (h : self.Clean) : self.none = true ↔ self.members = ∅ := by
  have hreset : (reset : FixedBitset COUNT).Clean := fun i _ => BitVec.getLsbD_zero
  have hempty : (reset : FixedBitset COUNT).members = ∅ := by
    ext i
    rw [mem_members]
    exact iff_of_false (fun hi => by cases BitVec.getLsbD_zero.symm.trans hi.2) (Finset.notMem_empty i)
  rw [← hempty]
  exact h.equal hreset

theorem Clean.any {self : FixedBitset COUNT} (h : self.Clean) : self.any = true ↔ self.members.Nonempty := by
  rw [FixedBitset.any, bne_iff_ne, Finset.nonempty_iff_ne_empty, Ne, Ne, ← h.none, FixedBitset.none, beq_iff_eq]

/-! ## Runs -/

variable {self rhs : FixedBitset COUNT}

theorem clean_of_mask {word : BitVec (storageBits COUNT)} (hcount : COUNT ≤ 64) :
    (⟨word &&& MASK COUNT⟩ : FixedBitset COUNT).Clean := by
  intro i hi
  rw [BitVec.getLsbD_and, getLsbD_MASK hcount, decide_eq_false (Nat.not_lt.mpr hi), Bool.and_false]

/-- A stored word is clean if it has none of the bits from `COUNT` on. -/
theorem clean_store {word : U64} (h : ∀ i, COUNT ≤ i → word.getLsbD i = false) :
    (store word : FixedBitset COUNT).Clean := by
  intro i hi
  rw [store, BitVec.getLsbD_setWidth, h i hi, Bool.and_false]

theorem Clean.toU64 (h : self.Clean) {i : Nat} (hi : COUNT ≤ i) : self.toU64.getLsbD i = false := by
  rw [FixedBitset.toU64, BitVec.getLsbD_setWidth, h i hi, Bool.and_false]

section

variable (hcount : COUNT ≤ 64)
include hcount

theorem masked (word : U64) {i : Nat} (hi : COUNT ≤ i) : (word &&& mask COUNT).getLsbD i = false := by
  rw [BitVec.getLsbD_and, getLsbD_mask hcount, decide_eq_false (Nat.not_lt.mpr hi), Bool.and_false]

theorem clean_ofU64 (value : U64) : (ofU64 value : FixedBitset COUNT).Clean :=
  clean_store fun _ => masked hcount value

theorem Clean.orAssign (h : self.Clean) : (self.orAssign rhs).Clean := by
  intro i hi
  rw [FixedBitset.orAssign, BitVec.getLsbD_or, h i hi, clean_of_mask hcount i hi]
  rfl

theorem Clean.xorAssign (h : self.Clean) : (self.xorAssign rhs).Clean := by
  intro i hi
  rw [FixedBitset.xorAssign, BitVec.getLsbD_xor, h i hi, clean_of_mask hcount i hi]
  rfl

theorem clean_andAssign : (self.andAssign rhs).Clean := by
  intro i hi
  rw [FixedBitset.andAssign, BitVec.getLsbD_and, clean_of_mask hcount i hi, Bool.and_false]

theorem clean_resetBit (pos : Nat) : (self.resetBit pos).Clean := by
  refine clean_store fun i hi => ?_
  rw [BitVec.getLsbD_and, masked hcount _ hi, Bool.and_false]

theorem Clean.flipBit (h : self.Clean) (pos : Nat) : (self.flipBit pos).Clean := by
  refine clean_store fun i hi => ?_
  rw [BitVec.getLsbD_xor, h.toU64 hi, masked hcount _ hi]
  rfl

theorem Clean.enableBit (h : self.Clean) (pos : Nat) : (self.enableBit pos).Clean := by
  refine clean_store fun i hi => ?_
  rw [BitVec.getLsbD_or, h.toU64 hi, masked hcount _ hi]
  rfl

theorem Clean.setReference (h : self.Clean) (pos : Nat) (value : Bool) : (self.setReference pos value).Clean := by
  rw [FixedBitset.setReference]
  split
  · exact clean_resetBit hcount pos
  · exact h.enableBit hcount pos

end

/-- An assignment from a word leaves a clean set just if the word has none of the bits from `COUNT` on that are kept. -/
theorem clean_assign_iff {value : U64} : (assign value : FixedBitset COUNT).Clean ↔
    ∀ i < storageBits COUNT, COUNT ≤ i → value.getLsbD i = false := by
  rw [assign, store]
  constructor
  · intro h i hi hle
    have hbit := h i hle
    rwa [BitVec.getLsbD_setWidth, decide_eq_true hi, Bool.true_and] at hbit
  · intro h i hle
    rw [BitVec.getLsbD_setWidth]
    by_cases hi : i < storageBits COUNT
    · rw [h i hi hle, Bool.and_false]
    · rw [decide_eq_false hi, Bool.false_and]

end FixedBitset

/-! ## Sequences of operations -/

/-- What is done to a set, which has a number for its name, perhaps with others. -/
inductive Operation where
  | construct (target : Nat) (value : U64)
  | assign (target : Nat) (value : U64)
  | copy (target source : Nat)
  | ones (target : Nat)
  | zeros (target : Nat)
  | andAssign (target rhs : Nat)
  | orAssign (target rhs : Nat)
  | xorAssign (target rhs : Nat)
  | and (target lhs rhs : Nat)
  | or (target lhs rhs : Nat)
  | xor (target lhs rhs : Nat)
  | shiftLeftAssign (target pos : Nat)
  | set (target : Nat)
  | reset (target : Nat)
  | resetBit (target pos : Nat)
  | complement (target source : Nat)
  | flip (target : Nat)
  | flipBit (target pos : Nat)
  | enableBit (target pos : Nat)
  | setReference (target pos : Nat) (value : Bool)
  | copyReference (target pos source pos' : Nat)

namespace Operation

open FixedBitset

variable {COUNT : Nat}

def target : Operation → Nat
  | construct t _ | assign t _ | copy t _ | ones t | zeros t | andAssign t _ | orAssign t _ | xorAssign t _ | and t _ _
  | or t _ _ | xor t _ _ | shiftLeftAssign t _ | set t | reset t | resetBit t _ | complement t _ | flip t | flipBit t _
  | enableBit t _ | setReference t _ _ | copyReference t _ _ _ => t

/-- What the target becomes. -/
def result (objects : Nat → FixedBitset COUNT) : Operation → FixedBitset COUNT
  | construct _ value => ofU64 value
  | assign _ value => FixedBitset.assign value
  | copy _ source => objects source
  | ones _ => FixedBitset.ones
  | zeros _ => FixedBitset.zeros
  | andAssign target rhs => (objects target).andAssign (objects rhs)
  | orAssign target rhs => (objects target).orAssign (objects rhs)
  | xorAssign target rhs => (objects target).xorAssign (objects rhs)
  | and _ lhs rhs => ofU64 ((objects lhs).toU64 &&& (objects rhs).toU64)
  | or _ lhs rhs => ofU64 ((objects lhs).toU64 ||| (objects rhs).toU64)
  | xor _ lhs rhs => ofU64 ((objects lhs).toU64 ^^^ (objects rhs).toU64)
  | shiftLeftAssign target pos => (objects target).shiftLeftAssign pos
  | set _ => FixedBitset.set
  | reset _ => FixedBitset.reset
  | resetBit target pos => (objects target).resetBit pos
  | complement _ source => (objects source).complement
  | flip target => (objects target).flip
  | flipBit target pos => (objects target).flipBit pos
  | enableBit target pos => (objects target).enableBit pos
  | setReference target pos value => (objects target).setReference pos value
  | copyReference target pos source pos' => (objects target).setReference pos ((objects source).reference pos')

def apply (objects : Nat → FixedBitset COUNT) (op : Operation) : Nat → FixedBitset COUNT :=
  Function.update objects op.target (op.result objects)

/-- The word of an assignment. -/
def assigned : Operation → Option U64
  | assign _ value => some value
  | _ => none

/-- The bits from `COUNT` on that would be kept are zero. -/
def Fits (COUNT : Nat) (op : Operation) : Prop :=
  ∀ value ∈ op.assigned, ∀ i < storageBits COUNT, COUNT ≤ i → value.getLsbD i = false

theorem clean_result (hcount : COUNT ≤ 64) {objects : Nat → FixedBitset COUNT} (h : ∀ k, (objects k).Clean)
    {op : Operation} (hop : op.Fits COUNT) : (op.result objects).Clean := by
  cases op with
  | construct _ value => exact clean_ofU64 hcount value
  | assign _ value => exact clean_assign_iff.mpr (hop value rfl)
  | copy _ source => exact h source
  | ones => exact clean_ofU64 hcount _
  | zeros => exact clean_ofU64 hcount _
  | andAssign target rhs => exact clean_andAssign hcount
  | orAssign target rhs => exact (h target).orAssign hcount
  | xorAssign target rhs => exact (h target).xorAssign hcount
  | and => exact clean_ofU64 hcount _
  | or => exact clean_ofU64 hcount _
  | xor => exact clean_ofU64 hcount _
  | shiftLeftAssign target pos => exact clean_of_mask hcount
  | set =>
    intro i hi
    exact (getLsbD_MASK hcount i).trans (decide_eq_false (Nat.not_lt.mpr hi))
  | reset => exact fun i _ => BitVec.getLsbD_zero
  | resetBit target pos => exact clean_resetBit hcount pos
  | complement _ source => exact clean_ofU64 hcount _
  | flip target => exact clean_of_mask hcount
  | flipBit target pos => exact (h target).flipBit hcount pos
  | enableBit target pos => exact (h target).enableBit hcount pos
  | setReference target pos value => exact (h target).setReference hcount pos value
  | copyReference target pos source pos' => exact (h target).setReference hcount pos _

end Operation

section Runs

variable {COUNT : Nat}

def run (objects : Nat → FixedBitset COUNT) (ops : List Operation) : Nat → FixedBitset COUNT :=
  ops.foldl Operation.apply objects

/-- No set has been touched. -/
def start (COUNT : Nat) : Nat → FixedBitset COUNT := fun _ => .reset

/-- What is stored beyond the numbers is zero, and the sets answer as their members do. -/
structure Agrees (objects : Nat → FixedBitset COUNT) : Prop where
  clean : ∀ k, (objects k).Clean
  count : ∀ k, (objects k).count.toNat = (objects k).members.card
  all : ∀ k, (objects k).all = true ↔ (objects k).members = Finset.range COUNT
  any : ∀ k, (objects k).any = true ↔ (objects k).members.Nonempty
  none : ∀ k, (objects k).none = true ↔ (objects k).members = ∅
  equal : ∀ k l, (objects k).equal (objects l) = true ↔ (objects k).members = (objects l).members

variable {objects : Nat → FixedBitset COUNT}

theorem agrees_of_clean (hcount : COUNT ≤ 64) (h : ∀ k, (objects k).Clean) : Agrees objects :=
  ⟨h, fun k => (h k).count hcount, fun k => (h k).all hcount, fun k => (h k).any, fun k => (h k).none,
    fun k l => (h k).equal (h l)⟩

theorem clean_apply (hcount : COUNT ≤ 64) {objects : Nat → FixedBitset COUNT} (h : ∀ k, (objects k).Clean)
    {op : Operation} (hop : op.Fits COUNT) (k : Nat) : (op.apply objects k).Clean := by
  rw [Operation.apply]
  by_cases hk : k = op.target
  · rw [hk, Function.update_self]
    exact Operation.clean_result hcount h hop
  · rw [Function.update_of_ne hk]
    exact h k

theorem clean_run (hcount : COUNT ≤ 64) (h : ∀ k, (objects k).Clean) {ops : List Operation}
    (hops : ∀ op ∈ ops, op.Fits COUNT) (k : Nat) : (run objects ops k).Clean := by
  induction ops generalizing objects with
  | nil => exact h k
  | cons op ops ih =>
    obtain ⟨hop, hops⟩ := List.forall_mem_cons.mp hops
    exact ih (clean_apply hcount h hop) hops

/-- In all states of a run the sets are right just if every word that is assigned fits. -/
theorem runs_agree_iff (hcount : COUNT ≤ 64) (ops : List Operation) :
    (∀ front, front <+: ops → Agrees (run (start COUNT) front)) ↔ ∀ op ∈ ops, op.Fits COUNT := by
  constructor
  · intro h op hop value hvalue
    obtain ⟨front, back, rfl⟩ := List.append_of_mem hop
    have hagrees := h (front ++ [op]) ⟨back, by rw [List.append_assoc, List.singleton_append]⟩
    -- the set is what was assigned to it last
    have hclean := hagrees.clean op.target
    rw [run, List.foldl_append, List.foldl_cons, List.foldl_nil, Operation.apply, Function.update_self] at hclean
    cases op with
    | assign target word =>
      obtain rfl : word = value := Option.some_inj.mp hvalue
      exact FixedBitset.clean_assign_iff.mp hclean
    | _ => cases hvalue
  · rintro h front ⟨back, rfl⟩
    exact agrees_of_clean hcount
      (clean_run hcount (fun _ _ _ => BitVec.getLsbD_zero) fun op hop => h op (List.mem_append_left _ hop))

/-- Five and its complement among three numbers. -/
theorem runs_agree_three : 3 ≤ 64 ∧ ∀ front, front <+: [Operation.assign 0 5, .complement 1 0, .orAssign 0 1] →
    Agrees (run (start 3) front) := by
  refine ⟨by decide, (runs_agree_iff (show 3 ≤ 64 by decide) _).mpr ?_⟩
  have hfive : ∀ i < storageBits 3, 3 ≤ i → (5 : U64).getLsbD i = false := by decide
  simp only [Operation.Fits, Operation.assigned, List.forall_mem_cons]
  simpa using hfive

/-- A set of three numbers that a byte of ones is assigned to has bits that stand for none. -/
theorem not_runs_agree :
    ¬∀ COUNT ≤ 64, ∀ ops front : List Operation, front <+: ops → Agrees (run (start COUNT) front) := by
  intro h
  have hclean := (h 3 (by decide) [.assign 0 0xFF] _ List.prefix_rfl).clean 0 3 le_rfl
  exact absurd hclean (by decide)

end Runs

end Pepp.Bits

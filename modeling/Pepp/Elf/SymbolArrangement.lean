import Pepp.Elf.SymbolTable
import Pepp.Lib.Partitions

/-!
# Arranging local symbols

Local symbols are brought in front of all others by swaps, and relocations are
told of every swap. The symbol of a relocation is a field of its info word, of
24 bits in a 32-bit file.
-/

namespace Pepp.Elf

open CycleWalk Partitions

/-! ## Symbols -/

/-- `st_bind() == STB_LOCAL` -/
def Symbol.isLocal {b : ElfBits} (s : Symbol b) : Bool := decide (s.stInfo >>> 4 &&& 15 = 0)

section Loops

variable {α : Type}

/-- The first element from a position on to stop at, or the end. -/
def scanFrom (stop : α → Bool) : Nat → List α → Nat
  | i, [] => i
  | i, x :: xs => if stop x then i else scanFrom stop (i + 1) xs

/-- `swap_symbols`: the null symbol and what is not counted stay. -/
def swapCounted (count first second : Nat) (data : List α) : List α :=
  if count ≤ first ∨ count ≤ second ∨ first = 0 ∨ second = 0 then data else swapAt data first second

/-- The data, the swaps that were reported, and where the first element is that is not local. -/
def arrangeLoop (isLocal : α → Bool) (count : Nat) :
    Nat → Nat → List α → List (Nat × Nat) → Option (List α × List (Nat × Nat) × Nat)
  | 0, _, _, _ => none
  | fuel + 1, first, data, notified =>
    let first := scanFrom (!isLocal ·) first ((data.take count).drop first)
    let current := scanFrom isLocal (first + 1) ((data.take count).drop (first + 1))
    if first < count ∧ current < count then
      arrangeLoop isLocal count fuel first (swapCounted count first current data) (notified ++ [(first, current)])
    else some (data, notified, first)

end Loops

/-- What `arrange_local_symbols` leaves: symbols, the swaps that were reported, and the header's `sh_info`. -/
structure ArrangedSymbols (b : ElfBits) where
  data : List (Symbol b)
  notified : List (Nat × Nat)
  shInfo : U32

def SymbolTable.arrangeLocalSymbols {b : ElfBits} (t : SymbolTable b) : Option (ArrangedSymbols b) :=
  (arrangeLoop Symbol.isLocal t.symbolCount (t.symbolCount + 1) 1 t.data []).map fun (data, notified, first) =>
    ⟨data, notified, BitVec.ofNat 32 first⟩

/-! ## Relocations -/

def typeBits : ElfBits → Nat
  | .b32 => 8
  | .b64 => 32

def symBits : ElfBits → Nat
  | .b32 => 24
  | .b64 => 32

section Info

variable {b : ElfBits}

def rType (info : Word b) : Nat := info.toNat &&& (2 ^ typeBits b - 1)

def rSym (info : Word b) : Nat := info.toNat >>> typeBits b &&& (2 ^ symBits b - 1)

/-- The symbol is cut to its field. -/
def rInfo (b : ElfBits) (type sym : Nat) : Word b :=
  BitVec.ofNat b.width ((sym % 2 ^ symBits b) <<< typeBits b ||| type)

end Info

/-- `PackedElfRel` and `PackedElfRelA`; the addend of the former is not there. -/
structure Relocation (b : ElfBits) where
  rOffset : Word b
  rInfo : Word b
  rAddend : Word b := 0

structure RelocationTable (b : ElfBits) where
  isRela : Bool
  shSize : Word b
  shEntsize : Word b
  entries : List (Relocation b)

namespace RelocationTable

variable {b : ElfBits} (self : RelocationTable b)

/-- The quotient is cut to 32 bits. -/
def relocationCount : Nat :=
  if self.shEntsize = 0 ∨ self.shSize = 0 then 0 else self.shSize.toNat / self.shEntsize.toNat % 2 ^ 32

def updateSymbol (first second : Nat) (r : Relocation b) : Relocation b :=
  if rSym r.rInfo = first then { r with rInfo := Elf.rInfo b (rType r.rInfo) second }
  else if rSym r.rInfo = second then { r with rInfo := Elf.rInfo b (rType r.rInfo) first }
  else r

/-- The index of the loop is an `int`: from 2^31 entries on it overflows, which is not defined. -/
def swapSymbols (swap : Nat × Nat) : Option (RelocationTable b) :=
  if 2 ^ 31 ≤ self.relocationCount then none
  else some { self with
    entries := (self.entries.take self.relocationCount).map (updateSymbol swap.1 swap.2) ++
      self.entries.drop self.relocationCount }

/-- All swaps that were reported, one after the other. -/
def swapAll : List (Nat × Nat) → RelocationTable b → Option (RelocationTable b)
  | [], self => some self
  | swap :: swaps, self => (self.swapSymbols swap).bind (swapAll swaps)

end RelocationTable

/-! ## What arranging is for -/

section Claims

variable {b : ElfBits}

/-- The first symbol stays, local symbols are in front of all others, and the header says how many there are. -/
structure LocalsFirst (t : SymbolTable b) (r : ArrangedSymbols b) : Prop where
  swapped : r.data = applySwaps t.data r.notified
  perm : r.data.Perm t.data
  null : r.data.head? = t.data.head?
  locals : r.data.Pairwise fun s s' => s'.isLocal = true → s.isLocal = true
  info : r.shInfo.toNat = r.data.findIdx (!·.isLocal)

/-- Each relocation has the symbol that it had, where that is now, and is otherwise the same. -/
structure FollowsSymbols (count : Nat) (swaps : List (Nat × Nat)) (rels rels' : RelocationTable b) : Prop where
  length : rels'.entries.length = rels.entries.length
  symbol : ∀ (k : Nat) (e e' : Relocation b), rels.entries[k]? = some e → rels'.entries[k]? = some e' →
    rSym e.rInfo < count → (applySwaps (List.range count) swaps)[rSym e'.rInfo]? = some (rSym e.rInfo)
  rest : ∀ (k : Nat) (e e' : Relocation b), rels.entries[k]? = some e → rels'.entries[k]? = some e' →
    e'.rOffset = e.rOffset ∧ e'.rAddend = e.rAddend ∧ rType e'.rInfo = rType e.rInfo

/-- The symbols are arranged, and the relocations keep theirs. -/
def KeepsMeaning (t : SymbolTable b) (rels : RelocationTable b) : Prop :=
  ∃ r rels', t.arrangeLocalSymbols = some r ∧ rels.swapAll r.notified = some rels' ∧ LocalsFirst t r ∧
    FollowsSymbols t.data.length r.notified rels rels'

def symbolAt (t : SymbolTable b) (k : Nat) : Symbol b := t.data.getD k {}

def localAt (t : SymbolTable b) (k : Nat) : Bool := (symbolAt t k).isLocal

/-- The symbols by their indices in the order that they are brought into: of those that are counted, each local one
takes the place of the first of the others, which goes behind the rest of them. -/
def order (t : SymbolTable b) : List Nat :=
  partitioned (localAt t) (List.range t.symbolCount) ++
    List.range' t.symbolCount (t.data.length - t.symbolCount)

/-- All symbols that are not counted are global; and if the counted ones are not in order, fewer than 2^31 relocations
are counted, the symbols of these have places that fit their field, and those of the others stay where they are. -/
structure Arrangeable (t : SymbolTable b) (rels : RelocationTable b) : Prop where
  counted : ∀ (k : Nat) (s : Symbol b), max 1 t.symbolCount ≤ k → t.data[k]? = some s → s.isLocal = false
  countable : rels.relocationCount < 2 ^ 31 ∨
    (t.data.take t.symbolCount).Pairwise fun s s' => s'.isLocal = true → s.isLocal = true
  room : ∀ (k : Nat) (e : Relocation b), rels.entries[k]? = some e → rSym e.rInfo < t.data.length →
    if k < rels.relocationCount then (order t).idxOf (rSym e.rInfo) < 2 ^ symBits b
    else (order t).idxOf (rSym e.rInfo) = rSym e.rInfo

end Claims

/-! ## The loop -/

section Loops

variable {α β : Type}

theorem scanFrom_append {stop : α → Bool} (xs : List α) (h : ∀ x ∈ xs, stop x = false) (i : Nat) (ys : List α) :
    scanFrom stop i (xs ++ ys) = scanFrom stop (i + xs.length) ys := by
  induction xs generalizing i with
  | nil => rfl
  | cons x xs ih =>
    rw [List.cons_append, scanFrom, h x List.mem_cons_self, if_neg Bool.false_ne_true,
      ih (fun y hy => h y (List.mem_cons_of_mem _ hy)), List.length_cons, Nat.add_assoc, Nat.add_comm 1]

theorem scanFrom_map (stop : α → Bool) (f : β → α) (i : Nat) (xs : List β) :
    scanFrom stop i (xs.map f) = scanFrom (stop ∘ f) i xs := by
  induction xs generalizing i with
  | nil => rfl
  | cons x xs ih =>
    rw [List.map_cons, scanFrom, scanFrom, ih]
    rfl

/-- The loop only looks at whether symbols are local. -/
theorem arrangeLoop_map (isLocal : α → Bool) (f : β → α) (count fuel first : Nat) (xs : List β)
    (notified : List (Nat × Nat)) :
    arrangeLoop isLocal count fuel first (xs.map f) notified =
      (arrangeLoop (isLocal ∘ f) count fuel first xs notified).map fun r => (r.1.map f, r.2) := by
  induction fuel generalizing first xs notified with
  | zero => rfl
  | succ fuel ih =>
    have hnot : ((!isLocal ·) ∘ f) = (!(isLocal ∘ f) ·) := rfl
    rw [arrangeLoop, arrangeLoop]
    simp only [← List.map_take, ← List.map_drop, scanFrom_map, hnot]
    have hswap : ∀ i j : Nat, swapCounted count i j (xs.map f) = (swapCounted count i j xs).map f := by
      intro i j
      rw [swapCounted, swapCounted, swapAt_map]
      split <;> rfl
    simp only [hswap, ih, apply_ite (Option.map _), Option.map_some]

variable {isLocal : α → Bool}

/-- A local symbol at the position is passed over. -/
theorem arrangeLoop_skip {count fuel : Nat} {front data : List α} (x : α) (more : List α) {notified : List (Nat × Nat)}
    (hdata : data.take count = front ++ x :: more) (hx : isLocal x = true) :
    arrangeLoop isLocal count (fuel + 1) front.length data notified =
      arrangeLoop isLocal count (fuel + 1) (front.length + 1) data notified := by
  have hhere : (front ++ x :: more).drop front.length = x :: more := List.drop_left
  have hnext : (front ++ x :: more).drop (front.length + 1) = more := by
    rw [← List.drop_drop, hhere, List.drop_one, List.tail_cons]
  have hscan : scanFrom (!isLocal ·) front.length (x :: more) = scanFrom (!isLocal ·) (front.length + 1) more := by
    rw [scanFrom, hx, Bool.not_true, if_neg Bool.false_ne_true]
  rw [arrangeLoop, arrangeLoop, hdata, hhere, hnext, hscan]

theorem arrangeLoop_end {back : List α} (front : List α) (hback : ∀ x ∈ back, isLocal x = false) (tail : List α)
    (notified : List (Nat × Nat)) (fuel : Nat) :
    arrangeLoop isLocal (front.length + back.length) (fuel + 1) front.length (front ++ (back ++ tail)) notified =
      some (front ++ (back ++ tail), notified, front.length) := by
  have htake : (front ++ (back ++ tail)).take (front.length + back.length) = front ++ back := by
    rw [← List.append_assoc]
    exact List.take_left' List.length_append
  have hfirst : scanFrom (!isLocal ·) front.length back = front.length := by
    cases back with
    | nil => rfl
    | cons x back =>
      rw [scanFrom, hback x List.mem_cons_self]
      rfl
  have hdrop : (front ++ back).drop (front.length + 1) = back.drop 1 := by
    rw [← List.drop_drop, List.drop_left]
  have hcurrent : scanFrom isLocal (front.length + 1) (back.drop 1) = front.length + 1 + (back.length - 1) := by
    have happend := scanFrom_append (back.drop 1) (fun x hx => hback x (List.mem_of_mem_drop hx)) (front.length + 1) []
    rw [List.append_nil, List.length_drop] at happend
    exact happend
  rw [arrangeLoop, htake, List.drop_left, hfirst, hdrop, hcurrent]
  exact if_neg (by omega)

/-- A local symbol takes the place of the first one that is not. -/
theorem arrangeLoop_trade {front back rest : List α} {q x : α} (hpos : 0 < front.length) (hq : isLocal q = false)
    (hback : ∀ y ∈ back, isLocal y = false) (hx : isLocal x = true) (tail : List α) (notified : List (Nat × Nat))
    (fuel : Nat) :
    arrangeLoop isLocal (front.length + (back.length + 1) + (rest.length + 1)) (fuel + 1) front.length
        (front ++ q :: (back ++ x :: (rest ++ tail))) notified =
      arrangeLoop isLocal (front.length + (back.length + 1) + (rest.length + 1)) fuel front.length
        (front ++ x :: (back ++ q :: (rest ++ tail)))
        (notified ++ [(front.length, front.length + 1 + back.length)]) := by
  have htake :
      (front ++ q :: (back ++ x :: (rest ++ tail))).take (front.length + (back.length + 1) + (rest.length + 1)) =
      front ++ q :: (back ++ x :: rest) := by
    rw [show front ++ q :: (back ++ x :: (rest ++ tail)) = (front ++ q :: (back ++ x :: rest)) ++ tail by
      simp only [List.append_assoc, List.cons_append]]
    exact List.take_left' (by simp only [List.length_append, List.length_cons]; omega)
  have hfirst : scanFrom (!isLocal ·) front.length (q :: (back ++ x :: rest)) = front.length := by
    rw [scanFrom, hq]
    rfl
  have hdrop : (front ++ q :: (back ++ x :: rest)).drop (front.length + 1) = back ++ x :: rest := by
    rw [← List.drop_drop, List.drop_left, List.drop_one, List.tail_cons]
  have hcurrent : scanFrom isLocal (front.length + 1) (back ++ x :: rest) = front.length + 1 + back.length := by
    rw [scanFrom_append back hback, scanFrom, hx, if_pos rfl]
  rw [arrangeLoop, htake, List.drop_left, hfirst, hdrop, hcurrent, if_pos (by omega), swapCounted, if_neg (by omega),
    swapAt_append]

/-- From symbols that are arranged and others that are still to come, the loop sifts these into their parts. -/
theorem arrangeLoop_spec (isLocal : α → Bool) (front back rest tail : List α) (notified : List (Nat × Nat))
    (fuel : Nat) (hpos : 0 < front.length) (hback : ∀ x ∈ back, isLocal x = false) (hfuel : rest.length < fuel) :
    ∃ swaps, arrangeLoop isLocal (front.length + back.length + rest.length) fuel front.length
          (front ++ (back ++ (rest ++ tail))) notified =
        some ((sift isLocal front back rest).1 ++ ((sift isLocal front back rest).2 ++ tail), notified ++ swaps,
          (sift isLocal front back rest).1.length) ∧
      Trades isLocal (front ++ (back ++ (rest ++ tail))) swaps ∧
      applySwaps (front ++ (back ++ (rest ++ tail))) swaps =
        (sift isLocal front back rest).1 ++ ((sift isLocal front back rest).2 ++ tail) := by
  induction rest generalizing front back fuel notified with
  | nil =>
    obtain ⟨fuel, rfl⟩ := Nat.exists_eq_add_one_of_ne_zero (by omega : fuel ≠ 0)
    refine ⟨[], ?_, trivial, rfl⟩
    rw [List.append_nil, List.nil_append]
    exact arrangeLoop_end front hback tail notified fuel
  | cons x rest ih =>
    rw [List.length_cons] at hfuel
    cases hx : isLocal x with
    | false =>
      have hnext := ih front (back ++ [x]) notified fuel hpos (by
        intro y hy
        rcases List.mem_append.mp hy with hy | hy
        · exact hback y hy
        · rw [List.mem_singleton.mp hy, hx]) (by omega)
      have hregroup : back ++ [x] ++ (rest ++ tail) = back ++ (x :: rest ++ tail) := by
        rw [List.append_assoc, List.singleton_append, List.cons_append]
      rw [hregroup, List.length_append, List.length_singleton] at hnext
      rw [sift, hx, if_neg Bool.false_ne_true, List.length_cons,
        show front.length + back.length + (rest.length + 1) = front.length + (back.length + 1) + rest.length by omega]
      exact hnext
    | true =>
      have hpos' : 0 < (front ++ [x]).length := by
        rw [List.length_append]
        omega
      rw [sift, hx, if_pos rfl]
      cases back with
      | nil =>
        obtain ⟨swaps, hloop, htrades, happly⟩ := ih (front ++ [x]) [] notified fuel hpos' hback (by omega)
        have hdata : front ++ [x] ++ ([] ++ (rest ++ tail)) = front ++ ([] ++ (x :: rest ++ tail)) := by
          simp only [List.append_assoc, List.nil_append, List.cons_append]
        rw [hdata] at hloop htrades happly
        refine ⟨swaps, ?_, htrades, happly⟩
        obtain ⟨fuel, rfl⟩ := Nat.exists_eq_add_one_of_ne_zero (by omega : fuel ≠ 0)
        rw [arrangeLoop_skip x rest ?_ hx]
        · rw [List.length_append, List.length_singleton, List.length_nil] at hloop
          rw [List.length_nil, List.length_cons, show front.length + 0 + (rest.length + 1) =
            front.length + 1 + 0 + rest.length by omega]
          exact hloop
        · rw [List.nil_append, List.cons_append, ← List.cons_append, ← List.append_assoc]
          exact List.take_left' (by rw [List.length_append, List.length_nil, List.length_cons]; omega)
      | cons q back =>
        have hq := hback q List.mem_cons_self
        have hback' : ∀ y ∈ back, isLocal y = false := fun y hy => hback y (List.mem_cons_of_mem _ hy)
        have hrotate : (q :: back).rotate 1 = back ++ [q] := by rw [List.rotate_cons_succ, List.rotate_zero]
        obtain ⟨fuel, rfl⟩ := Nat.exists_eq_add_one_of_ne_zero (by omega : fuel ≠ 0)
        obtain ⟨fuel, rfl⟩ := Nat.exists_eq_add_one_of_ne_zero (by omega : fuel ≠ 0)
        obtain ⟨swaps, hloop, htrades, happly⟩ := ih (front ++ [x]) (back ++ [q])
          (notified ++ [(front.length, front.length + 1 + back.length)]) (fuel + 1) hpos' (by
            intro y hy
            rcases List.mem_append.mp hy with hy | hy
            · exact hback' y hy
            · rw [List.mem_singleton.mp hy, hq]) (by omega)
        have hdata : front ++ [x] ++ (back ++ [q] ++ (rest ++ tail)) = front ++ x :: (back ++ q :: (rest ++ tail)) := by
          simp only [List.append_assoc, List.singleton_append]
        have hold : front ++ (q :: back ++ (x :: rest ++ tail)) = front ++ q :: (back ++ x :: (rest ++ tail)) := by
          simp only [List.cons_append]
        have hcount : (front ++ [x]).length + (back ++ [q]).length + rest.length =
            front.length + (back.length + 1) + (rest.length + 1) := by
          simp only [List.length_append, List.length_singleton]
          omega
        rw [hdata, hcount, List.length_append, List.length_singleton, List.append_assoc] at hloop
        rw [hdata] at htrades happly
        rw [hrotate, hold]
        refine ⟨(front.length, front.length + 1 + back.length) :: swaps, ?_, ?_, ?_⟩
        · rw [List.length_cons, List.length_cons, arrangeLoop_trade hpos hq hback' hx,
            arrangeLoop_skip x (back ++ q :: rest) ?_ hx]
          · exact hloop
          · rw [show front ++ x :: (back ++ q :: (rest ++ tail)) = (front ++ x :: (back ++ q :: rest)) ++ tail by
              simp only [List.append_assoc, List.cons_append]]
            exact List.take_left' (by simp only [List.length_append, List.length_cons]; omega)
        · refine ⟨by omega, ⟨q, ?_, hq⟩, ⟨x, ?_, hx⟩, ?_⟩
          · rw [List.getElem?_append_right le_rfl, Nat.sub_self]
            rfl
          · rw [List.getElem?_append_right (by omega), Nat.add_assoc, Nat.add_sub_cancel_left, Nat.add_comm,
              List.getElem?_cons_succ, List.getElem?_append_right le_rfl, Nat.sub_self]
            rfl
          · rw [swapAt_append]
            exact htrades
        · change applySwaps (swapAt _ front.length (front.length + 1 + back.length)) swaps = _
          rw [swapAt_append]
          exact happly

end Loops

/-! ## Symbols -/

section Symbols

variable {b : ElfBits} {t : SymbolTable b} {rels : RelocationTable b}

theorem isLocal_null (b : ElfBits) : Symbol.isLocal ({} : Symbol b) = true :=
  (by decide : decide ((0 : U8) >>> 4 &&& 15 = 0) = true)

theorem data_eq_map (t : SymbolTable b) : t.data = (List.range t.data.length).map (symbolAt t) := by
  apply List.ext_getElem
  · rw [List.length_map, List.length_range]
  · intro k hk _
    rw [List.getElem_map, List.getElem_range, symbolAt, List.getD_eq_getElem?_getD, List.getElem?_eq_getElem hk,
      Option.getD_some]

theorem range_split {c n : Nat} (h : c ≤ n) : List.range n = List.range c ++ List.range' c (n - c) := by
  have hall := List.range'_append_1 (s := 0) (m := c) (n := n - c)
  rw [Nat.zero_add, Nat.add_sub_cancel' h] at hall
  rw [List.range_eq_range', List.range_eq_range', hall]

theorem range_succ_eq (c : Nat) : List.range (c + 1) = 0 :: List.range' 1 c := by
  rw [List.range_eq_range', List.range'_succ]

/-- The null symbol is the first local one. -/
theorem sift_counted (hnull : t.data.head? = some {}) (c : Nat) :
    localAt t 0 = true ∧
      sift (localAt t) [] [] (List.range (c + 1)) = sift (localAt t) [0] [] (List.range' 1 c) := by
  have hzero : localAt t 0 = true := by
    rw [localAt, symbolAt, List.getD_eq_getElem?_getD, ← List.head?_eq_getElem?, hnull]
    exact isLocal_null b
  refine ⟨hzero, ?_⟩
  rw [range_succ_eq, sift, hzero, if_pos rfl]
  rfl

section

variable (h : t.WellFormed) (hnull : t.data.head? = some {})
include h hnull

/-- What is left of a table that begins with the null symbol. -/
theorem arrange_spec :
    ∃ swaps, t.arrangeLocalSymbols = some ⟨(order t).map (symbolAt t), swaps,
        BitVec.ofNat 32 (max 1 (sift (localAt t) [] [] (List.range t.symbolCount)).1.length)⟩ ∧
      Trades (localAt t) (List.range t.data.length) swaps ∧ applySwaps (List.range t.data.length) swaps = order t := by
  obtain ⟨hle, -⟩ := SymbolTable.symbolCount_le h
  have hloop : t.arrangeLocalSymbols = (arrangeLoop (localAt t) t.symbolCount (t.symbolCount + 1) 1
      (List.range t.data.length) []).map fun r => ⟨r.1.map (symbolAt t), r.2.1, BitVec.ofNat 32 r.2.2⟩ := by
    have hmap := arrangeLoop_map Symbol.isLocal (symbolAt t) t.symbolCount (t.symbolCount + 1) 1
      (List.range t.data.length) []
    rw [← data_eq_map] at hmap
    rw [SymbolTable.arrangeLocalSymbols, hmap, Option.map_map]
    rfl
  rw [hloop]
  cases hcount : t.symbolCount with
  | zero =>
    have horder : order t = List.range t.data.length := by
      rw [order, hcount, Nat.sub_zero, List.range_eq_range', List.range_eq_range']
      rfl
    rw [horder]
    exact ⟨[], rfl, trivial, rfl⟩
  | succ c =>
    obtain ⟨hzero, hsift⟩ := sift_counted hnull c
    obtain ⟨swaps, hrun, htrades, happly⟩ := arrangeLoop_spec (localAt t) [0] [] (List.range' 1 c)
      (List.range' (c + 1) (t.data.length - (c + 1))) [] (c + 1 + 1) Nat.one_pos (List.forall_mem_nil _)
      (by rw [List.length_range']; omega)
    have hlen : [0].length + ([] : List Nat).length + (List.range' 1 c).length = c + 1 := by
      rw [List.length_range', List.length_singleton, List.length_nil]
      omega
    have hdata : [0] ++ ([] ++ (List.range' 1 c ++ List.range' (c + 1) (t.data.length - (c + 1)))) =
        List.range t.data.length := by
      rw [range_split (by omega : c + 1 ≤ t.data.length), range_succ_eq]
      rfl
    have horder : (sift (localAt t) [0] [] (List.range' 1 c)).1 ++ ((sift (localAt t) [0] [] (List.range' 1 c)).2 ++
        List.range' (c + 1) (t.data.length - (c + 1))) = order t := by
      rw [order, hcount, partitioned, hsift, List.append_assoc]
    rw [hlen, hdata, horder, List.length_singleton, List.nil_append] at hrun
    rw [hdata] at htrades happly
    rw [horder] at happly
    refine ⟨swaps, ?_, htrades, happly⟩
    rw [hrun, hsift]
    have hleading := (sift_spec (p := localAt t) [0] [] (List.range' 1 c)
      (List.forall_mem_singleton.mpr hzero) (List.forall_mem_nil _)).1.length_le
    rw [List.length_singleton] at hleading
    rw [Nat.max_eq_right hleading]
    rfl

theorem order_perm : (order t).Perm (List.range t.data.length) := by
  obtain ⟨swaps, -, -, happly⟩ := arrange_spec h hnull
  rw [← happly]
  exact applySwaps_perm _ _

/-- The local symbols among the counted ones, the others, and what is not counted. -/
theorem arranged_parts :
    ∃ front back : List (Symbol b), (order t).map (symbolAt t) = front ++ (back ++ t.data.drop (max 1 t.symbolCount)) ∧
      front.length = max 1 (sift (localAt t) [] [] (List.range t.symbolCount)).1.length ∧
      front.length ≤ max 1 t.symbolCount ∧ (∀ s ∈ front, s.isLocal = true) ∧ (∀ s ∈ back, s.isLocal = false) ∧
      front.head? = t.data.head? := by
  obtain ⟨hle, -⟩ := SymbolTable.symbolCount_le h
  obtain ⟨rest, hrest⟩ : ∃ rest, t.data = {} :: rest := List.head?_eq_some_iff.mp hnull
  cases hcount : t.symbolCount with
  | zero =>
    refine ⟨[{}], [], ?_, rfl, le_rfl, ?_, List.forall_mem_nil _, ?_⟩
    · have horder : order t = List.range t.data.length := by
        rw [order, hcount, Nat.sub_zero, List.range_eq_range', List.range_eq_range']
        rfl
      rw [horder, ← data_eq_map, hrest]
      rfl
    · exact List.forall_mem_singleton.mpr (isLocal_null b)
    · rw [hnull]
      rfl
  | succ c =>
    obtain ⟨hzero, hsift⟩ := sift_counted hnull c
    obtain ⟨hleading, htrue, hfalse, hperm⟩ := sift_spec (p := localAt t) [0] [] (List.range' 1 c)
      (List.forall_mem_singleton.mpr hzero) (List.forall_mem_nil _)
    have hlen := hperm.length_eq
    rw [List.length_append, List.length_append, List.length_range', List.append_nil, List.length_singleton] at hlen
    have hpos := hleading.length_le
    rw [List.length_singleton] at hpos
    have htail : (List.range' (c + 1) (t.data.length - (c + 1))).map (symbolAt t) = t.data.drop (c + 1) := by
      have hall := data_eq_map t
      rw [range_split (by omega : c + 1 ≤ t.data.length), List.map_append] at hall
      refine (List.drop_left' ?_).symm.trans (congrArg (List.drop (c + 1)) hall.symm)
      rw [List.length_map, List.length_range]
    rw [hsift]
    refine ⟨(sift (localAt t) [0] [] (List.range' 1 c)).1.map (symbolAt t),
      (sift (localAt t) [0] [] (List.range' 1 c)).2.map (symbolAt t), ?_, ?_, ?_, ?_, ?_, ?_⟩
    · rw [order, hcount, partitioned, hsift, List.map_append, List.map_append, htail, List.append_assoc,
        Nat.max_eq_right (by omega)]
    · rw [List.length_map, Nat.max_eq_right hpos]
    · rw [List.length_map]
      omega
    · exact List.forall_mem_map.mpr htrue
    · exact List.forall_mem_map.mpr hfalse
    · obtain ⟨more, hmore⟩ := hleading
      rw [← hmore, List.head?_map, hrest]
      exact congrArg some (by rw [symbolAt, hrest]; rfl)

end

/-- Local symbols in front are all there are just when no other symbol is local. -/
theorem locals_first_iff {front : List (Symbol b)} (hfront : ∀ s ∈ front, s.isLocal = true)
    (others : List (Symbol b)) :
    ((front ++ others).Pairwise fun s s' => s'.isLocal = true → s.isLocal = true) ∧
        front.length = (front ++ others).findIdx (!·.isLocal) ↔
      ∀ s ∈ others, s.isLocal = false := by
  have hfind : (front ++ others).findIdx (!·.isLocal) = front.length + others.findIdx (!·.isLocal) := by
    rw [List.findIdx_append, List.findIdx_eq_length.mpr fun s hs => by rw [hfront s hs]; rfl, if_neg (lt_irrefl _),
      Nat.add_comm]
  rw [hfind, List.pairwise_append]
  constructor
  · rintro ⟨⟨-, hothers, -⟩, hinfo⟩
    cases others with
    | nil => exact List.forall_mem_nil _
    | cons s others =>
      have hs : s.isLocal = false := by
        rw [List.findIdx_cons] at hinfo
        cases hs : s.isLocal with
        | false => rfl
        | true =>
          rw [hs, Bool.not_true, cond_false] at hinfo
          omega
      refine List.forall_mem_cons.mpr ⟨hs, fun s' hs' => ?_⟩
      exact Bool.eq_false_iff.mpr fun hlocal => by
        have hfirst := (List.pairwise_cons.mp hothers).1 s' hs' hlocal
        exact absurd (hs.symm.trans hfirst) Bool.false_ne_true
  · intro hnone
    refine ⟨⟨List.pairwise_of_forall_mem_list fun s hs s' _ _ => hfront s hs, ?_, fun s hs s' _ _ => hfront s hs⟩, ?_⟩
    · exact List.pairwise_of_forall_mem_list fun s _ s' hs' hlocal =>
        absurd ((hnone s' hs').symm.trans hlocal) Bool.false_ne_true
    · cases others with
      | nil => rfl
      | cons s others =>
        rw [List.findIdx_cons, hnone s List.mem_cons_self]
        rfl

theorem localsFirst_iff (h : t.WellFormed) (hnull : t.data.head? = some {}) {swaps : List (Nat × Nat)}
    (happly : applySwaps (List.range t.data.length) swaps = order t) :
    LocalsFirst t ⟨(order t).map (symbolAt t), swaps,
        BitVec.ofNat 32 (max 1 (sift (localAt t) [] [] (List.range t.symbolCount)).1.length)⟩ ↔
      ∀ (k : Nat) (s : Symbol b), max 1 t.symbolCount ≤ k → t.data[k]? = some s → s.isLocal = false := by
  obtain ⟨front, back, hparts, hlen, hle, hfront, hback, hhead⟩ := arranged_parts h hnull
  have hcount := (SymbolTable.symbolCount_le h).2
  have hinfo : (BitVec.ofNat 32 (max 1 (sift (localAt t) [] [] (List.range t.symbolCount)).1.length)).toNat =
      front.length := by
    rw [← hlen, BitVec.toNat_ofNat]
    exact Nat.mod_eq_of_lt (by omega)
  have hiff := locals_first_iff hfront (back ++ t.data.drop (max 1 t.symbolCount))
  rw [← hparts] at hiff
  have htail : (∀ s ∈ back ++ t.data.drop (max 1 t.symbolCount), s.isLocal = false) ↔
      ∀ (k : Nat) (s : Symbol b), max 1 t.symbolCount ≤ k → t.data[k]? = some s → s.isLocal = false := by
    rw [List.forall_mem_append, and_iff_right hback]
    constructor
    · intro hall k s hk hs
      refine hall s (List.mem_iff_getElem?.mpr ⟨k - max 1 t.symbolCount, ?_⟩)
      rw [List.getElem?_drop, Nat.add_sub_cancel' hk, hs]
    · intro hall s hs
      obtain ⟨k, hk⟩ := List.mem_iff_getElem?.mp hs
      rw [List.getElem?_drop] at hk
      exact hall _ s (Nat.le_add_right _ _) hk
  rw [← htail, ← hiff]
  constructor
  · intro hall
    exact ⟨hall.locals, hinfo.symm.trans hall.info⟩
  · rintro ⟨hpairwise, hindex⟩
    have hswapped : applySwaps t.data swaps = (order t).map (symbolAt t) := by
      refine (congrArg (applySwaps · swaps) (data_eq_map t)).trans ?_
      rw [applySwaps_map, happly]
    refine ⟨hswapped.symm, ?_, ?_, hpairwise, hinfo.trans hindex⟩
    · dsimp only
      rw [← hswapped]
      exact applySwaps_perm _ _
    · dsimp only
      rw [hparts, List.head?_append, hhead, hnull, Option.some_or]

end Symbols

/-! ## Relocations -/

section Relocations

variable {b : ElfBits} {t : SymbolTable b} {rels : RelocationTable b} {swaps : List (Nat × Nat)}

theorem rType_lt (info : Word b) : rType info < 2 ^ typeBits b := by
  rw [rType, Nat.and_two_pow_sub_one_eq_mod]
  exact Nat.mod_lt _ (Nat.two_pow_pos _)

theorem rSym_lt (info : Word b) : rSym info < 2 ^ symBits b := by
  rw [rSym, Nat.and_two_pow_sub_one_eq_mod]
  exact Nat.mod_lt _ (Nat.two_pow_pos _)

section

variable {type : Nat} (h : type < 2 ^ typeBits b) (sym : Nat)
include h sym

theorem toNat_rInfo : (rInfo b type sym).toNat = sym % 2 ^ symBits b * 2 ^ typeBits b + type := by
  have hsym := Nat.mod_lt sym (Nat.two_pow_pos (symBits b))
  have hwidth : 2 ^ symBits b * 2 ^ typeBits b = 2 ^ b.width := by cases b <;> decide
  have hle : (sym % 2 ^ symBits b + 1) * 2 ^ typeBits b ≤ 2 ^ b.width := by
    rw [← hwidth]
    exact Nat.mul_le_mul_right _ hsym
  rw [Nat.add_one_mul] at hle
  rw [rInfo, ← Nat.shiftLeft_add_eq_or_of_lt h, Nat.shiftLeft_eq, BitVec.toNat_ofNat]
  exact Nat.mod_eq_of_lt (by omega)

theorem rSym_rInfo : rSym (rInfo b type sym) = sym % 2 ^ symBits b := by
  rw [rSym, toNat_rInfo h, Nat.and_two_pow_sub_one_eq_mod, Nat.shiftRight_eq_div_pow, Nat.mul_comm,
    Nat.mul_add_div (Nat.two_pow_pos _), Nat.div_eq_of_lt h, Nat.add_zero, Nat.mod_mod]

theorem rType_rInfo : rType (rInfo b type sym) = type := by
  rw [rType, toNat_rInfo h, Nat.and_two_pow_sub_one_eq_mod, Nat.mul_add_mod_self_right, Nat.mod_eq_of_lt h]

end

/-- What one swap does to a relocation: its symbol moves, as far as the field can say. -/
theorem updateSymbol_spec (first second : Nat) (e : Relocation b) :
    let e' := RelocationTable.updateSymbol first second e
    rSym e'.rInfo = (if rSym e.rInfo = first ∨ rSym e.rInfo = second
        then moved (rSym e.rInfo) (first, second) % 2 ^ symBits b else rSym e.rInfo) ∧
      e'.rOffset = e.rOffset ∧ e'.rAddend = e.rAddend ∧ rType e'.rInfo = rType e.rInfo := by
  intro e'
  have htype := rType_lt e.rInfo
  by_cases hfirst : rSym e.rInfo = first
  · have he' : e' = { e with rInfo := rInfo b (rType e.rInfo) second } := if_pos hfirst
    rw [he', if_pos (.inl hfirst), moved, if_pos hfirst]
    exact ⟨rSym_rInfo htype _, rfl, rfl, rType_rInfo htype _⟩
  · by_cases hsecond : rSym e.rInfo = second
    · have he' : e' = { e with rInfo := rInfo b (rType e.rInfo) first } := (if_neg hfirst).trans (if_pos hsecond)
      rw [he', if_pos (.inr hsecond), moved, if_neg hfirst, if_pos hsecond]
      exact ⟨rSym_rInfo htype _, rfl, rfl, rType_rInfo htype _⟩
    · have he' : e' = e := (if_neg hfirst).trans (if_neg hsecond)
      rw [he', if_neg (not_or.mpr ⟨hfirst, hsecond⟩)]
      exact ⟨rfl, rfl, rfl, rfl⟩

def updateAll (swaps : List (Nat × Nat)) (e : Relocation b) : Relocation b :=
  swaps.foldl (fun e swap => RelocationTable.updateSymbol swap.1 swap.2 e) e

theorem updateAll_spec (swaps : List (Nat × Nat)) (e : Relocation b) :
    rSym (updateAll swaps e).rInfo = followMod (2 ^ symBits b) swaps (rSym e.rInfo) ∧
      (updateAll swaps e).rOffset = e.rOffset ∧ (updateAll swaps e).rAddend = e.rAddend ∧
      rType (updateAll swaps e).rInfo = rType e.rInfo := by
  induction swaps generalizing e with
  | nil => exact ⟨rfl, rfl, rfl, rfl⟩
  | cons swap swaps ih =>
    obtain ⟨hsym, hoffset, haddend, htype⟩ := updateSymbol_spec swap.1 swap.2 e
    obtain ⟨ihsym, ihoffset, ihaddend, ihtype⟩ := ih (RelocationTable.updateSymbol swap.1 swap.2 e)
    refine ⟨?_, ihoffset.trans hoffset, ihaddend.trans haddend, ihtype.trans htype⟩
    refine ihsym.trans ?_
    rw [hsym]
    rfl

theorem take_update {α : Type} (f : α → α) (xs : List α) (k : Nat) :
    ((xs.take k).map f ++ xs.drop k).take k = (xs.take k).map f ∧
      ((xs.take k).map f ++ xs.drop k).drop k = xs.drop k := by
  rcases Nat.le_total k xs.length with h | h
  · have hlen : ((xs.take k).map f).length = k := by rw [List.length_map, List.length_take_of_le h]
    exact ⟨List.take_left' hlen, List.drop_left' hlen⟩
  · rw [List.drop_eq_nil_of_le h, List.append_nil]
    exact ⟨List.take_of_length_le (by rw [List.length_map]; exact List.length_take_le k xs),
      List.drop_eq_nil_of_le (by rw [List.length_map]; exact List.length_take_le k xs)⟩

/-- All swaps are done to every counted relocation, where that is defined. -/
theorem swapAll_spec (swaps : List (Nat × Nat)) (rels : RelocationTable b) :
    (rels.relocationCount < 2 ^ 31 ∨ swaps = [] → rels.swapAll swaps = some { rels with
        entries := (rels.entries.take rels.relocationCount).map (updateAll swaps) ++
          rels.entries.drop rels.relocationCount }) ∧
      (¬ (rels.relocationCount < 2 ^ 31 ∨ swaps = []) → rels.swapAll swaps = none) := by
  induction swaps generalizing rels with
  | nil =>
    refine ⟨fun _ => ?_, fun h => absurd (.inr rfl) h⟩
    have hid : (rels.entries.take rels.relocationCount).map (updateAll []) ++ rels.entries.drop rels.relocationCount =
        rels.entries := by
      rw [show (updateAll [] : Relocation b → Relocation b) = id from rfl, List.map_id, List.take_append_drop]
    rw [hid]
    rfl
  | cons swap swaps ih =>
    constructor
    · intro hor
      have hlt := hor.resolve_right (List.cons_ne_nil _ _)
      let next : RelocationTable b := { rels with
        entries := (rels.entries.take rels.relocationCount).map (RelocationTable.updateSymbol swap.1 swap.2) ++
          rels.entries.drop rels.relocationCount }
      have hswap : rels.swapSymbols swap = some next := if_neg (Nat.not_le.mpr hlt)
      have hnext := (ih next).1 (.inl hlt)
      obtain ⟨htake, hdrop⟩ :=
        take_update (RelocationTable.updateSymbol swap.1 swap.2) rels.entries rels.relocationCount
      change next.entries.take next.relocationCount = _ at htake
      change next.entries.drop next.relocationCount = _ at hdrop
      rw [htake, hdrop, List.map_map] at hnext
      rw [RelocationTable.swapAll, hswap]
      exact hnext
    · intro hnot
      have hge : 2 ^ 31 ≤ rels.relocationCount := Nat.not_lt.mp (not_or.mp hnot).1
      rw [RelocationTable.swapAll, RelocationTable.swapSymbols, if_pos hge]
      rfl

/-- The place of a symbol in the order is where the swaps take it. -/
theorem getElem?_order_iff (h : t.WellFormed) (hnull : t.data.head? = some {})
    (htrades : Trades (localAt t) (List.range t.data.length) swaps)
    (happly : applySwaps (List.range t.data.length) swaps = order t) {s : Nat} (hs : s < t.data.length) (p : Nat) :
    (order t).idxOf s = follow swaps s ∧ ((order t)[p]? = some s ↔ p = follow swaps s) := by
  have hplace := htrades.getElem?_follow s
  rw [happly, List.getElem?_range hs] at hplace
  have hnodup : (order t).Nodup := (order_perm h hnull).nodup_iff.mpr List.nodup_range
  have hindex : ∀ q : Nat, (order t)[q]? = some s → (order t).idxOf s = q := by
    intro q hq
    obtain ⟨hlt, rfl⟩ := List.getElem?_eq_some_iff.mp hq
    exact hnodup.idxOf_getElem q hlt
  refine ⟨hindex _ hplace, fun hp => (hindex p hp).symm.trans (hindex _ hplace), ?_⟩
  rintro rfl
  exact hplace

theorem getElem?_updated {rels : RelocationTable b} {k : Nat} {e : Relocation b} (he : rels.entries[k]? = some e)
    (swaps : List (Nat × Nat)) :
    ((rels.entries.take rels.relocationCount).map (updateAll swaps) ++ rels.entries.drop rels.relocationCount)[k]? =
      some (if k < rels.relocationCount then updateAll swaps e else e) := by
  obtain ⟨hk, -⟩ := List.getElem?_eq_some_iff.mp he
  split
  · next hlt =>
    rw [List.getElem?_append_left (by rw [List.length_map, List.length_take]; omega), List.getElem?_map,
      List.getElem?_take_of_lt hlt, he, Option.map_some]
  · next hge =>
    have hlen : ((rels.entries.take rels.relocationCount).map (updateAll swaps)).length = rels.relocationCount := by
      rw [List.length_map, List.length_take_of_le (by omega)]
    rw [List.getElem?_append_right (by omega), hlen, List.getElem?_drop, Nat.add_sub_cancel' (Nat.not_lt.mp hge), he]

/-- A relocation keeps its symbol just where the place of that fits the field, or is where it was. -/
theorem followsSymbols_iff (h : t.WellFormed) (hnull : t.data.head? = some {})
    (htrades : Trades (localAt t) (List.range t.data.length) swaps)
    (happly : applySwaps (List.range t.data.length) swaps = order t) (rels : RelocationTable b) :
    FollowsSymbols t.data.length swaps rels { rels with
        entries := (rels.entries.take rels.relocationCount).map (updateAll swaps) ++
          rels.entries.drop rels.relocationCount } ↔
      ∀ (k : Nat) (e : Relocation b), rels.entries[k]? = some e → rSym e.rInfo < t.data.length →
        if k < rels.relocationCount then (order t).idxOf (rSym e.rInfo) < 2 ^ symBits b
        else (order t).idxOf (rSym e.rInfo) = rSym e.rInfo := by
  have hsame : ∀ (k : Nat) (e : Relocation b), rels.entries[k]? = some e → rSym e.rInfo < t.data.length →
      ((order t)[rSym (if k < rels.relocationCount then updateAll swaps e else e).rInfo]? = some (rSym e.rInfo) ↔
        if k < rels.relocationCount then (order t).idxOf (rSym e.rInfo) < 2 ^ symBits b
        else (order t).idxOf (rSym e.rInfo) = rSym e.rInfo) := by
    intro k e _ hsym
    obtain ⟨hindex, -⟩ := getElem?_order_iff h hnull htrades happly hsym 0
    have hget := fun p => (getElem?_order_iff h hnull htrades happly hsym p).2
    rw [hget, hindex]
    split
    · rw [(updateAll_spec swaps e).1]
      constructor
      · intro heq
        rw [← heq]
        exact followMod_lt (rSym_lt e.rInfo)
      · exact htrades.followMod_eq (List.getElem?_range hsym) (rSym_lt e.rInfo)
    · exact eq_comm
  constructor
  · intro hall k e he hsym
    have hkeeps := hall.symbol k e _ he (getElem?_updated he swaps) hsym
    rw [happly] at hkeeps
    exact (hsame k e he hsym).mp hkeeps
  · intro hroom
    refine ⟨?_, ?_, ?_⟩
    · dsimp only
      rw [List.length_append, List.length_map, List.length_take, List.length_drop]
      omega
    · intro k e e' he he' hsym
      obtain rfl := Option.some.inj ((getElem?_updated he swaps).symm.trans he')
      rw [happly]
      exact (hsame k e he hsym).mpr (hroom k e he hsym)
    · intro k e e' he he'
      obtain rfl := Option.some.inj ((getElem?_updated he swaps).symm.trans he')
      split
      · exact (updateAll_spec swaps e).2
      · exact ⟨rfl, rfl, rfl⟩

/-- What is not counted stays where it is. -/
theorem order_beyond (t : SymbolTable b) {k : Nat} (hk : t.symbolCount ≤ k) (hlt : k < t.data.length) :
    (order t)[k]? = some k := by
  have hperm := (sift_spec (p := localAt t) [] [] (List.range t.symbolCount) (List.forall_mem_nil _)
    (List.forall_mem_nil _)).2.2.2
  have hlen : (partitioned (localAt t) (List.range t.symbolCount)).length = t.symbolCount := by
    rw [partitioned, hperm.length_eq, List.nil_append, List.nil_append, List.length_range]
  rw [order, List.getElem?_append_right (by omega), hlen, List.getElem?_range' (by omega)]
  exact congrArg some (by omega)

section

variable (h : t.WellFormed) (hnull : t.data.head? = some {})
include h hnull

/-- Swaps are reported just when the counted symbols are not in order. -/
theorem trades_nil_iff (htrades : Trades (localAt t) (List.range t.data.length) swaps)
    (happly : applySwaps (List.range t.data.length) swaps = order t) :
    swaps = [] ↔ (t.data.take t.symbolCount).Pairwise fun s s' => s'.isLocal = true → s.isLocal = true := by
  constructor
  · rintro rfl
    obtain ⟨front, back, hparts, -, -, hfront, hback, -⟩ := arranged_parts h hnull
    have hdata : t.data = front ++ back ++ t.data.drop (max 1 t.symbolCount) := by
      rw [List.append_assoc, ← hparts, ← happly]
      exact data_eq_map t
    have htake : t.data.take (max 1 t.symbolCount) = front ++ back := by
      refine List.append_cancel_right ((List.take_append_drop (max 1 t.symbolCount) t.data).trans hdata)
    have hpairwise : (front ++ back).Pairwise fun s s' => s'.isLocal = true → s.isLocal = true :=
      (locals_first_iff hfront _).mpr hback |>.1
    rw [← htake] at hpairwise
    exact hpairwise.sublist (List.take_sublist_take_left (Nat.le_max_right _ _))
  · intro hpairwise
    cases swaps with
    | nil => rfl
    | cons swap swaps =>
      obtain ⟨i, j⟩ := swap
      obtain ⟨hi, hj, hij, hrest⟩ := htrades.cons
      obtain ⟨-, ⟨a, ha, hpa⟩, ⟨c, hc, hpc⟩, -⟩ := id htrades
      rw [List.length_range] at hi hj
      obtain rfl := Option.some.inj ((List.getElem?_range hi).symm.trans ha)
      obtain rfl := Option.some.inj ((List.getElem?_range hj).symm.trans hc)
      have hmoved : moved j (i, j) = i := (if_neg (by omega)).trans (if_pos rfl)
      have hdown : follow ((i, j) :: swaps) j ≤ i := by
        have hat := (getElem?_moved (by rwa [List.length_range]) (by rwa [List.length_range]) hij j).trans hc
        rw [hmoved] at hat
        have hcmp := (hrest.follow_cmp hat).1 hpc
        change follow swaps (moved j (i, j)) ≤ i
        rw [hmoved]
        exact hcmp
      have hcounted : j < t.symbolCount := by
        by_contra hge
        have heq := (getElem?_order_iff h hnull htrades happly hj j).2.mp (order_beyond t (Nat.not_lt.mp hge) hj)
        omega
      have hlen : ∀ k < t.symbolCount, k < t.data.length → k < (t.data.take t.symbolCount).length := by
        intro k hk hk'
        rw [List.length_take]
        omega
      have hat : ∀ (k : Nat) (hk : k < t.data.length), symbolAt t k = t.data[k] := fun k hk => by
        rw [symbolAt, List.getD_eq_getElem?_getD, List.getElem?_eq_getElem hk, Option.getD_some]
      have hlocal := List.pairwise_iff_getElem.mp hpairwise i j (hlen i (by omega) hi) (hlen j hcounted hj) hij
      rw [List.getElem_take, List.getElem_take, ← hat i hi, ← hat j hj] at hlocal
      exact absurd (hpa.symm.trans (hlocal hpc)) Bool.false_ne_true

theorem KeepsMeaning.arrangeable (hkeeps : KeepsMeaning t rels) : Arrangeable t rels := by
  obtain ⟨swaps, harrange, htrades, happly⟩ := arrange_spec h hnull
  obtain ⟨hdefined, hundefined⟩ := swapAll_spec swaps rels
  obtain ⟨r, rels', hr, hrels, hfirst, hsame⟩ := hkeeps
  obtain rfl := Option.some.inj (harrange.symm.trans hr)
  have hor : rels.relocationCount < 2 ^ 31 ∨ swaps = [] := by
    by_contra hnot
    exact absurd ((hundefined hnot).symm.trans hrels) (Option.some_ne_none _).symm
  obtain rfl := Option.some.inj ((hdefined hor).symm.trans hrels)
  exact ⟨(localsFirst_iff h hnull happly).mp hfirst, hor.imp_right (trades_nil_iff h hnull htrades happly).mp,
    (followsSymbols_iff h hnull htrades happly rels).mp hsame⟩

theorem Arrangeable.keepsMeaning (hall : Arrangeable t rels) : KeepsMeaning t rels := by
  obtain ⟨swaps, harrange, htrades, happly⟩ := arrange_spec h hnull
  have hor := hall.countable.imp_right (trades_nil_iff h hnull htrades happly).mpr
  exact ⟨_, _, harrange, (swapAll_spec swaps rels).1 hor, (localsFirst_iff h hnull happly).mpr hall.counted,
    (followsSymbols_iff h hnull htrades happly rels).mpr hall.room⟩

end

/-- Arranging keeps the meaning of relocations just where all symbols behind the counted ones are global, and where
symbols are moved to can be said in a relocation. -/
theorem keepsMeaning_iff (t : SymbolTable b) (rels : RelocationTable b) (h : t.WellFormed)
    (hnull : t.data.head? = some {}) : KeepsMeaning t rels ↔ Arrangeable t rels :=
  ⟨KeepsMeaning.arrangeable h hnull, Arrangeable.keepsMeaning h hnull⟩

end Relocations

/-- A global symbol in front of a local one, and a relocation for it. -/
def globalFirst : SymbolTable .b32 × RelocationTable .b32 :=
  (⟨48, 16, [{}, { stName := 1, stInfo := 16 }, { stName := 3 }], fun _ => []⟩,
    ⟨false, 8, 8, [⟨4, rInfo .b32 2 1, 0⟩]⟩)

theorem keepsMeaning_iff_globalFirst :
    KeepsMeaning globalFirst.1 globalFirst.2 ∧
      globalFirst.1.arrangeLocalSymbols.map (fun r => (r.notified, r.shInfo)) = some ([(1, 2)], 2) := by
  refine ⟨(keepsMeaning_iff globalFirst.1 globalFirst.2 ⟨rfl, rfl⟩ rfl).mpr ⟨?_, .inl (by decide), ?_⟩, by decide⟩
  · intro k s hk hs
    have hlt := (List.getElem?_eq_some_iff.mp hs).1
    have hcount : globalFirst.1.symbolCount = 3 := by decide
    have hlen : globalFirst.1.data.length = 3 := by decide
    omega
  · intro k e he _
    obtain ⟨hlt, he⟩ := List.getElem?_eq_some_iff.mp he
    have hlen : globalFirst.2.entries.length = 1 := by decide
    obtain rfl : k = 0 := by omega
    have hsym : rSym e.rInfo = 1 := by
      rw [← he]
      exact (by decide : rSym (rInfo .b32 2 1) = 1)
    rw [hsym]
    decide

/-- The null symbol, global symbols and a local one. -/
def lastLocal (n : Nat) : List (Symbol .b64) := {} :: (List.replicate n { stInfo := 16 } ++ [{ stName := 1 }])

theorem length_lastLocal (n : Nat) : (lastLocal n).length = n + 2 := by
  rw [lastLocal, List.length_cons, List.length_append, List.length_replicate, List.length_singleton]

theorem not_keeps_lastLocal {t : SymbolTable .b64} {n : Nat} (hdata : t.data = lastLocal n) (h : t.WellFormed)
    (hcount : t.symbolCount ≤ n + 1) (rels : RelocationTable .b64) : ¬ KeepsMeaning t rels := by
  intro hkeeps
  have hnull : t.data.head? = some {} := by rw [hdata]; rfl
  have hlast : t.data[n + 1]? = some { stName := 1 } := by
    rw [hdata, lastLocal, List.getElem?_cons_succ, List.getElem?_append_right (by rw [List.length_replicate]),
      List.length_replicate, Nat.sub_self]
    rfl
  have hglobal := (hkeeps.arrangeable h hnull).counted (n + 1) _ (by omega) hlast
  exact absurd hglobal (by decide)

/-- So many symbols that their size does not fit in 32 bits: none is counted, and the local one stays behind all
others. -/
theorem many_symbols_not_kept :
    let t : SymbolTable .b64 := ⟨4294967304, 24, lastLocal 178956969, fun _ => []⟩
    t.WellFormed ∧ t.data.head? = some {} ∧ ¬ KeepsMeaning t ⟨false, 0, 16, []⟩ := by
  intro t
  have hlen : t.data.length = 178956971 := length_lastLocal 178956969
  have hformed : t.WellFormed := ⟨rfl, by rw [hlen]; rfl⟩
  have hcount : t.symbolCount = 0 := by
    rw [SymbolTable.symbolCount_eq hformed, hlen]
    rfl
  exact ⟨hformed, rfl, not_keeps_lastLocal rfl hformed (by rw [hcount]; exact Nat.zero_le _) _⟩

end Pepp.Elf

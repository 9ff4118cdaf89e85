import Pepp.Debug.Grammar

/-!
# What the parser accepts

Where every type in parentheses is a cast for the parser exactly when an operand
follows, and all casts are of one kind, each rule of the parser finds the longest
phrase of the grammar. Its memos hold such phrases, and a term from the cache is
the one that was asked for but for the formats of its constants.
-/

namespace Pepp.Debug

open Outcome Term

/-- A cast to a type of this name is of this kind. -/
def castKind (name : Text) : CastKind := if (primitiveFromString name).isSome then .direct else .indirect

/-- The rules that are tried at a position. -/
inductive Tried (toks : List Token) : Rule → Nat → Prop where
  | start : Tried toks .P7 0
  | lower {r r' : Rule} {i : Nat} (h : Tried toks r i) (hr : r.lower = some r') : Tried toks r' i
  | behind {r r' : Rule} {op : Operators} {i j : Nat} {lhs : Term} (h : Tried toks r i) (hr : r.lower = some r')
    (hop : op.rank = r.rank) (hlhs : Longest r' (toks.drop i) (.Literal op.text :: toks.drop j) lhs)
    (hj : j ≤ toks.length) : Tried toks r j
  | cast {i : Nat} (h : Tried toks .P1 i) : Tried toks .CAST i
  | casted {i j n : Nat} {name : Text} (h : Tried toks .CAST i) (hcast : (primitiveFromString name).isSome ∨ n = 1)
    (hdrop : toks.drop i = castTokens name n ++ toks.drop j) (hj : j ≤ toks.length) : Tried toks .P0 j
  | prefixed {i : Nat} {op : UnaryOperators} (h : Tried toks .P1 i)
    (hdrop : toks.drop i = .Literal op.text :: toks.drop (i + 1)) : Tried toks .P0 (i + 1)
  | operand {i : Nat} (h : Tried toks .P1 i) : Tried toks .P0 i
  | value {i : Nat} (h : Tried toks .P0 i) : Tried toks .VALUE i
  | among {r : Rule} {i : Nat} (h : Tried toks .VALUE i) (hr : r ∈ valueRules) : Tried toks r i
  | inner {i : Nat} (h : Tried toks .PAREN i) (hdrop : toks.drop i = .Literal ['('] :: toks.drop (i + 1)) :
    Tried toks .P7 (i + 1)

theorem Tried.le {toks : List Token} {r : Rule} {i : Nat} (h : Tried toks r i) : i ≤ toks.length := by
  have hlt : ∀ {i : Nat} {tok : Token}, toks.drop i = tok :: toks.drop (i + 1) → i + 1 ≤ toks.length := by
    intro i tok hdrop
    by_contra hle
    rw [List.drop_eq_nil_of_le (by omega)] at hdrop
    cases hdrop
  induction h with
  | start => exact Nat.zero_le _
  | behind _ _ _ _ hj => exact hj
  | casted _ _ _ hj => exact hj
  | prefixed _ hdrop => exact hlt hdrop
  | inner _ hdrop => exact hlt hdrop
  | lower _ _ ih | cast _ ih | operand _ ih | value _ ih | among _ _ ih => exact ih

/-- Tokens that the parser reads as the grammar does. -/
structure Regular (toks : List Token) (kind : CastKind) : Prop where
  /-- A position where a rule is tried fits into 16 bits, and so does the one behind the phrase that is found there. -/
  short : ∀ r i, Tried toks r i → i < 2 ^ 16 ∧
    ∀ j t, Longest r (toks.drop i) (toks.drop j) t → j ≤ toks.length → j < 2 ^ 16
  /-- A type in parentheses is a primitive or a name with one star exactly if it stands in front of an operand. -/
  casts : ∀ i name n ts, Tried toks .CAST i → toks.drop i = castTokens name n ++ ts →
    ((primitiveFromString name).isSome ∨ n = 1 ↔ ∃ rest t, Derives .P0 ts rest t)
  kinds : ∀ i name n ts rest t, Tried toks .CAST i → toks.drop i = castTokens name n ++ ts → Derives .P0 ts rest t →
    castKind name = kind

/-- The tokens of the lexer up to the one that no rule matches. -/
structure Reads (tokens : Nat → Token) (toks : List Token) : Prop where
  get : ∀ i (h : i < toks.length), tokens i = toks[i]
  only : .Eof ∉ toks
  stop : tokens toks.length = .Eof ∨ tokens toks.length = .Invalid

/-- A memo holds the longest phrase of its rule at its place. -/
structure Memo.Right (toks : List Token) (kind : CastKind) (m : Memo) (i j : Nat) : Prop where
  start : m.start = .ofNat 16 i
  stop : m.stop = .ofNat 16 j
  start_lt : i < 2 ^ 16
  stop_lt : j < 2 ^ 16
  stop_le : j ≤ toks.length
  longest : Longest m.rule (toks.drop i) (toks.drop j) m.term.erase
  casts : m.term.Casts kind

/-- Every memo for a constant, but for those that begin at a position, has one for a value by its side. -/
def PairedBut (p : Option U16) (memos : List Memo) : Prop :=
  ∀ m ∈ memos, m.rule = .CONSTANT → some m.start = p ∨ ∃ m' ∈ memos, m'.rule = .VALUE ∧ m'.start = m.start

structure Sound (toks : List Token) (kind : CastKind) (p : Option U16) (s : ParserState) : Prop where
  head : s.head ≤ toks.length
  memos : ∀ m ∈ s.memos, ∃ i j, m.Right toks kind i j
  paired : PairedBut p s.memos
  cache : ∀ c ∈ s.cache, c.Casts kind

/-- A phrase of a rule is found at a position, or it is something else that holds there. -/
def Finds (toks : List Token) (kind : CastKind) (r : Rule) (h : Nat) (other : Prop) (ret : Option Term)
    (s : ParserState) : Prop :=
  Sound toks kind none s ∧
    match ret with
    | some t => t.Casts kind ∧ Longest r (toks.drop h) (toks.drop s.head) t.erase
    | none => s.head = h ∧ other

/-- What a rule does from a position on. -/
def Answers (toks : List Token) (kind : CastKind) (r : Rule) (h : Nat) (ret : Option Term) (s : ParserState) : Prop :=
  Finds toks kind r h (∀ rest t, ¬Derives r (toks.drop h) rest t) ret s

section Steps

variable {tokens : Nat → Token} {toks : List Token} {kind : CastKind} {p : Option U16} {s : ParserState}

variable {i : Nat} {α : Type} {found : Token → Option α} {t : Term} {memos : List Memo} {m : Memo}
  {P : Option Term → ParserState → Prop}

theorem Sound.move (h : Sound toks kind p s) (hi : i ≤ toks.length) :
    Sound toks kind p { s with head := i } := ⟨hi, h.memos, h.paired, h.cache⟩

theorem matchToken_some {a : α} (h : found (tokens s.head) = some a) :
    matchToken tokens found s = .ok (some a) { s with head := s.head + 1 } := by
  rw [matchToken, get_bind_apply, h]
  rfl

theorem matchToken_none (h : found (tokens s.head) = none) : matchToken tokens found s = .ok none s := by
  rw [matchToken, get_bind_apply, h]
  rfl

/-- What `match` does: a token is there and of the kind, or the position stays. -/
def Matches {α : Type} (toks : List Token) (found : Token → Option α) (s : ParserState) (ret : Option α)
    (s' : ParserState) : Prop :=
  (∃ tok a, ret = some a ∧ toks.drop s.head = tok :: toks.drop s'.head ∧ found tok = some a ∧
    s' = { s with head := s.head + 1 } ∧ s.head + 1 ≤ toks.length) ∨
  ret = none ∧ s' = s ∧ ∀ tok more, toks.drop s.head = tok :: more → found tok = none

theorem returns_matchToken (hreads : Reads tokens toks) (heof : found .Eof = none) (hinvalid : found .Invalid = none)
    (hhead : s.head ≤ toks.length) : Returns (matchToken tokens found) s (Matches toks found s) := by
  obtain hlt | heq := Nat.lt_or_eq_of_le hhead
  · have hdrop := List.drop_eq_getElem_cons hlt
    have hget := hreads.get s.head hlt
    cases hfound : found toks[s.head] with
    | some a =>
      exact ⟨_, _, matchToken_some (by rw [hget, hfound]), .inl ⟨_, a, rfl, hdrop, hfound, rfl, hlt⟩⟩
    | none =>
      refine ⟨_, _, matchToken_none (by rw [hget, hfound]), .inr ⟨rfl, rfl, ?_⟩⟩
      intro tok more htok
      obtain ⟨rfl, -⟩ := List.cons.inj (hdrop.symm.trans htok)
      exact hfound
  · have hnone : found (tokens s.head) = none := by
      rw [heq]
      obtain hstop | hstop := hreads.stop
      · rw [hstop, heof]
      · rw [hstop, hinvalid]
    refine ⟨_, _, matchToken_none hnone, .inr ⟨rfl, rfl, ?_⟩⟩
    intro tok more htok
    rw [heq, List.drop_length] at htok
    cases htok

/-- A term is accepted as one that is the same but for formats. -/
theorem returns_accept (h : Sound toks kind p s) (ht : t.Casts kind) :
    Returns (accept t) s fun t' s' => t'.erase = t.erase ∧ t'.Casts kind ∧ Sound toks kind p s' ∧
      s'.head = s.head ∧ s'.memos = s.memos := by
  have hdefined : ¬∃ c ∈ s.cache, t.same c = none := by
    rintro ⟨c, hc, hnone⟩
    have hsome := same_defined ht (h.cache c hc)
    rw [hnone] at hsome
    cases hsome
  rw [accept]
  refine returns_get ?_
  rw [if_neg hdefined]
  cases hfind : s.cache.find? fun c => t.same c = some true with
  | some c =>
    have hsame := List.find?_some hfind
    have hmem := List.mem_of_find?_eq_some hfind
    exact ⟨c, s, rfl, (same_erase (of_decide_eq_true hsame)).symm, h.cache c hmem, h, rfl, rfl⟩
  | none =>
    refine ⟨t, _, rfl, rfl, ht, ⟨h.head, h.memos, h.paired, ?_⟩, rfl, rfl⟩
    intro c hc
    obtain rfl | hc := List.mem_cons.mp hc
    · exact ht
    · exact h.cache c hc

/-! ## Memos -/

theorem mem_insertMemo {m m' : Memo} (h : m' ∈ insertMemo memos m) : m' ∈ memos ∨ m' = m := by
  rw [insertMemo] at h
  split at h
  · exact .inl h
  · exact (List.mem_cons.mp h).symm

theorem insertMemo_keeps {m m' : Memo} (h : m' ∈ memos) : m' ∈ insertMemo memos m := by
  rw [insertMemo]
  split
  · exact h
  · exact List.mem_cons_of_mem _ h

theorem insertMemo_key (memos : List Memo) (m : Memo) :
    ∃ m' ∈ insertMemo memos m, m'.rule = m.rule ∧ m'.start = m.start := by
  rw [insertMemo]
  split
  · next h =>
    obtain ⟨m', hm', hrule, hstart, -⟩ := h
    exact ⟨m', hm', hrule, hstart⟩
  · exact ⟨m, List.mem_cons_self, rfl, rfl⟩

theorem matchAt_some {position : U16} {rule : Rule} {stop : U16} (h : matchAt memos position rule = some (t, stop)) :
    ∃ m ∈ memos, m.rule = rule ∧ m.start = position ∧ m.term = t ∧ m.stop = stop := by
  obtain ⟨m, hm, heq⟩ := Option.map_eq_some_iff.mp h
  obtain ⟨hmem, hfound⟩ := List.mem_filter.mp (List.argmin_mem hm)
  obtain ⟨hrule, hstart, -⟩ := of_decide_eq_true hfound
  obtain ⟨rfl, rfl⟩ := Prod.mk.inj heq
  exact ⟨m, hmem, hrule, hstart, rfl, rfl⟩

theorem matchAt_none {position : U16} {rule : Rule} (h : matchAt memos position rule = none) (hm : m ∈ memos)
    (hrule : m.rule = rule) (hstart : m.start = position) : m.stop.toNat < position.toNat := by
  rw [matchAt, Option.map_eq_none_iff, List.argmin_eq_none] at h
  by_contra hle
  have hmem : m ∈ memos.filter fun m => m.rule = rule ∧ m.start = position ∧ position.toNat ≤ m.stop.toNat :=
    List.mem_filter.mpr ⟨hm, decide_eq_true ⟨hrule, hstart, not_lt.mp hle⟩⟩
  rw [h] at hmem
  exact List.not_mem_nil hmem

theorem ofNat_inj {i j : Nat} (hi : i < 2 ^ 16) (hj : j < 2 ^ 16) (h : BitVec.ofNat 16 i = BitVec.ofNat 16 j) :
    i = j := by
  have hnat := congrArg BitVec.toNat h
  rwa [BitVec.toNat_ofNat, BitVec.toNat_ofNat, Nat.mod_eq_of_lt hi, Nat.mod_eq_of_lt hj] at hnat

/-- A phrase ends behind where it begins. -/
theorem Longest.lt {r : Rule} {i j : Nat} (h : Longest r (toks.drop i) (toks.drop j) t) (hj : j ≤ toks.length) :
    i < j := by
  have hlt := h.derives.length_lt
  rw [List.length_drop, List.length_drop] at hlt
  omega

/-- A memo is used as what it holds, and else the rule itself answers. -/
theorem returns_useMemo {r : Rule} {body : Nat → Parser (Option Term)} (hregular : Regular toks kind)
    (h : Sound toks kind none s) (htried : Tried toks r s.head)
    (hfound : ∀ t s', Answers toks kind r s.head (some t) s' → P (some t) s')
    (hbody : matchAt s.memos (.ofNat 16 s.head) r = none → Returns (body s.head) s P) :
    Returns (useMemo r body) s P := by
  rw [useMemo]
  refine returns_get ?_
  cases hmatch : matchAt s.memos (.ofNat 16 s.head) r with
  | none => exact hbody hmatch
  | some found =>
    obtain ⟨term, stop⟩ := found
    obtain ⟨m, hm, rfl, hstart, rfl, rfl⟩ := matchAt_some hmatch
    obtain ⟨i, j, hright⟩ := h.memos m hm
    obtain rfl : i = s.head :=
      ofNat_inj hright.start_lt (hregular.short _ _ htried).1 (hright.start.symm.trans hstart)
    have hstop : m.stop.toNat = j := by
      rw [hright.stop, BitVec.toNat_ofNat, Nat.mod_eq_of_lt hright.stop_lt]
    refine returns_set (returns_pure (hfound _ _ ⟨h.move (hstop.trans_le hright.stop_le), hright.casts, ?_⟩))
    change Longest _ _ (toks.drop m.stop.toNat) _
    rw [hstop]
    exact hright.longest

/-- What was found is remembered. -/
theorem Sound.insert {r : Rule} {q : Option U16} (hregular : Regular toks kind) (h : Sound toks kind p s)
    (htried : Tried toks r i) (hlongest : Longest r (toks.drop i) (toks.drop s.head) t.erase) (ht : t.Casts kind)
    (hpaired : PairedBut q (insertMemo s.memos ⟨r, .ofNat 16 i, .ofNat 16 s.head, t⟩)) :
    Sound toks kind q { s with memos := insertMemo s.memos ⟨r, .ofNat 16 i, .ofNat 16 s.head, t⟩ } := by
  refine ⟨h.head, ?_, hpaired, h.cache⟩
  intro m hm
  obtain hm | rfl := mem_insertMemo hm
  · exact h.memos m hm
  · obtain ⟨hi, hj⟩ := hregular.short r i htried
    exact ⟨i, s.head, rfl, rfl, hi, hj _ _ hlongest h.head, h.head, hlongest, ht⟩

theorem PairedBut.insert (h : PairedBut p memos) (hm : m.rule ≠ .CONSTANT) : PairedBut p (insertMemo memos m) := by
  intro m' hm' hrule
  obtain hm' | rfl := mem_insertMemo hm'
  · obtain hstart | ⟨m'', hm'', hvalue⟩ := h m' hm' hrule
    · exact .inl hstart
    · exact .inr ⟨m'', insertMemo_keeps hm'', hvalue⟩
  · exact absurd hrule hm

/-- The memo for a constant is the first one. -/
theorem PairedBut.insert_constant (h : PairedBut none memos) : PairedBut (some m.start) (insertMemo memos m) := by
  intro m' hm' hrule
  obtain hm' | rfl := mem_insertMemo hm'
  · obtain hstart | ⟨m'', hm'', hvalue⟩ := h m' hm' hrule
    · exact absurd hstart (Option.some_ne_none _)
    · exact .inr ⟨m'', insertMemo_keeps hm'', hvalue⟩
  · exact .inl rfl

/-- The memo for a value stands by the side of that for its constant. -/
theorem PairedBut.insert_value (h : PairedBut (some m.start) memos) (hm : m.rule = .VALUE) :
    PairedBut none (insertMemo memos m) := by
  intro m' hm' hrule
  obtain ⟨m₀, hm₀, hrule₀, hstart₀⟩ := insertMemo_key memos m
  obtain hm' | rfl := mem_insertMemo hm'
  · obtain hstart | ⟨m'', hm'', hvalue⟩ := h m' hm' hrule
    · exact .inr ⟨m₀, hm₀, hrule₀.trans hm, hstart₀.trans (Option.some_inj.mp hstart).symm⟩
    · exact .inr ⟨m'', insertMemo_keeps hm'', hvalue⟩
  · exact absurd (hm.symm.trans hrule) (by decide)

/-! ## Rules without others -/

theorem returns_memoize {r : Rule} (hregular : Regular toks kind) (h : Sound toks kind p s) (htried : Tried toks r i)
    (hlongest : Longest r (toks.drop i) (toks.drop s.head) t.erase) (ht : t.Casts kind)
    (hpaired : PairedBut none (insertMemo s.memos ⟨r, .ofNat 16 i, .ofNat 16 s.head, t⟩))
    (hfound : ∀ t s', Answers toks kind r i (some t) s' → P (some t) s') : Returns (memoize i r t) s P := by
  rw [memoize]
  refine returns_modify (returns_pure (hfound _ _ ?_))
  exact ⟨h.insert hregular htried hlongest ht hpaired, ht, hlongest⟩

/-- A new term is accepted and remembered. -/
theorem returns_record {r : Rule} (hregular : Regular toks kind) (h : Sound toks kind none s) (hr : r ≠ .CONSTANT)
    (htried : Tried toks r i) (hlongest : Longest r (toks.drop i) (toks.drop s.head) t.erase) (ht : t.Casts kind)
    (hfound : ∀ t s', Answers toks kind r i (some t) s' → P (some t) s') : Returns (accept t >>= memoize i r) s P := by
  refine returns_bind ((returns_accept h ht).mono ?_)
  rintro t' s' ⟨herase, ht', h', hhead, -⟩
  refine returns_memoize hregular h' htried ?_ ht' (h'.paired.insert hr) hfound
  rw [herase, hhead]
  exact hlongest

/-- What a rule has found is remembered for another one. -/
theorem returns_keep {r r' : Rule} {i : Nat} {t : Term} (hregular : Regular toks kind)
    (h : Answers toks kind r' i (some t) s) (hr : r ≠ .CONSTANT) (htried : Tried toks r i)
    (hlongest : Longest r' (toks.drop i) (toks.drop s.head) t.erase →
      Longest r (toks.drop i) (toks.drop s.head) t.erase) :
    Returns (memoize i r t) s (Answers toks kind r i) :=
  returns_memoize hregular h.1 htried (hlongest h.2.2) h.2.1 (h.1.paired.insert hr) fun _ _ hans => hans

/-- A rule that fails goes back. -/
theorem returns_rollback {r : Rule} {i : Nat} {other : Prop} (h : Sound toks kind none s)
    (hi : i ≤ toks.length) (hother : other) : Returns (rollback i) s (Finds toks kind r i other) := by
  rw [rollback]
  exact returns_modify (returns_pure ⟨h.move hi, rfl, hother⟩)

/-- A name of the debugger is found, or nothing has changed. -/
theorem returns_parseDebugIdentifier (hregular : Regular toks kind) (hreads : Reads tokens toks)
    (h : Sound toks kind none s) (htried : Tried toks .DEBUG_IDENT s.head) :
    Returns (parseDebugIdentifier tokens) s fun ret s' =>
      Answers toks kind .DEBUG_IDENT s.head ret s' ∧ (ret = none → s' = s) := by
  have hfound : ∀ t s', Answers toks kind .DEBUG_IDENT s.head (some t) s' →
      Answers toks kind .DEBUG_IDENT s.head (some t) s' ∧ (some t = none → s' = s) :=
    fun t _ hans => ⟨hans, fun hnone => absurd hnone (Option.some_ne_none t)⟩
  refine returns_useMemo hregular h htried hfound fun _ => ?_
  refine returns_bind ((returns_matchToken hreads rfl rfl h.head).mono ?_)
  rintro ret s' (⟨tok, name, rfl, hdrop, htok, rfl, hle⟩ | ⟨rfl, rfl, hother⟩)
  · cases tok with
    | DebugIdentifier name' =>
      obtain rfl : name' = name := Option.some_inj.mp htok
      refine returns_record hregular (h.move hle) (by decide) htried ?_ trivial hfound
      rw [hdrop]
      exact .debugIdent _ _
    | _ => cases htok
  · refine returns_pure ⟨⟨h, rfl, ?_⟩, fun _ => rfl⟩
    intro rest t h'
    obtain ⟨name, hts, -⟩ := h'.debugIdent_inv
    exact absurd (hother _ _ hts) (Option.some_ne_none _)

theorem returns_parseIdentifier (hregular : Regular toks kind) (hreads : Reads tokens toks)
    (h : Sound toks kind none s) (htried : Tried toks .IDENT s.head) :
    Returns (parseIdentifier tokens) s (Answers toks kind .IDENT s.head) := by
  refine returns_useMemo hregular h htried (fun _ _ hans => hans) fun _ => ?_
  refine returns_bind ((returns_matchToken hreads rfl rfl h.head).mono ?_)
  rintro ret s' (⟨tok, name, rfl, hdrop, htok, rfl, hle⟩ | ⟨rfl, rfl, hother⟩)
  · cases tok with
    | Identifier name' =>
      obtain rfl : name' = name := Option.some_inj.mp htok
      refine returns_record hregular (h.move hle) (by decide) htried ?_ trivial fun _ _ hans => hans
      rw [hdrop]
      exact .ident _ _
    | _ => cases htok
  · refine returns_pure ⟨h, rfl, ?_⟩
    intro rest t h'
    obtain ⟨name, hts, -⟩ := h'.ident_inv
    exact absurd (hother _ _ hts) (Option.some_ne_none _)

/-- Without a memo for a value there is none for a constant. -/
theorem Sound.no_constant (h : Sound toks kind none s)
    (hvalue : matchAt s.memos (.ofNat 16 s.head) .VALUE = none) :
    matchAt s.memos (.ofNat 16 s.head) .CONSTANT = none := by
  cases hmatch : matchAt s.memos (.ofNat 16 s.head) .CONSTANT with
  | none => rfl
  | some found =>
    obtain ⟨term, stop⟩ := found
    obtain ⟨m, hm, hrule, hstart, -, -⟩ := matchAt_some hmatch
    obtain hp | ⟨m', hm', hrule', hstart'⟩ := h.paired m hm hrule
    · exact absurd hp (Option.some_ne_none _)
    · obtain ⟨i, j, hright⟩ := h.memos m' hm'
      have hlt := hright.longest.lt hright.stop_le
      have hbehind := matchAt_none hvalue hm' hrule' (hstart'.trans hstart)
      rw [hright.stop, ← hstart, ← hstart', hright.start, BitVec.toNat_ofNat, BitVec.toNat_ofNat,
        Nat.mod_eq_of_lt hright.stop_lt, Nat.mod_eq_of_lt hright.start_lt] at hbehind
      omega

/-- What is found for a constant, whose memo waits for that for the value. -/
def FindsConstant (toks : List Token) (kind : CastKind) (h : Nat) (ret : Option Term) (s : ParserState) : Prop :=
  ∃ t, ret = some t ∧ Sound toks kind (some (.ofNat 16 h)) s ∧ t.Casts kind ∧
    Longest .CONSTANT (toks.drop h) (toks.drop s.head) t.erase

theorem returns_constant {format : Format} {type : Primitives} {value : U64} (hregular : Regular toks kind)
    (h : Sound toks kind none s) (htried : Tried toks .CONSTANT i)
    (hlongest : Longest .CONSTANT (toks.drop i) (toks.drop s.head) (.Constant .Dec (.fromBits type value))) :
    Returns (accept (.Constant format (.fromBits type value)) >>= memoize i .CONSTANT) s
      (FindsConstant toks kind i) := by
  have hcasts : (Term.Constant format (.fromBits type value)).Casts kind := trivial
  refine returns_bind ((returns_accept h hcasts).mono ?_)
  rintro t s' ⟨herase, ht, h', hhead, -⟩
  have hlongest' : Longest .CONSTANT (toks.drop i) (toks.drop s'.head) t.erase := by
    rw [herase, hhead]
    exact hlongest
  rw [memoize]
  refine returns_modify (returns_pure ?_)
  exact ⟨t, rfl, h'.insert hregular htried hlongest' ht h'.paired.insert_constant, ht, hlongest'⟩

theorem returns_parseConstant (hregular : Regular toks kind) (hreads : Reads tokens toks)
    (h : Sound toks kind none s) (htried : Tried toks .CONSTANT s.head)
    (hvalue : matchAt s.memos (.ofNat 16 s.head) .VALUE = none) :
    Returns (parseConstant tokens) s fun ret s' =>
      FindsConstant toks kind s.head ret s' ∨ ret = none ∧ Answers toks kind .CONSTANT s.head none s' := by
  rw [parseConstant]
  refine returns_get ?_
  dsimp only
  rw [h.no_constant hvalue]
  refine returns_bind ((returns_matchToken hreads rfl rfl h.head).mono ?_)
  rintro ret s₁ (⟨tok, ⟨format, value⟩, rfl, hdrop, htok, rfl, hle⟩ | ⟨rfl, rfl, hother⟩)
  · cases tok with
    | UnsignedConstant format' value' =>
      obtain ⟨rfl, rfl⟩ := Prod.mk.inj (Option.some_inj.mp htok)
      refine returns_bind ((returns_matchToken hreads rfl rfl hle).mono ?_)
      rintro ret s₂ (⟨tok, type, rfl, hdrop', htok', rfl, hle'⟩ | ⟨rfl, rfl, hother⟩)
      · cases tok with
        | TypeSuffix type' =>
          obtain rfl : type' = type := Option.some_inj.mp htok'
          refine (returns_constant hregular ((h.move hle).move hle') htried ?_).mono fun _ _ hfinds => .inl hfinds
          rw [hdrop, hdrop']
          exact .typed _ _ _ _
        | _ => cases htok'
      · refine (returns_constant hregular (h.move hle) htried ?_).mono fun _ _ hfinds => .inl hfinds
        rw [hdrop]
        refine .constant ?_
        intro type more hmore
        exact absurd (hother _ _ hmore) (Option.some_ne_none _)
    | _ => cases htok
  · refine returns_pure (.inr ⟨rfl, h, rfl, ?_⟩)
    intro rest t h'
    obtain ⟨format, value, hts, -⟩ | ⟨format, value, type, hts, -⟩ := h'.constant_inv
    · exact absurd (hother _ _ hts) (Option.some_ne_none _)
    · exact absurd (hother _ _ hts) (Option.some_ne_none _)

/-! ## Rules over others -/

/-- A rule answers as the grammar does wherever it is used from a position on. -/
def Parses (toks : List Token) (kind : CastKind) (x : Parser (Option Term)) (r : Rule) (h : Nat) : Prop :=
  ∀ s, Sound toks kind none s → h ≤ s.head → Tried toks r s.head → Returns x s (Answers toks kind r s.head)

theorem Parses.mono {x : Parser (Option Term)} {r : Rule} {h h' : Nat} (hx : Parses toks kind x r h) (hle : h ≤ h') :
    Parses toks kind x r h' := fun s hs hhead htried => hx s hs (hle.trans hhead) htried

section Nested

variable {p7 : Parser (Option Term)} {h turns : Nat}

/-- A given literal is there, or the position stays. -/
theorem returns_literal (hreads : Reads tokens toks) (text : Text) (hhead : s.head ≤ toks.length) :
    Returns (matchToken tokens (Token.literalOf? text)) s fun ret s' =>
      (ret = some () ∧ toks.drop s.head = .Literal text :: toks.drop (s.head + 1) ∧
        s' = { s with head := s.head + 1 } ∧ s.head + 1 ≤ toks.length) ∨
      ret = none ∧ s' = s ∧ ∀ more, toks.drop s.head ≠ .Literal text :: more := by
  refine (returns_matchToken hreads rfl rfl hhead).mono ?_
  rintro ret s' (⟨tok, ⟨⟩, rfl, hdrop, htok, rfl, hle⟩ | ⟨rfl, rfl, hother⟩)
  · cases tok with
    | Literal text' =>
      obtain rfl : text' = text := by
        by_contra hne
        rw [Token.literalOf?, if_neg hne] at htok
        cases htok
      exact .inl ⟨rfl, hdrop, rfl, hle⟩
    | _ => cases htok
  · refine .inr ⟨rfl, rfl, ?_⟩
    intro more hmore
    have hnone := hother _ _ hmore
    rw [Token.literalOf?, if_pos rfl] at hnone
    cases hnone

/-- What is found is an operand, an operator and what the operator asks for behind it. -/
theorem returns_parseBinaryInfix {valid : List InfixOperators} {parseLhs parseRhs : Parser (Option Term)} {r r' : Rule}
    {other : Prop} (hreads : Reads tokens toks) (hs : Sound toks kind none s)
    (hlhs : Returns parseLhs s (Answers toks kind r' s.head))
    (hnone : (∀ rest t, ¬Derives r' (toks.drop s.head) rest t) → other)
    (hstop : ∀ rest t, Longest r' (toks.drop s.head) rest t → (∀ op ∈ valid, ∀ more, rest ≠ .Literal op.text :: more) →
      other)
    (hop : ∀ s₁ lhs, ∀ op ∈ valid, Sound toks kind none s₁ → lhs.Casts kind →
      Longest r' (toks.drop s.head) (.Literal op.text :: toks.drop s₁.head) lhs.erase → s.head < s₁.head →
      Returns (parseOperand tokens s.head lhs parseRhs op) s₁ (Finds toks kind r s.head other)) :
    Returns (parseBinaryInfix tokens valid parseLhs parseRhs) s (Finds toks kind r s.head other) := by
  rw [parseBinaryInfix]
  refine returns_get (returns_bind (hlhs.mono ?_))
  rintro (_ | lhs) s₁ ⟨hs₁, hlhs⟩
  · exact returns_rollback hs₁ hs.head (hnone hlhs.2)
  · refine returns_bind ((returns_matchToken hreads rfl rfl hs₁.head).mono ?_)
    rintro ret s₂ (⟨tok, lit, rfl, hdrop, htok, rfl, hle⟩ | ⟨rfl, rfl, hother⟩)
    · cases tok with
      | Literal lit' =>
        obtain rfl : lit' = lit := Option.some_inj.mp htok
        have hlt := hlhs.2.lt hs₁.head
        have hback : (∀ op ∈ valid, lit' ≠ op.text) → other := by
          intro hlit
          refine hstop _ _ hlhs.2 fun op hop more heq => hlit op hop ?_
          rw [hdrop] at heq
          exact Token.Literal.inj (List.cons.inj heq).1
        dsimp only
        cases hfound : stringToBinaryInfix lit' with
        | none =>
          refine returns_rollback (hs₁.move hle) hs.head (hback fun op _ htext => ?_)
          rw [stringToBinaryInfix_eq_some_iff.mpr htext] at hfound
          cases hfound
        | some op =>
          obtain rfl := stringToBinaryInfix_eq_some_iff.mp hfound
          dsimp only
          split
          · next hvalid =>
            refine hop _ lhs op hvalid (hs₁.move hle) hlhs.1 ?_ (hlt.trans (Nat.lt_succ_self _))
            rw [← hdrop]
            exact hlhs.2
          · next hvalid =>
            refine returns_rollback (hs₁.move hle) hs.head (hback fun op' hop' htext => ?_)
            have hsame := stringToBinaryInfix_eq_some_iff.mpr htext
            rw [hfound] at hsame
            exact hvalid (Option.some_inj.mp hsame ▸ hop')
      | _ => cases htok
    · refine returns_rollback hs₁ hs.head (hstop _ _ hlhs.2 fun op _ more heq => ?_)
      exact absurd (hother _ _ heq) (Option.some_ne_none _)

theorem pointerTo_pointer (type : BoxedType Text) (n : Nat) :
    pointerTo (.pointer 2 type) n = .pointer 2 (pointerTo type n) := by
  induction n with
  | zero => rfl
  | succ n ih => rw [pointerTo, ih, pointerTo]

/-- All stars are read, and each of them makes the type one of pointers to it. -/
theorem returns_parseStars (hreads : Reads tokens toks) (hs : Sound toks kind none s) (type : BoxedType Text)
    (hturns : toks.length < s.head + turns) :
    Returns (parseStars tokens turns type) s fun type' s' => ∃ n, type' = pointerTo type n ∧
      toks.drop s.head = List.replicate n (.Literal ['*']) ++ toks.drop s'.head ∧ Sound toks kind none s' ∧
      s.head ≤ s'.head ∧ ∀ more, toks.drop s'.head ≠ .Literal ['*'] :: more := by
  induction turns generalizing s type with
  | zero =>
    have hhead := hs.head
    omega
  | succ turns ih =>
    rw [parseStars]
    refine returns_bind ((returns_literal hreads ['*'] hs.head).mono ?_)
    rintro ret s₁ (⟨rfl, hdrop, rfl, hle⟩ | ⟨rfl, rfl, hother⟩)
    · refine (ih (hs.move hle) (.pointer 2 type) (by dsimp only; omega)).mono ?_
      rintro type' s₂ ⟨n, rfl, hstars, hs₂, hle₂, hstop⟩
      refine ⟨n + 1, pointerTo_pointer type n, ?_, hs₂, (Nat.le_succ _).trans hle₂, hstop⟩
      rw [hdrop, hstars, List.replicate_succ, List.cons_append]
    · exact returns_pure ⟨0, rfl, rfl, hs, le_rfl, hother⟩

theorem prefixTerm_erase (op : UnaryOperators) (t : Term) :
    (if op = .DEREFERENCE then Term.MemoryRead t else .UnaryPrefix op t).erase = prefixTerm op t.erase := by
  rw [prefixTerm]
  split <;> rfl

theorem prefixTerm_casts {op : UnaryOperators} {t : Term} (h : t.Casts kind) :
    (if op = .DEREFERENCE then Term.MemoryRead t else .UnaryPrefix op t).Casts kind := by
  split <;> exact h

/-- An operand that stands alone. -/
theorem returns_operand {i : Nat} (hp0 : Returns (parseP0 tokens p7) s (Answers toks kind .P0 i))
    (hcast : ∀ rest t, ¬Derives .CAST (toks.drop i) rest t)
    (hsign : ∀ (op : UnaryOperators) (more : List Token), toks.drop i ≠ .Literal op.text :: more) :
    Returns (parseP0 tokens p7) s (Answers toks kind .P1 i) := by
  refine hp0.mono ?_
  rintro (_ | t) s' ⟨hs', hans⟩
  · refine ⟨hs', hans.1, ?_⟩
    intro rest t h'
    obtain h' | ⟨op, ts, t', heq, -, -⟩ | h' := h'.unary_inv
    · exact hcast rest t h'
    · exact hsign op ts heq
    · exact hans.2 rest t h'
  · exact ⟨hs', hans.1, hans.2.operand hcast hsign⟩

variable (hregular : Regular toks kind) (hreads : Reads tokens toks)
include hregular hreads

theorem parses_parseParened (hp7 : Parses toks kind p7 .P7 (h + 1)) :
    Parses toks kind (parseParened tokens p7) .PAREN h := by
  intro s hs hle htried
  refine returns_useMemo hregular hs htried (fun _ _ hans => hans) fun _ => ?_
  refine returns_bind ((returns_literal hreads ['('] hs.head).mono ?_)
  rintro ret s₁ (⟨rfl, hdrop, rfl, hlt⟩ | ⟨rfl, rfl, hother⟩)
  · refine returns_bind ((hp7 _ (hs.move hlt) (Nat.succ_le_succ hle) (htried.inner hdrop)).mono ?_)
    rintro (_ | inner) s₂ ⟨hs₂, hinner⟩
    · refine returns_rollback hs₂ hs.head ?_
      intro rest t h'
      obtain ⟨ts', t', heq, -, h'⟩ := h'.paren_inv
      rw [hdrop] at heq
      rw [← (List.cons.inj heq).2] at h'
      exact hinner.2 _ _ h'
    · refine returns_bind ((returns_literal hreads [')'] hs₂.head).mono ?_)
      rintro ret s₃ (⟨rfl, hdrop', rfl, hlt'⟩ | ⟨rfl, rfl, hother⟩)
      · refine returns_record hregular (hs₂.move hlt') (by decide) htried ?_ hinner.1 fun _ _ hans => hans
        rw [hdrop]
        refine .paren ?_
        rw [← hdrop']
        exact hinner.2
      · refine returns_rollback hs₂ hs.head ?_
        intro rest t h'
        obtain ⟨ts', t', heq, -, h'⟩ := h'.paren_inv
        rw [hdrop] at heq
        rw [← (List.cons.inj heq).2] at h'
        exact hother rest (hinner.2.eq_of_follows h' (follows_closing _ _)).1.symm
  · refine returns_rollback hs hs.head ?_
    intro rest t h'
    obtain ⟨ts', t', heq, -, -⟩ := h'.paren_inv
    exact hother ts' heq

theorem parses_parseValue (hp7 : Parses toks kind p7 .P7 (h + 1)) :
    Parses toks kind (parseValue tokens p7) .VALUE h := by
  intro s hs hle htried
  refine returns_useMemo hregular hs htried (fun _ _ hans => hans) fun hvalue => ?_
  refine returns_bind ((returns_parseDebugIdentifier hregular hreads hs (htried.among (by decide))).mono ?_)
  rintro (_ | reg) s₁ ⟨hdebug, hsame⟩
  · obtain rfl := hsame rfl
    refine returns_bind ((returns_parseConstant hregular hreads hs (htried.among (by decide)) hvalue).mono ?_)
    rintro ret s₂ (⟨constant, rfl, hs₂, ht, hlongest⟩ | ⟨rfl, hs₂, hhead₂, hconstant⟩)
    · exact returns_memoize hregular hs₂ htried (hlongest.value (by decide)) ht (hs₂.paired.insert_value rfl)
        fun _ _ hans => hans
    · refine returns_bind ((returns_parseIdentifier hregular hreads hs₂ ?_).mono ?_)
      · rw [hhead₂]
        exact htried.among (by decide)
      rw [hhead₂]
      rintro (_ | ident) s₃ hident
      · obtain ⟨hs₃, hhead₃, hident⟩ := hident
        have hparen := parses_parseParened hregular hreads hp7 s₃ hs₃ (hle.trans_eq hhead₃.symm)
        rw [hhead₃] at hparen
        refine returns_bind ((hparen (htried.among (by decide))).mono ?_)
        rintro (_ | par) s₄ hparen
        · obtain ⟨hs₄, hhead₄, hparen⟩ := hparen
          refine returns_pure ⟨hs₄, hhead₄, ?_⟩
          intro rest t h'
          obtain ⟨r, hr, h'⟩ := h'.value_inv
          rcases hr with _ | ⟨_, _ | ⟨_, _ | ⟨_, _ | ⟨_, ⟨⟩⟩⟩⟩⟩
          · exact hdebug.2.2 rest t h'
          · exact hconstant rest t h'
          · exact hident rest t h'
          · exact hparen rest t h'
        · exact returns_keep hregular hparen (by decide) htried fun hlongest => hlongest.value (by decide)
      · exact returns_keep hregular hident (by decide) htried fun hlongest => hlongest.value (by decide)
  · exact returns_keep hregular hdebug (by decide) htried fun hlongest => hlongest.value (by decide)

/-- No name is followed by an operator for members and a name. -/
def NoMember (ts : List Token) : Prop :=
  ∀ (op : MemberOperators) (lhs rhs : Text) (more : List Token),
    ts ≠ .Identifier lhs :: .Literal op.text :: .Identifier rhs :: more

theorem returns_member (hs : Sound toks kind none s) (htried : Tried toks .P0 s.head) :
    Returns (parseBinaryInfix tokens [.member .STAR_DOT, .member .DOT] (parseIdentifier tokens)
      (parseIdentifier tokens)) s (Finds toks kind .P0 s.head (NoMember (toks.drop s.head))) := by
  refine returns_parseBinaryInfix hreads hs (returns_parseIdentifier hregular hreads hs (htried.value.among (by decide)))
    ?_ ?_ ?_
  · intro hnone op lhs rhs more heq
    refine hnone (.Literal op.text :: .Identifier rhs :: more) (.Variable lhs) ?_
    rw [heq]
    exact .ident _ _
  · intro rest t hlongest hstop op lhs rhs more heq
    rw [heq] at hlongest
    obtain ⟨name, hname, -⟩ := hlongest.derives.ident_inv
    exact hstop (.member op) (by cases op <;> decide) _ (List.cons.inj hname).2.symm
  · intro s₁ lhs op hvalid hs₁ ht hlongest hlt
    obtain ⟨name, hname, herase⟩ := hlongest.derives.ident_inv
    cases op with
    | binary op => exact absurd hvalid (by simp)
    | member op =>
      refine returns_bind ((returns_matchToken hreads rfl rfl hs₁.head).mono ?_)
      rintro ret s₂ (⟨tok, rhs, rfl, hdrop, htok, rfl, hle⟩ | ⟨rfl, rfl, hother⟩)
      · cases tok with
        | Identifier rhs' =>
          obtain rfl : rhs' = rhs := Option.some_inj.mp htok
          have hcasts : (Term.MemberAccess op lhs rhs').Casts kind := ht
          refine returns_bind ((returns_accept (hs₁.move hle) hcasts).mono ?_)
          rintro t s₃ ⟨herase', ht, hs₃, hhead, -⟩
          refine returns_pure ⟨hs₃, ht, ?_⟩
          rw [herase', Term.erase, herase, hhead, hname, hdrop]
          exact .member _ _ _ _
        | _ => cases htok
      · refine returns_rollback hs₁ hs.head ?_
        intro op' lhs' rhs' more heq
        rw [hname] at heq
        exact absurd (hother _ _ (List.cons.inj (List.cons.inj heq).2).2) (Option.some_ne_none _)

theorem parses_parseP0 (hp7 : Parses toks kind p7 .P7 (h + 1)) : Parses toks kind (parseP0 tokens p7) .P0 h := by
  intro s hs hle htried
  refine returns_useMemo hregular hs htried (fun _ _ hans => hans) fun _ => ?_
  refine returns_bind ((returns_member hregular hreads hs htried).mono ?_)
  rintro (_ | memberAccess) s₁ hmember
  · obtain ⟨hs₁, hhead, hmember⟩ := hmember
    have hvalue := parses_parseValue hregular hreads hp7 s₁ hs₁ (hle.trans_eq hhead.symm)
    rw [hhead] at hvalue
    refine returns_bind ((hvalue htried.value).mono ?_)
    rintro (_ | value) s₂ hvalue
    · refine returns_rollback hvalue.1 hs.head ?_
      intro rest t h'
      obtain h' | ⟨op, lhs, rhs, heq, -⟩ := h'.primary_inv
      · exact hvalue.2.2 rest t h'
      · exact hmember op lhs rhs rest heq
    · exact returns_keep hregular hvalue (by decide) htried fun hlongest => hlongest.primary hmember
  · exact returns_keep hregular hmember (by decide) htried id

omit hreads in
/-- Behind a type there is an operand. -/
theorem returns_cast {x : Parser (Option Term)} {make : Term → Term} {name : Text} {n i : Nat}
    (hs : Sound toks kind none s) (hdrop : toks.drop i = castTokens name n ++ toks.drop s.head) (hi : i < s.head)
    (htried : Tried toks .CAST i) (hcast : (primitiveFromString name).isSome ∨ n = 1)
    (hx : Parses toks kind x .P0 (i + 1)) (herase : ∀ t, (make t).erase = castTerm name n t.erase)
    (hcasts : castKind name = kind → ∀ t, t.Casts kind → (make t).Casts kind) :
    Returns (x >>= fun arg => acceptOver make arg >>= memoize i .CAST) s (Answers toks kind .CAST i) := by
  obtain ⟨rest, t₀, hoperand⟩ := (hregular.casts i name n _ htried hdrop).mp hcast
  have hkind := hregular.kinds i name n _ rest t₀ htried hdrop hoperand
  have hle := hs.head
  refine returns_bind ((hx s hs hi (htried.casted hcast hdrop hs.head)).mono ?_)
  rintro (_ | arg) s' ⟨hs', harg⟩
  · exact absurd hoperand (harg.2 rest t₀)
  · refine returns_record hregular hs' (by decide) htried ?_ (hcasts hkind arg harg.1) fun _ _ hans => hans
    rw [herase, hdrop]
    exact harg.2.cast

theorem returns_parseDirectCast {name : Text} {prim : Primitives} {i : Nat} (hs : Sound toks kind none s)
    (hprim : primitiveFromString name = some prim)
    (hdrop : toks.drop i = .Literal ['('] :: .Identifier name :: toks.drop s.head) (hi : i < s.head)
    (htried : Tried toks .CAST i) (hturns : toks.length < turns)
    (hp0 : Parses toks kind (parseP0 tokens p7) .P0 (i + 1)) :
    Returns (parseDirectCast tokens turns p7 i prim) s (Answers toks kind .CAST i) := by
  have hle := hs.head
  refine returns_bind ((returns_parseStars hreads hs (.primitive prim) (by omega)).mono ?_)
  rintro type s₁ ⟨n, rfl, hstars, hs₁, hle₁, hstop⟩
  refine returns_bind ((returns_literal hreads [')'] hs₁.head).mono ?_)
  rintro ret s₂ (⟨rfl, hdrop₂, rfl, hlt₂⟩ | ⟨rfl, rfl, hother⟩)
  · have hcast : toks.drop i = castTokens name n ++ toks.drop (s₁.head + 1) := by
      rw [hdrop, hstars, hdrop₂, castTokens_append]
    have hsome : (primitiveFromString name).isSome = true := by
      rw [hprim]
      rfl
    refine returns_cast hregular (hs₁.move hlt₂) hcast (by dsimp only; omega) htried (.inl hsome) hp0 ?_ ?_
    · intro t
      rw [castTerm, hprim]
      rfl
    · intro hkind t ht
      rw [castKind, hprim] at hkind
      exact ⟨hkind.symm, ht⟩
  · refine returns_rollback hs₁ (by omega) ?_
    intro rest t h'
    obtain ⟨name', n', ts, t', heq, -, -⟩ := h'.cast_inv
    rw [hdrop, castTokens_append, hstars] at heq
    exact hother ts (stars_stop hstop (List.cons.inj (List.cons.inj heq).2).2).2

theorem returns_parseIndirectCast {name : Text} {i : Nat} (hs : Sound toks kind none s)
    (hprim : primitiveFromString name = none)
    (hdrop : toks.drop i = .Literal ['('] :: .Identifier name :: toks.drop s.head) (hi : i < s.head)
    (htried : Tried toks .CAST i) (hp0 : Parses toks kind (parseP0 tokens p7) .P0 (i + 1)) :
    Returns (parseIndirectCast tokens p7 i name) s (Answers toks kind .CAST i) := by
  have hle := hs.head
  -- A cast to a type of this name has one star.
  have hone : ∀ rest t, Derives .CAST (toks.drop i) rest t →
      ∃ ts, toks.drop s.head = .Literal ['*'] :: .Literal [')'] :: ts := by
    intro rest t h'
    obtain ⟨name', n, ts, t', heq, -, harg⟩ := h'.cast_inv
    have hcond := (hregular.casts i name' n ts htried heq).mpr ⟨rest, t', harg⟩
    rw [hdrop, castTokens_append] at heq
    obtain ⟨hname, hstars⟩ := List.cons.inj (List.cons.inj heq).2
    obtain rfl := Token.Identifier.inj hname
    rw [hprim] at hcond
    obtain hsome | rfl := hcond
    · cases hsome
    · exact ⟨ts, hstars⟩
  refine returns_bind ((returns_literal hreads ['*'] hs.head).mono ?_)
  rintro ret s₁ (⟨rfl, hdrop₁, rfl, hlt₁⟩ | ⟨rfl, rfl, hother⟩)
  · refine returns_bind ((returns_literal hreads [')'] hlt₁).mono ?_)
    rintro ret s₂ (⟨rfl, hdrop₂, rfl, hlt₂⟩ | ⟨rfl, rfl, hother⟩)
    · have hcast : toks.drop i = castTokens name 1 ++ toks.drop (s.head + 1 + 1) := by
        rw [hdrop, hdrop₁, hdrop₂]
        rfl
      refine returns_cast hregular ((hs.move hlt₁).move hlt₂) hcast (by dsimp only; omega) htried (.inr rfl) hp0 ?_ ?_
      · intro t
        rw [castTerm, hprim]
        rfl
      · intro hkind t ht
        rw [castKind, hprim] at hkind
        exact ⟨hkind.symm, ht⟩
    · refine returns_rollback (hs.move hlt₁) (by omega) ?_
      intro rest t h'
      obtain ⟨ts, hstars⟩ := hone rest t h'
      rw [hdrop₁] at hstars
      exact hother ts (List.cons.inj hstars).2
  · refine returns_rollback hs (by omega) ?_
    intro rest t h'
    obtain ⟨ts, hstars⟩ := hone rest t h'
    exact hother _ hstars

theorem parses_parseCast (hturns : toks.length < turns) (hp7 : Parses toks kind p7 .P7 (h + 1)) :
    Parses toks kind (parseCast tokens turns p7) .CAST h := by
  intro s hs hle htried
  have hp0 : Parses toks kind (parseP0 tokens p7) .P0 (s.head + 1) :=
    parses_parseP0 hregular hreads (hp7.mono (by omega))
  refine returns_useMemo hregular hs htried (fun _ _ hans => hans) fun _ => ?_
  refine returns_bind ((returns_literal hreads ['('] hs.head).mono ?_)
  rintro ret s₁ (⟨rfl, hdrop, rfl, hlt⟩ | ⟨rfl, rfl, hother⟩)
  · refine returns_bind ((returns_matchToken hreads rfl rfl hlt).mono ?_)
    rintro ret s₂ (⟨tok, name, rfl, hdrop', htok, rfl, hlt'⟩ | ⟨rfl, rfl, hother⟩)
    · cases tok with
      | Identifier name' =>
        obtain rfl : name' = name := Option.some_inj.mp htok
        have hopen : toks.drop s.head = .Literal ['('] :: .Identifier name' :: toks.drop (s.head + 1 + 1) := by
          rw [hdrop, hdrop']
        have hlt₂ : s.head < s.head + 1 + 1 := by omega
        dsimp only
        cases hprim : primitiveFromString name' with
        | some prim =>
          exact returns_parseDirectCast hregular hreads ((hs.move hlt).move hlt') hprim hopen hlt₂ htried hturns hp0
        | none => exact returns_parseIndirectCast hregular hreads ((hs.move hlt).move hlt') hprim hopen hlt₂ htried hp0
      | _ => cases htok
    · refine returns_rollback (hs.move hlt) hs.head ?_
      intro rest t h'
      obtain ⟨name, n, ts, t', heq, -, -⟩ := h'.cast_inv
      rw [hdrop, castTokens_append] at heq
      exact absurd (hother _ _ (List.cons.inj heq).2) (Option.some_ne_none _)
  · refine returns_rollback hs hs.head ?_
    intro rest t h'
    obtain ⟨name, n, ts, t', heq, -, -⟩ := h'.cast_inv
    rw [castTokens_append] at heq
    exact hother _ heq

theorem parses_parseP1 (hturns : toks.length < turns) (hp7 : Parses toks kind p7 .P7 (h + 1)) :
    Parses toks kind (parseP1 tokens turns p7) .P1 h := by
  intro s hs hle htried
  have hp0 : Parses toks kind (parseP0 tokens p7) .P0 s.head :=
    parses_parseP0 hregular hreads (hp7.mono (by omega))
  refine returns_useMemo hregular hs htried (fun _ _ hans => hans) fun _ => ?_
  refine returns_bind ((parses_parseCast hregular hreads hturns hp7 s hs hle htried.cast).mono ?_)
  rintro (_ | cast) s₁ hcast
  · obtain ⟨hs₁, hhead, hcast⟩ := hcast
    have hp0₁ := hp0 s₁ hs₁ hhead.ge
    rw [hhead] at hp0₁
    replace hp0₁ := hp0₁ htried.operand
    refine returns_bind ((returns_matchToken hreads rfl rfl hs₁.head).mono ?_)
    rintro ret s₂ (⟨tok, lit, rfl, hdrop, htok, rfl, hlt⟩ | ⟨rfl, rfl, hother⟩)
    · cases tok with
      | Literal lit' =>
        obtain rfl : lit' = lit := Option.some_inj.mp htok
        rw [hhead] at hdrop
        dsimp only at hdrop ⊢
        cases hop : stringToUnaryPrefix lit' with
        | none =>
          have hback : s.head ≤ toks.length := hs.head
          refine returns_bind ?_
          rw [rollback]
          refine returns_modify (returns_pure (returns_operand (hp0 _ (hs₁.move hback) le_rfl htried.operand) hcast ?_))
          intro op more heq
          rw [hdrop] at heq
          have htext := Token.Literal.inj (List.cons.inj heq).1
          rw [stringToUnaryPrefix_eq_some_iff.mpr htext] at hop
          cases hop
        | some op =>
          obtain rfl := stringToUnaryPrefix_eq_some_iff.mp hop
          have htried₁ : Tried toks .P0 (s₁.head + 1) := by
            rw [hhead]
            exact htried.prefixed hdrop
          refine returns_bind ((hp0 _ (hs₁.move hlt) (by dsimp only; omega) htried₁).mono ?_)
          dsimp only
          rw [hhead]
          rintro (_ | arg) s₃ ⟨hs₃, harg⟩
          · refine returns_rollback hs₃ hs.head ?_
            intro rest t h'
            rw [hdrop] at h' hcast
            obtain h' | ⟨op', ts, t', heq, -, h'⟩ | h' := h'.unary_inv
            · exact hcast rest t h'
            · rw [← (List.cons.inj heq).2] at h'
              exact harg.2 rest t' h'
            · exact op.text_ne_opening (h'.opening_of_literal rfl rfl)
          · refine returns_record hregular hs₃ (by decide) htried ?_ (prefixTerm_casts harg.1) fun _ _ hans => hans
            rw [prefixTerm_erase, hdrop]
            exact harg.2.prefixed
      | _ => cases htok
    · refine returns_operand hp0₁ hcast ?_
      intro op more heq
      rw [← hhead] at heq
      exact absurd (hother _ _ heq) (Option.some_ne_none _)
  · exact returns_keep hregular hcast (by decide) htried fun hlongest => hlongest.casted

end Nested

section Levels

variable {lower level : Parser (Option Term)} {valid : List Operators} {r r' : Rule} {h turns : Nat}

/-- The first of the two ways of a rule for binary operators. -/
theorem returns_operators (hreads : Reads tokens toks) (hlower : r.lower = some r')
    (hvalid : ∀ op, op ∈ valid ↔ op.rank = r.rank)
    (hs : Sound toks kind none s) (htried : Tried toks r s.head) (hlow : Parses toks kind lower r' s.head)
    (hlevel : Parses toks kind level r (s.head + 1)) :
    Returns (parseBinaryInfix tokens (valid.map .binary) lower level) s
      (Finds toks kind r s.head
        (∀ rest t, Derives r (toks.drop s.head) rest t → Derives r' (toks.drop s.head) rest t)) := by
  refine returns_parseBinaryInfix hreads hs (hlow s hs le_rfl (htried.lower hlower)) ?_ ?_ ?_
  · intro hnone rest t h'
    obtain h' | ⟨op, mid, lhs, rhs, -, hlhs, -, -⟩ := h'.infix_inv hlower
    · exact h'
    · exact absurd hlhs (hnone _ _)
  · intro rest t hlongest hstop rest' t' h'
    obtain h' | ⟨op, mid, rhs, hop, heq, -⟩ := hlongest.infix_cases hlower h'
    · exact h'
    · exact absurd heq (hstop (.binary op) (List.mem_map_of_mem ((hvalid op).mpr hop)) mid)
  · intro s₁ lhs op hmem hs₁ ht hlongest hlt
    obtain ⟨op, hop, rfl⟩ := List.mem_map.mp hmem
    have hrank := (hvalid op).mp hop
    refine returns_bind ((hlevel s₁ hs₁ hlt (htried.behind hlower hrank hlongest hs₁.head)).mono ?_)
    rintro (_ | rhs) s₂ ⟨hs₂, hrhs⟩
    · refine returns_rollback hs₂ hs.head ?_
      intro rest t h'
      obtain h' | ⟨op', mid, rhs, -, heq, h'⟩ := hlongest.infix_cases hlower h'
      · exact h'
      · rw [← (List.cons.inj heq).2] at h'
        exact absurd h' (hrhs.2 _ _)
    · have hcasts : (Term.BinaryInfix op lhs rhs).Casts kind := ⟨ht, hrhs.1⟩
      refine returns_bind ((returns_accept hs₂ hcasts).mono ?_)
      rintro t s₃ ⟨herase, ht, hs₃, hhead, -⟩
      refine returns_pure ⟨hs₃, ht, ?_⟩
      rw [herase, Term.erase, hhead]
      exact hlongest.binary hlower hrank hrhs.2

theorem parses_parseLevel (hregular : Regular toks kind) (hreads : Reads tokens toks) (hlower : r.lower = some r')
    (hvalid : ∀ op, op ∈ valid ↔ op.rank = r.rank) (hlow : Parses toks kind lower r' h)
    (hlevel : Parses toks kind level r (h + 1)) : Parses toks kind (parseLevel tokens r valid lower level) r h := by
  intro s hs hle htried
  have hr : r ≠ .CONSTANT := by
    rintro rfl
    cases hlower
  refine returns_useMemo hregular hs htried (fun _ _ hans => hans) fun _ => ?_
  have hoperators := returns_operators hreads hlower hvalid hs htried (hlow.mono hle) (hlevel.mono (by omega))
  refine returns_bind (hoperators.mono ?_)
  rintro (_ | maybeInfix) s₁ hinfix
  · obtain ⟨hs₁, hhead, honly⟩ := hinfix
    have hvalue := hlow s₁ hs₁ (hle.trans_eq hhead.symm)
    rw [hhead] at hvalue
    refine returns_bind ((hvalue (htried.lower hlower)).mono ?_)
    rintro (_ | value) s₂ hvalue
    · refine returns_rollback hvalue.1 hs.head ?_
      intro rest t h'
      exact hvalue.2.2 rest t (honly rest t h')
    · exact returns_keep hregular hvalue hr htried fun hlongest => hlongest.lift hlower honly
  · exact returns_keep hregular hinfix hr htried id

/-- Every rule for binary operators answers, as it calls itself from later positions on. -/
theorem parses_parseRule (hregular : Regular toks kind) (hreads : Reads tokens toks) (hturns : toks.length < turns)
    (fuel : Nat) (hfuel : toks.length < h + fuel) (hlower : r.lower = some r') :
    Parses toks kind (parseRule tokens turns fuel r) r h := by
  induction fuel generalizing h r r' with
  | zero =>
    intro s hs hle _
    have hhead := hs.head
    omega
  | succ fuel ih =>
    have hbehind : ∀ {r r' : Rule}, r.lower = some r' →
        Parses toks kind (parseRule tokens turns fuel r) r (h + 1) :=
      fun hlower => ih (by omega) hlower
    have h1 : Parses toks kind (parseP1 tokens turns (parseRule tokens turns fuel .P7)) .P1 h :=
      parses_parseP1 hregular hreads hturns (hbehind rfl)
    have h2 : Parses toks kind (parseP2 tokens turns (parseRule tokens turns fuel)) .P2 h :=
      parses_parseLevel hregular hreads rfl (fun op => by cases op <;> decide) h1 (hbehind rfl)
    have h3 : Parses toks kind (parseP3 tokens turns (parseRule tokens turns fuel)) .P3 h :=
      parses_parseLevel hregular hreads rfl (fun op => by cases op <;> decide) h2 (hbehind rfl)
    have h4 : Parses toks kind (parseP4 tokens turns (parseRule tokens turns fuel)) .P4 h :=
      parses_parseLevel hregular hreads rfl (fun op => by cases op <;> decide) h3 (hbehind rfl)
    have h5 : Parses toks kind (parseP5 tokens turns (parseRule tokens turns fuel)) .P5 h :=
      parses_parseLevel hregular hreads rfl (fun op => by cases op <;> decide) h4 (hbehind rfl)
    have h6 : Parses toks kind (parseP6 tokens turns (parseRule tokens turns fuel)) .P6 h :=
      parses_parseLevel hregular hreads rfl (fun op => by cases op <;> decide) h5 (hbehind rfl)
    have h7 : Parses toks kind (parseP7 tokens turns (parseRule tokens turns fuel)) .P7 h :=
      parses_parseLevel hregular hreads rfl (fun op => by cases op <;> decide) h6 (hbehind rfl)
    cases r with
    | P2 => exact h2
    | P3 => exact h3
    | P4 => exact h4
    | P5 => exact h5
    | P6 => exact h6
    | P7 => exact h7
    | _ => cases hlower

end Levels

end Steps

/-- The parser returns the term of the grammar if the tokens end where the text does, and no term if there is none. -/
theorem compileWith_of_reads {cache : List Term} {text : Text} {toks : List Token} {kind : CastKind}
    (hregular : Regular toks kind) (hreads : Reads (Lexer.mk text false).token toks)
    (hlength : toks.length ≤ text.length)
    (hcache : ∀ c ∈ cache, c.Casts kind) :
    ∃ ret, compileWith cache text = .ok ret ∧ ∀ t,
      (Lexer.mk text false).token toks.length = .Eof ∧ Derives .P7 toks [] t ↔ ∃ t', ret = some t' ∧ t'.erase = t := by
  have hstart : Sound toks kind none ⟨0, [], cache⟩ :=
    ⟨Nat.zero_le _, fun _ hm => absurd hm List.not_mem_nil, fun _ hm => absurd hm List.not_mem_nil, hcache⟩
  have hlower : Rule.P7.lower = some .P6 := rfl
  have hturns : toks.length < text.length + 2 := by omega
  have hparses :
      Parses toks kind (parseRule (Lexer.mk text false).token (text.length + 2) (text.length + 2) .P7) .P7 0 :=
    parses_parseRule hregular hreads hturns (text.length + 2) (by omega) hlower
  obtain ⟨ret, s, hrun, hs, hans⟩ := hparses _ hstart le_rfl .start
  have hcompile : compile text ⟨0, [], cache⟩ =
      if (Lexer.mk text false).token s.head = .Eof then .ok ret s else .ok none s := by
    rw [compile, bind_apply_ok hrun, get_bind_apply]
    split <;> rfl
  have houtcome : compileWith cache text = outcome (compile text ⟨0, [], cache⟩) := rfl
  rw [houtcome, hcompile]
  have hhead := hs.head
  have hdrop : toks.drop (ParserState.head ⟨0, [], cache⟩) = toks := rfl
  rw [hdrop] at hans
  cases ret with
  | none =>
    refine ⟨none, ?_, fun t => iff_of_false (fun hderives => hans.2 _ t hderives.2) ?_⟩
    · split <;> rfl
    · rintro ⟨t', hnone, -⟩
      cases hnone
  | some t' =>
    obtain ⟨-, hlongest⟩ := hans
    split
    · next heof =>
      have hend : s.head = toks.length := by
        by_contra hne
        have hlt : s.head < toks.length := by omega
        have hget := hreads.get s.head hlt
        rw [heof] at hget
        exact hreads.only (hget ▸ List.getElem_mem hlt)
      rw [hend, List.drop_length] at hlongest
      refine ⟨some t', rfl, fun t => ⟨fun hderives => ⟨t', rfl, ?_⟩, ?_⟩⟩
      · obtain ⟨-, heq⟩ | ⟨hlt, -⟩ | ⟨hlt, -⟩ := hlongest.derives.compare hderives.2
        · exact heq
        · exact absurd hlt (Nat.lt_irrefl _)
        · exact absurd hlt (Nat.lt_irrefl _)
      · rintro ⟨t'', heq, rfl⟩
        obtain rfl := Option.some_inj.mp heq
        exact ⟨hend ▸ heof, hlongest.derives⟩
    · next heof =>
      refine ⟨none, rfl, fun t => iff_of_false (fun hderives => heof ?_) ?_⟩
      · have hle := hlongest.longest hderives.2
        rw [List.length_drop, List.length_nil] at hle
        have hend : s.head = toks.length := by omega
        rw [hend]
        exact hderives.1
      · rintro ⟨t'', hnone, -⟩
        cases hnone

end Pepp.Debug

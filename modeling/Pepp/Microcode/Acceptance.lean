import Pepp.Microcode.Layout

/-!
# Which layouts the parser accepts

Clauses of ascending groups are always read back. So every line of the data
sections is, and a line of the control section unless `PreValid` puts clocks
into a clause that already has `MemRead` or `MemWrite`.
-/

namespace Pepp.Ucode

variable {S : Type} [Uarch S]

/-- The group that is open, and the clocks read in it. -/
structure Place where
  group : Nat := 0
  clocks : Nat := 0
  deriving DecidableEq

def Place.separate (S : Type) [Uarch S] (p : Place) : Separator → Option Place
  | .semicolon => if p.group + 1 < Uarch.maxSignalGroups S then some ⟨p.group + 1, 0⟩ else none
  | _ => some p

def Place.enter (p : Place) (group : Nat) : Option Place :=
  if group = p.group then some p else if p.clocks = 0 ∧ p.group ≤ group then some { p with group } else none

def Place.count (p : Place) (s : S) : Place := if Uarch.isClock s then { p with clocks := p.clocks + 1 } else p

/-- Where the parser is after an item, if it accepts it. -/
def Place.read (p : Place) (item : Separator × S) : Option Place :=
  (p.separate S item.1).bind fun p => (p.enter (Uarch.signalGroup item.2)).map (·.count item.2)

def Place.readAll (p : Place) (items : List (Separator × S)) : Option Place := items.foldlM Place.read p

/-- The parser accepts the layout of a line. -/
def Accepted [Uarch.Layout S] (c : CodeWithEnables S) : Prop := (Place.readAll {} (layout c)).isSome = true

namespace Place

variable {p : Place} {g : Nat} {clause : List S}

theorem readAll_cons (item : Separator × S) (items : List (Separator × S)) :
    p.readAll (item :: items) = (p.read item).bind fun p => p.readAll items := rfl

theorem readAll_append (items items' : List (Separator × S)) :
    p.readAll (items ++ items') = (p.readAll items).bind fun p => p.readAll items' := by
  rw [readAll, List.foldlM_append]
  rfl

theorem group_count (s : S) : (p.count s).group = p.group := by
  rw [count]
  split <;> rfl

theorem clocks_count (s : S) : (p.count s).clocks = p.clocks + if Uarch.isClock s then 1 else 0 := by
  rw [count]
  split <;> rfl

/-- Signals of the group that is open. -/
theorem readAll_same (hg : ∀ s ∈ clause, Uarch.signalGroup s = p.group) :
    p.readAll (clause.map (Separator.comma, ·)) = some ⟨p.group, p.clocks + clause.countP Uarch.isClock⟩ := by
  induction clause generalizing p with
  | nil => rfl
  | cons s clause ih =>
    have hread : p.read (.comma, s) = some (p.count s) := by
      have hsep : p.separate S .comma = some p := rfl
      rw [read, hsep, Option.bind_some, enter, if_pos (hg s List.mem_cons_self)]
      rfl
    rw [List.map_cons, readAll_cons, hread, Option.bind_some,
      ih fun s' hs' => (hg s' (List.mem_cons_of_mem _ hs')).trans (group_count s).symm, group_count, clocks_count,
      List.countP_cons, Nat.add_assoc, Nat.add_comm (List.countP _ _)]

/-- A clause of one group, entered from where nothing keeps that group from being opened. -/
theorem readAll_clause {q : Place} {first : Separator} (hne : clause ≠ [])
    (hg : ∀ s ∈ clause, Uarch.signalGroup s = g) (hq : p.separate S first = some q) (hclocks : q.clocks = 0)
    (hle : q.group ≤ g) : p.readAll (clauseItems first clause) = some ⟨g, clause.countP Uarch.isClock⟩ := by
  match clause, hne with
  | s :: clause, _ =>
    have hs := hg s List.mem_cons_self
    have henter : q.enter (Uarch.signalGroup s) = some ⟨g, 0⟩ := by
      rw [enter, hs]
      split
      · next heq => rw [heq, ← hclocks]
      · rw [if_pos ⟨hclocks, hle⟩, hclocks]
    have hread : p.read (first, s) = some (count ⟨g, 0⟩ s) := by rw [read, hq, Option.bind_some, henter]; rfl
    rw [clauseItems, readAll_cons, hread, Option.bind_some, readAll_same, group_count, clocks_count, List.countP_cons,
      Nat.zero_add, Nat.add_comm]
    · intro s' hs'
      rw [group_count]
      exact hg s' (List.mem_cons_of_mem _ hs')

/-- Clauses of ascending groups, after one of a lower group. -/
theorem readAll_ascending {graded : List (Nat × List S)}
    (hg : ∀ pair ∈ graded, pair.2 ≠ [] ∧ ∀ s ∈ pair.2, Uarch.signalGroup s = pair.1)
    (hlt : ∀ pair ∈ graded, p.group < pair.1) (hmax : ∀ pair ∈ graded, pair.1 < Uarch.maxSignalGroups S)
    (hasc : graded.Pairwise fun pair pair' => pair.1 < pair'.1) :
    (p.readAll ((graded.map Prod.snd).flatMap (clauseItems .semicolon))).isSome = true := by
  induction graded generalizing p with
  | nil => rfl
  | cons pair graded ih =>
    have hhead := List.forall_mem_cons.mp hg
    have hlthead := List.forall_mem_cons.mp hlt
    have hmaxhead := List.forall_mem_cons.mp hmax
    have hpairs := List.pairwise_cons.mp hasc
    have hsep : p.separate S .semicolon = some ⟨p.group + 1, 0⟩ := by
      rw [separate, if_pos (Nat.lt_of_le_of_lt hlthead.1 hmaxhead.1)]
    have hn := readAll_clause hhead.1.1 hhead.1.2 hsep rfl hlthead.1
    rw [List.map_cons, List.flatMap_cons, readAll_append, hn, Option.bind_some]
    exact ih hhead.2 hpairs.1 hmaxhead.2 hpairs.2

/-- Clauses of ascending groups. -/
theorem readAll_graded {graded : List (Nat × List S)}
    (hg : ∀ pair ∈ graded, pair.2 ≠ [] ∧ ∀ s ∈ pair.2, Uarch.signalGroup s = pair.1)
    (hmax : ∀ pair ∈ graded, pair.1 < Uarch.maxSignalGroups S)
    (hasc : graded.Pairwise fun pair pair' => pair.1 < pair'.1) :
    (readAll {} (items (graded.map Prod.snd))).isSome = true := by
  cases graded with
  | nil => rfl
  | cons pair graded =>
    have hhead := List.forall_mem_cons.mp hg
    have hpairs := List.pairwise_cons.mp hasc
    have hsep : ({} : Place).separate S .nothing = some {} := rfl
    have hn := readAll_clause hhead.1.1 hhead.1.2 hsep rfl (Nat.zero_le _)
    rw [List.map_cons, items, readAll_append, hn, Option.bind_some]
    exact readAll_ascending hhead.2 hpairs.1 (List.forall_mem_cons.mp hmax).2 hpairs.2

end Place

/-- A line whose clauses, the empty ones left out, belong to ascending groups. -/
theorem accepted_of_graded [Uarch.Layout S] {c : CodeWithEnables S} {graded : List (Nat × List S)}
    (hclauses : Uarch.Layout.clauses c = graded.map Prod.snd)
    (hg : ∀ pair ∈ graded, ∀ s ∈ pair.2, Uarch.signalGroup s = pair.1)
    (hmax : ∀ pair ∈ graded, pair.1 < Uarch.maxSignalGroups S)
    (hasc : graded.Pairwise fun pair pair' => pair.1 < pair'.1) : Accepted c := by
  have hfilter : nonempty (graded.map Prod.snd) = (graded.filter fun pair => !pair.2.isEmpty).map Prod.snd := by
    rw [nonempty, List.filter_map]
    rfl
  rw [Accepted, layout, hclauses, hfilter]
  refine Place.readAll_graded (fun pair hmem => ?_) (fun pair hmem => hmax pair (List.mem_filter.mp hmem).1)
    (hasc.filter _)
  obtain ⟨hmem, hne⟩ := List.mem_filter.mp hmem
  exact ⟨by simpa using hne, hg pair hmem⟩

theorem graded_filter {c : CodeWithEnables S} {l : List S} {g : Nat} (h : ∀ s ∈ l, Uarch.signalGroup s = g) :
    ∀ s ∈ l.filter (c.enabled ·), Uarch.signalGroup s = g :=
  fun s hs => h s (List.mem_filter.mp hs).1

theorem Pep9ByteBus.accepted (c : CodeWithEnables Pep9ByteBus.Signals) : Accepted c := by
  have hfront : ∀ s ∈ signals.take 11, Uarch.signalGroup s = 0 := by decide
  have hback : ∀ s ∈ signals.drop 11, Uarch.signalGroup s = 1 := by decide
  refine @accepted_of_graded _ _ _ c [(0, (signals.take 11).filter (c.enabled ·)),
    (1, (signals.drop 11).filter (c.enabled ·))] rfl ?_ ?_ (List.pairwise_pair.mpr Nat.one_pos)
  · exact List.forall_mem_cons.mpr ⟨graded_filter hfront, List.forall_mem_singleton.mpr (graded_filter hback)⟩
  · exact List.forall_mem_cons.mpr ⟨Nat.two_pos, List.forall_mem_singleton.mpr Nat.one_lt_two⟩

theorem Pep9WordBus.accepted (c : CodeWithEnables Pep9WordBus.Signals) : Accepted c := by
  have hfront : ∀ s ∈ signals.take 14, Uarch.signalGroup s = 0 := by decide
  have hback : ∀ s ∈ signals.drop 14, Uarch.signalGroup s = 1 := by decide
  refine @accepted_of_graded _ _ _ c [(0, (signals.take 14).filter (c.enabled ·)),
    (1, (signals.drop 14).filter (c.enabled ·))] rfl ?_ ?_ (List.pairwise_pair.mpr Nat.one_pos)
  · exact List.forall_mem_cons.mpr ⟨graded_filter hfront, List.forall_mem_singleton.mpr (graded_filter hback)⟩
  · exact List.forall_mem_cons.mpr ⟨Nat.two_pos, List.forall_mem_singleton.mpr Nat.one_lt_two⟩

namespace Pep9WordBusControl

/-- `PreValid` joins a clause with clocks to the clause before, which has clocks too. -/
def Clashes (c : CodeWithEnables Signals) : Prop :=
  c.enabled .PreValid = true ∧ (c.enabled .MemRead = true ∨ c.enabled .MemWrite = true) ∧
    ∃ s ∈ clocks, c.enabled s = true

instance (c : CodeWithEnables Signals) : Decidable (Clashes c) := by
  unfold Clashes
  infer_instance

theorem group_front : ∀ s ∈ front, Uarch.signalGroup s = 0 := by decide

theorem group_clocks : ∀ s ∈ clocks, Uarch.signalGroup s = 1 := by decide

theorem group_branches : ∀ s ∈ branches, Uarch.signalGroup s = 2 := by decide

theorem accepted_of_not_preValid {c : CodeWithEnables Signals} (h : c.enabled .PreValid = false) : Accepted c := by
  refine @accepted_of_graded _ _ _ c [(0, front.filter (c.enabled ·)), (1, clocks.filter (c.enabled ·)),
    (2, branches.filter (c.enabled ·))] ?_ ?_ ?_ ?_
  · change clauses c = _
    rw [clauses, h]
    rfl
  · exact List.forall_mem_cons.mpr ⟨graded_filter group_front, List.forall_mem_cons.mpr ⟨graded_filter group_clocks,
      List.forall_mem_singleton.mpr (graded_filter group_branches)⟩⟩
  · exact List.forall_mem_cons.mpr ⟨Nat.succ_pos 2, List.forall_mem_cons.mpr ⟨Nat.one_lt_succ_succ 1,
      List.forall_mem_singleton.mpr (Nat.lt_succ_self 2)⟩⟩
  · simp

/-- The clocks among the signals before the clock group. -/
theorem countP_front (c : CodeWithEnables Signals) :
    (front.filter (c.enabled ·)).countP Uarch.isClock = 0 ↔
      c.enabled .MemRead = false ∧ c.enabled .MemWrite = false := by
  rw [List.countP_eq_zero]
  constructor
  · intro h
    refine ⟨?_, ?_⟩
    · by_contra hon
      exact h .MemRead (List.mem_filter.mpr ⟨by decide, by simpa using hon⟩) rfl
    · by_contra hon
      exact h .MemWrite (List.mem_filter.mpr ⟨by decide, by simpa using hon⟩) rfl
  · rintro ⟨hread, hwrite⟩ s hs hclock
    obtain ⟨hs, hon⟩ := List.mem_filter.mp hs
    have hmem : ∀ s ∈ front, Uarch.isClock s = true → s = .MemRead ∨ s = .MemWrite := by decide
    rcases hmem s hs hclock with rfl | rfl
    · exact absurd hon (by rw [hread]; decide)
    · exact absurd hon (by rw [hwrite]; decide)

/-- With `PreValid` the first clause is read up to the clocks, which need a clause without clocks to leave. -/
theorem accepted_of_preValid {c : CodeWithEnables Signals} (h : c.enabled .PreValid = true) :
    Accepted c ↔ (front.filter (c.enabled ·)).countP Uarch.isClock = 0 ∨ clocks.filter (c.enabled ·) = [] := by
  have hlayout : layout c = clauseItems .nothing (front.filter (c.enabled ·) ++ [.PreValid]) ++
      clauseItems .comma (clocks.filter (c.enabled ·)) ++
      (nonempty [branches.filter (c.enabled ·)]).flatMap (clauseItems .semicolon) := by
    rw [← clauseItems_append _ _ (by simp), layout]
    change items (nonempty (clauses c)) = _
    rw [clauses, if_pos h, nonempty, List.filter_cons, if_pos (by simp), items, List.append_assoc]
    rfl
  have hfront : Place.readAll {} (clauseItems .nothing (front.filter (c.enabled ·) ++ [.PreValid])) =
      some ⟨0, (front.filter (c.enabled ·)).countP Uarch.isClock⟩ := by
    have hsep : ({} : Place).separate Signals .nothing = some {} := rfl
    rw [Place.readAll_clause (by simp) ?_ hsep rfl (Nat.le_refl 0), List.countP_append]
    · rfl
    · exact List.forall_mem_append.mpr ⟨graded_filter group_front, List.forall_mem_singleton.mpr rfl⟩
  -- The branches are always read, whichever of the groups before them is open.
  have hbranches : ∀ p : Place, p.group < 2 →
      (p.readAll ((nonempty [branches.filter (c.enabled ·)]).flatMap (clauseItems .semicolon))).isSome = true := by
    intro p hp
    cases hnil : branches.filter (c.enabled ·) with
    | nil => rfl
    | cons s branch =>
      refine @Place.readAll_ascending _ _ p [(2, s :: branch)] ?_ ?_ ?_ (List.pairwise_singleton _ _)
      · exact List.forall_mem_singleton.mpr ⟨List.cons_ne_nil _ _, hnil ▸ graded_filter group_branches⟩
      · exact List.forall_mem_singleton.mpr hp
      · exact List.forall_mem_singleton.mpr (Nat.lt_succ_self 2)
  rw [Accepted, hlayout, Place.readAll_append, Place.readAll_append, hfront, Option.bind_some]
  cases hclocks : clocks.filter (c.enabled ·) with
  | nil => exact iff_of_true (hbranches _ Nat.two_pos) (.inr rfl)
  | cons s clock =>
    by_cases hzero : (front.filter (c.enabled ·)).countP Uarch.isClock = 0
    · have hread := @Place.readAll_clause _ _ ⟨0, 0⟩ 1 (s :: clock) ⟨0, 0⟩ .comma (List.cons_ne_nil _ _)
        (hclocks ▸ graded_filter group_clocks) rfl rfl (Nat.zero_le 1)
      rw [hzero, hread, Option.bind_some]
      exact iff_of_true (hbranches _ Nat.one_lt_two) (.inl rfl)
    · have hs : Uarch.signalGroup s = 1 := by
        refine graded_filter (c := c) group_clocks s ?_
        rw [hclocks]
        exact List.mem_cons_self
      have hnone : Place.read ⟨0, (front.filter (c.enabled ·)).countP Uarch.isClock⟩ (.comma, s) = none := by
        have hsep : Place.separate Signals ⟨0, (front.filter (c.enabled ·)).countP Uarch.isClock⟩ .comma = some _ := rfl
        rw [Place.read, hsep, Option.bind_some, Place.enter, hs, if_neg Nat.one_ne_zero, if_neg fun h => hzero h.1]
        rfl
      rw [clauseItems, Place.readAll_cons, hnone]
      exact iff_of_false (by simp) (by simpa using hzero)

theorem accepted_iff (c : CodeWithEnables Signals) : Accepted c ↔ ¬Clashes c := by
  rw [Clashes]
  cases h : c.enabled .PreValid with
  | false => simpa using accepted_of_not_preValid h
  | true =>
    rw [accepted_of_preValid h, countP_front, List.filter_eq_nil_iff]
    simp only [true_and, not_and_or, not_or, not_exists, Bool.not_eq_true, imp_iff_not_or]

end Pep9WordBusControl

/-! ## Runs of the line loop

How the loop that reads a line ends does not depend on the number of turns it
may take, so a run is built turn by turn. The rules give the turn for each token
that can come next. -/

open Outcome

variable {S : Type} [Uarch S]

abbrev LineResult (S : Type) := EStateM.Result Failure MicroBuffer (Line S)

/-- The line, or what went wrong, and where the lexer is. -/
def LineResult.outcome {S : Type} : LineResult S → Except Failure (Line S) × MicroLexer
  | .ok line b => (.ok line, b.lexer)
  | .error e b => (.error e, b.lexer)

/-- With turns enough, the loop ends so. -/
def Loops (p : Progress S) (b : MicroBuffer) (r : LineResult S) : Prop :=
  (∃ turns, lineLoop turns p b = r) ∧ ∀ b', r ≠ .error .exhausted b'

theorem lineLoop_succ (turns : Nat) (p : Progress S) (b : MicroBuffer) :
    lineLoop (turns + 1) p b =
      if b.inputRemains = true then
        match turn p b with
        | .ok (.again p') b' => lineLoop turns p' b'
        | .ok (.done line) b' => .ok line b'
        | .error e b' => .error e b'
      else .ok p.code b := by
  rw [lineLoop_apply]
  split
  · cases hturn : turn p b with
    | ok t b' =>
      rw [bind_apply_ok hturn]
      cases t <;> rfl
    | error e b' => exact bind_apply_error hturn _
  · rfl

/-- More turns than needed change nothing. -/
theorem lineLoop_mono {turns turns' : Nat} {p : Progress S} {b : MicroBuffer} (hle : turns ≤ turns')
    (h : ∀ b', lineLoop turns p b ≠ .error .exhausted b') : lineLoop turns' p b = lineLoop turns p b := by
  induction turns generalizing turns' p b with
  | zero => exact absurd rfl (h b)
  | succ turns ih =>
    obtain ⟨turns', rfl⟩ : ∃ n, turns' = n + 1 := ⟨turns' - 1, by omega⟩
    rw [lineLoop_succ] at h ⊢
    rw [lineLoop_succ]
    split
    · next hremains =>
      rw [if_pos hremains] at h
      match hturn : turn p b with
      | .ok (.again p') b' =>
        rw [hturn] at h
        exact ih (by omega) h
      | .ok (.done line) b' => rfl
      | .error e b' => rfl
    · rfl

theorem nextLine_of_loops [Uarch.Lawful S] {l : MicroLexer} {r : LineResult S} (h : Loops {} (.ofLexer l) r) :
    nextLine l = LineResult.outcome r := by
  obtain ⟨⟨turns, hrun⟩, hr⟩ := h
  have hsize : size (.ofLexer l) < l.rest.length + 1 := by simp [size, Lex.Buffer.ofLexer]
  have hmeets := meets_lineLoop (b := .ofLexer l) (fun t ht => absurd ht List.not_mem_nil)
    (Progress.sound_start (S := S) l) hsize
  have hloop : lineLoop (S := S) (l.rest.length + 1) {} (.ofLexer l) = r := by
    rcases Nat.le_total turns (l.rest.length + 1) with hle | hle
    · rw [lineLoop_mono hle (by rw [hrun]; exact hr), hrun]
    · rw [← hrun]
      refine (lineLoop_mono hle fun b' hb' => ?_).symm
      exact (hmeets.error hb').2.2 rfl
  rw [nextLine, hloop]
  cases r <;> rfl

/-! ## One token at a time -/

variable {p p' : Progress S} {b b' : MicroBuffer} {matched : List Token} {t : Token} {l : MicroLexer} {r : LineResult S}

theorem inputRemains_of_fill (h : b.fill = ⟨matched, [t], l⟩) : b.inputRemains = true := by
  match b with
  | ⟨_, _ :: _, _⟩ => rfl
  | ⟨_, [], ⟨_, _ :: _⟩⟩ => rfl

section

variable (hb : b.fill = ⟨matched, [t], l⟩)
include hb

theorem Loops.again (hturn : turn p b = .ok (.again p') b') (h : Loops p' b' r) : Loops p b r := by
  obtain ⟨⟨turns, hrun⟩, hr⟩ := h
  refine ⟨⟨turns + 1, ?_⟩, hr⟩
  rw [lineLoop_succ, if_pos (inputRemains_of_fill hb), hturn]
  exact hrun

theorem Loops.done {line : Line S} (hturn : turn p b = .ok (.done line) b') : Loops p b (.ok line b') := by
  refine ⟨⟨1, ?_⟩, nofun⟩
  rw [lineLoop_succ, if_pos (inputRemains_of_fill hb), hturn]

theorem Loops.error {e : Failure} (hturn : turn p b = .error e b') (he : e ≠ .exhausted) : Loops p b (.error e b') := by
  refine ⟨⟨1, ?_⟩, fun b'' hr => he ?_⟩
  · rw [lineLoop_succ, if_pos (inputRemains_of_fill hb), hturn]
  · injection hr

theorem peek_fill : peek b = .ok (some t) ⟨matched, [t], l⟩ := by
  change EStateM.Result.ok b.fill.ahead.head? b.fill = _
  rw [hb]
  rfl

theorem matchAs_hit {α : Type} {kind : Token → Option α} {a : α} (ha : kind t = some a) :
    matchAs kind b = .ok (some a) ⟨matched ++ [t], [], l⟩ := by
  have hmatch : Lex.Buffer.matchAs kind b = (some a, ⟨matched ++ [t], [], l⟩) := by
    rw [Lex.Buffer.matchAs, hb]
    simp only [ha]
  rw [matchAs_apply, hmatch]

theorem matchAs_miss {α : Type} {kind : Token → Option α} (ha : kind t = none) :
    matchAs kind b = .ok none ⟨matched, [t], l⟩ := by
  have hmatch : Lex.Buffer.matchAs kind b = (none, ⟨matched, [t], l⟩) := by
    rw [Lex.Buffer.matchAs, hb]
    simp only [ha]
  rw [matchAs_apply, hmatch]

end

variable {message : String}

theorem expectLiteral_hit {c : Char} (hb : b.fill = ⟨matched, [.literal c], l⟩) :
    expectLiteral c message b = .ok () ⟨matched ++ [.literal c], [], l⟩ := by
  have hmatch : matchAs (Token.literal? c) b = _ := matchAs_hit hb (show Token.literal? c (.literal c) = some () by
    simp [Token.literal?])
  rw [expectLiteral, bind_apply_ok hmatch]
  rfl

theorem matchInteger_hit {value : Nat} {format : IntegerFormat} (hb : b.fill = ⟨matched, [.integer value format], l⟩) :
    matchAs Token.integer? b = .ok (some (value, format)) ⟨matched ++ [.integer value format], [], l⟩ :=
  matchAs_hit hb rfl

theorem expectInteger_hit {value : Nat} {format : IntegerFormat} (hb : b.fill = ⟨matched, [.integer value format], l⟩) :
    expectInteger message b = .ok (value, format) ⟨matched ++ [.integer value format], [], l⟩ := by
  rw [expectInteger, bind_apply_ok (matchInteger_hit hb)]
  rfl

theorem require_pos {condition : Prop} [Decidable condition] (h : condition) :
    require condition message b = .ok () b := by
  rw [require, if_pos h]
  rfl

theorem turn_code (hb : b.fill = ⟨matched, [t], l⟩) (htype : p.code.type = .Code)
    (ht : matched = [] → ∀ n, t ≠ .lineNumber n) :
    turn p b = codeTurn matched.isEmpty (some t) p ⟨matched, [t], l⟩ := by
  have hmatched : b.matched = matched := by rw [← Lex.Buffer.matched_fill, hb]
  rw [turn_apply, hb, hmatched, if_pos htype]
  cases matched with
  | cons t' matched => rfl
  | nil =>
    cases t with
    | lineNumber n => exact absurd rfl (ht rfl n)
    | _ => rfl

end Pepp.Ucode

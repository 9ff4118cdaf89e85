import Pepp.Microcode.SoundLines

/-!
# How a line is laid out

Signals are written in clauses. The text of a line is that of its signals in
turn, each with what separates it from the one before. Reading it back, the
parser follows the group that is open and the clocks read in it; the layout is
accepted when no signal is out of its group.
-/

namespace Pepp.Ucode

/-- What stands before a signal. -/
inductive Separator where
  | nothing
  | comma
  | semicolon
  deriving DecidableEq, Repr

def Separator.text : Separator → Text
  | nothing => []
  | comma => ", ".toList
  | semicolon => "; ".toList

variable {S : Type}

/-- The signals of a clause; `first` stands before the clause. -/
def clauseItems (first : Separator) : List S → List (Separator × S)
  | [] => []
  | s :: clause => (first, s) :: clause.map (.comma, ·)

/-- The signals of a line that has the given clauses, none of them empty. -/
def items : List (List S) → List (Separator × S)
  | [] => []
  | clause :: clauses => clauseItems .nothing clause ++ clauses.flatMap (clauseItems .semicolon)

/-- Drop the clauses without signals. -/
def nonempty {α : Type} (clauses : List (List α)) : List (List α) := clauses.filter (! ·.isEmpty)

/-! ## The text of a layout -/

def itemText (write : S → Text) (item : Separator × S) : Text := item.1.text ++ write item.2

theorem join_cons (sep part : Text) (parts : List Text) :
    join sep (part :: parts) = part ++ parts.flatMap (sep ++ ·) := by
  induction parts generalizing part with
  | nil => simp [join]
  | cons part' parts ih =>
    rw [join, List.intercalate_cons_of_ne_nil (List.cons_ne_nil _ _)]
    simpa [join] using ih part'

theorem clauseItems_text (write : S → Text) (first : Separator) {clause : List S} (h : clause ≠ []) :
    (clauseItems first clause).flatMap (itemText write) = first.text ++ join ", ".toList (clause.map write) := by
  match clause, h with
  | s :: clause, _ =>
    rw [List.map_cons, join_cons, clauseItems, List.flatMap_cons, itemText, List.append_assoc, List.flatMap_map,
      List.flatMap_map]
    rfl

theorem clauseItems_append (first : Separator) {clause : List S} (clause' : List S) (h : clause ≠ []) :
    clauseItems first (clause ++ clause') = clauseItems first clause ++ clauseItems .comma clause' := by
  cases clause with
  | nil => exact absurd rfl h
  | cons s clause =>
    rw [List.cons_append, clauseItems, clauseItems, List.map_append, List.cons_append]
    cases clause' <;> rfl

theorem items_text (write : S → Text) {clauses : List (List S)} (h : ∀ clause ∈ clauses, clause ≠ []) :
    (items clauses).flatMap (itemText write) =
      join "; ".toList (clauses.map fun clause => join ", ".toList (clause.map write)) := by
  match clauses with
  | [] => rfl
  | clause :: clauses =>
    have hclause := h clause List.mem_cons_self
    rw [items, List.flatMap_append, clauseItems_text write _ hclause, List.map_cons, join_cons, List.flatMap_assoc,
      List.flatMap_map]
    refine congrArg (_ ++ ·) (List.flatMap_congr fun clause' hclause' => ?_)
    rw [clauseItems_text write _ (h clause' (List.mem_cons_of_mem _ hclause'))]
    rfl

theorem separator_clauseItems {first : Separator} (h : first ≠ .nothing) (clause : List S) :
    ∀ item ∈ clauseItems first clause, item.1 ≠ .nothing := by
  cases clause with
  | nil => exact fun item hmem => absurd hmem List.not_mem_nil
  | cons s clause =>
    refine List.forall_mem_cons.mpr ⟨h, fun item hmem => ?_⟩
    obtain ⟨s', -, rfl⟩ := List.mem_map.mp hmem
    exact nofun

/-- Only the first signal of a line has nothing before it. -/
theorem items_cases {clauses : List (List S)} (h : ∀ clause ∈ clauses, clause ≠ []) :
    items clauses = [] ∨ ∃ s rest, items clauses = (.nothing, s) :: rest ∧ ∀ item ∈ rest, item.1 ≠ .nothing := by
  match clauses with
  | [] => exact .inl rfl
  | [] :: clauses => exact absurd rfl (h _ List.mem_cons_self)
  | (s :: clause) :: clauses =>
    refine .inr ⟨s, _, rfl, List.forall_mem_append.mpr ⟨fun item hmem => ?_, fun item hmem => ?_⟩⟩
    · obtain ⟨s', -, rfl⟩ := List.mem_map.mp hmem
      exact nofun
    · obtain ⟨clause', -, hitem⟩ := List.mem_flatMap.mp hmem
      exact separator_clauseItems (by decide) clause' item hitem

/-! ## The clauses of a line -/

/-- What is written of a signal. -/
def written [Uarch S] (c : CodeWithEnables S) (s : S) : Text := shown Uarch.name Uarch.isClock c s

/-- The clauses of a line in the order of its text, and that this is its text. -/
class Uarch.Layout (S : Type) [Uarch S] where
  clauses : CodeWithEnables S → List (List S)
  toText_eq : ∀ c : CodeWithEnables S,
    Uarch.toText c = join "; ".toList ((nonempty (clauses c)).map fun clause => join ", ".toList (clause.map (written c)))
  nodup : ∀ c : CodeWithEnables S, (clauses c).flatten.Nodup
  mem_iff : ∀ (c : CodeWithEnables S) (s : S), s ∈ (clauses c).flatten ↔ c.enabled s = true

/-- The items of a line. -/
def layout [Uarch S] [Uarch.Layout S] (c : CodeWithEnables S) : List (Separator × S) :=
  items (nonempty (Uarch.Layout.clauses c))

theorem nonempty_ne_nil {α : Type} {clauses : List (List α)} : ∀ clause ∈ nonempty clauses, clause ≠ [] := by
  intro clause hmem
  simpa using (List.mem_filter.mp hmem).2

theorem flatten_nonempty {α : Type} (clauses : List (List α)) : (nonempty clauses).flatten = clauses.flatten := by
  induction clauses with
  | nil => rfl
  | cons clause clauses ih =>
    cases clause with
    | nil => exact ih
    | cons a clause => exact congrArg ((a :: clause) ++ ·) ih

theorem map_snd_clauseItems (first : Separator) (clause : List S) :
    (clauseItems first clause).map Prod.snd = clause := by
  cases clause with
  | nil => rfl
  | cons s clause => simp [clauseItems]

theorem map_snd_items (clauses : List (List S)) : (items clauses).map Prod.snd = clauses.flatten := by
  cases clauses with
  | nil => rfl
  | cons clause clauses =>
    rw [items, List.map_append, map_snd_clauseItems, List.map_flatMap, List.flatten_cons, ← List.flatMap_id]
    exact congrArg (clause ++ ·) (List.flatMap_congr fun clause' _ => map_snd_clauseItems _ clause')

section Layout

variable [Uarch S] [Uarch.Layout S] (c : CodeWithEnables S)

theorem toText_layout : Uarch.toText c = (layout c).flatMap (itemText (written c)) := by
  rw [Uarch.Layout.toText_eq, layout, items_text _ nonempty_ne_nil]

theorem map_snd_layout : (layout c).map Prod.snd = (Uarch.Layout.clauses c).flatten := by
  rw [layout, map_snd_items, flatten_nonempty]

end Layout

namespace Clauses

variable {name : S → Text} {isClock : S → Bool} {c : CodeWithEnables S} {visit : Clauses → S → Clauses}

/-- The clauses in `done` are complete, and the signals in `group` are written into the next one. -/
def holding (write : S → Text) (done : List (List S)) (group : List S) : Clauses :=
  ⟨(nonempty done).map fun clause => join ", ".toList (clause.map write), group.map write⟩

theorem write_holding (done : List (List S)) (group : List S) (s : S) :
    (holding (shown name isClock c) done group).write name isClock c s =
      holding (shown name isClock c) done (group ++ [s].filter (c.enabled ·)) := by
  rw [write]
  split
  · next hs => simp [holding, hs]
  · next hs => simp [hs]

/-- Signals that are written into the clause that is open. -/
theorem foldl_write (done : List (List S)) (group : List S) {signals : List S}
    (h : ∀ s ∈ signals, ∀ a, visit a s = a.write name isClock c s) :
    signals.foldl visit (holding (shown name isClock c) done group) =
      holding (shown name isClock c) done (group ++ signals.filter (c.enabled ·)) := by
  induction signals generalizing group with
  | nil => rw [List.foldl_nil, List.filter_nil, List.append_nil]
  | cons s signals ih =>
    rw [List.foldl_cons, h s List.mem_cons_self, write_holding, ih _ fun s' hs' => h s' (List.mem_cons_of_mem _ hs'),
      List.append_assoc, ← List.filter_append, List.singleton_append]

theorem close_holding (write : S → Text) (done : List (List S)) (group : List S) :
    (holding write done group).close = holding write (done ++ [group]) [] := by
  rw [close, holding, holding, nonempty, nonempty, List.filter_append]
  cases group with
  | nil => simp
  | cons s group => simp

theorem text_holding (write : S → Text) (done : List (List S)) (group : List S) :
    (holding write done group).text =
      join "; ".toList ((nonempty (done ++ [group])).map fun clause => join ", ".toList (clause.map write)) := by
  rw [text, close_holding]
  rfl

end Clauses

end Pepp.Ucode

/-! ## The layouts of the three architectures

The data sections write the signals before the clocks in one clause and the
clocks in the next; the control section adds a clause for branches. `PreValid`
keeps the control section's first clause open, so that the clocks join it. -/

namespace Pepp.Ucode

open Clauses

section Data

variable {S : Type} [DecidableEq S] {name : S → Text} {isClock : S → Bool} {c : CodeWithEnables S}

/-- Visiting the signals of a data section, whose first clause ends with `last`. -/
theorem text_data {front back : List S} {last : S} (hfront : last ∉ front) (hback : last ∉ back) :
    ((front ++ last :: back).foldl (fun (a : Clauses) s =>
      if s = last then (a.write name isClock c s).close else a.write name isClock c s) {}).text =
      join "; ".toList ((nonempty [(front ++ [last]).filter (c.enabled ·), back.filter (c.enabled ·)]).map
        fun clause => join ", ".toList (clause.map (shown name isClock c))) := by
  have hwrite : ∀ {l : List S}, last ∉ l → ∀ s ∈ l, ∀ a : Clauses,
      (if s = last then (a.write name isClock c s).close else a.write name isClock c s) = a.write name isClock c s := by
    intro l hl s hs a
    rw [if_neg]
    rintro rfl
    exact hl hs
  have hstart : ({} : Clauses) = holding (shown name isClock c) [] [] := rfl
  rw [hstart, List.foldl_append, foldl_write _ _ (hwrite hfront), List.foldl_cons, if_pos rfl, write_holding,
    close_holding, foldl_write _ _ (hwrite hback), text_holding, List.nil_append, List.nil_append, List.nil_append,
    ← List.filter_append]
  rfl

end Data

theorem flatten_split (n : Nat) (p : α → Bool) (l : List α) :
    [(l.take n).filter p, (l.drop n).filter p].flatten = l.filter p := by
  rw [List.flatten_cons, List.flatten_cons, List.flatten_nil, List.append_nil, ← List.filter_append, List.take_append_drop]

instance : Uarch.Layout Pep9ByteBus.Signals where
  clauses c := [(Pep9ByteBus.signals.take 11).filter (c.enabled ·), (Pep9ByteBus.signals.drop 11).filter (c.enabled ·)]
  toText_eq c := @text_data _ _ _ _ c (Pep9ByteBus.signals.take 10) (Pep9ByteBus.signals.drop 11) .MDRMux (by decide) (by decide)
  nodup c := by
    rw [flatten_split]
    exact List.Nodup.filter _ (by decide)
  mem_iff c s := by
    rw [flatten_split, List.mem_filter]
    exact and_iff_right (Uarch.Lawful.mem_signals s)

instance : Uarch.Layout Pep9WordBus.Signals where
  clauses c := [(Pep9WordBus.signals.take 14).filter (c.enabled ·), (Pep9WordBus.signals.drop 14).filter (c.enabled ·)]
  toText_eq c := @text_data _ _ _ _ c (Pep9WordBus.signals.take 13) (Pep9WordBus.signals.drop 14) .MDREMux (by decide)
    (by decide)
  nodup c := by
    rw [flatten_split]
    exact List.Nodup.filter _ (by decide)
  mem_iff c s := by
    rw [flatten_split, List.mem_filter]
    exact and_iff_right (Uarch.Lawful.mem_signals s)

namespace Pep9WordBusControl

open Signals

/-- The signals before the clocks, in the order of the enumeration. -/
def front : List Signals := signals.take 14

def clocks : List Signals := (signals.drop 14).take 9

def branches : List Signals := signals.drop 24

/-- With `PreValid` on the line the clocks share the clause of the signals before them. -/
def clauses (c : CodeWithEnables Signals) : List (List Signals) :=
  if c.enabled PreValid then
    [front.filter (c.enabled ·) ++ PreValid :: clocks.filter (c.enabled ·), branches.filter (c.enabled ·)]
  else [front.filter (c.enabled ·), clocks.filter (c.enabled ·), branches.filter (c.enabled ·)]

theorem visit_write {c : CodeWithEnables Signals} {s : Signals} (a : Clauses) (h : s ≠ PreValid) (h' : s ≠ MDREMux)
    (h'' : s ≠ MDRECk) : visit c a s = a.write name isClock c s := by
  rw [visit, if_neg h, if_neg fun hs => h' hs.1, if_neg h', if_neg h'']

theorem text_clauses (c : CodeWithEnables Signals) :
    (signals.foldl (visit c) {}).text =
      join "; ".toList ((nonempty (clauses c)).map fun clause => join ", ".toList (clause.map (shown name isClock c))) := by
  have hsplit : signals = front.take 13 ++ MDREMux :: (clocks.take 8 ++ MDRECk :: PreValid :: branches) := rfl
  have hfront : front.take 13 ++ [MDREMux] = front := rfl
  have hclocks : clocks.take 8 ++ [MDRECk] = clocks := rfl
  have hwrite : ∀ l : List Signals, PreValid ∉ l → MDREMux ∉ l → MDRECk ∉ l →
      ∀ s ∈ l, ∀ a, visit c a s = a.write name isClock c s := by
    intro l h h' h'' s hs a
    refine visit_write a ?_ ?_ ?_ <;> rintro rfl <;> contradiction
  have hstart : ({} : Clauses) = holding (shown name isClock c) [] [] := rfl
  have hMDRECk : ∀ done group, visit c (holding (shown name isClock c) done group) MDRECk =
      holding (shown name isClock c) (done ++ [group ++ [MDRECk].filter (c.enabled ·)]) [] := by
    intro done group
    rw [visit, if_neg (by decide), write_holding, if_neg (by simp), if_neg (by decide), if_pos rfl, close_holding]
  rw [hstart, hsplit, List.foldl_append, foldl_write _ _ (hwrite _ (by decide) (by decide) (by decide)), List.foldl_cons,
    List.nil_append, clauses]
  split
  · next hpre =>
    have hMDREMux : ∀ group, visit c (holding (shown name isClock c) [] group) MDREMux =
        holding (shown name isClock c) [] (group ++ [MDREMux].filter (c.enabled ·) ++ [PreValid]) := by
      intro group
      rw [visit, if_neg (by decide), write_holding, if_pos ⟨rfl, hpre⟩, write_holding]
      simp only [List.filter_cons, hpre, if_true, List.filter_nil]
    rw [hMDREMux, ← List.filter_append, hfront, List.foldl_append,
      foldl_write _ _ (hwrite _ (by decide) (by decide) (by decide)), List.foldl_cons, hMDRECk, List.append_assoc,
      List.append_assoc, ← List.filter_append, hclocks, List.foldl_cons, visit, if_pos rfl,
      foldl_write _ _ (hwrite _ (by decide) (by decide) (by decide)), text_holding]
    rfl
  · next hpre =>
    have hMDREMux : ∀ group, visit c (holding (shown name isClock c) [] group) MDREMux =
        holding (shown name isClock c) [group ++ [MDREMux].filter (c.enabled ·)] [] := by
      intro group
      rw [visit, if_neg (by decide), write_holding, if_neg fun h => hpre h.2, if_pos rfl, close_holding]
      rfl
    rw [hMDREMux, ← List.filter_append, hfront, List.foldl_append,
      foldl_write _ _ (hwrite _ (by decide) (by decide) (by decide)), List.foldl_cons, hMDRECk, List.nil_append,
      ← List.filter_append, hclocks, List.foldl_cons, visit, if_pos rfl,
      foldl_write _ _ (hwrite _ (by decide) (by decide) (by decide)), text_holding]
    rfl

theorem perm_clauses (c : CodeWithEnables Signals) :
    (clauses c).flatten.Perm ((front ++ PreValid :: clocks ++ branches).filter (c.enabled ·)) := by
  rw [clauses, List.filter_append, List.filter_append, List.filter_cons]
  split <;> simp

end Pep9WordBusControl

instance : Uarch.Layout Pep9WordBusControl.Signals where
  clauses := Pep9WordBusControl.clauses
  toText_eq := Pep9WordBusControl.text_clauses
  nodup c := (Pep9WordBusControl.perm_clauses c).nodup_iff.mpr (List.Nodup.filter _ (by decide))
  mem_iff c s := by
    rw [(Pep9WordBusControl.perm_clauses c).mem_iff, List.mem_filter]
    exact and_iff_right (by cases s <;> decide)

end Pepp.Ucode

import Pepp.Symbol.Tables

/-!
# Calls on symbol tables

What each call comes to for the entries with its name, by the globals in the
other tables.
-/

namespace Pepp.Symbol

variable {T : Type} {h : Hierarchy T} {s : Entries T} {self t u g : T} {e e' : Entry T} {b : Binding}

namespace Entries

theorem bound_iff : s.bound b t = true ↔ ∃ e, s t = some e ∧ e.binding = b := by
  rw [bound]
  cases s t with
  | none => simp
  | some e => simp

theorem bound_eq (hs : s t = some e) : s.bound b t = decide (e.binding = b) := by
  rw [bound, hs]
  rfl

end Entries

theorem mem_selectByName : t ∈ selectByName h s ↔ (s t).isSome := by
  rw [selectByName, List.mem_filter]
  exact and_iff_right (h.complete t)

theorem nodup_selectByName : (selectByName h s).Nodup := h.nodup.filter _

/-- A global entry in another table. -/
def GlobalElsewhere (s : Entries T) (self g : T) : Prop := g ≠ self ∧ ∃ e, s g = some e ∧ e.binding = .Global

variable [DecidableEq T]

namespace Entries

theorem modify_eq (hs : s t = some e) (f : Entry T → Entry T) : s.modify t f = Function.update s t (some (f e)) := by
  rw [modify, hs]
  rfl

theorem importFrom_eq {pointerSize : U16} (hs : s t = some e) (hg : s g = some e') :
    s.importFrom pointerSize t g =
      Function.update s t (some ⟨e'.state, .Imported, .internalPointer pointerSize (some g)⟩) := by
  rw [importFrom, hg]
  exact modify_eq hs _

end Entries

open Entries

section Reference

/-- Without the exporter, no import happens. -/
theorem foldl_imports_none {pointerSize : U16} {symbols : List T}
    (hnone : ∀ t ∈ symbols, s.bound .Global t = false) :
    symbols.foldl
      (fun s other => if s.bound .Global other then s.importFrom pointerSize self other else s) s = s := by
  induction symbols with
  | nil => rfl
  | cons t symbols ih =>
    rw [List.foldl_cons, hnone t List.mem_cons_self, if_neg Bool.false_ne_true]
    exact ih fun u hu => hnone u (List.mem_cons_of_mem _ hu)

/-- The entry ends up as an import of the one exporter elsewhere, also when it is a global on the way. -/
theorem foldl_imports {pointerSize : U16} {symbols : List T} (hnodup : symbols.Nodup) (hs : s self = some e)
    (hg : s g = some e') (hglobal : e'.binding = .Global) (hne : g ≠ self) (hmem : g ∈ symbols)
    (hunique : ∀ t, GlobalElsewhere s self t → t = g) :
    symbols.foldl
      (fun s other => if s.bound .Global other then s.importFrom pointerSize self other else s) s =
      Function.update s self (some ⟨e'.state, .Imported, .internalPointer pointerSize (some g)⟩) := by
  induction symbols generalizing s e with
  | nil => exact absurd hmem List.not_mem_nil
  | cons t symbols ih =>
    obtain ⟨ht, hnodup⟩ := List.nodup_cons.mp hnodup
    rw [List.foldl_cons]
    by_cases htg : t = g
    · subst htg
      rw [if_pos (bound_iff.mpr ⟨e', hg, hglobal⟩), importFrom_eq hs hg]
      refine foldl_imports_none fun u hu => ?_
      by_cases hself : u = self
      · subst hself
        rw [bound_eq (Function.update_self ..)]
        rfl
      · rw [Bool.eq_false_iff]
        intro hbound
        obtain ⟨eu, hsu, hbu⟩ := (bound_iff).mp hbound
        rw [Function.update_of_ne hself] at hsu
        exact ht (hunique u ⟨hself, eu, hsu, hbu⟩ ▸ hu)
    · have hmem : g ∈ symbols := (List.mem_cons.mp hmem).resolve_left (Ne.symm htg)
      by_cases hbound : s.bound .Global t = true
      · have hself : t = self := by
          by_contra hself
          obtain ⟨et, hst, hbt⟩ := (bound_iff).mp hbound
          exact htg (hunique t ⟨hself, et, hst, hbt⟩)
        subst hself
        rw [if_pos hbound, importFrom_eq hs hs]
        have hunique' (u : T) (hu : GlobalElsewhere (Function.update s t
            (some ⟨e.state, .Imported, .internalPointer pointerSize (some t)⟩)) t u) : u = g := by
          obtain ⟨hu, eu, hsu, hbu⟩ := hu
          rw [Function.update_of_ne hu] at hsu
          exact hunique u ⟨hu, eu, hsu, hbu⟩
        rw [ih hnodup (Function.update_self ..) ((Function.update_of_ne hne ..).trans hg) hmem hunique',
          Function.update_idem]
      · rw [if_neg hbound]
        exact ih hnodup hs hg hmem hunique

/-- The entry a reference finds or makes. -/
def touched (s : Entries T) (t : T) : Entry T := (s t).getD .fresh

theorem touch_eq : s.touch self = Function.update s self (some (touched s self)) := rfl

theorem globalElsewhere_touch : GlobalElsewhere (s.touch self) self g ↔ GlobalElsewhere s self g :=
  and_congr_right fun hne => by rw [touch_eq, Function.update_of_ne hne]

/-- How a reference leaves its own entry. It depends on the globals elsewhere. -/
inductive Referenced (pointerSize : U16) (s : Entries T) (self : T) : Entry T → Prop where
  | alone (hnone : ∀ g, ¬ GlobalElsewhere s self g) : Referenced pointerSize s self (touched s self)
  | one {g : T} {e : Entry T} (hne : g ≠ self) (hg : s g = some e) (hglobal : e.binding = .Global)
      (hunique : ∀ u, GlobalElsewhere s self u → u = g) :
      Referenced pointerSize s self ⟨e.state, .Imported, .internalPointer pointerSize (some g)⟩
  | many {g g' : T} (hne : g ≠ g') (hg : GlobalElsewhere s self g) (hg' : GlobalElsewhere s self g') :
      Referenced pointerSize s self { touched s self with state := .ExternalMultiple, binding := .Global }

theorem reference_spec (h : Hierarchy T) (self : T) (s : Entries T) :
    ∃ e, Referenced h.pointerSize s self e ∧ reference h self s = Function.update s self (some e) := by
  have htouch : s.touch self self = some (touched s self) := Function.update_self ..
  have hmem : ∀ t, t ∈ (selectByName h (s.touch self)).filter
      (fun other => decide (other ≠ self ∧ (s.touch self).bound .Global other)) ↔ GlobalElsewhere s self t := by
    intro t
    rw [List.mem_filter, mem_selectByName, decide_eq_true_eq, ← globalElsewhere_touch]
    constructor
    · rintro ⟨-, hne, hbound⟩
      exact ⟨hne, (bound_iff).mp hbound⟩
    · rintro ⟨hne, e, he, hbinding⟩
      exact ⟨by rw [he]; rfl, hne, (bound_iff).mpr ⟨e, he, hbinding⟩⟩
  unfold reference
  dsimp only
  rw [List.countP_eq_length_filter]
  have hnodup : ((selectByName h (s.touch self)).filter
      (fun other => decide (other ≠ self ∧ (s.touch self).bound .Global other))).Nodup := nodup_selectByName.filter _
  generalize (selectByName h (s.touch self)).filter
      (fun other => decide (other ≠ self ∧ (s.touch self).bound .Global other)) = globals at hmem hnodup ⊢
  match globals with
  | [] => exact ⟨_, .alone fun g hg => List.not_mem_nil ((hmem g).mpr hg), rfl⟩
  | [g] =>
    obtain ⟨hne, e, hg, hglobal⟩ := (hmem g).mp List.mem_cons_self
    have hunique (u : T) (hu : GlobalElsewhere s self u) : u = g := List.mem_singleton.mp ((hmem u).mpr hu)
    have hg' : s.touch self g = some e := by rw [touch_eq, Function.update_of_ne hne, hg]
    refine ⟨_, .one hne hg hglobal hunique, ?_⟩
    rw [List.length_singleton, if_neg (Nat.lt_irrefl 1), if_pos rfl, foldl_imports nodup_selectByName htouch hg' hglobal hne
      (mem_selectByName.mpr (by rw [hg']; rfl)) fun u hu => hunique u (globalElsewhere_touch.mp hu)]
    exact Function.update_idem ..
  | g :: g' :: globals =>
    have hne : g ≠ g' := fun heq => (List.nodup_cons.mp hnodup).1 (heq ▸ List.mem_cons_self)
    refine ⟨_, .many hne ((hmem g).mp List.mem_cons_self) ((hmem g').mp (List.mem_cons_of_mem _ List.mem_cons_self)), ?_⟩
    rw [if_pos (by simp), modify_eq htouch]
    exact Function.update_idem ..

end Reference

section Define

variable {pointerSize : U16} {symbols : List T}

/-- A loop that turns the entries elsewhere with one binding into the same import. -/
theorem foldl_follow {imported : Entry T} {body : Entries T → T → Entries T} (hnodup : symbols.Nodup)
    (hs : s self = some e)
    (hbody : ∀ s' o, s' self = some e → (∀ t, s' t = s t ∨ s' t = some imported) →
      body s' o = if o ≠ self ∧ s'.bound b o = true then Function.update s' o (some imported) else s') :
    symbols.foldl body s = fun t => if t ∈ symbols ∧ t ≠ self ∧ s.bound b t = true then some imported else s t := by
  induction symbols generalizing s with
  | nil =>
    funext t
    rw [if_neg fun ht => List.not_mem_nil ht.1]
    rfl
  | cons o symbols ih =>
    obtain ⟨ho, hnodup⟩ := List.nodup_cons.mp hnodup
    rw [List.foldl_cons, hbody s o hs fun _ => .inl rfl]
    by_cases hcond : o ≠ self ∧ s.bound b o = true
    · rw [if_pos hcond, ih hnodup ((Function.update_of_ne hcond.1.symm ..).trans hs) fun s' o' hs' hs'' =>
        hbody s' o' hs' fun t => ?_]
      · funext t
        by_cases hto : t = o
        · subst hto
          rw [if_neg fun ht => ho ht.1, if_pos ⟨List.mem_cons_self, hcond⟩, Function.update_self]
        · simp only [bound, Function.update_of_ne hto, List.mem_cons, hto, false_or]
      · by_cases hto : t = o
        · subst hto
          have := hs'' t
          rw [Function.update_self, or_self] at this
          exact .inr this
        · have := hs'' t
          rwa [Function.update_of_ne hto] at this
    · rw [if_neg hcond, ih hnodup hs hbody]
      funext t
      by_cases hto : t = o
      · subst hto
        rw [if_neg fun ht => ho ht.1, if_neg fun ht => hcond ht.2]
      · simp only [List.mem_cons, hto, false_or]

/-- The entries when `self` has the entry `e`, and those with binding `b` elsewhere are imports of it. -/
def followed (pointerSize : U16) (s : Entries T) (self : T) (b : Binding) (e : Entry T) : Entries T := fun t =>
  if t = self then some e
  else if s.bound b t then some ⟨e.state, .Imported, .internalPointer pointerSize (some self)⟩
  else s t

theorem foldl_followed {body : Entries T → T → Entries T} (hs : s self = some e)
    (hbody : ∀ s' o, s' self = some e →
      (∀ t, s' t = s t ∨ s' t = some ⟨e.state, .Imported, .internalPointer h.pointerSize (some self)⟩) →
      body s' o = if o ≠ self ∧ s'.bound b o = true then
        Function.update s' o (some ⟨e.state, .Imported, .internalPointer h.pointerSize (some self)⟩) else s') :
    (selectByName h s).foldl body s = followed h.pointerSize s self b e := by
  rw [foldl_follow nodup_selectByName hs hbody]
  funext t
  rw [followed]
  by_cases ht : t = self
  · subst ht
    rw [if_neg fun hmem => hmem.2.1 rfl, if_pos rfl, hs]
  · rw [if_neg ht]
    by_cases hbound : s.bound b t = true
    · obtain ⟨et, hst, -⟩ := (bound_iff).mp hbound
      rw [if_pos ⟨(mem_selectByName).mpr (by rw [hst]; rfl), ht, hbound⟩, if_pos hbound]
    · rw [if_neg fun hmem => hbound hmem.2.2, if_neg hbound]

theorem followed_update (e' : Entry T) :
    followed pointerSize (Function.update s self (some e')) self b e = followed pointerSize s self b e := by
  funext t
  unfold followed
  by_cases ht : t = self
  · rw [if_pos ht, if_pos ht]
  · rw [if_neg ht, if_neg ht, bound, bound, Function.update_of_ne ht]

/-- How a definition leaves the entries, when the reference left its own entry as `e`. -/
def defined (pointerSize : U16) (s : Entries T) (self : T) (e : Entry T) : Entries T :=
  match e.binding with
  | .Imported => Function.update s self (some { e with state := .ExternalMultiple })
  | .Global => followed pointerSize s self .Imported { e with state := e.state.defined }
  | .Local => Function.update s self (some { e with state := e.state.defined })

theorem defined_imported (hb : e.binding = .Imported) :
    defined pointerSize s self e = Function.update s self (some { e with state := .ExternalMultiple }) := by
  rw [defined, hb]

theorem defined_global (hb : e.binding = .Global) :
    defined pointerSize s self e = followed pointerSize s self .Imported { e with state := e.state.defined } := by
  rw [defined, hb]

theorem defined_local (hb : e.binding = .Local) :
    defined pointerSize s self e = Function.update s self (some { e with state := e.state.defined }) := by
  rw [defined, hb]

theorem define_spec (h : Hierarchy T) (self : T) (s : Entries T) :
    ∃ e, Referenced h.pointerSize s self e ∧ define h self s = defined h.pointerSize s self e := by
  obtain ⟨e, he, hs⟩ := reference_spec h self s
  refine ⟨e, he, ?_⟩
  have hself : Function.update s self (some e) self = some e := Function.update_self ..
  unfold define
  rw [hs]
  dsimp only
  rw [hself, Option.map_some]
  unfold defined
  cases hb : e.binding with
  | Imported =>
    dsimp only
    rw [modify_eq hself, Function.update_idem, hb]
  | Local =>
    dsimp only
    rw [modify_eq hself, Function.update_idem, hb]
  | Global =>
    have hsel : selectByName h (Function.update s self (some e)) =
        selectByName h (Function.update s self (some { e with state := e.state.defined })) := by
      refine List.filter_congr fun t _ => ?_
      by_cases ht : t = self
      · subst ht
        rw [Function.update_self, Function.update_self]
        rfl
      · rw [Function.update_of_ne ht, Function.update_of_ne ht]
    dsimp only
    rw [modify_eq hself, Function.update_idem, hsel, ← hb]
    rw [foldl_followed (Function.update_self ..) fun s' o hs' _ => ?_, followed_update]
    by_cases ho : o = self
    · rw [if_pos ho, if_neg fun hc => hc.1 ho]
    · rw [if_neg ho]
      by_cases hbound : s'.bound .Imported o = true
      · obtain ⟨eo, hso, -⟩ := (bound_iff).mp hbound
        rw [if_pos hbound, if_pos ⟨ho, hbound⟩, importFrom_eq hso hs']
      · rw [if_neg hbound, if_neg fun hc => hbound hc.2]

end Define

section MarkGlobal

variable {pointerSize : U16} {symbols : List T}

/-- An entry that was found to be global in two tables. -/
def Entry.conflicting {T : Type} (e : Entry T) : Entry T := { e with state := .ExternalMultiple }

/-- What `markGlobal` does with an entry of its name. -/
def marking (pointerSize : U16) (self : T) (s : Entries T) (other : T) : Entries T :=
  if other = self then s
  else if s.bound .Global other then (s.modify other Entry.conflicting).modify self Entry.conflicting
  else if s.bound .Local other then s.importFrom pointerSize other self
  else s

theorem marking_global (hs : s self = some e) (hne : g ≠ self) (hg : s g = some e') (hglobal : e'.binding = .Global) :
    marking pointerSize self s g =
      Function.update (Function.update s g (some e'.conflicting)) self (some e.conflicting) := by
  rw [marking, if_neg hne, if_pos (bound_iff.mpr ⟨e', hg, hglobal⟩), modify_eq hg,
    modify_eq ((Function.update_of_ne hne.symm ..).trans hs)]

theorem marking_other (hlocal : ∀ t, t ≠ self → s.bound .Local t = false) (hg : ¬ GlobalElsewhere s self t) :
    marking pointerSize self s t = s := by
  rw [marking]
  by_cases ht : t = self
  · rw [if_pos ht]
  · rw [if_neg ht, if_neg fun hbound => hg ⟨ht, (bound_iff).mp hbound⟩, hlocal t ht, if_neg Bool.false_ne_true]

theorem foldl_marking_elsewhere (hnodup : symbols.Nodup) (hs : s self = some e)
    (hlocal : ∀ t, t ≠ self → s.bound .Local t = false) (ht : t ≠ self) :
    symbols.foldl (marking pointerSize self) s t =
      if t ∈ symbols ∧ s.bound .Global t = true then (s t).map Entry.conflicting else s t := by
  induction symbols generalizing s e with
  | nil => exact (if_neg fun hmem => List.not_mem_nil hmem.1).symm
  | cons o symbols ih =>
    obtain ⟨ho, hnodup⟩ := List.nodup_cons.mp hnodup
    rw [List.foldl_cons]
    by_cases hglobal : GlobalElsewhere s self o
    · obtain ⟨hne, eo, hso, hbo⟩ := hglobal
      rw [marking_global hs hne hso hbo, ih hnodup (Function.update_self ..) fun u hu => ?_]
      · by_cases hto : t = o
        · subst hto
          rw [if_neg fun hmem => ho hmem.1, if_pos ⟨List.mem_cons_self, (bound_iff).mpr ⟨eo, hso, hbo⟩⟩,
            Function.update_of_ne ht, Function.update_self, hso]
          rfl
        · simp only [bound, Function.update_of_ne ht, Function.update_of_ne hto, List.mem_cons, hto, false_or]
      · by_cases huo : u = o
        · subst huo
          rw [bound, Function.update_of_ne hu, Function.update_self]
          exact decide_eq_false (by rw [Entry.conflicting, hbo]; decide)
        · rw [bound, Function.update_of_ne hu, Function.update_of_ne huo]
          exact hlocal u hu
    · rw [marking_other hlocal hglobal, ih hnodup hs hlocal]
      by_cases hto : t = o
      · subst hto
        rw [if_neg fun hmem => ho hmem.1, if_neg fun hmem => hglobal ⟨ht, (bound_iff).mp hmem.2⟩]
      · simp only [List.mem_cons, hto, false_or]

theorem foldl_marking_self (hs : s self = some e) (hlocal : ∀ t, t ≠ self → s.bound .Local t = false)
    (hconflict : e.conflicting = e ∨ ∃ g ∈ symbols, GlobalElsewhere s self g) :
    symbols.foldl (marking pointerSize self) s self = some e.conflicting := by
  induction symbols generalizing s e with
  | nil =>
    obtain heq | ⟨g, hg, -⟩ := hconflict
    · rw [heq]
      exact hs
    · exact absurd hg List.not_mem_nil
  | cons o symbols ih =>
    rw [List.foldl_cons]
    by_cases hglobal : GlobalElsewhere s self o
    · obtain ⟨hne, eo, hso, hbo⟩ := hglobal
      rw [marking_global hs hne hso hbo]
      refine ih (e := e.conflicting) (Function.update_self ..) (fun u hu => ?_) (.inl rfl)
      by_cases huo : u = o
      · subst huo
        rw [bound, Function.update_of_ne hu, Function.update_self]
        exact decide_eq_false (by rw [Entry.conflicting, hbo]; decide)
      · rw [bound, Function.update_of_ne hu, Function.update_of_ne huo]
        exact hlocal u hu
    · rw [marking_other hlocal hglobal]
      refine ih hs hlocal (hconflict.imp_right fun ⟨g, hg, hge⟩ => ⟨g, ?_, hge⟩)
      refine (List.mem_cons.mp hg).resolve_left fun heq => ?_
      subst heq
      exact hglobal hge

theorem markGlobal_eq (hs : reference h self s = Function.update s self (some e)) :
    markGlobal h self s =
      (selectByName h (Function.update s self (some { e with binding := .Global }))).foldl
        (marking h.pointerSize self) (Function.update s self (some { e with binding := .Global })) := by
  unfold markGlobal
  rw [hs]
  dsimp only
  rw [modify_eq (Function.update_self ..), Function.update_idem]
  rfl

/-- The first export of a name: whoever has a local entry imports it. -/
theorem markGlobal_alone (hnone : ∀ g, ¬ GlobalElsewhere s self g) :
    markGlobal h self s = followed h.pointerSize s self .Local { touched s self with binding := .Global } := by
  obtain ⟨e, he, hs⟩ := reference_spec h self s
  have hself : e = touched s self := by
    cases he with
    | alone => rfl
    | one hne hg hglobal => exact absurd ⟨hne, _, hg, hglobal⟩ (hnone _)
    | many _ hg => exact absurd hg (hnone _)
  rw [markGlobal_eq hs, hself]
  rw [foldl_followed (b := .Local) (Function.update_self ..) fun s' o hs' hs'' => ?_, followed_update]
  rw [marking]
  by_cases ho : o = self
  · rw [if_pos ho, if_neg fun hc => hc.1 ho]
  · have hglobal : ¬ s'.bound .Global o = true := by
      intro hbound
      obtain ⟨eo, hso, hbo⟩ := (bound_iff).mp hbound
      obtain hsame | himport := hs'' o
      · rw [Function.update_of_ne ho, hso] at hsame
        exact hnone o ⟨ho, eo, hsame.symm, hbo⟩
      · rw [hso] at himport
        cases himport
        cases hbo
    rw [if_neg ho, if_neg hglobal]
    by_cases hbound : s'.bound .Local o = true
    · obtain ⟨eo, hso, -⟩ := (bound_iff).mp hbound
      rw [if_pos hbound, if_pos ⟨ho, hbound⟩, importFrom_eq hso hs']
    · rw [if_neg hbound, if_neg fun hc => hbound hc.2]

/-- The entries when every global is known to have another beside it. -/
def conflicted (s : Entries T) (self : T) (e : Entry T) : Entries T := fun t =>
  if t = self then some { e with state := .ExternalMultiple, binding := .Global }
  else if s.bound .Global t then (s t).map Entry.conflicting
  else s t

/-- A further export of a name. -/
theorem markGlobal_conflict (hg : GlobalElsewhere s self g) (hlocal : ∀ t, t ≠ self → s.bound .Local t = false) :
    ∃ e, Referenced h.pointerSize s self e ∧ markGlobal h self s = conflicted s self e := by
  obtain ⟨e, he, hs⟩ := reference_spec h self s
  refine ⟨e, he, ?_⟩
  rw [markGlobal_eq hs]
  have hself : Function.update s self (some { e with binding := .Global }) self =
      some { e with binding := .Global } := Function.update_self ..
  have hlocal' (t : T) (ht : t ≠ self) :
      Entries.bound (Function.update s self (some { e with binding := .Global })) .Local t = false := by
    rw [bound, Function.update_of_ne ht]
    exact hlocal t ht
  obtain ⟨hne, eg, hsg, hbg⟩ := hg
  have hsg' : Function.update s self (some { e with binding := .Global }) g = some eg :=
    (Function.update_of_ne hne ..).trans hsg
  funext t
  unfold conflicted
  by_cases ht : t = self
  · subst ht
    have hmem : g ∈ selectByName h (Function.update s t (some { e with binding := .Global })) := by
      rw [mem_selectByName, hsg']
      rfl
    rw [if_pos rfl, foldl_marking_self hself hlocal' (.inr ⟨g, hmem, hne, eg, hsg', hbg⟩)]
    rfl
  · rw [if_neg ht, foldl_marking_elsewhere nodup_selectByName hself hlocal' ht, Function.update_of_ne ht, bound, bound,
      Function.update_of_ne ht]
    by_cases hbound : s.bound .Global t = true
    · obtain ⟨et, hst, -⟩ := (bound_iff).mp hbound
      have hmem : t ∈ selectByName h (Function.update s self (some { e with binding := .Global })) := by
        rw [mem_selectByName, Function.update_of_ne ht, hst]
        rfl
      rw [if_pos ⟨hmem, hbound⟩]
      exact (if_pos hbound).symm
    · rw [if_neg fun hc => hbound hc.2]
      exact (if_neg hbound).symm

end MarkGlobal

end Pepp.Symbol

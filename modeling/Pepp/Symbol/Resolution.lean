import Pepp.Symbol.ManyExports

/-!
# Resolution of a name

What the tables make of a name is to be the same for every order of their calls.
It is when at most one table exports the name and defines it, and also when every
table that uses the name exports it in its last call on it.
-/

namespace Pepp.Symbol

open Interleaving

variable {T Name : Type} {h : Hierarchy T} {x : Name} {t u : T} {s s' : Entries T} {ops : T → List Operation}
  {op : Operation}

/-- What is to be the same for every order. -/
def Entry.outcome (e : Entry T) : DefinitionState × Binding := (e.state, e.binding)

/-- No table exports the name; or one does, and it does not define the name or no other table does, where a
definition that a later call of that table hides does not count; or every table that uses the name exports it, in its
last call and in no other. -/
def Settled (ops : T → List Operation) : Prop :=
  (∀ t, .markGlobal ∉ ops t) ∨
    (∃ t, .markGlobal ∈ ops t ∧ ∀ u, u ≠ t → .markGlobal ∉ ops u ∧
      (.define ∉ ops u ∨ .define ∉ ops t ∧ (ops u).getLast? ≠ some .define)) ∨
    ∀ t, ops t ≠ [] → ∃ before, ops t = before ++ [.markGlobal] ∧ .markGlobal ∉ before

/-- One table at most exports the name, and nobody's definition of it shows elsewhere. -/
def SingleSettled (ops : T → List Operation) (t : T) : Prop :=
  ∀ u, u ≠ t → .markGlobal ∉ ops u ∧
    (.markGlobal ∈ ops t → .define ∉ ops u ∨ .define ∉ ops t ∧ (ops u).getLast? ≠ some .define)

/-- Every table that uses the name exports it, in its last call and in no other. -/
def ManySettled (ops : T → List Operation) : Prop :=
  ∀ t, ops t ≠ [] → ∃ before, ops t = before ++ [.markGlobal] ∧ .markGlobal ∉ before

theorem SingleSettled.getLast (hops : SingleSettled ops t) (hu : u ≠ t) (hmark : .markGlobal ∈ ops t) :
    (ops u).getLast? ≠ some .define := by
  obtain hdefine | ⟨-, hlast⟩ := (hops u hu).2 hmark
  · exact fun hlast => hdefine (List.mem_of_getLast? hlast)
  · exact hlast

theorem ManySettled.mem (hops : ManySettled ops) (ht : ops t ≠ []) : .markGlobal ∈ ops t := by
  obtain ⟨before, heq, -⟩ := hops t ht
  rw [heq]
  exact List.mem_append_right _ List.mem_cons_self

/-- As far as a table is concerned there is one exporter, or there are several and all tables are. -/
theorem Settled.cases (hops : Settled ops) (t : T) :
    (∃ t', SingleSettled ops t') ∨
      ManySettled ops ∧ ∃ u u', u ≠ u' ∧ .markGlobal ∈ ops u ∧ .markGlobal ∈ ops u' := by
  obtain hnone | ⟨t', -, hone⟩ | hmany := hops
  · exact .inl ⟨t, fun u _ => ⟨hnone u, fun hmark => absurd hmark (hnone t)⟩⟩
  · exact .inl ⟨t', fun u hu => ⟨(hone u hu).1, fun _ => (hone u hu).2⟩⟩
  · by_cases htwo : ∃ u u', u ≠ u' ∧ .markGlobal ∈ ops u ∧ .markGlobal ∈ ops u'
    · exact .inr ⟨hmany, htwo⟩
    · left
      by_cases hone : ∃ t', .markGlobal ∈ ops t'
      · obtain ⟨t', ht'⟩ := hone
        refine ⟨t', fun u hu => ?_⟩
        have hmark : .markGlobal ∉ ops u := fun hmark => htwo ⟨u, t', hu, hmark, ht'⟩
        have hnil : ops u = [] := by
          by_contra hne
          exact hmark (ManySettled.mem hmany hne)
        exact ⟨hmark, fun _ => .inl (by rw [hnil]; exact List.not_mem_nil)⟩
      · exact ⟨t, fun u _ => ⟨fun hmark => hone ⟨u, hmark⟩, fun hmark => absurd ⟨t, hmark⟩ hone⟩⟩

variable [DecidableEq T] [DecidableEq Name]

/-- The calls of each table on one name. -/
def onName (x : Name) (seqs : T → List (Call Name)) (t : T) : List Operation := (seqs t).filterMap (Call.on x)

/-- Resolution of a name does not depend on the order in which the tables' calls are made. -/
structure Resolves (h : Hierarchy T) (seqs : T → List (Call Name)) (x : Name) : Prop where
  same : ∀ run run', Interleaves run seqs → Interleaves run' seqs → ∀ t,
    (exec h run x t).map Entry.outcome = (exec h run' x t).map Entry.outcome
  global : ∀ run rest, Interleaves (run ++ rest) seqs → ∀ t, ⟨.markGlobal, x⟩ ∈ actions run t →
    ∃ e, exec h run x t = some e ∧ e.binding = .Global
  resolved : ∀ run, Interleaves run seqs → ∀ t u, ⟨.markGlobal, x⟩ ∈ seqs t → (seqs t).count ⟨.define, x⟩ = 1 →
    ⟨.reference, x⟩ ∈ seqs u → ⟨.define, x⟩ ∉ seqs u → ⟨.markGlobal, x⟩ ∉ seqs u →
    exec h run x u = some ⟨.Single, .Imported, .internalPointer h.pointerSize (some t)⟩
  reported : ∀ run, Interleaves run seqs → ∀ t u, t ≠ u → ⟨.markGlobal, x⟩ ∈ seqs t → ⟨.define, x⟩ ∈ seqs t →
    ⟨.define, x⟩ ∈ seqs u → ∃ e, (exec h run x t = some e ∨ exec h run x u = some e) ∧ e.state = .ExternalMultiple
  terminates : ∀ run rest, Interleaves (run ++ rest) seqs → ∀ t e, exec h run x t = some e →
    ∃ fuel bits, e.value.value (exec h run x) fuel = some bits

theorem exec_concat (run : List (T × Call Name)) (t : T) (c : Call Name) :
    exec h (run ++ [(t, c)]) = call h t c (exec h run) := List.foldl_concat ..

/-- Only the calls on a name matter for it. -/
theorem exec_name (run : List (T × Call Name)) (x : Name) :
    exec h run x = performAll h (project (Call.on x) run) := by
  induction run using List.reverseRecOn with
  | nil => rfl
  | append_singleton run p ih =>
    obtain ⟨t, c⟩ := p
    rw [exec_concat, call, project_append]
    by_cases hc : c.name = x
    · subst hc
      have hproject : project (Call.on c.name) [(t, c)] = [(t, c.operation)] := by simp [project, Call.on]
      rw [Function.update_self, hproject, performAll_concat, ih]
    · have hproject : project (Call.on x) [(t, c)] = [] := by simp [project, Call.on, hc]
      rw [Function.update_of_ne (Ne.symm hc), hproject, List.append_nil, ih]

theorem on_eq_some {c : Call Name} : c.on x = some op ↔ c = ⟨op, x⟩ := by
  obtain ⟨operation, name⟩ := c
  rw [Call.on]
  by_cases hx : name = x
  · subst hx
    simp
  · simp [hx]

theorem mem_on {calls : List (Call Name)} : op ∈ calls.filterMap (Call.on x) ↔ ⟨op, x⟩ ∈ calls := by
  rw [List.mem_filterMap]
  constructor
  · rintro ⟨c, hc, hop⟩
    rwa [← on_eq_some.mp hop]
  · exact fun hc => ⟨_, hc, on_eq_some.mpr rfl⟩

theorem count_on (calls : List (Call Name)) (op : Operation) :
    (calls.filterMap (Call.on x)).count op = calls.count ⟨op, x⟩ := by
  induction calls with
  | nil => rfl
  | cons c calls ih =>
    rw [List.filterMap_cons, List.count_cons, ← ih]
    cases hc : c.on x with
    | none =>
      have hne : c ≠ ⟨op, x⟩ := fun heq => by simp [on_eq_some.mpr heq] at hc
      simp [hne]
    | some op' =>
      rw [on_eq_some.mp hc]
      simp [List.count_cons]

section Outcomes

variable {done : T → List Operation} {t' : T}

theorem SingleExport.outcome_eq (hs : SingleExport h t' ops s) (hs' : SingleExport h t' ops s')
    (hops : SingleSettled ops t') (t : T) : (s t).map Entry.outcome = (s' t).map Entry.outcome := by
  by_cases ht : ops t = []
  · rw [hs.known.absent ht, hs'.known.absent ht]
  obtain ⟨e, he⟩ := hs.known.present ht
  obtain ⟨e', he'⟩ := hs'.known.present ht
  rw [he, he']
  refine congrArg some ?_
  by_cases htt : t = t'
  · subst htt
    rw [hs.exporter e he, hs'.exporter e' he']
  · have hse := hs.elsewhere t htt e he
    have hse' := hs'.elsewhere t htt e' he'
    by_cases hmark : .markGlobal ∈ ops t'
    · obtain ⟨hb, -, hstate⟩ := hse.2 hmark
      obtain ⟨hb', -, hstate'⟩ := hse'.2 hmark
      have hlast := hops.getLast htt hmark
      rw [Entry.outcome, Entry.outcome, hb, hb', hstate hlast, hstate' hlast]
    · rw [hse.1 hmark, hse'.1 hmark]

theorem SingleExport.terminates (hs : SingleExport h t' done s) {e : Entry T} (he : s t = some e) :
    ∃ fuel bits, e.value.value s fuel = some bits := by
  by_cases htt : t = t'
  · subst htt
    rw [hs.exporter e he]
    exact ⟨1, _, rfl⟩
  · have hse := hs.elsewhere t htt e he
    by_cases hmark : .markGlobal ∈ done t'
    · obtain ⟨e', he'⟩ := hs.known.present (List.ne_nil_of_mem hmark)
      refine ⟨2, ⟨0, 0, 0⟩, ?_⟩
      rw [(hse.2 hmark).2.1, Value.value, he', hs.exporter e' he']
      rfl
    · rw [hse.1 hmark]
      exact ⟨1, _, rfl⟩

/-- With two exports, all of them are conflicts. -/
theorem ManyExports.outcome (hs : ManyExports ops s) (hops : ManySettled ops)
    (htwo : ∃ u u', u ≠ u' ∧ .markGlobal ∈ ops u ∧ .markGlobal ∈ ops u') (ht : ops t ≠ []) :
    ∃ e, s t = some e ∧ e.outcome = (.ExternalMultiple, .Global) := by
  obtain ⟨e, he, hglobal, hstate⟩ := hs.exported t (hops.mem ht)
  obtain ⟨u, u', hne, hu, hu'⟩ := htwo
  refine ⟨e, he, ?_⟩
  rw [Entry.outcome, hglobal]
  by_cases hut : u = t
  · rw [hstate ⟨u', fun hut' => hne (hut.trans hut'.symm), hu'⟩]
  · rw [hstate ⟨u, hut, hu⟩]

end Outcomes

section Runs

variable {seqs : T → List (Call Name)} {run rest : List (T × Call Name)} {t' : T}

theorem actions_onName (hrun : Interleaves run seqs) (x : Name) :
    actions (project (Call.on x) run) = onName x seqs := funext hrun.project

theorem prefix_onName (hrun : Interleaves (run ++ rest) seqs) (x : Name) (t : T) :
    actions (project (Call.on x) run) t <+: onName x seqs t := by
  have hproject := hrun.project (f := Call.on x)
  rw [project_append] at hproject
  exact hproject.isPrefix t

theorem exec_single (hops : SingleSettled (onName x seqs) t') (hrun : Interleaves (run ++ rest) seqs) :
    SingleExport h t' (actions (project (Call.on x) run)) (exec h run x) := by
  rw [exec_name]
  refine SingleExport.performAll fun t ht hmem => (hops t ht).1 ?_
  exact (prefix_onName hrun x t).subset (mem_actions.mpr hmem)

theorem exec_many (hops : ManySettled (onName x seqs)) (hrun : Interleaves (run ++ rest) seqs) :
    ManyExports (actions (project (Call.on x) run)) (exec h run x) := by
  rw [exec_name]
  refine ManyExports.performAll fun t hmem => ?_
  obtain ⟨tail, htail⟩ := prefix_onName hrun x t
  have hne : onName x seqs t ≠ [] := by
    intro hnil
    rw [hnil, List.append_eq_nil_iff] at htail
    rw [htail.1] at hmem
    exact List.not_mem_nil hmem
  obtain ⟨before, heq, hbefore⟩ := hops t hne
  rw [heq] at htail
  obtain rfl | ⟨tail, op, rfl⟩ := tail.eq_nil_or_concat
  · rw [List.append_nil] at htail
    rw [htail, List.dropLast_concat] at hmem
    exact hbefore hmem
  · rw [List.concat_eq_append, ← List.append_assoc] at htail
    refine hbefore ?_
    rw [← (List.append_inj' htail rfl).1]
    exact List.mem_append_left _ (List.mem_of_mem_dropLast hmem)

theorem resolves_single (hops : SingleSettled (onName x seqs) t') : Resolves h seqs x := by
  have hexporter {t : T} (ht : ⟨.markGlobal, x⟩ ∈ seqs t) : t = t' := by
    by_contra hne
    exact (hops t hne).1 (mem_on.mpr ht)
  have hwhole {run : List (T × Call Name)} (hrun : Interleaves run seqs) :
      SingleExport h t' (onName x seqs) (exec h run x) := by
    have hs := exec_single (h := h) hops hrun.append_nil
    rwa [actions_onName hrun] at hs
  refine ⟨fun run run' hrun hrun' t => (hwhole hrun).outcome_eq (hwhole hrun') hops t, ?_, ?_, ?_, ?_⟩
  · intro run rest hrun t ht
    have hs := exec_single (h := h) hops hrun
    have hmark : .markGlobal ∈ actions (project (Call.on x) run) t := by
      rw [actions_project]
      exact mem_on.mpr ht
    obtain rfl := hexporter ((hrun.isPrefix t).subset ht)
    obtain ⟨e, he⟩ := hs.known.present (List.ne_nil_of_mem hmark)
    refine ⟨e, he, ?_⟩
    rw [hs.exporter e he]
    exact if_pos hmark
  · intro run hrun t u ht hcount hu hdefine hmark
    obtain rfl := hexporter ht
    have hne : u ≠ t := fun hut => hmark (hut ▸ ht)
    have hs := hwhole hrun
    obtain ⟨e, he⟩ := hs.known.present (List.ne_nil_of_mem (mem_on.mpr hu))
    obtain ⟨hb, hvalue, hstate⟩ := (hs.elsewhere u hne e he).2 (mem_on.mpr ht)
    have hsingle : e.state = .Single := by
      rw [hstate (hops.getLast hne (mem_on.mpr ht)), onName, count_on, hcount]
      rfl
    rw [he, ← hsingle, ← hb, ← hvalue]
  · intro run hrun t u hne ht hdefine hdefine'
    obtain rfl := hexporter ht
    exfalso
    obtain hnot | ⟨hnot, -⟩ := (hops u hne.symm).2 (mem_on.mpr ht)
    · exact hnot (mem_on.mpr hdefine')
    · exact hnot (mem_on.mpr hdefine)
  · exact fun run rest hrun t e he => (exec_single hops hrun).terminates he

theorem resolves_many (hops : ManySettled (onName x seqs))
    (htwo : ∃ u u', u ≠ u' ∧ .markGlobal ∈ onName x seqs u ∧ .markGlobal ∈ onName x seqs u') : Resolves h seqs x := by
  have hwhole {run : List (T × Call Name)} (hrun : Interleaves run seqs) :
      ManyExports (onName x seqs) (exec h run x) := by
    have hs := exec_many (h := h) hops hrun.append_nil
    rwa [actions_onName hrun] at hs
  refine ⟨?_, ?_, ?_, ?_, fun run rest hrun t e he => ((exec_many hops hrun).grounded t e he).terminates⟩
  · intro run run' hrun hrun' t
    by_cases ht : onName x seqs t = []
    · rw [(hwhole hrun).known.absent ht, (hwhole hrun').known.absent ht]
    · obtain ⟨e, he, hout⟩ := (hwhole hrun).outcome hops htwo ht
      obtain ⟨e', he', hout'⟩ := (hwhole hrun').outcome hops htwo ht
      rw [he, he', Option.map_some, Option.map_some, hout, hout']
  · intro run rest hrun t ht
    have hmark : .markGlobal ∈ actions (project (Call.on x) run) t := by
      rw [actions_project]
      exact mem_on.mpr ht
    obtain ⟨e, he, hglobal, -⟩ := (exec_many (h := h) hops hrun).exported t hmark
    exact ⟨e, he, hglobal⟩
  · intro run hrun t u _ _ hu _ hmark
    exact absurd (mem_on.mp (hops.mem (List.ne_nil_of_mem (mem_on.mpr hu)))) hmark
  · intro run hrun t u _ ht _ _
    obtain ⟨e, he, hout⟩ := (hwhole hrun).outcome hops htwo (List.ne_nil_of_mem (mem_on.mpr ht))
    exact ⟨e, .inl he, congrArg Prod.fst hout⟩

end Runs

end Pepp.Symbol

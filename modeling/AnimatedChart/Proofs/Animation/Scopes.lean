import AnimatedChart.Proofs.Animation.Bridge
import AnimatedChart.Proofs.Animation.Tween

/-!
# Animating scopes

What one unit adds to a graph is known in the graph by the end of the unit (`Ready.unit`), so a run over the units of a
scope and over the scopes of a chart leaves a settled graph settled (`settled_compileScopes`).
-/

open List

namespace AnimatedChart.Animation

open Json Spec Dependency

/-! ## Runs -/

section Runs

variable {α β : Type} {docs docs' : List String} {a : α}

/-- The computation succeeds, and adds to the documents that the base compiler was given. -/
def Runs (x : Compile α) (docs : List String) (a : α) (docs' : List String) : Prop := x.run.run docs = (.ok a, docs')

theorem runs_pure {a' : α} : Runs (pure a') docs a docs' ↔ a' = a ∧ docs = docs' := by
  constructor
  · intro h
    exact ⟨Except.ok.inj (Prod.mk.inj h).1, (Prod.mk.inj h).2⟩
  · rintro ⟨rfl, rfl⟩
    rfl

theorem runs_bind {x : Compile α} {f : α → Compile β} {b : β} :
    Runs (x >>= f) docs b docs' ↔ ∃ a docs₁, Runs x docs a docs₁ ∧ Runs (f a) docs₁ b docs' := by
  simp only [Runs, ExceptT.run_bind, StateT.run_bind]
  rcases x.run.run docs with ⟨_ | a, docs₁⟩
  · constructor
    · intro h
      exact nomatch (Prod.mk.inj h).1
    · rintro ⟨a, docs₂, heq, -⟩
      cases heq
  · constructor
    · exact fun h => ⟨a, docs₁, rfl, h⟩
    · rintro ⟨a', docs₂, heq, h⟩
      obtain ⟨ha, rfl⟩ := Prod.mk.inj heq
      rw [Except.ok.inj ha]
      exact h

theorem runs_liftM {x : Except Error α} : Runs (liftM x) docs a docs' ↔ x = .ok a ∧ docs = docs' := by
  cases x with
  | ok a' => exact runs_pure.trans (and_congr_left fun _ => by rw [Except.ok.injEq])
  | error e =>
    constructor
    · intro h
      exact nomatch (Prod.mk.inj h).1
    · rintro ⟨h, -⟩
      cases h

theorem runs_inContext {context : String} {x : Compile α} :
    Runs (inContext context x) docs a docs' ↔ Runs x docs a docs' := by
  unfold Runs
  show StateT.run (x.run >>= _) docs = _ ↔ _
  rw [StateT.run_bind]
  rcases x.run.run docs with ⟨_ | a, docs₁⟩
  · constructor
    · intro h
      exact nomatch (Prod.mk.inj h).1
    · intro h
      exact nomatch (Prod.mk.inj h).1
  · exact Iff.rfl

def Succeeds (x : Compile α) : Prop := ∀ docs, ∃ a docs', Runs x docs a docs'

namespace Succeeds

theorem pure (a : α) : Succeeds (Pure.pure a : Compile α) := fun docs => ⟨a, docs, runs_pure.mpr ⟨rfl, rfl⟩⟩

theorem bind {x : Compile α} {f : α → Compile β} (hx : Succeeds x) (hf : ∀ a, Succeeds (f a)) : Succeeds (x >>= f) := by
  intro docs
  obtain ⟨a, docs₁, ha⟩ := hx docs
  obtain ⟨b, docs₂, hb⟩ := hf a docs₁
  exact ⟨b, docs₂, runs_bind.mpr ⟨a, docs₁, ha, hb⟩⟩

theorem inContext {context : String} {x : Compile α} (hx : Succeeds x) : Succeeds (Animation.inContext context x) :=
  fun docs => (hx docs).imp fun _ => Exists.imp fun _ => runs_inContext.mpr

end Succeeds

end Runs

variable {allowed : Ref → Prop} {base : BaseCompiler} {docs docs' : List String} {st st' : Stage} {b : Binding}
  {i : Nat} {u : ScopedUnit}

theorem unitMark?_merge_entries (g : Graph) {part : Graph} (h : part.marks = []) (path : String) :
    (g.merge part).unitMark? path = g.unitMark? path := by
  unfold Graph.unitMark? Graph.unitMarkName?
  rw [Graph.merge_empty_marks g part h]

theorem Ready.unit (h : Ready allowed st i) (hfield : isIdentifier st.scope.field = true) (hid : st.scope.id.IsSpelled)
    (hb : Animation.bindKeyframes st i u = .ok (some (st', b))) :
    let rescaled := st'.merge (Animation.rescale st' u b)
    Ready allowed (rescaled.merge (Animation.interpolate rescaled u b)) (i + 1) ∧ rescaled.scope = st.scope := by
  obtain ⟨hready, hbound, hscope⟩ := h.bindKeyframes hfield hid hb
  refine ⟨(hready.rescale hbound u).interpolate (hscope ▸ hfield) (hscope ▸ hid) ?_ ?_, hscope⟩
  · refine hbound.grows (?_ : Grows (fun _ => True) _ _)
    exact .merge marks_rescale fun _ _ => trivial
  · intro hrescales m hm n hn hne c hc hrescalable
    have hm : st'.graph.unitMark? u.path = some m := by
      rw [← hm]
      exact (unitMark?_merge_entries _ marks_rescale _).symm
    exact @defined_twin st' b u hbound.next_ne.1 hbound.next_ne.2 hrescales m hm n hne hn c hc hrescalable

theorem enterExit_none (base : BaseCompiler) (st : Stage) (henter : u.unit.enter = none) (hexit : u.unit.exit = none) :
    enterExit base st u = pure {} := by
  unfold enterExit
  rw [henter, hexit]
  rfl

theorem Ready.compileUnits {us : List ScopedUnit} (h : Ready allowed st i)
    (hfield : isIdentifier st.scope.field = true) (hid : st.scope.id.IsSpelled)
    (hus : ∀ u ∈ us, u.unit.enter = none ∧ u.unit.exit = none)
    (hrun : Runs (Animation.compileUnits base i us st) docs st' docs') : ∃ j, Ready allowed st' j := by
  induction us generalizing i st docs with
  | nil =>
    obtain ⟨rfl, -⟩ := runs_pure.mp hrun
    exact ⟨i, h⟩
  | cons u us ih =>
    obtain ⟨⟨henter, hexit⟩, hus⟩ := forall_mem_cons.mp hus
    have hskip (hrun : Runs (Animation.compileUnits base (i + 1) us st) docs st' docs') : ∃ j, Ready allowed st' j :=
      ih (h.mono (Nat.le_succ i)) hfield hid hus hrun
    rw [Animation.compileUnits] at hrun
    split at hrun
    · exact hskip hrun
    · obtain ⟨bound, docs₁, hlift, hrun⟩ := runs_bind.mp hrun
      obtain ⟨hbound, rfl⟩ := runs_liftM.mp hlift
      match bound with
      | none => exact hskip hrun
      | some (st₁, b) =>
        obtain ⟨hready, hscope⟩ := h.unit hfield hid hbound
        obtain ⟨part, docs₂, hpart, hrun⟩ := runs_bind.mp hrun
        rw [enterExit_none base _ henter hexit] at hpart
        obtain ⟨rfl, rfl⟩ := runs_pure.mp hpart
        exact ih hready.merge_empty (hscope ▸ hfield) (hscope ▸ hid) hus hrun

/-! ## Scopes -/

theorem clips_traceable : Clips Traceable := fun _ _ h => ⟨h.dataset, h.refs⟩

theorem start_eq {g : Graph} {s : Scope} {first : ScopedUnit} (h : Stage.start g s first = .ok st) :
    st = {
      scope := s
      graph := g
      data := ((s.units.findSome? fun u => g.unitMark? u.path).map Mark.dataset).getD "" } := by
  unfold Stage.start at h
  dsimp only at h
  split at h
  · cases h
  · exact (Except.ok.inj h).symm

theorem resolves_start {g : Graph} (hg : Settled allowed g) (s : Scope) : Resolves allowed g
      ⟨.data, ((s.units.findSome? fun u => g.unitMark? u.path).map Mark.dataset).getD ""⟩ := by
  cases hfirst : s.units.findSome? fun u => g.unitMark? u.path with
  | none => exact .inl rfl
  | some m =>
    obtain ⟨u, -, hu⟩ := exists_of_findSome?_eq_some hfirst
    exact resolves_dataset hg hu

/-- What a scope may leave open: its clock's filters. -/
structure Scope.Settles (allowed : Ref → Prop) (s : Scope) : Prop where
  writable : s.Writable
  legible : s.Legible
  filters : ∀ f ∈ clockFilters s, allowed ⟨.signal, f⟩
  units : ∀ u ∈ s.units, u.unit.enter = none ∧ u.unit.exit = none

theorem compileScope_cases {g g' : Graph} {s : Scope} (hrun : Runs (compileScope base g s) docs g' docs') :
    s.units = [] ∧ g = g' ∨ ∃ first ∈ s.units.head?, ∃ st st', Stage.start g s first = .ok st
      ∧ Runs (compileUnits base 0 s.units st.withClock) docs st' docs' ∧ st'.graph = g' := by
  unfold compileScope at hrun
  split at hrun
  · next hunits => exact .inl ⟨hunits, (runs_pure.mp hrun).1⟩
  · next first rest hunits =>
    obtain ⟨st, docs₁, hlift, hrun⟩ := runs_bind.mp (runs_inContext.mp hrun)
    obtain ⟨hstart, rfl⟩ := runs_liftM.mp hlift
    obtain ⟨st', docs₂, hanimated, hdone⟩ := runs_bind.mp hrun
    obtain ⟨rfl, rfl⟩ := runs_pure.mp hdone
    exact .inr ⟨first, by rw [hunits]; rfl, st, st', hstart, hanimated, rfl⟩

theorem runs_compileScopes_append {g g' : Graph} {ss ts : List Scope} :
    Runs (compileScopes base (ss ++ ts) g) docs g' docs' ↔
      ∃ g₁ docs₁, Runs (compileScopes base ss g) docs g₁ docs₁ ∧ Runs (compileScopes base ts g₁) docs₁ g' docs' := by
  induction ss generalizing g docs with
  | nil =>
    constructor
    · exact fun h => ⟨g, docs, runs_pure.mpr ⟨rfl, rfl⟩, h⟩
    · rintro ⟨_, _, hnil, h⟩
      obtain ⟨rfl, rfl⟩ := runs_pure.mp hnil
      exact h
  | cons s ss ih =>
    simp only [cons_append, compileScopes, runs_bind, ih]
    constructor
    · rintro ⟨g₀, docs₀, hs, g₁, docs₁, hss, hts⟩
      exact ⟨g₁, docs₁, ⟨g₀, docs₀, hs, hss⟩, hts⟩
    · rintro ⟨g₁, docs₁, ⟨g₀, docs₀, hs, hss⟩, hts⟩
      exact ⟨g₀, docs₀, hs, g₁, docs₁, hss, hts⟩

theorem settled_compileScope {g g' : Graph} {s : Scope} (hg : Settled allowed g) (hdrawn : g.Drawn Traceable)
    (hs : Scope.Settles allowed s) (hrun : Runs (compileScope base g s) docs g' docs') :
    Settled allowed g' ∧ g'.Drawn Traceable := by
  rcases compileScope_cases hrun with ⟨-, rfl⟩ | ⟨first, -, st, st', hstart, hunits, rfl⟩
  · exact ⟨hg, hdrawn⟩
  · obtain rfl := start_eq hstart
    obtain ⟨hsettled, hdrawn'⟩ := @Stage.settled_withClock _ flat_traceable clips_traceable
      { scope := s, graph := g, data := _ } _ hdrawn hg hs.writable hs.legible hs.filters (resolves_start hg s)
    have hready : Ready allowed (Stage.withClock _) 0 := {
      settled := hsettled
      drawn := hdrawn'
      clock := fun n hn => Stage.defined_withClock flat_traceable clips_traceable hdrawn _ (Stage.clockSignals_clocked _ hn)
      stems := nofun
      derived := fun _ he => nomatch he }
    obtain ⟨j, hready⟩ := hready.compileUnits hs.writable.field hs.legible.id hs.units hunits
    exact ⟨hready.settled, hready.drawn⟩

theorem settled_compileScopes {g g' : Graph} {ss : List Scope} (hg : Settled allowed g) (hdrawn : g.Drawn Traceable)
    (hss : ∀ s ∈ ss, Scope.Settles allowed s) (hrun : Runs (compileScopes base ss g) docs g' docs') :
    Settled allowed g' ∧ g'.Drawn Traceable := by
  induction ss generalizing g docs with
  | nil =>
    obtain ⟨rfl, -⟩ := runs_pure.mp hrun
    exact ⟨hg, hdrawn⟩
  | cons s ss ih =>
    obtain ⟨hs, hss⟩ := forall_mem_cons.mp hss
    obtain ⟨g₁, docs₁, hscope, hrun⟩ := runs_bind.mp hrun
    obtain ⟨hg₁, hdrawn₁⟩ := settled_compileScope hg hdrawn hs hscope
    exact ih hg₁ hdrawn₁ hss hrun

/-! ## The order of marks -/

theorem find?_reverse_eq_some {named : List Mark} (hdistinct : (named.map (·.name)).Nodup) {n : String} {m : Mark} :
    named.reverse.find? (·.name == n) = some m ↔ m ∈ named ∧ m.name = n := by
  constructor
  · intro h
    exact ⟨mem_reverse.mp (mem_of_find?_eq_some h),
      eq_of_beq (find?_some (p := fun m : Mark => m.name == n) h)⟩
  · rintro ⟨hm, rfl⟩
    have hsome : (named.reverse.find? (·.name == m.name)).isSome = true :=
      find?_isSome.mpr ⟨m, mem_reverse.mpr hm, beq_self_eq_true _⟩
    obtain ⟨m', hm'⟩ := Option.isSome_iff_exists.mp hsome
    have hname := eq_of_beq (find?_some (p := fun x : Mark => x.name == m.name) hm')
    have hmem := mem_reverse.mp (mem_of_find?_eq_some hm')
    rw [hm', inj_on_of_nodup_map hdistinct hmem hm hname]

theorem arrange_cons {named : List Mark} {n : String} (hn : n ≠ "") (names : List String) (unnamed : List Mark) :
    arrange named (n :: names) unnamed = (named.reverse.find? (·.name == n)).toList ++ arrange named names unnamed := by
  rw [arrange.eq_4 _ _ _ _ (fun _ => hn) (fun _ _ _ => hn)]
  cases named.reverse.find? (·.name == n) <;> rfl

theorem mem_arrange {named : List Mark} (hnamed : ∀ m ∈ named, m.name ≠ "") (hdistinct : (named.map (·.name)).Nodup)
    {names : List String} {m : Mark} : m ∈ arrange named names [] ↔ m ∈ named ∧ m.name ∈ names := by
  induction names with
  | nil => simp [arrange]
  | cons n names ih =>
    by_cases hn : n = ""
    · subst hn
      rw [arrange, ih]
      simp only [mem_cons]
      refine and_congr_right fun hm => ⟨.inr, fun h => h.resolve_left (hnamed m hm)⟩
    · rw [arrange_cons hn, mem_append, ih, Option.mem_toList, find?_reverse_eq_some hdistinct,
        ← and_or_left, mem_cons]

theorem restoreOrder_eq {g : Graph} (hg : g.Apart) (order : List String) :
    restoreOrder order g.marks = arrange g.marks order [] ++ g.marks.filter fun m => !order.contains m.name := by
  have hunnamed : g.marks.filter (·.name.isEmpty) = [] :=
    filter_eq_nil_iff.mpr fun m hm => by simpa using hg.named m hm
  have hnamed : g.marks.filter (fun m => !m.name.isEmpty) = g.marks :=
    filter_eq_self.mpr fun m hm => by simpa using hg.named m hm
  have hnew : g.marks.filter (fun m => !m.name.isEmpty && !order.contains m.name)
      = g.marks.filter fun m => !order.contains m.name :=
    filter_congr fun m hm => by simp [hg.named m hm]
  rw [restoreOrder, hunnamed, hnamed, hnew]

theorem mem_restoreOrder {g : Graph} (hg : g.Apart) (order : List String) {m : Mark} :
    m ∈ restoreOrder order g.marks ↔ m ∈ g.marks := by
  rw [restoreOrder_eq hg, mem_append, mem_arrange hg.named hg.distinct, mem_filter]
  by_cases ho : m.name ∈ order <;> simp [ho]

theorem settled_restoreOrder {g : Graph} (hg : Settled allowed g) (hapart : g.Apart) (order : List String) :
    Settled allowed { g with marks := restoreOrder order g.marks } := by
  intro r hr
  have hmentioned : r ∈ mentioned g := by
    rw [mem_mentioned] at hr ⊢
    simpa only [mem_restoreOrder hapart order] using hr
  refine (hg r hmentioned).imp_right fun h => h.imp_right fun h => h.imp_right fun h => ?_
  rw [mem_defined] at h ⊢
  simpa only [mem_restoreOrder hapart order] using h

end AnimatedChart.Animation

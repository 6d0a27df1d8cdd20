import AnimatedChart.Animation.Compiler
import AnimatedChart.Proofs.Spec.Retouch

/-!
# Compiling retouched charts

Compiling looks at a comparison of an animation selection only through its field and the type of its tuple.
-/

open List

namespace AnimatedChart.Animation

open Json Spec

variable {c : Chart} {ps ps' : List FieldPredicate} {s : Scope} {st : Stage} {α β : Type} (base : BaseCompiler)

def gist (p : FieldPredicate) : String × String := (p.field, p.tupleType)

def KeepsTuples (r : Retouch) (a : Selection) : Prop :=
  (r.selection a).predicates.map FieldPredicate.tupleType = a.predicates.map FieldPredicate.tupleType

variable {r : Retouch} {s : Scope}

theorem gists_of_keepsTuples {a : Selection} (h : KeepsTuples r a) :
    (r.selection a).predicates.map gist = a.predicates.map gist := by
  have hzip (ps : List FieldPredicate) :
      ps.map gist = List.zip (ps.map (·.field)) (ps.map FieldPredicate.tupleType) := zip_map'.symm
  rw [hzip, hzip, r.fields_selection, h]

theorem map_of_gists (h : ps'.map gist = ps.map gist) {f : FieldPredicate → β} (hf : ∀ p q, gist p = gist q → f p = f q) :
    ps'.map f = ps.map f := by
  induction ps generalizing ps' with
  | nil => rw [map_eq_nil_iff.mp h]
  | cons p ps ih =>
    obtain ⟨q, qs, rfl, hq, hqs⟩ := map_eq_cons_iff.mp h
    rw [map_cons, map_cons, hf q p hq, ih hqs]

/-! ## Clocks and holds -/

variable (r s)

theorem driver?_retouch : (s.retouch r).driver? = s.driver?.map r.selection := head?_map

theorem easingExpr_retouch (o : Option Selection) (progress : String) :
    easingExpr (o.map r.selection) progress = easingExpr o progress := by
  have heasing : (o.map r.selection).bind (·.select.easing) = o.bind (·.select.easing) := by
    cases o with
    | none => rfl
    | some a => exact r.easing_selection a
  unfold easingExpr
  rw [heasing]

theorem clockFilters_retouch : clockFilters (s.retouch r) = clockFilters s := by
  rw [clockFilters, clockFilters, driver?_retouch]
  cases s.driver? with
  | none => rfl
  | some a => exact r.filters_selection a

theorem isSlider_retouch (a : Selection) : (r.selection a).isSlider = a.isSlider := by
  rw [Selection.isSlider, Selection.isSlider, r.bind_selection]

theorem slider_retouch (a : Selection) : (r.selection a).slider = a.slider := by
  rw [Selection.slider, Selection.slider, r.name_selection]

theorem clock_retouch : clock (s.retouch r) = clock s := by
  have hscrubs : (((s.retouch r).driver?.filter (·.isSlider)).toList.map fun d : Selection =>
        ({ events := signalRef d.slider, update := scaleCall (s.retouch r).timeScale d.slider } : Handler))
      = (s.driver?.filter (·.isSlider)).toList.map fun d : Selection =>
        ({ events := signalRef d.slider, update := scaleCall s.timeScale d.slider } : Handler) := by
    rw [driver?_retouch]
    cases s.driver? with
    | none => rfl
    | some a =>
      simp only [Option.map_some, Option.filter_some, isSlider_retouch]
      split
      · simp only [Option.toList_some, map_cons, map_nil, slider_retouch]
        rfl
      · rfl
  have hcondition : clockCondition (s.retouch r) = clockCondition s := by
    rw [clockCondition, clockFilters_retouch]
    rfl
  unfold clock
  dsimp only
  rw [hscrubs, hcondition, clockFilters_retouch, driver?_retouch, easingExpr_retouch]
  rfl

theorem pause_retouch : pause (s.retouch r) = pause s := by
  have hpauses : ((s.retouch r).driver?.map (·.select.pauses)).getD [] = (s.driver?.map (·.select.pauses)).getD [] := by
    rw [driver?_retouch]
    cases s.driver? with
    | none => rfl
    | some a => exact r.pauses_selection a
  unfold pause
  rw [hpauses]
  rfl

variable {r s}

theorem comparisons_retouch {a : Selection} (h : KeepsTuples r a) :
    (comparisons (s.retouch r) (r.selection a)).map gist = (comparisons s a).map gist := by
  have hgists := gists_of_keepsTuples h
  unfold comparisons
  cases hps : a.predicates with
  | nil =>
    rw [hps] at hgists
    rw [map_eq_nil_iff.mp hgists]
    rfl
  | cons p ps =>
    rw [hps] at hgists
    obtain ⟨q, qs, hqs, -⟩ := map_eq_cons_iff.mp hgists
    rw [hqs] at hgists ⊢
    exact hgists

theorem tupleSignals_retouch {a : Selection} (h : KeepsTuples r a) :
    tupleSignals (s.retouch r) (r.selection a) = tupleSignals s a := by
  have hgists := comparisons_retouch (s := s) h
  have hvalues : (comparisons (s.retouch r) (r.selection a)).map (tupleValue (s.retouch r))
      = (comparisons s a).map (tupleValue s) := by
    refine map_of_gists hgists fun p q hpq => ?_
    rw [tupleValue, tupleValue, (Prod.mk.inj hpq).2]
  have hfields : (comparisons (s.retouch r) (r.selection a)).map
        (fun p => Value.ofPairs [("type", .string p.tupleType), ("field", .string p.field)])
      = (comparisons s a).map fun p => Value.ofPairs [("type", .string p.tupleType), ("field", .string p.field)] := by
    refine map_of_gists hgists fun p q hpq => ?_
    rw [(Prod.mk.inj hpq).1, (Prod.mk.inj hpq).2]
  unfold tupleSignals
  dsimp only
  rw [hvalues, hfields, r.name_selection]
  rfl

theorem bindScales_retouch (g : Graph) (a : Selection) :
    bindScales (s.retouch r) g (r.selection a) = bindScales s g a := by
  unfold bindScales
  rw [r.name_selection, Scope.retouch]
  dsimp only
  rw [foldl_map]
  rfl

theorem bridgeOne_retouch (acc : Graph × Graph) {a : Selection} (h : KeepsTuples r a) :
    bridgeOne (s.retouch r) acc (r.selection a) = bridgeOne s acc a := by
  obtain ⟨g, part⟩ := acc
  have hslider (d : Dict Value) : sliderSignals (s.retouch r) (r.selection a) d = sliderSignals s a d := by
    unfold sliderSignals
    rw [slider_retouch]
    rfl
  unfold bridgeOne
  dsimp only
  rw [r.bind_selection, tupleSignals_retouch h, bindScales_retouch, r.name_selection]
  simp only [hslider]
  rfl

theorem bridge_retouch (h : ∀ a ∈ s.selections, KeepsTuples r a) (g : Graph) : bridge (s.retouch r) g = bridge s g := by
  unfold bridge
  rw [show (s.retouch r).selections = s.selections.map r.selection from rfl, foldl_map]
  rw [foldl_ext _ _ _ fun acc a ha => bridgeOne_retouch acc (h a ha)]

/-! ## Keyframes -/

theorem filtersOf_retouch (u : ScopedUnit) : (s.retouch r).filtersOf (u.retouch r) = s.filtersOf u := by
  have hparams : (u.transforms.map (Transform.retouch r)).map Transform.param = u.transforms.map Transform.param := by
    rw [map_map]
    exact map_congr_left fun t _ => t.param_retouch r
  have hnames (p : String) : (s.selections.map r.selection).any (·.name == p) = s.selections.any (·.name == p) := by
    rw [any_map]
    exact congrArg (s.selections.any ·) (funext fun a => congrArg (· == p) (r.name_selection a))
  unfold Scope.filtersOf
  rw [show (u.retouch r).transforms = u.transforms.map (Transform.retouch r) from rfl, hparams]
  refine filter_congr fun p _ => ?_
  rw [show (s.retouch r).selections = s.selections.map r.selection from rfl, hnames]

theorem named_comparisons_retouch (h : ∀ a ∈ s.selections, KeepsTuples r a) (name : String) :
    ((((s.retouch r).selections.find? (·.name == name)).map (comparisons (s.retouch r))).getD []).map gist
      = (((s.selections.find? (·.name == name)).map (comparisons s)).getD []).map gist := by
  have hfind : (s.retouch r).selections.find? (·.name == name)
      = (s.selections.find? (·.name == name)).map r.selection := by
    rw [show (s.retouch r).selections = s.selections.map r.selection from rfl, find?_map]
    congr 2
    exact funext fun a => congrArg (· == name) (r.name_selection a)
  rw [hfind]
  cases hfound : s.selections.find? (·.name == name) with
  | none => rfl
  | some a => exact comparisons_retouch (h a (mem_of_find?_eq_some hfound))

theorem unitComparisons_retouch (h : ∀ a ∈ s.selections, KeepsTuples r a) (u : ScopedUnit) :
    (unitComparisons (s.retouch r) (u.retouch r)).map gist = (unitComparisons s u).map gist := by
  have hgists : (((s.retouch r).filtersOf (u.retouch r)).flatMap fun name =>
        (((s.retouch r).selections.find? (·.name == name)).map (comparisons (s.retouch r))).getD []).map gist
      = ((s.filtersOf u).flatMap fun name =>
        ((s.selections.find? (·.name == name)).map (comparisons s)).getD []).map gist := by
    rw [filtersOf_retouch, map_flatMap, map_flatMap]
    exact flatMap_congr fun name _ => named_comparisons_retouch h name
  have hempty := congrArg List.isEmpty hgists
  simp only [isEmpty_map] at hempty
  unfold unitComparisons
  dsimp only
  rw [hempty]
  split
  · rfl
  · exact hgists

theorem keyframeFilter_retouch (h : ps'.map gist = ps.map gist) (keyframe : String) :
    keyframeFilter (s.retouch r) ps' keyframe = keyframeFilter s ps keyframe := by
  unfold keyframeFilter
  congr 1
  refine map_of_gists h fun p q hpq => ?_
  rw [comparisonExpr, comparisonExpr, (Prod.mk.inj hpq).1, (Prod.mk.inj hpq).2]

theorem any_spansKeyframes_of_gists (h : ps'.map gist = ps.map gist) :
    ps'.any spansKeyframes = ps.any spansKeyframes := by
  have hspans : ps'.map spansKeyframes = ps.map spansKeyframes := by
    refine map_of_gists h fun p q hpq => ?_
    rw [spansKeyframes, spansKeyframes, (Prod.mk.inj hpq).2]
  simpa only [any_map, Function.id_comp] using congrArg (List.any · id) hspans

variable (r) in
def Stage.retouch (st : Stage) : Stage := { st with scope := st.scope.retouch r }

theorem stemFor_retouch (st : Stage) (source filter : String) (i : Nat) : (st.retouch r).stemFor source filter i
      = ((st.stemFor source filter i).1, (st.stemFor source filter i).2.1,
          (st.stemFor source filter i).2.2.retouch r) := by
  unfold Stage.stemFor
  dsimp only [Stage.retouch, Scope.retouch]
  cases Dict.get? st.prefixes (source ++ st.scope.id.suffix) with
  | none => rfl
  | some f =>
    by_cases hsame : f = filter
    · simp only [if_pos hsame]
    · simp only [if_neg hsame]
      by_cases halt : Dict.has st.prefixes s!"{source}_{i}{st.scope.id.suffix}" = true
      · simp only [if_pos halt]
        exact if_pos halt
      · simp only [if_neg halt]
        exact if_neg halt

theorem derived_retouch (h : ps'.map gist = ps.map gist) (st : Stage) (b : Binding) :
    derived (st.retouch r) b ps' = derived st b ps := by
  unfold derived
  rw [show (st.retouch r).scope = st.scope.retouch r from rfl]
  dsimp only
  rw [keyframeFilter_retouch h, keyframeFilter_retouch h]
  rfl

/-- The mark with its keyframe datasets: those of a stem, made now if they are new. -/
def attach (st : Stage) (u : ScopedUnit) (m : Mark) (x : String × Bool × Stage) : Stage × Binding :=
  let ps := unitComparisons st.scope u
  let key := st.scope.time.keyField?
  let b : Binding := { source := m.dataset, stem := x.1, key, spans := key.isSome && ps.any spansKeyframes }
  let st := if x.2.1 then x.2.2.merge { data := derived x.2.2 b ps } else x.2.2
  (st.merge (st.graph.editUnitMark u.path (Mark.withDataset b.target)), b)

theorem bindKeyframes_eq (st : Stage) (i : Nat) (u : ScopedUnit) :
    bindKeyframes st i u = match st.graph.unitMark? u.path with
      | none => .error (noMark u.path)
      | some m =>
        if m.dataset.isEmpty then .ok none
        else .ok (some (attach st u m
          (st.stemFor m.dataset (keyframeFilter st.scope (unitComparisons st.scope u) st.scope.current) i))) := rfl

theorem attach_retouch (h : ∀ a ∈ st.scope.selections, KeepsTuples r a) (u : ScopedUnit) (m : Mark)
    (x : String × Bool × Stage) : attach (st.retouch r) (u.retouch r) m (x.1, x.2.1, x.2.2.retouch r)
      = ((attach st u m x).1.retouch r, (attach st u m x).2) := by
  obtain ⟨stem, fresh, st'⟩ := x
  have hgists := unitComparisons_retouch h u
  unfold attach
  rw [show (st.retouch r).scope = st.scope.retouch r from rfl]
  dsimp only
  rw [any_spansKeyframes_of_gists hgists, derived_retouch hgists]
  cases fresh <;> rfl

theorem bindKeyframes_retouch (h : ∀ a ∈ st.scope.selections, KeepsTuples r a) (i : Nat) (u : ScopedUnit) :
    bindKeyframes (st.retouch r) i (u.retouch r)
      = (bindKeyframes st i u).map (Option.map fun x => (x.1.retouch r, x.2)) := by
  have hgists := unitComparisons_retouch h u
  rw [bindKeyframes_eq, bindKeyframes_eq,
    show (st.retouch r).graph.unitMark? (u.retouch r).path = st.graph.unitMark? u.path from rfl]
  cases st.graph.unitMark? u.path with
  | none => rfl
  | some m =>
    dsimp only
    split
    · rfl
    · rw [show (st.retouch r).scope = st.scope.retouch r from rfl, keyframeFilter_retouch hgists, stemFor_retouch,
        attach_retouch h]
      rfl

theorem overrideChart_bare (u : ScopedUnit) (e : Encoding) :
    (overrideChart (u.retouch r) (e.retouch r)).bare = (overrideChart u e).bare := by
  have hmark : (u.unit.mark.map r.fragment).map Fragment.bare = u.unit.mark.map Fragment.bare := by
    cases u.unit.mark with
    | none => rfl
    | some f => exact congrArg some (r.bare_fragment f)
  have htransforms : ((u.transforms.map (Transform.retouch r)).filter (·.param.isEmpty)).map Transform.bare
      = (u.transforms.filter (·.param.isEmpty)).map Transform.bare := by
    have hparam : (fun t : Transform => t.param.isEmpty) ∘ Transform.retouch r = fun t => t.param.isEmpty := by
      funext t
      simp
    rw [filter_map, hparam, map_map]
    exact map_congr_left fun t _ => t.bare_retouch r
  have hothers : Dict.ofPairs ((u.data.map r.fragment).toList.map (("data", ·))
        ++ (u.projection.map r.fragment).toList.map (("projection", ·)))
      = Dict.mapValues r.fragment (Dict.ofPairs (u.data.toList.map (("data", ·))
        ++ u.projection.toList.map (("projection", ·)))) := by
    rw [Dict.ofPairs, Dict.ofPairs, ← Dict.putAll_mapValues]
    congr 1
    cases u.data <;> cases u.projection <;> rfl
  have hencoding := Encoding.bare_static_retouch r e
  simp only [overrideChart, Chart.bare, View.bare, Unit.bare, ScopedUnit.retouch, Unit.retouch, hmark, htransforms,
    hothers, bare_mapValues]
  simp only [Option.map_some, Encoding.bare, Encoding.retouch, bare_mapValues]

theorem lowerStatic_congr {c' : Chart} (h : c.static.render = c'.static.render) :
    lowerStatic base c = lowerStatic base c' := by
  unfold lowerStatic
  rw [h]

theorem overrideBlock_retouch (st : Stage) (u : ScopedUnit) (e : Encoding) :
    overrideBlock base (st.retouch r) (u.retouch r) (e.retouch r) = overrideBlock base st u e := by
  have hkeys : Dict.keys (e.retouch r).channels = Dict.keys e.channels := by
    simp [Dict.keys, Encoding.retouch, Dict.mapValues]
  unfold overrideBlock
  rw [lowerStatic_congr base (Chart.render_static_of_bare_eq (overrideChart_bare u e)), hkeys]
  rfl

theorem blockFor_retouch (st : Stage) (u : ScopedUnit) (block : String) (o : Option Encoding) :
    blockFor base (st.retouch r) (u.retouch r) block (o.map (Encoding.retouch r)) = blockFor base st u block o := by
  cases o with
  | none => rfl
  | some e => rw [Option.map_some, blockFor, blockFor, overrideBlock_retouch]

theorem enterExit_retouch (st : Stage) (u : ScopedUnit) :
    enterExit base (st.retouch r) (u.retouch r) = enterExit base st u := by
  unfold enterExit
  rw [show (u.retouch r).unit.enter = u.unit.enter.map (Encoding.retouch r) from rfl,
    show (u.retouch r).unit.exit = u.unit.exit.map (Encoding.retouch r) from rfl, blockFor_retouch, blockFor_retouch]
  rfl

/-! ## Scopes -/

theorem stemFor_scope (st : Stage) (source filter : String) (i : Nat) :
    (st.stemFor source filter i).2.2.scope = st.scope := by
  unfold Stage.stemFor
  dsimp only
  split
  · rfl
  · split
    · rfl
    · split <;> rfl

theorem bindKeyframes_scope {st' : Stage} {i : Nat} {u : ScopedUnit} {b : Binding}
    (h : bindKeyframes st i u = .ok (some (st', b))) : st'.scope = st.scope := by
  rw [bindKeyframes_eq] at h
  split at h
  · cases h
  · split at h
    · cases h
    · obtain rfl := congrArg Prod.fst (Option.some.inj (Except.ok.inj h)).symm
      unfold attach
      dsimp only
      split <;> exact stemFor_scope _ _ _ _

theorem ok_bind (a : α) (k : α → Compile β) : (liftM (Except.ok a : Except Error α) >>= k) = k a := rfl

theorem error_bind (e : Error) (k : α → Compile β) : (liftM (Except.error e : Except Error α) >>= k) = throw e := rfl

theorem compileUnits_retouch (us : List ScopedUnit) (i : Nat) (h : ∀ a ∈ st.scope.selections, KeepsTuples r a) :
    compileUnits base i (us.map (ScopedUnit.retouch r)) (st.retouch r)
      = Stage.retouch r <$> compileUnits base i us st := by
  induction us generalizing i st with
  | nil => rfl
  | cons u us ih =>
    rw [map_cons, compileUnits, compileUnits,
      show (st.retouch r).scope = st.scope.retouch r from rfl, filtersOf_retouch]
    split
    · exact ih (i + 1) h
    · rw [bindKeyframes_retouch h]
      cases hbind : bindKeyframes st i u with
      | error e => rfl
      | ok o =>
        cases o with
        | none => exact ih (i + 1) h
        | some x =>
          obtain ⟨st', b⟩ := x
          have hscope := bindKeyframes_scope hbind
          have hrescale : rescale (st'.retouch r) (u.retouch r) b = rescale st' u b := rfl
          have hinterpolate (st : Stage) : interpolate (st.retouch r) (u.retouch r) b = interpolate st u b := rfl
          show (do
              let st := (st'.retouch r).merge (rescale (st'.retouch r) (u.retouch r) b)
              let st := st.merge (interpolate st (u.retouch r) b)
              let part ← enterExit base st (u.retouch r)
              compileUnits base (i + 1) (us.map (ScopedUnit.retouch r)) (st.merge part))
            = Stage.retouch r <$> (do
              let st := st'.merge (rescale st' u b)
              let st := st.merge (interpolate st u b)
              let part ← enterExit base st u
              compileUnits base (i + 1) us (st.merge part))
          have hmerge (st : Stage) (part : Graph) : (st.retouch r).merge part = (st.merge part).retouch r := rfl
          simp only [hrescale, hmerge, hinterpolate, enterExit_retouch, map_bind]
          refine bind_congr fun part => ih (i + 1) ?_
          rw [← hscope] at h
          exact h

theorem start_retouch (g : Graph) (s : Scope) (first : ScopedUnit) :
    Stage.start g (s.retouch r) (first.retouch r) = (Stage.start g s first).map (Stage.retouch r) := by
  have hdata : (s.retouch r).units.findSome? (fun u => g.unitMark? u.path)
      = s.units.findSome? fun u => g.unitMark? u.path := by
    rw [show (s.retouch r).units = s.units.map (ScopedUnit.retouch r) from rfl, findSome?_map]
    rfl
  unfold Stage.start
  rw [hdata]
  dsimp only
  rw [show (s.retouch r).explicitDomain = s.explicitDomain from rfl]
  split <;> rfl

theorem start_scope {g : Graph} {first : ScopedUnit} (h : Stage.start g s first = .ok st) : st.scope = s := by
  unfold Stage.start at h
  dsimp only at h
  split at h
  · cases h
  · exact Except.ok.inj h ▸ rfl

theorem withClock_retouch (h : ∀ a ∈ st.scope.selections, KeepsTuples r a) :
    (st.retouch r).withClock = st.withClock.retouch r := by
  unfold Stage.withClock
  rw [show (st.retouch r).scope = st.scope.retouch r from rfl]
  dsimp only
  rw [clock_retouch, pause_retouch, bridge_retouch h]
  rfl

theorem compileScope_retouch (g : Graph) (h : ∀ a ∈ s.selections, KeepsTuples r a) :
    compileScope base g (s.retouch r) = compileScope base g s := by
  unfold compileScope
  rw [show (s.retouch r).units = s.units.map (ScopedUnit.retouch r) from rfl]
  cases s.units with
  | nil => rfl
  | cons first us =>
    rw [map_cons]
    dsimp only
    rw [start_retouch, show (s.retouch r).id = s.id from rfl]
    congr 1
    cases hstart : Stage.start g s first with
    | error e => rw [Except.map, error_bind, error_bind]
    | ok st =>
      have hselections : ∀ a ∈ st.scope.selections, KeepsTuples r a := by
        rw [start_scope hstart]
        exact h
      have hunits : compileUnits base 0 ((first :: us).map (ScopedUnit.retouch r)) (st.withClock.retouch r)
          = Stage.retouch r <$> compileUnits base 0 (first :: us) st.withClock :=
        compileUnits_retouch base (first :: us) 0 hselections
      rw [Except.map, ok_bind, ok_bind, withClock_retouch hselections, ← map_cons, hunits, bind_map_left]
      exact bind_congr fun st => rfl

theorem compileScopes_retouch {ss : List Scope} (h : ∀ s ∈ ss, ∀ a ∈ s.selections, KeepsTuples r a) (g : Graph) :
    compileScopes base (ss.map (Scope.retouch r)) g = compileScopes base ss g := by
  induction ss generalizing g with
  | nil => rfl
  | cons s ss ih =>
    rw [map_cons, compileScopes, compileScopes, compileScope_retouch base g (h s mem_cons_self)]
    exact bind_congr fun g => ih (fun s hs => h s (mem_cons_of_mem _ hs)) g

theorem compileElaborated_retouch (h : ∀ s ∈ c.scopes, ∀ a ∈ s.selections, KeepsTuples r a) :
    compileElaborated base (c.retouch r) = compileElaborated base c := by
  have hfind : (c.scopes.map (Scope.retouch r)).find? (·.field.isEmpty)
      = (c.scopes.find? (·.field.isEmpty)).map (Scope.retouch r) := by
    rw [find?_map]
    rfl
  unfold compileElaborated
  rw [Chart.scopes_retouch, hfind, lowerStatic_congr base (c.render_static_retouch r)]
  cases c.scopes.find? (·.field.isEmpty) with
  | some s => rfl
  | none =>
    refine bind_congr fun g => ?_
    rw [compileScopes_retouch base h]

end AnimatedChart.Animation

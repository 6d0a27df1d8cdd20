import AnimatedChart.Proofs.Spec.Chart
import AnimatedChart.Spec.Scope
import AnimatedChart.Spec.Static

/-!
# Retouched charts

A retouch changes a chart only where compiling does not look: in the blanks of the fragments that the chart keeps, and
in how its animation selections are written.
-/

open List AnimatedChart.Json.Fragment AnimatedChart.Dict

namespace AnimatedChart.Spec

open Json Reader

/-- A change of fragments and of animation selections that keeps what compiling looks at, the types of tuples apart. -/
structure Retouch where
  fragment : Fragment → Fragment
  selection : Selection → Selection
  bare_fragment : ∀ f, (fragment f).bare = f.bare
  name_selection : ∀ a, (selection a).name = a.name
  bind_selection : ∀ a, (selection a).bind = a.bind
  easing_selection : ∀ a, (selection a).select.easing = a.select.easing
  pauses_selection : ∀ a, (selection a).select.pauses = a.select.pauses
  filters_selection : ∀ a, (selection a).select.trigger.filters = a.select.trigger.filters
  fields_selection : ∀ a, (selection a).predicates.map (·.field) = a.predicates.map (·.field)

attribute [simp] Retouch.bare_fragment Retouch.name_selection Retouch.bind_selection Retouch.easing_selection
  Retouch.pauses_selection Retouch.filters_selection Retouch.fields_selection

def Retouch.blanks : Retouch where
  fragment := bare
  selection := Selection.bare
  bare_fragment := bare_bare
  name_selection _ := rfl
  bind_selection _ := rfl
  easing_selection _ := rfl
  pauses_selection _ := rfl
  filters_selection _ := rfl
  fields_selection _ := rfl

theorem Selection.predicates_settle (a : Selection) : a.settle.predicates = a.predicates.map FieldPredicate.settle := by
  simp only [predicates, settle, Select.settle]
  cases a.select.predicate with
  | none => rfl
  | some p => cases p <;> rfl

def Retouch.reading : Retouch where
  fragment := id
  selection := Selection.settle
  bare_fragment _ := rfl
  name_selection _ := rfl
  bind_selection _ := rfl
  easing_selection _ := rfl
  pauses_selection _ := rfl
  filters_selection a := a.select.trigger.filters_settle
  fields_selection a := by
    rw [Selection.predicates_settle, map_map]
    rfl

variable (r : Retouch)

def Encoding.retouch (e : Encoding) : Encoding := { e with channels := mapValues r.fragment e.channels }

def Transform.retouch (t : Transform) : Transform := ⟨r.fragment t.raw⟩

def Param.retouch : Param → Param
  | animation a => animation (r.selection a)
  | plain raw => plain (r.fragment raw)

def Unit.retouch (u : Unit) : Unit where
  mark := u.mark.map r.fragment
  encoding := u.encoding.map (Encoding.retouch r)
  params := u.params.map (Param.retouch r)
  transforms := u.transforms.map (Transform.retouch r)
  enter := u.enter.map (Encoding.retouch r)
  exit := u.exit.map (Encoding.retouch r)
  others := mapValues r.fragment u.others

def Layer.retouch (l : Layer) : Layer where
  encoding := l.encoding.map (Encoding.retouch r)
  params := l.params.map (Param.retouch r)
  transforms := l.transforms.map (Transform.retouch r)
  others := mapValues r.fragment l.others

mutual

def View.retouch : View → View
  | unit u => unit (u.retouch r)
  | layer l children => layer (l.retouch r) (retouchAll children)

def View.retouchAll : List View → List View
  | [] => []
  | v :: vs => v.retouch :: retouchAll vs

end

def Chart.retouch : Chart → Chart
  | view v => view (v.retouch r)
  | vconcat us others => vconcat (us.map (·.map (Unit.retouch r))) (mapValues r.fragment others)

/-! ## What a retouch keeps -/

@[simp] theorem Transform.param_bare (t : Transform) : t.bare.param = t.param := by
  have hfilter : Natural (Option.map Fragment.bare) (Reader.record [("filter", Reader.fragment)]) :=
    natural_record (forall_mem_singleton.mpr natural_fragment)
  have hparam : Natural id (Reader.record [("param", Reader.text)]) :=
    natural_record (forall_mem_singleton.mpr natural_text)
  rw [param, param, bare, run_bare hfilter t.raw rfl]
  rcases (Reader.record [("filter", Reader.fragment)]).run t.raw none with e | _ | filter
  · rfl
  · rfl
  · simp only [Except.map, Option.map_some, run_bare_id hparam]

@[simp] theorem Transform.param_retouch (t : Transform) : (t.retouch r).param = t.param := by
  have hbare : (t.retouch r).bare = t.bare := congrArg Transform.mk (r.bare_fragment t.raw)
  rw [← param_bare, hbare, param_bare]

@[simp] theorem Unit.time_retouch (u : Unit) : (u.retouch r).time = u.time := by
  obtain ⟨mark, encoding, params, transforms, enter, exit, others⟩ := u
  cases encoding <;> rfl

@[simp] theorem Layer.time_retouch (l : Layer) : (l.retouch r).time = l.time := by
  obtain ⟨encoding, params, transforms, others⟩ := l
  cases encoding <;> rfl

@[simp] theorem Unit.hasMark_retouch (u : Unit) : (u.retouch r).hasMark = u.hasMark := Option.isSome_map

theorem selections_retouch (ps : List Param) :
    selections (ps.map (Param.retouch r)) = (selections ps).map r.selection := by
  induction ps with
  | nil => rfl
  | cons p ps ih =>
    cases p with
    | animation a => exact congrArg (r.selection a :: ·) ih
    | plain raw => exact ih

@[simp] theorem Unit.selections_retouch (u : Unit) : (u.retouch r).selections = u.selections.map r.selection :=
  Spec.selections_retouch r u.params

@[simp] theorem Layer.selections_retouch (l : Layer) : (l.retouch r).selections = l.selections.map r.selection :=
  Spec.selections_retouch r l.params

mutual

theorem View.selections_retouch : ∀ v : View, (v.retouch r).selections = v.selections.map r.selection
  | .unit u => u.selections_retouch r
  | .layer l children => by
    rw [retouch, selections, selections, Layer.selections_retouch, selectionsOf_retouch children, map_append]

theorem View.selectionsOf_retouch : ∀ vs : List View,
    View.selectionsOf (retouchAll r vs) = (View.selectionsOf vs).map r.selection
  | [] => rfl
  | v :: vs => by
    rw [retouchAll, selectionsOf, selectionsOf, selections_retouch v, selectionsOf_retouch vs,
      map_append]

end

theorem Chart.selections_retouch (c : Chart) : (c.retouch r).selections = c.selections.map r.selection := by
  cases c with
  | view v => exact v.selections_retouch r
  | vconcat us others =>
    cases us with
    | none => rfl
    | some us =>
      show (us.map (Unit.retouch r)).flatMap Unit.selections = (us.flatMap Unit.selections).map r.selection
      rw [flatMap_map, map_flatMap]
      simp

/-! ## Scopes -/

def Inherited.retouch (i : Inherited) : Inherited where
  data := i.data.map r.fragment
  projection := i.projection.map r.fragment
  transforms := i.transforms.map (Transform.retouch r)

def ScopedUnit.retouch (u : ScopedUnit) : ScopedUnit where
  unit := u.unit.retouch r
  path := u.path
  data := u.data.map r.fragment
  projection := u.projection.map r.fragment
  transforms := u.transforms.map (Transform.retouch r)

def Scope.retouch (s : Scope) : Scope where
  id := s.id
  time := s.time
  selections := s.selections.map r.selection
  units := s.units.map (ScopedUnit.retouch r)

theorem Inherited.within_retouch (i : Inherited) (others : Dict Fragment) (ts : List Transform) :
    (i.retouch r).within (mapValues r.fragment others) (ts.map (Transform.retouch r))
      = (i.within others ts).retouch r := by
  simp only [within, retouch, get?_mapValues, map_append]
  congr 1
  · cases get? others "data" <;> rfl
  · cases get? others "projection" <;> rfl

theorem ScopedUnit.below_retouch (u : Unit) (path : String) (i : Inherited) :
    ScopedUnit.below (u.retouch r) path (i.retouch r) = (ScopedUnit.below u path i).retouch r := by
  rw [below, below, Unit.retouch]
  dsimp only
  rw [Inherited.within_retouch]
  rfl

mutual

theorem View.collect_retouch : ∀ (v : View) (path : String) (i : Inherited), (v.retouch r).collect path (i.retouch r)
      = Prod.map (List.map r.selection) (List.map (ScopedUnit.retouch r)) (v.collect path i)
  | .unit u, path, i => by
    rw [retouch, collect, collect, Unit.selections_retouch, Unit.hasMark_retouch, ScopedUnit.below_retouch]
    cases u.hasMark <;> rfl
  | .layer l children, path, i => by
    rw [retouch, collect, collect, Layer.selections_retouch, Layer.retouch, Inherited.within_retouch]
    rw [collectAll_retouch children, Prod.map_fst, Prod.map_snd, Prod.map, map_append]

theorem View.collectAll_retouch : ∀ (vs : List View) (path : String) (i : Inherited) (n : Nat),
    View.collectAll path (i.retouch r) n (retouchAll r vs)
      = Prod.map (List.map r.selection) (List.map (ScopedUnit.retouch r)) (View.collectAll path i n vs)
  | [], _, _, _ => rfl
  | v :: vs, path, i, n => by
    rw [retouchAll, collectAll, collectAll, collect_retouch v, collectAll_retouch vs]
    simp only [Prod.map, map_append]

end

theorem Scope.ofUnit_retouch (id : ScopeId) (t : TimeEncoding) (u : Unit) (path : String) (i : Inherited) :
    ofUnit id t (u.retouch r) path (i.retouch r) = (ofUnit id t u path i).retouch r := by
  simp only [ofUnit, retouch, Unit.selections_retouch, ScopedUnit.below_retouch, map_cons, map_nil]

mutual

theorem View.scopes_retouch : ∀ (v : View) (id : ScopeId) (path : String) (i : Inherited),
    (v.retouch r).scopes id path (i.retouch r) = (v.scopes id path i).map (Scope.retouch r)
  | .unit u, id, path, i => by
    rw [retouch, scopes, scopes, Unit.time_retouch, Unit.hasMark_retouch]
    cases u.time with
    | none => rfl
    | some t =>
      dsimp only
      rw [Scope.ofUnit_retouch]
      cases u.hasMark <;> rfl
  | .layer l children, id, path, i => by
    rw [retouch, scopes, scopes, Layer.time_retouch, Layer.selections_retouch, Layer.retouch,
      Inherited.within_retouch]
    cases l.time with
    | none => exact scopesAll_retouch children id path _ 0
    | some t =>
      dsimp only
      rw [collectAll_retouch, Prod.map_fst, Prod.map_snd, ← map_append]
      rfl

theorem View.scopesAll_retouch : ∀ (vs : List View) (id : ScopeId) (path : String) (i : Inherited) (n : Nat),
    View.scopesAll id path (i.retouch r) n (retouchAll r vs) = (View.scopesAll id path i n vs).map (Scope.retouch r)
  | [], _, _, _, _ => rfl
  | v :: vs, id, path, i, n => by
    rw [retouchAll, scopesAll, scopesAll, scopes_retouch v, scopesAll_retouch vs, map_append]

end

theorem Chart.scopes_retouch (c : Chart) : (c.retouch r).scopes = c.scopes.map (Scope.retouch r) := by
  cases c with
  | view v => exact v.scopes_retouch r .root "" {}
  | vconcat us others =>
    cases us with
    | none => rfl
    | some us =>
      have hunit (id : ScopeId) (u : Unit) :
          View.scopes id (id.path ++ "_") (({} : Inherited).within (mapValues r.fragment others) [])
              (.unit (u.retouch r))
            = (View.scopes id (id.path ++ "_") (({} : Inherited).within others []) (.unit u)).map (Scope.retouch r) := by
        have hinherited : ({} : Inherited).within (mapValues r.fragment others) []
            = (({} : Inherited).within others []).retouch r := Inherited.within_retouch r {} others []
        rw [hinherited]
        exact View.scopes_retouch r (.unit u) id _ _
      rw [retouch, scopes, scopes, map_flatten]
      congr 1
      simp only [Option.map_some, Option.getD_some, mapIdx_eq_zipIdx_map, map_map, zipIdx_map]
      refine map_congr_left fun x _ => ?_
      exact hunit (ScopeId.root.child "concat" x.2) x.1

/-! ## The static part -/

theorem bare_mapValues (d : Dict Fragment) : mapValues bare (mapValues r.fragment d) = mapValues bare d := by
  simp [mapValues]

theorem Encoding.bare_static_retouch (e : Encoding) : (e.retouch r).static.bare = e.static.bare := by
  simp [static, retouch, bare, bare_mapValues]

theorem Transform.bare_retouch (t : Transform) : (t.retouch r).bare = t.bare := by simp [retouch, bare]

theorem Selection.fields_retouch (a : Selection) (t : Option TimeEncoding) : (r.selection a).fields t = a.fields t := by
  have hfields := r.fields_selection a
  unfold fields
  cases hps : a.predicates with
  | nil =>
    rw [hps] at hfields
    rw [map_eq_nil_iff.mp hfields]
  | cons p ps =>
    rw [hps] at hfields
    obtain ⟨p', ps', hps', -⟩ := map_eq_cons_iff.mp hfields
    rw [hps'] at hfields ⊢
    exact hfields

theorem Param.bare_static_retouch (p : Param) (t : Option TimeEncoding) :
    ((p.retouch r).static t).bare = (p.static t).bare := by
  cases p with
  | animation a => simp [retouch, static, Selection.plain, Selection.fields_retouch]
  | plain raw => simp [retouch, static, bare]

theorem bare_static_params (ps : List Param) (t : Option TimeEncoding) :
    ((ps.map (Param.retouch r)).map (Param.static t)).map Param.bare = (ps.map (Param.static t)).map Param.bare := by
  simp [Param.bare_static_retouch]

theorem bare_static_transforms (ts : List Transform) (names : List String) :
    ((ts.map (Transform.retouch r)).filter fun t => !t.filtersOn names).map Transform.bare
      = (ts.filter fun t => !t.filtersOn names).map Transform.bare := by
  have hfilters : (fun t : Transform => !t.filtersOn names) ∘ Transform.retouch r = fun t => !t.filtersOn names := by
    funext t
    simp [Transform.filtersOn]
  rw [filter_map, hfilters, map_map]
  exact map_congr_left fun t _ => t.bare_retouch r

theorem Unit.bare_static_retouch (u : Unit) (names : List String) (t : Option TimeEncoding) :
    ((u.retouch r).static names t).bare = (u.static names t).bare := by
  rw [static, static, time_retouch]
  simp only [retouch, bare, bare_static_params, bare_static_transforms, bare_mapValues, Option.map_map]
  congr 1
  · cases u.mark with
    | none => rfl
    | some f => exact congrArg some (r.bare_fragment f)
  · cases u.encoding with
    | none => rfl
    | some e => exact congrArg some (e.bare_static_retouch r)

theorem Layer.bare_static_retouch (l : Layer) (names : List String) (t : Option TimeEncoding) :
    ((l.retouch r).static names t).bare = (l.static names t).bare := by
  rw [static, static, time_retouch]
  simp only [retouch, bare, bare_static_params, bare_static_transforms, bare_mapValues, Option.map_map]
  congr 1
  cases l.encoding with
  | none => rfl
  | some e =>
    obtain ⟨channels, time⟩ := e
    cases channels with
    | nil => rfl
    | cons c cs => exact congrArg some (Encoding.bare_static_retouch r ⟨c :: cs, time⟩)

mutual

theorem View.bare_static_retouch : ∀ (v : View) (names : List String) (t : Option TimeEncoding),
    ((v.retouch r).static names t).bare = (v.static names t).bare
  | .unit u, names, t => congrArg unit (u.bare_static_retouch r names t)
  | .layer l children, names, t => by
    rw [retouch, static, static, bare, bare, Layer.bare_static_retouch, Layer.time_retouch,
      bareAll_static_retouch children]

theorem View.bareAll_static_retouch : ∀ (vs : List View) (names : List String) (t : Option TimeEncoding),
    View.bareAll (View.staticAll names t (retouchAll r vs)) = View.bareAll (View.staticAll names t vs)
  | [], _, _ => rfl
  | v :: vs, names, t => by
    rw [retouchAll, staticAll, staticAll, bareAll, bareAll, bare_static_retouch v,
      bareAll_static_retouch vs]

end

theorem Chart.bare_static_retouch (c : Chart) : (c.retouch r).static.bare = c.static.bare := by
  have hnames : (c.retouch r).selections.map (·.name) = c.selections.map (·.name) := by
    rw [selections_retouch, map_map]
    exact map_congr_left fun a _ => r.name_selection a
  unfold static
  rw [hnames]
  cases c with
  | view v => exact congrArg view (v.bare_static_retouch r _ none)
  | vconcat us others =>
    simp only [retouch, bare, bare_mapValues]
    cases us with
    | none => rfl
    | some us =>
      simp only [Option.map_some, map_map]
      congr 2
      exact map_congr_left fun u _ => u.bare_static_retouch r _ none

/-! ## Blanks are not rendered -/

theorem Select.bare_toFragment_bare (s : Select) : s.bare.toFragment.bare = s.toFragment.bare :=
  bare_recordWith_congr rfl

theorem Selection.bare_toFragment_bare (a : Selection) : a.bare.toFragment.bare = a.toFragment.bare := by
  refine bare_recordWith_congr ?_
  simp only [written, map_cons, Option.map_some]
  rw [show a.bare.select = a.select.bare from rfl, Select.bare_toFragment_bare]
  rfl

theorem Param.bare_toFragment_bare (p : Param) : p.bare.toFragment.bare = p.toFragment.bare := by
  cases p with
  | animation a => exact a.bare_toFragment_bare
  | plain raw => exact raw.bare_bare

theorem Encoding.bare_toFragment_bare (e : Encoding) : e.bare.toFragment.bare = e.toFragment.bare := by
  have hchannels := bare_mapValues .blanks e.channels
  obtain ⟨channels, time⟩ := e
  cases time with
  | none =>
    show (Fragment.record _).bare = (Fragment.record _).bare
    rw [bare_record, bare_record]
    exact congrArg _ hchannels
  | some t =>
    show (Fragment.record (put "time" t.toFragment (mapValues Fragment.bare channels))).bare
      = (record (put "time" t.toFragment channels)).bare
    rw [bare_record, bare_record, ← put_mapValues, ← put_mapValues]
    exact congrArg (fun d => record (put "time" t.toFragment.bare d)) hchannels

theorem bare_encoded (o : Option Encoding) : Option.map bare ((o.map Encoding.bare).map Encoding.toFragment)
      = Option.map bare (o.map Encoding.toFragment) := by
  cases o with
  | none => rfl
  | some e => exact congrArg some e.bare_toFragment_bare

theorem bare_params (ps : List Param) : Option.map bare
        (if (ps.map Param.bare).isEmpty then none else some (.list ((ps.map Param.bare).map Param.toFragment)))
      = Option.map bare (if ps.isEmpty then none else some (.list (ps.map Param.toFragment))) :=
  bare_listed fun x _ => x.bare_toFragment_bare

theorem bare_transforms (ts : List Transform) : Option.map bare
        (if (ts.map Transform.bare).isEmpty then none else some (.list ((ts.map Transform.bare).map Transform.raw)))
      = Option.map bare (if ts.isEmpty then none else some (.list (ts.map Transform.raw))) :=
  bare_listed fun t _ => t.raw.bare_bare

theorem Unit.bare_toFragment_bare (u : Unit) : u.bare.toFragment.bare = u.toFragment.bare := by
  have hmark : Option.map Fragment.bare (u.mark.map Fragment.bare) = u.mark.map Fragment.bare := by
    cases u.mark with
    | none => rfl
    | some f => exact congrArg some f.bare_bare
  refine bare_recordWith_congr ?_
  exact congrArg₂ List.cons (congrArg (Prod.mk _) hmark) <|
    congrArg₂ List.cons (congrArg (Prod.mk _) (bare_encoded u.encoding)) <|
    congrArg₂ List.cons (congrArg (Prod.mk _) (bare_params u.params)) <|
    congrArg₂ List.cons (congrArg (Prod.mk _) (bare_transforms u.transforms)) <|
    congrArg₂ List.cons (congrArg (Prod.mk _) (bare_encoded u.enter)) <|
    congrArg₂ List.cons (congrArg (Prod.mk _) (bare_encoded u.exit)) rfl

mutual

theorem View.bare_toFragment_bare : ∀ v : View, v.bare.toFragment.bare = v.toFragment.bare
  | .unit u => u.bare_toFragment_bare
  | .layer l children => by
    have hwritten : (l.bare.written (toFragments (bareAll children))).map
          (fun m => (m.1, m.2.map Fragment.bare))
        = (l.written (toFragments children)).map fun m => (m.1, m.2.map Fragment.bare) := by
      have hchildren : (Fragment.list (toFragments (bareAll children))).bare
          = (Fragment.list (toFragments children)).bare := by
        rw [Fragment.bare_list, Fragment.bare_list, bare_toFragments_bareAll children]
      exact congrArg₂ List.cons (congrArg (Prod.mk _) (bare_encoded l.encoding)) <|
        congrArg₂ List.cons (congrArg (Prod.mk _) (bare_params l.params)) <|
        congrArg₂ List.cons (congrArg (Prod.mk _) (bare_transforms l.transforms)) <|
        congrArg₂ List.cons (congrArg (Prod.mk _ ∘ some) hchildren) rfl
    rw [bare, toFragment_layer, toFragment_layer, Layer.fragment, Layer.fragment, Fragment.bare_record, Fragment.bare_record,
      ← putAll_mapValues, ← putAll_mapValues, ← Fragment.filterMap_bare, ← Fragment.filterMap_bare, hwritten]
    exact congrArg (fun d => Fragment.record (putAll d _)) (bare_mapValues .blanks l.others)

theorem View.bare_toFragments_bareAll : ∀ vs : List View,
    (View.toFragments (bareAll vs)).map Fragment.bare = (View.toFragments vs).map Fragment.bare
  | [] => rfl
  | v :: vs => by
    rw [bareAll, toFragments, toFragments, map_cons, map_cons, bare_toFragment_bare v,
      bare_toFragments_bareAll vs]

end

theorem Chart.bare_toFragment_bare (c : Chart) : c.bare.toFragment.bare = c.toFragment.bare := by
  cases c with
  | view v => exact v.bare_toFragment_bare
  | vconcat us others =>
    refine bare_recordWith_congr ?_
    cases us with
    | none => rfl
    | some us =>
      simp only [concatWritten, Option.map_some, map_cons, map_nil, bare_list, map_map]
      congr 4
      exact map_congr_left fun u _ => u.bare_toFragment_bare

theorem Chart.render_of_bare_eq {c c' : Chart} (h : c.bare = c'.bare) : c.render = c'.render := by
  refine pretty_of_bare_eq ?_
  rw [← bare_toFragment_bare, h, bare_toFragment_bare]

theorem Chart.render_static_retouch (c : Chart) : (c.retouch r).static.render = c.static.render :=
  render_of_bare_eq (c.bare_static_retouch r)

/-! ## Both changes are retouches -/

theorem mapValues_id (d : Dict Fragment) : mapValues id d = d := map_id _

theorem Encoding.retouch_reading : retouch .reading = id := by
  funext e
  exact congrArg (fun d => { e with channels := d }) (mapValues_id e.channels)

theorem Param.retouch_reading : retouch .reading = settle := by
  funext p
  cases p <;> rfl

theorem Transform.retouch_reading : retouch .reading = id := rfl

theorem Unit.retouch_reading : retouch .reading = Unit.settle := by
  funext u
  have hfragment : Retouch.reading.fragment = id := rfl
  simp only [retouch, settle, Encoding.retouch_reading, Param.retouch_reading, Transform.retouch_reading, hfragment,
    mapValues_id, Option.map_id_fun, map_id_fun, id]

theorem Layer.retouch_reading : retouch .reading = Layer.settle := by
  funext l
  have hfragment : Retouch.reading.fragment = id := rfl
  simp only [retouch, settle, Encoding.retouch_reading, Param.retouch_reading, Transform.retouch_reading, hfragment,
    mapValues_id, Option.map_id_fun, map_id_fun, id]

mutual

theorem View.retouch_reading : ∀ v : View, v.retouch .reading = v.settle
  | .unit u => congrArg unit (congrFun Unit.retouch_reading u)
  | .layer l children => by rw [retouch, settle, Layer.retouch_reading, retouchAll_reading children]

theorem View.retouchAll_reading : ∀ vs : List View, retouchAll .reading vs = View.settleAll vs
  | [] => rfl
  | v :: vs => by rw [retouchAll, settleAll, retouch_reading v, retouchAll_reading vs]

end

theorem Chart.retouch_reading (c : Chart) : c.retouch .reading = c.settle := by
  cases c with
  | view v => exact congrArg view v.retouch_reading
  | vconcat us others => exact congrArg₂ vconcat (by rw [Unit.retouch_reading]) (mapValues_id others)

theorem Param.retouch_blanks : retouch .blanks = bare := by
  funext p
  cases p <;> rfl

theorem Unit.retouch_blanks : retouch .blanks = Unit.bare := by
  funext u
  rw [retouch, bare, Param.retouch_blanks]
  rfl

theorem Layer.retouch_blanks : retouch .blanks = Layer.bare := by
  funext l
  rw [retouch, bare, Param.retouch_blanks]
  rfl

mutual

theorem View.retouch_blanks : ∀ v : View, v.retouch .blanks = v.bare
  | .unit u => congrArg unit (congrFun Unit.retouch_blanks u)
  | .layer l children => by rw [retouch, bare, Layer.retouch_blanks, retouchAll_blanks children]

theorem View.retouchAll_blanks : ∀ vs : List View, retouchAll .blanks vs = View.bareAll vs
  | [] => rfl
  | v :: vs => by rw [retouchAll, bareAll, retouch_blanks v, retouchAll_blanks vs]

end

theorem Chart.retouch_blanks (c : Chart) : c.retouch .blanks = c.bare := by
  cases c with
  | view v => exact congrArg view v.retouch_blanks
  | vconcat us others => exact congrArg₂ vconcat (by rw [Unit.retouch_blanks]) rfl

theorem Chart.render_static_of_bare_eq {c c' : Chart} (h : c.bare = c'.bare) : c.static.render = c'.static.render := by
  rw [← c.render_static_retouch .blanks, ← c'.render_static_retouch .blanks, retouch_blanks, retouch_blanks, h]

end AnimatedChart.Spec

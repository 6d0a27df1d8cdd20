import Mathlib.Data.List.Forall2
import AnimatedChart.Spec.Elaborate
import AnimatedChart.Spec.Static

/-!
# Elaboration settles a chart

A second elaboration changes nothing (`Chart.elaborate_idempotent`), although the first one moves time encodings down
the tree:

* a decided time encoding stays as it is, whatever marks and encodings it is decided from,
* a view that declares a time encoding still declares one afterwards (`View.declaresTime_elaborate`),
* no layer that hands its time encoding down keeps one, so nothing is inherited in the second pass.
-/

open List

namespace AnimatedChart.Spec.View

@[induction_eliminator]
theorem induction {P : View → Prop} (unit : ∀ u, P (.unit u)) (layer : ∀ l vs, (∀ v ∈ vs, P v) → P (.layer l vs))
    (v : View) : P v := by
  cases v with
  | unit u => exact unit u
  | layer l vs => exact layer l vs fun v _ => induction unit layer v

theorem unitsOf_eq (vs : List View) : unitsOf vs = vs.flatMap units := by
  induction vs with
  | nil => rfl
  | cons v vs ih => rw [unitsOf, ih, flatMap_cons]

theorem selectionsOf_eq (vs : List View) : selectionsOf vs = vs.flatMap selections := by
  induction vs with
  | nil => rfl
  | cons v vs ih => rw [selectionsOf, ih, flatMap_cons]

theorem anyDeclaresTime_eq (vs : List View) : anyDeclaresTime vs = vs.any declaresTime := by
  induction vs with
  | nil => rfl
  | cons v vs ih => rw [anyDeclaresTime, ih, any_cons]

theorem anyDeclaresTime_map {f : View → View} {vs : List View}
    (hf : ∀ v ∈ vs, (f v).declaresTime = v.declaresTime) : anyDeclaresTime (vs.map f) = anyDeclaresTime vs := by
  rw [anyDeclaresTime_eq, anyDeclaresTime_eq, Bool.eq_iff_iff, any_map, any_eq_true, any_eq_true]
  exact exists_congr fun v => and_congr_right fun hv => by rw [Function.comp, hf v hv]

theorem mapMarkedAll_eq (f : Unit → Unit) (vs : List View) : mapMarkedAll f vs = vs.map (mapMarked f) := by
  induction vs with
  | nil => rfl
  | cons v vs ih => rw [mapMarkedAll, ih, map_cons]

theorem mapMarked_id (v : View) : v.mapMarked id = v := by
  induction v with
  | unit u => simp [mapMarked]
  | layer l vs ih => rw [mapMarked, mapMarkedAll_eq, map_congr_left ih, map_id']

theorem staticAll_eq (names : List String) (inherited : Option TimeEncoding) (vs : List View) :
    staticAll names inherited vs = vs.map (static names inherited) := by
  induction vs with
  | nil => rfl
  | cons v vs ih => rw [staticAll, ih, map_cons]

theorem exists_mem_zipIdx {v : View} {vs : List View} (i : Nat) (h : v ∈ vs) : ∃ j, (v, j) ∈ vs.zipIdx i := by
  rw [← zipIdx_map_fst i vs, mem_map] at h
  obtain ⟨⟨_, j⟩, hj, rfl⟩ := h
  exact ⟨j, hj⟩

theorem mem_of_mem_zipIdx {x : View × Nat} {vs : List View} {i : Nat} (h : x ∈ vs.zipIdx i) : x.1 ∈ vs := by
  rw [← zipIdx_map_fst i vs]
  exact mem_map_of_mem h

theorem zipIdx_map_zipIdx (f : View × Nat → View) (i : Nat) (vs : List View) :
    ((vs.zipIdx i).map f).zipIdx i = (vs.zipIdx i).map fun x => (f x, x.2) := by
  induction vs generalizing i with
  | nil => rfl
  | cons v vs ih => rw [zipIdx_cons, map_cons, zipIdx_cons, ih, map_cons]

theorem forall₂_zipIdx_map {R : View → View → Prop} {f : View × Nat → View} {i : Nat} {vs : List View} :
    List.Forall₂ R vs ((vs.zipIdx i).map f) ↔ ∀ x ∈ vs.zipIdx i, R x.1 (f x) := by
  induction vs generalizing i with
  | nil => simp
  | cons v vs ih => simp [zipIdx_cons, ih]

variable (id : ScopeId) (path : String) (inh : Inherited) (i : Nat) (vs : List View)

theorem collectAll_eq : collectAll path inh i vs
    = ((vs.zipIdx i).flatMap fun x => (x.1.collect (childPath path x.2) inh).1,
      (vs.zipIdx i).flatMap fun x => (x.1.collect (childPath path x.2) inh).2) := by
  induction vs generalizing i with
  | nil => rfl
  | cons v vs ih => rw [collectAll, ih, zipIdx_cons, flatMap_cons, flatMap_cons]

theorem scopesAll_eq : scopesAll id path inh i vs
    = (vs.zipIdx i).flatMap fun x => x.1.scopes (id.child "layer" x.2) (childPath path x.2) inh := by
  induction vs generalizing i with
  | nil => rfl
  | cons v vs ih => rw [scopesAll, ih, zipIdx_cons, flatMap_cons]

def elaborateChild (id : ScopeId) (time : Option TimeEncoding) : View → View
  | .unit u => .unit (if u.hasMark then u.elaborate id time else u)
  | .layer l children => elaborate id time (.layer l children)

theorem elaborateChild_eq (v : View) (id : ScopeId) (time : Option TimeEncoding) :
    v.elaborateChild id time = v.elaborate id time
      ∨ ∃ u : Unit, u.hasMark = false ∧ v = .unit u ∧ v.elaborateChild id time = .unit u := by
  cases v with
  | unit u =>
    rw [elaborateChild, elaborate]
    cases hu : u.hasMark with
    | true => exact Or.inl rfl
    | false => exact Or.inr ⟨u, hu, rfl, rfl⟩
  | layer l vs => exact Or.inl rfl

theorem elaborateChildren_eq (time : Option TimeEncoding) : elaborateChildren id time i vs
    = (vs.zipIdx i).map fun x => x.1.elaborateChild (id.child "layer" x.2) time := by
  induction vs generalizing i with
  | nil => rfl
  | cons v vs ih => cases v <;> rw [elaborateChildren, ih, zipIdx_cons, map_cons] <;> rfl

end AnimatedChart.Spec.View

open List AnimatedChart.Spec.Unit

namespace AnimatedChart.Spec

theorem TimeScale.elaborate_type_ne (s : TimeScale) : s.elaborate.type.isEmpty = false := by
  simp only [elaborate]
  by_cases h : s.type.isEmpty = true
  · rw [if_neg (by simp [h])]
    split <;> decide
  · rw [if_pos (by simp [h])]
    simpa using h

theorem TimeScale.elaborate_elaborate (s : TimeScale) : s.elaborate.elaborate = s.elaborate := by
  have htype : s.elaborate.elaborate.type = s.elaborate.type := by
    rw [elaborate]
    simp [elaborate_type_ne]
  have hzero : s.elaborate.elaborate.zero = s.elaborate.zero := by
    show (if s.elaborate.elaborate.type = linear then some (s.elaborate.zero.getD false)
      else s.elaborate.zero) = s.elaborate.zero
    rw [htype]
    show _ = if s.elaborate.type = linear then some (s.zero.getD false) else s.zero
    split
    · next h =>
      show some ((if s.elaborate.type = linear then some (s.zero.getD false) else s.zero).getD false) = _
      rw [if_pos h]
      rfl
    · next h => exact if_neg h
  exact TimeScale.mk.injEq .. |>.mpr ⟨htype, rfl, hzero, rfl⟩

theorem TimeEncoding.elaborate_elaborate (t : TimeEncoding) (mark mark' : String)
    (encodings encodings' : List (Option Encoding)) :
    (t.elaborate mark encodings).elaborate mark' encodings' = t.elaborate mark encodings := by
  have hkey : ((t.elaborate mark encodings).elaborate mark' encodings').key
      = (t.elaborate mark encodings).key := by
    simp only [elaborate]
    cases t.key with
    | none => cases inferKey mark encodings <;> rfl
    | some k =>
      cases k with
      | disabled => rfl
      | field n loop => cases loop <;> rfl
  exact TimeEncoding.mk.injEq .. |>.mpr ⟨rfl, congrArg some (TimeScale.elaborate_elaborate _), hkey, rfl⟩

theorem TimeEncoding.override_empty (own : TimeEncoding) : ({} : TimeEncoding).override own = own := by
  have hfield : (if own.field.isEmpty then "" else own.field) = own.field := by
    split
    · next h => exact (String.isEmpty_iff.mp h).symm
    · rfl
  have horElse {α : Type} (x : Option α) : (x.orElse fun _ => none) = x := by cases x <;> rfl
  exact TimeEncoding.mk.injEq .. |>.mpr ⟨hfield, horElse _, horElse _, horElse _⟩

/-! ## Selections -/

section

variable (id : ScopeId)

theorem Selection.elaborate_gated (a : Selection) :
    (a.isSlider && !(a.elaborate id).select.trigger.filters.contains id.isPlaying) = false := by
  have hfilters : (a.elaborate id).select.trigger.filters
      = if a.isSlider && !a.select.trigger.filters.contains id.isPlaying
        then a.select.trigger.filters ++ [id.isPlaying] else a.select.trigger.filters := rfl
  by_cases hs : (a.isSlider && !a.select.trigger.filters.contains id.isPlaying) = true
  · rw [hfilters, if_pos hs]
    simp
  · rw [hfilters, if_neg hs]
    simpa using hs

theorem Selection.elaborate_elaborate (a : Selection) : (a.elaborate id).elaborate id = a.elaborate id := by
  have hslider : (a.elaborate id).isSlider = a.isSlider := rfl
  rw [elaborate, hslider, elaborate_gated]
  rfl

theorem Selection.elaborate_synthesized (name : String) : (synthesized name).elaborate id = .synthesized name := rfl

theorem Param.elaborate_elaborate (p : Param) : (p.elaborate id).elaborate id = p.elaborate id := by
  cases p with
  | animation a => exact congrArg Param.animation (Selection.elaborate_elaborate id a)
  | plain raw => rfl

variable (ps : List Param)

theorem map_elaborate_elaborate :
    (ps.map (Param.elaborate id)).map (Param.elaborate id) = ps.map (Param.elaborate id) := by
  rw [map_map]
  exact map_congr_left fun p _ => Param.elaborate_elaborate id p

theorem selections_map_elaborate :
    selections (ps.map (Param.elaborate id)) = (selections ps).map (Selection.elaborate id) := by
  induction ps with
  | nil => rfl
  | cons p ps ih =>
    cases p with
    | animation a => exact congrArg (Selection.elaborate id a :: ·) ih
    | plain raw => exact ih

theorem isEmpty_selections_map_elaborate :
    (selections (ps.map (Param.elaborate id))).isEmpty = (selections ps).isEmpty := by
  rw [selections_map_elaborate, isEmpty_map]

end

theorem selections_concat (ps : List Param) (a : Selection) :
    selections (ps ++ [.animation a]) = selections ps ++ [a] := by
  simp [selections, Param.selection?]

theorem isEmpty_selections_concat (ps : List Param) (a : Selection) :
    (selections (ps ++ [.animation a])).isEmpty = false := by
  simp [selections_concat]

/-! ## Units -/

namespace Unit

section

variable (name : String) (u : Unit)

theorem hasMark_filteredBy : (u.filteredBy name).hasMark = u.hasMark := by
  unfold filteredBy
  split <;> rfl

theorem time_filteredBy : (u.filteredBy name).time = u.time := by
  unfold filteredBy
  split <;> rfl

theorem encoding_filteredBy : (u.filteredBy name).encoding = u.encoding := by
  unfold filteredBy
  split <;> rfl

theorem params_filteredBy : (u.filteredBy name).params = u.params := by
  unfold filteredBy
  split <;> rfl

end

def effectiveTime (inherited : Option TimeEncoding) (u : Unit) : Option TimeEncoding :=
  match inherited with
  | some t => some (match u.time with
    | some own => t.override own
    | none => t)
  | none => u.time

/-- The unit with its time encoding and its parameters decided, before a selection is synthesized. -/
def decided (id : ScopeId) (t : TimeEncoding) (u : Unit) : Unit :=
  { u with
    encoding := some { u.encoding.getD {} with time := some (t.elaborate u.markType [u.encoding]) }
    params := u.params.map (Param.elaborate id) }

def withDefault (id : ScopeId) (u : Unit) : Unit :=
  { u.filteredBy id.defaultSelection with
    params := u.params ++ [.animation (.synthesized id.defaultSelection)] }

section

variable {id : ScopeId} {inherited : Option TimeEncoding} {u : Unit} {t : TimeEncoding}

theorem elaborate_eq : u.elaborate id inherited = (u.effectiveTime inherited).elim u fun t =>
    if (u.decided id t).selections.isEmpty then (u.decided id t).withDefault id else u.decided id t := by
  unfold elaborate effectiveTime
  cases inherited <;> cases u.time <;> rfl

theorem elaborate_of_none (h : u.effectiveTime inherited = none) : u.elaborate id inherited = u := by
  rw [elaborate_eq, h, Option.elim_none]

theorem elaborate_of_some (h : u.effectiveTime inherited = some t) : u.elaborate id inherited
      = if u.selections.isEmpty then (u.decided id t).withDefault id else u.decided id t := by
  rw [selections, ← isEmpty_selections_map_elaborate id, elaborate_eq, h, Option.elim_some]
  rfl

theorem time_eq_none_of_effectiveTime (h : u.effectiveTime inherited = none) : u.time = none := by
  cases inherited with
  | none => exact h
  | some t => simp [effectiveTime] at h

theorem decided_eq_self (channels : Dict Json.Fragment) (he : u.encoding = some { channels, time := some t })
    (ht : t.elaborate u.markType [u.encoding] = t)
    (hp : u.params.map (Param.elaborate id) = u.params) : u.decided id t = u := by
  unfold decided
  rw [ht, hp, he]
  exact mk.injEq .. |>.mpr ⟨rfl, he.symm, rfl, rfl, rfl, rfl, rfl⟩

end

variable (id : ScopeId) (inherited : Option TimeEncoding) (u : Unit)

theorem hasMark_elaborate : (u.elaborate id inherited).hasMark = u.hasMark := by
  cases h : u.effectiveTime inherited with
  | none => rw [elaborate_of_none h]
  | some t =>
    rw [elaborate_of_some h]
    split
    · exact hasMark_filteredBy _ _
    · rfl

theorem time_elaborate : (u.elaborate id inherited).time
    = (u.effectiveTime inherited).map (·.elaborate u.markType [u.encoding]) := by
  cases h : u.effectiveTime inherited with
  | none => rw [elaborate_of_none h, time_eq_none_of_effectiveTime h, Option.map_none]
  | some t =>
    rw [elaborate_of_some h]
    split
    · exact time_filteredBy _ _
    · rfl

theorem elaborate_elaborate : (u.elaborate id inherited).elaborate id none = u.elaborate id inherited := by
  cases h : u.effectiveTime inherited with
  | none =>
    rw [elaborate_of_none h]
    exact elaborate_of_none (time_eq_none_of_effectiveTime h)
  | some t =>
    have htime : (u.elaborate id inherited).effectiveTime none = some (t.elaborate u.markType [u.encoding]) := by
      show (u.elaborate id inherited).time = _
      rw [time_elaborate, h, Option.map_some]
    rw [elaborate_of_some htime]
    by_cases hs : u.selections.isEmpty = true
    · have hu : u.elaborate id inherited = (u.decided id t).withDefault id := by rw [elaborate_of_some h, if_pos hs]
      have hne : ¬ ((u.decided id t).withDefault id).selections.isEmpty = true :=
        Bool.eq_false_iff.mp (isEmpty_selections_concat _ _)
      rw [hu, if_neg hne]
      refine decided_eq_self (u.encoding.getD {}).channels ?_ (TimeEncoding.elaborate_elaborate _ _ _ _ _) ?_
      · exact encoding_filteredBy _ _
      · show ((u.params.map (Param.elaborate id)) ++ [_]).map (Param.elaborate id) = _
        rw [map_append, map_elaborate_elaborate]
        rfl
    · have hu : u.elaborate id inherited = u.decided id t := by rw [elaborate_of_some h, if_neg hs]
      have hne : ¬ (u.decided id t).selections.isEmpty = true := by
        rwa [selections, decided, isEmpty_selections_map_elaborate]
      rw [hu, if_neg hne]
      exact decided_eq_self (u.encoding.getD {}).channels rfl (TimeEncoding.elaborate_elaborate _ _ _ _ _)
        (map_elaborate_elaborate id u.params)

theorem declaresTime_elaborate (h : u.time.isSome = true) : (u.elaborate id inherited).time.isSome = true := by
  rw [time_elaborate, Option.isSome_map]
  cases inherited with
  | none => exact h
  | some t => rfl

end Unit

/-! ## Changing the marked units of a tree -/

/-- The change that a marked unit goes through, and none for a unit without a mark. -/
def Unit.changeMarked (f : Unit → Unit) (u : Unit) : Unit := if u.hasMark then f u else u

namespace View

variable {f : Unit → Unit}

theorem mapMarked_mapMarked {g h : Unit → Unit} (hmark : ∀ u, (g u).hasMark = u.hasMark)
    (hfg : ∀ u, f (g u) = h u) (v : View) : (v.mapMarked g).mapMarked f = v.mapMarked h := by
  induction v with
  | unit u =>
    simp only [mapMarked]
    by_cases hu : u.hasMark = true
    · rw [if_pos hu, if_pos hu, if_pos (by rw [hmark, hu]), hfg]
    · rw [if_neg hu, if_neg hu, if_neg hu]
  | layer l vs ih => simpa [mapMarked, mapMarkedAll_eq] using ih

theorem mapMarkedAll_mapMarkedAll {g h : Unit → Unit} (hmark : ∀ u, (g u).hasMark = u.hasMark)
    (hfg : ∀ u, f (g u) = h u) (vs : List View) : mapMarkedAll f (mapMarkedAll g vs) = mapMarkedAll h vs := by
  simp [mapMarkedAll_eq, mapMarked_mapMarked hmark hfg]

theorem anyDeclaresTime_mapMarkedAll (hf : ∀ u, (f u).time = u.time) (vs : List View) :
    anyDeclaresTime (mapMarkedAll f vs) = anyDeclaresTime vs := by
  have hview (v : View) : (v.mapMarked f).declaresTime = v.declaresTime := by
    induction v with
    | unit u =>
      simp only [mapMarked, declaresTime]
      split
      · rw [hf]
      · rfl
    | layer l vs ih => rw [mapMarked, declaresTime, declaresTime, mapMarkedAll_eq, anyDeclaresTime_map ih]
  rw [mapMarkedAll_eq, anyDeclaresTime_map fun v _ => hview v]

theorem units_mapMarked (f : Unit → Unit) (v : View) : (v.mapMarked f).units = v.units.map (changeMarked f) := by
  induction v with
  | unit u => rfl
  | layer l vs ih =>
    rw [mapMarked, units, units, mapMarkedAll_eq, unitsOf_eq, unitsOf_eq, flatMap_map, map_flatMap]
    exact flatMap_congr ih

theorem unitsOf_mapMarkedAll (f : Unit → Unit) (vs : List View) :
    unitsOf (mapMarkedAll f vs) = (unitsOf vs).map (changeMarked f) := by
  simp [mapMarkedAll_eq, unitsOf_eq, flatMap_map, map_flatMap, units_mapMarked]

theorem markedOf_mapMarkedAll (hf : ∀ u, (f u).hasMark = u.hasMark) (vs : List View) :
    markedOf (mapMarkedAll f vs) = (markedOf vs).map f := by
  have hmark : hasMark ∘ changeMarked f = hasMark := by
    funext u
    rw [Function.comp, changeMarked]
    split
    · exact hf u
    · rfl
  rw [markedOf, unitsOf_mapMarkedAll, filter_map, hmark]
  exact map_congr_left fun u hu => if_pos (mem_filter.mp hu).2

end View

/-! ## Layers that own their time encoding -/

def Unit.withParams (id : ScopeId) (u : Unit) : Unit := { u with params := u.params.map (Param.elaborate id) }

namespace Layer

/-- A layer with its time encoding and its parameters decided, before a selection is synthesized. -/
def decided (id : ScopeId) (time : TimeEncoding) (l : Layer) (children : List View) : Layer :=
  let first := (View.markedOf children).head?
  { l with
    encoding := some { l.encoding.getD {} with
      time := some (time.elaborate ((first.map markType).getD "")
        (l.encoding :: (first.map (·.encoding)).toList)) }
    params := l.params.map (Param.elaborate id) }

def withDefault (id : ScopeId) (l : Layer) : Layer :=
  { l with params := l.params ++ [.animation (.synthesized id.defaultSelection)] }

def declaresSelection (l : Layer) (children : List View) : Bool :=
  (View.markedOf children).any (fun u => !u.selections.isEmpty) || !l.selections.isEmpty

variable (id : ScopeId) (time : TimeEncoding) (l : Layer) (children : List View)

theorem selections_decided : (l.decided id time children).selections = l.selections.map (Selection.elaborate id) :=
  selections_map_elaborate id l.params

theorem elaborateOwned_eq : l.elaborateOwned id time children = if l.declaresSelection children then
          .layer (l.decided id time children) (View.mapMarkedAll (withParams id) children) else
          .layer ((l.decided id time children).withDefault id) (View.mapMarkedAll (filteredBy id.defaultSelection)
              (View.mapMarkedAll (withParams id) children)) := by
  have hdecided : ((View.markedOf children).any (fun u => !u.selections.isEmpty)
        || !(l.decided id time children).selections.isEmpty) = l.declaresSelection children := by
    rw [selections_decided, isEmpty_map]
    rfl
  rw [← hdecided]
  rfl

theorem declaresTime_elaborateOwned : (l.elaborateOwned id time children).declaresTime = true := by
  rw [elaborateOwned_eq]
  split <;> simp [View.declaresTime, Layer.time, decided, withDefault]

end Layer

theorem Unit.withParams_withParams (id : ScopeId) (u : Unit) : (u.withParams id).withParams id = u.withParams id := by
  show { u with params := (u.params.map (Param.elaborate id)).map (Param.elaborate id) } = u.withParams id
  rw [map_elaborate_elaborate]
  rfl

theorem Unit.withParams_filteredBy (id : ScopeId) (name : String) (u : Unit) :
    (u.filteredBy name).withParams id = (u.withParams id).filteredBy name := by
  unfold filteredBy
  show (if (u.hasMark && !u.transforms.any (·.param == name)) = true then _ else _ : Unit).withParams id
    = if (u.hasMark && !u.transforms.any (·.param == name)) = true then _ else _
  split <;> rfl

theorem View.withParams_children (id : ScopeId) (children : List View) :
    mapMarkedAll (withParams id) (mapMarkedAll (withParams id) children) = mapMarkedAll (withParams id) children :=
  mapMarkedAll_mapMarkedAll (g := withParams id) (fun _ => rfl) (withParams_withParams id) children

theorem View.withParams_filtered (id : ScopeId) (name : String) (children : List View) :
    mapMarkedAll (withParams id) (mapMarkedAll (filteredBy name) (mapMarkedAll (withParams id) children))
      = mapMarkedAll (filteredBy name) (mapMarkedAll (withParams id) children) := by
  rw [mapMarkedAll_mapMarkedAll (hasMark_filteredBy name) (withParams_filteredBy id name),
    ← mapMarkedAll_mapMarkedAll (f := filteredBy name) (g := withParams id) (fun _ => rfl)
      (fun _ => rfl), withParams_children]

/-! ## Trees -/

namespace Layer

def effectiveTime (inherited : Option TimeEncoding) (l : Layer) : Option TimeEncoding :=
  match l.time with
  | some own => some ((inherited.getD {}).override own)
  | none => inherited

variable (l : Layer)

theorem isSome_effectiveTime (inherited : Option TimeEncoding) :
    (l.effectiveTime inherited).isSome = (inherited.isSome || l.time.isSome) := by
  unfold effectiveTime
  cases l.time <;> simp

theorem time_withoutTime : l.withoutTime.time = none := by
  unfold withoutTime time
  cases l.encoding with
  | none => rfl
  | some e =>
    simp only [Option.map_some, Option.filter_some]
    split <;> rfl

theorem withoutTime_withoutTime : l.withoutTime.withoutTime = l.withoutTime := by
  unfold withoutTime
  simp only [mk.injEq, and_self, and_true]
  cases l.encoding with
  | none => rfl
  | some e =>
    simp only [Option.map_some, Option.filter_some]
    split
    · next h => simp [h]
    · rfl

end Layer

namespace View

variable (id : ScopeId)

theorem elaborate_layer (inherited : Option TimeEncoding) (l : Layer) (children : List View) :
    (layer l children).elaborate id inherited
      = if anyDeclaresTime children then
          .layer l.withoutTime (elaborateChildren id (l.effectiveTime inherited) 0 children)
        else
          match l.effectiveTime inherited with
          | none => .layer l children
          | some t => l.elaborateOwned id t children := by
  rw [elaborate]
  rfl

theorem anyDeclaresTime_elaborateChildren {vs : List View} {time : Option TimeEncoding}
    (hvs : ∀ v ∈ vs, ∀ id, v.declaresTime = true → (v.elaborate id time).declaresTime = true) (i : Nat)
    (h : anyDeclaresTime vs = true) : anyDeclaresTime (elaborateChildren id time i vs) = true := by
  rw [anyDeclaresTime_eq, any_eq_true] at h
  obtain ⟨v, hv, h⟩ := h
  obtain ⟨j, hj⟩ := exists_mem_zipIdx i hv
  rw [elaborateChildren_eq, anyDeclaresTime_eq, any_map, any_eq_true]
  refine ⟨(v, j), hj, ?_⟩
  show (v.elaborateChild (id.child "layer" j) time).declaresTime = true
  rcases elaborateChild_eq v (id.child "layer" j) time with he | ⟨u, -, rfl, he⟩
  · rw [he, hvs v hv _ h]
  · rw [he, h]

theorem declaresTime_elaborate (v : View) (inherited : Option TimeEncoding)
    (h : v.declaresTime = true) : (v.elaborate id inherited).declaresTime = true := by
  induction v generalizing id inherited with
  | unit u =>
    simp only [elaborate, declaresTime] at h ⊢
    exact declaresTime_elaborate id inherited u h
  | layer l children ih =>
    rw [elaborate_layer]
    simp only [declaresTime, Bool.or_eq_true] at h
    by_cases hc : anyDeclaresTime children = true
    · rw [if_pos hc, declaresTime, anyDeclaresTime_elaborateChildren id (fun v hv id => ih v hv id _) 0 hc,
        Bool.or_true]
    · have htime : (l.effectiveTime inherited).isSome = true := by
        rw [Layer.isSome_effectiveTime, h.resolve_right hc, Bool.or_true]
      obtain ⟨t, ht⟩ := Option.isSome_iff_exists.mp htime
      rw [if_neg hc, ht]
      exact Layer.declaresTime_elaborateOwned _ _ _ _

end View

theorem Layer.elaborate_of_settled {id : ScopeId} {t : TimeEncoding} {l : Layer} {children : List View}
    (channels : Dict Json.Fragment) (he : l.encoding = some { channels, time := some t })
    (ht : ∀ mark encodings, t.elaborate mark encodings = t)
    (hp : l.params.map (Param.elaborate id) = l.params)
    (hc : View.anyDeclaresTime children = false)
    (hu : View.mapMarkedAll (withParams id) children = children)
    (hs : l.declaresSelection children = true) :
    (View.layer l children).elaborate id none = .layer l children := by
  have htime : l.effectiveTime none = some t := by
    unfold effectiveTime time
    rw [he]
    exact congrArg some (TimeEncoding.override_empty t)
  have hdecided : l.decided id t children = l := by
    unfold decided
    simp only [ht, hp, he]
    exact mk.injEq .. |>.mpr ⟨he.symm, rfl, rfl, rfl⟩
  rw [View.elaborate_layer, if_neg (by simp [hc]), htime]
  simp only
  rw [elaborateOwned_eq, if_pos hs, hdecided, hu]

theorem Layer.elaborate_elaborateOwned (id : ScopeId) (t : TimeEncoding) (l : Layer) (children : List View)
    (hc : View.anyDeclaresTime children = false) :
    (l.elaborateOwned id t children).elaborate id none = l.elaborateOwned id t children := by
  have ht (mark encodings mark' encodings') := TimeEncoding.elaborate_elaborate t mark mark' encodings encodings'
  have hchildren : View.anyDeclaresTime (View.mapMarkedAll (withParams id) children) = false := by
    rw [View.anyDeclaresTime_mapMarkedAll (f := withParams id) (fun _ => rfl), hc]
  have hparams : (l.decided id t children).params.map (Param.elaborate id) = (l.decided id t children).params :=
    map_elaborate_elaborate id l.params
  rw [elaborateOwned_eq]
  split
  · next hs =>
    refine elaborate_of_settled _ rfl (ht _ _) hparams hchildren (View.withParams_children id children) ?_
    -- The selection that was declared is still there, in the same place.
    unfold declaresSelection at hs ⊢
    rw [View.markedOf_mapMarkedAll (f := withParams id) (fun _ => rfl), selections_decided,
      any_map, isEmpty_map, ← hs]
    congr 2
    funext u
    exact congrArg not (isEmpty_selections_map_elaborate id u.params)
  · refine elaborate_of_settled _ rfl (ht _ _) ?_ ?_ (View.withParams_filtered id _ children) ?_
    · show ((l.decided id t children).params ++ [_]).map (Param.elaborate id) = _
      rw [map_append, hparams]
      rfl
    · rw [View.anyDeclaresTime_mapMarkedAll (time_filteredBy _), hchildren]
    · rw [declaresSelection, selections, withDefault, isEmpty_selections_concat, Bool.not_false, Bool.or_true]

namespace View

theorem elaborateChild_elaborateChild {v : View} {id : ScopeId} {time : Option TimeEncoding}
    (h : (v.elaborate id time).elaborate id none = v.elaborate id time) :
    (v.elaborateChild id time).elaborateChild id none = v.elaborateChild id time := by
  cases v with
  | unit u =>
    simp only [elaborateChild, unit.injEq]
    by_cases hu : u.hasMark = true
    · rw [if_pos hu, if_pos (by rw [hasMark_elaborate, hu]), elaborate_elaborate]
    · rw [if_neg hu, if_neg hu]
  | layer l children =>
    have hlayer : ∃ l' children', (layer l children).elaborate id time = .layer l' children' := by
      rw [elaborate_layer]
      split
      · exact ⟨_, _, rfl⟩
      · split
        · exact ⟨_, _, rfl⟩
        · rw [Layer.elaborateOwned_eq]
          split <;> exact ⟨_, _, rfl⟩
    obtain ⟨l', children', hl⟩ := hlayer
    rw [hl] at h
    rw [elaborateChild, hl, elaborateChild, h]

theorem elaborate_elaborate (v : View) (id : ScopeId) (inherited : Option TimeEncoding) :
    (v.elaborate id inherited).elaborate id none = v.elaborate id inherited := by
  induction v generalizing id inherited with
  | unit u => rw [elaborate, elaborate, Unit.elaborate_elaborate]
  | layer l children ih =>
    rw [elaborate_layer]
    by_cases hc : anyDeclaresTime children = true
    · have hc' := anyDeclaresTime_elaborateChildren id
        (fun v _ id => declaresTime_elaborate id v (l.effectiveTime inherited)) 0 hc
      rw [if_pos hc, elaborate_layer, if_pos hc', Layer.withoutTime_withoutTime, Layer.effectiveTime,
        Layer.time_withoutTime]
      simp only [layer.injEq, true_and, elaborateChildren_eq, zipIdx_map_zipIdx, map_map]
      exact map_congr_left fun x hx => elaborateChild_elaborateChild (ih x.1 (mem_of_mem_zipIdx hx) _ _)
    · rw [if_neg hc]
      cases htime : l.effectiveTime inherited with
      | none =>
        have hnone : l.effectiveTime none = none := by
          unfold Layer.effectiveTime at htime ⊢
          cases hl : l.time with
          | none => rfl
          | some own => simp [hl] at htime
        simp only
        rw [elaborate_layer, if_neg hc, hnone]
      | some t => exact Layer.elaborate_elaborateOwned _ _ _ _ (by simpa using hc)

end View

/-- Elaboration is idempotent. -/
theorem Chart.elaborate_idempotent (c : Chart) : c.elaborate.elaborate = c.elaborate := by
  cases c with
  | view v => exact congrArg Chart.view (View.elaborate_elaborate v .root none)
  | vconcat us others =>
    simp only [elaborate]
    cases us with
    | none => rfl
    | some us =>
      simp only [Option.map_some, Chart.vconcat.injEq, and_true, Option.some.injEq]
      rw [mapIdx_mapIdx]
      refine mapIdx_eq_mapIdx_iff.mpr fun i hi => ?_
      exact Unit.elaborate_elaborate _ none us[i]

end AnimatedChart.Spec

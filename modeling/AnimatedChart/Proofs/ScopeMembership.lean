import AnimatedChart.Proofs.Scope.Sites

/-!
# The units of scopes

`Chart.placed` lists the units of a chart with their paths, and tells of each whether it, or a layer around it, declares
a time encoding.
-/

open List

namespace AnimatedChart.Spec

variable (ps : List Placed) (c : Chart)

/-- A unit at its place. -/
structure Placed where
  path : String
  unit : Unit
  /-- The unit, or a layer around it, declares a time encoding. -/
  timed : Bool

namespace Placed

def isMarked (p : Placed) : Bool := p.unit.hasMark

def entry (p : Placed) : String × Unit := (p.path, p.unit)

def clock (p : Placed) : String × Bool := (p.path, p.timed)

end Placed

mutual

/-- The units of a view in document order. -/
def View.placed (path : String) (timed : Bool) : View → List Placed
  | .unit u => [⟨path, u, timed || u.time.isSome⟩]
  | .layer l children => placedAll path (timed || l.time.isSome) 0 children

def View.placedAll (path : String) (timed : Bool) : Nat → List View → List Placed
  | _, [] => []
  | i, v :: vs => v.placed (childPath path i) timed ++ placedAll path timed (i + 1) vs

end

def Chart.placed : Chart → List Placed
  | .view v => v.placed "" false
  | .vconcat us _ => (us.getD []).mapIdx fun i u => ⟨concatPath i, u, u.time.isSome⟩

def markedPaths (ps : List Placed) : List String := (ps.filter Placed.isMarked).map Placed.path

theorem markedPaths_append (qs : List Placed) : markedPaths (ps ++ qs) = markedPaths ps ++ markedPaths qs := by
  rw [markedPaths, filter_append, map_append]
  rfl

namespace View

theorem placedAll_eq (path : String) (timed : Bool) (i : Nat) (vs : List View) :
    placedAll path timed i vs = (vs.zipIdx i).flatMap fun x => x.1.placed (childPath path x.2) timed := by
  induction vs generalizing i with
  | nil => rfl
  | cons v vs ih => rw [placedAll, ih, zipIdx_cons, flatMap_cons]

theorem paths_placed (v : View) (id : ScopeId) (path : String) (around : List (Layer × List View))
    (inh : Inherited) (timed : Bool) :
    ((v.placed path timed).map Placed.path).Sublist ((v.sites id path around inh).map Site.path) := by
  induction v generalizing id path around inh timed with
  | unit u => exact .refl _
  | layer l vs ih =>
    rw [placed, placedAll_eq, sites, sitesAll_eq, map_cons, map_flatMap, map_flatMap]
    exact .cons _ (.flatMap_right _ fun x hx => ih x.1 (mem_of_mem_zipIdx hx) _ _ _ _ _)

end View

theorem Chart.paths_placed : (c.placed.map Placed.path).Sublist (c.sites.map Site.path) := by
  cases c with
  | view v => exact v.paths_placed _ _ _ _ _
  | vconcat us others =>
    rw [placed, sites, mapIdx_eq_zipIdx_map, mapIdx_eq_zipIdx_map, map_map, map_map]
    exact .refl _

theorem Chart.nodup_paths : (c.placed.map Placed.path).Nodup := c.paths_placed.nodup c.nodup_sitePaths

/-! ## Scopes list the marked units that are timed -/

def ScopedUnit.entry (u : ScopedUnit) : String × Unit := (u.path, u.unit)

theorem View.entries_collect (v : View) (path : String) (inh : Inherited) (timed : Bool) :
    (v.collect path inh).2.map ScopedUnit.entry = ((v.placed path timed).filter Placed.isMarked).map Placed.entry := by
  induction v generalizing path inh timed with
  | unit u =>
    rw [collect, placed, filter_singleton, Placed.isMarked]
    cases u.hasMark <;> rfl
  | layer l vs ih =>
    simp only [collect, placed, collectAll_eq, placedAll_eq, map_flatMap, filter_flatMap]
    exact flatMap_congr fun x hx => ih x.1 (mem_of_mem_zipIdx hx) _ _ _

def Placed.isAnimated (p : Placed) : Bool := p.isMarked && p.timed

theorem View.timed_placed (v : View) (path : String) (p : Placed) (h : p ∈ v.placed path true) : p.timed = true := by
  induction v generalizing path with
  | unit u =>
    obtain rfl := mem_singleton.mp h
    rfl
  | layer l vs ih =>
    rw [placed, Bool.true_or, placedAll_eq] at h
    obtain ⟨x, hx, h⟩ := mem_flatMap.mp h
    exact ih x.1 (mem_of_mem_zipIdx hx) _ h

theorem Placed.filter_isAnimated {ps : List Placed} (h : ∀ p ∈ ps, p.timed = true) :
    ps.filter isAnimated = ps.filter isMarked := by
  refine filter_congr fun p hp => ?_
  unfold isAnimated
  rw [h p hp, Bool.and_true]

theorem View.entries_scopes (v : View) (id : ScopeId) (path : String) (inh : Inherited) :
    ((v.scopes id path inh).flatMap Scope.units).map ScopedUnit.entry
      = ((v.placed path false).filter Placed.isAnimated).map Placed.entry := by
  induction v generalizing id path inh with
  | unit u =>
    rw [scopes, placed, filter_singleton, Placed.isAnimated, Placed.isMarked]
    cases u.time with
    | none => simp
    | some t => cases u.hasMark <;> rfl
  | layer l vs ih =>
    rw [scopes]
    cases ht : l.time with
    | none =>
      simp only [placed, ht, Option.isSome_none, Bool.or_self, scopesAll_eq, placedAll_eq, flatMap_assoc,
        map_flatMap, filter_flatMap]
      refine flatMap_congr fun x hx => ?_
      rw [← map_flatMap, ih x.1 (mem_of_mem_zipIdx hx)]
    | some t =>
      have htimed : (layer l vs).placed path false = (layer l vs).placed path true := by
        rw [placed, placed, ht, Option.isSome_some, Bool.or_true, Bool.or_true]
      rw [htimed, Placed.filter_isAnimated (timed_placed _ path), ← entries_collect _ _ inh]
      exact congrArg (List.map _) (append_nil _)

theorem map_filter_eq_flatMap {α β : Type} (p : α → Bool) (k : α → β) (as : List α) :
    (as.filter p).map k = as.flatMap fun a => ([a].filter p).map k := by
  induction as with
  | nil => rfl
  | cons a as ih => rw [flatMap_cons, ← ih, ← map_append, ← filter_append, singleton_append]

theorem Chart.units_scopes : (c.scopes.flatMap Scope.units).map ScopedUnit.entry
      = (c.placed.filter Placed.isAnimated).map Placed.entry := by
  cases c with
  | view v => exact View.entries_scopes v .root "" {}
  | vconcat us others =>
    rw [scopes, placed, map_filter_eq_flatMap]
    simp only [mapIdx_eq_zipIdx_map, ← flatMap_def, flatMap_assoc, map_flatMap, flatMap_map]
    congr 1
    funext x
    exact (map_flatMap ..).symm.trans ((View.entries_scopes (.unit x.1) _ _ _).trans rfl)

/-! ## Elaboration keeps what is animated -/

theorem Placed.clocks_singleton (path : String) (u : Unit) (timed : Bool) :
    ([⟨path, u, timed⟩].filter isMarked).map clock = if u.hasMark then [(path, timed)] else [] := by
  by_cases hu : u.hasMark = true
  · rw [if_pos hu, filter_cons_of_pos (show isMarked ⟨path, u, timed⟩ = true from hu)]
    rfl
  · rw [if_neg hu, filter_cons_of_neg (show ¬isMarked ⟨path, u, timed⟩ = true from hu)]
    rfl

theorem View.clocks_mapMarked {f : Unit → Unit} (hf : ∀ u, (f u).hasMark = u.hasMark) (v : View) (path : String) :
    (((v.mapMarked f).placed path true).filter Placed.isMarked).map Placed.clock
      = ((v.placed path true).filter Placed.isMarked).map Placed.clock := by
  induction v generalizing path with
  | unit u =>
    rw [mapMarked, placed, placed, Placed.clocks_singleton, Placed.clocks_singleton]
    cases hu : u.hasMark with
    | true => simp [hf, hu]
    | false => simp [hu]
  | layer l vs ih =>
    simp only [mapMarked, placed, Bool.true_or, mapMarkedAll_eq, placedAll_eq, zipIdx_map, flatMap_map,
      filter_flatMap, map_flatMap]
    exact flatMap_congr fun x hx => ih x.1 (mem_of_mem_zipIdx hx) _

theorem Layer.clocks_elaborateOwned (id : ScopeId) (t : TimeEncoding) (l : Layer) (children : List View)
    (path : String) : (((l.elaborateOwned id t children).placed path false).filter Placed.isMarked).map Placed.clock
      = ((View.placedAll path true 0 children).filter Placed.isMarked).map Placed.clock := by
  have hparams := View.clocks_mapMarked (f := Unit.withParams id) (fun _ => rfl) (.layer l children) path
  rw [elaborateOwned_eq]
  split
  · exact hparams
  · exact (View.clocks_mapMarked (Unit.hasMark_filteredBy _) (.layer l _) path).trans hparams

theorem Unit.isSome_time_elaborate (id : ScopeId) (inherited : Option TimeEncoding) (u : Unit) :
    (u.elaborate id inherited).time.isSome = (inherited.isSome || u.time.isSome) := by
  rw [time_elaborate, Option.isSome_map]
  cases inherited <;> rfl

theorem View.clocks_elaborate (v : View) (id : ScopeId) (inherited : Option TimeEncoding) (path : String) :
    (((v.elaborate id inherited).placed path false).filter Placed.isMarked).map Placed.clock
      = ((v.placed path inherited.isSome).filter Placed.isMarked).map Placed.clock := by
  induction v generalizing id inherited path with
  | unit u =>
    simp only [elaborate, placed, Bool.false_or, Unit.isSome_time_elaborate]
    rw [Placed.clocks_singleton, Placed.clocks_singleton, Unit.hasMark_elaborate]
  | layer l vs ih =>
    rw [elaborate_layer, placed, ← Layer.isSome_effectiveTime]
    split
    · simp only [placed, Layer.time_withoutTime, elaborateChildren_eq, placedAll_eq, zipIdx_map_zipIdx,
        flatMap_map, filter_flatMap, map_flatMap]
      refine flatMap_congr fun x hx => ?_
      rcases elaborateChild_eq x.1 (id.child "layer" x.2) (l.effectiveTime inherited) with he | ⟨u, hu, hx, he⟩
      · rw [he]
        exact ih x.1 (mem_of_mem_zipIdx hx) _ _ _
      · rw [he, hx, placed, placed, Placed.clocks_singleton, Placed.clocks_singleton, hu]
        rfl
    · cases htime : l.effectiveTime inherited with
      | none =>
        have hsome := l.isSome_effectiveTime inherited
        rw [htime] at hsome
        rw [placed, (Bool.or_eq_false_iff.mp hsome.symm).2]
        rfl
      | some t => exact Layer.clocks_elaborateOwned id t l vs path

theorem Chart.clocks_elaborate : (c.elaborate.placed.filter Placed.isMarked).map Placed.clock
      = (c.placed.filter Placed.isMarked).map Placed.clock := by
  cases c with
  | view v => exact View.clocks_elaborate v .root none ""
  | vconcat us others =>
    simp only [elaborate, placed]
    cases us with
    | none => rfl
    | some us =>
      rw [Option.map_some, Option.getD_some, mapIdx_mapIdx, map_filter_eq_flatMap, map_filter_eq_flatMap]
      simp only [mapIdx_eq_zipIdx_map, flatMap_map, Function.comp_apply, Placed.clocks_singleton,
        Unit.hasMark_elaborate, Unit.isSome_time_elaborate]
      rfl

def Chart.scopedPaths (c : Chart) : List String :=
  (c.scopes.flatMap Scope.units).map ScopedUnit.path

theorem Placed.filter_marked_timed : ps.filter isAnimated = (ps.filter isMarked).filter Placed.timed := by
  rw [filter_filter]
  refine filter_congr fun p _ => ?_
  unfold isAnimated
  rw [Bool.and_comm]

theorem Placed.paths_animated : (ps.filter isAnimated).map Placed.path
      = (((ps.filter isMarked).map clock).filter Prod.snd).map Prod.fst := by
  rw [filter_marked_timed, filter_map, map_map]
  rfl

theorem Chart.scopedPaths_elaborate :
    c.elaborate.scopedPaths = (c.placed.filter Placed.isAnimated).map Placed.path := by
  have hpaths : c.elaborate.scopedPaths
      = ((c.elaborate.scopes.flatMap Scope.units).map ScopedUnit.entry).map Prod.fst := by
    rw [map_map]
    rfl
  rw [hpaths, units_scopes, map_map, show Prod.fst ∘ Placed.entry = Placed.path from rfl,
    Placed.paths_animated, clocks_elaborate, ← Placed.paths_animated]

/-- The units listed by the scopes of an elaborated chart are marked units of its tree, in document order and none
twice. A marked unit is among them exactly if, before elaboration, the unit or a layer around it declared a time
encoding. -/
theorem Chart.scope_membership_exact (c : Chart) :
    ((c.elaborate.scopes.flatMap Scope.units).map ScopedUnit.entry).Sublist
        ((c.elaborate.placed.filter Placed.isMarked).map Placed.entry)
      ∧ c.elaborate.scopedPaths.Sublist ((c.placed.filter Placed.isMarked).map Placed.path)
      ∧ c.elaborate.scopedPaths.Nodup
      ∧ ∀ p ∈ c.placed, p.isMarked = true → (p.path ∈ c.elaborate.scopedPaths ↔ p.timed = true) := by
  refine ⟨?_, ?_, ?_, ?_⟩
  · rw [units_scopes, Placed.filter_marked_timed]
    exact filter_sublist.map _
  · rw [scopedPaths_elaborate, Placed.filter_marked_timed]
    exact filter_sublist.map _
  · rw [scopedPaths_elaborate]
    exact (filter_sublist.map _).nodup (nodup_paths c)
  · intro p hp hmark
    rw [scopedPaths_elaborate, mem_map]
    constructor
    · rintro ⟨q, hq, hpath⟩
      obtain ⟨hq, hanim⟩ := mem_filter.mp hq
      -- Both places carry one path, so they are one place.
      have hqp : q = p := inj_on_of_nodup_map (nodup_paths c) hq hp hpath
      rw [← hqp]
      exact (Bool.and_eq_true_iff.mp hanim).2
    · intro htimed
      exact ⟨p, mem_filter.mpr ⟨hp, Bool.and_eq_true_iff.mpr ⟨hmark, htimed⟩⟩, rfl⟩

end AnimatedChart.Spec

import AnimatedChart.Proofs.Scope.Selection

/-!
# Filters on animation selections

The static part of a chart drops every filter on an animation selection (`Chart.transforms_static`), and animation
brings it back for the units of the scopes that know the selection.
-/

open List

namespace AnimatedChart.Spec

variable {c : Chart} {sc : Scope} {su : ScopedUnit}

def View.transforms : View → List Transform
  | .unit u => u.transforms
  | .layer l _ => l.transforms

/-- The transforms that apply to a view: those of the layers around it, from the outside in, and its own. -/
def Site.transforms (s : Site) : List Transform := s.around.flatMap (·.1.transforms) ++ s.view.transforms

def Site.unfiltered (names : List String) (s : Site) : ScopeId × List Transform :=
  (s.id, s.view.transforms.filter fun t => !t.filtersOn names)

theorem View.transforms_static (names : List String) (v : View) (inherited : Option TimeEncoding) (id : ScopeId)
    (path : String) (around around' : List (Layer × List View)) (inh inh' : Inherited) :
    ((v.static names inherited).sites id path around' inh').map (fun s => (s.id, s.view.transforms))
      = (v.sites id path around inh).map (Site.unfiltered names) := by
  induction v generalizing inherited id path around around' inh inh' with
  | unit u => rfl
  | layer l vs ih =>
    rw [static, sites, sites, map_cons, map_cons, sitesAll_eq, sitesAll_eq, staticAll_eq, zipIdx_map,
      flatMap_map, map_flatMap, map_flatMap]
    exact congrArg _ (flatMap_congr fun x hx => ih x.1 (mem_of_mem_zipIdx hx) _ _ _ _ _ _ _)

theorem Chart.transforms_static (c : Chart) : c.static.sites.map (fun s => (s.id, s.view.transforms))
      = c.sites.map (Site.unfiltered (c.selections.map Selection.name)) := by
  cases c with
  | view v => exact View.transforms_static _ v none .root "" [] [] {} {}
  | vconcat us others =>
    cases us with
    | none => rfl
    | some us =>
      refine ext_getElem ?_ fun i hi hi' => ?_
      · simp [static, sites]
      · simp only [static, sites, Option.map_some, Option.getD_some, getElem_map, getElem_mapIdx]
        rfl

theorem Chart.inherited_site {s : Site} (h : s ∈ c.sites) :
    s.inherited.transforms = s.around.flatMap (·.1.transforms) := by
  refine forall_sites (P := fun s => s.inherited.transforms = s.around.flatMap (·.1.transforms)) ?_ (fun _ => rfl)
    (fun _ _ _ => rfl) c s h
  intro s l vs i v _ _ h
  show s.inherited.transforms ++ l.transforms = _
  rw [h, Site.child, flatMap_append, flatMap_singleton]

theorem Chart.site_scopes (hsc : sc ∈ c.scopes) (hsu : su ∈ sc.units) :
    ∃ s ∈ c.sites, ∃ u, s.view = .unit u ∧ su = .below u s.path s.inherited := by
  obtain ⟨t, ht, -, hcollect⟩ := mem_scopes hsc
  obtain ⟨s, hs, u, hview, -, hbelow⟩ := t.mem_collected su (congrArg Prod.snd hcollect ▸ hsu)
  exact ⟨s, sites_subset ht hs, u, hview, hbelow⟩

theorem Chart.transforms_scopedUnit {s : Site} (hsc : sc ∈ c.scopes) (hsu : su ∈ sc.units) (hs : s ∈ c.sites)
    (hpath : su.path = s.path) : su.transforms = s.transforms := by
  obtain ⟨s', hs', u, hview, hbelow⟩ := site_scopes hsc hsu
  have hsame : s' = s := by
    refine inj_on_of_nodup_map (nodup_sitePaths c) hs' hs ?_
    rw [← hpath, hbelow]
    rfl
  subst hsame
  rw [hbelow, Site.transforms, ← inherited_site hs', hview]
  rfl

/-- The static chart drops every filter on an animation selection of the chart. Of the filters that apply to a marked
unit, the animation brings back exactly those on selections of the unit's own scope: a filter on the selection of another
scope, or of a unit that no scope animates, is lost. -/
theorem Chart.filters_within_scopes (c : Chart) :
    c.elaborate.static.sites.map (fun s => (s.id, s.view.transforms))
        = c.elaborate.sites.map (Site.unfiltered (c.elaborate.selections.map Selection.name))
      ∧ ∀ s ∈ c.elaborate.sites, ∀ t ∈ s.transforms, t.filtersOn (c.elaborate.selections.map Selection.name) = true →
        ((∃ sc ∈ c.elaborate.scopes, ∃ u ∈ sc.units, u.path = s.path ∧ t.param ∈ sc.filtersOf u)
          ↔ ∃ sc ∈ c.elaborate.scopes, s.path ∈ sc.units.map ScopedUnit.path
            ∧ t.param ∈ sc.selections.map Selection.name) := by
  refine ⟨transforms_static c.elaborate, fun s hs t ht hfilters => ?_⟩
  have hne : t.param ≠ "" := by
    rw [Transform.filtersOn, Bool.and_eq_true, Bool.not_eq_true'] at hfilters
    intro hempty
    rw [hempty] at hfilters
    exact absurd hfilters.1 (by decide)
  constructor
  · rintro ⟨sc, hsc, u, hu, hpath, hmem⟩
    exact ⟨sc, hsc, mem_map.mpr ⟨u, hu, hpath⟩, (Scope.mem_filtersOf.mp hmem).2.2⟩
  · rintro ⟨sc, hsc, hpath, hname⟩
    obtain ⟨u, hu, hpath⟩ := mem_map.mp hpath
    refine ⟨sc, hsc, u, hu, hpath, Scope.mem_filtersOf.mpr ⟨?_, hne, hname⟩⟩
    rw [transforms_scopedUnit hsc hu hs hpath]
    exact mem_map.mpr ⟨t, ht, rfl⟩

end AnimatedChart.Spec

import AnimatedChart.Proofs.ScopeMembership

/-!
# Owners of scopes

A view owns a scope when it is the outermost view on its way down the tree below which nothing declares a time encoding,
and it or a layer around it declares one (`Site.isOwner`).
-/

open List AnimatedChart.Spec.TimeEncoding

namespace AnimatedChart.Spec

namespace Site

/-- The time encodings declared by the layers around a view and by the view itself, from the outside in. -/
def declared (s : Site) : List TimeEncoding := s.around.filterMap (·.1.time) ++ s.view.time.toList

/-- The time encoding that is in effect at a place: every property as the innermost view has it that sets it. -/
def time (s : Site) : TimeEncoding := s.declared.foldl override {}

/-- The view has a scope of its own. -/
def isOwner (s : Site) : Bool :=
  s.around.all (fun a => View.anyDeclaresTime a.2) && !s.declared.isEmpty
    && match s.view with
      | .unit u => u.hasMark
      | .layer _ children => !View.anyDeclaresTime children

end Site

/-- The mark type that a view's key is inferred from: that of its first marked unit. -/
def View.leadingMark : View → String
  | .unit u => u.markType
  | .layer _ children => ((markedOf children).head?.map Unit.markType).getD ""

/-- The encodings that a view's key is inferred from: its own and that of its first marked unit. -/
def View.leadingEncodings : View → List (Option Encoding)
  | .unit u => [u.encoding]
  | .layer l children => l.encoding :: ((markedOf children).head?.map (·.encoding)).toList

/-- An owner with everything decided that its scope is made of, below the time encoding that is in effect. -/
def View.settled (id : ScopeId) (t : TimeEncoding) : View → View
  | .unit u => .unit (if u.selections.isEmpty then (u.decided id t).withDefault id else u.decided id t)
  | .layer l children => l.elaborateOwned id t children

def Site.scope (s : Site) : Scope where
  id := s.id
  time := s.time.elaborate s.view.leadingMark s.view.leadingEncodings
  selections := ((s.view.settled s.id s.time).collect s.path s.inherited).1
  units := ((s.view.settled s.id s.time).collect s.path s.inherited).2

/-! ## The scopes of an elaborated chart -/

/-- What views hand down to the views inside them: nothing, unless one of them declares a time encoding. -/
def TimeEncoding.handedDown (declared : List TimeEncoding) : Option TimeEncoding :=
  if declared.isEmpty then none else some (declared.foldl override {})

theorem TimeEncoding.handedDown_concat (declared : List TimeEncoding) (own : TimeEncoding) :
    handedDown (declared ++ [own]) = some (((handedDown declared).getD {}).override own) := by
  cases declared with
  | nil => rfl
  | cons t ts => simp [handedDown]

theorem Unit.effectiveTime_eq (inherited : Option TimeEncoding) (u : Unit) :
    u.effectiveTime inherited = match u.time with
      | some own => some ((inherited.getD {}).override own)
      | none => inherited := by
  unfold effectiveTime
  cases inherited <;> cases u.time <;> first | rfl | exact congrArg some (override_empty _).symm

theorem View.scopes_static (v : View) (id : ScopeId) (path : String) (inh : Inherited) (h : v.declaresTime = false) :
    v.scopes id path inh = [] := by
  induction v generalizing id path inh with
  | unit u =>
    rw [declaresTime, Option.isSome_eq_false_iff, Option.isNone_iff_eq_none] at h
    rw [scopes, h]
  | layer l vs ih =>
    rw [declaresTime, Bool.or_eq_false_iff, Option.isSome_eq_false_iff, Option.isNone_iff_eq_none,
      anyDeclaresTime_eq, any_eq_false] at h
    rw [scopes, h.1]
    simp only [scopesAll_eq, flatMap_eq_nil_iff]
    exact fun x hx => ih x.1 (mem_of_mem_zipIdx hx) _ _ _ (Bool.eq_false_iff.mpr (h.2 x.1 (mem_of_mem_zipIdx hx)))

theorem Layer.scopes_elaborateOwned (id : ScopeId) (path : String) (inh : Inherited) (t : TimeEncoding) (l : Layer)
    (children : List View) :
    (l.elaborateOwned id t children).scopes id path inh
      = [{ id
           time := t.elaborate (View.layer l children).leadingMark (View.layer l children).leadingEncodings
           selections := ((l.elaborateOwned id t children).collect path inh).1
           units := ((l.elaborateOwned id t children).collect path inh).2 }] := by
  rw [elaborateOwned_eq]
  split
  · rw [View.scopes, View.collect]
    rfl
  · rw [View.scopes, View.collect]
    rfl

namespace Site

def handed (s : Site) : Option TimeEncoding := handedDown (s.around.filterMap (·.1.time))

theorem handedDown_declared (s : Site) : handedDown s.declared = match s.view.time with
    | some own => some ((s.handed.getD {}).override own)
    | none => s.handed := by
  rw [declared]
  cases s.view.time with
  | none => rw [Option.toList_none, append_nil, handed]
  | some own => rw [Option.toList_some, handedDown_concat, handed]

variable {s : Site} (haround : s.around.all (fun a => View.anyDeclaresTime a.2) = true)
include haround

theorem scopes_elaborate_unit {u : Unit} (hview : s.view = .unit u) :
    (View.unit (u.elaborate s.id s.handed)).scopes s.id s.path s.inherited = ([s].filter isOwner).map scope := by
  have howner : s.isOwner = (!s.declared.isEmpty && u.hasMark) := by rw [isOwner, haround, Bool.true_and, hview]
  have htime : u.effectiveTime s.handed = handedDown s.declared := by
    rw [Unit.effectiveTime_eq, handedDown_declared, hview]
    rfl
  rw [View.scopes, Unit.time_elaborate, Unit.hasMark_elaborate, filter_singleton, howner, htime,
    handedDown]
  cases hd : s.declared.isEmpty with
  | true => rfl
  | false =>
    cases hmark : u.hasMark with
    | false => rfl
    | true =>
      have hsettled : s.view.settled s.id s.time = .unit (u.elaborate s.id s.handed) := by
        rw [handedDown, hd] at htime
        rw [hview, View.settled, Unit.elaborate_of_some htime]
        rfl
      have hscope : s.scope = .ofUnit s.id (s.time.elaborate u.markType [u.encoding]) (u.elaborate s.id s.handed) s.path
          s.inherited := by
        rw [scope, hsettled, View.collect, Unit.hasMark_elaborate, hmark, hview]
        rfl
      exact congrArg (fun sc => [sc]) hscope.symm

theorem scopes_elaborate_layer {l : Layer} {vs : List View} (hview : s.view = .layer l vs)
    (hvs : View.anyDeclaresTime vs = false) :
    (s.view.elaborate s.id s.handed).scopes s.id s.path s.inherited = (s.sites.filter isOwner).map scope := by
  have howner : s.isOwner = !s.declared.isEmpty := by
    rw [isOwner, haround, Bool.true_and, hview]
    simp [hvs]
  -- Nothing below a layer that keeps its time encoding owns a scope.
  have hbelow : (s.children.flatMap sites).filter isOwner = [] := by
    refine filter_eq_nil_iff.mpr fun t ht howner => ?_
    obtain ⟨r, hr, ht⟩ := mem_flatMap.mp ht
    obtain ⟨more, hmore⟩ := around_sites ht
    obtain ⟨l', vs', i, v, hview', -, rfl⟩ := mem_children.mp hr
    obtain ⟨rfl, rfl⟩ := View.layer.inj (hview.symm.trans hview')
    rw [isOwner, hmore] at howner
    simp [child, hvs] at howner
  have htime : l.effectiveTime s.handed = handedDown s.declared := by
    rw [Layer.effectiveTime, handedDown_declared, hview]
    rfl
  rw [sites_eq, filter_cons, hbelow, howner, hview, View.elaborate_layer, if_neg (by simp [hvs]), htime,
    handedDown]
  cases hd : s.declared.isEmpty with
  | true =>
    refine View.scopes_static _ _ _ _ ?_
    have hl : s.view.time.toList = [] := (append_eq_nil_iff.mp (List.isEmpty_iff.mp hd)).2
    rw [hview] at hl
    simp only [View.time, Option.toList_eq_nil_iff] at hl
    simp [View.declaresTime, hl, hvs]
  | false =>
    refine (Layer.scopes_elaborateOwned ..).trans ?_
    simp only [Bool.not_false, if_true, map_cons, map_nil, scope, hview]
    rfl

theorem scopes_elaborate :
    (s.view.elaborate s.id s.handed).scopes s.id s.path s.inherited = (s.sites.filter isOwner).map scope := by
  induction s using induction with
  | h s ih =>
    cases hview : s.view with
    | unit u =>
      rw [View.elaborate, scopes_elaborate_unit haround hview, sites_eq, children, hview]
      rfl
    | layer l vs =>
      cases hvs : View.anyDeclaresTime vs with
      | false => exact hview ▸ scopes_elaborate_layer haround hview hvs
      | true =>
        have howner : s.isOwner = false := by simp [isOwner, hview, hvs]
        have hchild (i : Nat) (v : View) : (s.child l vs i v).handed = l.effectiveTime s.handed := by
          rw [handed, child, filterMap_append, Layer.effectiveTime]
          cases hl : l.time with
          | none => simp [hl, handed]
          | some own => simp [hl, handed, handedDown_concat]
        have hchildren : ∀ t ∈ s.children, t.around.all (fun a => View.anyDeclaresTime a.2) = true := by
          intro t ht
          obtain ⟨_, _, i, v, hview', -, rfl⟩ := mem_children.mp ht
          obtain ⟨rfl, rfl⟩ := View.layer.inj (hview.symm.trans hview')
          simp [child, haround, hvs]
        rw [View.elaborate_layer, if_pos hvs, View.scopes, Layer.time_withoutTime]
        simp only [View.scopesAll_eq, View.elaborateChildren_eq, View.zipIdx_map_zipIdx, flatMap_map]
        rw [sites_eq, filter_cons_of_neg (by simp [howner]), filter_flatMap, map_flatMap,
          children_layer hview, flatMap_map]
        refine flatMap_congr fun x hx => ?_
        have hx : s.child l vs x.2 x.1 ∈ s.children := children_layer hview ▸ mem_map_of_mem hx
        rcases View.elaborateChild_eq x.1 (s.id.child "layer" x.2) (l.effectiveTime s.handed) with he | ⟨u, hu, hv, he⟩
        · rw [he, ← hchild x.2 x.1]
          exact ih _ hx (hchildren _ hx)
        · have hnone : (s.child l vs x.2 x.1).isOwner = false := by simp [isOwner, child, hv, hu]
          have hsites : (s.child l vs x.2 x.1).sites = [s.child l vs x.2 x.1] := by
            rw [child, hv]
            rfl
          rw [he, hsites, filter_singleton, hnone, View.scopes]
          cases u.time <;> simp [hu]

end Site

theorem Chart.scopes_elaborate (c : Chart) : c.elaborate.scopes = (c.sites.filter Site.isOwner).map Site.scope := by
  cases c with
  | view v => exact Site.scopes_elaborate (s := ⟨.root, "", [], {}, v⟩) rfl
  | vconcat us others =>
    cases us with
    | none => rfl
    | some us =>
      simp only [elaborate, scopes, sites, Option.map_some, Option.getD_some]
      rw [mapIdx_mapIdx, map_filter_eq_flatMap, mapIdx_eq_zipIdx_map, mapIdx_eq_zipIdx_map,
        ← flatMap_def, flatMap_map]
      congr 1
      funext x
      exact Site.scopes_elaborate_unit (s := ⟨_, concatPath x.2, [], _, .unit x.1⟩) rfl rfl

theorem Chart.exists_owner {c : Chart} {sc : Scope} (h : sc ∈ c.elaborate.scopes) :
    ∃ s, c.site? sc.id = some s ∧ s.isOwner = true ∧ sc = s.scope := by
  rw [scopes_elaborate] at h
  obtain ⟨s, hs, rfl⟩ := mem_map.mp h
  obtain ⟨hs, howner⟩ := mem_filter.mp hs
  exact ⟨s, site?_eq_some hs, howner, rfl⟩

end AnimatedChart.Spec

import AnimatedChart.Proofs.Scope.Owner

/-!
# Inherited time encodings

A scope runs on the time encodings declared on the way down to its owner, each overriding what stands around it, with
what is left open decided at the end (`Chart.time_inheritance`).
-/

open List

namespace AnimatedChart.Spec

/-! ## Views below a view -/

mutual

def View.descendants : View → List View
  | .unit _ => []
  | .layer _ children => descendantsOf children

def View.descendantsOf : List View → List View
  | [] => []
  | v :: vs => v :: (v.descendants ++ descendantsOf vs)

end

theorem View.descendantsOf_eq (vs : List View) : descendantsOf vs = vs.flatMap fun v => v :: v.descendants := by
  induction vs with
  | nil => rfl
  | cons v vs ih => rw [descendantsOf, ih, flatMap_cons, cons_append]

theorem View.declaresTime_iff (v : View) :
    v.declaresTime = true ↔ v.time.isSome = true ∨ ∃ w ∈ v.descendants, w.time.isSome = true := by
  induction v with
  | unit u => simp [declaresTime, time, descendants]
  | layer l vs ih =>
    rw [declaresTime, Bool.or_eq_true, anyDeclaresTime_eq, any_eq_true, descendants, descendantsOf_eq]
    refine or_congr_right ⟨?_, ?_⟩
    · rintro ⟨v, hv, h⟩
      rcases (ih v hv).mp h with h | ⟨w, hw, h⟩
      · exact ⟨v, mem_flatMap.mpr ⟨v, hv, mem_cons_self⟩, h⟩
      · exact ⟨w, mem_flatMap.mpr ⟨v, hv, mem_cons_of_mem _ hw⟩, h⟩
    · rintro ⟨w, hw, h⟩
      obtain ⟨v, hv, hw⟩ := mem_flatMap.mp hw
      refine ⟨v, hv, (ih v hv).mpr ?_⟩
      rcases mem_cons.mp hw with rfl | hw
      · exact Or.inl h
      · exact Or.inr ⟨w, hw, h⟩

theorem View.anyDeclaresTime_iff {vs : List View} :
    anyDeclaresTime vs = true ↔ ∃ w ∈ descendantsOf vs, w.time.isSome = true := by
  simpa [declaresTime, time, Layer.time, descendants] using declaresTime_iff (.layer {} vs)

theorem Site.declaresTime_of_mem {r s : Site} (hs : s ∈ r.sites) : s.view.declaresTime = true →
    r.view.declaresTime = true := by
  refine forall_sites (P := fun s => s.view.declaresTime = true → r.view.declaresTime = true) ?_ r (fun h => h) s hs
  intro s l vs i v hview hv ih h
  refine ih ?_
  rw [hview, View.declaresTime, Bool.or_eq_true, View.anyDeclaresTime_eq, any_eq_true]
  exact Or.inr ⟨v, mem_of_getElem? hv, h⟩

theorem Site.time_handedDown (r : Site) {s : Site} (inherited : Option TimeEncoding)
    (around : List (Layer × List View)) (inh : Inherited) (hs : s ∈ r.sites)
    (h : ∃ w ∈ s.view.descendants, w.time.isSome = true) :
    ∃ t ∈ (r.view.elaborate r.id inherited).sites r.id r.path around inh, t.id = s.id ∧ t.view.time = none := by
  induction r using induction generalizing inherited around inh with
  | h r ih =>
    have hdeclared := (View.declaresTime_iff s.view).mpr (Or.inr h)
    rw [mem_sites] at hs
    cases hview : r.view with
    | unit u =>
      rw [children, hview] at hs
      obtain rfl := hs.resolve_right (by simp)
      rw [hview] at h
      simp [View.descendants] at h
    | layer l vs =>
      have hvs : View.anyDeclaresTime vs = true := by
        rcases hs with rfl | ⟨c, hc, hs⟩
        · rw [hview] at h
          exact View.anyDeclaresTime_iff.mpr h
        · rw [children_layer hview] at hc
          obtain ⟨x, hx, rfl⟩ := mem_map.mp hc
          rw [View.anyDeclaresTime_eq, any_eq_true]
          exact ⟨x.1, View.mem_of_mem_zipIdx hx, declaresTime_of_mem hs hdeclared⟩
      rw [View.elaborate_layer, if_pos hvs]
      show ∃ t ∈ sites ⟨r.id, r.path, around, inh, .layer l.withoutTime _⟩, _
      rcases hs with rfl | ⟨c, hc, hs⟩
      · exact ⟨_, self_mem_sites _, rfl, Layer.time_withoutTime l⟩
      · rw [children_layer hview] at hc
        obtain ⟨x, hx, rfl⟩ := mem_map.mp hc
        -- Only a unit is elaborated in another way as a child, and no view stands below a unit.
        have he : x.1.elaborateChild (r.id.child "layer" x.2) (l.effectiveTime inherited)
            = x.1.elaborate (r.id.child "layer" x.2) (l.effectiveTime inherited) := by
          refine (View.elaborateChild_eq ..).resolve_right ?_
          rintro ⟨u, -, hu, -⟩
          rw [child, hu] at hs
          obtain rfl := mem_singleton.mp hs
          simp [View.descendants] at h
        obtain ⟨t, ht, hid, htime⟩ := ih _ (children_layer hview ▸ hc) (l.effectiveTime inherited)
          (around ++ [(l.withoutTime, _)]) (inh.within l.others l.transforms) hs
        refine ⟨t, sites_child (mem_children.mpr ⟨_, _, x.2, _, rfl, ?_, rfl⟩) ht, hid, htime⟩
        rw [View.elaborateChildren_eq, getElem?_map, getElem?_zipIdx, mem_zipIdx_iff_getElem?.mp hx,
          Option.map_some, Option.map_some, Nat.zero_add, he]
        rfl

theorem Chart.time_handedDown {c : Chart} {s : Site} (hs : s ∈ c.sites)
    (h : ∃ w ∈ s.view.descendants, w.time.isSome = true) :
    ∃ t, c.elaborate.site? s.id = some t ∧ t.view.time = none := by
  have hsite : ∃ t ∈ c.elaborate.sites, t.id = s.id ∧ t.view.time = none := by
    cases c with
    | view v => exact Site.time_handedDown ⟨.root, "", [], {}, v⟩ none [] {} hs h
    | vconcat us others =>
      obtain ⟨i, hi, rfl⟩ := mem_mapIdx.mp hs
      obtain ⟨w, hw, _⟩ := h
      simp [View.descendants] at hw
  obtain ⟨t, ht, hid, htime⟩ := hsite
  exact ⟨t, hid ▸ site?_eq_some ht, htime⟩

theorem View.paths_collect (v : View) (path : String) (inh : Inherited) (timed : Bool) :
    ((v.collect path inh).2).map ScopedUnit.path = ((v.placed path timed).filter Placed.isMarked).map Placed.path := by
  have h := congrArg (List.map Prod.fst) (entries_collect v path inh timed)
  rw [map_map, map_map] at h
  exact h

theorem View.paths_settled (v : View) (id : ScopeId) (t : TimeEncoding) (path : String) (inh : Inherited) :
    (((v.settled id t).collect path inh).2).map ScopedUnit.path
      = ((v.placed path false).filter Placed.isMarked).map Placed.path := by
  cases v with
  | unit u =>
    have hmark : (if u.selections.isEmpty then (u.decided id t).withDefault id else u.decided id t).hasMark
        = u.hasMark := by
      split
      · exact Unit.hasMark_filteredBy _ _
      · rfl
    rw [settled, collect, placed, hmark]
    by_cases hu : u.hasMark = true <;> simp [hu, Placed.isMarked, ScopedUnit.below]
  | layer l children =>
    have hclocks := congrArg (List.map Prod.fst) (Layer.clocks_elaborateOwned id t l children path)
    rw [map_map, map_map] at hclocks
    rw [settled, paths_collect _ path inh false, ← paths_collect (.layer l children) path inh false,
      paths_collect (.layer l children) path inh true, placed, Bool.true_or]
    exact hclocks

/-- The scope of an elaborated chart with a given id runs on the time encodings that were declared around the view of
that id and by the view itself, each overriding the ones before it, and what they leave open is decided. The view
is the owner of the scope: the units of the scope are its marked units. A layer with a time encoding below it has none
after elaboration. -/
theorem Chart.time_inheritance (c : Chart) :
    (∀ sc ∈ c.elaborate.scopes, ∃ s, c.site? sc.id = some s
        ∧ sc.units.map ScopedUnit.path = ((s.view.placed s.path false).filter Placed.isMarked).map Placed.path
        ∧ s.around.filterMap (·.1.time) ++ s.view.time.toList ≠ []
        ∧ sc.time = ((s.around.filterMap (·.1.time) ++ s.view.time.toList).foldl TimeEncoding.override {}).elaborate
          s.view.leadingMark s.view.leadingEncodings)
      ∧ ∀ s ∈ c.sites, (∃ w ∈ s.view.descendants, w.time.isSome = true) →
        ∃ t, c.elaborate.site? s.id = some t ∧ t.view.time = none := by
  refine ⟨?_, fun s hs h => time_handedDown hs h⟩
  intro sc hsc
  obtain ⟨s, hs, howner, rfl⟩ := exists_owner hsc
  have hdeclared : s.declared ≠ [] := by
    intro hempty
    simp [Site.isOwner, hempty] at howner
  exact ⟨s, hs, View.paths_settled s.view s.id s.time s.path s.inherited, hdeclared, rfl⟩

end AnimatedChart.Spec

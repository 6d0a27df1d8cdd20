import AnimatedChart.Proofs.Json.Readers
import AnimatedChart.Proofs.Scope.Owner

/-!
# The selections of scopes

A scope of an elaborated chart has a decided time encoding, a selection that drives it and, if that selection had to be
synthesized, units that filter on it (`Chart.scopes_complete`).
-/

open List

namespace AnimatedChart.Spec

open Json

variable {a : Selection} {f : Unit → Unit} {id : ScopeId} {inh : Inherited} {name path : String} {t : TimeEncoding}
  {v : View}

/-- A time encoding in which nothing is left open. -/
structure TimeEncoding.IsDecided (t : TimeEncoding) : Prop where
  scale : ∃ s, t.scale = some s ∧ s.type ≠ "" ∧ s.range.isSome = true
    ∧ (s.type = TimeScale.linear → s.zero.isSome = true)
  key : t.key = some .disabled ∨ ∃ name loop, t.key = some (.field name (some loop))
  rescale : t.rescale.isSome = true

theorem TimeEncoding.isDecided_elaborate (t : TimeEncoding) (mark : String) (encodings : List (Option Encoding)) :
    (t.elaborate mark encodings).IsDecided where
  scale := by
    refine ⟨(t.scale.getD {}).elaborate, rfl, ?_, rfl, ?_⟩
    · intro htype
      have hne := TimeScale.elaborate_type_ne (t.scale.getD {})
      rw [htype] at hne
      exact absurd hne (by decide)
    · intro htype
      show (if (t.scale.getD {}).elaborate.type = TimeScale.linear then
        some ((t.scale.getD {}).zero.getD false) else (t.scale.getD {}).zero).isSome = true
      rw [if_pos htype]
      rfl
  key := by
    simp only [elaborate]
    cases t.key with
    | none =>
      cases inferKey mark encodings with
      | none => exact Or.inl rfl
      | some f => exact Or.inr ⟨f, false, rfl⟩
    | some k =>
      cases k with
      | disabled => exact Or.inl rfl
      | field n loop =>
        cases loop with
        | none => exact Or.inr ⟨n, false, rfl⟩
        | some b => exact Or.inr ⟨n, b, rfl⟩
  rescale := rfl

/-! ## Filters -/

theorem Transform.param_ofParam (name : String) : (ofParam name).param = name := by
  have hparam : (Reader.record [("param", Reader.text)]).run (.record [("param", .htmlText name)]) "" = .ok name := by
    refine Reader.run_eq_ok.mpr (Reader.record_singleton (fun a => ?_) "")
    show Reading.read (Fragment.unescape _) true = _
    rw [Fragment.unescape_encode]
  have hfilter (f : Fragment) :
      (Reader.record [("filter", Reader.fragment)]).run (.record [("filter", f)]) none = .ok (some f) :=
    Reader.run_eq_ok.mpr (Reader.record_singleton (fun _ => rfl) none)
  rw [ofParam, param, hfilter]
  simp only
  rw [hparam]

theorem Unit.param_filteredBy {u : Unit} (h : u.hasMark = true) :
    name ∈ (u.filteredBy name).transforms.map Transform.param := by
  unfold filteredBy
  by_cases hany : u.transforms.any (·.param == name) = true
  · rw [if_neg (by simp [hany])]
    obtain ⟨t, ht, hname⟩ := any_eq_true.mp hany
    exact mem_map.mpr ⟨t, ht, by simpa using hname⟩
  · rw [if_pos (by simp [hany, h])]
    exact mem_map.mpr ⟨.ofParam name, mem_append_right _ mem_cons_self, Transform.param_ofParam name⟩

theorem Scope.mem_filtersOf {s : Scope} {u : ScopedUnit} : name ∈ s.filtersOf u ↔
      name ∈ u.transforms.map Transform.param ∧ name ≠ "" ∧ name ∈ s.selections.map Selection.name := by
  unfold filtersOf
  rw [mem_filter, Bool.and_eq_true, any_eq_true]
  simp

theorem ScopeId.defaultSelection_ne (id : ScopeId) : id.defaultSelection ≠ "" := by
  unfold defaultSelection
  rw [Ne, ← String.toList_inj, String.toList_append]
  simp

theorem View.selections_collect (v : View) (path : String) (inh : Inherited) :
    (v.collect path inh).1 = v.selections := by
  induction v generalizing path inh with
  | unit u => rfl
  | layer l vs ih =>
    rw [collect, selections, collectAll_eq, selectionsOf_eq]
    simp only [append_cancel_left_eq]
    rw [flatMap_congr fun x hx => ih x.1 (mem_of_mem_zipIdx hx) _ _, ← flatMap_map, zipIdx_map_fst]

theorem View.mem_collect {su : ScopedUnit} (h : su ∈ (v.collect path inh).2) :
    ∃ u ∈ v.units, u.hasMark = true ∧ ∃ path inh, su = .below u path inh := by
  induction v generalizing path inh with
  | unit u =>
    rw [collect] at h
    split at h
    · next hmark => exact ⟨u, mem_singleton_self u, hmark, _, _, mem_singleton.mp h⟩
    · cases h
  | layer l vs ih =>
    rw [collect, collectAll_eq] at h
    obtain ⟨x, hx, h⟩ := mem_flatMap.mp h
    obtain ⟨u, hu, h⟩ := ih x.1 (mem_of_mem_zipIdx hx) h
    rw [units, unitsOf_eq]
    exact ⟨u, mem_flatMap.mpr ⟨x.1, mem_of_mem_zipIdx hx, hu⟩, h⟩

/-! ## Changing the selections of marked units -/

theorem View.names_mapMarked (hf : ∀ u, (f u).selections.map Selection.name = u.selections.map Selection.name)
    (v : View) : (v.mapMarked f).selections.map Selection.name = v.selections.map Selection.name := by
  induction v with
  | unit u =>
    rw [mapMarked, selections, selections]
    split
    · exact hf u
    · rfl
  | layer l vs ih =>
    simp only [mapMarked, selections, mapMarkedAll_eq, selectionsOf_eq, map_append, flatMap_map,
      map_flatMap]
    rw [flatMap_congr ih]

mutual

/-- The selections declared inside an owner where elaboration does not look for them: by layers, and by units without a
mark. -/
def View.overlookedIn : View → List Selection
  | .unit u => if u.hasMark then [] else u.selections
  | .layer l children => l.selections ++ overlookedAmong children

def View.overlookedAmong : List View → List Selection
  | [] => []
  | v :: vs => v.overlookedIn ++ overlookedAmong vs

end

def View.overlooked : View → List Selection
  | .unit _ => []
  | .layer _ children => overlookedAmong children

theorem View.overlookedAmong_eq (vs : List View) : overlookedAmong vs = vs.flatMap overlookedIn := by
  induction vs with
  | nil => rfl
  | cons v vs ih => rw [overlookedAmong, ih, flatMap_cons]

theorem View.mem_selections_mapMarked (v : View) : a ∈ (v.mapMarked f).selections ↔
    (∃ u ∈ v.units, u.hasMark = true ∧ a ∈ (f u).selections) ∨ a ∈ v.overlookedIn := by
  induction v with
  | unit u =>
    rw [mapMarked, selections, overlookedIn, units]
    cases hu : u.hasMark <;> simp [hu]
  | layer l vs ih =>
    simp only [mapMarked, selections, overlookedIn, units, mapMarkedAll_eq, selectionsOf_eq, overlookedAmong_eq,
      unitsOf_eq, mem_append, mem_flatMap, mem_map, exists_exists_and_eq_and]
    grind

theorem View.names_mapMarkedAll (hf : ∀ u, (f u).selections.map Selection.name = u.selections.map Selection.name)
    (vs : List View) :
    (selectionsOf (mapMarkedAll f vs)).map Selection.name = (selectionsOf vs).map Selection.name := by
  simpa [mapMarked, selections] using names_mapMarked hf (.layer {} vs)

theorem View.mem_selectionsOf_mapMarkedAll {f : Unit → Unit} {a : Selection} {vs : List View} :
    a ∈ selectionsOf (mapMarkedAll f vs) ↔
      (∃ u ∈ unitsOf vs, u.hasMark = true ∧ a ∈ (f u).selections) ∨ a ∈ overlookedAmong vs := by
  have h := mem_selections_mapMarked (f := f) (a := a) (.layer {} vs)
  rwa [mapMarked, selections, units, overlookedIn] at h

theorem View.mem_selectionsOf_iff {vs : List View} : a ∈ selectionsOf vs ↔
    (∃ u ∈ unitsOf vs, u.hasMark = true ∧ a ∈ u.selections) ∨ a ∈ overlookedAmong vs := by
  have h := @mem_selectionsOf_mapMarkedAll id a vs
  rwa [mapMarkedAll_eq, map_id'' mapMarked_id] at h

/-- A selection in normal form for its scope. -/
structure Selection.IsNormal (id : ScopeId) (a : Selection) : Prop where
  trigger : a.select.trigger.isNormal = true
  easing : a.select.easing.isSome = true
  gated : a.isSlider = true → id.isPlaying ∈ a.select.trigger.filters

theorem Selection.isNormal_elaborate (id : ScopeId) (a : Selection) : (a.elaborate id).IsNormal id where
  trigger := rfl
  easing := rfl
  gated := by
    intro hslider
    have hgated := elaborate_gated id a
    rw [show a.isSlider = true from hslider, Bool.true_and, Bool.not_eq_false'] at hgated
    exact contains_iff_mem.mp hgated

theorem Selection.isNormal_synthesized (id : ScopeId) (name : String) : (synthesized name).IsNormal id := by
  rw [← elaborate_synthesized id]
  exact isNormal_elaborate id _

theorem Selection.isNormal_of_map {as : List Selection} (h : a ∈ as.map (elaborate id)) : a.IsNormal id := by
  obtain ⟨b, _, rfl⟩ := mem_map.mp h
  exact isNormal_elaborate id b

/-! ## The selections of an owner -/

/-- The owner of a scope and its marked units declare no selection, so that one is synthesized. -/
def View.lacksSelection : View → Bool
  | .unit u => u.selections.isEmpty
  | .layer l children => !l.declaresSelection children

theorem Unit.selections_withParams (id : ScopeId) (u : Unit) :
    (u.withParams id).selections = u.selections.map (Selection.elaborate id) :=
  selections_map_elaborate id u.params

theorem Unit.selections_filteredBy (name : String) (u : Unit) : (u.filteredBy name).selections = u.selections := by
  unfold selections
  rw [params_filteredBy]

theorem Layer.exists_elaborateOwned (id : ScopeId) (t : TimeEncoding) (l : Layer) (vs : List View) :
    ∃ l' f, l.elaborateOwned id t vs = .layer l' (View.mapMarkedAll f vs)
      ∧ (∀ u, (f u).selections = u.selections.map (Selection.elaborate id))
      ∧ l'.selections = l.selections.map (Selection.elaborate id)
        ++ if l.declaresSelection vs then [] else [.synthesized id.defaultSelection] := by
  rw [elaborateOwned_eq]
  split
  · exact ⟨_, _, rfl, Unit.selections_withParams id, (selections_decided ..).trans (append_nil _).symm⟩
  · rw [View.mapMarkedAll_mapMarkedAll (g := Unit.withParams id) (fun _ => rfl) (fun _ => rfl)]
    refine ⟨_, _, rfl, fun u => ?_, ?_⟩
    · rw [Unit.selections_filteredBy, Unit.selections_withParams]
    · exact (selections_concat _ _).trans (congrArg (· ++ _) (selections_decided ..))

theorem View.selections_settled (v : View) (id : ScopeId) (t : TimeEncoding) : ∃ own inside inside',
    v.selections = own ++ inside ∧ (v.settled id t).selections = own.map (Selection.elaborate id)
        ++ (if v.lacksSelection then [.synthesized id.defaultSelection] else []) ++ inside'
      ∧ inside'.map Selection.name = inside.map Selection.name
      ∧ (∀ a ∈ inside', a.IsNormal id ∨ a ∈ v.overlooked) ∧ ∀ a ∈ v.overlooked, a ∈ inside' := by
  cases v with
  | unit u =>
    refine ⟨u.selections, [], [], (append_nil _).symm, ?_, rfl, forall_mem_nil _, forall_mem_nil _⟩
    rw [settled, selections, lacksSelection, append_nil]
    split
    · exact (selections_concat _ _).trans (congrArg (· ++ _) (Unit.selections_withParams id u))
    · rw [append_nil]
      exact Unit.selections_withParams id u
  | layer l vs =>
    obtain ⟨l', f, howned, hf, hl⟩ := l.exists_elaborateOwned id t vs
    refine ⟨l.selections, selectionsOf vs, selectionsOf (mapMarkedAll f vs), rfl, ?_, ?_, fun a ha => ?_, fun a ha => ?_⟩
    · rw [settled, howned, selections, hl, lacksSelection]
      cases l.declaresSelection vs <;> rfl
    · refine names_mapMarkedAll (fun u => ?_) vs
      rw [hf, map_map]
      rfl
    · refine (mem_selectionsOf_mapMarkedAll.mp ha).imp_left ?_
      rintro ⟨u, -, -, ha⟩
      obtain ⟨b, -, rfl⟩ := mem_map.mp (hf u ▸ ha)
      exact Selection.isNormal_elaborate id b
    · exact mem_selectionsOf_mapMarkedAll.mpr (Or.inr ha)

theorem View.names_settled (v : View) (id : ScopeId) (t : TimeEncoding) :
    ((v.settled id t).selections.map Selection.name).Perm
      (v.selections.map Selection.name ++ if v.lacksSelection then [id.defaultSelection] else []) := by
  obtain ⟨own, inside, inside', hv, hsettled, hnames, -⟩ := v.selections_settled id t
  have hown : (own.map (Selection.elaborate id)).map Selection.name = own.map Selection.name := by
    rw [map_map]
    rfl
  have hdefault : (if v.lacksSelection then [Selection.synthesized id.defaultSelection] else []).map Selection.name
      = if v.lacksSelection then [id.defaultSelection] else [] := by
    split <;> rfl
  rw [hsettled, hv, map_append, map_append, map_append, hown, hnames, hdefault, append_assoc,
    append_assoc]
  exact perm_append_comm.append_left _

theorem View.isNormal_settled (h : a ∈ (v.settled id t).selections) : a.IsNormal id ∨ a ∈ v.overlooked := by
  obtain ⟨own, inside, inside', -, hsettled, -, hinside, -⟩ := v.selections_settled id t
  rw [hsettled, mem_append, mem_append] at h
  rcases h with (h | h) | h
  · exact Or.inl (Selection.isNormal_of_map h)
  · split at h
    · rw [mem_singleton.mp h]
      exact Or.inl (Selection.isNormal_synthesized id _)
    · cases h
  · exact hinside a h

theorem View.overlooked_settled (h : a ∈ v.overlooked) : a ∈ (v.settled id t).selections := by
  obtain ⟨own, inside, inside', -, hsettled, -, -, hover⟩ := v.selections_settled id t
  rw [hsettled]
  exact mem_append_right _ (hover a h)

/-- The scope has its default selection on top of the selections that are declared in the views of its owner. -/
def Scope.synthesizes (s : Scope) (owner : View) : Bool :=
  (owner.selections.map Selection.name).count s.id.defaultSelection
    < (s.selections.map Selection.name).count s.id.defaultSelection

theorem Site.selections_scope (s : Site) : s.scope.selections = (s.view.settled s.id s.time).selections :=
  View.selections_collect _ _ _

theorem Site.synthesizes_scope (s : Site) : s.scope.synthesizes s.view = s.view.lacksSelection := by
  unfold Scope.synthesizes
  rw [selections_scope, (View.names_settled s.view s.id s.time).count_eq, count_append]
  cases s.view.lacksSelection with
  | true => simp [scope]
  | false => simp

theorem View.lacksSelection_of_nil (h : v.selections = []) : v.lacksSelection = true := by
  cases v with
  | unit u => exact List.isEmpty_iff.mpr h
  | layer l children =>
    rw [selections, append_eq_nil_iff] at h
    have hany : (markedOf children).any (fun u => !u.selections.isEmpty) = false := by
      refine any_eq_false.mpr fun u hu hne => ?_
      obtain ⟨a, ha⟩ := exists_mem_of_ne_nil u.selections (by simpa using hne)
      obtain ⟨hu, hmark⟩ := mem_filter.mp hu
      have := mem_selectionsOf_iff.mpr (Or.inl ⟨u, hu, hmark, ha⟩)
      rw [h.2] at this
      cases this
    simp [lacksSelection, Layer.declaresSelection, hany, h.1]

theorem View.selections_settled_ne (v : View) (id : ScopeId) (t : TimeEncoding) : (v.settled id t).selections ≠ [] := by
  intro hempty
  have hperm := names_settled v id t
  rw [hempty, map_nil] at hperm
  obtain ⟨hnames, hdefault⟩ := append_eq_nil_iff.mp hperm.symm.eq_nil
  rw [if_pos (lacksSelection_of_nil (map_eq_nil_iff.mp hnames))] at hdefault
  exact cons_ne_nil _ _ hdefault

theorem View.filters_settled (h : v.lacksSelection = true) : ∀ su ∈ ((v.settled id t).collect path inh).2,
      id.defaultSelection ∈ su.transforms.map Transform.param := by
  -- A unit's own filters come after those that it takes over.
  have hbelow {u : Unit} {path : String} {inh : Inherited}
      (hu : id.defaultSelection ∈ u.transforms.map Transform.param) :
      id.defaultSelection ∈ (ScopedUnit.below u path inh).transforms.map Transform.param := by
    show _ ∈ (inh.transforms ++ u.transforms).map Transform.param
    rw [map_append]
    exact mem_append_right _ hu
  intro su hsu
  cases v with
  | unit u =>
    rw [lacksSelection] at h
    rw [settled, if_pos h, collect] at hsu
    split at hsu
    · next hmark =>
      rw [mem_singleton.mp hsu]
      refine hbelow (Unit.param_filteredBy (u := u.decided id t) ?_)
      exact (Unit.hasMark_filteredBy _ _).symm.trans hmark
    · cases hsu
  | layer l children =>
    rw [lacksSelection, Bool.not_eq_true'] at h
    rw [settled, Layer.elaborateOwned_eq, h, if_neg Bool.false_ne_true] at hsu
    obtain ⟨u, hu, hmark, path, inh, rfl⟩ := mem_collect hsu
    rw [units, unitsOf_mapMarkedAll, mem_map] at hu
    obtain ⟨u₀, _, rfl⟩ := hu
    refine hbelow ?_
    unfold Unit.changeMarked at hmark ⊢
    by_cases hu₀ : u₀.hasMark = true
    · rw [if_pos hu₀]
      exact Unit.param_filteredBy hu₀
    · rw [if_neg hu₀] at hmark
      exact absurd hmark hu₀

/-- Every scope of an elaborated chart is complete: its time encoding is decided, a selection drives its clock, and
where its default selection was synthesized all of its units filter on it. -/
theorem Chart.scopes_complete (c : Chart) : ∀ sc ∈ c.elaborate.scopes,
    sc.time.IsDecided ∧ sc.driver?.isSome = true
      ∧ ∃ s, c.site? sc.id = some s
        ∧ (sc.synthesizes s.view = true → ∀ u ∈ sc.units, sc.id.defaultSelection ∈ sc.filtersOf u) := by
  intro sc hsc
  obtain ⟨s, hs, _, rfl⟩ := exists_owner hsc
  refine ⟨TimeEncoding.isDecided_elaborate _ _ _, ?_, s, hs, ?_⟩
  · unfold Scope.driver?
    rw [isSome_head?, Site.selections_scope]
    exact View.selections_settled_ne _ _ _
  · intro hsynth u hu
    rw [Site.synthesizes_scope] at hsynth
    refine Scope.mem_filtersOf.mpr ⟨View.filters_settled hsynth u hu, ScopeId.defaultSelection_ne _, ?_⟩
    rw [Site.selections_scope, (View.names_settled s.view s.id s.time).mem_iff, if_pos hsynth]
    exact mem_append_right _ mem_cons_self

def labelledBubbles : Chart := .view (.layer { encoding := some { time := some { field := "year" } } }
  [.unit { mark := some (.text "point") },
   .unit { mark := some (.text "text"), encoding := some { time := some { field := "decade" } } }])

theorem scopes_complete_labelledBubbles :
    ∃ sc ∈ labelledBubbles.elaborate.scopes, sc.id = ⟨"layer_1"⟩ ∧ sc.units.length = 1
      ∧ sc.time.IsDecided ∧ sc.driver?.isSome = true
      ∧ ∃ s, labelledBubbles.site? sc.id = some s ∧ sc.synthesizes s.view = true
        ∧ ∀ u ∈ sc.units, sc.id.defaultSelection ∈ sc.filtersOf u := by
  have hcheck : labelledBubbles.elaborate.scopes[1]?.any (fun sc => sc.id == ⟨"layer_1"⟩ && sc.units.length == 1
      && (labelledBubbles.site? sc.id).all fun s => sc.synthesizes s.view) = true := by decide +kernel
  obtain ⟨sc, hsc, hcheck⟩ := (Option.any_eq_true _ _).mp hcheck
  simp only [Bool.and_eq_true, beq_iff_eq] at hcheck
  obtain ⟨⟨hid, hunits⟩, hsynth⟩ := hcheck
  have hmem := mem_of_getElem? hsc
  obtain ⟨htime, hdriver, s, hs, hfilters⟩ := Chart.scopes_complete labelledBubbles sc hmem
  rw [hs, Option.all_some] at hsynth
  exact ⟨sc, hmem, hid, hunits, htime, hdriver, s, hs, hsynth, hfilters hsynth⟩

theorem View.overlooked_of_lacksSelection (h : v.lacksSelection = true) : ∀ a ∈ v.selections, a ∈ v.overlooked := by
  intro a ha
  cases v with
  | unit u =>
    rw [selections, List.isEmpty_iff.mp h] at ha
    cases ha
  | layer l vs =>
    rw [lacksSelection, Bool.not_eq_true', Layer.declaresSelection, Bool.or_eq_false_iff, any_eq_false] at h
    rw [selections, show l.selections = [] by simpa using h.2, nil_append] at ha
    refine (mem_selectionsOf_iff.mp ha).resolve_left ?_
    rintro ⟨u, hu, hmark, ha⟩
    rw [show u.selections = [] by simpa using h.1 u (mem_filter.mpr ⟨hu, hmark⟩)] at ha
    cases ha

/-- The selections of a scope are in normal form, and its default is synthesized only if nothing is declared in the
views of the scope; in both respects the selections that elaboration overlooks are left out, and these are selections of
the scope all the same. -/
theorem Chart.scope_selections (c : Chart) : ∀ sc ∈ c.elaborate.scopes,
    ∃ s, c.site? sc.id = some s
      ∧ (∀ a ∈ sc.selections, a.IsNormal sc.id ∨ a ∈ s.view.overlooked)
      ∧ (∀ a ∈ s.view.overlooked, a ∈ sc.selections)
      ∧ (sc.synthesizes s.view = true → ∀ a ∈ s.view.selections, a ∈ s.view.overlooked) := by
  intro sc hsc
  obtain ⟨s, hs, _, rfl⟩ := exists_owner hsc
  refine ⟨s, hs, ?_, ?_, ?_⟩
  · intro a ha
    rw [Site.selections_scope] at ha
    exact View.isNormal_settled ha
  · intro a ha
    rw [Site.selections_scope]
    exact View.overlooked_settled ha
  · intro hsynth
    rw [Site.synthesizes_scope] at hsynth
    exact View.overlooked_of_lacksSelection hsynth

def nestedSelection : Chart := .view (.layer { encoding := some { time := some { field := "year" } } }
  [.layer { params := [.animation { name := "shown", select := { type := "point", trigger := .word } }] }
    [.unit { mark := some (.text "line") }]])

/-- The selection that is declared stays without an easing, and the clock is driven by a synthesized one. -/
theorem scope_selections_nestedSelection :
    ∃ sc ∈ nestedSelection.elaborate.scopes, ∃ s, nestedSelection.site? sc.id = some s
      ∧ (∀ a ∈ sc.selections, a.IsNormal sc.id ∨ a ∈ s.view.overlooked)
      ∧ (∀ a ∈ s.view.overlooked, a ∈ sc.selections)
      ∧ (sc.synthesizes s.view = true ∧ ∀ a ∈ s.view.selections, a ∈ s.view.overlooked)
      ∧ (∃ a ∈ s.view.selections, a.name = "shown" ∧ ¬a.IsNormal sc.id)
      ∧ sc.driver?.map Selection.name = some "current_frame_0" := by
  have hcheck : nestedSelection.elaborate.scopes[0]?.any (fun sc =>
      sc.driver?.map Selection.name == some "current_frame_0" && (nestedSelection.site? sc.id).all fun s =>
        sc.synthesizes s.view && s.view.selections.any fun a => a.name == "shown" && a.select.easing.isNone) = true := by
    decide +kernel
  obtain ⟨sc, hsc, hcheck⟩ := (Option.any_eq_true _ _).mp hcheck
  have hmem := mem_of_getElem? hsc
  obtain ⟨s, hs, hnormal, hoverlooked, hdefault⟩ := Chart.scope_selections nestedSelection sc hmem
  rw [hs, Option.all_some] at hcheck
  simp only [Bool.and_eq_true, beq_iff_eq, any_eq_true] at hcheck
  obtain ⟨hdriver, hsynth, a, ha, hname, hnone⟩ := hcheck
  refine ⟨sc, hmem, s, hs, hnormal, hoverlooked, ⟨hsynth, hdefault hsynth⟩, ⟨a, ha, hname, fun hnormal => ?_⟩, hdriver⟩
  have heasing := hnormal.easing
  rw [Option.isNone_iff_eq_none.mp hnone] at heasing
  exact Bool.false_ne_true heasing

end AnimatedChart.Spec

import AnimatedChart.Proofs.Scope.Owner

/-!
# What elaboration leaves alone

Two charts correspond (`Chart.Corresponds`) if they have one shape and what stands at each place is related.
-/

open List

namespace AnimatedChart.Spec

/-! ## Charts of one shape -/

mutual

/-- Views of one shape, with units and layers that are related at each place. -/
def View.Corresponds (unit : List Layer → Unit → Unit → Prop) (layer : List Layer → Layer → Layer → Prop)
    (around : List Layer) : View → View → Prop
  | .unit u, .unit u' => unit around u u'
  | .layer l vs, .layer l' vs' => layer around l l' ∧ View.CorrespondAll unit layer (around ++ [l]) vs vs'
  | _, _ => False

def View.CorrespondAll (unit : List Layer → Unit → Unit → Prop) (layer : List Layer → Layer → Layer → Prop)
    (around : List Layer) : List View → List View → Prop
  | [], [] => True
  | v :: vs, v' :: vs' => v.Corresponds unit layer around v' ∧ View.CorrespondAll unit layer around vs vs'
  | _, _ => False

end

/-- Charts of one shape, with related units and layers and the same further members. -/
def Chart.Corresponds (unit : List Layer → Unit → Unit → Prop) (layer : List Layer → Layer → Layer → Prop) :
    Chart → Chart → Prop
  | .view v, .view v' => v.Corresponds unit layer [] v'
  | .vconcat us others, .vconcat us' others' => others' = others ∧ Option.Rel (List.Forall₂ (unit [])) us us'
  | _, _ => False

section Correspondence

variable {unit : List Layer → Unit → Unit → Prop} {layer : List Layer → Layer → Layer → Prop}

theorem View.correspondAll_iff {around : List Layer} {vs vs' : List View} :
    CorrespondAll unit layer around vs vs' ↔ List.Forall₂ (Corresponds unit layer around) vs vs' := by
  induction vs generalizing vs' with
  | nil => cases vs' <;> simp [CorrespondAll]
  | cons v vs ih => cases vs' <;> simp [CorrespondAll, ih]

theorem View.corresponds_mapMarked {f : Unit → Unit} (hunit : ∀ a u, unit a u u) (hlayer : ∀ a l, layer a l l)
    (hf : ∀ a u, unit a u (f u)) (v : View) (around : List Layer) :
    v.Corresponds unit layer around (v.mapMarked f) := by
  induction v generalizing around with
  | unit u =>
    rw [mapMarked]
    split
    · exact hf around u
    · exact hunit around u
  | layer l vs ih =>
    rw [mapMarked, Corresponds, mapMarkedAll_eq, correspondAll_iff, forall₂_map_right_iff, forall₂_same]
    exact ⟨hlayer around l, fun v hv => ih v hv _⟩

theorem View.corresponds_refl (hunit : ∀ a u, unit a u u) (hlayer : ∀ a l, layer a l l) (v : View)
    (around : List Layer) : v.Corresponds unit layer around v := by
  have h := v.corresponds_mapMarked (f := id) hunit hlayer hunit around
  rwa [mapMarked_id] at h

end Correspondence

/-! ## Units and layers -/

def plainParams (ps : List Param) : List Param := ps.filter (·.selection?.isNone)

theorem plainParams_map_elaborate (id : ScopeId) (ps : List Param) :
    plainParams (ps.map (Param.elaborate id)) = plainParams ps := by
  induction ps with
  | nil => rfl
  | cons p ps ih =>
    cases p with
    | animation a => exact ih
    | plain raw => exact congrArg (Param.plain raw :: ·) ih

theorem plainParams_concat (ps : List Param) (a : Selection) : plainParams (ps ++ [.animation a]) = plainParams ps := by
  rw [plainParams, filter_append]
  exact append_nil _

/-- A unit and what elaboration makes of it, where selections of certain names are synthesized. -/
structure Unit.Framed (synthesized : String → Prop) (u u' : Unit) : Prop where
  mark : u'.mark = u.mark
  enter : u'.enter = u.enter
  exit : u'.exit = u.exit
  others : u'.others = u.others
  /-- Only time changes. An encoding is created if there is none to hold it. -/
  encoding : u'.encoding = u.encoding ∨ ∃ t, u'.encoding = some { u.encoding.getD {} with time := some t }
  params : plainParams u'.params = plainParams u.params
  transforms : u'.transforms = u.transforms ∨ ∃ id : ScopeId, synthesized id.defaultSelection
    ∧ u'.transforms = u.transforms ++ [.ofParam id.defaultSelection]

structure Layer.Framed (l l' : Layer) : Prop where
  others : l'.others = l.others
  /-- Only time changes. An encoding is created if there is none to hold it, and dropped if nothing is left. -/
  encoding : l'.encoding = l.encoding ∨ (∃ t, l'.encoding = some { l.encoding.getD {} with time := some t })
    ∨ ∃ e, l.encoding = some e ∧ l'.encoding = if e.channels.isEmpty then none else some { e with time := none }
  params : plainParams l'.params = plainParams l.params
  transforms : l'.transforms = l.transforms

variable {P : String → Prop} {id : ScopeId}

theorem Unit.Framed.refl (u : Unit) : u.Framed P u := ⟨rfl, rfl, rfl, rfl, .inl rfl, rfl, .inl rfl⟩

theorem Layer.Framed.refl (l : Layer) : l.Framed l := ⟨rfl, .inl rfl, rfl, rfl⟩

theorem Unit.framed_withParams (id : ScopeId) (u : Unit) : u.Framed P (u.withParams id) :=
  { Framed.refl u with params := plainParams_map_elaborate id u.params }

theorem Unit.Framed.filteredBy {u u' : Unit} (h : u.Framed P u') (htransforms : u'.transforms = u.transforms)
    (hid : P id.defaultSelection) : u.Framed P (u'.filteredBy id.defaultSelection) := by
  unfold Unit.filteredBy
  split
  · exact { h with transforms := .inr ⟨id, hid, congrArg (· ++ _) htransforms⟩ }
  · exact h

theorem Unit.framed_elaborate {inherited : Option TimeEncoding} {u : Unit}
    (h : ∀ n, .synthesized n ∈ (u.elaborate id inherited).selections → P n) :
    u.Framed P (u.elaborate id inherited) := by
  cases ht : u.effectiveTime inherited with
  | none =>
    rw [elaborate_of_none ht]
    exact .refl u
  | some t =>
    have hdecided : u.Framed P (u.decided id t) := { framed_withParams id u with encoding := .inr ⟨_, rfl⟩ }
    rw [elaborate_of_some ht] at h ⊢
    by_cases hs : u.selections.isEmpty = true
    · rw [if_pos hs] at h ⊢
      have hid : P id.defaultSelection := by
        refine h _ ?_
        show _ ∈ Spec.selections (_ ++ [_])
        rw [selections_concat]
        exact mem_concat_self
      exact { hdecided.filteredBy rfl hid with params := (plainParams_concat _ _).trans hdecided.params }
    · rw [if_neg hs]
      exact hdecided

theorem Layer.framed_withoutTime (l : Layer) : l.Framed l.withoutTime := by
  refine { Framed.refl l with encoding := ?_ }
  cases he : l.encoding with
  | none => exact .inl (by rw [withoutTime, he]; rfl)
  | some e =>
    refine .inr (.inr ⟨e, rfl, ?_⟩)
    rw [withoutTime, he, Option.map_some, Option.filter_some]
    cases e.channels <;> rfl

theorem Layer.framed_decided (id : ScopeId) (t : TimeEncoding) (l : Layer) (children : List View) :
    l.Framed (l.decided id t children) :=
  { Framed.refl l with encoding := .inr (.inl ⟨_, rfl⟩), params := plainParams_map_elaborate id l.params }

theorem Layer.framed_elaborateOwned (t : TimeEncoding) (l : Layer) (children : List View) (around : List Layer)
    (h : ∀ n, .synthesized n ∈ (l.elaborateOwned id t children).selections → P n) :
    (View.layer l children).Corresponds (fun _ => Unit.Framed P) (fun _ => Layer.Framed) around
      (l.elaborateOwned id t children) := by
  have hdecided := l.framed_decided id t children
  rw [elaborateOwned_eq] at h ⊢
  split
  · exact ⟨hdecided, ((View.layer l children).corresponds_mapMarked (fun _ => Unit.Framed.refl) (fun _ => Framed.refl)
      (fun _ u => u.framed_withParams id) around).2⟩
  · next hs =>
    have hid : P id.defaultSelection := by
      refine h _ ?_
      rw [if_neg hs, View.selections]
      refine mem_append_left _ ?_
      show _ ∈ Spec.selections (_ ++ [_])
      rw [selections_concat]
      exact mem_concat_self
    refine ⟨{ hdecided with params := (plainParams_concat _ _).trans hdecided.params }, ?_⟩
    rw [View.mapMarkedAll_mapMarkedAll (g := Unit.withParams id) (fun _ => rfl) (fun _ => rfl)]
    exact ((View.layer l children).corresponds_mapMarked (fun _ => Unit.Framed.refl) (fun _ => Framed.refl)
      (fun _ u => (u.framed_withParams id).filteredBy rfl hid) around).2

theorem View.framed_elaborate (v : View) (id : ScopeId) (inherited : Option TimeEncoding) (around : List Layer)
    (h : ∀ n, .synthesized n ∈ (v.elaborate id inherited).selections → P n) :
    v.Corresponds (fun _ => Unit.Framed P) (fun _ => Layer.Framed) around (v.elaborate id inherited) := by
  induction v generalizing id inherited around with
  | unit u => exact Unit.framed_elaborate h
  | layer l vs ih =>
    rw [elaborate_layer] at h ⊢
    split
    · next hc =>
      refine ⟨l.framed_withoutTime, correspondAll_iff.mpr ?_⟩
      rw [if_pos hc, View.selections, selectionsOf_eq, elaborateChildren_eq] at h
      rw [elaborateChildren_eq, forall₂_zipIdx_map]
      intro x hx
      rcases elaborateChild_eq x.1 (id.child "layer" x.2) (l.effectiveTime inherited) with he | ⟨u, -, hv, he⟩
      · rw [he]
        refine ih x.1 (mem_of_mem_zipIdx hx) _ _ _ fun n hn => h n (mem_append_right _ ?_)
        exact mem_flatMap.mpr ⟨_, mem_map_of_mem hx, he ▸ hn⟩
      · rw [he, hv]
        exact Unit.Framed.refl u
    · next hc =>
      rw [if_neg hc] at h
      cases ht : l.effectiveTime inherited with
      | none => exact corresponds_refl (fun _ => Unit.Framed.refl) (fun _ => Layer.Framed.refl) _ around
      | some t =>
        rw [ht] at h
        exact l.framed_elaborateOwned t vs around h

theorem Site.declaresTime_eq_false (r : Site) (h : ∀ s ∈ r.sites, s.view.time = none) :
    r.view.declaresTime = false := by
  induction r using induction with
  | h r ih =>
    have htime := h r r.self_mem_sites
    cases hview : r.view with
    | unit u => simpa [hview, View.time, View.declaresTime] using htime
    | layer l vs =>
      rw [hview] at htime
      rw [View.declaresTime, show l.time = none from htime, View.anyDeclaresTime_eq, Option.isSome_none, Bool.false_or,
        any_eq_false]
      intro v hv
      obtain ⟨i, hi⟩ := getElem?_of_mem hv
      have hchild := mem_children.mpr ⟨l, vs, i, v, hview, hi, rfl⟩
      exact Bool.eq_false_iff.mp (ih _ hchild fun s hs => h s (sites_child hchild hs))

theorem View.elaborate_of_not_declaresTime {v : View} (h : v.declaresTime = false) (id : ScopeId) :
    v.elaborate id none = v := by
  cases v with
  | unit u =>
    have htime : u.time = none := Option.not_isSome_iff_eq_none.mp (Bool.eq_false_iff.mp h)
    exact congrArg View.unit (Unit.elaborate_of_none htime)
  | layer l children =>
    obtain ⟨htime, hchildren⟩ := Bool.or_eq_false_iff.mp h
    have heffective : l.effectiveTime none = none := by
      rw [← Option.isNone_iff_eq_none, ← Option.not_isSome, l.isSome_effectiveTime, htime]
      rfl
    rw [elaborate_layer, hchildren, if_neg Bool.false_ne_true, heffective]

theorem Chart.framed_elaborate (c : Chart) :
    c.Corresponds (fun _ => Unit.Framed fun n => .synthesized n ∈ c.elaborate.selections) (fun _ => Layer.Framed)
      c.elaborate := by
  cases c with
  | view v => exact View.framed_elaborate v .root none [] fun _ hn => hn
  | vconcat us others =>
    refine ⟨rfl, ?_⟩
    cases us with
    | none => exact .none
    | some us =>
      refine .some (forall₂_iff_get.mpr ⟨by simp, fun i hi hi' => ?_⟩)
      simp only [get_eq_getElem, getElem_mapIdx]
      refine Unit.framed_elaborate fun n hn => mem_flatMap.mpr ⟨_, ?_, hn⟩
      exact mem_mapIdx.mpr ⟨i, hi, rfl⟩

theorem Chart.elaborate_of_untimed {c : Chart} (h : ∀ s ∈ c.sites, s.view.time = none) : c.elaborate = c := by
  cases c with
  | view v =>
    exact congrArg Chart.view (View.elaborate_of_not_declaresTime (Site.declaresTime_eq_false ⟨.root, "", [], {}, v⟩ h)
      .root)
  | vconcat us others =>
    cases us with
    | none => rfl
    | some us =>
      refine congrArg (fun us => Chart.vconcat (some us) others) (ext_getElem (by simp) fun i hi hi' => ?_)
      rw [getElem_mapIdx]
      exact Unit.elaborate_of_none (h _ (mem_mapIdx.mpr ⟨i, hi', rfl⟩))

/-- Elaboration leaves alone what is not animation, at every place of a chart, and a chart without time encodings as a
whole. What it filters units on are selections that it has synthesized. -/
theorem Chart.elaborate_frame (c : Chart) :
    c.Corresponds (fun _ => Unit.Framed fun n => .synthesized n ∈ c.elaborate.selections) (fun _ => Layer.Framed)
        c.elaborate
      ∧ ((∀ s ∈ c.sites, s.view.time = none) → c.elaborate = c) :=
  ⟨c.framed_elaborate, elaborate_of_untimed⟩

def undriven : Chart := .view (.layer { encoding := some {}, params := [.animation (.synthesized "shown")] }
  [.unit { mark := some (.text "bar"), transforms := [.ofParam "shown"] }])

theorem Chart.elaborate_undriven : (∀ s ∈ undriven.sites, s.view.time = none) ∧ undriven.elaborate = undriven := by
  have h : ∀ s ∈ undriven.sites, s.view.time = none := by decide
  exact ⟨h, undriven.elaborate_frame.2 h⟩

end AnimatedChart.Spec

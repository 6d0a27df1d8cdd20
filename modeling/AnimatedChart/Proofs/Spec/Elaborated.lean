import AnimatedChart.Proofs.Elaboration
import AnimatedChart.Proofs.Spec.Chart

/-!
# Elaborated charts are sound

Elaboration adds times, keys, easings, filters and selections of its own making to a chart. All of them can be written,
so an elaborated chart is as sound as the chart it was made from (`Chart.sound_elaborate`).
-/

open List

namespace AnimatedChart.Spec

open Json

variable {f : Unit → Unit} {inherited : Option TimeEncoding} {l : Layer} {ps : List Param} {t : TimeEncoding} {u : Unit}

theorem TimeScale.sound_elaborate {s : TimeScale} (h : s.Sound) : s.elaborate.Sound := by
  refine ⟨?_, h.domain⟩
  rintro r ⟨⟩
  cases hrange : s.range with
  | some r => exact h.range r hrange
  | none =>
    have hdefault (type : String) :
        (if type = linear then TimeRange.values [.number 0, .number defaultEnd] else .step defaultStep).Sound := by
      split
      · exact ⟨⟨rfl, rfl⟩, ⟨rfl, rfl⟩, trivial⟩
      · exact ⟨rfl, rfl⟩
    exact hdefault _

theorem TimeEncoding.sound_elaborate (h : t.Sound) (markType : String) (encodings : List (Option Encoding)) :
    (t.elaborate markType encodings).Sound := by
  rintro s ⟨⟩
  refine TimeScale.sound_elaborate ?_
  cases hscale : t.scale with
  | none => exact ⟨fun _ hr => (nomatch hr), fun _ hv => (nomatch hv)⟩
  | some s => exact h s hscale

theorem TimeEncoding.sound_override {own : TimeEncoding} (h : t.Sound) (hown : own.Sound) : (t.override own).Sound := by
  intro s hs
  simp only [override] at hs
  cases hscale : own.scale with
  | none =>
    rw [hscale] at hs
    exact h s hs
  | some s' =>
    rw [hscale] at hs
    exact Option.some.inj hs ▸ hown s' hscale

/-! ## Selections and filters -/

theorem Selection.sound_elaborate {a : Selection} (h : a.Sound) (id : ScopeId) : (a.elaborate id).Sound := by
  refine ⟨⟨h.select.predicate, ?_, h.select.pauses, h.select.others⟩, h.bind, h.others⟩
  rintro e ⟨⟩
  cases heasing : a.select.easing with
  | none => trivial
  | some e => exact h.select.easing e heasing

theorem Param.sound_elaborate {p : Param} (h : p.Sound) (id : ScopeId) : (p.elaborate id).Sound := by
  cases p with
  | animation a => exact ⟨a.sound_elaborate h.1 id, h.2⟩
  | plain raw => exact h

theorem Selection.sound_synthesized (name : String) : (Param.animation (.synthesized name)).Sound := by
  refine ⟨⟨⟨by simp [synthesized], ?_, by simp [synthesized], OthersSound.nil _ _⟩, by simp [synthesized],
    OthersSound.nil _ _⟩, rfl⟩
  rintro e ⟨⟩
  trivial

theorem Transform.spelled_ofParam (name : String) : (ofParam name).raw.Spelled := by
  refine Fragment.spelled_record (forall_mem_singleton.mpr ?_)
  exact Fragment.spelled_record (forall_mem_singleton.mpr (Fragment.spelled_htmlText name))

theorem sound_elaborated_params (h : ∀ p ∈ ps, p.Sound) (id : ScopeId) :
    ∀ p ∈ ps.map (Param.elaborate id), p.Sound := by
  intro p hp
  obtain ⟨p', hp', rfl⟩ := mem_map.mp hp
  exact p'.sound_elaborate (h p' hp') id

theorem sound_with_synthesized (h : ∀ p ∈ ps, p.Sound) (name : String) :
    ∀ p ∈ ps ++ [.animation (.synthesized name)], p.Sound := by
  intro p hp
  rcases mem_append.mp hp with hp | hp
  · exact h p hp
  · exact mem_singleton.mp hp ▸ Selection.sound_synthesized name

/-! ## Units -/

theorem Unit.sound_filteredBy (h : u.Sound) (name : String) : (u.filteredBy name).Sound := by
  unfold filteredBy
  split
  · refine { h with transforms := fun t ht => ?_ }
    rcases mem_append.mp ht with ht | ht
    · exact h.transforms t ht
    · exact mem_singleton.mp ht ▸ Transform.spelled_ofParam name
  · exact h

theorem Unit.others_filteredBy (u : Unit) (name : String) : (u.filteredBy name).others = u.others := by
  unfold filteredBy
  split <;> rfl

theorem Encoding.sound_withTime {o : Option Encoding} (h : ∀ e ∈ o, e.Sound) (ht : t.Sound) :
    Encoding.Sound { o.getD {} with time := some t } := by
  have hget : (o.getD {}).Sound := by
    cases o with
    | none => exact sound_encoding
    | some e => exact h e rfl
  exact ⟨hget.sorted, hget.spelled, hget.timeless, by rintro _ ⟨⟩; exact ht⟩

theorem Unit.sound_time (h : u.Sound) : ∀ t ∈ u.time, t.Sound := by
  intro t ht
  obtain ⟨e, he, het⟩ := Option.bind_eq_some_iff.mp ht
  exact (h.encoding e he).time t het

theorem Unit.others_elaborate (u : Unit) (id : ScopeId) (inherited : Option TimeEncoding) :
    (u.elaborate id inherited).others = u.others := by
  cases h : u.effectiveTime inherited with
  | none => rw [elaborate_of_none h]
  | some t =>
    rw [elaborate_of_some h]
    split
    · exact others_filteredBy _ _
    · rfl

theorem Unit.sound_effectiveTime (h : u.Sound) (hin : ∀ t ∈ inherited, t.Sound) :
    ∀ t ∈ u.effectiveTime inherited, t.Sound := by
  intro t ht
  cases inherited with
  | none => exact u.sound_time h t ht
  | some i =>
    cases ht
    cases hown : u.time with
    | none => exact hin i rfl
    | some own => exact TimeEncoding.sound_override (hin i rfl) (u.sound_time h own hown)

theorem Unit.sound_elaborate (h : u.Sound) (id : ScopeId) (hin : ∀ t ∈ inherited, t.Sound) :
    (u.elaborate id inherited).Sound := by
  cases heff : u.effectiveTime inherited with
  | none =>
    rw [elaborate_of_none heff]
    exact h
  | some t =>
    have ht := u.sound_effectiveTime h hin t heff
    have hparams := sound_elaborated_params h.params id
    have hunit : (u.decided id t).Sound := by
      refine { h with encoding := ?_, params := hparams }
      rintro _ ⟨⟩
      exact Encoding.sound_withTime h.encoding (TimeEncoding.sound_elaborate ht _ _)
    rw [elaborate_of_some heff]
    split
    · have hfiltered := sound_filteredBy hunit id.defaultSelection
      exact { hfiltered with params := sound_with_synthesized hparams id.defaultSelection }
    · exact hunit

/-! ## Views and charts -/

mutual

theorem View.sound_mapMarked (hf : ∀ u, (View.unit u).Sound → (View.unit (f u)).Sound) :
    ∀ v : View, v.Sound → (v.mapMarked f).Sound
  | .unit u, h => by
    rw [mapMarked]
    split
    · exact hf u h
    · exact h
  | .layer l children, h => ⟨h.1, sound_mapMarkedAll hf children h.2⟩

theorem View.sound_mapMarkedAll (hf : ∀ u, (View.unit u).Sound → (View.unit (f u)).Sound) :
    ∀ vs : List View, View.SoundAll vs → View.SoundAll (mapMarkedAll f vs)
  | [], _ => trivial
  | v :: vs, h => ⟨sound_mapMarked hf v h.1, sound_mapMarkedAll hf vs h.2⟩

end

theorem View.sound_filteredBy (name : String) (u : Unit) (h : (View.unit u).Sound) :
    (View.unit (u.filteredBy name)).Sound := by
  refine ⟨Unit.sound_filteredBy h.1 name, ?_⟩
  rw [Unit.others_filteredBy]
  exact h.2

theorem View.sound_unit_elaborate (h : (View.unit u).Sound) (id : ScopeId) (hin : ∀ t ∈ inherited, t.Sound) :
    (View.unit (u.elaborate id inherited)).Sound := by
  refine ⟨Unit.sound_elaborate h.1 id hin, ?_⟩
  rw [Unit.others_elaborate]
  exact h.2

theorem Layer.sound_time (h : l.Sound) : ∀ t ∈ l.time, t.Sound := by
  intro t ht
  obtain ⟨e, he, het⟩ := Option.bind_eq_some_iff.mp ht
  exact (h.encoding e he).time t het

theorem Layer.sound_withoutTime (h : l.Sound) : l.withoutTime.Sound := by
  refine { h with encoding := fun e he => ?_ }
  obtain ⟨he, -⟩ := Option.filter_eq_some_iff.mp he
  obtain ⟨e', he', rfl⟩ := Option.map_eq_some_iff.mp he
  have hsound := h.encoding e' he'
  exact ⟨hsound.sorted, hsound.spelled, hsound.timeless, by simp⟩

theorem Layer.sound_elaborateOwned {children : List View} {time : TimeEncoding} (h : l.Sound)
    (hchildren : View.SoundAll children) (htime : time.Sound) (id : ScopeId) :
    (l.elaborateOwned id time children).Sound := by
  have hparams := sound_elaborated_params h.params id
  have hencoding (t : TimeEncoding) (ht : t.Sound) :
      ∀ e ∈ some { l.encoding.getD {} with time := some t }, Encoding.Sound e := by
    rintro _ ⟨⟩
    exact Encoding.sound_withTime h.encoding ht
  have hmarked := View.sound_mapMarkedAll (f := fun u => { u with params := u.params.map (Param.elaborate id) })
    (fun u hu => ⟨{ hu.1 with params := sound_elaborated_params hu.1.params id }, hu.2⟩) children hchildren
  have helaborated := TimeEncoding.sound_elaborate htime
  unfold elaborateOwned
  dsimp only
  split
  · exact ⟨{ h with encoding := hencoding _ (helaborated _ _), params := hparams }, hmarked⟩
  · exact ⟨{ h with encoding := hencoding _ (helaborated _ _), params := sound_with_synthesized hparams _ },
      View.sound_mapMarkedAll (View.sound_filteredBy _) _ hmarked⟩

theorem Layer.sound_effectiveTime (h : l.Sound) (hin : ∀ t ∈ inherited, t.Sound) :
    ∀ t ∈ l.effectiveTime inherited, t.Sound := by
  intro t ht
  unfold effectiveTime at ht
  split at ht
  · next own hown =>
    cases ht
    refine TimeEncoding.sound_override ?_ (l.sound_time h own hown)
    cases inherited with
    | none =>
      intro s hs
      cases hs
    | some i => exact hin i rfl
  · exact hin t ht

mutual

theorem View.sound_elaborate : ∀ (v : View) (id : ScopeId) (inherited : Option TimeEncoding), v.Sound →
    (∀ t ∈ inherited, t.Sound) → (v.elaborate id inherited).Sound
  | .unit u, id, inherited, h, hin => sound_unit_elaborate h id hin
  | .layer l children, id, inherited, h, hin => by
    have htime := l.sound_effectiveTime h.1 hin
    rw [elaborate_layer]
    split
    · exact ⟨l.sound_withoutTime h.1, sound_elaborateChildren children id _ 0 h.2 htime⟩
    · split
      · exact h
      · next t ht => exact Layer.sound_elaborateOwned h.1 h.2 (htime t ht) id

theorem View.sound_elaborateChildren : ∀ (vs : List View) (id : ScopeId) (time : Option TimeEncoding) (i : Nat),
    View.SoundAll vs → (∀ t ∈ time, t.Sound) → View.SoundAll (elaborateChildren id time i vs)
  | [], _, _, _, _, _ => trivial
  | .unit u :: vs, id, time, i, h, hin => by
    rw [elaborateChildren]
    refine ⟨?_, sound_elaborateChildren vs id time (i + 1) h.2 hin⟩
    split
    · exact sound_unit_elaborate h.1 _ hin
    · exact h.1
  | .layer l children :: vs, id, time, i, h, hin => by
    rw [elaborateChildren]
    exact ⟨sound_elaborate (.layer l children) _ time h.1 hin,
      sound_elaborateChildren vs id time (i + 1) h.2 hin⟩

end

theorem Chart.sound_elaborate {c : Chart} (h : c.Sound) : c.elaborate.Sound := by
  cases c with
  | view v => exact View.sound_elaborate v .root none h fun _ ht => nomatch ht
  | vconcat us others =>
    refine ⟨fun us' hus' u hu => ?_, h.2⟩
    obtain ⟨us, rfl, rfl⟩ := Option.map_eq_some_iff.mp hus'
    obtain ⟨i, hi, rfl⟩ := mem_mapIdx.mp hu
    obtain ⟨hsound, hplain⟩ := h.1 us rfl us[i] (getElem_mem hi)
    refine ⟨Unit.sound_elaborate hsound _ (by simp), ?_⟩
    rw [Unit.others_elaborate]
    exact hplain

end AnimatedChart.Spec

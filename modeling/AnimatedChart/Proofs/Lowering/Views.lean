import AnimatedChart.Proofs.Lowering.Drawing
import AnimatedChart.Proofs.Spec.Reread

/-!
# Lowered charts

Views are lowered in document order, so the marks of a lowered chart plot its marked units. Each of them can be followed
and is read back as it was (`drawn_compile`).
-/

open List AnimatedChart.Mark AnimatedChart.Json.Fragment

namespace AnimatedChart.Lowering

open Json Reader Spec Animation

variable {brought : String → Prop} {o : Origin}
variable {doc : String} {g : Graph} {others : Dict Fragment} {size : Size} (scales : List ScalePlan)

/-- All data definitions among further members give values or a URL, or bring along one of the given names. -/
def SuppliedBy (brought : String → Prop) (further : List (Dict Fragment)) : Prop :=
  ∀ others ∈ further, ∀ raw ∈ Dict.get? others "data", Supplies brought raw

theorem suppliedBy_true (further : List (Dict Fragment)) : SuppliedBy (fun _ => True) further :=
  fun _ _ _ _ _ _ => .inr (.inr trivial)

theorem read_bare (raw : Fragment) : DataDefinition.read raw.bare = DataDefinition.read raw := by
  have hfields : ∀ x ∈ DataDefinition.layout, Natural id x.reader := by
    simp only [DataDefinition.layout, forall_mem_cons]
    exact ⟨natural_text, natural_text, natural_any, natural_dict? natural_any, by simp⟩
  have hrecord : Natural id (.fields DataDefinition.layout) :=
    natural_record (forall_mem_map.mpr fun x hx => natural_read (hfields x hx) (fun _ => rfl) fun _ _ => rfl)
  exact run_bare_id hrecord raw {}

theorem SuppliedBy.congr {further further' : List (Dict Fragment)} (h : SuppliedBy brought further)
    (heq : further'.map (Dict.mapValues Fragment.bare) = further.map (Dict.mapValues Fragment.bare)) :
    SuppliedBy brought further' := by
  intro others' hothers' raw' hraw' d hd
  obtain ⟨others, hothers, hbare⟩ := mem_map.mp (heq ▸ mem_map_of_mem hothers')
  have hget := congrArg (fun d => Dict.get? d "data") hbare
  rw [Dict.get?_mapValues, Dict.get?_mapValues, Option.mem_def.mp hraw', Option.map_some] at hget
  obtain ⟨raw, hraw, hraws⟩ := Option.map_eq_some_iff.mp hget
  exact h others hothers raw hraw d (by rw [← read_bare, hraws, read_bare, hd])

/-- The parameters that the view declares itself. -/
def paramsOf : View → List Param
  | .unit u => u.params
  | .layer l _ => l.params

mutual

/-- The view and the views in it, in document order. -/
def viewsIn : View → List View
  | .unit u => [.unit u]
  | .layer l children => .layer l children :: viewsAmong children

def viewsAmong : List View → List View
  | [] => []
  | v :: vs => viewsIn v ++ viewsAmong vs

end

def viewsOf : Chart → List View
  | .view v => viewsIn v
  | .vconcat us _ => (us.getD []).map .unit

def Declares (declared : Param → Prop) (vs : List View) : Prop := ∀ v ∈ vs, ∀ q ∈ paramsOf v, declared q

/-! ## Units -/

/-- Marks that plot the units at the given paths. -/
structure Depiction (units : List String) (ms : List Mark) : Prop where
  plots : Plots [] units (drawingAll ms)
  all : ∀ m ∈ ms, All Sketch m
  closed : ∀ m ∈ ms, All Closed m

theorem Depiction.append {units units' : List String} {ms ms' : List Mark} (h : Depiction units ms)
    (h' : Depiction units' ms') : Depiction (units ++ units') (ms ++ ms') where
  plots := by
    rw [drawingAll_append]
    exact h.plots.append h'.plots
  all := forall_mem_append.mpr ⟨h.all, h'.all⟩
  closed := forall_mem_append.mpr ⟨h.closed, h'.closed⟩

theorem Depiction.nil : Depiction [] [] := ⟨.nil, by simp, by simp⟩

/-- What a view takes over: channels that can be read again, a place that scales are named after, and a data definition
and parameters that are accounted for. -/
structure Context.Sound (o : Origin) (c : Context) : Prop where
  channels : ∀ e ∈ c.channels, e.2.Spelled
  place : c.place.Named
  data : ∀ raw ∈ c.data, Supplies o.brought raw
  params : ∀ q ∈ c.params, o.declared q

theorem Context.sound_empty (visit : Visit) : Context.Sound o { visit } :=
  ⟨forall_mem_nil _, nofun, nofun, forall_mem_nil _⟩

theorem Context.Sound.inherit {c : Context} (h : c.Sound o)
    (hothers : ∀ raw ∈ Dict.get? others "data", Supplies o.brought raw) : (c.inherit others).Sound o where
  channels := h.channels
  place := h.place
  params := h.params
  data := by
    intro raw hraw
    simp only [Context.inherit] at hraw
    cases hget : Dict.get? others "data" with
    | none =>
      rw [hget] at hraw
      exact h.data raw hraw
    | some raw' =>
      rw [hget] at hraw
      exact hothers raw (hget.trans hraw)

theorem Context.Sound.putAll {c : Context} (h : c.Sound o) {e : Option Encoding} (he : ∀ x ∈ e, x.Sound) :
    ∀ x ∈ Dict.putAll c.channels ((e.map (·.channels)).getD []), x.2.Spelled := by
  intro x hx
  rcases Dict.mem_of_mem_putAll hx with hx | hx
  · cases e with
    | none => cases hx
    | some e => exact (he e rfl).spelled x hx
  · exact h.channels x hx

theorem Context.Sound.ofLayer {c : Context} (h : c.Sound o) {l : Layer} (hl : ∀ x ∈ l.encoding, x.Sound)
    (hothers : ∀ raw ∈ Dict.get? l.others "data", Supplies o.brought raw) : (c.ofLayer l).Sound o :=
  { h.inherit hothers with channels := h.putAll hl, params := forall_mem_nil _ }

theorem yields_lowerUnit {u : Spec.Unit} {c : Context} (timed : Bool) (hu : u.Sound) (hc : c.Sound o)
    (hparams : ∀ q ∈ u.params, o.declared q) :
    Yields (Draft.Tidy o) (lowerUnit u c) (Depiction (markedPaths [⟨c.place.path, u, timed⟩])) := by
  unfold lowerUnit
  split
  · next hmark =>
    have hnone : markedPaths [⟨c.place.path, u, timed⟩] = [] := by simpa [markedPaths, Placed.isMarked] using hmark
    rw [hnone]
    exact yields_pure .nil
  · next hmark =>
    have hone : markedPaths [⟨c.place.path, u, timed⟩] = [c.place.path] := by simp_all [markedPaths, Placed.isMarked]
    rw [hone]
    split
    · exact yields_throw _
    · next raw hraw =>
      refine (yields_source (hc.data raw hraw)).bind fun src hsrc =>
        (yields_liftM fun _ _ => trivial).bind fun transforms _ => yields_when (yields_useProjection _ _) ((yields_derive hsrc _).bind fun data hdata => ?_)
      have hchannels := hc.putAll hu.encoding
      refine (yields_drawMark c.visit hc.place (MarkPlan.plain_ofFragments hchannels) hdata).bind fun m hm => ?_
      refine (yields_lowerParams _ _ (forall_mem_append.mpr ⟨hc.params, hparams⟩)).bind fun _ _ => yields_pure
        ⟨?_, by simpa using hm.all, by simpa using hm.closed⟩
      simpa [drawingAll] using hm.plots

mutual

theorem yields_lowerView : ∀ (v : View) (c : Context) (timed : Bool), v.Sound → c.Sound o →
    SuppliedBy o.brought v.further → Declares o.declared (viewsIn v) →
    Yields (Draft.Tidy o) (lowerView c v) (Depiction (markedPaths (v.placed c.place.path timed)))
  | .unit u, c, timed, hv, hc, hdata, hparams => by
    rw [lowerView]
    exact yields_lowerUnit _ hv.1 (hc.inherit (hdata _ mem_cons_self)) (hparams _ mem_cons_self)
  | .layer l children, c, timed, hv, hc, hdata, hparams => by
    obtain ⟨hown, hchildren⟩ := forall_mem_cons.mp hdata
    obtain ⟨hhanded, hparams⟩ := forall_mem_cons.mp hparams
    rw [lowerView]
    exact yields_lowerChildren children (c.ofLayer l) l.params _ 0 hv.2 (hc.ofLayer hv.1.encoding hown) hhanded hchildren
      hparams

theorem yields_lowerChildren : ∀ (vs : List View) (c : Context) (params : List Param) (timed : Bool) (i : Nat),
    View.SoundAll vs → c.Sound o → (∀ q ∈ params, o.declared q) → SuppliedBy o.brought (View.furtherOf vs) →
    Declares o.declared (viewsAmong vs) → Yields (Draft.Tidy o) (lowerChildren c params i vs)
      (Depiction (markedPaths (View.placedAll c.place.path timed i vs)))
  | [], c, params, timed, i, _, _, _, _, _ => by
    rw [lowerChildren]
    exact yields_pure .nil
  | v :: vs, c, params, timed, i, hvs, hc, hhanded, hdata, hparams => by
    obtain ⟨hv, hrest⟩ := forall_mem_append.mp hdata
    obtain ⟨hown, hparams⟩ := forall_mem_append.mp hparams
    have hchild : Context.Sound o { c with place := { c.place with path := s!"{c.place.path}layer_{i}_" }, params } :=
      { hc with params := hhanded }
    rw [lowerChildren]
    refine ((yields_lowerView v _ timed hvs.1 hchild hv hown).within _).bind fun marks hmarks =>
      (yields_lowerChildren vs c [] timed (i + 1) hvs.2 hc (forall_mem_nil _) hrest hparams).bind fun rest hrest => ?_
    rw [View.placedAll, markedPaths_append]
    exact yields_pure (hmarks.append hrest)

end

/-! ## Concatenations -/

theorem concatPath_eq (i : Nat) : concatPath i = s!"concat_{i}_" := by
  show "concat" ++ "_" ++ toString i ++ "_" = "concat_" ++ toString i ++ "_"
  rw [show "concat" ++ "_" = "concat_" by decide]

theorem regular_empty : Regular "" := .inr ⟨by decide, by simp⟩

def placedFrom (i : Nat) : List Spec.Unit → List Placed
  | [] => []
  | u :: us => ⟨concatPath i, u, u.time.isSome⟩ :: placedFrom (i + 1) us

theorem placedFrom_eq (i : Nat) (us : List Spec.Unit) :
    placedFrom i us = us.mapIdx fun j u => ⟨concatPath (i + j), u, u.time.isSome⟩ := by
  induction us generalizing i with
  | nil => rfl
  | cons u us ih =>
    rw [placedFrom, ih, mapIdx_cons]
    simp [Nat.add_comm, Nat.add_left_comm]

/-- Groups of stacked units, counting from a number. -/
structure Stacks (i : Nat) (us : List Spec.Unit) (ms : List Mark) : Prop where
  plots : Plots (List.range' i us.length) (markedPaths (placedFrom i us)) (drawingAll ms)
  all : ∀ m ∈ ms, All Sketch m
  closed : ∀ m ∈ ms, All Closed m

theorem closed_group {m : Mark} {i : Nat} (hname : m.name = concatPath i ++ "group") : m.Closed := by
  intro path hpath
  obtain ⟨tail, htail, heq⟩ := mem_unitNames.mp hpath
  exact absurd (hname.symm.trans heq) (groupName_ne htail i)

theorem Context.sound_concat (visit : Visit) (i : Nat) : Context.Sound o { visit, place := {
    path := s!"concat_{i}_", scalePrefix := s!"concat_{i}_", width := "childWidth", height := "childHeight" } } := by
  refine ⟨by simp, ?_, by simp, by simp⟩
  show (s!"concat_{i}_").toList.head? ≠ some 't'
  rw [← concatPath_eq, toList_concatPath]
  simp

theorem yields_lowerConcat (visit : Visit) {us : List Spec.Unit} (hus : ∀ u ∈ us, u.Sound)
    (hothers : ∀ raw ∈ Dict.get? others "data", Supplies o.brought raw)
    (hdata : SuppliedBy o.brought (us.map (·.others))) (hparams : Declares o.declared (us.map .unit)) (i : Nat) :
    Yields (Draft.Tidy o) (lowerConcat visit others i us) (Stacks i us) := by
  induction us generalizing i with
  | nil => exact yields_pure ⟨.nil, by simp, by simp⟩
  | cons u us ih =>
    obtain ⟨hu, hus⟩ := forall_mem_cons.mp hus
    obtain ⟨hown, hdata⟩ := forall_mem_cons.mp hdata
    obtain ⟨hdeclared, hparams⟩ := forall_mem_cons.mp hparams
    have hcontext := ((Context.sound_concat visit i).inherit hothers).inherit hown
    rw [lowerConcat]
    refine ((yields_lowerUnit u.time.isSome hu hcontext hdeclared).within _).bind fun marks hmarks =>
      (ih hus hdata hparams (i + 1)).bind fun rest hrest => yields_pure ⟨?_, ?_, ?_⟩
    · have hpaths : markedPaths (placedFrom i (u :: us))
          = markedPaths [⟨concatPath i, u, u.time.isSome⟩] ++ markedPaths (placedFrom (i + 1) us) :=
        markedPaths_append [_] _
      have hunit := hmarks.plots
      rw [← concatPath_eq] at hunit
      rw [hpaths, length_cons, range'_succ, drawingAll, flatMap_cons, drawing_eq]
      have hgroup := (hunit.append hrest.plots).group i
      rw [concatPath_eq i] at hgroup ⊢
      exact hgroup
    · refine forall_mem_cons.mpr ⟨all_iff.mpr ⟨?_, hmarks.all⟩, hrest.all⟩
      refine sketch_mark (by simp [ofType]) (tracedBlock_ofPairs ?_) (.nil _) regular_empty
      simpa using ⟨traced_signalRef "childWidth", traced_signalRef "childHeight"⟩
    · refine forall_mem_cons.mpr ⟨all_iff.mpr ⟨closed_group (i := i) ?_, hmarks.closed⟩, hrest.closed⟩
      rw [concatPath_eq]
      rfl

/-! ## Charts -/

def propertyNames : List String :=
  ["$schema", "background", "padding", "width", "height", "title", "description", "autosize", "config", "style",
    "layout", "axes", "projections"]

theorem foldName_propertyNames : ∀ k ∈ propertyNames, ∀ n ∈ Graph.names, foldName k ≠ foldName n := by decide

theorem foreign_properties {ps : List (String × Fragment)}
    (h : ∀ e ∈ ps, e.2.Proper ∧ e.1 ∈ propertyNames) : Foreign Graph.names (Dict.ofPairs ps) :=
  .ofPairs (fun e he => (h e he).1) fun e he => foldName_propertyNames e.1 (h e he).2

theorem handedOn (h : ∀ e ∈ others, e.2.Spelled) {names : List String} (hnames : ∀ n ∈ names, n ∈ propertyNames) :
    ∀ e ∈ others.filter (fun o => names.contains o.1), e.2.Proper ∧ e.1 ∈ propertyNames := by
  intro e he
  obtain ⟨hmem, hname⟩ := mem_filter.mp he
  exact ⟨(h e hmem).proper, hnames e.1 (contains_iff_mem.mp hname)⟩

theorem commonProperties_proper : ∀ e ∈ commonProperties, e.2.Proper ∧ e.1 ∈ propertyNames := by
  simp only [commonProperties, forall_mem_cons]
  exact ⟨⟨proper_text _, by decide⟩, ⟨proper_text _, by decide⟩,
    ⟨proper_literal _, by decide⟩, by simp⟩

theorem viewProperties_proper (size : Size) (h : ∀ e ∈ others, e.2.Spelled) :
    ∀ e ∈ viewProperties size others, e.2.Proper ∧ e.1 ∈ propertyNames := by
  refine forall_mem_append.mpr ⟨forall_mem_append.mpr ⟨?_, handedOn h (by decide)⟩, ?_⟩
  · simp only [forall_mem_cons]
    exact ⟨⟨proper_literal _, by decide⟩, ⟨proper_literal _, by decide⟩, by simp⟩
  · simpa using ⟨proper_text "cell", show "style" ∈ propertyNames by decide⟩

/-- The marks and the properties of a lowered chart. -/
structure Lowered (c : Chart) (marks : List Mark) (properties : Dict Fragment) : Prop where
  plots : ∃ groups, groups.Nodup ∧ Plots groups (markedPaths c.placed) (drawingAll marks)
  all : ∀ m ∈ marks, All Sketch m
  closed : ∀ m ∈ marks, All Closed m
  properties : Foreign Graph.names properties

theorem yields_lowerChart (visit : Visit) (size : Size) {c : Chart} (hc : c.Sound) (hdata : SuppliedBy o.brought c.further)
    (hparams : Declares o.declared (viewsOf c)) :
    Yields (Draft.Tidy o) (lowerChart visit size c) fun r => Lowered c r.1 r.2 := by
  unfold lowerChart
  split
  · next v =>
    refine (yields_lowerView v _ false hc (Context.sound_empty visit) hdata hparams).bind fun marks hmarks => yields_pure
      ⟨⟨[], nodup_nil, hmarks.plots⟩, hmarks.all, hmarks.closed, foreign_properties ?_⟩
    refine forall_mem_append.mpr ⟨commonProperties_proper, viewProperties_proper size ?_⟩
    cases v with
    | unit u => exact hc.1.others.spelled
    | layer l children => exact hc.1.others.spelled
  · next us others =>
    have hus : ∀ u ∈ us.getD [], u.Sound := by
      cases us with
      | none => simp
      | some us => exact fun u hu => (hc.1 us rfl u hu).1
    obtain ⟨hothers, hunits⟩ := forall_mem_cons.mp hdata
    refine (yields_lowerConcat visit hus hothers hunits hparams 0).bind fun marks hmarks => yields_pure
      ⟨⟨List.range' 0 (us.getD []).length, nodup_range', ?_⟩, hmarks.all, hmarks.closed, foreign_properties ?_⟩
    · have hplots := hmarks.plots
      simp only [placedFrom_eq, Nat.zero_add] at hplots
      exact hplots
    · refine forall_mem_append.mpr ⟨forall_mem_append.mpr ⟨commonProperties_proper, ?_⟩,
        handedOn hc.2.1.spelled (by decide)⟩
      simpa using ⟨proper_closed.value trivial, show "layout" ∈ propertyNames by decide⟩

/-- The origin of the draft of a chart: it begins as it does, and data definitions and parameters are accounted for. -/
structure Origin.Of (o : Origin) (size : Size) (c : Chart) : Prop where
  start : o.start = opening size c
  data : SuppliedBy o.brought c.further
  params : Declares o.declared (viewsOf c)

/-- A draft that may come from anything. -/
def Origin.any (start : Draft) : Origin := ⟨fun _ => True, fun _ => True, start⟩

theorem Origin.any_of (size : Size) (c : Chart) : (Origin.any (opening size c)).Of size c :=
  ⟨rfl, suppliedBy_true _, fun _ _ _ _ => trivial⟩

theorem tidy_opening {size : Size} {c : Chart} (h : o.Of size c) : (opening size c).Tidy o := by
  have hsignals : ∀ x ∈ (opening size c).signals, x.Proper := by
    cases c with
    | view v => nofun
    | vconcat us others => exact forall_mem_cons.mpr ⟨⟨by simp, by simp⟩, forall_mem_singleton.mpr ⟨by simp, by simp⟩⟩
  refine ⟨?_, hsignals, ?_, ?_, ?_, ?_, h.start ▸ .refl⟩ <;> cases c <;> simp [opening]

/-! ## Graphs -/

theorem withAxes_eq (m : Mark) : ∃ others, withAxes scales m = { m with others }
    ∧ (Foreign fieldNames m.others → Foreign fieldNames others) := by
  unfold withAxes
  dsimp only
  split
  · refine ⟨_, rfl, fun h => h.put (proper_closed.valueList fun _ _ => trivial) ?_⟩
    decide
  · exact ⟨m.others, by cases m; rfl, id⟩

theorem all_withAxes {m : Mark} (h : All Sketch m) : All Sketch (withAxes scales m) := by
  obtain ⟨others, heq, hothers⟩ := withAxes_eq scales m
  obtain ⟨hown, hmarks⟩ := all_iff.mp h
  rw [heq]
  exact all_iff.mpr ⟨{ hown with others := hothers hown.others }, hmarks⟩

theorem drawing_withAxes (m : Mark) : (withAxes scales m).drawing = m.drawing := by
  obtain ⟨others, heq, -⟩ := withAxes_eq scales m
  rw [heq, drawing_eq, drawing_eq]
  rfl

theorem others_build (b : ScalePlan) : b.build.others = b.scale.others := by
  unfold ScalePlan.build
  split <;> rfl

theorem foreign_finish {s : Draft} {marks : List Mark} {properties : Dict Fragment}
    (h : Foreign Graph.names properties) : Foreign Graph.names (finish s marks properties).others := by
  have hprojection {ps : Dict Fragment} (hps : Foreign Graph.names ps) (p : Value) :
      Foreign Graph.names (Dict.put "projections" (.list [p.toFragment]) ps) := by
    refine hps.put (proper_list ?_) (foldName_propertyNames "projections" (by decide))
    simpa using proper_closed.value trivial
  have haxes (axes : List Value) : Foreign Graph.names (Dict.put "axes" (.list (Value.toItems axes)) properties) :=
    h.put (proper_closed.valueList fun _ _ => trivial) (foldName_propertyNames "axes" (by decide))
  unfold finish
  dsimp only
  cases axesOf s.scales "" <;> cases s.projection
  · exact h
  · exact hprojection h _
  · exact haxes _
  · exact hprojection (haxes _) _

variable {c : Chart} {s : Draft} {marks : List Mark} {properties : Dict Fragment}

theorem restorable_finish (hs : s.Tidy o) (h : Lowered c marks properties) :
    (finish s marks properties).Restorable where
  data := fun d hd => (hs.data d hd).others.proper
  signals := hs.signals
  scales := by
    intro x hx
    obtain ⟨b, hb, rfl⟩ := mem_map.mp hx
    rw [others_build]
    exact (hs.scales b hb).proper
  marks := by
    intro m hm
    obtain ⟨m', hm', rfl⟩ := mem_map.mp hm
    exact (all_withAxes s.scales (h.all m' hm')).imp fun _ hm => hm.toEntry
  others := foreign_finish h.properties

theorem draws_finish (s : Draft) (marks : List Mark) (properties : Dict Fragment) :
    (finish s marks properties).draws = drawingAll marks := by
  simp only [Graph.draws, finish, drawingAll, flatMap_map, drawing_withAxes]

theorem nodup_markedPaths (c : Chart) : (markedPaths c.placed).Nodup :=
  (Chart.nodup_paths c).sublist (filter_sublist.map _)

theorem orderly_finish (h : Lowered c marks properties) : (finish s marks properties).Orderly where
  toDistinct := by
    obtain ⟨groups, hgroups, hplots⟩ := h.plots
    rw [← draws_finish s marks properties] at hplots
    exact hplots.distinct hgroups (nodup_markedPaths c)
  closed := by
    intro m hm
    obtain ⟨m', hm', rfl⟩ := mem_map.mp hm
    obtain ⟨others, heq, -⟩ := withAxes_eq s.scales m'
    rw [heq]
    exact (Replaces.here : Replaces m' { m' with others } _ _).closed ⟨rfl, rfl, rfl⟩ (h.closed m' hm')

theorem drawn_finish (h : Lowered c marks properties) : (finish s marks properties).Drawn Sketch where
  toApart := (orderly_finish h).apart
  all := by
    intro m hm
    obtain ⟨m', hm', rfl⟩ := mem_map.mp hm
    exact all_withAxes s.scales (h.all m' hm')

/-- Datasets and scales of a graph that can be read again, the datasets under registered names and the scales under
different ones that animation leaves alone. -/
structure TidyGraph (brought : String → Prop) (g : Graph) : Prop where
  data : ∀ d ∈ g.data, TidyDataset brought d
  scales : ∀ c ∈ g.scales, TidyScale c
  distinct : (g.scales.map (·.name)).Nodup

theorem tidy_finish (hs : s.Tidy o) : TidyGraph o.brought (finish s marks properties) := by
  have hname (b : ScalePlan) : b.build.name = b.scale.name := by
    unfold ScalePlan.build
    split <;> rfl
  refine ⟨hs.data, forall_mem_map.mpr fun b hb => ?_, ?_⟩
  · have hscale := hs.scales b hb
    exact ⟨others_build b ▸ hscale.sorted, others_build b ▸ hscale.proper, hname b ▸ hscale.name⟩
  · simp only [finish, map_map]
    exact (map_congr_left fun b _ => hname b) ▸ hs.distinct

theorem compile_cases (h : compile size doc = .ok g) :
    ∃ c s marks properties, Chart.parse doc = .ok c ∧ g = finish s marks properties ∧ Lowered c marks properties
      ∧ (∀ o : Origin, o.Of size.orDefault c → s.Tidy o)
      ∧ (lowerChart .inOrder size.orDefault c).run (opening size.orDefault c) = .ok ((marks, properties), s) := by
  obtain ⟨c, hc, hlower⟩ := bind_eq_ok.mp h
  unfold lowerIn at hlower
  split at hlower
  · next marks properties s hrun =>
    cases hlower
    have hyields (o : Origin) (ho : o.Of size.orDefault c) :=
      (yields_lowerChart .inOrder size.orDefault (Chart.sound_parse hc) ho.data ho.params).run_ok (tidy_opening ho) hrun
    exact ⟨c, s, marks, properties, hc, rfl, (hyields _ (Origin.any_of _ c)).2, fun o ho => (hyields o ho).1, hrun⟩
  · split at hlower <;> cases hlower

theorem drawn_compile (h : compile size doc = .ok g) : g.Restorable ∧ g.Drawn Sketch ∧ ∃ c, Chart.parse doc = .ok c
      ∧ ∃ groups, groups.Nodup ∧ Plots groups (markedPaths c.placed) g.draws := by
  obtain ⟨c, s, marks, properties, hc, rfl, hlowered, htidy, -⟩ := compile_cases h
  refine ⟨restorable_finish (htidy _ (Origin.any_of _ c)) hlowered, drawn_finish hlowered, c, hc, ?_⟩
  rw [draws_finish]
  exact hlowered.plots

theorem orderly_compile (h : compile size doc = .ok g) : g.Orderly := by
  obtain ⟨c, s, marks, properties, -, rfl, hlowered, -⟩ := compile_cases h
  exact orderly_finish hlowered

theorem tidy_compile (h : compile size doc = .ok g) :
    ∃ c, Chart.parse doc = .ok c ∧ ∀ brought, SuppliedBy brought c.further → TidyGraph brought g := by
  obtain ⟨c, s, marks, properties, hc, rfl, -, htidy, -⟩ := compile_cases h
  exact ⟨c, hc, fun brought hdata => tidy_finish (htidy ⟨brought, fun _ => True, _⟩ ⟨rfl, hdata, fun _ _ _ _ => trivial⟩)⟩

end AnimatedChart.Lowering

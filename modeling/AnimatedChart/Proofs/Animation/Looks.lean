import AnimatedChart.Proofs.Animation.Passage
import AnimatedChart.Proofs.Animation.Twins

/-!
# Scales of entering and leaving rows

The look of entering or leaving rows is drawn by a view of its own, and only its channels are taken over
(`runs_overrideBlock`).
-/

open List

namespace AnimatedChart

open Json

namespace Animation

theorem Unclaimed.append {a b : String} (ha : Unclaimed a) (hb : Unclaimed b) : Unclaimed (a ++ b) := by
  rw [Unclaimed, String.toList_append, head?_append, List.getLast?_append]
  constructor
  · cases hhead : a.toList.head? with
    | none => exact hb.1
    | some c =>
      rw [Option.some_or, ← hhead]
      exact ha.1
  · cases hlast : b.toList.getLast? with
    | none => exact ha.2
    | some c =>
      rw [Option.some_or, ← hlast]
      exact hb.2

end Animation

namespace Spec

open Animation

theorem unclaimed_childPath {path : String} (h : Unclaimed path) (i : Nat) : Unclaimed (childPath path i) := by
  have hchild : childPath path i = path ++ childPath "" i := by
    rw [← String.toList_inj, String.toList_append, toList_childPath, toList_childPath]
    rfl
  rw [hchild]
  refine h.append ⟨by simp [toList_childPath], ?_⟩
  rw [toList_childPath, ← append_assoc, ← append_assoc, getLast?_concat]
  decide

theorem unclaimed_concatPath (i : Nat) : Unclaimed (concatPath i) := by
  refine ⟨by simp [toList_concatPath], ?_⟩
  rw [toList_concatPath, ← append_assoc, getLast?_concat]
  decide

theorem Chart.unclaimed_placed {c : Chart} {p : Placed} (hp : p ∈ c.placed) : Unclaimed p.path := by
  obtain ⟨s, hs, hpath⟩ := mem_map.mp (c.paths_placed.subset (mem_map_of_mem hp))
  rw [← hpath]
  exact forall_sites (P := fun s => Unclaimed s.path) (fun _ _ _ i _ _ _ h => unclaimed_childPath h i)
    (fun _ => (by decide : Unclaimed "")) (fun i _ _ => unclaimed_concatPath i) c s hs

end Spec

namespace Animation

open Spec Lowering

variable {g g' : Graph} {compiler : BaseCompiler} {st : Stage} {u : ScopedUnit} {e : Encoding} {view : Graph}
  {d : Dict Value} {docs docs' : List String}

/-! ## Looks -/

/-- What a look takes over from its view to a graph: the properties of its channels, with the scales of the unit's view
where the graph has them. -/
def takenOver (g : Graph) (u : ScopedUnit) (e : Encoding) (view : Graph) : Dict Value :=
  match view.unitMark? "" with
  | none => []
  | some m => .ofPairs (((Dict.keys e.channels).flatMap channelProperties).filterMap fun p =>
      (Dict.get? (m.primary.block "update") p).map fun v => (p, if u.path.isEmpty then v else renameScales g u.path v))

theorem overrideBlock_eq : overrideBlock compiler st u e
    = lowerStatic compiler (overrideChart u e) >>= fun view => pure (takenOver st.graph u e view) := by
  unfold overrideBlock
  congr 1
  funext view
  rw [takenOver]
  cases view.unitMark? "" <;> rfl

theorem runs_overrideBlock : Runs (overrideBlock compiler st u e) docs d docs' ↔
    ∃ view, Runs (lowerStatic compiler (overrideChart u e)) docs view docs' ∧ takenOver st.graph u e view = d := by
  simp only [overrideBlock_eq, runs_bind, runs_pure]
  constructor
  · rintro ⟨view, docs₁, hview, hd, rfl⟩
    exact ⟨view, hview, hd⟩
  · rintro ⟨view, hview, hd⟩
    exact ⟨view, docs', hview, hd, rfl⟩

theorem mem_takenOver {c : String × Value} (h : c ∈ takenOver g u e view) : ∃ m v, view.unitMark? "" = some m
    ∧ (c.1, v) ∈ m.primary.block "update" ∧ c.2 = if u.path.isEmpty then v else renameScales g u.path v := by
  unfold takenOver at h
  split at h
  · cases h
  · next m hm =>
    have hmem := (Dict.mem_of_mem_putAll h).resolve_right (by simp)
    obtain ⟨p, -, hp⟩ := mem_filterMap.mp hmem
    obtain ⟨v, hv, rfl⟩ := Option.map_eq_some_iff.mp hp
    exact ⟨m, v, hm, Dict.mem_of_get? hv, rfl⟩

theorem takenOver_of_bare {view' : Graph} (h : view'.marks.map Mark.bare = view.marks.map Mark.bare) :
    takenOver g u e view' = takenOver g u e view := by
  have hmark := Graph.unitMark?_of_bare h ""
  unfold takenOver
  cases hm : view.unitMark? "" with
  | none =>
    rw [hm] at hmark
    rw [Option.map_eq_none_iff.mp hmark]
  | some m =>
    rw [hm] at hmark
    obtain ⟨m', hm', hbare⟩ := Option.map_eq_some_iff.mp hmark
    have hblock : m'.primary.block "update" = m.primary.block "update" := by
      rw [← Mark.block_primary_bare, hbare, Mark.block_primary_bare]
    rw [hm']
    simp only [hblock]

theorem traced_view (hview : Runs (lowerStatic Adapter.reference.base (overrideChart u e)) docs view docs') {m : Mark}
    (hm : view.unitMark? "" = some m) : ∀ c ∈ m.primary.block "update", Traced c.2 :=
  (Mark.all_iff.mp (Mark.all_primary (Graph.all_unitMark? (traced_lowerStatic hview).all hm))).1

theorem renameScales_congr {path : String} {v : Value} (hv : Traced v)
    (h : ∀ n, Unclaimed n → (path ++ n ∈ g'.scales.map (·.name) ↔ path ++ n ∈ g.scales.map (·.name))) :
    renameScales g' path v = renameScales g path v := by
  obtain ⟨ms, rfl⟩ := hv.rule
  unfold renameScales
  split
  · next n hn =>
    have hsame : (g'.scale? (path ++ n)).isSome = (g.scale? (path ++ n)).isSome := by
      rw [Bool.eq_iff_iff, isSome_scale?, isSome_scale?]
      exact h n (hv.scale n hn)
    rw [hsame]
  · rfl

theorem takenOver_congr (hview : Runs (lowerStatic Adapter.reference.base (overrideChart u e)) docs view docs')
    (h : ∀ n, Unclaimed n → (u.path ++ n ∈ g'.scales.map (·.name) ↔ u.path ++ n ∈ g.scales.map (·.name))) :
    takenOver g' u e view = takenOver g u e view := by
  unfold takenOver
  split
  · rfl
  · next m hm =>
    refine congrArg Dict.ofPairs (filterMap_congr fun p _ => Option.map_congr fun v hv => ?_)
    rw [renameScales_congr (traced_view hview hm _ (Dict.mem_of_get? hv)) h]

theorem traced_takenOver (hview : Runs (lowerStatic Adapter.reference.base (overrideChart u e)) docs view docs')
    (hpath : Unclaimed u.path) {c : String × Value} (h : c ∈ takenOver g u e view) :
    (∃ ms, c.2 = .object ms) ∧ ∀ n, namedScale? c.2 = some n → Unclaimed n := by
  obtain ⟨m, v, hm, hv, hc⟩ := mem_takenOver h
  have htraced := traced_view hview hm _ hv
  obtain ⟨ms, rfl⟩ := htraced.rule
  rw [hc]
  split
  · exact ⟨⟨ms, rfl⟩, htraced.scale⟩
  · unfold renameScales
    split
    · next n hn =>
      split
      · refine ⟨⟨_, rfl⟩, fun n' hn' => ?_⟩
        rw [namedScale?, Value.members?, Option.bind_some, Dict.get?_put, if_pos rfl] at hn'
        exact Option.some.inj hn' ▸ hpath.append (htraced.scale n hn)
      · exact ⟨⟨ms, rfl⟩, htraced.scale⟩
    · exact ⟨⟨ms, rfl⟩, htraced.scale⟩

/-- In a compiled document the looks of a unit are what the static graph takes over from their views. Their values are
single rules, and a scale that such a rule names is defined just if the static graph has it. -/
theorem looks_compileDocument {doc : String} {out : Graph} (hout : compileDocument Adapter.reference.base doc = .ok out) :
    ∃ c g docs, Chart.parse doc = .ok c ∧ Runs (lowerStatic Adapter.reference.base c.elaborate) [] g docs
      ∧ ∀ s ∈ c.elaborate.scopes, ∀ u ∈ s.units, s.filtersOf u ≠ [] →
        ∀ block e, (block, some e) ∈ [("enter", u.unit.enter), ("exit", u.unit.exit)] →
          ∃ m view docs', out.unitMark? u.path = some m
            ∧ Runs (lowerStatic Adapter.reference.base (overrideChart u e)) [] view docs'
            ∧ m.primary.block block = takenOver g u e view
            ∧ ∀ p ∈ m.primary.block block, (∃ ms, p.2 = .object ms) ∧ ∀ n, namedScale? p.2 = some n →
              (n ∈ out.scales.map (·.name) ↔ n ∈ g.scales.map (·.name)) := by
  obtain ⟨c, g, docs, animated, hparse, hg, -, hcovers, hscales, hmarks, hpassages⟩ := passage_compileDocument hout
  refine ⟨c, g, docs, hparse, hg, fun s hs u hu hfilters block e hlook => ?_⟩
  obtain ⟨st, bound, b, part, m, rfl, hpassage, hm⟩ := hpassages s hs u hu hfilters
  obtain ⟨m', hm', -, hlooks⟩ := hpassage.unitMark (orderly_lowerStatic hg) hm
  obtain ⟨docs₁, docs₂, hrun⟩ := hlooks block e hlook
  obtain ⟨view, hview, hblock⟩ := runs_overrideBlock.mp hrun
  have hdrawn := drawn_lowerStatic hg
  have hpath : Unclaimed u.path := by
    obtain ⟨p, hp, hpath⟩ := mem_map.mp (mem_markedPaths_of_scopes hs hu)
    exact hpath ▸ Chart.unclaimed_placed (mem_filter.mp hp).1
  have hsteps : Steps (Tracked animated) c.elaborate.scopes g (bound.tweened u b).graph :=
    .trans (hpassage.steps_bound.trans hpassage.steps_rescaled) hpassage.steps_tweened
  rw [takenOver_congr hview fun n hn => Steps.mem_scaleNames hsteps hdrawn (hpath.append hn)] at hblock
  refine ⟨m', view, _, (hmarks _).symm.trans hm', runs_lowerStatic.mpr ⟨rfl, (runs_lowerStatic.mp hview).2⟩,
    hblock.symm, fun p hp => ?_⟩
  obtain ⟨hrule, hunclaimed⟩ := traced_takenOver hview hpath (hblock ▸ hp)
  refine ⟨hrule, fun n hn => ?_⟩
  rw [← hscales]
  exact Steps.mem_scaleNames hcovers.steps hdrawn (hunclaimed n hn)

/-- Points that are drawn by their place alone, and entering ones by their size too. -/
def growingPoints : Fragment :=
  .record [("data", .record [("values", .list [])]), ("mark", .text "point"),
    ("encoding", .record [("x", .record [("field", .text "a")]), ("time", .record [("field", .text "t")])]),
    ("enter", .record [("size", .record [("field", .text "p")])])]

/-- The scale for the size of entering points is named and not defined. -/
theorem looks_growingPoints :
    ∃ out m v, compileDocument Adapter.reference.base growingPoints.pretty = .ok out ∧ out.unitMark? "" = some m
      ∧ ("size", v) ∈ m.primary.block "enter" ∧ namedScale? v = some "size" ∧ "size" ∉ out.scales.map (·.name) := by
  have hlowers : ∃ c ∈ unitOf? growingPoints, (lowered? c.elaborate).isSome = true
      ∧ (base? c.elaborate).map (fun g => g.scales.map (·.name)) = some ["x"] ∧ (∀ s ∈ c.elaborate.scopes, s.field ≠ "")
      ∧ (∀ s ∈ c.elaborate.scopes, ∀ u ∈ s.units, u.path = "" ∧ s.filtersOf u ≠ [] ∧ u.unit.exit = none
        ∧ ∃ e ∈ u.unit.enter, (lowered? (overrideChart u e)).isSome = true ∧ ∃ view ∈ base? (overrideChart u e),
          (Dict.get? (takenOver {} u e view) "size").bind namedScale? = some "size")
      ∧ ∃ s ∈ c.elaborate.scopes, s.units.length = 1 := by
    decide +kernel
  obtain ⟨c, hc, hlowered, hnames, hfields, hunits, s, hs, hlength⟩ := hlowers
  obtain ⟨g₀, hbase, hnames⟩ := Option.map_eq_some_iff.mp hnames
  have hparse := parse_of_unitOf hc
  obtain ⟨g, docs, hg⟩ := exists_lowerStatic hlowered
  obtain ⟨out, hout⟩ := exists_compileDocument hparse hfields hg fun s hs u hu _ => by
    obtain ⟨-, -, hexit, e, he, hview, -⟩ := hunits s hs u hu
    refine ⟨fun e' he' => ?_, hexit ▸ (by simp)⟩
    obtain rfl := Option.some.inj (he.symm.trans he')
    exact exists_lowerStatic hview
  obtain ⟨c', g', docs', hc', hg', hlooks⟩ := looks_compileDocument hout
  obtain rfl := Except.ok.inj (hparse.symm.trans hc')
  obtain ⟨u, hu⟩ := exists_mem_of_length_pos (hlength ▸ Nat.one_pos)
  obtain ⟨hpath, hfilters, -, e, he, -, view, hview, hsize⟩ := hunits s hs u hu
  obtain ⟨m, view', docs₁, hm, hview', hblock, hrules⟩ := hlooks s hs u hu hfilters "enter" e
    (by simp [Option.mem_def.mp he])
  -- At the root it makes no difference which graph the channels are taken over to.
  have hroot : takenOver g' u e view' = takenOver {} u e view := by
    rw [takenOver_of_bare (lowered_of_base hview hview').2.2]
    simp [takenOver, hpath]
  obtain ⟨v, hv, hnamed⟩ := Option.bind_eq_some_iff.mp hsize
  have hmem := hblock.trans hroot ▸ Dict.mem_of_get? hv
  refine ⟨out, m, v, hout, hpath ▸ hm, hmem, hnamed, ?_⟩
  rw [(hrules _ hmem).2 "size" hnamed, (lowered_of_base hbase hg').2.1, hnames]
  decide

end Animation
end AnimatedChart

import AnimatedChart.Command.Basic
import AnimatedChart.Proofs.Animation.Scopes
import AnimatedChart.Proofs.Graph.Names
import AnimatedChart.Proofs.Lowering.Views

/-!
# The graph that animation starts from

Animation starts from the graph of the static chart, as it comes back when it is written and read. Its marks are those
that were drawn, up to blanks (`marks_normalize`), so it has the mark of every marked unit (`plots_lowerStatic`).
-/

open List AnimatedChart.Lowering AnimatedChart.Mark

namespace AnimatedChart

open Json

variable {doc : String} {f : Fragment} {g g' g₀ out : Graph} {p : Mark → Prop} (m : Mark)

/-! ## Marks without blanks -/

namespace Mark

variable {p : Mark → Prop}

theorem name_bare : m.bare.name = m.name := by rw [bare_eq]

theorem block_bare (name : String) : m.bare.block name = m.block name := by rw [bare_eq, block, block]

theorem dataset_bare : m.bare.dataset = m.dataset := by
  rw [bare_eq, dataset, dataset]
  rcases m.source with _ | ⟨data, _ | f⟩ <;> rfl

theorem block_primary_bare (name : String) : m.bare.primary.block name = m.primary.block name := by
  have hfaceted : m.bare.isFaceted = m.isFaceted := by
    rw [bare_eq, isFaceted, isFaceted]
    rcases m.source with _ | ⟨data, _ | f⟩ <;> rfl
  have hmarks : m.bare.marks = m.marks.map bare := by rw [bare_eq]
  unfold primary
  rw [hfaceted, hmarks]
  cases m.isFaceted with
  | false => exact m.block_bare name
  | true =>
    cases m.marks with
    | nil => exact m.block_bare name
    | cons first rest => exact first.block_bare name

theorem walk_bare (p : Option Mark) : walk (p.map bare) m.bare = (walk p m).map (Prod.map bare (Option.map bare)) := by
  induction m generalizing p with
  | step m ih =>
    have hmarks : m.bare.marks = m.marks.map bare := by rw [bare_eq]
    rw [walk_eq, walk_eq, map_cons, walkAll_eq, walkAll_eq, hmarks, flatMap_map, map_flatMap]
    exact congrArg _ (flatMap_congr fun x hx => ih x hx (some m))

theorem nodes_bare : m.bare.nodes = m.nodes.map bare := by
  rw [nodes, nodes, show walk none m.bare = _ from m.walk_bare none, map_map, map_map]
  rfl

theorem all_bare (hp : ∀ m : Mark, p m.bare ↔ p m) : All p m.bare ↔ All p m := by
  rw [all_iff_nodes, all_iff_nodes, nodes_bare, forall_mem_map]
  exact forall₂_congr fun x _ => hp x

theorem findIn?_bare (name : String) (ms : List Mark) : findIn? name (ms.map bare) = (findIn? name ms).map bare := by
  have hname : ((·.name == name) ∘ bare) = (·.name == name) := funext fun x => by rw [Function.comp, name_bare]
  simp only [findIn?_eq, flatMap_map, nodes_bare]
  rw [← map_flatMap, find?_map, hname]

theorem drawing_bare : m.bare.drawing = m.drawing := by
  rw [drawing, nodes_bare, map_map]
  exact map_congr_left fun x _ => Prod.ext x.name_bare x.dataset_bare

theorem outline_bare : m.bare.outline = m.outline := by
  have hvisit (e : Mark × Option Mark) : visit (Prod.map bare (Option.map bare) e) = visit e := by
    obtain ⟨x, p⟩ := e
    have htype : x.bare.type = x.type := by rw [bare_eq]
    cases p <;> simp [visit, name_bare, htype]
  rw [outline, outline, show walk none m.bare = _ from m.walk_bare none, map_map]
  exact map_congr_left fun e _ => hvisit e

theorem closed_bare : m.bare.Closed ↔ m.Closed :=
  ⟨fun h => h.congr m.outline_bare.symm, fun h => h.congr m.outline_bare⟩

end Mark

theorem Graph.outlines_of_bare (h : g'.marks.map Mark.bare = g.marks.map Mark.bare) :
    g'.marks.map outline = g.marks.map outline := by
  have houtline (g : Graph) : g.marks.map Mark.outline = (g.marks.map Mark.bare).map Mark.outline := by
    simp only [map_map, Function.comp_def, outline_bare]
  rw [houtline, houtline, h]

theorem Graph.unitMark?_of_bare (h : g'.marks.map Mark.bare = g.marks.map Mark.bare) (path : String) :
    (g'.unitMark? path).map Mark.bare = (g.unitMark? path).map Mark.bare := by
  have hfind (name : String) : (Mark.findIn? name g'.marks).map Mark.bare = (Mark.findIn? name g.marks).map Mark.bare := by
    rw [← Mark.findIn?_bare, ← Mark.findIn?_bare, h]
  have hsome (name : String) : (Mark.findIn? name g'.marks).isSome = (Mark.findIn? name g.marks).isSome := by
    rw [← Option.isSome_map, hfind, Option.isSome_map]
  have hname : g'.unitMarkName? path = g.unitMarkName? path := by rw [unitMarkName?, unitMarkName?, hsome, hsome]
  rw [unitMark?, unitMark?, hname]
  cases g.unitMarkName? path with
  | none => rfl
  | some name => exact hfind name

theorem Graph.draws_of_bare (h : g'.marks.map Mark.bare = g.marks.map Mark.bare) : g'.draws = g.draws := by
  have hdraws (g : Graph) : g.draws = (g.marks.map Mark.bare).flatMap Mark.drawing := by
    rw [draws, drawingAll, flatMap_map]
    simp only [drawing_bare]
  rw [hdraws, hdraws, h]

theorem Graph.Drawn.imp {q : Mark → Prop} (hg : g.Drawn p) (h : ∀ m, p m → q m) : g.Drawn q :=
  ⟨hg.toApart, fun m hm => (hg.all m hm).imp fun m hm => h m hm⟩

theorem Graph.Drawn.of_bare (hp : ∀ m : Mark, p m.bare ↔ p m) (h : g'.marks.map Mark.bare = g.marks.map Mark.bare)
    (hg : g.Drawn p) : g'.Drawn p := by
  have hnames (g : Graph) : g.marks.map (·.name) = (g.marks.map Mark.bare).map (·.name) := by
    simp only [map_map, Function.comp_def, name_bare]
  have hsame : g'.marks.map (·.name) = g.marks.map (·.name) := by rw [hnames, hnames, h]
  have hmark : ∀ m ∈ g'.marks, ∃ m₀ ∈ g.marks, m₀.bare = m.bare := fun m hm => mem_map.mp (h ▸ mem_map_of_mem hm)
  refine ⟨⟨fun m hm => ?_, ?_⟩, fun m hm => ?_⟩
  · obtain ⟨m₀, hm₀, heq⟩ := hmark m hm
    rw [← m.name_bare, ← heq, name_bare]
    exact hg.named m₀ hm₀
  · rw [hsame]
    exact hg.distinct
  · obtain ⟨m₀, hm₀, heq⟩ := hmark m hm
    rw [← all_bare _ hp, ← heq, all_bare _ hp]
    exact hg.all m₀ hm₀

theorem Graph.Orderly.of_bare (h : g'.marks.map Mark.bare = g.marks.map Mark.bare) (hg : g.Orderly) : g'.Orderly where
  named := draws_of_bare h ▸ hg.named
  nodup := draws_of_bare h ▸ hg.nodup
  closed := (Graph.Drawn.of_bare closed_bare h ⟨hg.apart, hg.closed⟩).all

namespace Animation

open Spec Dependency

variable {g : Graph} {base : BaseCompiler} {c : Chart} {docs docs' : List String}

/-! ## The graph of the static chart -/

theorem traceable_bare : Traceable m.bare ↔ Traceable m := by
  have hblock := m.block_bare "update"
  constructor
  · exact fun h => ⟨m.dataset_bare ▸ h.dataset, hblock ▸ h.refs⟩
  · exact fun h => ⟨m.dataset_bare.symm ▸ h.dataset, hblock.symm ▸ h.refs⟩

theorem marks_normalize (h : g.Restorable) (hnormalize : normalize (some g) = .ok g') :
    g'.marks.map bare = g.marks.map bare := by
  obtain ⟨text, hencode, hparse⟩ := bind_eq_ok.mp hnormalize
  exact Graph.marks_parse h (mapError_eq_ok.mp hencode) (mapError_eq_ok.mp hparse)

theorem runs_lowerStatic_iff : Runs (lowerStatic base c) docs g docs' ↔ docs' = docs ++ [c.static.render]
      ∧ ∃ g₀, base.compile docs.length c.static.render = .ok (some g₀) ∧ normalize (some g₀) = .ok g := by
  constructor
  · intro h
    obtain ⟨seen, docs₁, hseen, h⟩ := runs_bind.mp h
    obtain ⟨hdocs, rfl⟩ := Prod.mk.inj hseen
    cases hdocs
    obtain ⟨_, docs₂, hset, h⟩ := runs_bind.mp h
    obtain ⟨-, rfl⟩ := Prod.mk.inj hset
    obtain ⟨lowered, docs₃, hcompile, hnormalize⟩ := runs_bind.mp h
    obtain ⟨hlowered, rfl⟩ := runs_liftM.mp hcompile
    obtain ⟨hread, rfl⟩ := runs_liftM.mp hnormalize
    cases lowered with
    | none => cases hread
    | some g₀ => exact ⟨rfl, g₀, hlowered, hread⟩
  · rintro ⟨rfl, g₀, hg₀, hnormalize⟩
    refine runs_bind.mpr ⟨docs, docs, rfl, runs_bind.mpr ⟨⟨⟩, docs ++ [c.static.render], rfl, ?_⟩⟩
    exact runs_bind.mpr ⟨some g₀, _, runs_liftM.mpr ⟨hg₀, rfl⟩, runs_liftM.mpr ⟨hnormalize, rfl⟩⟩

theorem runs_lowerStatic : Runs (lowerStatic Adapter.reference.base c) docs g docs' ↔ docs' = docs ++ [c.static.render]
      ∧ ∃ g₀, compile {} c.static.render = .ok g₀ ∧ normalize (some g₀) = .ok g := by
  have hreference (g₀ : Graph) : Adapter.reference.base.compile docs.length c.static.render = .ok (some g₀)
      ↔ compile {} c.static.render = .ok g₀ := by
    show (compile {} c.static.render).map some = _ ↔ _
    cases compile {} c.static.render <;> simp [Except.map]
  simp only [runs_lowerStatic_iff, hreference]

theorem drawn_lowerStatic (h : Runs (lowerStatic Adapter.reference.base c) docs g docs') : g.Drawn Traceable := by
  obtain ⟨-, g₀, hg₀, hnormalize⟩ := runs_lowerStatic.mp h
  obtain ⟨hrestorable, hdrawn, -⟩ := drawn_compile hg₀
  exact (hdrawn.imp fun _ hm => hm.toTraceable).of_bare traceable_bare (marks_normalize hrestorable hnormalize)

theorem traced_lowerStatic (h : Runs (lowerStatic Adapter.reference.base c) docs g docs') :
    g.Drawn fun m => ∀ e ∈ m.block "update", Traced e.2 := by
  obtain ⟨-, g₀, hg₀, hnormalize⟩ := runs_lowerStatic.mp h
  obtain ⟨hrestorable, hdrawn, -⟩ := drawn_compile hg₀
  refine (hdrawn.imp fun _ hm => hm.traced).of_bare (fun m => ?_) (marks_normalize hrestorable hnormalize)
  rw [m.block_bare]

theorem plots_lowerStatic (h : Runs (lowerStatic Adapter.reference.base c) docs g docs') :
    ∃ c', Chart.parse c.static.render = .ok c'
      ∧ ∃ groups, groups.Nodup ∧ Plots groups (markedPaths c'.placed) g.draws := by
  obtain ⟨-, g₀, hg₀, hnormalize⟩ := runs_lowerStatic.mp h
  obtain ⟨hrestorable, -, c', hc', groups, hgroups, hplots⟩ := drawn_compile hg₀
  refine ⟨c', hc', groups, hgroups, ?_⟩
  rw [Graph.draws_of_bare (marks_normalize hrestorable hnormalize)]
  exact hplots

theorem orderly_lowerStatic (h : Runs (lowerStatic Adapter.reference.base c) docs g docs') : g.Orderly := by
  obtain ⟨-, g₀, hg₀, hnormalize⟩ := runs_lowerStatic.mp h
  exact (orderly_compile hg₀).of_bare (marks_normalize (drawn_compile hg₀).1 hnormalize)

theorem names_normalize {size : Size} (hg₀ : compile size doc = .ok g₀) (hnormalize : normalize (some g₀) = .ok g) :
    g.data.map (·.name) = g₀.data.map (·.name) ∧ g.scales.map (·.name) = g₀.scales.map (·.name) := by
  obtain ⟨text, hencode, hparse⟩ := bind_eq_ok.mp hnormalize
  obtain ⟨hrestorable, -⟩ := drawn_compile hg₀
  obtain ⟨c, -, htidy⟩ := tidy_compile hg₀
  have htidy := htidy _ (suppliedBy_true _)
  obtain ⟨hdata, -, hscales, -⟩ := Graph.names_parse (Graph.proper_toFragment hrestorable) hrestorable.others
    (mapError_eq_ok.mp hencode) (mapError_eq_ok.mp hparse)
  exact ⟨hdata fun d hd => (htidy.data d hd).others.sorted, hscales fun x hx => (htidy.scales x hx).sorted⟩

theorem names_lowerStatic (h : Runs (lowerStatic Adapter.reference.base c) docs g docs') :
    ∃ c', Chart.parse c.static.render = .ok c' ∧ ∀ brought, SuppliedBy brought c'.further →
      (∀ d ∈ g.data, Registered brought d.name) ∧ (∀ x ∈ g.scales, Unclaimed x.name)
        ∧ (g.scales.map (·.name)).Nodup := by
  obtain ⟨-, g₀, hg₀, hnormalize⟩ := runs_lowerStatic.mp h
  obtain ⟨c', hc', htidy⟩ := tidy_compile hg₀
  obtain ⟨hdata, hscales⟩ := names_normalize hg₀ hnormalize
  refine ⟨c', hc', fun brought hsupplied => ?_⟩
  have htidy := htidy brought hsupplied
  refine ⟨fun d hd => ?_, fun x hx => ?_, hscales.symm ▸ htidy.distinct⟩
  · obtain ⟨d₀, hd₀, hname⟩ := mem_map.mp (hdata ▸ mem_map_of_mem hd)
    exact hname ▸ (htidy.data d₀ hd₀).name
  · obtain ⟨x₀, hx₀, hname⟩ := mem_map.mp (hscales ▸ mem_map_of_mem hx)
    exact hname ▸ (htidy.scales x₀ hx₀).name

/-! ## Computed graphs -/

/-- The document as it is read from its text. -/
def reread? (f : Fragment) : Option (Fragment × List Lexeme) :=
  parseTokens .value [] (Token.scan (f.write .indented 0 ['\n']))

def unitOf? (f : Fragment) : Option Chart :=
  match reread? f with
  | some (f', []) =>
    match Reader.membersOf f', Unit.read f' with
    | .ok ms, .ok u => if Dict.has ms "layer" || Dict.has ms "vconcat" then none else some (.view (.unit u))
    | _, _ => none
  | _ => none

/-- The graph that the static part of a chart is lowered to, if that is a unit. -/
def base? (c : Chart) : Option Graph := do
  let static ← unitOf? c.static.toFragment
  (lower {} static).toOption

/-- The graph that animating a chart starts from, if its static part is a unit. -/
def lowered? (c : Chart) : Option Graph := do
  let g ← base? c
  guard (g.toFragment.isFinite && g.toFragment.fits 0)
  (Graph.read (g.toFragment.spaced .indented 0)).toOption

theorem parse_of_unitOf (h : unitOf? f = some c) : Chart.parse f.pretty = .ok c := by
  unfold unitOf? at h
  split at h
  · next f' hf' =>
    have hparse : Fragment.parse? f.pretty = some f' := by
      rw [Fragment.parse?, Fragment.pretty, String.toList_ofList, ← reread?, hf']
    split at h
    · next ms u hms hu =>
      split at h
      · cases h
      · next habsent =>
        obtain ⟨hlayer, hconcat⟩ := Bool.or_eq_false_iff.mp (Bool.eq_false_iff.mpr habsent)
        cases h
        exact Chart.parse_unit hparse hms hlayer hconcat hu
    · cases h
  · cases h

theorem compile_of_unitOf (hc : unitOf? f = some c) (hg : (lower {} c).toOption = some g) :
    compile {} f.pretty = .ok g := by
  rw [compile, compileIn, parse_of_unitOf hc]
  exact toOption_eq_some.mp hg

theorem compile_of_base (h : base? c = some g) : compile {} c.static.render = .ok g := by
  obtain ⟨static, hstatic, hg⟩ := Option.bind_eq_some_iff.mp h
  exact compile_of_unitOf hstatic hg

theorem lowered_of_base (hbase : base? c = some g₀) (h : Runs (lowerStatic Adapter.reference.base c) docs g docs') :
    g.data.map (·.name) = g₀.data.map (·.name) ∧ g.scales.map (·.name) = g₀.scales.map (·.name)
      ∧ g.marks.map bare = g₀.marks.map bare := by
  obtain ⟨-, g₁, hg₁, hnormalize⟩ := runs_lowerStatic.mp h
  obtain rfl := Except.ok.inj ((compile_of_base hbase).symm.trans hg₁)
  obtain ⟨hdata, hscales⟩ := names_normalize hg₁ hnormalize
  exact ⟨hdata, hscales, marks_normalize (drawn_compile hg₁).1 hnormalize⟩

theorem normalize_of_reread {rest : List Lexeme} (hfinite : g.toFragment.isFinite = true)
    (hshallow : g.toFragment.isShallow = true) (hf : reread? g.toFragment = some (f, rest))
    (hread : Graph.read f = .ok g') : normalize (some g) = .ok g' := by
  have hencode : g.encode = .ok g.render := Graph.encode_eq_ok.mpr ⟨hfinite, hshallow, rfl⟩
  have hfirst : Fragment.parseFirst? g.render = some f := by
    rw [Fragment.parseFirst?, Graph.render, Fragment.pretty, String.toList_ofList, ← reread?, hf, Option.map_some]
  rw [normalize, hencode]
  show (Graph.parse g.render).mapError _ = _
  rw [Graph.parse, hfirst]
  exact mapError_eq_ok.mpr (mapError_eq_ok.mpr hread)

theorem runs_of_lowered (h : lowered? c = some g) :
    Runs (lowerStatic Adapter.reference.base c) [] g [c.static.render] := by
  obtain ⟨g₀, hbase, h⟩ := Option.bind_eq_some_iff.mp h
  obtain ⟨_, hguard, hg⟩ := Option.bind_eq_some_iff.mp h
  obtain ⟨hfinite, hfits⟩ : g₀.toFragment.isFinite = true ∧ g₀.toFragment.fits 0 = true := by simpa using hguard
  have hcompile := compile_of_base hbase
  have hspelled : g₀.toFragment.Spelled := Graph.proper_toFragment (drawn_compile hcompile).1 hfinite
  have hf : reread? g₀.toFragment = some (g₀.toFragment.spaced .indented 0, []) := by
    rw [reread?, Fragment.parseTokens_write .indented hspelled _ rfl (Token.scan_blanks rfl), if_pos hfits]
  exact runs_lowerStatic.mpr ⟨rfl, g₀, hcompile,
    normalize_of_reread hfinite (Fragment.fits_zero _ ▸ hfits) hf (toOption_eq_some.mp hg)⟩

theorem exists_lowerStatic (h : (lowered? c).isSome = true) :
    ∃ g docs, Runs (lowerStatic Adapter.reference.base c) [] g docs := by
  obtain ⟨g, hg⟩ := Option.isSome_iff_exists.mp h
  exact ⟨g, _, runs_of_lowered hg⟩

theorem runs_compileElaborated (h : Runs (compileElaborated base c) docs out docs') :
    ∃ g docs₁ animated, Runs (lowerStatic base c) docs g docs₁
      ∧ Runs (compileScopes base c.scopes g) docs₁ animated docs'
      ∧ out = { animated with marks := restoreOrder (g.marks.map (·.name)) animated.marks } := by
  unfold compileElaborated at h
  split at h
  · exact nomatch (Prod.mk.inj h).1
  · obtain ⟨g, docs₁, hg, h⟩ := runs_bind.mp h
    obtain ⟨animated, docs₂, hanimated, h⟩ := runs_bind.mp h
    obtain ⟨rfl, rfl⟩ := runs_pure.mp h
    exact ⟨g, docs₁, animated, hg, hanimated, rfl⟩

theorem runs_of_compileDocument (hparse : Chart.parse doc = .ok c) (hout : compileDocument base doc = .ok out) :
    ∃ docs, Runs (compileElaborated base c.elaborate) [] out docs := by
  rw [compileDocument, hparse] at hout
  exact ⟨_, Prod.ext hout rfl⟩

theorem compileDocument_of_runs {animated : Graph} (hparse : Chart.parse doc = .ok c)
    (hfields : ∀ s ∈ c.elaborate.scopes, s.field ≠ "") (hg : Runs (lowerStatic base c.elaborate) [] g docs)
    (hanimated : Runs (compileScopes base c.elaborate.scopes g) docs animated docs') :
    ∃ out, compileDocument base doc = .ok out := by
  have hnone : c.elaborate.scopes.find? (·.field.isEmpty) = none :=
    find?_eq_none.mpr fun s hs hempty => hfields s hs (String.isEmpty_iff.mp hempty)
  let out : Graph := { animated with marks := restoreOrder (g.marks.map (·.name)) animated.marks }
  have hcompile : Runs (compileElaborated base c.elaborate) [] out docs' := by
    rw [compileElaborated, hnone]
    exact runs_bind.mpr ⟨g, docs, hg, runs_bind.mpr ⟨animated, docs', hanimated, rfl⟩⟩
  refine ⟨out, ?_⟩
  rw [compileDocument, hparse]
  exact congrArg Prod.fst hcompile

end Animation
end AnimatedChart

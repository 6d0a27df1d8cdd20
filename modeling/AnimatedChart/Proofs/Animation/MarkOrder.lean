import AnimatedChart.Proofs.Animation.Following

/-!
# The order of marks

Merging moves an edited mark behind the others. In the end each mark is put back to where its name stood, so the marks of
a compiled graph are visited like those of the base graph (`walk_compileDocument`): none is lost, duplicated or moved.
-/

open List

namespace AnimatedChart

theorem Graph.visits_walk (g : Graph) : g.walk.map Mark.visit = g.marks.flatMap Mark.outline := by
  rw [walk, Mark.walkAll_eq, map_flatMap]
  rfl

namespace Animation

open Json Spec

variable {g g' : Graph} {ms : List Mark}

theorem outlines_arrange {named : List Mark} (hnamed : ∀ m ∈ named, m.name ≠ "") (hdistinct : (named.map (·.name)).Nodup)
    (hms : ∀ m ∈ ms, ∃ m' ∈ named, m'.outline = m.outline) :
    (arrange named (ms.map (·.name)) []).map Mark.outline = ms.map Mark.outline := by
  induction ms with
  | nil => rfl
  | cons m ms ih =>
    obtain ⟨⟨m', hm', houtline⟩, hms⟩ := forall_mem_cons.mp hms
    have hname := Mark.name_of_outline houtline
    have hfind := (find?_reverse_eq_some hdistinct).mpr ⟨hm', hname⟩
    rw [map_cons, arrange_cons (hname ▸ hnamed m' hm'), hfind]
    exact congrArg₂ List.cons houtline (ih hms)

theorem outlines_restoreOrder (hg' : g'.Apart) (h : g.Retains g') :
    (restoreOrder (g.marks.map (·.name)) g'.marks).map Mark.outline = g.marks.map Mark.outline := by
  have hnew : g'.marks.filter (fun m => !(g.marks.map (·.name)).contains m.name) = [] := by
    refine filter_eq_nil_iff.mpr fun m' hm' => ?_
    obtain ⟨m, hm, houtline⟩ := h.back m' hm'
    simpa using ⟨m, hm, Mark.name_of_outline houtline⟩
  rw [restoreOrder_eq hg', hnew, append_nil]
  exact outlines_arrange hg'.named hg'.distinct h.forth

/-- The marks of a compiled document are visited like those of the graph that the base compiler makes of its static part:
in the same order, with the same names, types and parents. -/
theorem walk_compileDocument {doc : String} {out : Graph} (hout : compileDocument Adapter.reference.base doc = .ok out) :
    ∃ c g₀, Chart.parse doc = .ok c ∧ Adapter.reference.base.compile 0 c.elaborate.static.render = .ok (some g₀)
      ∧ out.walk.map Mark.visit = g₀.walk.map Mark.visit := by
  obtain ⟨c, g, docs, animated, hparse, hg, -, hcovers, rfl⟩ := covers_compileDocument hout
  obtain ⟨-, g₀, hg₀, hnormalize⟩ := runs_lowerStatic.mp hg
  obtain ⟨hrestorable, -⟩ := Lowering.drawn_compile hg₀
  obtain ⟨horderly, hretains⟩ := hcovers.steps.retains (orderly_lowerStatic hg)
  refine ⟨c, g₀, hparse, congrArg (Except.map some) hg₀, ?_⟩
  have houtlines := (outlines_restoreOrder horderly.apart hretains).trans
    (Graph.outlines_of_bare (marks_normalize hrestorable hnormalize))
  rw [Graph.visits_walk, Graph.visits_walk, flatMap_def, flatMap_def, houtlines]

/-- A line for every color, with scales that two selections move and that are fitted to keyframes. -/
def movedLines : Fragment :=
  .record [("data", .record [("url", .text "a.csv")]),
    ("params", .list [
      .record [("name", .text "frame"), ("select", .record [("type", .text "point"), ("on", .text "timer")]),
        ("bind", .text "scales")],
      .record [("name", .text "past"), ("select", .record [("type", .text "point"), ("on", .text "timer"),
        ("predicate", .record [("field", .text "t"), ("lt", .text "anim_value")])]), ("bind", .text "scales")]]),
    ("transform", .list [.record [("filter", .record [("param", .text "frame")])]]), ("mark", .text "line"),
    ("encoding", .record [("x", .record [("field", .text "t"), ("type", .text "quantitative")]),
      ("y", .record [("field", .text "b"), ("type", .text "quantitative")]), ("color", .record [("field", .text "c")]),
      ("time", .record [("field", .text "t"), ("rescale", .bool true), ("key", .record [("field", .text "id")])])])]

theorem exists_movedLines :
    ∃ c out, unitOf? movedLines = some c ∧ compileDocument Adapter.reference.base movedLines.pretty = .ok out := by
  have hlowers : ∃ c ∈ unitOf? movedLines, (lowered? c.elaborate).isSome = true
      ∧ ∀ s ∈ c.elaborate.scopes, s.field ≠ "" ∧ ∀ u ∈ s.units, u.unit.enter = none ∧ u.unit.exit = none := by
    decide +kernel
  obtain ⟨c, hc, hlowered, hscopes⟩ := hlowers
  obtain ⟨out, hout⟩ := exists_compileDocument_unit hc hlowered hscopes
  exact ⟨c, out, hc, hout⟩

theorem walk_movedLines :
    ∃ out, compileDocument Adapter.reference.base movedLines.pretty = .ok out
      ∧ out.walk.map Mark.visit = [("pathgroup", "group", none), ("marks", "line", some "pathgroup")] := by
  have hbase : ((unitOf? movedLines).bind fun c => base? c.elaborate).map (·.walk.map Mark.visit)
      = some [("pathgroup", "group", none), ("marks", "line", some "pathgroup")] := by
    decide +kernel
  obtain ⟨c, out, hc, hout⟩ := exists_movedLines
  rw [hc, Option.bind_some] at hbase
  obtain ⟨g₀, hg₀, hwalk⟩ := Option.map_eq_some_iff.mp hbase
  refine ⟨out, hout, ?_⟩
  obtain ⟨c', g₁, hc', hg₁, hsame⟩ := walk_compileDocument hout
  obtain rfl := Except.ok.inj ((parse_of_unitOf hc).symm.trans hc')
  have hcompile : Adapter.reference.base.compile 0 c.elaborate.static.render = .ok (some g₀) :=
    congrArg (Except.map some) (compile_of_base hg₀)
  obtain rfl := Option.some.inj (Except.ok.inj (hcompile.symm.trans hg₁))
  exact hsame.trans hwalk

end Animation
end AnimatedChart

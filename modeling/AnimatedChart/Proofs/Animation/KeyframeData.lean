import AnimatedChart.Proofs.Animation.Following

/-!
# The datasets that animated units draw

In a compiled graph every unit that filters on a selection draws datasets derived of its own source, with its own filter
and the layout of the source (`keyframeData_compileDocument`).
-/

open List

namespace AnimatedChart.Animation

open Json Spec

variable {g out : Graph} {s : Scope} {u : ScopedUnit}

/-- A unit draws the keyframes of a dataset of the base graph, from datasets whose names start with a stem. -/
structure KeyframeData (g out : Graph) (s : Scope) (u : ScopedUnit) (source stem : String) : Prop where
  target : out.reads u.path = some (stem ++ if s.time.isKeyed then "_interpolate" else "_curr")
  /-- The rows of the current keyframe. -/
  curr : out.dataset? (stem ++ "_curr") = some {
    name := stem ++ "_curr"
    source := .string source
    transform := filterBy (keyframeFilter s (unitComparisons s u) s.current) :: layoutOf g source }
  /-- The rows of the next keyframe. -/
  next : out.dataset? (stem ++ "_next") = some {
    name := stem ++ "_next"
    source := .string source
    transform := filterBy (keyframeFilter s (unitComparisons s u) s.next) :: layoutOf g source }
  /-- The current rows with the next row of the same key attached. -/
  eq : ∀ key ∈ s.time.keyField?, out.dataset? (stem ++ "_eq") = some {
    name := stem ++ "_eq"
    source := .string (stem ++ "_curr")
    transform := [lookup (stem ++ "_next") key "next"] }
  /-- The current rows that have a match. -/
  interpolated : ∀ key ∈ s.time.keyField?, out.dataset? (stem ++ "_interpolate") = some {
    name := stem ++ "_interpolate"
    source := .string (stem ++ "_eq")
    transform := [filterBy "isValid(datum.next)"] }

theorem Follows.keyframeData {k : Nat} (h : Follows g out s u k) : ∃ stem, KeyframeData g out s u (sourceName k) stem := by
  obtain ⟨root, -, hhas, hread⟩ := h
  generalize root ++ s.id.suffix = stem at hhas hread
  have hfound {d : Dataset} {n : String} (hname : d.name = n)
      (hd : d ∈ chain g s k stem (unitComparisons s u)) : out.dataset? n = some d := hname ▸ hhas d hd
  have hkeyed {key : String} (hkey : key ∈ s.time.keyField?) :
      (bindingFor s (sourceName k) stem (unitComparisons s u)).key = some key := hkey
  refine ⟨stem, ?_, hfound rfl ?_, hfound rfl ?_, fun key hkey => hfound rfl ?_, fun key hkey => hfound rfl ?_⟩
  · rw [hread]
    show some (if s.time.isKeyed then stem ++ "_interpolate" else stem ++ "_curr") = _
    split <;> rfl
  · exact mem_append_left _ mem_cons_self
  · exact mem_append_left _ (mem_cons_of_mem _ mem_cons_self)
  · unfold chain derived
    rw [hkeyed hkey]
    exact mem_append_right _ (mem_append_left _ mem_cons_self)
  · unfold chain derived
    rw [hkeyed hkey]
    exact mem_append_right _ (mem_append_left _
      (mem_cons_of_mem _ (mem_cons_of_mem _ mem_cons_self)))

theorem reads_restoreOrder (h : g.Distinct) (order : List String) (path : String) :
    ({ g with marks := restoreOrder order g.marks } : Graph).reads path = g.reads path := by
  refine h.functional.reads_congr (fun e => ?_) path
  simp only [Graph.draws, Mark.drawingAll, mem_flatMap, mem_restoreOrder h.apart order]

/-- In a compiled document every unit that filters on a selection draws the keyframes of the dataset that it draws in the
base graph. -/
theorem keyframeData_compileDocument {doc : String} {c : Chart} (hparse : Chart.parse doc = .ok c)
    (hout : compileDocument Adapter.reference.base doc = .ok out) :
    ∃ g docs, Runs (lowerStatic Adapter.reference.base c.elaborate) [] g docs
      ∧ ∀ s ∈ c.elaborate.scopes, ∀ u ∈ s.units, s.filtersOf u ≠ [] →
        ∃ source stem, g.reads u.path = some source ∧ KeyframeData g out s u source stem := by
  obtain ⟨c', g, docs, animated, hc', hg, hpending, hcovers, rfl⟩ := covers_compileDocument hout
  obtain rfl := Except.ok.inj (hparse.symm.trans hc')
  refine ⟨g, docs, hg, fun s hs u hu hfilters => ?_⟩
  obtain ⟨k, hk⟩ := hpending.reads s hs u hu
  obtain ⟨root, hroot, hhas, hread⟩ := hcovers.follows s hs u hu hfilters k hk
  have hfollows : Follows g { animated with marks := restoreOrder (g.marks.map (·.name)) animated.marks } s u k :=
    ⟨root, hroot, hhas, (reads_restoreOrder hcovers.frame.distinct _ _).trans hread⟩
  obtain ⟨stem, hdata⟩ := hfollows.keyframeData
  exact ⟨sourceName k, stem, hk, hdata⟩

def keyedBars : Fragment :=
  .record [("data", .record [("url", .text "a.csv")]), ("mark", .text "bar"),
    ("encoding", .record [("x", .record [("field", .text "a")]),
      ("y", .record [("field", .text "b"), ("type", .text "quantitative")]), ("color", .record [("field", .text "c")]),
      ("time", .record [("field", .text "t"), ("key", .record [("field", .text "id")])])])]

theorem keyframeData_keyedBars :
    ∃ c out, Chart.parse keyedBars.pretty = .ok c
      ∧ compileDocument Adapter.reference.base keyedBars.pretty = .ok out
      ∧ (∃ s ∈ c.elaborate.scopes, s.time.keyField? = some "id" ∧ ∃ u ∈ s.units, s.filtersOf u ≠ [])
      ∧ ∃ g docs, Runs (lowerStatic Adapter.reference.base c.elaborate) [] g docs
        ∧ ∀ s ∈ c.elaborate.scopes, ∀ u ∈ s.units, s.filtersOf u ≠ [] →
          ∃ source stem, g.reads u.path = some source ∧ KeyframeData g out s u source stem := by
  have hlowers : ∃ c ∈ unitOf? keyedBars,
      (∃ s ∈ c.elaborate.scopes, s.time.keyField? = some "id" ∧ ∃ u ∈ s.units, s.filtersOf u ≠ [])
      ∧ (∀ s ∈ c.elaborate.scopes, s.field ≠ "" ∧ ∀ u ∈ s.units, u.unit.enter = none ∧ u.unit.exit = none)
      ∧ (lowered? c.elaborate).isSome = true := by
    decide +kernel
  obtain ⟨c, hc, hkeyed, hscopes, hlowered⟩ := hlowers
  have hparse := parse_of_unitOf hc
  obtain ⟨out, hout⟩ := exists_compileDocument_unit hc hlowered hscopes
  exact ⟨c, out, hparse, hout, hkeyed, keyframeData_compileDocument hparse hout⟩

end AnimatedChart.Animation

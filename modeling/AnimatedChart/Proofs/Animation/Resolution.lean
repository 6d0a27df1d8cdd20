import AnimatedChart.Proofs.Animation.Following
import AnimatedChart.Proofs.Dependency.Mentions
import AnimatedChart.Proofs.Scope.Selection

/-!
# No reference is left dangling

Animating a chart refers to signals, datasets and scales by names that are put together from texts.
-/

open List

namespace AnimatedChart

open Json

namespace Spec

/-! ## Selections of scopes -/

theorem sound_selections {params : List Param} (h : ∀ p ∈ params, p.Sound) : ∀ a ∈ selections params, a.Sound := by
  intro a ha
  obtain ⟨p, hp, hselection⟩ := mem_filterMap.mp ha
  cases p with
  | animation a' =>
    cases hselection
    exact (h _ hp).1
  | plain raw => cases hselection

mutual

theorem View.sound_selections : ∀ v : View, v.Sound → ∀ a ∈ v.selections, a.Sound
  | .unit _, h => Spec.sound_selections h.1.params
  | .layer _ children, h => forall_mem_append.mpr ⟨Spec.sound_selections h.1.params, sound_selectionsOf children h.2⟩

theorem View.sound_selectionsOf : ∀ vs : List View, View.SoundAll vs → ∀ a ∈ selectionsOf vs, a.Sound
  | [], _ => nofun
  | v :: vs, h => forall_mem_append.mpr ⟨sound_selections v h.1, sound_selectionsOf vs h.2⟩

end

theorem View.sound_getElem? {v : View} : ∀ {vs : List View} {i : Nat}, View.SoundAll vs → vs[i]? = some v → v.Sound
  | _ :: _, 0, h, hv => Option.some.inj hv ▸ h.1
  | _ :: _, _ + 1, h, hv => sound_getElem? h.2 hv

theorem Chart.sound_selections {c : Chart} (h : c.Sound) {s : Scope} (hs : s ∈ c.scopes) :
    ∀ a ∈ s.selections, a.Sound := by
  obtain ⟨t, ht, -, hcollect⟩ := mem_scopes hs
  rw [show s.selections = t.view.selections from (congrArg Prod.fst hcollect).trans (View.selections_collect ..)]
  cases c with
  | view v =>
    refine View.sound_selections _ (Site.forall_sites (P := fun s => s.view.Sound) ?_ ⟨.root, "", [], {}, v⟩ h t ht)
    intro s l vs i w hview hw h
    rw [hview] at h
    exact View.sound_getElem? h.2 hw
  | vconcat us others =>
    obtain ⟨i, hi, rfl⟩ := mem_mapIdx.mp ht
    cases us with
    | none => cases hi
    | some us => exact Spec.sound_selections (h.1 us rfl _ (getElem_mem hi)).1.params

theorem Chart.legible_scopes {c : Chart} (h : c.Sound) {s : Scope} (hs : s ∈ c.scopes) : s.Legible where
  id := isSpelled_scopes hs
  curve := by
    intro ps hps
    obtain ⟨a, ha, heasing⟩ := Option.bind_eq_some_iff.mp hps
    have hsound := sound_selections h hs a (mem_of_head? ha)
    exact hsound.select.easing _ heasing

end Spec

namespace Animation

open Spec Dependency

/-- Compiling a document leaves no name open but those that the graph of its static part leaves open, and the signals
that the clocks of its scopes are gated by. -/
theorem unresolved_compileDocument {doc : String} {c : Chart} {out : Graph} (hparse : Chart.parse doc = .ok c)
    (hscopes : ∀ s ∈ c.elaborate.scopes, s.Writable ∧ ∀ u ∈ s.units, u.unit.enter = none ∧ u.unit.exit = none)
    (hout : compileDocument Adapter.reference.base doc = .ok out) :
    ∃ g docs, Runs (lowerStatic Adapter.reference.base c.elaborate) [] g docs
      ∧ ∀ m ∈ (Dependencies.ofGraph out).unresolved,
        (∃ m' ∈ (Dependencies.ofGraph g).unresolved, m'.target = m.target)
          ∨ ∃ s ∈ c.elaborate.scopes, ∃ f ∈ clockFilters s, m.target = ⟨.signal, f⟩ := by
  have hrun : Runs (compileElaborated Adapter.reference.base c.elaborate) [] out
      ((compileElaborated Adapter.reference.base c.elaborate).run.run []).2 := by
    rw [compileDocument, hparse] at hout
    exact Prod.ext hout rfl
  obtain ⟨g, docs, animated, hg, hanimated, rfl⟩ := runs_compileElaborated hrun
  have hsound := Chart.sound_elaborate (Chart.sound_parse hparse)
  let allowed (r : Ref) : Prop := (∃ m' ∈ (Dependencies.ofGraph g).unresolved, m'.target = r)
    ∨ ∃ s ∈ c.elaborate.scopes, ∃ f ∈ clockFilters s, r = ⟨.signal, f⟩
  have hbase : Settled allowed g := settled_of_unresolved fun m hm => .inl ⟨m, hm, rfl⟩
  have hsettles : ∀ s ∈ c.elaborate.scopes, Scope.Settles allowed s := fun s hs => {
    writable := (hscopes s hs).1
    legible := Chart.legible_scopes hsound hs
    filters := fun f hf => .inr ⟨s, hs, f, hf, rfl⟩
    units := (hscopes s hs).2 }
  obtain ⟨hsettled, hdrawn⟩ := settled_compileScopes hbase (drawn_lowerStatic hg) hsettles hanimated
  exact ⟨g, docs, hg, (settled_restoreOrder hsettled hdrawn.toApart _).unresolved⟩

def pacedPoints : Fragment :=
  .record [("data", .record [("values", .list [])]), ("mark", .text "point"),
    ("encoding", .record [("x", .record [("field", .text "a")]), ("time", .record [("field", .text "b")])]),
    ("params", .list [.record [("name", .text "shown"), ("select", .record [("type", .text "point"),
      ("on", .record [("type", .text "timer"), ("filter", .text "ready")])])]])]

theorem unresolved_pacedPoints :
    ∃ c out, Chart.parse pacedPoints.pretty = .ok c
      ∧ (∃ s ∈ c.elaborate.scopes, "ready" ∈ clockFilters s ∧ s.units ≠ [])
      ∧ (∀ s ∈ c.elaborate.scopes, s.Writable ∧ ∀ u ∈ s.units, u.unit.enter = none ∧ u.unit.exit = none)
      ∧ compileDocument Adapter.reference.base pacedPoints.pretty = .ok out
      ∧ ∃ g docs, Runs (lowerStatic Adapter.reference.base c.elaborate) [] g docs
        ∧ ∀ m ∈ (Dependencies.ofGraph out).unresolved,
          (∃ m' ∈ (Dependencies.ofGraph g).unresolved, m'.target = m.target)
            ∨ ∃ s ∈ c.elaborate.scopes, ∃ f ∈ clockFilters s, m.target = ⟨.signal, f⟩ := by
  have hcompiles : ∃ c ∈ unitOf? pacedPoints, ((∃ s ∈ c.elaborate.scopes, "ready" ∈ clockFilters s ∧ s.units ≠ [])
        ∧ ∀ s ∈ c.elaborate.scopes, s.Writable ∧ ∀ u ∈ s.units, u.unit.enter = none ∧ u.unit.exit = none)
      ∧ (lowered? c.elaborate).isSome = true := by
    decide +kernel
  obtain ⟨c, hc, ⟨hpaced, hscopes⟩, hlowered⟩ := hcompiles
  have hparse := parse_of_unitOf hc
  have hfields : ∀ s ∈ c.elaborate.scopes, s.field ≠ "" := by
    intro s hs hempty
    have hfield := (hscopes s hs).1.field
    rw [hempty] at hfield
    cases hfield
  obtain ⟨out, hout⟩ := exists_compileDocument_unit hc hlowered fun s hs => ⟨hfields s hs, (hscopes s hs).2⟩
  exact ⟨c, out, hparse, hpaced, hscopes, hout, unresolved_compileDocument hparse hscopes hout⟩

end Animation
end AnimatedChart

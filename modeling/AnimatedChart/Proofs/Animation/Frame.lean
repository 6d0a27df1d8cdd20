import AnimatedChart.Proofs.Animation.Scopes
import AnimatedChart.Proofs.Graph.Draws
import AnimatedChart.Proofs.Scope.Names

/-!
# What stages leave alone

A stage of animating a scope changes datasets of certain names and what certain units draw; the rest of the graph's
datasets and readings stay (`Frame`).
-/

namespace AnimatedChart

variable {part : Graph} {path : String} {st : Stage} (s : Scope)

namespace Mark

theorem drawing_withBlock (name : String) (members : Dict Json.Value) (m : Mark) :
    (m.withBlock name members).drawing = m.drawing := by
  rw [drawing_eq, drawing_eq]
  rfl

theorem drawing_clip (v : Json.Value) (m : Mark) : ({ m with clip := v } : Mark).drawing = m.drawing := by
  rw [drawing_eq, drawing_eq]
  rfl

theorem drawing_mapPrimary {f : Mark → Mark} (hf : ∀ m, (f m).drawing = m.drawing) (m : Mark) :
    (m.mapPrimary f).drawing = m.drawing := by
  obtain ⟨before, after, hm, hm'⟩ := (replaces_mapPrimary f m).drawing
  rw [hm, hm', hf]

end Mark

namespace Animation

open Spec

/-! ## Frames -/

/-- Only datasets of the given names and readings of units at the given paths change. -/
structure Frame (names paths : String → Prop) (g g' : Graph) : Prop where
  distinct : g'.Distinct
  data : ∀ n, ¬names n → g'.dataset? n = g.dataset? n
  reads : ∀ p, ¬paths p → g'.reads p = g.reads p

/-- No dataset and no reading changes. -/
abbrev Untouched : Graph → Graph → Prop := Frame (fun _ => False) fun _ => False

namespace Frame

variable {names names' paths paths' : String → Prop} {g g₁ g₂ : Graph}

theorem refl (h : g.Distinct) : Frame names paths g g := ⟨h, fun _ _ => rfl, fun _ _ => rfl⟩

theorem trans (h₁ : Frame names paths g g₁) (h₂ : Frame names paths g₁ g₂) : Frame names paths g g₂ where
  distinct := h₂.distinct
  data := fun n hn => (h₂.data n hn).trans (h₁.data n hn)
  reads := fun p hp => (h₂.reads p hp).trans (h₁.reads p hp)

theorem mono (h : Frame names paths g g₁) (hnames : ∀ n, names n → names' n) (hpaths : ∀ p, paths p → paths' p) :
    Frame names' paths' g g₁ where
  distinct := h.distinct
  data := fun n hn => h.data n fun hn' => hn (hnames n hn')
  reads := fun p hp => h.reads p fun hp' => hp (hpaths p hp')

theorem of_untouched (h : Untouched g g₁) : Frame names paths g g₁ := h.mono (by simp) (by simp)

theorem merge_entries (hg : g.Distinct) (hmarks : part.marks = []) :
    Frame (· ∈ part.data.map (·.name)) (fun _ => False) g (g.merge part) where
  distinct := by
    refine hg.perm (.of_eq ?_)
    rw [Graph.draws, Graph.draws, Graph.merge_empty_marks g part hmarks]
  data := fun n hn => Named.find?_merge_of_not_mem hn
  reads := fun p _ => by
    rw [Graph.reads, unitMark?_merge_entries g hmarks]
    rfl

theorem merge_unmarked (hg : g.Distinct) (hmarks : part.marks = []) (hdata : part.data = []) :
    Untouched g (g.merge part) :=
  (merge_entries hg hmarks).mono (by simp [hdata]) fun _ => id

theorem dataset?_merge_edit (g : Graph) (path : String) (f : Mark → Mark) (n : String) :
    (g.merge (g.editUnitMark path f)).dataset? n = g.dataset? n := by
  refine Named.find?_merge_of_not_mem ?_
  rcases g.editUnitMark_cases path f with ⟨-, hpart⟩ | ⟨_, _, _, -, -, -, hpart⟩ <;> simp [hpart]

theorem edit (hg : g.Distinct) {f : Mark → Mark} (hf : ∀ m, (f m).drawing = m.drawing) :
    Untouched g (g.merge (g.editUnitMark path f)) where
  distinct := (hg.edit fun m _ => hf m).1
  data := fun n _ => dataset?_merge_edit g path f n
  reads := fun p _ => (hg.edit fun m _ => hf m).2 p

theorem withDataset (hg : g.Distinct) {m : Mark} (hm : g.unitMark? path = some m) (n : String) :
    Frame (fun _ => False) (· = path) g (g.merge (g.editUnitMark path (Mark.withDataset n))) where
  distinct := (hg.withDataset hm n).1
  data := fun k _ => dataset?_merge_edit g path _ k
  reads := fun p hp => (hg.withDataset hm n).2.2 p hp

theorem foldl {α β : Type} {f : Graph × β → α → Graph × β} (hf : ∀ acc a, acc.1.Distinct → Untouched acc.1 (f acc a).1)
    (as : List α) (acc : Graph × β) (h : acc.1.Distinct) : Untouched acc.1 (as.foldl f acc).1 := by
  induction as generalizing acc with
  | nil => exact refl h
  | cons a as ih => exact (hf acc a h).trans (ih _ (hf acc a h).distinct)

/-! ## The clock -/

theorem bindUnit (acc : Graph × List Scale) (u : ScopedUnit) (h : acc.1.Distinct) :
    Untouched acc.1 (bindUnit s acc u).1 := by
  unfold Animation.bindUnit
  split
  · exact refl h
  · exact edit h fun m => Mark.drawing_clip _ m

theorem bridgeOne (acc : Graph × Graph) (a : Selection) (h : acc.1.Distinct) :
    Untouched acc.1 (bridgeOne s acc a).1 := by
  unfold Animation.bridgeOne
  dsimp only
  split
  · exact refl h
  · exact refl h
  · exact foldl (bindUnit s) s.units (acc.1, []) h

theorem part_bridgeOne (acc : Graph × Graph) (a : Selection) :
    (Animation.bridgeOne s acc a).2.marks = acc.2.marks ∧ (Animation.bridgeOne s acc a).2.data = acc.2.data := by
  unfold Animation.bridgeOne
  dsimp only
  split <;> exact ⟨rfl, rfl⟩

theorem part_bridge (as : List Selection) (acc : Graph × Graph) :
    (as.foldl (Animation.bridgeOne s) acc).2.marks = acc.2.marks
      ∧ (as.foldl (Animation.bridgeOne s) acc).2.data = acc.2.data := by
  induction as generalizing acc with
  | nil => exact ⟨rfl, rfl⟩
  | cons a as ih =>
    obtain ⟨hmarks, hdata⟩ := part_bridgeOne s acc a
    exact ⟨(ih _).1.trans hmarks, (ih _).2.trans hdata⟩

theorem bridge (h : g.Distinct) : Untouched g (bridge s g) := by
  have hfold := foldl (bridgeOne s) s.selections (g, {}) h
  obtain ⟨hmarks, hdata⟩ := part_bridge s s.selections (g, {})
  exact hfold.trans (merge_unmarked hfold.distinct hmarks hdata)

theorem withClock (st : Stage) (h : st.graph.Distinct) :
    Frame (· ∈ st.scope.datasetNames) (fun _ => False) st.graph st.withClock.graph := by
  have hclock : Untouched st.graph (st.graph.merge (clock st.scope)) := merge_unmarked h rfl rfl
  have htime := (merge_entries hclock.distinct (marks_timeScale st.scope st.data)).mono
    (fun _ hn => st.scope.datasets_timeScale st.data hn) fun _ => id
  have hpause := (merge_entries htime.distinct (marks_pause st.scope)).mono
    (fun _ hn => st.scope.datasets_pause hn) fun _ => id
  exact (((of_untouched hclock).trans htime).trans hpause).trans (of_untouched (bridge st.scope hpause.distinct))

theorem rescale {st : Stage} (h : st.graph.Distinct) (u : ScopedUnit) (b : Binding) :
    Untouched st.graph (st.merge (rescale st u b)).graph := by
  refine merge_unmarked h marks_rescale ?_
  unfold Animation.rescale
  split <;> rfl

theorem interpolate (h : st.graph.Distinct) (u : ScopedUnit) (b : Binding) :
    Untouched st.graph (st.merge (interpolate st u b)).graph := by
  unfold Animation.interpolate
  split
  · exact merge_unmarked h rfl rfl
  · exact edit h fun m => Mark.drawing_mapPrimary (fun m => Mark.drawing_withBlock _ _ m) m

theorem enterExit {base : BaseCompiler} (h : st.graph.Distinct) {u : ScopedUnit} {docs docs' : List String}
    (hrun : Runs (enterExit base st u) docs part docs') : Untouched st.graph (st.merge part).graph := by
  have hblocks (blocks : List (String × Dict Json.Value)) (m : Mark) :
      (blocks.foldl (fun p b => p.withBlock b.1 b.2) m).drawing = m.drawing := by
    induction blocks generalizing m with
    | nil => rfl
    | cons b blocks ih => exact (ih _).trans (Mark.drawing_withBlock _ _ m)
  obtain ⟨enter, docs₁, -, hrun⟩ := runs_bind.mp hrun
  obtain ⟨exit, docs₂, -, hrun⟩ := runs_bind.mp hrun
  split at hrun
  · obtain ⟨rfl, -⟩ := runs_pure.mp hrun
    exact merge_unmarked h rfl rfl
  · obtain ⟨rfl, -⟩ := runs_pure.mp hrun
    exact edit h fun m => Mark.drawing_mapPrimary (fun m => hblocks _ m) m

end Frame

end Animation
end AnimatedChart

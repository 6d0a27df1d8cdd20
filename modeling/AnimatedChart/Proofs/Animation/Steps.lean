import AnimatedChart.Proofs.Animation.ChainNames
import AnimatedChart.Proofs.Animation.Scopes
import AnimatedChart.Proofs.Graph.Outline
import Mathlib.Logic.Relation

/-!
# Animation step by step

All that animation does to a graph is to merge parts of four kinds (`Step`): entries of a scope, the mark of one of its
units clipped, the mark of a unit that draws keyframes redrawn, and the scales of such a unit fitted to its keyframes.
-/

open List

namespace AnimatedChart.Animation

open Json Spec

variable {g g' part : Graph} {s : Scope} {ss ss' : List Scope} {st : Stage} {u : ScopedUnit} {b : Binding}
  {P Q : Scope → ScopedUnit → Binding → Prop} {f : Mark → Mark}
variable {base : BaseCompiler} {block : String} {blocks : List (String × Dict Value)} {docs docs' : List String}
  {o : Option Encoding}

/-! ## Parts -/

/-- A scale of the graph, moved by a selection of the scope. -/
structure Moves (s : Scope) (g : Graph) (x : Scale) : Prop where
  selection : ∃ a ∈ s.selections, a.bind = some .scales
  scale : ∃ c v, c ∈ g.scales ∧ c.name ≠ "" ∧ x = { c with domainRaw := v }

/-- Datasets, signals and scales of a scope: the datasets are its own, and so are the scales, unless it moves them. -/
structure Entries (s : Scope) (g part : Graph) : Prop where
  marks : part.marks = []
  others : part.others = []
  data : ∀ d ∈ part.data, OwnData s d.name
  scales : ∀ x ∈ part.scales, x.name = s.timeScale ∨ Moves s g x

/-- A change of a mark, or of one inside it, that looks the same and can be followed as before. -/
def Redraws (f : Mark → Mark) : Prop :=
  ∀ m, ∃ x x', Mark.Replaces x x' m (f m) ∧ Mark.Reworks x x' ∧ (Traceable x → Traceable x')

theorem Redraws.retouches (h : Redraws f) (m : Mark) : Mark.Retouches m (f m) := by
  obtain ⟨x, x', hreplaces, hx, -⟩ := h m
  exact ⟨x, x', hreplaces, hx⟩

theorem Redraws.all (h : Redraws f) {m : Mark} (hm : Mark.All Traceable m) : Mark.All Traceable (f m) := by
  obtain ⟨x, x', hreplaces, hx, htraceable⟩ := h m
  refine hreplaces.all flat_traceable (fun hall => ?_) hm
  obtain ⟨hown, hmarks⟩ := Mark.all_iff.mp hall
  exact Mark.all_iff.mpr ⟨htraceable hown, hx.marks ▸ hmarks⟩

theorem redraws_clip : Redraws fun m => { m with clip := .bool true } := fun m =>
  ⟨m, _, .here, ⟨rfl, rfl, rfl⟩, clips_traceable m _⟩

theorem redraws_withDataset {n : String} (hn : Regular n) : Redraws (Mark.withDataset n) := fun m =>
  ⟨m, _, .here, ⟨rfl, rfl, rfl⟩, fun h => ⟨(Mark.dataset_withDataset n m).symm ▸ hn, h.refs⟩⟩

theorem redraws_mapPrimary (hf : ∀ m, Mark.Reworks m (f m) ∧ (Traceable m → Traceable (f m))) :
    Redraws (Mark.mapPrimary f) := fun m =>
  ⟨m.primary, _, Mark.replaces_mapPrimary f m, hf m.primary⟩

/-- What animation does to a graph at a time. -/
inductive Step (P : Scope → ScopedUnit → Binding → Prop) (ss : List Scope) (g : Graph) : Graph → Prop
  | entries {s : Scope} {part : Graph} (hs : s ∈ ss) (hpart : Entries s g part) : Step P ss g (g.merge part)
  | clip {s : Scope} {u : ScopedUnit} (hs : s ∈ ss) (hu : u ∈ s.units) :
    Step P ss g (g.merge (g.editUnitMark u.path fun m => { m with clip := .bool true }))
  | redraw {s : Scope} {u : ScopedUnit} {b : Binding} {f : Mark → Mark} (hs : s ∈ ss) (hu : P s u b) (hf : Redraws f) :
    Step P ss g (g.merge (g.editUnitMark u.path f))
  | rescale {st : Stage} {u : ScopedUnit} {b : Binding} (hs : st.scope ∈ ss) (hg : st.graph = g)
    (hrescales : st.scope.time.rescales = true) (hu : P st.scope u b) : Step P ss g (g.merge (rescale st u b))

/-- Steps one after the other. -/
abbrev Steps (P : Scope → ScopedUnit → Binding → Prop) (ss : List Scope) : Graph → Graph → Prop :=
  Relation.ReflTransGen (Step P ss)

theorem Step.mono (h : Step P ss g g') (hP : ∀ s ∈ ss, ∀ u b, P s u b → Q s u b) (hss : ss ⊆ ss') : Step Q ss' g g' := by
  cases h with
  | entries hs hpart => exact .entries (hss hs) hpart
  | clip hs hu => exact .clip (hss hs) hu
  | redraw hs hu hf => exact .redraw (hss hs) (hP _ hs _ _ hu) hf
  | rescale hs hg hrescales hu => exact .rescale (hss hs) hg hrescales (hP _ hs _ _ hu)

theorem Steps.mono (h : Steps P ss g g') (hP : ∀ s ∈ ss, ∀ u b, P s u b → Q s u b) (hss : ss ⊆ ss') : Steps Q ss' g g' :=
  Relation.ReflTransGen.mono (fun _ _ (h : Step P ss _ _) => h.mono hP hss) _ _ h

theorem Steps.invariant {I : Graph → Prop} (h : Steps P ss g g') (hI : ∀ g g', I g → Step P ss g g' → I g') (hg : I g) :
    I g' := by
  induction h with
  | refl => exact hg
  | tail _ hstep ih => exact hI _ _ ih hstep

theorem Step.others (h : Step P ss g g') : g'.others = g.others := by
  have hedit (path : String) (f : Mark → Mark) : (g.merge (g.editUnitMark path f)).others = g.others := by
    rcases g.editUnitMark_cases path f with ⟨-, hpart⟩ | ⟨_, _, _, -, -, -, hpart⟩ <;> rw [hpart] <;> rfl
  cases h with
  | entries _ hpart =>
    rw [Graph.merge, hpart.others]
    rfl
  | clip => exact hedit _ _
  | redraw => exact hedit _ _
  | rescale =>
    unfold Animation.rescale
    split <;> rfl

theorem Step.retains (h : Step P ss g g') (hg : g.Orderly) : g'.Orderly ∧ g.Retains g' := by
  have hentries {part : Graph} (hpart : part.marks = []) : (g.merge part).Orderly ∧ g.Retains (g.merge part) := by
    have hmarks := Graph.merge_empty_marks g part hpart
    have hdraws : (g.merge part).draws = g.draws := by rw [Graph.draws, Graph.draws, hmarks]
    refine ⟨⟨⟨hdraws ▸ hg.named, hdraws ▸ hg.nodup⟩, hmarks ▸ hg.closed⟩, ?_, ?_⟩
    · exact fun m hm => ⟨m, hmarks ▸ hm, rfl⟩
    · exact fun m hm => ⟨m, hmarks ▸ hm, rfl⟩
  have hedit {path : String} {f : Mark → Mark} (hf : Redraws f) : (g.merge (g.editUnitMark path f)).Orderly
      ∧ g.Retains (g.merge (g.editUnitMark path f)) :=
    ⟨hg.retouch hf.retouches path, Graph.retains_edit hf.retouches hg.apart path⟩
  cases h with
  | entries _ hpart => exact hentries hpart.marks
  | clip => exact hedit redraws_clip
  | redraw _ _ hf => exact hedit hf
  | rescale => exact hentries marks_rescale

theorem Step.drawn (h : Step P ss g g') (hg : g.Drawn Traceable) : g'.Drawn Traceable := by
  have hedit {path : String} {f : Mark → Mark} (hf : Redraws f) : (g.merge (g.editUnitMark path f)).Drawn Traceable :=
    hg.editUnitMark flat_traceable fun m _ => ⟨Mark.name_of_outline (hf.retouches m).outline_eq, hf.all⟩
  cases h with
  | entries _ hpart => exact hg.merge_entries hpart.marks
  | clip => exact hedit redraws_clip
  | redraw _ _ hf => exact hedit hf
  | rescale => exact hg.merge_entries marks_rescale

theorem Steps.retains (h : Steps P ss g g') (hg : g.Orderly) : g'.Orderly ∧ g.Retains g' := by
  refine h.invariant (I := fun g' => g'.Orderly ∧ g.Retains g') (fun g₁ g₂ ⟨horderly, hretains⟩ hstep => ?_) ⟨hg, .refl g⟩
  obtain ⟨horderly', hretains'⟩ := hstep.retains horderly
  exact ⟨horderly', hretains.trans hretains'⟩

/-! ## The clock -/

theorem scales_merge_edit (g : Graph) (path : String) (f : Mark → Mark) :
    (g.merge (g.editUnitMark path f)).scales = g.scales := by
  rcases g.editUnitMark_cases path f with ⟨-, hpart⟩ | ⟨_, _, _, -, -, -, hpart⟩ <;> rw [hpart] <;> simp [Graph.merge]

/-- While scales are bound, marks are clipped and the collected scales are those of the graph. -/
structure Collects (s : Scope) (g : Graph) (acc : Graph × List Scale) : Prop where
  steps : ∀ P, Steps P [s] g acc.1
  scales : acc.1.scales = g.scales
  collected : ∀ c ∈ acc.2, c ∈ g.scales ∧ c.name ≠ ""

theorem Collects.bindUnit {acc : Graph × List Scale} (h : Collects s g acc) (hu : u ∈ s.units) :
    Collects s g (bindUnit s acc u) := by
  unfold Animation.bindUnit
  split
  · exact h
  · next m hm =>
    refine ⟨fun P => (h.steps P).tail (.clip (mem_singleton_self s) hu), ?_, ?_⟩
    · exact (scales_merge_edit _ _ _).trans h.scales
    · refine forall_mem_append.mpr ⟨h.collected, fun c hc => ?_⟩
      obtain ⟨n, hn, hc⟩ := mem_filterMap.mp hc
      refine ⟨h.scales ▸ mem_of_find?_eq_some hc, ?_⟩
      obtain ⟨e, -, he⟩ := mem_filterMap.mp (mem_eraseDups.mp (mem_filter.mp hn).1)
      rw [name_of_scale? hc]
      split at he
      · split at he
        · next hfield => exact Option.some.inj he ▸ hfield.2
        · cases he
      · cases he

/-- While selections are bridged, the part has scales that they move. -/
structure Gathers (s : Scope) (g : Graph) (acc : Graph × Graph) : Prop where
  steps : ∀ P, Steps P [s] g acc.1
  scales : acc.1.scales = g.scales
  entries : Entries s g acc.2

theorem Gathers.bridgeOne {acc : Graph × Graph} (h : Gathers s g acc) {a : Selection} (ha : a ∈ s.selections) :
    Gathers s g (bridgeOne s acc a) := by
  obtain ⟨g₁, part⟩ := acc
  unfold Animation.bridgeOne
  dsimp only
  split
  · exact ⟨h.steps, h.scales, { h.entries with }⟩
  · exact ⟨h.steps, h.scales, { h.entries with }⟩
  · next hbind =>
    have hcollects : ∀ us ⊆ s.units, ∀ acc, Collects s g acc → Collects s g (us.foldl (bindUnit s) acc) := by
      intro us hus
      induction us with
      | nil => exact fun _ h => h
      | cons u us ih =>
        obtain ⟨hu, hus⟩ := cons_subset.mp hus
        exact fun acc h => ih hus _ (h.bindUnit hu)
    have hunits := hcollects s.units (List.Subset.refl _) (g₁, []) ⟨h.steps, h.scales, by simp⟩
    refine ⟨hunits.steps, hunits.scales, { h.entries with scales := forall_mem_append.mpr ⟨h.entries.scales, ?_⟩ }⟩
    refine forall_mem_map.mpr fun c hc => .inr ⟨⟨a, ha, hbind⟩, c, _, ?_, (hunits.collected c hc).2, rfl⟩
    exact (hunits.collected c hc).1

theorem steps_bridge (P : Scope → ScopedUnit → Binding → Prop) (s : Scope) (g : Graph) : Steps P [s] g (bridge s g) := by
  have hgathers : ∀ as ⊆ s.selections, ∀ acc, Gathers s g acc → Gathers s g (as.foldl (bridgeOne s) acc) := by
    intro as has
    induction as with
    | nil => exact fun _ h => h
    | cons a as ih =>
      obtain ⟨ha, has⟩ := cons_subset.mp has
      exact fun acc h => ih has _ (h.bridgeOne ha)
  have hall := hgathers s.selections (List.Subset.refl _) (g, {}) ⟨fun _ => .refl, rfl, rfl, rfl, by simp, by simp⟩
  refine (hall.steps P).tail (.entries (mem_singleton_self s) { hall.entries with scales := fun x hx => ?_ })
  obtain h | ⟨hselection, c, v, hc, hne, hx⟩ := hall.entries.scales x hx
  · exact .inl h
  · exact .inr ⟨hselection, c, v, hall.scales.symm ▸ hc, hne, hx⟩

theorem entries_clock (s : Scope) (g : Graph) : Entries s g (clock s) := ⟨rfl, rfl, nofun, nofun⟩

theorem entries_timeScale (s : Scope) (g : Graph) (data : String) : Entries s g (timeScale s data) where
  marks := marks_timeScale s data
  others := by
    show (if s.isLinear then linearTime s data else bandTime s data).others = []
    split <;> rfl
  data := fun d hd => .word (s.datasets_timeScale data (mem_map_of_mem hd))
  scales := by
    show ∀ x ∈ (if s.isLinear then linearTime s data else bandTime s data).scales, _
    split <;> exact forall_mem_singleton.mpr (.inl rfl)

theorem entries_pause (s : Scope) (g : Graph) : Entries s g (pause s) where
  marks := marks_pause s
  others := by
    unfold pause
    split <;> rfl
  data := fun d hd => .word (s.datasets_pause (mem_map_of_mem hd))
  scales := by
    unfold pause
    split <;> exact (by simp)

theorem steps_withClock (P : Scope → ScopedUnit → Binding → Prop) (st : Stage) :
    Steps P [st.scope] st.graph st.withClock.graph := by
  have hs := mem_singleton_self st.scope
  refine .trans ?_ (steps_bridge P st.scope st.clocked)
  exact .tail (.tail (.single (.entries hs (entries_clock _ _))) (.entries hs (entries_timeScale _ _ _)))
    (.entries hs (entries_pause _ _))

/-! ## Units -/

theorem steps_rescale (hu : P st.scope u b) : Steps P [st.scope] st.graph (st.merge (rescale st u b)).graph := by
  by_cases hrescales : st.scope.time.rescales = true
  · exact .single (.rescale (mem_singleton_self _) rfl hrescales hu)
  · have hempty : rescale st u b = {} := by
      unfold rescale
      split
      · next heq _ => exact absurd heq hrescales
      · rfl
    rw [hempty, Stage.merge, Graph.merge_empty]

theorem steps_interpolate (hu : P st.scope u b) : Steps P [st.scope] st.graph (st.merge (interpolate st u b)).graph := by
  unfold interpolate
  split
  · rw [Stage.merge, Graph.merge_empty]
  · next key _ =>
    refine .single (.redraw (mem_singleton_self _) hu (redraws_mapPrimary fun m => ⟨⟨rfl, rfl, rfl⟩, fun hm => ?_⟩))
    exact traceable_tween hm key

theorem blockFor_cases (h : Runs (blockFor base st u block o) docs blocks docs') :
    o = none ∧ blocks = [] ∨ ∃ e d, o = some e ∧ blocks = [(block, d)] ∧ Runs (overrideBlock base st u e) docs d docs' := by
  cases o with
  | none =>
    obtain ⟨rfl, -⟩ := runs_pure.mp h
    exact .inl ⟨rfl, rfl⟩
  | some e =>
    obtain ⟨d, docs₁, hd, h⟩ := runs_bind.mp h
    obtain ⟨rfl, rfl⟩ := runs_pure.mp h
    exact .inr ⟨e, d, rfl, rfl, runs_inContext.mp hd⟩

theorem names_blockFor (h : Runs (blockFor base st u block o) docs blocks docs') : ∀ e ∈ blocks, e.1 = block := by
  rcases blockFor_cases h with ⟨-, rfl⟩ | ⟨e, d, -, rfl, -⟩
  · simp
  · exact forall_mem_singleton.mpr rfl

theorem reworks_blocks (blocks : List (String × Dict Value)) (hblocks : ∀ e ∈ blocks, e.1 ≠ "update") (m : Mark) :
    Mark.Reworks m (blocks.foldl (fun p b => p.withBlock b.1 b.2) m)
      ∧ (Traceable m → Traceable (blocks.foldl (fun p b => p.withBlock b.1 b.2) m)) := by
  induction blocks generalizing m with
  | nil => exact ⟨⟨rfl, rfl, rfl⟩, id⟩
  | cons e blocks ih =>
    obtain ⟨he, hblocks⟩ := forall_mem_cons.mp hblocks
    obtain ⟨hreworks, htraceable⟩ := ih hblocks (m.withBlock e.1 e.2)
    refine ⟨⟨hreworks.name, hreworks.type, hreworks.marks⟩, fun hm => htraceable ⟨hm.dataset, ?_⟩⟩
    rw [Mark.block, Mark.withBlock, Dict.get?_put, if_neg (Ne.symm he)]
    exact hm.refs

theorem steps_enterExit (hu : P st.scope u b) (hrun : Runs (enterExit base st u) docs part docs') :
    Steps P [st.scope] st.graph (st.merge part).graph := by
  obtain ⟨enter, docs₁, henter, hrun⟩ := runs_bind.mp hrun
  obtain ⟨exit, docs₂, hexit, hrun⟩ := runs_bind.mp hrun
  split at hrun
  · obtain ⟨rfl, -⟩ := runs_pure.mp hrun
    rw [Stage.merge, Graph.merge_empty]
  · obtain ⟨rfl, -⟩ := runs_pure.mp hrun
    have hblocks : ∀ e ∈ enter ++ exit, e.1 ≠ "update" := forall_mem_append.mpr
      ⟨fun e he => names_blockFor henter e he ▸ by decide, fun e he => names_blockFor hexit e he ▸ by decide⟩
    exact .single (.redraw (mem_singleton_self _) hu (redraws_mapPrimary (reworks_blocks _ hblocks)))

end AnimatedChart.Animation

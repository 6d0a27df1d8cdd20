import AnimatedChart.Proofs.Animation.StaticPart

/-!
# Passing a unit

A run over scopes comes to each filtered unit once (`Passage`). So the channels of a unit in a compiled graph are those
of the static chart, tweened with the scales that the graph had at that time, and beside them stand the looks of its
entering and leaving rows (`Passage.unitMark`).
-/

open List

namespace AnimatedChart

open Json

namespace Mark

variable {m m' : Mark} {f : Mark → Mark}

theorem primary_mapPrimary (hf : ∀ m, (f m).isFaceted = m.isFaceted ∧ (f m).marks = m.marks) (m : Mark) :
    (m.mapPrimary f).primary = f m.primary := by
  unfold mapPrimary
  split
  · next first rest hfaceted hmarks =>
    have hprimary : m.primary = first := by rw [primary, hfaceted, hmarks]
    have hfaceted' : ({ m with marks := f first :: rest } : Mark).isFaceted = true := hfaceted
    rw [hprimary, primary, hfaceted']
  · next hplain =>
    have hprimary : m.primary = m := by
      unfold primary
      split
      · next first rest hfaceted hmarks => exact absurd hmarks (hplain first rest hfaceted)
      · rfl
    rw [hprimary]
    unfold primary
    split
    · next first rest hfaceted hmarks =>
      exact absurd ((hf m).2.symm.trans hmarks) (hplain first rest ((hf m).1.symm.trans hfaceted))
    · rfl

theorem mapPrimary_id (m : Mark) : m.mapPrimary (fun p => p) = m := by
  unfold mapPrimary
  split
  · next first rest _ hmarks =>
    cases m
    rw [← hmarks]
  · rfl

theorem block_primary_congr (hfaceted : m'.isFaceted = m.isFaceted) (hmarks : m'.marks = m.marks)
    (hencode : m'.encode = m.encode) (name : String) : m'.primary.block name = m.primary.block name := by
  unfold primary
  rw [hfaceted, hmarks]
  split
  · rfl
  · rw [block, block, hencode]

theorem block_primary_clip (v : Value) (m : Mark) (name : String) :
    ({ m with clip := v } : Mark).primary.block name = m.primary.block name :=
  block_primary_congr (by rfl) (by rfl) (by rfl) name

theorem block_primary_withDataset (data : String) (m : Mark) (name : String) :
    (m.withDataset data).primary.block name = m.primary.block name := by
  refine block_primary_congr ?_ (by rfl) (by rfl) name
  unfold isFaceted withDataset
  rcases m.source with _ | ⟨_, _ | _⟩ <;> rfl

theorem block_withBlock_of_ne {name other : String} (h : name ≠ other) (members : Dict Value) (m : Mark) :
    (m.withBlock other members).block name = m.block name := by
  rw [block, withBlock, Dict.get?_put, if_neg h]
  rfl

def withBlocks (blocks : List (String × Dict Value)) (m : Mark) : Mark :=
  blocks.foldl (fun p b => p.withBlock b.1 b.2) m

variable {blocks : List (String × Dict Value)} {name : String}

theorem withBlocks_keeps (blocks : List (String × Dict Value)) (m : Mark) :
    (m.withBlocks blocks).isFaceted = m.isFaceted ∧ (m.withBlocks blocks).marks = m.marks := by
  induction blocks generalizing m with
  | nil => exact ⟨rfl, rfl⟩
  | cons e blocks ih => exact ih (m.withBlock e.1 e.2)

theorem block_withBlocks_of_not_mem (h : name ∉ blocks.map (·.1)) (m : Mark) :
    (m.withBlocks blocks).block name = m.block name := by
  induction blocks generalizing m with
  | nil => rfl
  | cons e blocks ih =>
    obtain ⟨hne, h⟩ := not_or.mp (mt mem_cons.mpr h)
    exact (ih h _).trans (block_withBlock_of_ne hne e.2 m)

theorem block_withBlocks (hnodup : (blocks.map (·.1)).Nodup) {members : Dict Value} (h : (name, members) ∈ blocks)
    (m : Mark) : (m.withBlocks blocks).block name = members := by
  induction blocks generalizing m with
  | nil => cases h
  | cons e blocks ih =>
    obtain ⟨hnew, hnodup⟩ := nodup_cons.mp hnodup
    rcases mem_cons.mp h with rfl | h
    · exact (block_withBlocks_of_not_mem hnew _).trans (Animation.block_withBlock _ _ _)
    · exact ih hnodup h _

end Mark

namespace Animation

open Spec

variable {base g g' g'' : Graph} {s : Scope} {ss ss' : List Scope} {st st' bound : Stage} {u : ScopedUnit} {b : Binding}
  {i : Nat} {us : List ScopedUnit} {compiler : BaseCompiler} {docs docs' : List String} {part : Graph} {m : Mark}

/-! ## Passages -/

def Tracked (g : Graph) (s : Scope) (u : ScopedUnit) (b : Binding) : Prop := u ∈ s.units ∧ Tracks g s u b

def Elsewhere (g : Graph) (path : String) (s : Scope) (u : ScopedUnit) (b : Binding) : Prop :=
  Tracked g s u b ∧ u.path ≠ path

/-- How a unit is passed: what is done before and after is done to other units. -/
structure Passage (compiler : BaseCompiler) (ss : List Scope) (g : Graph) (u : ScopedUnit) (g' : Graph)
    (st bound : Stage) (b : Binding) (part : Graph) : Prop where
  tracks : Tracked g' bound.scope u b
  scope : bound.scope = st.scope
  mem : bound.scope ∈ ss
  before : Steps (Elsewhere g' u.path) ss g st.graph
  binds : ∃ i, bindKeyframes st i u = .ok (some (bound, b))
  binding : Steps (Tracked g') ss st.graph bound.graph
  looks : ∃ docs docs', Runs (enterExit compiler (bound.tweened u b) u) docs part docs'
  after : Steps (Elsewhere g' u.path) ss ((bound.tweened u b).merge part).graph g'

namespace Passage

theorem precede (h : Passage compiler ss g u g' st bound b part) (hss : ss ⊆ ss') {g₀ : Graph}
    (hsteps : Steps (Elsewhere g' u.path) ss' g₀ g) : Passage compiler ss' g₀ u g' st bound b part where
  tracks := h.tracks
  scope := h.scope
  mem := hss h.mem
  before := hsteps.trans (h.before.mono (fun _ _ _ _ => id) hss)
  binds := h.binds
  binding := h.binding.mono (fun _ _ _ _ => id) hss
  looks := h.looks
  after := h.after.mono (fun _ _ _ _ => id) hss

theorem follow (h : Passage compiler ss g u g' st bound b part) (hss : ss ⊆ ss')
    (hsteps : Steps (Elsewhere g'' u.path) ss' g' g'')
    (hreads : ∀ s ∈ ss, ∀ v b, Tracked g' s v b → Tracked g'' s v b) :
    Passage compiler ss' g u g'' st bound b part := by
  have helsewhere : ∀ s ∈ ss, ∀ v b, Elsewhere g' u.path s v b → Elsewhere g'' u.path s v b :=
    fun s hs v b ⟨htracked, hne⟩ => ⟨hreads s hs v b htracked, hne⟩
  exact {
    tracks := hreads _ h.mem _ _ h.tracks
    scope := h.scope
    mem := hss h.mem
    before := h.before.mono helsewhere hss
    binds := h.binds
    binding := h.binding.mono hreads hss
    looks := h.looks
    after := (h.after.mono helsewhere hss).trans hsteps }

end Passage

theorem Chained.passage (h : Chained base st i) (hid : st.scope.id.IsPath) (hpaths : (us.map (·.path)).Nodup)
    (hreads : ∀ u ∈ us, ∃ k, st.graph.reads u.path = some (sourceName k)) (hus : us ⊆ st.scope.units)
    (hrun : Runs (Animation.compileUnits compiler i us st) docs st' docs') (hu : u ∈ us)
    (hfilters : st.scope.filtersOf u ≠ []) : ∃ here bound b part, here.scope = st.scope
      ∧ Passage compiler [st.scope] st.graph u st'.graph here bound b part := by
  induction us generalizing i st docs with
  | nil => cases hu
  | cons v us ih =>
    obtain ⟨hnew, hpaths'⟩ := nodup_cons.mp hpaths
    obtain ⟨hv, hus'⟩ := cons_subset.mp hus
    by_cases hskip : st.scope.filtersOf v = []
    · rw [compileUnits_skip hskip] at hrun
      have hu' : u ∈ us := (mem_cons.mp hu).resolve_left fun heq => hfilters (heq ▸ hskip)
      exact ih (h.mono (Nat.le_succ i)) hid hpaths' (fun w hw => hreads w (mem_cons_of_mem v hw)) hus' hrun hu' hfilters
    · obtain ⟨k, hk⟩ := hreads v mem_cons_self
      obtain ⟨bound, b, hbind, hbound⟩ := h.unit hid hskip hk
      obtain ⟨htweened, htracks⟩ := hbound (bound.tweened v b) (by simp)
      obtain ⟨hbound, hbinds⟩ := hbound bound (by simp)
      obtain ⟨part, docs₁, hpart, hrun⟩ := (runs_compileUnits_cons hskip hbind).mp hrun
      have hunit := htweened.enterExit htracks hpart
      have hreads' := hunit.reads_rest hpaths hreads
      have hrest := hunit.chained.compileUnits (hunit.scope ▸ hid) hpaths' hreads' hrun
      -- What the unit reads is changed neither by its looks nor by the units after it.
      have htracks : Tracks ((bound.tweened v b).merge part).graph st.scope v b :=
        htracks.congr ((Frame.enterExit htweened.chained.distinct hpart).reads _ id)
      have hread : st'.graph.reads v.path = some b.target := (hrest.frame.reads _ hnew).trans htracks.reads
      have hown {g : Graph} (hg : g.reads v.path = some b.target) :
          ∀ s ∈ [st.scope], ∀ w b, w ∈ [v] ∧ Tracks g s w b → Tracked st'.graph s w b ∧ w = v := by
        rintro s hs w b' ⟨hw, htracks⟩
        obtain rfl := mem_singleton.mp hw
        obtain rfl := mem_singleton.mp hs
        exact ⟨⟨hv, htracks.congr (hread.trans hg.symm)⟩, rfl⟩
      have hothers {w : ScopedUnit} (hw : w ∈ us) : w.path ≠ v.path := fun heq => hnew (mem_map.mpr ⟨w, hw, heq⟩)
      rcases mem_cons.mp hu with rfl | hu'
      · have hhere := mem_singleton_self st.scope
        refine ⟨st, bound, b, part, rfl, {
          tracks := hbound.scope ▸ (hown htracks.reads _ hhere u b ⟨mem_singleton_self u, htracks⟩).1
          scope := hbound.scope
          mem := hbound.scope ▸ hhere
          before := .refl
          binds := ⟨i, hbind⟩
          binding := hbound.steps.mono (fun s hs w b hw => (hown hbinds.reads s hs w b hw).1) (List.Subset.refl _)
          looks := ⟨docs, docs₁, hpart⟩
          after := hrest.steps.mono ?_ ?_ }⟩
        · rw [hunit.scope]
          exact forall_mem_singleton.mpr fun w b ⟨hw, htracks⟩ => ⟨⟨hus' hw, htracks⟩, hothers hw⟩
        · rw [hunit.scope]
          exact List.Subset.refl _
      · obtain ⟨here, bound', b', part', hscope, hpassage⟩ := ih hunit.chained (hunit.scope ▸ hid) hpaths' hreads'
          (hunit.scope ▸ hus') hrun hu' (hunit.scope ▸ hfilters)
        rw [hunit.scope] at hscope hpassage
        refine ⟨here, bound', b', part', hscope, hpassage.precede (List.Subset.refl _)
          (hunit.steps.mono (fun s hs w b hw => ?_) ?_)⟩
        · obtain ⟨htracked, rfl⟩ := hown htracks.reads s hs w b hw
          exact ⟨htracked, (hothers hu').symm⟩
        · exact List.Subset.refl _

theorem Pending.passage_compileScope (h : Pending base g [s]) (hapart : ScopesApart [s])
    (hrun : Runs (compileScope compiler g s) docs g' docs') (hu : u ∈ s.units) (hfilters : s.filtersOf u ≠ []) :
    ∃ st bound b part, st.scope = s ∧ Passage compiler [s] g u g' st bound b part := by
  have hs := mem_singleton_self s
  obtain ⟨first, rest, hunits⟩ := exists_cons_of_ne_nil (ne_nil_of_mem hu)
  obtain ⟨st, hstart⟩ := h.start hunits
  obtain ⟨st', hanimated, rfl⟩ := (runs_compileScope hunits hstart).mp hrun
  obtain ⟨hscope, hchained, -⟩ := h.withClock hstart
  obtain ⟨here, bound, b, part, hhere, hpassage⟩ := hchained.passage (hscope ▸ hapart.isPath s hs) (hapart.nodup_units hs)
    (h.reads_withClock hstart) (hscope ▸ List.Subset.refl _) hanimated hu (hscope ▸ hfilters)
  rw [hscope] at hhere hpassage
  have hclock := steps_withClock (Elsewhere st'.graph u.path) st
  obtain rfl := start_eq hstart
  exact ⟨here, bound, b, part, hhere, hpassage.precede (List.Subset.refl _) hclock⟩

theorem Pending.passage_compileScopes (h : Pending base g ss) (hapart : ScopesApart ss)
    (hrun : Runs (compileScopes compiler ss g) docs g' docs') (hs : s ∈ ss) (hu : u ∈ s.units)
    (hfilters : s.filtersOf u ≠ []) : ∃ st bound b part, st.scope = s ∧ Passage compiler ss g u g' st bound b part := by
  induction ss generalizing g docs with
  | nil => cases hs
  | cons t ss ih =>
    have hapart' : ScopesApart ([t] ++ ss) := hapart
    obtain ⟨g₁, docs₁, hscope, hrun⟩ := runs_bind.mp hrun
    have hcovers := h.head.covers_compileScope hapart'.left hscope
    have hpending := h.advance hapart' hcovers
    have hrest := hpending.covers_compileScopes hapart'.right hrun
    have hfirst : [t] ⊆ t :: ss := cons_subset.mpr ⟨mem_cons_self, nil_subset _⟩
    -- What the units of the first scope read is not changed by the other scopes.
    have hreads : ∀ s ∈ [t], ∀ v b, Tracked g₁ s v b → Tracked g' s v b := by
      rintro s hs v b ⟨hv, htracks⟩
      refine ⟨hv, htracks.congr (hrest.frame.reads _ ?_)⟩
      rintro ⟨t', ht', hp⟩
      exact hapart'.path_ne hs ht' (mem_map_of_mem hv) hp rfl
    rcases mem_cons.mp hs with rfl | hs'
    · obtain ⟨st, bound, b, part, hst, hpassage⟩ := h.head.passage_compileScope hapart'.left hscope hu hfilters
      refine ⟨st, bound, b, part, hst, hpassage.follow hfirst (hrest.steps.mono ?_ (subset_cons_self s ss)) hreads⟩
      intro s' hs' v b htracked
      have hne := hapart'.path_ne (mem_singleton_self s) hs' (mem_map_of_mem hu) (mem_map_of_mem htracked.1)
      exact ⟨htracked, hne.symm⟩
    · obtain ⟨st, bound, b, part, hst, hpassage⟩ := ih hpending hapart'.right hrun hs'
      refine ⟨st, bound, b, part, hst, hpassage.precede (subset_cons_self t ss) (hcovers.steps.mono ?_ hfirst)⟩
      intro s' hs v b htracked
      exact ⟨hreads s' hs v b htracked,
        hapart'.path_ne hs hs' (mem_map_of_mem htracked.1) (mem_map_of_mem hu)⟩

/-! ## The mark of a unit -/

theorem bound_of_bindKeyframes (hbind : bindKeyframes st i u = .ok (some (bound, b))) (hg : st.graph.Orderly) :
    bound.graph.scales = st.graph.scales
      ∧ ∃ m, st.graph.unitMark? u.path = some m ∧ bound.graph.unitMark? u.path = some (m.withDataset b.target) := by
  obtain ⟨m, hm, stem, fresh, st₁, hstem, -, st₂, hst₂, rfl⟩ := bindKeyframes_cases hbind
  have hst₁ : st₁.graph = st.graph := by
    have hgraph := st.graph_stemFor m.dataset (keyframeFilter st.scope (unitComparisons st.scope u) st.scope.current) i
    rwa [hstem] at hgraph
  obtain ⟨hmarks, hscales⟩ : st₂.graph.marks = st.graph.marks ∧ st₂.graph.scales = st.graph.scales := by
    rw [hst₂, ← hst₁]
    split
    · exact ⟨Graph.merge_empty_marks _ _ rfl, by simp [Stage.merge, Graph.merge]⟩
    · exact ⟨rfl, rfl⟩
  have horderly : st₂.graph.Orderly := hg.of_bare (congrArg _ hmarks)
  refine ⟨(scales_merge_edit _ _ _).trans hscales, m, hm, ?_⟩
  refine horderly.unitMark?_edit_self (redraws_withDataset (regular_target b)).retouches ?_
  rw [← hm, Graph.unitMark?, Graph.unitMark?, Graph.unitMarkName?, Graph.unitMarkName?, hmarks]

theorem unitMark?_interpolate (hg : st.graph.Orderly) (hm : st.graph.unitMark? u.path = some m) {key : String}
    (hkey : b.key = some key) : (st.merge (interpolate st u b)).graph.unitMark? u.path
      = some (m.mapPrimary fun p => p.withBlock "update" (tweenBlock st b key (p.block "update"))) := by
  unfold interpolate
  rw [hkey]
  refine hg.unitMark?_edit_self (Redraws.retouches (redraws_mapPrimary fun p => ⟨⟨rfl, rfl, rfl⟩, fun hp => ?_⟩)) hm
  exact traceable_tween hp key

theorem unitMark?_enterExit (hg : st.graph.Orderly) (hm : st.graph.unitMark? u.path = some m)
    (hrun : Runs (enterExit compiler st u) docs part docs') :
    ∃ enter exit docs₁, Runs (blockFor compiler st u "enter" u.unit.enter) docs enter docs₁
      ∧ Runs (blockFor compiler st u "exit" u.unit.exit) docs₁ exit docs' ∧ (st.merge part).graph.unitMark? u.path
        = some (m.mapPrimary (Mark.withBlocks (enter ++ exit))) := by
  obtain ⟨enter, docs₁, henter, hrun⟩ := runs_bind.mp hrun
  obtain ⟨exit, docs₂, hexit, hrun⟩ := runs_bind.mp hrun
  refine ⟨enter, exit, docs₁, henter, ?_⟩
  split at hrun
  · next hempty =>
    obtain ⟨rfl, rfl⟩ := runs_pure.mp hrun
    rw [Stage.merge, Graph.merge_empty, hempty]
    exact ⟨hexit, hm.trans (congrArg some m.mapPrimary_id.symm)⟩
  · obtain ⟨rfl, rfl⟩ := runs_pure.mp hrun
    have hblocks : ∀ e ∈ enter ++ exit, e.1 ≠ "update" := forall_mem_append.mpr
      ⟨fun e he => names_blockFor henter e he ▸ by decide, fun e he => names_blockFor hexit e he ▸ by decide⟩
    exact ⟨hexit, hg.unitMark?_edit_self (redraws_mapPrimary (reworks_blocks _ hblocks)).retouches hm⟩

theorem block_looks {enter exit : List (String × Dict Value)} {docs₁ : List String}
    (henter : Runs (blockFor compiler st u "enter" u.unit.enter) docs enter docs₁)
    (hexit : Runs (blockFor compiler st u "exit" u.unit.exit) docs₁ exit docs') (m : Mark) {block : String} {e : Encoding}
    (hlook : (block, some e) ∈ [("enter", u.unit.enter), ("exit", u.unit.exit)]) :
    ∃ docs docs', Runs (overrideBlock compiler st u e) docs ((m.withBlocks (enter ++ exit)).block block) docs' := by
  have hnodup : ((enter ++ exit).map (·.1)).Nodup := by
    rcases blockFor_cases henter with ⟨-, rfl⟩ | ⟨_, _, -, rfl, -⟩ <;>
      rcases blockFor_cases hexit with ⟨-, rfl⟩ | ⟨_, _, -, rfl, -⟩ <;> simp
  have hone {block : String} {blocks : List (String × Dict Value)} {docs docs' : List String}
      (hrun : Runs (blockFor compiler st u block (some e)) docs blocks docs') (hblocks : blocks ⊆ enter ++ exit) :
      ∃ docs docs', Runs (overrideBlock compiler st u e) docs ((m.withBlocks (enter ++ exit)).block block) docs' := by
    rcases blockFor_cases hrun with ⟨hnone, -⟩ | ⟨e', d, he, rfl, hd⟩
    · cases hnone
    · cases he
      exact ⟨docs, docs', (Mark.block_withBlocks hnodup (cons_subset.mp hblocks).1 m).symm ▸ hd⟩
  rcases mem_cons.mp hlook with hlook | hlook
  · obtain ⟨rfl, he⟩ := Prod.mk.inj hlook
    exact hone (he ▸ henter) (subset_append_left _ _)
  · obtain ⟨rfl, he⟩ := Prod.mk.inj (mem_singleton.mp hlook)
    exact hone (he ▸ hexit) (subset_append_right _ _)

namespace Passage

variable (h : Passage compiler ss g u g' st bound b part)

include h

theorem steps_bound : Steps (Tracked g') ss g bound.graph :=
  .trans (h.before.mono (fun _ _ _ _ => And.left) (List.Subset.refl _)) h.binding

theorem steps_rescaled : Steps (Tracked g') ss bound.graph (bound.merge (rescale bound u b)).graph :=
  (steps_rescale h.tracks).mono (fun _ _ _ _ => id) (cons_subset.mpr ⟨h.mem, nil_subset _⟩)

theorem steps_tweened : Steps (Tracked g') ss (bound.merge (rescale bound u b)).graph (bound.tweened u b).graph := by
  have htracks : Tracked g' (bound.merge (rescale bound u b)).scope u b := h.tracks
  exact (steps_interpolate htracks).mono (fun _ _ _ _ => id) (cons_subset.mpr ⟨h.mem, nil_subset _⟩)

theorem steps_looks : Steps (Tracked g') ss (bound.tweened u b).graph ((bound.tweened u b).merge part).graph := by
  obtain ⟨_, _, hlooks⟩ := h.looks
  have htracks : Tracked g' (bound.tweened u b).scope u b := h.tracks
  exact (steps_enterExit htracks hlooks).mono (fun _ _ _ _ => id) (cons_subset.mpr ⟨h.mem, nil_subset _⟩)

theorem steps_rest : Steps (Tracked g') ss (bound.tweened u b).graph g' :=
  .trans h.steps_looks (h.after.mono (fun _ _ _ _ => And.left) (List.Subset.refl _))

variable (hg : g.Orderly) (hm : g.unitMark? u.path = some m)

include hg hm

theorem unitMark_bound : ∃ m₁, bound.graph.unitMark? u.path = some m₁
    ∧ ∀ name, m₁.primary.block name = m.primary.block name := by
  obtain ⟨v, hv, -⟩ := h.before.unitMark hg hm fun _ _ _ _ helsewhere => helsewhere.2
  obtain ⟨i, hbind⟩ := h.binds
  obtain ⟨-, m₀, hm₀, hbound⟩ := bound_of_bindKeyframes hbind (h.before.retains hg).1
  obtain rfl := Option.some.inj (hv.symm.trans hm₀)
  exact ⟨_, hbound, fun name => (Mark.block_primary_withDataset _ _ name).trans (Mark.block_primary_clip v m name)⟩

theorem unitMark_tweened : ∃ m₂, (bound.tweened u b).graph.unitMark? u.path = some m₂ ∧ ∀ key, b.key = some key →
      m₂.primary.block "update" = tweenBlock (bound.merge (rescale bound u b)) b key (m.primary.block "update") := by
  obtain ⟨m₁, hm₁, hblocks⟩ := h.unitMark_bound hg hm
  have hrescaled : (bound.merge (rescale bound u b)).graph.unitMark? u.path = some m₁ :=
    (unitMark?_merge_entries _ marks_rescale _).trans hm₁
  cases hkey : b.key with
  | none =>
    refine ⟨m₁, ?_, by simp⟩
    rw [Stage.tweened, interpolate, hkey, Stage.merge, Graph.merge_empty]
    exact hrescaled
  | some key =>
    have horderly := (Steps.retains (h.steps_bound.trans h.steps_rescaled) hg).1
    refine ⟨_, unitMark?_interpolate horderly hrescaled hkey, fun key' hkey' => ?_⟩
    obtain rfl := Option.some.inj hkey'
    rw [Mark.primary_mapPrimary, block_withBlock, hblocks]
    exact fun _ => ⟨rfl, rfl⟩

theorem unitMark : ∃ m', g'.unitMark? u.path = some m' ∧ (∀ key, b.key = some key →
      m'.primary.block "update" = tweenBlock (bound.merge (rescale bound u b)) b key (m.primary.block "update"))
    ∧ ∀ block e, (block, some e) ∈ [("enter", u.unit.enter), ("exit", u.unit.exit)] →
      ∃ docs docs', Runs (overrideBlock compiler (bound.tweened u b) u e) docs (m'.primary.block block) docs' := by
  obtain ⟨m₂, hm₂, htweened⟩ := h.unitMark_tweened hg hm
  have horderly := (Steps.retains ((h.steps_bound.trans h.steps_rescaled).trans h.steps_tweened) hg).1
  obtain ⟨docs, docs', hlooks⟩ := h.looks
  obtain ⟨enter, exit, docs₁, henter, hexit, hm₃⟩ := unitMark?_enterExit horderly hm₂ hlooks
  obtain ⟨v, hv, -⟩ := h.after.unitMark (Steps.retains h.steps_looks horderly).1 hm₃ fun _ _ _ _ helsewhere => helsewhere.2
  have hblock (name : String) :
      ({ m₂.mapPrimary (Mark.withBlocks (enter ++ exit)) with clip := v } : Mark).primary.block name
      = (m₂.primary.withBlocks (enter ++ exit)).block name := by
    rw [Mark.block_primary_clip, Mark.primary_mapPrimary (Mark.withBlocks_keeps _)]
  have hnames : ∀ e ∈ enter ++ exit, e.1 ≠ "update" := forall_mem_append.mpr
    ⟨fun e he => names_blockFor henter e he ▸ by decide, fun e he => names_blockFor hexit e he ▸ by decide⟩
  refine ⟨_, hv, fun key hkey => ?_, fun block e hlook => ?_⟩
  · rw [hblock, Mark.block_withBlocks_of_not_mem, htweened key hkey]
    exact fun hmem => (mem_map.mp hmem).elim fun e he => hnames e he.1 he.2
  · rw [hblock]
    exact block_looks henter hexit m₂.primary hlook

end Passage

theorem passage_compileDocument {doc : String} {out : Graph} (hout : compileDocument Adapter.reference.base doc = .ok out) :
    ∃ c g docs animated, Chart.parse doc = .ok c ∧ Runs (lowerStatic Adapter.reference.base c.elaborate) [] g docs
      ∧ Pending g g c.elaborate.scopes ∧ Covers g g c.elaborate.scopes animated ∧ animated.scales = out.scales
      ∧ (∀ path, animated.unitMark? path = out.unitMark? path)
      ∧ ∀ s ∈ c.elaborate.scopes, ∀ u ∈ s.units, s.filtersOf u ≠ [] → ∃ st bound b part m, bound.scope = s
        ∧ Passage Adapter.reference.base c.elaborate.scopes g u animated st bound b part
        ∧ g.unitMark? u.path = some m := by
  obtain ⟨c, g, docs, animated, docs', hparse, hg, hpending, hanimated, rfl⟩ := pending_compileDocument hout
  have hcovers := hpending.covers_compileScopes (scopesApart_elaborate c) hanimated
  have horderly := orderly_lowerStatic hg
  obtain ⟨horderly', hretains⟩ := hcovers.steps.retains horderly
  refine ⟨c, g, docs, animated, hparse, hg, hpending, hcovers, rfl, fun path => ?_, fun s hs u hu hfilters => ?_⟩
  · exact (unitMark?_restoreOrder horderly.toDistinct horderly'.toDistinct hretains path).symm
  · obtain ⟨st, bound, b, part, rfl, hpassage⟩ :=
      hpending.passage_compileScopes (scopesApart_elaborate c) hanimated hs hu hfilters
    obtain ⟨k, hk⟩ := hpending.reads _ hs u hu
    obtain ⟨m, hm, -⟩ := Option.map_eq_some_iff.mp hk
    exact ⟨st, bound, b, part, m, hpassage.scope, hpassage, hm⟩

end Animation
end AnimatedChart

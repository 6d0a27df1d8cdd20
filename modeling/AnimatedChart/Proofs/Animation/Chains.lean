import AnimatedChart.Proofs.Animation.Frame
import AnimatedChart.Proofs.Animation.Steps

/-!
# Chains of keyframe datasets

A unit of a scope draws a chain of datasets that are derived of its source as the base graph has it (`chain`).
-/

open List

namespace AnimatedChart.Animation

open Json Spec

variable {base : Graph} {s : Scope} {st st' : Stage} {ps qs : List FieldPredicate} {k : Nat} {stem : String}
variable {b : Binding} {g : Graph} {st₁ : Stage}

/-! ## Chains -/

def Binding.tails (b : Binding) : List String :=
  ["_curr", "_next"] ++ if b.key.isSome then
    ["_eq", "_eq_next", "_interpolate"] ++ if b.spans then ["_continuity"] else []
  else []

theorem Binding.names_eq (b : Binding) : b.names = b.tails.map (b.stem ++ ·) := by
  unfold names tails
  split <;> [split; skip] <;> rfl

theorem Binding.tails_sublist (b : Binding) : b.tails.Sublist chainTails := by
  unfold tails
  cases b.key.isSome <;> cases b.spans <;> decide

theorem Binding.nodup_names (b : Binding) : b.names.Nodup := by
  rw [names_eq]
  refine List.Nodup.map (fun x y h => ?_) (b.tails_sublist.nodup (by decide))
  exact String.append_right_inj b.stem |>.mp h

def Has (g : Graph) (ds : List Dataset) : Prop := ∀ d ∈ ds, g.dataset? d.name = some d

/-- The datasets of a stem that are derived of a source as the base graph has it. -/
def chain (base : Graph) (s : Scope) (k : Nat) (stem : String) (ps : List FieldPredicate) : List Dataset :=
  derived { scope := s, graph := base, data := "" } (bindingFor s (sourceName k) stem ps) ps

theorem derived_eq_chain (h : st.graph.dataset? (sourceName k) = base.dataset? (sourceName k)) :
    derived st (bindingFor st.scope (sourceName k) stem ps) ps = chain base st.scope k stem ps := by
  have hlayout : layoutOf st.graph (sourceName k) = layoutOf base (sourceName k) := by rw [layoutOf, layoutOf, h]
  unfold chain derived
  simp only [bindingFor, hlayout]

theorem chain_congr (hps : ps ≠ []) (hqs : qs ≠ []) (h : keyframeFilter s ps s.current = keyframeFilter s qs s.current) :
    chain base s k stem ps = chain base s k stem qs := by
  have hnext := keyframeFilter_congr hps hqs h s.next
  have hbinding : bindingFor s (sourceName k) stem ps = bindingFor s (sourceName k) stem qs := by
    rw [bindingFor, bindingFor, spansKeyframes_of_filter hps hqs h]
  unfold chain derived
  simp only [hbinding, h, hnext]

theorem name_chain {d : Dataset} (h : d ∈ chain base s k stem ps) : ∃ tail ∈ chainTails, d.name = stem ++ tail := by
  have hname : d.name ∈ (bindingFor s (sourceName k) stem ps).names := by
    rw [← names_derived { scope := s, graph := base, data := "" } _ ps]
    exact mem_map_of_mem h
  rw [Binding.names_eq] at hname
  obtain ⟨tail, htail, heq⟩ := mem_map.mp hname
  exact ⟨tail, (Binding.tails_sublist _).subset htail, heq.symm⟩

theorem has_merge_chain (g : Graph) : Has (g.merge { data := chain base s k stem ps }) (chain base s k stem ps) := by
  intro d hd
  refine Named.find?_merge_of_mem hd ?_ ?_
  · obtain ⟨tail, htail, hname⟩ := name_chain hd
    have hne : ∀ tail ∈ chainTails, tail ≠ "" := by decide
    show d.name ≠ ""
    rw [hname]
    exact fun h => hne tail htail (String.append_eq_empty_iff.mp h).2
  · show ((chain base s k stem ps).map (·.name)).Nodup
    rw [chain, names_derived]
    exact Binding.nodup_names _

/-! ## Units -/

theorem Stage.graph_stemFor (st : Stage) (source filter : String) (i : Nat) :
    (st.stemFor source filter i).2.2.graph = st.graph := by
  unfold stemFor
  dsimp only
  split
  · rfl
  · split
    · rfl
    · split <;> rfl

/-- The graph before a unit, given by its index, is animated: the sources are those of the base graph, and every stem has
the chain of its source and its filter. -/
structure Chained (base : Graph) (st : Stage) (i : Nat) : Prop where
  distinct : st.graph.Distinct
  sources : ∀ k, st.graph.dataset? (sourceName k) = base.dataset? (sourceName k)
  indices : ∀ e ∈ st.prefixes, IsStem st.scope.id.suffix i e.1
  stems : ∀ e ∈ st.prefixes, ∃ k root ps, IsRoot k root ∧ e.1 = root ++ st.scope.id.suffix ∧ ps ≠ []
    ∧ e.2 = keyframeFilter st.scope ps st.scope.current ∧ Has st.graph (chain base st.scope k e.1 ps)

def Joins (st : Stage) (u : ScopedUnit) (k : Nat) : Prop :=
  ∃ root, IsRoot k root
    ∧ (root ++ st.scope.id.suffix, keyframeFilter st.scope (unitComparisons st.scope u) st.scope.current) ∈ st.prefixes
    ∧ st.graph.reads u.path
      = some (bindingFor st.scope (sourceName k) (root ++ st.scope.id.suffix) (unitComparisons st.scope u)).target

/-- A unit with filters draws from the datasets of a binding. -/
structure Tracks (g : Graph) (s : Scope) (u : ScopedUnit) (b : Binding) : Prop where
  filters : s.filtersOf u ≠ []
  binding : ∃ k root, IsRoot k root ∧ b = bindingFor s (sourceName k) (root ++ s.id.suffix) (unitComparisons s u)
  reads : g.reads u.path = some b.target

theorem Tracks.congr {g' : Graph} {u : ScopedUnit} (h : Tracks g s u b) (hreads : g'.reads u.path = g.reads u.path) :
    Tracks g' s u b :=
  { h with reads := hreads.trans h.reads }

namespace Chained

variable {i : Nat} {u : ScopedUnit}

theorem mono {j : Nat} (h : Chained base st i) (hij : i ≤ j) : Chained base st j :=
  { h with indices := fun e he => (h.indices e he).mono hij }

theorem frame (h : Chained base st i) {paths : String → Prop} (hg : Frame (fun _ => False) paths st.graph g) :
    Chained base { st with graph := g } i where
  distinct := hg.distinct
  sources := fun k => (hg.data _ id).trans (h.sources k)
  indices := h.indices
  stems := fun e he => by
    obtain ⟨k, root, ps, hroot, hstem, hps, hfilter, hhas⟩ := h.stems e he
    exact ⟨k, root, ps, hroot, hstem, hps, hfilter, fun d hd => (hg.data _ id).trans (hhas d hd)⟩

theorem addStem (h : Chained base st i) (hid : st.scope.id.IsPath) {root : String} (hroot : IsRoot k root)
    (hnew : root ++ st.scope.id.suffix ∉ st.prefixes.map (·.1))
    (hindex : IsStem st.scope.id.suffix (i + 1) (root ++ st.scope.id.suffix)) (hps : ps ≠ []) : Chained base { st with
      graph := st.graph.merge { data := chain base st.scope k (root ++ st.scope.id.suffix) ps }
      prefixes := Dict.put (root ++ st.scope.id.suffix) (keyframeFilter st.scope ps st.scope.current) st.prefixes }
      (i + 1)
    ∧ Frame (OwnData st.scope) (fun _ => False) st.graph
      (st.graph.merge { data := chain base st.scope k (root ++ st.scope.id.suffix) ps }) := by
  generalize hstem : root ++ st.scope.id.suffix = stem at hnew hindex
  have hframe := Frame.merge_entries h.distinct (rfl : ({ data := chain base st.scope k stem ps } : Graph).marks = [])
  have hnames {n : String} (hn : n ∈ (chain base st.scope k stem ps).map (·.name)) :
      ∃ tail ∈ chainTails, n = stem ++ tail := by
    obtain ⟨d, hd, rfl⟩ := mem_map.mp hn
    exact name_chain hd
  have hown : ∀ n ∈ (chain base st.scope k stem ps).map (·.name), OwnData st.scope n := by
    intro n hn
    obtain ⟨tail, htail, rfl⟩ := hnames hn
    exact hstem ▸ .chain hroot htail
  refine ⟨⟨hframe.distinct, fun k' => ?_, fun e he => ?_, fun e he => ?_⟩, hframe.mono hown fun _ => id⟩
  · exact (hframe.data _ fun hn => not_ownData_sourceName st.scope k' (hown _ hn)).trans (h.sources k')
  · rcases Dict.mem_of_mem_put he with rfl | he
    · exact hindex
    · exact (h.indices e he).mono (Nat.le_succ i)
  · rcases Dict.mem_of_mem_put he with rfl | he
    · exact ⟨k, root, ps, hroot, hstem.symm, hps, rfl, has_merge_chain st.graph⟩
    · -- Another stem has other names.
      obtain ⟨k', root', ps', hroot', hstem', hps', hfilter, hhas⟩ := h.stems e he
      refine ⟨k', root', ps', hroot', hstem', hps', hfilter, fun d hd => (hframe.data _ fun hn => ?_).trans (hhas d hd)⟩
      obtain ⟨tail, htail, hname⟩ := hnames hn
      obtain ⟨tail', htail', hname'⟩ := name_chain hd
      have heq : root' ++ st.scope.id.suffix ++ tail' = root ++ st.scope.id.suffix ++ tail := by
        rw [← hstem', hstem, ← hname', hname]
      obtain ⟨rfl, -, -⟩ := hroot'.name_inj hroot hid hid htail' htail heq
      exact hnew (mem_map.mpr ⟨e, he, hstem'.trans hstem⟩)

/-- The stage after a unit has its stem, before its mark is drawn from it. -/
structure Stemmed (base : Graph) (st : Stage) (i : Nat) (u : ScopedUnit) (k : Nat) (root : String) (st' : Stage) : Prop where
  isRoot : IsRoot k root
  scope : st'.scope = st.scope
  chained : Chained base st' (i + 1)
  frame : Frame (OwnData st.scope) (fun _ => False) st.graph st'.graph
  marks : ∀ path, st'.graph.unitMark? path = st.graph.unitMark? path
  kept : ∀ e ∈ st.prefixes, e ∈ st'.prefixes
  mem : (root ++ st.scope.id.suffix, keyframeFilter st.scope (unitComparisons st.scope u) st.scope.current) ∈ st'.prefixes
  steps : ∀ P, Steps P [st.scope] st.graph st'.graph

theorem stemmed (h : Chained base st i) (hid : st.scope.id.IsPath) (u : ScopedUnit) (k : Nat) :
    ∃ root fresh st₁, st.stemFor (sourceName k)
        (keyframeFilter st.scope (unitComparisons st.scope u) st.scope.current) i
        = (root ++ st.scope.id.suffix, fresh, st₁)
      ∧ Stemmed base st i u k root (if fresh then st₁.merge { data := (derived st₁
          (bindingFor st.scope (sourceName k) (root ++ st.scope.id.suffix) (unitComparisons st.scope u))
          (unitComparisons st.scope u)) } else st₁) := by
  have hps := unitComparisons_ne_nil st.scope u
  -- A new stem brings its chain of datasets along; a stem that is shared has its chain already.
  rcases st.stemFor_cases (keyframeFilter st.scope (unitComparisons st.scope u) st.scope.current) (regular_sourceName k)
    h.indices with ⟨stem, hstem, hshape, hnew⟩ | ⟨stem, hstem, rfl, hmem⟩
  · obtain ⟨root, hroot, rfl⟩ : ∃ root, IsRoot k root ∧ stem = root ++ st.scope.id.suffix := by
      rcases hshape with rfl | rfl
      · exact ⟨_, .source, rfl⟩
      · exact ⟨_, .indexed i, rfl⟩
    have hindex : IsStem st.scope.id.suffix (i + 1) (root ++ st.scope.id.suffix) :=
      ⟨_, regular_sourceName k, hshape.imp_right fun h => ⟨i, Nat.lt_succ_self i, h⟩⟩
    obtain ⟨hchained, hframe⟩ := h.addStem hid hroot hnew hindex hps
    have hderived (prefixes : Dict String) : derived { st with prefixes }
        (bindingFor st.scope (sourceName k) (root ++ st.scope.id.suffix) (unitComparisons st.scope u))
        (unitComparisons st.scope u) = chain base st.scope k (root ++ st.scope.id.suffix) (unitComparisons st.scope u) :=
      derived_eq_chain (h.sources k)
    refine ⟨root, true, _, hstem, ?_⟩
    rw [if_pos rfl, hderived]
    refine {
      isRoot := hroot
      scope := rfl
      chained := hchained
      frame := hframe
      marks := unitMark?_merge_entries _ rfl
      kept := fun e he => Dict.mem_put_of_ne (fun heq => hnew (mem_map.mpr ⟨e, he, heq⟩)) |>.mpr he
      mem := Dict.mem_put_self _ _ _
      steps := fun P => .single (.entries (mem_singleton_self _) ⟨rfl, rfl, fun d hd => ?_, by simp⟩) }
    obtain ⟨tail, htail, hname⟩ := name_chain hd
    exact hname ▸ .chain hroot htail
  · refine ⟨_, false, st, hstem, ?_⟩
    rw [if_neg Bool.false_ne_true]
    exact {
      isRoot := .source
      scope := rfl
      chained := h.mono (Nat.le_succ i)
      frame := .refl h.distinct
      marks := fun _ => rfl
      kept := fun _ => id
      mem := hmem
      steps := fun _ => .refl }

end Chained

/-- The stage after the given units, counted from an index, have been animated: what the scope does not own and what
other units draw is as before, and every filtered unit has joined a stem. -/
structure Animates (base : Graph) (st : Stage) (i : Nat) (us : List ScopedUnit) (st' : Stage) : Prop where
  scope : st'.scope = st.scope
  chained : Chained base st' (i + us.length)
  frame : Frame (OwnData st.scope) (· ∈ us.map (·.path)) st.graph st'.graph
  kept : ∀ e ∈ st.prefixes, e ∈ st'.prefixes
  joins : ∀ u ∈ us, st.scope.filtersOf u ≠ [] → ∀ k, st.graph.reads u.path = some (sourceName k) → Joins st' u k
  steps : Steps (fun s u b => u ∈ us ∧ Tracks st'.graph s u b) [st.scope] st.graph st'.graph

namespace Animates

variable {i : Nat} {us us' : List ScopedUnit} {u : ScopedUnit} {st₁ st₂ : Stage}

theorem nil (h : Chained base st i) : Animates base st i [] st where
  scope := rfl
  chained := h
  frame := .refl h.distinct
  kept := fun _ => id
  joins := fun _ hu => nomatch hu
  steps := .refl

theorem skip (h : Chained base st i) (hu : st.scope.filtersOf u = []) : Animates base st i [u] st where
  scope := rfl
  chained := h.mono (Nat.le_succ i)
  frame := .refl h.distinct
  kept := fun _ => id
  joins := forall_mem_singleton.mpr fun hne => absurd hu hne
  steps := .refl

theorem untouched (h : Animates base st i us st₁) (hg : Untouched st₁.graph g)
    (hsteps : Steps (fun s u b => u ∈ us ∧ Tracks st₁.graph s u b) [st₁.scope] st₁.graph g) :
    Animates base st i us { st₁ with graph := g } where
  scope := h.scope
  chained := h.chained.frame hg
  frame := h.frame.trans (.of_untouched hg)
  kept := h.kept
  joins := fun u hu hfilters k hk => by
    obtain ⟨root, hroot, hmem, hread⟩ := h.joins u hu hfilters k hk
    exact ⟨root, hroot, hmem, (hg.reads _ id).trans hread⟩
  steps := by
    rw [h.scope] at hsteps
    refine Steps.mono (h.steps.trans hsteps) (fun s _ u b ⟨hu, htracks⟩ => ⟨hu, ?_⟩) (List.Subset.refl _)
    exact htracks.congr (hg.reads _ id)

theorem trans (h₁ : Animates base st i us st₁) (h₂ : Animates base st₁ (i + us.length) us' st₂)
    (hpaths : ((us ++ us').map (·.path)).Nodup) : Animates base st i (us ++ us') st₂ := by
  rw [map_append, nodup_append] at hpaths
  have hscope := h₂.scope.trans h₁.scope
  have hreads : ∀ u ∈ us, st₂.graph.reads u.path = st₁.graph.reads u.path := fun u hu =>
    h₂.frame.reads _ fun hu' => hpaths.2.2 _ (mem_map_of_mem hu) _ hu' rfl
  refine ⟨hscope, ?_, ?_, fun e he => h₂.kept e (h₁.kept e he),
    forall_mem_append.mpr ⟨fun u hu => ?_, fun u hu => ?_⟩, .trans (h₁.steps.mono ?_ ?_) (h₂.steps.mono ?_ ?_)⟩
  · rw [length_append, ← Nat.add_assoc]
    exact h₂.chained
  · refine (h₁.frame.mono (fun _ => id) fun p hp => ?_).trans (h₂.frame.mono (fun n hn => h₁.scope ▸ hn) fun p hp => ?_)
    · rw [map_append]
      exact mem_append_left _ hp
    · rw [map_append]
      exact mem_append_right _ hp
  · intro hfilters k hk
    obtain ⟨root, hroot, hmem, hread⟩ := h₁.joins u hu hfilters k hk
    refine ⟨root, hroot, ?_, ?_⟩
    · rw [h₂.scope]
      exact h₂.kept _ hmem
    · rw [h₂.scope, hreads u hu]
      exact hread
  · intro hfilters k hk
    refine h₂.joins u hu (h₁.scope ▸ hfilters) k ?_
    rw [h₁.frame.reads _ fun hu' => hpaths.2.2 _ hu' _ (mem_map_of_mem hu) rfl]
    exact hk
  · exact fun s _ u b ⟨hu, htracks⟩ => ⟨mem_append_left _ hu, htracks.congr (hreads u hu)⟩
  · exact List.Subset.refl _
  · exact fun s _ u b ⟨hu, htracks⟩ => ⟨mem_append_right _ hu, htracks⟩
  · rw [h₁.scope]
    exact List.Subset.refl _

end Animates

variable {i : Nat} {u : ScopedUnit}

theorem Chained.bind (h : Chained base st i) (hid : st.scope.id.IsPath)
    (hread : st.graph.reads u.path = some (sourceName k)) : ∃ st' b, bindKeyframes st i u = .ok (some (st', b))
      ∧ (st.scope.filtersOf u ≠ [] → Animates base st i [u] st' ∧ Tracks st'.graph st.scope u b) := by
  obtain ⟨m, hm, hdata⟩ := Option.map_eq_some_iff.mp hread
  obtain ⟨root, fresh, st₁, hstem, hstemmed⟩ := h.stemmed hid u k
  have hsome : ¬m.dataset.isEmpty = true := by
    rw [hdata, String.isEmpty_iff]
    exact sourceName_ne k
  generalize hb : bindingFor st.scope (sourceName k) (root ++ st.scope.id.suffix) (unitComparisons st.scope u) = b
    at hstemmed
  generalize hst₂ : (if fresh then st₁.merge { data := derived st₁ b (unitComparisons st.scope u) } else st₁) = st₂
    at hstemmed
  have hbind : bindKeyframes st i u
      = .ok (some (st₂.merge (st₂.graph.editUnitMark u.path (Mark.withDataset b.target)), b)) := by
    unfold bindKeyframes
    rw [hm]
    dsimp only
    rw [if_neg hsome, hdata, hstem, ← hst₂, ← hb]
    rfl
  have hm₂ : st₂.graph.unitMark? u.path = some m := (hstemmed.marks u.path).trans hm
  have hdraw := Frame.withDataset hstemmed.chained.distinct hm₂ b.target
  have hreads := (hstemmed.chained.distinct.withDataset hm₂ b.target).2.1
  refine ⟨_, b, hbind, fun hfilters => ?_⟩
  have htracks : Tracks (st₂.graph.merge (st₂.graph.editUnitMark u.path (Mark.withDataset b.target))) st.scope u b :=
    ⟨hfilters, ⟨k, root, hstemmed.isRoot, hb.symm⟩, hreads⟩
  refine ⟨⟨hstemmed.scope, hstemmed.chained.frame hdraw, ?_, hstemmed.kept,
    forall_mem_singleton.mpr fun _ k' hk' => ?_, (hstemmed.steps _).tail ?_⟩, htracks⟩
  · exact (hstemmed.frame.mono (fun _ => id) (by simp)).trans (hdraw.mono (by simp) fun _ hp => mem_singleton.mpr hp)
  · obtain rfl := sourceName_inj (Option.some.inj (hread.symm.trans hk'))
    refine ⟨root, hstemmed.isRoot, ?_, ?_⟩
    · show (root ++ st₂.scope.id.suffix, keyframeFilter st₂.scope (unitComparisons st₂.scope u) st₂.scope.current)
        ∈ st₂.prefixes
      rw [hstemmed.scope]
      exact hstemmed.mem
    · show _ = some (bindingFor st₂.scope (sourceName k) (root ++ st₂.scope.id.suffix) (unitComparisons st₂.scope u)).target
      rw [hstemmed.scope, hb]
      exact hreads
  · exact .redraw (mem_singleton_self _) ⟨mem_singleton_self u, htracks⟩ (redraws_withDataset (regular_target b))

/-- The stage of a bound unit with its scales fitted to its keyframes and its channels tweened. -/
def Stage.tweened (st : Stage) (u : ScopedUnit) (b : Binding) : Stage :=
  let rescaled := st.merge (rescale st u b)
  rescaled.merge (interpolate rescaled u b)

theorem Chained.unit (h : Chained base st i) (hid : st.scope.id.IsPath) (hfilters : st.scope.filtersOf u ≠ [])
    (hread : st.graph.reads u.path = some (sourceName k)) : ∃ bound b, bindKeyframes st i u = .ok (some (bound, b))
      ∧ ∀ st' ∈ [bound, bound.tweened u b], Animates base st i [u] st' ∧ Tracks st'.graph st.scope u b := by
  obtain ⟨bound, b, hbind, hanimates⟩ := h.bind hid hread
  obtain ⟨hbound, hbinds⟩ := hanimates hfilters
  have hu := mem_singleton_self u
  have hrescale := Frame.rescale hbound.chained.distinct u b
  have hrescaled := hbound.untouched hrescale (steps_rescale ⟨hu, hbound.scope ▸ hbinds⟩)
  have htracks := hbinds.congr (hrescale.reads _ id)
  have htween := Frame.interpolate hrescaled.chained.distinct u b
  have htweened := hrescaled.untouched htween (steps_interpolate ⟨hu, hrescaled.scope ▸ htracks⟩)
  refine ⟨bound, b, hbind, forall_mem_cons.mpr ⟨⟨hbound, hbinds⟩, forall_mem_singleton.mpr ⟨htweened, ?_⟩⟩⟩
  exact htracks.congr (htween.reads _ id)

/-! ## Runs over units -/

section Runs

variable {compiler : BaseCompiler} {docs docs' : List String} {us : List ScopedUnit}

theorem runs_compileUnits_cons {bound : Stage} (hfilters : st.scope.filtersOf u ≠ [])
    (hbind : bindKeyframes st i u = .ok (some (bound, b))) :
    Runs (compileUnits compiler i (u :: us) st) docs st' docs' ↔
      ∃ part docs₁, Runs (enterExit compiler (bound.tweened u b) u) docs part docs₁
        ∧ Runs (compileUnits compiler (i + 1) us ((bound.tweened u b).merge part)) docs₁ st' docs' := by
  rw [compileUnits, if_neg (by simpa using hfilters), hbind, runs_bind]
  constructor
  · rintro ⟨found, docs₁, hlift, hrun⟩
    obtain ⟨hfound, rfl⟩ := runs_liftM.mp hlift
    cases hfound
    exact runs_bind.mp hrun
  · exact fun hrun => ⟨_, docs, runs_liftM.mpr ⟨rfl, rfl⟩, runs_bind.mpr hrun⟩

theorem compileUnits_skip (hfilters : st.scope.filtersOf u = []) :
    compileUnits compiler i (u :: us) st = compileUnits compiler (i + 1) us st := by
  rw [compileUnits, if_pos (by simpa using hfilters)]

theorem Animates.enterExit {part : Graph} (h : Animates base st i [u] st₁) (htracks : Tracks st₁.graph st.scope u b)
    (hrun : Runs (Animation.enterExit compiler st₁ u) docs part docs') : Animates base st i [u] (st₁.merge part) :=
  h.untouched (.enterExit h.chained.distinct hrun)
    (steps_enterExit ⟨mem_singleton_self u, h.scope ▸ htracks⟩ hrun)

theorem Animates.reads_rest (h : Animates base st i [u] st₁) (hpaths : ((u :: us).map (·.path)).Nodup)
    (hreads : ∀ v ∈ u :: us, ∃ k, st.graph.reads v.path = some (sourceName k)) :
    ∀ v ∈ us, ∃ k, st₁.graph.reads v.path = some (sourceName k) := by
  intro v hv
  obtain ⟨k, hk⟩ := hreads v (mem_cons_of_mem u hv)
  refine ⟨k, (h.frame.reads v.path fun hmem => ?_).trans hk⟩
  have heq : v.path = u.path := by simpa using hmem
  exact (nodup_cons.mp hpaths).1 (mem_map.mpr ⟨v, hv, heq⟩)

theorem Chained.compileUnits (h : Chained base st i) (hid : st.scope.id.IsPath) (hpaths : (us.map (·.path)).Nodup)
    (hreads : ∀ u ∈ us, ∃ k, st.graph.reads u.path = some (sourceName k))
    (hrun : Runs (Animation.compileUnits compiler i us st) docs st' docs') : Animates base st i us st' := by
  induction us generalizing i st docs with
  | nil =>
    obtain ⟨rfl, -⟩ := runs_pure.mp hrun
    exact .nil h
  | cons u us ih =>
    have hpaths' := (nodup_cons.mp hpaths).2
    by_cases hfilters : st.scope.filtersOf u = []
    · rw [compileUnits_skip hfilters] at hrun
      have hskip := Animates.skip h hfilters
      exact hskip.trans (ih hskip.chained hid hpaths' (hskip.reads_rest hpaths hreads) hrun) hpaths
    · obtain ⟨k, hk⟩ := hreads u mem_cons_self
      obtain ⟨bound, b, hbind, hbound⟩ := h.unit hid hfilters hk
      obtain ⟨hanimates, htracks⟩ := hbound (bound.tweened u b) (by simp)
      obtain ⟨part, docs₁, hpart, hrun⟩ := (runs_compileUnits_cons hfilters hbind).mp hrun
      have hunit := hanimates.enterExit htracks hpart
      refine hunit.trans (ih hunit.chained ?_ hpaths' (hunit.reads_rest hpaths hreads) hrun) hpaths
      rw [hunit.scope]
      exact hid

theorem Chained.succeeds_compileUnits (h : Chained base st i) (hid : st.scope.id.IsPath) (hpaths : (us.map (·.path)).Nodup)
    (hreads : ∀ u ∈ us, ∃ k, st.graph.reads u.path = some (sourceName k))
    (hlooks : ∀ u ∈ us, st.scope.filtersOf u ≠ [] → ∀ st, Succeeds (enterExit compiler st u)) :
    Succeeds (Animation.compileUnits compiler i us st) := by
  induction us generalizing i st with
  | nil => exact .pure st
  | cons u us ih =>
    have hpaths' := (nodup_cons.mp hpaths).2
    obtain ⟨hlook, hlooks⟩ := forall_mem_cons.mp hlooks
    by_cases hfilters : st.scope.filtersOf u = []
    · rw [compileUnits_skip hfilters]
      exact ih (h.mono (Nat.le_succ i)) hid hpaths' (fun v hv => hreads v (mem_cons_of_mem u hv)) hlooks
    · intro docs
      obtain ⟨k, hk⟩ := hreads u mem_cons_self
      obtain ⟨bound, b, hbind, hbound⟩ := h.unit hid hfilters hk
      obtain ⟨hanimates, htracks⟩ := hbound (bound.tweened u b) (by simp)
      obtain ⟨part, docs₁, hpart⟩ := hlook hfilters (bound.tweened u b) docs
      have hunit := hanimates.enterExit htracks hpart
      obtain ⟨st', docs', hrun⟩ := ih hunit.chained (hunit.scope ▸ hid) hpaths' (hunit.reads_rest hpaths hreads)
        (fun v hv hne => hlooks v hv (by rw [← hunit.scope]; exact hne)) docs₁
      exact ⟨st', docs', (runs_compileUnits_cons hfilters hbind).mpr ⟨part, docs₁, hpart, hrun⟩⟩

end Runs

end AnimatedChart.Animation

import AnimatedChart.Proofs.Animation.MarkOrder

/-!
# Names stay unique

Whatever base compiler there is, animation only merges parts into the graph that it starts from
(`compileScopes_invariant`), and merging keeps names apart.
-/

open List

namespace AnimatedChart.Animation

open Json Spec

variable {I : Graph → Prop} {base : BaseCompiler} {docs docs' : List String} {g g' : Graph} {st st' : Stage}

/-! ## Merging is all there is -/

theorem signals_editUnitMark (g : Graph) (path : String) (f : Mark → Mark) : (g.editUnitMark path f).signals = [] := by
  rcases g.editUnitMark_cases path f with ⟨-, hpart⟩ | ⟨_, _, _, -, -, -, hpart⟩ <;> rw [hpart]

theorem signals_rescale (st : Stage) (u : ScopedUnit) (b : Binding) : (rescale st u b).signals = [] := by
  unfold rescale
  split <;> rfl

theorem signals_interpolate (st : Stage) (u : ScopedUnit) (b : Binding) : (interpolate st u b).signals = [] := by
  unfold interpolate
  split
  · rfl
  · exact signals_editUnitMark _ _ _

theorem signals_enterExit {u : ScopedUnit} {part : Graph} (hrun : Runs (enterExit base st u) docs part docs') :
    part.signals = [] := by
  obtain ⟨enter, docs₁, -, hrun⟩ := runs_bind.mp hrun
  obtain ⟨exit, docs₂, -, hrun⟩ := runs_bind.mp hrun
  split at hrun
  · obtain ⟨rfl, -⟩ := runs_pure.mp hrun
    rfl
  · obtain ⟨rfl, -⟩ := runs_pure.mp hrun
    exact signals_editUnitMark _ _ _

section

-- Marks, datasets and scales are merged without signals; only a clock and its selections bring these.
variable (hI : ∀ g part, part.signals = [] → I g → I (g.merge part))

include hI

theorem bridgeOne_invariant (s : Scope) (as : List Selection) (acc : Graph × Graph) (hacc : I acc.1) :
    I (as.foldl (bridgeOne s) acc).1 := by
  have hunits (us : List ScopedUnit) (acc : Graph × List Scale) (hacc : I acc.1) : I (us.foldl (bindUnit s) acc).1 := by
    induction us generalizing acc with
    | nil => exact hacc
    | cons u us ih =>
      refine ih _ ?_
      unfold bindUnit
      split
      · exact hacc
      · exact hI _ _ (signals_editUnitMark _ _ _) hacc
  have hone (acc : Graph × Graph) (a : Selection) (hacc : I acc.1) : I (bridgeOne s acc a).1 := by
    unfold bridgeOne
    dsimp only
    split
    · exact hacc
    · exact hacc
    · exact hunits s.units (acc.1, []) hacc
  induction as generalizing acc with
  | nil => exact hacc
  | cons a as ih => exact ih _ (hone acc a hacc)

theorem bindKeyframes_invariant {i : Nat} {u : ScopedUnit} {b : Binding}
    (h : bindKeyframes st i u = .ok (some (st', b))) (hst : I st.graph) : I st'.graph := by
  obtain ⟨m, -, stem, fresh, st₁, hstem, -, st₂, hst₂, rfl⟩ := bindKeyframes_cases h
  have hst₁ : I st₁.graph := by
    have hgraph := st.graph_stemFor m.dataset (keyframeFilter st.scope (unitComparisons st.scope u) st.scope.current) i
    rw [hstem] at hgraph
    exact hgraph ▸ hst
  refine hI _ _ (signals_editUnitMark _ _ _) ?_
  rw [hst₂]
  split
  · exact hI _ _ rfl hst₁
  · exact hst₁

theorem compileUnits_invariant {i : Nat} {us : List ScopedUnit} (hrun : Runs (compileUnits base i us st) docs st' docs')
    (hst : I st.graph) : I st'.graph := by
  induction us generalizing i st docs with
  | nil =>
    obtain ⟨rfl, -⟩ := runs_pure.mp hrun
    exact hst
  | cons u us ih =>
    rw [compileUnits] at hrun
    split at hrun
    · exact ih hrun hst
    · obtain ⟨bound, docs₁, hlift, hrun⟩ := runs_bind.mp hrun
      obtain ⟨hbound, rfl⟩ := runs_liftM.mp hlift
      obtain _ | ⟨st₁, b⟩ := bound
      · exact ih hrun hst
      · obtain ⟨part, docs₂, hpart, hrun⟩ := runs_bind.mp hrun
        refine ih hrun (hI _ _ (signals_enterExit hpart) (hI _ _ (signals_interpolate _ _ _) ?_))
        exact hI _ _ (signals_rescale _ _ _) (bindKeyframes_invariant hI hbound hst)

end

section

variable (hI : ∀ g part, I g → I (g.merge part))

include hI

theorem withClock_invariant (hst : I st.graph) : I st.withClock.graph :=
  hI _ _ (bridgeOne_invariant (fun g part _ => hI g part) _ _ _ (hI _ _ (hI _ _ (hI _ _ hst))))

theorem compileScope_invariant {s : Scope} (hrun : Runs (compileScope base g s) docs g' docs') (hg : I g) : I g' := by
  rcases compileScope_cases hrun with ⟨-, rfl⟩ | ⟨first, -, st, st', hstart, hunits, rfl⟩
  · exact hg
  · obtain rfl := start_eq hstart
    exact compileUnits_invariant (fun g part _ => hI g part) hunits (withClock_invariant hI hg)

theorem compileScopes_invariant {ss : List Scope} (hrun : Runs (compileScopes base ss g) docs g' docs') (hg : I g) :
    I g' := by
  induction ss generalizing g docs with
  | nil =>
    obtain ⟨rfl, -⟩ := runs_pure.mp hrun
    exact hg
  | cons s ss ih =>
    obtain ⟨g₁, docs₁, hscope, hrun⟩ := runs_bind.mp hrun
    exact ih hrun (compileScope_invariant hI hscope hg)

end

variable {named unnamed marks : List Mark} {names order : List String}

theorem mem_arrange_cases {m : Mark} (h : m ∈ arrange named names unnamed) : m.name ∈ names ∨ m ∈ unnamed := by
  fun_induction arrange named names unnamed with
  | case1 => exact .inr h
  | case2 names ih => exact (ih h).imp_left (mem_cons_of_mem _)
  | case3 names m' unnamed ih =>
    rcases mem_cons.mp h with rfl | h
    · exact .inr mem_cons_self
    · exact (ih h).imp (mem_cons_of_mem _) (mem_cons_of_mem _)
  | case4 name names unnamed _ _ m' hm' ih =>
    rcases mem_cons.mp h with rfl | h
    · rw [eq_of_beq (find?_some (p := fun m : Mark => m.name == name) hm')]
      exact .inl mem_cons_self
    · exact (ih h).imp_left (mem_cons_of_mem _)
  | case5 name names unnamed _ _ _ ih => exact (ih h).imp_left (mem_cons_of_mem _)

theorem unshared_arrange (hnames : names.Pairwise fun a b => a = b → a = "") (hunnamed : ∀ m ∈ unnamed, m.name = "") :
    Named.Unshared (arrange named names unnamed) := by
  fun_induction arrange named names unnamed with
  | case1 unnamed => exact pairwise_iff_getElem.mpr fun _ _ hi _ _ _ => hunnamed _ (getElem_mem hi)
  | case2 names ih => exact ih (pairwise_cons.mp hnames).2 hunnamed
  | case3 names m unnamed ih =>
    obtain ⟨hm, hunnamed⟩ := forall_mem_cons.mp hunnamed
    exact pairwise_cons.mpr ⟨fun _ _ _ => hm, ih (pairwise_cons.mp hnames).2 hunnamed⟩
  | case4 name names unnamed _ _ m hm ih =>
    obtain ⟨hname, hnames⟩ := pairwise_cons.mp hnames
    have hfound : m.name = name := eq_of_beq (find?_some (p := fun m : Mark => m.name == name) hm)
    refine pairwise_cons.mpr ⟨fun m' hm' heq => ?_, ih hnames hunnamed⟩
    have heq : m.name = m'.name := heq
    show m.name = ""
    rcases mem_arrange_cases hm' with hm' | hm'
    · exact hfound.trans (hname m'.name hm' (hfound.symm.trans heq))
    · exact heq.trans (hunnamed m' hm')
  | case5 name names unnamed _ _ _ ih => exact ih (pairwise_cons.mp hnames).2 hunnamed

theorem unshared_restoreOrder (horder : order.Pairwise fun a b => a = b → a = "") (hmarks : Named.Unshared marks) :
    Named.Unshared (restoreOrder order marks) := by
  have hunnamed : ∀ m ∈ marks.filter (·.name.isEmpty), m.name = "" := fun m hm =>
    String.isEmpty_iff.mp (mem_filter.mp hm).2
  refine pairwise_append.mpr ⟨unshared_arrange horder hunnamed, hmarks.sublist filter_sublist, ?_⟩
  intro m hm m' hm' heq
  rcases mem_arrange_cases hm with hm | hm
  · have hnew := (Bool.and_eq_true_iff.mp (mem_filter.mp hm').2).2
    have heq : m.name = m'.name := heq
    rw [heq] at hm
    simp [hm] at hnew
  · exact hunnamed m hm

/-! ## Compiled charts -/

/-- A graph whose entries are read under the names that they are written with: what it holds can be written, and no
further member is spelled like a field of the graph or like the name of a mark. -/
structure Legible (g : Graph) : Prop where
  proper : g.toFragment.Proper
  others : Foreign Graph.names g.others
  data : ∀ d ∈ g.data, Dict.Sorted d.others
  signals : ∀ x ∈ g.signals, Dict.Sorted x.others
  scales : ∀ c ∈ g.scales, Dict.Sorted c.others
  marks : ∀ m ∈ g.marks, Dict.Sorted m.others ∧ ∀ e ∈ m.others, Reader.foldName "name" ≠ Reader.foldName e.1

theorem unshared_of_names {α : Type} [Named α] {xs ys : List α} (h : Named.Unshared xs)
    (hnames : ys.map Named.nameOf = xs.map Named.nameOf) : Named.Unshared ys := by
  have hpairwise : (xs.map Named.nameOf).Pairwise fun a b => a = b → a = "" := pairwise_map.mpr h
  rw [← hnames] at hpairwise
  exact pairwise_map.mp hpairwise

theorem Legible.unshared_normalize (h : Legible g) (hnormalize : normalize (some g) = .ok g') (hg : g.Unshared) :
    g'.Unshared := by
  obtain ⟨text, hencode, hparse⟩ := bind_eq_ok.mp hnormalize
  obtain ⟨hdata, hsignals, hscales, hmarks⟩ := Graph.names_parse h.proper h.others (mapError_eq_ok.mp hencode)
    (mapError_eq_ok.mp hparse)
  exact ⟨unshared_of_names hg.data (hdata h.data), unshared_of_names hg.signals (hsignals h.signals),
    unshared_of_names hg.scales (hscales h.scales), unshared_of_names hg.marks (hmarks h.marks)⟩

/-- Of the graph that a chart is compiled to, no two datasets, signals, scales or top-level marks share a name, if that is
so of the base graph as it comes back when it is written and read. Where the base graph is legible, that is so if its own
entries share no name. -/
theorem unshared_compileElaborated {c : Chart} {out : Graph} (hrun : Runs (compileElaborated base c) docs out docs') :
    ∃ g₀ g, base.compile docs.length c.static.render = .ok (some g₀) ∧ normalize (some g₀) = .ok g
      ∧ (g.Unshared → out.Unshared) ∧ (Legible g₀ → g₀.Unshared → out.Unshared) := by
  obtain ⟨g, docs₁, animated, hg, hanimated, rfl⟩ := runs_compileElaborated hrun
  obtain ⟨-, g₀, hcompile, hnormalize⟩ := runs_lowerStatic_iff.mp hg
  have hout (hunshared : g.Unshared) : Graph.Unshared { animated with
      marks := restoreOrder (g.marks.map (·.name)) animated.marks } := by
    have hanimated := compileScopes_invariant (fun _ part h => h.merge part) hanimated hunshared
    exact { hanimated with marks := unshared_restoreOrder (pairwise_map.mpr hunshared.marks) hanimated.marks }
  exact ⟨g₀, g, hcompile, hnormalize, hout, fun hlegible hunshared =>
    hout (hlegible.unshared_normalize hnormalize hunshared)⟩

theorem legible_compile {size : Lowering.Size} {doc : String} (h : Lowering.compile size doc = .ok g)
    (hsignals : ∀ x ∈ g.signals, x.others = []) : Legible g := by
  obtain ⟨hrestorable, -⟩ := Lowering.drawn_compile h
  obtain ⟨c, -, htidy⟩ := Lowering.tidy_compile h
  have htidy := htidy _ (Lowering.suppliedBy_true _)
  exact {
    proper := Graph.proper_toFragment hrestorable
    others := hrestorable.others
    data := fun d hd => (htidy.data d hd).others.sorted
    signals := fun x hx => hsignals x hx ▸ Dict.Sorted.nil
    scales := fun x hx => (htidy.scales x hx).sorted
    marks := fun m hm => by
      have hothers := (Mark.all_iff.mp (hrestorable.marks m hm)).1.others
      exact ⟨hothers.sorted, fun e he heq => hothers.foreign e he "name" (by decide) heq.symm⟩ }

theorem unshared_movedLines :
    ∃ c g₀ out docs, Chart.parse movedLines.pretty = .ok c
      ∧ (∃ s ∈ c.elaborate.scopes, s.selections.map (·.name) = ["frame", "past"])
      ∧ Runs (compileElaborated Adapter.reference.base c.elaborate) [] out docs
      ∧ Adapter.reference.base.compile 0 c.elaborate.static.render = .ok (some g₀)
      ∧ Legible g₀ ∧ g₀.Unshared ∧ out.Unshared := by
  have hnames : ∃ c ∈ unitOf? movedLines, (∃ s ∈ c.elaborate.scopes, s.selections.map (·.name) = ["frame", "past"])
      ∧ ∃ g₀ ∈ base? c.elaborate, (∀ x ∈ g₀.signals, x.others = []) ∧ (g₀.data.map (·.name)).Nodup
        ∧ (g₀.signals.map (·.name)).Nodup ∧ (g₀.scales.map (·.name)).Nodup ∧ (g₀.marks.map (·.name)).Nodup := by
    decide +kernel
  obtain ⟨c, hc, hselections, g₀, hg₀, hothers, hdata, hsignals, hscales, hmarks⟩ := hnames
  obtain ⟨c', out, hc', hout⟩ := exists_movedLines
  obtain rfl := Option.some.inj (hc.symm.trans hc')
  have hcompile := compile_of_base hg₀
  have hlegible := legible_compile hcompile hothers
  have hunshared : g₀.Unshared := ⟨Named.unshared_of_nodup hdata, Named.unshared_of_nodup hsignals,
    Named.unshared_of_nodup hscales, Named.unshared_of_nodup hmarks⟩
  have hparse := parse_of_unitOf hc
  obtain ⟨docs, hrun⟩ := runs_of_compileDocument hparse hout
  have hbase : Adapter.reference.base.compile 0 c.elaborate.static.render = .ok (some g₀) :=
    congrArg (Except.map some) hcompile
  refine ⟨c, g₀, out, docs, hparse, hselections, hrun, hbase, hlegible, hunshared, ?_⟩
  obtain ⟨g₁, g, hg₁, -, -, hout⟩ := unshared_compileElaborated hrun
  obtain rfl := Option.some.inj (Except.ok.inj (hbase.symm.trans hg₁))
  exact hout hlegible hunshared

end AnimatedChart.Animation

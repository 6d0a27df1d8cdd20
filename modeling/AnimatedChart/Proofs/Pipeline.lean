import AnimatedChart.Pipeline.Basic
import AnimatedChart.Proofs.Session

/-!
# What the pipeline keeps

Of a document the pipeline keeps the elaborated chart and the graph, each by itself. A chart that was kept need not be
compiled to the same graph as the chart that was elaborated just now, yet a graph that was once kept is never replaced
by another (`Kept.made`).
-/

open AnimatedChart.Session

namespace AnimatedChart

open Spec (Chart)

variable {d t : String} {k : Cache.Keyer}

def Graph.Stable (g : Graph) : Prop :=
  ∀ t, g.encode = .ok t → ∃ g', Graph.parse t = .ok g' ∧ g'.encode = .ok t

namespace Pipeline

variable {base : Animation.BaseCompiler} {doc : String} {refresh : Bool}

def graphText? (base : Animation.BaseCompiler) (c : Chart) : Option String :=
  ((graphOf base c).bind Graph.encode).toOption

theorem graphText?_eq_some {c : Chart} :
    graphText? base c = some t ↔ ∃ g, graphOf base c = .ok g ∧ g.encode = .ok t := by
  rw [graphText?, toOption_eq_some]
  exact bind_eq_ok

/-! ## One document -/

/-- The charts that a document is compiled from: its elaboration, or what is read from the text of that. -/
def Source (doc : String) (c : Chart) : Prop :=
  ∃ c₀, Chart.parse doc = .ok c₀ ∧ (c = c₀.elaborate ∨ ∃ t, c₀.elaborate.encode = .ok t ∧ Chart.parse t = .ok c)

/-- What may be kept of a document: the text of its elaboration, and the text of a graph. -/
structure Kept (base : Animation.BaseCompiler) (doc : String) (chart? graph? : Option String) : Prop where
  chart : ∀ t, chart? = some t → ∃ c, Chart.parse doc = .ok c ∧ c.elaborate.encode = .ok t
  tried : chart?.isSome = true → graph? = none → ∀ c, Chart.parse doc = .ok c → graphText? base c.elaborate = none
  reread : ∀ t, graph? = some t → ∃ g, Graph.parse t = .ok g ∧ g.encode = .ok t
  same : ∀ t, graph? = some t → ∀ c, Chart.parse doc = .ok c → ∀ t', graphText? base c.elaborate = some t' → t' = t

/-- How a document comes to its chart, and what text of a chart is kept then. -/
inductive Elaborates (doc : String) (refresh : Bool) (chart? : Option String) : Chart → Option String → Prop
  | kept {t : String} {c : Chart} (hrefresh : refresh = false) (ht : chart? = some t) (hc : Chart.parse t = .ok c) :
    Elaborates doc refresh chart? c chart?
  | made {c : Chart} (hc : Chart.parse doc = .ok c) :
    Elaborates doc refresh chart? c.elaborate (c.elaborate.encode.toOption.or chart?)

variable {chart? chart?' graph? : Option String} {c : Chart}

theorem Kept.none : Kept base doc none none where
  chart := by simp
  tried := by simp
  reread := by simp
  same := by simp

theorem Kept.source (h : Kept base doc chart? graph?) (hc : Elaborates doc refresh chart? c chart?') : Source doc c := by
  cases hc with
  | kept hrefresh ht hc =>
    obtain ⟨c₀, hc₀, hencode⟩ := h.chart _ ht
    exact ⟨c₀, hc₀, .inr ⟨_, hencode, hc⟩⟩
  | made hc => exact ⟨_, hc, .inl rfl⟩

theorem Kept.chart_of_elaborates (h : Kept base doc chart? graph?) (hc : Elaborates doc refresh chart? c chart?') :
    ∀ t, chart?' = some t → ∃ c, Chart.parse doc = .ok c ∧ c.elaborate.encode = .ok t := by
  cases hc with
  | kept => exact h.chart
  | made hc =>
    intro t ht
    rcases Option.or_eq_some_iff.mp ht with ht | ⟨-, ht⟩
    · exact ⟨_, hc, toOption_eq_some.mp ht⟩
    · exact h.chart t ht

theorem Kept.found (h : Kept base doc chart? graph?) (hc : Elaborates doc refresh chart? c chart?')
    (ht : graph? = some t) : Kept base doc chart?' graph? where
  chart := h.chart_of_elaborates hc
  tried := by
    intro _ hnone
    rw [ht] at hnone
    cases hnone
  reread := h.reread
  same := h.same

theorem Kept.made (h : Kept base doc chart? graph?) (hc : Elaborates doc refresh chart? c chart?')
    (hnew : refresh = true ∨ graph? = Option.none) (hstable : ∀ g, graphOf base c = .ok g → g.Stable) :
    Kept base doc chart?' ((graphText? base c).or graph?)
      ∧ ∀ t, graph? = some t → (graphText? base c).or graph? = some t := by
  have hreread : ∀ t, (graphText? base c).or graph? = some t → ∃ g, Graph.parse t = .ok g ∧ g.encode = .ok t := by
    intro t ht
    rcases Option.or_eq_some_iff.mp ht with ht | ⟨-, ht⟩
    · obtain ⟨g, hg, hencode⟩ := graphText?_eq_some.mp ht
      exact hstable g hg t hencode
    · exact h.reread t ht
  have hchart := h.chart_of_elaborates hc
  cases hc with
  | kept hrefresh htext hparse =>
    -- The chart was kept, so that it has been compiled when it was elaborated, and there was no graph.
    obtain rfl := hnew.resolve_left (by rw [hrefresh]; exact Bool.noConfusion)
    have hfailed := h.tried (by rw [htext]; rfl) rfl
    refine ⟨⟨hchart, fun _ _ => hfailed, hreread, fun t _ c₀ hc₀ t' ht' => ?_⟩, by simp⟩
    rw [hfailed c₀ hc₀] at ht'
    cases ht'
  | made hparse =>
    have hunique : ∀ c₀, Chart.parse doc = .ok c₀ → c₀ = _ := fun c₀ hc₀ => Except.ok.inj (hc₀.symm.trans hparse)
    refine ⟨⟨hchart, fun _ hnone c₀ hc₀ => ?_, hreread, fun t ht c₀ hc₀ t' ht' => ?_⟩, fun t ht => ?_⟩
    · rw [hunique c₀ hc₀]
      exact (Option.or_eq_none_iff.mp hnone).1
    · rw [hunique c₀ hc₀] at ht'
      rw [ht'] at ht
      exact Option.some.inj ht
    · cases htext : graphText? base _ with
      | none => exact ht
      | some t' => rw [h.same t ht _ hparse t' htext]; rfl

section

variable {s s' : Session} {asked : Set Cache.Request} {times : Set Instant} {request : Cache.Request}

theorem run_elaborateAnew (h : s.Lasting asked times) (hr : request ∈ asked) (hlate : s.Outlasts times) (doc : String) :
    ∃ s', s.run (elaborateAnew request doc) = ((Chart.parse doc).map Chart.elaborate, s')
      ∧ s.Passes asked times request (((Chart.parse doc).map Chart.elaborate).bind Chart.encode).toOption s' := by
  unfold elaborateAnew
  cases Chart.parse doc with
  | error e => exact ⟨_, rfl, h.passes rfl rfl rfl rfl⟩
  | ok c => exact run_tell_keepText h hr hlate _ c.elaborate.encode c.elaborate

theorem run_compileAnew (h : s.Lasting asked times) (hr : request ∈ asked) (hlate : s.Outlasts times) (c : Chart) :
    ∃ s', s.run (compileAnew request c base) = (graphOf base c, s')
      ∧ s.Passes asked times request (graphText? base c) s' := by
  unfold compileAnew graphText?
  rw [run_bind, run_tell]
  dsimp only
  cases graphOf base c with
  | error e => exact ⟨_, rfl, h.passes rfl rfl rfl rfl⟩
  | ok g =>
    obtain ⟨s', hrun, hpass⟩ := run_tell_keepText (h.told (.compiling base.name)) hr hlate
      (.compiled base.name g.signals.length false) g.encode g
    exact ⟨s', hrun, hpass.after_told⟩

theorem run_elaborate (h : s.Lasting asked times) (hr : .elaborated (s.keyer.digest doc) ∈ asked)
    (hnow : s.now ∈ times) (hlate : s.Outlasts times) (refresh : Bool) :
    ∃ s' text?, s.Passes asked times (.elaborated (s.keyer.digest doc)) text? s'
      ∧ ((∃ e, s.run (elaborate doc refresh) = (.error e, s') ∧ text? = none)
        ∨ ∃ c, s.run (elaborate doc refresh) = (.ok c, s')
          ∧ Elaborates doc refresh (s.kept? (.elaborated (s.keyer.digest doc))) c
            (text?.or (s.kept? (.elaborated (s.keyer.digest doc))))) := by
  obtain ⟨c?, s₁, hremembered, hpass, hfound, -⟩ := run_remembered h hr hnow Chart.parse refresh
  unfold elaborate
  rw [run_bind, run_get]
  dsimp only
  rw [run_bind, hremembered]
  cases c? with
  | some c =>
    obtain ⟨hrefresh, t, ht, hc⟩ := hfound c rfl
    exact ⟨s₁, none, hpass, .inr ⟨c, rfl, .kept hrefresh ht hc⟩⟩
  | none =>
    obtain ⟨s', hrun, hpass'⟩ := run_elaborateAnew hpass.lasting hr (hpass.outlasts hlate) doc
    refine ⟨s', _, hpass.trans hpass', ?_⟩
    dsimp only
    rw [hrun]
    cases hparse : Chart.parse doc with
    | error e => exact .inl ⟨e, rfl, rfl⟩
    | ok c => exact .inr ⟨c.elaborate, rfl, .made hparse⟩

theorem run_compile {document : String} (h : s.Lasting asked times) (hr : .compiled document base.name ∈ asked)
    (hnow : s.now ∈ times) (hlate : s.Outlasts times) (c : Chart) (refresh : Bool) :
    ∃ s' text?, s.Passes asked times (.compiled document base.name) text? s'
      ∧ ((∃ t g, s.kept? (.compiled document base.name) = some t ∧ Graph.parse t = .ok g ∧ text? = none
          ∧ s.run (compile document c base refresh) = (.ok (g, true), s'))
        ∨ ((refresh = true ∨ ∀ t, s.kept? (.compiled document base.name) = some t → ∀ g, Graph.parse t ≠ .ok g)
          ∧ text? = graphText? base c
          ∧ s.run (compile document c base refresh) = ((graphOf base c).map (·, false), s'))) := by
  obtain ⟨g?, s₁, hremembered, hpass, hfound, hnew⟩ := run_remembered h hr hnow Graph.parse refresh
  unfold compile
  dsimp only
  rw [run_bind, hremembered]
  cases g? with
  | some g =>
    obtain ⟨-, t, ht, hg⟩ := hfound g rfl
    exact ⟨s₁, none, hpass, .inl ⟨t, g, ht, hg, rfl, rfl⟩⟩
  | none =>
    obtain ⟨s', hrun, hpass'⟩ := run_compileAnew hpass.lasting hr (hpass.outlasts hlate) c
    refine ⟨s', _, hpass.trans hpass', .inr ⟨hnew rfl, rfl, ?_⟩⟩
    dsimp only
    rw [run_bind, hrun]
    cases graphOf base c <;> rfl

end

/-! ## Whole runs -/

def requests (k : Cache.Keyer) (base : Animation.BaseCompiler) (docs : Set String) : Set Cache.Request :=
  { r | ∃ d ∈ docs, r = .elaborated (k.digest d) ∨ r = .compiled (k.digest d) base.name }

def chartKept? (s : Session) (doc : String) : Option String := s.kept? (.elaborated (s.keyer.digest doc))

def graphKept? (base : Animation.BaseCompiler) (s : Session) (doc : String) : Option String :=
  s.kept? (.compiled (s.keyer.digest doc) base.name)

/-- A session keeps charts and graphs of some documents, and they agree. -/
structure Agrees (base : Animation.BaseCompiler) (docs : Set String) (times : Set Instant) (s : Session) : Prop where
  lasting : s.Lasting (requests s.keyer base docs) times
  digest : Set.InjOn s.keyer.digest docs
  kept : ∀ d ∈ docs, Kept base d (chartKept? s d) (graphKept? base s d)

/-- A session goes on from another, and all graphs that were kept still are. -/
structure Continues (base : Animation.BaseCompiler) (docs : Set String) (s s' : Session) : Prop where
  keyer : s'.keyer = s.keyer
  ttl : s'.ttl = s.ttl
  graphs : ∀ d ∈ docs, ∀ t, graphKept? base s d = some t → graphKept? base s' d = some t

variable {docs : Set String} {times : Set Instant} {s s₁ s₂ : Session} {text? text?' : Option String}

theorem mem_requests_elaborated (hd : doc ∈ docs) : .elaborated (k.digest doc) ∈ requests k base docs :=
  ⟨doc, hd, .inl rfl⟩

theorem mem_requests_compiled (hd : doc ∈ docs) : .compiled (k.digest doc) base.name ∈ requests k base docs :=
  ⟨doc, hd, .inr rfl⟩

theorem kept_of_passes_elaborated (hinj : Set.InjOn s.keyer.digest docs) (hd : doc ∈ docs)
    (h : s.Passes (requests s.keyer base docs) times (.elaborated (s.keyer.digest doc)) text? s₁) (hd' : d ∈ docs) :
    chartKept? s₁ d = (if d = doc then text?.or (chartKept? s d) else chartKept? s d)
      ∧ graphKept? base s₁ d = graphKept? base s d := by
  constructor
  · rw [chartKept?, h.keyer, h.kept _ (mem_requests_elaborated hd')]
    simp only [Cache.Request.elaborated.injEq, hinj.eq_iff hd' hd]
    rfl
  · rw [graphKept?, h.keyer, h.kept _ (mem_requests_compiled hd')]
    simp only [reduceCtorEq, if_false]
    rfl

theorem kept_of_passes_compiled (hinj : Set.InjOn s.keyer.digest docs) (hd : doc ∈ docs)
    (h : s.Passes (requests s.keyer base docs) times (.compiled (s.keyer.digest doc) base.name) text? s₁)
    (hd' : d ∈ docs) : chartKept? s₁ d = chartKept? s d
      ∧ graphKept? base s₁ d = if d = doc then text?.or (graphKept? base s d) else graphKept? base s d := by
  constructor
  · rw [chartKept?, h.keyer, h.kept _ (mem_requests_elaborated hd')]
    simp only [reduceCtorEq, if_false]
    rfl
  · rw [graphKept?, h.keyer, h.kept _ (mem_requests_compiled hd')]
    simp only [Cache.Request.compiled.injEq, and_true, hinj.eq_iff hd' hd]
    rfl

theorem Agrees.step (h : Agrees base docs times s) (hd : doc ∈ docs)
    (hsettled : s.Passes (requests s.keyer base docs) times (.elaborated (s.keyer.digest doc)) text? s₁)
    (hcomp : s₁.Passes (requests s.keyer base docs) times (.compiled (s.keyer.digest doc) base.name) text?' s₂)
    (hkept : Kept base doc (text?.or (chartKept? s doc)) (text?'.or (graphKept? base s doc)))
    (hgraph : ∀ t, graphKept? base s doc = some t → text?'.or (graphKept? base s doc) = some t) :
    Agrees base docs times s₂ ∧ Continues base docs s s₂
      ∧ graphKept? base s₂ doc = text?'.or (graphKept? base s doc) := by
  have hkeyer : s₂.keyer = s.keyer := hcomp.keyer.trans hsettled.keyer
  have hfinal : ∀ d ∈ docs, chartKept? s₂ d = (if d = doc then text?.or (chartKept? s d) else chartKept? s d)
      ∧ graphKept? base s₂ d = if d = doc then text?'.or (graphKept? base s d) else graphKept? base s d := by
    intro d hd'
    obtain ⟨hchart₁, hgraph₁⟩ := kept_of_passes_elaborated h.digest hd hsettled hd'
    rw [← hsettled.keyer] at hcomp
    obtain ⟨hchart₂, hgraph₂⟩ := kept_of_passes_compiled (hsettled.keyer ▸ h.digest) hd hcomp hd'
    rw [hchart₂, hgraph₂, hchart₁, hgraph₁]
    exact ⟨rfl, rfl⟩
  refine ⟨⟨hkeyer ▸ hcomp.lasting, hkeyer ▸ h.digest, fun d hd' => ?_⟩, ⟨hkeyer, hcomp.ttl.trans hsettled.ttl,
    fun d hd' t ht => ?_⟩, ?_⟩
  · obtain ⟨hchart, hgraphs⟩ := hfinal d hd'
    rw [hchart, hgraphs]
    by_cases heq : d = doc
    · subst heq
      rw [if_pos rfl, if_pos rfl]
      exact hkept
    · rw [if_neg heq, if_neg heq]
      exact h.kept d hd'
  · rw [(hfinal d hd').2]
    by_cases heq : d = doc
    · subst heq
      rw [if_pos rfl]
      exact hgraph t ht
    · rw [if_neg heq]
      exact ht
  · rw [(hfinal doc hd).2, if_pos rfl]

theorem Agrees.told (h : Agrees base docs times s) (e : Event) :
    Agrees base docs times { s with events := s.events ++ [e] } :=
  ⟨h.lasting.told e, h.digest, h.kept⟩

theorem Continues.told (h : Continues base docs s s₁) (e : Event) :
    Continues base docs s { s₁ with events := s₁.events ++ [e] } :=
  ⟨h.keyer, h.ttl, h.graphs⟩

theorem run_conclude (s : Session) (document : String) (c : Chart) (g : Graph) (cached check : Bool) :
    ∃ result e, s.run (conclude document c g cached check) = (result, { s with events := s.events ++ [e] })
      ∧ ∀ r, result = .ok r → r.document = document ∧ r.graph = g := by
  unfold conclude
  dsimp only
  rw [run_bind, run_tell]
  dsimp only
  cases if check then (Dependency.Dependencies.ofGraph g).error? else none with
  | some e => exact ⟨_, _, rfl, by simp⟩
  | none =>
    refine ⟨_, _, rfl, fun r hr => ?_⟩
    cases hr
    exact ⟨rfl, rfl⟩

theorem Agrees.run_executeWith (h : Agrees base docs times s) (hd : doc ∈ docs) (hnow : s.now ∈ times)
    (hlate : s.Outlasts times) (hstable : ∀ c, Source doc c → ∀ g, graphOf base c = .ok g → g.Stable)
    (check refresh : Bool) :
    ∃ result s', s.run (executeWith base doc check refresh) = (result, s') ∧ Agrees base docs times s'
      ∧ Continues base docs s s' ∧ ∀ r, result = .ok r → r.document = s.keyer.digest doc
        ∧ ∀ t, r.graph.encode = .ok t → graphKept? base s' doc = some t := by
  obtain ⟨s₁, text?, hpass₁, hchart⟩ := run_elaborate h.lasting (mem_requests_elaborated hd) hnow hlate refresh
  unfold executeWith
  rw [run_bind, run_get]
  dsimp only
  rw [run_bind, run_within]
  rcases hchart with ⟨e, hrun₁, rfl⟩ | ⟨c, hrun₁, hsettled⟩
  · -- The document cannot be read, and nothing has changed.
    obtain ⟨hagrees, hcontinues, -⟩ := h.step hd hpass₁ (hpass₁.lasting.passes rfl rfl rfl rfl)
      (by rw [Option.none_or, Option.none_or]; exact h.kept doc hd) (fun t ht => ht)
    rw [hrun₁]
    exact ⟨_, _, rfl, hagrees, hcontinues, by simp⟩
  have hgraph₁ : s₁.kept? (.compiled (s.keyer.digest doc) base.name) = graphKept? base s doc := by
    rw [← (kept_of_passes_elaborated h.digest hd hpass₁ hd).2, graphKept?, hpass₁.keyer]
  obtain ⟨s₂, text?', hpass₂, hgraph⟩ := run_compile hpass₁.lasting (mem_requests_compiled hd)
    (by rw [hpass₁.now]; exact hnow) (hpass₁.outlasts hlate) c refresh
  rw [hgraph₁] at hgraph
  rw [hrun₁]
  dsimp only [Except.mapError]
  rw [run_bind, run_within]
  rcases hgraph with ⟨t, g, ht, hg, rfl, hrun₂⟩ | ⟨hnew, rfl, hrun₂⟩
  · obtain ⟨hagrees, hcontinues, hfinal⟩ := h.step hd hpass₁ hpass₂ ((h.kept doc hd).found hsettled ht) (fun t ht => ht)
    obtain ⟨result, e, hrun, hresult⟩ := run_conclude s₂ (s.keyer.digest doc) c g true check
    refine ⟨result, _, ?_, hagrees.told e, hcontinues.told e, fun r hr => ?_⟩
    · rw [hrun₂]
      exact hrun
    · -- The graph was read from what is kept, and is written as it was.
      obtain ⟨hdocument, rfl⟩ := hresult r hr
      obtain ⟨g', hg', hencode⟩ := (h.kept doc hd).reread t ht
      obtain rfl := Except.ok.inj (hg'.symm.trans hg)
      refine ⟨hdocument, fun t' ht' => ?_⟩
      obtain rfl := Except.ok.inj (hencode.symm.trans ht')
      exact hfinal.trans ht
  · have hnone : refresh = true ∨ graphKept? base s doc = none := by
      refine hnew.imp_right fun hunread => Option.eq_none_iff_forall_ne_some.mpr fun t ht => ?_
      obtain ⟨g, hg, -⟩ := (h.kept doc hd).reread t ht
      exact hunread t ht g hg
    obtain ⟨hkept, hsame⟩ := (h.kept doc hd).made hsettled hnone (hstable c ((h.kept doc hd).source hsettled))
    obtain ⟨hagrees, hcontinues, hfinal⟩ := h.step hd hpass₁ hpass₂ hkept hsame
    cases hg : graphOf base c with
    | error e =>
      rw [hrun₂, hg]
      exact ⟨_, _, rfl, hagrees, hcontinues, by simp⟩
    | ok g =>
      obtain ⟨result, e, hrun, hresult⟩ := run_conclude s₂ (s.keyer.digest doc) c g false check
      refine ⟨result, _, ?_, hagrees.told e, hcontinues.told e, fun r hr => ?_⟩
      · rw [hrun₂, hg]
        exact hrun
      · obtain ⟨hdocument, rfl⟩ := hresult r hr
        refine ⟨hdocument, fun t ht => hfinal.trans ?_⟩
        rw [graphText?_eq_some.mpr ⟨_, hg, ht⟩]
        rfl

theorem Agrees.run_execute (h : Agrees base docs times s) (hd : doc ∈ docs) (hnow : s.now ∈ times)
    (hlate : s.Outlasts times) (hstable : ∀ c, Source doc c → ∀ g, graphOf base c = .ok g → g.Stable) {o : Options}
    (hbase : o.withDefaults.baseCompiler = .ok base) :
    ∃ result s', s.run (execute doc o) = (result, s') ∧ Agrees base docs times s' ∧ Continues base docs s s'
      ∧ ∀ r, result = .ok r → r.document = s.keyer.digest doc
        ∧ ∀ t, r.graph.encode = .ok t → graphKept? base s' doc = some t := by
  unfold execute
  dsimp only
  rw [run_bind, run_liftM]
  cases o.withDefaults.validate.mapError (Error.within "invalid options") with
  | error e => exact ⟨_, s, rfl, h, ⟨rfl, rfl, fun _ _ _ ht => ht⟩, by simp⟩
  | ok _ =>
    dsimp only
    rw [run_bind, run_liftM, hbase]
    exact h.run_executeWith hd hnow hlate hstable o.check o.refresh

end Pipeline

end AnimatedChart

import AnimatedChart.Proofs.Animation.UniqueNames
import AnimatedChart.Proofs.Scope.Selection

/-!
# Sliders and clocks

Touching a slider switches the scope's play signal off, and elaboration puts this signal among the filters of every
slider.
-/

open List

namespace AnimatedChart

open Json Spec

variable {a : Selection} {part : Graph} {st : Stage} {tail : String} {x : Signal}

def Graph.signalsNamed (g : Graph) (n : String) : List Signal := g.signals.filter (·.name == n)

namespace Animation

variable {base : BaseCompiler} {docs docs' : List String} {g g' : Graph} {s t : Scope} {n w : String}

theorem signalsNamed_merge (h : n ∉ part.signals.map (·.name)) :
    (g.merge part).signalsNamed n = g.signalsNamed n := Named.filter_merge_of_not_mem h

theorem signalsNamed_merge_last (hn : n ≠ "") (h : (part.signalsNamed n).getLast? = some x) :
    (g.merge part).signalsNamed n = [x] :=
  Named.filter_merge_of_getLast? hn h

def selectionTails : List String := ["_toggle", "_tuple_fields", "_tuple", "_slider", "_extent"]

theorem append_ne_qualify (hs : s.id.IsPath) (hw : w ∈ s.words) (htail : tail ∈ selectionTails)
    (hends : ¬tail.toList <:+ w.toList) (name : String) : name ++ tail ≠ s.qualify w := by
  intro heq
  have hunnested : Unnested (name ++ tail) := by
    refine unnested_of_getLast fun c hc => ?_
    have hlast : ∀ tail ∈ selectionTails, tail.toList.getLast?.any (!·.isDigit) = true := by decide +kernel
    obtain ⟨c', hc', hdigit⟩ := (Option.any_eq_true _ _).mp (hlast tail htail)
    rw [String.toList_append, List.getLast?_append, hc'] at hc
    simpa [← Option.some.inj hc] using hdigit
  have hroot : ScopeId.root.name (name ++ tail) = name ++ tail := by
    simp [ScopeId.name, ScopeId.suffix, ScopeId.isRoot, ScopeId.root]
  obtain ⟨rfl, -⟩ := ScopeId.name_inj hs .root (Scope.unnested_words hw) hunnested (heq.symm.trans hroot.symm)
  exact hends (by rw [String.toList_append]; exact suffix_append _ _)

theorem name_selectionSignals (hx : x ∈ selectionSignals s a) :
    (∃ tail ∈ selectionTails, x.name = a.name ++ tail) ∨ x.name = s.id.isPlaying := by
  rw [selectionSignals, mem_append] at hx
  rcases hx with hx | hx
  · simp only [tupleSignals, mem_cons, not_mem_nil, or_false] at hx
    rcases hx with rfl | rfl | rfl <;> exact .inl ⟨_, by decide, rfl⟩
  · split at hx
    · cases hx
    · simp only [sliderSignals, mem_cons, not_mem_nil, or_false] at hx
      rcases hx with rfl | rfl
      · exact .inl ⟨_, by decide, rfl⟩
      · exact .inr rfl
    · rw [mem_singleton.mp hx]
      exact .inl ⟨_, by decide, rfl⟩

/-! ## Signals of a scope -/

theorem signals_compileUnits {us : List ScopedUnit} {i : Nat} {st' : Stage}
    (hrun : Runs (compileUnits base i us st) docs st' docs') : st'.graph.signals = st.graph.signals := by
  refine compileUnits_invariant (I := fun g => g.signals = st.graph.signals) (fun g part hpart hg => ?_) hrun rfl
  rw [Graph.merge, hpart, Named.merge_nil, hg]

def suspensionWords : List String := ["anim_clock", "is_playing"]

theorem mem_words_of_suspension (hw : w ∈ suspensionWords) : w ∈ s.words := by
  simp only [suspensionWords, mem_cons, not_mem_nil, or_false] at hw
  rcases hw with rfl | rfl <;> simp [Scope.words, Scope.clockWords, Scope.holdWords]

theorem append_ne_suspension (hs : s.id.IsPath) (hw : w ∈ suspensionWords) (htail : tail ∈ selectionTails)
    (name : String) : name ++ tail ≠ s.qualify w := by
  have hends : ∀ w ∈ suspensionWords, ∀ tail ∈ selectionTails, ¬tail.toList <:+ w.toList := by decide +kernel
  exact append_ne_qualify hs (mem_words_of_suspension hw) htail (hends w hw tail htail) name

theorem signalsNamed_bridge (h : ∀ a ∈ s.selections, n ∉ (selectionSignals s a).map (·.name)) :
    (bridge s g).signalsNamed n = g.signalsNamed n := by
  have hkept := bridgeOne_invariant (I := fun g' => g'.signals = g.signals)
    (fun g part hpart hg => by rw [Graph.merge, hpart, Named.merge_nil, hg]) s s.selections (g, {}) rfl
  refine (signalsNamed_merge ?_).trans (congrArg (List.filter _) hkept)
  rw [signals_bridge, nil_append, map_flatMap]
  intro hmem
  obtain ⟨a, ha, hn⟩ := mem_flatMap.mp hmem
  exact h a ha hn

theorem signalsNamed_withClock_other (hs : s.id.IsPath) (ht : st.scope.id.IsPath) (hne : st.scope.id ≠ s.id)
    (hw : w ∈ suspensionWords) :
    st.withClock.graph.signalsNamed (s.qualify w) = st.graph.signalsNamed (s.qualify w) := by
  have hother {v : String} (hv : v ∈ st.scope.words) : st.scope.qualify v ≠ s.qualify w := fun heq =>
    hne (Scope.names_inj ht hs hv (mem_words_of_suspension hw) heq).2
  have hforeign : s.qualify w ∉ st.scope.signalNames := by
    intro hmem
    have hmem : s.qualify w ∈ st.scope.signalNames ++ st.scope.datasetNames := mem_append_left _ hmem
    rw [Scope.names_eq] at hmem
    obtain ⟨v, hv, heq⟩ := mem_map.mp hmem
    exact hother hv heq
  have hselections : ∀ a ∈ st.scope.selections, s.qualify w ∉ (selectionSignals st.scope a).map (·.name) := by
    intro a _ hmem
    obtain ⟨x, hx, hname⟩ := mem_map.mp hmem
    rcases name_selectionSignals hx with ⟨tail, htail, hx⟩ | hx
    · exact append_ne_suspension hs hw htail a.name (hx.symm.trans hname)
    · refine hother ?_ (hx.symm.trans hname)
      exact mem_words_of_suspension (mem_cons_of_mem _ mem_cons_self)
  refine (signalsNamed_bridge hselections).trans ?_
  rw [signalsNamed_merge fun h => hforeign (st.scope.signals_pause h),
    signalsNamed_merge fun h => hforeign (st.scope.signals_timeScale _ h),
    signalsNamed_merge fun h => hforeign (st.scope.signals_clock h)]

theorem signalsNamed_compileScopes {ss : List Scope} (hs : s.id.IsPath) (hss : ∀ t ∈ ss, t.id.IsPath ∧ t.id ≠ s.id)
    (hw : w ∈ suspensionWords) (hrun : Runs (compileScopes base ss g) docs g' docs') :
    g'.signalsNamed (s.qualify w) = g.signalsNamed (s.qualify w) := by
  induction ss generalizing g docs with
  | nil =>
    obtain ⟨rfl, -⟩ := runs_pure.mp hrun
    rfl
  | cons t ss ih =>
    obtain ⟨⟨ht, hne⟩, hss⟩ := forall_mem_cons.mp hss
    obtain ⟨g₁, docs₁, hscope, hrun⟩ := runs_bind.mp hrun
    rw [ih hss hrun]
    rcases compileScope_cases hscope with ⟨-, rfl⟩ | ⟨first, -, st, st', hstart, hunits, rfl⟩
    · rfl
    · obtain rfl := start_eq hstart
      rw [Graph.signalsNamed, signals_compileUnits hunits]
      exact signalsNamed_withClock_other hs ht hne hw

/-! ## The clock -/

/-- What a clock becomes on a timer event: it advances while all conditions hold, and starts again after its end. -/
def ticked (s : Scope) (conditions : List String) : String :=
  let condition := String.intercalate " && " conditions
  let advanced := s!"{s.clock} + (now() - {s.lastTick})"
  s!"{condition} ? ({advanced} > {s.maxRange} ? 0 : {advanced}) : {s.clock}"

/-- The scope has one clock, which advances on timer events while the conditions hold. -/
def AdvancesWhile (g : Graph) (s : Scope) (conditions : List String) : Prop :=
  ∃ x scrubs, g.signalsNamed s.clock = [x] ∧ x.on = { events := timer, update := ticked s conditions } :: scrubs
    ∧ ∀ h ∈ scrubs, h.events ≠ timer

theorem qualify_ne_empty (s : Scope) (hw : w ∈ suspensionWords) : s.qualify w ≠ "" := by
  have hne : ∀ w ∈ suspensionWords, w.toList ≠ [] := by decide
  intro hempty
  have hlist := congrArg String.toList hempty
  rw [Scope.qualify, ScopeId.name, String.toList_append] at hlist
  exact hne w hw (append_eq_nil_iff.mp hlist).1

theorem advances_clock (s : Scope) (g : Graph) : AdvancesWhile (g.merge (clock s)) s (clockFilters s ++ [s.notHeld]) := by
  have hclock : ((clock s).signalsNamed s.clock).getLast? = some {
      name := s.clock
      init := "0"
      on := { events := timer, update := ticked s (clockFilters s ++ [s.notHeld]) }
        :: (s.driver?.filter (·.isSlider)).toList.map fun d => {
          events := signalRef d.slider
          update := scaleCall s.timeScale d.slider } } := by
    simp only [clock, Graph.signalsNamed, Scope.clock, Scope.lastTick, Scope.eased]
    rw [filter_cons_of_pos (by simp), filter_cons_of_neg (by simp), filter_cons_of_neg (by simp)]
    rfl
  refine ⟨_, _, signalsNamed_merge_last (qualify_ne_empty s (w := "anim_clock") (by decide)) hclock, rfl, ?_⟩
  intro h hh
  obtain ⟨d, -, rfl⟩ := mem_map.mp hh
  intro heq
  have hlength : 1 = 2 := congrArg (fun v : Value => (v.members?.getD []).length) heq
  exact absurd hlength (by decide)

theorem clock_notMem_timeScale (s : Scope) (data : String) : s.clock ∉ (timeScale s data).signals.map (·.name) := by
  have hdomain : s.clock ≠ s.domain := fun heq =>
    Scope.domainWord_ne (w := "anim_clock") (by decide) (Scope.qualify_inj.mp heq).symm
  have hrange : (rangeEnd s).name = s.maxRange := by
    unfold rangeEnd
    split <;> rfl
  rw [timeScale, map_append, mem_append]
  rintro (hmem | hmem)
  · refine hdomain ?_
    split at hmem <;> simpa [linearTime, bandTime, Scope.clock, Scope.value, Scope.index, Scope.current] using hmem
  · simp [hrange, Scope.clock, Scope.maxRange, Scope.minExtent, Scope.maxExtent, Scope.next, Scope.tween] at hmem

theorem advances_withClock (hs : st.scope.id.IsPath) :
    AdvancesWhile st.withClock.graph st.scope (clockFilters st.scope ++ [st.scope.notHeld]) := by
  obtain ⟨x, scrubs, hclock, hx⟩ := advances_clock st.scope st.graph
  refine ⟨x, scrubs, ?_, hx⟩
  have hselections : ∀ a ∈ st.scope.selections, st.scope.clock ∉ (selectionSignals st.scope a).map (·.name) := by
    intro a _ hmem
    obtain ⟨y, hy, hname⟩ := mem_map.mp hmem
    rcases name_selectionSignals hy with ⟨tail, htail, hy⟩ | hy
    · exact append_ne_suspension hs (w := "anim_clock") (by decide) htail a.name (hy.symm.trans hname)
    · exact absurd (Scope.qualify_inj.mp (hy.symm.trans hname)) (by decide)
  have hpause : st.scope.clock ∉ (pause st.scope).signals.map (·.name) := by
    unfold pause
    split <;> simp [Scope.clock, Scope.notHeld, Scope.holdDuration, Scope.heldSince]
  refine (signalsNamed_bridge hselections).trans ?_
  rw [signalsNamed_merge hpause, signalsNamed_merge (clock_notMem_timeScale _ _), hclock]

/-! ## The play signal -/

def sliders (s : Scope) : List Selection := s.selections.filter (·.isSlider)

def playSignal (s : Scope) (a : Selection) : Signal where
  name := s.id.isPlaying
  value := .bool true
  bind := .ofPairs [("input", .string "checkbox")]
  on := [{ events := signalEvents [a.slider], update := "false" }]

def SwitchedOffBy (x : Signal) (n : String) : Prop :=
  ∃ h ∈ x.on, h.update = "false" ∧ ∃ ns, h.events = signalEvents ns ∧ n ∈ ns

theorem signalRef_injective : Function.Injective signalRef := by
  intro m n heq
  have hmember : some (Value.string m) = some (Value.string n) := congrArg (Value.member? · "signal") heq
  exact Value.string.inj (Option.some.inj hmember)

theorem switchedOffBy_playSignal {b : Selection} : SwitchedOffBy (playSignal s a) b.slider ↔ b.name = a.name := by
  have hevents {ns : List String} : signalEvents [a.slider] = signalEvents ns ↔ [a.slider] = ns :=
    ⟨fun heq => map_injective_iff.mpr signalRef_injective (Value.array.inj heq), congrArg signalEvents⟩
  have hslider : b.slider = a.slider ↔ b.name = a.name := String.append_left_inj _
  simp [SwitchedOffBy, playSignal, hevents, hslider]

theorem filter_selectionSignals (hs : s.id.IsPath) (a : Selection) :
    (selectionSignals s a).filter (·.name == s.id.isPlaying) = if a.isSlider then [playSignal s a] else [] := by
  have hne (tail : String) (htail : tail ∈ selectionTails) : (a.name ++ tail == s.id.isPlaying) = false :=
    beq_eq_false_iff_ne.mpr (append_ne_suspension hs (w := "is_playing") (by decide) htail a.name)
  have htuple : (tupleSignals s a).filter (·.name == s.id.isPlaying) = [] := by
    simp [tupleSignals, hne "_toggle" (by decide), hne "_tuple_fields" (by decide), hne "_tuple" (by decide)]
  rw [selectionSignals, filter_append, htuple, nil_append, Selection.isSlider]
  rcases a.bind with _ | _ | properties
  · rfl
  · simp [hne "_extent" (by decide)]
  · simp [sliderSignals, playSignal, Selection.slider, hne "_slider" (by decide)]

theorem signalsNamed_bridge_isPlaying (hs : s.id.IsPath) (ha : (sliders s).getLast? = some a) :
    (bridge s g).signalsNamed s.id.isPlaying = [playSignal s a] := by
  refine signalsNamed_merge_last (qualify_ne_empty s (w := "is_playing") (by decide)) ?_
  rw [Graph.signalsNamed, signals_bridge, nil_append, filter_flatMap]
  have hsliders (as : List Selection) : as.flatMap (fun a => (selectionSignals s a).filter (·.name == s.id.isPlaying))
      = (as.filter (·.isSlider)).map (playSignal s) := by
    induction as with
    | nil => rfl
    | cons a as ih =>
      rw [flatMap_cons, ih, filter_selectionSignals hs]
      cases hslider : a.isSlider <;> simp [hslider]
  rw [hsliders, getLast?_map, ← sliders, ha, Option.map_some]

theorem signalsNamed_of_mem_scopes {c : Chart} (hs : s ∈ c.elaborate.scopes) (hunits : s.units ≠ [])
    (hrun : Runs (compileScopes base c.elaborate.scopes g) docs g' docs') :
    ∃ st : Stage, st.scope = s ∧ ∀ w ∈ suspensionWords,
      g'.signalsNamed (s.qualify w) = st.withClock.graph.signalsNamed (s.qualify w) := by
  have hpath {t : Scope} (ht : t ∈ c.elaborate.scopes) := Chart.isPath_scopes ht
  have hids := c.nodup_scopeIds
  obtain ⟨before, after, hsplit⟩ := append_of_mem hs
  rw [hsplit] at hrun hids
  rw [map_append, map_cons, nodup_append, nodup_cons] at hids
  obtain ⟨g₁, docs₁, -, hrun⟩ := runs_compileScopes_append.mp hrun
  obtain ⟨g₂, docs₂, hscope, hafter⟩ := runs_bind.mp hrun
  rcases compileScope_cases hscope with ⟨hempty, -⟩ | ⟨first, -, st, st', hstart, hanimated, rfl⟩
  · exact absurd hempty hunits
  · refine ⟨st, congrArg Stage.scope (start_eq hstart), fun w hw => ?_⟩
    rw [signalsNamed_compileScopes (hpath hs) (fun t ht => ⟨hpath ?_, fun heq => ?_⟩) hw hafter, Graph.signalsNamed,
      signals_compileUnits hanimated, Graph.signalsNamed]
    · rw [hsplit]
      exact mem_append_right _ (mem_cons_of_mem _ ht)
    · exact hids.2.1.1 (heq ▸ mem_map_of_mem ht)

/-- However a chart is lowered, the clock of a scope with units advances while the filters of the driving selection hold
and no keyframe is held. The play signal is among these filters if the driving selection is bound to a slider, unless
elaboration overlooked it; the sliders of other selections do not count. If the scope has sliders there is one play
signal, and it is switched off by the last of them, and of the others only by those of the same name. -/
theorem suspends_compileElaborated {c : Chart} {out : Graph}
    (hrun : Runs (compileElaborated base c.elaborate) docs out docs') (hs : s ∈ c.elaborate.scopes)
    (hunits : s.units ≠ []) :
    ∃ site driver, c.site? s.id = some site ∧ s.driver? = some driver
      ∧ AdvancesWhile out s (driver.select.trigger.filters ++ [s.notHeld])
      ∧ (driver.isSlider = true →
        s.id.isPlaying ∈ driver.select.trigger.filters ∨ driver ∈ site.view.overlooked)
      ∧ ∀ last ∈ (sliders s).getLast?, ∃ x, out.signalsNamed s.id.isPlaying = [x]
        ∧ ∀ a ∈ s.selections, a.isSlider = true → (SwitchedOffBy x a.slider ↔ a.name = last.name) := by
  obtain ⟨site, hsite, -, hscope⟩ := Chart.exists_owner hs
  have hselections : s.selections = (site.view.settled site.id site.time).selections := by
    rw [hscope, Site.selections_scope]
  obtain ⟨driver, hdriver⟩ : ∃ driver, s.driver? = some driver := by
    rw [← Option.isSome_iff_exists, Scope.driver?, isSome_head?, hselections]
    exact View.selections_settled_ne _ _ _
  have hpath := Chart.isPath_scopes hs
  obtain ⟨g, docs₁, animated, -, hanimated, rfl⟩ := runs_compileElaborated hrun
  obtain ⟨st, rfl, hsignals⟩ := signalsNamed_of_mem_scopes hs hunits hanimated
  refine ⟨site, driver, hsite, hdriver, ?_, fun hslider => ?_, fun last hlast => ?_⟩
  · obtain ⟨x, scrubs, hclock, hx⟩ := advances_withClock hpath
    have hfilters : clockFilters st.scope = driver.select.trigger.filters := by
      rw [clockFilters, hdriver]
      rfl
    rw [hfilters] at hx
    exact ⟨x, scrubs, (hsignals "anim_clock" (by decide)).trans hclock, hx⟩
  · have hmem := mem_of_head? hdriver
    rw [hselections] at hmem
    refine (View.isNormal_settled hmem).imp_left fun hnormal => ?_
    have hgated := hnormal.gated hslider
    rwa [show site.id = st.scope.id by rw [hscope]; rfl] at hgated
  · refine ⟨playSignal st.scope last, ?_, fun a _ _ => switchedOffBy_playSignal⟩
    exact (hsignals "is_playing" (by decide)).trans (signalsNamed_bridge_isPlaying hpath hlast)

def scrubbedPoints : Fragment :=
  let frame (name : String) (members : List (String × Fragment)) : Fragment :=
    .record ([("name", .text name), ("select", .record [("type", .text "point"), ("on", .text "timer")])] ++ members)
  let range : Fragment := .record [("input", .text "range")]
  .record [("data", .record [("values", .list [])]), ("mark", .text "point"),
    ("params", .list [frame "shown" [], frame "coarse" [("bind", range)], frame "fine" [("bind", range)]]),
    ("transform", .list [.record [("filter", .record [("param", .text "shown")])]]),
    ("encoding", .record [("x", .record [("field", .text "a")]), ("time", .record [("field", .text "t")])])]

/-- Neither slider stops the clock, and the first one leaves the play signal on. -/
theorem suspends_scrubbedPoints :
    ∃ c out docs, Chart.parse scrubbedPoints.pretty = .ok c
      ∧ Runs (compileElaborated Adapter.reference.base c.elaborate) [] out docs
      ∧ ∃ s ∈ c.elaborate.scopes, s.units ≠ [] ∧ AdvancesWhile out s [s.notHeld]
        ∧ ∃ coarse ∈ s.selections, ∃ fine ∈ (sliders s).getLast?, coarse.isSlider = true
          ∧ ∃ x, out.signalsNamed s.id.isPlaying = [x] ∧ SwitchedOffBy x fine.slider ∧ ¬SwitchedOffBy x coarse.slider := by
  have hlowers : ∃ c ∈ unitOf? scrubbedPoints, (lowered? c.elaborate).isSome = true
      ∧ (∀ s ∈ c.elaborate.scopes, s.field ≠ "" ∧ ∀ u ∈ s.units, u.unit.enter = none ∧ u.unit.exit = none)
      ∧ ∃ s ∈ c.elaborate.scopes, s.units.length = 1 ∧ (∀ d ∈ s.driver?, d.select.trigger.filters = [])
        ∧ ∃ coarse ∈ s.selections, ∃ fine ∈ (sliders s).getLast?, coarse.isSlider = true
          ∧ coarse.name = "coarse" ∧ fine.name = "fine" := by
    decide +kernel
  obtain ⟨c, hc, hlowered, hscopes, s, hs, hlength, hfilters, coarse, hcoarse, fine, hfine, hslider, hname, hname'⟩ :=
    hlowers
  have hparse := parse_of_unitOf hc
  obtain ⟨out, hout⟩ := exists_compileDocument_unit hc hlowered hscopes
  obtain ⟨docs, hrun⟩ := runs_of_compileDocument hparse hout
  have hunits : s.units ≠ [] := ne_nil_of_length_eq_add_one hlength
  obtain ⟨site, driver, -, hdriver, hadvances, -, hplay⟩ := suspends_compileElaborated hrun hs hunits
  rw [hfilters driver hdriver] at hadvances
  obtain ⟨x, hx, hswitch⟩ := hplay fine hfine
  refine ⟨c, out, docs, hparse, hrun, s, hs, hunits, hadvances, coarse, hcoarse, fine, hfine, hslider, x, hx, ?_, ?_⟩
  · obtain ⟨hmem, hslider⟩ := mem_filter.mp (mem_of_getLast? hfine)
    exact (hswitch fine hmem hslider).mpr rfl
  · rw [hswitch coarse hcoarse hslider, hname, hname']
    decide

end Animation
end AnimatedChart

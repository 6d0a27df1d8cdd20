import AnimatedChart.Animation.Compiler
import AnimatedChart.Proofs.Animation.Clock

/-!
# A scope with its clock

The selections of a scope clip marks and bind scales in the graph, and bring signals of their own. With the clock, the
time scale and the holds they define all that they mention, so a settled graph is settled again once all of them are in
it (`Stage.settled_withClock`).
-/

open List

namespace AnimatedChart.Animation

open Json Spec Dependency

variable {S : Ref → Prop} {s : Scope} {g : Graph} {p : Mark → Prop}
variable {a : Selection} {n : String} {st : Stage}

/-! ## Selections -/

theorem comparisons_ne_nil (s : Scope) (a : Selection) : comparisons s a ≠ [] := by
  unfold comparisons
  split
  · simp
  · next h => exact fun heq => h heq

theorem operand_tupleValue (v : ClockOperands S s) (p : FieldPredicate) : Operand S (tupleValue s p) := by
  unfold tupleValue
  split
  · exact (Opening.listExpr (by simp) (by simpa using ⟨v.minExtent, v.current⟩)).toOperand
  · exact .name (by decide) fun h => absurd h (by decide)
  · exact v.current

structure SelectionReads (S : Ref → Prop) (a : Selection) : Prop where
  tupleFields : Operand S (a.name ++ "_tuple_fields")
  slider : a.isSlider = true → Operand S a.slider
  extent : a.bind = some .scales → Operand S (a.name ++ "_extent")

def selectionSignals (s : Scope) (a : Selection) : List Signal :=
  tupleSignals s a ++ match a.bind with
    | none => []
    | some (.input properties) => sliderSignals s a properties
    | some .scales => [{ name := a.name ++ "_extent", update := listExpr [s.minExtent, s.current] }]

theorem only_tupleSignals (v : ClockOperands S s) (hfields : Operand S (a.name ++ "_tuple_fields")) :
    ∀ x ∈ tupleSignals s a, Only S (signalRefs x) := by
  have hvalues : Opening S (listExpr ((comparisons s a).map (tupleValue s))) := by
    refine .listExpr (by simpa using comparisons_ne_nil s a) fun e he => ?_
    obtain ⟨p, -, rfl⟩ := mem_map.mp he
    exact operand_tupleValue v p
  have hunit : "\x7bunit: \"\", fields: " = "\x7bunit: " ++ quotedText "" ++ ", fields: " := by decide +kernel
  have htext : "\x7bunit: \"\", fields: " ++ a.name ++ "_tuple_fields, values: "
      = "\x7bunit: " ++ quotedText "" ++ ", fields: " ++ (a.name ++ "_tuple_fields") ++ ", values: " := by
    rw [hunit]
    simp only [String.append_assoc]
    rfl
  have hfields : Operand S ("\x7bunit: " ++ quotedText "" ++ ", fields: " ++ (a.name ++ "_tuple_fields")) :=
    (((Opening.fixed).opening (.quotedText S "")).toOperand.joint .fixed).operand hfields
  simp only [tupleSignals, forall_mem_cons, not_mem_nil, false_implies, implies_true, and_true, true_and,
    only_signalRefs, only_references_empty]
  refine ⟨only_signalEvents (by simpa using ⟨v.eased, v.current⟩), ?_⟩
  rw [htext]
  exact (((hfields.joint .fixed).opening hvalues).toOperand.joint .fixed).toOperand.only

theorem only_sliderSignals (hslider : Operand S a.slider) (properties : Dict Value) :
    ∀ x ∈ sliderSignals s a properties, Only S (signalRefs x) := by
  simp only [sliderSignals, forall_mem_cons, not_mem_nil, false_implies, implies_true, and_true, true_and,
    only_signalRefs, only_references_empty]
  exact ⟨only_signalEvents (by simpa using hslider), only_fixed⟩

theorem only_selectionSignals (v : ClockOperands S s) (h : SelectionReads S a) :
    ∀ x ∈ selectionSignals s a, Only S (signalRefs x) := by
  rw [selectionSignals, forall_mem_append]
  refine ⟨only_tupleSignals v h.tupleFields, ?_⟩
  split
  · simp
  · next properties hbind => exact only_sliderSignals (h.slider (by simp [Selection.isSlider, hbind])) properties
  · simp only [forall_mem_cons, not_mem_nil, false_implies, implies_true, and_true, true_and,
      only_signalRefs, only_references_empty]
    exact (Opening.listExpr (by simp) (by simpa using ⟨v.minExtent, v.current⟩)).toOperand.only

/-! ## Bound scales -/

def Clips (p : Mark → Prop) : Prop := ∀ m v, p m → p { m with clip := v }

theorem edited_clip (new : Ref → Prop) (m : Mark) (v : Value) : Edited new m { m with clip := v } := by
  cases m
  exact ⟨rfl, fun _ h => h, fun _ h => .inl h⟩

theorem all_clip (hp : Clips p) {m : Mark} (v : Value) (h : Mark.All p m) : Mark.All p { m with clip := v } := by
  rw [Mark.all_iff] at h ⊢
  exact ⟨hp m v h.1, h.2⟩

/-- While scales are bound, the graph is clipped and the scales are its own. -/
structure Binds (S : Ref → Prop) (p : Mark → Prop) (g : Graph) (acc : Graph × List Scale) : Prop where
  grows : Grows S g acc.1
  drawn : acc.1.Drawn p
  scales : ∀ c ∈ acc.2, Only S (scaleRefs c)

theorem Binds.unit (hflat : Mark.Flat p) (hp : Clips p) (hbase : Only S (mentioned g)) {acc : Graph × List Scale}
    (h : Binds S p g acc) (s : Scope) (u : ScopedUnit) : Binds S p g (bindUnit s acc u) := by
  unfold bindUnit
  split
  · exact h
  · refine ⟨h.grows.trans (.editUnitMark h.drawn.toApart fun m _ => edited_clip S m _),
      h.drawn.editUnitMark hflat fun m _ => ⟨rfl, all_clip hp _⟩, fun c hc => ?_⟩
    rcases mem_append.mp hc with hc | hc
    · exact h.scales c hc
    · obtain ⟨n, -, hn⟩ := mem_filterMap.mp hc
      have hmem : c ∈ acc.1.scales := mem_of_find?_eq_some hn
      intro r hr
      exact (h.grows.mentioned r (mem_mentioned.mpr (.inr (.inr (.inl ⟨c, hmem, hr⟩))))).elim (hbase r) id

theorem Binds.units (hflat : Mark.Flat p) (hp : Clips p) (hbase : Only S (mentioned g)) {acc : Graph × List Scale}
    (h : Binds S p g acc) (s : Scope) (us : List ScopedUnit) : Binds S p g (us.foldl (bindUnit s) acc) := by
  induction us generalizing acc with
  | nil => exact h
  | cons u us ih => exact ih (h.unit hflat hp hbase s u)

/-- While selections are bridged, the graph is clipped and the part mentions only names of the set. -/
structure Bridges (S : Ref → Prop) (p : Mark → Prop) (g : Graph) (acc : Graph × Graph) : Prop where
  grows : Grows S g acc.1
  drawn : acc.1.Drawn p
  part : Only S (mentioned acc.2)
  unmarked : acc.2.marks = []

theorem signals_bridgeOne (acc : Graph × Graph) (a : Selection) :
    (bridgeOne s acc a).2.signals = acc.2.signals ++ selectionSignals s a := by
  obtain ⟨g, part⟩ := acc
  rw [bridgeOne, selectionSignals]
  rcases a.bind with _ | _ | properties <;> simp

theorem Bridges.one (hflat : Mark.Flat p) (hp : Clips p) (hbase : Only S (mentioned g)) (v : ClockOperands S s)
    {acc : Graph × Graph} (h : Bridges S p g acc) (ha : SelectionReads S a) : Bridges S p g (bridgeOne s acc a) := by
  obtain ⟨hdata, hsignals, hscales, hrest⟩ := only_mentioned.mp h.part
  have hsignals : ∀ x ∈ (bridgeOne s acc a).2.signals, Only S (signalRefs x) := by
    rw [signals_bridgeOne]
    exact forall_mem_append.mpr ⟨hsignals, only_selectionSignals v ha⟩
  obtain ⟨g₁, part⟩ := acc
  rw [bridgeOne] at hsignals ⊢
  rcases hbind : a.bind with _ | _ | properties
  · rw [hbind] at hsignals
    exact ⟨h.grows, h.drawn, only_mentioned.mpr ⟨hdata, hsignals, hscales, hrest⟩, h.unmarked⟩
  · rw [hbind] at hsignals
    have hbound : Binds S p g (s.units.foldl (bindUnit s) (g₁, [])) :=
      Binds.units hflat hp hbase ⟨h.grows, h.drawn, by simp⟩ s s.units
    refine ⟨hbound.grows, hbound.drawn, only_mentioned.mpr ⟨hdata, hsignals, ?_, hrest⟩, h.unmarked⟩
    refine forall_mem_append.mpr ⟨hscales, fun c hc => ?_⟩
    obtain ⟨c₀, hc₀, rfl⟩ := mem_map.mp hc
    have hscale := only_scaleRefs.mp (hbound.scales c₀ hc₀)
    exact only_scaleRefs.mpr ⟨hscale.1, only_signalRef (ha.extent hbind), hscale.2.2⟩
  · rw [hbind] at hsignals
    exact ⟨h.grows, h.drawn, only_mentioned.mpr ⟨hdata, hsignals, hscales, hrest⟩, h.unmarked⟩

theorem Bridges.all (hflat : Mark.Flat p) (hp : Clips p) (hbase : Only S (mentioned g)) (v : ClockOperands S s)
    {acc : Graph × Graph} (h : Bridges S p g acc) {as : List Selection} (has : ∀ a ∈ as, SelectionReads S a) :
    Bridges S p g (as.foldl (bridgeOne s) acc) := by
  induction as generalizing acc with
  | nil => exact h
  | cons a as ih =>
    obtain ⟨ha, has⟩ := forall_mem_cons.mp has
    exact ih (h.one hflat hp hbase v ha) has

theorem Bridges.start (S : Ref → Prop) (hg : g.Drawn p) : Bridges S p g (g, {}) where
  grows := .refl S g
  drawn := hg
  part := only_mentioned.mpr (by simp)
  unmarked := rfl

theorem grows_bridge (hflat : Mark.Flat p) (hp : Clips p) (hg : g.Drawn p) (hbase : Only S (mentioned g))
    (v : ClockOperands S s) (hselections : ∀ a ∈ s.selections, SelectionReads S a) :
    Grows S g (bridge s g) ∧ (bridge s g).Drawn p := by
  have h := (Bridges.start S hg).all hflat hp hbase v hselections
  exact ⟨h.grows.trans (.merge h.unmarked h.part), h.drawn.merge_entries h.unmarked⟩

theorem signals_bridge (as : List Selection) (acc : Graph × Graph) :
    (as.foldl (bridgeOne s) acc).2.signals = acc.2.signals ++ as.flatMap (selectionSignals s) := by
  induction as generalizing acc with
  | nil => simp
  | cons a as ih => rw [foldl_cons, ih, signals_bridgeOne, flatMap_cons, append_assoc]

theorem defined_bridge (ha : a ∈ s.selections) (hn : n ∈ (selectionSignals s a).map (·.name)) (g : Graph) :
    ⟨.signal, n⟩ ∈ defined (bridge s g) := by
  refine defined_signal (Named.mem_names_merge.mpr (.inr ?_))
  rw [signals_bridge, map_append, map_flatMap]
  exact mem_append_right _ (mem_flatMap.mpr ⟨a, ha, hn⟩)

theorem selectionReads_bridge {allowed : Ref → Prop} (ha : a ∈ s.selections) (hname : isIdentifier a.name = true)
    (g : Graph) : SelectionReads (Resolves allowed (bridge s g)) a := by
  have hoperand {tail : String} (htail : tail.toList.all isIdentifierRest = true)
      (hn : a.name ++ tail ∈ (selectionSignals s a).map (·.name)) :
      Operand (Resolves allowed (bridge s g)) (a.name ++ tail) :=
    .name (isIdentifier_append hname htail) fun _ => .inr (.inr (.inr (defined_bridge ha hn g)))
  refine ⟨hoperand (by decide) (by simp [selectionSignals, tupleSignals]), fun hslides => ?_, fun hbind => ?_⟩
  · unfold Selection.isSlider at hslides
    split at hslides
    · next properties hbind =>
      exact hoperand (by decide) (by simp [selectionSignals, hbind, sliderSignals, Selection.slider])
    · cases hslides
  · exact hoperand (by decide) (by simp [selectionSignals, hbind])

/-! ## The clock and all that belongs to it -/

theorem marks_timeScale (s : Scope) (data : String) : (timeScale s data).marks = [] := by
  unfold timeScale
  dsimp only
  split <;> rfl

theorem marks_pause (s : Scope) : (pause s).marks = [] := by
  unfold pause
  split <;> rfl

/-- The graph with the clock, the time scale and the holds, before the selections. -/
def Stage.clocked (st : Stage) : Graph :=
  ((st.graph.merge (clock st.scope)).merge (timeScale st.scope st.data)).merge (pause st.scope)

theorem Stage.defined_clocked (st : Stage) {r : Ref} (h : r ∈ defined (clock st.scope)
    ∨ r ∈ defined (timeScale st.scope st.data) ∨ r ∈ defined (pause st.scope)) : r ∈ defined st.clocked := by
  have hkeep {g part : Graph} (hpart : part.marks = []) : ∀ r ∈ defined g, r ∈ defined (g.merge part) :=
    (Grows.merge hpart (fun _ _ => trivial : ∀ r ∈ mentioned part, (fun _ => True) r)).defined
  rcases h with h | h | h
  · exact hkeep (marks_pause _) r (hkeep (marks_timeScale _ _) r (defined_merge_of_part rfl h))
  · exact hkeep (marks_pause _) r (defined_merge_of_part (marks_timeScale _ _) h)
  · exact defined_merge_of_part (marks_pause _) h

theorem Stage.clockSignals_clocked (st : Stage) (h : n ∈ clockSignals st.scope) :
    ⟨.signal, n⟩ ∈ defined st.clocked := by
  refine st.defined_clocked ?_
  exact (mem_names_clockSignals st.data h).imp defined_signal (.imp defined_signal defined_signal)

theorem Stage.timeScale_clocked (st : Stage) : ⟨.scale, st.scope.timeScale⟩ ∈ defined st.clocked := by
  refine st.defined_clocked (.inr (.inl (defined_scale ?_)))
  unfold timeScale
  dsimp only
  split <;> simp [linearTime, bandTime]

theorem Stage.keyframes_clocked (st : Stage) (h : st.scope.isLinear = true) :
    ⟨.data, st.scope.keyframes⟩ ∈ defined st.clocked ∧ ⟨.data, st.scope.elapsedKeyframes⟩ ∈ defined st.clocked := by
  refine ⟨st.defined_clocked (.inr (.inl (defined_data ?_))), st.defined_clocked (.inr (.inl (defined_data ?_)))⟩
  all_goals simp [timeScale, h, linearTime]

theorem Stage.holds_clocked (st : Stage) (h : (st.scope.driver?.map (·.select.pauses)).getD [] ≠ []) :
    ⟨.data, st.scope.holds⟩ ∈ defined st.clocked ∧ ⟨.signal, st.scope.holdDuration⟩ ∈ defined st.clocked
      ∧ ⟨.signal, st.scope.heldSince⟩ ∈ defined st.clocked := by
  have hpause : st.scope.holds ∈ (pause st.scope).data.map (·.name)
      ∧ st.scope.holdDuration ∈ (pause st.scope).signals.map (·.name)
      ∧ st.scope.heldSince ∈ (pause st.scope).signals.map (·.name) := by
    unfold pause
    split
    · next hnil => exact absurd hnil h
    · simp
  exact ⟨st.defined_clocked (.inr (.inr (defined_data hpause.1))),
    st.defined_clocked (.inr (.inr (defined_signal hpause.2.1))),
    st.defined_clocked (.inr (.inr (defined_signal hpause.2.2)))⟩

theorem Stage.drawn_clocked (hg : st.graph.Drawn p) : st.clocked.Drawn p :=
  ((hg.merge_entries rfl).merge_entries (marks_timeScale _ _)).merge_entries (marks_pause _)

theorem operand_true (e : String) : Operand (fun _ => True) e :=
  fun _ _ _ _ => ⟨none, by simp, fun _ _ => .inl trivial⟩

theorem Stage.defined_withClock (hflat : Mark.Flat p) (hp : Clips p) (hg : st.graph.Drawn p) :
    ∀ r ∈ defined st.clocked, r ∈ defined st.withClock.graph := by
  have v : ClockOperands (fun _ => True) st.scope :=
    { toFixedOperands := by constructor <;> exact operand_true _, domain := operand_true _ }
  exact (grows_bridge hflat hp (drawn_clocked hg) (fun _ _ => trivial) v fun a _ =>
    ⟨operand_true _, fun _ => operand_true _, fun _ => operand_true _⟩).1.defined

theorem Stage.settled_withClock (hflat : Mark.Flat p) (hp : Clips p) {st : Stage} {allowed : Ref → Prop}
    (hg : st.graph.Drawn p) (hsettled : Settled allowed st.graph) (hw : st.scope.Writable) (hl : st.scope.Legible)
    (hfilters : ∀ f ∈ clockFilters st.scope, allowed ⟨.signal, f⟩)
    (hdata : Resolves allowed st.graph ⟨.data, st.data⟩) :
    Settled allowed st.withClock.graph ∧ st.withClock.graph.Drawn p := by
  have hkeep := defined_withClock hflat hp hg
  have hknown {r : Ref} (h : r ∈ defined st.clocked) : Resolves allowed st.withClock.graph r :=
    .inr (.inr (.inr (hkeep r h)))
  have hgrows (S : Ref → Prop) (hclock : Only S (mentioned (clock st.scope)))
      (htime : Only S (mentioned (timeScale st.scope st.data))) (hpause : Only S (mentioned (pause st.scope))) :
      Grows S st.graph st.clocked :=
    ((Grows.merge rfl hclock).trans (.merge (marks_timeScale _ _) htime)).trans (.merge (marks_pause _) hpause)
  have hold {r : Ref} (h : Resolves allowed st.graph r) : Resolves allowed st.withClock.graph r :=
    (h.grows (hgrows (fun _ => True) (fun _ _ => trivial) (fun _ _ => trivial) fun _ _ => trivial)).imp_right
      fun h => h.imp_right fun h => h.imp_right (hkeep r)
  have hselections : ∀ a ∈ st.scope.selections, SelectionReads (Resolves allowed st.withClock.graph) a :=
    fun a ha => selectionReads_bridge ha (hw.selections a ha) _
  -- With everything in place, each part is looked at by itself.
  have v : ClockOperands (Resolves allowed st.withClock.graph) st.scope :=
    .of_signals hl.id hw.field fun n hn => hknown (st.clockSignals_clocked hn)
  have hscale := hknown st.timeScale_clocked
  have hgrows : Grows (Resolves allowed st.withClock.graph) st.graph st.clocked := by
    refine hgrows _ (only_clock ?_ hw hl) (only_timeScale ?_ hw) (only_pause fun h => ?_)
    · exact {
        toClockOperands := v
        own := hknown (st.clockSignals_clocked (by simp [clockSignals]))
        filters := fun f hf => .name (hw.filters f hf) fun _ => .inr (.inr (.inl (hfilters f hf)))
        slider := fun d hd => (hselections d (mem_of_mem_head? hd)).slider
        scale := hscale }
    · exact {
        toClockOperands := v
        data := hold hdata
        scale := hscale
        keyframes := fun h => (st.keyframes_clocked h).imp hknown hknown }
    · obtain ⟨hholds, hduration, hsince⟩ := st.holds_clocked h
      exact {
        toClockOperands := v
        holds := hknown hholds
        holdDuration := .name (hl.id.name (by decide)) fun _ => hknown hduration
        heldSince := .name (hl.id.name (by decide)) fun _ => hknown hsince }
  have hbase : Only (Resolves allowed st.withClock.graph) (mentioned st.clocked) := fun r hr =>
    (hgrows.mentioned r hr).elim (fun hr => hold (hsettled r hr)) id
  have hbridge := grows_bridge hflat hp (drawn_clocked hg) hbase v hselections
  exact ⟨hsettled.grows (hgrows.trans hbridge.1), hbridge.2⟩

end AnimatedChart.Animation

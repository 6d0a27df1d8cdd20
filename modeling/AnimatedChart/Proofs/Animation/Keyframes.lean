import AnimatedChart.Proofs.Animation.Clock
import AnimatedChart.Proofs.Animation.Filters
import AnimatedChart.Proofs.Animation.Stems

/-!
# Binding marks to keyframes

While the units of a scope are animated, the datasets of every stem are there under the names that the stem and its
filter give (`Ready`).
-/

open List

namespace AnimatedChart.Animation

open Json Spec Dependency

variable {S allowed : Ref → Prop} {s : Scope} {st st' : Stage} {b : Binding} {ps : List FieldPredicate}
variable {g : Graph} {keyframe n source stem : String} {m : Mark} {u : ScopedUnit}

/-! ## Derived datasets -/

theorem unitComparisons_ne_nil (s : Scope) (u : ScopedUnit) : unitComparisons s u ≠ [] := by
  unfold unitComparisons
  dsimp only
  split
  · simp
  · next h => simpa using h

theorem operand_comparisonExpr (v : ClockOperands S s) (hkeyframe : Operand S keyframe) (p : FieldPredicate) :
    Operand S (comparisonExpr s keyframe p) := by
  have hfield := Operand.access S p.field
  unfold comparisonExpr
  dsimp only
  split
  · exact (hfield.joint .fixed).operand hkeyframe
  · exact (hfield.joint .fixed).operand hkeyframe
  · exact (hfield.joint .fixed).operand hkeyframe
  · exact (hfield.joint .fixed).operand hkeyframe
  · have hrange : Opening S (listExpr [s.minExtent, keyframe]) :=
      .listExpr (by simp) (by simpa using ⟨v.minExtent, hkeyframe⟩)
    exact (Opening.call (by simp) (by simpa using ⟨hfield, hrange.toOperand⟩)).toOperand
  · exact (Opening.call (by simp) (by simpa using hfield)).toOperand
  · exact (hfield.joint .fixed).operand hkeyframe

theorem operand_keyframeFilter (v : ClockOperands S s) (hkeyframe : Operand S keyframe) (hps : ps ≠ []) :
    Operand S (keyframeFilter s ps keyframe) := by
  refine .intercalate .fixed (by simpa using hps) fun e he => ?_
  obtain ⟨p, -, rfl⟩ := mem_map.mp he
  exact operand_comparisonExpr v hkeyframe p

def Binding.names (b : Binding) : List String :=
  [b.curr, b.next] ++ if b.key.isSome then
    [b.eq, b.eqNext, b.interpolated] ++ if b.spans then [b.continuity] else []
  else []

theorem names_derived (st : Stage) (b : Binding) (ps : List FieldPredicate) :
    (derived st b ps).map (·.name) = b.names := by
  unfold derived Binding.names
  cases b.key with
  | none => simp
  | some key => cases b.spans <;> simp

theorem Binding.target_mem (b : Binding) : b.target ∈ b.names := by
  unfold target names
  cases b.key <;> simp

theorem only_lookup {data key attach : String} (h : S ⟨.data, data⟩) : Only S (valueRefs (lookup data key attach)) :=
  only_ofPairs (by simpa [keyRefs, valueRefs, itemRefs] using h)

theorem only_layoutOf (h : Only S (mentioned g)) (source : String) : ∀ t ∈ layoutOf g source, Only S (valueRefs t) := by
  intro t ht
  unfold layoutOf at ht
  cases hd : g.dataset? source with
  | none => simp [hd] at ht
  | some d =>
    have ht : t ∈ d.transform := by
      rw [hd] at ht
      exact (mem_filter.mp ht).1
    have hdata := (only_mentioned.mp h).1 d (mem_of_find?_eq_some hd)
    rw [datasetRefs, only_append, only_flatMap] at hdata
    exact hdata.2 t ht

theorem only_derivedDatasets (v : ClockOperands S st.scope) (hps : ps ≠ []) (hgraph : Only S (mentioned st.graph))
    (hsource : S ⟨.data, b.source⟩) (hnames : ∀ n ∈ b.names, S ⟨.data, n⟩) :
    ∀ d ∈ derived st b ps, Only S (datasetRefs d) := by
  have hlayout := only_layoutOf hgraph b.source
  have hkeyframe {name signal : String} (hsignal : Operand S signal) : Only S (datasetRefs {
      name, source := .string b.source
      transform := filterBy (keyframeFilter st.scope ps signal) :: layoutOf st.graph b.source }) :=
    only_derived hsource
      (forall_mem_cons.mpr ⟨only_filterBy (operand_keyframeFilter v hsignal hps).only, hlayout⟩)
  unfold derived
  refine forall_mem_append.mpr ⟨by simpa using ⟨hkeyframe v.current, hkeyframe v.next⟩, ?_⟩
  cases hkey : b.key with
  | none => simp
  | some key =>
    unfold Binding.names at hnames
    rw [hkey] at hnames
    simp only [Option.isSome_some, if_true, forall_mem_append, forall_mem_cons, not_mem_nil, false_implies,
      implies_true, and_true] at hnames
    obtain ⟨⟨hcurr, hnext⟩, ⟨heq, -, -⟩, -⟩ := hnames
    refine forall_mem_append.mpr ⟨?_, ?_⟩
    · simp only [forall_mem_cons]
      refine ⟨only_derived hcurr ?_, only_derived hnext ?_, only_derived heq ?_, by simp⟩
      · simpa using only_lookup hnext
      · simpa using ⟨only_lookup hcurr, only_filterBy only_fixed⟩
      · simpa using only_filterBy only_fixed
    · split
      · have hvalid : Opening S (call "isValid" [access "datum" key]) :=
          .call (by simp) (by simpa using Operand.access S key)
        simp only [forall_mem_cons, not_mem_nil, false_implies, implies_true, and_true]
        refine only_derived hsource (forall_mem_cons.mpr ⟨only_filterBy hvalid.toOperand.only, ?_⟩)
        simp only [forall_mem_cons, not_mem_nil, false_implies, implies_true, and_true]
        refine only_ofPairs ?_
        simp only [forall_mem_cons]
        exact ⟨by simp [keyRefs], only_keyRefs_ofPairs (by simp [keyRefs]), by simp⟩
      · simp

/-! ## Marks -/

/-- A field reference that is placed within no band, and through none of the scales that animation adds. -/
structure StaticRef (r : FieldRef) : Prop where
  unbanded : r.band = .null
  scale : Unclaimed r.scale

/-- A mark that animation can follow: it draws a regular dataset, and its channels have static references. -/
structure Traceable (m : Mark) : Prop where
  dataset : Regular m.dataset
  refs : ∀ c ∈ m.block "update", ∀ r, FieldRef.ofValue? c.2 = some r → StaticRef r

theorem flat_traceable : Mark.Flat Traceable := fun _ _ h => ⟨h.dataset, h.refs⟩

theorem all_withDataset (hn : Regular n) (h : Mark.All Traceable m) : Mark.All Traceable (m.withDataset n) := by
  rw [Mark.all_iff] at h ⊢
  refine ⟨⟨?_, h.1.refs⟩, h.2⟩
  rw [Mark.dataset_withDataset]
  exact hn

theorem edited_withDataset (hn : S ⟨.data, n⟩) (m : Mark) : Edited S m (m.withDataset n) := by
  obtain ⟨name, type, source, clip, encode, data, signals, scales, marks, others⟩ := m
  refine ⟨rfl, fun r hr => ?_, fun r hr => ?_⟩
  · rcases source with _ | ⟨data, _ | f⟩ <;> exact hr
  · have hsource : r ∈ sourceRefs ((Mark.withDataset n
        ⟨name, type, source, clip, encode, data, signals, scales, marks, others⟩).source) →
        r ∈ sourceRefs source ∨ S r := by
      rcases source with _ | ⟨data, _ | f⟩ <;> simp [Mark.withDataset, sourceRefs] <;> grind
    simp only [Mark.withDataset, markRefs, mem_append] at hr hsource ⊢
    rcases hr with ((hr | hr) | hr) | hr
    · exact (hsource hr).imp_left fun hr => .inl (.inl (.inl hr))
    · exact .inl (.inl (.inl (.inr hr)))
    · exact .inl (.inl (.inr hr))
    · exact .inl (.inr hr)

theorem mentions_dataset (h : m.dataset ≠ "") : ⟨.data, m.dataset⟩ ∈ markRefs m := by
  obtain ⟨name, type, source, clip, encode, data, signals, scales, marks, others⟩ := m
  rcases source with _ | ⟨data, _ | f⟩
  · exact absurd rfl h
  · simp [markRefs, sourceRefs, Mark.dataset]
  · simp [markRefs, sourceRefs, Mark.dataset]

theorem resolves_dataset (hg : Settled allowed g) {path : String} (h : g.unitMark? path = some m) :
    Resolves allowed g ⟨.data, m.dataset⟩ := by
  by_cases hm : m.dataset = ""
  · exact .inl hm
  · exact hg _ (mentioned_unitMark? h _ (mentions_dataset hm))

/-! ## Units -/

def bindingFor (s : Scope) (source stem : String) (ps : List FieldPredicate) : Binding where
  source
  stem
  key := s.time.keyField?
  spans := s.time.keyField?.isSome && ps.any spansKeyframes

/-- The graph before a unit, given by its index, is animated: all it mentions is known, the clock is in it, and so are
the datasets of every stem. -/
structure Ready (allowed : Ref → Prop) (st : Stage) (i : Nat) : Prop where
  settled : Settled allowed st.graph
  drawn : st.graph.Drawn Traceable
  clock : ∀ n ∈ clockSignals st.scope, ⟨.signal, n⟩ ∈ defined st.graph
  stems : ∀ e ∈ st.prefixes, IsStem st.scope.id.suffix i e.1
  derived : ∀ e ∈ st.prefixes, ∃ ps, ps ≠ [] ∧ e.2 = keyframeFilter st.scope ps st.scope.current
    ∧ ∀ n ∈ (bindingFor st.scope "" e.1 ps).names, ⟨.data, n⟩ ∈ defined st.graph

/-- The graph has the datasets of a binding. -/
structure Bound (g : Graph) (b : Binding) : Prop where
  names : ∀ n ∈ b.names, ⟨.data, n⟩ ∈ defined g
  stem : ∃ tail, b.stem = b.source ++ tail
  keyed : b.spans = true → b.key.isSome = true

theorem Bound.grows {g' : Graph} (h : Bound g b) (hg : Grows S g g') : Bound g' b :=
  ⟨fun n hn => hg.defined _ (h.names n hn), h.stem, h.keyed⟩

namespace Ready

variable {i : Nat}

theorem mono {j : Nat} (h : Ready allowed st i) (hij : i ≤ j) : Ready allowed st j where
  settled := h.settled
  drawn := h.drawn
  clock := h.clock
  stems := fun e he => (h.stems e he).mono hij
  derived := h.derived

theorem grows (h : Ready allowed st i) (hg : Grows (Resolves allowed g) st.graph g) (hdrawn : g.Drawn Traceable) :
    Ready allowed { st with graph := g } i where
  settled := h.settled.grows hg
  drawn := hdrawn
  clock := fun n hn => hg.defined _ (h.clock n hn)
  stems := h.stems
  derived := fun e he => by
    obtain ⟨ps, hps, hfilter, hnames⟩ := h.derived e he
    exact ⟨ps, hps, hfilter, fun n hn => hg.defined _ (hnames n hn)⟩

theorem merge_empty (h : Ready allowed st i) : Ready allowed (st.merge {}) i :=
  h.grows (.merge rfl (only_mentioned.mpr (by simp))) (h.drawn.merge_entries rfl)

theorem operands (h : Ready allowed st i) (hfield : isIdentifier st.scope.field = true) (hid : st.scope.id.IsSpelled)
    (hg : Grows S st.graph g) : ClockOperands (Resolves allowed g) st.scope :=
  .of_signals hid hfield fun n hn => .inr (.inr (.inr (hg.defined _ (h.clock n hn))))

theorem sharedNames (h : Ready allowed st i) (hstem : (stem, keyframeFilter st.scope ps st.scope.current) ∈ st.prefixes)
    (hps : ps ≠ []) : ∀ n ∈ (bindingFor st.scope source stem ps).names, ⟨.data, n⟩ ∈ defined st.graph := by
  obtain ⟨qs, hqs, hfilter, hnames⟩ := h.derived _ hstem
  have hspans := spansKeyframes_of_filter hps hqs hfilter
  have heq : (bindingFor st.scope source stem ps).names = (bindingFor st.scope "" stem qs).names := by
    simp only [Binding.names, bindingFor, hspans]
    rfl
  rw [heq]
  exact hnames

theorem addStem (h : Ready allowed st i) (hfield : isIdentifier st.scope.field = true) (hid : st.scope.id.IsSpelled)
    (hsource : Resolves allowed st.graph ⟨.data, source⟩) (hstem : IsStem st.scope.id.suffix (i + 1) stem)
    (hps : ps ≠ []) : let part : Graph := { data := Animation.derived st (bindingFor st.scope source stem ps) ps }
    Ready allowed { st with
      graph := st.graph.merge part
      prefixes := Dict.put stem (keyframeFilter st.scope ps st.scope.current) st.prefixes } (i + 1)
    ∧ ∀ n ∈ (bindingFor st.scope source stem ps).names, ⟨.data, n⟩ ∈ defined (st.graph.merge part) := by
  intro part
  have hkeep : Grows (fun _ => True) st.graph (st.graph.merge part) := .merge rfl fun _ _ => trivial
  have hnames : ∀ n ∈ (bindingFor st.scope source stem ps).names, ⟨.data, n⟩ ∈ defined (st.graph.merge part) := by
    intro n hn
    refine defined_data (Named.mem_names_merge.mpr (.inr ?_))
    rw [← names_derived st _ ps] at hn
    exact hn
  have honly : Only (Resolves allowed (st.graph.merge part)) (mentioned part) := by
    refine only_mentioned.mpr ⟨?_, by simp [part], by simp [part], by simp [part], by simp [part]⟩
    exact only_derivedDatasets (h.operands hfield hid hkeep) hps (fun r hr => (h.settled r hr).grows hkeep)
      (hsource.grows hkeep) fun n hn => .inr (.inr (.inr (hnames n hn)))
  have hready := h.grows (.merge rfl honly) (h.drawn.merge_entries rfl)
  refine ⟨⟨hready.settled, hready.drawn, hready.clock, fun e he => ?_, fun e he => ?_⟩, hnames⟩
  · rcases Dict.mem_of_mem_put he with rfl | he
    · exact hstem
    · exact (h.stems e he).mono (Nat.le_succ i)
  · rcases Dict.mem_of_mem_put he with rfl | he
    · exact ⟨ps, hps, rfl, hnames⟩
    · exact hready.derived e he

theorem withDataset (h : Ready allowed st i) (hn : ⟨.data, n⟩ ∈ defined st.graph) (hregular : Regular n) (path : String) :
    Ready allowed (st.merge (st.graph.editUnitMark path (Mark.withDataset n))) i := by
  have hedited (S : Ref → Prop) (hS : S ⟨.data, n⟩) :
      Grows S st.graph (st.graph.merge (st.graph.editUnitMark path (Mark.withDataset n))) :=
    .editUnitMark h.drawn.toApart fun m _ => edited_withDataset hS m
  exact h.grows (hedited _ (.inr (.inr (.inr ((hedited (fun _ => True) trivial).defined _ hn)))))
    (h.drawn.editUnitMark flat_traceable fun m _ => ⟨rfl, all_withDataset hregular⟩)

end Ready

theorem regular_append (a : String) {tail : String}
    (h : '_' ∈ tail.toList ∧ ∃ c, tail.toList.getLast? = some c ∧ c.isDigit = false) : Regular (a ++ tail) := by
  obtain ⟨hmem, c, hlast, hdigit⟩ := h
  refine .inr ⟨fun heq => ?_, fun d hd => ?_⟩
  · have hdata : '_' ∈ "data".toList := by
      rw [← heq, String.toList_append]
      exact mem_append_right _ hmem
    revert hdata
    decide
  · rw [String.toList_append, List.getLast?_append, hlast] at hd
    obtain rfl : c = d := by simpa using hd
    exact hdigit

theorem regular_target (b : Binding) : Regular b.target := by
  unfold Binding.target
  split
  · exact regular_append _ ⟨by decide, 'e', by decide, by decide⟩
  · exact regular_append _ ⟨by decide, 'r', by decide, by decide⟩

theorem bindKeyframes_cases {i : Nat} (h : bindKeyframes st i u = .ok (some (st', b))) :
    ∃ m, st.graph.unitMark? u.path = some m ∧ ∃ stem fresh st₁,
      st.stemFor m.dataset (keyframeFilter st.scope (unitComparisons st.scope u) st.scope.current) i = (stem, fresh, st₁)
      ∧ b = bindingFor st.scope m.dataset stem (unitComparisons st.scope u)
      ∧ ∃ st₂, st₂ = (if fresh then st₁.merge { data := derived st₁ b (unitComparisons st.scope u) } else st₁)
      ∧ st' = st₂.merge (st₂.graph.editUnitMark u.path (Mark.withDataset b.target)) := by
  unfold bindKeyframes at h
  cases hm : st.graph.unitMark? u.path with
  | none =>
    rw [hm] at h
    cases h
  | some m =>
    rw [hm] at h
    dsimp only at h
    split at h
    · cases h
    · obtain ⟨rfl, rfl⟩ := Prod.mk.inj (Option.some.inj (Except.ok.inj h))
      exact ⟨m, rfl, _, _, _, rfl, rfl, _, rfl, rfl⟩

theorem Ready.bindKeyframes {i : Nat} (h : Ready allowed st i) (hfield : isIdentifier st.scope.field = true)
    (hid : st.scope.id.IsSpelled) (hb : Animation.bindKeyframes st i u = .ok (some (st', b))) :
    Ready allowed st' (i + 1) ∧ Bound st'.graph b ∧ st'.scope = st.scope := by
  have hps := unitComparisons_ne_nil st.scope u
  obtain ⟨m, hm, stem, fresh, st₁, hstem, hbind, st₂, hst₂, rfl⟩ := bindKeyframes_cases hb
  have hregular : Regular m.dataset := (Mark.all_iff.mp (Graph.all_unitMark? h.drawn.all hm)).1.dataset
  have hkeyed {source stem : String} {ps : List FieldPredicate}
      (h : (bindingFor st.scope source stem ps).spans = true) :
      (bindingFor st.scope source stem ps).key.isSome = true := (Bool.and_eq_true_iff.mp h).1
  -- The stem is new and its datasets are added, or it is there and so are they.
  have hready : Ready allowed st₂ (i + 1) ∧ Bound st₂.graph b ∧ st₂.scope = st.scope := by
    rcases st.stemFor_cases (keyframeFilter st.scope (unitComparisons st.scope u) st.scope.current) hregular h.stems with
      ⟨stem', hnew, hshape, -⟩ | ⟨stem', hold, hshape, hmem⟩
    · obtain ⟨rfl, rfl, rfl⟩ : stem' = stem ∧ true = fresh ∧ { st with prefixes := _ } = st₁ := by
        simpa using hnew.symm.trans hstem
      subst hbind
      have hsource := resolves_dataset h.settled hm
      have hisStem : IsStem st.scope.id.suffix (i + 1) stem' :=
        ⟨m.dataset, hregular, hshape.imp_right fun h => ⟨i, Nat.lt_succ_self i, h⟩⟩
      obtain ⟨hready, hnames⟩ := h.addStem hfield hid hsource hisStem hps
      obtain rfl := hst₂
      refine ⟨hready, ⟨hnames, ?_, hkeyed⟩, rfl⟩
      rcases hshape with hshape | hshape
      · exact ⟨_, hshape⟩
      · refine ⟨"_" ++ toString i ++ st.scope.id.suffix, hshape.trans ?_⟩
        show m.dataset ++ "_" ++ toString i ++ st.scope.id.suffix = _
        simp only [bindingFor, String.append_assoc]
    · obtain ⟨rfl, rfl, rfl⟩ : stem' = stem ∧ false = fresh ∧ st = st₁ := by simpa using hold.symm.trans hstem
      obtain rfl : st₂ = st := hst₂
      subst hbind
      exact ⟨h.mono (Nat.le_succ i), ⟨h.sharedNames hmem hps, ⟨_, hshape⟩, hkeyed⟩, rfl⟩
  obtain ⟨hready, hbound, hscope⟩ := hready
  have htarget := hbound.names _ b.target_mem
  refine ⟨hready.withDataset htarget (regular_target b) u.path, ?_, hscope⟩
  refine hbound.grows (?_ : Grows (fun _ => True) _ _)
  exact .editUnitMark hready.drawn.toApart fun m _ => edited_withDataset trivial m

end AnimatedChart.Animation

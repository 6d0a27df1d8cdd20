import AnimatedChart.Animation.Tween
import AnimatedChart.Proofs.Graph.Domains
import AnimatedChart.Proofs.Animation.Keyframes

/-!
# Rescaled scales

A scale that is fitted to keyframes is drawn from the binding's datasets and from those that it was drawn from before.
-/

open List

namespace AnimatedChart.Animation

open Json Spec Dependency

variable {S allowed : Ref → Prop} {st : Stage} {b : Binding} {u : ScopedUnit} {old new : String} {r : Ref}
variable {c : Scale} {d : Value} {g : Graph} {k n : String} {ms : Dict Value}

theorem mem_domainData_rebind {x : String} (h : x ∈ domainData (rebindDomain d old new)) :
    x = new ∨ x ∈ domainData d ∧ x ≠ old := by
  rw [domainData_rebindDomain, mem_map] at h
  obtain ⟨y, hy, rfl⟩ := h
  unfold replaceName
  split
  · exact .inl rfl
  · next hne => exact .inr ⟨hy, hne⟩

theorem mem_memberRefs_put {v : Value} (h : r ∈ memberRefs (Dict.put k v ms)) :
    r ∈ keyRefs k v ∨ r ∈ memberRefs ms := by
  obtain ⟨m, hm, hr⟩ := mem_memberRefs.mp h
  rcases Dict.mem_of_mem_put hm with rfl | hm
  · exact .inl hr
  · exact .inr (mem_memberRefs.mpr ⟨m, hm, hr⟩)

theorem mem_memberRefs_rebind (h : r ∈ memberRefs (rebindReference old new ms)) :
    r = ⟨.data, new⟩ ∨ r ∈ memberRefs ms := by
  unfold rebindReference at h
  split at h
  · exact (mem_memberRefs_put h).imp_left fun hr => by simpa [keyRefs] using hr
  · exact .inr h

theorem mem_valueRefs_rebind (h : r ∈ valueRefs (rebindDomain d old new)) : r = ⟨.data, new⟩ ∨ r ∈ valueRefs d := by
  cases d with
  | object ms =>
    rw [rebindDomain, get?_rebindReference (.inl (by decide))] at h
    split at h
    · next fields hfields =>
      rcases mem_memberRefs_put h with h | h
      · obtain ⟨_, hmem, hr⟩ := mem_itemRefs.mp h
        obtain ⟨f, hf, rfl⟩ := mem_map.mp hmem
        have hfield (h : r ∈ valueRefs f) : r ∈ valueRefs (.object ms) :=
          mem_memberRefs.mpr ⟨_, Dict.mem_of_get? hfields, mem_itemRefs.mpr ⟨f, hf, h⟩⟩
        cases f with
        | object ms' => exact (mem_memberRefs_rebind hr).imp_right hfield
        | _ => exact .inr (hfield hr)
      · exact mem_memberRefs_rebind h
    · exact mem_memberRefs_rebind h
  | _ => exact .inr h

/-! ## Twins -/

theorem rescaleOne_cases {x : Scale} (h : x ∈ rescaleOne g b c) :
    x = { c with domain := rebindDomain c.domain b.source b.curr } ∨
    (∃ t, g.scale? (twinName c.name) = some t ∧ x = { t with domain := rebindDomain t.domain b.source b.next }) ∨
    x = { c with
      name := twinName c.name
      domain := rebindDomain (rebindDomain c.domain b.curr b.next) b.source b.next } := by
  unfold rescaleOne at h
  dsimp only at h
  cases ht : g.scale? (twinName c.name) with
  | none =>
    rw [ht] at h
    simpa using h
  | some t =>
    rw [ht] at h
    simp only [mem_cons, not_mem_nil, or_false] at h
    exact h.imp_right fun h => .inl ⟨t, rfl, h⟩

theorem name_of_scale? (h : g.scale? n = some c) : c.name = n :=
  eq_of_beq (find?_some (p := fun c : Scale => c.name == n) h)

theorem names_rescaleOne (g : Graph) (b : Binding) (c : Scale) :
    (rescaleOne g b c).map (·.name) = [c.name, twinName c.name] := by
  unfold rescaleOne
  dsimp only
  split
  · next t ht => simp [name_of_scale? ht]
  · simp

theorem mem_rescale {x : Scale} : x ∈ (rescale st u b).scales ↔ st.scope.time.rescales = true
    ∧ ∃ m, st.graph.unitMark? u.path = some m ∧ ∃ n ∈ channelScales m, ∃ c, st.graph.scale? n = some c
      ∧ isRescalable c b = true ∧ x ∈ rescaleOne st.graph b c := by
  unfold rescale
  split
  · next m hr hm =>
    simp only [mem_flatMap, mem_filter, mem_filterMap, hr, hm, true_and, Option.some.injEq,
      exists_eq_left']
    grind
  · next hnone =>
    simp only [not_mem_nil, false_iff]
    rintro ⟨hr, m, hm, -⟩
    exact hnone m hr hm

theorem marks_rescale : (rescale st u b).marks = [] := by
  unfold rescale
  split <;> rfl

theorem isRescalable_iff : isRescalable c b = true ↔
    c.hasContinuousDomain = true ∧ (b.source ∈ domainData c.domain ∨ b.curr ∈ domainData c.domain) := by
  simp [isRescalable]

theorem mem_names_rescale (hrescales : st.scope.time.rescales = true) {m : Mark}
    (hm : st.graph.unitMark? u.path = some m) (hn : n ∈ channelScales m) (hc : st.graph.scale? n = some c)
    (hrescalable : isRescalable c b = true) (hk : k = n ∨ k = twinName n) :
    k ∈ (rescale st u b).scales.map (·.name) := by
  have hk : k ∈ (rescaleOne st.graph b c).map (·.name) := by
    rw [names_rescaleOne, name_of_scale? hc]
    simpa using hk
  obtain ⟨x, hx, rfl⟩ := mem_map.mp hk
  exact mem_map.mpr ⟨x, mem_rescale.mpr ⟨hrescales, m, hm, n, hn, c, hc, hrescalable, hx⟩, rfl⟩

theorem defined_twin (hsource : b.next ≠ b.source) (hcurr : b.next ≠ b.curr)
    (hrescales : st.scope.time.rescales = true) {m : Mark} (hm : st.graph.unitMark? u.path = some m) {n : String}
    (hempty : n ≠ "") (hn : n ∈ channelScales m) {c : Scale}
    (hc : (st.graph.merge (rescale st u b)).scale? n = some c) (hrescalable : isRescalable c b = true) :
    ⟨.scale, twinName n⟩ ∈ defined (st.graph.merge (rescale st u b)) := by
  have hdefined (h : twinName n ∈ (rescale st u b).scales.map (·.name)) :
      ⟨.scale, twinName n⟩ ∈ defined (st.graph.merge (rescale st u b)) :=
    defined_scale (Named.mem_names_merge.mpr (.inr h))
  by_cases hpart : n ∈ (rescale st u b).scales.map (·.name)
  · obtain ⟨hcontinuous, hdomain⟩ := isRescalable_iff.mp hrescalable
    obtain ⟨-, m', hm', k, hk, c₁, hc₁, hr₁, hx⟩ := mem_rescale.mp (Named.mem_part_of_find?_merge hempty hpart hc)
    have hname := name_of_scale? hc
    rcases rescaleOne_cases hx with rfl | ⟨t, ht, rfl⟩ | rfl
    · obtain rfl : k = n := (name_of_scale? hc₁).symm.trans hname
      exact hdefined (mem_names_rescale hrescales hm hn hc₁ hr₁ (.inr rfl))
    · -- The scale is the twin of another one: it is drawn from the current rows by itself, so it gets a twin too.
      have hname : t.name = n := hname
      rw [← name_of_scale? ht, hname] at ht
      refine hdefined (mem_names_rescale hrescales hm hn ht (isRescalable_iff.mpr ⟨hcontinuous, .inr ?_⟩) (.inr rfl))
      rcases hdomain with h | h
      · rcases mem_domainData_rebind h with h | h
        · exact absurd h.symm hsource
        · exact absurd rfl h.2
      · rcases mem_domainData_rebind h with h | h
        · exact absurd h.symm hcurr
        · exact h.1
    · -- A twin that is made anew is drawn from neither.
      exfalso
      rcases hdomain with h | h
      · rcases mem_domainData_rebind h with h | h
        · exact hsource h.symm
        · exact h.2 rfl
      · rcases mem_domainData_rebind h with h | h
        · exact hcurr h.symm
        · rcases mem_domainData_rebind h.1 with h | h
          · exact hcurr h.symm
          · exact h.2 rfl
  · have hc' : st.graph.scale? n = some c := (Named.find?_merge_of_not_mem hpart).symm.trans hc
    exact absurd (mem_names_rescale hrescales hm hn hc' hrescalable (.inl rfl)) hpart

theorem only_rescale (hgraph : Only S (mentioned st.graph)) (hcurr : S ⟨.data, b.curr⟩) (hnext : S ⟨.data, b.next⟩) :
    Only S (mentioned (rescale st u b)) := by
  have hscales := (only_mentioned.mp hgraph).2.2.1
  have hrebind {d : Value} {old new : String} (hd : Only S (valueRefs d)) (hnew : S ⟨.data, new⟩) :
      Only S (valueRefs (rebindDomain d old new)) := by
    intro r hr
    rcases mem_valueRefs_rebind hr with rfl | hr
    · exact hnew
    · exact hd r hr
  have hpart : ∀ x ∈ (rescale st u b).scales, Only S (scaleRefs x) := by
    intro x hx
    obtain ⟨-, m, -, n, -, c, hc, -, hx⟩ := mem_rescale.mp hx
    have hown := only_scaleRefs.mp (hscales c (mem_of_find?_eq_some hc))
    rcases rescaleOne_cases hx with rfl | ⟨t, ht, rfl⟩ | rfl
    · exact only_scaleRefs.mpr ⟨hrebind hown.1 hcurr, hown.2⟩
    · have htwin := only_scaleRefs.mp (hscales t (mem_of_find?_eq_some ht))
      exact only_scaleRefs.mpr ⟨hrebind htwin.1 hnext, htwin.2⟩
    · exact only_scaleRefs.mpr ⟨hrebind (hrebind hown.1 hnext) hnext, hown.2⟩
  have hrest : (rescale st u b).data = [] ∧ (rescale st u b).signals = [] ∧ (rescale st u b).others = [] := by
    unfold rescale
    split <;> exact ⟨rfl, rfl, rfl⟩
  refine only_mentioned.mpr ⟨?_, ?_, hpart, ?_, ?_⟩
  · simp [hrest.1]
  · simp [hrest.2.1]
  · simp [marks_rescale]
  · simp [hrest.2.2]

theorem Ready.rescale {i : Nat} (h : Ready allowed st i) (hb : Bound st.graph b) (u : ScopedUnit) :
    Ready allowed (st.merge (rescale st u b)) i := by
  have hkeep : Grows (fun _ => True) st.graph (st.graph.merge (Animation.rescale st u b)) :=
    .merge marks_rescale fun _ _ => trivial
  have hknown {n : String} (hn : n ∈ b.names) :
      Resolves allowed (st.graph.merge (Animation.rescale st u b)) ⟨.data, n⟩ :=
    .inr (.inr (.inr (hkeep.defined _ (hb.names n hn))))
  refine h.grows (.merge marks_rescale (only_rescale (fun r hr => (h.settled r hr).grows hkeep) ?_ ?_))
    (h.drawn.merge_entries marks_rescale)
  · exact hknown (by simp [Binding.names])
  · exact hknown (by simp [Binding.names])

end AnimatedChart.Animation

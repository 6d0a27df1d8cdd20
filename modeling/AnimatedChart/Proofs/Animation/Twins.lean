import AnimatedChart.Proofs.Animation.StaticPart

/-!
# Twins of rescaled scales

Rescaling binds a scale to the current rows of a unit and its twin to the next ones, unit by unit and scope by scope.
-/

open List

namespace AnimatedChart.Animation

open Json Spec

variable {D : String → Prop} [DecidablePred D] {base g g' : Graph} {ss : List Scope} {b : Binding}
  {P : Scope → ScopedUnit → Binding → Prop} {c₀ : Scale} {n stem : String}
variable {d : Value} {path tail : String} {s : Scope} {st : Stage} {u : ScopedUnit}

/-! ## The next rows -/

/-- What a dataset of current rows would be named after: the name without its last five characters. -/
def stemOf (n : String) : String := String.ofList (n.toList.take (n.toList.length - 5))

theorem stemOf_append (stem : String) : stemOf (stem ++ "_curr") = stem := by
  have hlength : (stem ++ "_curr").toList.length - 5 = stem.toList.length := by simp
  rw [stemOf, hlength, String.toList_append, take_left, String.ofList_toList]

/-- The dataset of the next rows where a dataset has the current rows of one of the given stems, otherwise the same one. -/
def advance (D : String → Prop) [DecidablePred D] (n : String) : String :=
  if n = stemOf n ++ "_curr" ∧ D (stemOf n) then stemOf n ++ "_next" else n

theorem advance_curr (h : D stem) : advance D (stem ++ "_curr") = stem ++ "_next" := by
  rw [advance, stemOf_append, if_pos ⟨rfl, h⟩]

theorem advance_cases (D : String → Prop) [DecidablePred D] (n : String) :
    (∃ stem, D stem ∧ n = stem ++ "_curr" ∧ advance D n = stem ++ "_next")
      ∨ (∀ stem, D stem → n ≠ stem ++ "_curr") ∧ advance D n = n := by
  by_cases h : n = stemOf n ++ "_curr" ∧ D (stemOf n)
  · exact .inl ⟨stemOf n, h.2, h.1, if_pos h⟩
  · refine .inr ⟨?_, if_neg h⟩
    rintro stem hstem rfl
    exact h ⟨by rw [stemOf_append], (stemOf_append stem).symm ▸ hstem⟩

theorem getLast?_append (a : String) {x : Char} (h : tail.toList.getLast? = some x) :
    (a ++ tail).toList.getLast? = some x := by
  rw [String.toList_append, List.getLast?_append, h, Option.some_or]

theorem advance_ne_curr (h : D stem) (n : String) : advance D n ≠ stem ++ "_curr" := by
  intro heq
  rcases advance_cases D n with ⟨other, -, -, hn⟩ | ⟨hn, hfix⟩
  · have hlast := congrArg (fun a : String => a.toList.getLast?) (hn.symm.trans heq)
    simp only [getLast?_append _ (show "_next".toList.getLast? = some 't' from rfl),
      getLast?_append _ (show "_curr".toList.getLast? = some 'r' from rfl)] at hlast
    cases hlast
  · exact hn stem h (hfix.symm.trans heq)

theorem EndsDigit.ne_append (h : EndsDigit n) (a : String) {x : Char} (htail : tail.toList.getLast? = some x)
    (hx : x.isDigit = false) : n ≠ a ++ tail := by
  rintro rfl
  obtain ⟨c, hc, hdigit⟩ := h
  obtain rfl := Option.some.inj ((getLast?_append a htail).symm.trans hc)
  exact Bool.false_ne_true (hx.symm.trans hdigit)

theorem EndsDigit.ne_curr (h : EndsDigit n) (stem : String) : n ≠ stem ++ "_curr" := h.ne_append stem rfl rfl

theorem EndsDigit.ne_next (h : EndsDigit n) (stem : String) : n ≠ stem ++ "_next" := h.ne_append stem rfl rfl

theorem EndsDigit.advance_eq (h : EndsDigit n) {x : String} : advance D x = n ↔ x = n := by
  rcases advance_cases D x with ⟨stem, -, rfl, hx⟩ | ⟨-, hx⟩
  · rw [hx]
    exact ⟨fun heq => absurd heq.symm (h.ne_next stem), fun heq => absurd heq.symm (h.ne_curr stem)⟩
  · rw [hx]

/-! ## Domains of twins -/

/-- The binding is one to keyframes of a numbered source, under one of the given stems. -/
structure Stemming (D : String → Prop) (b : Binding) : Prop where
  source : EndsDigit b.source
  stem : D b.stem

theorem Stemming.next_ne_curr (b : Binding) : b.next ≠ b.curr := by
  intro heq
  have hlast := congrArg (fun a : String => a.toList.getLast?) heq
  simp only [Binding.next, Binding.curr, getLast?_append _ (show "_next".toList.getLast? = some 't' from rfl),
    getLast?_append _ (show "_curr".toList.getLast? = some 'r' from rfl)] at hlast
  cases hlast

namespace Stemming

variable (h : Stemming D b)

include h

omit [DecidablePred D] in
theorem curr_ne_source : b.curr ≠ b.source := (h.source.ne_curr b.stem).symm

omit [DecidablePred D] in
theorem next_ne_source : b.next ≠ b.source := (h.source.ne_next b.stem).symm

theorem renameDomain_rebind (d : Value) : renameDomain (advance D) (rebindDomain d b.source b.curr)
    = rebindDomain (renameDomain (advance D) d) b.source b.next := by
  have hcurr : advance D b.curr = b.next := advance_curr h.stem
  rw [rebindDomain_eq h.curr_ne_source, rebindDomain_eq h.next_ne_source, renameDomain_comp, renameDomain_comp]
  · refine renameDomain_congr fun n _ => ?_
    by_cases hn : n = b.source
    · subst hn
      simp [replaceName, hcurr, h.source.advance_eq.mpr rfl]
    · have hne : advance D n ≠ b.source := fun heq => hn (h.source.advance_eq.mp heq)
      simp [replaceName, hn, hne]
  · intro n heq
    by_cases hn : advance D n = b.source
    · rw [h.source.advance_eq.mp hn, h.source.advance_eq.mpr rfl]
    · simpa [replaceName, hn] using heq
  · intro n heq
    by_cases hn : n = b.source
    · subst hn
      simp only [replaceName, if_true, hcurr] at heq
      exact absurd heq h.next_ne_source
    · simp [replaceName, hn]

theorem rebindDomain_eq_rename (hown : ∀ other, D other → other ++ "_curr" ∈ domainData d → other = b.stem) :
    rebindDomain d b.curr b.next = renameDomain (advance D) d := by
  rw [rebindDomain_eq (next_ne_curr b)]
  refine renameDomain_congr fun n hn => ?_
  rcases advance_cases D n with ⟨stem, hstem, rfl, hadvance⟩ | ⟨hnone, hadvance⟩
  · obtain rfl := hown stem hstem hn
    rw [hadvance]
    exact if_pos rfl
  · rw [hadvance]
    exact if_neg (hnone b.stem h.stem)

end Stemming

theorem mem_domainData_rebind_of_ne {old new x : String} (hne : new ≠ old) (hx : x ∈ domainData d) (hold : x ≠ old) :
    x ∈ domainData (rebindDomain d old new) := by
  rw [rebindDomain_eq hne, domainData_renameDomain]
  exact mem_map.mpr ⟨x, hx, if_neg hold⟩

/-- The domain of a twin goes on from the current to the next rows of the domain of its scale. -/
structure Mirrors (D : String → Prop) [DecidablePred D] (start d t : Value) (stem : String) : Prop where
  known : D stem
  follows : (∀ other, D other → other ++ "_curr" ∈ domainData start → other = stem) → t = renameDomain (advance D) d
  stays : ∀ other, D other → other ++ "_curr" ∈ domainData start → other ≠ stem → other ++ "_curr" ∈ domainData t

namespace Mirrors

variable {start d t : Value}

theorem iff (h : Mirrors D start d t stem) :
    t = renameDomain (advance D) d ↔ ∀ other, D other → other ++ "_curr" ∈ domainData start → other = stem := by
  refine ⟨fun heq other hother hmem => ?_, h.follows⟩
  by_contra hne
  have hstays := h.stays other hother hmem hne
  rw [heq, domainData_renameDomain] at hstays
  obtain ⟨n, -, hn⟩ := mem_map.mp hstays
  exact advance_ne_curr hother n hn

theorem create (hb : Stemming D b) (start : Value) : Mirrors D start (rebindDomain start b.source b.curr)
      (rebindDomain (rebindDomain start b.curr b.next) b.source b.next) b.stem where
  known := hb.stem
  follows := fun hown => by rw [hb.renameDomain_rebind, hb.rebindDomain_eq_rename hown]
  stays := fun other _ hmem hne => by
    refine mem_domainData_rebind_of_ne hb.next_ne_source ?_ (hb.source.ne_curr other).symm
    refine mem_domainData_rebind_of_ne (Stemming.next_ne_curr b) hmem fun heq => hne ?_
    exact String.append_left_inj _ |>.mp heq

theorem rebind (h : Mirrors D start d t stem) (hb : Stemming D b) :
    Mirrors D start (rebindDomain d b.source b.curr) (rebindDomain t b.source b.next) stem where
  known := h.known
  follows := fun hown => by rw [hb.renameDomain_rebind, h.follows hown]
  stays := fun other hother hmem hne =>
    mem_domainData_rebind_of_ne hb.next_ne_source (h.stays other hother hmem hne) (hb.source.ne_curr other).symm

end Mirrors

/-! ## Rescaling a mark -/

theorem twinName_inj {a b : String} (h : twinName a = twinName b) : a = b := String.append_left_inj _ |>.mp h

theorem twinName_ne (a : String) : twinName a ≠ "" := fun h => by simpa [twinName] using congrArg String.length h

theorem not_unclaimed_twinName (a : String) : ¬Unclaimed (twinName a) := fun h => h.2 (getLast?_append a rfl)

theorem staticRef_channel (hg : g.Drawn Traceable) {m : Mark} (hm : g.unitMark? path = some m) {e : String × Value}
    (he : e ∈ m.primary.block "update") {r : FieldRef} (hr : FieldRef.ofValue? e.2 = some r) : StaticRef r :=
  (Mark.all_iff.mp (Mark.all_primary (Graph.all_unitMark? hg.all hm))).1.refs e he r hr

theorem unclaimed_channelScales (hg : g.Drawn Traceable) {m : Mark} (hm : g.unitMark? path = some m)
    (hn : n ∈ channelScales m) : Unclaimed n ∧ n ≠ "" := by
  obtain ⟨e, he, hr⟩ := mem_filterMap.mp (mem_eraseDups.mp hn)
  split at hr
  · next r href =>
    split at hr
    · cases hr
    · next hne =>
      cases hr
      exact ⟨(staticRef_channel hg hm he href).scale, fun heq => hne (String.isEmpty_iff.mpr heq)⟩
  · cases hr

theorem exists_rescaled (hg : st.graph.Drawn Traceable) {x : Scale} (hx : x ∈ (rescale st u b).scales)
    (hn : Unclaimed n) (hname : x.name = n ∨ x.name = twinName n) :
    ∃ c, st.graph.scale? n = some c ∧ x ∈ rescaleOne st.graph b c
      ∧ n ∈ (rescale st u b).scales.map (·.name) ∧ twinName n ∈ (rescale st u b).scales.map (·.name) := by
  obtain ⟨hrescales, m, hm, k, hk, c, hc, hrescalable, hx⟩ := mem_rescale.mp hx
  have hnames := names_rescaleOne st.graph b c
  rw [name_of_scale? hc] at hnames
  have hkn : k = n := by
    have hunclaimed := (unclaimed_channelScales hg hm hk).1
    have hxk : x.name = k ∨ x.name = twinName k := by
      have hmem := mem_map_of_mem (f := (·.name)) hx
      rw [hnames] at hmem
      simpa using hmem
    rcases hxk with hxk | hxk <;> rcases hname with hname | hname
    · exact hxk.symm.trans hname
    · exact absurd (hxk.symm.trans hname ▸ hunclaimed) (not_unclaimed_twinName n)
    · exact absurd (hname.symm.trans hxk ▸ hn) (not_unclaimed_twinName k)
    · exact twinName_inj (hxk.symm.trans hname)
  subst hkn
  have hboth : ∀ a ∈ [k, twinName k], a ∈ (rescale st u b).scales.map (·.name) := by
    rw [← hnames]
    intro a ha
    obtain ⟨y, hy, rfl⟩ := mem_map.mp ha
    exact mem_map_of_mem (mem_rescale.mpr ⟨hrescales, m, hm, k, hk, c, hc, hrescalable, hy⟩)
  exact ⟨c, hc, hx, hboth _ (by simp), hboth _ (by simp)⟩

theorem domains_rescaleOne {c x t : Scale} (hx : x ∈ rescaleOne g b c) (ht : t ∈ rescaleOne g b c)
    (hxname : x.name = c.name) (htname : t.name = twinName c.name) : x.domain = rebindDomain c.domain b.source b.curr
      ∧ (g.scale? (twinName c.name) = none
          ∧ t.domain = rebindDomain (rebindDomain c.domain b.curr b.next) b.source b.next
        ∨ ∃ t₀, g.scale? (twinName c.name) = some t₀ ∧ t.domain = rebindDomain t₀.domain b.source b.next) := by
  have hne : c.name ≠ twinName c.name := fun heq => by simpa [twinName] using congrArg String.length heq
  unfold rescaleOne at hx ht
  dsimp only at hx ht
  cases hfound : g.scale? (twinName c.name) with
  | none =>
    rw [hfound] at hx ht
    simp only [mem_cons, not_mem_nil, or_false] at hx ht
    rcases hx with rfl | rfl
    · rcases ht with rfl | rfl
      · exact absurd htname hne
      · exact ⟨rfl, .inl ⟨rfl, rfl⟩⟩
    · exact absurd hxname.symm hne
  | some t₀ =>
    rw [hfound] at hx ht
    have hname := name_of_scale? hfound
    simp only [mem_cons, not_mem_nil, or_false] at hx ht
    rcases hx with rfl | rfl
    · rcases ht with rfl | rfl
      · exact absurd htname hne
      · exact ⟨rfl, .inr ⟨t₀, rfl, rfl⟩⟩
    · exact absurd (hxname.symm.trans hname) hne

/-! ## Steps -/

theorem Step.scales_cases (h : Step P ss g g') :
    ((∀ x ∈ g'.scales, (∃ s ∈ ss, x.name = s.timeScale) ∨ ∃ y ∈ g.scales, ∃ v, x = { y with domainRaw := v })
        ∧ g.scales.map (·.name) ⊆ g'.scales.map (·.name))
      ∨ ∃ (st : Stage) (u : ScopedUnit) (b : Binding), st.scope ∈ ss ∧ st.graph = g ∧ P st.scope u b
        ∧ g' = g.merge (Animation.rescale st u b) := by
  have hsame {g' : Graph} (heq : g'.scales = g.scales) :
      (∀ x ∈ g'.scales, (∃ s ∈ ss, x.name = s.timeScale) ∨ ∃ y ∈ g.scales, ∃ v, x = { y with domainRaw := v })
        ∧ g.scales.map (·.name) ⊆ g'.scales.map (·.name) := by
    rw [heq]
    exact ⟨fun x hx => .inr ⟨x, hx, x.domainRaw, rfl⟩, List.Subset.refl _⟩
  cases h with
  | @entries s part hs hpart =>
    refine .inl ⟨fun x hx => ?_, fun a ha => Named.mem_names_merge.mpr (.inl ha)⟩
    rcases Named.mem_merge hx with hx | hx
    · exact .inr ⟨x, hx, x.domainRaw, rfl⟩
    · rcases hpart.scales x hx with htime | ⟨-, c, v, hc, -, rfl⟩
      · exact .inl ⟨s, hs, htime⟩
      · exact .inr ⟨c, hc, v, rfl⟩
  | clip | redraw => exact .inl (hsame (scales_merge_edit _ _ _))
  | @rescale st u b hs hgraph _ hu => exact .inr ⟨st, u, b, hs, hgraph, hu, rfl⟩

/-- A scale of the base graph and its twin, while the graph is animated. -/
structure Tended (D : String → Prop) [DecidablePred D] (c : Scale) (g : Graph) : Prop where
  same : ∀ x ∈ g.scales, x.name = c.name ∨ x.name = twinName c.name →
    x.type = c.type ∧ x.range = c.range ∧ x.zero = c.zero
  alone : twinName c.name ∉ g.scales.map (·.name) → ∀ x ∈ g.scales, x.name = c.name → x.domain = c.domain
  mirrors : ∀ x ∈ g.scales, ∀ t ∈ g.scales, x.name = c.name → t.name = twinName c.name →
    ∃ stem, Mirrors D c.domain x.domain t.domain stem

theorem tended_of_nodup (hnodup : (g.scales.map (·.name)).Nodup) {c : Scale} (hc : c ∈ g.scales)
    (htwin : twinName c.name ∉ g.scales.map (·.name)) : Tended D c g where
  same := fun x hx hname => by
    rcases hname with hname | hname
    · obtain rfl := inj_on_of_nodup_map hnodup hx hc hname
      exact ⟨rfl, rfl, rfl⟩
    · exact absurd (hname ▸ mem_map_of_mem hx) htwin
  alone := fun _ x hx hname => by rw [inj_on_of_nodup_map hnodup hx hc hname]
  mirrors := fun _ _ t ht _ hname => absurd (hname ▸ mem_map_of_mem ht) htwin

theorem head_of_twinName (h : (twinName n).toList.head? = some 't') : n.toList.head? = some 't' := by
  rw [twinName, String.toList_append, head?_append] at h
  cases hn : n.toList.head? with
  | none =>
    rw [hn] at h
    cases h
  | some x =>
    rw [hn] at h
    exact h

theorem timeScale_ne (hn : Unclaimed n) (s : Scope) : s.timeScale ≠ n ∧ s.timeScale ≠ twinName n := by
  have hhead := head_timeScale s
  exact ⟨fun heq => hn.1 (heq ▸ hhead), fun heq => hn.1 (head_of_twinName (heq ▸ hhead))⟩

theorem mem_rescaled_cases (hg : st.graph.Drawn Traceable) (hn : Unclaimed n) (hne : n ≠ "") {x : Scale}
    (hx : x ∈ (st.graph.merge (rescale st u b)).scales) (hname : x.name = n ∨ x.name = twinName n) :
    x ∈ (rescale st u b).scales
      ∨ x ∈ st.graph.scales ∧ ∀ y ∈ (rescale st u b).scales, y.name ≠ n ∧ y.name ≠ twinName n := by
  rcases Named.mem_merge_cases hx with ⟨hx, hfree⟩ | hx
  · refine .inr ⟨hx, fun y hy => not_or.mp fun hyname => ?_⟩
    obtain ⟨c, -, -, hown, htwin⟩ := exists_rescaled hg hy hn hyname
    have hmem : x.name ∈ (rescale st u b).scales.map (·.name) := by
      rcases hname with hname | hname
      · exact hname ▸ hown
      · exact hname ▸ htwin
    have hxne : x.name ≠ "" := by
      rcases hname with hname | hname
      · exact hname ▸ hne
      · exact hname ▸ twinName_ne n
    exact hfree.elim hxne fun hfree => hfree hmem
  · exact .inl hx

theorem Tended.mirrors_rescaleOne (h : Tended D c₀ g) (hb : Stemming D b) {c x t : Scale}
    (hc : g.scale? c₀.name = some c) (hx : x ∈ rescaleOne g b c) (ht : t ∈ rescaleOne g b c) (hxname : x.name = c₀.name)
    (htname : t.name = twinName c₀.name) : ∃ stem, Mirrors D c₀.domain x.domain t.domain stem := by
  have hmem := mem_of_find?_eq_some hc
  have hcname := name_of_scale? hc
  rw [← hcname] at hxname htname
  obtain ⟨hxdomain, ⟨hnone, htdomain⟩ | ⟨t₀, ht₀, htdomain⟩⟩ := domains_rescaleOne hx ht hxname htname
  · have halone : twinName c₀.name ∉ g.scales.map (·.name) := by
      intro htwin
      obtain ⟨z, hz, hzname⟩ := mem_map.mp htwin
      exact absurd (find?_eq_none.mp hnone z hz) (by simp [hzname, hcname])
    rw [hxdomain, htdomain, h.alone halone c hmem hcname]
    exact ⟨b.stem, .create hb _⟩
  · rw [hcname] at ht₀
    obtain ⟨stem, hmirrors⟩ := h.mirrors c hmem t₀ (mem_of_find?_eq_some ht₀) hcname (name_of_scale? ht₀)
    rw [hxdomain, htdomain]
    exact ⟨stem, hmirrors.rebind hb⟩

theorem Tended.rescale {st : Stage} {u : ScopedUnit} (h : Tended D c₀ st.graph) (hg : st.graph.Drawn Traceable)
    (hb : Stemming D b) (hname : Unclaimed c₀.name) (hne : c₀.name ≠ "") :
    Tended D c₀ (st.graph.merge (rescale st u b)) := by
  refine ⟨fun x hx hxname => ?_, fun halone x hx hxname => ?_, fun x hx t ht hxname htname => ?_⟩
  · rcases mem_rescaled_cases hg hname hne hx hxname with hx | ⟨hx, -⟩
    · obtain ⟨c, hc, hx, -⟩ := exists_rescaled hg hx hname hxname
      have hsame := h.same c (mem_of_find?_eq_some hc) (.inl (name_of_scale? hc))
      rcases rescaleOne_cases hx with rfl | ⟨t, ht, rfl⟩ | rfl
      · exact hsame
      · refine h.same t (mem_of_find?_eq_some ht) (.inr ?_)
        rw [name_of_scale? ht, name_of_scale? hc]
      · exact hsame
    · exact h.same x hx hxname
  · rcases mem_rescaled_cases hg hname hne hx (.inl hxname) with hx | ⟨hx, -⟩
    · obtain ⟨c, -, -, -, htwin⟩ := exists_rescaled hg hx hname (.inl hxname)
      exact absurd (Named.mem_names_merge.mpr (.inr htwin)) halone
    · exact h.alone (fun hmem => halone (Named.mem_names_merge.mpr (.inl hmem))) x hx hxname
  · have htcases := mem_rescaled_cases hg hname hne ht (.inr htname)
    rcases mem_rescaled_cases hg hname hne hx (.inl hxname) with hx | ⟨hx, hfree⟩
    · have ht := htcases.resolve_right fun hbefore => (hbefore.2 x hx).1 hxname
      obtain ⟨c, hc, hx, -⟩ := exists_rescaled hg hx hname (.inl hxname)
      obtain ⟨c', hc', ht, -⟩ := exists_rescaled hg ht hname (.inr htname)
      obtain rfl := Option.some.inj (hc.symm.trans hc')
      exact h.mirrors_rescaleOne hb hc hx ht hxname htname
    · have ht := htcases.resolve_left fun ht => (hfree t ht).2 htname
      exact h.mirrors x hx t ht.1 hxname htname

theorem Step.tended (h : Step P ss g g') (hP : ∀ s ∈ ss, ∀ u b, P s u b → Stemming D b) (hg : g.Drawn Traceable)
    (hname : Unclaimed c₀.name) (hne : c₀.name ≠ "") (htended : Tended D c₀ g) : Tended D c₀ g' := by
  rcases h.scales_cases with ⟨hscales, hnames⟩ | ⟨st, u, b, hs, rfl, hu, rfl⟩
  · -- A scale or a twin is one from before, whatever has moved it.
    have hfrom : ∀ x ∈ g'.scales, x.name = c₀.name ∨ x.name = twinName c₀.name →
        ∃ y ∈ g.scales, ∃ v, x = { y with domainRaw := v } := by
      intro x hx hxname
      rcases hscales x hx with ⟨s, -, htime⟩ | hfrom
      · rcases hxname with hxname | hxname
        · exact absurd (htime.symm.trans hxname) (timeScale_ne hname s).1
        · exact absurd (htime.symm.trans hxname) (timeScale_ne hname s).2
      · exact hfrom
    refine ⟨fun x hx hxname => ?_, fun halone x hx hxname => ?_, fun x hx t ht hxname htname => ?_⟩
    · obtain ⟨y, hy, v, rfl⟩ := hfrom x hx hxname
      exact htended.same y hy hxname
    · obtain ⟨y, hy, v, rfl⟩ := hfrom x hx (.inl hxname)
      exact htended.alone (fun hmem => halone (hnames hmem)) y hy hxname
    · obtain ⟨y, hy, v, rfl⟩ := hfrom x hx (.inl hxname)
      obtain ⟨z, hz, w, rfl⟩ := hfrom t ht (.inr htname)
      exact htended.mirrors y hy z hz hxname htname
  · exact htended.rescale hg (hP _ hs _ _ hu) hname hne

/-! ## Names of scales -/

/-- Every scale is named like one of the base graph, like the twin of one, or like the time scale of a scope. -/
def Accounted (base : Graph) (ss : List Scope) (g : Graph) : Prop :=
  ∀ x ∈ g.scales, x.name ∈ base.scales.map (·.name) ∨ (∃ s ∈ ss, x.name = s.timeScale)
    ∨ ∃ n ∈ base.scales.map (·.name), n ≠ "" ∧ x.name = twinName n

theorem Step.accounted (h : Step P ss g g') (hg : g.Drawn Traceable) (hnames : Accounted base ss g) :
    Accounted base ss g' := by
  rcases h.scales_cases with ⟨hscales, -⟩ | ⟨st, u, b, -, rfl, -, rfl⟩
  · intro x hx
    rcases hscales x hx with htime | ⟨y, hy, v, rfl⟩
    · exact .inr (.inl htime)
    · exact hnames y hy
  · intro x hx
    rcases Named.mem_merge hx with hx | hx
    · exact hnames x hx
    · obtain ⟨-, m, hm, n, hn, c, hc, -, hx⟩ := mem_rescale.mp hx
      obtain ⟨hunclaimed, hne⟩ := unclaimed_channelScales hg hm hn
      have hmem : n ∈ base.scales.map (·.name) := by
        rcases hnames c (mem_of_find?_eq_some hc) with hbase | ⟨s, -, htime⟩ | ⟨k, -, -, htwin⟩
        · exact name_of_scale? hc ▸ hbase
        · exact absurd (htime.symm.trans (name_of_scale? hc)) (timeScale_ne hunclaimed s).1
        · exact absurd (htwin.symm.trans (name_of_scale? hc) ▸ hunclaimed) (not_unclaimed_twinName k)
      have hxname := mem_map_of_mem (f := (·.name)) hx
      rw [names_rescaleOne, name_of_scale? hc] at hxname
      simp only [mem_cons, not_mem_nil, or_false] at hxname
      rcases hxname with hxname | hxname
      · exact .inl (hxname ▸ hmem)
      · exact .inr (.inr ⟨n, hmem, hne, hxname⟩)

theorem Step.names_subset (h : Step P ss base g) : base.scales.map (·.name) ⊆ g.scales.map (·.name) := by
  rcases h.scales_cases with ⟨-, hnames⟩ | ⟨st, u, b, -, rfl, -, rfl⟩
  · exact hnames
  · exact fun n hn => Named.mem_names_merge.mpr (.inl hn)

theorem Steps.names_subset (h : Steps P ss base g) : base.scales.map (·.name) ⊆ g.scales.map (·.name) :=
  h.invariant (I := fun g => base.scales.map (·.name) ⊆ g.scales.map (·.name))
    (fun _ _ hkept hstep => List.Subset.trans hkept hstep.names_subset) (List.Subset.refl _)

theorem Steps.drawn (h : Steps P ss base g) (hbase : base.Drawn Traceable) : g.Drawn Traceable :=
  h.invariant (fun _ _ hdrawn hstep => hstep.drawn hdrawn) hbase

theorem Steps.mem_scaleNames (h : Steps P ss base g) (hbase : base.Drawn Traceable) (hn : Unclaimed n) :
    n ∈ g.scales.map (·.name) ↔ n ∈ base.scales.map (·.name) := by
  refine ⟨fun hmem => ?_, fun hmem => h.names_subset hmem⟩
  obtain ⟨-, haccounted⟩ := h.invariant (I := fun g => g.Drawn Traceable ∧ Accounted base ss g)
    (fun _ _ ⟨hdrawn, haccounted⟩ hstep => ⟨hstep.drawn hdrawn, hstep.accounted hdrawn haccounted⟩)
    ⟨hbase, fun x hx => .inl (mem_map_of_mem hx)⟩
  obtain ⟨x, hx, rfl⟩ := mem_map.mp hmem
  rcases haccounted x hx with hbase | ⟨s, -, htime⟩ | ⟨k, -, -, htwin⟩
  · exact hbase
  · exact absurd htime.symm (timeScale_ne hn s).1
  · exact absurd (htwin ▸ hn) (not_unclaimed_twinName k)

theorem isSome_scale? : (g.scale? n).isSome = true ↔ n ∈ g.scales.map (·.name) := by
  rw [Graph.scale?, find?_isSome, mem_map]
  simp only [beq_iff_eq]

theorem Step.unshared (h : Step P ss g g') (hg : Named.Unshared g.scales) : Named.Unshared g'.scales := by
  cases h with
  | entries | clip | redraw | rescale => exact hg.merge _

theorem endsDigit_timeScale (hid : s.id.IsPath) (hroot : s.id.isRoot = false) : EndsDigit s.timeScale := by
  have hname (id : ScopeId) (hid : id.IsPath) (hroot : id.isRoot = false) (w : String) : EndsDigit (id.name w) := by
    cases hid with
    | root => cases hroot
    | @child id kind _ _ i =>
      rw [ScopeId.name, ScopeId.suffix_child, ← String.append_assoc]
      exact endsDigit_append _ i
  unfold Scope.timeScale
  split
  · exact hname s.id hid hroot _
  · exact hname s.id hid hroot _

theorem timeScale_ne_twinName {c : Chart} {t : Scope} (hs : s ∈ c.scopes) (ht : t ∈ c.scopes) :
    s.timeScale ≠ twinName t.timeScale := by
  intro heq
  cases hroot : s.id.isRoot with
  | false => exact (endsDigit_timeScale (Chart.isPath_scopes hs) hroot).ne_next _ heq
  | true =>
    obtain rfl : t = s := by
      rw [Chart.scopes_of_isRoot hs hroot] at ht
      exact mem_singleton.mp ht
    simpa [twinName] using congrArg String.length heq

theorem Accounted.twin {c : Chart} (h : Accounted base c.scopes g) (hbase : ∀ x ∈ base.scales, Unclaimed x.name)
    {x t : Scale} (hx : x ∈ g.scales) (ht : t ∈ g.scales) (hname : t.name = twinName x.name) :
    ∃ c₀ ∈ base.scales, c₀.name = x.name ∧ c₀.name ≠ "" := by
  have hunclaimed : ∀ n ∈ base.scales.map (·.name), Unclaimed n := forall_mem_map.mpr hbase
  rcases h t ht with hmem | ⟨s, hs, htime⟩ | ⟨n, hn, hne, htwin⟩
  · exact absurd (hname ▸ hunclaimed _ hmem) (not_unclaimed_twinName _)
  · exfalso
    have hhead : x.name.toList.head? = some 't' := head_of_twinName (htime.symm.trans hname ▸ head_timeScale s)
    rcases h x hx with hmem | ⟨s', hs', htime'⟩ | ⟨n, hn, hne, htwin⟩
    · exact (hunclaimed _ hmem).1 hhead
    · exact timeScale_ne_twinName hs hs' (htime' ▸ htime.symm.trans hname)
    · exact (hunclaimed n hn).1 (head_of_twinName (htwin ▸ hhead))
  · obtain ⟨c₀, hc₀, rfl⟩ := mem_map.mp hn
    exact ⟨c₀, hc₀, twinName_inj (htwin.symm.trans hname), hne⟩

/-! ## Charts -/

def Keyframed (c : Chart) (out : Graph) (stem : String) : Prop :=
  ∃ s ∈ c.scopes, ∃ u ∈ s.units, s.filtersOf u ≠ []
    ∧ out.reads u.path = some (stem ++ if s.time.isKeyed then "_interpolate" else "_curr")

instance (c : Chart) (out : Graph) : DecidablePred (Keyframed c out) := fun stem =>
  inferInstanceAs (Decidable (∃ s ∈ c.scopes, ∃ u ∈ s.units, s.filtersOf u ≠ []
    ∧ out.reads u.path = some (stem ++ if s.time.isKeyed then "_interpolate" else "_curr")))

theorem Tracks.stemming {c : Chart} {out : Graph} (h : Tracks g s u b) (hs : s ∈ c.scopes) (hu : u ∈ s.units)
    (hout : out.reads u.path = g.reads u.path) : Stemming (Keyframed c out) b := by
  obtain ⟨k, root, -, rfl⟩ := h.binding
  refine ⟨endsDigit_sourceName k, s, hs, u, hu, h.filters, ?_⟩
  rw [hout, h.reads, Binding.target]
  show some (if s.time.isKeyed then _ else _) = _
  split <;> rfl

theorem Steps.tended (h : Steps P ss base g) (hP : ∀ s ∈ ss, ∀ u b, P s u b → Stemming D b)
    (hbase : base.Drawn Traceable) (hnames : ∀ x ∈ base.scales, Unclaimed x.name)
    (hnodup : (base.scales.map (·.name)).Nodup) :
    Named.Unshared g.scales ∧ Accounted base ss g ∧ ∀ c ∈ base.scales, c.name ≠ "" → Tended D c g := by
  have hstart (c : Scale) (hc : c ∈ base.scales) : Tended D c base := by
    refine tended_of_nodup hnodup hc fun hmem => ?_
    obtain ⟨x, hx, hname⟩ := mem_map.mp hmem
    exact not_unclaimed_twinName c.name (hname ▸ hnames x hx)
  have hall := h.invariant (I := fun g => g.Drawn Traceable ∧ Named.Unshared g.scales ∧ Accounted base ss g
      ∧ ∀ c ∈ base.scales, c.name ≠ "" → Tended D c g)
    (fun _ _ ⟨hdrawn, hunshared, haccounted, htended⟩ hstep => ⟨hstep.drawn hdrawn, hstep.unshared hunshared,
      hstep.accounted hdrawn haccounted, fun c hc hne => hstep.tended hP hdrawn (hnames c hc) hne (htended c hc hne)⟩)
    ⟨hbase, Named.unshared_of_nodup hnodup, fun x hx => .inl (mem_map_of_mem hx), fun c hc _ => hstart c hc⟩
  exact hall.2

/-- In a compiled document a twin is the only scale of its name, and it has the type, the range and the zero of its scale.
Its domain is that of the scale with the current rows of every unit replaced by the next ones, just if the base scale was
drawn from no current rows but those of one stem: that of the unit that the twin was made for. -/
theorem mirrors_compileDocument {doc : String} {out : Graph} (hout : compileDocument Adapter.reference.base doc = .ok out) :
    ∃ c g docs, Chart.parse doc = .ok c ∧ Runs (lowerStatic Adapter.reference.base c.elaborate) [] g docs
      ∧ ∀ x ∈ out.scales, ∀ t ∈ out.scales, t.name = twinName x.name →
        out.scales.filter (·.name == twinName x.name) = [t] ∧ t.type = x.type ∧ t.range = x.range ∧ t.zero = x.zero
        ∧ ∃ c₀ ∈ g.scales, c₀.name = x.name ∧ ∃ stem, Keyframed c.elaborate out stem
          ∧ (t.domain = renameDomain (advance (Keyframed c.elaborate out)) x.domain
            ↔ ∀ other, Keyframed c.elaborate out other → other ++ "_curr" ∈ domainData c₀.domain → other = stem) := by
  obtain ⟨c, g, docs, animated, hparse, hg, -, hcovers, rfl⟩ := covers_compileDocument hout
  obtain ⟨c', -, hnames⟩ := names_lowerStatic hg
  obtain ⟨-, hunclaimed, hnodup⟩ := hnames _ (Lowering.suppliedBy_true _)
  have horderly := orderly_lowerStatic hg
  obtain ⟨horderly', hretains⟩ := hcovers.steps.retains horderly
  obtain ⟨hunshared, haccounted, htended⟩ := hcovers.steps.tended
    (fun s hs u b ⟨hu, htracks⟩ => htracks.stemming hs hu
      (congrArg (Option.map Mark.dataset) (unitMark?_restoreOrder horderly.toDistinct horderly'.toDistinct hretains _)))
    (drawn_lowerStatic hg) hunclaimed hnodup
  refine ⟨c, g, docs, hparse, hg, fun x hx t ht hname => ?_⟩
  obtain ⟨c₀, hc₀, hc₀name, hne⟩ := haccounted.twin hunclaimed hx ht hname
  have hscale := htended c₀ hc₀ hne
  rw [← hc₀name] at hname
  obtain ⟨htype, hrange, hzero⟩ := hscale.same x hx (.inl hc₀name.symm)
  obtain ⟨httype, htrange, htzero⟩ := hscale.same t ht (.inr hname)
  obtain ⟨stem, hmirrors⟩ := hscale.mirrors x hx t ht hc₀name.symm hname
  have honly := hunshared.filter_eq ht (show t.name ≠ "" from hname ▸ twinName_ne _)
  refine ⟨?_, httype.trans htype.symm, htrange.trans hrange.symm, htzero.trans hzero.symm, c₀, hc₀, hc₀name, stem,
    hmirrors.known, hmirrors.iff⟩
  rw [← hc₀name, ← hname]
  exact honly

def rescaledPoints : Fragment :=
  .record [("data", .record [("values", .list [])]), ("mark", .text "point"),
    ("encoding", .record [("x", .record [("field", .text "a")]),
      ("time", .record [("field", .text "t"), ("rescale", .bool true)])])]

theorem mirrors_rescaledPoints :
    ∃ c out x t, Chart.parse rescaledPoints.pretty = .ok c
      ∧ compileDocument Adapter.reference.base rescaledPoints.pretty = .ok out ∧ x ∈ out.scales ∧ x.name = "x"
      ∧ domainData x.domain = ["data_0_curr"] ∧ out.scales.filter (·.name == "x_next") = [t]
      ∧ t.type = x.type ∧ t.range = x.range ∧ t.zero = x.zero
      ∧ t.domain = renameDomain (advance (Keyframed c.elaborate out)) x.domain := by
  have hcompiles : ∃ c ∈ unitOf? rescaledPoints, (∀ s ∈ c.elaborate.scopes, s.field ≠ "")
      ∧ ∃ g ∈ lowered? c.elaborate, (∀ x ∈ g.scales, domainData x.domain = ["data_0"])
        ∧ ((compileScopes Adapter.reference.base c.elaborate.scopes g).run.run [c.elaborate.static.render]).1.toOption.map
            (fun g' => g'.scales.map fun x => (x.name, domainData x.domain))
          = some [("time_t", ["data_0"]), ("x", ["data_0_curr"]), ("x_next", ["data_0_next"])] := by
    decide +kernel
  obtain ⟨c, hc, hfields, g, hg, hdomains, hscales⟩ := hcompiles
  obtain ⟨animated, hanimated, hscales⟩ := Option.map_eq_some_iff.mp hscales
  have hparse := parse_of_unitOf hc
  have hrun : Runs (compileScopes Adapter.reference.base c.elaborate.scopes g) [c.elaborate.static.render] animated _ :=
    Prod.ext (toOption_eq_some.mp hanimated) rfl
  obtain ⟨out, hout⟩ := compileDocument_of_runs hparse hfields (runs_of_lowered hg) hrun
  obtain ⟨_, helaborated⟩ := runs_of_compileDocument hparse hout
  obtain ⟨g', docs', animated', hg', hrun', heq⟩ := runs_compileElaborated helaborated
  obtain ⟨hsame, rfl⟩ := Prod.mk.inj ((runs_of_lowered hg).symm.trans hg')
  cases hsame
  obtain rfl := Except.ok.inj (Prod.mk.inj (hrun.symm.trans hrun')).1
  have hoption (p : String × List String) (hp : p ∈ out.scales.map fun x => (x.name, domainData x.domain)) :
      ∃ x ∈ out.scales, x.name = p.1 ∧ domainData x.domain = p.2 := by
    obtain ⟨x, hx, rfl⟩ := mem_map.mp hp
    exact ⟨x, hx, rfl, rfl⟩
  have hout_scales : out.scales.map (fun x => (x.name, domainData x.domain))
      = [("time_t", ["data_0"]), ("x", ["data_0_curr"]), ("x_next", ["data_0_next"])] := heq ▸ hscales
  obtain ⟨x, hx, hxname, hxdomain⟩ := hoption ("x", ["data_0_curr"]) (by rw [hout_scales]; decide)
  obtain ⟨t, ht, htname, -⟩ := hoption ("x_next", ["data_0_next"]) (by rw [hout_scales]; decide)
  obtain ⟨c₁, g₁, docs₁, hc₁, hg₁, hmirrors⟩ := mirrors_compileDocument hout
  obtain rfl := Except.ok.inj (hparse.symm.trans hc₁)
  obtain rfl := Except.ok.inj (Prod.mk.inj ((runs_of_lowered hg).symm.trans hg₁)).1
  obtain ⟨honly, htype, hrange, hzero, c₀, hc₀, -, stem, -, hdomain⟩ :=
    hmirrors x hx t ht (by rw [htname, hxname]; decide)
  rw [hxname] at honly
  refine ⟨c, out, x, t, hparse, hout, hx, hxname, hxdomain, honly, htype, hrange, hzero, hdomain.mpr ?_⟩
  intro other _ hmem
  rw [hdomains c₀ hc₀, mem_singleton] at hmem
  exact absurd hmem.symm ((endsDigit_sourceName 0).ne_curr other)

end AnimatedChart.Animation

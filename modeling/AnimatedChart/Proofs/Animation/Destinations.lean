import AnimatedChart.Proofs.Animation.Passage
import AnimatedChart.Proofs.Animation.Twins

/-!
# Where tweens aim

The destination of a tween goes through the twin of the scale if the scale is fitted to the current rows of the unit,
which can be read off the compiled graph (`destinations_compileDocument`).
-/

open List

namespace AnimatedChart.Animation

open Json Spec

variable {base g g' : Graph} {s : Scope} {ss : List Scope} {st : Stage} {u : ScopedUnit} {b : Binding}
  {P : Scope → ScopedUnit → Binding → Prop} {n : String}
variable {b' : Binding} {c₀ y : Scale} {docs : List String} {g' out : Graph} {key : String} {s' : Scope}
  {u' : ScopedUnit} {v : Value}

theorem mem_domainData_rebind_iff {d : Value} {old new x : String} (hne : new ≠ old) :
    x ∈ domainData (rebindDomain d old new) ↔ x = new ∧ old ∈ domainData d ∨ x ∈ domainData d ∧ x ≠ old := by
  rw [rebindDomain_eq hne, domainData_renameDomain, mem_map]
  constructor
  · rintro ⟨y, hy, rfl⟩
    by_cases hold : y = old
    · subst hold
      exact .inl ⟨if_pos rfl, hy⟩
    · rw [replaceName, if_neg hold]
      exact .inr ⟨hy, hold⟩
  · rintro (⟨rfl, hold⟩ | ⟨hx, hold⟩)
    · exact ⟨old, hold, if_pos rfl⟩
    · exact ⟨x, hx, if_neg hold⟩

theorem domain_rescaleOne {c : Scale} (hy : y ∈ rescaleOne g b c) (hname : y.name = c.name) (hc : Unclaimed c.name) :
    y.domain = rebindDomain c.domain b.source b.curr := by
  have hclaimed (heq : c.name = twinName c.name) : False := not_unclaimed_twinName _ (heq ▸ hc)
  rcases rescaleOne_cases hy with rfl | ⟨t, ht, rfl⟩ | rfl
  · rfl
  · have htname : t.name = twinName c.name := name_of_scale? ht
    exact (hclaimed (hname.symm.trans htname)).elim
  · exact (hclaimed hname.symm).elim

theorem Step.domain_cases (h : Step P ss g g') (hg : g.Drawn Traceable) (hn : Unclaimed n) (hne : n ≠ "")
    (hy : y ∈ g'.scales) (hname : y.name = n) : ∃ x ∈ g.scales, x.name = n ∧ (y.domain = x.domain
      ∨ ∃ s ∈ ss, ∃ u b, P s u b ∧ y.domain = rebindDomain x.domain b.source b.curr) := by
  rcases h.scales_cases with ⟨hscales, -⟩ | ⟨st, u, b, hs, rfl, hu, rfl⟩
  · rcases hscales y hy with ⟨s, -, htime⟩ | ⟨x, hx, v, rfl⟩
    · exact absurd (htime.symm.trans hname) (timeScale_ne hn s).1
    · exact ⟨x, hx, hname, .inl rfl⟩
  · rcases mem_rescaled_cases hg hn hne hy (.inl hname) with hy | ⟨hy, -⟩
    · obtain ⟨c, hc, hy, -⟩ := exists_rescaled hg hy hn (.inl hname)
      have hcname := name_of_scale? hc
      refine ⟨c, mem_of_find?_eq_some hc, hcname, .inr ⟨_, hs, u, b, hu, ?_⟩⟩
      exact domain_rescaleOne hy (hname.trans hcname.symm) (hcname ▸ hn)
    · exact ⟨y, hy, hname, .inl rfl⟩

theorem Steps.domain {R : Value → Prop} (h : Steps P ss g g') (hg : g.Drawn Traceable) (hn : Unclaimed n) (hne : n ≠ "")
    (hR : ∀ s ∈ ss, ∀ u b, P s u b → ∀ d, R d → R (rebindDomain d b.source b.curr))
    (hstart : ∀ x ∈ g.scales, x.name = n → R x.domain) : ∀ y ∈ g'.scales, y.name = n → R y.domain := by
  refine (h.invariant (I := fun g => g.Drawn Traceable ∧ ∀ x ∈ g.scales, x.name = n → R x.domain)
    (fun g₁ g₂ ⟨hdrawn, hdomains⟩ hstep => ⟨hstep.drawn hdrawn, fun y hy hname => ?_⟩) ⟨hg, hstart⟩).2
  obtain ⟨x, hx, hxname, heq | ⟨s, hs, u, b, hu, heq⟩⟩ := hstep.domain_cases hdrawn hn hne hy hname
  · exact heq ▸ hdomains x hx hxname
  · exact heq ▸ hR s hs u b hu _ (hdomains x hx hxname)

theorem Steps.continuous_twin (h : Steps P ss base g) (hbase : ∀ x ∈ base.scales, Unclaimed x.name) (hn : Unclaimed n) :
    ∀ t ∈ g.scales, t.name = twinName n → t.hasContinuousDomain = true := by
  refine h.invariant (I := fun g => ∀ t ∈ g.scales, t.name = twinName n → t.hasContinuousDomain = true)
    (fun g₁ g₂ hcontinuous hstep t ht hname => ?_) fun t ht hname => ?_
  · rcases hstep.scales_cases with ⟨hscales, -⟩ | ⟨st, u, b, -, rfl, -, rfl⟩
    · rcases hscales t ht with ⟨s, -, htime⟩ | ⟨x, hx, v, rfl⟩
      · exact absurd (htime.symm.trans hname) (timeScale_ne hn s).2
      · exact hcontinuous x hx hname
    · rcases Named.mem_merge ht with ht | ht
      · exact hcontinuous t ht hname
      · obtain ⟨-, m, -, k, -, c, -, hrescalable, ht⟩ := mem_rescale.mp ht
        have hc := (isRescalable_iff.mp hrescalable).1
        rcases rescaleOne_cases ht with rfl | ⟨t₀, ht₀, rfl⟩ | rfl
        · exact hc
        · exact hcontinuous t₀ (mem_of_find?_eq_some ht₀) hname
        · exact hc
  · exact absurd (hname ▸ hbase t ht) (not_unclaimed_twinName n)

/-! ## Bindings -/

theorem target_bindingFor (s : Scope) (source stem : String) (ps : List FieldPredicate) :
    (bindingFor s source stem ps).target = stem ++ if s.time.isKeyed then "_interpolate" else "_curr" := by
  show (if s.time.isKeyed then _ else _) = _
  split <;> rfl

theorem Tracks.endsDigit (h : Tracks g s u b) : EndsDigit b.source := by
  obtain ⟨k, root, -, rfl⟩ := h.binding
  exact endsDigit_sourceName k

theorem Tracks.curr_ne_source (h : Tracks g s u b) (b' : Binding) : b'.curr ≠ b.source :=
  (h.endsDigit.ne_curr b'.stem).symm

theorem Tracks.source_of_curr (h : Tracks g s u b) (h' : Tracks g' s' u' b') (hs : s.id.IsPath) (hs' : s'.id.IsPath)
    (heq : b.curr = b'.curr) : b.source = b'.source := by
  obtain ⟨k, root, hroot, rfl⟩ := h.binding
  obtain ⟨k', root', hroot', rfl⟩ := h'.binding
  obtain ⟨rfl, -, -⟩ := hroot.name_inj hroot' hs hs' (by decide) (by decide) heq
  exact congrArg sourceName (hroot.source_inj hroot')

theorem Tracks.stem_of_target (h : Tracks g s u b) (h' : Tracks g' s' u' b') (hs : s.id.IsPath) (hs' : s'.id.IsPath)
    (heq : b.target = b'.target) : b.stem = b'.stem := by
  obtain ⟨k, root, hroot, rfl⟩ := h.binding
  obtain ⟨k', root', hroot', rfl⟩ := h'.binding
  have htail (s : Scope) : (if s.time.isKeyed then "_interpolate" else "_curr") ∈ chainTails := by split <;> decide
  rw [target_bindingFor, target_bindingFor] at heq
  obtain ⟨rfl, hid, -⟩ := hroot.name_inj hroot' hs hs' (htail s) (htail s') heq
  exact congrArg (root ++ ·.suffix) hid

theorem Tracks.reads_before (h : Tracks g' s u b) (hpending : Pending base g ss) (hcovers : Covers base g ss g')
    (hs : s ∈ ss) (hid : s.id.IsPath) (hu : u ∈ s.units) : g.reads u.path = some b.source := by
  obtain ⟨k, hk⟩ := hpending.reads s hs u hu
  obtain ⟨root, hroot, -, hread⟩ := hcovers.follows s hs u hu h.filters k hk
  have h' : Tracks g' s u (bindingFor s (sourceName k) (root ++ s.id.suffix) (unitComparisons s u)) :=
    ⟨h.filters, ⟨k, root, hroot, rfl⟩, hread⟩
  have hstem := h.stem_of_target h' hid hid (Option.some.inj (h.reads.symm.trans hread))
  rw [hk, h.source_of_curr h' hid hid (congrArg (· ++ "_curr") hstem)]
  rfl

theorem Steps.settled_curr (h : Steps (Tracked out) ss g g') (hg : g.Drawn Traceable) (hn : Unclaimed n) (hne : n ≠ "")
    (hss : ∀ s ∈ ss, s.id.IsPath) (hs : s ∈ ss) (htracks : Tracks out s u b) {q : Prop}
    (hstart : ∀ x ∈ g.scales, x.name = n → b.source ∉ domainData x.domain ∧ (b.curr ∈ domainData x.domain ↔ q)) :
    ∀ y ∈ g'.scales, y.name = n → b.source ∉ domainData y.domain ∧ (b.curr ∈ domainData y.domain ↔ q) := by
  refine domain (R := fun d => b.source ∉ domainData d ∧ (b.curr ∈ domainData d ↔ q)) h hg hn hne ?_ hstart
  rintro s' hs' u' b' ⟨-, htracks'⟩ d ⟨hsource, hcurr⟩
  have hne' := htracks'.curr_ne_source b'
  constructor
  · -- Current rows are no source, so no source comes in.
    rw [mem_domainData_rebind_iff hne']
    rintro (⟨heq, -⟩ | ⟨hmem, -⟩)
    · exact htracks.curr_ne_source b' heq.symm
    · exact hsource hmem
  · rw [mem_domainData_rebind_iff hne', ← hcurr]
    refine ⟨fun hmem => hmem.elim (fun ⟨heq, hmem⟩ => ?_) And.left, fun hmem => .inr ⟨hmem, ?_⟩⟩
    · -- The same current rows would be bound to in place of the same source, which the scale has left.
      rw [← htracks.source_of_curr htracks' (hss s hs) (hss s' hs') heq] at hmem
      exact absurd hmem hsource
    · exact htracks'.curr_ne_source b

theorem Steps.drawn_curr (h : Steps (Tracked out) ss g g') (hg : g.Drawn Traceable) (hn : Unclaimed n) (hne : n ≠ "")
    {source : String} (hstart : ∀ x ∈ g.scales, x.name = n → source ∈ domainData x.domain) :
    ∀ y ∈ g'.scales, y.name = n → source ∈ domainData y.domain
      ∨ ∃ s ∈ ss, ∃ u b, Tracked out s u b ∧ b.source = source ∧ b.curr ∈ domainData y.domain := by
  refine domain (R := fun d => source ∈ domainData d
    ∨ ∃ s ∈ ss, ∃ u b, Tracked out s u b ∧ b.source = source ∧ b.curr ∈ domainData d) h hg hn hne ?_
    fun x hx hname => .inl (hstart x hx hname)
  intro s hs u b htracked d hd
  have hne' := htracked.2.curr_ne_source b
  rcases hd with hmem | ⟨s', hs', u', b', htracked', hsource, hmem⟩
  · by_cases heq : b.source = source
    · exact .inr ⟨s, hs, u, b, htracked, heq, (mem_domainData_rebind_iff hne').mpr (.inl ⟨rfl, heq ▸ hmem⟩)⟩
    · exact .inl ((mem_domainData_rebind_iff hne').mpr (.inr ⟨hmem, Ne.symm heq⟩))
  · refine .inr ⟨s', hs', u', b', htracked', hsource, (mem_domainData_rebind_iff hne').mpr (.inr ⟨hmem, ?_⟩)⟩
    exact htracked.2.curr_ne_source b'

theorem fitted_rescaled (hg : st.graph.Drawn Traceable) (hrescales : st.scope.time.rescales = true) {m : Mark}
    (hm : st.graph.unitMark? u.path = some m) (hn : n ∈ channelScales m) (hcurr : b.curr ≠ b.source) {c : Scale}
    (hc : (st.graph.merge (rescale st u b)).scale? n = some c) (hcontinuous : c.hasContinuousDomain = true) :
    b.source ∉ domainData c.domain ∧ (b.curr ∈ domainData c.domain →
      twinName n ∈ (st.graph.merge (rescale st u b)).scales.map (·.name)) := by
  obtain ⟨hunclaimed, hne⟩ := unclaimed_channelScales hg hm hn
  by_cases hpart : n ∈ (rescale st u b).scales.map (·.name)
  · have hname := name_of_scale? hc
    obtain ⟨c₁, hc₁, hc, -, htwin⟩ :=
      exists_rescaled hg (Named.mem_part_of_find?_merge hne hpart hc) hunclaimed (.inl hname)
    have hname₁ := name_of_scale? hc₁
    refine ⟨fun hmem => ?_, fun _ => Named.mem_names_merge.mpr (.inr htwin)⟩
    rw [domain_rescaleOne hc (hname.trans hname₁.symm) (hname₁ ▸ hunclaimed), mem_domainData_rebind_iff hcurr] at hmem
    rcases hmem with ⟨heq, -⟩ | ⟨-, hne⟩
    · exact hcurr heq.symm
    · exact hne rfl
  · -- A scale that was left alone could not be rescaled.
    have hc' : st.graph.scale? n = some c := (Named.find?_merge_of_not_mem hpart).symm.trans hc
    have hleft (hmem : b.source ∈ domainData c.domain ∨ b.curr ∈ domainData c.domain) : False :=
      hpart (mem_names_rescale hrescales hm hn hc' (isRescalable_iff.mpr ⟨hcontinuous, hmem⟩) (.inl rfl))
    exact ⟨fun hmem => hleft (.inl hmem), fun hmem => (hleft (.inr hmem)).elim⟩

/-! ## Scales while a chart is animated -/

/-- A graph to start from: its marks can be followed, and its scales have names of their own. -/
structure Grounded (g : Graph) : Prop where
  drawn : g.Drawn Traceable
  unclaimed : ∀ x ∈ g.scales, Unclaimed x.name
  nodup : (g.scales.map (·.name)).Nodup

theorem grounded_lowerStatic {c : Chart} {docs' : List String}
    (h : Runs (lowerStatic Adapter.reference.base c) docs g docs') : Grounded g := by
  obtain ⟨c', -, hnames⟩ := names_lowerStatic h
  obtain ⟨-, hunclaimed, hnodup⟩ := hnames _ (Lowering.suppliedBy_true _)
  exact ⟨drawn_lowerStatic h, hunclaimed, hnodup⟩

theorem Steps.alike (h : Steps (Tracked out) ss base g) (hbase : Grounded base) (hne : n ≠ "")
    (hc₀ : base.scale? n = some c₀) : ∃ c, g.scale? n = some c ∧ (∀ y ∈ g.scales, y.name = n → y = c)
      ∧ ∀ y ∈ g.scales, y.name = n ∨ y.name = twinName n → y.type = c₀.type ∧ y.range = c₀.range := by
  have hmem := mem_of_find?_eq_some hc₀
  obtain rfl := name_of_scale? hc₀
  obtain ⟨hunshared, -, htended⟩ := h.tended (D := fun _ => True)
    (fun s _ u b ⟨_, htracks⟩ => ⟨htracks.endsDigit, trivial⟩) hbase.drawn hbase.unclaimed hbase.nodup
  have hkept := (h.mem_scaleNames hbase.drawn (hbase.unclaimed c₀ hmem)).mpr (mem_map_of_mem hmem)
  obtain ⟨c, hc⟩ := Option.isSome_iff_exists.mp (isSome_scale?.mpr hkept)
  have hname := name_of_scale? hc
  refine ⟨c, hc, fun y hy hyname => ?_, fun y hy hyname => ?_⟩
  · exact hunshared.eq_of_name (mem_of_find?_eq_some hc) hy (hyname.trans hname.symm)
      fun hempty => hne (hname.symm.trans hempty)
  · obtain ⟨htype, hrange, -⟩ := (htended c₀ hmem hne).same y hy hyname
    exact ⟨htype, hrange⟩

theorem Steps.exists_alike (h : Steps (Tracked out) ss base g) (h' : Steps (Tracked out) ss g g')
    (hbase : Grounded base) (hn : Unclaimed n) (hne : n ≠ "") {x : Scale} (hx : g'.scale? n = some x) :
    ∃ c, g.scale? n = some c ∧ (∀ y ∈ g.scales, y.name = n → y = c) ∧ c.type = x.type ∧ c.range = x.range
      ∧ (twinName n ∈ g'.scales.map (·.name) → x.hasContinuousDomain = true) := by
  have hall := h.trans h'
  have hkept : n ∈ g'.scales.map (·.name) := isSome_scale?.mp (Option.isSome_iff_exists.mpr ⟨x, hx⟩)
  obtain ⟨c₀, hc₀⟩ := Option.isSome_iff_exists.mp
    (isSome_scale?.mpr ((mem_scaleNames hall hbase.drawn hn).mp hkept))
  -- Both scales are compared with the one that the steps start from.
  obtain ⟨c, hc, honly, hbefore⟩ := h.alike hbase hne hc₀
  obtain ⟨-, -, -, hafter⟩ := alike hall hbase hne hc₀
  obtain ⟨htype, hrange⟩ := hbefore c (mem_of_find?_eq_some hc) (.inl (name_of_scale? hc))
  obtain ⟨hxtype, hxrange⟩ := hafter x (mem_of_find?_eq_some hx) (.inl (name_of_scale? hx))
  refine ⟨c, hc, honly, htype.trans hxtype.symm, hrange.trans hxrange.symm, fun htwin => ?_⟩
  obtain ⟨t, ht, htname⟩ := mem_map.mp htwin
  have hcontinuous := continuous_twin hall hbase.unclaimed hn t ht htname
  rwa [Scale.hasContinuousDomain, (hafter t ht (.inr htname)).1, ← hxtype] at hcontinuous

/-- The tween of a channel: from the value of a row through a scale to that of its match through another one. -/
def tweenThrough (scale destination field tween : String) : String :=
  let own := scaleCall scale (access "datum" field)
  let matched := scaleCall destination (access "datum.next" field)
  s!"isValid(datum.next) ? {lerp own matched tween} : {own}"

/-- The scale that the match of a row goes through: the twin, if there is one and the scale is fitted to the current rows
of the stem. -/
def destination (g : Graph) (stem : String) (x : Scale) : String :=
  if twinName x.name ∈ g.scales.map (·.name) ∧ stem ++ "_curr" ∈ domainData x.domain then twinName x.name else x.name

theorem tweenChannel?_through {r : FieldRef} {c : Scale} (hr : FieldRef.ofValue? v = some r) (hne : r.scale ≠ "")
    (hc : st.graph.scale? r.scale = some c) (hdiscrete : c.hasDiscreteRange = false) (hcolor : c.isColor = false)
    (hspans : b.spans = false) (hband : r.band = .null) :
    tweenChannel? st b key v = some (replaceDefault v (tweenRule (tweenThrough r.scale
      (if st.scope.time.rescales && isRescalable c b then twinName r.scale else r.scale) r.field st.scope.tween)
      r.offset)) := by
  have hempty : r.scale.isEmpty = false := by simpa using hne
  simp only [tweenChannel?, hr, hempty, hc, Option.filter_some, hdiscrete, Option.bind_eq_bind, Option.bind_some,
    Bool.false_eq_true, if_false, Bool.not_false, if_true, Option.map_some, hband, Value.isSome, Bool.and_false,
    tweenExprs, hspans, hcolor, Option.isSome_some]
  rfl

namespace Passage

variable {compiler : BaseCompiler} {bound : Stage} {part : Graph} {m : Mark} {e : String × Value} {r : FieldRef} {x : Scale}

theorem aims (h : Passage compiler ss g u g' st bound b part) (hg : Grounded g) (horderly : g.Orderly)
    (hss : ∀ s ∈ ss, s.id.IsPath) (hrescales : bound.scope.time.rescales = true) (hm : g.unitMark? u.path = some m)
    (he : e ∈ m.primary.block "update") (hr : FieldRef.ofValue? e.2 = some r) (hne : r.scale ≠ "")
    (hx : g'.scale? r.scale = some x) : ∃ c, (bound.merge (rescale bound u b)).graph.scale? r.scale = some c
      ∧ c.hasDiscreteRange = x.hasDiscreteRange ∧ c.isColor = x.isColor
      ∧ (isRescalable c b = true ↔ twinName r.scale ∈ g'.scales.map (·.name) ∧ b.curr ∈ domainData x.domain)
      ∧ (twinName r.scale ∈ g'.scales.map (·.name) → x.hasContinuousDomain = true)
      ∧ (x.hasContinuousDomain = true → b.source ∉ domainData x.domain
        ∧ (b.curr ∈ domainData x.domain → twinName r.scale ∈ g'.scales.map (·.name))) := by
  have hbefore := h.steps_bound.trans h.steps_rescaled
  have hafter := h.steps_tweened.trans h.steps_rest
  have hunclaimed := (staticRef_channel hg.drawn hm he hr).scale
  obtain ⟨c, hc, honly, htype, hrange, hcontinuous⟩ := Steps.exists_alike hbefore hafter hg hunclaimed hne hx
  have hsame : c.hasContinuousDomain = x.hasContinuousDomain := by
    rw [Scale.hasContinuousDomain, Scale.hasContinuousDomain, htype]
  obtain ⟨m₁, hm₁, hblocks⟩ := h.unitMark_bound horderly hm
  have hscale : r.scale ∈ channelScales m₁ := mem_channelScales (hblocks "update" ▸ he) hr hne
  -- From the tween on nothing changes about the rows of the unit: the scale has left the source.
  have hfits (hcontinuous : x.hasContinuousDomain = true) : b.source ∉ domainData c.domain
      ∧ (b.curr ∈ domainData c.domain → twinName r.scale ∈ g'.scales.map (·.name))
      ∧ b.source ∉ domainData x.domain ∧ (b.curr ∈ domainData x.domain ↔ b.curr ∈ domainData c.domain) := by
    obtain ⟨hsource, htwin⟩ := fitted_rescaled (Steps.drawn h.steps_bound hg.drawn) hrescales hm₁ hscale
      (h.tracks.2.curr_ne_source b) hc (hsame.trans hcontinuous)
    refine ⟨hsource, fun hmem => Steps.names_subset hafter (htwin hmem), ?_⟩
    refine Steps.settled_curr hafter (Steps.drawn hbefore hg.drawn) hunclaimed hne hss h.mem h.tracks.2 ?_ x
      (mem_of_find?_eq_some hx) (name_of_scale? hx)
    intro y hy hyname
    rw [honly y hy hyname]
    exact ⟨hsource, Iff.rfl⟩
  refine ⟨c, hc, ?_, ?_, ?_, hcontinuous, fun hcontinuous => ?_⟩
  · rw [Scale.hasDiscreteRange, Scale.hasDiscreteRange, htype]
  · rw [Scale.isColor, Scale.isColor, hrange, name_of_scale? hc, name_of_scale? hx]
  · rw [isRescalable_iff, hsame]
    constructor
    · rintro ⟨hcontinuous, hmem⟩
      obtain ⟨hsource, htwin, -, hcurr⟩ := hfits hcontinuous
      have hmem := hmem.resolve_left hsource
      exact ⟨htwin hmem, hcurr.mpr hmem⟩
    · rintro ⟨htwin, hmem⟩
      obtain ⟨-, -, -, hcurr⟩ := hfits (hcontinuous htwin)
      exact ⟨hcontinuous htwin, .inr (hcurr.mp hmem)⟩
  · obtain ⟨-, htwin, hsource, hcurr⟩ := hfits hcontinuous
    exact ⟨hsource, fun hmem => htwin (hcurr.mp hmem)⟩

theorem tweens (h : Passage compiler ss g u g' st bound b part) (hg : Grounded g) (horderly : g.Orderly)
    (hss : ∀ s ∈ ss, s.id.IsPath) (hrescales : bound.scope.time.rescales = true) (hkey : b.key = some key)
    (hspans : b.spans = false) (hm : g.unitMark? u.path = some m) {m' : Mark} (hm' : g'.unitMark? u.path = some m')
    {channel : String} (hv : Dict.get? (m.primary.block "update") channel = some v) (hr : FieldRef.ofValue? v = some r)
    (hne : r.scale ≠ "") (hx : g'.scale? r.scale = some x) (hdiscrete : x.hasDiscreteRange = false)
    (hcolor : x.isColor = false) : Dict.get? (m'.primary.block "update") channel = some (replaceDefault v
        (tweenRule (tweenThrough r.scale (destination g' b.stem x) r.field bound.scope.tween) r.offset)) := by
  have hmem := Dict.mem_of_get? hv
  obtain ⟨c, hc, hdiscrete', hcolor', hrescalable, -, -⟩ := h.aims hg horderly hss hrescales hm hmem hr hne hx
  obtain ⟨m'', hm'', htweened, -⟩ := h.unitMark horderly hm
  obtain rfl := Option.some.inj (hm'.symm.trans hm'')
  have hband := (staticRef_channel hg.drawn hm hmem hr).unbanded
  have hdestination : (if bound.scope.time.rescales && isRescalable c b then twinName r.scale else r.scale)
      = destination g' b.stem x := by
    rw [hrescales, Bool.true_and, destination, name_of_scale? hx]
    exact if_congr hrescalable rfl rfl
  rw [htweened key hkey, tweenBlock, Dict.get?_mapValues, hv, Option.map_some, ← hdestination,
    tweenChannel?_through hr hne hc (hdiscrete'.trans hdiscrete) (hcolor'.trans hcolor) hspans hband]
  rfl

end Passage

/-! ## Charts -/

/-- All filtered units of scopes that have read what the unit has read draw the same rows in the end. -/
def Sole (ss : List Scope) (g g' : Graph) (u : ScopedUnit) : Prop :=
  ∀ s ∈ ss, ∀ v ∈ s.units, s.filtersOf v ≠ [] → g.reads v.path = g.reads u.path → g'.reads v.path = g'.reads u.path

theorem Covers.fitted_of_sole (h : Covers g g ss g') (hpending : Pending g g ss) (hss : ∀ s ∈ ss, s.id.IsPath)
    (hg : Grounded g) (hs : s ∈ ss) (hu : u ∈ s.units) (htracks : Tracks g' s u b) (hsole : Sole ss g g' u) {x : Scale}
    (hc₀ : c₀ ∈ g.scales) (hne : c₀.name ≠ "") (hsource : b.source ∈ domainData c₀.domain) (hx : x ∈ g'.scales)
    (hname : x.name = c₀.name) : b.source ∈ domainData x.domain ∨ b.curr ∈ domainData x.domain := by
  have hsteps : Steps (Tracked g') ss g g' := h.steps
  have hstart : ∀ y ∈ g.scales, y.name = c₀.name → b.source ∈ domainData y.domain := by
    intro y hy hyname
    rwa [inj_on_of_nodup_map hg.nodup hy hc₀ hyname]
  rcases hsteps.drawn_curr hg.drawn (hg.unclaimed c₀ hc₀) hne hstart x hx hname
    with hmem | ⟨s', hs', u', b', ⟨hu', htracks'⟩, heq, hmem⟩
  · exact .inl hmem
  · have hread := htracks.reads_before hpending h hs (hss s hs) hu
    have hread' := htracks'.reads_before hpending h hs' (hss s' hs') hu'
    rw [heq, ← hread] at hread'
    have htarget := hsole s' hs' u' hu' htracks'.filters hread'
    rw [htracks'.reads, htracks.reads] at htarget
    have hstem := htracks'.stem_of_target htracks (hss s' hs') (hss s hs) (Option.some.inj htarget)
    rw [Binding.curr, hstem] at hmem
    exact .inr hmem

theorem alike_compileDocument {doc : String} {c : Chart} (hparse : Chart.parse doc = .ok c)
    (hout : compileDocument Adapter.reference.base doc = .ok out)
    (hg : Runs (lowerStatic Adapter.reference.base c.elaborate) [] g docs) (hne : n ≠ "") (hc₀ : g.scale? n = some c₀) :
    ∃ x, out.scale? n = some x ∧ x.type = c₀.type ∧ x.range = c₀.range := by
  obtain ⟨c', g', docs', animated, hc', hg', -, hcovers, hscales, -⟩ := passage_compileDocument hout
  obtain rfl := Except.ok.inj (hparse.symm.trans hc')
  obtain rfl := Except.ok.inj (Prod.mk.inj (hg.symm.trans hg')).1
  have hsteps : Steps (Tracked animated) c.elaborate.scopes g animated := hcovers.steps
  obtain ⟨x, hx, -, hsame⟩ := hsteps.alike (grounded_lowerStatic hg) hne hc₀
  refine ⟨x, ?_, hsame x (mem_of_find?_eq_some hx) (.inl (name_of_scale? hx))⟩
  rw [Graph.scale?, ← hscales]
  exact hx

/-- In a compiled document, a channel of a keyed unit of a rescaled scope that goes through a scale which is neither
discrete nor for colours is tweened from that scale to the twin of the scale, just if the scale has a twin and is fitted
to the current rows of the unit. If the scale was drawn from the unit's source, and all filtered units of that source
draw the same rows, then it has a twin just if it is continuous, and a twin is the destination. -/
theorem destinations_compileDocument {doc : String} {out : Graph}
    (hout : compileDocument Adapter.reference.base doc = .ok out) :
    ∃ c g docs, Chart.parse doc = .ok c ∧ Runs (lowerStatic Adapter.reference.base c.elaborate) [] g docs
      ∧ ∀ s ∈ c.elaborate.scopes, s.time.rescales = true → s.time.isKeyed = true → ∀ u ∈ s.units, s.filtersOf u ≠ [] →
        (unitComparisons s u).any spansKeyframes = false →
        ∃ m m' stem, g.unitMark? u.path = some m ∧ out.unitMark? u.path = some m' ∧ m'.dataset = stem ++ "_interpolate"
          ∧ ∀ channel v r x, Dict.get? (m.primary.block "update") channel = some v → FieldRef.ofValue? v = some r →
            r.scale ≠ "" → out.scale? r.scale = some x → x.hasDiscreteRange = false → x.isColor = false →
            Dict.get? (m'.primary.block "update") channel
                = some (replaceDefault v
                  (tweenRule (tweenThrough r.scale (destination out stem x) r.field s.tween) r.offset))
              ∧ ∀ c₀ ∈ g.scales, c₀.name = x.name → ∀ source ∈ domainData c₀.domain, g.reads u.path = some source →
                Sole c.elaborate.scopes g out u →
                (twinName x.name ∈ out.scales.map (·.name) ↔ x.hasContinuousDomain = true)
                ∧ (twinName x.name ∈ out.scales.map (·.name) → destination out stem x = twinName x.name) := by
  obtain ⟨c, g, docs, animated, hparse, hg, hpending, hcovers, hscales, hmarks, hpassages⟩ := passage_compileDocument hout
  have hss := (scopesApart_elaborate c).isPath
  have hgrounded := grounded_lowerStatic hg
  have horderly := orderly_lowerStatic hg
  refine ⟨c, g, docs, hparse, hg, fun s hs hrescales hkeyed u hu hfilters hspans => ?_⟩
  obtain ⟨st, bound, b, part, m, rfl, hpassage, hm⟩ := hpassages s hs u hu hfilters
  have htracks := hpassage.tracks.2
  obtain ⟨m', hm', -⟩ := hpassage.unitMark horderly hm
  obtain ⟨key, hkey⟩ := Option.isSome_iff_exists.mp hkeyed
  obtain ⟨hbkey, hbspans⟩ : b.key = some key ∧ b.spans = false := by
    obtain ⟨k, root, -, rfl⟩ := htracks.binding
    exact ⟨hkey, Bool.and_eq_false_iff.mpr (.inr hspans)⟩
  refine ⟨m, m', b.stem, hm, (hmarks _).symm.trans hm', ?_, fun channel v r x hv hr hne hx hdiscrete hcolor => ?_⟩
  · obtain ⟨m'', hm'', hdataset⟩ := Option.map_eq_some_iff.mp htracks.reads
    obtain rfl := Option.some.inj (hm'.symm.trans hm'')
    rw [hdataset, Binding.target, hbkey]
    rfl
  · rw [Graph.scale?, ← hscales] at hx
    simp only [destination, ← hscales]
    refine ⟨hpassage.tweens hgrounded horderly hss hrescales hbkey hbspans hm hm' hv hr hne hx hdiscrete hcolor,
      fun c₀ hc₀ hname source hmem hread hsole => ?_⟩
    obtain ⟨-, -, -, -, -, hcontinuous, hfits⟩ :=
      hpassage.aims hgrounded horderly hss hrescales hm (Dict.mem_of_get? hv) hr hne hx
    have hxname := name_of_scale? hx
    have hsole : Sole c.elaborate.scopes g animated u := by simpa only [Sole, Graph.reads, hmarks] using hsole
    have hread' := htracks.reads_before hpending hcovers hs (hss _ hs) hu
    obtain rfl := Option.some.inj (hread.symm.trans hread')
    have hfitted := hcovers.fitted_of_sole hpending hss hgrounded hs hu htracks hsole hc₀
      (fun hempty => hne (hxname.symm.trans (hname.symm.trans hempty))) hmem (mem_of_find?_eq_some hx) hname.symm
    -- A continuous scale has left the source, so the current rows are what it is drawn from.
    have hcurr (h : x.hasContinuousDomain = true) : b.curr ∈ domainData x.domain := hfitted.resolve_left (hfits h).1
    rw [hxname]
    exact ⟨⟨hcontinuous, fun h => (hfits h).2 (hcurr h)⟩, fun htwin => if_pos ⟨htwin, hcurr (hcontinuous htwin)⟩⟩

/-- Points that are matched by `id`, with a scale that is fitted to keyframes. -/
def tweenedPoints : Fragment :=
  .record [("data", .record [("values", .list [])]), ("mark", .text "point"),
    ("encoding", .record [("x", .record [("field", .text "a")]),
      ("time", .record [("field", .text "t"), ("rescale", .bool true), ("key", .record [("field", .text "id")])])])]

theorem destinations_tweenedPoints :
    ∃ out m, compileDocument Adapter.reference.base tweenedPoints.pretty = .ok out ∧ out.unitMark? "" = some m
      ∧ Dict.get? (m.primary.block "update") "x" = some (.ofPairs [("signal", .string
        "isValid(datum.next) ? lerp([scale('x', datum.a), scale('x_next', datum.next.a)], anim_tween) : scale('x', datum.a)")]) := by
  have hscopes : ∃ c ∈ unitOf? tweenedPoints, (∃ s ∈ c.elaborate.scopes, s.units ≠ [])
      ∧ ∀ s ∈ c.elaborate.scopes, s.field ≠ "" ∧ s.time.rescales = true ∧ s.time.isKeyed = true ∧ s.tween = "anim_tween"
        ∧ ∀ u ∈ s.units, (u.unit.enter = none ∧ u.unit.exit = none) ∧ u.path = "" ∧ s.filtersOf u ≠ []
          ∧ (unitComparisons s u).any spansKeyframes = false := by
    decide +kernel
  have hlowers : ∃ c ∈ unitOf? tweenedPoints, ∃ g ∈ lowered? c.elaborate, g.reads "" = some "data_0"
      ∧ (((g.unitMark? "").bind fun m => Dict.get? (m.primary.block "update") "x").any fun v =>
          v.members?.isSome && (FieldRef.ofValue? v).any fun r => r.field == "a" && r.scale == "x" && !r.offset.isSome)
        = true
      ∧ ((g.scale? "x").any fun x =>
          (domainData x.domain).contains "data_0" && x.hasContinuousDomain && !x.hasDiscreteRange && !x.isColor) = true := by
    decide +kernel
  obtain ⟨c, hc, ⟨s, hs, hunits⟩, hscopes⟩ := hscopes
  obtain ⟨c', hc', g, hlowered, hread, hchannel, hscale⟩ := hlowers
  obtain rfl := Option.some.inj (hc.symm.trans hc')
  have hparse := parse_of_unitOf hc
  have hg := runs_of_lowered hlowered
  obtain ⟨out, hout⟩ := exists_compileDocument hparse (fun s hs => (hscopes s hs).1) hg fun s hs u hu _ => by
    obtain ⟨⟨henter, hexit⟩, -⟩ := (hscopes s hs).2.2.2.2 u hu
    rw [henter, hexit]
    exact ⟨by simp, by simp⟩
  obtain ⟨c₁, g', docs', hc₁, hg', hdestinations⟩ := destinations_compileDocument hout
  obtain rfl := Except.ok.inj (hparse.symm.trans hc₁)
  obtain rfl := Except.ok.inj (Prod.mk.inj (hg.symm.trans hg')).1
  obtain ⟨u, hu⟩ := exists_mem_of_ne_nil _ hunits
  obtain ⟨-, hrescales, hkeyed, htween, hunits⟩ := hscopes s hs
  obtain ⟨-, hpath, hfilters, hspans⟩ := hunits u hu
  obtain ⟨m, m', stem, hm, hm', -, hchannels⟩ := hdestinations s hs hrescales hkeyed u hu hfilters hspans
  rw [hpath] at hm hm'
  rw [hm, Option.bind_some] at hchannel
  simp only [Bool.and_eq_true, Option.any_eq_true, Bool.not_eq_true', beq_iff_eq, contains_iff_mem] at hchannel hscale
  obtain ⟨v, hv, hobject, r, hr, ⟨hfield, hrscale⟩, hoffset⟩ := hchannel
  -- The scale in the end has the type and the range of the one that was lowered.
  obtain ⟨c₀, hc₀, ⟨⟨hdata, hcontinuous⟩, hdiscrete⟩, hcolor⟩ := hscale
  obtain ⟨x, hx, htype, hrange⟩ := alike_compileDocument hparse hout hg (by decide) hc₀
  have hxname := name_of_scale? hx
  rw [Scale.hasContinuousDomain, ← htype] at hcontinuous
  rw [Scale.hasDiscreteRange, ← htype] at hdiscrete
  rw [Scale.isColor, ← hrange, name_of_scale? hc₀, ← hxname] at hcolor
  obtain ⟨hvalue, hsole⟩ := hchannels "x" v r x hv hr (hrscale ▸ by decide) (hrscale ▸ hx) hdiscrete hcolor
  obtain ⟨htwin, hdestination⟩ := hsole c₀ (mem_of_find?_eq_some hc₀) ((name_of_scale? hc₀).trans hxname.symm)
    "data_0" hdata (hpath ▸ hread) fun s' hs' u' hu' _ _ => by rw [((hscopes s' hs').2.2.2.2 u' hu').2.1, hpath]
  rw [hdestination (htwin.mpr hcontinuous), hxname, hrscale, hfield, htween] at hvalue
  obtain ⟨ms, -, ⟨rfl, hnew⟩ | ⟨rules, rfl, -⟩⟩ := replaceDefault_cases hr
    (tweenRule (tweenThrough "x" (twinName "x") "a" "anim_tween") r.offset)
  · refine ⟨out, m', hout, hm', ?_⟩
    rw [hvalue, hnew, tweenRule, hoffset]
    exact congrArg (fun expr => some (Value.ofPairs [("signal", .string expr)])) (by decide +kernel)
  · cases hobject

end AnimatedChart.Animation

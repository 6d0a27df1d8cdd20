import AnimatedChart.Proofs.Animation.MarkOrder

/-!
# What animation leaves alone

No dataset, scale or mark that animation adds or changes has the name of one that does not belong to it.
-/

open List

namespace AnimatedChart

variable {d : Dataset} {m : Mark} {n path : String} {s : Scope}

theorem Mark.clip_eq_self {v : Json.Value} (h : v = m.clip) : ({ m with clip := v } : Mark) = m := by
  subst h
  cases m
  rfl

theorem Graph.map_name_nodes (g : Graph) :
    g.nodes.map (·.name) = (g.marks.map Mark.outline).flatMap fun o => o.map (·.1) := by
  simp only [nodes, map_flatMap, flatMap_map, Mark.map_name_nodes]

namespace Animation

open Json Spec Lowering

variable {g g' : Graph} {s : Scope} {ss : List Scope} {st : Stage} {u : ScopedUnit} {b : Binding}
  {P : Scope → ScopedUnit → Binding → Prop}

/-! ## Names -/

theorem not_suffix_append {c a b : String} (hlength : c.toList.length ≤ b.toList.length)
    (h : ¬c.toList <:+ b.toList) : ¬c.toList <:+ (a ++ b).toList := by
  intro hsuffix
  rw [String.toList_append] at hsuffix
  exact h (suffix_of_suffix_length_le hsuffix (suffix_append _ _) hlength)

theorem EndsDigit.not_re (h : EndsDigit n) : ¬"re".toList <:+ n.toList := by
  rintro ⟨before, hn⟩
  obtain ⟨c, hc, hdigit⟩ := h
  rw [← hn, List.getLast?_append] at hc
  obtain rfl : 'e' = c := Option.some.inj hc
  exact absurd hdigit (by decide)

theorem not_re_name {w : String} (h : ¬"re".toList <:+ w.toList) {id : ScopeId} (hid : id.IsPath) :
    ¬"re".toList <:+ (id.name w).toList := by
  rw [ScopeId.name]
  cases hid with
  | root => simpa [ScopeId.suffix, ScopeId.isRoot, ScopeId.root] using h
  | @child id kind _ _ i =>
    rw [ScopeId.suffix_child, ← String.append_assoc]
    exact (endsDigit_append _ i).not_re

theorem OwnData.not_re (hid : s.id.IsPath) (h : OwnData s n) : ¬"re".toList <:+ n.toList := by
  cases h with
  | word h =>
    obtain ⟨w, hw, rfl⟩ := mem_map.mp h
    have hwords : ∀ w ∈ Scope.datasetWords, ¬"re".toList <:+ w.toList := by decide
    exact not_re_name (hwords w hw) hid
  | chain hroot htail =>
    have htails : ∀ tail ∈ chainTails, "re".toList.length ≤ tail.toList.length ∧ ¬"re".toList <:+ tail.toList := by decide
    exact not_suffix_append (htails _ htail).1 (htails _ htail).2

theorem not_ownData_registered (hid : s.id.IsPath) (h : Registered (fun _ => False) n) : ¬OwnData s n := by
  intro hown
  cases h with
  | source k =>
    have hhead : (s!"source_{k}").toList.head? = some 's' := by
      show ("source_" ++ toString k).toList.head? = _
      simp
    generalize s!"source_{k}" = n at hown hhead
    cases hown with
    | word h => exact nomatch hhead.symm.trans (head_datasetNames h)
    | chain hroot _ =>
      rw [String.append_assoc, head_chain hroot] at hhead
      cases hhead
  | derived k => exact not_ownData_sourceName s k hown
  | store name =>
    refine hown.not_re hid ?_
    rw [String.toList_append]
    exact List.IsSuffix.trans (by decide : "re".toList <:+ "_store".toList) (suffix_append _ _)
  | brought h => exact h

theorem head_timeScale (s : Scope) : s.timeScale.toList.head? = some 't' := by
  have hqualify (w : String) (hw : w.toList.head? = some 't') : (s.qualify w).toList.head? = some 't' := by
    rw [Scope.qualify, ScopeId.name, String.toList_append, head?_append, hw]
    rfl
  unfold Scope.timeScale
  split
  · exact hqualify _ rfl
  · refine hqualify _ ?_
    simp

/-! ## Steps -/

theorem data_merge_edit (g : Graph) (path : String) (f : Mark → Mark) :
    (g.merge (g.editUnitMark path f)).data = g.data := by
  rcases g.editUnitMark_cases path f with ⟨-, hpart⟩ | ⟨_, _, _, -, -, -, hpart⟩ <;> rw [hpart] <;> simp [Graph.merge]

theorem data_rescale : (rescale st u b).data = [] := by
  unfold rescale
  split <;> rfl

theorem Step.data (h : Step P ss g g') (hd : d ∈ g.data) (hfree : ∀ s ∈ ss, ¬OwnData s d.name) : d ∈ g'.data := by
  cases h with
  | @entries s _ hs hpart =>
    refine Named.mem_merge_of_not_mem hd fun hmem => ?_
    obtain ⟨e, he, hname⟩ := mem_map.mp hmem
    have hname : e.name = d.name := hname
    exact hfree s hs (hname ▸ hpart.data e he)
  | clip | redraw => exact (data_merge_edit _ _ _).symm ▸ hd
  | rescale => exact Named.mem_merge_of_not_mem hd (by simp [data_rescale])

theorem Step.scales (h : Step P ss g g') {c : Scale} (hc : c ∈ g.scales) (hname : Unclaimed c.name)
    (hfixed : ∀ s ∈ ss, s.time.rescales = false ∧ ∀ a ∈ s.selections, a.bind ≠ some .scales) : c ∈ g'.scales := by
  cases h with
  | @entries s _ hs hpart =>
    refine Named.mem_merge_of_not_mem hc fun hmem => ?_
    obtain ⟨x, hx, heq⟩ := mem_map.mp hmem
    rcases hpart.scales x hx with htime | ⟨⟨a, ha, hbind⟩, -⟩
    · exact hname.1 (by rw [show c.name = s.timeScale from heq.symm.trans htime]; exact head_timeScale s)
    · exact (hfixed s hs).2 a ha hbind
  | clip | redraw => exact (scales_merge_edit _ _ _).symm ▸ hc
  | rescale hs _ hrescales _ => exact absurd hrescales (by simp [(hfixed _ hs).1])

theorem Step.unitMark (h : Step P ss g g') (hg : g.Orderly) (hm : g.unitMark? path = some m)
    (hfree : ∀ s ∈ ss, ∀ u b, P s u b → u.path ≠ path) :
    ∃ v, g'.unitMark? path = some { m with clip := v } ∧ (v ≠ m.clip → ∃ s ∈ ss, path ∈ s.units.map (·.path)) := by
  have hsame {g' : Graph} (h : g'.unitMark? path = some m) : ∃ v, g'.unitMark? path = some { m with clip := v }
      ∧ (v ≠ m.clip → ∃ s ∈ ss, path ∈ s.units.map (·.path)) :=
    ⟨m.clip, h.trans (congrArg some (Mark.clip_eq_self rfl).symm), fun hne => absurd rfl hne⟩
  cases h with
  | entries _ hpart => exact hsame ((unitMark?_merge_entries g hpart.marks path).trans hm)
  | @clip s u hs hu =>
    by_cases hpath : u.path = path
    · subst hpath
      exact ⟨_, hg.unitMark?_edit_self redraws_clip.retouches hm, fun _ => ⟨s, hs, mem_map_of_mem hu⟩⟩
    · exact hsame (hg.unitMark?_edit_of_ne redraws_clip.retouches (Ne.symm hpath) hm)
  | redraw hs hu hf => exact hsame (hg.unitMark?_edit_of_ne hf.retouches (hfree _ hs _ _ hu).symm hm)
  | rescale => exact hsame ((unitMark?_merge_entries g marks_rescale path).trans hm)

theorem Steps.unitMark (h : Steps P ss g g') (hg : g.Orderly) (hm : g.unitMark? path = some m)
    (hfree : ∀ s ∈ ss, ∀ u b, P s u b → u.path ≠ path) :
    ∃ v, g'.unitMark? path = some { m with clip := v } ∧ (v ≠ m.clip → ∃ s ∈ ss, path ∈ s.units.map (·.path)) := by
  induction h with
  | refl => exact ⟨m.clip, hm.trans (congrArg some (Mark.clip_eq_self rfl).symm), fun hne => absurd rfl hne⟩
  | tail hsteps hstep ih =>
    obtain ⟨v, hv, hscope⟩ := ih
    obtain ⟨v', hv', hscope'⟩ := hstep.unitMark (Steps.retains hsteps hg).1 hv hfree
    refine ⟨v', hv', fun hne => ?_⟩
    by_cases hvv : v' = v
    · exact hscope (hvv ▸ hne)
    · exact hscope' hvv

theorem Steps.data (h : Steps P ss g g') (hd : d ∈ g.data) (hfree : ∀ s ∈ ss, ¬OwnData s d.name) : d ∈ g'.data :=
  h.invariant (I := fun g => d ∈ g.data) (fun _ _ hd hstep => hstep.data hd hfree) hd

theorem Steps.scales (h : Steps P ss g g') {c : Scale} (hc : c ∈ g.scales) (hname : Unclaimed c.name)
    (hfixed : ∀ s ∈ ss, s.time.rescales = false ∧ ∀ a ∈ s.selections, a.bind ≠ some .scales) : c ∈ g'.scales :=
  h.invariant (I := fun g => c ∈ g.scales) (fun _ _ hc hstep => hstep.scales hc hname hfixed) hc

theorem Steps.others (h : Steps P ss g g') : g'.others = g.others :=
  h.invariant (I := fun g' => g'.others = g.others) (fun _ _ heq hstep => hstep.others.trans heq) rfl

theorem unitMark?_restoreOrder (hg : g.Distinct) (hg' : g'.Distinct) (h : g.Retains g') (path : String) :
    ({ g' with marks := restoreOrder (g.marks.map (·.name)) g'.marks } : Graph).unitMark? path = g'.unitMark? path := by
  let out : Graph := { g' with marks := restoreOrder (g.marks.map (·.name)) g'.marks }
  have hnodes (m : Mark) : m ∈ out.nodes ↔ m ∈ g'.nodes := by
    simp only [Graph.nodes, mem_flatMap, out, mem_restoreOrder hg'.apart]
  have hnames : out.nodes.map (·.name) = g.nodes.map (·.name) := by
    rw [Graph.map_name_nodes, Graph.map_name_nodes, outlines_restoreOrder hg'.apart h]
  have hdraws : out.draws.map (·.1) = g.draws.map (·.1) := by rw [Graph.map_name_draws, Graph.map_name_draws, hnames]
  have hout : out.Distinct := by
    refine ⟨fun e he => ?_, hdraws ▸ hg.nodup⟩
    obtain ⟨e', he', heq⟩ := mem_map.mp (hdraws ▸ mem_map_of_mem he)
    exact heq ▸ hg.named e' he'
  refine Option.ext fun m => ?_
  rw [hout.unitMark?_iff, hg'.unitMark?_iff, hnodes, hnames, h.mem_names]

/-! ## Charts -/

/-- All data definitions of the chart that can be read give values or a URL. -/
def givesRows (c : Chart) : Bool :=
  c.further.all fun others => (Dict.get? others "data").all fun raw =>
    (DataDefinition.read raw).toOption.all fun d => d.values.isSome || d.url != ""

theorem suppliedBy_of_givesRows {c : Chart} (h : givesRows c = true) : SuppliedBy (fun _ => False) c.further := by
  intro others hothers raw hraw d hd
  have hraws := all_eq_true.mp h others hothers
  rw [Option.mem_def.mp hraw, Option.all_some, hd] at hraws
  simpa [Except.toOption] using hraws

/-- What a compiled graph has of the graph that animation started from. -/
structure Preserves (c : Chart) (g out : Graph) : Prop where
  data : ∀ d ∈ g.data, d ∈ out.data
  others : out.others = g.others
  scales : (∀ s ∈ c.scopes, s.time.rescales = false ∧ ∀ a ∈ s.selections, a.bind ≠ some .scales) →
    ∀ x ∈ g.scales, x ∈ out.scales
  marks : ∀ path ∈ markedPaths c.placed, (∀ s ∈ c.scopes, ∀ u ∈ s.units, u.path = path → s.filtersOf u = []) →
    ∃ m v, g.unitMark? path = some m ∧ out.unitMark? path = some { m with clip := v }
      ∧ ((∀ s ∈ c.scopes, path ∉ s.units.map (·.path)) → v = m.clip)

/-- The static part of a document that compiles is in the compiled graph as the base compiler has made it. -/
theorem preserves_compileDocument {doc : String} {c : Chart} {out : Graph} (hparse : Chart.parse doc = .ok c)
    (hdata : givesRows c = true) (hout : compileDocument Adapter.reference.base doc = .ok out) :
    ∃ g₀ g, Adapter.reference.base.compile 0 c.elaborate.static.render = .ok (some g₀) ∧ normalize (some g₀) = .ok g
      ∧ Preserves c.elaborate g out := by
  obtain ⟨c₁, g, docs, animated, hc₁, hg, -, hcovers, rfl⟩ := covers_compileDocument hout
  obtain rfl := Except.ok.inj (hparse.symm.trans hc₁)
  obtain ⟨-, g₀, hg₀, hnormalize⟩ := runs_lowerStatic_iff.mp hg
  have hsound := Chart.sound_elaborate (Chart.sound_parse hparse)
  have horderly := orderly_lowerStatic hg
  obtain ⟨c', hc', hnames⟩ := names_lowerStatic hg
  have hfurther := Chart.further_reread hsound hc'
  rw [c.further_elaborate] at hfurther
  obtain ⟨hdatasets, hscales, -⟩ := hnames _ ((suppliedBy_of_givesRows hdata).congr hfurther)
  refine ⟨g₀, g, hg₀, hnormalize, fun d hd => ?_, hcovers.steps.others, fun hfixed x hx => ?_, fun path hpath hfree => ?_⟩
  · exact hcovers.steps.data hd fun s hs => not_ownData_registered (Chart.isPath_scopes hs) (hdatasets d hd)
  · exact hcovers.steps.scales hx (hscales x hx) hfixed
  · obtain ⟨c'', hc'', groups, hgroups, hplots⟩ := plots_lowerStatic hg
    obtain ⟨k, hk⟩ := hplots.reads hgroups (nodup_markedPaths c'') path (Chart.marked_reread hsound hc'' hpath)
    obtain ⟨m, hm, -⟩ := Option.map_eq_some_iff.mp hk
    obtain ⟨v, hv, hclip⟩ := hcovers.steps.unitMark horderly hm
      fun s hs u b ⟨hu, htracks⟩ heq => htracks.filters (hfree s hs u hu heq)
    obtain ⟨horderly', hretains⟩ := hcovers.steps.retains horderly
    refine ⟨m, v, hm, ?_, fun hout => ?_⟩
    · rw [unitMark?_restoreOrder horderly.toDistinct horderly'.toDistinct hretains, hv]
    · by_contra hne
      obtain ⟨s, hs, hmem⟩ := hclip hne
      exact hout s hs hmem

def heldPoints : Fragment :=
  .record [("data", .record [("values", .list [])]), ("mark", .text "point"),
    ("encoding", .record [("x", .record [("field", .text "a")]), ("time", .record [("field", .text "t")])]),
    ("params", .list [
      .record [("name", .text "frame"), ("select", .record [("type", .text "point"), ("on", .text "timer")])]])]

theorem preserves_heldPoints :
    ∃ (c : Chart) (g out : Graph), Chart.parse heldPoints.pretty = .ok c ∧ givesRows c = true
      ∧ compileDocument Adapter.reference.base heldPoints.pretty = .ok out ∧ (∀ d ∈ g.data, d ∈ out.data)
      ∧ g.data.map (·.name) = ["source_0", "data_0", "frame_store"] ∧ out.others = g.others
      ∧ (∀ x ∈ g.scales, x ∈ out.scales) ∧ g.scales.map (·.name) = ["x"]
      ∧ ∃ m v, g.unitMark? "" = some m ∧ out.unitMark? "" = some { m with clip := v } := by
  have hlowers : ∃ c ∈ unitOf? heldPoints, givesRows c = true ∧ (lowered? c.elaborate).isSome = true
      ∧ (base? c.elaborate).map (fun g => (g.data.map (·.name), g.scales.map (·.name)))
        = some (["source_0", "data_0", "frame_store"], ["x"]) := by
    decide +kernel
  have hstatic : ∃ c ∈ unitOf? heldPoints, "" ∈ markedPaths c.elaborate.placed
      ∧ ∀ s ∈ c.elaborate.scopes, s.field ≠ "" ∧ s.time.rescales = false ∧ (∀ a ∈ s.selections, a.bind.isNone = true)
        ∧ ∀ u ∈ s.units, s.filtersOf u = [] := by
    decide +kernel
  obtain ⟨c, hc, hrows, hlowered, hbase⟩ := hlowers
  obtain ⟨c₁, hc₁, hmarked, hscopes⟩ := hstatic
  obtain rfl := Option.some.inj (hc.symm.trans hc₁)
  obtain ⟨g₃, hbase, hnames⟩ := Option.map_eq_some_iff.mp hbase
  obtain ⟨g, docs, hg⟩ := exists_lowerStatic hlowered
  obtain ⟨hdata, hscaleNames, -⟩ := lowered_of_base hbase hg
  obtain ⟨out, hout⟩ := exists_compileDocument (parse_of_unitOf hc) (fun s hs => (hscopes s hs).1) hg
    fun s hs u hu hne => absurd ((hscopes s hs).2.2.2 u hu) hne
  obtain ⟨g₀, g₁, hg₀, hnormalize, hpreserves⟩ := preserves_compileDocument (parse_of_unitOf hc) hrows hout
  obtain ⟨-, g₂, hg₂, hnormalize₂⟩ := runs_lowerStatic_iff.mp hg
  obtain rfl := Option.some.inj (Except.ok.inj (hg₀.symm.trans hg₂))
  obtain rfl := Except.ok.inj (hnormalize.symm.trans hnormalize₂)
  have hscales := hpreserves.scales fun s hs => ⟨(hscopes s hs).2.1, fun a ha hbind => by
    simpa [hbind] using (hscopes s hs).2.2.1 a ha⟩
  obtain ⟨m, v, hm, hv, -⟩ := hpreserves.marks "" hmarked fun s hs u hu _ => (hscopes s hs).2.2.2 u hu
  exact ⟨c, g₁, out, parse_of_unitOf hc, hrows, hout, hpreserves.data, hdata.trans (Prod.mk.inj hnames).1,
    hpreserves.others, hscales, hscaleNames.trans (Prod.mk.inj hnames).2, m, v, hm, hv⟩

end Animation
end AnimatedChart

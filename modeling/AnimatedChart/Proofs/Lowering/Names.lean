import AnimatedChart.Proofs.Animation.Base

/-!
# Names in lowered charts

Scales and top-level marks of a lowered chart have names of their own. Two datasets or two signals have one name only
where the document gives a name that lowering generates as well (`names_compile`).
-/

open List

namespace AnimatedChart.Lowering

open Json Spec Animation

variable {doc : String} {g : Graph} {size : Size} {c : Chart} {s s' : Draft} {q : Param} {α : Type} {a : PUnit}
variable {d : ParamDefinition} {m : MarkPlan} {p : Place}

/-! ## Where names come from -/

/-- A data definition of the chart gives nothing but the name. -/
def Brings (c : Chart) (n : String) : Prop :=
  ∃ others ∈ c.further, ∃ raw ∈ Dict.get? others "data", ∃ d, DataDefinition.read raw = .ok d
    ∧ d.values.isSome = false ∧ d.url = "" ∧ d.name = n

def Declared (c : Chart) (q : Param) : Prop := ∃ v ∈ viewsOf c, q ∈ paramsOf v

def Origin.ofChart (size : Size) (c : Chart) : Origin := ⟨Brings c, Declared c, opening size c⟩

theorem Origin.ofChart_of (size : Size) (c : Chart) : (Origin.ofChart size c).Of size c where
  start := rfl
  data := by
    intro others hothers raw hraw d hd
    by_cases hvalues : d.values.isSome = true
    · exact .inl hvalues
    · by_cases hurl : d.url = ""
      · exact .inr (.inr ⟨others, hothers, raw, hraw, d, hd, Bool.eq_false_iff.mpr hvalues, hurl, rfl⟩)
      · exact .inr (.inl hurl)
  params := fun v hv _ hq => ⟨v, hv, hq⟩

theorem data_opening (size : Size) (c : Chart) : (opening size c).data = [] := by cases c <;> rfl

theorem signalNames_opening (size : Size) (c : Chart) :
    (opening size c).signalNames <+ ["childWidth", "childHeight"] := by
  cases c with
  | view => exact nil_sublist _
  | vconcat => exact .refl _

/-- Names are different, apart from those of the document that lowering generates as well: a data definition may bring
along a numbered name, and a variable may be named like a signal that a point selection adds. -/
theorem names_compile (h : compile size doc = .ok g) : ∃ c, Chart.parse doc = .ok c
    ∧ (g.scales.map (·.name)).Nodup ∧ (g.marks.map (·.name)).Nodup
    ∧ (∀ n, 1 < (g.data.map (·.name)).count n → Numbered n ∧ Brings c n)
    ∧ (∀ d ∈ g.data, d.source = .string d.name → Numbered d.name ∧ Brings c d.name)
    ∧ ∀ n, 1 < (g.signals.map (·.name)).count n → (∃ q, Declared c q ∧ variableName? q = some n)
      ∧ ∃ q name, Declared c q ∧ pointName? q = some name ∧ n ∈ "unit" :: pointNames name := by
  have hmarks := (orderly_compile h).apart.distinct
  obtain ⟨c, s, marks, properties, hc, rfl, -, htidy, -⟩ := compile_cases h
  have hs := htidy _ (Origin.ofChart_of _ c)
  have hdata := data_opening size.orDefault c
  refine ⟨c, hc, (tidy_finish hs).distinct, hmarks, fun n hn => ?_, ?_, fun n hn => ?_⟩
  · by_contra hnumbered
    have hstart : (opening size.orDefault c).Single n := by refine ⟨?_, ?_, ?_⟩ <;> simp [Draft.dataNames, hdata]
    exact absurd (Origin.invariant (Step.single hnumbered) hstart hs.path).count (Nat.not_le.mpr hn)
  · have hstart : (opening size.orDefault c).Acyclic (.ofChart size.orDefault c) := by simp [Draft.Acyclic, hdata]
    exact Origin.invariant Step.acyclic hstart hs.path
  · by_contra hclash
    change ¬(Origin.ofChart size.orDefault c).Clashes n at hclash
    have hnames := signalNames_opening size.orDefault c
    have hstart : (opening size.orDefault c).Tuned (.ofChart size.orDefault c) n :=
      ⟨fun hmem => .size (hnames.subset hmem), nodup_iff_count_le_one.mp (hnames.nodup (by decide)) n⟩
    exact absurd (Origin.invariant (Step.tuned hclash) hstart hs.path).count (Nat.not_le.mpr hn)

def namedLikeDerived : Fragment := .record [
  ("data", .record [("name", .text "data_0")]),
  ("mark", .text "point")]

theorem names_namedLikeDerived : ∃ g, compile {} namedLikeDerived.pretty = .ok g
    ∧ g.data.map (·.name) = ["data_0", "data_0"]
    ∧ ∃ c, Chart.parse namedLikeDerived.pretty = .ok c ∧ Numbered "data_0" ∧ Brings c "data_0" := by
  have hlowers : ∃ c ∈ unitOf? namedLikeDerived, ∃ g ∈ (lower {} c).toOption,
      g.data.map (·.name) = ["data_0", "data_0"] := by decide +kernel
  obtain ⟨c, hc, g, hg, hnames⟩ := hlowers
  have hcompile := compile_of_unitOf hc hg
  obtain ⟨c, hc, -, -, htwice, -⟩ := names_compile hcompile
  exact ⟨g, hcompile, hnames, c, hc, htwice "data_0" (by rw [hnames]; decide)⟩

/-! ## Parameters that are lowered -/

/-- A marked unit comes first in the view. -/
def leads : View → Bool
  | .unit u => u.hasMark
  | .layer _ (.unit u :: _) => u.hasMark
  | .layer _ _ => false

mutual

/-- The parameters that are lowered with a view, among them those handed on to it. -/
def heardIn (handed : List Param) : View → List Param
  | .unit u => if u.hasMark then handed ++ u.params else []
  | .layer l children => heardAmong l.params children

def heardAmong (handed : List Param) : List View → List Param
  | [] => []
  | v :: vs => heardIn handed v ++ heardAmong [] vs

end

mutual

theorem mem_heardIn {v' : View} {q : Param} (hleads : leads v' = true) (hq : q ∈ paramsOf v') :
    ∀ (v : View) (handed : List Param), v' ∈ viewsIn v → q ∈ heardIn handed v
  | .unit u, handed, hv' => by
    rw [viewsIn, mem_singleton] at hv'
    subst hv'
    rw [leads] at hleads
    rw [heardIn, if_pos hleads]
    exact mem_append_right _ hq
  | .layer l children, handed, hv' => by
    rw [heardIn]
    rcases mem_cons.mp (viewsIn.eq_2 l children ▸ hv') with rfl | hv'
    · unfold leads at hleads
      split at hleads
      · next hlayer => cases hlayer
      · next u rest hlayer =>
        cases hlayer
        rw [heardAmong, heardIn, if_pos hleads]
        exact mem_append_left _ (mem_append_left _ hq)
      · cases hleads
    · exact mem_heardAmong hleads hq children l.params hv'

theorem mem_heardAmong {v' : View} {q : Param} (hleads : leads v' = true) (hq : q ∈ paramsOf v') :
    ∀ (vs : List View) (handed : List Param), v' ∈ viewsAmong vs → q ∈ heardAmong handed vs
  | [], _, hv' => nomatch hv'
  | v :: vs, handed, hv' => by
    rw [heardAmong]
    rcases mem_append.mp (viewsAmong.eq_2 v vs ▸ hv') with hv' | hv'
    · exact mem_append_left _ (mem_heardIn hleads hq v handed hv')
    · exact mem_append_right _ (mem_heardAmong hleads hq vs [] hv')

end

/-- The parameter is there under its name: a variable as a signal, a point selection with its store. -/
structure Draft.Has (s : Draft) (q : Param) : Prop where
  signal : ∀ n, variableName? q = some n → n ∈ s.signalNames
  store : ∀ n, pointName? q = some n → storeName n ∈ s.dataNames

theorem Draft.Has.mono (h : s.Has q) (hgrows : s.Grows s') : s'.Has q :=
  ⟨fun n hn => hgrows.signals (h.signal n hn), fun n hn => hgrows.data (h.store n hn)⟩

theorem run_unless {c : Prop} [Decidable c] {e : Error} {f : PUnit → Lower α} {r : α × Draft}
    (h : (if c then throw e >>= f else f ⟨⟩).run s = .ok r) : (f ⟨⟩).run s = .ok r := by
  split at h
  · cases h
  · exact h

theorem has_addVariable (hd : definition? q = some d) (hselect : d.select = none)
    (h : (addVariable d).run s = .ok (a, s')) : s.Grows s' ∧ s'.Has q := by
  have hhas (hmem : d.name ∈ s'.signalNames) : s'.Has q := by
    refine ⟨fun n hn => ?_, fun n hn => ?_⟩
    · simp only [variableName?, hd, hselect, Option.bind_some, Option.isNone_none, if_true] at hn
      exact Option.some.inj hn ▸ hmem
    · simp [pointName?, hd, hselect] at hn
  rw [addVariable, run_get_bind] at h
  split at h
  · cases h
    exact ⟨Draft.grows_of_append (append_nil _).symm rfl, hhas (by simp [Draft.signalNames])⟩
  · next hold =>
    cases h
    exact ⟨.refl _, hhas (by simpa [Draft.signalNames] using hold)⟩

theorem has_addPoint (hd : definition? q = some d) (hselect : d.select ≠ none)
    {fields : List String} {unit : String} (h : (addPoint d.name fields unit).run s = .ok (a, s')) :
    s.Grows s' ∧ s'.Has q := by
  have hhas (hmem : storeName d.name ∈ s'.dataNames) : s'.Has q := by
    refine ⟨fun n hn => ?_, fun n hn => ?_⟩
    · simp [variableName?, hd, hselect] at hn
    · obtain ⟨d', hd', hn⟩ := Option.bind_eq_some_iff.mp hn
      obtain rfl := Option.some.inj (hd.symm.trans hd')
      obtain ⟨sel, -, hn⟩ := Option.bind_eq_some_iff.mp hn
      split at hn
      · exact Option.some.inj hn ▸ hmem
      · cases hn
  rw [addPoint, run_get_bind] at h
  split at h
  · cases h
    exact ⟨Draft.grows_of_append rfl (append_assoc _ _ _), hhas (by simp [Draft.dataNames, storeName])⟩
  · next hold =>
    cases h
    exact ⟨.refl _, hhas (by simpa [Draft.dataNames, storeName] using hold)⟩

theorem has_lowerParam     (h : (lowerParam m p q).run s = .ok (a, s')) : s.Grows s' ∧ s'.Has q := by
  unfold lowerParam at h
  split at h
  · cases h
  · next raw =>
    obtain ⟨d, hd, h⟩ := run_liftM_bind.mp h
    have hd : definition? (.plain raw) = some d := toOption_eq_some.mpr (mapError_eq_ok.mp hd)
    have h := run_unless h
    split at h
    · next hselect => exact has_addVariable hd hselect h
    · next f hselect =>
      obtain ⟨sel, -, h⟩ := run_liftM_bind.mp h
      exact has_addPoint hd (by simp [hselect]) (run_unless (run_unless h))

theorem has_lowerParams {qs : List Param}
    (h : (lowerParams m p qs).run s = .ok (a, s')) : s.Grows s' ∧ ∀ q ∈ qs, s'.Has q := by
  induction qs generalizing s with
  | nil =>
    cases h
    exact ⟨.refl _, forall_mem_nil _⟩
  | cons q qs ih =>
    obtain ⟨⟨_, s₁⟩, hq, h⟩ := bind_eq_ok.mp h
    obtain ⟨hgrows, hhas⟩ := has_lowerParam hq
    obtain ⟨hgrows', hrest⟩ := ih h
    exact ⟨hgrows.trans hgrows', forall_mem_cons.mpr ⟨hhas.mono hgrows', hrest⟩⟩

/-! ## Views -/

section

variable {α β : Type} {Q : Draft → Prop}

/-- Every successful run of the step ends in a draft with the property. -/
def Leaves (x : Lower α) (Q : Draft → Prop) : Prop := ∀ s a s', x.run s = .ok (a, s') → Q s'

theorem Leaves.bind {x : Lower α} {f : α → Lower β} (h : ∀ a, Leaves (f a) Q) : Leaves (x >>= f) Q := by
  intro s b s'' hrun
  obtain ⟨⟨a, s'⟩, -, hb⟩ := bind_eq_ok.mp hrun
  exact h a s' b s'' hb

end

theorem has_lowerUnit {u : Spec.Unit} (c : Context) (hmark : u.hasMark = true) :
    Leaves (lowerUnit u c) fun s => ∀ q ∈ c.params ++ u.params, s.Has q := by
  have hparams (m : MarkPlan) (mark : Mark) : Leaves (do lowerParams m c.place (c.params ++ u.params); return [mark])
      fun s => ∀ q ∈ c.params ++ u.params, s.Has q := by
    intro s a s' hrun
    obtain ⟨⟨_, s₁⟩, hrun, hpure⟩ := bind_eq_ok.mp hrun
    cases hpure
    exact (has_lowerParams hrun).2
  unfold lowerUnit
  rw [if_neg (by simp [hmark])]
  split
  · exact fun _ _ _ hrun => nomatch hrun
  · refine .bind fun src => .bind fun transforms => ?_
    dsimp only
    split
    · exact .bind fun _ => .bind fun _ => .bind fun _ => hparams _ _
    · exact .bind fun _ => .bind fun _ => hparams _ _

theorem Yields.grows {x : Lower α} {P : α → Prop} {a : α} (h : Yields (Draft.Tidy (.any s)) x P)
    (hs : s.Tidy (.any s)) (hrun : x.run s = .ok (a, s')) : s.Grows s' ∧ s'.Tidy (.any s') :=
  have htidy := (h.run_ok hs hrun).1
  ⟨Origin.grows htidy.path, htidy.restart⟩

mutual

theorem has_lowerView : ∀ (v : View) (c : Context) {s s' : Draft} {ms : List Mark}, v.Sound → c.Sound (.any s) →
    s.Tidy (.any s) → (lowerView c v).run s = .ok (ms, s') → ∀ q ∈ heardIn c.params v, s'.Has q
  | .unit u, c, s, s', ms, _, _, _, hrun => by
    rw [lowerView] at hrun
    rw [heardIn]
    split
    · next hmark => exact has_lowerUnit (c.inherit u.others) hmark _ _ _ hrun
    · exact forall_mem_nil _
  | .layer l children, c, s, s', ms, hv, hc, hs, hrun => by
    rw [lowerView] at hrun
    exact has_lowerChildren children (c.ofLayer l) l.params 0 hv.2
      (hc.ofLayer hv.1.encoding fun _ _ _ _ => .inr (.inr trivial)) hs hrun

theorem has_lowerChildren : ∀ (vs : List View) (c : Context) (params : List Param) (i : Nat) {s s' : Draft}
    {ms : List Mark}, View.SoundAll vs → c.Sound (.any s) → s.Tidy (.any s) →
    (lowerChildren c params i vs).run s = .ok (ms, s') → ∀ q ∈ heardAmong params vs, s'.Has q
  | [], _, _, _, _, _, _, _, _, _, _ => forall_mem_nil _
  | v :: vs, c, params, i, s, s', ms, hvs, hc, hs, hrun => by
    have hchild : Context.Sound (.any s) { c with
        place := { c.place with path := s!"{c.place.path}layer_{i}_" }, params } :=
      { hc with params := fun _ _ => trivial }
    rw [lowerChildren] at hrun
    obtain ⟨⟨marks, s₁⟩, hview, hrun⟩ := bind_eq_ok.mp hrun
    obtain ⟨⟨rest, _⟩, hrest, hpure⟩ := bind_eq_ok.mp hrun
    cases hpure
    have hview := mapError_eq_ok.mp hview
    have hhas := has_lowerView v _ hvs.1 hchild hs hview
    obtain ⟨-, hs₁⟩ := (yields_lowerView v _ false hvs.1 hchild (suppliedBy_true _) fun _ _ _ _ => trivial).grows hs hview
    have hc : c.Sound (.any s₁) := { hc with }
    obtain ⟨hgrows, -⟩ := (yields_lowerChildren vs c [] false (i + 1) hvs.2 hc (forall_mem_nil _) (suppliedBy_true _)
      fun _ _ _ _ => trivial).grows hs₁ hrest
    rw [heardAmong]
    exact forall_mem_append.mpr ⟨fun q hq => (hhas q hq).mono hgrows,
      has_lowerChildren vs c [] (i + 1) hvs.2 hc hs₁ hrest⟩

end

theorem has_lowerConcat (visit : Visit) {others : Dict Fragment} {us : List Spec.Unit} (hus : ∀ u ∈ us, u.Sound) (i : Nat)
    (hs : s.Tidy (.any s)) {ms : List Mark} (h : (lowerConcat visit others i us).run s = .ok (ms, s')) :
    ∀ u ∈ us, u.hasMark = true → ∀ q ∈ u.params, s'.Has q := by
  induction us generalizing i s ms with
  | nil => exact forall_mem_nil _
  | cons u us ih =>
    obtain ⟨hu, hus⟩ := forall_mem_cons.mp hus
    rw [lowerConcat] at h
    obtain ⟨⟨marks, s₁⟩, hunit, h⟩ := bind_eq_ok.mp h
    obtain ⟨⟨rest, _⟩, hrest, hpure⟩ := bind_eq_ok.mp h
    cases hpure
    have hunit := mapError_eq_ok.mp hunit
    have hsupplies (others : Dict Fragment) : ∀ raw ∈ Dict.get? others "data", Supplies (fun _ => True) raw :=
      fun _ _ _ _ => .inr (.inr trivial)
    have hcontext := ((Context.sound_concat (o := .any s) visit i).inherit (hsupplies others)).inherit (hsupplies u.others)
    obtain ⟨-, hs₁⟩ := (yields_lowerUnit false hu hcontext fun _ _ => trivial).grows hs hunit
    obtain ⟨hgrows, -⟩ := (yields_lowerConcat visit hus (hsupplies others) (suppliedBy_true _)
      (fun _ _ _ _ => trivial) (i + 1)).grows hs₁ hrest
    refine forall_mem_cons.mpr ⟨fun hmark q hq => ?_, ih hus (i + 1) hs₁ hrest⟩
    exact (has_lowerUnit _ hmark _ _ _ hunit q (mem_append_right _ hq)).mono hgrows

theorem has_lowerChart (visit : Visit) (hc : c.Sound) (hs : s.Tidy (.any s)) {r : List Mark × Dict Fragment}
    (h : (lowerChart visit size c).run s = .ok (r, s')) :
    ∀ v ∈ viewsOf c, leads v = true → ∀ q ∈ paramsOf v, s'.Has q := by
  unfold lowerChart at h
  split at h
  · next v =>
    obtain ⟨⟨marks, _⟩, hview, hpure⟩ := bind_eq_ok.mp h
    cases hpure
    intro v' hv' hleads q hq
    exact has_lowerView v _ hc (Context.sound_empty visit) hs hview q (mem_heardIn hleads hq v _ hv')
  · next us others =>
    obtain ⟨⟨marks, _⟩, hconcat, hpure⟩ := bind_eq_ok.mp h
    cases hpure
    have hus : ∀ u ∈ us.getD [], u.Sound := by
      cases us with
      | none => simp
      | some us => exact fun u hu => (hc.1 us rfl u hu).1
    exact forall_mem_map.mpr (has_lowerConcat visit hus 0 hs hconcat)

/-- In a lowered chart, every view in which a marked unit comes first has its parameters: a variable is a signal, a
point selection has a store, and the signals with it unless a data definition brings the name of the store along. -/
theorem params_compile (h : compile size doc = .ok g) : ∃ c, Chart.parse doc = .ok c
    ∧ ∀ v ∈ viewsOf c, leads v = true → ∀ q ∈ paramsOf v,
      (∀ n, variableName? q = some n → n ∈ g.signals.map (·.name))
      ∧ ∀ n, pointName? q = some n → storeName n ∈ g.data.map (·.name)
        ∧ (Brings c (storeName n) ∨ pointNames n ⊆ g.signals.map (·.name)) := by
  obtain ⟨c, s, marks, properties, hc, rfl, -, htidy, hrun⟩ := compile_cases h
  have hstart := tidy_opening (Origin.any_of size.orDefault c)
  have hstocked : s.Stocked (.ofChart size.orDefault c) := by
    refine Origin.invariant Step.stocked (fun name hname => ?_) (htidy _ (Origin.ofChart_of _ c)).path
    rw [Origin.ofChart, Draft.dataNames, data_opening] at hname
    cases hname
  refine ⟨c, hc, fun v hv hleads q hq => ?_⟩
  have hhas := has_lowerChart .inOrder (Chart.sound_parse hc) hstart hrun v hv hleads q hq
  exact ⟨hhas.signal, fun n hn => ⟨hhas.store n hn, hstocked n (hhas.store n hn)⟩⟩

def parameters : Fragment := .record [
  ("data", .record [("values", .list [])]),
  ("params", .list [.record [("name", .text "width")],
    .record [("name", .text "pick"), ("select", .record [("type", .text "point"), ("fields", .list [.text "a"])])]]),
  ("mark", .text "point")]

theorem params_parameters : ∃ g, compile {} parameters.pretty = .ok g
    ∧ "width" ∈ g.signals.map (·.name) ∧ "pick_store" ∈ g.data.map (·.name) := by
  have hlowers : ∃ c ∈ unitOf? parameters, (∃ v ∈ viewsOf c, leads v = true
      ∧ (∃ q ∈ paramsOf v, variableName? q = some "width") ∧ ∃ q ∈ paramsOf v, pointName? q = some "pick")
      ∧ (lower {} c).toOption.isSome = true := by decide +kernel
  obtain ⟨c, hc, ⟨v, hv, hleads, ⟨q, hq, hwidth⟩, q', hq', hpick⟩, hlower⟩ := hlowers
  obtain ⟨g, hg⟩ := Option.isSome_iff_exists.mp hlower
  have hcompile := compile_of_unitOf hc hg
  obtain ⟨c', hc', hparams⟩ := params_compile hcompile
  obtain rfl := Except.ok.inj ((parse_of_unitOf hc).symm.trans hc')
  exact ⟨g, hcompile, (hparams v hv hleads q hq).1 "width" hwidth, ((hparams v hv hleads q' hq').2 "pick" hpick).1⟩

end AnimatedChart.Lowering

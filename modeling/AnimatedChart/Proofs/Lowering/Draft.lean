import AnimatedChart.Proofs.Animation.Stems
import AnimatedChart.Proofs.Graph.Roundtrip
import AnimatedChart.Proofs.Lowering.Steps

/-!
# Steps of lowering

A step of lowering takes a draft to a draft and gives a result, or fails. What it keeps of the draft and says about its
result is put together from the steps it is made of (`Yields`).
-/

open List AnimatedChart.Lowering.ScalePlan

namespace AnimatedChart.Lowering

open Json Animation

variable {channel : String} {p : Place} (name : String) {s : Draft} {q : Spec.Param}

/-! ## Steps -/

/-- From a draft with the invariant, the step leaves one with it and gives a result with the property. -/
def Yields {α : Type} (I : Draft → Prop) (x : Lower α) (Q : α → Prop) : Prop :=
  ∀ s a s', I s → x.run s = .ok (a, s') → I s' ∧ Q a

section

variable {α β : Type} {I : Draft → Prop} {Q : α → Prop} {R : β → Prop}
variable {s : Draft} {x : Lower α} {f : PUnit → Lower α}

theorem yields_pure {a : α} (h : Q a) : Yields I (pure a) Q := by
  intro s b s' hs hrun
  cases hrun
  exact ⟨hs, h⟩

theorem Yields.bind {f : α → Lower β} (hx : Yields I x Q) (hf : ∀ a, Q a → Yields I (f a) R) :
    Yields I (x >>= f) R := by
  intro s b s'' hs hrun
  obtain ⟨⟨a, s'⟩, ha, hb⟩ := bind_eq_ok.mp hrun
  obtain ⟨hs', hQ⟩ := hx s a s' hs ha
  exact hf a hQ s' b s'' hs' hb

theorem Yields.within (hx : Yields I x Q) (context : String) : Yields I (x.within context) Q :=
  fun s a s' hs hrun => hx s a s' hs (mapError_eq_ok.mp hrun)

theorem yields_get : Yields I get I := by
  intro s a s' hs hrun
  cases hrun
  exact ⟨hs, hs⟩

theorem yields_modify {f : Draft → Draft} (h : ∀ s, I s → I (f s)) : Yields I (modify f) fun _ => True := by
  intro s _ _ hs hrun
  cases hrun
  exact ⟨h s hs, trivial⟩

theorem yields_throw (e : Error) : Yields I (throw e) Q := by
  intro s a s' _ hrun
  cases hrun

theorem yields_liftM {x : Except Error α} (h : ∀ a, x = .ok a → Q a) : Yields I (liftM x) Q := by
  intro s a s' hs hrun
  cases x with
  | error e => cases hrun
  | ok b =>
    cases hrun
    exact ⟨hs, h a rfl⟩

theorem yields_unless {c : Prop} [Decidable c] {e : Error} (h : ¬c → Yields I (f ⟨⟩) Q) :
    Yields I (if c then throw e >>= f else f ⟨⟩) Q := by
  split
  · exact (yields_throw (Q := fun _ => False) e).bind (by simp)
  · next hc => exact h hc

theorem yields_when {c : Prop} [Decidable c] {x : Lower PUnit} (hx : Yields I x fun _ => True)
    (h : Yields I (f ⟨⟩) Q) : Yields I (if c then x >>= f else f ⟨⟩) Q := by
  split
  · exact hx.bind fun _ _ => h
  · exact h

theorem run_get_bind {f : Draft → Lower α} (s : Draft) : (get >>= f).run s = (f s).run s := rfl

theorem run_liftM_bind {x : Except Error β} {f : β → Lower α} {r : α × Draft} :
    (liftM x >>= f).run s = .ok r ↔ ∃ b, x = .ok b ∧ (f b).run s = .ok r := by
  cases x with
  | error e => exact ⟨nofun, fun ⟨_, h, _⟩ => nomatch h⟩
  | ok b => exact ⟨fun h => ⟨b, rfl, h⟩, fun ⟨_, hb, h⟩ => Except.ok.inj hb ▸ h⟩

theorem Yields.run_ok (hx : Yields I x Q) {s' : Draft} {a : α} (hs : I s) (h : x.run s = .ok (a, s')) :
    I s' ∧ Q a := hx s a s' hs h

end

/-! ## Tidy drafts -/

/-- The name of a dataset of a lowered chart: a numbered one, that of a selection's store, or one that a data definition
brings along. -/
inductive Registered (brought : String → Prop) : String → Prop
  | source (k : Nat) : Registered brought s!"source_{k}"
  | derived (k : Nat) : Registered brought s!"data_{k}"
  | store (name : String) : Registered brought (name ++ "_store")
  | brought {name : String} (h : brought name) : Registered brought name

/-- The data definition has values or a URL, or it brings along one of the given names. -/
def Supplies (brought : String → Prop) (raw : Fragment) : Prop :=
  ∀ d, DataDefinition.read raw = .ok d → d.values.isSome = true ∨ d.url ≠ "" ∨ brought d.name

/-- A dataset that is read again under its name. -/
structure TidyDataset (brought : String → Prop) (d : Dataset) : Prop where
  others : Foreign Dataset.names d.others
  name : Registered brought d.name

/-- A scale whose further members can be read again, under a name that animation leaves alone. -/
structure TidyScale (c : Scale) : Prop where
  sorted : Dict.Sorted c.others
  proper : ∀ e ∈ c.others, e.2.Proper
  name : Unclaimed c.name

/-- Datasets, signals and scales can be read again, derived datasets are numbered, scales have different names, and the
draft comes about by steps. -/
structure Draft.Tidy (o : Origin) (s : Draft) : Prop where
  data : ∀ d ∈ s.data, TidyDataset o.brought d
  signals : ∀ x ∈ s.signals, x.Proper
  scales : ∀ b ∈ s.scales, TidyScale b.scale
  distinct : (s.scales.map (·.scale.name)).Nodup
  sources : ∀ e ∈ s.sources, o.Source e.2
  derived : ∀ e ∈ s.derived, ∃ k : Nat, e.2 = s!"data_{k}"
  path : Relation.ReflTransGen (Step o) o.start s

variable {o : Origin} {brought : String → Prop}

theorem Draft.Tidy.restart (h : s.Tidy o) : s.Tidy { o with start := s } := { h with path := .refl }

theorem Draft.Tidy.addData (h : s.Tidy o) {d : Dataset} (hd : TidyDataset o.brought d) :
    ∀ d' ∈ s.data ++ [d], TidyDataset o.brought d' :=
  forall_mem_append.mpr ⟨h.data, forall_mem_singleton.mpr hd⟩

theorem Draft.Tidy.addSource (h : s.Tidy o) (raw : Fragment) {name : String} (hname : o.Source name) :
    ∀ e ∈ s.sources ++ [(raw, name)], o.Source e.2 :=
  forall_mem_append.mpr ⟨h.sources, forall_mem_singleton.mpr hname⟩

theorem Draft.Tidy.addSignals (h : s.Tidy o) {xs : List Signal} (hxs : ∀ x ∈ xs, x.Proper) :
    ∀ x ∈ s.signals ++ xs, x.Proper := fun x hx => (mem_append.mp hx).elim (h.signals x) (hxs x)

theorem foreign_remote (url : String) (format : Dict Value) : Foreign Dataset.names
    (Dict.ofPairs [("url", .text url), ("format", .record (Value.toMembers format))]) := by
  refine .ofPairs ?_ ?_
  · simp only [forall_mem_cons]
    exact ⟨Fragment.proper_text url, Fragment.proper_closed.valueRecord fun _ _ => trivial, by simp⟩
  · simp only [forall_mem_cons, not_mem_nil, false_implies, implies_true, and_true]
    decide

theorem yields_source {raw : Fragment} (hraw : Supplies o.brought raw) : Yields (Draft.Tidy o) (source raw) o.Source := by
  intro s name s' hs hrun
  rw [source, run_get_bind] at hrun
  split at hrun
  · next e he =>
    cases hrun
    exact ⟨hs, hs.sources _ (mem_of_find?_eq_some he)⟩
  · obtain ⟨d, hd, hrun⟩ := run_liftM_bind.mp hrun
    have hsupplies := hraw d (mapError_eq_ok.mp hd)
    -- Values and addresses are loaded under a new name; a dataset that is only named is brought along once.
    have hload {dataset : Dataset} (hothers : Foreign Dataset.names dataset.others)
        (hname : dataset.name = s!"source_{s.nextSource}") (hsource : dataset.source = .null) : Draft.Tidy o { s with
          data := s.data ++ [dataset]
          sources := s.sources ++ [(raw, dataset.name)]
          nextSource := s.nextSource + 1 } ∧ o.Source dataset.name :=
      ⟨{ hs with
          data := hs.addData ⟨hothers, hname ▸ .source _⟩
          sources := hs.addSource raw (.inl ⟨_, hname⟩)
          path := hs.path.tail (.load s raw dataset hname hsource) }, .inl ⟨_, hname⟩⟩
    split at hrun
    · cases hrun
      exact hload (.nil _) rfl rfl
    · next hvalues =>
      split at hrun
      · cases hrun
        exact hload (foreign_remote _ _) rfl rfl
      · next hurl =>
        have hname : o.brought d.name := (hsupplies.resolve_left hvalues).resolve_left (by simpa using hurl)
        split at hrun
        · cases hrun
          refine ⟨?_, .inr hname⟩
          dsimp only
          by_cases hold : s.data.any (·.name == d.name) = true
          · rw [if_pos hold]
            exact { hs with sources := hs.addSource raw (.inr hname), path := hs.path.tail (.keep s _ _ _) }
          · rw [if_neg hold]
            exact { hs with
              data := hs.addData ⟨.nil _, .brought hname⟩
              sources := hs.addSource raw (.inr hname)
              path := hs.path.tail (.bring s raw hname (by simpa [Draft.dataNames] using hold)) }
        · cases hrun

theorem yields_derive {source : String} (hsource : o.Source source) (transform : List Value) :
    Yields (Draft.Tidy o) (derive source transform) fun name => ∃ k : Nat, name = s!"data_{k}" := by
  intro s name s' hs hrun
  rw [derive, run_get_bind] at hrun
  dsimp only at hrun
  split at hrun
  · next e he =>
    cases hrun
    exact ⟨hs, hs.derived _ (mem_of_find?_eq_some he)⟩
  · cases hrun
    exact ⟨{ hs with
      data := hs.addData ⟨.nil _, .derived _⟩
      derived := forall_mem_append.mpr ⟨hs.derived, forall_mem_singleton.mpr ⟨_, rfl⟩⟩
      path := hs.path.tail (.derive s _ transform hsource) }, s.nextDerived, rfl⟩

theorem yields_useProjection (raw : Option Fragment) (p : Place) :
    Yields (Draft.Tidy o) (useProjection raw p) fun _ => True := by
  unfold useProjection
  refine yields_get.bind fun s hs => ?_
  split
  · dsimp only
    split
    · exact yields_modify fun s hs => { hs with path := hs.path.tail (.keep s _ _ _) }
    · exact yields_throw _
  · exact yields_pure trivial

/-! ## Scales -/

theorem name_apply (s : ScalePlan × Dict Value) (property : String × Value) :
    (apply s property).1.scale.name = s.1.scale.name := by
  unfold apply
  dsimp only
  split <;> [split; skip; skip; skip; split; skip] <;> rfl

theorem sorted_apply {s : ScalePlan × Dict Value} (h : Dict.Sorted s.2) (property : String × Value) :
    Dict.Sorted (apply s property).2 := by
  unfold apply
  dsimp only
  split
  · split <;> exact h
  · exact h
  · exact h
  · exact h
  · split <;> exact h
  · exact h.put _ _

theorem initial_cases (channel : String) (c : Channel) (m : MarkPlan) (p : Place) :
    (initial name channel c m p).1.scale.name = name ∧ Dict.Sorted (initial name channel c m p).2 := by
  unfold initial
  dsimp only
  split
  · repeat' split
    all_goals exact ⟨rfl, Dict.sorted_ofPairs _⟩
  · repeat' split
    all_goals exact ⟨rfl, Dict.sorted_ofPairs _⟩
  · repeat' split
    all_goals exact ⟨rfl, Dict.Sorted.nil⟩
  all_goals exact ⟨rfl, Dict.Sorted.nil⟩

theorem foldl_apply (properties : List (String × Value)) (s : ScalePlan × Dict Value) (h : Dict.Sorted s.2) :
    (properties.foldl apply s).1.scale.name = s.1.scale.name ∧ Dict.Sorted (properties.foldl apply s).2 := by
  induction properties generalizing s with
  | nil => exact ⟨rfl, h⟩
  | cons x xs ih =>
    obtain ⟨hname, hsorted⟩ := ih _ (sorted_apply h x)
    exact ⟨hname.trans (name_apply s x), hsorted⟩

theorem tidy_ofChannel {name : String} (hname : Unclaimed name) (channel : String) (c : Channel) (m : MarkPlan)
    (p : Place) : TidyScale (ofChannel name channel c m p).scale
      ∧ (ofChannel name channel c m p).scale.name = name := by
  obtain ⟨hinitial, hsorted⟩ := initial_cases name channel c m p
  obtain ⟨hfold, hsorted⟩ := foldl_apply c.scale (initial name channel c m p) hsorted
  have hfinal : (ofChannel name channel c m p).scale.name = name := hfold.trans hinitial
  refine ⟨⟨Dict.Sorted.map hsorted _, fun e he => ?_, by rwa [hfinal]⟩, hfinal⟩
  obtain ⟨x, -, rfl⟩ := mem_map.mp he
  exact Fragment.proper_closed.value trivial

/-- The scales of views have names of their own in front, and none of them starts like a time scale. -/
def Place.Named (p : Place) : Prop := p.scalePrefix.toList.head? ≠ some 't'

theorem Place.Named.unclaimed (hp : p.Named) (hchannel : Unclaimed channel) :
    Unclaimed (if channel = "x" ∨ channel = "y" then p.scalePrefix ++ channel else channel) := by
  split
  · next h =>
    have hlast : (p.scalePrefix ++ channel).toList.getLast? = channel.toList.getLast? := by
      rcases h with rfl | rfl <;> simp
    refine ⟨?_, hlast ▸ hchannel.2⟩
    rw [String.toList_append, head?_append]
    cases hhead : p.scalePrefix.toList.head? with
    | none => exact hchannel.1
    | some c =>
      rw [Named, hhead] at hp
      exact hp
  · exact hchannel

theorem run_scaleFor (channel : String) (c : Channel) (m : MarkPlan) (p : Place) (data : String) (fields : List String)
    (s : Draft) : ∃ name, name = (if channel = "x" ∨ channel = "y" then p.scalePrefix ++ channel else channel)
      ∧ (scaleFor channel c m p data fields).run s = .ok (name, { s with
        scales := if (s.scales.any fun b => b.scale.name == name) = true then
            s.scales.map fun b => if b.scale.name == name then b.addFields data fields else b
          else s.scales ++ [(ofChannel name channel c m p).addFields data fields] }) := by
  refine ⟨_, rfl, ?_⟩
  unfold scaleFor
  generalize (if channel = "x" ∨ channel = "y" then p.scalePrefix ++ channel else channel) = name
  show (if s.scales.any (·.scale.name == name) then _ else _ : Lower String).run s = _
  split <;> rfl

theorem yields_scaleFor (hchannel : Unclaimed channel) (c : Channel) (m : MarkPlan) (hp : p.Named) (data : String)
    (fields : List String) : Yields (Draft.Tidy o) (scaleFor channel c m p data fields) Unclaimed := by
  intro s a s' hs hrun
  obtain ⟨name, hname, hrun'⟩ := run_scaleFor channel c m p data fields s
  obtain ⟨rfl, rfl⟩ := Prod.mk.inj (Except.ok.inj (hrun'.symm.trans hrun))
  have hunclaimed : Unclaimed name := hname ▸ hp.unclaimed hchannel
  refine ⟨?_, hunclaimed⟩
  split
  · have hkept (b : ScalePlan) : (if b.scale.name == name then b.addFields data fields else b).scale = b.scale := by
      split <;> rfl
    refine { hs with
      scales := forall_mem_map.mpr fun b hb => ?_
      distinct := ?_
      path := hs.path.tail (.keep s _ _ _) }
    · rw [hkept]
      exact hs.scales b hb
    · rw [map_map]
      exact (map_congr_left fun b _ => congrArg Scale.name (hkept b)) ▸ hs.distinct
  · next hnew =>
    obtain ⟨htidy, hscale⟩ := tidy_ofChannel hunclaimed channel c m p
    refine { hs with
      scales := forall_mem_append.mpr ⟨hs.scales, forall_mem_singleton.mpr htidy⟩
      distinct := ?_
      path := hs.path.tail (.keep s _ _ _) }
    rw [map_append, nodup_append]
    refine ⟨hs.distinct, nodup_singleton _, fun n hn n' hn' heq => hnew ?_⟩
    obtain ⟨b, hb, rfl⟩ := mem_map.mp hn
    exact any_eq_true.mpr ⟨b, hb, beq_iff_eq.mpr ((heq.trans (mem_singleton.mp hn')).trans hscale)⟩

theorem proper_pointSignals (fields : List String) (unit : String) : ∀ x ∈ pointSignals name fields unit, x.Proper := by
  intro x hx
  simp only [pointSignals, mem_cons, not_mem_nil, or_false] at hx
  rcases hx with rfl | rfl | rfl | rfl <;> exact ⟨by simp, by simp⟩

theorem yields_addVariable (hq : o.declared q) {d : ParamDefinition}
    (hd : variableName? q = some d.name) : Yields (Draft.Tidy o) (addVariable d) fun _ => True := by
  intro s a s' hs hrun
  rw [addVariable, run_get_bind] at hrun
  split at hrun
  · next hnew =>
    cases hrun
    have hproper : Signal.Proper { name := d.name, value := d.value, update := d.expr, bind := d.bind } :=
      ⟨by simp, by simp⟩
    exact ⟨{ hs with
      signals := hs.addSignals (forall_mem_singleton.mpr hproper)
      path := hs.path.tail (.assign s hq _ hd (by simpa [Draft.signalNames] using hnew)) }, trivial⟩
  · cases hrun
    exact ⟨hs, trivial⟩

theorem yields_addPoint (hq : o.declared q) {name : String} (hname : pointName? q = some name)
    (fields : List String) (unit : String) : Yields (Draft.Tidy o) (addPoint name fields unit) fun _ => True := by
  intro s a s' hs hrun
  rw [addPoint, run_get_bind] at hrun
  split at hrun
  · next hnew =>
    cases hrun
    refine ⟨{ hs with
      data := hs.addData ⟨.nil _, .store name⟩
      signals := ?_
      path := hs.path.tail (.select s hq hname (by simpa [Draft.dataNames, storeName] using hnew) fields unit) }, trivial⟩
    dsimp only
    rw [append_assoc]
    refine hs.addSignals (forall_mem_append.mpr ⟨fun x hx => ?_, proper_pointSignals name fields unit⟩)
    split at hx
    · cases hx
    · rw [mem_singleton.mp hx]
      exact ⟨by simp [unitSignal], by simp [unitSignal]⟩
  · cases hrun
    exact ⟨hs, trivial⟩

theorem yields_lowerParam (m : MarkPlan) (p : Place) (hq : o.declared q) :
    Yields (Draft.Tidy o) (lowerParam m p q) fun _ => True := by
  unfold lowerParam
  split
  · exact yields_throw _
  · next raw =>
    have hread (d : ParamDefinition) (h : (ParamDefinition.reader.run raw {}).mapError (Error.within "param") = .ok d) :
        definition? (.plain raw) = some d := toOption_eq_some.mpr (mapError_eq_ok.mp h)
    refine (yields_liftM hread).bind fun d hd => yields_unless fun _ => ?_
    split
    · next hselect => exact yields_addVariable hq (by simp [variableName?, hd, hselect])
    · next f hselect =>
      refine (yields_liftM fun sel hsel => mapError_eq_ok.mp hsel).bind fun sel hsel => yields_unless fun htype =>
        yields_unless fun _ => ?_
      exact yields_addPoint hq (by simp [pointName?, hd, hselect, toOption_eq_some.mpr hsel, htype]) _ _

theorem yields_lowerParams (m : MarkPlan) (p : Place) {params : List Spec.Param} (hparams : ∀ q ∈ params, o.declared q) :
    Yields (Draft.Tidy o) (lowerParams m p params) fun _ => True := by
  induction params with
  | nil => exact yields_pure trivial
  | cons q qs ih =>
    obtain ⟨hq, hqs⟩ := forall_mem_cons.mp hparams
    exact (yields_lowerParam m p hq).bind fun _ _ => ih hqs

end AnimatedChart.Lowering

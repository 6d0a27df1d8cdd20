import AnimatedChart.Proofs.Spec.Reread

/-!
# What the static part of a chart leaves out

The static part leaves out the animation and nothing else (`Chart.static_strips`). A filter goes with the selection that
it filters on, wherever in the chart that is declared.
-/

open List

namespace AnimatedChart.Spec

open Json Reader

variable {a : Selection} (names : List String) (around : List Layer) (c : Chart)

def View.params : View → List Param
  | .unit u => u.params
  | .layer l _ => l.params

theorem mem_selections {ps : List Param} : a ∈ selections ps ↔ .animation a ∈ ps := by
  rw [selections, mem_filterMap]
  constructor
  · rintro ⟨p, hp, h⟩
    cases p with
    | animation b => exact Option.some.inj h ▸ hp
    | plain raw => cases h
  · exact fun h => ⟨_, h, rfl⟩

mutual

theorem View.mem_selections : ∀ (v : View) (id : ScopeId) (path : String)
    (around : List (Layer × List View)) (inh : Inherited),
    a ∈ v.selections ↔ ∃ s ∈ v.sites id path around inh, .animation a ∈ s.view.params
  | .unit u, id, path, around, inh => by
    rw [selections, Unit.selections, Spec.mem_selections]
    simp [sites, params]
  | .layer l children, id, path, around, inh => by
    rw [selections, mem_append, Layer.selections, Spec.mem_selections,
      mem_selectionsOf children id path (around ++ [(l, children)]) (inh.within l.others l.transforms) 0]
    simp [sites, params]

theorem View.mem_selectionsOf : ∀ (vs : List View) (id : ScopeId) (path : String)
    (around : List (Layer × List View)) (inh : Inherited) (i : Nat),
    a ∈ selectionsOf vs ↔ ∃ s ∈ sitesAll id path around inh i vs, .animation a ∈ s.view.params
  | [], _, _, _, _, _ => by simp [selectionsOf, sitesAll]
  | v :: vs, id, path, around, inh, i => by
    rw [selectionsOf, mem_append, sitesAll,
      mem_selections v (id.child "layer" i) (childPath path i) around inh,
      mem_selectionsOf vs id path around inh (i + 1)]
    simp only [mem_append, or_and_right, exists_or]

end

theorem Chart.mem_selections : a ∈ c.selections ↔ ∃ s ∈ c.sites, .animation a ∈ s.view.params := by
  cases c with
  | view v => exact v.mem_selections _ _ _ _
  | vconcat us others =>
    simp only [selections, sites, mem_flatMap, mem_mapIdx, Unit.selections, Spec.mem_selections]
    constructor
    · rintro ⟨u, hu, ha⟩
      obtain ⟨i, hi, rfl⟩ := mem_iff_getElem.mp hu
      exact ⟨_, ⟨i, hi, rfl⟩, ha⟩
    · rintro ⟨_, ⟨i, hi, rfl⟩, ha⟩
      exact ⟨_, getElem_mem hi, ha⟩

/-! ## Parameters -/

/-- A parameter and its static form, where the nearest time encoding is given. -/
def Param.Stripped (time : Option TimeEncoding) : Param → Param → Prop
  | .plain raw, p => p = .plain raw
  | .animation a, p => ∃ raw fields, p = .plain raw ∧ isAnimation raw = false
    ∧ Value.ofFragment raw = (.object [("name", .string a.name),
        ("select", .object [("fields", .array (fields.map .string)), ("type", .string "point")])], true)
    ∧ (a.predicates ≠ [] → fields = a.predicates.map (·.field))
    ∧ (a.predicates = [] → fields = (time.map (·.field)).toList.filter (· ≠ ""))

theorem Selection.fields_of_predicates (h : a.predicates ≠ []) (time : Option TimeEncoding) :
    a.fields time = a.predicates.map (·.field) := by
  unfold fields
  split
  · next hp => exact absurd hp h
  · rfl

theorem Selection.fields_of_time (h : a.predicates = []) (time : Option TimeEncoding) :
    a.fields time = (time.map (·.field)).toList.filter (· ≠ "") := by
  unfold fields
  rw [h]
  cases time with
  | none => rfl
  | some t =>
    by_cases ht : t.field = ""
    · simp [ht]
    · simp [ht]

theorem Selection.ofFragment_plain (a : Selection) (fields : List String) :
    Value.ofFragment (.record [("name", .htmlText a.name),
        ("select", .record [("fields", .list (fields.map .htmlText)), ("type", .text "point")])])
      = (.object [("name", .string a.name),
          ("select", .object [("fields", .array (fields.map .string)), ("type", .string "point")])], true) := by
  have hitems : Value.ofItems (fields.map .htmlText) = (fields.map .string, true) := by
    induction fields with
    | nil => rfl
    | cons f fs ih => simp only [map_cons, Value.ofItems, ih, Fragment.htmlText, Value.ofFragment,
        Fragment.unescape_encode, Bool.and_self]
  simp only [Fragment.record, Fragment.list, Fragment.htmlText, Fragment.text, map_cons, map_nil,
    Value.ofFragment, Value.ofMembers, Fragment.unescape_encode] at hitems ⊢
  have hpair {k k' : String} (h : k < k') (v v' : Value) : Dict.ofPairs [(k, v), (k', v')] = [(k, v), (k', v')] :=
    Dict.ofPairs_of_sorted (pairwise_pair.mpr h)
  rw [hitems, hpair (by decide), hpair (by decide)]
  rfl

theorem Param.stripped_static (time : Option TimeEncoding) (p : Param) : p.Stripped time (p.static time) := by
  cases p with
  | plain raw => rfl
  | animation a =>
    exact ⟨_, _, rfl, (a.sound_plain time).2, a.ofFragment_plain (a.fields time), (a.fields_of_predicates · time),
      (a.fields_of_time · time)⟩

theorem Param.name_static (time : Option TimeEncoding) (p : Param) : (p.static time).name = p.name := by
  cases p with
  | plain raw => rfl
  | animation a =>
    have htext : Takes text (.htmlText a.name) a.name := by
      intro old
      show Reading.read (Fragment.unescape _) true = _
      rw [Fragment.unescape_encode]
    let select : Fragment := .record [("fields", .list ((a.fields time).map .htmlText)), ("type", .text "point")]
    have hread : Reader.record [("name", Reader.text)]
        (.recordOf [("name", some (.htmlText a.name)), ("select", some select)]) "" = .read a.name true :=
      field_recordWith Dict.Sorted.nil (by decide : Distinct ["name", "select"]) nofun
        mem_cons_self (by simp) (htext.restores _ _)
    exact congrArg (fun r => r.value?.getD "") hread

theorem Param.static_static (time time' : Option TimeEncoding) (p : Param) :
    (p.static time).static time' = p.static time := by
  cases p <;> rfl

theorem selections_map_static (time : Option TimeEncoding) (ps : List Param) :
    selections (ps.map (Param.static time)) = [] := by
  rw [selections, filterMap_map]
  refine filterMap_eq_nil_iff.mpr fun p _ => ?_
  cases p <;> rfl

/-! ## Units and layers -/

/-- The time encoding that is nearest to a place: its own, or else that of the innermost layer around it with one. -/
def nearestTime (around : List Layer) (own : Option TimeEncoding) : Option TimeEncoding :=
  (around.filterMap Layer.time ++ own.toList).getLast?

theorem nearestTime_eq (own : Option TimeEncoding) :
    nearestTime around own = own.orElse fun _ => nearestTime around none := by
  cases own with
  | none => rfl
  | some t => exact getLast?_concat

theorem nearestTime_concat (l : Layer) : nearestTime (around ++ [l]) none = nearestTime around l.time := by
  unfold nearestTime
  rw [filterMap_append, Option.toList_none, append_nil]
  cases h : l.time <;> simp [h]

/-- A unit and its static part below some layers, where certain names are those of animation selections. -/
structure Unit.Stripped (names : List String) (around : List Layer) (u u' : Unit) : Prop where
  time : u'.time = none
  enter : u'.enter = none
  exit : u'.exit = none
  selections : u'.selections = []
  mark : u'.mark = u.mark
  others : u'.others = u.others
  /-- Time goes and nothing else. -/
  encoding : u'.encoding = u.encoding.map fun e => { e with time := none }
  paramNames : u'.params.map Param.name = u.params.map Param.name
  params : List.Forall₂ (Param.Stripped (nearestTime around u.time)) u.params u'.params
  transforms : u'.transforms = u.transforms.filter fun t => ¬(t.param ≠ "" ∧ t.param ∈ names)

/-- A layer and its static part below some layers, where certain names are those of animation selections. -/
structure Layer.Stripped (names : List String) (around : List Layer) (l l' : Layer) : Prop where
  time : l'.time = none
  selections : l'.selections = []
  others : l'.others = l.others
  /-- Time goes, and the encoding with it if it has no channels. -/
  encoding : l'.encoding = l.encoding.bind fun e => if e.channels = [] then none else some { e with time := none }
  paramNames : l'.params.map Param.name = l.params.map Param.name
  params : List.Forall₂ (Param.Stripped (nearestTime around l.time)) l.params l'.params
  transforms : l'.transforms = l.transforms.filter fun t => ¬(t.param ≠ "" ∧ t.param ∈ names)

theorem forall₂_static (time : Option TimeEncoding) (ps : List Param) :
    List.Forall₂ (Param.Stripped time) ps (ps.map (Param.static time)) :=
  forall₂_map_right_iff.mpr (forall₂_same.mpr fun p _ => p.stripped_static time)

theorem map_name_static (time : Option TimeEncoding) (ps : List Param) :
    (ps.map (Param.static time)).map Param.name = ps.map Param.name := by
  rw [map_map]
  exact map_congr_left fun p _ => p.name_static time

theorem filter_filtersOn (ts : List Transform) :
    (ts.filter fun t => !t.filtersOn names) = ts.filter fun t => ¬(t.param ≠ "" ∧ t.param ∈ names) := by
  refine filter_congr fun t _ => ?_
  have hempty : t.param.isEmpty = decide (t.param = "") := by
    rw [Bool.eq_iff_iff, String.isEmpty_iff, decide_eq_true_eq]
  simp [Transform.filtersOn, hempty]

theorem Layer.encoding_static (time : Option TimeEncoding) (l : Layer) : (l.static names time).encoding
      = l.encoding.bind fun e => if e.channels = [] then none else some { e with time := none } := by
  rw [static]
  cases l.encoding with
  | none => rfl
  | some e =>
    obtain ⟨channels, t⟩ := e
    cases channels <;> rfl

theorem Unit.stripped_static (u : Unit) : u.Stripped names around (u.static names (nearestTime around none)) where
  time := by
    show (u.encoding.map Encoding.static).bind (·.time) = none
    cases u.encoding <;> rfl
  enter := rfl
  exit := rfl
  selections := selections_map_static _ _
  mark := rfl
  others := rfl
  encoding := rfl
  paramNames := map_name_static _ _
  params := nearestTime_eq around u.time ▸ forall₂_static _ _
  transforms := filter_filtersOn _ _

theorem Layer.stripped_static (l : Layer) : l.Stripped names around (l.static names (nearestTime around none)) where
  time := by
    rw [time, l.encoding_static]
    cases l.encoding with
    | none => rfl
    | some e =>
      rw [Option.bind_some]
      split <;> rfl
  selections := selections_map_static _ _
  others := rfl
  encoding := l.encoding_static _ _
  paramNames := map_name_static _ _
  params := nearestTime_eq around l.time ▸ forall₂_static _ _
  transforms := filter_filtersOn _ _

mutual

theorem View.stripped_static (names : List String) : ∀ (v : View) (around : List Layer),
    v.Corresponds (Unit.Stripped names) (Layer.Stripped names) around (v.static names (nearestTime around none))
  | .unit u, around => u.stripped_static names around
  | .layer l children, around => by
    rw [static, ← nearestTime_eq, ← nearestTime_concat]
    exact ⟨l.stripped_static names around, stripped_staticAll names children _⟩

theorem View.stripped_staticAll (names : List String) : ∀ (vs : List View) (around : List Layer),
    View.CorrespondAll (Unit.Stripped names) (Layer.Stripped names) around vs
      (staticAll names (nearestTime around none) vs)
  | [], _ => trivial
  | v :: vs, around => ⟨stripped_static names v around, stripped_staticAll names vs around⟩

end

mutual

theorem View.selections_static (names : List String) : ∀ (v : View) (time : Option TimeEncoding),
    (v.static names time).selections = []
  | .unit _, _ => selections_map_static _ _
  | .layer _ children, _ => append_eq_nil_iff.mpr
    ⟨selections_map_static _ _, selectionsOf_staticAll names children _⟩

theorem View.selectionsOf_staticAll (names : List String) : ∀ (vs : List View) (time : Option TimeEncoding),
    selectionsOf (staticAll names time vs) = []
  | [], _ => rfl
  | v :: vs, time => append_eq_nil_iff.mpr
    ⟨selections_static names v time, selectionsOf_staticAll names vs time⟩

end

theorem Chart.selections_static : c.static.selections = [] := by
  cases c with
  | view v => exact v.selections_static _ none
  | vconcat us others =>
    cases us with
    | none => rfl
    | some us =>
      refine flatMap_eq_nil_iff.mpr fun u hu => ?_
      obtain ⟨u, -, rfl⟩ := mem_map.mp hu
      exact selections_map_static _ _

/-! ## Static charts stay as they are -/

theorem map_static_static (time time' : Option TimeEncoding) (ps : List Param) :
    (ps.map (Param.static time)).map (Param.static time') = ps.map (Param.static time) := by
  rw [map_map]
  exact map_congr_left fun p _ => p.static_static time time'

theorem filter_filtersOn_nil (ts : List Transform) : (ts.filter fun t => !t.filtersOn []) = ts :=
  filter_eq_self.mpr fun t _ => by simp [Transform.filtersOn]

theorem Unit.static_static (time time' : Option TimeEncoding) (u : Unit) :
    (u.static names time).static [] time' = u.static names time := by
  have hencoding : (u.encoding.map Encoding.static).map Encoding.static = u.encoding.map Encoding.static := by
    cases u.encoding <;> rfl
  rw [static, Unit.mk.injEq]
  exact ⟨rfl, hencoding, map_static_static _ _ _, filter_filtersOn_nil _, rfl, rfl, rfl⟩

theorem Layer.static_static (time time' : Option TimeEncoding) (l : Layer) :
    (l.static names time).static [] time' = l.static names time := by
  have hencoding : (((l.encoding.map Encoding.static).filter fun e => !e.channels.isEmpty).map Encoding.static).filter
      (fun e => !e.channels.isEmpty) = (l.encoding.map Encoding.static).filter fun e => !e.channels.isEmpty := by
    cases l.encoding with
    | none => rfl
    | some e =>
      rw [Option.map_some, Option.filter_some]
      split
      · next h => exact (Option.filter_some ..).trans (if_pos h)
      · rfl
  rw [static, Layer.mk.injEq]
  exact ⟨hencoding, map_static_static _ _ _, filter_filtersOn_nil _, rfl⟩

mutual

theorem View.static_static (names : List String) : ∀ (v : View) (time time' : Option TimeEncoding),
    (v.static names time).static [] time' = v.static names time
  | .unit u, time, time' => congrArg View.unit (u.static_static names time time')
  | .layer l children, time, time' => by rw [static, static, l.static_static, staticAll_staticAll names children]

theorem View.staticAll_staticAll (names : List String) : ∀ (vs : List View) (time time' : Option TimeEncoding),
    staticAll [] time' (staticAll names time vs) = staticAll names time vs
  | [], _, _ => rfl
  | v :: vs, time, time' => by rw [staticAll, staticAll, static_static names v, staticAll_staticAll names vs]

end

theorem Chart.static_idempotent : c.static.static = c.static := by
  have hnames : c.static.selections.map Selection.name = [] := by rw [c.selections_static, map_nil]
  rw [static.eq_def c.static, hnames]
  cases c with
  | view v => exact congrArg Chart.view (v.static_static _ none none)
  | vconcat us others =>
    cases us with
    | none => rfl
    | some us =>
      refine congrArg (fun us => Chart.vconcat (some us) others) (map_map.trans ?_)
      exact map_congr_left fun u _ => u.static_static _ none none

theorem Chart.stripped_static :
    c.Corresponds (Unit.Stripped (c.selections.map Selection.name)) (Layer.Stripped (c.selections.map Selection.name))
      c.static := by
  cases c with
  | view v => exact v.stripped_static _ []
  | vconcat us others =>
    refine ⟨rfl, ?_⟩
    cases us with
    | none => exact .none
    | some us => exact .some (forall₂_map_right_iff.mpr (forall₂_same.mpr fun u _ => u.stripped_static _ []))

/-- At every place of a chart the static part leaves out the animation, with the filters on the animation selections of
the whole chart, and keeps all else. Nothing of a static part is left out again. -/
theorem Chart.static_strips (c : Chart) :
    ∃ names : List String,
      (∀ n, n ∈ names ↔ ∃ s ∈ c.sites, ∃ a, .animation a ∈ s.view.params ∧ a.name = n)
        ∧ c.Corresponds (Unit.Stripped names) (Layer.Stripped names) c.static
        ∧ c.static.static = c.static := by
  refine ⟨c.selections.map Selection.name, fun n => ?_, c.stripped_static, c.static_idempotent⟩
  simp only [mem_map, c.mem_selections]
  constructor
  · rintro ⟨a, ⟨s, hs, ha⟩, hn⟩
    exact ⟨s, hs, a, ha, hn⟩
  · rintro ⟨s, hs, a, ha, hn⟩
    exact ⟨a, ⟨s, hs, ha⟩, hn⟩

end AnimatedChart.Spec

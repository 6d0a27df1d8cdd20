import AnimatedChart.Proofs.Animation.Retouch
import AnimatedChart.Proofs.Spec.Elaborated
import AnimatedChart.Proofs.Spec.Frame

/-!
# Static charts read back

The static part of a chart is handed on as a text. Whatever is read from that text has the units of the chart in their
places, and those that were marked are marked again (`Chart.marked_reread`), also if a further member hides the mark.
-/

namespace AnimatedChart.Spec

open Json Animation

/-- The type of the comparison's tuples rests on a list that is empty, and so is not written. -/
def FieldPredicate.restsOnEmptyList (p : FieldPredicate) : Bool :=
  [p.equal, p.lt, p.gt, p.lte, p.gte].all (fun v => !v.isSome)
    && match p.range, p.oneOf with
      | some [], _ => true
      | none, some [] => p.valid.isSome
      | _, _ => false

theorem FieldPredicate.tupleType_settle (p : FieldPredicate) :
    p.settle.tupleType = p.tupleType ↔ p.restsOnEmptyList = false := by
  unfold tupleType settle restsOnEmptyList
  -- A single operand comes before the lists.
  by_cases hequal : p.equal.isSome = true
  · simp [hequal]
  by_cases hlt : p.lt.isSome = true
  · simp [hequal, hlt]
  by_cases hgt : p.gt.isSome = true
  · simp [hequal, hlt, hgt]
  by_cases hlte : p.lte.isSome = true
  · simp [hequal, hlt, hgt, hlte]
  by_cases hgte : p.gte.isSome = true
  · simp [hequal, hlt, hgt, hlte, hgte]
  simp only [hequal, hlt, hgt, hlte, hgte, List.all_cons, List.all_nil]
  rcases p.range with _ | _ | ⟨v, vs⟩
  · rcases p.oneOf with _ | _ | ⟨w, ws⟩ <;> cases p.valid <;> simp
  · rcases p.oneOf with _ | _ | ⟨w, ws⟩ <;> cases p.valid <;> simp
  · simp

theorem keepsTuples_reading {a : Selection} (h : ∀ p ∈ a.predicates, p.restsOnEmptyList = false) :
    KeepsTuples .reading a := by
  have hpredicates : (Retouch.reading.selection a).predicates = a.predicates.map FieldPredicate.settle :=
    a.predicates_settle
  rw [KeepsTuples, hpredicates, List.map_map]
  exact List.map_congr_left fun p hp => p.tupleType_settle.mpr (h p hp)

theorem compileElaborated_of_bare_eq (base : BaseCompiler) {c c' : Chart} (h : c.bare = c'.bare) :
    compileElaborated base c = compileElaborated base c' := by
  have hblanks (c : Chart) : compileElaborated base c.bare = compileElaborated base c := by
    rw [← c.retouch_blanks]
    exact compileElaborated_retouch base fun _ _ _ _ => rfl
  rw [← hblanks c, h, hblanks c']

theorem compileElaborated_settle (base : BaseCompiler) {c : Chart}
    (h : ∀ s ∈ c.scopes, ∀ a ∈ s.selections, ∀ p ∈ a.predicates, p.restsOnEmptyList = false) :
    compileElaborated base c.settle = compileElaborated base c := by
  rw [← c.retouch_reading]
  exact compileElaborated_retouch base fun s hs a ha => keepsTuples_reading (h s hs a ha)

/-- Storing an elaborated chart as text changes nothing about how it compiles. -/
theorem compile_stored_elaboration {doc : String} {c : Chart} (h : Chart.parse doc = .ok c)
    (hdepth : c.elaborate.toFragment.fits 0 = true) (hclear : c.elaborate.Clear)
    (hlists : ∀ s ∈ c.elaborate.scopes, ∀ a ∈ s.selections, ∀ p ∈ a.predicates, p.restsOnEmptyList = false) :
    ∃ e, Chart.parse c.elaborate.render = .ok e
      ∧ ∀ base, compileElaborated base e = compileElaborated base c.elaborate := by
  obtain ⟨e, he, hbare⟩ := Chart.parse_render (Chart.sound_elaborate (Chart.sound_parse h)) hdepth hclear
  refine ⟨e, he, fun base => ?_⟩
  rw [compileElaborated_of_bare_eq base hbare, compileElaborated_settle base hlists]

/-- Bars of the keyframes up to the current one: a selection with a comparison that spans keyframes. -/
def growingBars : String :=
  "\x7b\"mark\": \"bar\", \"encoding\": \x7b\"time\": \x7b\"field\": \"year\"\x7d\x7d, \"params\": [\x7b\"name\": \"shown\", "
    ++ "\"select\": \x7b\"type\": \"point\", \"on\": \"timer\", \"predicate\": \x7b\"field\": \"year\", "
    ++ "\"range\": [\"from\", \"to\"]\x7d\x7d\x7d]\x7d"

def storesUnit (doc : String) : Bool :=
  match Fragment.parse? doc with
  | none => false
  | some f =>
    match Reader.membersOf f, Unit.read f with
    | .ok ms, .ok u =>
      let c := (Chart.view (.unit u)).elaborate
      !Dict.has ms "layer" && !Dict.has ms "vconcat" && !c.scopes.isEmpty
        && decide (c.toFragment.fits 0 = true ∧ c.Clear
          ∧ ∀ s ∈ c.scopes, ∀ a ∈ s.selections, ∀ p ∈ a.predicates, p.restsOnEmptyList = false)
    | _, _ => false

theorem exists_of_storesUnit {doc : String} (h : storesUnit doc = true) :
    ∃ c, Chart.parse doc = .ok c ∧ c.elaborate.scopes ≠ [] ∧ c.elaborate.toFragment.fits 0 = true ∧ c.elaborate.Clear
      ∧ ∀ s ∈ c.elaborate.scopes, ∀ a ∈ s.selections, ∀ p ∈ a.predicates, p.restsOnEmptyList = false := by
  unfold storesUnit at h
  split at h
  · exact absurd h Bool.false_ne_true
  · next f hf =>
    split at h
    · next ms u hms hu =>
      simp only [Bool.and_eq_true, Bool.not_eq_true', decide_eq_true_eq] at h
      obtain ⟨⟨⟨hlayer, hconcat⟩, hscopes⟩, hstored⟩ := h
      exact ⟨_, Chart.parse_unit hf hms hlayer hconcat hu, List.isEmpty_eq_false_iff.mp hscopes, hstored⟩
    · exact absurd h Bool.false_ne_true

theorem compile_stored_growingBars :
    ∃ c, Chart.parse growingBars = .ok c ∧ c.elaborate.scopes ≠ [] ∧ c.elaborate.toFragment.fits 0 = true
      ∧ c.elaborate.Clear
      ∧ (∀ s ∈ c.elaborate.scopes, ∀ a ∈ s.selections, ∀ p ∈ a.predicates, p.restsOnEmptyList = false)
      ∧ ∃ e, Chart.parse c.elaborate.render = .ok e
        ∧ ∀ base, compileElaborated base e = compileElaborated base c.elaborate := by
  have hstores : storesUnit growingBars = true := by
    have hchars : growingBars.toList = _ := String.toList_append.trans (congrArg₂ _
      (String.toList_append.trans (congrArg₂ _ String.toList_ofList String.toList_ofList)) String.toList_ofList)
    rw [storesUnit, Fragment.parse?, hchars]
    decide +kernel
  obtain ⟨c, hparse, hscopes, hdepth, hclear, hlists⟩ := exists_of_storesUnit hstores
  exact ⟨c, hparse, hscopes, hdepth, hclear, hlists, compile_stored_elaboration hparse hdepth hclear hlists⟩

end AnimatedChart.Spec

open List AnimatedChart.Json.Fragment

namespace AnimatedChart.Spec

open Json Reader

variable {c c' : Chart} {cs : List Fragment} {l : Layer} {u u' : Unit}

/-! ## Static charts are sound -/

theorem Param.isDriven_untriggered {fields : List (String × Option Fragment)}
    (h : ∀ x ∈ fields, foldName "on" ≠ foldName x.1) : isDriven (.recordOf fields) = false := by
  unfold isDriven
  split
  · next type on hrun =>
    have hon := (schema.members_iff.mp (run_eq_ok.mp hrun)).1 _ (mem_cons_of_mem _ mem_cons_self)
    exact nomatch (Reading.read.inj ((record_unnamed fragment h none).symm.trans hon)).1
  · rfl

theorem Selection.sound_plain (a : Selection) (time : Option TimeEncoding) : (a.plain time).Sound := by
  let select : Fragment :=
    .recordOf [("fields", some (.list ((a.fields time).map .htmlText))), ("type", some (.text "point"))]
  have hselect : select.Spelled := by
    refine spelled_closed.recordOf ?_
    simp only [forall_mem_cons, not_mem_nil, false_implies, implies_true, and_true, Option.mem_def,
      Option.some.injEq, forall_eq']
    exact ⟨spelled_closed.mapped fun field _ => spelled_htmlText field, spelled_text "point"⟩
  show (Param.plain (.recordOf [("name", some (.htmlText a.name)), ("select", some select)])).Sound
  have hread : (Reader.record [("select", Reader.fragment)]).run
      (.recordOf [("name", some (.htmlText a.name)), ("select", some select)]) none = .ok (some select) :=
    run_eq_ok.mpr (field_recordWith Dict.Sorted.nil (by decide : Distinct ["name", "select"]) (forall_mem_nil _)
      (mem_cons_of_mem _ mem_cons_self) (by simp) ((takes_fragment select).restores _ _))
  refine ⟨spelled_closed.recordOf ?_, ?_⟩
  · simp only [forall_mem_cons, not_mem_nil, false_implies, implies_true, and_true, Option.mem_def,
      Option.some.injEq, forall_eq']
    exact ⟨spelled_htmlText a.name, hselect⟩
  · rw [Param.isAnimation_eq, hread]
    refine Param.isDriven_untriggered ?_
    simp only [forall_mem_cons, not_mem_nil, false_implies, implies_true, and_true]
    decide

theorem Param.sound_static {p : Param} (h : p.Sound) (time : Option TimeEncoding) : (p.static time).Sound := by
  cases p with
  | animation a => exact a.sound_plain time
  | plain raw => exact h

theorem sound_static_params {ps : List Param} (h : ∀ p ∈ ps, p.Sound) (time : Option TimeEncoding) :
    ∀ p ∈ ps.map (Param.static time), p.Sound := by
  intro p hp
  obtain ⟨p', hp', rfl⟩ := mem_map.mp hp
  exact p'.sound_static (h p' hp') time

theorem Encoding.sound_static {e : Encoding} (h : e.Sound) : e.static.Sound := { h with time := nofun }

theorem sound_static_encoding {o : Option Encoding} (h : ∀ e ∈ o, e.Sound) : ∀ e ∈ o.map Encoding.static, e.Sound := by
  intro e he
  obtain ⟨e', he', rfl⟩ := Option.map_eq_some_iff.mp he
  exact Encoding.sound_static (h e' he')

theorem Unit.sound_static (h : u.Sound) (names : List String) (time : Option TimeEncoding) :
    (u.static names time).Sound where
  mark := h.mark
  encoding := sound_static_encoding h.encoding
  params := sound_static_params h.params _
  transforms := fun t ht => h.transforms t (mem_of_mem_filter ht)
  enter := nofun
  exit := nofun
  others := h.others

theorem Layer.sound_static (h : l.Sound) (names : List String) (time : Option TimeEncoding) :
    (l.static names time).Sound where
  encoding := fun e he => sound_static_encoding h.encoding e (Option.filter_eq_some_iff.mp he).1
  params := sound_static_params h.params _
  transforms := fun t ht => h.transforms t (mem_of_mem_filter ht)
  others := h.others

mutual

theorem View.sound_static (names : List String) : ∀ (v : View) (time : Option TimeEncoding), v.Sound →
    (v.static names time).Sound
  | .unit _, time, h => ⟨Unit.sound_static h.1 names time, h.2⟩
  | .layer _ children, time, h => ⟨Layer.sound_static h.1 names time, sound_staticAll names children _ h.2⟩

theorem View.sound_staticAll (names : List String) : ∀ (vs : List View) (time : Option TimeEncoding), View.SoundAll vs →
    View.SoundAll (staticAll names time vs)
  | [], _, _ => trivial
  | v :: vs, time, h => ⟨sound_static names v time h.1, sound_staticAll names vs time h.2⟩

end

theorem Chart.sound_static (h : c.Sound) : c.static.Sound := by
  cases c with
  | view v => exact View.sound_static _ v none h
  | vconcat us others =>
    refine ⟨fun us' hus' u hu => ?_, h.2⟩
    obtain ⟨us, rfl, rfl⟩ := Option.map_eq_some_iff.mp hus'
    obtain ⟨u, hmem, rfl⟩ := mem_map.mp hu
    obtain ⟨hsound, hcomposed⟩ := h.1 us rfl u hmem
    exact ⟨Unit.sound_static hsound _ none, hcomposed⟩

/-! ## Charts of one shape -/

/-- The second unit has the further members of the first, up to blanks, and a mark if the first has one. -/
structure Unit.Resembles (u u' : Unit) : Prop where
  marked : u.hasMark = true → u'.hasMark = true
  others : Dict.mapValues Fragment.bare u'.others = Dict.mapValues Fragment.bare u.others

def Layer.Resembles (l l' : Layer) : Prop :=
  Dict.mapValues Fragment.bare l'.others = Dict.mapValues Fragment.bare l.others

/-- Views of one shape whose units and layers resemble each other. -/
abbrev View.Resembles (around : List Layer) (v v' : View) : Prop :=
  v.Corresponds (fun _ => Unit.Resembles) (fun _ => Layer.Resembles) around v'

abbrev View.ResembleAll (around : List Layer) (vs vs' : List View) : Prop :=
  View.CorrespondAll (fun _ => Unit.Resembles) (fun _ => Layer.Resembles) around vs vs'

def Chart.Resembles : Chart → Chart → Prop
  | .view v, .view v' => v.Resembles [] v'
  | .vconcat us others, .vconcat us' others' =>
    Dict.mapValues Fragment.bare others' = Dict.mapValues Fragment.bare others
      ∧ List.Forall₂ Unit.Resembles (us.getD []) (us'.getD [])
  | _, _ => False

mutual

theorem View.marked_of_resembles : ∀ {v v' : View} {around : List Layer} (path : String) (timed timed' : Bool),
    v.Resembles around v' → markedPaths (v.placed path timed) ⊆ markedPaths (v'.placed path timed')
  | .unit u, .unit u', _, path, timed, timed', h => by
    intro p hp
    simp only [markedPaths, placed, mem_map, mem_filter, mem_singleton] at hp ⊢
    obtain ⟨_, ⟨rfl, hmarked⟩, rfl⟩ := hp
    exact ⟨_, ⟨rfl, Unit.Resembles.marked h hmarked⟩, rfl⟩
  | .layer _ vs, .layer _ vs', _, path, _, _, h => marked_of_resembleAll path _ _ 0 h.2
  | .unit _, .layer _ _, _, _, _, _, h => h.elim
  | .layer _ _, .unit _, _, _, _, _, h => h.elim

theorem View.marked_of_resembleAll : ∀ {vs vs' : List View} {around : List Layer} (path : String)
    (timed timed' : Bool) (i : Nat), View.ResembleAll around vs vs' →
    markedPaths (placedAll path timed i vs) ⊆ markedPaths (placedAll path timed' i vs')
  | [], [], _, _, _, _, _, _ => fun _ hp => hp
  | v :: vs, v' :: vs', _, path, timed, timed', i, h => by
    rw [placedAll, placedAll, markedPaths_append, markedPaths_append]
    refine append_subset.mpr ⟨fun p hp => mem_append_left _ ?_, fun p hp => mem_append_right _ ?_⟩
    · exact marked_of_resembles _ timed timed' h.1 hp
    · exact marked_of_resembleAll path timed timed' (i + 1) h.2 hp
  | [], _ :: _, _, _, _, _, _, h => h.elim
  | _ :: _, [], _, _, _, _, _, h => h.elim

end

theorem Chart.Resembles.marked (h : c.Resembles c') : markedPaths c.placed ⊆ markedPaths c'.placed := by
  match c, c', h with
  | .view v, .view v', h => exact View.marked_of_resembles "" false false h
  | .vconcat us _, .vconcat us' _, ⟨_, h⟩ =>
    intro p hp
    simp only [markedPaths, placed, mem_map, mem_filter, mem_mapIdx] at hp ⊢
    obtain ⟨_, ⟨⟨i, hi, rfl⟩, hmarked⟩, rfl⟩ := hp
    have hi' : i < (us'.getD []).length := h.length_eq ▸ hi
    exact ⟨_, ⟨⟨i, hi', rfl⟩, (h.get hi hi').marked hmarked⟩, rfl⟩

/-! ## Further members -/

mutual

/-- The further members of the units and the layers of a view, in document order. -/
def View.further : View → List (Dict Fragment)
  | .unit u => [u.others]
  | .layer l children => l.others :: furtherOf children

def View.furtherOf : List View → List (Dict Fragment)
  | [] => []
  | v :: vs => v.further ++ furtherOf vs

end

/-- The further members of a chart and of its units and layers, in document order. -/
def Chart.further : Chart → List (Dict Fragment)
  | .view v => v.further
  | .vconcat us others => others :: (us.getD []).map (·.others)

section

variable {unit : List Layer → Unit → Unit → Prop} {layer : List Layer → Layer → Layer → Prop} {α : Type}
  (g : Dict Fragment → α)

mutual

theorem View.further_of_corresponds (hunit : ∀ {a u u'}, unit a u u' → g u'.others = g u.others)
    (hlayer : ∀ {a l l'}, layer a l l' → g l'.others = g l.others) : ∀ {v v' : View} {around : List Layer},
    v.Corresponds unit layer around v' → v'.further.map g = v.further.map g
  | .unit _, .unit _, _, h => congrArg (fun d => [d]) (hunit h)
  | .layer _ _, .layer _ _, _, h => congrArg₂ List.cons (hlayer h.1) (further_of_correspondAll hunit hlayer h.2)
  | .unit _, .layer _ _, _, h => h.elim
  | .layer _ _, .unit _, _, h => h.elim

theorem View.further_of_correspondAll (hunit : ∀ {a u u'}, unit a u u' → g u'.others = g u.others)
    (hlayer : ∀ {a l l'}, layer a l l' → g l'.others = g l.others) : ∀ {vs vs' : List View} {around : List Layer},
    View.CorrespondAll unit layer around vs vs' → (furtherOf vs').map g = (furtherOf vs).map g
  | [], [], _, _ => rfl
  | _ :: _, _ :: _, _, h => by
    rw [furtherOf, furtherOf, map_append, map_append, further_of_corresponds hunit hlayer h.1,
      further_of_correspondAll hunit hlayer h.2]
  | [], _ :: _, _, h => h.elim
  | _ :: _, [], _, h => h.elim

end

end

theorem Chart.Resembles.further (h : c.Resembles c') :
    c'.further.map (Dict.mapValues Fragment.bare) = c.further.map (Dict.mapValues Fragment.bare) := by
  match c, c', h with
  | .view v, .view v', h => exact View.further_of_corresponds _ Unit.Resembles.others id h
  | .vconcat us _, .vconcat us' _, ⟨hothers, h⟩ =>
    have hunits : ((us'.getD []).map (·.others)).map (Dict.mapValues Fragment.bare)
        = ((us.getD []).map (·.others)).map (Dict.mapValues Fragment.bare) := by
      rw [map_map, map_map, ← forall₂_eq_eq_eq, forall₂_map_left_iff, forall₂_map_right_iff]
      exact h.flip.imp fun _ _ hu => hu.others
    exact congrArg₂ List.cons hothers hunits

theorem Chart.further_elaborate (c : Chart) : c.elaborate.further = c.further := by
  cases c with
  | view v =>
    have hframed := v.framed_elaborate (P := fun _ => True) .root none [] fun _ _ => trivial
    have hfurther := View.further_of_corresponds id Unit.Framed.others Layer.Framed.others hframed
    rwa [map_id, map_id] at hfurther
  | vconcat us others =>
    cases us with
    | none => rfl
    | some us =>
      refine congrArg (others :: ·) (ext_getElem (by simp) fun i hi hi' => ?_)
      simp [Unit.others_elaborate]

/-! ## Static and bare charts -/

mutual

theorem View.resembles_static (names : List String) : ∀ (v : View) (time : Option TimeEncoding) (around : List Layer),
    v.Resembles around (v.static names time)
  | .unit _, _, _ => ⟨id, rfl⟩
  | .layer _ children, _, _ => ⟨rfl, resemble_staticAll names children _ _⟩

theorem View.resemble_staticAll (names : List String) : ∀ (vs : List View) (time : Option TimeEncoding)
    (around : List Layer), View.ResembleAll around vs (staticAll names time vs)
  | [], _, _ => trivial
  | v :: vs, time, around => ⟨resembles_static names v time around, resemble_staticAll names vs time around⟩

end

theorem Chart.resembles_static (c : Chart) : c.Resembles c.static := by
  cases c with
  | view v => exact View.resembles_static _ v none []
  | vconcat us others =>
    refine ⟨rfl, ?_⟩
    cases us with
    | none => exact .nil
    | some us => exact forall₂_map_right_iff.mpr (forall₂_same.mpr fun _ _ => ⟨id, rfl⟩)

theorem Unit.resembles_of_bare (h : u.bare = u'.bare) : u.Resembles u' where
  marked hmark := by
    have hbare (u : Unit) : u.bare.hasMark = u.hasMark := Option.isSome_map
    rw [← hbare u', ← h, hbare, hmark]
  others := congrArg Unit.others h.symm

mutual

theorem View.resembles_of_bare : ∀ {v v' : View} (around : List Layer), v.bare = v'.bare → v.Resembles around v'
  | .unit _, .unit _, _, h => Unit.resembles_of_bare (View.unit.inj h)
  | .layer _ _, .layer _ _, _, h =>
    ⟨congrArg Layer.others (View.layer.inj h).1.symm, resembleAll_of_bare _ (View.layer.inj h).2⟩
  | .unit _, .layer _ _, _, h => nomatch h
  | .layer _ _, .unit _, _, h => nomatch h

theorem View.resembleAll_of_bare : ∀ {vs vs' : List View} (around : List Layer), bareAll vs = bareAll vs' →
    View.ResembleAll around vs vs'
  | [], [], _, _ => trivial
  | _ :: _, _ :: _, around, h =>
    ⟨resembles_of_bare around (List.cons.inj h).1, resembleAll_of_bare around (List.cons.inj h).2⟩
  | [], _ :: _, _, h => nomatch h
  | _ :: _, [], _, h => nomatch h

end

theorem Chart.resembles_of_bare (h : c.bare = c'.bare) : c.Resembles c' := by
  match c, c', h with
  | .view v, .view v', h => exact View.resembles_of_bare [] (Chart.view.inj h)
  | .vconcat us _, .vconcat us' _, h =>
    obtain ⟨hunits, hothers⟩ := Chart.vconcat.inj h
    refine ⟨hothers.symm, ?_⟩
    match us, us', hunits with
    | none, none, _ => exact .nil
    | some us, some us', hunits =>
      have hbare : List.Forall₂ (· = ·) (us.map Unit.bare) (us'.map Unit.bare) := by
        rw [forall₂_eq_eq_eq]
        exact Option.some.inj hunits
      rw [forall₂_map_left_iff, forall₂_map_right_iff] at hbare
      exact hbare.imp fun _ _ => Unit.resembles_of_bare

/-! ## Written charts -/

theorem Unit.resembles_reread (h : u.Sound) (hread : read u.toFragment = .ok u') : u.Resembles u' := by
  rw [read, readEntry_eq_ok] at hread
  obtain ⟨v, others, hv, hothers, rfl⟩ := hread
  have hmerge := merges_written h
  rw [toFragment, Fragment.recordWith] at hv hothers
  refine ⟨fun hmark => ?_, ?_⟩
  · obtain ⟨f, hf⟩ := Option.isSome_iff_exists.mp hmark
    have hmem : ("mark", f) ∈ Fragment.written u.written u.others := hmerge.mem.mpr (.inl (by simp [written, hf]))
    have hfield := (schema.members_iff.mp hv).1 _ mem_cons_self
    exact isSome_of_members hfield (.inr ⟨_, mem_map_of_mem hmem, names_encoded.mpr rfl⟩)
  · rw [hmerge.othersOf (fun e he => h.others.foreign e he) (by simp [written, names])] at hothers
    cases hothers
    rfl

theorem Layer.children_reread (h : l.Sound) {cs' : List Fragment} (hread : children (l.fragment cs) = .ok cs') :
    cs' = cs := by
  have hlayer : ("layer", some (.list cs)) ∈ l.written cs := by simp [written]
  obtain ⟨old, hold⟩ := read_field_of_merged (merges_fragment h cs) hlayer
    (fun _ _ => lt_of_foldName (by simp [foldCase])) (childrenAmong_eq_ok.mp hread)
  exact (Reading.read.inj (hold.symm.trans (takes_childList cs [] old))).1

theorem Layer.resembles_reread {l' : Layer} (h : l.Sound) (hread : read (l.fragment cs) = .ok l') : l.Resembles l' := by
  rw [read, readEntry_eq_ok] at hread
  obtain ⟨r, others, -, hothers, rfl⟩ := hread
  rw [fragment, (merges_fragment h cs).othersOf (fun e he => h.others.foreign e he) (by simp [written, names])] at hothers
  cases hothers
  rfl

mutual

theorem View.resembles_reread : ∀ (v : View) (around : List Layer) (c : Chart), v.Sound →
    Chart.ofFragment v.toFragment = .ok c → ∃ v', c = .view v' ∧ v.Resembles around v'
  | .unit u, _, c, h, hread => by
    rw [toFragment, Chart.ofFragment_unit h] at hread
    obtain ⟨u', hu', rfl⟩ := map_eq_ok.mp hread
    exact ⟨_, rfl, Unit.resembles_reread h.1 hu'⟩
  | .layer l children, around, c, h, hread => by
    have hlayer : ("layer", some (.list (toFragments children))) ∈ l.written (toFragments children) := by
      simp [Layer.written]
    rw [toFragment_layer] at hread
    obtain ⟨ms, hms, hread⟩ := Chart.ofFragment_eq_ok.mp hread
    obtain rfl := Except.ok.inj ((membersOf_record _).symm.trans hms)
    rw [(Layer.merges_fragment h.1 _).has_eq_true hlayer] at hread
    rcases hread with ⟨-, l', cs, vs, hl', hcs, hvs, rfl⟩ | ⟨hlayer, -⟩ | ⟨hlayer, -⟩
    · obtain rfl := Layer.children_reread h.1 hcs
      exact ⟨_, rfl, Layer.resembles_reread h.1 hl',
        resemble_rereadAll children _ vs h.2 (Chart.readChildren_eq_ok.mp hvs)⟩
    · cases hlayer
    · cases hlayer

theorem View.resemble_rereadAll : ∀ (vs : List View) (around : List Layer) (vs' : List View), View.SoundAll vs →
    List.Forall₂ (fun c v => Chart.ofFragment c = .ok (.view v)) (toFragments vs) vs' → View.ResembleAll around vs vs'
  | [], _, _, _, .nil => trivial
  | v :: vs, around, _, h, .cons hv hvs => by
    obtain ⟨_, ⟨⟩, hresembles⟩ := resembles_reread v around _ h.1 hv
    exact ⟨hresembles, resemble_rereadAll vs around _ h.2 hvs⟩

end

theorem Chart.resembles_readConcat {us : Option (List Unit)} {others : Dict Fragment} (h : (vconcat us others).Sound)
    (hread : readConcat (vconcat us others).toFragment = .ok c) : (vconcat us others).Resembles c := by
  obtain ⟨hus, hothers, -⟩ := id h
  rw [readConcat_eq] at hread
  obtain ⟨os, hos, hothers'⟩ := bind_eq_ok.mp hread
  obtain ⟨others', hfurther, hunits⟩ := bind_eq_ok.mp hothers'
  have hmerge := merges_concat h
  have hrecord : (vconcat us others).toFragment = .record (written (concatWritten us) others) := rfl
  rw [hrecord] at hos hfurther
  rw [hmerge.othersOf (fun e he => hothers.foreign e he) (by simp [concatWritten])] at hfurther
  cases hfurther
  have hfield := (concatSchema.members_iff.mp (run_eq_ok.mp hos)).1 _ mem_cons_self
  obtain ⟨old, hold⟩ := read_field_of_merged hmerge mem_cons_self (fun _ _ => lt_of_foldName (by simp [foldCase])) hfield
  cases us with
  | none =>
    obtain rfl : none = os := (Reading.read.inj hold).1
    cases hunits
    exact ⟨rfl, .nil⟩
  | some us =>
    obtain ⟨ws, hws, heq⟩ := Reading.bind_eq_clean.mp hold
    obtain rfl : some ws = os := (Reading.read.inj heq).1
    obtain ⟨us', hus', hc⟩ := bind_eq_ok.mp hunits
    cases hc
    obtain ⟨rfl, -⟩ := checkUnits_eq_ok hus'
    have hitems := forall₂_of_items hws
    rw [forall₂_map_left_iff, forall₂_map_right_iff] at hitems
    have hmem := (forall₂_and_left us us').mpr ⟨fun _ => id, hitems⟩
    refine ⟨rfl, hmem.imp ?_⟩
    rintro u u' ⟨hu, old, hold⟩
    refine Unit.resembles_reread (hus us rfl u hu).1 ?_
    exact settled_eq_clean.mp ((optional_eq_clean (unit_toFragment_ne_null u)).mp hold)

theorem Chart.resembles_reread (h : c.Sound) (hread : ofFragment c.toFragment = .ok c') : c.Resembles c' := by
  cases c with
  | view v =>
    obtain ⟨v', rfl, hresembles⟩ := View.resembles_reread v [] c' h hread
    exact hresembles
  | vconcat us others =>
    rw [ofFragment_concat h] at hread
    exact resembles_readConcat h hread

theorem Chart.resembles_parse (h : c.Sound) (hparse : parse c.static.render = .ok c') :
    ∃ c'', c.static.Resembles c'' ∧ c''.Resembles c' := by
  have hsound := sound_static h
  obtain ⟨f, hf, hread⟩ := parse_eq_ok.mp hparse
  have hbare := bare_of_parseFirst_pretty (spelled_toFragment hsound) (parseFirst_of_parse hf)
  have hmap := ofFragment_bare c.static.toFragment
  rw [← hbare, ofFragment_bare, hread] at hmap
  obtain ⟨c'', hc'', heq⟩ := map_eq_ok.mp hmap.symm
  exact ⟨c'', resembles_reread hsound hc'', resembles_of_bare heq⟩

theorem Chart.marked_reread (h : c.Sound) (hparse : parse c.static.render = .ok c') :
    markedPaths c.placed ⊆ markedPaths c'.placed := by
  obtain ⟨c'', hstatic, hread⟩ := resembles_parse h hparse
  exact fun p hp => hread.marked (hstatic.marked (c.resembles_static.marked hp))

theorem Chart.further_reread (h : c.Sound) (hparse : parse c.static.render = .ok c') :
    c'.further.map (Dict.mapValues Fragment.bare) = c.further.map (Dict.mapValues Fragment.bare) := by
  obtain ⟨c'', hstatic, hread⟩ := resembles_parse h hparse
  exact hread.further.trans (hstatic.further.trans c.resembles_static.further)

end AnimatedChart.Spec

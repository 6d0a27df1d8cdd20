import AnimatedChart.Proofs.Spec.Time
import AnimatedChart.Spec.Selection

/-!
# Animation selections read back

A selection is read from how it is written as it was, except that empty lists of operands are gone and that a missing
trigger has become one without filters: `settle` says so at every level, and `Param.read_toFragment` is the result.
-/

open List AnimatedChart.Json.Fragment AnimatedChart.Json.Reader AnimatedChart.Json.Value AnimatedChart.Spec.FieldPredicate

namespace AnimatedChart.Spec

open Json Reader

variable {b : Bind} {e : Easing} {f : Fragment} (t : Trigger)

/-! ## Triggers -/

namespace Trigger

def settle : Trigger → Trigger
  | missing => list []
  | t => t

theorem filters_settle : t.settle.filters = t.filters := by cases t <;> rfl

def schema : Schema (String × Option Fragment) where
  fields := layout
  kept := fun _ => ()

def readFilters : Option Fragment → Except Error Trigger
  | none => .ok bare
  | some g =>
    match text.run g "" with
    | .ok s => .ok (single s)
    | .error _ => ((Reader.list "" .text).run g []).map list

theorem read_eq (f : Fragment) :
    read f = match text.run f "" with
      | .ok s => if s = "timer" then .ok word else .error (notTimer s)
      | .error _ => (do
        let r ← (record schema.readers).run f ("", none)
        if r.1 = "timer" then readFilters r.2 else throw (notTimer r.1)) := by
  unfold read
  cases text.run f "" with
  | ok s => rfl
  | error e =>
    show Except.bind ((record schema.readers).run f ("", none)) _ = Except.bind _ _
    refine congrArg _ (funext fun r => ?_)
    split
    · simp only [readFilters]
      cases r.2 with
      | none => rfl
      | some g =>
        dsimp only
        cases text.run g "" with
        | ok s => rfl
        | error e => cases (Reader.list "" .text).run g [] <;> rfl
    · rfl

theorem read_object {o : Option Fragment} :
    read (.recordOf [("filter", o), ("type", some (.text "timer"))]) = readFilters o := by
  have hrun : (record schema.readers).run (.recordOf [("filter", o), ("type", some (.text "timer"))])
      ("", none) = .ok ("timer", o) := by
    have hmerge : Merges [("filter", o), ("type", some (.text "timer"))] [] _ :=
      merges_written Dict.Sorted.nil (by decide : Distinct ["filter", "type"])
    refine run_eq_ok.mpr (schema.read_merged hmerge nofun nofun ?_ rfl)
    simp only [schema, layout, forall_mem_cons]
    refine ⟨⟨_, by simp, (takes_text "timer").restores _ _⟩, ⟨o, by simp, ?_⟩, by simp⟩
    cases o with
    | none => rfl
    | some g => exact (takes_fragment g).restores _ _
  have htext : text.run (.recordOf [("filter", o), ("type", some (.text "timer"))]) ""
      = .error (.outside .json) := by cases o <;> rfl
  rw [read_eq, htext, hrun]
  rfl

theorem read_toFragment : read t.toFragment = .ok t.settle := by
  have htext (s : String) : Reader.text.run (.text s) "" = .ok s := run_eq_ok.mpr (takes_text s "")
  have hlist (fs : List String) : read (.record [("filter", .list (fs.map .text)), ("type", .text "timer")])
      = .ok (list fs) := by
    have hrun : (Reader.list "" .text).run (.list (fs.map .text)) [] = .ok fs :=
      run_eq_ok.mpr (takes_list (fun s _ => takes_text s) [])
    refine (@read_object (some (.list (fs.map .text)))).trans ?_
    show ((Reader.list "" .text).run (.list (fs.map .text)) []).map list = _
    rw [hrun]
    rfl
  cases t with
  | missing => exact hlist []
  | word =>
    rw [toFragment, read_eq, htext]
    rfl
  | bare => exact @read_object none
  | single s =>
    refine (@read_object (some (.text s))).trans ?_
    rw [readFilters, htext]
    rfl
  | list fs => exact hlist fs

theorem spelled_toFragment : t.toFragment.Spelled := by
  have hlist (fs : List String) : (Fragment.list (fs.map .text)).Spelled :=
    spelled_closed.mapped fun s _ => spelled_text s
  have htimer := spelled_text "timer"
  cases t with
  | missing => exact spelled_record (by simpa using ⟨hlist [], htimer⟩)
  | word => exact htimer
  | bare => exact spelled_record (by simpa using htimer)
  | single s => exact spelled_record (by simpa using ⟨spelled_text s, htimer⟩)
  | list fs => exact spelled_record (by simpa using ⟨hlist fs, htimer⟩)

theorem read_bare (f : Fragment) : read f.bare = read f := by
  have hnatural : Natural (Prod.map id (Option.map Fragment.bare)) (record schema.readers) := by
    refine schema.natural ?_
    simp only [schema, layout, forall_mem_cons]
    exact ⟨.of natural_text, .of natural_fragment, by simp⟩
  have hfilters : ∀ o : Option Fragment, readFilters (o.map Fragment.bare) = readFilters o := by
    intro o
    cases o with
    | none => rfl
    | some g =>
      rw [Option.map_some, readFilters, readFilters, run_bare_id natural_text,
        run_bare_id (natural_list_id natural_text)]
  rw [read_eq, read_eq, run_bare_id natural_text, run_bare hnatural f rfl]
  cases (record schema.readers).run f ("", none) with
  | error e => rfl
  | ok r =>
    have hstep : (if r.1 = "timer" then readFilters (r.2.map Fragment.bare) else throw (notTimer r.1))
        = (if r.1 = "timer" then readFilters r.2 else throw (notTimer r.1)) := by rw [hfilters]
    cases text.run f "" with
    | ok s => rfl
    | error e => exact hstep

end Trigger
/-! ## Predicates -/

namespace FieldPredicate

variable {p : FieldPredicate}

def settle (p : FieldPredicate) : FieldPredicate :=
  { p with range := p.range.filter (!·.isEmpty), oneOf := p.oneOf.filter (!·.isEmpty) }

def schema : Schema FieldPredicate where
  fields := layout
  kept := fun _ => ()

structure Sound (p : FieldPredicate) : Prop where
  equal : p.equal.Plain
  lt : p.lt.Plain
  gt : p.gt.Plain
  lte : p.lte.Plain
  gte : p.gte.Plain
  range : ∀ vs ∈ p.range, ∀ v ∈ vs, v.Plain
  oneOf : ∀ vs ∈ p.oneOf, ∀ v ∈ vs, v.Plain

theorem restores_operand {v : Value} (h : v.Plain) : Restores .any .null (· = v) False (operand v) := by
  cases v with
  | null => rfl
  | _ => exact (takes_any h).restores _ _

theorem restores_listed {vs : Option (List Value)} (h : ∀ us ∈ vs, ∀ v ∈ us, v.Plain) :
    Restores (.list? .null .any) none (· = vs.filter (!·.isEmpty)) False (listed vs) := by
  match vs, h with
  | none, _ => rfl
  | some [], _ => rfl
  | some (v :: vs), h =>
    have htakes : Takes (list? .null .any) (.list ((v :: vs).map Value.toFragment)) (some (v :: vs)) :=
      takes_list? fun w hw => takes_any (h _ rfl w hw)
    rw [← toItems_eq_map] at htakes
    exact htakes.restores _ _

theorem reader_toFragment (h : p.Sound) : reader p.toFragment {} = .read p.settle true := by
  refine schema.read_recordOf ?_ rfl
  refine .cons ⟨rfl, (takes_text p.field).restores _ _⟩ (.cons ⟨rfl, restores_operand h.equal⟩
    (.cons ⟨rfl, restores_operand h.lt⟩ (.cons ⟨rfl, restores_operand h.gt⟩ (.cons ⟨rfl, restores_operand h.lte⟩
    (.cons ⟨rfl, restores_operand h.gte⟩ (.cons ⟨rfl, restores_listed h.range⟩ (.cons ⟨rfl, restores_listed h.oneOf⟩
    (.cons ⟨rfl, ?_⟩ .nil))))))))
  exact restores_map (by simp) fun b _ => takes_flag b

theorem spelled_toFragment (h : p.Sound) : p.toFragment.Spelled := by
  have hoperand : ∀ {v : Value}, v.Plain → ∀ f ∈ operand v, f.Spelled := by
    intro v hv f hf
    unfold operand at hf
    split at hf
    · exact Option.some.inj hf ▸ spelled_closed.value hv
    · cases hf
  have hlisted : ∀ {vs : Option (List Value)}, (∀ us ∈ vs, ∀ v ∈ us, v.Plain) → ∀ f ∈ listed vs, f.Spelled := by
    intro vs hvs f hf
    unfold listed at hf
    split at hf
    · exact Option.some.inj hf ▸ spelled_closed.valueList (hvs _ rfl)
    · cases hf
  refine spelled_closed.recordOf ?_
  simp only [forall_mem_cons]
  exact ⟨by simpa using spelled_text p.field, hoperand h.equal, hoperand h.lt, hoperand h.gt, hoperand h.lte,
    hoperand h.gte, hlisted h.range, hlisted h.oneOf, Option.forall_mem_map.mpr fun _ _ => trivial, by simp⟩

theorem keeps_reader : Keeps Sound reader := by
  have hlist : Keeps (fun o => ∀ vs ∈ o, ∀ v ∈ vs, Plain v) (list? .null .any) :=
    keeps_list? keeps_any trivial
  refine schema.keeps ?_
  simp only [schema, layout, forall_mem_cons]
  exact ⟨⟨_, keeps_true _, fun _ _ => trivial, fun _ _ ha _ => { ha with }⟩,
    ⟨_, keeps_any, fun _ ha => ha.equal, fun _ _ ha hb => { ha with equal := hb }⟩,
    ⟨_, keeps_any, fun _ ha => ha.lt, fun _ _ ha hb => { ha with lt := hb }⟩,
    ⟨_, keeps_any, fun _ ha => ha.gt, fun _ _ ha hb => { ha with gt := hb }⟩,
    ⟨_, keeps_any, fun _ ha => ha.lte, fun _ _ ha hb => { ha with lte := hb }⟩,
    ⟨_, keeps_any, fun _ ha => ha.gte, fun _ _ ha hb => { ha with gte := hb }⟩,
    ⟨_, hlist, fun _ ha => ha.range, fun _ _ ha hb => { ha with range := hb }⟩,
    ⟨_, hlist, fun _ ha => ha.oneOf, fun _ _ ha hb => { ha with oneOf := hb }⟩,
    ⟨_, keeps_true _, fun _ _ => trivial, fun _ _ ha _ => { ha with }⟩, by simp⟩

theorem sound_default : Sound {} where
  equal := trivial
  lt := trivial
  gt := trivial
  lte := trivial
  gte := trivial
  range := by simp
  oneOf := by simp

theorem natural_reader : Natural id reader := by
  refine schema.natural_id ?_
  simp only [schema, layout, forall_mem_cons]
  exact ⟨natural_text, natural_any, natural_any, natural_any, natural_any, natural_any, natural_list?_id natural_any,
    natural_list?_id natural_any, natural_optional_id natural_flag, by simp⟩

end FieldPredicate

namespace Predicate

variable {p : Predicate}

def settle : Predicate → Predicate
  | single p => single p.settle
  | all ps => all (ps.map FieldPredicate.settle)

def Sound (p : Predicate) : Prop := ∀ q ∈ p.fields, q.Sound

def conjunction : Reader (Slots FieldPredicate) := .record [("and", slots {} reader)]

theorem read_eq (f : Fragment) :
    read f = match conjunction.run f {} with
      | .ok { items := some ps, .. } => .ok (all ps)
      | _ => (reader.run f {}).map single := rfl

theorem read_toFragment (h : p.Sound) : read p.toFragment = .ok p.settle := by
  cases p with
  | single p =>
    have hand : conjunction.run p.toFragment {} = .ok {} := by
      refine run_eq_ok.mpr (record_unnamed _ (fun x hx => ?_) _)
      have hnames : ∀ n ∈ ["field", "equal", "lt", "gt", "lte", "gte", "range", "oneOf", "valid"],
          foldName "and" ≠ foldName n := by decide
      exact hnames x.1 (mem_map_of_mem (f := Prod.fst) hx)
    have hsingle : FieldPredicate.reader.run p.toFragment {} = .ok p.settle :=
      run_eq_ok.mpr (FieldPredicate.reader_toFragment (h p mem_cons_self))
    rw [toFragment, read_eq, hand]
    show (FieldPredicate.reader.run p.toFragment {}).map single = _
    rw [hsingle]
    rfl
  | all ps =>
    have hitems : ∀ p ∈ ps, FieldPredicate.reader p.toFragment {} = .read p.settle true :=
      fun p hp => FieldPredicate.reader_toFragment (h p hp)
    have hslots : ∃ s, slots {} FieldPredicate.reader (.list (ps.map FieldPredicate.toFragment)) {} = .read s true
        ∧ s.items = some (ps.map FieldPredicate.settle) := by
      cases ps with
      | nil => exact ⟨_, rfl, rfl⟩
      | cons p ps =>
        refine ⟨{ items := some ((p :: ps).map FieldPredicate.settle) }, ?_, rfl⟩
        exact Reading.bind_eq_clean.mpr ⟨_, items_over_nil hitems, rfl⟩
    obtain ⟨s, hs, hps⟩ := hslots
    have hand : conjunction.run (all ps).toFragment {} = .ok s := by
      refine run_eq_ok.mpr ?_
      exact (members_hit (names_encoded (m := ("and", .list (ps.map FieldPredicate.toFragment))) |>.mpr rfl) [] {}).trans
        (Reading.bind_eq_clean.mpr ⟨s, hs, rfl⟩)
    rw [read_eq, hand]
    obtain ⟨items, spare⟩ := s
    obtain rfl : items = _ := hps
    rfl

theorem toFragment_ne_null (p : Predicate) : p.toFragment ≠ .null := by
  cases p with
  | single p => simp [toFragment, FieldPredicate.toFragment, Fragment.recordOf, Fragment.recordWith, Fragment.record]
  | all ps => simp [toFragment, Fragment.record]

theorem spelled_toFragment (h : p.Sound) : p.toFragment.Spelled := by
  cases p with
  | single p => exact spelled_toFragment (h p mem_cons_self)
  | all ps =>
    have hlist : (Fragment.list (ps.map FieldPredicate.toFragment)).Spelled :=
      spelled_closed.mapped fun p hp => FieldPredicate.spelled_toFragment (h p hp)
    exact spelled_record (by simpa using hlist)

theorem sound_read (hf : f.Spelled) (h : read f = .ok p) : p.Sound := by
  have hkeeps : Keeps _ conjunction :=
    keeps_record (forall_mem_singleton.mpr
      (keeps_slots keeps_reader sound_default))
  rw [read_eq] at h
  split at h
  · next ps spare hand =>
    cases h
    intro q hq
    exact hkeeps f {} _ hf nofun (run_eq_ok.mp hand) q (mem_append_left _ hq)
  · obtain ⟨q, hq, rfl⟩ := map_eq_ok.mp h
    have hsound := keeps_reader f {} q hf sound_default (run_eq_ok.mp hq)
    exact fun q' hq' => mem_singleton.mp hq' ▸ hsound

theorem read_bare (f : Fragment) : read f.bare = read f := by
  have hand : Natural id conjunction :=
    natural_record (by simpa using natural_slots_id natural_reader)
  rw [read_eq, read_eq, run_bare_id hand, run_bare_id natural_reader]

end Predicate
/-! ## Easings, pauses and bindings -/

namespace Easing

def Sound : Easing → Prop
  | named _ => True
  | curve ps => ∀ x ∈ ps, Decimal.IsFinite x

theorem read_toFragment (h : e.Sound) : read e.toFragment = .ok e := by
  cases e with
  | named n =>
    have htext : text.run (.text n) "" = .ok n := run_eq_ok.mpr (takes_text n "")
    rw [toFragment, read, htext]
  | curve ps =>
    have hlist : (list 0 .number).run (.list (ps.map literal)) [] = .ok ps :=
      run_eq_ok.mpr (takes_list (fun x hx => takes_number (h x hx)) [])
    show ((list 0 .number).run (.list (ps.map literal)) []).map curve = _
    rw [hlist]
    rfl

theorem toFragment_ne_null (e : Easing) : e.toFragment ≠ .null := by
  cases e <;> simp [toFragment, Fragment.text, Fragment.list]

theorem spelled_toFragment (h : e.Sound) : e.toFragment.Spelled := by
  cases e with
  | named n => exact spelled_text n
  | curve ps => exact spelled_closed.mapped fun x hx => spelled_literal (h x hx)

theorem sound_read (hf : f.Spelled) (h : read f = .ok e) : e.Sound := by
  unfold read at h
  split at h
  · exact Except.ok.inj h ▸ trivial
  · obtain ⟨ps, hps, rfl⟩ := map_eq_ok.mp h
    have hkeeps : Keeps _ (list 0 .number) := keeps_list keeps_number ⟨rfl, rfl⟩
    exact hkeeps f [] ps hf (by simp) (run_eq_ok.mp hps)

theorem read_bare (f : Fragment) : read f.bare = read f := by
  rw [read, read, run_bare_id natural_text, run_bare_id (natural_list_id natural_number)]

end Easing

namespace Pause

variable {p : Pause}

def schema : Schema Pause where
  fields := layout
  kept := fun _ => ()

/-- The value is plain and the duration finite. -/
structure Sound (p : Pause) : Prop where
  value : p.value.Plain
  duration : Decimal.IsFinite p.duration

theorem takes_toFragment (h : p.Sound) : Takes reader p.toFragment p := fun a =>
  @Schema.read_recordOf _ [("value", some p.value.toFragment), ("duration", some (literal p.duration))] schema a p
    (.cons ⟨rfl, (takes_any h.value).restores _ _⟩ (.cons ⟨rfl, (takes_number h.duration).restores _ _⟩ .nil)) rfl

theorem spelled_toFragment (h : p.Sound) : p.toFragment.Spelled :=
  spelled_record (by simpa using ⟨spelled_closed.value h.value, spelled_literal h.duration⟩)

theorem sound_default : Sound {} where
  value := trivial
  duration := ⟨rfl, rfl⟩

theorem keeps_reader : Keeps Sound reader := by
  refine schema.keeps ?_
  simp only [schema, layout, forall_mem_cons]
  exact ⟨⟨_, keeps_any, fun _ ha => ha.value, fun _ _ ha hb => { ha with value := hb }⟩,
    ⟨_, keeps_number, fun _ ha => ha.duration, fun _ _ ha hb => { ha with duration := hb }⟩, by simp⟩

theorem natural_reader : Natural id reader := by
  refine schema.natural_id ?_
  simp only [schema, layout, forall_mem_cons]
  exact ⟨natural_any, natural_number, by simp⟩

theorem steady_reader : Steady reader := by
  refine schema.steady ?_
  simp only [schema, layout, forall_mem_cons]
  exact ⟨steady_any, steady_number, by simp⟩

end Pause

namespace Bind

def Sound : Bind → Prop
  | scales => True
  | input d => (object d).Plain

theorem read_toFragment (h : b.Sound) : read b.toFragment = .ok b := by
  cases b with
  | scales =>
    have htext : text.run (.text "scales") "" = .ok "scales" := run_eq_ok.mpr (takes_text "scales" "")
    rw [toFragment, read, htext]
    rfl
  | input d =>
    have hdict : (dict? .null .any).run (.record (toMembers d)) none = .ok (some d) := by
      refine run_eq_ok.mpr (Reading.bind_eq_clean.mpr ⟨d, ?_, rfl⟩)
      exact (entries_eq_clean h.2 []).trans (congrArg (Reading.read · true) (Dict.ofPairs_of_sorted h.1))
    show (do let d ← (dict? Value.null .any).run (.record (Value.toMembers d)) none; return input (d.getD [])) = _
    rw [hdict]
    rfl

theorem toFragment_ne_null (b : Bind) : b.toFragment ≠ .null := by
  cases b <;> simp [toFragment, Fragment.text, Fragment.record]

theorem spelled_toFragment (h : b.Sound) : b.toFragment.Spelled := by
  cases b with
  | scales => exact spelled_text "scales"
  | input d => exact spelled_closed.valueRecord (plainMembers_iff.mp h.2)

theorem entries_plain {ms : List (String × Fragment)} {d d' : Dict Value} (hd : (object d).Plain)
    (h : entries .null .any ms d = .read d' true) : (object d').Plain := by
  induction ms generalizing d with
  | nil => exact (Reading.read.inj h).1 ▸ hd
  | cons m ms ih =>
    obtain ⟨k, f⟩ := m
    obtain ⟨v, hv, hrest⟩ := Reading.bind_eq_clean.mp h
    obtain rfl := (Reading.read.inj hv).1
    refine ih ⟨hd.1.put _ _, plainMembers_iff.mpr fun m hm => ?_⟩ hrest
    rcases Dict.mem_of_mem_put hm with rfl | hm
    · exact plain_ofFragment f
    · exact plainMembers_iff.mp hd.2 m hm

theorem sound_read (h : read f = .ok b) : b.Sound := by
  have hnil : (Value.object []).Plain := ⟨Dict.Sorted.nil, trivial⟩
  unfold read at h
  split at h
  · split at h
    · exact Except.ok.inj h ▸ trivial
    · cases h
  · obtain ⟨o, ho, hb⟩ := bind_eq_ok.mp h
    cases hb
    have ho := run_eq_ok.mp ho
    cases f with
    | null =>
      cases ho
      exact hnil
    | object ms blanks =>
      obtain ⟨d, hd, ho⟩ := Reading.bind_eq_clean.mp ho
      cases ho
      exact entries_plain hnil hd
    | _ => cases ho

theorem read_bare (f : Fragment) : read f.bare = read f := by
  rw [read, read, run_bare_id natural_text, run_bare_id (natural_dict? natural_any)]

end Bind
end AnimatedChart.Spec

import AnimatedChart.Proofs.Spec.Selection

/-!
# Parameters read back

A parameter that was read from a document is sound, and a sound parameter is read from how it is written as it was, up
to `settle`.
-/

open List AnimatedChart.Json.Reader AnimatedChart.Json.Fragment

namespace AnimatedChart.Spec

open Json Reader

variable {f : Fragment} {p : Param} {α : Type}

/-- The further members of a record: a dictionary of spelled fragments, none of which has the name of a field. -/
structure OthersSound {α : Type} (s : Schema α) (names : List String) (others : Dict Fragment) : Prop where
  sorted : Dict.Sorted others
  spelled : ∀ e ∈ others, e.2.Spelled
  foreign : ∀ e ∈ others, e.1 ∉ names
  /-- One that is named like a field, up to case, can be read as that field. -/
  accepted : ∀ e ∈ others, ∀ x ∈ s.fields, foldName x.name = foldName e.1 → Accepts x.reader e.2

theorem OthersSound.of_read {s : Schema α} {names : List String} {others : Dict Fragment} {a a' : α} (hf : f.Spelled)
    (hsteady : ∀ x ∈ s.fields, Steady x.reader) (hread : record s.readers f a = .read a' true)
    (hothers : othersOf f names = .ok others) : OthersSound s names others where
  sorted := (othersOf_spelled hf hothers).1
  spelled := (othersOf_spelled hf hothers).2.1
  foreign := (othersOf_spelled hf hothers).2.2
  accepted := s.accepts_others hsteady hread hothers

theorem OthersSound.nil (s : Schema α) (names : List String) : OthersSound s names [] where
  sorted := Dict.Sorted.nil
  spelled := by simp
  foreign := by simp
  accepted := by simp

/-! ## Selecting parts -/

namespace Select

variable {s : Select}

def schema : Schema (Select × Slots Pause) where
  fields := layout
  kept := fun s => (s.1.pauses, s.1.others)
  ext := by
    rintro ⟨⟨⟩, _⟩ ⟨⟨⟩, _⟩ h hkept
    simp only [Prod.mk.injEq] at hkept
    simpa [hkept, and_assoc] using h

/-- Values are plain and numbers finite, and the further members are sound. -/
structure Sound (s : Select) : Prop where
  predicate : ∀ p ∈ s.predicate, p.Sound
  easing : ∀ e ∈ s.easing, e.Sound
  pauses : ∀ p ∈ s.pauses, p.Sound
  others : OthersSound schema names s.others

theorem sound_default : Sound {} := ⟨by simp, by simp, by simp, OthersSound.nil _ _⟩

def Clear (s : Select) : Prop := Unambiguous s.written s.others

instance (s : Select) : Decidable s.Clear := inferInstanceAs (Decidable (Unambiguous _ _))

def settle (s : Select) : Select :=
  { s with trigger := s.trigger.settle, predicate := s.predicate.map Predicate.settle }

theorem read_pauses (h : s.Sound) (hclear : s.Clear) :
    ∃ sl : Slots Pause, record [("pause", slots {} Pause.reader)] s.toFragment {} = .read sl true
      ∧ sl.toList = s.pauses := by
  have hnames : Distinct (s.written.map (·.1)) := schema.distinct
  have haccept := fun e he => h.others.accepted e he
    ⟨"pause", (·.2), fun b s => (s.1, b), .slots {} Pause.reader⟩ (by simp [schema])
  have ho : ("pause", if s.pauses.isEmpty then none else some (.list (s.pauses.map Pause.toFragment))) ∈ s.written := by
    simp [written]
  rw [toFragment, recordWith]
  refine record_merged (merges_written h.others.sorted hnames) hclear ho haccept ?_
  split
  · next hempty => exact (List.isEmpty_iff.mp hempty).symm
  · intro old _
    obtain ⟨sl, hread, hitems⟩ := slots_eq_clean (fun p hp => Pause.takes_toFragment (h.pauses p hp)) old
    refine ⟨sl, hread, ?_⟩
    show sl.items.getD [] = _
    rw [hitems]
    rfl

theorem read_toFragment (h : s.Sound) (hclear : s.Clear) : read s.toFragment = .ok s.settle := by
  have hnames : Distinct (s.written.map (·.1)) := schema.distinct
  obtain ⟨sl, hpause, hpauses⟩ := read_pauses h hclear
  have hread : record schema.readers s.toFragment ({}, {})
      = .read ({ type := s.type, trigger := s.trigger.settle, predicate := s.predicate.map Predicate.settle,
                 easing := s.easing }, sl) true := by
    refine schema.record_iff.mpr ⟨fun x hx => ?_, rfl⟩
    have hfield := fun {o b} (ho : (x.name, o) ∈ s.written) => @field_recordWith _ x.name x.reader s.written s.others o
      (x.get ({}, {})) b h.others.sorted hnames hclear ho fun e he => h.others.accepted e he x hx
    simp only [schema, layout, mem_cons, not_mem_nil, or_false] at hx
    rcases hx with rfl | rfl | rfl | rfl | rfl
    · exact hfield (by simp [written]) ((takes_text s.type).restores _ _)
    · exact hfield (by simp [written]) ((takes_settled (Trigger.read_toFragment s.trigger)).restores _ _)
    · refine hfield (by simp [written]; rfl) ?_
      cases hp : s.predicate with
      | none => rfl
      | some p =>
        exact (takes_optional p.toFragment_ne_null
          (takes_settled (Predicate.read_toFragment (h.predicate p hp)))).restores _ _
    · refine hfield (by simp [written]; rfl) ?_
      exact restores_map Easing.toFragment_ne_null fun e he => takes_settled (Easing.read_toFragment (h.easing e he))
    · exact hpause
  have hothers : othersOf s.toFragment names = .ok s.others :=
    othersOf_recordWith h.others.sorted h.others.foreign hnames (by simp [names, written])
  rw [read]
  refine readEntry_eq_ok.mpr ⟨_, _, hread, hothers, ?_⟩
  rw [hpauses]
  rfl

theorem spelled_toFragment (h : s.Sound) : s.toFragment.Spelled := by
  refine spelled_closed.recordWith ?_ h.others.spelled
  have hpauses : (Fragment.list (s.pauses.map Pause.toFragment)).Spelled :=
    spelled_closed.mapped fun p hp => Pause.spelled_toFragment (h.pauses p hp)
  simp only [written, forall_mem_cons]
  exact ⟨by simpa using spelled_text s.type, by simpa using s.trigger.spelled_toFragment,
    Option.forall_mem_map.mpr fun p hp => Predicate.spelled_toFragment (h.predicate p hp),
    Option.forall_mem_map.mpr fun e he => Easing.spelled_toFragment (h.easing e he), forall_unless hpauses, by simp⟩

theorem steady_fields : ∀ x ∈ schema.fields, Steady x.reader := by
  simp only [schema, layout, forall_mem_cons]
  exact ⟨steady_text, steady_settled _, steady_optional (steady_settled _), steady_optional (steady_settled _),
    steady_slots Pause.steady_reader, by simp⟩

theorem sound_read (hf : f.Spelled) (h : read f = .ok s) : s.Sound := by
  have hkeeps : Keeps (fun r : Select × Slots Pause => r.1.Sound ∧ ∀ p ∈ r.2.toList ++ r.2.spare, p.Sound)
      (record schema.readers) := by
    refine schema.keeps ?_
    simp only [schema, layout, forall_mem_cons]
    refine ⟨⟨_, keeps_true _, fun _ _ => trivial, fun _ _ ha _ => ⟨{ ha.1 with }, ha.2⟩⟩,
      ⟨_, keeps_true _, fun _ _ => trivial, fun _ _ ha _ => ⟨{ ha.1 with }, ha.2⟩⟩,
      ⟨_, keeps_optional (keeps_settled fun f p => Predicate.sound_read) ?_, fun _ ha => ha.1.predicate,
        fun _ _ ha hb => ⟨{ ha.1 with predicate := hb }, ha.2⟩⟩,
      ⟨_, keeps_optional (keeps_settled fun f e => Easing.sound_read) trivial, fun _ ha => ha.1.easing,
        fun _ _ ha hb => ⟨{ ha.1 with easing := hb }, ha.2⟩⟩,
      ⟨_, keeps_slots Pause.keeps_reader Pause.sound_default, fun _ ha => ha.2, fun _ _ ha hb => ⟨ha.1, hb⟩⟩, by simp⟩
    exact fun q hq => mem_singleton.mp hq ▸ FieldPredicate.sound_default
  rw [read, readEntry_eq_ok] at h
  obtain ⟨r, others, hr, hothers, rfl⟩ := h
  obtain ⟨hsound, hpauses⟩ := hkeeps f ({}, {}) r hf ⟨sound_default, by simp [Slots.toList]⟩ hr
  exact { hsound with
    pauses := fun p hp => hpauses p (mem_append_left _ hp)
    others := OthersSound.of_read hf steady_fields hr hothers }

def bare (s : Select) : Select := { s with others := Dict.mapValues Fragment.bare s.others }

theorem read_bare (f : Fragment) : read f.bare = (read f).map bare := by
  refine readEntry_bare (g := Prod.map bare id) (schema.natural ?_) (by rfl) (by intros; rfl) f
  simp only [schema, layout, forall_mem_cons]
  exact ⟨.of natural_text, .of (natural_settled_id Trigger.read_bare),
    .of (natural_optional_id (natural_settled_id Predicate.read_bare)),
    .of (natural_optional_id (natural_settled_id Easing.read_bare)), .of (natural_slots_id Pause.natural_reader), by simp⟩

end Select

/-! ## Selections -/

namespace Selection

variable {a : Selection}

def schema : Schema Selection where
  fields := layout
  kept := (·.others)

structure Sound (a : Selection) : Prop where
  select : a.select.Sound
  bind : ∀ b ∈ a.bind, b.Sound
  others : OthersSound schema names a.others

structure Clear (a : Selection) : Prop where
  select : a.select.Clear
  others : Unambiguous a.written a.others

instance (a : Selection) : Decidable a.Clear :=
  decidable_of_iff (a.select.Clear ∧ Unambiguous a.written a.others)
    ⟨fun h => ⟨h.1, h.2⟩, fun h => ⟨h.select, h.others⟩⟩

def settle (a : Selection) : Selection := { a with select := a.select.settle }

theorem read_toFragment (h : a.Sound) (hclear : a.Clear) : read a.toFragment = .ok a.settle := by
  rw [read]
  refine (schema.readEntry_written { a.settle with others := [] } h.others.sorted h.others.foreign hclear.others
    h.others.accepted (by simp [written, names]) ?_ (by rfl)).trans (by rfl)
  refine .cons ⟨rfl, (takes_text a.name).restores _ _⟩ (.cons ⟨rfl, ?_⟩ (.cons ⟨rfl, ?_⟩ .nil))
  · exact (takes_settled (Select.read_toFragment h.select hclear.select)).restores _ _
  · exact restores_map Bind.toFragment_ne_null fun b hb => takes_settled (Bind.read_toFragment (h.bind b hb))

theorem spelled_toFragment (h : a.Sound) : a.toFragment.Spelled := by
  refine spelled_closed.recordWith ?_ h.others.spelled
  simp only [written, forall_mem_cons]
  exact ⟨by simpa using spelled_text a.name, by simpa using Select.spelled_toFragment h.select,
    Option.forall_mem_map.mpr fun b hb => Bind.spelled_toFragment (h.bind b hb), by simp⟩

theorem steady_fields : ∀ x ∈ schema.fields, Steady x.reader := by
  simp only [schema, layout, forall_mem_cons]
  exact ⟨steady_text, steady_settled _, steady_optional (steady_settled _), by simp⟩

theorem sound_read (hf : f.Spelled) (h : read f = .ok a) : a.Sound := by
  have hkeeps : Keeps Sound (record schema.readers) := by
    refine schema.keeps ?_
    simp only [schema, layout, forall_mem_cons]
    exact ⟨⟨_, keeps_true _, fun _ _ => trivial, fun _ _ ha _ => { ha with }⟩,
      ⟨_, keeps_settled fun f s => Select.sound_read, fun _ ha => ha.select, fun _ _ ha hb => { ha with select := hb }⟩,
      ⟨_, keeps_optional (keeps_settled fun f b _ => Bind.sound_read) trivial, fun _ ha => ha.bind,
        fun _ _ ha hb => { ha with bind := hb }⟩, by simp⟩
  rw [read, readEntry_eq_ok] at h
  obtain ⟨b, others, hb, hothers, rfl⟩ := h
  have hsound := hkeeps f {} b hf ⟨Select.sound_default, by simp, OthersSound.nil _ _⟩ hb
  exact { hsound with others := OthersSound.of_read hf steady_fields hb hothers }

def bare (a : Selection) : Selection :=
  { a with select := a.select.bare, others := Dict.mapValues Fragment.bare a.others }

theorem read_bare (f : Fragment) : read f.bare = (read f).map bare := by
  refine readEntry_bare (g := bare) (schema.natural ?_) (by rfl) (by intros; rfl) f
  simp only [schema, layout, forall_mem_cons]
  exact ⟨.of natural_text, .of (natural_settled Select.read_bare),
    .of (natural_optional_id (natural_settled_id Bind.read_bare)), by simp⟩

end Selection

/-! ## Parameters -/

namespace Param

variable {a : Selection}

def schema : Schema (String × Option Fragment) where
  fields := layout
  kept := fun _ => ()

def isDriven (sel : Fragment) : Bool :=
  match (record schema.readers).run sel ("", none) with
  | .ok (type, some on) => type == "point" && isTimer on
  | _ => false

theorem isAnimation_eq (f : Fragment) :
    isAnimation f = match (record [("select", fragment)]).run f none with
      | .ok (some sel) => isDriven sel
      | _ => false := rfl

theorem isTimer_toFragment (t : Trigger) : isTimer t.toFragment = true := by
  have htype {o : Option Fragment} : isTimer (.recordOf [("filter", o), ("type", some (.text "timer"))]) = true := by
    have hrun : (record [("type", text)]).run
        (.recordOf [("filter", o), ("type", some (.text "timer"))]) "" = .ok "timer" := by
      refine run_eq_ok.mpr (field_recordWith Dict.Sorted.nil (by decide : Distinct ["filter", "type"])
        nofun (by simp : ("type", some _) ∈ [("filter", o), ("type", some (.text "timer"))])
        nofun ((takes_text "timer").restores _ _))
    have htext : text.run (.recordOf [("filter", o), ("type", some (.text "timer"))]) ""
        = .error (.outside .json) := by cases o <;> rfl
    rw [isTimer, htext]
    simp only [hrun]
    rfl
  cases t with
  | missing => exact @htype (some _)
  | word =>
    have htext : text.run (.text "timer") "" = .ok "timer" := run_eq_ok.mpr (takes_text "timer" "")
    rw [Trigger.toFragment, isTimer, htext]
    rfl
  | bare => exact @htype none
  | single s => exact @htype (some _)
  | list fs => exact @htype (some _)

theorem isAnimation_toFragment (h : a.Sound) (hclear : a.Clear) (hpoint : a.select.type = "point") :
    isAnimation a.toFragment = true := by
  have hselect : (record [("select", fragment)]).run a.toFragment none
      = .ok (some a.select.toFragment) := by
    have hnames : Distinct (a.written.map (·.1)) := Selection.schema.distinct
    have ho : ("select", some a.select.toFragment) ∈ a.written := by simp [Selection.written]
    exact run_eq_ok.mpr (field_recordWith h.others.sorted hnames hclear.others ho (fun e _ _ _ => ⟨some e.2, rfl⟩)
      ((takes_fragment _).restores _ _))
  have hdriven : (record schema.readers).run a.select.toFragment ("", none)
      = .ok ("point", some a.select.trigger.toFragment) := by
    have hnames : Distinct (a.select.written.map (·.1)) := Select.schema.distinct
    have hothers := h.select.others
    refine run_eq_ok.mpr (schema.record_iff.mpr ⟨?_, rfl⟩)
    simp only [schema, layout, forall_mem_cons]
    refine ⟨field_recordWith hothers.sorted hnames hclear.select
        (by simp [Select.written] : ("type", some (.text a.select.type)) ∈ a.select.written)
        (fun e he hname => hothers.accepted e he _ mem_cons_self hname) ?_,
      field_recordWith hothers.sorted hnames hclear.select
        (by simp [Select.written] : ("on", some a.select.trigger.toFragment) ∈ a.select.written)
        (fun e _ _ _ => ⟨some e.2, rfl⟩) ((takes_fragment _).restores _ _), by simp⟩
    exact (hpoint ▸ takes_text a.select.type : Takes text (.text a.select.type) "point").restores _ _
  rw [isAnimation_eq, hselect]
  show isDriven a.select.toFragment = true
  rw [isDriven, hdriven]
  exact isTimer_toFragment a.select.trigger

theorem type_of_isDriven {sel : Fragment} {s : Select} (hdriven : isDriven sel = true) (h : Select.read sel = .ok s) :
    s.type = "point" := by
  unfold isDriven at hdriven
  split at hdriven
  · next type on hrun =>
    rw [Select.read, readEntry_eq_ok] at h
    obtain ⟨r, others, hr, -, rfl⟩ := h
    have hrun := run_eq_ok.mp hrun
    -- Both readings take the type from the same members.
    cases sel with
    | object ms blanks =>
      have htype := (schema.members_iff.mp hrun).1 _ mem_cons_self
      have htype' := (Select.schema.members_iff.mp hr).1 _ mem_cons_self
      have heq : type = r.1.type := (Reading.read.inj (htype.symm.trans htype')).1
      exact heq ▸ eq_of_beq (Bool.and_eq_true_iff.mp hdriven).1
    | null => cases hrun
    | _ => cases hrun
  · cases hdriven

theorem type_of_isAnimation (hanim : isAnimation f = true) (h : Selection.read f = .ok a) :
    a.select.type = "point" := by
  rw [isAnimation_eq] at hanim
  split at hanim
  · next sel hsel =>
    rw [Selection.read, readEntry_eq_ok] at h
    obtain ⟨b, others, hb, -, rfl⟩ := h
    have hsel := run_eq_ok.mp hsel
    refine type_of_isDriven hanim ?_
    cases f with
    | object ms blanks =>
      have hselect := (Selection.schema.members_iff.mp hb).1 _ (mem_cons_of_mem _ mem_cons_self)
      exact settled_of_members hselect hsel fun _ ho => nomatch ho
    | null => cases hsel
    | _ => cases hsel
  · cases hanim

/-- A point selection of the timer that is sound, or something else that is spelled. -/
def Sound : Param → Prop
  | animation a => a.Sound ∧ a.select.type = "point"
  | plain raw => raw.Spelled ∧ isAnimation raw = false

def Clear : Param → Prop
  | animation a => a.Clear
  | plain _ => True

instance : (p : Param) → Decidable p.Clear
  | animation a => inferInstanceAs (Decidable a.Clear)
  | plain _ => isTrue trivial

def settle : Param → Param
  | animation a => animation a.settle
  | p => p

theorem read_toFragment (h : p.Sound) (hclear : p.Clear) : read p.toFragment = .ok p.settle := by
  cases p with
  | animation a =>
    rw [toFragment, read, if_pos (isAnimation_toFragment h.1 hclear h.2), Selection.read_toFragment h.1 hclear]
    rfl
  | plain raw =>
    rw [toFragment, read, if_neg (by rw [h.2]; exact Bool.noConfusion)]
    rfl

theorem spelled_toFragment (h : p.Sound) : p.toFragment.Spelled := by
  cases p with
  | animation a => exact Selection.spelled_toFragment h.1
  | plain raw => exact h.1

theorem sound_read (hf : f.Spelled) (h : read f = .ok p) : p.Sound := by
  unfold read at h
  split at h
  · next hanim =>
    obtain ⟨a, ha, rfl⟩ := map_eq_ok.mp h
    exact ⟨Selection.sound_read hf ha, type_of_isAnimation hanim ha⟩
  · next hanim =>
    cases h
    exact ⟨hf, Bool.eq_false_iff.mpr hanim⟩

def bare : Param → Param
  | animation a => animation a.bare
  | plain raw => plain raw.bare

theorem isTimer_bare (f : Fragment) : isTimer f.bare = isTimer f := by
  have htype : Natural id (record [("type", text)]) :=
    natural_record (forall_mem_singleton.mpr natural_text)
  rw [isTimer, isTimer, run_bare_id natural_text, run_bare_id htype]

theorem isDriven_bare (f : Fragment) : isDriven f.bare = isDriven f := by
  have hnatural : Natural (Prod.map id (Option.map Fragment.bare)) (record schema.readers) := by
    refine schema.natural ?_
    simp only [schema, layout, forall_mem_cons]
    exact ⟨.of natural_text, .of natural_fragment, by simp⟩
  rw [isDriven, isDriven, run_bare hnatural f rfl]
  rcases (record schema.readers).run f ("", none) with e | ⟨type, _ | on⟩
  · rfl
  · rfl
  · show (type == "point" && isTimer on.bare) = _
    rw [isTimer_bare]

theorem isAnimation_bare (f : Fragment) : isAnimation f.bare = isAnimation f := by
  have hnatural : Natural (Option.map Fragment.bare) (record [("select", fragment)]) :=
    natural_record (forall_mem_singleton.mpr natural_fragment)
  rw [isAnimation_eq, isAnimation_eq, run_bare hnatural f rfl]
  rcases (record [("select", fragment)]).run f none with e | _ | sel
  · rfl
  · rfl
  · exact isDriven_bare sel

theorem read_bare (f : Fragment) : read f.bare = (read f).map bare := by
  rw [read, read, isAnimation_bare, Selection.read_bare]
  split
  · cases Selection.read f <;> rfl
  · rfl

end Param
end AnimatedChart.Spec

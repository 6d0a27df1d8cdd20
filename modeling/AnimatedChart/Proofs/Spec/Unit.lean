import AnimatedChart.Proofs.Spec.Param
import AnimatedChart.Spec.Basic

/-!
# Encodings and units read back

A sound encoding is read from how it is written as it was, and so is a sound unit, up to `settle`.
-/

open List AnimatedChart.Json.Fragment AnimatedChart.Dict AnimatedChart.Spec.Encoding

namespace AnimatedChart.Spec

open Json Reader

variable {e : Encoding} {f : Fragment} {ps : List Param} {u : Unit}

/-! ## Encodings -/

namespace Encoding

/-- Channels are a dictionary of spelled fragments without time, and the time encoding is sound. -/
structure Sound (e : Encoding) : Prop where
  sorted : Sorted e.channels
  spelled : ∀ c ∈ e.channels, c.2.Spelled
  timeless : ∀ c ∈ e.channels, c.1 ≠ "time"
  time : ∀ t ∈ e.time, t.Sound

def readTime : Option Fragment → Except Error (Option TimeEncoding)
  | none => .ok none
  | some .null => .ok none
  | some raw => (TimeEncoding.read raw).map some

theorem read_eq (f : Fragment) :
    read f = (do
      let ms ← membersOf f
      let time ← readTime (get? ms "time")
      return { channels := remove ms "time", time }) := by
  unfold read
  cases membersOf f with
  | error e => rfl
  | ok ms =>
    show (match get? ms "time" with | none => _ | some .null => _ | some raw => _ : Except Error Encoding)
      = (do let time ← readTime (get? ms "time"); _)
    cases get? ms "time" with
    | none => rfl
    | some raw => cases raw <;> rfl

theorem readTime_some {raw : Fragment} (h : raw ≠ .null) : readTime (some raw) = (TimeEncoding.read raw).map some := by
  cases raw with
  | null => exact absurd rfl h
  | _ => rfl

theorem remove_of_timeless {d : Dict Fragment} (h : ∀ c ∈ d, c.1 ≠ "time") : remove d "time" = d :=
  filter_eq_self.mpr fun c hc => by simpa using h c hc

theorem read_toFragment (h : e.Sound) : read e.toFragment = .ok e := by
  obtain ⟨channels, time⟩ := e
  cases time with
  | none =>
    have hmembers : membersOf (Encoding.mk channels none).toFragment = .ok channels :=
      membersOf_record_of_sorted h.sorted
    have htime : get? channels "time" = none := by
      rw [get?_eq_none]
      intro hmem
      obtain ⟨c, hc, hname⟩ := mem_map.mp hmem
      exact h.timeless c hc hname
    rw [read_eq, hmembers]
    show (do let time ← readTime (get? channels "time"); _ : Except Error Encoding) = _
    rw [htime]
    show Except.ok _ = _
    rw [remove_of_timeless h.timeless]
  | some t =>
    have hsorted := h.sorted.put "time" t.toFragment
    have hmembers : membersOf (Encoding.mk channels (some t)).toFragment
        = .ok (put "time" t.toFragment channels) :=
      membersOf_record_of_sorted hsorted
    have htime : get? (put "time" t.toFragment channels) "time" = some t.toFragment :=
      (get?_eq_some hsorted).mpr (mem_put_self _ _ _)
    have hremove : remove (put "time" t.toFragment channels) "time" = channels := by
      refine (hsorted.filter _).ext h.sorted fun c => ?_
      simp only [mem_filter, bne_iff_ne]
      constructor
      · exact fun ⟨hc, hne⟩ => (mem_put_of_ne hne).mp hc
      · exact fun hc => ⟨(mem_put_of_ne (h.timeless c hc)).mpr hc, h.timeless c hc⟩
    rw [read_eq, hmembers]
    show (do let time ← readTime (get? (put "time" t.toFragment channels) "time"); _
      : Except Error Encoding) = _
    rw [htime, readTime_some t.toFragment_ne_null, TimeEncoding.read_toFragment (h.time t rfl)]
    show Except.ok _ = _
    rw [hremove]

theorem toFragment_ne_null (e : Encoding) : e.toFragment ≠ .null := by simp [toFragment, Fragment.record]

theorem spelled_toFragment (h : e.Sound) : e.toFragment.Spelled := by
  obtain ⟨channels, time⟩ := e
  refine spelled_record fun c hc => ?_
  cases time with
  | none => exact h.spelled c hc
  | some t =>
    rcases mem_of_mem_put hc with rfl | hc
    · exact TimeEncoding.spelled_toFragment (h.time t rfl)
    · exact h.spelled c hc

theorem sound_read (hf : f.Spelled) (h : read f = .ok e) : e.Sound := by
  rw [read_eq] at h
  obtain ⟨ms, hms, h⟩ := bind_eq_ok.mp h
  obtain ⟨time, htime, he⟩ := bind_eq_ok.mp h
  cases he
  obtain ⟨hsorted, hspelled⟩ := membersOf_spelled hf hms
  refine ⟨hsorted.filter _, fun c hc => hspelled c (mem_filter.mp hc).1,
    fun c hc => by simpa using (mem_filter.mp hc).2, fun t ht => ?_⟩
  obtain rfl : time = some t := ht
  cases hraw : get? ms "time" with
  | none => rw [hraw] at htime; cases htime
  | some raw =>
    have hmem := (get?_eq_some hsorted).mp hraw
    by_cases hnull : raw = .null
    · rw [hraw, hnull] at htime
      cases htime
    · rw [hraw, readTime_some hnull] at htime
      obtain ⟨t', ht', heq⟩ := map_eq_ok.mp htime
      exact Option.some.inj heq ▸ TimeEncoding.sound_read (hspelled _ hmem) ht'

def bare (e : Encoding) : Encoding := { e with channels := mapValues Fragment.bare e.channels }

theorem readTime_bare (o : Option Fragment) : readTime (o.map Fragment.bare) = readTime o := by
  cases o with
  | none => rfl
  | some raw =>
    by_cases hnull : raw = .null
    · rw [hnull]
      rfl
    · have hbare : raw.bare ≠ .null := by
        cases raw with
        | null => exact absurd rfl hnull
        | _ => exact fun h => nomatch h
      rw [Option.map_some, readTime_some hnull, readTime_some hbare, TimeEncoding.read_bare]

theorem read_bare (f : Fragment) : read f.bare = (read f).map bare := by
  rw [read_eq, read_eq, membersOf_bare]
  cases membersOf f with
  | error e => rfl
  | ok ms =>
    show (do
      let time ← readTime (get? (mapValues Fragment.bare ms) "time")
      return { channels := remove (mapValues Fragment.bare ms) "time", time } : Except Error Encoding) = _
    have hremove : remove (mapValues Fragment.bare ms) "time"
        = mapValues Fragment.bare (remove ms "time") :=
      filter_mapValues Fragment.bare ms fun k => k != "time"
    rw [get?_mapValues, readTime_bare, hremove]
    cases htime : readTime (get? ms "time") with
    | error _ | ok _ =>
      show _ = Except.map bare (do let time ← readTime (get? ms "time"); _)
      rw [htime]
      rfl

end Encoding
/-! ## Lists of parameters and transforms -/

def Transform.bare (t : Transform) : Transform := ⟨t.raw.bare⟩

theorem takes_params (h : ∀ p ∈ ps, p.Sound) (hclear : ∀ p ∈ ps, p.Clear) :
    Takes (.list default (.settled Param.read)) (.list (ps.map Param.toFragment)) (ps.map Param.settle) :=
  takes_list_map fun p hp => takes_settled (Param.read_toFragment (h p hp) (hclear p hp))

theorem takes_transforms (ts : List Transform) :
    Takes (.list default (.settled fun f => .ok ⟨f⟩)) (.list (ts.map Transform.raw)) ts :=
  takes_list fun _ _ => takes_settled rfl

theorem spelled_params (h : ∀ p ∈ ps, p.Sound) :
    ∀ f ∈ (if ps.isEmpty then none else some (Fragment.list (ps.map Param.toFragment))), f.Spelled :=
  forall_unless (spelled_closed.mapped fun p hp => Param.spelled_toFragment (h p hp))

theorem spelled_transforms {ts : List Transform} (h : ∀ t ∈ ts, t.raw.Spelled) :
    ∀ f ∈ (if ts.isEmpty then none else some (Fragment.list (ts.map Transform.raw))), f.Spelled :=
  forall_unless (spelled_closed.mapped h)

theorem spelled_encoding {o : Option Encoding} (h : ∀ e ∈ o, e.Sound) : ∀ f ∈ o.map toFragment, f.Spelled :=
  Option.forall_mem_map.mpr fun e he => spelled_toFragment (h e he)

theorem restores_params (h : ∀ p ∈ ps, p.Sound) (hclear : ∀ p ∈ ps, p.Clear) (again : Prop) :
    Restores (.list default (.settled Param.read)) [] (· = ps.map Param.settle) again
      (if ps.isEmpty then none else some (.list (ps.map Param.toFragment))) :=
  restores_unless (fun hempty => by rw [List.isEmpty_iff.mp hempty]; rfl) fun _ => takes_params h hclear

theorem restores_transforms (ts : List Transform) (again : Prop) :
    Restores (.list default (.settled fun f => .ok ⟨f⟩)) [] (· = ts) again
      (if ts.isEmpty then none else some (.list (ts.map Transform.raw))) :=
  restores_unless (fun hempty => (List.isEmpty_iff.mp hempty).symm) fun _ => takes_transforms ts

theorem restores_encoding {o : Option Encoding} (h : ∀ e ∈ o, e.Sound) (again : Prop) :
    Restores (.optional {} (.settled read)) none (· = o) again (o.map toFragment) :=
  restores_map toFragment_ne_null fun e he => takes_settled (read_toFragment (h e he))

theorem sound_encoding : Sound {} where
  sorted := Sorted.nil
  spelled := by simp
  timeless := by simp
  time := by simp

theorem keeps_encoding : Keeps (fun o => ∀ e ∈ o, Sound e) (.optional {} (.settled read)) :=
  keeps_optional (keeps_settled fun _ _ => sound_read) sound_encoding

theorem keeps_params : Keeps (fun ps => ∀ p ∈ ps, Param.Sound p) (.list default (.settled Param.read)) :=
  keeps_list_settled fun _ _ => Param.sound_read

theorem keeps_transforms :
    Keeps (fun ts => ∀ t ∈ ts, t.raw.Spelled) (.list default (.settled fun f => .ok (Transform.mk f))) :=
  keeps_list_settled fun _ _ hf h => Except.ok.inj h ▸ hf

theorem natural_encoding : Natural (Option.map Encoding.bare) (.optional {} (.settled Encoding.read)) :=
  natural_optional (natural_settled read_bare) rfl

theorem natural_params : Natural (List.map Param.bare) (.list default (.settled Param.read)) :=
  natural_list (natural_settled Param.read_bare) rfl

theorem natural_transforms : Natural (List.map Transform.bare) (.list default (.settled fun f => .ok ⟨f⟩)) :=
  natural_list (natural_settled fun _ => rfl) rfl

/-! ## Units -/

namespace Unit

def schema : Schema Unit where
  fields := layout
  kept := (·.others)

structure Sound (u : Unit) : Prop where
  mark : ∀ f ∈ u.mark, f.Spelled
  encoding : ∀ e ∈ u.encoding, e.Sound
  params : ∀ p ∈ u.params, p.Sound
  transforms : ∀ t ∈ u.transforms, t.raw.Spelled
  enter : ∀ e ∈ u.enter, e.Sound
  exit : ∀ e ∈ u.exit, e.Sound
  others : OthersSound schema names u.others

theorem merges_written (h : u.Sound) : Fragment.Merges u.written u.others (Fragment.written u.written u.others) :=
  Fragment.merges_written h.others.sorted schema.distinct

theorem membersOf_toFragment (u : Unit) :
    membersOf u.toFragment = .ok (ofPairs (Fragment.written u.written u.others)) :=
  membersOf_recordWith _ _

theorem sound_default : Sound {} := ⟨by simp, by simp, by simp, by simp, by simp, by simp, OthersSound.nil _ _⟩

structure Clear (u : Unit) : Prop where
  params : ∀ p ∈ u.params, p.Clear
  others : Unambiguous u.written u.others

instance (u : Unit) : Decidable u.Clear :=
  decidable_of_iff ((∀ p ∈ u.params, p.Clear) ∧ Unambiguous u.written u.others)
    ⟨fun h => ⟨h.1, h.2⟩, fun h => ⟨h.params, h.others⟩⟩

def settle (u : Unit) : Unit := { u with params := u.params.map Param.settle }

theorem read_toFragment (h : u.Sound) (hclear : u.Clear) : read u.toFragment = .ok u.settle := by
  rw [read]
  refine (schema.readEntry_written { u.settle with others := [] } h.others.sorted h.others.foreign hclear.others
    h.others.accepted (by simp [written, names]) ?_ (by rfl)).trans (by rfl)
  exact .cons ⟨rfl, restores_fragment u.mark _⟩ (.cons ⟨rfl, restores_encoding h.encoding _⟩
    (.cons ⟨rfl, restores_params h.params hclear.params _⟩ (.cons ⟨rfl, restores_transforms u.transforms _⟩
    (.cons ⟨rfl, restores_encoding h.enter _⟩ (.cons ⟨rfl, restores_encoding h.exit _⟩ .nil)))))

theorem spelled_toFragment (h : u.Sound) : u.toFragment.Spelled := by
  refine spelled_closed.recordWith ?_ h.others.spelled
  simp only [written, forall_mem_cons]
  exact ⟨h.mark, spelled_encoding h.encoding, spelled_params h.params, spelled_transforms h.transforms,
    spelled_encoding h.enter, spelled_encoding h.exit, by simp⟩

theorem steady_fields : ∀ x ∈ schema.fields, Steady x.reader := by
  simp only [schema, layout, forall_mem_cons]
  exact ⟨steady_fragment, steady_optional (steady_settled _), steady_list (steady_settled _),
    steady_list (steady_settled _), steady_optional (steady_settled _), steady_optional (steady_settled _), by simp⟩

theorem sound_read (hf : f.Spelled) (h : read f = .ok u) : u.Sound := by
  have hkeeps : Keeps Sound (Reader.record schema.readers) := by
    refine schema.keeps ?_
    simp only [schema, layout, forall_mem_cons]
    exact ⟨⟨_, keeps_fragment, fun _ ha => ha.mark, fun _ _ ha hb => { ha with mark := hb }⟩,
      ⟨_, keeps_encoding, fun _ ha => ha.encoding, fun _ _ ha hb => { ha with encoding := hb }⟩,
      ⟨_, keeps_params, fun _ ha => ha.params, fun _ _ ha hb => { ha with params := hb }⟩,
      ⟨_, keeps_transforms, fun _ ha => ha.transforms, fun _ _ ha hb => { ha with transforms := hb }⟩,
      ⟨_, keeps_encoding, fun _ ha => ha.enter, fun _ _ ha hb => { ha with enter := hb }⟩,
      ⟨_, keeps_encoding, fun _ ha => ha.exit, fun _ _ ha hb => { ha with exit := hb }⟩, by simp⟩
  rw [read, readEntry_eq_ok] at h
  obtain ⟨v, others, hv, hothers, rfl⟩ := h
  exact { hkeeps f {} v hf sound_default hv with others := OthersSound.of_read hf steady_fields hv hothers }

def bare (u : Unit) : Unit where
  mark := u.mark.map Fragment.bare
  encoding := u.encoding.map Encoding.bare
  params := u.params.map Param.bare
  transforms := u.transforms.map Transform.bare
  enter := u.enter.map Encoding.bare
  exit := u.exit.map Encoding.bare
  others := mapValues Fragment.bare u.others

theorem read_bare (f : Fragment) : read f.bare = (read f).map bare := by
  refine readEntry_bare (g := bare) (schema.natural ?_) (by rfl) (by intros; rfl) f
  simp only [schema, layout, forall_mem_cons]
  exact ⟨.of natural_fragment, .of natural_encoding, .of natural_params, .of natural_transforms, .of natural_encoding,
    .of natural_encoding, by simp⟩

end Unit
end AnimatedChart.Spec

import AnimatedChart.Proofs.Animation.Tween
import AnimatedChart.Proofs.Graph.Outline
import AnimatedChart.Proofs.Lowering.Draft
import AnimatedChart.Proofs.Lowering.Plots
import AnimatedChart.Proofs.Spec.Chart

/-!
# Drawn marks

A marked unit is drawn as one mark, named after the path of the unit (`Depicts`). The mark draws a numbered dataset, its
channels have static references, and it is read back as it was when the graph is written and read (`yields_drawMark`).
-/

open List

namespace AnimatedChart.Lowering

open Json Reader Spec Animation

variable {c : Channel} {d update : Dict Value} {name type : String} {ps : List (String × Value)} {v : Value}

/-! ## Channel values -/

def namedScale? (v : Value) : Option String := (v.members?.bind (Dict.get? · "scale")).bind Value.text?

/-- A channel value that is read back as it was. -/
structure Traced (v : Value) : Prop where
  plain : v.Plain
  rule : ∃ ms, v = .object ms
  scale : ∀ n, namedScale? v = some n → Unclaimed n
  refs : ∀ r, FieldRef.ofValue? v = some r → StaticRef r

theorem traced_ofPairs (h : ∀ p ∈ ps, p.2.Plain) (hscale : ∀ n, ("scale", Value.string n) ∈ ps → Unclaimed n)
    (hkeys : "field" ∉ ps.map (·.1) ∨ "band" ∉ ps.map (·.1)) : Traced (.ofPairs ps) := by
  have hnamed (n : String) (hn : (Dict.get? (Dict.ofPairs ps) "scale").bind Value.text? = some n) : Unclaimed n := by
    obtain ⟨v, hv, hn⟩ := Option.bind_eq_some_iff.mp hn
    have hmem := (Dict.mem_of_mem_putAll (Dict.mem_of_get? hv)).resolve_right (by simp)
    cases v with
    | string k => exact Option.some.inj hn ▸ hscale k hmem
    | _ => cases hn
  refine ⟨Value.plain_ofPairs h, ⟨_, rfl⟩, hnamed, fun r hr => ?_⟩
  rw [ofValue?_eq] at hr
  replace hr : refOf? (.ofPairs ps) = some r := hr
  rw [refOf?, Value.ofPairs, Value.members?] at hr
  simp only [Option.bind_eq_bind, Option.bind_some] at hr
  rcases hkeys with hfield | hband
  · rw [Dict.get?_ofPairs_eq_none hfield] at hr
    cases hr
  · rw [Dict.get?_ofPairs_eq_none hband] at hr
    obtain ⟨field, -, hr⟩ := Option.bind_eq_some_iff.mp hr
    split at hr
    · cases hr
    · cases hr
      refine ⟨rfl, ?_⟩
      cases hget : (Dict.get? (Dict.ofPairs ps) "scale").bind Value.text? with
      | none => exact (by decide : Unclaimed "")
      | some n => exact hnamed n hget

theorem traced_constant (h : v.Plain) : Traced (constant v) :=
  traced_ofPairs (by simpa using h) (by simp) (.inl (by simp))

theorem traced_scaled {scale : String} (h : Unclaimed scale) (field : String) : Traced (scaled scale field) :=
  traced_ofPairs (by simp [Value.Plain]) (by simpa using h) (.inr (by simp))

theorem traced_signalRef (n : String) : Traced (signalRef n) :=
  traced_ofPairs (by simp [Value.Plain]) (by simp) (.inl (by simp))

/-! ## Channels -/

theorem plain_read? {f : Fragment} (hf : f.Spelled) (h : Channel.read? f = some c) : c.value.Plain := by
  unfold Channel.read? at h
  dsimp only at h
  split at h
  · cases h
  · next field c' hparts =>
    cases h
    have hkeeps : Keeps (fun r : Value × Channel => r.2.value.Plain) (.record [
        ("field", fun f r => do return (← Reader.any f r.1, r.2)),
        ("type", fun f r => do return (r.1, { r.2 with type := ← Reader.text f r.2.type })),
        ("value", fun f r => do return (r.1, { r.2 with value := ← Reader.any f r.2.value })),
        ("scale", fun f r => do
          return (r.1, { r.2 with scale := (← Reader.dict? .null .any f (some r.2.scale)).getD [] })),
        ("title", fun f r => do return (r.1, { r.2 with title := ← Reader.text f r.2.title })),
        ("aggregate", fun f r => do return (r.1, { r.2 with aggregate := ← Reader.text f r.2.aggregate }))]) := by
      refine keeps_record ?_
      simp only [forall_mem_cons]
      refine ⟨?_, ?_, ?_, ?_, ?_, ?_, by simp⟩
      all_goals
        intro f a b hf ha hread
        obtain ⟨x, hx, hb⟩ := Reading.bind_eq_clean.mp hread
        cases hb
      case refine_3 => exact keeps_any f _ x hf ha hx
      all_goals exact ha
    exact hkeeps f (.null, {}) (field, c') hf trivial (run_eq_ok.mp hparts)

def MarkPlan.Plain (m : MarkPlan) : Prop := ∀ c ∈ m.channels, c.2.value.Plain

theorem MarkPlan.plain_ofFragments {channels : Dict Fragment} (h : ∀ c ∈ channels, c.2.Spelled) :
    (MarkPlan.ofFragments type channels).Plain := by
  intro c hc
  obtain ⟨e, he, hread⟩ := mem_filterMap.mp hc
  obtain ⟨c', hc', rfl⟩ := Option.map_eq_some_iff.mp hread
  exact plain_read? (h e he) hc'

section

variable {o : Origin} {m : MarkPlan} {p : Place} {data : String}

theorem yields_channelValue (hname : Unclaimed name) (hp : p.Named) (hc : c.value.Plain) :
    Yields (Draft.Tidy o) (channelValue name c m p data) Traced := by
  unfold channelValue
  split
  · refine yields_pure (traced_constant ?_)
    split
    · exact hc
    · trivial
  · exact (yields_scaleFor hname c m hp data _).bind fun scale hscale => yields_pure (traced_scaled hscale c.field)

theorem yields_positionValues {axis : String} (haxis : Unclaimed axis) (hp : p.Named) (hc : c.value.Plain) :
    Yields (Draft.Tidy o) (positionValues axis c m p data) fun ps => ∀ e ∈ ps, Traced e.2 := by
  unfold positionValues
  dsimp only
  split
  · refine yields_pure ?_
    split
    · simpa using traced_constant hc
    · simp
  · split
    · refine (yields_scaleFor haxis c m hp data _).bind fun scale hscale => yields_pure ?_
      simpa using ⟨traced_scaled hscale _, traced_scaled hscale _⟩
    · refine (yields_scaleFor haxis c m hp data _).bind fun scale hscale => ?_
      split
      · refine yields_pure ?_
        have hband : Traced (.ofPairs [("scale", .string scale), ("band", .number 1)]) :=
          traced_ofPairs (forall_mem_cons.mpr ⟨trivial, forall_mem_singleton.mpr ⟨rfl, rfl⟩⟩)
            (by simpa using hscale) (.inl (by simp))
        simpa using ⟨traced_scaled hscale _, hband⟩
      · split
        · refine yields_pure ?_
          have hzero : Traced (.ofPairs [("scale", .string scale), ("value", .number 0)]) :=
            traced_ofPairs (forall_mem_cons.mpr ⟨trivial, forall_mem_singleton.mpr ⟨rfl, rfl⟩⟩)
              (by simpa using hscale) (.inl (by simp))
          simpa using ⟨traced_scaled hscale _, hzero⟩
        · exact yields_pure (by simpa using traced_scaled hscale _)

theorem yields_channelProperties (name : String) (hp : p.Named) (hc : c.value.Plain) :
    Yields (Draft.Tidy o) (channelProperties name c m p data) fun ps => ∀ e ∈ ps, Traced e.2 := by
  have hvalue {name : String} (hname : Unclaimed name) (k : String) :
      Yields (Draft.Tidy o) (do return [(k, ← channelValue name c m p data)] : Lower _)
        fun ps => ∀ e ∈ ps, Traced e.2 :=
    (yields_channelValue hname hp hc).bind fun v hv => yields_pure (by simpa using hv)
  have hfield (k n : String) : ∀ e ∈ (if m.isGeographic then [(k, Value.ofPairs [("field", .string n)])] else []),
      Traced e.2 := by
    have htraced : Traced (.ofPairs [("field", .string n)]) :=
      traced_ofPairs (by simp [Value.Plain]) (by simp) (.inr (by simp))
    split
    · simpa using htraced
    · simp
  unfold channelProperties
  split
  · exact yields_positionValues (by decide) hp hc
  · exact yields_positionValues (by decide) hp hc
  · exact hvalue (by decide) _
  · exact hvalue (by decide) _
  · exact hvalue (by decide) _
  · exact hvalue (by decide) _
  · split
    · exact yields_pure (by simpa using traced_signalRef _)
    · refine yields_pure ?_
      split
      · simpa using traced_constant hc
      · simp
  · exact yields_pure (hfield "x" _)
  · exact yields_pure (hfield "y" _)
  · exact yields_pure (by simp)

/-- A block whose channels are in order and traced. -/
structure TracedBlock (d : Dict Value) : Prop where
  sorted : Dict.Sorted d
  traced : ∀ e ∈ d, Traced e.2

theorem TracedBlock.put (h : TracedBlock d) (k : String) (hv : Traced v) : TracedBlock (Dict.put k v d) := by
  refine ⟨h.sorted.put k v, fun e he => ?_⟩
  rcases Dict.mem_of_mem_put he with rfl | he
  · exact hv
  · exact h.traced e he

theorem TracedBlock.putAll (h : TracedBlock d) (hps : ∀ e ∈ ps, Traced e.2) : TracedBlock (Dict.putAll d ps) :=
  ⟨h.sorted.putAll ps, fun e he => (Dict.mem_of_mem_putAll he).elim (hps e) (h.traced e)⟩

theorem TracedBlock.plain (h : TracedBlock d) : (Value.object d).Plain :=
  ⟨h.sorted, Value.plainMembers_iff.mpr fun e he => (h.traced e he).plain⟩

theorem yields_encodeChannels (hp : p.Named) {cs : List (String × Channel)} (hcs : ∀ c ∈ cs, c.2.value.Plain)
    (hupdate : TracedBlock update) : Yields (Draft.Tidy o) (encodeChannels m p data cs update) TracedBlock := by
  induction cs generalizing update with
  | nil => exact yields_pure hupdate
  | cons c cs ih =>
    obtain ⟨hc, hcs⟩ := forall_mem_cons.mp hcs
    exact (yields_channelProperties c.1 hp hc).bind fun ps hps => ih hcs (hupdate.putAll hps)

theorem yields_encode (hp : p.Named) (hm : m.Plain) : Yields (Draft.Tidy o) (encode m p data) TracedBlock := by
  unfold encode
  refine (yields_encodeChannels hp hm ⟨Dict.Sorted.nil, by simp⟩).bind fun update hupdate => yields_pure ?_
  have hcolored : TracedBlock (if Dict.has m.channels "color" then update
      else Dict.put (if m.isStroked then "stroke" else "fill") (constant defaultColor) update) := by
    split
    · exact hupdate
    · exact hupdate.put _ (traced_constant trivial)
  split
  · exact hcolored.put _ (traced_constant trivial)
  · exact hcolored

end

/-! ## Marks -/

/-- A mark that is read back as it was, and that animation can follow. -/
structure Sketch (m : Mark) : Prop extends m.Entry, Traceable m where
  traced : ∀ c ∈ m.block "update", Traced c.2

/-- The mark of the unit at a path. -/
structure Depicts (path : String) (m : Mark) : Prop where
  plots : Plots [] [path] m.drawing
  all : Mark.All Sketch m

theorem Depicts.closed {path : String} {m : Mark} (h : Depicts path m) : Mark.All Mark.Closed m := by
  refine @Mark.closed_of_names _ path fun n hn => ?_
  obtain ⟨x, hx, rfl⟩ := mem_map.mp hn
  have hmem : (x.name, x.dataset) ∈ m.drawing := by exact mem_map_of_mem hx
  rcases h.plots.name_eq _ hmem with ⟨path', hpath', hname⟩ | ⟨i, hi, -⟩
  · obtain rfl := mem_singleton.mp hpath'
    exact Mark.mem_unitNames.mpr hname
  · cases hi

theorem sketch_mark {source : Option MarkSource} {marks : List Mark} {others : Dict Fragment}
    (hsource : ∀ s ∈ source, ∀ c ∈ s.facet, c.Sound) (hupdate : TracedBlock update)
    (hothers : Foreign Mark.fieldNames others)
    (hdata : Regular (⟨name, type, source, .null, [("update", .object update)], [], [], [], marks, others⟩ : Mark).dataset)
    : Sketch ⟨name, type, source, .null, [("update", .object update)], [], [], [], marks, others⟩ where
  source := hsource
  clip := trivial
  sorted := pairwise_singleton _ _
  blocks := by simpa using ⟨hupdate.plain, .inr ⟨update, rfl⟩⟩
  data := by simp
  signals := by simp
  scales := by simp
  others := hothers
  dataset := hdata
  refs := fun c hc => (hupdate.traced c hc).refs
  traced := hupdate.traced

theorem tracedBlock_ofPairs (h : ∀ e ∈ ps, Traced e.2) : TracedBlock (Dict.ofPairs ps) :=
  TracedBlock.putAll ⟨Dict.Sorted.nil, by simp⟩ h

theorem foreign_furtherMembers (m : MarkPlan) : Foreign Mark.fieldNames (Dict.ofPairs (furtherMembers m)) := by
  have hmembers : ∀ e ∈ furtherMembers m, e.2.Proper ∧ e.1 ∈ ["style", "transform", "sort"] := by
    intro e he
    rcases mem_append.mp he with he | he
    · rcases mem_append.mp he with he | he
      · rw [mem_singleton.mp he]
        exact ⟨Fragment.proper_list (by simpa using Fragment.proper_text m.type), by simp⟩
      · split at he
        · rw [mem_singleton.mp he]
          exact ⟨Fragment.proper_list (by simpa using Fragment.proper_closed.value trivial), by simp⟩
        · cases he
    · split at he
      · rw [mem_singleton.mp he]
        exact ⟨Fragment.proper_closed.value trivial, by simp⟩
      · cases he
  have hnames : ∀ k ∈ ["style", "transform", "sort"], ∀ n ∈ Mark.fieldNames, foldName k ≠ foldName n := by decide
  exact .ofPairs (fun e he => (hmembers e he).1) fun e he => hnames e.1 (hmembers e he).2

theorem regular_faceted (path : String) : Regular ("faceted_path_" ++ path ++ "main") := by
  refine .inr ⟨fun h => ?_, fun c hc => ?_⟩
  · have hlist := congrArg String.toList h
    simp at hlist
  · rw [String.toList_append, List.getLast?_append] at hc
    obtain rfl : 'n' = c := by simpa using hc
    rfl

theorem yields_drawMark {o : Origin} (visit : Visit) {m : MarkPlan} {p : Place} {projection : Option Fragment}
    {data : String} (hp : p.Named) (hm : m.Plain) (hdata : ∃ k : Nat, data = s!"data_{k}") :
    Yields (Draft.Tidy o) (drawMark visit m p projection data) (Depicts p.path) := by
  have hsize (name : String) : Traced (.ofPairs [("field", .ofPairs [("group", .string name)])]) :=
    traced_ofPairs (by simpa using Value.plain_ofPairs (by simp [Value.Plain])) (by simp) (.inr (by simp))
  obtain ⟨k, rfl⟩ := hdata
  unfold drawMark
  split
  · exact yields_throw _
  · split
    · exact yields_throw _
    · refine (yields_encode hp hm).bind fun update hupdate => yields_when (yields_useProjection projection p) ?_
      dsimp only
      split
      · refine yields_pure ⟨Plots.nil.mark p.path k, Mark.all_iff.mpr ⟨?_, nofun⟩⟩
        exact sketch_mark (by simp) hupdate (foreign_furtherMembers m) (.inl ⟨k, rfl⟩)
      · refine yields_pure ⟨Plots.nil.series p.path k _,
          Mark.all_iff.mpr ⟨?_, forall_mem_singleton.mpr (Mark.all_iff.mpr ⟨?_, nofun⟩)⟩⟩
        · refine sketch_mark ?_ (tracedBlock_ofPairs (by simpa using ⟨hsize "width", hsize "height"⟩)) (.nil _)
            (.inl ⟨k, rfl⟩)
          rintro _ ⟨⟩ _ ⟨⟩
          exact ⟨Value.plainAll_iff.mpr (by simp [Value.Plain]), .nil _⟩
        · exact sketch_mark (by simp) hupdate (foreign_furtherMembers m) (regular_faceted p.path)

end AnimatedChart.Lowering

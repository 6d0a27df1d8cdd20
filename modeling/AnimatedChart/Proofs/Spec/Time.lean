import AnimatedChart.Proofs.Json.Readers
import AnimatedChart.Spec.Time

/-!
# Time encodings read back

A time encoding that was read from a document is sound: its numbers are finite and its values are plain.
-/

open List AnimatedChart.Json.Fragment

namespace AnimatedChart.Spec

open Json Reader

variable {f : Fragment} {r : TimeRange} {s : TimeScale} {t : TimeEncoding} (k : Key)

theorem read_values {vs : List Value} (h : Value.PlainAll vs) :
    Takes (.list .null .any) (.list (Value.toItems vs)) vs := by
  rw [Value.toItems_eq_map]
  exact takes_list fun v hv => takes_any (Value.plainAll_iff.mp h v hv)

/-! ## Ranges -/

namespace TimeRange

def Sound : TimeRange → Prop
  | step ms => Decimal.IsFinite ms
  | values vs => Value.PlainAll vs

theorem read_eq (h : ∀ fs bs, f ≠ .array fs bs) :
    read f = (do
      let s ← (Reader.record [("step", Reader.optional 0 .number)]).run f none
      match s with
      | some ms => return step ms
      | none => throw (.plain "time range must be an array or \x7b\"step\": n\x7d")) := by
  cases f with
  | array fs bs => exact absurd rfl (h fs bs)
  | _ => rfl

theorem read_toFragment (h : r.Sound) : read r.toFragment = .ok r := by
  cases r with
  | step ms =>
    have hms : Takes (Reader.optional 0 .number) (Value.literal ms) (some ms) :=
      takes_optional (by simp [Value.literal]) (takes_number h)
    have hstep : (Reader.record [("step", Reader.optional 0 .number)]).run
        (.record [("step", Value.literal ms)]) none = .ok (some ms) := run_eq_ok.mpr (record_singleton hms none)
    rw [toFragment, read_eq (by simp [Fragment.record]), hstep]
    rfl
  | values vs =>
    have hrun : (Reader.list Value.null .any).run (.list (Value.toItems vs)) [] = .ok vs :=
      run_eq_ok.mpr (read_values h [])
    show (do let vs ← (Reader.list Value.null .any).run (.list (Value.toItems vs)) []; return values vs) = _
    rw [hrun]
    rfl

theorem toFragment_ne_null (r : TimeRange) : r.toFragment ≠ .null := by
  cases r <;> simp [toFragment, Fragment.record, Fragment.list]

theorem spelled_toFragment (h : r.Sound) : r.toFragment.Spelled := by
  cases r with
  | step ms => exact spelled_record (by simpa using Value.spelled_literal h)
  | values vs => exact spelled_closed.valueList (Value.plainAll_iff.mp h)

theorem sound_read (hf : f.Spelled) (h : read f = .ok r) : r.Sound := by
  by_cases harray : ∃ fs bs, f = .array fs bs
  · obtain ⟨fs, bs, rfl⟩ := harray
    have h : (do let vs ← (Reader.list Value.null .any).run (.array fs bs) []; return values vs) = .ok r := h
    obtain ⟨vs, hvs, hr⟩ := bind_eq_ok.mp h
    cases hr
    have hkeeps : Keeps _ (Reader.list Value.null .any) := keeps_list keeps_any trivial
    exact Value.plainAll_iff.mpr (hkeeps _ [] vs hf (by simp) (run_eq_ok.mp hvs))
  · rw [read_eq fun fs bs hfs => harray ⟨fs, bs, hfs⟩] at h
    obtain ⟨o, ho, hr⟩ := bind_eq_ok.mp h
    have hkeeps : ∀ ms ∈ o, Decimal.IsFinite ms :=
      keeps_record (by simpa using keeps_optional keeps_number ⟨rfl, rfl⟩) f none o hf (by simp) (run_eq_ok.mp ho)
    cases o with
    | none => cases hr
    | some ms => exact Except.ok.inj hr ▸ hkeeps ms rfl

theorem read_bare (f : Fragment) : read f.bare = read f := by
  by_cases harray : ∃ fs bs, f = .array fs bs
  · obtain ⟨fs, bs, rfl⟩ := harray
    show (do let vs ← (Reader.list Value.null .any).run (array fs bs).bare []; return values vs) = _
    rw [run_bare_id (natural_list_id natural_any)]
    rfl
  · have hbare : ∀ fs bs, f.bare ≠ .array fs bs := by
      intro fs bs hbare
      cases f with
      | array gs cs => exact harray ⟨gs, cs, rfl⟩
      | _ => cases hbare
    rw [read_eq hbare, read_eq fun fs bs hfs => harray ⟨fs, bs, hfs⟩,
      run_bare_id (natural_record (by simpa using natural_optional_id natural_number))]

end TimeRange

/-! ## Scales -/

namespace TimeScale

def schema : Schema TimeScale where
  fields := layout
  kept := fun _ => ()

structure Sound (s : TimeScale) : Prop where
  range : ∀ r ∈ s.range, r.Sound
  domain : ∀ v ∈ s.domain, v.Plain

theorem reader_toFragment (h : s.Sound) : reader s.toFragment {} = .read s true := by
  refine schema.read_recordOf ?_ rfl
  refine .cons ⟨rfl, ?_⟩ (.cons ⟨rfl, ?_⟩ (.cons ⟨rfl, ?_⟩ (.cons ⟨rfl, ?_⟩ .nil)))
  · exact restores_unless (fun hempty => (String.isEmpty_iff.mp hempty).symm) fun _ => takes_text s.type
  · exact restores_map TimeRange.toFragment_ne_null fun r hr => takes_settled (TimeRange.read_toFragment (h.range r hr))
  · exact restores_map (by simp) fun b _ => takes_flag b
  · exact restores_unless (fun hempty => (List.isEmpty_iff.mp hempty).symm)
      fun _ => read_values (Value.plainAll_iff.mpr h.domain)

theorem spelled_toFragment (h : s.Sound) : s.toFragment.Spelled := by
  refine spelled_closed.recordOf ?_
  simp only [forall_mem_cons]
  exact ⟨forall_unless (spelled_text s.type),
    Option.forall_mem_map.mpr fun r hr => TimeRange.spelled_toFragment (h.range r hr),
    Option.forall_mem_map.mpr fun _ _ => trivial,
    forall_unless (spelled_closed.valueList h.domain), by simp⟩

theorem keeps_reader : Keeps Sound reader := by
  refine schema.keeps ?_
  simp only [schema, layout, forall_mem_cons]
  refine ⟨⟨_, keeps_true _, fun _ _ => trivial, fun a b ha _ => ⟨ha.range, ha.domain⟩⟩,
    ⟨_, keeps_optional (keeps_settled fun f r => TimeRange.sound_read) ?_, fun a ha => ha.range,
      fun a b ha hb => ⟨hb, ha.domain⟩⟩,
    ⟨_, keeps_true _, fun _ _ => trivial, fun a b ha _ => ⟨ha.range, ha.domain⟩⟩,
    ⟨_, keeps_list keeps_any trivial, fun a ha => ha.domain, fun a b ha hb => ⟨ha.range, hb⟩⟩, by simp⟩
  exact ⟨rfl, rfl⟩

theorem natural_reader : Natural id reader := by
  refine schema.natural_id ?_
  simp only [schema, layout, forall_mem_cons]
  exact ⟨natural_text, natural_optional_id (natural_settled_id TimeRange.read_bare), natural_optional_id natural_flag,
    natural_list_id natural_any, by simp⟩

end TimeScale
/-! ## Keys -/

namespace Key

def schema : Schema (String × Option Bool) where
  fields := layout
  kept := fun _ => ()

theorem read_eq (f : Fragment) :
    read f = match Reader.flag.run f false with
      | .ok _ => .ok disabled
      | .error _ => (do
        let r ← (Reader.record schema.readers).run f ("", none)
        return field r.1 r.2) := rfl

theorem read_toFragment : read k.toFragment = .ok k := by
  cases k with
  | disabled => rfl
  | field n loop =>
    have hrun : (Reader.record schema.readers).run (field n loop).toFragment ("", none) = .ok (n, loop) := by
      refine run_eq_ok.mpr (schema.read_recordOf ?_ rfl)
      exact .cons ⟨rfl, (takes_text n).restores _ _⟩ (.cons ⟨rfl, restores_map (by simp) fun b _ => takes_flag b⟩ .nil)
    have hflag : Reader.flag.run (field n loop).toFragment false = .error (.outside .json) := rfl
    rw [read_eq, hflag, hrun]
    rfl

theorem toFragment_ne_null : k.toFragment ≠ .null := by
  cases k <;> simp [toFragment, Fragment.recordOf, Fragment.recordWith, Fragment.record]

theorem spelled_toFragment : k.toFragment.Spelled := by
  cases k with
  | disabled => trivial
  | field n loop =>
    refine spelled_closed.recordOf ?_
    simp only [forall_mem_cons]
    exact ⟨by simpa using spelled_text n, Option.forall_mem_map.mpr fun _ _ => trivial, by simp⟩

theorem read_bare (f : Fragment) : read f.bare = read f := by
  have hnatural : Natural id (Reader.record schema.readers) := by
    refine schema.natural_id ?_
    simp only [schema, layout, forall_mem_cons]
    exact ⟨natural_text, natural_optional_id natural_flag, by simp⟩
  rw [read_eq, read_eq, run_bare_id natural_flag, run_bare_id hnatural]

end Key

/-! ## Time encodings -/

namespace TimeEncoding

def schema : Schema TimeEncoding where
  fields := layout
  kept := fun _ => ()

def Sound (t : TimeEncoding) : Prop := ∀ s ∈ t.scale, s.Sound

theorem read_toFragment (h : t.Sound) : read t.toFragment = .ok t := by
  refine run_eq_ok.mpr (schema.read_recordOf ?_ rfl)
  refine .cons ⟨rfl, ?_⟩ (.cons ⟨rfl, ?_⟩ (.cons ⟨rfl, ?_⟩ (.cons ⟨rfl, ?_⟩ .nil)))
  · exact restores_unless (fun hempty => (String.isEmpty_iff.mp hempty).symm) fun _ => takes_text t.field
  · -- A scale leaves out what is empty, so it is read over an empty scale only.
    cases hscale : t.scale with
    | none => exact hscale.symm
    | some s =>
      rintro a (rfl | hagain)
      swap
      · exact hagain.elim
      exact ⟨some s, Reading.bind_eq_clean.mpr ⟨s, TimeScale.reader_toFragment (h s hscale), rfl⟩, hscale.symm⟩
  · exact restores_map Key.toFragment_ne_null fun k _ => takes_settled (Key.read_toFragment k)
  · exact restores_map (by simp) fun b _ => takes_flag b

theorem toFragment_ne_null (t : TimeEncoding) : t.toFragment ≠ .null := by
  simp [toFragment, Fragment.recordOf, Fragment.recordWith, Fragment.record]

theorem spelled_toFragment (h : t.Sound) : t.toFragment.Spelled := by
  refine spelled_closed.recordOf ?_
  simp only [forall_mem_cons]
  exact ⟨forall_unless (spelled_text t.field),
    Option.forall_mem_map.mpr fun s hs => TimeScale.spelled_toFragment (h s hs),
    Option.forall_mem_map.mpr fun k _ => k.spelled_toFragment, Option.forall_mem_map.mpr fun _ _ => trivial, by simp⟩

theorem sound_read (hf : f.Spelled) (h : read f = .ok t) : t.Sound := by
  have hkeeps : Keeps Sound reader := by
    refine schema.keeps ?_
    simp only [schema, layout, forall_mem_cons]
    refine ⟨⟨_, keeps_true _, fun _ _ => trivial, fun _ _ ha _ => ha⟩,
      ⟨_, keeps_optional TimeScale.keeps_reader ⟨by simp, by simp⟩, fun _ ha => ha, fun _ _ _ hb => hb⟩,
      ⟨_, keeps_true _, fun _ _ => trivial, fun _ _ ha _ => ha⟩,
      ⟨_, keeps_true _, fun _ _ => trivial, fun _ _ ha _ => ha⟩, by simp⟩
  exact hkeeps f {} t hf (fun _ hs => by cases hs) (run_eq_ok.mp h)

theorem read_bare (f : Fragment) : read f.bare = read f := by
  refine run_bare_id (schema.natural_id ?_) f _
  simp only [schema, layout, forall_mem_cons]
  exact ⟨natural_text, natural_optional_id TimeScale.natural_reader,
    natural_optional_id (natural_settled_id Key.read_bare), natural_optional_id natural_flag, by simp⟩

end TimeEncoding
end AnimatedChart.Spec

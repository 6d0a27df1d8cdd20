import AnimatedChart.Proofs.Graph.Marks
import AnimatedChart.Proofs.Graph.Reading

/-!
# Graphs read back

A mark whose values are plain, and whose further members are named like no field, is read from how it is written as it
was (`Mark.read_toFragment`).
-/

open List AnimatedChart.Json.Fragment

namespace AnimatedChart

open Json Reader

variable {P : Value → Prop} {Q : Fragment → Prop} {others : Dict Fragment} {fields : List (String × Option Fragment)}
variable {f : Fragment} {fs : List Fragment} {s : Signal} {m : Mark} {d : Dataset}

/-! ## Fragments that can be read again -/

namespace Json.Fragment

def Proper (f : Fragment) : Prop := f.isFinite = true → f.Spelled

theorem Spelled.proper (h : f.Spelled) : f.Proper := fun _ => h

theorem proper_text (s : String) : (text s).Proper := (spelled_text s).proper

theorem proper_list (h : ∀ f ∈ fs, f.Proper) : (list fs).Proper := fun hfinite =>
  spelled_list fun f hf => h f hf (areFinite_iff.mp hfinite f hf)

theorem proper_record {ms : List (String × Fragment)} (h : ∀ m ∈ ms, m.2.Proper) : (record ms).Proper := by
  intro hfinite
  have hmembers := membersAreFinite_iff.mp hfinite
  rw [forall_mem_map] at hmembers
  exact spelled_record fun m hm => h m hm (hmembers m hm)

theorem proper_literal (x : Float) : (Value.literal x).Proper := by
  intro hfinite
  refine Value.spelled_literal ⟨?_, ?_⟩
  · by_contra hnan
    rw [Value.literal, Decimal.Layout.write, if_pos (by simpa using hnan)] at hfinite
    exact absurd hfinite (by decide +kernel)
  · by_contra hinf
    rw [Value.literal, Decimal.Layout.write] at hfinite
    split at hfinite
    · exact absurd hfinite (by decide +kernel)
    · simp only [hinf, if_true] at hfinite
      split at hfinite
      · exact absurd hfinite (by decide +kernel)
      · exact absurd hfinite (by decide +kernel)

theorem proper_closed : Closed (fun _ => True) Proper where
  null _ := trivial
  bool _ _ := trivial
  text := proper_text
  list := proper_list
  record := proper_record
  number _ := proper_literal _
  items _ _ _ := trivial
  members _ _ _ := trivial

end Json.Fragment

/-! ## Entries -/

/-- Further members in order, none of them named like a field. -/
structure Foreign (names : List String) (others : Dict Fragment) : Prop where
  sorted : Dict.Sorted others
  proper : ∀ e ∈ others, e.2.Proper
  foreign : ∀ e ∈ others, ∀ n ∈ names, foldName e.1 ≠ foldName n

theorem Foreign.nil (names : List String) : Foreign names [] := ⟨Dict.Sorted.nil, by simp, by simp⟩

theorem Foreign.ofPairs {names : List String} {ps : List (String × Fragment)} (hproper : ∀ e ∈ ps, e.2.Proper)
    (hkeys : ∀ e ∈ ps, ∀ n ∈ names, foldName e.1 ≠ foldName n) : Foreign names (Dict.ofPairs ps) where
  sorted := Dict.sorted_ofPairs ps
  proper := fun e he => (Dict.mem_of_mem_putAll he).elim (hproper e) (by simp)
  foreign := fun e he => (Dict.mem_of_mem_putAll he).elim (hkeys e) (by simp)

theorem Foreign.put {names : List String} (h : Foreign names others) {k : String}
    (hf : f.Proper) (hk : ∀ n ∈ names, foldName k ≠ foldName n) : Foreign names (Dict.put k f others) where
  sorted := h.sorted.put k f
  proper := by
    intro e he
    rcases Dict.mem_of_mem_put he with rfl | he
    · exact hf
    · exact h.proper e he
  foreign := by
    intro e he
    rcases Dict.mem_of_mem_put he with rfl | he
    · exact hk
    · exact h.foreign e he

theorem Foreign.unambiguous (h : Foreign (fields.map (·.1)) others) : Unambiguous fields others := fun e he x hx heq =>
  absurd heq (h.foreign e he x.1 (mem_map_of_mem hx))

theorem Foreign.restores {α : Type} {names : List String} (h : Foreign names others)
    {n : String} (hn : n ∈ names) {r : Reader α} {start : α} {P : α → Prop} {o : Option Fragment}
    (hr : Restores r start P False o) : Restores r start P (∃ e ∈ others, foldName n = foldName e.1) o := by
  cases o with
  | none => exact hr
  | some v => exact fun a ha => hr a (ha.imp_right fun ⟨e, he, heq⟩ => h.foreign e he n hn heq.symm)

theorem readEntry_written {α β : Type} (s : Schema α)
    {start : α} (target : α) {names : List String} {finish : α → Dict Fragment → β}
    (hothers : Foreign names others) (hnames : fields.map (·.1) = names)
    (hfields : List.Forall₂ (fun x e => e.1 = x.name ∧ Restores x.reader (x.get start) (· = x.get target) False e.2)
      s.fields fields) (hkept : s.kept target = s.kept start) :
    readEntry (.record s.readers) start names finish (.recordWith fields others) = .ok (finish target others) := by
  have hmem : ∀ x ∈ s.fields, x.name ∈ names := fun x hx =>
    hnames ▸ s.names_written hfields ▸ mem_map_of_mem (f := fun x : Json.Field α => x.name) hx
  refine s.readEntry_written target hothers.sorted (fun e he hn => hothers.foreign e he e.1 hn rfl)
    (Foreign.unambiguous (hnames ▸ hothers)) (fun e he x hx heq => ?_) (fun x hx => hnames ▸ mem_map_of_mem hx)
    (forall₂_iff_get.mpr ⟨hfields.length_eq, fun i hi hi' => ?_⟩) hkept
  · exact absurd heq.symm (hothers.foreign e he x.name (hmem x hx))
  · obtain ⟨hname, hrestore⟩ := hfields.get hi hi'
    exact ⟨hname, hothers.restores (hmem _ (getElem_mem hi)) hrestore⟩

namespace Json.Fragment

theorem depth_le_depthOfItems (h : f ∈ fs) : f.depth ≤ depthOfItems fs := by
  induction fs with
  | nil => cases h
  | cons g fs ih =>
    rw [depthOfItems]
    rcases mem_cons.mp h with rfl | h
    · exact le_max_left _ _
    · exact (ih h).trans (le_max_right _ _)

theorem depth_lt_list (h : f ∈ fs) : f.depth < (list fs).depth := by
  rw [list, depth]
  exact Nat.lt_one_add_iff.mpr (depth_le_depthOfItems h)

theorem depth_lt_recordWith (hothers : Dict.Sorted others) (hfields : Distinct (fields.map (·.1))) {k : String}
    (h : (k, some f) ∈ fields) : f.depth < (recordWith fields others).depth := by
  have hmem : (k, f) ∈ written fields others := (merges_written hothers hfields).mem.mpr (.inl h)
  rw [recordWith, record, depth, depthOfMembers_eq, map_map]
  exact Nat.lt_one_add_iff.mpr (depth_le_depthOfItems (mem_map.mpr ⟨(k, f), hmem, rfl⟩))

end Json.Fragment

/-! ## Fields of entries -/

def Json.Value.IsBlock (v : Value) : Prop := v = .null ∨ ∃ ms, v = .object ms

theorem object_written {v : Value} (hplain : v.Plain) (hblock : v.IsBlock) :
    Reader.object v.toFragment .null = .read v true := by
  rcases hblock with rfl | ⟨ms, rfl⟩
  · rfl
  · refine Reading.bind_eq_clean.mpr ⟨ms, ?_, rfl⟩
    exact (entries_eq_clean hplain.2 []).trans (congrArg (Reading.read · true) (Dict.ofPairs_of_sorted hplain.1))

theorem restores_value {v : Value} (h : v.Plain) (again : Prop) :
    Restores .any .null (· = v) again (if v.isSome then some v.toFragment else none) := by
  cases v with
  | null => rfl
  | _ => exact (takes_any h).restores _ _

theorem restores_text (s : String) (again : Prop) :
    Restores .text "" (· = s) again (if s.isEmpty then none else some (.text s)) :=
  restores_unless (fun hempty => (String.isEmpty_iff.mp hempty).symm) fun _ => takes_text s

theorem restores_flag (b : Bool) (again : Prop) :
    Restores .flag false (· = b) again (if b then some (.bool true) else none) := by
  cases b with
  | false => rfl
  | true => exact (takes_flag true).restores _ _

theorem restores_entries {α : Type} {empty : α} {r : Fragment → Except Error α} {write : α → Fragment} {as : List α}
    (h : ∀ a ∈ as, r (write a) = .ok a) (again : Prop) : Restores (.list empty (.settled r)) [] (· = as) again
      (if as.isEmpty then none else some (.list (as.map write))) :=
  restores_unless (fun hempty => (List.isEmpty_iff.mp hempty).symm) fun _ =>
    takes_list fun a ha => takes_settled (h a ha)

namespace Dataset

/-- The values are plain, transforms are objects, and further members are named like no field. -/
structure Sound (d : Dataset) : Prop where
  source : d.source.Plain
  values : d.values.Plain
  transform : ∀ t ∈ d.transform, t.Plain ∧ t.IsBlock
  others : Foreign names d.others

theorem restores_transform {ts : List Value} (h : ∀ t ∈ ts, t.Plain ∧ t.IsBlock) :
    Restores (.slots .null .object) {} (· = { items := if ts.isEmpty then none else some ts }) False
      (if ts.isEmpty then none else some (.list (Value.toItems ts))) := by
  cases ts with
  | nil => rfl
  | cons t ts =>
    rintro a (rfl | hagain)
    swap
    · exact hagain.elim
    have hitems : items .null .object (Value.toItems (t :: ts)) [] = .read ((t :: ts).map id) true := by
      rw [Value.toItems_eq_map]
      exact items_over_nil fun v hv => object_written (h v hv).1 (h v hv).2
    rw [map_id] at hitems
    exact ⟨_, Reading.bind_eq_clean.mpr ⟨t :: ts, hitems, rfl⟩, rfl⟩

theorem read_toFragment (h : d.Sound) : read d.toFragment = .ok d := by
  have hlist : (if d.transform.isEmpty then none else some d.transform).getD [] = d.transform := by
    cases d.transform <;> rfl
  let target : Dataset × Slots Value := ({ d with transform := [], others := [] },
    { items := if d.transform.isEmpty then none else some d.transform })
  refine (readEntry_written schema target h.others (by rfl) ?_ (by rfl)).trans ?_
  · exact .cons ⟨rfl, (takes_text d.name).restores _ _⟩ (.cons ⟨rfl, restores_value h.source _⟩
      (.cons ⟨rfl, restores_value h.values _⟩ (.cons ⟨rfl, restores_transform h.transform⟩ .nil)))
  · simp only [target, Slots.toList, hlist]

theorem closed_toFragment (h : Closed P Q) (hsource : P d.source) (hvalues : P d.values)
    (htransform : ∀ t ∈ d.transform, P t) (hothers : ∀ e ∈ d.others, Q e.2) : Q d.toFragment := by
  refine h.recordWith ?_ hothers
  simp only [forall_mem_cons]
  exact ⟨by simpa using h.text d.name, h.valueUnless hsource, h.valueUnless hvalues,
    forall_unless (h.valueList htransform), by simp⟩

theorem proper_toFragment (h : ∀ e ∈ d.others, e.2.Proper) : d.toFragment.Proper :=
  closed_toFragment proper_closed trivial trivial (fun _ _ => trivial) h

end Dataset

/-! ## Signals -/

namespace Handler

/-- The events are plain, and further members are named like no field. -/
structure Sound (h : Handler) : Prop where
  events : h.events.Plain
  others : Foreign names h.others

theorem read_toFragment {h : Handler} (hs : h.Sound) : read h.toFragment = .ok h := by
  refine (readEntry_written schema { h with others := [] } hs.others (by rfl) ?_ (by rfl)).trans rfl
  exact .cons ⟨rfl, (takes_any hs.events).restores _ _⟩ (.cons ⟨rfl, restores_text h.update _⟩
    (.cons ⟨rfl, restores_flag h.force _⟩ .nil))

theorem closed_toFragment (hc : Closed P Q) {h : Handler} (hevents : P h.events)
    (hothers : ∀ e ∈ h.others, Q e.2) : Q h.toFragment := by
  refine hc.recordWith ?_ hothers
  simp only [forall_mem_cons]
  refine ⟨by simpa using hc.value hevents, forall_unless (hc.text h.update), ?_, by simp⟩
  cases h.force <;> simp [hc.bool]

end Handler

namespace Signal

/-- The values are plain, the handlers are sound, and further members are named like no field. -/
structure Sound (s : Signal) : Prop where
  value : s.value.Plain
  bind : s.bind.Plain
  on : ∀ h ∈ s.on, h.Sound
  others : Foreign names s.others

theorem read_toFragment (h : s.Sound) : read s.toFragment = .ok s := by
  refine (readEntry_written schema { s with others := [] } h.others (by rfl) ?_ (by rfl)).trans rfl
  exact .cons ⟨rfl, (takes_text s.name).restores _ _⟩ (.cons ⟨rfl, restores_value h.value _⟩
    (.cons ⟨rfl, restores_text s.init _⟩ (.cons ⟨rfl, restores_text s.update _⟩
    (.cons ⟨rfl, restores_entries (fun a ha => Handler.read_toFragment (h.on a ha)) _⟩
    (.cons ⟨rfl, restores_value h.bind _⟩ .nil)))))

/-- The further members of the signal and of its handlers are proper. -/
structure Proper (s : Signal) : Prop where
  others : ∀ e ∈ s.others, e.2.Proper
  on : ∀ h ∈ s.on, ∀ e ∈ h.others, e.2.Proper

theorem closed_toFragment (h : Closed P Q) (hvalue : P s.value) (hbind : P s.bind)
    (hon : ∀ x ∈ s.on, Q x.toFragment) (hothers : ∀ e ∈ s.others, Q e.2) : Q s.toFragment := by
  refine h.recordWith ?_ hothers
  simp only [forall_mem_cons]
  exact ⟨by simpa using h.text s.name, h.valueUnless hvalue, forall_unless (h.text s.init),
    forall_unless (h.text s.update), forall_unless (h.mapped hon), h.valueUnless hbind, by simp⟩

theorem proper_toFragment (h : s.Proper) : s.toFragment.Proper :=
  closed_toFragment proper_closed trivial trivial
    (fun x hx => Handler.closed_toFragment proper_closed trivial (h.on x hx)) h.others

theorem Sound.proper (h : s.Sound) : s.Proper := ⟨h.others.proper, fun a ha => (h.on a ha).others.proper⟩

end Signal

namespace Scale

/-- The values are plain, the alignment is finite, and further members are named like no field. -/
structure Sound (s : Scale) : Prop where
  domain : s.domain.Plain
  domainRaw : s.domainRaw.Plain
  range : s.range.Plain
  align : ∀ x ∈ s.align, Decimal.IsFinite x
  others : Foreign names s.others

theorem read_toFragment {s : Scale} (h : s.Sound) : read s.toFragment = .ok s := by
  refine (readEntry_written schema { s with others := [] } h.others (by rfl) ?_ (by rfl)).trans rfl
  exact .cons ⟨rfl, (takes_text s.name).restores _ _⟩ (.cons ⟨rfl, restores_text s.type _⟩
    (.cons ⟨rfl, restores_value h.domain _⟩ (.cons ⟨rfl, restores_value h.domainRaw _⟩
    (.cons ⟨rfl, restores_value h.range _⟩ (.cons ⟨rfl, restores_map (by simp) fun b _ => takes_flag b⟩
    (.cons ⟨rfl, restores_map (by simp [Value.literal]) fun x hx => takes_number (h.align x hx)⟩ .nil))))))

theorem closed_toFragment (h : Closed P Q) {s : Scale} (hdomain : P s.domain) (hraw : P s.domainRaw)
    (hrange : P s.range) (halign : ∀ x ∈ s.align, P (.number x)) (hothers : ∀ e ∈ s.others, Q e.2) :
    Q s.toFragment := by
  refine h.recordWith ?_ hothers
  simp only [forall_mem_cons]
  exact ⟨by simpa using h.text s.name, forall_unless (h.text s.type), h.valueUnless hdomain,
    h.valueUnless hraw, h.valueUnless hrange, Option.forall_mem_map.mpr fun b _ => h.bool b,
    Option.forall_mem_map.mpr fun x hx => h.number (halign x hx), by simp⟩

theorem proper_toFragment {s : Scale} (h : ∀ e ∈ s.others, e.2.Proper) : s.toFragment.Proper :=
  closed_toFragment proper_closed trivial trivial trivial (fun _ _ => trivial) h

end Scale

/-! ## Sources of marks -/

namespace Facet

/-- The grouping is plain, and further members are named like no field. -/
structure Sound (c : Facet) : Prop where
  groupby : c.groupby.Plain
  others : Foreign names c.others

theorem read_toFragment {c : Facet} (h : c.Sound) : read c.toFragment = .ok c := by
  refine (readEntry_written schema { c with others := [] } h.others (by rfl) ?_ (by rfl)).trans rfl
  exact .cons ⟨rfl, (takes_text c.name).restores _ _⟩ (.cons ⟨rfl, (takes_text c.data).restores _ _⟩
    (.cons ⟨rfl, restores_value h.groupby _⟩ .nil))

theorem toFragment_ne_null (c : Facet) : c.toFragment ≠ .null := by
  simp [toFragment, Fragment.recordWith, Fragment.record]

theorem closed_toFragment (h : Closed P Q) {c : Facet} (hgroupby : P c.groupby)
    (hothers : ∀ e ∈ c.others, Q e.2) : Q c.toFragment := by
  refine h.recordWith ?_ hothers
  simp only [forall_mem_cons]
  exact ⟨by simpa using h.text c.name, by simpa using h.text c.data, h.valueUnless hgroupby, by simp⟩

end Facet

namespace MarkSource

theorem reader_toFragment {s : MarkSource} (h : ∀ c ∈ s.facet, c.Sound) : reader s.toFragment {} = .read s true := by
  rw [reader_eq]
  refine schema.read_recordOf ?_ rfl
  exact .cons ⟨rfl, restores_text s.data _⟩ (.cons ⟨rfl, restores_map Facet.toFragment_ne_null fun c hc =>
    takes_settled (Facet.read_toFragment (h c hc))⟩ .nil)

theorem closed_toFragment (h : Closed P Q) {s : MarkSource} (hfacet : ∀ c ∈ s.facet, Q c.toFragment) :
    Q s.toFragment := by
  refine h.recordOf ?_
  simp only [forall_mem_cons]
  exact ⟨forall_unless (h.text s.data), Option.forall_mem_map.mpr hfacet, by simp⟩

end MarkSource

/-! ## Marks -/

namespace Mark

/-- What a mark holds by itself can be read back: values are plain, encode blocks are objects in order, entries are
sound, and further members are named like no field. -/
structure Entry (m : Mark) : Prop where
  source : ∀ s ∈ m.source, ∀ c ∈ s.facet, c.Sound
  clip : m.clip.Plain
  sorted : Dict.Sorted m.encode
  blocks : ∀ b ∈ m.encode, b.2.Plain ∧ b.2.IsBlock
  data : ∀ d ∈ m.data, d.Sound
  signals : ∀ s ∈ m.signals, s.Sound
  scales : ∀ s ∈ m.scales, s.Sound
  others : Foreign fieldNames m.others

theorem toFragments_eq_map (ms : List Mark) : toFragments ms = ms.map toFragment := by
  induction ms with
  | nil => rfl
  | cons m ms ih => rw [toFragments, ih, map_cons]

theorem restores_source {o : Option MarkSource} (h : ∀ s ∈ o, ∀ c ∈ s.facet, c.Sound) :
    Restores (.optional {} MarkSource.reader) none (· = o) False (o.map MarkSource.toFragment) := by
  cases o with
  | none => rfl
  | some s =>
    rintro a (rfl | hagain)
    swap
    · exact hagain.elim
    exact ⟨some s, Reading.bind_eq_clean.mpr ⟨s, MarkSource.reader_toFragment (h s rfl), rfl⟩, rfl⟩

theorem restores_blocks {d : Dict Value} (hsorted : Dict.Sorted d) (h : ∀ b ∈ d, b.2.Plain ∧ b.2.IsBlock) :
    Restores blocks [] (· = d) False (if d.isEmpty then none else some (.record (Value.toMembers d))) := by
  split
  · next hempty => exact (List.isEmpty_iff.mp hempty).symm
  · rintro a (rfl | hagain)
    swap
    · exact hagain.elim
    have hentries : entries .null .object ((Value.toMembers d).map fun m =>
        (String.ofList (Escape.encode false m.1.toList), m.2)) [] = .read d true := by
      rw [Value.toMembers_eq_map, map_map]
      refine (entries_written (fun m hm => object_written (h m hm).1 (h m hm).2) []).trans ?_
      exact congrArg (Reading.read · true) (Dict.ofPairs_of_sorted hsorted)
    have hdict : Reader.dict? .null .object (.record (Value.toMembers d)) (some []) = .read (some d) true :=
      Reading.bind_eq_clean.mpr ⟨d, hentries, rfl⟩
    exact ⟨d, by rw [blocks, hdict]; rfl, rfl⟩

theorem depth_lt_toFragment {x : Mark} (h : Foreign fieldNames m.others) (hx : x ∈ m.marks) :
    x.toFragment.depth + 1 < m.toFragment.depth := by
  obtain ⟨name, type, source, clip, encode, data, signals, scales, marks, others⟩ := m
  have hmarks : marks.isEmpty = false := by
    cases marks with
    | nil => cases hx
    | cons y ys => rfl
  have hlist : x.toFragment.depth < (Fragment.list (toFragments marks)).depth := by
    rw [toFragments_eq_map]
    exact depth_lt_list (mem_map_of_mem hx)
  have hdistinct : Distinct fieldNames := by decide
  refine Nat.lt_of_le_of_lt hlist ?_
  rw [toFragment]
  exact Fragment.depth_lt_recordWith (k := "marks") h.sorted (by exact hdistinct) (by simp [hmarks])

theorem readNested_toFragment (h : All Entry m) {depth : Nat} (hdepth : m.toFragment.depth ≤ depth) :
    readNested depth m.toFragment = .ok m := by
  induction depth generalizing m with
  | zero =>
    cases m
    rw [toFragment, Fragment.recordWith, Fragment.record, Fragment.depth] at hdepth
    omega
  | succ depth ih =>
    obtain ⟨hentry, hmarks⟩ := all_iff.mp h
    have hnested : ∀ x ∈ m.marks, readNested depth x.toFragment = .ok x := fun x hx =>
      ih (hmarks x hx) (by have := depth_lt_toFragment hentry.others hx; omega)
    obtain ⟨name, type, source, clip, encode, data, signals, scales, marks, others⟩ := m
    rw [readNested_succ, toFragment, toFragments_eq_map]
    refine (readEntry_written (schema _) ⟨name, type, source, clip, encode, data, signals, scales, marks, []⟩ hentry.others
      (by rfl) ?_ (by rfl)).trans rfl
    exact .cons ⟨rfl, restores_text name _⟩ (.cons ⟨rfl, (takes_text type).restores _ _⟩
      (.cons ⟨rfl, restores_source hentry.source⟩ (.cons ⟨rfl, restores_value hentry.clip _⟩
      (.cons ⟨rfl, restores_blocks hentry.sorted hentry.blocks⟩
      (.cons ⟨rfl, restores_entries (fun d hd => Dataset.read_toFragment (hentry.data d hd)) _⟩
      (.cons ⟨rfl, restores_entries (fun s hs => Signal.read_toFragment (hentry.signals s hs)) _⟩
      (.cons ⟨rfl, restores_entries (fun s hs => Scale.read_toFragment (hentry.scales s hs)) _⟩
      (.cons ⟨rfl, restores_entries hnested _⟩ .nil))))))))

theorem read_toFragment (h : All Entry m) : read m.toFragment = .ok m :=
  readNested_toFragment h le_rfl

theorem closed_toFragment (h : Fragment.Closed P Q) (hfacet : ∀ s ∈ m.source, ∀ c ∈ s.facet, Q c.toFragment)
    (hclip : P m.clip) (hencode : ∀ b ∈ m.encode, P b.2) (hdata : ∀ d ∈ m.data, Q d.toFragment)
    (hsignals : ∀ s ∈ m.signals, Q s.toFragment) (hscales : ∀ s ∈ m.scales, Q s.toFragment)
    (hmarks : ∀ x ∈ m.marks, Q x.toFragment) (hothers : ∀ e ∈ m.others, Q e.2) : Q m.toFragment := by
  obtain ⟨name, type, source, clip, encode, data, signals, scales, marks, others⟩ := m
  rw [toFragment, toFragments_eq_map]
  refine h.recordWith ?_ hothers
  simp only [forall_mem_cons]
  exact ⟨forall_unless (h.text name), by simpa using h.text type,
    Option.forall_mem_map.mpr fun s hs => MarkSource.closed_toFragment h (hfacet s hs), h.valueUnless hclip,
    forall_unless (h.valueRecord hencode), forall_unless (h.mapped hdata),
    forall_unless (h.mapped hsignals), forall_unless (h.mapped hscales),
    forall_unless (h.mapped hmarks), by simp⟩

theorem proper_toFragment (h : All Entry m) : m.toFragment.Proper := by
  induction m with
  | step m ih =>
    obtain ⟨hentry, hmarks⟩ := all_iff.mp h
    exact closed_toFragment proper_closed
      (fun s hs c hc => Facet.closed_toFragment proper_closed trivial (hentry.source s hs c hc).others.proper)
      trivial (fun _ _ => trivial) (fun d hd => Dataset.proper_toFragment (hentry.data d hd).others.proper)
      (fun s hs => Signal.proper_toFragment (hentry.signals s hs).proper)
      (fun s hs => Scale.proper_toFragment (hentry.scales s hs).others.proper) (fun x hx => ih x hx (hmarks x hx))
      hentry.others.proper

end Mark

/-! ## Graphs -/

namespace Graph

variable {text : String}

/-- The marks of the graph can be read back, and nothing else keeps them from it. -/
structure Restorable (g : Graph) : Prop where
  data : ∀ d ∈ g.data, ∀ e ∈ d.others, e.2.Proper
  signals : ∀ s ∈ g.signals, s.Proper
  scales : ∀ s ∈ g.scales, ∀ e ∈ s.others, e.2.Proper
  marks : ∀ m ∈ g.marks, Mark.All Mark.Entry m
  others : Foreign names g.others

variable {g g' : Graph}

theorem closed_toFragment (h : Closed P Q) (hdata : ∀ d ∈ g.data, Q d.toFragment)
    (hsignals : ∀ s ∈ g.signals, Q s.toFragment) (hscales : ∀ s ∈ g.scales, Q s.toFragment)
    (hmarks : ∀ m ∈ g.marks, Q m.toFragment) (hothers : ∀ e ∈ g.others, Q e.2) : Q g.toFragment := by
  rw [toFragment, Mark.toFragments_eq_map]
  refine h.recordWith ?_ hothers
  simp only [forall_mem_cons]
  exact ⟨forall_unless (h.mapped hdata), forall_unless (h.mapped hsignals),
    forall_unless (h.mapped hscales), forall_unless (h.mapped hmarks), by simp⟩

theorem proper_toFragment (h : g.Restorable) : g.toFragment.Proper :=
  closed_toFragment proper_closed (fun d hd => Dataset.proper_toFragment (h.data d hd))
    (fun s hs => Signal.proper_toFragment (h.signals s hs)) (fun s hs => Scale.proper_toFragment (h.scales s hs))
    (fun m hm => Mark.proper_toFragment (h.marks m hm)) h.others.proper

theorem marks_read (h : g.Restorable) (hread : read g.toFragment = .ok g') : g'.marks = g.marks := by
  have hmarks : record [("marks", .list default (.settled Mark.read))] g.toFragment [] = .read g.marks true := by
    have hdistinct : Reader.Distinct names := by decide
    refine field_recordWith h.others.sorted (by exact hdistinct) (Foreign.unambiguous (by exact h.others))
      (by rw [← Mark.toFragments_eq_map]; simp) (fun e he heq => ?_) (h.others.restores (by simp [names])
        (restores_entries (fun m hm => Mark.read_toFragment (h.marks m hm)) _))
    exact absurd heq.symm (h.others.foreign e he "marks" (by simp [names]))
  rw [read, readEntry_eq_ok] at hread
  obtain ⟨a, others, ha, -, rfl⟩ := hread
  have hfield := (schema.record_iff.mp ha).1
    ⟨"marks", (·.marks), fun b g => { g with marks := b }, .list default (.settled Mark.read)⟩ (by simp [schema])
  exact (Reading.read.inj (hfield.symm.trans hmarks)).1

theorem encode_eq_ok : g.encode = .ok text ↔
    g.toFragment.isFinite = true ∧ g.toFragment.isShallow = true ∧ text = g.render := by
  unfold encode
  cases g.toFragment.isFinite <;> cases g.toFragment.isShallow <;> simp [eq_comm]

theorem exists_read (h : g.toFragment.Proper) (hencode : g.encode = .ok text)
    (hparse : parse text = .ok g') : ∃ g₁, read g.toFragment = .ok g₁ ∧ g₁.bare = g'.bare := by
  obtain ⟨hfinite, -, rfl⟩ := encode_eq_ok.mp hencode
  have hparse := mapError_eq_ok.mp hparse
  cases hfirst : parseFirst? g.render with
  | none => rw [hfirst] at hparse; cases hparse
  | some f =>
    rw [hfirst] at hparse
    have hread : read f = .ok g' := hparse
    have hbare := read_bare f
    rw [bare_of_parseFirst_pretty (h hfinite) hfirst, read_bare, hread] at hbare
    exact map_eq_ok.mp hbare

theorem marks_parse (h : g.Restorable) (hencode : g.encode = .ok text)
    (hparse : parse text = .ok g') : g'.marks.map Mark.bare = g.marks.map Mark.bare := by
  obtain ⟨g₁, hg₁, heq⟩ := exists_read (proper_toFragment h) hencode hparse
  rw [← marks_read h hg₁]
  exact (congrArg marks heq).symm

end Graph

end AnimatedChart

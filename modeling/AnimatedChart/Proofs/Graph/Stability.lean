import AnimatedChart.Proofs.Graph.Roundtrip

/-!
# Encoding a graph twice

A graph of JSON values, whose further members are named like no field, is written, read and written again with the same
text (`Graph.encode_again`): how it is written depends on blanks only in its blanks (`Graph.bare_toFragment_bare`), it
is written as a document (`Graph.spelled_toFragment`), and it is read from there as it was (`Graph.read_toFragment`).
-/

open List AnimatedChart.Json.Fragment

namespace AnimatedChart

open Json Reader

namespace Json

namespace Fragment

theorem Spelled.isFinite {f : Fragment} (h : f.Spelled) : f.isFinite = true := by
  induction f with
  | null | bool _ | string _ => rfl
  | number l =>
    obtain ⟨m, hm, hl | hl⟩ := h
    · rw [Fragment.isFinite, hl]
      exact hm.last []
    · rw [Fragment.isFinite, hl]
      exact hm.last ['-']
  | array fs blanks ih => exact areFinite_iff.mpr fun f hf => ih f hf (spelledAll_iff.mp h f hf)
  | object ms blanks ih => exact membersAreFinite_iff.mpr fun m hm => ih m hm (spelledMembers_iff.mp h m hm).2

theorem isFinite_bare (f : Fragment) : f.bare.isFinite = f.isFinite := by
  induction f with
  | null | bool _ | number _ | string _ => rfl
  | array fs blanks ih =>
    rw [bare, isFinite, isFinite, bareAll_eq_map, Bool.eq_iff_iff, areFinite_iff, areFinite_iff, forall_mem_map]
    exact forall₂_congr fun f hf => by rw [ih f hf]
  | object ms blanks ih =>
    rw [bare, isFinite, isFinite, bareMembers_eq_map, Bool.eq_iff_iff, membersAreFinite_iff, membersAreFinite_iff,
      forall_mem_map]
    exact forall₂_congr fun m hm => by rw [ih m hm]

end Fragment
end Json

/-! ## Writing and blanks -/

theorem Dataset.bare_toFragment_bare (d : Dataset) : d.bare.toFragment.bare = d.toFragment.bare :=
  bare_recordWith_congr rfl

theorem Handler.bare_toFragment_bare (h : Handler) : h.bare.toFragment.bare = h.toFragment.bare :=
  bare_recordWith_congr rfl

theorem Signal.bare_toFragment_bare (s : Signal) : s.bare.toFragment.bare = s.toFragment.bare :=
  bare_recordWith_forall₂ <| .cons ⟨rfl, rfl⟩ <| .cons ⟨rfl, rfl⟩ <| .cons ⟨rfl, rfl⟩ <| .cons ⟨rfl, rfl⟩ <|
    .cons ⟨rfl, bare_listed fun x _ => x.bare_toFragment_bare⟩ <| .cons ⟨rfl, rfl⟩ .nil

theorem Scale.bare_toFragment_bare (s : Scale) : s.bare.toFragment.bare = s.toFragment.bare :=
  bare_recordWith_congr rfl

theorem Facet.bare_toFragment_bare (c : Facet) : c.bare.toFragment.bare = c.toFragment.bare :=
  bare_recordWith_congr rfl

theorem MarkSource.bare_toFragment_bare (s : MarkSource) : s.bare.toFragment.bare = s.toFragment.bare := by
  have hfacet : Option.map Fragment.bare ((s.facet.map Facet.bare).map Facet.toFragment)
      = Option.map Fragment.bare (s.facet.map Facet.toFragment) := by
    cases s.facet with
    | none => rfl
    | some c => exact congrArg some c.bare_toFragment_bare
  exact @Fragment.bare_recordWith_forall₂ _ _ [] (.cons ⟨rfl, rfl⟩ (.cons ⟨rfl, hfacet⟩ .nil))

namespace Mark

theorem bare_source (o : Option MarkSource) :
    Option.map Fragment.bare ((o.map MarkSource.bare).map MarkSource.toFragment)
      = Option.map Fragment.bare (o.map MarkSource.toFragment) := by
  cases o with
  | none => rfl
  | some s => exact congrArg some s.bare_toFragment_bare

theorem bare_toFragment_bare (m : Mark) : m.bare.toFragment.bare = m.toFragment.bare := by
  induction m with
  | step m ih =>
    obtain ⟨name, type, source, clip, encode, data, signals, scales, marks, others⟩ := m
    rw [bare, bareAll_eq_map, toFragment, toFragment, toFragments_eq_map, toFragments_eq_map]
    exact Fragment.bare_recordWith_forall₂ <| .cons ⟨rfl, rfl⟩ <| .cons ⟨rfl, rfl⟩ <| .cons ⟨rfl, bare_source source⟩ <|
      .cons ⟨rfl, rfl⟩ <| .cons ⟨rfl, rfl⟩ <| .cons ⟨rfl, Fragment.bare_listed fun x _ => x.bare_toFragment_bare⟩ <|
      .cons ⟨rfl, Fragment.bare_listed fun x _ => x.bare_toFragment_bare⟩ <|
      .cons ⟨rfl, Fragment.bare_listed fun x _ => x.bare_toFragment_bare⟩ <|
      .cons ⟨rfl, Fragment.bare_listed ih⟩ .nil

end Mark

theorem Graph.bare_toFragment_bare (g : Graph) : g.bare.toFragment.bare = g.toFragment.bare := by
  rw [toFragment, toFragment, Mark.toFragments_eq_map, Mark.toFragments_eq_map]
  exact bare_recordWith_forall₂ <| .cons ⟨rfl, bare_listed fun x _ => x.bare_toFragment_bare⟩ <|
    .cons ⟨rfl, bare_listed fun x _ => x.bare_toFragment_bare⟩ <|
    .cons ⟨rfl, bare_listed fun x _ => x.bare_toFragment_bare⟩ <|
    .cons ⟨rfl, bare_listed fun x _ => x.bare_toFragment_bare⟩ .nil

/-! ## Entries of JSON values -/

/-- The dataset holds JSON values, and its further members are named like no field. -/
structure Dataset.IsJson (d : Dataset) : Prop extends d.Sound where
  spelled : ∀ e ∈ d.others, e.2.Spelled

theorem Dataset.IsJson.spelled_toFragment {d : Dataset} (h : d.IsJson) : d.toFragment.Spelled :=
  Dataset.closed_toFragment spelled_closed h.source h.values (fun t ht => (h.transform t ht).1) h.spelled

/-- The handler holds JSON values, and its further members are named like no field. -/
structure Handler.IsJson (h : Handler) : Prop extends h.Sound where
  spelled : ∀ e ∈ h.others, e.2.Spelled

theorem Handler.IsJson.spelled_toFragment {h : Handler} (hh : h.IsJson) : h.toFragment.Spelled :=
  Handler.closed_toFragment spelled_closed hh.events hh.spelled

/-- The signal holds JSON values, and further members are named like no field. -/
structure Signal.IsJson (s : Signal) : Prop where
  value : s.value.Plain
  bind : s.bind.Plain
  on : ∀ h ∈ s.on, h.IsJson
  others : Foreign names s.others
  spelled : ∀ e ∈ s.others, e.2.Spelled

theorem Signal.IsJson.sound {s : Signal} (h : s.IsJson) : s.Sound :=
  ⟨h.value, h.bind, fun a ha => (h.on a ha).toSound, h.others⟩

theorem Signal.IsJson.spelled_toFragment {s : Signal} (h : s.IsJson) : s.toFragment.Spelled :=
  Signal.closed_toFragment spelled_closed h.value h.bind (fun x hx => (h.on x hx).spelled_toFragment) h.spelled

/-- The scale holds JSON values, and its further members are named like no field. -/
structure Scale.IsJson (s : Scale) : Prop extends s.Sound where
  spelled : ∀ e ∈ s.others, e.2.Spelled

theorem Scale.IsJson.spelled_toFragment {s : Scale} (h : s.IsJson) : s.toFragment.Spelled :=
  Scale.closed_toFragment spelled_closed h.domain h.domainRaw h.range h.align h.spelled

/-- The facet holds JSON values, and its further members are named like no field. -/
structure Facet.IsJson (c : Facet) : Prop extends c.Sound where
  spelled : ∀ e ∈ c.others, e.2.Spelled

theorem Facet.IsJson.spelled_toFragment {c : Facet} (h : c.IsJson) : c.toFragment.Spelled :=
  Facet.closed_toFragment spelled_closed h.groupby h.spelled

namespace Mark

/-- What a mark holds by itself are JSON values, and further members are named like no field. -/
structure IsJson (m : Mark) : Prop where
  source : ∀ s ∈ m.source, ∀ c ∈ s.facet, c.IsJson
  clip : m.clip.Plain
  sorted : Dict.Sorted m.encode
  blocks : ∀ b ∈ m.encode, b.2.Plain ∧ b.2.IsBlock
  data : ∀ d ∈ m.data, d.IsJson
  signals : ∀ s ∈ m.signals, s.IsJson
  scales : ∀ s ∈ m.scales, s.IsJson
  others : Foreign fieldNames m.others
  spelled : ∀ e ∈ m.others, e.2.Spelled

theorem IsJson.entry {m : Mark} (h : m.IsJson) : m.Entry where
  source := fun s hs c hc => (h.source s hs c hc).toSound
  clip := h.clip
  sorted := h.sorted
  blocks := h.blocks
  data := fun d hd => (h.data d hd).toSound
  signals := fun s hs => (h.signals s hs).sound
  scales := fun s hs => (h.scales s hs).toSound
  others := h.others

theorem spelled_toFragment {m : Mark} (h : All IsJson m) : m.toFragment.Spelled := by
  induction m with
  | step m ih =>
    obtain ⟨hm, hmarks⟩ := all_iff.mp h
    exact closed_toFragment spelled_closed (fun s hs c hc => (hm.source s hs c hc).spelled_toFragment) hm.clip
      (fun b hb => (hm.blocks b hb).1) (fun d hd => (hm.data d hd).spelled_toFragment)
      (fun s hs => (hm.signals s hs).spelled_toFragment) (fun s hs => (hm.scales s hs).spelled_toFragment)
      (fun x hx => ih x hx (hmarks x hx)) hm.spelled

end Mark

/-! ## Graphs of JSON values -/

namespace Graph

/-- All that the graph holds, at any depth, are JSON values, and further members are named like no field of what has
them, up to case. -/
structure IsJson (g : Graph) : Prop where
  data : ∀ d ∈ g.data, d.IsJson
  signals : ∀ s ∈ g.signals, s.IsJson
  scales : ∀ s ∈ g.scales, s.IsJson
  marks : ∀ m ∈ g.marks, Mark.All Mark.IsJson m
  others : Foreign names g.others
  spelled : ∀ e ∈ g.others, e.2.Spelled

variable {g g' : Graph}

theorem spelled_toFragment (h : g.IsJson) : g.toFragment.Spelled :=
  closed_toFragment spelled_closed (fun d hd => (h.data d hd).spelled_toFragment)
    (fun s hs => (h.signals s hs).spelled_toFragment) (fun s hs => (h.scales s hs).spelled_toFragment)
    (fun m hm => Mark.spelled_toFragment (h.marks m hm)) h.spelled

theorem read_toFragment (h : g.IsJson) : read g.toFragment = .ok g := by
  have hmarks : ∀ m ∈ g.marks, Mark.read m.toFragment = .ok m := fun m hm =>
    Mark.read_toFragment ((h.marks m hm).imp fun _ => Mark.IsJson.entry)
  rw [read, toFragment, Mark.toFragments_eq_map]
  refine (readEntry_written schema { g with others := [] } h.others (by rfl) ?_ (by rfl)).trans rfl
  exact .cons ⟨rfl, restores_entries (fun d hd => Dataset.read_toFragment (h.data d hd).toSound) _⟩
    (.cons ⟨rfl, restores_entries (fun s hs => Signal.read_toFragment (h.signals s hs).sound) _⟩
    (.cons ⟨rfl, restores_entries (fun s hs => Scale.read_toFragment (h.scales s hs).toSound) _⟩
    (.cons ⟨rfl, restores_entries hmarks _⟩ .nil)))

theorem encode_of_bare_eq (h : g'.bare = g.bare) : g'.encode = g.encode := by
  have hbare : g'.toFragment.bare = g.toFragment.bare := by rw [← bare_toFragment_bare, h, bare_toFragment_bare]
  have hfinite : g'.toFragment.isFinite = g.toFragment.isFinite := by rw [← isFinite_bare, hbare, isFinite_bare]
  have hshallow : g'.toFragment.isShallow = g.toFragment.isShallow := by
    rw [isShallow, isShallow, ← depth_bare, hbare, depth_bare]
  have hrender : g'.render = g.render := pretty_of_bare_eq hbare
  rw [encode, encode, hfinite, hshallow, hrender]

theorem parse_render (h : g.IsJson) (hshallow : g.toFragment.isShallow = true) :
    ∃ g', parse g.render = .ok g' ∧ g'.bare = g.bare := by
  obtain ⟨f, hbare, hf⟩ := parse_pretty (spelled_toFragment h) ((fits_zero _).trans hshallow)
  -- Both fragments are read alike, up to blanks, and one of them is read as the graph.
  have hread : (read f).map bare = .ok g.bare := by
    rw [← read_bare, hbare, read_bare, read_toFragment h]
    rfl
  obtain ⟨g', hg', heq⟩ := map_eq_ok.mp hread
  refine ⟨g', ?_, heq⟩
  unfold parse
  rw [render, parseFirst_of_parse hf]
  exact mapError_eq_ok.mpr hg'

/-- Encoding is stable. A graph of JSON values that nests no deeper than documents may is written with a text that is
read again, as the graph up to blanks, and what is read is written with the same text. A graph that nests deeper is not
written at all. -/
theorem encode_again (h : g.IsJson) :
    if g.toFragment.depth ≤ maxDepth then
      ∃ text g', g.encode = .ok text ∧ parse text = .ok g' ∧ g'.bare = g.bare ∧ g'.encode = .ok text
    else ∃ e, g.encode = .error e := by
  split
  · next hdepth =>
    have hshallow : g.toFragment.isShallow = true := decide_eq_true hdepth
    have hencode : g.encode = .ok g.render :=
      encode_eq_ok.mpr ⟨(spelled_toFragment h).isFinite, hshallow, rfl⟩
    obtain ⟨g', hparse, hbare⟩ := parse_render h hshallow
    exact ⟨g.render, g', hencode, hparse, hbare, (encode_of_bare_eq hbare).trans hencode⟩
  · next hdepth =>
    have hdeep : g.toFragment.isShallow = false := decide_eq_false hdepth
    exact ⟨_, by rw [encode, hdeep, Bool.and_false]; rfl⟩

def yearly : Graph where
  data := [{ name := "source", values := .array [.object [("year", .number 2000)]], transform := [.null] }]
  signals := [{ name := "clock", value := .number 0, on := [{ events := .string "timer", update := "clock + 1" }] }]
  scales := [{ name := "x", type := "linear", align := some 0.5 }]
  marks := [⟨"years", "group", some { facet := some { name := "year", data := "source" } }, .bool true, [], [], [], [],
    [⟨"points", "symbol", none, .null, [("enter", .object [])], [], [], [], [], []⟩], [("axes", .array [] [" "])]⟩]
  others := [("padding", .number "1.50")]

theorem spelled_padding : (number "1.50").Spelled :=
  ⟨_, ⟨['1'], ['.', '5', '0'], [], rfl, .inr ⟨⟨by simp, rfl⟩, by decide⟩, .inr ⟨_, rfl, by simp, rfl⟩, .inl rfl⟩, .inl rfl⟩

theorem isJson_yearly : yearly.IsJson where
  data := by
    simp only [yearly, forall_mem_singleton]
    refine ⟨⟨trivial, ⟨⟨by decide, ?_, trivial⟩, trivial⟩, by simp [Value.Plain, Value.IsBlock], .nil _⟩, by simp⟩
    exact (⟨by decide +kernel, by decide +kernel⟩ : Decimal.IsFinite 2000)
  signals := by
    simp only [yearly, forall_mem_singleton]
    refine ⟨(⟨by decide +kernel, by decide +kernel⟩ : Decimal.IsFinite 0), trivial, ?_, .nil _, by simp⟩
    simp only [forall_mem_singleton]
    exact ⟨⟨trivial, .nil _⟩, by simp⟩
  scales := by
    simp only [yearly, forall_mem_singleton]
    refine ⟨⟨trivial, trivial, trivial, ?_, .nil _⟩, by simp⟩
    rintro _ ⟨⟩
    exact (⟨by decide +kernel, by decide +kernel⟩ : Decimal.IsFinite 0.5)
  marks := by
    simp only [yearly, forall_mem_singleton]
    have haxes : Foreign Mark.fieldNames [("axes", .array [] [" "])] :=
      ⟨by decide, by simp [Proper, Spelled, SpelledAll], by decide⟩
    refine ⟨?_, ⟨?_, trivial⟩, trivial⟩
    · refine ⟨?_, trivial, by decide, by simp, by simp, by simp, by simp, haxes,
        by simp [Spelled, SpelledAll]⟩
      rintro _ ⟨⟩ _ ⟨⟩
      exact ⟨⟨trivial, .nil _⟩, by simp⟩
    · refine ⟨by simp, trivial, by decide, ?_, by simp, by simp, by simp, .nil _, by simp⟩
      simp [Value.Plain, Value.PlainMembers, Value.IsBlock, Dict.Sorted]
  others := ⟨by decide, forall_mem_singleton.mpr spelled_padding.proper, by decide⟩
  spelled := forall_mem_singleton.mpr spelled_padding

theorem encode_again_yearly : ∃ text g', yearly.encode = .ok text ∧ parse text = .ok g' ∧ g'.encode = .ok text := by
  have hdepth : yearly.toFragment.depth ≤ maxDepth := by decide +kernel
  have hagain := encode_again isJson_yearly
  rw [if_pos hdepth] at hagain
  obtain ⟨text, g', hencode, hparse, -, hencode'⟩ := hagain
  exact ⟨text, g', hencode, hparse, hencode'⟩

def nested : Nat → Value
  | 0 => .array []
  | n + 1 => .array [nested n]

def deep (n : Nat) : Graph where
  data := [{ name := "source", values := nested n }]

theorem plain_nested (n : Nat) : (nested n).Plain := by
  induction n with
  | zero => exact trivial
  | succ n ih => exact ⟨ih, trivial⟩

theorem depth_nested (n : Nat) : (nested n).toFragment.depth = n + 1 := by
  induction n with
  | zero => rfl
  | succ n ih =>
    show 1 + max (nested n).toFragment.depth 0 = _
    omega

theorem isSome_nested (n : Nat) : (nested n).isSome = true := by cases n <;> rfl

theorem isJson_deep (n : Nat) : (deep n).IsJson where
  data := forall_mem_singleton.mpr ⟨⟨trivial, plain_nested n, by simp, .nil _⟩, by simp⟩
  signals := nofun
  scales := nofun
  marks := nofun
  others := .nil _
  spelled := nofun

theorem lt_depth_deep (n : Nat) : n + 3 < (deep n).toFragment.depth := by
  let d : Dataset := { name := "source", values := nested n }
  have hdataset : Reader.Distinct Dataset.names := by decide
  have hnames : Reader.Distinct names := by decide
  have hvalues : n + 1 < d.toFragment.depth := by
    rw [← depth_nested n]
    refine Fragment.depth_lt_recordWith (k := "values") Dict.Sorted.nil (by exact hdataset) ?_
    simp [d, isSome_nested]
  have hlist : d.toFragment.depth < (Fragment.list [d.toFragment]).depth :=
    Fragment.depth_lt_list mem_cons_self
  have hgraph : (Fragment.list [d.toFragment]).depth < (deep n).toFragment.depth :=
    Fragment.depth_lt_recordWith (k := "data") Dict.Sorted.nil (by exact hnames) mem_cons_self
  omega

/-- A graph of JSON values that nests too deep has no text. -/
theorem encode_deep : (deep 9997).IsJson ∧ ∃ e, (deep 9997).encode = .error e := by
  have hdepth : ¬(deep 9997).toFragment.depth ≤ maxDepth := Nat.not_le_of_lt (lt_depth_deep 9997)
  have hdeep : (deep 9997).toFragment.isShallow = false := decide_eq_false hdepth
  exact ⟨isJson_deep 9997, _, by rw [encode, hdeep, Bool.and_false]; rfl⟩

end Graph

end AnimatedChart

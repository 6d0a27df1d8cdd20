import AnimatedChart.Proofs.Dependency.Unresolved
import AnimatedChart.Proofs.Json.Values
import Mathlib.Logic.Relation

/-!
# Who mentions and who defines a name

Datasets, signals, scales and marks stand side by side at the top level of a graph and inside each of its marks
(`Siblings`).
-/

open List

namespace AnimatedChart.Dependency

open Json Relation

variable {data : List Dataset} {group : String} {r : Ref} {scales : List Scale} {signals : List Signal} {v : Value}
  {x : Mention}

/-! ## Values -/

/-- A free value mentions a name somewhere inside it: in an expression, or by a key that holds a name. -/
inductive ValueMentions : Value → Ref → Prop
  | item {vs : List Value} {v : Value} {r : Ref} (hv : v ∈ vs) (h : ValueMentions v r) : ValueMentions (.array vs) r
  | member {ms : Dict Value} {k : String} {v : Value} {r : Ref} (hv : (k, v) ∈ ms) (hk : k ≠ "values")
      (h : ValueMentions v r) : ValueMentions (.object ms) r
  | expression {ms : Dict Value} {k e : String} {r : Ref} (he : (k, .string e) ∈ ms)
      (hk : k = "signal" ∨ k = "expr" ∨ k = "test") (h : r ∈ references e) : ValueMentions (.object ms) r
  | scale {ms : Dict Value} {n : String} (hn : ("scale", .string n) ∈ ms) : ValueMentions (.object ms) ⟨.scale, n⟩
  | data {ms : Dict Value} {k n : String} (hn : (k, .string n) ∈ ms) (hk : k = "data" ∨ k = "from") :
      ValueMentions (.object ms) ⟨.data, n⟩

def FragmentMentions (f : Fragment) (r : Ref) : Prop := ∃ v, Value.ofFragment f = (v, true) ∧ ValueMentions v r

theorem mem_keyRefs {k : String} : r ∈ keyRefs k v ↔
    (∃ e, v = .string e ∧ ((k = "signal" ∨ k = "expr" ∨ k = "test") ∧ r ∈ references e
      ∨ k = "scale" ∧ r = ⟨.scale, e⟩ ∨ (k = "data" ∨ k = "from") ∧ r = ⟨.data, e⟩))
      ∨ k ≠ "values" ∧ r ∈ valueRefs v := by
  cases v with
  | string e =>
    simp only [keyRefs, valueRefs]
    grind
  | _ =>
    simp only [keyRefs, reduceCtorEq, false_and, exists_false, false_or]
    split
    all_goals simp [*]

theorem ValueMentions.of_mem (v : Value) : ∀ r ∈ valueRefs v, ValueMentions v r := by
  induction v with
  | object ms ih =>
    intro r hr
    obtain ⟨⟨k, v⟩, hm, hr⟩ := mem_memberRefs.mp hr
    rcases mem_keyRefs.mp hr with ⟨e, rfl, ⟨hk, hr⟩ | ⟨rfl, rfl⟩ | ⟨hk, rfl⟩⟩ | ⟨hk, hr⟩
    · exact .expression hm hk hr
    · exact .scale hm
    · exact .data hm hk
    · exact .member hm hk (ih (k, v) hm r hr)
  | array vs ih =>
    intro r hr
    obtain ⟨v, hv, hr⟩ := mem_itemRefs.mp hr
    exact .item hv (ih v hv r hr)
  | _ => exact nofun

theorem ValueMentions.mem (h : ValueMentions v r) : r ∈ valueRefs v := by
  induction h with
  | item hv _ ih => exact mem_itemRefs.mpr ⟨_, hv, ih⟩
  | member hv hk _ ih => exact mem_memberRefs.mpr ⟨_, hv, mem_keyRefs.mpr (.inr ⟨hk, ih⟩)⟩
  | expression he hk h => exact mem_memberRefs.mpr ⟨_, he, mem_keyRefs.mpr (.inl ⟨_, rfl, .inl ⟨hk, h⟩⟩)⟩
  | scale hn => exact mem_memberRefs.mpr ⟨_, hn, mem_keyRefs.mpr (.inl ⟨_, rfl, .inr (.inl ⟨rfl, rfl⟩)⟩)⟩
  | data hn hk => exact mem_memberRefs.mpr ⟨_, hn, mem_keyRefs.mpr (.inl ⟨_, rfl, .inr (.inr ⟨hk, rfl⟩)⟩)⟩

theorem mem_valueRefs : r ∈ valueRefs v ↔ ValueMentions v r :=
  ⟨ValueMentions.of_mem v r, ValueMentions.mem⟩

theorem mem_fragmentRefs {f : Fragment} : r ∈ fragmentRefs f ↔ FragmentMentions f r := by
  unfold fragmentRefs FragmentMentions
  split
  · next v hv => simp only [hv, Prod.mk.injEq, and_true, exists_eq_left', mem_valueRefs]
  · next hv =>
    refine ⟨by simp, ?_⟩
    rintro ⟨v, hread, -⟩
    exact absurd hread (hv v)

/-! ## Parts -/

/-- A dataset mentions its sources, and what its transforms mention. -/
inductive DatasetMentions (d : Dataset) : Ref → Prop
  | source {n : String} (h : d.source = .string n) : DatasetMentions d ⟨.data, n⟩
  | sources {vs : List Value} {n : String} (h : d.source = .array vs) (hn : .string n ∈ vs) :
      DatasetMentions d ⟨.data, n⟩
  | transform {t : Value} {r : Ref} (ht : t ∈ d.transform) (h : ValueMentions t r) : DatasetMentions d r

/-- A signal mentions what its expressions refer to, and what its events mention. -/
inductive SignalMentions (s : Signal) : Ref → Prop
  | init {r : Ref} (h : r ∈ references s.init) : SignalMentions s r
  | update {r : Ref} (h : r ∈ references s.update) : SignalMentions s r
  | events {x : Handler} {r : Ref} (hx : x ∈ s.on) (h : ValueMentions x.events r) : SignalMentions s r
  | handler {x : Handler} {r : Ref} (hx : x ∈ s.on) (h : r ∈ references x.update) : SignalMentions s r

inductive ScaleMentions (s : Scale) : Ref → Prop
  | domain {r : Ref} (h : ValueMentions s.domain r) : ScaleMentions s r
  | domainRaw {r : Ref} (h : ValueMentions s.domainRaw r) : ScaleMentions s r
  | range {r : Ref} (h : ValueMentions s.range r) : ScaleMentions s r
  | others {k : String} {f : Fragment} {r : Ref} (hf : (k, f) ∈ s.others) (h : FragmentMentions f r) : ScaleMentions s r

/-- A mark mentions the dataset or the facet that it draws, and what its encode blocks mention. -/
inductive MarkMentions (m : Mark) : Ref → Prop
  | data {s : MarkSource} (h : m.source = some s) : MarkMentions m ⟨.data, s.data⟩
  | facet {s : MarkSource} {f : Facet} (h : m.source = some s) (hf : s.facet = some f) : MarkMentions m ⟨.data, f.name⟩
  | encode {k : String} {v : Value} {r : Ref} (hv : (k, v) ∈ m.encode) (h : ValueMentions v r) : MarkMentions m r
  | others {k : String} {f : Fragment} {r : Ref} (hf : (k, f) ∈ m.others) (h : FragmentMentions f r) : MarkMentions m r

theorem mem_othersRefs {others : Dict Fragment} :
    r ∈ othersRefs others ↔ ∃ k f, (k, f) ∈ others ∧ FragmentMentions f r := by
  simp only [othersRefs, mem_flatMap, Prod.exists, mem_fragmentRefs]

theorem mem_datasetRefs {d : Dataset} : r ∈ datasetRefs d ↔ DatasetMentions d r := by
  simp only [datasetRefs, mem_append, mem_flatMap, mem_valueRefs]
  constructor
  · rintro (h | ⟨t, ht, h⟩)
    · split at h
      · next n hn =>
        rw [mem_singleton.mp h]
        exact .source hn
      · next vs hvs =>
        obtain ⟨n, hn, rfl⟩ := mem_map.mp h
        obtain ⟨v, hv, htext⟩ := mem_filterMap.mp hn
        cases v with
        | string e =>
          cases htext
          exact .sources hvs hv
        | _ => cases htext
      · cases h
    · exact .transform ht h
  · rintro (hn | ⟨hvs, hn⟩ | ⟨ht, h⟩)
    · left
      rw [hn]
      exact mem_singleton_self _
    · left
      rw [hvs]
      exact mem_map_of_mem (mem_filterMap.mpr ⟨_, hn, rfl⟩)
    · exact .inr ⟨_, ht, h⟩

theorem mem_signalRefs {s : Signal} : r ∈ signalRefs s ↔ SignalMentions s r := by
  simp only [signalRefs, mem_append, mem_flatMap, mem_valueRefs]
  constructor
  · rintro ((h | h) | ⟨x, hx, h | h⟩)
    · exact .init h
    · exact .update h
    · exact .events hx h
    · exact .handler hx h
  · rintro (h | h | ⟨hx, h⟩ | ⟨hx, h⟩)
    · exact .inl (.inl h)
    · exact .inl (.inr h)
    · exact .inr ⟨_, hx, .inl h⟩
    · exact .inr ⟨_, hx, .inr h⟩

theorem mem_scaleRefs {s : Scale} : r ∈ scaleRefs s ↔ ScaleMentions s r := by
  simp only [scaleRefs, mem_append, mem_valueRefs, mem_othersRefs]
  constructor
  · rintro (((h | h) | h) | ⟨k, f, hf, h⟩)
    · exact .domain h
    · exact .domainRaw h
    · exact .range h
    · exact .others hf h
  · rintro (h | h | h | ⟨hf, h⟩)
    · exact .inl (.inl (.inl h))
    · exact .inl (.inl (.inr h))
    · exact .inl (.inr h)
    · exact .inr ⟨_, _, hf, h⟩

/-! ## Siblings side by side -/

/-- Datasets, signals, scales and marks that stand side by side, with the name of the group around them. -/
structure Siblings where
  /-- Empty at the top level. -/
  group : String
  data : List Dataset
  signals : List Signal
  scales : List Scale
  marks : List Mark

namespace Siblings

def ofGraph (g : Graph) : Siblings := ⟨"", g.data, g.signals, g.scales, g.marks⟩

def inside (group : String) (i : Nat) (m : Mark) : Siblings :=
  ⟨(markRef group i m).name, m.data, m.signals, m.scales, m.marks⟩

def Encloses (es es' : Siblings) : Prop := ∃ i m, es.marks[i]? = some m ∧ es' = inside es.group i m

/-- The names that entries define, those inside marks apart. -/
inductive Defines (es : Siblings) : Ref → Prop
  | dataset {d : Dataset} (h : d ∈ es.data) : Defines es ⟨.data, d.name⟩
  | signal {s : Signal} (h : s ∈ es.signals) : Defines es ⟨.signal, s.name⟩
  | scale {s : Scale} (h : s ∈ es.scales) : Defines es ⟨.scale, s.name⟩
  | mark {i : Nat} {m : Mark} (h : es.marks[i]? = some m) : Defines es (markRef es.group i m)
  | facet {m : Mark} {s : MarkSource} {f : Facet} (h : m ∈ es.marks) (hs : m.source = some s) (hf : s.facet = some f) :
      Defines es ⟨.data, f.name⟩

/-- What entries mention, those inside marks apart. -/
inductive Mentions (es : Siblings) : Ref → Ref → Prop
  | dataset {d : Dataset} {r : Ref} (hd : d ∈ es.data) (h : DatasetMentions d r) : Mentions es ⟨.data, d.name⟩ r
  | signal {s : Signal} {r : Ref} (hs : s ∈ es.signals) (h : SignalMentions s r) : Mentions es ⟨.signal, s.name⟩ r
  | scale {s : Scale} {r : Ref} (hs : s ∈ es.scales) (h : ScaleMentions s r) : Mentions es ⟨.scale, s.name⟩ r
  | mark {i : Nat} {m : Mark} {r : Ref} (hm : es.marks[i]? = some m) (h : MarkMentions m r) :
      Mentions es (markRef es.group i m) r
  | facet {m : Mark} {s : MarkSource} {f : Facet} (hm : m ∈ es.marks) (hs : m.source = some s) (hf : s.facet = some f) :
      Mentions es ⟨.data, f.name⟩ ⟨.data, f.data⟩

end Siblings

/-- A name is defined at the top level of a graph or inside one of its marks. -/
def Defines (g : Graph) (r : Ref) : Prop :=
  ∃ es, ReflTransGen Siblings.Encloses (.ofGraph g) es ∧ es.Defines r

/-- A part at the top level of a graph or inside one of its marks mentions a name, or a property of the graph itself
does. -/
inductive Mentions (g : Graph) : Option Ref → Ref → Prop
  | part {es : Siblings} {owner r : Ref} (hes : ReflTransGen Siblings.Encloses (.ofGraph g) es) (h : es.Mentions owner r) :
      Mentions g (some owner) r
  | others {k : String} {f : Fragment} {r : Ref} (hf : (k, f) ∈ g.others) (h : FragmentMentions f r) :
      Mentions g none r

/-! ## The lists of definitions and mentions -/

namespace Siblings

variable {es es' : Siblings}

theorem Encloses.size_lt (h : es.Encloses es') : sizeOf es'.marks < sizeOf es.marks := by
  obtain ⟨i, m, hm, rfl⟩ := h
  have hmark : sizeOf m < sizeOf es.marks := sizeOf_lt_of_mem (mem_of_getElem? hm)
  have hinside : sizeOf m.marks < sizeOf m := by
    cases m
    simp
    omega
  exact Nat.lt_trans hinside hmark

theorem collected_iff {α : Type} (collected : Siblings → α → Prop) {own : Siblings → α → Prop}
    (h : ∀ es a, collected es a ↔ own es a ∨ ∃ es', es.Encloses es' ∧ collected es' a) (es : Siblings) (a : α) :
    collected es a ↔ ∃ es', ReflTransGen Encloses es es' ∧ own es' a := by
  constructor
  · -- Marks hold smaller marks, so the search ends.
    induction hsize : sizeOf es.marks using Nat.strongRecOn generalizing es with
    | ind n ih =>
      intro ha
      rcases (h es a).mp ha with ha | ⟨es', hinside, ha⟩
      · exact ⟨es, .refl, ha⟩
      · obtain ⟨es'', hpath, ha⟩ := ih _ (hsize ▸ hinside.size_lt) es' rfl ha
        exact ⟨es'', .head hinside hpath, ha⟩
  · rintro ⟨es', hpath, ha⟩
    induction hpath using ReflTransGen.head_induction_on with
    | refl => exact (h _ a).mpr (.inl ha)
    | head hinside _ ih => exact (h _ a).mpr (.inr ⟨_, hinside, ih⟩)

def nodes (es : Siblings) : List Node :=
  entryNodes es.group es.data es.signals es.scales ++ marksNodes es.group 0 es.marks

def mentions (es : Siblings) : List Mention :=
  entryMentions es.data es.signals es.scales ++ marksMentions es.group 0 es.marks

end Siblings

theorem marksNodes_eq (group : String) (i : Nat) (ms : List Mark) :
    marksNodes group i ms = (ms.zipIdx i).flatMap fun p => markNodes group p.2 p.1 := by
  induction ms generalizing i with
  | nil => rfl
  | cons m ms ih => rw [marksNodes, ih, zipIdx_cons, flatMap_cons]

theorem marksMentions_eq (group : String) (i : Nat) (ms : List Mark) :
    marksMentions group i ms = (ms.zipIdx i).flatMap fun p => markMentions group p.2 p.1 := by
  induction ms generalizing i with
  | nil => rfl
  | cons m ms ih => rw [marksMentions, ih, zipIdx_cons, flatMap_cons]

theorem markNodes_eq (group : String) (i : Nat) (m : Mark) : markNodes group i m = [⟨markRef group i m, group, false⟩]
      ++ ((m.source.bind (·.facet)).toList.map fun f => ⟨⟨.data, f.name⟩, (markRef group i m).name, false⟩)
      ++ (Siblings.inside group i m).nodes := by
  cases m
  simp only [markNodes, Siblings.nodes, Siblings.inside, append_assoc]

theorem markMentions_eq (group : String) (i : Nat) (m : Mark) : markMentions group i m =
    sourceMentions (markRef group i m) m.source
      ++ ((m.encode.flatMap fun b => valueRefs b.2) ++ othersRefs m.others).map (⟨some (markRef group i m), ·⟩)
      ++ (Siblings.inside group i m).mentions := by
  cases m
  simp only [markMentions, Siblings.mentions, Siblings.inside, append_assoc]

theorem mem_ref_markNodes {i : Nat} {m : Mark} : r ∈ (markNodes group i m).map (·.ref) ↔
      r = markRef group i m ∨ (∃ s f, m.source = some s ∧ s.facet = some f ∧ r = ⟨.data, f.name⟩)
        ∨ r ∈ (Siblings.inside group i m).nodes.map (·.ref) := by
  have hfacet : r ∈ ((m.source.bind (·.facet)).toList.map fun f => (⟨.data, f.name⟩ : Ref))
      ↔ ∃ s f, m.source = some s ∧ s.facet = some f ∧ r = ⟨.data, f.name⟩ := by
    simp only [mem_map, Option.mem_toList, Option.bind_eq_some_iff]
    constructor
    · rintro ⟨f, ⟨s, hs, hf⟩, rfl⟩
      exact ⟨s, f, hs, hf, rfl⟩
    · rintro ⟨s, f, hs, hf, rfl⟩
      exact ⟨f, ⟨s, hs, hf⟩, rfl⟩
  rw [markNodes_eq, List.map_append, List.map_append, List.mem_append, List.mem_append, List.map_map, or_assoc]
  exact or_congr List.mem_singleton (or_congr_left hfacet)

theorem mem_sourceMentions {owner : Ref} {source : Option MarkSource} :
    x ∈ sourceMentions owner source ↔ ∃ s, source = some s ∧ (x = ⟨some owner, ⟨.data, s.data⟩⟩ ∨
      ∃ f, s.facet = some f ∧ (x = ⟨some ⟨.data, f.name⟩, ⟨.data, f.data⟩⟩ ∨ x = ⟨some owner, ⟨.data, f.name⟩⟩)) := by
  rcases source with _ | ⟨data, _ | f⟩ <;> simp [sourceMentions]

theorem mem_markMentions {i : Nat} {m : Mark} : x ∈ markMentions group i m ↔
      x.owner = some (markRef group i m) ∧ MarkMentions m x.target
        ∨ (∃ s f, m.source = some s ∧ s.facet = some f ∧ x = ⟨some ⟨.data, f.name⟩, ⟨.data, f.data⟩⟩)
        ∨ x ∈ (Siblings.inside group i m).mentions := by
  obtain ⟨owner, target⟩ := x
  simp only [markMentions_eq, mem_append, mem_sourceMentions, mem_map, mem_flatMap, mem_valueRefs,
    mem_othersRefs, Mention.mk.injEq]
  constructor
  · rintro ((⟨s, hs, ⟨rfl, rfl⟩ | ⟨f, hf, ⟨rfl, rfl⟩ | ⟨rfl, rfl⟩⟩⟩ | ⟨r, ⟨b, hb, h⟩ | ⟨k, f, hf, h⟩, rfl, rfl⟩) | h)
    · exact .inl ⟨rfl, .data hs⟩
    · exact .inr (.inl ⟨s, f, hs, hf, rfl, rfl⟩)
    · exact .inl ⟨rfl, .facet hs hf⟩
    · exact .inl ⟨rfl, .encode hb h⟩
    · exact .inl ⟨rfl, .others hf h⟩
    · exact .inr (.inr h)
  · rintro (⟨rfl, h⟩ | ⟨s, f, hs, hf, rfl, rfl⟩ | h)
    · cases h with
      | data hs => exact .inl (.inl ⟨_, hs, .inl ⟨rfl, rfl⟩⟩)
      | facet hs hf => exact .inl (.inl ⟨_, hs, .inr ⟨_, hf, .inr ⟨rfl, rfl⟩⟩⟩)
      | encode hv h => exact .inl (.inr ⟨_, .inl ⟨_, hv, h⟩, rfl, rfl⟩)
      | others hf h => exact .inl (.inr ⟨_, .inr ⟨_, _, hf, h⟩, rfl, rfl⟩)
    · exact .inl (.inl ⟨s, hs, .inr ⟨f, hf, .inl ⟨rfl, rfl⟩⟩⟩)
    · exact .inr h

theorem mem_entryNames :
    r ∈ entryNames data signals scales ↔ (∃ d ∈ data, ⟨.data, d.name⟩ = r) ∨ (∃ s ∈ signals, ⟨.signal, s.name⟩ = r)
      ∨ ∃ s ∈ scales, ⟨.scale, s.name⟩ = r := by
  simp only [entryNames, mem_append, mem_map, or_assoc]

theorem mem_entryMentions : x ∈ entryMentions data signals scales ↔
      (∃ d ∈ data, x.owner = some ⟨.data, d.name⟩ ∧ DatasetMentions d x.target)
        ∨ (∃ s ∈ signals, x.owner = some ⟨.signal, s.name⟩ ∧ SignalMentions s x.target)
        ∨ ∃ s ∈ scales, x.owner = some ⟨.scale, s.name⟩ ∧ ScaleMentions s x.target := by
  have hone {owner : Ref} {rs : List Ref} {p : Ref → Prop} (h : ∀ r, r ∈ rs ↔ p r) :
      x ∈ rs.map (⟨some owner, ·⟩) ↔ x.owner = some owner ∧ p x.target := by
    obtain ⟨o, t⟩ := x
    simp only [mem_map, Mention.mk.injEq, ← h]
    constructor
    · rintro ⟨r, hr, rfl, rfl⟩
      exact ⟨rfl, hr⟩
    · rintro ⟨rfl, ht⟩
      exact ⟨t, ht, rfl, rfl⟩
  simp only [entryMentions, mem_append, mem_flatMap, or_assoc, hone fun _ => mem_datasetRefs,
    hone fun _ => mem_signalRefs, hone fun _ => mem_scaleRefs]

namespace Siblings

theorem mem_nodes (es : Siblings) (r : Ref) : r ∈ es.nodes.map (·.ref) ↔
    es.Defines r ∨ ∃ es', es.Encloses es' ∧ r ∈ es'.nodes.map (·.ref) := by
  rw [nodes, map_append, mem_append, ref_entryNodes, marksNodes_eq, map_flatMap, mem_flatMap]
  simp only [mem_ref_markNodes, Prod.exists, mem_zipIdx_iff_getElem?, mem_entryNames]
  constructor
  · rintro ((⟨d, hd, rfl⟩ | ⟨s, hs, rfl⟩ | ⟨s, hs, rfl⟩) | ⟨m, i, hm, rfl | ⟨s, f, hs, hf, rfl⟩ | h⟩)
    · exact .inl (.dataset hd)
    · exact .inl (.signal hs)
    · exact .inl (.scale hs)
    · exact .inl (.mark hm)
    · exact .inl (.facet (mem_of_getElem? hm) hs hf)
    · exact .inr ⟨_, ⟨i, m, hm, rfl⟩, h⟩
  · rintro (h | ⟨_, ⟨i, m, hm, rfl⟩, h⟩)
    · cases h with
      | dataset hd => exact .inl (.inl ⟨_, hd, rfl⟩)
      | signal hs => exact .inl (.inr (.inl ⟨_, hs, rfl⟩))
      | scale hs => exact .inl (.inr (.inr ⟨_, hs, rfl⟩))
      | mark hm => exact .inr ⟨_, _, hm, .inl rfl⟩
      | facet hm hs hf =>
        obtain ⟨i, hm⟩ := mem_iff_getElem?.mp hm
        exact .inr ⟨_, i, hm, .inr (.inl ⟨_, _, hs, hf, rfl⟩)⟩
    · exact .inr ⟨m, i, hm, .inr (.inr h)⟩

theorem mem_mentions (es : Siblings) (x : Mention) : x ∈ es.mentions ↔
    (∃ owner, x.owner = some owner ∧ es.Mentions owner x.target) ∨ ∃ es', es.Encloses es' ∧ x ∈ es'.mentions := by
  rw [mentions, mem_append, mem_entryMentions, marksMentions_eq, mem_flatMap]
  simp only [mem_markMentions, Prod.exists, mem_zipIdx_iff_getElem?]
  constructor
  · rintro ((⟨d, hd, ho, h⟩ | ⟨s, hs, ho, h⟩ | ⟨s, hs, ho, h⟩) | ⟨m, i, hm, ⟨ho, h⟩ | ⟨s, f, hs, hf, rfl⟩ | h⟩)
    · exact .inl ⟨_, ho, .dataset hd h⟩
    · exact .inl ⟨_, ho, .signal hs h⟩
    · exact .inl ⟨_, ho, .scale hs h⟩
    · exact .inl ⟨_, ho, .mark hm h⟩
    · exact .inl ⟨_, rfl, .facet (mem_of_getElem? hm) hs hf⟩
    · exact .inr ⟨_, ⟨i, m, hm, rfl⟩, h⟩
  · rintro (⟨owner, ho, h⟩ | ⟨_, ⟨i, m, hm, rfl⟩, h⟩)
    · obtain ⟨_, target⟩ := x
      obtain rfl := ho
      cases h with
      | dataset hd h => exact .inl (.inl ⟨_, hd, rfl, h⟩)
      | signal hs h => exact .inl (.inr (.inl ⟨_, hs, rfl, h⟩))
      | scale hs h => exact .inl (.inr (.inr ⟨_, hs, rfl, h⟩))
      | mark hm h => exact .inr ⟨_, _, hm, .inl ⟨rfl, h⟩⟩
      | facet hm hs hf =>
        obtain ⟨i, hm⟩ := mem_iff_getElem?.mp hm
        exact .inr ⟨_, i, hm, .inr (.inl ⟨_, _, hs, hf, rfl⟩)⟩
    · exact .inr ⟨m, i, hm, .inr (.inr h)⟩

end Siblings

theorem mem_definitions_iff (g : Graph) (r : Ref) : r ∈ (definitions g).map (·.ref) ↔ Defines g r :=
  Siblings.collected_iff (fun es r => r ∈ es.nodes.map (·.ref)) Siblings.mem_nodes (.ofGraph g) r

theorem mem_mentions_iff (g : Graph) (x : Mention) : x ∈ mentions g ↔ Mentions g x.owner x.target := by
  have hparts := Siblings.collected_iff (fun es x => x ∈ es.mentions) Siblings.mem_mentions (.ofGraph g) x
  obtain ⟨owner, target⟩ := x
  rw [mentions, mem_append]
  constructor
  · rintro (h | h)
    · obtain ⟨es, hes, o, rfl, h⟩ := hparts.mp h
      exact .part hes h
    · obtain ⟨r, hr, ⟨⟩⟩ := mem_map.mp h
      obtain ⟨k, f, hf, h⟩ := mem_othersRefs.mp hr
      exact .others hf h
  · rintro (⟨hes, h⟩ | ⟨hf, h⟩)
    · exact .inl (hparts.mpr ⟨_, hes, _, rfl, h⟩)
    · exact .inr (mem_map_of_mem (mem_othersRefs.mpr ⟨_, _, hf, h⟩))

/-! ## Settled graphs -/

variable {allowed : Ref → Prop} {g : Graph} {o : Option Ref}

theorem ValueMentions.origin (h : ValueMentions v r) : (∃ e, r ∈ references e) ∨ r.kind = .scale ∨ r.kind = .data := by
  induction h with
  | item _ _ ih => exact ih
  | member _ _ _ ih => exact ih
  | expression _ _ h => exact .inl ⟨_, h⟩
  | scale => exact .inr (.inl rfl)
  | data => exact .inr (.inr rfl)

theorem ValueMentions.kind_ne (h : ValueMentions v r) : r.kind ≠ .mark := by
  rcases h.origin with ⟨e, h⟩ | h | h
  · exact kind_references r h
  · simp [h]
  · simp [h]

/-- Marks are not mentioned. -/
theorem Mentions.kind_ne (h : Mentions g o r) : r.kind ≠ .mark := by
  rcases h with ⟨-, ⟨-, h⟩ | ⟨-, h⟩ | ⟨-, h⟩ | ⟨-, h⟩ | _⟩ | ⟨-, v, -, h⟩
  · rcases h with _ | _ | ⟨-, h⟩
    · simp
    · simp
    · exact h.kind_ne
  · rcases h with h | h | ⟨-, h⟩ | ⟨-, h⟩
    · exact kind_references r h
    · exact kind_references r h
    · exact h.kind_ne
    · exact kind_references r h
  · rcases h with h | h | h | ⟨-, v, -, h⟩
    all_goals exact h.kind_ne
  · rcases h with _ | _ | ⟨-, h⟩ | ⟨-, v, -, h⟩
    · simp
    · simp
    · exact h.kind_ne
    · exact h.kind_ne
  · simp
  · exact h.kind_ne

theorem Mentions.defines_owner {owner : Ref} (h : Mentions g (some owner) r) : Defines g owner := by
  obtain ⟨hes, h⟩ := h
  refine ⟨_, hes, ?_⟩
  cases h with
  | dataset hd => exact .dataset hd
  | signal hs => exact .signal hs
  | scale hs => exact .scale hs
  | mark hm => exact .mark hm
  | facet hm hs hf => exact .facet hm hs hf

theorem settled_of_unresolved (h : ∀ m ∈ (Dependencies.ofGraph g).unresolved, allowed m.target) :
    Settled allowed g := by
  intro r hr
  rw [← target_mentions] at hr
  obtain ⟨m, hm, rfl⟩ := mem_map.mp hr
  have hmentions := (mem_mentions_iff g m).mp hm
  by_cases hdangles : Dependencies.Dangles (· ∈ (definitions g).map (·.ref)) m
  · exact .inr (.inr (.inl (h m ((Dependencies.mem_unresolved g).mpr ⟨hm, hdangles⟩))))
  · rw [Resolves, ← mem_definitions g hmentions.kind_ne]
    by_cases hself : m.owner = some m.target
    · rw [hself] at hmentions
      exact .inr (.inr (.inr ((mem_definitions_iff g _).mpr hmentions.defines_owner)))
    · unfold Dependencies.Dangles at hdangles
      by_cases hname : m.target.name = ""
      · exact .inl hname
      · by_cases hdefined : m.target ∈ (definitions g).map (·.ref)
        · exact .inr (.inr (.inr hdefined))
        · refine .inr (.inl ?_)
          rw [← Bool.not_eq_false]
          exact fun hbuiltin => hdangles ⟨hname, hself, hdefined, hbuiltin⟩

theorem Settled.unresolved (h : Settled allowed g) : ∀ m ∈ (Dependencies.ofGraph g).unresolved, allowed m.target := by
  intro m hm
  obtain ⟨hm, hname, -, hdefined, hbuiltin⟩ := (Dependencies.mem_unresolved g).mp hm
  have hr : m.target ∈ mentioned g := target_mentions g ▸ mem_map_of_mem hm
  rcases h _ hr with h | h | h | h
  · exact absurd h hname
  · rw [h] at hbuiltin
    cases hbuiltin
  · exact h
  · exact absurd ((mem_definitions g ((mem_mentions_iff g m).mp hm).kind_ne).mpr h) hdefined

end AnimatedChart.Dependency

import AnimatedChart.Dependency.Report
import AnimatedChart.Proofs.Dependency.Mentions
import Mathlib.Data.List.Nodup

/-!
# The reference check is exact

The dependencies of a graph are built by looking up one mention after the other. Still the outcome is fixed by who
mentions and who defines which name (`Exact`), so the order of datasets, signals and scales does not matter
(`references_exact`).
-/

open List

namespace AnimatedChart.Dependency

open Json Relation

namespace Dependencies

variable {d : Dependencies} {m : Mention} {ms : List Mention} {e : Edge} {r : Ref}

theorem nodup_insertNew {α : Type} [BEq α] [LawfulBEq α] {a : α} {as : List α} (h : as.Nodup) :
    (insertNew a as).Nodup := by
  unfold insertNew
  split
  · exact h
  · next hnew => exact h.append (nodup_singleton a) (by simpa using hnew)

theorem has_mention_of_has (h : d.has r = true) : (d.mention m).has r = true := by
  have hedge (d : Dependencies) : (d.addEdge m).has r = d.has r := by rw [has, has, nodes_addEdge]
  unfold mention
  split
  · exact h
  · split
    · rwa [hedge]
    · split
      · rw [hedge, has_addNode]
        exact .inl h
      · exact h

def Links (has : Ref → Prop) (e : Edge) : Prop :=
  e.source.name ≠ "" ∧ e.reader.name ≠ "" ∧ e.source ≠ e.reader ∧ (has e.source ∨ isBuiltin e.source = true)

theorem mem_edges_addEdge :
    e ∈ (d.addEdge m).edges ↔ e ∈ d.edges ∨ m = ⟨some e.reader, e.source⟩ ∧ e.reader.name ≠ "" := by
  obtain ⟨owner, target⟩ := m
  obtain ⟨source, reader⟩ := e
  cases owner with
  | none => simp [addEdge]
  | some owner =>
    simp only [addEdge]
    split
    · next h =>
      rw [String.isEmpty_iff] at h
      refine (or_iff_left ?_).symm
      rintro ⟨heq, hne⟩
      obtain ⟨⟨⟩, ⟨⟩⟩ := heq
      exact hne h
    · next h =>
      rw [String.isEmpty_iff] at h
      rw [mem_insertNew]
      refine or_congr_right ?_
      constructor
      · rintro ⟨⟩
        exact ⟨rfl, h⟩
      · rintro ⟨⟨⟩, -⟩
        rfl

theorem mem_edges_mention :
    e ∈ (d.mention m).edges ↔ e ∈ d.edges ∨ m = ⟨some e.reader, e.source⟩ ∧ Links (d.has · = true) e := by
  unfold mention Links
  split
  · next h =>
    rw [Bool.or_eq_true, String.isEmpty_iff, beq_iff_eq] at h
    refine (or_iff_left ?_).symm
    rintro ⟨rfl, hname, -, hne, -⟩
    exact h.elim hname fun heq => hne (Option.some.inj heq).symm
  · next h =>
    rw [Bool.or_eq_true, not_or, String.isEmpty_iff, beq_iff_eq] at h
    split
    · next hhas =>
      rw [mem_edges_addEdge]
      refine or_congr_right (and_congr_right ?_)
      rintro rfl
      exact ⟨fun hreader => ⟨h.1, hreader, fun heq => h.2 (congrArg some heq.symm), .inl hhas⟩, fun hl => hl.2.1⟩
    · next hhas =>
      split
      · next hbuiltin =>
        rw [mem_edges_addEdge, addNode, if_neg hhas]
        refine or_congr_right (and_congr_right ?_)
        rintro rfl
        exact ⟨fun hreader => ⟨h.1, hreader, fun heq => h.2 (congrArg some heq.symm), .inr hbuiltin⟩, fun hl => hl.2.1⟩
      · next hbuiltin =>
        refine (or_iff_left ?_).symm
        rintro ⟨rfl, -, -, -, hthere⟩
        exact hthere.elim hhas hbuiltin

theorem links_mention : Links ((d.mention m).has · = true) e ↔ Links (d.has · = true) e := by
  unfold Links
  cases hbuiltin : isBuiltin e.source with
  | true => simp
  | false => simp only [has_mention hbuiltin]

theorem mem_edges_foldl : e ∈ (ms.foldl mention d).edges ↔
    e ∈ d.edges ∨ ⟨some e.reader, e.source⟩ ∈ ms ∧ Links (d.has · = true) e := by
  induction ms generalizing d with
  | nil => simp
  | cons m ms ih => rw [foldl_cons, ih, mem_edges_mention, links_mention, mem_cons, or_assoc, ← or_and_right, eq_comm]

/-! ## Nodes and repetitions -/

/-- Every edge joins two nodes, and nothing is listed twice. -/
structure Wired (d : Dependencies) : Prop where
  edges : d.edges.Nodup
  unresolved : d.unresolved.Nodup
  joined : ∀ e ∈ d.edges, d.has e.source = true ∧ d.has e.reader = true

theorem Wired.addNode (h : Wired d) (n : Node) : Wired (d.addNode n) := by
  have hhas {r : Ref} (hr : d.has r = true) : (d.addNode n).has r = true := (has_addNode n).mpr (.inl hr)
  unfold Dependencies.addNode at hhas ⊢
  split
  · exact h
  · next hnew =>
    rw [if_neg hnew] at hhas
    exact ⟨h.edges, h.unresolved, fun e he => (h.joined e he).imp hhas hhas⟩

theorem Wired.addEdge (h : Wired d) (htarget : d.has m.target = true)
    (howner : ∀ o, m.owner = some o → d.has o = true) : Wired (d.addEdge m) where
  edges := by
    unfold Dependencies.addEdge
    split
    · exact h.edges
    · split
      · exact h.edges
      · exact nodup_insertNew h.edges
  unresolved := by
    rw [unresolved_addEdge]
    exact h.unresolved
  joined := by
    intro e he
    rw [has, has, nodes_addEdge]
    rcases mem_edges_addEdge.mp he with he | ⟨rfl, -⟩
    · exact h.joined e he
    · exact ⟨htarget, howner _ rfl⟩

theorem Wired.mention (h : Wired d) (howner : ∀ o, m.owner = some o → d.has o = true) : Wired (d.mention m) := by
  unfold Dependencies.mention
  split
  · exact h
  · split
    · next hhas => exact h.addEdge hhas howner
    · split
      · refine (h.addNode _).addEdge ((has_addNode _).mpr (.inr rfl)) fun o ho => ?_
        exact (has_addNode _).mpr (.inl (howner o ho))
      · exact ⟨h.edges, nodup_insertNew h.unresolved, h.joined⟩

theorem Wired.foldl_mention (h : Wired d) (howner : ∀ m ∈ ms, ∀ o, m.owner = some o → d.has o = true) :
    Wired (ms.foldl Dependencies.mention d) := by
  induction ms generalizing d with
  | nil => exact h
  | cons m ms ih =>
    obtain ⟨hm, hms⟩ := forall_mem_cons.mp howner
    exact ih (h.mention hm) fun m' hm' o ho => has_mention_of_has (hms m' hm' o ho)

theorem Wired.foldl_addNode (h : Wired d) (ns : List Node) : Wired (ns.foldl Dependencies.addNode d) := by
  induction ns generalizing d with
  | nil => exact h
  | cons n ns ih => exact ih (h.addNode n)

theorem has_foldl_definitions (g : Graph) : ((definitions g).foldl addNode {}).has r = true ↔ Defines g r := by
  rw [has_foldl_addNode, ← mem_definitions_iff]
  simp [has]

theorem edges_foldl_addNode (ns : List Node) : (ns.foldl addNode d).edges = d.edges := by
  induction ns generalizing d with
  | nil => rfl
  | cons n ns ih =>
    rw [foldl_cons, ih, addNode]
    split <;> rfl

theorem mem_edges (g : Graph) : e ∈ (ofGraph g).edges ↔ Mentions g (some e.reader) e.source ∧ Links (Defines g) e := by
  have hhas : ((fun r => ((definitions g).foldl addNode {}).has r = true) : Ref → Prop) = Defines g := by
    funext r
    exact propext (has_foldl_definitions g)
  rw [ofGraph, mem_edges_foldl, hhas, edges_foldl_addNode, mem_mentions_iff]
  exact or_iff_right not_mem_nil

theorem wired_ofGraph (g : Graph) : Wired (ofGraph g) := by
  have hempty : Wired {} := ⟨.nil, .nil, by simp⟩
  refine (hempty.foldl_addNode _).foldl_mention fun m hm o ho => ?_
  rw [has_foldl_definitions]
  exact (ho ▸ (mem_mentions_iff g m).mp hm).defines_owner

theorem error?_eq_none : d.error? = none ↔ d.unresolved = [] := by
  unfold error?
  split
  · next h => simp [h]
  · next h => simpa using h

end Dependencies

/-! ## Order -/

/-- The second graph has the datasets, signals and scales of the first one in some order. -/
structure Reordered (g g' : Graph) : Prop where
  data : g.data.Perm g'.data
  signals : g.signals.Perm g'.signals
  scales : g.scales.Perm g'.scales
  marks : g.marks = g'.marks
  others : g.others = g'.others

namespace Reordered

variable {g g' : Graph} {r : Ref}

theorem symm (h : Reordered g g') : Reordered g' g :=
  ⟨h.data.symm, h.signals.symm, h.scales.symm, h.marks.symm, h.others.symm⟩

theorem top_marks (h : Reordered g g') : (Siblings.ofGraph g).marks = (Siblings.ofGraph g').marks := h.marks

theorem top_mark (h : Reordered g g') {i : Nat} {m : Mark} (hm : (Siblings.ofGraph g).marks[i]? = some m) :
    (Siblings.ofGraph g').marks[i]? = some m := h.top_marks ▸ hm

theorem siblings (h : Reordered g g') {p : Siblings → Prop} (htop : p (.ofGraph g) → p (.ofGraph g')) {es : Siblings}
    (hes : ReflTransGen Siblings.Encloses (.ofGraph g) es) (hp : p es) :
    ∃ es', ReflTransGen Siblings.Encloses (.ofGraph g') es' ∧ p es' := by
  rcases hes.cases_head with rfl | ⟨es', ⟨i, m, hm, hinside⟩, hpath⟩
  · exact ⟨_, .refl, htop hp⟩
  · exact ⟨es, .head ⟨i, m, h.top_mark hm, hinside⟩ hpath, hp⟩

theorem defines (h : Reordered g g') (hr : Defines g r) : Defines g' r := by
  obtain ⟨es, hes, hr⟩ := hr
  refine h.siblings (p := (·.Defines r)) (fun hr => ?_) hes hr
  cases hr with
  | dataset hd => exact .dataset (h.data.mem_iff.mp hd)
  | signal hs => exact .signal (h.signals.mem_iff.mp hs)
  | scale hs => exact .scale (h.scales.mem_iff.mp hs)
  | mark hm => exact .mark (h.top_mark hm)
  | facet hm hs hf => exact .facet (h.top_marks ▸ hm) hs hf

theorem mentions (h : Reordered g g') {owner : Option Ref} (hr : Mentions g owner r) : Mentions g' owner r := by
  cases hr with
  | @part es owner _ hes hr =>
    have htop (hr : (Siblings.ofGraph g).Mentions owner r) : (Siblings.ofGraph g').Mentions owner r := by
      cases hr with
      | dataset hd hr => exact .dataset (h.data.mem_iff.mp hd) hr
      | signal hs hr => exact .signal (h.signals.mem_iff.mp hs) hr
      | scale hs hr => exact .scale (h.scales.mem_iff.mp hs) hr
      | mark hm hr => exact .mark (h.top_mark hm) hr
      | facet hm hs hf => exact .facet (h.top_marks ▸ hm) hs hf
    obtain ⟨es', hes', hr'⟩ := h.siblings (p := (·.Mentions owner r)) htop hes hr
    exact .part hes' hr'
  | others hf hr => exact .others (h.others ▸ hf) hr

theorem defines_iff (h : Reordered g g') : Defines g r ↔ Defines g' r := ⟨h.defines, h.symm.defines⟩

theorem mentions_iff (h : Reordered g g') {owner : Option Ref} : Mentions g owner r ↔ Mentions g' owner r :=
  ⟨h.mentions, h.symm.mentions⟩

end Reordered

/-- The dependencies are those of the graph. -/
structure Exact (g : Graph) (d : Dependencies) : Prop where
  /-- A mention is unresolved if its target has a name and is not the mentioning part itself, and if the name is neither
  defined anywhere in the graph nor there for every view. -/
  unresolved : ∀ m, m ∈ d.unresolved ↔ Mentions g m.owner m.target ∧ m.target.name ≠ "" ∧ m.owner ≠ some m.target
    ∧ ¬Defines g m.target ∧ isBuiltin m.target = false
  unresolved_once : d.unresolved.Nodup
  /-- Any other mention by a part with a name is an edge. -/
  edges : ∀ e, e ∈ d.edges ↔ Mentions g (some e.reader) e.source ∧ e.source.name ≠ "" ∧ e.reader.name ≠ ""
    ∧ e.source ≠ e.reader ∧ (Defines g e.source ∨ isBuiltin e.source = true)
  edges_once : d.edges.Nodup
  joined : ∀ e ∈ d.edges, d.has e.source = true ∧ d.has e.reader = true ∧ e.source ≠ e.reader

theorem exact_ofGraph (g : Graph) : Exact g (Dependencies.ofGraph g) := by
  have hwired := Dependencies.wired_ofGraph g
  refine { unresolved := fun m => ?_, unresolved_once := hwired.unresolved, edges := fun e => Dependencies.mem_edges g,
           edges_once := hwired.edges, joined := fun e he => ?_ }
  · rw [Dependencies.mem_unresolved, mem_mentions_iff, Dependencies.Dangles, mem_definitions_iff]
  · obtain ⟨hsource, hreader⟩ := hwired.joined e he
    exact ⟨hsource, hreader, ((Dependencies.mem_edges g).mp he).2.2.2.1⟩

/-- The reference check is exact, and it does not depend on the order of datasets, signals and scales. -/
theorem references_exact (g : Graph) :
    Exact g (Dependencies.ofGraph g)
      ∧ ((Dependencies.ofGraph g).error? = none ↔ ∀ owner r, Mentions g owner r →
          r.name = "" ∨ owner = some r ∨ Defines g r ∨ isBuiltin r = true)
      ∧ ∀ g', Reordered g g' →
          (∀ m, m ∈ (Dependencies.ofGraph g).unresolved ↔ m ∈ (Dependencies.ofGraph g').unresolved)
            ∧ ∀ e, e ∈ (Dependencies.ofGraph g).edges ↔ e ∈ (Dependencies.ofGraph g').edges := by
  have hexact := exact_ofGraph g
  refine ⟨hexact, ?_, fun g' h => ⟨fun m => ?_, fun e => ?_⟩⟩
  · rw [Dependencies.error?_eq_none, eq_nil_iff_forall_not_mem]
    constructor
    · intro hnone owner r hr
      by_contra hdangles
      simp only [not_or, Bool.not_eq_true] at hdangles
      exact hnone ⟨owner, r⟩ ((hexact.unresolved _).mpr ⟨hr, hdangles⟩)
    · intro hall m hm
      obtain ⟨hr, hname, hself, hdefined, hbuiltin⟩ := (hexact.unresolved m).mp hm
      rcases hall _ _ hr with h | h | h | h
      · exact hname h
      · exact hself h
      · exact hdefined h
      · rw [h] at hbuiltin
        cases hbuiltin
  · rw [hexact.unresolved, (exact_ofGraph g').unresolved, h.mentions_iff, h.defines_iff]
  · rw [hexact.edges, (exact_ofGraph g').edges, h.mentions_iff, h.defines_iff]

/-- Rows that are kept by a clock, which reads a signal that is nowhere, and bars for each year inside a group. -/
def keptRows : Graph where
  data := [{ name := "kept", source := .string "rows",
             transform := [.object [("expr", .string "datum.t < clock && width > 0"), ("type", .string "filter")]] },
           { name := "rows" }]
  signals := [{ name := "clock", update := "clock + step" }]
  marks := [⟨"years", "group", some { facet := some { name := "year", data := "kept" } }, .null,
    [], [], [], [{ name := "x" }], [⟨"", "rect", some { data := "year" }, .null,
      [("update", .object [("x", .object [("field", .string "t"), ("scale", .string "x")])])], [], [], [], [], []⟩], []⟩]

/-- The only reference that is left is found in whatever order the datasets stand. -/
theorem references_keptRows :
    Reordered keptRows { keptRows with data := keptRows.data.reverse }
      ∧ (Dependencies.ofGraph keptRows).unresolved = [⟨some ⟨.signal, "clock"⟩, ⟨.signal, "step"⟩⟩]
      ∧ (∀ m, m ∈ (Dependencies.ofGraph { keptRows with data := keptRows.data.reverse }).unresolved
          ↔ m = ⟨some ⟨.signal, "clock"⟩, ⟨.signal, "step"⟩⟩)
      ∧ ⟨⟨.scale, "x"⟩, ⟨.mark, "years/mark_0"⟩⟩ ∈ (Dependencies.ofGraph keptRows).edges := by
  have hreordered : Reordered keptRows { keptRows with data := keptRows.data.reverse } :=
    ⟨(reverse_perm _).symm, .refl _, .refl _, rfl, rfl⟩
  have hunresolved : (Dependencies.ofGraph keptRows).unresolved = [⟨some ⟨.signal, "clock"⟩, ⟨.signal, "step"⟩⟩] := by
    decide +kernel
  refine ⟨hreordered, hunresolved, fun m => ?_, by decide +kernel⟩
  rw [← ((references_exact keptRows).2.2 _ hreordered).1 m, hunresolved, mem_singleton]

end AnimatedChart.Dependency

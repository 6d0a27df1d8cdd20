import AnimatedChart.Dependency.Graph

/-!
# Unresolved references of a graph

A mention stays unresolved exactly when its target has a name, is not the mentioning part itself, is defined nowhere in
the graph and is not there for every view (`mem_unresolved`).
-/

open List

namespace AnimatedChart.Dependency

open Json

variable {P allowed : Ref → Prop} {g : Graph} {mt : Mention} {o r : Ref}

namespace Dependencies

variable {d : Dependencies} {m m' : Mention} {r : Ref}

theorem mem_insertNew {α : Type} [BEq α] [LawfulBEq α] {a b : α} {as : List α} :
    b ∈ insertNew a as ↔ b ∈ as ∨ b = a := by
  unfold insertNew
  split
  · next h =>
    refine ⟨.inl, fun hb => hb.elim id fun hba => ?_⟩
    rw [hba]
    exact contains_iff_mem.mp h
  · rw [mem_append, mem_singleton]

theorem has_iff : d.has r = true ↔ r ∈ d.nodes.map (·.ref) := by simp [has]

theorem has_addNode (n : Node) : (d.addNode n).has r = true ↔ d.has r = true ∨ r = n.ref := by
  unfold addNode
  split
  · next h =>
    refine ⟨.inl, fun hr => hr.elim id fun hrn => ?_⟩
    rw [hrn]
    exact h
  · rw [has_iff, has_iff, map_append, mem_append, map_singleton, mem_singleton]

theorem has_foldl_addNode (ns : List Node) :
    (ns.foldl addNode d).has r = true ↔ d.has r = true ∨ r ∈ ns.map (·.ref) := by
  induction ns generalizing d with
  | nil => simp
  | cons n ns ih => rw [foldl_cons, ih, has_addNode, map_cons, mem_cons, or_assoc]

theorem unresolved_foldl_addNode (ns : List Node) : (ns.foldl addNode d).unresolved = d.unresolved := by
  induction ns generalizing d with
  | nil => rfl
  | cons n ns ih =>
    rw [foldl_cons, ih, addNode]
    split <;> rfl

theorem nodes_addEdge (m : Mention) : (d.addEdge m).nodes = d.nodes := by
  unfold addEdge
  split
  · rfl
  · split <;> rfl

theorem unresolved_addEdge (m : Mention) : (d.addEdge m).unresolved = d.unresolved := by
  unfold addEdge
  split
  · rfl
  · split <;> rfl

theorem has_mention (hr : isBuiltin r = false) : (d.mention m).has r = d.has r := by
  have hedge (d : Dependencies) : (d.addEdge m).has r = d.has r := by rw [has, has, nodes_addEdge]
  unfold mention
  split
  · rfl
  · split
    · exact hedge d
    · split
      · next hbuiltin =>
        rw [hedge, Bool.eq_iff_iff, has_addNode]
        refine or_iff_left fun heq => ?_
        rw [heq, hbuiltin] at hr
        cases hr
      · rfl

def Dangles (has : Ref → Prop) (m : Mention) : Prop :=
  m.target.name ≠ "" ∧ m.owner ≠ some m.target ∧ ¬has m.target ∧ isBuiltin m.target = false

theorem mem_unresolved_mention :
    m' ∈ (d.mention m).unresolved ↔ m' ∈ d.unresolved ∨ m' = m ∧ Dangles (d.has · = true) m := by
  unfold mention Dangles
  split
  · next h =>
    rw [Bool.or_eq_true, String.isEmpty_iff, beq_iff_eq] at h
    exact (or_iff_left fun hm => h.elim hm.2.1 hm.2.2.1).symm
  · next h =>
    rw [Bool.or_eq_true, not_or, String.isEmpty_iff, beq_iff_eq] at h
    split
    · next hhas =>
      rw [unresolved_addEdge]
      exact (or_iff_left fun hm => hm.2.2.2.1 hhas).symm
    · next hhas =>
      split
      · next hbuiltin =>
        rw [unresolved_addEdge, addNode, if_neg hhas]
        refine (or_iff_left fun hm => ?_).symm
        rw [hbuiltin] at hm
        cases hm.2.2.2.2
      · next hbuiltin =>
        rw [mem_insertNew]
        exact or_congr_right (and_iff_left ⟨h.1, h.2, hhas, Bool.eq_false_iff.mpr hbuiltin⟩).symm

theorem mem_unresolved_foldl (ms : List Mention) :
    m' ∈ (ms.foldl mention d).unresolved ↔ m' ∈ d.unresolved ∨ m' ∈ ms ∧ Dangles (d.has · = true) m' := by
  induction ms generalizing d with
  | nil => simp
  | cons m ms ih =>
    have hdangles : Dangles ((d.mention m).has · = true) m' ↔ Dangles (d.has · = true) m' := by
      unfold Dangles
      constructor
      all_goals
        rintro ⟨hname, hself, hhas, hbuiltin⟩
        exact ⟨hname, hself, by simpa [has_mention hbuiltin] using hhas, hbuiltin⟩
    rw [foldl_cons, ih, mem_unresolved_mention, hdangles, mem_cons]
    constructor
    · rintro ((hm | ⟨rfl, hm⟩) | ⟨hm, hd⟩)
      · exact .inl hm
      · exact .inr ⟨.inl rfl, hm⟩
      · exact .inr ⟨.inr hm, hd⟩
    · rintro (hm | ⟨rfl | hm, hd⟩)
      · exact .inl (.inl hm)
      · exact .inl (.inr ⟨rfl, hd⟩)
      · exact .inr ⟨hm, hd⟩

theorem mem_unresolved (g : Graph) {m : Mention} :
    m ∈ (ofGraph g).unresolved ↔ m ∈ mentions g ∧ Dangles (· ∈ (definitions g).map (·.ref)) m := by
  have hhas : ((fun r => ((definitions g).foldl addNode {}).has r = true) : Ref → Prop)
      = (· ∈ (definitions g).map (·.ref)) := by
    funext r
    rw [has_foldl_addNode]
    simp [has]
  rw [ofGraph, mem_unresolved_foldl, hhas, unresolved_foldl_addNode]
  simp

end Dependencies

/-! ## What is mentioned -/

def entryRefs (data : List Dataset) (signals : List Signal) (scales : List Scale) : List Ref :=
  data.flatMap datasetRefs ++ signals.flatMap signalRefs ++ scales.flatMap scaleRefs

def sourceRefs (source : Option MarkSource) : List Ref :=
  source.toList.flatMap fun s => ⟨.data, s.data⟩ :: s.facet.toList.flatMap fun f => [⟨.data, f.data⟩, ⟨.data, f.name⟩]

mutual

def markRefs : Mark → List Ref
  | ⟨_, _, source, _, encode, data, signals, scales, marks, others⟩ =>
    sourceRefs source ++ (encode.flatMap (fun b => valueRefs b.2) ++ othersRefs others)
      ++ entryRefs data signals scales ++ marksRefs marks

def marksRefs : List Mark → List Ref
  | [] => []
  | m :: ms => markRefs m ++ marksRefs ms

end

def mentioned (g : Graph) : List Ref :=
  entryRefs g.data g.signals g.scales ++ marksRefs g.marks ++ othersRefs g.others

theorem target_entryMentions (data : List Dataset) (signals : List Signal) (scales : List Scale) :
    (entryMentions data signals scales).map (·.target) = entryRefs data signals scales := by
  simp [entryMentions, entryRefs, map_flatMap, Function.comp_def]

theorem target_sourceMentions (owner : Ref) (source : Option MarkSource) :
    (sourceMentions owner source).map (·.target) = sourceRefs source := by
  rcases source with _ | ⟨data, _ | f⟩ <;> rfl

mutual

theorem target_markMentions (group : String) (i : Nat) : ∀ m : Mark,
    (markMentions group i m).map (·.target) = markRefs m
  | ⟨name, type, source, clip, encode, data, signals, scales, marks, others⟩ => by
    simp only [markMentions, markRefs, map_append, target_sourceMentions, target_entryMentions, map_map,
      Function.comp_def, target_marksMentions _ 0 marks]
    simp

theorem target_marksMentions (group : String) (i : Nat) : ∀ ms : List Mark,
    (marksMentions group i ms).map (·.target) = marksRefs ms
  | [] => rfl
  | m :: ms => by
    rw [marksMentions, marksRefs, map_append, target_markMentions group i m, target_marksMentions group (i + 1) ms]

end

theorem target_mentions (g : Graph) : (mentions g).map (·.target) = mentioned g := by
  simp only [mentions, mentioned, map_append, target_entryMentions, target_marksMentions, map_map,
    Function.comp_def]
  simp

/-! ## What is defined -/

def entryNames (data : List Dataset) (signals : List Signal) (scales : List Scale) : List Ref :=
  data.map (⟨.data, ·.name⟩) ++ signals.map (⟨.signal, ·.name⟩) ++ scales.map (⟨.scale, ·.name⟩)

mutual

def markNames : Mark → List Ref
  | ⟨_, _, source, _, _, data, signals, scales, marks, _⟩ =>
    (source.bind (·.facet)).toList.map (⟨.data, ·.name⟩) ++ entryNames data signals scales ++ marksNames marks

def marksNames : List Mark → List Ref
  | [] => []
  | m :: ms => markNames m ++ marksNames ms

end

def defined (g : Graph) : List Ref := entryNames g.data g.signals g.scales ++ marksNames g.marks

theorem ref_entryNodes (group : String) (data : List Dataset) (signals : List Signal) (scales : List Scale) :
    (entryNodes group data signals scales).map (·.ref) = entryNames data signals scales := by
  simp [entryNodes, entryNames, Function.comp_def]

theorem markRef_kind (group : String) (i : Nat) (m : Mark) : (markRef group i m).kind = .mark := by
  unfold markRef
  split
  · rfl
  · split <;> rfl

mutual

theorem mem_markNodes (group : String) (i : Nat) (hr : r.kind ≠ .mark) : ∀ m : Mark,
    r ∈ (markNodes group i m).map (·.ref) ↔ r ∈ markNames m
  | ⟨name, type, source, clip, encode, data, signals, scales, marks, others⟩ => by
    have hne (m : Mark) : r ≠ markRef group i m := fun h => hr (by rw [h, markRef_kind])
    simp only [markNodes, markNames, map_append, mem_append, ref_entryNodes, map_map, Function.comp_def,
      mem_marksNodes _ 0 hr marks]
    simp [hne]

theorem mem_marksNodes (group : String) (i : Nat) (hr : r.kind ≠ .mark) : ∀ ms : List Mark,
    r ∈ (marksNodes group i ms).map (·.ref) ↔ r ∈ marksNames ms
  | [] => Iff.rfl
  | m :: ms => by
    rw [marksNodes, marksNames, map_append, mem_append, mem_append, mem_markNodes group i hr m,
      mem_marksNodes group (i + 1) hr ms]

end

theorem mem_definitions (g : Graph) (hr : r.kind ≠ .mark) : r ∈ (definitions g).map (·.ref) ↔ r ∈ defined g := by
  rw [definitions, defined, map_append, mem_append, mem_append, ref_entryNodes,
    mem_marksNodes "" 0 hr]

/-! ## Marks are not mentioned -/

theorem kind_argument {f : String} {k : Kind} (h : argumentKind? f = some k) : k ≠ .mark := by
  unfold argumentKind? at h
  split at h
  · rw [← Option.some.inj h]
    decide
  · split at h
    · rw [← Option.some.inj h]
      decide
    · cases h

theorem kind_identReference {before : Option Char} {name : String} {after : List Token}
    (h : identReference? before name after = some r) : r.kind ≠ .mark := by
  unfold identReference? at h
  split at h
  · cases h
  · split at h
    · obtain ⟨k, hk, rfl⟩ := Option.map_eq_some_iff.mp h
      exact kind_argument hk
    · cases h
    · split at h
      · cases h
      · split at h
        · cases h
        · rw [← Option.some.inj h]
          simp

theorem kind_references {e : String} : ∀ r ∈ references e, r.kind ≠ .mark := by
  have htokens (before : Option Char) (ts : List Token) : ∀ r ∈ tokenReferences before ts, r.kind ≠ .mark := by
    fun_induction tokenReferences before ts with
    | case1 => simp
    | case2 before name rest ih =>
      intro r hr
      rcases mem_append.mp hr with hr | hr
      · exact kind_identReference (Option.mem_toList.mp hr)
      · exact ih r hr
    | case3 before t rest _ ih => exact ih
  exact fun r hr => htokens _ _ r (mem_filter.mp (mem_eraseDups.mp hr)).1

def keyRefs (k : String) : Value → List Ref
  | .string s =>
    if k = "signal" ∨ k = "expr" ∨ k = "test" then references s
    else if k = "scale" then [⟨.scale, s⟩]
    else if k = "data" ∨ k = "from" then [⟨.data, s⟩]
    else []
  | v => if k = "values" then [] else valueRefs v

theorem memberRefs_eq (ms : List (String × Value)) : memberRefs ms = ms.flatMap fun m => keyRefs m.1 m.2 := by
  induction ms with
  | nil => rfl
  | cons m ms ih =>
    obtain ⟨k, v⟩ := m
    rw [flatMap_cons, ← ih]
    cases v <;> rfl

theorem itemRefs_eq (vs : List Value) : itemRefs vs = vs.flatMap valueRefs := by
  induction vs with
  | nil => rfl
  | cons v vs ih => rw [itemRefs, ih, flatMap_cons]

theorem mem_memberRefs {ms : List (String × Value)} : r ∈ memberRefs ms ↔ ∃ m ∈ ms, r ∈ keyRefs m.1 m.2 := by
  rw [memberRefs_eq, mem_flatMap]

theorem mem_itemRefs {vs : List Value} : r ∈ itemRefs vs ↔ ∃ v ∈ vs, r ∈ valueRefs v := by rw [itemRefs_eq, mem_flatMap]

def Resolves (allowed : Ref → Prop) (g : Graph) (r : Ref) : Prop :=
  r.name = "" ∨ isBuiltin r = true ∨ allowed r ∨ r ∈ defined g

def Settled (allowed : Ref → Prop) (g : Graph) : Prop := ∀ r ∈ mentioned g, Resolves allowed g r

end AnimatedChart.Dependency

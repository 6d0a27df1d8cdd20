import AnimatedChart.Proofs.Graph.Marks
import Mathlib.Data.List.Perm.Basic

/-!
# What marks draw

The marks of a graph, groups searched depth first, are a list of names with the datasets that are drawn (`Graph.draws`).
-/

open List AnimatedChart.Mark

namespace AnimatedChart

variable {d n : String} {m : Mark}

namespace Mark

/-- The names of the mark and of those inside it, each with the dataset that is drawn. -/
def drawing (m : Mark) : List (String × String) := m.nodes.map fun x => (x.name, x.dataset)

/-- The names of all marks of a list and inside it, each with the dataset that is drawn. -/
def drawingAll (ms : List Mark) : List (String × String) := ms.flatMap drawing

theorem drawing_eq (m : Mark) : m.drawing = (m.name, m.dataset) :: drawingAll m.marks := by
  rw [drawing, nodes_eq, map_cons, map_flatMap]
  rfl

theorem drawingAll_append (ms ms' : List Mark) : drawingAll (ms ++ ms') = drawingAll ms ++ drawingAll ms' :=
  flatMap_append

theorem dataset_findIn? (name : String) (ms : List Mark) :
    (findIn? name ms).map dataset = ((drawingAll ms).find? (·.1 == name)).map (·.2) := by
  have hdrawing : drawingAll ms = (ms.flatMap nodes).map fun x => (x.name, x.dataset) := map_flatMap.symm
  rw [hdrawing, findIn?_eq, find?_map, Option.map_map]
  rfl

namespace Replaces

variable {m m' x x' : Mark}

theorem drawing (h : Replaces m m' x x') :
    ∃ before after, x.drawing = before ++ m.drawing ++ after ∧ x'.drawing = before ++ m'.drawing ++ after := by
  induction h with
  | here => exact ⟨[], [], by simp, by simp⟩
  | @inside name type source clip encode data signals scales others left right x x' _ ih =>
    obtain ⟨before, after, hx, hx'⟩ := ih
    let own : Mark := ⟨name, type, source, clip, encode, data, signals, scales, [], others⟩
    have hsplit {y inner : List (String × String)} (hy : y = before ++ inner ++ after) :
        (name, own.dataset) :: (drawingAll left ++ (y ++ drawingAll right))
          = (name, own.dataset) :: drawingAll left ++ before ++ inner ++ (after ++ drawingAll right) := by
      simp [hy]
    refine ⟨(name, own.dataset) :: drawingAll left ++ before, after ++ drawingAll right, ?_, ?_⟩
    · rw [← hsplit hx, drawing_eq, drawingAll_append]
      rfl
    · rw [← hsplit hx', drawing_eq, drawingAll_append]
      rfl

end Replaces

end Mark

/-! ## Graphs -/

namespace Graph

variable {g g' : Graph} {path : String} {f : Mark → Mark}

/-- The names of all marks of the graph, each with the dataset that is drawn. -/
def draws (g : Graph) : List (String × String) := drawingAll g.marks

def reads (g : Graph) (path : String) : Option String := (g.unitMark? path).map dataset

/-- All marks, also those inside groups, have names of their own. -/
structure Distinct (g : Graph) : Prop where
  named : ∀ e ∈ g.draws, e.1 ≠ ""
  nodup : (g.draws.map (·.1)).Nodup

theorem mem_draws_of_mem (h : m ∈ g.marks) : (m.name, m.dataset) ∈ g.draws := by
  rw [draws, drawingAll]
  exact mem_flatMap.mpr ⟨m, h, by rw [drawing_eq]; exact mem_cons_self⟩

theorem Distinct.apart (h : g.Distinct) : g.Apart where
  named := fun m hm => h.named _ (mem_draws_of_mem hm)
  distinct := by
    refine h.nodup.sublist ?_
    rw [draws, drawingAll]
    induction g.marks with
    | nil => exact List.Sublist.refl _
    | cons m ms ih =>
      rw [flatMap_cons, drawing_eq, map_cons, cons_append, map_cons, map_append]
      exact (ih.trans (sublist_append_right _ _)).cons_cons _

theorem Distinct.perm (h : g.Distinct) (hp : g'.draws.Perm g.draws) : g'.Distinct :=
  ⟨fun e he => h.named e (hp.mem_iff.mp he), (hp.map _).nodup_iff.mpr h.nodup⟩

def Functional (g : Graph) : Prop := ∀ n d d', (n, d) ∈ g.draws → (n, d') ∈ g.draws → d = d'

theorem Distinct.functional (h : g.Distinct) : g.Functional := by
  intro n d d' hd hd'
  exact congrArg Prod.snd (inj_on_of_nodup_map h.nodup hd hd' rfl)

theorem Functional.dataset_findIn? (h : g.Functional) :
    (Mark.findIn? n g.marks).map Mark.dataset = some d ↔ (n, d) ∈ g.draws := by
  rw [Mark.dataset_findIn?]
  constructor
  · intro hd
    obtain ⟨e, he, rfl⟩ := Option.map_eq_some_iff.mp hd
    have hname := eq_of_beq (find?_some (p := fun e : String × String => e.1 == n) he)
    rw [← hname]
    exact mem_of_find?_eq_some he
  · intro hd
    have hsome : ((Mark.drawingAll g.marks).find? (·.1 == n)).isSome = true :=
      find?_isSome.mpr ⟨(n, d), hd, beq_self_eq_true _⟩
    obtain ⟨e, he⟩ := Option.isSome_iff_exists.mp hsome
    have hname := eq_of_beq (find?_some (p := fun e : String × String => e.1 == n) he)
    have hmem : (n, e.2) ∈ g.draws := hname ▸ mem_of_find?_eq_some he
    rw [he, Option.map_some, h n e.2 d hmem hd]

theorem isSome_findIn? : (findIn? n g.marks).isSome = true ↔ n ∈ g.draws.map (·.1) := by
  rw [← Option.isSome_map (f := dataset), dataset_findIn?, Option.isSome_map, find?_isSome]
  simp [draws]

/-- The unit at a path draws a dataset: its series group does, or the mark under its name if there is no group. -/
def Shows (entries : List (String × String)) (path data : String) : Prop :=
  (path ++ "pathgroup", data) ∈ entries
    ∨ path ++ "pathgroup" ∉ entries.map (·.1) ∧ (path ++ "marks", data) ∈ entries

theorem Shows.cons {entries : List (String × String)} {data : String} {e : String × String}
    (h : Shows entries path data) (he : e.1 ≠ path ++ "pathgroup") : Shows (e :: entries) path data := by
  refine h.imp (mem_cons_of_mem e) fun ⟨hgroup, hmark⟩ => ⟨fun hmem => ?_, mem_cons_of_mem e hmark⟩
  rcases mem_cons.mp hmem with heq | hmem
  · exact he heq.symm
  · exact hgroup hmem

theorem unitMark?_eq_some (h : g.unitMark? path = some m) : findIn? (path ++ "pathgroup") g.marks = some m ∨
    path ++ "pathgroup" ∉ g.draws.map (·.1) ∧ findIn? (path ++ "marks") g.marks = some m := by
  unfold unitMark? unitMarkName? at h
  split at h
  · exact .inl h
  · next hgroup =>
    split at h
    · exact .inr ⟨fun hmem => hgroup (isSome_findIn?.mpr hmem), h⟩
    · cases h

theorem Functional.reads_eq_some (hg : g.Functional) : g.reads path = some d ↔ Shows g.draws path d := by
  rw [Shows, ← hg.dataset_findIn?, ← hg.dataset_findIn?, ← isSome_findIn?]
  unfold reads unitMark? unitMarkName?
  by_cases hgroup : (findIn? (path ++ "pathgroup") g.marks).isSome = true
  · simp [hgroup]
  · have hnone := Option.not_isSome_iff_eq_none.mp hgroup
    by_cases hmark : (findIn? (path ++ "marks") g.marks).isSome = true
    · simp [hnone, hmark]
    · simp [hnone, Option.not_isSome_iff_eq_none.mp hmark]

theorem Functional.reads_congr (hg : g.Functional) (h : ∀ e, e ∈ g'.draws ↔ e ∈ g.draws) (path : String) :
    g'.reads path = g.reads path := by
  have hg' : g'.Functional := fun n d d' hd hd' => hg n d d' ((h _).mp hd) ((h _).mp hd')
  refine Option.ext fun d => ?_
  simp only [hg'.reads_eq_some, hg.reads_eq_some, Shows, mem_map, h]

theorem draws_editUnitMark (hg : g.Apart) (hm : g.unitMark? path = some m) (hname : (f m).name = m.name) :
    ∃ rest, g.draws.Perm (m.drawing ++ rest)
      ∧ (g.merge (g.editUnitMark path f)).draws.Perm ((f m).drawing ++ rest) := by
  rcases g.editUnitMark_cases path f with ⟨hnone, -⟩ | ⟨m', x, x', hm', hx, hreplaces, hpart⟩
  · rw [hnone] at hm
    cases hm
  obtain rfl := Option.some.inj (hm'.symm.trans hm)
  obtain ⟨left, right, hmarks⟩ := append_of_mem hx
  have hxname := hreplaces.name_eq hname
  -- The other top-level marks stay, since their names differ.
  have hkept : g.marks.filter (fun y => !Named.occurs (Named.nameOf y) [x']) = left ++ right := by
    have hdistinct := hg.distinct
    rw [hmarks, map_append, map_cons, nodup_middle, ← map_append, nodup_cons] at hdistinct
    have hothers : ∀ y ∈ left ++ right, (!Named.occurs y.name [x']) = true := by
      intro y hy
      rw [Bool.not_eq_true', ← Bool.not_eq_true, Named.occurs_eq_true]
      rintro ⟨-, hyname⟩
      exact hdistinct.1 (mem_map.mpr ⟨y, hy, (mem_singleton.mp hyname).trans hxname⟩)
    have hgone : Named.occurs (Named.nameOf x) [x'] = true :=
      Named.occurs_eq_true.mpr ⟨hg.named x hx, mem_singleton.mpr hxname.symm⟩
    obtain ⟨hleft, hright⟩ := forall_mem_append.mp hothers
    rw [hmarks, filter_append, filter_cons_of_neg (by simp [hgone])]
    exact congrArg₂ (· ++ ·) (filter_eq_self.mpr hleft) (filter_eq_self.mpr hright)
  obtain ⟨before, after, hdraw, hdraw'⟩ := hreplaces.drawing
  refine ⟨before ++ after ++ drawingAll (left ++ right), ?_, ?_⟩
  · simp only [draws, hmarks, drawingAll, flatMap_append, flatMap_cons, hdraw]
    grind
  · rw [hpart, draws, merge, Named.merge_singleton, hkept]
    simp only [drawingAll, flatMap_append, flatMap_singleton, hdraw']
    grind

theorem Distinct.edit (hg : g.Distinct) (hf : ∀ m, g.unitMark? path = some m → (f m).drawing = m.drawing) :
    (g.merge (g.editUnitMark path f)).Distinct ∧ ∀ p, (g.merge (g.editUnitMark path f)).reads p = g.reads p := by
  have hperm : (g.merge (g.editUnitMark path f)).draws.Perm g.draws := by
    rcases g.editUnitMark_cases path f with ⟨-, hpart⟩ | ⟨m, -, -, hm, -, -, -⟩
    · rw [hpart, draws, merge_empty_marks g {} rfl]
      rfl
    · have hname : (f m).name = m.name := by
        have hdrawing := hf m hm
        rw [drawing_eq, drawing_eq] at hdrawing
        exact (Prod.mk.inj (List.cons.inj hdrawing).1).1
      obtain ⟨rest, hbefore, hafter⟩ := draws_editUnitMark hg.apart hm hname
      rw [hf m hm] at hafter
      exact hafter.trans hbefore.symm
  exact ⟨hg.perm hperm, hg.functional.reads_congr fun _ => hperm.mem_iff⟩

theorem unitNames_inj {p q a b : String} (ha : a = "pathgroup" ∨ a = "marks") (hb : b = "pathgroup" ∨ b = "marks")
    (h : p ++ a = q ++ b) : p = q := by
  have hlist := congrArg String.toList h
  rw [String.toList_append, String.toList_append] at hlist
  obtain rfl : a = b := by
    have hlast := congrArg List.getLast? hlist
    rcases ha with rfl | rfl <;> rcases hb with rfl | rfl <;> simp at hlast ⊢
  exact String.toList_inj.mp (append_cancel_right hlist)

theorem Distinct.withDataset (hg : g.Distinct) (hm : g.unitMark? path = some m) (n : String) :
    (g.merge (g.editUnitMark path (Mark.withDataset n))).Distinct
      ∧ (g.merge (g.editUnitMark path (Mark.withDataset n))).reads path = some n
      ∧ ∀ p ≠ path, (g.merge (g.editUnitMark path (Mark.withDataset n))).reads p = g.reads p := by
  obtain ⟨rest, hbefore, hafter⟩ := draws_editUnitMark (f := Mark.withDataset n) hg.apart hm rfl
  generalize g.merge (g.editUnitMark path (Mark.withDataset n)) = g' at hafter ⊢
  have hdraw : (m.withDataset n).drawing = (m.name, n) :: Mark.drawingAll m.marks := by
    rw [Mark.drawing_eq, Mark.dataset_withDataset]
    rfl
  rw [Mark.drawing_eq, cons_append] at hbefore
  rw [hdraw, cons_append] at hafter
  have hnames : (g'.draws.map (·.1)).Perm (g.draws.map (·.1)) :=
    (hafter.map (·.1)).trans (hbefore.map (·.1)).symm
  have hg' : g'.Distinct := by
    refine ⟨fun e he hempty => ?_, hnames.nodup_iff.mpr hg.nodup⟩
    obtain ⟨e', he', heq⟩ := mem_map.mp (hnames.mem_iff.mp (mem_map_of_mem he))
    exact hg.named e' he' (heq.trans hempty)
  have hother {k : String} (d : String) (hk : k ≠ m.name) : (k, d) ∈ g'.draws ↔ (k, d) ∈ g.draws := by
    rw [hafter.mem_iff, hbefore.mem_iff]
    simp [hk]
  have hown : (m.name, n) ∈ g'.draws := hafter.mem_iff.mpr mem_cons_self
  refine ⟨hg', hg'.functional.reads_eq_some.mpr ?_, fun p hp => Option.ext fun d => ?_⟩
  · rcases unitMark?_eq_some hm with hgroup | ⟨hgroup, hmark⟩
    · exact .inl (Mark.findIn?_name hgroup ▸ hown)
    · exact .inr ⟨fun hmem => hgroup (hnames.mem_iff.mp hmem), Mark.findIn?_name hmark ▸ hown⟩
  · have hne {a : String} (ha : a = "pathgroup" ∨ a = "marks") : p ++ a ≠ m.name := by
      rcases unitMark?_eq_some hm with hgroup | ⟨-, hmark⟩
      · rw [Mark.findIn?_name hgroup]
        exact fun h => hp (unitNames_inj ha (.inl rfl) h)
      · rw [Mark.findIn?_name hmark]
        exact fun h => hp (unitNames_inj ha (.inr rfl) h)
    rw [hg'.functional.reads_eq_some, hg.functional.reads_eq_some, Shows, Shows, hother d (hne (.inl rfl)), hnames.mem_iff,
      hother d (hne (.inr rfl))]

end Graph

end AnimatedChart

import AnimatedChart.Proofs.Graph.Draws
import AnimatedChart.Proofs.ScopeMembership

/-!
# Plotted units

A lowered chart draws one mark for every marked unit, named after the path of the unit; stacked units stand in groups of
their own.
-/

open List

namespace AnimatedChart.Lowering

open Spec

/-- What is drawn for the units at the given paths, with groups around the stacked units of the given numbers. -/
inductive Plots : List Nat → List String → List (String × String) → Prop
  | nil : Plots [] [] []
  | mark {groups units entries} (path : String) (k : Nat) : Plots groups units entries →
      Plots groups (path :: units) ((path ++ "marks", s!"data_{k}") :: entries)
  | series {groups units entries} (path : String) (k : Nat) (facet : String) : Plots groups units entries →
      Plots groups (path :: units) ((path ++ "pathgroup", s!"data_{k}") :: (path ++ "marks", facet) :: entries)
  | group {groups units entries} (i : Nat) : Plots groups units entries →
      Plots (i :: groups) units ((concatPath i ++ "group", "") :: entries)

theorem groupName_ne {path tail : String} (htail : tail = "pathgroup" ∨ tail = "marks") (i : Nat) :
    concatPath i ++ "group" ≠ path ++ tail := by
  intro h
  have hlist := congrArg String.toList h
  rw [String.toList_append, toList_concatPath, String.toList_append] at hlist
  rcases htail with rfl | rfl
  · -- Without `group` one ends in an underscore, the other in `path`.
    have hsplit : path.toList ++ "pathgroup".toList = path.toList ++ "path".toList ++ "group".toList := by simp
    rw [hsplit] at hlist
    have hlast := congrArg List.getLast? (append_cancel_right hlist)
    simp only [getLast?_append] at hlast
    simp at hlast
  · have hlast := congrArg List.getLast? hlist
    simp only [getLast?_append] at hlast
    simp at hlast

namespace Plots

variable {groups groups' : List Nat} {units units' : List String} {entries entries' : List (String × String)}

theorem append (h : Plots groups units entries) (h' : Plots groups' units' entries') :
    Plots (groups ++ groups') (units ++ units') (entries ++ entries') := by
  induction h with
  | nil => exact h'
  | mark path k _ ih => exact ih.mark path k
  | series path k facet _ ih => exact ih.series path k facet
  | group i _ ih => exact ih.group i

theorem name_eq (h : Plots groups units entries) : ∀ e ∈ entries,
    (∃ path ∈ units, ∃ tail, (tail = "pathgroup" ∨ tail = "marks") ∧ e.1 = path ++ tail)
      ∨ ∃ i ∈ groups, e.1 = concatPath i ++ "group" := by
  induction h with
  | nil => simp
  | mark path k _ ih =>
    refine forall_mem_cons.mpr ⟨.inl ⟨path, mem_cons_self, _, .inr rfl, rfl⟩, fun e he => ?_⟩
    exact (ih e he).imp_left fun ⟨p, hp, h⟩ => ⟨p, mem_cons_of_mem _ hp, h⟩
  | series path k facet _ ih =>
    refine forall_mem_cons.mpr ⟨.inl ⟨path, mem_cons_self, _, .inl rfl, rfl⟩,
      forall_mem_cons.mpr ⟨.inl ⟨path, mem_cons_self, _, .inr rfl, rfl⟩, fun e he => ?_⟩⟩
    exact (ih e he).imp_left fun ⟨p, hp, h⟩ => ⟨p, mem_cons_of_mem _ hp, h⟩
  | group i _ ih =>
    refine forall_mem_cons.mpr ⟨.inr ⟨i, mem_cons_self, rfl⟩, fun e he => ?_⟩
    exact (ih e he).imp_right fun ⟨j, hj, h⟩ => ⟨j, mem_cons_of_mem _ hj, h⟩

theorem named (h : Plots groups units entries) : ∀ e ∈ entries, e.1 ≠ "" := by
  intro e he hempty
  rcases h.name_eq e he with ⟨path, -, tail, htail, hname⟩ | ⟨i, -, hname⟩
  · have htail' := (String.append_eq_empty_iff.mp (hname.symm.trans hempty)).2
    rcases htail with rfl | rfl <;> exact absurd htail' (by decide)
  · exact absurd (String.append_eq_empty_iff.mp (hname.symm.trans hempty)).2 (by decide)

theorem not_mem_names (h : Plots groups units entries) {path tail : String} (hpath : path ∉ units)
    (htail : tail = "pathgroup" ∨ tail = "marks") : path ++ tail ∉ entries.map (·.1) := by
  intro hmem
  obtain ⟨e, he, hname⟩ := mem_map.mp hmem
  rcases h.name_eq e he with ⟨path', hpath', tail', htail', hname'⟩ | ⟨i, -, hname'⟩
  · exact hpath (Graph.unitNames_inj htail htail' (hname.symm.trans hname') ▸ hpath')
  · exact groupName_ne htail i (hname'.symm.trans hname)

theorem nodup (h : Plots groups units entries) (hgroups : groups.Nodup) (hunits : units.Nodup) :
    (entries.map (·.1)).Nodup := by
  induction h with
  | nil => exact nodup_nil
  | mark path k h ih =>
    obtain ⟨hpath, hunits⟩ := nodup_cons.mp hunits
    exact nodup_cons.mpr ⟨h.not_mem_names hpath (.inr rfl), ih hgroups hunits⟩
  | series path k facet h ih =>
    obtain ⟨hpath, hunits⟩ := nodup_cons.mp hunits
    refine nodup_cons.mpr ⟨fun hmem => ?_, nodup_cons.mpr
      ⟨h.not_mem_names hpath (.inr rfl), ih hgroups hunits⟩⟩
    rcases mem_cons.mp hmem with heq | hmem
    · have hlast := congrArg (fun n : String => n.toList.getLast?) heq
      simp at hlast
    · exact h.not_mem_names hpath (.inl rfl) hmem
  | group i h ih =>
    obtain ⟨hi, hgroups⟩ := nodup_cons.mp hgroups
    refine nodup_cons.mpr ⟨fun hmem => ?_, ih hgroups hunits⟩
    obtain ⟨e, he, hname⟩ := mem_map.mp hmem
    rcases h.name_eq e he with ⟨path, -, tail, htail, hname'⟩ | ⟨j, hj, hname'⟩
    · exact groupName_ne htail i (hname.symm.trans hname')
    · exact hi (concatPath_inj (String.append_left_inj "group" |>.mp (hname.symm.trans hname')) ▸ hj)

theorem shows_data (h : Plots groups units entries) (hunits : units.Nodup) : ∀ path ∈ units, ∃ k : Nat,
    Graph.Shows entries path s!"data_{k}" := by
  have hmark (p path : String) : path ++ "marks" ≠ p ++ "pathgroup" := fun heq => by
    have hlast := congrArg (fun n : String => n.toList.getLast?) heq
    simp at hlast
  induction h with
  | nil => simp
  | mark path k h ih =>
    obtain ⟨hpath, hunits⟩ := nodup_cons.mp hunits
    refine forall_mem_cons.mpr ⟨⟨k, .inr ⟨fun hmem => ?_, mem_cons_self⟩⟩, fun p hp => ?_⟩
    · rcases mem_cons.mp hmem with heq | hmem
      · exact hmark path path heq.symm
      · exact h.not_mem_names hpath (.inl rfl) hmem
    · obtain ⟨j, hj⟩ := ih hunits p hp
      exact ⟨j, hj.cons (hmark p path)⟩
  | series path k facet h ih =>
    obtain ⟨hpath, hunits⟩ := nodup_cons.mp hunits
    refine forall_mem_cons.mpr ⟨⟨k, .inl mem_cons_self⟩, fun p hp => ?_⟩
    obtain ⟨j, hj⟩ := ih hunits p hp
    refine ⟨j, (hj.cons (hmark p path)).cons fun heq => hpath ?_⟩
    exact Graph.unitNames_inj (.inl rfl) (.inl rfl) heq ▸ hp
  | group i h ih =>
    intro p hp
    obtain ⟨j, hj⟩ := ih hunits p hp
    exact ⟨j, hj.cons (groupName_ne (.inl rfl) i)⟩

variable {g : Graph}

theorem distinct (h : Plots groups units g.draws) (hgroups : groups.Nodup) (hunits : units.Nodup) : g.Distinct :=
  ⟨h.named, h.nodup hgroups hunits⟩

theorem reads (h : Plots groups units g.draws) (hgroups : groups.Nodup) (hunits : units.Nodup) :
    ∀ path ∈ units, ∃ k : Nat, g.reads path = some s!"data_{k}" := by
  intro path hpath
  obtain ⟨k, hk⟩ := h.shows_data hunits path hpath
  exact ⟨k, (h.distinct hgroups hunits).functional.reads_eq_some.mpr hk⟩

end Plots

end AnimatedChart.Lowering

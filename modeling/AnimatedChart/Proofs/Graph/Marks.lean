import AnimatedChart.Graph.Marks
import Mathlib.Data.List.Nodup

/-!
# Edits of marks

An edit finds the first mark of a name and replaces it in the marks around it (`Mark.Replaces`), and the edit of a
unit's mark is that top-level mark alone (`Graph.editUnitMark_cases`).
-/

open List

namespace AnimatedChart

/-! ## Merging by name -/

namespace Named

variable {α : Type} [Named α] {acc part : List α} {n : String} {xs : List α} {x : α}

theorem occurs_eq_true : occurs n xs = true ↔ n ≠ "" ∧ n ∈ xs.map nameOf := by simp [occurs]

theorem mem_of_mem_lasts (h : x ∈ lasts xs) : x ∈ xs := by
  induction xs with
  | nil => exact h
  | cons y xs ih =>
    rw [lasts] at h
    split at h
    · exact mem_cons_of_mem y (ih h)
    · rcases mem_cons.mp h with rfl | h
      · exact mem_cons_self
      · exact mem_cons_of_mem y (ih h)

theorem exists_lasts (h : x ∈ xs) : ∃ y ∈ lasts xs, nameOf y = nameOf x := by
  induction xs generalizing x with
  | nil => cases h
  | cons y xs ih =>
    rw [lasts]
    split
    · next hoccurs =>
      rcases mem_cons.mp h with rfl | h
      · obtain ⟨z, hz, hname⟩ := mem_map.mp (occurs_eq_true.mp hoccurs).2
        obtain ⟨w, hw, hwz⟩ := ih hz
        exact ⟨w, hw, hwz.trans hname⟩
      · exact ih h
    · rcases mem_cons.mp h with rfl | h
      · exact ⟨x, mem_cons_self, rfl⟩
      · obtain ⟨w, hw, hwx⟩ := ih h
        exact ⟨w, mem_cons_of_mem y hw, hwx⟩

theorem mem_merge (h : x ∈ merge acc part) : x ∈ acc ∨ x ∈ part :=
  (mem_append.mp h).imp (fun h => (mem_filter.mp h).1) mem_of_mem_lasts

theorem mem_merge_cases (h : x ∈ merge acc part) :
    x ∈ acc ∧ (nameOf x = "" ∨ nameOf x ∉ part.map nameOf) ∨ x ∈ part := by
  rcases mem_append.mp h with h | h
  · obtain ⟨hx, hkept⟩ := mem_filter.mp h
    rw [Bool.not_eq_true', ← Bool.not_eq_true, occurs_eq_true, not_and_or, not_not] at hkept
    exact .inl ⟨hx, hkept⟩
  · exact .inr (mem_of_mem_lasts h)

theorem exists_merge_of_part (h : x ∈ part) : ∃ y ∈ merge acc part, nameOf y = nameOf x := by
  obtain ⟨y, hy, hname⟩ := exists_lasts h
  exact ⟨y, mem_append_right _ hy, hname⟩

theorem exists_merge_of_acc (h : x ∈ acc) : ∃ y ∈ merge acc part, nameOf y = nameOf x := by
  cases hoccurs : occurs (nameOf x) part with
  | true =>
    obtain ⟨z, hz, hname⟩ := mem_map.mp (occurs_eq_true.mp hoccurs).2
    obtain ⟨y, hy, hyz⟩ : ∃ y ∈ merge acc part, nameOf y = nameOf z := exists_merge_of_part hz
    exact ⟨y, hy, hyz.trans hname⟩
  | false => exact ⟨x, mem_append_left _ (mem_filter.mpr ⟨h, by rw [hoccurs]; rfl⟩), rfl⟩

theorem mem_names_merge : n ∈ (merge acc part).map nameOf ↔ n ∈ acc.map nameOf ∨ n ∈ part.map nameOf := by
  simp only [mem_map]
  constructor
  · rintro ⟨x, hx, rfl⟩
    exact (mem_merge hx).imp (fun h => ⟨x, h, rfl⟩) fun h => ⟨x, h, rfl⟩
  · rintro (⟨x, hx, rfl⟩ | ⟨x, hx, rfl⟩)
    · exact exists_merge_of_acc hx
    · exact exists_merge_of_part hx

theorem mem_merge_of_not_mem (hx : x ∈ acc) (h : nameOf x ∉ part.map nameOf) : x ∈ merge acc part := by
  refine mem_append_left _ (mem_filter.mpr ⟨hx, ?_⟩)
  rw [Bool.not_eq_true', ← Bool.not_eq_true, occurs_eq_true]
  exact fun hn => h hn.2

theorem find?_merge_of_not_mem (h : n ∉ part.map nameOf) :
    (merge acc part).find? (nameOf · == n) = acc.find? (nameOf · == n) := by
  have hpart : (lasts part).find? (nameOf · == n) = none :=
    find?_eq_none.mpr fun x hx heq => h (mem_map.mpr ⟨x, mem_of_mem_lasts hx, eq_of_beq heq⟩)
  have hkeep (x : α) : (!occurs (nameOf x) part && nameOf x == n) = (nameOf x == n) := by
    cases hx : nameOf x == n with
    | false => rw [Bool.and_false]
    | true =>
      rw [eq_of_beq hx, Bool.and_true, Bool.not_eq_true', ← Bool.not_eq_true, occurs_eq_true]
      exact fun hn => h hn.2
  simp only [merge, find?_append, hpart, Option.or_none, find?_filter, ← Bool.and_eq_true, hkeep,
    Bool.decide_eq_true]

theorem mem_part_of_find?_merge (hn : n ≠ "") (h : n ∈ part.map nameOf)
    (hx : (merge acc part).find? (nameOf · == n) = some x) : x ∈ part := by
  have hname := find?_some (p := fun x : α => nameOf x == n) hx
  rcases mem_append.mp (mem_of_find?_eq_some hx) with hmem | hmem
  · have hoccurs := (mem_filter.mp hmem).2
    rw [eq_of_beq hname, Bool.not_eq_true', ← Bool.not_eq_true, occurs_eq_true] at hoccurs
    exact absurd ⟨hn, h⟩ hoccurs
  · exact mem_of_mem_lasts hmem

theorem find?_merge_of_mem (hx : x ∈ part) (hname : nameOf x ≠ "") (hnodup : (part.map nameOf).Nodup) :
    (merge acc part).find? (nameOf · == nameOf x) = some x := by
  have hsome : ((merge acc part).find? (nameOf · == nameOf x)).isSome = true := by
    obtain ⟨y, hy, heq⟩ : ∃ y ∈ merge acc part, nameOf y = nameOf x := exists_merge_of_part hx
    exact find?_isSome.mpr ⟨y, hy, by rw [heq]; exact beq_self_eq_true _⟩
  obtain ⟨y, hy⟩ := Option.isSome_iff_exists.mp hsome
  have hmem := mem_part_of_find?_merge hname (mem_map_of_mem hx) hy
  have heq := eq_of_beq (find?_some (p := fun y : α => nameOf y == nameOf x) hy)
  rw [hy, inj_on_of_nodup_map hnodup hmem hx heq]

@[simp] theorem merge_nil (acc : List α) : merge acc [] = acc := by simp [merge, occurs, lasts]

theorem merge_singleton (acc : List α) (x : α) :
    merge acc [x] = acc.filter (fun y => !occurs (nameOf y) [x]) ++ [x] := by
  simp [merge, occurs, lasts]

end Named

/-! ## Marks inside marks -/

namespace Mark

variable {name : String} {ms : List Mark} {f : Mark → Mark}

/-- What holds of a mark once it holds of those in it holds of all marks. -/
@[induction_eliminator]
theorem induction {P : Mark → Prop} (step : ∀ m : Mark, (∀ x ∈ m.marks, P x) → P m) (m : Mark) : P m := by
  cases m
  exact step _ fun x _ => induction step x

def nodes (m : Mark) : List Mark := (walk none m).map (·.1)

theorem walk_eq (p : Option Mark) (m : Mark) : walk p m = (m, p) :: walkAll (some m) m.marks := by
  cases m
  rfl

theorem walkAll_eq (p : Option Mark) (ms : List Mark) : walkAll p ms = ms.flatMap (walk p) := by
  induction ms with
  | nil => rfl
  | cons m ms ih => rw [walkAll, ih, flatMap_cons]

theorem map_fst_walk (p : Option Mark) (m : Mark) : (walk p m).map (·.1) = m.nodes := by
  rw [nodes, walk_eq, walk_eq]
  rfl

theorem map_fst_walkAll (p : Option Mark) (ms : List Mark) : (walkAll p ms).map (·.1) = ms.flatMap nodes := by
  simp only [walkAll_eq, map_flatMap, map_fst_walk]

theorem nodes_eq (m : Mark) : m.nodes = m :: m.marks.flatMap nodes := by rw [nodes, walk_eq, map_cons, map_fst_walkAll]

theorem mem_nodes_self (m : Mark) : m ∈ m.nodes := by
  rw [nodes_eq]
  exact mem_cons_self

mutual

theorem find?_eq (n : String) : ∀ m : Mark, find? n m = m.nodes.find? (·.name == n)
  | ⟨name, type, source, clip, encode, data, signals, scales, marks, others⟩ => by
    rw [find?, nodes_eq, find?_cons]
    by_cases h : name = n
    · simp [h]
    · simp only [h, if_false, beq_eq_false_iff_ne.mpr h]
      exact findIn?_eq n marks

theorem findIn?_eq (n : String) : ∀ ms : List Mark, findIn? n ms = (ms.flatMap nodes).find? (·.name == n)
  | [] => rfl
  | m :: ms => by rw [findIn?, find?_eq n m, findIn?_eq n ms, flatMap_cons, find?_append, Option.orElse_eq_or]

end

theorem findIn?_name (h : findIn? name ms = some m) : m.name = name := by
  rw [findIn?_eq] at h
  simpa using find?_some h

/-! ## Replacing a mark -/

/-- The second mark is the first one with a mark of it, `m`, replaced by `m'`. -/
inductive Replaces (m m' : Mark) : Mark → Mark → Prop
  | here : Replaces m m' m m'
  | inside {name type source clip encode data signals scales others before after} {x x' : Mark} :
      Replaces m m' x x' →
      Replaces m m'
        ⟨name, type, source, clip, encode, data, signals, scales, before ++ x :: after, others⟩
        ⟨name, type, source, clip, encode, data, signals, scales, before ++ x' :: after, others⟩

theorem findIn?_eq_some (h : findIn? name ms = some m) :
    ∃ before x after, ms = before ++ x :: after ∧ (∀ y ∈ before, find? name y = none) ∧ find? name x = some m := by
  induction ms with
  | nil => rw [findIn?] at h; cases h
  | cons x ms ih =>
    rw [findIn?] at h
    cases hx : find? name x with
    | some m' =>
      rw [hx] at h
      exact ⟨[], x, ms, rfl, by simp, hx.trans h⟩
    | none =>
      rw [hx] at h
      obtain ⟨before, y, after, rfl, hbefore, hy⟩ := ih h
      exact ⟨x :: before, y, after, rfl, forall_mem_cons.mpr ⟨hx, hbefore⟩, hy⟩

theorem edit?_eq_none {x : Mark} (h : find? name x = none) : edit? name f x = none := by
  have hlist {ms : List Mark} (hms : ∀ y ∈ ms, find? name y = none → edit? name f y = none)
      (h : findIn? name ms = none) : editIn? name f ms = none := by
    induction ms with
    | nil => rw [editIn?]
    | cons y ms ih =>
      obtain ⟨hy, hms⟩ := forall_mem_cons.mp hms
      rw [findIn?, Option.orElse_eq_or, Option.or_eq_none_iff] at h
      simp [editIn?, hy h.1, ih hms h.2]
  induction x with
  | step x ih =>
    cases x
    rw [find?] at h
    rw [edit?]
    split at h
    · cases h
    · next hn => rw [if_neg hn, hlist ih h, Option.map_none]

theorem editIn?_append {before : List Mark} {x x' : Mark} {after : List Mark}
    (hbefore : ∀ y ∈ before, find? name y = none) (hx : edit? name f x = some x') :
    editIn? name f (before ++ x :: after) = some (before ++ x' :: after) := by
  induction before with
  | nil => rw [nil_append, editIn?, hx, nil_append]
  | cons y before ih =>
    obtain ⟨hy, hbefore⟩ := forall_mem_cons.mp hbefore
    rw [cons_append, editIn?, edit?_eq_none hy]
    simp [ih hbefore]

theorem exists_edit? (f : Mark → Mark) {x : Mark} (h : find? name x = some m) :
    ∃ x', edit? name f x = some x' ∧ Replaces m (f m) x x' := by
  induction x with
  | step x ih =>
    obtain ⟨n, type, source, clip, encode, data, signals, scales, marks, others⟩ := x
    rw [find?] at h
    rw [edit?]
    split at h
    · next hn =>
      cases h
      exact ⟨_, if_pos hn, .here⟩
    · next hn =>
      obtain ⟨before, y, after, hmarks, hbefore, hy⟩ := findIn?_eq_some h
      obtain ⟨y', hedit, hreplaces⟩ := ih y (by simp [hmarks]) hy
      rw [if_neg hn, hmarks, editIn?_append hbefore hedit]
      exact ⟨_, rfl, .inside hreplaces⟩

theorem dataset_withDataset (n : String) (m : Mark) : (m.withDataset n).dataset = n := by
  unfold dataset withDataset
  rcases m.source with _ | ⟨data, _ | f⟩ <;> rfl

/-! ## All marks -/

mutual

def All (p : Mark → Prop) : Mark → Prop
  | m@⟨_, _, _, _, _, _, _, _, marks, _⟩ => p m ∧ AllIn p marks

def AllIn (p : Mark → Prop) : List Mark → Prop
  | [] => True
  | m :: ms => All p m ∧ AllIn p ms

end

theorem allIn_iff : AllIn p ms ↔ ∀ m ∈ ms, All p m := by
  induction ms with
  | nil => simp [AllIn]
  | cons m ms ih => rw [AllIn, ih, forall_mem_cons]

theorem all_iff : All p m ↔ p m ∧ ∀ x ∈ m.marks, All p x := by
  cases m
  rw [All, allIn_iff]

theorem all_iff_nodes (m : Mark) : All p m ↔ ∀ x ∈ m.nodes, p x := by
  induction m with
  | step m ih =>
    rw [all_iff, nodes_eq, forall_mem_cons]
    refine and_congr_right fun _ => ?_
    simp only [mem_flatMap, forall_exists_index, and_imp]
    constructor
    · exact fun h x y hy hx => (ih y hy).mp (h y hy) x hx
    · exact fun h y hy => (ih y hy).mpr fun x hx => h x y hy hx

theorem All.imp {q : Mark → Prop} (h : ∀ m, p m → q m) (hm : All p m) : All q m :=
  (all_iff_nodes m).mpr fun x hx => h x ((all_iff_nodes m).mp hm x hx)

def Flat (p : Mark → Prop) : Prop := ∀ m ms, p m → p { m with marks := ms }

namespace Replaces

variable {m m' x x' : Mark} {p : Mark → Prop}

theorem all (h : Replaces m m' x x') (hp : Flat p) (hm : All p m → All p m') (hx : All p x) : All p x' := by
  induction h with
  | here => exact hm hx
  | inside _ ih =>
    obtain ⟨hown, hmarks⟩ := all_iff.mp hx
    refine all_iff.mpr ⟨hp _ _ hown, fun y hy => ?_⟩
    rcases mem_append.mp hy with hy | hy
    · exact hmarks y (mem_append_left _ hy)
    · rcases mem_cons.mp hy with rfl | hy
      · exact ih (hmarks _ (mem_append_right _ mem_cons_self))
      · exact hmarks y (mem_append_right _ (mem_cons_of_mem _ hy))

theorem all_left (h : Replaces m m' x x') (hx : All p x) : All p m := by
  induction h with
  | here => exact hx
  | inside _ ih => exact ih ((all_iff.mp hx).2 _ (mem_append_right _ mem_cons_self))

theorem name_eq (h : Replaces m m' x x') (hname : m'.name = m.name) : x'.name = x.name := by
  cases h with
  | here => exact hname
  | inside => rfl

end Replaces

theorem replaces_mapPrimary (f : Mark → Mark) (m : Mark) : Replaces m.primary (f m.primary) m (m.mapPrimary f) := by
  obtain ⟨name, type, source, clip, encode, data, signals, scales, marks, others⟩ := m
  unfold primary mapPrimary
  split
  · next heq =>
    dsimp only at heq ⊢
    subst heq
    exact @Replaces.inside _ _ name type source clip encode data signals scales others [] _ _ _ .here
  · exact .here

theorem all_primary (h : All p m) : All p m.primary :=
  (replaces_mapPrimary id m).all_left h

end Mark

/-! ## The mark of a unit -/

namespace Graph

variable {g : Graph} {path : String} {f : Mark → Mark}

theorem editUnitMark_cases (g : Graph) (path : String) (f : Mark → Mark) :
    g.unitMark? path = none ∧ g.editUnitMark path f = {} ∨
    ∃ m x x', g.unitMark? path = some m ∧ x ∈ g.marks ∧ Mark.Replaces m (f m) x x'
      ∧ g.editUnitMark path f = { marks := [x'] } := by
  have hfound {name : String} (h : (Mark.findIn? name g.marks).isSome = true) : ∃ m x x',
      Mark.findIn? name g.marks = some m ∧ x ∈ g.marks ∧ Mark.Replaces m (f m) x x'
        ∧ g.marks.findSome? (Mark.edit? name f) = some x' := by
    obtain ⟨m, hm⟩ := Option.isSome_iff_exists.mp h
    obtain ⟨before, x, after, hmarks, hbefore, hx⟩ := Mark.findIn?_eq_some hm
    obtain ⟨x', hedit, hreplaces⟩ := Mark.exists_edit? f hx
    refine ⟨m, x, x', hm, by simp [hmarks], hreplaces, ?_⟩
    have hnone : before.findSome? (Mark.edit? name f) = none :=
      findSome?_eq_none_iff.mpr fun y hy => Mark.edit?_eq_none (hbefore y hy)
    rw [hmarks, findSome?_append, hnone, findSome?_cons, hedit]
    rfl
  unfold unitMark? editUnitMark unitMarkName?
  split
  · next h =>
    obtain ⟨m, x, x', hm, hx, hreplaces, hedit⟩ := hfound h
    exact .inr ⟨m, x, x', hm, hx, hreplaces, by simp [hedit]⟩
  · split
    · next h =>
      obtain ⟨m, x, x', hm, hx, hreplaces, hedit⟩ := hfound h
      exact .inr ⟨m, x, x', hm, hx, hreplaces, by simp [hedit]⟩
    · exact .inl ⟨rfl, rfl⟩

theorem all_unitMark? {p : Mark → Prop} {m : Mark} (hall : ∀ x ∈ g.marks, Mark.All p x)
    (h : g.unitMark? path = some m) : Mark.All p m := by
  rcases editUnitMark_cases g path id with ⟨hnone, -⟩ | ⟨m', x, x', hm, hx, hreplaces, -⟩
  · rw [hnone] at h
    cases h
  · obtain rfl := Option.some.inj (hm.symm.trans h)
    exact hreplaces.all_left (hall x hx)

/-- The top-level marks have names of their own. -/
structure Apart (g : Graph) : Prop where
  named : ∀ m ∈ g.marks, m.name ≠ ""
  distinct : (g.marks.map (·.name)).Nodup

theorem merge_empty (g : Graph) : g.merge {} = g := by simp [merge, Dict.putAll]

theorem merge_empty_marks (g part : Graph) (h : part.marks = []) : (g.merge part).marks = g.marks := by
  rw [merge, h, Named.merge_nil]

theorem Apart.merge_entries {part : Graph} (hg : g.Apart) (h : part.marks = []) : (g.merge part).Apart := by
  refine ⟨?_, ?_⟩
  · rw [merge_empty_marks g part h]
    exact hg.named
  · rw [merge_empty_marks g part h]
    exact hg.distinct

theorem mem_marks_merge (hg : g.Apart) {x x' y : Mark} (hx : x ∈ g.marks) (hname : x'.name = x.name) :
    y ∈ (g.merge { marks := [x'] }).marks ↔ y = x' ∨ y ∈ g.marks ∧ y ≠ x := by
  have hoccurs (z : Mark) (hz : z ∈ g.marks) : Named.occurs z.name [x'] = true ↔ z = x := by
    rw [Named.occurs_eq_true]
    constructor
    · rintro ⟨-, h⟩
      exact inj_on_of_nodup_map hg.distinct hz hx ((mem_singleton.mp h).trans hname)
    · rintro rfl
      exact ⟨hg.named z hx, mem_singleton.mpr hname.symm⟩
  rw [merge, Named.merge_singleton, mem_append, mem_singleton, mem_filter, or_comm]
  refine or_congr_right (and_congr_right fun hy => ?_)
  rw [Bool.not_eq_true', ← Bool.not_eq_true]
  exact not_congr (hoccurs y hy)

theorem Apart.merge_mark (hg : g.Apart) {x x' : Mark} (hx : x ∈ g.marks) (hname : x'.name = x.name) :
    (g.merge { marks := [x'] }).Apart where
  named := by
    intro y hy
    rcases (mem_marks_merge hg hx hname).mp hy with rfl | ⟨hy, -⟩
    · rw [hname]
      exact hg.named x hx
    · exact hg.named y hy
  distinct := by
    rw [merge, Named.merge_singleton, map_append, nodup_append]
    refine ⟨hg.distinct.sublist (filter_sublist.map _), nodup_singleton _, ?_⟩
    intro n hn n' hn' heq
    obtain ⟨z, hz, rfl⟩ := mem_map.mp hn
    obtain ⟨hzmem, hzocc⟩ := mem_filter.mp hz
    have hzname : z.name = x'.name := heq.trans (mem_singleton.mp hn')
    rw [Bool.not_eq_true', ← Bool.not_eq_true, Named.occurs_eq_true] at hzocc
    exact hzocc ⟨hg.named z hzmem, mem_singleton.mpr hzname⟩

end Graph
end AnimatedChart

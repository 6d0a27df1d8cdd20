import AnimatedChart.Graph.References
import AnimatedChart.Proofs.Dependency.Expression
import AnimatedChart.Proofs.Dependency.Unresolved
import AnimatedChart.Proofs.Dict
import AnimatedChart.Proofs.Graph.Marks

/-!
# Growing graphs

A graph grows by parts that are merged into it and by edits of its marks. It keeps the names that it defines, and what
it mentions is what it mentioned before or what the part mentions (`Grows`).
-/

open List

namespace AnimatedChart.Dependency

open Json

variable {new : Ref → Prop} {g g' g'' part : Graph} {r : Ref}
variable {allowed : Ref → Prop} {m m' x' : Mark} {n path : String}

theorem marksRefs_eq (ms : List Mark) : marksRefs ms = ms.flatMap markRefs := by
  induction ms with
  | nil => rfl
  | cons m ms ih => rw [marksRefs, ih, flatMap_cons]

theorem marksNames_eq (ms : List Mark) : marksNames ms = ms.flatMap markNames := by
  induction ms with
  | nil => rfl
  | cons m ms ih => rw [marksNames, ih, flatMap_cons]

theorem mem_mentioned : r ∈ mentioned g ↔
    (∃ d ∈ g.data, r ∈ datasetRefs d) ∨ (∃ s ∈ g.signals, r ∈ signalRefs s) ∨ (∃ s ∈ g.scales, r ∈ scaleRefs s)
      ∨ (∃ m ∈ g.marks, r ∈ markRefs m) ∨ ∃ o ∈ g.others, r ∈ fragmentRefs o.2 := by
  simp only [mentioned, entryRefs, othersRefs, marksRefs_eq, mem_append, mem_flatMap, or_assoc]

theorem mem_defined : r ∈ defined g ↔
    r.kind = .data ∧ r.name ∈ g.data.map (·.name) ∨ r.kind = .signal ∧ r.name ∈ g.signals.map (·.name)
      ∨ r.kind = .scale ∧ r.name ∈ g.scales.map (·.name) ∨ ∃ m ∈ g.marks, r ∈ markNames m := by
  obtain ⟨kind, name⟩ := r
  simp only [defined, entryNames, marksNames_eq, mem_append, mem_flatMap, mem_map, Ref.mk.injEq,
    or_assoc, ← and_assoc, eq_comm (a := kind)]
  grind

theorem defined_data (h : n ∈ g.data.map (·.name)) : ⟨.data, n⟩ ∈ defined g :=
  mem_defined.mpr (.inl ⟨rfl, h⟩)

theorem defined_signal (h : n ∈ g.signals.map (·.name)) : ⟨.signal, n⟩ ∈ defined g :=
  mem_defined.mpr (.inr (.inl ⟨rfl, h⟩))

theorem defined_scale (h : n ∈ g.scales.map (·.name)) : ⟨.scale, n⟩ ∈ defined g :=
  mem_defined.mpr (.inr (.inr (.inl ⟨rfl, h⟩)))

/-- The second graph defines all that the first one does, and what it mentions beyond it is new. -/
structure Grows (new : Ref → Prop) (g g' : Graph) : Prop where
  defined : ∀ r ∈ defined g, r ∈ Dependency.defined g'
  mentioned : ∀ r ∈ mentioned g', r ∈ Dependency.mentioned g ∨ new r

namespace Grows

theorem refl (new : Ref → Prop) (g : Graph) : Grows new g g := ⟨fun _ h => h, fun _ h => .inl h⟩

theorem trans (h : Grows new g g') (h' : Grows new g' g'') : Grows new g g'' where
  defined := fun r hr => h'.defined r (h.defined r hr)
  mentioned := fun r hr => (h'.mentioned r hr).elim (h.mentioned r) .inr

end Grows

theorem Resolves.grows (hr : Resolves allowed g r) (h : Grows new g g') : Resolves allowed g' r :=
  hr.imp_right fun hr => hr.imp_right fun hr => hr.imp_right (h.defined r)

theorem Settled.grows (hg : Settled allowed g) (h : Grows (Resolves allowed g') g g') : Settled allowed g' := by
  intro r hr
  rcases h.mentioned r hr with hr | hr
  · exact (hg r hr).grows h
  · exact hr

theorem mentioned_merge (h : r ∈ mentioned (g.merge part)) : r ∈ mentioned g ∨ r ∈ mentioned part := by
  have hentry {α : Type} [Named α] {acc new : List α} {p : α → Prop} (h : ∃ x ∈ Named.merge acc new, p x) :
      (∃ x ∈ acc, p x) ∨ ∃ x ∈ new, p x := by
    obtain ⟨x, hx, hp⟩ := h
    exact (Named.mem_merge hx).imp (fun hx => ⟨x, hx, hp⟩) fun hx => ⟨x, hx, hp⟩
  simp only [mem_mentioned] at h ⊢
  rcases h with h | h | h | h | ⟨o, ho, h⟩
  · exact (hentry h).imp .inl .inl
  · exact (hentry h).imp (.inr ∘ .inl) (.inr ∘ .inl)
  · exact (hentry h).imp (.inr ∘ .inr ∘ .inl) (.inr ∘ .inr ∘ .inl)
  · exact (hentry h).imp (.inr ∘ .inr ∘ .inr ∘ .inl) (.inr ∘ .inr ∘ .inr ∘ .inl)
  · rcases Dict.mem_of_mem_putAll ho with ho | ho
    · exact .inr (.inr (.inr (.inr (.inr ⟨o, ho, h⟩))))
    · exact .inl (.inr (.inr (.inr (.inr ⟨o, ho, h⟩))))

theorem defined_merge_of_part (hpart : part.marks = []) (h : r ∈ defined part) : r ∈ defined (g.merge part) := by
  rw [mem_defined, hpart] at h
  rw [mem_defined]
  rcases h with ⟨hk, h⟩ | ⟨hk, h⟩ | ⟨hk, h⟩ | ⟨m, hm, -⟩
  · exact .inl ⟨hk, Named.mem_names_merge.mpr (.inr h)⟩
  · exact .inr (.inl ⟨hk, Named.mem_names_merge.mpr (.inr h)⟩)
  · exact .inr (.inr (.inl ⟨hk, Named.mem_names_merge.mpr (.inr h)⟩))
  · cases hm

theorem defined_merge (hmarks : ∀ m ∈ g.marks, ∀ r ∈ markNames m, ∃ m' ∈ (g.merge part).marks, r ∈ markNames m') :
    ∀ r ∈ defined g, r ∈ defined (g.merge part) := by
  intro r hr
  rw [mem_defined] at hr ⊢
  rcases hr with ⟨hk, h⟩ | ⟨hk, h⟩ | ⟨hk, h⟩ | ⟨m, hm, h⟩
  · exact .inl ⟨hk, Named.mem_names_merge.mpr (.inl h)⟩
  · exact .inr (.inl ⟨hk, Named.mem_names_merge.mpr (.inl h)⟩)
  · exact .inr (.inr (.inl ⟨hk, Named.mem_names_merge.mpr (.inl h)⟩))
  · exact .inr (.inr (.inr (hmarks m hm r h)))

theorem Grows.merge (hpart : part.marks = []) (hnew : ∀ r ∈ Dependency.mentioned part, new r) :
    Grows new g (g.merge part) where
  defined := defined_merge fun m hm r hr => ⟨m, by rwa [Graph.merge_empty_marks g part hpart], hr⟩
  mentioned := fun r hr => (mentioned_merge hr).imp_right (hnew r)

/-! ## Editing marks -/

/-- The second mark has the name of the first one and defines all that it does, and what it mentions beyond it is
new. -/
structure Edited (new : Ref → Prop) (m m' : Mark) : Prop where
  name : m'.name = m.name
  names : ∀ r ∈ markNames m, r ∈ markNames m'
  refs : ∀ r ∈ markRefs m', r ∈ markRefs m ∨ new r

theorem Edited.around {x : Mark} (h : Edited new m m') (hx : Mark.Replaces m m' x x') : Edited new x x' := by
  induction hx with
  | here => exact h
  | inside _ ih =>
    refine ⟨rfl, fun r hr => ?_, fun r hr => ?_⟩
    · simp only [markNames, marksNames_eq, flatMap_append, flatMap_cons, mem_append] at hr ⊢
      rcases hr with hr | hr | hr | hr
      · exact .inl hr
      · exact .inr (.inl hr)
      · exact .inr (.inr (.inl (ih.names r hr)))
      · exact .inr (.inr (.inr hr))
    · simp only [markRefs, marksRefs_eq, flatMap_append, flatMap_cons, mem_append] at hr ⊢
      rcases hr with hr | hr | hr | hr
      · exact .inl (.inl hr)
      · exact .inl (.inr (.inl hr))
      · exact (ih.refs r hr).imp_left fun hr => .inr (.inr (.inl hr))
      · exact .inl (.inr (.inr (.inr hr)))

theorem markRefs_replaced {x : Mark} (h : Mark.Replaces m m' x x') : ∀ r ∈ markRefs m, r ∈ markRefs x := by
  induction h with
  | here => exact fun _ hr => hr
  | inside _ ih =>
    intro r hr
    simp only [markRefs, marksRefs_eq, flatMap_append, flatMap_cons, mem_append]
    exact .inr (.inr (.inl (ih r hr)))

theorem mentioned_unitMark? (h : g.unitMark? path = some m) : ∀ r ∈ markRefs m, r ∈ mentioned g := by
  intro r hr
  rcases g.editUnitMark_cases path id with ⟨hnone, -⟩ | ⟨m', x, x', hm, hx, hreplaces, -⟩
  · rw [hnone] at h
    cases h
  · obtain rfl := Option.some.inj (hm.symm.trans h)
    exact mem_mentioned.mpr (.inr (.inr (.inr (.inl ⟨x, hx, markRefs_replaced hreplaces r hr⟩))))

theorem Grows.editUnitMark {f : Mark → Mark} (hg : g.Apart) (h : ∀ m, g.unitMark? path = some m → Edited new m (f m)) :
    Grows new g (g.merge (g.editUnitMark path f)) := by
  rcases g.editUnitMark_cases path f with ⟨-, hpart⟩ | ⟨m, x, x', hm, hx, hreplaces, hpart⟩
  · rw [hpart]
    refine .merge rfl fun r hr => ?_
    simp [mem_mentioned] at hr
  · have hedited := (h m hm).around hreplaces
    rw [hpart]
    refine ⟨defined_merge fun y hy r hr => ?_, fun r hr => ?_⟩
    · by_cases hyx : y = x
      · exact ⟨x', (Graph.mem_marks_merge hg hx hedited.name).mpr (.inl rfl), hedited.names r (hyx ▸ hr)⟩
      · exact ⟨y, (Graph.mem_marks_merge hg hx hedited.name).mpr (.inr ⟨hy, hyx⟩), hr⟩
    · rcases mentioned_merge hr with hr | hr
      · exact .inl hr
      · have hr : r ∈ markRefs x' := by simpa [mem_mentioned] using hr
        exact (hedited.refs r hr).imp_left fun hr => mem_mentioned.mpr (.inr (.inr (.inr (.inl ⟨x, hx, hr⟩))))

end AnimatedChart.Dependency

namespace AnimatedChart.Graph

variable {g part : Graph} {path : String} {f : Mark → Mark} {p : Mark → Prop}

/-- The top-level marks have names of their own, and all marks have a property. -/
structure Drawn (p : Mark → Prop) (g : Graph) : Prop extends Apart g where
  all : ∀ x ∈ g.marks, Mark.All p x

theorem Drawn.merge_entries (hg : g.Drawn p) (h : part.marks = []) : (g.merge part).Drawn p where
  toApart := hg.toApart.merge_entries h
  all := by
    rw [merge_empty_marks g part h]
    exact hg.all

theorem Drawn.editUnitMark (hg : g.Drawn p) (hp : Mark.Flat p)
    (h : ∀ m, g.unitMark? path = some m → (f m).name = m.name ∧ (Mark.All p m → Mark.All p (f m))) :
    (g.merge (g.editUnitMark path f)).Drawn p := by
  rcases g.editUnitMark_cases path f with ⟨-, hpart⟩ | ⟨m, x, x', hm, hx, hreplaces, hpart⟩
  · rw [hpart]
    exact hg.merge_entries rfl
  · have hname := hreplaces.name_eq (h m hm).1
    rw [hpart]
    refine ⟨hg.toApart.merge_mark hx hname, fun y hy => ?_⟩
    rcases (mem_marks_merge hg.toApart hx hname).mp hy with rfl | ⟨hy, -⟩
    · exact hreplaces.all hp (h m hm).2 (hg.all x hx)
    · exact hg.all y hy

end AnimatedChart.Graph

namespace AnimatedChart.Dependency

open Json Animation

variable {S : Ref → Prop}
variable {e name : String} {ps : List (String × Value)} {rs : List Ref} {transform vs : List Value}

def Only (S : Ref → Prop) (rs : List Ref) : Prop := ∀ r ∈ rs, S r

@[simp] theorem only_nil : Only S [] := nofun

@[simp] theorem only_cons {r : Ref} : Only S (r :: rs) ↔ S r ∧ Only S rs := List.forall_mem_cons

@[simp] theorem only_append {rs' : List Ref} : Only S (rs ++ rs') ↔ Only S rs ∧ Only S rs' := List.forall_mem_append

@[simp] theorem only_flatMap {α : Type} {xs : List α} {f : α → List Ref} :
    Only S (xs.flatMap f) ↔ ∀ x ∈ xs, Only S (f x) := List.forall_mem_flatMap

@[simp] theorem only_references_empty : Only S (references "") := by
  rw [show references "" = [] by decide +kernel]
  exact only_nil

theorem Operand.only (h : Operand S e) : Only S (Dependency.references e) := h.references

theorem only_fixed (h : references e = [] := by decide +kernel) : Only S (references e) := by
  rw [h]
  exact only_nil

/-! ## Values -/

theorem mem_valueRefs_ofPairs {r : Ref} (h : r ∈ valueRefs (.ofPairs ps)) : ∃ p ∈ ps, r ∈ keyRefs p.1 p.2 := by
  obtain ⟨p, hp, hr⟩ := mem_memberRefs.mp h
  rcases Dict.mem_of_mem_putAll hp with hp | hp
  · exact ⟨p, hp, hr⟩
  · cases hp

theorem only_ofPairs (h : ∀ p ∈ ps, Only S (keyRefs p.1 p.2)) : Only S (valueRefs (.ofPairs ps)) := by
  intro r hr
  obtain ⟨p, hp, hr⟩ := mem_valueRefs_ofPairs hr
  exact h p hp r hr

theorem only_keyRefs_ofPairs {k : String} (h : ∀ p ∈ ps, Only S (keyRefs p.1 p.2)) :
    Only S (keyRefs k (.ofPairs ps)) := by
  unfold keyRefs
  split
  · next heq => cases heq
  · split
    · exact only_nil
    · exact only_ofPairs h

theorem only_array (h : ∀ v ∈ vs, Only S (valueRefs v)) : Only S (valueRefs (.array vs)) := by
  intro r hr
  obtain ⟨v, hv, hr⟩ := mem_itemRefs.mp hr
  exact h v hv r hr

def isScalar : Value → Bool
  | .array _ | .object _ => false
  | _ => true

theorem valueRefs_of_isScalar {v : Value} (h : isScalar v = true) : valueRefs v = [] := by
  cases v with
  | array vs => cases h
  | object ms => cases h
  | _ => rfl

theorem only_scalars (h : ∀ v ∈ vs, isScalar v = true) : Only S (valueRefs (.array vs)) :=
  only_array fun v hv => by
    rw [valueRefs_of_isScalar (h v hv)]
    exact only_nil

theorem only_signalRef {n : String} (h : Operand S n) : Only S (valueRefs (signalRef n)) :=
  only_ofPairs (by simpa [keyRefs] using h.only)

theorem only_signalEvents {ns : List String} (h : ∀ n ∈ ns, Operand S n) : Only S (valueRefs (signalEvents ns)) := by
  refine only_array fun v hv => ?_
  obtain ⟨n, hn, rfl⟩ := List.mem_map.mp hv
  exact only_signalRef (h n hn)

theorem only_filterBy (h : Only S (references e)) : Only S (valueRefs (filterBy e)) :=
  only_ofPairs (by simpa [keyRefs] using h)

theorem only_mentioned {g : Graph} : Only S (mentioned g) ↔
    (∀ d ∈ g.data, Only S (datasetRefs d)) ∧ (∀ s ∈ g.signals, Only S (signalRefs s))
      ∧ (∀ s ∈ g.scales, Only S (scaleRefs s)) ∧ (∀ m ∈ g.marks, Only S (markRefs m))
      ∧ ∀ o ∈ g.others, Only S (fragmentRefs o.2) := by
  simp only [mentioned, entryRefs, othersRefs, marksRefs_eq, only_append, only_flatMap, and_assoc]

@[simp] theorem only_signalRefs {s : Signal} : Only S (signalRefs s) ↔
    Only S (references s.init) ∧ Only S (references s.update)
      ∧ ∀ h ∈ s.on, Only S (valueRefs h.events) ∧ Only S (references h.update) := by
  simp only [signalRefs, only_append, only_flatMap, and_assoc]

@[simp] theorem only_scaleRefs {s : Scale} : Only S (scaleRefs s) ↔
    Only S (valueRefs s.domain) ∧ Only S (valueRefs s.domainRaw) ∧ Only S (valueRefs s.range)
      ∧ ∀ o ∈ s.others, Only S (fragmentRefs o.2) := by
  simp only [scaleRefs, othersRefs, only_append, only_flatMap, and_assoc]

theorem only_derived {source : String} (hsource : S ⟨.data, source⟩) (h : ∀ t ∈ transform, Only S (valueRefs t)) :
    Only S (datasetRefs { name, source := .string source, transform }) := by
  simpa [datasetRefs] using ⟨hsource, h⟩

theorem only_given {values : Value} (h : ∀ t ∈ transform, Only S (valueRefs t)) :
    Only S (datasetRefs { name, values, transform }) := by
  simpa [datasetRefs] using h

end AnimatedChart.Dependency

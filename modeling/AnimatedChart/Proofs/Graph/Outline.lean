import AnimatedChart.Proofs.Graph.Draws

/-!
# Marks one by one

The marks of a graph are visited parents first, and a visit sees the name and the type of a mark and the name of the
mark around it (`Mark.visit`).
-/

open List

namespace AnimatedChart

namespace Mark

/-- What a visit sees: the name and the type of a mark, and the name of the mark around it. -/
def visit (e : Mark × Option Mark) : String × String × Option String := (e.1.name, e.1.type, e.2.map (·.name))

def outline (m : Mark) : List (String × String × Option String) := (walk none m).map visit

theorem visits_walkAll {p p' : Option Mark} (h : p'.map (·.name) = p.map (·.name)) (ms : List Mark) :
    (walkAll p' ms).map visit = (walkAll p ms).map visit := by
  simp only [walkAll_eq, map_flatMap]
  refine flatMap_congr fun m _ => ?_
  rw [walk_eq, walk_eq, map_cons, map_cons, visit, visit, h]

theorem map_name_nodes (m : Mark) : m.nodes.map (·.name) = m.outline.map (·.1) := by
  rw [nodes, outline, map_map, map_map]
  rfl

theorem nodes_subset {x m : Mark} (h : x ∈ m.nodes) : x.nodes ⊆ m.nodes := by
  induction m with
  | step m ih =>
    rw [nodes_eq] at h
    rcases mem_cons.mp h with rfl | h
    · exact List.Subset.refl _
    · obtain ⟨y, hy, hx⟩ := mem_flatMap.mp h
      intro z hz
      rw [nodes_eq]
      exact mem_cons_of_mem _ (mem_flatMap.mpr ⟨y, hy, ih y hy hx hz⟩)

/-! ## Retouched marks -/

/-- A change of a mark that keeps its name, its type and what is inside it. -/
structure Reworks (m m' : Mark) : Prop where
  name : m'.name = m.name
  type : m'.type = m.type
  marks : m'.marks = m.marks

def Retouches (m m' : Mark) : Prop := ∃ x x', Replaces x x' m m' ∧ Reworks x x'

namespace Replaces

variable {x x' y y' m m' : Mark}

theorem trans (h : Replaces y y' m m') (h' : Replaces x x' y y') : Replaces x x' m m' := by
  induction h with
  | here => exact h'
  | inside _ ih => exact .inside ih

theorem mem_nodes_left (h : Replaces x x' y y') : x ∈ y.nodes := by
  induction h with
  | here => exact mem_nodes_self x
  | inside _ ih =>
    rw [nodes_eq]
    refine mem_cons_of_mem _ (mem_flatMap.mpr ⟨_, ?_, ih⟩)
    exact mem_append_right _ mem_cons_self

theorem mem_nodes_right (h : Replaces x x' y y') : x' ∈ y'.nodes := by
  induction h with
  | here => exact mem_nodes_self x'
  | inside _ ih =>
    rw [nodes_eq]
    refine mem_cons_of_mem _ (mem_flatMap.mpr ⟨_, ?_, ih⟩)
    exact mem_append_right _ mem_cons_self

theorem visits (h : Replaces x x' y y') (hx : Reworks x x') {p p' : Option Mark}
    (hp : p'.map (·.name) = p.map (·.name)) : (walk p' y').map visit = (walk p y).map visit := by
  induction h generalizing p p' with
  | here =>
    have hparent : (some x').map (·.name) = (some x).map (·.name) := congrArg some hx.name
    rw [walk_eq, walk_eq, map_cons, map_cons, visit, visit, hx.name, hx.type, hx.marks, hp,
      visits_walkAll hparent]
  | @inside name type source clip encode data signals scales others before after z z' _ ih =>
    let around (ms : List Mark) : Mark := ⟨name, type, source, clip, encode, data, signals, scales, ms, others⟩
    have hparent (ms ms' : List Mark) : (some (around ms')).map (·.name) = (some (around ms)).map (·.name) := rfl
    rw [walk_eq, walk_eq, map_cons, map_cons, visit, visit, hp]
    simp only [walkAll_eq, flatMap_append, flatMap_cons, map_append]
    simp only [← walkAll_eq]
    rw [ih (hparent (before ++ z :: after) (before ++ z' :: after)),
      visits_walkAll (hparent (before ++ z :: after) (before ++ z' :: after)) before,
      visits_walkAll (hparent (before ++ z :: after) (before ++ z' :: after)) after]

theorem outline_eq (h : Replaces x x' y y') (hx : Reworks x x') : y'.outline = y.outline := h.visits hx rfl

theorem mem_nodes (h : Replaces x x' y y') (hx : Reworks x x') (hm : m ∈ y.nodes) (hclear : x ∉ m.nodes) :
    m ∈ y'.nodes := by
  induction h with
  | here =>
    rw [nodes_eq] at hm ⊢
    rcases mem_cons.mp hm with rfl | hm
    · exact absurd (mem_nodes_self m) hclear
    · exact mem_cons_of_mem _ (hx.marks ▸ hm)
  | @inside name type source clip encode data signals scales others before after z z' hz ih =>
    rw [nodes_eq] at hm ⊢
    rcases mem_cons.mp hm with rfl | hm
    · exact (hclear (mem_nodes_left (.inside hz))).elim
    · refine mem_cons_of_mem _ ?_
      simp only [flatMap_append, flatMap_cons, mem_append] at hm ⊢
      exact hm.imp_right fun hm => hm.imp_left ih

end Replaces

theorem Retouches.outline_eq {m m' : Mark} (h : Retouches m m') : m'.outline = m.outline := by
  obtain ⟨x, x', hreplaces, hx⟩ := h
  exact hreplaces.outline_eq hx

theorem name_of_outline {m m' : Mark} (h : m'.outline = m.outline) : m'.name = m.name := by
  rw [outline, outline, walk_eq, walk_eq, map_cons, map_cons] at h
  exact congrArg Prod.fst (List.cons.inj h).1

/-! ## Marks of units -/

def unitNames (path : String) : List String := [path ++ "pathgroup", path ++ "marks"]

theorem mem_unitNames {n path : String} :
    n ∈ unitNames path ↔ ∃ tail, (tail = "pathgroup" ∨ tail = "marks") ∧ n = path ++ tail := by
  simp [unitNames]

theorem unitNames_unique {n p q : String} (hp : n ∈ unitNames p) (hq : n ∈ unitNames q) : p = q := by
  obtain ⟨a, ha, rfl⟩ := mem_unitNames.mp hp
  obtain ⟨b, hb, heq⟩ := mem_unitNames.mp hq
  exact Graph.unitNames_inj ha hb heq

def Closed (m : Mark) : Prop := ∀ path, m.name ∈ unitNames path → ∀ n ∈ m.nodes.map (·.name), n ∈ unitNames path

theorem Closed.congr {m m' : Mark} (h : m.Closed) (houtline : m'.outline = m.outline) : m'.Closed := by
  intro path hname
  rw [name_of_outline houtline] at hname
  rw [map_name_nodes, houtline, ← map_name_nodes]
  exact h path hname

theorem closed_of_names {m : Mark} {path : String} (h : ∀ n ∈ m.nodes.map (·.name), n ∈ unitNames path) :
    All Closed m := by
  refine (all_iff_nodes m).mpr fun x hx p hp n hn => ?_
  obtain rfl := unitNames_unique hp (h x.name (mem_map_of_mem hx))
  obtain ⟨y, hy, rfl⟩ := mem_map.mp hn
  exact h y.name (mem_map_of_mem (nodes_subset hx hy))

theorem Replaces.closed {x x' y y' : Mark} (h : Replaces x x' y y') (hx : Reworks x x') (hy : All Closed y) :
    All Closed y' := by
  induction h with
  | here =>
    obtain ⟨hown, hmarks⟩ := all_iff.mp hy
    exact all_iff.mpr ⟨hown.congr (Replaces.here.outline_eq hx), hx.marks ▸ hmarks⟩
  | inside hz ih =>
    obtain ⟨hown, hmarks⟩ := all_iff.mp hy
    refine all_iff.mpr ⟨hown.congr ((Replaces.inside hz).outline_eq hx), fun z hz => ?_⟩
    simp only [mem_append, mem_cons] at hz hmarks
    rcases hz with hz | rfl | hz
    · exact hmarks z (.inl hz)
    · exact ih (hmarks _ (.inr (.inl rfl)))
    · exact hmarks z (.inr (.inr hz))

end Mark

/-! ## Graphs -/

namespace Graph

variable {g g' : Graph} {path p : String} {f : Mark → Mark} {m : Mark}

def nodes (g : Graph) : List Mark := g.marks.flatMap Mark.nodes

theorem draws_eq (g : Graph) : g.draws = g.nodes.map fun m => (m.name, m.dataset) := by
  rw [draws, nodes, map_flatMap]
  rfl

theorem map_name_draws (g : Graph) : g.draws.map (·.1) = g.nodes.map (·.name) := by
  rw [draws_eq, map_map]
  rfl

theorem Distinct.findIn?_eq_some (hg : g.Distinct) {n : String} :
    Mark.findIn? n g.marks = some m ↔ m ∈ g.nodes ∧ m.name = n := by
  have hnodup := hg.nodup
  rw [map_name_draws] at hnodup
  rw [Mark.findIn?_eq]
  constructor
  · intro h
    exact ⟨mem_of_find?_eq_some h, eq_of_beq (find?_some (p := fun m : Mark => m.name == n) h)⟩
  · rintro ⟨hm, rfl⟩
    obtain ⟨m', hm'⟩ := Option.isSome_iff_exists.mp
      (find?_isSome (p := fun x : Mark => x.name == m.name) |>.mpr ⟨m, hm, beq_self_eq_true _⟩)
    have hname := eq_of_beq (find?_some (p := fun x : Mark => x.name == m.name) hm')
    exact hm'.trans (congrArg some (inj_on_of_nodup_map hnodup (mem_of_find?_eq_some hm') hm hname))

theorem Distinct.unitMark?_iff (hg : g.Distinct) : g.unitMark? path = some m ↔ m ∈ g.nodes
    ∧ (m.name = path ++ "pathgroup" ∨ m.name = path ++ "marks" ∧ path ++ "pathgroup" ∉ g.nodes.map (·.name)) := by
  have hgroup : (Mark.findIn? (path ++ "pathgroup") g.marks).isSome = true
      ↔ path ++ "pathgroup" ∈ g.nodes.map (·.name) := by
    rw [isSome_findIn?, map_name_draws]
  have hmark : (Mark.findIn? (path ++ "marks") g.marks).isSome = true ↔ path ++ "marks" ∈ g.nodes.map (·.name) := by
    rw [isSome_findIn?, map_name_draws]
  unfold unitMark? unitMarkName?
  split
  · next h =>
    rw [Option.bind_some, hg.findIn?_eq_some]
    exact and_congr_right fun _ => ⟨.inl, fun h' => h'.resolve_right fun ⟨_, hnone⟩ => hnone (hgroup.mp h)⟩
  · next h =>
    have hnone := fun hmem => h (hgroup.mpr hmem)
    split
    · rw [Option.bind_some, hg.findIn?_eq_some]
      refine and_congr_right fun hm => ⟨fun h' => .inr ⟨h', hnone⟩, fun h' => ?_⟩
      rcases h' with h' | ⟨h', -⟩
      · exact absurd (h' ▸ mem_map_of_mem hm) hnone
      · exact h'
    · next h' =>
      rw [Option.bind_none]
      refine ⟨by simp, fun ⟨hm, hname⟩ => ?_⟩
      rcases hname with hname | ⟨hname, -⟩
      · exact absurd (hname ▸ mem_map_of_mem hm) hnone
      · exact absurd (hmark.mpr (hname ▸ mem_map_of_mem hm)) h'

theorem Distinct.mem_unitNames (hg : g.Distinct) (h : g.unitMark? path = some m) : m.name ∈ Mark.unitNames path := by
  rcases (hg.unitMark?_iff.mp h).2 with hname | ⟨hname, -⟩ <;> simp [Mark.unitNames, hname]

/-- The top-level marks of the graphs look the same, in whatever order. -/
structure Retains (g g' : Graph) : Prop where
  forth : ∀ m ∈ g.marks, ∃ m' ∈ g'.marks, m'.outline = m.outline
  back : ∀ m' ∈ g'.marks, ∃ m ∈ g.marks, m.outline = m'.outline

theorem Retains.refl (g : Graph) : g.Retains g := ⟨fun m hm => ⟨m, hm, rfl⟩, fun m hm => ⟨m, hm, rfl⟩⟩

theorem Retains.trans {g'' : Graph} (h : g.Retains g') (h' : g'.Retains g'') : g.Retains g'' where
  forth := fun m hm => by
    obtain ⟨m', hm', heq⟩ := h.forth m hm
    obtain ⟨m'', hm'', heq'⟩ := h'.forth m' hm'
    exact ⟨m'', hm'', heq'.trans heq⟩
  back := fun m'' hm'' => by
    obtain ⟨m', hm', heq'⟩ := h'.back m'' hm''
    obtain ⟨m, hm, heq⟩ := h.back m' hm'
    exact ⟨m, hm, heq.trans heq'⟩

theorem Retains.mem_names (h : g.Retains g') {n : String} : n ∈ g'.nodes.map (·.name) ↔ n ∈ g.nodes.map (·.name) := by
  simp only [nodes, map_flatMap, mem_flatMap, Mark.map_name_nodes]
  constructor
  · rintro ⟨m', hm', hn⟩
    obtain ⟨m, hm, heq⟩ := h.back m' hm'
    exact ⟨m, hm, heq ▸ hn⟩
  · rintro ⟨m, hm, hn⟩
    obtain ⟨m', hm', heq⟩ := h.forth m hm
    exact ⟨m', hm', heq ▸ hn⟩

/-- All marks have names of their own, and inside the mark of a unit there are only marks of that unit. -/
structure Orderly (g : Graph) : Prop extends g.Distinct where
  closed : ∀ m ∈ g.marks, Mark.All Mark.Closed m

theorem Orderly.closed_of_mem (hg : g.Orderly) (hm : m ∈ g.nodes) : m.Closed := by
  obtain ⟨y, hy, hm⟩ := mem_flatMap.mp hm
  exact (Mark.all_iff_nodes y).mp (hg.closed y hy) m hm

section

variable (hf : ∀ m, Mark.Retouches m (f m))

include hf

theorem retains_edit (hg : g.Apart) (path : String) : g.Retains (g.merge (g.editUnitMark path f)) := by
  rcases g.editUnitMark_cases path f with ⟨-, hpart⟩ | ⟨u, y, y', -, hy, hreplaces, hpart⟩
  · rw [hpart]
    exact ⟨fun m hm => ⟨m, (merge_empty_marks g {} rfl).symm ▸ hm, rfl⟩,
      fun m hm => ⟨m, merge_empty_marks g {} rfl ▸ hm, rfl⟩⟩
  · obtain ⟨x, x', hretouch, hx⟩ := hf u
    have houtline := (hreplaces.trans hretouch).outline_eq hx
    rw [hpart]
    have hmem {m : Mark} := mem_marks_merge hg (y := m) hy (Mark.name_of_outline houtline)
    refine ⟨fun m hm => ?_, fun m' hm' => ?_⟩
    · by_cases heq : m = y
      · exact ⟨y', hmem.mpr (.inl rfl), heq ▸ houtline⟩
      · exact ⟨m, hmem.mpr (.inr ⟨hm, heq⟩), rfl⟩
    · rcases hmem.mp hm' with rfl | ⟨hm', -⟩
      · exact ⟨y, hy, houtline.symm⟩
      · exact ⟨m', hm', rfl⟩

theorem Distinct.retouch (hg : g.Distinct) (path : String) : (g.merge (g.editUnitMark path f)).Distinct := by
  rcases g.editUnitMark_cases path f with ⟨-, hpart⟩ | ⟨u, y, y', hu, -, -, -⟩
  · rw [hpart]
    refine hg.perm (.of_eq ?_)
    rw [draws, draws, merge_empty_marks g {} rfl]
  · have houtline := (hf u).outline_eq
    obtain ⟨rest, hbefore, hafter⟩ := draws_editUnitMark hg.apart hu (Mark.name_of_outline houtline)
    have hown : (f u).drawing.map (·.1) = u.drawing.map (·.1) := by
      simp only [Mark.drawing, map_map]
      exact (Mark.map_name_nodes _).trans (houtline ▸ (Mark.map_name_nodes _).symm)
    have hnames : ((g.merge (g.editUnitMark path f)).draws.map (·.1)).Perm (g.draws.map (·.1)) := by
      refine (hafter.map _).trans (.trans (.of_eq ?_) (hbefore.map _).symm)
      rw [map_append, map_append, hown]
    refine ⟨fun e he hempty => ?_, hnames.nodup_iff.mpr hg.nodup⟩
    obtain ⟨e', he', heq⟩ := mem_map.mp (hnames.mem_iff.mp (mem_map_of_mem he))
    exact hg.named e' he' (heq.trans hempty)

theorem Orderly.retouch (hg : g.Orderly) (path : String) : (g.merge (g.editUnitMark path f)).Orderly := by
  refine ⟨hg.toDistinct.retouch hf path, fun m hm => ?_⟩
  rcases g.editUnitMark_cases path f with ⟨-, hpart⟩ | ⟨u, y, y', -, hy, hreplaces, hpart⟩
  · rw [hpart, merge_empty_marks g {} rfl] at hm
    exact hg.closed m hm
  · obtain ⟨x, x', hretouch, hx⟩ := hf u
    have hreplaces := hreplaces.trans hretouch
    rw [hpart, mem_marks_merge hg.apart hy (Mark.name_of_outline (hreplaces.outline_eq hx))] at hm
    rcases hm with rfl | ⟨hm, -⟩
    · exact hreplaces.closed hx (hg.closed y hy)
    · exact hg.closed m hm

theorem Orderly.unitMark?_edit_of_ne (hg : g.Orderly) (hp : p ≠ path) (hm : g.unitMark? p = some m) :
    (g.merge (g.editUnitMark path f)).unitMark? p = some m := by
  obtain ⟨hmem, hname⟩ := hg.unitMark?_iff.mp hm
  have hretains := retains_edit hf hg.apart path
  rw [(hg.retouch hf path).unitMark?_iff, hretains.mem_names]
  refine ⟨?_, hname⟩
  rcases g.editUnitMark_cases path f with ⟨-, hpart⟩ | ⟨u, y, y', hu, hy, hreplaces, hpart⟩
  · rw [hpart, nodes, merge_empty_marks g {} rfl]
    exact hmem
  obtain ⟨x, x', hretouch, hx⟩ := hf u
  have hreplaces' := hreplaces.trans hretouch
  obtain ⟨z, hz, hmz⟩ := mem_flatMap.mp hmem
  have hmarks {w : Mark} := mem_marks_merge hg.apart (y := w) hy (Mark.name_of_outline (hreplaces'.outline_eq hx))
  rw [hpart, nodes]
  by_cases hzy : z = y
  swap
  · exact mem_flatMap.mpr ⟨z, hmarks.mpr (.inr ⟨hz, hzy⟩), hmz⟩
  subst hzy
  refine mem_flatMap.mpr ⟨y', hmarks.mpr (.inl rfl), hreplaces'.mem_nodes hx hmz fun hinside => hp ?_⟩
  -- The retouched mark would belong to both units.
  have hown := hg.closed_of_mem hmem p (hg.mem_unitNames hm) x.name (mem_map_of_mem hinside)
  have hunit := hg.closed_of_mem (hg.unitMark?_iff.mp hu).1 path (hg.mem_unitNames hu) x.name
    (mem_map_of_mem hretouch.mem_nodes_left)
  exact Mark.unitNames_unique hown hunit

theorem Orderly.unitMark?_edit_self (hg : g.Orderly) (hm : g.unitMark? path = some m) :
    (g.merge (g.editUnitMark path f)).unitMark? path = some (f m) := by
  obtain ⟨-, hname⟩ := hg.unitMark?_iff.mp hm
  have hretains := retains_edit hf hg.apart path
  have houtline := (hf m).outline_eq
  rw [(hg.retouch hf path).unitMark?_iff, hretains.mem_names, Mark.name_of_outline houtline]
  refine ⟨?_, hname⟩
  rcases g.editUnitMark_cases path f with ⟨hnone, -⟩ | ⟨u, y, y', hu, hy, hreplaces, hpart⟩
  · rw [hnone] at hm
    cases hm
  obtain rfl := Option.some.inj (hu.symm.trans hm)
  rw [hpart, nodes]
  refine mem_flatMap.mpr ⟨y', ?_, hreplaces.mem_nodes_right⟩
  exact (mem_marks_merge hg.apart hy (hreplaces.name_eq (Mark.name_of_outline houtline))).mpr (.inl rfl)

end

end Graph

end AnimatedChart

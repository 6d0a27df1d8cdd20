import AnimatedChart.Graph.Basic
import AnimatedChart.Proofs.Json.Readers

/-!
# Graphs and blanks

The entries of a graph are records with further members, which are kept as they are written. Reading does not look at
the blanks of a text: a graph that is read from a fragment without them is the graph that is read from the fragment,
with the blanks of its further members taken away (`Graph.read_bare`).
-/

open List

namespace AnimatedChart

open Json Reader

def bareOthers (others : Dict Fragment) : Dict Fragment := Dict.mapValues Fragment.bare others

theorem natural_object : Natural id Reader.object := by
  intro f old
  cases f with
  | object ms blanks =>
    show (do let d ← entries .null .any (Fragment.bareMembers ms) _; pure (Value.object d) : Reading Value) = _
    rw [entries_bare natural_any, Reading.map_id]
    rfl
  | _ => rfl

namespace Dataset

def bare (d : Dataset) : Dataset := { d with others := bareOthers d.others }

def schema : Schema (Dataset × Slots Value) where
  fields := layout
  kept := fun d => (d.1.transform, d.1.others)
  ext := by
    rintro ⟨⟨⟩, _⟩ ⟨⟨⟩, _⟩ h hkept
    simp only [Prod.mk.injEq] at hkept
    simpa [hkept, and_assoc] using h

theorem read_bare (f : Fragment) : read f.bare = (read f).map bare := by
  refine readEntry_bare (g := id) (schema.natural_id ?_) (by rfl) (by intros; rfl) f
  simp only [schema, layout, Field.first, forall_mem_cons]
  exact ⟨natural_text, natural_any, natural_any, natural_slots_id natural_object, by simp⟩

end Dataset

/-! ## Signals -/

namespace Handler

def bare (h : Handler) : Handler := { h with others := bareOthers h.others }

def schema : Schema Handler where
  fields := layout
  kept := (·.others)

theorem read_bare (f : Fragment) : read f.bare = (read f).map bare := by
  refine readEntry_bare (g := id) (schema.natural_id ?_) (by rfl) (by intros; rfl) f
  simp only [schema, layout, forall_mem_cons]
  exact ⟨natural_any, natural_text, natural_flag, by simp⟩

end Handler

namespace Signal

def bare (s : Signal) : Signal := { s with on := s.on.map Handler.bare, others := bareOthers s.others }

def schema : Schema Signal where
  fields := layout
  kept := (·.others)

theorem read_bare (f : Fragment) : read f.bare = (read f).map bare := by
  refine readEntry_bare (g := bare) (schema.natural ?_) (by rfl) (by intros; rfl) f
  simp only [schema, layout, forall_mem_cons]
  exact ⟨.of natural_text, .of natural_any, .of natural_text, .of natural_text,
    .of (natural_list (natural_settled Handler.read_bare) rfl), .of natural_any, by simp⟩

end Signal

namespace Scale

def bare (s : Scale) : Scale := { s with others := bareOthers s.others }

def schema : Schema Scale where
  fields := layout
  kept := (·.others)

theorem read_bare (f : Fragment) : read f.bare = (read f).map bare := by
  refine readEntry_bare (g := id) (schema.natural_id ?_) (by rfl) (by intros; rfl) f
  simp only [schema, layout, forall_mem_cons]
  exact ⟨natural_text, natural_text, natural_any, natural_any, natural_any, natural_optional_id natural_flag,
    natural_optional_id natural_number, by simp⟩

end Scale

/-! ## Sources of marks -/

namespace Facet

def bare (c : Facet) : Facet := { c with others := bareOthers c.others }

def schema : Schema Facet where
  fields := layout
  kept := (·.others)

theorem read_bare (f : Fragment) : read f.bare = (read f).map bare := by
  refine readEntry_bare (g := id) (schema.natural_id ?_) (by rfl) (by intros; rfl) f
  simp only [schema, layout, forall_mem_cons]
  exact ⟨natural_text, natural_text, natural_any, by simp⟩

end Facet

namespace MarkSource

def bare (s : MarkSource) : MarkSource := { s with facet := s.facet.map Facet.bare }

def schema : Schema MarkSource where
  fields := layout
  kept := fun _ => ()

theorem reader_eq : reader = .record schema.readers := rfl

theorem natural_reader : Natural bare reader := by
  refine schema.natural ?_
  simp only [schema, layout, forall_mem_cons]
  exact ⟨.of natural_text, .of (natural_optional (natural_settled Facet.read_bare) rfl), by simp⟩

end MarkSource

/-! ## Marks -/

theorem Json.Fragment.depth_bare (f : Fragment) : f.bare.depth = f.depth := by
  induction f with
  | null | bool _ | number _ | string _ => rfl
  | array fs blanks ih => rw [bare, depth, depth, bareAll_eq_map, depthOfItems_map ih]
  | object ms blanks ih =>
    rw [bare, depth, depth, bareMembers_eq_map, depthOfMembers_eq, depthOfMembers_eq, map_map,
      ← depthOfItems_map (forall_mem_map.mpr ih), map_map]
    rfl

namespace Mark

mutual

def bare : Mark → Mark
  | ⟨name, type, source, clip, encode, data, signals, scales, marks, others⟩ =>
    ⟨name, type, source.map MarkSource.bare, clip, encode, data.map Dataset.bare, signals.map Signal.bare,
      scales.map Scale.bare, bareAll marks, bareOthers others⟩

def bareAll : List Mark → List Mark
  | [] => []
  | m :: ms => m.bare :: bareAll ms

end

theorem bareAll_eq_map (ms : List Mark) : bareAll ms = ms.map bare := by
  induction ms with
  | nil => rfl
  | cons m ms ih => rw [bareAll, ih, map_cons]

theorem bare_eq (m : Mark) : m.bare = { m with
    source := m.source.map MarkSource.bare
    data := m.data.map Dataset.bare
    signals := m.signals.map Signal.bare
    scales := m.scales.map Scale.bare
    marks := m.marks.map bare
    others := bareOthers m.others } := by
  cases m
  rw [bare, bareAll_eq_map]

def schema (depth : Nat) : Schema Mark where
  fields := layout (readNested depth)
  kept := (·.others)
  distinct := show Distinct fieldNames by decide

theorem readNested_zero (f : Fragment) :
    readNested 0 f = readEntry (.record []) (ofType "" "") fieldNames (fun m others => { m with others }) f := rfl

theorem readNested_succ (depth : Nat) (f : Fragment) :
    readNested (depth + 1) f = readEntry (.record (schema depth).readers) (ofType "" "") fieldNames
      (fun m others => { m with others }) f := rfl

theorem natural_blocks : Natural id blocks := by
  intro f d
  have hdict := @natural_dict? _ _ .null natural_object f (some d)
  rw [Reading.map_id] at hdict
  unfold blocks
  rw [Reading.map_id]
  exact congrArg (· >>= _) hdict

theorem readNested_bare (depth : Nat) (f : Fragment) : readNested depth f.bare = (readNested depth f).map bare := by
  induction depth generalizing f with
  | zero =>
    rw [readNested_zero, readNested_zero]
    exact readEntry_bare (g := bare) (natural_record (by simp)) (by rfl) (by rintro ⟨⟩ others; rfl) f
  | succ depth ih =>
    rw [readNested_succ, readNested_succ]
    refine readEntry_bare (g := bare) ((schema depth).natural ?_) (by rfl) (by rintro ⟨⟩ others; rfl) f
    simp only [schema, layout, forall_mem_cons]
    have hmarks : Natural (List.map bare) (.list default (.settled (readNested depth))) :=
      natural_list (natural_settled ih) rfl
    refine ⟨.of natural_text ?_ ?_, .of natural_text ?_ ?_,
      .of (natural_optional MarkSource.natural_reader rfl) ?_ ?_, .of natural_any ?_ ?_, .of natural_blocks ?_ ?_,
      .of (natural_list (natural_settled Dataset.read_bare) rfl) ?_ ?_,
      .of (natural_list (natural_settled Signal.read_bare) rfl) ?_ ?_,
      .of (natural_list (natural_settled Scale.read_bare) rfl) ?_ ?_, .of hmarks ?_ ?_, by simp⟩
    all_goals
      intros
      simp only [bare_eq, id_eq]

theorem read_bare (f : Fragment) : read f.bare = (read f).map bare := by
  rw [read, read, Fragment.depth_bare, readNested_bare]

end Mark

namespace Graph

def bare (g : Graph) : Graph where
  data := g.data.map Dataset.bare
  signals := g.signals.map Signal.bare
  scales := g.scales.map Scale.bare
  marks := g.marks.map Mark.bare
  others := bareOthers g.others

def schema : Schema Graph where
  fields := layout
  kept := (·.others)

theorem read_bare (f : Fragment) : read f.bare = (read f).map bare := by
  refine readEntry_bare (g := bare) (schema.natural ?_) (by rfl) (by intros; rfl) f
  simp only [schema, layout, forall_mem_cons]
  exact ⟨.of (natural_list (natural_settled Dataset.read_bare) rfl),
    .of (natural_list (natural_settled Signal.read_bare) rfl),
    .of (natural_list (natural_settled Scale.read_bare) rfl),
    .of (natural_list (natural_settled Mark.read_bare) rfl), by simp⟩

end Graph

end AnimatedChart

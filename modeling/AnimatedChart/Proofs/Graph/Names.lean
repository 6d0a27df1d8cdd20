import AnimatedChart.Proofs.Graph.Roundtrip

/-!
# Names of entries

Merging parts into a graph keeps the names of its datasets, signals, scales and top-level marks apart, whatever names
the parts repeat (`Graph.Unshared.merge`).
-/

open List

namespace AnimatedChart

open Json Reader

variable {fields : List (String × Option Fragment)} {n n' : String} {others : Dict Fragment} {α β : Type}
  {as bs : List α}

/-! ## Entries that share no name -/

namespace Named

variable {α : Type} [Named α] {acc xs : List α}
variable {part : List α} {x : α}

def Unshared (xs : List α) : Prop := xs.Pairwise fun x y => nameOf x = nameOf y → nameOf x = ""

theorem eq_empty_of_not_occurs {y : α} (h : occurs (nameOf x) xs = false) (hy : y ∈ xs) (heq : nameOf x = nameOf y) :
    nameOf x = "" := by
  by_contra hne
  rw [← Bool.not_eq_true, occurs_eq_true] at h
  exact h ⟨hne, heq ▸ mem_map_of_mem hy⟩

theorem unshared_lasts (xs : List α) : Unshared (lasts xs) := by
  induction xs with
  | nil => exact .nil
  | cons x xs ih =>
    rw [lasts]
    split
    · exact ih
    · next hlast =>
      refine pairwise_cons.mpr ⟨fun y hy => ?_, ih⟩
      exact eq_empty_of_not_occurs (Bool.eq_false_of_not_eq_true hlast) (mem_of_mem_lasts hy)

theorem Unshared.merge (h : Unshared acc) (part : List α) : Unshared (merge acc part) := by
  refine pairwise_append.mpr ⟨h.sublist filter_sublist, unshared_lasts part, fun x hx y hy => ?_⟩
  have hkept := (mem_filter.mp hx).2
  exact eq_empty_of_not_occurs (by simpa using hkept) (mem_of_mem_lasts hy)

theorem filter_lasts (hn : n ≠ "") (xs : List α) :
    (lasts xs).filter (nameOf · == n) = (xs.filter (nameOf · == n)).getLast?.toList := by
  induction xs with
  | nil => rfl
  | cons x xs ih =>
    have hnone : xs.filter (nameOf · == n) = [] ↔ n ∉ xs.map nameOf := by simp [filter_eq_nil_iff]
    by_cases hx : nameOf x = n
    · rw [lasts, hx, filter_cons_of_pos (p := fun y => nameOf y == n) (beq_iff_eq.mpr hx), getLast?_cons]
      split
      · next hoccurs =>
        have hne := mt hnone.mp (not_not.mpr (occurs_eq_true.mp hoccurs).2)
        rw [ih, getLast?_eq_some_getLast hne]
        rfl
      · next hlast =>
        have hempty := hnone.mpr fun hmem => hlast (occurs_eq_true.mpr ⟨hn, hmem⟩)
        rw [filter_cons_of_pos (p := fun y => nameOf y == n) (beq_iff_eq.mpr hx), ih, hempty]
        rfl
    · rw [filter_cons_of_neg (p := fun y => nameOf y == n) (mt beq_iff_eq.mp hx), ← ih, lasts]
      split
      · rfl
      · rw [filter_cons_of_neg (p := fun y => nameOf y == n) (mt beq_iff_eq.mp hx)]

theorem filter_merge_of_getLast? (hn : n ≠ "") (h : (part.filter (nameOf · == n)).getLast? = some x) :
    (merge acc part).filter (nameOf · == n) = [x] := by
  have hmem : n ∈ part.map nameOf := by
    obtain ⟨hx, hname⟩ := mem_filter.mp (mem_of_getLast? h)
    exact eq_of_beq hname ▸ mem_map_of_mem hx
  have hreplaced : (acc.filter fun y => !occurs (nameOf y) part).filter (nameOf · == n) = [] := by
    refine filter_eq_nil_iff.mpr fun y hy heq => ?_
    have hkept := (mem_filter.mp hy).2
    rw [eq_of_beq heq, occurs_eq_true.mpr ⟨hn, hmem⟩] at hkept
    cases hkept
  rw [merge, filter_append, hreplaced, filter_lasts hn, h]
  rfl

theorem filter_merge_of_not_mem (h : n ∉ part.map nameOf) :
    (merge acc part).filter (nameOf · == n) = acc.filter (nameOf · == n) := by
  have hpart : (lasts part).filter (nameOf · == n) = [] :=
    filter_eq_nil_iff.mpr fun x hx heq => h (eq_of_beq heq ▸ mem_map_of_mem (mem_of_mem_lasts hx))
  rw [merge, filter_append, hpart, append_nil, filter_filter]
  refine filter_congr fun x _ => ?_
  cases hx : nameOf x == n with
  | false => rfl
  | true =>
    rw [Bool.true_and, Bool.not_eq_true', ← Bool.not_eq_true, occurs_eq_true, eq_of_beq hx]
    exact fun hoccurs => h hoccurs.2

theorem unshared_of_nodup (h : (xs.map nameOf).Nodup) : Unshared xs :=
  (pairwise_map.mp h).imp fun hne heq => absurd heq hne

theorem Unshared.filter_eq (h : Unshared xs) (hx : x ∈ xs) (hname : nameOf x ≠ "") :
    xs.filter (nameOf · == nameOf x) = [x] := by
  obtain ⟨left, right, rfl⟩ := append_of_mem hx
  obtain ⟨-, hright, hcross⟩ := pairwise_append.mp h
  obtain ⟨hafter, -⟩ := pairwise_cons.mp hright
  have hleft : left.filter (nameOf · == nameOf x) = [] := by
    refine filter_eq_nil_iff.mpr fun y hy heq => hname ?_
    have heq := eq_of_beq heq
    exact heq ▸ hcross y hy x mem_cons_self heq
  have hright : right.filter (nameOf · == nameOf x) = [] :=
    filter_eq_nil_iff.mpr fun y hy heq => hname (hafter y hy (eq_of_beq heq).symm)
  rw [filter_append, hleft, filter_cons_of_pos (by simp), hright]
  rfl

theorem Unshared.eq_of_name {y : α} (h : Unshared xs) (hx : x ∈ xs) (hy : y ∈ xs) (heq : nameOf y = nameOf x)
    (hname : nameOf x ≠ "") : y = x := by
  have hmem : y ∈ xs.filter (nameOf · == nameOf x) := mem_filter.mpr ⟨hy, beq_iff_eq.mpr heq⟩
  exact mem_singleton.mp (h.filter_eq hx hname ▸ hmem)

end Named

namespace Graph

/-- No two datasets, no two signals, no two scales and no two top-level marks share a name that is not empty. -/
structure Unshared (g : Graph) : Prop where
  data : Named.Unshared g.data
  signals : Named.Unshared g.signals
  scales : Named.Unshared g.scales
  marks : Named.Unshared g.marks

theorem Unshared.merge {g : Graph} (h : g.Unshared) (part : Graph) : (g.merge part).Unshared :=
  ⟨h.data.merge _, h.signals.merge _, h.scales.merge _, h.marks.merge _⟩

end Graph

/-! ## Names read back -/

theorem forall₂_entries {empty : α} {r : Fragment → Except Error α} {write : α → Fragment}
    (hothers : Foreign (fields.map (·.1)) others) (hdistinct : Distinct (fields.map (·.1)))
    (hmem : (n, if as.isEmpty then none else some (.list (as.map write))) ∈ fields)
    (hread : record [(n, .list empty (.settled r))] (.recordWith fields others) [] = .read bs true) :
    List.Forall₂ (fun a b => r (write a) = .ok b) as bs := by
  have hmerge := Fragment.merges_written hothers.sorted hdistinct
  have hforeign : ∀ e ∈ others, foldName n ≠ foldName e.1 := fun e he heq =>
    hothers.foreign e he n (mem_map_of_mem hmem) heq.symm
  rw [Fragment.recordWith] at hread
  cases as with
  | nil =>
    obtain rfl := (Reading.read.inj (hread.symm.trans (record_absent hmerge hmem hforeign []))).1
    exact .nil
  | cons a as =>
    obtain ⟨old, hold⟩ := read_field_of_merged hmerge hmem (fun e he heq => absurd heq (hforeign e he)) hread
    refine (forall₂_map_left_iff.mp (forall₂_of_items hold)).imp ?_
    rintro a b ⟨_, h⟩
    exact settled_eq_clean.mp h

theorem Json.Fragment.depth_record (ms : List (String × Fragment)) : (record ms).depth
      = depthOfMembers (ms.map fun m => (String.ofList (Escape.encode false m.1.toList), m.2)) + 1 := Nat.add_comm _ _

theorem eq_of_read_name (hothers : Dict.Sorted others) (hdistinct : Distinct (fields.map (·.1)))
    (hmem : ("name", some (.text n)) ∈ fields)
    (hread : record [("name", .text)] (.recordWith fields others) "" = .read n' true) : n' = n := by
  rw [Fragment.recordWith] at hread
  obtain ⟨old, hold⟩ := read_field_of_merged (Fragment.merges_written hothers hdistinct) hmem
    (fun _ _ => lt_of_foldName (by simp [foldCase])) hread
  exact (Reading.read.inj (hold.symm.trans (takes_text n old))).1

theorem eq_of_read_name? (hothers : Dict.Sorted others) (hdistinct : Distinct (fields.map (·.1)))
    (hclear : ∀ e ∈ others, foldName "name" ≠ foldName e.1)
    (hmem : ("name", if n.isEmpty then none else some (.text n)) ∈ fields)
    (hread : record [("name", .text)] (.recordWith fields others) "" = .read n' true) : n' = n := by
  split at hmem
  · next hempty =>
    have hmerge := Fragment.merges_written hothers hdistinct
    rw [Fragment.recordWith] at hread
    rw [String.isEmpty_iff.mp hempty]
    exact (Reading.read.inj (hread.symm.trans (record_absent hmerge hmem hclear ""))).1
  · exact eq_of_read_name hothers hdistinct hmem hread

theorem fields_of_readEntry (s : Schema α) {start : α} {names : List String} {finish : α → Dict Fragment → β} {b : β}
    (h : readEntry (.record s.readers) start names finish (.recordWith fields others) = .ok b) :
    ∃ a others', b = finish a others' ∧ ∀ x ∈ s.fields,
      record [(x.name, x.reader)] (.recordWith fields others) (x.get start) = .read (x.get a) true := by
  obtain ⟨a, others', ha, -, rfl⟩ := readEntry_eq_ok.mp h
  exact ⟨a, others', rfl, (s.record_iff.mp ha).1⟩

theorem Dataset.name_read {d d' : Dataset} (h : Dict.Sorted d.others) (hread : read d.toFragment = .ok d') :
    d'.name = d.name := by
  obtain ⟨a, others, rfl, hfields⟩ := fields_of_readEntry schema hread
  exact eq_of_read_name h (by exact schema.distinct) mem_cons_self (hfields _ mem_cons_self)

theorem Signal.name_read {x x' : Signal} (h : Dict.Sorted x.others) (hread : read x.toFragment = .ok x') :
    x'.name = x.name := by
  obtain ⟨a, others, rfl, hfields⟩ := fields_of_readEntry schema hread
  exact eq_of_read_name h (by exact schema.distinct) mem_cons_self (hfields _ mem_cons_self)

theorem Scale.name_read {c c' : Scale} (h : Dict.Sorted c.others) (hread : read c.toFragment = .ok c') :
    c'.name = c.name := by
  obtain ⟨a, others, rfl, hfields⟩ := fields_of_readEntry schema hread
  exact eq_of_read_name h (by exact schema.distinct) mem_cons_self (hfields _ mem_cons_self)

theorem Mark.name_read {m m' : Mark} (h : Dict.Sorted m.others)
    (hname : ∀ e ∈ m.others, foldName "name" ≠ foldName e.1) (hread : read m.toFragment = .ok m') : m'.name = m.name := by
  obtain ⟨name, type, source, clip, encode, data, signals, scales, marks, others⟩ := m
  rw [read, toFragment, Fragment.recordWith, Fragment.depth_record, ← Fragment.recordWith, readNested_succ] at hread
  obtain ⟨a, others', rfl, hfields⟩ := fields_of_readEntry (schema _) hread
  have hdistinct : Distinct fieldNames := by decide
  exact eq_of_read_name? h (by exact hdistinct) hname mem_cons_self (hfields _ mem_cons_self)

theorem map_eq_of_forall₂ {R : α → α → Prop} {f : α → β} (h : List.Forall₂ R as bs)
    (hf : ∀ a ∈ as, ∀ b, R a b → f b = f a) : bs.map f = as.map f := by
  induction h with
  | nil => rfl
  | cons hab _ ih =>
    have ⟨hfirst, hrest⟩ := forall_mem_cons.mp hf
    rw [map_cons, map_cons, hfirst _ hab, ih hrest]

namespace Graph

variable {g g' g₁ : Graph} {text : String}

/-- The entries of a graph are read one by one from how they are written. -/
structure Rereads (g g₁ : Graph) : Prop where
  data : List.Forall₂ (fun d d' => Dataset.read d.toFragment = .ok d') g.data g₁.data
  signals : List.Forall₂ (fun x x' => Signal.read x.toFragment = .ok x') g.signals g₁.signals
  scales : List.Forall₂ (fun c c' => Scale.read c.toFragment = .ok c') g.scales g₁.scales
  marks : List.Forall₂ (fun m m' => Mark.read m.toFragment = .ok m') g.marks g₁.marks

theorem rereads_of_read (hothers : Foreign names g.others) (hread : read g.toFragment = .ok g₁) : Rereads g g₁ := by
  obtain ⟨a, others, rfl, hfields⟩ := fields_of_readEntry schema hread
  simp only [schema, layout, forall_mem_cons, not_mem_nil, false_implies, implies_true, and_true] at hfields
  obtain ⟨hdata, hsignals, hscales, hmarks⟩ := hfields
  constructor
  · exact forall₂_entries (by exact hothers) (by exact schema.distinct) (by simp) hdata
  · exact forall₂_entries (by exact hothers) (by exact schema.distinct) (by simp) hsignals
  · exact forall₂_entries (by exact hothers) (by exact schema.distinct) (by simp) hscales
  · exact forall₂_entries (by exact hothers) (by exact schema.distinct) (by simp [Mark.toFragments_eq_map]) hmarks

theorem names_parse (h : g.toFragment.Proper) (hothers : Foreign names g.others) (hencode : g.encode = .ok text)
    (hparse : parse text = .ok g') : ((∀ d ∈ g.data, Dict.Sorted d.others) → g'.data.map (·.name) = g.data.map (·.name))
    ∧ ((∀ x ∈ g.signals, Dict.Sorted x.others) → g'.signals.map (·.name) = g.signals.map (·.name))
    ∧ ((∀ c ∈ g.scales, Dict.Sorted c.others) → g'.scales.map (·.name) = g.scales.map (·.name))
    ∧ ((∀ m ∈ g.marks, Dict.Sorted m.others ∧ ∀ e ∈ m.others, foldName "name" ≠ foldName e.1) →
      g'.marks.map (·.name) = g.marks.map (·.name)) := by
  obtain ⟨g₁, hread, hbare⟩ := exists_read h hencode hparse
  have hentries := rereads_of_read hothers hread
  have hsame {α β : Type} {f : β → α} (bare : β → β) {as bs : List β} (hf : ∀ b, f (bare b) = f b)
      (h : as.map bare = bs.map bare) : bs.map f = as.map f := by
    have hmap := congrArg (List.map f) h
    simpa only [map_map, Function.comp_def, hf] using hmap.symm
  refine ⟨fun hdata => ?_, fun hsignals => ?_, fun hscales => ?_, fun hmarks => ?_⟩
  · rw [hsame Dataset.bare (fun _ => rfl) (congrArg data hbare)]
    exact map_eq_of_forall₂ hentries.data fun d hd _ => Dataset.name_read (hdata d hd)
  · rw [hsame Signal.bare (fun _ => rfl) (congrArg signals hbare)]
    exact map_eq_of_forall₂ hentries.signals fun x hx _ => Signal.name_read (hsignals x hx)
  · rw [hsame Scale.bare (fun _ => rfl) (congrArg scales hbare)]
    exact map_eq_of_forall₂ hentries.scales fun c hc _ => Scale.name_read (hscales c hc)
  · rw [hsame Mark.bare (fun m => by rw [Mark.bare_eq]) (congrArg marks hbare)]
    exact map_eq_of_forall₂ hentries.marks fun m hm _ => Mark.name_read (hmarks m hm).1 (hmarks m hm).2

end Graph

end AnimatedChart

import AnimatedChart.Proofs.Graph.Names

/-!
# Merging replaces by name

What merging does is said twice: entry by entry, and by what a name finds afterwards (`Named.Merged`).
-/

open List

namespace AnimatedChart

/-! ## Further properties -/

namespace Dict

variable {α : Type}

theorem get?_putAll (d : Dict α) (ps : List (String × α)) (k : String) :
    get? (putAll d ps) k = (get? ps.reverse k).or (get? d k) := by
  induction ps generalizing d with
  | nil => rfl
  | cons p ps ih =>
    have hlast : get? (p :: ps).reverse k = (get? ps.reverse k).or (get? [p] k) := by
      simp only [get?, reverse_cons, find?_append, Option.map_or]
    have hput : get? (put p.1 p.2 d) k = (get? [p] k).or (get? d k) := by
      rw [get?_put]
      by_cases hk : k = p.1
      · simp [get?, hk]
      · simp [get?, hk, Ne.symm hk]
    rw [putAll_cons, ih, hlast, hput, Option.or_assoc]

theorem put_putAll_put (k : String) (v w : α) (d : Dict α) (ps : List (String × α)) :
    put k w (putAll (put k v d) ps) = put k w (putAll d ps) := by
  induction ps generalizing d with
  | nil => exact put_put k v w d
  | cons p ps ih =>
    rw [putAll_cons, putAll_cons]
    by_cases hk : p.1 = k
    · rw [hk, put_put]
    · rw [put_comm hk, ih]

theorem putAll_putAll (d : Dict α) (ps : List (String × α)) : putAll (putAll d ps) ps = putAll d ps := by
  have hconcat (d : Dict α) (ps : List (String × α)) (p : String × α) :
      putAll d (ps ++ [p]) = put p.1 p.2 (putAll d ps) := by
    rw [putAll, foldl_append]
    rfl
  induction ps using List.reverseRecOn with
  | nil => rfl
  | append_singleton ps p ih => rw [hconcat, hconcat, put_putAll_put, ih]

theorem putAll_put_of_not_mem {k : String} {ps : List (String × α)} (h : k ∉ ps.map (·.1)) (v : α) (d : Dict α) :
    putAll (put k v d) ps = put k v (putAll d ps) := by
  induction ps generalizing d with
  | nil => rfl
  | cons p ps ih =>
    rw [map_cons, mem_cons, not_or] at h
    rw [putAll_cons, putAll_cons, put_comm (Ne.symm h.1), ih h.2]

theorem putAll_put {e : Dict α} (he : Sorted e) (d : Dict α) (k : String) (v : α) :
    putAll d (put k v e) = put k v (putAll d e) := by
  induction e generalizing d with
  | nil => rfl
  | cons x rest ih =>
    obtain ⟨k', v'⟩ := x
    obtain ⟨hhead, hrest⟩ := pairwise_cons.mp he
    have hnew (hle : k ≤ k') : k ∉ rest.map (·.1) := by
      intro hk
      obtain ⟨y, hy, rfl⟩ := mem_map.mp hk
      exact hle (hhead y hy)
    rw [put]
    split
    · next hlt =>
      refine putAll_put_of_not_mem ?_ v d
      rw [map_cons, mem_cons, not_or]
      exact ⟨Std.ne_of_lt hlt, hnew (Std.le_of_lt hlt)⟩
    · split
      · next heq =>
        subst heq
        rw [putAll_cons, putAll_cons, put_putAll_put, putAll_put_of_not_mem (hnew (Std.le_refl k))]
      · rw [putAll_cons, putAll_cons, ih hrest]

theorem putAll_assoc {e : Dict α} (he : Sorted e) (d : Dict α) (ps : List (String × α)) :
    putAll (putAll d e) ps = putAll d (putAll e ps) := by
  induction ps generalizing e with
  | nil => rfl
  | cons p ps ih => rw [putAll_cons, ← putAll_put he, ih (he.put p.1 p.2), putAll_cons]

end Dict

namespace Named

variable {α : Type} [Named α] {acc part : List α}

theorem lasts_eq (xs : List α) : lasts xs = (xs.zipIdx.filter fun e =>
      nameOf e.1 = "" ∨ nameOf e.1 ∉ (xs.drop (e.2 + 1)).map nameOf).map Prod.fst := by
  suffices h : ∀ k, lasts xs = ((xs.zipIdx k).filter fun e =>
      nameOf e.1 = "" ∨ nameOf e.1 ∉ (xs.drop (e.2 + 1 - k)).map nameOf).map Prod.fst from h 0
  induction xs with
  | nil => exact fun _ => rfl
  | cons x xs ih =>
    intro k
    -- Positions in the tail are counted from one place further on.
    have htail : ((xs.zipIdx (k + 1)).filter fun e =>
        nameOf e.1 = "" ∨ nameOf e.1 ∉ ((x :: xs).drop (e.2 + 1 - k)).map nameOf).map Prod.fst = lasts xs := by
      rw [ih (k + 1)]
      refine congrArg (List.map Prod.fst) (filter_congr fun e he => ?_)
      have hle := (mem_zipIdx he).1
      rw [show e.2 + 1 - k = e.2 + 1 - (k + 1) + 1 by omega, drop_succ_cons]
    have hhead : occurs (nameOf x) xs = true
        ↔ ¬(nameOf x = "" ∨ nameOf x ∉ ((x :: xs).drop (k + 1 - k)).map nameOf) := by
      rw [occurs_eq_true, Nat.add_sub_cancel_left, not_or, not_not]
      rfl
    rw [zipIdx_cons, lasts]
    split
    · next hoccurs => rw [filter_cons_of_neg (by simpa only [decide_eq_true_eq] using hhead.mp hoccurs), htail]
    · next hlast =>
      have hkept := not_not.mp (mt hhead.mpr hlast)
      rw [filter_cons_of_pos (by simpa only [decide_eq_true_eq] using hkept), map_cons, htail]

theorem find?_merge {n : String} (hn : n ≠ "") (acc part : List α) : (merge acc part).find? (nameOf · == n)
      = (part.reverse.find? (nameOf · == n)).or (acc.find? (nameOf · == n)) := by
  have hlast : part.reverse.find? (nameOf · == n) = (part.filter (nameOf · == n)).getLast? := by
    rw [← head?_filter, filter_reverse, head?_reverse]
  rw [hlast, ← head?_filter, ← head?_filter]
  cases h : (part.filter (nameOf · == n)).getLast? with
  | some x => rw [filter_merge_of_getLast? hn h, Option.some_or, head?_cons]
  | none =>
    have hnone : n ∉ part.map nameOf := by
      intro hmem
      obtain ⟨x, hx, hname⟩ := mem_map.mp hmem
      have hempty := getLast?_eq_none_iff.mp h
      exact filter_eq_nil_iff.mp hempty x hx (beq_iff_eq.mpr hname)
    rw [filter_merge_of_not_mem hnone, Option.none_or]

theorem merge_merge (h : ∀ x ∈ part, nameOf x ≠ "") : merge (merge acc part) part = merge acc part := by
  have hreplaced : (lasts part).filter (fun x => !occurs (nameOf x) part) = [] := by
    refine filter_eq_nil_iff.mpr fun x hx => ?_
    have hmem := mem_of_mem_lasts hx
    rw [occurs_eq_true.mpr ⟨h x hmem, mem_map_of_mem hmem⟩]
    decide
  rw [merge, merge, filter_append, filter_filter, hreplaced, append_nil]
  simp only [Bool.and_self]

/-- What merging `part` into `acc` gives. -/
structure Merged (acc part out : List α) : Prop where
  /-- The entries whose names the part does not have, in their order, and then the part's in theirs: of each name the
  last one, and all without a name. -/
  entries : out = acc.filter (fun x => nameOf x = "" ∨ nameOf x ∉ part.map nameOf)
    ++ (part.zipIdx.filter fun e => nameOf e.1 = "" ∨ nameOf e.1 ∉ (part.drop (e.2 + 1)).map nameOf).map Prod.fst
  /-- A name finds the part's last entry of it, or else what it found before. -/
  found : ∀ n ≠ "", out.find? (nameOf · == n)
    = (part.reverse.find? (nameOf · == n)).or (acc.find? (nameOf · == n))
  unshared : Unshared acc → Unshared out

theorem merged (acc part : List α) : Merged acc part (merge acc part) where
  entries := by
    rw [merge, lasts_eq]
    refine congrArg (· ++ _) (filter_congr fun x _ => ?_)
    rw [Bool.eq_iff_iff, Bool.not_eq_true', ← Bool.not_eq_true, occurs_eq_true, decide_eq_true_eq, not_and_or,
      not_not]
  found n hn := find?_merge hn acc part
  unshared h := h.merge part

/-! ## Parts merged with each other -/

theorem cons_merge (x : α) (acc part : List α) :
    merge (x :: acc) part = if occurs (nameOf x) part then merge acc part else x :: merge acc part := by
  rw [merge, filter_cons]
  cases occurs (nameOf x) part <;> rfl

theorem occurs_merge (n : String) (acc part : List α) :
    occurs n (merge acc part) = (occurs n acc || occurs n part) := by
  rw [Bool.eq_iff_iff, Bool.or_eq_true, occurs_eq_true, occurs_eq_true, occurs_eq_true, mem_names_merge, and_or_left]

theorem occurs_lasts (n : String) (xs : List α) : occurs n (lasts xs) = occurs n xs := by
  have hmerge := occurs_merge n [] xs
  rwa [show occurs n ([] : List α) = false from Bool.and_false _, Bool.false_or] at hmerge

theorem lasts_lasts (xs : List α) : lasts (lasts xs) = lasts xs := by
  induction xs with
  | nil => rfl
  | cons x xs ih =>
    rw [lasts]
    split
    · exact ih
    · next hlast => rw [lasts, occurs_lasts, if_neg hlast, ih]

theorem lasts_merge (acc part : List α) : lasts (merge acc part) = merge (lasts acc) part := by
  induction acc with
  | nil => exact lasts_lasts part
  | cons x acc ih =>
    rw [cons_merge, lasts]
    by_cases hpart : occurs (nameOf x) part = true
    · rw [if_pos hpart, ih]
      split
      · rfl
      · rw [cons_merge, if_pos hpart]
    · rw [if_neg hpart, lasts, occurs_merge, Bool.eq_false_of_not_eq_true hpart, Bool.or_false, ih]
      split
      · rfl
      · rw [cons_merge, if_neg hpart]

theorem merge_assoc (acc part new : List α) : merge (merge acc part) new = merge acc (merge part new) := by
  induction acc with
  | nil => exact (lasts_merge part new).symm
  | cons x acc ih =>
    rw [cons_merge, cons_merge, occurs_merge]
    by_cases hpart : occurs (nameOf x) part = true
    · rw [if_pos hpart, hpart, Bool.true_or, if_pos rfl, ih]
    · rw [if_neg hpart, Bool.eq_false_of_not_eq_true hpart, Bool.false_or, cons_merge, ih]

end Named

/-! ## Graphs -/

namespace Graph

/-- Every dataset, signal, scale and top-level mark has a name. -/
structure AllNamed (g : Graph) : Prop where
  data : ∀ x ∈ g.data, x.name ≠ ""
  signals : ∀ x ∈ g.signals, x.name ≠ ""
  scales : ∀ x ∈ g.scales, x.name ≠ ""
  marks : ∀ x ∈ g.marks, x.name ≠ ""

/-- Merging replaces datasets, signals, scales and marks by name and keeps their order, and it replaces further
properties by key. A part in which every entry has a name changes nothing when it is merged again. -/
theorem merge_by_name (acc part : Graph) :
    Named.Merged acc.data part.data (acc.merge part).data
      ∧ Named.Merged acc.signals part.signals (acc.merge part).signals
      ∧ Named.Merged acc.scales part.scales (acc.merge part).scales
      ∧ Named.Merged acc.marks part.marks (acc.merge part).marks
      ∧ (∀ k, Dict.get? (acc.merge part).others k = (Dict.get? part.others.reverse k).or (Dict.get? acc.others k))
      ∧ (part.AllNamed → (acc.merge part).merge part = acc.merge part) := by
  refine ⟨Named.merged _ _, Named.merged _ _, Named.merged _ _, Named.merged _ _, Dict.get?_putAll _ _, fun h => ?_⟩
  rw [merge, mk.injEq]
  exact ⟨Named.merge_merge h.data, Named.merge_merge h.signals, Named.merge_merge h.scales, Named.merge_merge h.marks,
    Dict.putAll_putAll _ _⟩

/-- A signal that is declared once before a part and twice in it. -/
theorem merge_repeated_signal :
    let acc : Graph := { signals := [{ name := "t", update := "1" }, {}, { name := "u" }] }
    let part : Graph := { signals := [{ name := "t", update := "2" }, { name := "t", update := "3" }] }
    part.AllNamed ∧ (acc.merge part).merge part = acc.merge part
      ∧ (acc.merge part).signals = [{}, { name := "u" }, { name := "t", update := "3" }] := by
  intro acc part
  have hnamed : part.AllNamed := ⟨by decide, by decide, by decide, by decide⟩
  exact ⟨hnamed, (merge_by_name acc part).2.2.2.2.2 hnamed, rfl⟩

theorem merge_merge_of_sorted {part : Graph} (h : Dict.Sorted part.others) (acc new : Graph) :
    (acc.merge part).merge new = acc.merge (part.merge new) := by
  rw [merge, mk.injEq]
  exact ⟨Named.merge_assoc _ _ _, Named.merge_assoc _ _ _, Named.merge_assoc _ _ _, Named.merge_assoc _ _ _,
    Dict.putAll_assoc h _ _⟩

theorem foldl_merge (g : Graph) (parts : List Graph) (h : ∀ part ∈ parts, Dict.Sorted part.others) :
    parts.foldl merge g = g.merge (parts.foldl merge {}) := by
  induction parts generalizing g with
  | nil => exact (merge_empty g).symm
  | cons part parts ih =>
    obtain ⟨hpart, hparts⟩ := forall_mem_cons.mp h
    have hstart : Dict.Sorted ({} : Graph).others := .nil
    calc parts.foldl merge (g.merge part)
      _ = (g.merge part).merge (parts.foldl merge {}) := ih (g.merge part) hparts
      _ = (g.merge {}).merge (part.merge (parts.foldl merge {})) := by rw [merge_empty, merge_merge_of_sorted hpart]
      _ = g.merge (({} : Graph).merge part |>.merge (parts.foldl merge {})) := by
        rw [merge_merge_of_sorted hstart, merge_merge_of_sorted hpart]
      _ = g.merge (parts.foldl merge (({} : Graph).merge part)) := by rw [ih (({} : Graph).merge part) hparts]

/-- Merging is associative, so the parts of each stage may be merged with each other before they are merged into the
graph. -/
theorem merge_associative (acc part new : Graph) (hpart : Dict.Sorted part.others) (stages : List (List Graph))
    (hstages : ∀ parts ∈ stages, ∀ part ∈ parts, Dict.Sorted part.others) :
    (acc.merge part).merge new = acc.merge (part.merge new)
      ∧ stages.flatten.foldl merge acc = (stages.map fun parts => parts.foldl merge {}).foldl merge acc := by
  refine ⟨merge_merge_of_sorted hpart acc new, ?_⟩
  induction stages generalizing acc with
  | nil => rfl
  | cons parts stages ih =>
    obtain ⟨hparts, hstages⟩ := forall_mem_cons.mp hstages
    rw [flatten_cons, foldl_append, map_cons, foldl_cons, foldl_merge acc parts hparts,
      ih _ hstages]

/-- Two parts that repeat a name, an entry without a name, and a property that both parts have. -/
theorem merge_associative_padded :
    let acc : Graph := { signals := [{ name := "t", update := "1" }, {}, { name := "u" }], others := [("padding", .null)] }
    let part : Graph := { signals := [{ name := "t", update := "2" }, {}, { name := "t", update := "3" }],
                          others := [("padding", .bool true), ("width", .null)] }
    let new : Graph := { signals := [{ name := "u", update := "4" }, { name := "t", update := "5" }],
                         others := [("padding", .bool false)] }
    (acc.merge part).merge new = acc.merge (part.merge new)
      ∧ [part, new].foldl merge acc = [[part, new].foldl merge {}].foldl merge acc
      ∧ (acc.merge (part.merge new)).signals = [{}, {}, { name := "u", update := "4" }, { name := "t", update := "5" }]
      ∧ (acc.merge (part.merge new)).others = [("padding", .bool false), ("width", .null)] := by
  intro acc part new
  have hpart : Dict.Sorted part.others := by decide
  have hstages : ∀ parts ∈ [[part, new]], ∀ p ∈ parts, Dict.Sorted p.others := by
    simp only [forall_mem_singleton, forall_mem_cons]
    exact ⟨hpart, by decide⟩
  obtain ⟨hassoc, hfold⟩ := merge_associative acc part new hpart [[part, new]] hstages
  exact ⟨hassoc, hfold, rfl, rfl⟩

end Graph

end AnimatedChart

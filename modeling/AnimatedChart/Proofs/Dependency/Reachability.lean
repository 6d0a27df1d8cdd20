import AnimatedChart.Proofs.Dependency.Exactness
import Mathlib.Data.List.Dedup

/-!
# What a name reads, directly or not

`Dependencies.reads` goes from level to level. Every name is found at its distance and at no other one (`AtLevel`), and
each level that is not empty uses up an edge, so there are enough rounds (`levels_of_le`).
-/

open List

namespace AnimatedChart.Dependency.Dependencies

open Relation

variable {d : Dependencies} {r x y : Ref} {seen level : List Ref} {k m n rounds : Nat}

def Reads (d : Dependencies) (x y : Ref) : Prop := ⟨y, x⟩ ∈ d.edges

/-- A name is reached from another one over so many edges. -/
inductive Reaches (d : Dependencies) (r : Ref) : Nat → Ref → Prop
  | start : Reaches d r 0 r
  | next {n : Nat} {x y : Ref} (h : Reaches d r n x) (hxy : d.Reads x y) : Reaches d r (n + 1) y

/-- The length of the shortest path between two names. -/
structure Distance (d : Dependencies) (r x : Ref) (n : Nat) : Prop where
  reaches : d.Reaches r n x
  least : ∀ m, d.Reaches r m x → n ≤ m

theorem mem_dependencies : y ∈ d.dependencies x ↔ d.Reads x y := by
  simp only [dependencies, mem_map, mem_filter, beq_iff_eq, Reads]
  constructor
  · rintro ⟨e, ⟨he, rfl⟩, rfl⟩
    exact he
  · exact fun h => ⟨_, ⟨h, rfl⟩, rfl⟩

theorem mem_nextLevel : y ∈ d.nextLevel seen level ↔ (∃ x ∈ level, d.Reads x y) ∧ y ∉ seen := by
  simp only [nextLevel, mem_eraseDups, mem_filter, mem_flatMap, mem_dependencies, Bool.not_eq_true',
    contains_eq_mem, decide_eq_false_iff_not]

theorem Distance.unique (hm : d.Distance r x m) (hn : d.Distance r x n) : m = n :=
  Nat.le_antisymm (hm.least n hn.reaches) (hn.least m hm.reaches)

theorem Reaches.distance (h : d.Reaches r n x) : ∃ m ≤ n, d.Distance r x m := by
  induction n using Nat.strongRecOn with
  | ind n ih =>
    by_cases hleast : ∀ m, d.Reaches r m x → n ≤ m
    · exact ⟨n, Nat.le_refl n, h, hleast⟩
    · simp only [not_forall, Nat.not_le] at hleast
      obtain ⟨m, hm, hlt⟩ := hleast
      obtain ⟨l, hle, hl⟩ := ih m hlt hm
      exact ⟨l, by omega, hl⟩

theorem reaches_iff_transGen (hne : x ≠ r) : (∃ n, d.Reaches r n x) ↔ TransGen d.Reads r x := by
  constructor
  · rintro ⟨n, h⟩
    induction h with
    | start => exact absurd rfl hne
    | @next n x y h hxy ih =>
      by_cases hx : x = r
      · subst hx
        exact .single hxy
      · exact .tail (ih hx) hxy
  · intro h
    clear hne
    induction h with
    | single h => exact ⟨1, .next .start h⟩
    | tail _ h ih =>
      obtain ⟨n, hn⟩ := ih
      exact ⟨n + 1, .next hn h⟩

/-! ## Levels -/

/-- The level is at distance `k`, and all nearer names have been seen. -/
structure AtLevel (d : Dependencies) (r : Ref) (k : Nat) (seen level : List Ref) : Prop where
  seen : ∀ x, x ∈ seen ↔ ∃ n ≤ k, d.Distance r x n
  level : ∀ x, x ∈ level ↔ d.Distance r x k

theorem distance_zero : d.Distance r x 0 ↔ x = r := by
  constructor
  · rintro ⟨h, -⟩
    cases h
    rfl
  · rintro rfl
    exact ⟨.start, fun m _ => Nat.zero_le m⟩

namespace AtLevel

theorem start (d : Dependencies) (r : Ref) : AtLevel d r 0 [r] [r] where
  seen x := by simp [distance_zero]
  level x := by rw [mem_singleton, distance_zero]

theorem mem_nextLevel (h : AtLevel d r k seen level) : y ∈ d.nextLevel seen level ↔ d.Distance r y (k + 1) := by
  rw [Dependencies.mem_nextLevel, h.seen]
  constructor
  · rintro ⟨⟨x, hx, hxy⟩, hnew⟩
    refine ⟨.next ((h.level x).mp hx).reaches hxy, fun m hm => ?_⟩
    -- A shorter path would have led to a name that has been seen.
    by_contra hlt
    obtain ⟨l, hle, hl⟩ := hm.distance
    exact hnew ⟨l, by omega, hl⟩
  · intro hy
    refine ⟨?_, fun ⟨n, hle, hn⟩ => absurd (hn.unique hy) (by omega)⟩
    obtain ⟨hreaches, hleast⟩ := hy
    cases hreaches with
    | @next _ x _ hx hxy =>
      obtain ⟨m, hle, hm⟩ := hx.distance
      have hge := hleast (m + 1) (.next hm.reaches hxy)
      obtain rfl : m = k := by omega
      exact ⟨x, (h.level x).mpr hm, hxy⟩

theorem next (h : AtLevel d r k seen level) :
    AtLevel d r (k + 1) (seen ++ d.nextLevel seen level) (d.nextLevel seen level) where
  seen x := by
    rw [mem_append, h.seen, h.mem_nextLevel]
    constructor
    · rintro (⟨n, hle, hn⟩ | hn)
      · exact ⟨n, by omega, hn⟩
      · exact ⟨k + 1, Nat.le_refl _, hn⟩
    · rintro ⟨n, hle, hn⟩
      rcases Nat.lt_or_eq_of_le hle with hlt | rfl
      · exact .inl ⟨n, by omega, hn⟩
      · exact .inr hn
  level x := h.mem_nextLevel

theorem mem_seen (h : AtLevel d r k seen level) (hlast : d.nextLevel seen level = []) (hx : d.Reaches r n x) :
    x ∈ seen := by
  induction hx with
  | start => exact (h.seen r).mpr ⟨0, Nat.zero_le k, distance_zero.mpr rfl⟩
  | @next n x y _ hxy ih =>
    obtain ⟨m, hle, hm⟩ := (h.seen x).mp ih
    obtain ⟨l, hle', hl⟩ := (Reaches.next hm.reaches hxy).distance
    rcases Nat.lt_or_ge k l with hlt | hge
    · obtain rfl : l = k + 1 := by omega
      have hy := h.mem_nextLevel.mpr hl
      rw [hlast] at hy
      cases hy
    · exact (h.seen y).mpr ⟨l, hge, hl⟩

end AtLevel

def unseen (d : Dependencies) (seen : List Ref) : List Edge := d.edges.filter fun e => e.source ∉ seen

theorem levels_succ (d : Dependencies) (rounds : Nat) (seen level : List Ref) : d.levels (rounds + 1) seen level =
    if d.nextLevel seen level = [] then []
    else d.nextLevel seen level ++ d.levels rounds (seen ++ d.nextLevel seen level) (d.nextLevel seen level) := by
  rw [levels]
  split
  · next h => rw [if_pos h]
  · next h => rw [if_neg h]

theorem length_unseen_lt (h : d.nextLevel seen level ≠ []) :
    (d.unseen (seen ++ d.nextLevel seen level)).length < (d.unseen seen).length := by
  obtain ⟨y, hy⟩ := exists_mem_of_ne_nil _ h
  obtain ⟨⟨x, -, hxy⟩, hnew⟩ := mem_nextLevel.mp hy
  have hfilter : d.unseen (seen ++ d.nextLevel seen level)
      = (d.unseen seen).filter fun e => e.source ∉ d.nextLevel seen level := by
    rw [unseen, unseen, filter_filter]
    refine filter_congr fun e _ => ?_
    simp only [mem_append, not_or, Bool.decide_and, Bool.and_comm]
  rw [hfilter, length_filter_lt_length_iff_exists]
  exact ⟨⟨y, x⟩, mem_filter.mpr ⟨hxy, by simpa using hnew⟩, by simpa using hy⟩

theorem nextLevel_of_unseen (h : (d.unseen seen).length ≤ 0) : d.nextLevel seen level = [] := by
  by_contra hne
  exact absurd (length_unseen_lt hne) (by omega)

theorem levels_of_le (h : (d.unseen seen).length ≤ m) (hle : m ≤ n) : d.levels n seen level = d.levels m seen level := by
  induction m generalizing n seen level with
  | zero =>
    cases n with
    | zero => rfl
    | succ n => rw [levels_succ, if_pos (nextLevel_of_unseen h), levels]
  | succ m ih =>
    obtain ⟨n, rfl⟩ : ∃ n', n = n' + 1 := ⟨n - 1, by omega⟩
    rw [levels_succ, levels_succ]
    split
    · rfl
    · next hne =>
      have hlt := length_unseen_lt hne
      rw [ih (by omega) (by omega)]

/-! ## The names that are found -/

theorem nodup_eraseDups {α : Type} [BEq α] [LawfulBEq α] (as : List α) : as.eraseDups.Nodup := by
  induction hlength : as.length using Nat.strongRecOn generalizing as with
  | ind n ih =>
    cases as with
    | nil => exact .nil
    | cons a as =>
      rw [eraseDups_cons, nodup_cons, mem_eraseDups]
      refine ⟨by simp, ih _ ?_ _ rfl⟩
      rw [← hlength, length_cons]
      exact Nat.lt_succ_of_le (length_filter_le _ as)

/-- The names that are reached beyond those that have been seen, each once, and the nearest first. -/
structure Found (d : Dependencies) (r : Ref) (seen out : List Ref) : Prop where
  mem : ∀ x, x ∈ out ↔ (∃ n, d.Reaches r n x) ∧ x ∉ seen
  once : out.Nodup
  nearest : out.Pairwise fun x y => ∀ m n, d.Distance r x m → d.Distance r y n → m ≤ n

theorem AtLevel.found_nil (h : AtLevel d r k seen level) (hlast : d.nextLevel seen level = []) : Found d r seen [] where
  mem x := by
    refine ⟨by simp, ?_⟩
    rintro ⟨⟨n, hn⟩, hx⟩
    exact absurd (h.mem_seen hlast hn) hx
  once := .nil
  nearest := .nil

theorem AtLevel.found_append (h : AtLevel d r k seen level) {out : List Ref}
    (hout : Found d r (seen ++ d.nextLevel seen level) out) : Found d r seen (d.nextLevel seen level ++ out) where
  mem x := by
    rw [mem_append, hout.mem, mem_append, not_or]
    constructor
    · rintro (hx | ⟨hreached, hx, -⟩)
      · exact ⟨⟨_, (h.mem_nextLevel.mp hx).reaches⟩, (Dependencies.mem_nextLevel.mp hx).2⟩
      · exact ⟨hreached, hx⟩
    · rintro ⟨hreached, hx⟩
      by_cases hnext : x ∈ d.nextLevel seen level
      · exact .inl hnext
      · exact .inr ⟨hreached, hx, hnext⟩
  once := by
    refine (nodup_eraseDups _).append hout.once fun x hx hx' => ?_
    exact ((hout.mem x).mp hx').2 (mem_append_right _ hx)
  nearest := by
    refine pairwise_append.mpr ⟨pairwise_of_forall_mem_list fun x hx y hy m n hm hn => ?_, hout.nearest,
      fun x hx y hy m n hm hn => ?_⟩
    · exact Nat.le_of_eq ((hm.unique (h.mem_nextLevel.mp hx)).trans (hn.unique (h.mem_nextLevel.mp hy)).symm)
    · -- What is nearer than the level, or on it, is not found behind it.
      rw [hm.unique (h.mem_nextLevel.mp hx)]
      by_contra hlt
      exact ((hout.mem y).mp hy).2 ((h.next.seen y).mpr ⟨n, by omega, hn⟩)

theorem AtLevel.found (h : AtLevel d r k seen level) (hrounds : (d.unseen seen).length ≤ rounds) :
    Found d r seen (d.levels rounds seen level) := by
  induction rounds generalizing k seen level with
  | zero => exact h.found_nil (nextLevel_of_unseen hrounds)
  | succ rounds ih =>
    rw [levels_succ]
    split
    · next hlast => exact h.found_nil hlast
    · next hne =>
      have hlt := length_unseen_lt hne
      exact h.found_append (ih h.next (by omega))

theorem length_unseen_le (d : Dependencies) (seen : List Ref) : (d.unseen seen).length ≤ d.edges.length :=
  length_filter_le _ _

theorem has_of_reads (g : Graph) (h : (ofGraph g).Reads x y) : (ofGraph g).has y = true :=
  ((wired_ofGraph g).joined _ h).1

/-- What a name reads, directly or not, is what can be reached from it over edges, the name itself apart: each such node
is listed once, no node before a nearer one, and no more rounds than edges are needed. -/
theorem reads_reachable (g : Graph) (r : Ref) :
    (∀ x, x ∈ (ofGraph g).reads r ↔ (ofGraph g).has x = true ∧ x ≠ r ∧ TransGen (ofGraph g).Reads r x)
      ∧ ((ofGraph g).reads r).Nodup
      ∧ (∃ distance : Ref → Nat, (∀ x ∈ (ofGraph g).reads r, (ofGraph g).Distance r x (distance x))
          ∧ ((ofGraph g).reads r).Pairwise fun x y => distance x ≤ distance y)
      ∧ ∀ rounds ≥ (ofGraph g).edges.length, (ofGraph g).levels rounds [r] [r] = (ofGraph g).reads r := by
  have hfound : Found (ofGraph g) r [r] ((ofGraph g).reads r) :=
    (AtLevel.start (ofGraph g) r).found (length_unseen_le (ofGraph g) [r])
  refine ⟨fun x => ?_, hfound.once, ?_, fun rounds hle => ?_⟩
  · rw [hfound.mem, mem_singleton]
    constructor
    · rintro ⟨hreached, hne⟩
      have hpath := (reaches_iff_transGen hne).mp hreached
      obtain ⟨y, -, hlast⟩ := TransGen.tail'_iff.mp hpath
      exact ⟨has_of_reads g hlast, hne, hpath⟩
    · rintro ⟨-, hne, hpath⟩
      exact ⟨(reaches_iff_transGen hne).mpr hpath, hne⟩
  · have hreached : ∀ x ∈ (ofGraph g).reads r, ∃ n, (ofGraph g).Distance r x n := by
      intro x hx
      obtain ⟨⟨n, hn⟩, -⟩ := (hfound.mem x).mp hx
      exact hn.distance.imp fun _ h => h.2
    choose! distance hdistance using hreached
    exact ⟨distance, hdistance, hfound.nearest.imp_of_mem fun hx hy h => h _ _ (hdistance _ hx) (hdistance _ hy)⟩
  · exact levels_of_le (length_unseen_le (ofGraph g) [r]) hle

end AnimatedChart.Dependency.Dependencies

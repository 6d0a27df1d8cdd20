import AnimatedChart.Animation.Keyframes
import AnimatedChart.Proofs.Dict
import AnimatedChart.Proofs.Paths

/-!
# Names of a scope

Units that draw one source with one filter share their keyframe datasets. A second filter on a source gets a stem with
the unit's index, and such a stem is always new, because the names of sources that marks draw do not end that way
(`Stage.stemFor_cases`).
-/

open List

namespace AnimatedChart.Animation

open Spec

variable {i : Nat} {source stem suffix : String} {st : Stage}

/-- The name of a scale that animation does not add: time scales start with a `t`, and twins end with one. -/
def Unclaimed (n : String) : Prop := n.toList.head? ≠ some 't' ∧ n.toList.getLast? ≠ some 't'

instance : DecidablePred Unclaimed := fun _ => inferInstanceAs (Decidable (_ ∧ _))

/-- The name of a dataset that marks draw: a numbered one, or one that ends with a word. -/
def Regular (n : String) : Prop :=
  (∃ k : Nat, n = s!"data_{k}") ∨ n ≠ "data" ∧ ∀ c ∈ n.toList.getLast?, c.isDigit = false

theorem Regular.ne_numbered {a b : String} (ha : Regular a) (hb : Regular b) (i : Nat) : b ≠ s!"{a}_{i}" := by
  intro heq
  have hdata : a ≠ "data" := by
    rintro rfl
    rcases ha with ⟨k, hk⟩ | ⟨hne, -⟩
    · have hlist := congrArg String.toList hk
      have hnumbered : (s!"data_{k}").toList = "data".toList ++ '_' :: Nat.toDigits 10 k := toList_numbered "data" k
      simpa using congrArg length (hlist.trans hnumbered)
    · exact hne rfl
  rcases hb with ⟨k, hk⟩ | ⟨-, hlast⟩
  · exact hdata (@numbered_inj a "data" i k (heq.symm.trans hk)).1
  · rw [heq, toList_numbered, getLast?_append, getLast?_cons] at hlast
    have hne : Nat.toDigits 10 i ≠ [] := Nat.toDigits_ne_nil
    rw [getLast?_eq_some_getLast hne] at hlast
    have hdigit := Nat.isDigit_of_mem_toDigits (b := 10) (by decide) (by decide) (getLast_mem hne)
    have hfalse := hlast _ rfl
    rw [Option.getD_some] at hfalse
    exact Bool.false_ne_true (hfalse.symm.trans hdigit)

/-- A stem of a scope with the given suffix, made for one of the first `i` units. -/
def IsStem (suffix : String) (i : Nat) (stem : String) : Prop :=
  ∃ source, Regular source ∧ (stem = source ++ suffix ∨ ∃ j < i, stem = s!"{source}_{j}" ++ suffix)

theorem IsStem.mono {j : Nat} (h : IsStem suffix i stem) (hij : i ≤ j) : IsStem suffix j stem := by
  obtain ⟨source, hsource, h | ⟨k, hk, h⟩⟩ := h
  · exact ⟨source, hsource, .inl h⟩
  · exact ⟨source, hsource, .inr ⟨k, by omega, h⟩⟩

theorem IsStem.ne_numbered (h : IsStem suffix i stem) (hs : Regular source) : stem ≠ s!"{source}_{i}" ++ suffix := by
  obtain ⟨source', hsource', rfl | ⟨j, hj, rfl⟩⟩ := h
  · exact fun heq => hs.ne_numbered hsource' i (String.append_left_inj suffix |>.mp heq)
  · intro heq
    have hij := (numbered_inj (String.append_left_inj suffix |>.mp heq)).2
    omega

theorem Stage.stemFor_eq (st : Stage) (source filter : String) (i : Nat) : ∃ stem, Dict.get? st.prefixes stem = none
        ∧ st.stemFor source filter i = (stem, true, { st with prefixes := Dict.put stem filter st.prefixes })
        ∧ (stem = source ++ st.scope.id.suffix ∨ stem = s!"{source}_{i}" ++ st.scope.id.suffix)
      ∨ ∃ f, Dict.get? st.prefixes stem = some f ∧ st.stemFor source filter i = (stem, false, st)
        ∧ (stem = source ++ st.scope.id.suffix ∧ f = filter ∨ stem = s!"{source}_{i}" ++ st.scope.id.suffix) := by
  unfold stemFor
  dsimp only
  split
  · next hnone => exact ⟨_, .inl ⟨hnone, rfl, .inl rfl⟩⟩
  · next f hf =>
    split
    · next heq => exact ⟨_, .inr ⟨f, hf, rfl, .inl ⟨rfl, heq⟩⟩⟩
    · split
      · next hhas =>
        obtain ⟨g, hg⟩ := Option.ne_none_iff_exists'.mp
          fun hnone => Dict.get?_eq_none.mp hnone (Dict.has_eq_true.mp hhas)
        exact ⟨_, .inr ⟨g, hg, rfl, .inr rfl⟩⟩
      · next hhas => exact ⟨_, .inl ⟨Dict.get?_eq_none.mpr fun hmem => hhas (Dict.has_eq_true.mpr hmem), rfl, .inr rfl⟩⟩

theorem Stage.stemFor_cases (filter : String) (hs : Regular source)
    (hstems : ∀ e ∈ st.prefixes, IsStem st.scope.id.suffix i e.1) :
    (∃ stem, st.stemFor source filter i = (stem, true, { st with prefixes := Dict.put stem filter st.prefixes })
      ∧ (stem = source ++ st.scope.id.suffix ∨ stem = s!"{source}_{i}" ++ st.scope.id.suffix)
      ∧ stem ∉ st.prefixes.map (·.1)) ∨
    ∃ stem, st.stemFor source filter i = (stem, false, st) ∧ stem = source ++ st.scope.id.suffix
      ∧ (stem, filter) ∈ st.prefixes := by
  obtain ⟨stem, ⟨hnone, heq, hstem⟩ | ⟨f, hf, heq, hstem⟩⟩ := st.stemFor_eq source filter i
  · exact .inl ⟨stem, heq, hstem, Dict.get?_eq_none.mp hnone⟩
  · have hmem := Dict.mem_of_get? hf
    rcases hstem with ⟨hbase, rfl⟩ | hnumbered
    · exact .inr ⟨stem, heq, hbase, hmem⟩
    · exact absurd hnumbered ((hstems _ hmem).ne_numbered hs)

/-! ## Shared stems -/

/-- What a unit tells of the datasets that it needs. -/
structure StemRequest where
  source : String
  filter : String
  index : Nat
deriving DecidableEq

structure StemAnswer extends StemRequest where
  stem : String
  fresh : Bool
deriving DecidableEq

/-- The answers to requests that are made one after the other. -/
def Stage.stemsFor (st : Stage) : List StemRequest → List StemAnswer
  | [] => []
  | q :: qs =>
    let (stem, fresh, st) := st.stemFor q.source q.filter q.index
    { q with stem, fresh } :: st.stemsFor qs

/-- The stage knows the stem of an answer, with the filter of the unit unless the stem was made for its index. -/
def Stage.Issued (st : Stage) (x : StemAnswer) : Prop :=
  ∃ f, Dict.get? st.prefixes x.stem = some f
    ∧ (x.stem = x.source ++ st.scope.id.suffix ∧ f = x.filter ∨ x.stem = s!"{x.source}_{x.index}" ++ st.scope.id.suffix)

/-- The stems that the stage knows are those of the given answers. -/
structure Stage.Records (st : Stage) (seen : List StemAnswer) : Prop where
  issued : ∀ x ∈ seen, st.Issued x
  given : ∀ n f, Dict.get? st.prefixes n = some f → ∃ x ∈ seen, x.stem = n

/-- The exception to sharing: a source named like another one with its unit's index. -/
def StemAnswer.Mimics (x y : StemAnswer) : Prop := x.source = s!"{y.source}_{y.index}"

theorem Stage.Issued.shared {x y : StemAnswer} (hx : st.Issued x) (hy : st.Issued y)
    (hindex : x.index ≠ y.index) (hstem : x.stem = y.stem) :
    x.source = y.source ∧ x.filter = y.filter ∨ x.Mimics y ∨ y.Mimics x := by
  obtain ⟨f, hf, hx⟩ := hx
  obtain ⟨g, hg, hy⟩ := hy
  obtain rfl : f = g := by simpa [hstem, hg, eq_comm] using hf
  have hcancel {a b : String} (ha : x.stem = a ++ st.scope.id.suffix) (hb : y.stem = b ++ st.scope.id.suffix) : a = b :=
    String.append_left_inj st.scope.id.suffix |>.mp (ha.symm.trans (hstem.trans hb))
  rcases hx with ⟨hx, hfx⟩ | hx <;> rcases hy with ⟨hy, hfy⟩ | hy
  · exact .inl ⟨hcancel hx hy, hfx.symm.trans hfy⟩
  · exact .inr (.inl (hcancel hx hy))
  · exact .inr (.inr (hcancel hx hy).symm)
  · exact absurd (numbered_inj (hcancel hx hy)).2 hindex

/-- One request: the stem is new exactly if no answer before had it, and the stage knows it from then on. -/
theorem Stage.Records.step {st' : Stage} {seen : List StemAnswer} {q : StemRequest} {fresh : Bool}
    (h : st.Records seen) (hq : st.stemFor q.source q.filter q.index = (stem, fresh, st')) :
    st'.Records (seen ++ [{ q with stem, fresh }]) ∧ (fresh = true ↔ ∀ x ∈ seen, x.stem ≠ stem) := by
  obtain ⟨n, ⟨hnone, heq, hn⟩ | ⟨f, hf, heq, hn⟩⟩ := st.stemFor_eq q.source q.filter q.index
  · obtain ⟨rfl, rfl, rfl⟩ : n = stem ∧ true = fresh ∧ _ = st' := by simpa [heq] using hq
    have hnew : ∀ x ∈ seen, x.stem ≠ n := by
      rintro x hx rfl
      obtain ⟨f, hf, -⟩ := h.issued x hx
      simp [hnone] at hf
    refine ⟨⟨fun x hx => ?_, fun m f hm => ?_⟩, by simpa using hnew⟩
    · rcases mem_append.mp hx with hx | hx
      · obtain ⟨f, hf, hstem⟩ := h.issued x hx
        exact ⟨f, by rwa [Dict.get?_put, if_neg (hnew x hx)], hstem⟩
      · obtain rfl := mem_singleton.mp hx
        exact ⟨q.filter, by rw [Dict.get?_put, if_pos rfl], hn.imp_left fun hn => ⟨hn, rfl⟩⟩
    · rw [Dict.get?_put] at hm
      split at hm
      · next hmn => exact ⟨_, mem_append_right _ (mem_singleton_self _), hmn.symm⟩
      · obtain ⟨x, hx, hstem⟩ := h.given m f hm
        exact ⟨x, mem_append_left _ hx, hstem⟩
  · obtain ⟨rfl, rfl, rfl⟩ : n = stem ∧ false = fresh ∧ st = st' := by simpa [heq] using hq
    obtain ⟨y, hy, hstem⟩ := h.given n f hf
    refine ⟨⟨fun x hx => ?_, fun m g hm => ?_⟩, by simpa using ⟨y, hy, hstem⟩⟩
    · rcases mem_append.mp hx with hx | hx
      · exact h.issued x hx
      · obtain rfl := mem_singleton.mp hx
        exact ⟨f, hf, hn⟩
    · obtain ⟨x, hx, hstem⟩ := h.given m g hm
      exact ⟨x, mem_append_left _ hx, hstem⟩

theorem Stage.Records.run {seen before after : List StemAnswer} {qs : List StemRequest} {a : StemAnswer}
    (h : st.Records seen) (hindex : (seen.map (·.toStemRequest) ++ qs).Pairwise (·.index ≠ ·.index))
    (hrun : st.stemsFor qs = before ++ a :: after) : (a.fresh = true ↔ ∀ x ∈ seen ++ before, x.stem ≠ a.stem)
      ∧ ∀ x ∈ seen ++ before, x.stem = a.stem →
        x.source = a.source ∧ x.filter = a.filter ∨ x.Mimics a ∨ a.Mimics x := by
  induction before generalizing st seen qs with
  | nil =>
    cases qs with
    | nil => cases hrun
    | cons q qs =>
      obtain ⟨rfl, -⟩ := List.cons.inj hrun
      obtain ⟨hrecords, hfresh⟩ := h.step (q := q) rfl
      rw [append_nil]
      refine ⟨hfresh, fun x hx hstem => ?_⟩
      have hne : x.index ≠ q.index :=
        (pairwise_append.mp hindex).2.2 _ (mem_map_of_mem hx) q mem_cons_self
      exact (hrecords.issued x (mem_append_left _ hx)).shared
        (hrecords.issued _ (mem_append_right _ (mem_singleton_self _))) hne hstem
  | cons b before ih =>
    cases qs with
    | nil => cases hrun
    | cons q qs =>
      obtain ⟨rfl, hrest⟩ := List.cons.inj hrun
      simpa using ih (h.step (q := q) rfl).1 (by simpa using hindex) hrest

/-- A stem is reported as new once, by the first answer that has it. Units with different indices share a stem only if
they have the same source and the same filter, or if one's source is named like the other's with its index. -/
theorem Stage.stemsFor_shared {st : Stage} (hnew : st.prefixes = []) {qs : List StemRequest}
    (hindex : qs.Pairwise (·.index ≠ ·.index)) {before after : List StemAnswer} {a : StemAnswer}
    (hrun : st.stemsFor qs = before ++ a :: after) :
    (a.fresh = true ↔ ∀ x ∈ before, x.stem ≠ a.stem)
      ∧ ∀ x ∈ before, x.stem = a.stem → x.source = a.source ∧ x.filter = a.filter ∨ x.Mimics a ∨ a.Mimics x :=
  have hrecords : st.Records [] := ⟨nofun, by simp [hnew, Dict.get?]⟩
  hrecords.run hindex hrun

/-- The exception does occur: the dataset of a third unit is named like the stem that the second one was given. -/
theorem stemsFor_shared_mimicked : (default : Stage).stemsFor [⟨"rows", "a", 0⟩, ⟨"rows", "b", 1⟩, ⟨"rows_1", "b", 2⟩]
        = [⟨⟨"rows", "a", 0⟩, "rows", true⟩, ⟨⟨"rows", "b", 1⟩, "rows_1", true⟩] ++ [⟨⟨"rows_1", "b", 2⟩, "rows_1", false⟩]
      ∧ StemAnswer.Mimics ⟨⟨"rows_1", "b", 2⟩, "rows_1", false⟩ ⟨⟨"rows", "b", 1⟩, "rows_1", true⟩ := by
  have hrun : (default : Stage).stemsFor [⟨"rows", "a", 0⟩, ⟨"rows", "b", 1⟩, ⟨"rows_1", "b", 2⟩]
      = [⟨⟨"rows", "a", 0⟩, "rows", true⟩, ⟨⟨"rows", "b", 1⟩, "rows_1", true⟩] ++ [⟨⟨"rows_1", "b", 2⟩, "rows_1", false⟩] := by
    decide +kernel
  refine ⟨hrun, ?_⟩
  obtain ⟨h, -⟩ | h | h := (Stage.stemsFor_shared rfl (by decide) hrun).2 ⟨⟨"rows", "b", 1⟩, "rows_1", true⟩ (by simp) rfl
  · exact absurd h (by decide)
  · unfold StemAnswer.Mimics at h
    exact absurd h (by decide +kernel)
  · exact h

end AnimatedChart.Animation

import AnimatedChart.Proofs.Animation.Stems
import AnimatedChart.Proofs.Scope.Names

/-!
# Names of derived datasets

The datasets that a scope derives of a source are named by the source, possibly the index of a unit, the suffix of the
scope, and a word.
-/

open List

namespace AnimatedChart.Animation

open Spec

theorem EndsDigit.suffix {n : String} (h : EndsDigit n) {id : ScopeId} (hid : id.IsPath) : EndsDigit (n ++ id.suffix) := by
  cases hid with
  | root => simpa [ScopeId.suffix, ScopeId.isRoot, ScopeId.root] using h
  | @child id kind _ _ i =>
    rw [ScopeId.suffix_child, ← String.append_assoc]
    exact endsDigit_append _ i

theorem EndsDigit.append_inj {x y a b : String} (hx : EndsDigit x) (hy : EndsDigit y)
    (ha : a.toList.all (!·.isDigit) = true) (hb : b.toList.all (!·.isDigit) = true) (h : x ++ a = y ++ b) :
    x = y ∧ a = b := by
  have htake {x a : String} (hx : EndsDigit x) (ha : a.toList.all (!·.isDigit) = true) :
      (x ++ a).toList.reverse.takeWhile (!·.isDigit) = a.toList.reverse := by
    obtain ⟨c, hc, hdigit⟩ := hx
    obtain ⟨rest, hrest⟩ := getLast?_eq_some_iff.mp hc
    rw [String.toList_append, reverse_append, takeWhile_append_of_pos fun d hd =>
      all_eq_true.mp ha d (mem_reverse.mp hd), hrest, reverse_append, reverse_singleton,
      singleton_append, takeWhile_cons_of_neg (by simp [hdigit]), append_nil]
  have htail : a = b := by
    have hreverse := htake hx ha
    rw [h, htake hy hb] at hreverse
    exact String.toList_inj.mp (reverse_inj.mp hreverse.symm)
  subst htail
  exact ⟨String.append_left_inj a |>.mp h, rfl⟩

/-! ## Roots -/

def sourceName (k : Nat) : String := s!"data_{k}"

theorem sourceName_eq (k : Nat) : sourceName k = "data" ++ "_" ++ toString k := by
  show "data_" ++ toString k = "data" ++ "_" ++ toString k
  rw [show "data" ++ "_" = "data_" by decide]

theorem endsDigit_sourceName (k : Nat) : EndsDigit (sourceName k) := endsDigit_append "data_" k

theorem sourceName_ne (k : Nat) : sourceName k ≠ "" := by
  intro hempty
  obtain ⟨c, hc, -⟩ := endsDigit_sourceName k
  rw [hempty] at hc
  cases hc

theorem regular_sourceName (k : Nat) : Regular (sourceName k) := .inl ⟨k, rfl⟩

theorem sourceName_inj {k k' : Nat} (h : sourceName k = sourceName k') : k = k' := by
  rw [sourceName_eq, sourceName_eq] at h
  exact (@numbered_inj "data" "data" k k' h).2

/-- What datasets that are derived of a source are named after, before the suffix of the scope: the source, possibly
with an index. -/
inductive IsRoot (k : Nat) : String → Prop
  | source : IsRoot k (sourceName k)
  | indexed (i : Nat) : IsRoot k s!"{sourceName k}_{i}"

namespace IsRoot

variable {k k' : Nat} {root : String}

theorem endsDigit (h : IsRoot k root) : EndsDigit root := by
  cases h with
  | source => exact endsDigit_sourceName k
  | indexed i => exact endsDigit_append (sourceName k ++ "_") i

theorem unnested (h : IsRoot k root) : Unnested root := by
  intro a kind i hkind heq
  have hlast {n : String} (hword : n = a ++ "_" ++ kind) : ¬EndsDigit n ∧ n.toList.getLast? ≠ some 'a' := by
    have hkindLast : n.toList.getLast? = some 'r' ∨ n.toList.getLast? = some 't' := by
      rw [hword]
      rcases hkind with rfl | rfl <;> simp
    refine ⟨fun ⟨c, hc, hdigit⟩ => ?_, fun hc => ?_⟩
    · rcases hkindLast with h | h
      · obtain rfl := Option.some.inj (h.symm.trans hc)
        exact absurd hdigit (by decide)
      · obtain rfl := Option.some.inj (h.symm.trans hc)
        exact absurd hdigit (by decide)
    · rcases hkindLast with h | h
      · exact absurd (Option.some.inj (h.symm.trans hc)) (by decide)
      · exact absurd (Option.some.inj (h.symm.trans hc)) (by decide)
  cases h with
  | source =>
    rw [sourceName_eq] at heq
    exact (hlast (@numbered_inj "data" (a ++ "_" ++ kind) k i heq).1).2 rfl
  | indexed j => exact (hlast (@numbered_inj (sourceName k) (a ++ "_" ++ kind) j i heq).1).1 (endsDigit_sourceName k)

theorem head (h : IsRoot k root) : root.toList.head? = some 'd' := by
  have hsource (k : Nat) : (sourceName k).toList.head? = some 'd' := by
    show ("data_" ++ toString k).toList.head? = _
    simp
  cases h with
  | source => exact hsource k
  | indexed i =>
    rw [toList_numbered, head?_append, hsource k]
    rfl

theorem source_inj (h : IsRoot k root) (h' : IsRoot k' root) : k = k' := by
  generalize hroot : root = root' at h'
  cases h with
  | source =>
    cases h' with
    | source => exact sourceName_inj hroot
    | indexed j => exact absurd hroot ((regular_sourceName k').ne_numbered (regular_sourceName k) j)
  | indexed i =>
    cases h' with
    | source => exact absurd hroot.symm ((regular_sourceName k).ne_numbered (regular_sourceName k') i)
    | indexed j => exact sourceName_inj (numbered_inj hroot).1

end IsRoot

/-! ## Owners -/

def chainTails : List String := ["_curr", "_next", "_eq", "_eq_next", "_interpolate", "_continuity"]

theorem chainTails_all : ∀ tail ∈ chainTails, tail.toList.all (!·.isDigit) = true := by decide

theorem IsRoot.name_inj {k k' : Nat} {root root' : String} (h : IsRoot k root) (h' : IsRoot k' root') {id id' : ScopeId}
    (hid : id.IsPath) (hid' : id'.IsPath) {tail tail' : String} (htail : tail ∈ chainTails) (htail' : tail' ∈ chainTails)
    (heq : root ++ id.suffix ++ tail = root' ++ id'.suffix ++ tail') : root = root' ∧ id = id' ∧ tail = tail' := by
  obtain ⟨hstem, rfl⟩ := (h.endsDigit.suffix hid).append_inj (h'.endsDigit.suffix hid') (chainTails_all _ htail)
    (chainTails_all _ htail') heq
  obtain ⟨rfl, rfl⟩ := ScopeId.name_inj hid hid' h.unnested h'.unnested hstem
  exact ⟨rfl, rfl, rfl⟩

/-- A dataset that animating a scope may add. -/
inductive OwnData (s : Scope) : String → Prop
  | word {n : String} (h : n ∈ s.datasetNames) : OwnData s n
  | chain {k : Nat} {root tail : String} (hroot : IsRoot k root) (htail : tail ∈ chainTails) :
    OwnData s (root ++ s.id.suffix ++ tail)

theorem head_datasetNames {s : Scope} {n : String} (h : n ∈ s.datasetNames) : n.toList.head? = some 't' := by
  obtain ⟨w, hw, rfl⟩ := mem_map.mp h
  have hwords : ∀ w ∈ Scope.datasetWords, w.toList.head? = some 't' := by decide
  rw [Scope.qualify, ScopeId.name, String.toList_append, head?_append, hwords w hw]
  rfl

theorem head_chain {k : Nat} {root : String} (h : IsRoot k root) (more : String) :
    (root ++ more).toList.head? = some 'd' := by
  rw [String.toList_append, head?_append, h.head]
  rfl

theorem not_ownData_sourceName (s : Scope) (k : Nat) : ¬OwnData s (sourceName k) := by
  generalize hn : sourceName k = n
  rintro (h | ⟨hroot, htail⟩)
  · have hhead := (IsRoot.source : IsRoot k _).head
    rw [hn, head_datasetNames h] at hhead
    cases hhead
  · next root tail =>
    -- A source ends in a digit, and the words for kinds of datasets do not.
    obtain ⟨c, hc, hdigit⟩ := endsDigit_sourceName k
    rw [hn, String.toList_append, List.getLast?_append] at hc
    have hlast : ∀ tail ∈ chainTails, (tail.toList.getLast?.any fun c => !c.isDigit) = true := by decide +kernel
    obtain ⟨d, hd, hdigit'⟩ := (Option.any_eq_true _ _).mp (hlast tail htail)
    rw [hd] at hc
    obtain rfl : d = c := by simpa using hc
    rw [hdigit] at hdigit'
    cases hdigit'

theorem OwnData.inj {s t : Scope} (hs : s.id.IsPath) (ht : t.id.IsPath) {n : String} (h : OwnData s n) (h' : OwnData t n) :
    s.id = t.id := by
  generalize hn : n = n' at h'
  cases h with
  | word h =>
    cases h' with
    | word h' =>
      obtain ⟨v, hv, rfl⟩ := mem_map.mp h
      obtain ⟨w, hw, rfl⟩ := mem_map.mp h'
      have hwords {s : Scope} {w : String} (hw : w ∈ Scope.datasetWords) : w ∈ s.words := by simp [Scope.words, hw]
      exact (Scope.names_inj hs ht (hwords hv) (hwords hw) hn).2
    | @chain _ root tail hroot htail =>
      have hhead := head_datasetNames h
      rw [hn, String.append_assoc, head_chain hroot] at hhead
      cases hhead
  | @chain _ root tail hroot htail =>
    cases h' with
    | word h' =>
      have hhead := head_datasetNames h'
      rw [← hn, String.append_assoc, head_chain hroot] at hhead
      cases hhead
    | chain hroot' htail' => exact (hroot.name_inj hroot' hs ht htail htail' hn).2.1

end AnimatedChart.Animation

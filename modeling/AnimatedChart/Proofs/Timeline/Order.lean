import AnimatedChart.Proofs.Decimal.Whole
import AnimatedChart.Timeline.Join

/-!
# Keyframes of rows

Time values of all kinds are compared with each other, and comparing them is a total preorder: floats by their place
among the floats (`compareNumbers_eq`), texts by their characters, and a number before everything else.
-/

open List

namespace AnimatedChart.Timeline

open Json Decimal Float.Model

/-! ## The order of values -/

/-- Where a float stands among all floats: its kind, then its exponent, then its mantissa. -/
def place : UnpackedFloat → Int × Int × Int
  | .notANumber => (-3, 0, 0)
  | .infinity .negative => (-2, 0, 0)
  | .finite .negative m e _ => (-1, -e, -m)
  | .zero _ => (0, 0, 0)
  | .finite .positive m e _ => (1, e, m)
  | .infinity .positive => (2, 0, 0)

def comparePlaces : Int × Int × Int → Int × Int × Int → Ordering :=
  compareLex (compareOn (·.1)) (compareLex (compareOn (·.2.1)) (compareOn (·.2.2)))

instance : Std.TransCmp comparePlaces := inferInstanceAs (Std.TransCmp (compareLex _ (compareLex _ _)))

theorem comparePlaces_place {f g : UnpackedFloat} {o : Ordering} (h : f.compare g = some o) :
    comparePlaces (place f) (place g) = o := by
  have hnat (m m' : Nat) : compare (m : Int) m' = compare m m' := by simp [compare, compareOfLessAndEq]
  have hneg (a b : Int) : compare (-a) (-b) = (compare a b).swap := by
    rw [← Std.OrientedOrd.eq_swap]
    simp [compare, compareOfLessAndEq, eq_comm]
  rcases f with ⟨_ | _⟩ | _ | ⟨_ | _⟩ | ⟨_ | _, m, e, hm⟩ <;>
    rcases g with ⟨_ | _⟩ | _ | ⟨_ | _⟩ | ⟨_ | _, m', e', hm'⟩ <;> cases h <;> try rfl
  · show (compare (-e) (-e')).then (compare (-(m : Int)) (-(m' : Int))) = _
    rw [hneg, hneg, hnat, Ordering.swap_then]
  · show (compare e e').then (compare (m : Int) m') = _
    rw [hnat]

theorem compareNumbers_eq (x y : Float) :
    compareNumbers x y = comparePlaces (place x.toModel.unpack) (place y.toModel.unpack) := by
  have hplace (f g : UnpackedFloat) :
      (if f.isNaN then (if g.isNaN then .eq else .lt) else if g.isNaN then .gt
        else if f.compare g = some .lt then .lt else if g.compare f = some .lt then .gt else .eq)
        = comparePlaces (place f) (place g) := by
    have hsome := isSome_compare f g
    rw [compare_swap f g]
    cases hcmp : f.compare g with
    | some o =>
      rw [hcmp] at hsome
      obtain ⟨hf, hg⟩ := Bool.or_eq_false_iff.mp (Bool.not_eq_eq_eq_not.mp hsome.symm)
      rw [hf, hg, comparePlaces_place hcmp]
      cases o <;> rfl
    | none =>
      rcases f with ⟨_ | _⟩ | _ | ⟨_ | _⟩ | ⟨_ | _, m, e, hm⟩ <;>
        rcases g with ⟨_ | _⟩ | _ | ⟨_ | _⟩ | ⟨_ | _, m', e', hm'⟩ <;> first | rfl | cases hcmp
  rw [← hplace]
  simp only [compareNumbers, lt_iff]
  rfl

instance : Std.TransCmp compareNumbers where
  eq_swap {x y} := by rw [compareNumbers_eq, compareNumbers_eq, ← Std.OrientedCmp.eq_swap]
  isLE_trans {x y z} hxy hyz := by
    rw [compareNumbers_eq] at hxy hyz ⊢
    exact Std.TransCmp.isLE_trans hxy hyz

instance : Std.TransCmp compareTexts := inferInstanceAs (Std.TransCmp (compare (α := String)))

instance : Std.TransCmp compareValues where
  eq_swap {a b} := by
    unfold compareValues
    cases a.number? with
    | none =>
      cases b.number? with
      | none => exact @Std.OrientedCmp.eq_swap _ compareTexts _ _ _
      | some y => rfl
    | some x =>
      cases b.number? with
      | none => rfl
      | some y => exact @Std.OrientedCmp.eq_swap _ compareNumbers _ _ _
  isLE_trans {a b c} := by
    unfold compareValues
    cases a.number? <;> cases b.number? <;> cases c.number? <;> intro hab hbc
    · exact @Std.TransCmp.isLE_trans _ compareTexts _ _ _ _ hab hbc
    case some.some.some => exact @Std.TransCmp.isLE_trans _ compareNumbers _ _ _ _ hab hbc
    all_goals first | rfl | (cases hab; done) | cases hbc


variable {a b c k v : Value} {vs : List Value} {rows : List Row} {field : String} {r : Row}

/-! ## Moments -/

theorem sameValue_iff : sameValue a b = true ↔ compareValues a b = .eq := beq_iff_eq

theorem sameValue_self (a : Value) : sameValue a a = true := sameValue_iff.mpr Std.ReflCmp.compare_self

theorem sameValue_comm (a b : Value) : sameValue a b = sameValue b a := by
  rw [Bool.eq_iff_iff, sameValue_iff, sameValue_iff]
  exact Std.OrientedCmp.eq_comm

theorem sameValue_trans (hab : sameValue a b = true) (hbc : sameValue b c = true) : sameValue a c = true :=
  sameValue_iff.mpr (Std.TransCmp.eq_trans (sameValue_iff.mp hab) (sameValue_iff.mp hbc))

instance : Std.Symm fun a b => sameValue a b = false := ⟨fun a b h => (sameValue_comm b a).trans h⟩

theorem pairwise_distinctValues (vs : List Value) : (distinctValues vs).Pairwise fun a b => sameValue a b = false := by
  induction vs with
  | nil => exact .nil
  | cons v vs ih =>
    refine .cons (fun w hw => ?_) (ih.sublist filter_sublist)
    simpa using (mem_filter.mp hw).2

theorem exists_mem_distinctValues (h : v ∈ vs) : ∃ k ∈ distinctValues vs, sameValue v k = true := by
  induction vs with
  | nil => cases h
  | cons w vs ih =>
    rcases mem_cons.mp h with rfl | h
    · exact ⟨v, mem_cons_self, sameValue_self v⟩
    · obtain ⟨k, hk, hsame⟩ := ih h
      by_cases hw : sameValue w k = true
      · exact ⟨w, mem_cons_self, sameValue_trans hsame ((sameValue_comm k w).trans hw)⟩
      · exact ⟨k, mem_cons_of_mem _ (mem_filter.mpr ⟨hk, by simpa using hw⟩), hsame⟩

theorem perm_distinct (rows : List Row) (field : String) :
    distinct rows field ~ distinctValues (rows.filterMap (Row.value? · field)) := mergeSort_perm _ _

theorem pairwise_distinct (rows : List Row) (field : String) :
    (distinct rows field).Pairwise fun a b => sameValue a b = false :=
  ((perm_distinct rows field).pairwise_iff fun {a b} h => (sameValue_comm b a).trans h).mpr
    (pairwise_distinctValues _)

theorem distinct_ascending (rows : List Row) (field : String) :
    (distinct rows field).Pairwise fun a b => compareValues a b = .lt := by
  have hsorted : (distinct rows field).Pairwise fun a b => (compareValues a b != .gt) = true := by
    refine pairwise_mergeSort (fun a b c hab hbc => ?_) (fun a b => ?_) _
    · simp only [bne_iff_ne, ← Ordering.isLE_iff_ne_gt] at hab hbc ⊢
      exact Std.TransCmp.isLE_trans hab hbc
    · rw [@Std.OrientedCmp.eq_swap _ compareValues _ b]
      cases compareValues a b <;> rfl
  refine (hsorted.and (pairwise_distinct rows field)).imp fun {a b} ⟨hle, hne⟩ => ?_
  cases hcmp : compareValues a b with
  | lt => rfl
  | eq => rw [sameValue_iff.mpr hcmp] at hne; cases hne
  | gt => rw [hcmp] at hle; cases hle

/-! ## Positions -/

section Positions

variable {α β : Type}

def atPositions (xs : List α) (is : List Nat) : List α := is.filterMap (xs[·]?)

theorem filterMap_eq_range (f : α → Option β) (xs : List α) :
    xs.filterMap f = (range xs.length).filterMap fun i => xs[i]?.bind f := by
  induction xs with
  | nil => rfl
  | cons x xs ih =>
    rw [length_cons, range_succ_eq_map, filterMap_cons, filterMap_cons, filterMap_map, ih]
    rfl

def positions (p : α → Bool) (xs : List α) : List Nat := (range xs.length).filter fun i => xs[i]?.any p

theorem ascending_filter_range (p : Nat → Bool) (n : Nat) : ((range n).filter p).Pairwise (· < ·) :=
  pairwise_lt_range.sublist filter_sublist

theorem filter_eq_atPositions (p : α → Bool) (xs : List α) : xs.filter p = atPositions xs (positions p xs) := by
  rw [← filterMap_eq_filter, filterMap_eq_range, atPositions, positions, filterMap_filter]
  refine filterMap_congr fun i _ => ?_
  cases xs[i]? <;> rfl

theorem mem_positions {p : α → Bool} {xs : List α} {i : Nat} :
    i ∈ positions p xs ↔ ∃ x, xs[i]? = some x ∧ p x = true := by
  rw [positions, mem_filter, mem_range, Option.any_eq_true]
  exact and_iff_right_of_imp fun ⟨x, hx, _⟩ => (List.getElem?_eq_some_iff.mp hx).1

end Positions

def hasValue (field : String) (k : Value) (r : Row) : Bool := (Dict.get? r field).any (sameValue · k)

theorem keyframe_eq (rows : List Row) (field : String) (k : Value) :
    keyframe rows field k = rows.filter (hasValue field k) := by
  refine filter_congr fun r _ => ?_
  rw [hasValue]
  cases Dict.get? r field <;> rfl

/-- Keyframes divide the rows. The moments ascend, a row that has one belongs to exactly one keyframe, and a keyframe
has its rows in their order, from every position where one stands. -/
theorem keyframes_divide (rows : List Row) (field : String) :
    (distinct rows field).Pairwise (fun a b => compareValues a b = .lt)
      ∧ (∀ r ∈ rows, (Row.value? r field).isSome = true → ∃! k, k ∈ distinct rows field ∧ r ∈ keyframe rows field k)
      ∧ ∀ k, ∃ is, is.Pairwise (· < ·) ∧ keyframe rows field k = atPositions rows is
        ∧ ∀ i, i ∈ is ↔ ∃ r, rows[i]? = some r ∧ r ∈ keyframe rows field k := by
  refine ⟨distinct_ascending rows field, fun r hr hvalue => ?_, fun k => ?_⟩
  · obtain ⟨v, hv⟩ := Option.isSome_iff_exists.mp hvalue
    have hmem : v ∈ rows.filterMap (Row.value? · field) := mem_filterMap.mpr ⟨r, hr, hv⟩
    have hkeyframe (k : Value) : r ∈ keyframe rows field k ↔ sameValue v k = true := by
      rw [keyframe_eq, mem_filter, hasValue, (Option.filter_eq_some_iff.mp hv).1]
      exact and_iff_right hr
    obtain ⟨k, hk, hsame⟩ := exists_mem_distinctValues hmem
    rw [← (perm_distinct rows field).mem_iff] at hk
    refine ⟨k, ⟨hk, (hkeyframe k).mpr hsame⟩, fun k' ⟨hk', hr'⟩ => ?_⟩
    by_contra hne
    -- Two moments of one value would be the same.
    have hdiffer := (pairwise_distinct rows field).forall hk' hk hne
    rw [sameValue_trans ((sameValue_comm k' v).trans ((hkeyframe k').mp hr')) hsame] at hdiffer
    cases hdiffer
  · refine ⟨positions (hasValue field k) rows, ascending_filter_range _ _, ?_, fun i => ?_⟩
    · rw [keyframe_eq, filter_eq_atPositions]
    · rw [mem_positions, keyframe_eq]
      refine exists_congr fun r => and_congr_right fun hr => ?_
      rw [mem_filter, and_iff_right (mem_of_getElem? hr)]

/-- A row among rows of other kinds of values. -/
theorem keyframes_divide_seasons :
    ∃! k, k ∈ distinct [[("t", .string "fall")], [("t", .null)], [("t", .bool true)], [("t", .string "true")]] "t"
      ∧ [("t", .string "true")]
        ∈ keyframe [[("t", .string "fall")], [("t", .null)], [("t", .bool true)], [("t", .string "true")]] "t" k :=
  (keyframes_divide _ "t").2.1 _ (by simp) rfl

end AnimatedChart.Timeline

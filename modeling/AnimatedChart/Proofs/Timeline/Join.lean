import AnimatedChart.Proofs.Timeline.Order

/-!
# Rows of a join

A join is followed position by position (`join_positions`), and `join_keys` says what this means for the keys.
-/

open List

namespace AnimatedChart.Timeline

open Json

variable {c r s t : Row} {curr next : List Row} {i n : Nat} {k : Value} {key : String}

theorem matchIndex?_eq (key : String) (next : List Row) (c : Row) :
    matchIndex? key next c = (Row.value? c key).bind fun k => next.findIdx? (hasValue key k) := by
  unfold matchIndex?
  congr 1
  funext k
  congr 1
  funext r
  rw [hasValue]
  cases Dict.get? r key <;> rfl

/-- A position of a list is the first one whose row has a key value that is the same as `k`. -/
def IsFirst (next : List Row) (key : String) (k : Value) (n : Nat) : Prop :=
  (∃ r, next[n]? = some r ∧ hasValue key k r = true) ∧ ∀ m < n, ∀ r, next[m]? = some r → hasValue key k r = false

theorem matchIndex?_eq_some_iff :
    matchIndex? key next c = some n ↔ ∃ k, Row.value? c key = some k ∧ IsFirst next key k n := by
  rw [matchIndex?_eq, Option.bind_eq_some_iff]
  refine exists_congr fun k => and_congr_right fun _ => ?_
  rw [findIdx?_eq_some_iff_getElem]
  constructor
  · rintro ⟨hn, hkey, hbefore⟩
    refine ⟨⟨_, getElem?_eq_getElem hn, hkey⟩, fun m hm r hr => ?_⟩
    obtain ⟨_, rfl⟩ := List.getElem?_eq_some_iff.mp hr
    simpa using hbefore m hm
  · rintro ⟨⟨r, hr, hkey⟩, hbefore⟩
    obtain ⟨hn, rfl⟩ := List.getElem?_eq_some_iff.mp hr
    exact ⟨hn, hkey, fun m hm => by simp [hbefore m hm _ (getElem?_eq_getElem (by omega))]⟩

/-! ## Positions -/

def pairsAt (curr next : List Row) (key : String) : List (Nat × Nat) :=
  (range curr.length).filterMap fun i => (curr[i]?.bind (matchIndex? key next)).map (i, ·)

theorem mem_pairsAt : (i, n) ∈ pairsAt curr next key ↔ ∃ c, curr[i]? = some c ∧ matchIndex? key next c = some n := by
  unfold pairsAt
  simp only [mem_filterMap, mem_range, Option.map_eq_some_iff, Option.bind_eq_some_iff, Prod.mk.injEq]
  constructor
  · rintro ⟨j, -, m, ⟨c, hc, hm⟩, rfl, rfl⟩
    exact ⟨c, hc, hm⟩
  · rintro ⟨c, hc, hm⟩
    exact ⟨i, (List.getElem?_eq_some_iff.mp hc).1, n, ⟨c, hc, hm⟩, rfl, rfl⟩

theorem map_fst_pairsAt (curr next : List Row) (key : String) :
    (pairsAt curr next key).map Prod.fst = positions (fun c => (matchIndex? key next c).isSome) curr := by
  unfold pairsAt positions
  rw [map_filterMap, ← filterMap_eq_filter]
  refine filterMap_congr fun i _ => ?_
  rw [Option.guard]
  cases curr[i]? with
  | none => rfl
  | some c => cases hm : matchIndex? key next c <;> simp [hm]

theorem mem_map_snd_pairsAt : n ∈ (pairsAt curr next key).map Prod.snd ↔ ∃ c ∈ curr, matchIndex? key next c = some n := by
  simp only [mem_map, Prod.exists, exists_eq_right, mem_pairsAt]
  constructor
  · rintro ⟨i, c, hc, hm⟩
    exact ⟨c, mem_of_getElem? hc, hm⟩
  · rintro ⟨c, hc, hm⟩
    obtain ⟨i, hi⟩ := getElem?_of_mem hc
    exact ⟨i, c, hi, hm⟩

theorem matched_join (curr next : List Row) (key : String) : (join curr next key).matched
    = (pairsAt curr next key).filterMap fun p => curr[p.1]?.bind fun c => next[p.2]?.map fun n => ⟨c, n⟩ := by
  show filterMap _ curr = _
  rw [pairsAt, filterMap_filterMap, filterMap_eq_range]
  refine filterMap_congr fun i _ => ?_
  cases hc : curr[i]? with
  | none => rfl
  | some c => cases hm : matchIndex? key next c <;> simp [hm, hc]

def entersAt (curr next : List Row) (key : String) : List Nat :=
  (range next.length).filter fun n => !((pairsAt curr next key).map Prod.snd).contains n

theorem mem_entersAt : n ∈ entersAt curr next key ↔ n < next.length ∧ n ∉ (pairsAt curr next key).map Prod.snd := by
  rw [entersAt, mem_filter, mem_range, Bool.not_eq_true', ← Bool.not_eq_true, contains_iff_mem]

theorem entering_join (curr next : List Row) (key : String) :
    (join curr next key).entering = atPositions next (entersAt curr next key) := by
  have hindices : (pairsAt curr next key).map Prod.snd = curr.filterMap (matchIndex? key next) := by
    unfold pairsAt
    rw [map_filterMap, filterMap_eq_range (matchIndex? key next)]
    refine filterMap_congr fun i _ => ?_
    cases curr[i]?.bind (matchIndex? key next) <;> rfl
  rw [entersAt, hindices, atPositions, filterMap_filter]
  show map _ (filter _ next.zipIdx) = _
  rw [← filterMap_eq_map, filterMap_filter, filterMap_eq_range, length_zipIdx]
  refine filterMap_congr fun n _ => ?_
  rw [getElem?_zipIdx]
  cases next[n]? <;> simp

/-- What a join says about the positions in both lists: those of the pairs, of the rows that exit and of the rows that
enter. -/
structure JoinsAt (curr next : List Row) (key : String) (pairs : List (Nat × Nat)) (exits enters : List Nat) :
    Prop where
  matched : (join curr next key).matched
    = pairs.filterMap fun p => curr[p.1]?.bind fun c => next[p.2]?.map fun n => ⟨c, n⟩
  exiting : (join curr next key).exiting = atPositions curr exits
  entering : (join curr next key).entering = atPositions next enters
  ascending : (pairs.map Prod.fst).Pairwise (· < ·) ∧ exits.Pairwise (· < ·) ∧ enters.Pairwise (· < ·)
  curr_all : ∀ i, i ∈ pairs.map Prod.fst ∨ i ∈ exits ↔ i < curr.length
  curr_once : ∀ i ∈ pairs.map Prod.fst, i ∉ exits
  next_all : ∀ n, n ∈ pairs.map Prod.snd ∨ n ∈ enters ↔ n < next.length
  next_once : ∀ n ∈ pairs.map Prod.snd, n ∉ enters
  first : ∀ i n, (i, n) ∈ pairs → ∃ c k, curr[i]? = some c ∧ Dict.get? c key = some k ∧ IsFirst next key k n

/-- A join loses no row and doubles none. -/
theorem join_positions (curr next : List Row) (key : String) :
    ∃ pairs exits enters, JoinsAt curr next key pairs exits enters := by
  refine ⟨pairsAt curr next key, positions (fun c => (matchIndex? key next c).isNone) curr, entersAt curr next key, ?_⟩
  constructor
  case matched => exact matched_join curr next key
  case exiting => exact filter_eq_atPositions _ curr
  case entering => exact entering_join curr next key
  case ascending =>
    rw [map_fst_pairsAt]
    exact ⟨ascending_filter_range _ _, ascending_filter_range _ _, ascending_filter_range _ _⟩
  case curr_all =>
    -- A row is paired or exits, as its look-up among the next rows finds one or not.
    intro i
    rw [map_fst_pairsAt, mem_positions, mem_positions]
    constructor
    · rintro (⟨c, hc, -⟩ | ⟨c, hc, -⟩)
      all_goals exact (List.getElem?_eq_some_iff.mp hc).1
    · intro hi
      cases hm : matchIndex? key next curr[i] with
      | some n => exact .inl ⟨_, getElem?_eq_getElem hi, by rw [hm]; rfl⟩
      | none => exact .inr ⟨_, getElem?_eq_getElem hi, by rw [hm]; rfl⟩
  case curr_once =>
    intro i hi hexit
    rw [map_fst_pairsAt] at hi
    obtain ⟨c, hc, hsome⟩ := mem_positions.mp hi
    obtain ⟨c', hc', hnone⟩ := mem_positions.mp hexit
    obtain rfl := Option.some.inj (hc.symm.trans hc')
    rw [Option.isNone_iff_eq_none.mp hnone] at hsome
    cases hsome
  case next_all =>
    intro n
    rw [mem_entersAt]
    constructor
    · rintro (hn | ⟨hn, -⟩)
      · obtain ⟨c, -, hm⟩ := mem_map_snd_pairsAt.mp hn
        obtain ⟨k, -, ⟨r, hr, -⟩, -⟩ := matchIndex?_eq_some_iff.mp hm
        exact (List.getElem?_eq_some_iff.mp hr).1
      · exact hn
    · intro hn
      by_cases hmem : n ∈ (pairsAt curr next key).map Prod.snd
      · exact .inl hmem
      · exact .inr ⟨hn, hmem⟩
  case next_once => exact fun n hn henter => (mem_entersAt.mp henter).2 hn
  case first =>
    intro i n hp
    obtain ⟨c, hc, hm⟩ := mem_pairsAt.mp hp
    obtain ⟨k, hk, hfirst⟩ := matchIndex?_eq_some_iff.mp hm
    exact ⟨c, k, hc, (Option.filter_eq_some_iff.mp hk).1, hfirst⟩

/-! ## Keys -/

def sameKey (key : String) (r s : Row) : Bool := (Row.value? r key).any fun v => (Row.value? s key).any (sameValue v)

theorem sameKey_iff : sameKey key r s = true ↔
    ∃ v w, Row.value? r key = some v ∧ Row.value? s key = some w ∧ sameValue v w = true := by
  simp [sameKey, Option.any_eq_true]

theorem sameKey_comm (key : String) (r s : Row) : sameKey key r s = sameKey key s r := by
  rw [Bool.eq_iff_iff, sameKey_iff, sameKey_iff, exists_comm]
  simp only [sameValue_comm, and_left_comm]

theorem sameKey_trans (hrs : sameKey key r s = true) (hst : sameKey key s t = true) : sameKey key r t = true := by
  obtain ⟨v, w, hv, hw, hvw⟩ := sameKey_iff.mp hrs
  obtain ⟨w', x, hw', hx, hwx⟩ := sameKey_iff.mp hst
  obtain rfl := Option.some.inj (hw.symm.trans hw')
  exact sameKey_iff.mpr ⟨v, x, hv, hx, sameValue_trans hvw hwx⟩

def NullsApart (curr next : List Row) (key : String) : Prop :=
  ∀ c ∈ curr, ∀ k, Row.value? c key = some k → ∀ r ∈ next, Dict.get? r key = some .null → sameValue .null k = false

theorem hasValue_eq_sameKey (h : NullsApart curr next key) (hc : c ∈ curr) (hk : Row.value? c key = some k)
    (hr : r ∈ next) : hasValue key k r = sameKey key r c := by
  rw [hasValue, sameKey, hk, Row.value?]
  cases hv : Dict.get? r key with
  | none => rfl
  | some v =>
    cases v with
    | null => exact h c hc k hk r hr hv
    | _ => rfl

theorem isNone_matchIndex? (h : NullsApart curr next key) (hc : c ∈ curr) :
    (matchIndex? key next c).isNone = !next.any (sameKey key c) := by
  rw [matchIndex?_eq]
  cases hk : Row.value? c key with
  | none => simp [sameKey, hk]
  | some k =>
    have hany : next.any (hasValue key k) = next.any (sameKey key c) := by
      rw [Bool.eq_iff_iff, any_eq_true, any_eq_true]
      refine exists_congr fun r => and_congr_right fun hr => ?_
      rw [hasValue_eq_sameKey h hc hk hr, sameKey_comm]
    rw [Option.bind_some, ← Option.not_isSome, findIdx?_isSome, hany]

theorem exists_match_iff (h : NullsApart curr next key) (hr : next[n]? = some r) :
    (∃ c ∈ curr, matchIndex? key next c = some n)
      ↔ curr.any (sameKey key r) = true ∧ (next.take n).any (sameKey key r) = false := by
  have hmem := mem_of_getElem? hr
  constructor
  · rintro ⟨c, hc, hm⟩
    obtain ⟨k, hk, ⟨r', hr', hkey⟩, hbefore⟩ := matchIndex?_eq_some_iff.mp hm
    obtain rfl := Option.some.inj (hr.symm.trans hr')
    rw [hasValue_eq_sameKey h hc hk hmem] at hkey
    refine ⟨any_eq_true.mpr ⟨c, hc, hkey⟩, any_eq_false.mpr fun s hs hsame => ?_⟩
    obtain ⟨m, hm⟩ := getElem?_of_mem hs
    rw [getElem?_take] at hm
    split at hm
    · next hlt =>
      have hdiffer := hbefore m hlt s hm
      rw [hasValue_eq_sameKey h hc hk (mem_of_getElem? hm), sameKey_trans (sameKey_comm key s r ▸ hsame) hkey] at hdiffer
      cases hdiffer
    · cases hm
  · rintro ⟨hany, hnone⟩
    obtain ⟨c, hc, hkey⟩ := any_eq_true.mp hany
    obtain ⟨-, k, -, hk, -⟩ := sameKey_iff.mp hkey
    refine ⟨c, hc, matchIndex?_eq_some_iff.mpr ⟨k, hk, ⟨r, hr, ?_⟩, fun m hm s hs => ?_⟩⟩
    · rw [hasValue_eq_sameKey h hc hk hmem, hkey]
    · rw [hasValue_eq_sameKey h hc hk (mem_of_getElem? hs), ← Bool.not_eq_true]
      intro hsame
      refine any_eq_false.mp hnone s (mem_of_getElem? (i := m) ?_) (sameKey_trans hkey (sameKey_comm key s c ▸ hsame))
      rw [getElem?_take, if_pos hm, hs]

theorem mem_matched {p : Pair} (hp : p ∈ (join curr next key).matched) : ∃ k, p.curr ∈ curr ∧ p.next ∈ next
    ∧ Row.value? p.curr key = some k ∧ hasValue key k p.next = true := by
  obtain ⟨c, hc, hp⟩ := mem_filterMap.mp hp
  obtain ⟨r, hr, rfl⟩ := Option.map_eq_some_iff.mp hp
  obtain ⟨n, hm, hn⟩ := Option.bind_eq_some_iff.mp hr
  obtain ⟨k, hk, ⟨r', hr', hkey⟩, -⟩ := matchIndex?_eq_some_iff.mp hm
  obtain rfl := Option.some.inj (hn.symm.trans hr')
  exact ⟨k, hc, mem_of_getElem? hn, hk, hkey⟩

/-- Rows without a key value are in no pair. Rows that exit are those whose key no row of the next keyframe has; rows that
enter are those whose key no row has, and those whose key a row before them has. -/
theorem join_keys (curr next : List Row) (key : String) :
    (∀ p ∈ (join curr next key).matched, (Row.value? p.curr key).isSome = true ∧ (Dict.get? p.next key).isSome = true)
      ∧ (NullsApart curr next key →
        (∀ p ∈ (join curr next key).matched, (Row.value? p.next key).isSome = true)
          ∧ (join curr next key).exiting = curr.filter (fun c => !next.any (sameKey key c))
          ∧ (join curr next key).entering = (next.zipIdx.filter fun n =>
            !curr.any (sameKey key n.1) || (next.take n.2).any (sameKey key n.1)).map Prod.fst) := by
  refine ⟨fun p hp => ?_, fun h => ⟨fun p hp => ?_, filter_congr fun c hc => isNone_matchIndex? h hc, ?_⟩⟩
  · obtain ⟨k, -, -, hk, hkey⟩ := mem_matched hp
    obtain ⟨v, hv, -⟩ := (Option.any_eq_true _ _).mp hkey
    exact ⟨Option.isSome_iff_exists.mpr ⟨k, hk⟩, Option.isSome_iff_exists.mpr ⟨v, hv⟩⟩
  · obtain ⟨k, hc, hr, hk, hkey⟩ := mem_matched hp
    rw [hasValue_eq_sameKey h hc hk hr] at hkey
    obtain ⟨v, -, hv, -⟩ := sameKey_iff.mp hkey
    exact Option.isSome_iff_exists.mpr ⟨v, hv⟩
  · refine congrArg (map Prod.fst) (filter_congr fun n hn => ?_)
    have hiff := exists_match_iff h (mem_zipIdx_iff_getElem?.mp hn)
    rw [← mem_filterMap, ← contains_iff_mem] at hiff
    rw [Bool.eq_iff_iff, Bool.not_eq_true', ← Bool.not_eq_true, hiff]
    simp [-any_eq_true, -any_eq_false, imp_iff_not_or]

def townsBefore : List Row := [[("town", .string "Ulm")], [("town", .null)]]

def townsAfter : List Row := [[("town", .null)], [("town", .string "Ulm")], [("town", .string "Ulm"), ("new", .bool true)]]

theorem join_keys_towns : NullsApart townsBefore townsAfter "town"
    ∧ (join townsBefore townsAfter "town").exiting = [[("town", .null)]]
    ∧ (join townsBefore townsAfter "town").entering
      = [[("town", .null)], [("town", .string "Ulm"), ("new", .bool true)]] := by
  have happart : NullsApart townsBefore townsAfter "town" := by
    intro c hc k hk r _ _
    rcases mem_pair.mp hc with rfl | rfl
    · cases hk
      rfl
    · cases hk
  exact ⟨happart, ((join_keys _ _ "town").2 happart).2⟩

/-- Of two rows that have the key of a row the second one enters as well. -/
theorem join_second_enters :
    (join townsBefore townsAfter "town").entering = [[("town", .null)], [("town", .string "Ulm"), ("new", .bool true)]]
      ∧ townsAfter.filter (fun r => !townsBefore.any (sameKey "town" r)) = [[("town", .null)]] :=
  ⟨rfl, rfl⟩

end AnimatedChart.Timeline

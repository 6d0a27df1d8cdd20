import AnimatedChart.Animation.TimeScale
import AnimatedChart.Proofs.Decimal.Whole
import AnimatedChart.Proofs.Timeline.Frames
import AnimatedChart.Spec.Elaborate

/-!
# Where a timeline ends

The compiled clock is given the end of a known range as a number, and a timeline computes its end in another way.
-/

open List

namespace AnimatedChart.Timeline

open Json Spec Animation Decimal

variable {count : Nat} {duration hi lo v : Float} {g : Geometry} {keyframes vs : List Value} {scale : Option TimeScale}

theorem greater_beq_right (x y : Float) : (greater x y == y) = true ↔ x ≤ y := by
  have hsome : (x.toModel.unpack.compare y.toModel.unpack).isSome = !(x.isNaN || y.isNaN) := isSome_compare _ _
  have hswap := compare_swap x.toModel.unpack y.toModel.unpack
  unfold greater
  by_cases hnan : (x.isNaN || y.isNaN) = true
  · have hnone : x.toModel.unpack.compare y.toModel.unpack = none := by
      rw [← Option.isNone_iff_eq_none, ← Option.not_isSome, hsome, hnan]
      rfl
    rw [if_pos hnan, le_iff, hnone]
    simp only [reduceCtorEq, false_and, exists_false, iff_false, Bool.not_eq_true]
    rfl
  · have hy : y.isNaN = false := (Bool.or_eq_false_iff.mp (Bool.eq_false_iff.mpr hnan)).2
    rw [Bool.eq_false_iff.mpr hnan] at hsome
    obtain ⟨o, ho⟩ := Option.isSome_iff_exists.mp hsome
    rw [ho] at hswap
    rw [if_neg hnan]
    simp only [lt_iff, le_iff, ho, hswap, Option.map_some, Option.some.injEq, exists_eq_left']
    cases o with
    | lt => simpa using beq_self hy
    | gt =>
      have hne : ¬(x == y) = true := by simp [beq_iff, ho]
      simpa using hne
    | eq =>
      have heq : (x == y) = true := beq_iff.mpr ho
      simp only [reduceCtorEq, Ordering.swap_eq, if_false, ne_eq, not_false_eq_true, iff_true]
      split
      · exact beq_self hy
      · exact heq

theorem numbers_eq_ok {xs : List Float} (h : numbers vs = .ok xs) : vs = xs.map .number := by
  induction vs generalizing xs with
  | nil =>
    cases h
    rfl
  | cons v vs ih =>
    cases v with
    | number x =>
      cases hrest : numbers vs with
      | error e => simp [numbers, Value.number?, hrest, bind, Except.bind] at h
      | ok ys =>
        simp only [numbers, Value.number?, hrest, bind, Except.bind, pure, Except.pure, Except.ok.injEq] at h
        rw [← h, ih hrest, map_cons]
    | _ => cases h

theorem rangeBounds_eq_ok (h : rangeBounds vs = .ok (lo, hi)) :
    vs.head? = some (.number lo) ∧ vs.getLast? = some (.number hi) := by
  unfold rangeBounds at h
  split at h
  · next x y ys hxs =>
    cases h
    rw [numbers_eq_ok hxs]
    refine ⟨rfl, ?_⟩
    rw [map_cons, getLast?_cons_of_ne_nil (by simp), getLast?_map, getLastD_eq_getLast?,
      getLast?_cons, Option.getD_some, Option.map_some]
  · cases h

theorem last?_values (h : rangeBounds vs = .ok (lo, hi)) (hlast : (TimeRange.values vs).last? = some v) : hi = v := by
  rw [TimeRange.last?, (rangeBounds_eq_ok h).2] at hlast
  exact Option.some.inj hlast

theorem bandGeometry_values (h : bandGeometry (some (.values vs)) count = .ok (g, duration)) :
    ∃ lo hi, rangeBounds vs = .ok (lo, hi) ∧ duration = lo + (hi - lo) / Float.ofNat count * Float.ofNat count := by
  unfold bandGeometry at h
  cases hbounds : rangeBounds vs with
  | error e => simp [hbounds, bind, Except.bind] at h
  | ok bounds =>
    simp only [hbounds, bind, Except.bind, pure, Except.pure, Except.ok.injEq, Prod.mk.injEq] at h
    exact ⟨bounds.1, bounds.2, rfl, h.2.symm⟩

theorem lineGeometry_values (hrange : scale.bind (·.range) = some (.values vs))
    (h : lineGeometry scale keyframes = .ok (g, duration)) :
    ∃ lo hi, rangeBounds vs = .ok (lo, hi) ∧ duration = greater lo hi := by
  unfold lineGeometry at h
  rw [hrange] at h
  cases hdomain : lineDomain scale keyframes with
  | error e => simp [hdomain, bind, Except.bind] at h
  | ok d =>
    cases hbounds : rangeBounds vs with
    | error e => simp [hdomain, hbounds, bind, Except.bind] at h
    | ok bounds =>
      simp only [hdomain, hbounds, bind, Except.bind, pure, Except.pure, Except.ok.injEq, Prod.mk.injEq] at h
      exact ⟨bounds.1, bounds.2, rfl, h.2.symm⟩

theorem lineGeometry_step {ms : Float} (hrange : scale.bind (·.range) = some (.step ms))
    (h : lineGeometry scale keyframes = .ok (g, duration)) : duration = 5000 := by
  unfold lineGeometry at h
  rw [hrange] at h
  cases hdomain : lineDomain scale keyframes with
  | error e => simp [hdomain, bind, Except.bind] at h
  | ok d =>
    simp only [hdomain, bind, Except.bind, pure, Except.pure, Except.ok.injEq, Prod.mk.injEq] at h
    exact h.2.symm

/-! ## Ends -/

/-- The number that the compiled clock ends at is the end of a timeline with so many keyframes. -/
def EndsAlike (s : Scope) (count : Nat) (v : Float) : Prop :=
  match s.timeRange?, s.isLinear with
  | some (.step _), false => v.isNaN = false
  | some (.step _), true => (5000 == v) = true
  | some (.values vs), false =>
    ∃ lo, vs.head? = some (.number lo) ∧ (lo + (v - lo) / Float.ofNat count * Float.ofNat count == v) = true
  | some (.values vs), true => ∃ lo, vs.head? = some (.number lo) ∧ lo ≤ v
  | none, _ => False

theorem rangeEnd?_of_literal {s : Scope} (h : (rangeEnd s).value = .number v) : rangeEnd? s = some v := by
  unfold rangeEnd at h
  split at h
  · next x hx => rw [hx, Value.number.inj h]
  · cases h

theorem duration_of_whole {a d : Nat} (hlo : lo = Float.ofNat a) (hv : v = Float.ofNat (a + d * count)) (hd : 0 < d)
    (hcount : 0 < count) (hn : a + d * count < 2 ^ 53) : lo + (v - lo) / Float.ofNat count * Float.ofNat count = v := by
  have hle : count ≤ d * count := Nat.le_mul_of_pos_left count hd
  have hwhole : IsWhole v (a + d * count) := hv ▸ .ofNat hn
  have hstart : IsWhole lo a := hlo ▸ .ofNat (by omega)
  have hbands : IsWhole (Float.ofNat count) count := .ofNat (by omega)
  have hspan : IsWhole (v - lo) (d * count) := by
    have hsub := hwhole.sub hstart (Nat.le_add_right a _)
    rwa [Nat.add_sub_cancel_left] at hsub
  exact (hstart.add ((hspan.div hbands hcount).mul hbands (by omega)) hn).eq hwhole

section Ends

variable {s : Scope} {driver : Option Selection} {rows : List Row} {tl : Timeline} {v : Float}

theorem duration_bands (hlinear : s.isLinear = false) (hbuild : build (some s.time) driver rows = .ok tl) :
    bandGeometry s.timeRange? tl.keyframes.length = .ok (tl.geometry, tl.duration) := by
  obtain ⟨-, -, t, ht, -, hgeometry⟩ := build_eq_ok hbuild
  cases ht
  rwa [if_neg (by simpa [Scope.isLinear] using hlinear)] at hgeometry

theorem duration_line (hlinear : s.isLinear = true) (hbuild : build (some s.time) driver rows = .ok tl) :
    lineGeometry s.time.scale tl.keyframes = .ok (tl.geometry, tl.duration) := by
  obtain ⟨-, -, t, ht, -, hgeometry⟩ := build_eq_ok hbuild
  cases ht
  rwa [if_pos (by simpa [Scope.isLinear] using hlinear)] at hgeometry

theorem keyframes_bands (hlinear : s.isLinear = false) (hdomain : s.explicitDomain.isEmpty = false)
    (hbuild : build (some s.time) driver rows = .ok tl) : tl.keyframes = s.explicitDomain := by
  obtain ⟨-, -, t, ht, hkeyframes, -⟩ := build_eq_ok hbuild
  cases ht
  rw [hkeyframes, keyframesOf]
  split
  · next hnil =>
    rw [Scope.explicitDomain, hnil] at hdomain
    cases hdomain
  · rw [if_neg (by simpa [Scope.isLinear] using hlinear), Scope.explicitDomain]

theorem duration_values (hrange : s.timeRange? = some (.values vs)) (hlinear : s.isLinear = false)
    (hend : rangeEnd? s = some v) (hbuild : build (some s.time) driver rows = .ok tl) :
    ∃ lo, vs.head? = some (.number lo)
      ∧ tl.duration = lo + (v - lo) / Float.ofNat tl.keyframes.length * Float.ofNat tl.keyframes.length := by
  have hgeometry := duration_bands hlinear hbuild
  rw [hrange] at hgeometry
  obtain ⟨lo, hi, hbounds, hduration⟩ := bandGeometry_values hgeometry
  rw [rangeEnd?, hrange] at hend
  obtain rfl := last?_values hbounds hend
  exact ⟨lo, (rangeBounds_eq_ok hbounds).1, hduration⟩

/-- The compiled clock ends where the timeline does exactly under the conditions of `EndsAlike`. Bands over a range of
whole numbers that they divide evenly are a case of it. -/
theorem duration_beq_rangeEnd (hend : (rangeEnd s).value = .number v)
    (hbuild : build (some s.time) driver rows = .ok tl) :
    ((tl.duration == v) = true ↔ EndsAlike s tl.keyframes.length v)
      ∧ ∀ (lo : Float) (vs : List Value) (a d : Nat), s.timeRange? = some (.values (.number lo :: vs)) →
        s.isLinear = false → lo = Float.ofNat a → v = Float.ofNat (a + d * tl.keyframes.length) → 0 < d →
        a + d * tl.keyframes.length < 2 ^ 53 → tl.duration = v := by
  have hend := rangeEnd?_of_literal hend
  constructor
  · unfold EndsAlike
    split
    · next ms hrange hlinear =>
      rw [rangeEnd?, hrange] at hend
      dsimp only at hend
      split at hend
      · cases hend
      · next hdomain =>
        have hkeyframes := keyframes_bands hlinear (Bool.eq_false_iff.mpr hdomain) hbuild
        have hgeometry := duration_bands hlinear hbuild
        rw [hrange, hkeyframes] at hgeometry
        have hduration : tl.duration = 0 + v := by
          rw [← Option.some.inj hend]
          exact (congrArg Prod.snd (Except.ok.inj hgeometry)).symm
        rw [hduration, zero_add_beq]
    · next ms hrange hlinear => rw [lineGeometry_step hrange (duration_line hlinear hbuild)]
    · next vs hrange hlinear =>
      obtain ⟨lo, hhead, hduration⟩ := duration_values hrange hlinear hend hbuild
      simp only [hhead, hduration, Option.some.injEq, Value.number.injEq, exists_eq_left']
    · next vs hrange hlinear =>
      obtain ⟨lo, hi, hbounds, hduration⟩ := lineGeometry_values hrange (duration_line hlinear hbuild)
      rw [rangeEnd?, hrange] at hend
      obtain rfl := last?_values hbounds hend
      simp only [(rangeBounds_eq_ok hbounds).1, hduration, greater_beq_right, Option.some.injEq, Value.number.injEq,
        exists_eq_left']
    · next hrange =>
      rw [rangeEnd?, hrange] at hend
      cases hend
  · intro lo vs a d hrange hlinear hlo hv hd hn
    obtain ⟨lo', hhead, hduration⟩ := duration_values hrange hlinear hend hbuild
    obtain rfl := Value.number.inj (Option.some.inj hhead)
    have hcount : 0 < tl.keyframes.length := length_pos_iff.mpr (build_eq_ok hbuild).2.1
    exact hduration.trans (duration_of_whole hlo hv hd hcount hn)

end Ends

def descending : Scope where
  id := .root
  time := TimeEncoding.elaborate
    { field := "t", scale := some { type := "linear", range := some (.values [.number 5000, .number 0]) } } "point" []
  selections := []
  units := []

/-- The compiled clock of a descending range ends at its start at once, and the timeline at the larger number. -/
theorem duration_descending :
    ∃ tl, build (some descending.time) none [[("t", .number 1)]] = .ok tl ∧ (rangeEnd descending).value = .number 0
      ∧ tl.duration = 5000 ∧ ¬EndsAlike descending tl.keyframes.length 0 := by
  obtain ⟨tl, hbuild, hduration⟩ : ∃ tl, build (some descending.time) none [[("t", .number 1)]] = .ok tl
      ∧ tl.duration = 5000 := by
    have hkeyframes : keyframesOf descending.time [[("t", .number 1)]] = [.number 1] := mergeSort_singleton _
    unfold build
    simp only [show (some descending.time).filter (fun t => !t.field.isEmpty) = some descending.time from rfl, hkeyframes]
    exact ⟨_, rfl, rfl⟩
  have hend : (rangeEnd descending).value = .number 0 := rfl
  refine ⟨tl, hbuild, hend, hduration, fun h => ?_⟩
  have hbeq := (duration_beq_rangeEnd hend hbuild).1.mpr h
  rw [hduration] at hbeq
  exact absurd hbeq (by decide)

end AnimatedChart.Timeline

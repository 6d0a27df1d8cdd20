import AnimatedChart.Timeline.Player
import Mathlib.Data.List.GetD

/-!
# Frames within a timeline

Float arithmetic can give anything, but nothing of that reaches the keyframes. `frameAt?` is `frameAt` with every
look-up checked; on a timeline with a keyframe it never fails (`frameAt?_eq_some`), and the frame points at a keyframe
(`index_frameAt_lt`, `next_frameAt_mem`).
-/

open List

namespace AnimatedChart.Timeline

open Json Spec

variable {driver : Option Selection} {points : List Float} {tl : Timeline}

/-! ## Control points -/

/-- The control point at a position, which is first moved between the ends of the list. -/
def pointAt? (points : List Float) (j : Int) : Option Float :=
  points[(max 0 (min ((points.length : Int) - 1) j)).toNat]?

/-- One segment of the spline at a place within it, with the look-up of its four points checked. -/
def segment? (points : List Float) (i : Int) (u : Float) : Option Float := do
  let p0 ← pointAt? points (i - 1)
  let p1 ← pointAt? points i
  let p2 ← pointAt? points (i + 1)
  let p3 ← pointAt? points (i + 2)
  return 0.5 * (2 * p1 + (-p0 + p2) * u + (2 * p0 - 5 * p1 + 4 * p2 - p3) * u * u
    + (-p0 + 3 * p1 - 3 * p2 + p3) * u * u * u)

def catmullRom? (points : List Float) (t : Float) : Option Float :=
  match points with
  | [] => some (0 / 0)
  | [p] => some p
  | p :: ps =>
    let pos := clamp t 0 1 * Float.ofNat ps.length
    let i := min pos.floor.toUInt64.toNat (ps.length - 1)
    segment? (p :: ps) i (pos - Float.ofNat i)

theorem exists_pointAt (h : points ≠ []) (j : Int) : ∃ x, pointAt? points j = some x := by
  have hlength : 0 < points.length := length_pos_iff.mpr h
  have hlt : (max 0 (min ((points.length : Int) - 1) j)).toNat < points.length := by omega
  exact ⟨_, getElem?_eq_getElem hlt⟩

theorem exists_segment (h : points ≠ []) (i : Int) (u : Float) : ∃ x, segment? points i u = some x := by
  obtain ⟨p0, h0⟩ := exists_pointAt h (i - 1)
  obtain ⟨p1, h1⟩ := exists_pointAt h i
  obtain ⟨p2, h2⟩ := exists_pointAt h (i + 1)
  obtain ⟨p3, h3⟩ := exists_pointAt h (i + 2)
  exact ⟨_, by rw [segment?, h0, h1, h2, h3]; rfl⟩

theorem pointAt?_eq_some {p : Float} {ps : List Float} {j : Int} {k : Nat} (h : max 0 j = k) :
    pointAt? (p :: ps) j = some ((p :: ps).getD (min ps.length k) p) := by
  have hcut : (max 0 (min (((p :: ps).length : Int) - 1) j)).toNat = min ps.length k := by
    rw [length_cons]
    omega
  have hlt : min ps.length k < (p :: ps).length := by
    rw [length_cons]
    omega
  rw [pointAt?, hcut, getElem?_eq_getElem hlt, getD_eq_getElem _ _ hlt]

theorem segment?_eq_some (p : Float) (ps : List Float) (i : Nat) (u : Float) :
    segment? (p :: ps) i u =
      let p0 := (p :: ps).getD (min ps.length (i - 1)) p
      let p1 := (p :: ps).getD (min ps.length i) p
      let p2 := (p :: ps).getD (min ps.length (i + 1)) p
      let p3 := (p :: ps).getD (min ps.length (i + 2)) p
      some (0.5 * (2 * p1 + (-p0 + p2) * u + (2 * p0 - 5 * p1 + 4 * p2 - p3) * u * u
        + (-p0 + 3 * p1 - 3 * p2 + p3) * u * u * u)) := by
  have h0 : pointAt? (p :: ps) ((i : Int) - 1) = _ := pointAt?_eq_some (k := i - 1) (by omega)
  have h1 : pointAt? (p :: ps) (i : Int) = _ := pointAt?_eq_some (k := i) (by omega)
  have h2 : pointAt? (p :: ps) ((i : Int) + 1) = _ := pointAt?_eq_some (k := i + 1) (by omega)
  have h3 : pointAt? (p :: ps) ((i : Int) + 2) = _ := pointAt?_eq_some (k := i + 2) (by omega)
  rw [segment?, h0, h1, h2, h3]
  rfl

theorem catmullRom?_eq_some (points : List Float) (t : Float) : catmullRom? points t = some (catmullRom points t) := by
  unfold catmullRom? catmullRom
  match points with
  | [] => rfl
  | [p] => rfl
  | p :: q :: ps => exact segment?_eq_some p (q :: ps) _ _

def Ease.progress? : Ease → Float → Option Float
  | named f b, t => some ((named f b).apply t)
  | curve ps, t => catmullRom? ps t

theorem Ease.progress?_eq_some (e : Ease) (t : Float) : e.progress? t = some (e.apply t) := by
  cases e with
  | named f b => rfl
  | curve ps => exact catmullRom?_eq_some ps t

theorem bandIndex_lt (start width eased : Float) {count : Nat} (h : 0 < count) :
    bandIndex start width count eased < count := by
  unfold bandIndex
  dsimp only
  split
  · next hin => exact hin.2.2
  · exact h

theorem lastPassed_lt (x : Float) (ks : List Value) {i found : Nat} (h : found < i + ks.length) :
    lastPassed x i found ks < i + ks.length := by
  induction ks generalizing i found with
  | nil => exact h
  | cons k ks ih =>
    rw [length_cons] at h ⊢
    have hnext : (if numberOr0 k ≤ x then i else found) < i + 1 + ks.length := by split <;> omega
    have := ih hnext
    rw [lastPassed]
    omega

theorem foldl_pick_mem {pick : Value → Value → Value} (hpick : ∀ a b, pick a b = a ∨ pick a b = b) (k : Value)
    (ks : List Value) : ks.foldl pick k ∈ k :: ks := by
  induction ks generalizing k with
  | nil => exact mem_cons_self
  | cons k' ks ih =>
    rw [foldl_cons]
    have hmem := ih (pick k k')
    rcases hpick k k' with heq | heq
    · rw [heq] at hmem ⊢
      rcases mem_cons.mp hmem with h | h
      · exact mem_cons.mpr (.inl h)
      · exact mem_cons_of_mem _ (mem_cons_of_mem _ h)
    · rw [heq] at hmem ⊢
      exact mem_cons_of_mem _ hmem

theorem earlier_cases (a b : Value) : earlier a b = a ∨ earlier a b = b := by
  unfold earlier
  split
  · exact .inr rfl
  · exact .inl rfl

theorem later_cases (a b : Value) : later a b = a ∨ later a b = b := by
  unfold later
  split
  · exact .inr rfl
  · exact .inl rfl

/-! ## Frames -/

def nextAfter? (tl : Timeline) (i : Nat) : Option Value :=
  if i + 1 < tl.keyframes.length then tl.keyframes[i + 1]?
  else
    match tl.keyframes with
    | [] => none
    | k :: ks => some (if tl.loop then ks.foldl earlier k else ks.foldl later k)

def easedClock? (tl : Timeline) (clock : Float) : Option Float :=
  if tl.duration > 0 then (tl.ease.progress? (clock / tl.duration)).map (· * tl.duration) else some clock

/-- The position of a frame and the time value it shows, with the look-up of the keyframe checked. -/
def placeAt? (tl : Timeline) (eased : Float) : Option (Nat × Value) :=
  match tl.geometry with
  | .bands start width =>
    let i := bandIndex start width tl.keyframes.length eased
    (tl.keyframes[i]?).map (i, ·)
  | .line d0 d1 r0 r1 =>
    let x := lineInvert d0 d1 r0 r1 eased
    some (lastPassed x 0 0 tl.keyframes, .number x)

def frameAt? (tl : Timeline) (clock : Float) : Option Frame := do
  let eased ← tl.easedClock? clock
  let (index, value) ← tl.placeAt? eased
  let current ← tl.keyframes[index]?
  let next ← tl.nextAfter? index
  return { clock, eased, index, value, current, next, tween := tl.tweenAt eased index }

section

variable {tl : Timeline} (h : tl.keyframes ≠ [])
include h

theorem index_frameAt_lt (clock : Float) : (tl.frameAt clock).index < tl.keyframes.length := by
  have hlength : 0 < tl.keyframes.length := length_pos_iff.mpr h
  unfold frameAt
  dsimp only
  cases tl.geometry with
  | bands start width => exact bandIndex_lt start width _ hlength
  | line d0 d1 r0 r1 =>
    have hfirst : 0 < 0 + tl.keyframes.length := by omega
    have := lastPassed_lt (lineInvert d0 d1 r0 r1 (tl.easedClock clock)) tl.keyframes hfirst
    dsimp only
    omega

theorem current_frameAt (clock : Float) :
    tl.keyframes[(tl.frameAt clock).index]? = some (tl.frameAt clock).current := by
  have hlt := index_frameAt_lt h clock
  rw [getElem?_eq_getElem hlt]
  exact congrArg some (getD_eq_getElem _ _ hlt).symm

theorem nextAfter?_eq_some (i : Nat) : tl.nextAfter? i = some (tl.nextAfter i) := by
  unfold nextAfter? nextAfter
  split
  · next hlt => rw [getElem?_eq_getElem hlt]
  · next hge =>
    rw [getElem?_eq_none (Nat.not_lt.mp hge)]
    cases hks : tl.keyframes with
    | nil => exact absurd hks h
    | cons k ks => rfl

theorem nextAfter_mem (i : Nat) : tl.nextAfter i ∈ tl.keyframes := by
  unfold nextAfter
  cases hnext : tl.keyframes[i + 1]? with
  | some k => exact mem_of_getElem? hnext
  | none =>
    cases hks : tl.keyframes with
    | nil => exact absurd hks h
    | cons k ks =>
      show (if tl.loop = true then _ else _) ∈ _
      split
      · exact foldl_pick_mem earlier_cases k ks
      · exact foldl_pick_mem later_cases k ks

theorem next_frameAt_mem (clock : Float) : (tl.frameAt clock).next ∈ tl.keyframes := nextAfter_mem h _

omit h in
theorem easedClock?_eq_some (clock : Float) : tl.easedClock? clock = some (tl.easedClock clock) := by
  unfold easedClock? easedClock
  rw [Ease.progress?_eq_some]
  split <;> rfl

theorem placeAt?_eq_some (clock : Float) :
    tl.placeAt? (tl.easedClock clock) = some ((tl.frameAt clock).index, (tl.frameAt clock).value) := by
  have hlength : 0 < tl.keyframes.length := length_pos_iff.mpr h
  unfold placeAt? frameAt
  dsimp only
  cases tl.geometry with
  | bands start width =>
    have hlt := bandIndex_lt start width (tl.easedClock clock) hlength
    dsimp only
    rw [getElem?_eq_getElem hlt, keyframeAt, getD_eq_getElem _ _ hlt]
    rfl
  | line d0 d1 r0 r1 => rfl

theorem frameAt?_eq_some (clock : Float) : tl.frameAt? clock = some (tl.frameAt clock) := by
  rw [frameAt?, easedClock?_eq_some]
  show (do let (index, value) ← tl.placeAt? (tl.easedClock clock); _ : Option Frame) = _
  rw [placeAt?_eq_some h]
  show (do let current ← tl.keyframes[(tl.frameAt clock).index]?; _ : Option Frame) = _
  rw [current_frameAt h]
  show (do let next ← tl.nextAfter? (tl.frameAt clock).index; _ : Option Frame) = _
  rw [nextAfter?_eq_some h]
  rfl

end

theorem exists_offset {i : Nat} (h : i < tl.keyframes.length) : ∃ x, tl.offset? i = some x := by
  unfold offset?
  cases tl.geometry with
  | bands start width => exact ⟨_, rfl⟩
  | line d0 d1 r0 r1 =>
    have hnat : ¬((i : Int) < 0) := by omega
    dsimp only
    rw [if_neg hnat, Int.toNat_natCast, getElem?_eq_getElem h]
    exact ⟨_, rfl⟩

/-! ## Players -/

namespace Player

/-- The player with its clock set, with every look-up of its frame checked. -/
def withClock? (tl : Timeline) (clock : Float) (p : Player) : Option Player := do
  let frame ← tl.frameAt? clock
  return { p with clock, frame, since := if frame.index = p.frame.index then p.since else p.now }

def tick? (tl : Timeline) (dt : Float) (p : Player) : Option Player :=
  let p := { p with now := p.now + dt }
  let next := p.clock + dt
  p.withClock? tl (if !p.isPlaying tl then p.clock else if next > tl.duration then 0 else next)

/-- A move to a keyframe, with every look-up checked: that of the place where the keyframe starts as well. -/
def seek? (tl : Timeline) (value : Value) (p : Player) : Option Player := do
  let clock ← match tl.keyframes.findIdx? (sameValue · value) with
    | none => some p.clock
    | some i => tl.offset? i
  p.withClock? tl clock

section

variable {tl : Timeline} (h : tl.keyframes ≠ []) (p : Player)
include h

theorem withClock?_eq_some (clock : Float) : p.withClock? tl clock = some (p.withClock tl clock) := by
  rw [withClock?, frameAt?_eq_some h]
  rfl

theorem tick?_eq_some (dt : Float) : p.tick? tl dt = some (p.tick tl dt) := withClock?_eq_some h _ _

theorem seek?_eq_some (value : Value) : p.seek? tl value = some (p.seek tl value) := by
  unfold seek? seek
  cases hfind : tl.keyframes.findIdx? (sameValue · value) with
  | none => exact withClock?_eq_some h p p.clock
  | some i =>
    have hlt : i < tl.keyframes.length := (findIdx?_eq_some_iff_findIdx_eq.mp hfind).1
    obtain ⟨x, hx⟩ := exists_offset hlt
    simp only [hx, Option.bind_some, Option.getD_some]
    exact withClock?_eq_some h p x

end
end Player

theorem Ease.points_ne_nil (h : ofSelection driver = .ok (.curve points)) : points ≠ [] := by
  have hname : ∀ name, ofName name ≠ .ok (.curve points) := by
    intro name hname
    unfold ofName at hname
    split at hname
    · cases hname
    · cases hname
  unfold ofSelection at h
  split at h
  · cases h
    exact cons_ne_nil _ _
  · exact absurd h (hname _)
  · exact absurd h (hname _)

theorem build_eq_ok {time : Option TimeEncoding} {rows : List Row} (h : build time driver rows = .ok tl) :
    Ease.ofSelection driver = .ok tl.ease ∧ tl.keyframes ≠ [] ∧ ∃ t, time = some t ∧ tl.keyframes = keyframesOf t rows
      ∧ (if t.scaleType = TimeScale.linear then lineGeometry t.scale tl.keyframes
        else bandGeometry (t.scale.bind (·.range)) tl.keyframes.length) = .ok (tl.geometry, tl.duration) := by
  unfold build at h
  split at h
  · cases h
  · next t ht =>
    cases hease : Ease.ofSelection driver with
    | error e =>
      rw [hease] at h
      cases h
    | ok ease =>
      rw [hease] at h
      dsimp only [bind, Except.bind] at h
      by_cases hkeyframes : (keyframesOf t rows).isEmpty = true
      · rw [if_pos hkeyframes] at h
        cases h
      · rw [if_neg hkeyframes] at h
        -- Both geometries fill the same timeline.
        dsimp only [pure, Except.pure] at h
        split at h
        all_goals
          next hlinear =>
          split at h
          · cases h
          · next hgeometry =>
            cases h
            refine ⟨rfl, fun hnil => hkeyframes (by rw [show keyframesOf t rows = [] from hnil]; rfl), t,
              (Option.filter_eq_some_iff.mp ht).1, rfl, ?_⟩
            simp only [hlinear, if_true, if_false]
            exact hgeometry

end AnimatedChart.Timeline

import AnimatedChart.Spec.Time
import AnimatedChart.Timeline.Easing
import AnimatedChart.Timeline.Join

/-!
# Timelines

A timeline maps a clock reading to a frame: the eased clock, the current and the next keyframe and the progress between
them.
-/

namespace AnimatedChart

open Json Spec

/-- The state of a clock at one reading. -/
structure Timeline.Frame where
  clock : Float
  eased : Float
  index : Nat
  value : Value
  current : Value
  next : Value
  /-- The progress from the current keyframe to the next, between 0 and 1. -/
  tween : Float
deriving Repr, Inhabited

/-- How time values lie on the clock. -/
inductive Timeline.Geometry where
  /-- One band for each keyframe. -/
  | bands (start width : Float)
  /-- From time values `d0` to `d1` the clock runs from `r0` to `r1`. -/
  | line (d0 d1 r0 r1 : Float)
deriving Repr, Inhabited

/-- The clock of one animated scope. -/
structure Timeline where
  field : String
  type : String
  /-- The time values in playback order. -/
  keyframes : List Value
  /-- Where the clock starts again. -/
  duration : Float
  loop : Bool
  ease : Timeline.Ease
  pauses : List Pause
  geometry : Timeline.Geometry
deriving Inhabited

namespace Timeline

/-! ## Building -/

def numbers : List Value → Except Error (List Float)
  | [] => .ok []
  | v :: vs =>
    match v.number? with
    | none => .error (.new .invalidInput ("value " ++ v.display ++ " is not a number"))
    | some x => do
      let xs ← numbers vs
      return x :: xs

def rangeBounds (vs : List Value) : Except Error (Float × Float) :=
  match numbers vs with
  | .ok (x :: y :: ys) => .ok (x, (y :: ys).getLastD y)
  | _ => .error (.new .invalidSpec "time range must be a step or two numbers")

def bandGeometry (range : Option TimeRange) (count : Nat) : Except Error (Geometry × Float) := do
  let n := Float.ofNat count
  let (start, width) ← match range with
    | none => pure (0, 500)
    | some (.step ms) => pure (0, ms)
    | some (.values vs) =>
      let (lo, hi) ← rangeBounds vs
      pure (lo, (hi - lo) / n)
  return (.bands start width, start + width * n)

def lineDomain (scale : Option TimeScale) (keyframes : List Value) : Except Error (Float × Float) := do
  let xs ← (numbers keyframes).mapError (.within "linear time scale")
  let given := (scale.map (·.domain)).getD []
  let xs ←
    if given.length ≥ 2 then (numbers given).mapError (.within "linear time domain") else pure xs
  let d0 := xs.headD 0
  let d1 := xs.getLastD 0
  return if (scale.bind (·.zero)) == some true then (lesser 0 d0, greater 0 d1) else (d0, d1)

def lineGeometry (scale : Option TimeScale) (keyframes : List Value) : Except Error (Geometry × Float) := do
  let (d0, d1) ← lineDomain scale keyframes
  let (r0, r1) ← match scale.bind (·.range) with
    | some (.values vs) => rangeBounds vs
    | _ => pure (0, 5000)
  return (.line d0 d1 r0 r1, greater r0 r1)

/-- The keyframes of a time encoding: the values that are given, except on a linear scale, or those of the
rows. -/
def keyframesOf (t : TimeEncoding) (rows : List Row) : List Value :=
  match (t.scale.map (·.domain)).getD [] with
  | [] => distinct rows t.field
  | vs => if t.scaleType = TimeScale.linear then distinct rows t.field else vs

def build (time : Option TimeEncoding) (driver : Option Selection) (rows : List Row) :
    Except Error Timeline := do
  match time.filter fun t => !t.field.isEmpty with
  | none => throw (.missing "time encoding" "field")
  | some t =>
    let ease ← Ease.ofSelection driver
    let keyframes := keyframesOf t rows
    if keyframes.isEmpty then
      throw (.new .invalidInput ("no values for time field " ++ Text.quote t.field))
    let (geometry, duration) ←
      if t.scaleType = TimeScale.linear then lineGeometry t.scale keyframes
      else bandGeometry (t.scale.bind (·.range)) keyframes.length
    return {
      field := t.field
      type := t.scaleType
      keyframes
      duration
      loop := t.loops
      ease
      pauses := (driver.map (·.select.pauses)).getD []
      geometry }

/-! ## Frames -/

def numberOr0 (v : Value) : Float := v.number?.getD 0

def lineScale (d0 d1 r0 r1 x : Float) : Float :=
  if d1 == d0 then r0 else r0 + (x - d0) / (d1 - d0) * (r1 - r0)

def lineInvert (d0 d1 r0 r1 ms : Float) : Float :=
  if r1 == r0 then d0 else d0 + (ms - r0) / (r1 - r0) * (d1 - d0)

/-- The last keyframe that is not after a time value, counting from `i`; `found` if there is none. -/
def lastPassed (x : Float) : (i found : Nat) → List Value → Nat
  | _, found, [] => found
  | i, found, k :: ks => lastPassed x (i + 1) (if numberOr0 k ≤ x then i else found) ks

/-- The band that a clock reading lies in; the first one for a reading outside of all bands. -/
def bandIndex (start width : Float) (count : Nat) (eased : Float) : Nat :=
  let x := ((eased - start) / width).floor
  if width > 0 ∧ x ≥ 0 ∧ x.toUInt64.toNat < count then x.toUInt64.toNat else 0

def keyframeAt (tl : Timeline) (i : Nat) : Value := tl.keyframes.getD i .null

def nextAfter (tl : Timeline) (i : Nat) : Value :=
  match tl.keyframes[i + 1]?, tl.keyframes with
  | some k, _ => k
  | none, k :: ks => if tl.loop then ks.foldl earlier k else ks.foldl later k
  | none, [] => .null

def easedClock (tl : Timeline) (clock : Float) : Float :=
  if tl.duration > 0 then tl.ease.apply (clock / tl.duration) * tl.duration else clock

def tweenAt (tl : Timeline) (eased : Float) (i : Nat) : Float :=
  match tl.geometry with
  | .bands start width => if width ≤ 0 then 0 else clamp ((eased - (start + Float.ofNat i * width)) / width) 0 1
  | .line d0 d1 r0 r1 =>
    let here := lineScale d0 d1 r0 r1 (numberOr0 (tl.keyframeAt i))
    let there := lineScale d0 d1 r0 r1 (numberOr0 (tl.nextAfter i))
    let span := (if there > here then there else tl.duration) - here
    if span ≤ 0 then 0 else clamp ((eased - here) / span) 0 1

def frameAt (tl : Timeline) (clock : Float) : Frame :=
  let eased := tl.easedClock clock
  let (index, value) := match tl.geometry with
    | .bands start width =>
      let i := bandIndex start width tl.keyframes.length eased
      (i, tl.keyframeAt i)
    | .line d0 d1 r0 r1 =>
      let x := lineInvert d0 d1 r0 r1 eased
      (lastPassed x 0 0 tl.keyframes, .number x)
  { clock, eased, index, value
    current := tl.keyframeAt index
    next := tl.nextAfter index
    tween := tl.tweenAt eased index }

def pauseFor (tl : Timeline) (value : Value) : Float :=
  ((tl.pauses.find? fun p => sameValue p.value value).map (·.duration)).getD 0

/-- The clock reading at which a keyframe starts. -/
def offset? (tl : Timeline) (i : Int) : Option Float :=
  match tl.geometry with
  | .bands start width => some (start + Float.ofInt i * width)
  | .line d0 d1 r0 r1 =>
    if i < 0 then none
    else (tl.keyframes[i.toNat]?).map fun k => lineScale d0 d1 r0 r1 (numberOr0 k)

end Timeline
end AnimatedChart

import AnimatedChart.Animation.Expr
import AnimatedChart.Animation.Names
import AnimatedChart.Graph.References

/-!
# Time scales

The scale from time values to elapsed milliseconds, and the signals that follow the current and the next keyframe.
-/

namespace AnimatedChart.Animation

open Json Spec

/-- The domain of the time scale: the values that are given, or those of a dataset's time field. -/
def timeDomain (s : Scope) (data : String) (sorted : Bool) : Value :=
  match s.explicitDomain with
  | [] => .ofPairs ([("data", .string data), ("field", .string s.field)]
      ++ if sorted then [("sort", .bool true)] else [])
  | vs => .array vs

def bandTime (s : Scope) (data : String) : Graph where
  scales := [{
    name := s.timeScale
    type := "band"
    domain := timeDomain s data true
    align := some 0
    range := match s.timeRange? with
      | some (.step ms) => .ofPairs [("step", .number ms)]
      | some (.values vs) => .array vs
      | none => .null }]
  signals := [
    { name := s.domain, update := call "domain" [stringLiteral s.timeScale] },
    { name := s.index
      init := "0"
      on := [{
        events := signalRef s.eased
        update := s!"max(0, indexof({s.domain}, invert({stringLiteral s.timeScale}, {s.eased})))" }] },
    { name := s.value, update := s!"{s.domain}[{s.index}]" },
    { name := s.current, update := s.value }]

def linearTime (s : Scope) (data : String) : Graph where
  data := [
    { name := s.keyframes
      source := .string data
      transform := [
        .ofPairs [("type", .string "aggregate"), ("groupby", .array [.string s.field])],
        .ofPairs [("type", .string "collect"), ("sort", .ofPairs [("field", .string s.field)])]] },
    { name := s.elapsedKeyframes
      source := .string s.keyframes
      transform := [filterBy (access "datum" s.field ++ " <= " ++ s.value)] }]
  scales := [{
    name := s.timeScale
    type := "linear"
    domain := timeDomain s data false
    zero := some (((s.time.scale.bind (·.zero))).getD false)
    range := match s.timeRange? with
      | some (.values vs) => .array vs
      | _ => .null }]
  signals := [
    { name := s.value, update := s!"invert({stringLiteral s.timeScale}, {s.eased})" },
    { name := s.domain
      update := s!"pluck(data({stringLiteral s.keyframes}), {stringLiteral s.field})" },
    { name := s.index, update := s!"max(0, length(data({stringLiteral s.elapsedKeyframes})) - 1)" },
    { name := s.current, update := s!"{s.domain}[{s.index}]" }]

def rangeEnd? (s : Scope) : Option Float :=
  match s.timeRange? with
  | some (.step ms) => if s.explicitDomain.isEmpty then none else some (ms * Float.ofNat s.explicitDomain.length)
  | some r => r.last?
  | none => none

def rangeEnd (s : Scope) : Signal :=
  match rangeEnd? s with
  | some x => { name := s.maxRange, value := .number x }
  | none => { name := s.maxRange, update := s!"extent(range({stringLiteral s.timeScale}))[1]" }

def tweenExpr (s : Scope) : String :=
  let scale := stringLiteral s.timeScale
  let curr := s!"scale({scale}, {s.current})"
  if s.isLinear then
    let next := s!"scale({scale}, {s.next})"
    let span := s!"(({next} > {curr} ? {next} : {s.maxRange}) - {curr})"
    s!"clamp({span} > 0 ? ({s.eased} - {curr}) / {span} : 0, 0, 1)"
  else s!"clamp(({s.eased} - {curr}) / bandwidth({scale}), 0, 1)"

/-- The time scale of a scope and the signals that follow it. -/
def timeScale (s : Scope) (data : String) : Graph :=
  let base := if s.isLinear then linearTime s data else bandTime s data
  let last := if s.time.loops then s.minExtent else s.maxExtent
  { base with signals := base.signals ++ [
    rangeEnd s,
    { name := s.minExtent, update := s!"extent({s.domain})[0]" },
    { name := s.maxExtent, update := s!"extent({s.domain})[1]" },
    { name := s.next
      update := s!"{s.index} + 1 < length({s.domain}) ? {s.domain}[{s.index} + 1] : {last}" },
    { name := s.tween, update := tweenExpr s }] }

def timer : Value := .ofPairs [("type", .string "timer"), ("throttle", .number (1000 / 60))]

def easingExpr (driver : Option Selection) (progress : String) : String :=
  match driver.bind (·.select.easing) with
  | some (.curve (p :: ps)) => call "interpolateCatmullRom" [valueLiteral (.array ((p :: ps).map .number)), progress]
  | some (.named name) => call (if name.isEmpty then Easing.byDefault.name else name) [progress]
  | _ => call Easing.byDefault.name [progress]

def clockFilters (s : Scope) : List String :=
  (s.driver?.map (·.select.trigger.filters)).getD []

def clockCondition (s : Scope) : String := String.intercalate " && " (clockFilters s ++ [s.notHeld])

/-- The signals of a scope's clock. -/
def clock (s : Scope) : Graph :=
  let advanced := s!"{s.clock} + (now() - {s.lastTick})"
  let ticks : Handler := {
    events := timer
    update := s!"{clockCondition s} ? ({advanced} > {s.maxRange} ? 0 : {advanced}) : {s.clock}" }
  let scrubs : List Handler := (s.driver?.filter (·.isSlider)).toList.map fun d => {
    events := signalRef d.slider
    update := scaleCall s.timeScale d.slider }
  let gates := (clockFilters s).filter isIdentifier
  { signals := [
    { name := s.clock, init := "0", on := ticks :: scrubs },
    { name := s.lastTick
      init := "now()"
      on := [{ events := signalEvents ([s.clock] ++ gates ++ [s.notHeld]), update := "now()" }] },
    { name := s.eased
      update := easingExpr s.driver? s!"{s.clock} / {s.maxRange}" ++ " * " ++ s.maxRange }] }

def pause (s : Scope) : Graph :=
  match (s.driver?.map (·.select.pauses)).getD [] with
  | [] => { signals := [{ name := s.notHeld, value := .bool true }] }
  | pauses =>
    let holds := stringLiteral s.holds
    { data := [{
        name := s.holds
        values := .array (pauses.map fun p => .ofPairs [("value", p.value), ("duration", .number p.duration)])
        transform := [filterBy ("datum.value == " ++ s.current)] }]
      signals := [
        { name := s.holdDuration
          update := s!"length(data({holds})) ? data({holds})[0].duration : null" },
        { name := s.heldSince
          init := "now()"
          on := [{ events := signalEvents [s.holdDuration, s.current], update := "now()" }] },
        { name := s.notHeld
          value := .bool true
          on := [{
            events := timer
            update := s!"{s.holdDuration} ? (now() - {s.heldSince} > {s.holdDuration}) : true" }] }] }

end AnimatedChart.Animation

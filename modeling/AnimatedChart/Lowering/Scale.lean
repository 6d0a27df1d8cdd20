import AnimatedChart.Graph.References

/-!
# Scales of channels

The first channel that needs a scale decides its type, range and properties.
-/

namespace AnimatedChart.Lowering

open Json

structure Channel where
  field : String := ""
  type : String := ""
  value : Value := .null
  /-- A value is given, possibly null. -/
  hasValue : Bool := false
  scale : Dict Value := []
  title : String := ""
  aggregate : String := ""
deriving Repr, Inhabited, BEq

namespace Channel

def isDiscrete (c : Channel) : Bool := c.type == "nominal" || c.type == "ordinal"

def isQuantitative (c : Channel) : Bool := c.type == "quantitative"

def isTemporal (c : Channel) : Bool := c.type == "temporal"

def read? (f : Fragment) : Option Channel :=
  let parts := (Reader.record [
    ("field", fun f (r : Value × Channel) => do return (← Reader.any f r.1, r.2)),
    ("type", fun f (r : Value × Channel) => do
      return (r.1, { r.2 with type := ← Reader.text f r.2.type })),
    ("value", fun f (r : Value × Channel) => do
      return (r.1, { r.2 with value := ← Reader.any f r.2.value })),
    ("scale", fun f (r : Value × Channel) => do
      return (r.1, { r.2 with scale := (← Reader.dict? .null .any f (some r.2.scale)).getD [] })),
    ("title", fun f (r : Value × Channel) => do
      return (r.1, { r.2 with title := ← Reader.text f r.2.title })),
    ("aggregate", fun f (r : Value × Channel) => do
      return (r.1, { r.2 with aggregate := ← Reader.text f r.2.aggregate }))]).run f (.null, {})
  match parts with
  | .error _ => none
  | .ok (field, c) =>
    some { c with
      field := field.text?.getD ""
      hasValue := match Reader.membersOf f with
        | .ok ms => Dict.has ms "value"
        | .error _ => false }

end Channel

def datum (field : String) : String := "datum[" ++ Text.quote field ++ "]"

/-- A mark before it is drawn. -/
structure MarkPlan where
  type : String
  channels : Dict Channel
deriving Inhabited

namespace MarkPlan

def ofFragments (type : String) (channels : Dict Fragment) : MarkPlan where
  type := type
  channels := channels.filterMap fun c => (Channel.read? c.2).map (c.1, ·)

def primitive? (m : MarkPlan) : Option String :=
  match m.type with
  | "point" | "circle" | "square" => some "symbol"
  | "bar" | "tick" | "rect" => some "rect"
  | "line" => some "line"
  | "area" => some "area"
  | "text" => some "text"
  | "rule" => some "rule"
  | "trail" => some "trail"
  | "geoshape" => some "shape"
  | _ => none

def isRect (m : MarkPlan) : Bool := m.primitive? == some "rect"

def isStroked (m : MarkPlan) : Bool := ["point", "line", "rule"].contains m.type

def isPath (m : MarkPlan) : Bool := ["line", "area", "trail"].contains m.type

def field? (m : MarkPlan) (channel : String) : Option Channel :=
  (Dict.get? m.channels channel).filter fun c => !c.field.isEmpty

def validity (m : MarkPlan) : List Value :=
  ["x", "y"].filterMap fun ch =>
    ((m.field? ch).filter Channel.isQuantitative).map fun c =>
      let d := datum c.field
      filterBy s!"isValid({d}) && isFinite(+{d})"

def isGeographic (m : MarkPlan) : Bool :=
  (m.field? "longitude").isSome && (m.field? "latitude").isSome

def projecting? (m : MarkPlan) (path : String) : Option Value :=
  match m.field? "longitude", m.field? "latitude" with
  | some lon, some lat => some (.ofPairs [
      ("type", .string "geopoint"),
      ("projection", .string "projection"),
      ("fields", .array [.string lon.field, .string lat.field]),
      ("as", .array [.string (path ++ "x"), .string (path ++ "y")])])
  | _, _ => none

/-- The axis along which bars and areas are stacked: a quantitative one whose other axis is discrete or
absent. -/
def stacked? (m : MarkPlan) : Option (String × Channel × Option Channel) :=
  if m.type = "bar" ∨ m.type = "area" then
    [("y", "x"), ("x", "y")].findSome? fun (axis, other) =>
      match (m.field? axis).filter Channel.isQuantitative with
      | none => none
      | some q =>
        match m.field? other with
        | none => some (axis, q, none)
        | some dim => if dim.isDiscrete then some (axis, q, some dim) else none
  else none

def isStackedAlong (m : MarkPlan) (axis : String) : Bool :=
  m.stacked?.map (·.1) == some axis

def stacking? (m : MarkPlan) : Option Value :=
  m.stacked?.map fun (_, q, dim) =>
    let sort := match m.field? "color" with
      | some color => Value.ofPairs [
          ("field", .array [.string color.field]), ("order", .array [.string "descending"])]
      | none => Value.ofPairs [("field", .array []), ("order", .array [])]
    .ofPairs [
      ("type", .string "stack"),
      ("groupby", .array (dim.toList.map fun d => .string d.field)),
      ("field", .string q.field),
      ("sort", sort),
      ("as", .array [.string (q.field ++ "_start"), .string (q.field ++ "_end")]),
      ("offset", .string "zero")]

def series (m : MarkPlan) : List String :=
  if m.isPath then (["color", "detail"].filterMap fun ch => (m.field? ch).map (·.field)).eraseDups else []

end MarkPlan

/-- Where a unit is drawn: the path and scale prefix of its view and the signals of its size. -/
structure Place where
  path : String := ""
  scalePrefix : String := ""
  width : String := "width"
  height : String := "height"
deriving Repr, Inhabited

structure DomainField where
  data : String
  field : String
deriving Repr, Inhabited, BEq, DecidableEq

/-- A scale whose domain is still being collected. -/
structure ScalePlan where
  scale : Scale
  fields : List DomainField := []
  discrete : Bool := false
  fixed : Bool := false
  /-- The group whose axis shows the scale, empty for the whole chart. -/
  group : String := ""
  /-- The side of the axis, empty for none. -/
  axis : String := ""
  title : String := ""
deriving Inhabited

namespace ScalePlan

/-- What a channel's scale is before its own properties are applied, and its further properties. -/
def initial (name channel : String) (c : Channel) (m : MarkPlan) (p : Place) : ScalePlan × Dict Value :=
  let position (range : Value) (axis : String) : ScalePlan × Dict Value :=
    let base : ScalePlan := {
      scale := { name, range }
      discrete := c.isDiscrete
      group := p.scalePrefix
      axis
      title := if c.title.isEmpty then c.field else c.title }
    if c.isDiscrete && m.isRect then
      ({ base with scale := { base.scale with type := "band" } },
        .ofPairs [("paddingInner", .number 0.1), ("paddingOuter", .number 0.05)])
    else if c.isDiscrete then
      ({ base with scale := { base.scale with type := "point" } }, .ofPairs [("padding", .number 0.5)])
    else if c.isTemporal then
      ({ base with scale := { base.scale with type := "time" } }, .ofPairs [("nice", .bool true)])
    else
      ({ base with scale := { base.scale with type := "linear", zero := some (m.isRect || m.stacked?.isSome) } },
        .ofPairs [("nice", .bool true)])
  let plain (scale : Scale) : ScalePlan × Dict Value := ({ scale, discrete := c.isDiscrete }, [])
  match channel with
  | "x" => position (.array [.number 0, signalRef p.width]) "bottom"
  | "y" => position (.array [signalRef p.height, .number 0]) "left"
  | "color" =>
    if c.isDiscrete then plain { name, type := "ordinal", range := .string "category" }
    else if c.isTemporal then plain { name, type := "time", range := .string "ramp" }
    else plain { name, type := "linear", range := .string "ramp", zero := some false }
  | "size" => plain { name, type := "linear", range := .array [.number 0, .number 361], zero := some true }
  | "opacity" => plain { name, type := "linear", range := .array [.number 0.3, .number 0.8], zero := some false }
  | "shape" => plain { name, type := "ordinal", range := .string "symbol" }
  | _ => plain { name }

def apply (s : ScalePlan × Dict Value) (property : String × Value) : ScalePlan × Dict Value :=
  let (b, extra) := s
  let (k, v) := property
  match k with
  | "type" =>
    match v with
    | .string t => ({ b with
        scale := { b.scale with type := t }
        discrete := t == "band" || t == "point" || t == "ordinal" }, extra)
    | _ => s
  | "domain" => ({ b with scale := { b.scale with domain := v }, fixed := true }, extra)
  | "range" => ({ b with scale := { b.scale with range := v } }, extra)
  | "scheme" => ({ b with scale := { b.scale with range := .ofPairs [("scheme", v)] } }, extra)
  | "zero" =>
    match v with
    | .bool z => ({ b with scale := { b.scale with zero := some z } }, extra)
    | _ => s
  | _ => (b, Dict.put k v extra)

def ofChannel (name channel : String) (c : Channel) (m : MarkPlan) (p : Place) : ScalePlan :=
  let (b, extra) := c.scale.foldl apply (initial name channel c m p)
  { b with scale := { b.scale with others := Dict.mapValues Value.toFragment extra } }

def addFields (b : ScalePlan) (data : String) (fields : List String) : ScalePlan :=
  { b with fields := fields.foldl (fun fs f => if fs.contains ⟨data, f⟩ then fs else fs ++ [⟨data, f⟩]) b.fields }

def domain (b : ScalePlan) : Value :=
  let sort := if b.discrete then [("sort", Value.bool true)] else []
  match b.fields with
  | [] => b.scale.domain
  | [r] => .ofPairs ([("data", .string r.data), ("field", .string r.field)] ++ sort)
  | r :: rest =>
    if rest.all (·.data == r.data) then
      .ofPairs ([("data", .string r.data), ("fields", .array (b.fields.map fun r => .string r.field))] ++ sort)
    else
      .ofPairs ([("fields", .array (b.fields.map fun r =>
        .ofPairs [("data", .string r.data), ("field", .string r.field)]))] ++ sort)

def build (b : ScalePlan) : Scale :=
  if b.fixed then b.scale else { b.scale with domain := b.domain }

def axisOf (b : ScalePlan) : Value :=
  .ofPairs [("scale", .string b.scale.name), ("orient", .string b.axis), ("title", .string b.title),
    ("grid", .bool false)]

end ScalePlan
end AnimatedChart.Lowering

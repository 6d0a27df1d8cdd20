import AnimatedChart.Lowering.State

/-!
# Drawing marks

A mark's channels become the update block of its primitive.
-/

namespace AnimatedChart.Lowering

open Json

def defaultColor : Value := .string "#4c78a8"

def constant (v : Value) : Value := .ofPairs [("value", v)]

def scaled (scale field : String) : Value := .ofPairs [("scale", .string scale), ("field", .string field)]

def channelValue (name : String) (c : Channel) (m : MarkPlan) (p : Place) (data : String) : Lower Value := do
  if c.field.isEmpty then return constant (if c.hasValue then c.value else .null)
  else return scaled (← scaleFor name c m p data [c.field]) c.field

/-- The properties of a position channel: the position, and for stacked marks and bars the other end. -/
def positionValues (axis : String) (c : Channel) (m : MarkPlan) (p : Place) (data : String) :
    Lower (List (String × Value)) := do
  let size := if axis = "x" then "width" else "height"
  if c.field.isEmpty then
    return if c.hasValue then [(axis, constant c.value)] else []
  else if m.isStackedAlong axis then
    let scale ← scaleFor axis c m p data [c.field ++ "_start", c.field ++ "_end"]
    return [(axis, scaled scale (c.field ++ "_end")), (axis ++ "2", scaled scale (c.field ++ "_start"))]
  else
    let scale ← scaleFor axis c m p data [c.field]
    let position := (axis, scaled scale c.field)
    if m.isRect && c.isDiscrete then
      return [position, (size, .ofPairs [("scale", .string scale), ("band", .number 1)])]
    else if m.isRect && c.isQuantitative then
      return [position, (axis ++ "2", .ofPairs [("scale", .string scale), ("value", .number 0)])]
    else return [position]

def channelProperties (name : String) (c : Channel) (m : MarkPlan) (p : Place) (data : String) :
    Lower (List (String × Value)) := do
  match name with
  | "x" | "y" => positionValues name c m p data
  | "color" => return [(if m.isStroked then "stroke" else "fill", ← channelValue name c m p data)]
  | "size" => return [(if m.type = "text" then "fontSize" else "size", ← channelValue name c m p data)]
  | "opacity" | "shape" => return [(name, ← channelValue name c m p data)]
  | "text" =>
    if !c.field.isEmpty then
      let d := datum c.field
      return [("text", signalRef s!"isValid({d}) ? {d} : \"\"")]
    else return if c.hasValue then [("text", constant c.value)] else []
  | "longitude" => return if m.isGeographic then [("x", .ofPairs [("field", .string (p.path ++ "x"))])] else []
  | "latitude" => return if m.isGeographic then [("y", .ofPairs [("field", .string (p.path ++ "y"))])] else []
  | _ => return []

def encodeChannels (m : MarkPlan) (p : Place) (data : String) :
    List (String × Channel) → Dict Value → Lower (Dict Value)
  | [], update => return update
  | (name, c) :: rest, update => do
    let properties ← channelProperties name c m p data
    encodeChannels m p data rest (Dict.putAll update properties)

def encode (m : MarkPlan) (p : Place) (data : String) : Lower (Dict Value) := do
  let update ← encodeChannels m p data m.channels []
  let update :=
    if Dict.has m.channels "color" then update
    else Dict.put (if m.isStroked then "stroke" else "fill") (constant defaultColor) update
  return if m.type = "point" then Dict.put "fill" (constant (.string "transparent")) update else update

def furtherMembers (m : MarkPlan) : List (String × Fragment) :=
  [("style", Fragment.list [.text m.type])]
  ++ (if m.type = "geoshape" then
      [("transform", Fragment.list [(Value.ofPairs [
        ("type", .string "geoshape"), ("projection", .string "projection")]).toFragment])]
    else [])
  ++ (match m.isPath, m.field? "x" with
    | true, some x => [("sort", (Value.ofPairs [("field", .string (datum x.field))]).toFragment)]
    | _, _ => [])

/-- The order in which the channels of the mark at a path are looked through. -/
abbrev Visit := String → Dict Channel → List (String × Channel)

def Visit.inOrder : Visit := fun _ channels => channels

def drawMark (visit : Visit) (m : MarkPlan) (p : Place) (projection : Option Fragment) (data : String) :
    Lower Mark := do
  match m.primitive? with
  | none => throw (.new .unsupported s!"mark {Text.quote m.type} is not supported by the reference compiler")
  | some primitive =>
    match (visit p.path m.channels).find? (fun c => !c.2.aggregate.isEmpty) with
    | some (_, c) =>
      throw (.new .unsupported
        s!"aggregate {Text.quote c.aggregate} is not supported by the reference compiler")
    | none =>
      let update ← encode m p data
      if m.type = "geoshape" then useProjection projection p
      let mark : Mark := { Mark.ofType (p.path ++ "marks") primitive with
        source := some { data }
        encode := [("update", .object update)]
        others := Dict.ofPairs (furtherMembers m) }
      match m.series with
      | [] => return mark
      | fields =>
        let facet := "faceted_path_" ++ p.path ++ "main"
        let size (name : String) : Value := .ofPairs [("field", .ofPairs [("group", .string name)])]
        return { Mark.ofType (p.path ++ "pathgroup") "group" with
          source := some { facet := some { name := facet, data, groupby := .array (fields.map .string) } }
          encode := [("update", .ofPairs [("width", size "width"), ("height", size "height")])]
          marks := [{ mark with source := some { data := facet } }] }

end AnimatedChart.Lowering

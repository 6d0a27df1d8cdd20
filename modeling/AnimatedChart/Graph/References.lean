import AnimatedChart.Graph.Basic

/-!
# Field and data references

An encode channel may be bound to a field, possibly through a scale (`FieldRef`), and a scale's domain may
be drawn from datasets (`domainData`, `rebindDomain`).
-/

namespace AnimatedChart

open Json

/-- The field that an encode channel is bound to. -/
structure FieldRef where
  field : String
  scale : String
  band : Value
  offset : Value
deriving Repr, Inhabited, BEq

/-- The field reference of a channel. -/
def FieldRef.ofValue? (v : Value) : Option FieldRef := do
  let v ← match v with
    | .array rules => rules.getLast?
    | v => some v
  let members ← v.members?
  let field ← (Dict.get? members "field").bind Value.text?
  if field.isEmpty then none
  else some {
    field
    scale := ((Dict.get? members "scale").bind Value.text?).getD ""
    band := (Dict.get? members "band").getD .null
    offset := (Dict.get? members "offset").getD .null }

def signalRef (name : String) : Value := .ofPairs [("signal", .string name)]

def signalEvents (names : List String) : Value := .array (names.map signalRef)

def filterBy (expr : String) : Value :=
  .ofPairs [("type", .string "filter"), ("expr", .string expr)]

namespace Scale

def hasDiscreteRange (s : Scale) : Bool :=
  ["ordinal", "bin-ordinal", "quantile", "quantize", "threshold"].contains s.type

def hasContinuousDomain (s : Scale) : Bool :=
  ["", "linear", "log", "pow", "sqrt", "symlog", "time", "utc", "sequential"].contains s.type

/-- The scale maps to colours: by a scheme, by a named range, or because it is named for a colour. -/
def isColor (s : Scale) : Bool :=
  (match s.range with
    | .string r => ["category", "diverging", "heatmap", "ordinal", "ramp"].contains r
    | .object ms => Dict.has ms "scheme"
    | _ => false)
  || ["color", "fill", "stroke"].contains s.name

end Scale

def dataOf? (members : Dict Value) : Option String :=
  (Dict.get? members "data").bind Value.text?

def domainData (domain : Value) : List String :=
  match domain with
  | .object ms =>
    (dataOf? ms).toList ++
      (match Dict.get? ms "fields" with
        | some (.array fields) => fields.filterMap fun f => f.members?.bind dataOf?
        | _ => [])
  | _ => []

def rebindReference (old new : String) (ms : Dict Value) : Dict Value :=
  if dataOf? ms == some old then Dict.put "data" (.string new) ms else ms

def rebindDomain (domain : Value) (old new : String) : Value :=
  match domain with
  | .object ms =>
    let ms := rebindReference old new ms
    .object (match Dict.get? ms "fields" with
      | some (.array fields) =>
        Dict.put "fields" (.array (fields.map fun f =>
          match f with
          | .object r => .object (rebindReference old new r)
          | f => f)) ms
      | _ => ms)
  | d => d

/-- Whether rebinding the dataset changes the domain. -/
def domainMentions (domain : Value) (name : String) : Bool :=
  match domain with
  | .object ms =>
    dataOf? ms == some name ||
      (match Dict.get? ms "fields" with
        | some (.array fields) => fields.any fun f => f.members?.bind dataOf? == some name
        | _ => false)
  | _ => false

end AnimatedChart

import AnimatedChart.Data.Files
import AnimatedChart.Lowering.Scale
import AnimatedChart.Spec.Basic

/-!
# The chart being lowered

`Draft` is the graph as far as it is lowered: datasets and signals in order, the scales that are still collecting
fields, and what is shared between views.
-/

namespace AnimatedChart.Lowering

open Json

/-- A chart being lowered. -/
structure Draft where
  data : List Dataset := []
  signals : List Signal := []
  scales : List ScalePlan := []
  sources : List (Fragment × String) := []
  /-- The dataset of each source and list of transforms met so far. -/
  derived : List ((String × String) × String) := []
  nextSource : Nat := 0
  nextDerived : Nat := 0
  /-- The projection of the chart, that of the first view which needs one. -/
  projection : Option Value := none
  /-- The signal for the view under the pointer is there. -/
  pointer : Bool := false
deriving Inhabited

abbrev Lower := StateT Draft (Except Error)

def Lower.within {α : Type} (context : String) (x : Lower α) : Lower α :=
  fun s => (x.run s).mapError (Error.within context)

structure DataDefinition where
  name : String := ""
  url : String := ""
  values : Value := .null
  format : Dict Value := []
deriving Inhabited

def DataDefinition.layout : List (Json.Field DataDefinition) := [
  ⟨"name", (·.name), fun b d => { d with name := b }, .text⟩,
  ⟨"url", (·.url), fun b d => { d with url := b }, .text⟩,
  ⟨"values", (·.values), fun b d => { d with values := b }, .any⟩,
  ⟨"format", fun d => some d.format, fun b d => { d with format := b.getD [] }, .dict? .null .any⟩]

def DataDefinition.read (f : Fragment) : Except Error DataDefinition := (Reader.fields layout).run f {}

def remoteFormat (d : DataDefinition) : Dict Value :=
  if Dict.has d.format "type" then d.format
  else
    let ext := Data.extension d.url
    if ext = "csv" ∨ ext = "tsv" then
      Dict.put "parse" (.string "auto") (Dict.put "type" (.string ext) d.format)
    else Dict.put "type" (.string "json") d.format

def source (raw : Fragment) : Lower String := do
  let s ← get
  match s.sources.find? (·.1 == raw) with
  | some (_, name) => return name
  | none =>
    let d ← liftM ((DataDefinition.read raw).mapError (Error.within "data"))
    let numbered := s!"source_{s.nextSource}"
    let add (dataset : Dataset) : Lower String := do
      modify fun s => { s with
        data := s.data ++ [dataset]
        sources := s.sources ++ [(raw, dataset.name)]
        nextSource := s.nextSource + 1 }
      return dataset.name
    if d.values.isSome then add { name := numbered, values := d.values }
    else if !d.url.isEmpty then
      add { name := numbered, others := Dict.ofPairs [
        ("url", .text d.url), ("format", .record (Value.toMembers (remoteFormat d)))] }
    else if !d.name.isEmpty then
      modify fun s => { s with
        data := if s.data.any (·.name == d.name) then s.data else s.data ++ [{ name := d.name }]
        sources := s.sources ++ [(raw, d.name)] }
      return d.name
    else throw (.plain "data must have values, url or name")

/-- The dataset that applies transforms to a source, shared between views that derive the same rows. -/
def derive (source : String) (transform : List Value) : Lower String := do
  let s ← get
  let key := (source, (Fragment.list (Value.toItems transform)).compact)
  match s.derived.find? (·.1 == key) with
  | some (_, name) => return name
  | none =>
    let name := s!"data_{s.nextDerived}"
    modify fun s => { s with
      data := s.data ++ [{ name, source := .string source, transform }]
      derived := s.derived ++ [(key, name)]
      nextDerived := s.nextDerived + 1 }
    return name

/-- Uses the chart's projection, setting it up for the first view that needs one. -/
def useProjection (raw : Option Fragment) (p : Place) : Lower PUnit := do
  let s ← get
  if s.projection.isNone then
    let properties : Option (Dict Value) := match raw with
      | some f => ((Reader.dict? .null .any f (some [])).value?).getD none
      | none => some []
    let some given := properties | throw .fatal
    let typed := if Dict.has given "type" then given else Dict.put "type" (.string "mercator") given
    modify fun s => { s with projection := some (.object (Dict.put "size" (signalRef s!"[{p.width}, {p.height}]")
      (Dict.put "name" (.string "projection") typed))) }

/-- Adds fields to the scale of a channel and gives its name. -/
def scaleFor (channel : String) (c : Channel) (m : MarkPlan) (p : Place) (data : String)
    (fields : List String) : Lower String := do
  let name := if channel = "x" ∨ channel = "y" then p.scalePrefix ++ channel else channel
  let s ← get
  if s.scales.any (·.scale.name == name) then
    modify fun s => { s with scales := s.scales.map fun b =>
      if b.scale.name == name then b.addFields data fields else b }
  else
    modify fun s => { s with scales := s.scales ++ [(ScalePlan.ofChannel name channel c m p).addFields data fields] }
  return name

end AnimatedChart.Lowering

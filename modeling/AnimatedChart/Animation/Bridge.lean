import AnimatedChart.Animation.Expr
import AnimatedChart.Animation.Names
import AnimatedChart.Graph.Marks
import AnimatedChart.Graph.References

/-!
# The clock and its selections

Every animation selection of a scope follows the current keyframe, so that selection tests see it like a clicked point.
-/

namespace AnimatedChart.Animation

open Json Spec

def tupleValue (s : Scope) (p : FieldPredicate) : String :=
  match p.tupleType with
  | "R" => listExpr [s.minExtent, s.current]
  | "E-VALID" => "true"
  | _ => s.current

def comparisons (s : Scope) (a : Selection) : List FieldPredicate :=
  match a.predicates with
  | [] => [{ field := s.field, equal := .bool true }]
  | ps => ps

def tupleSignals (s : Scope) (a : Selection) : List Signal :=
  let ps := comparisons s a
  let values := listExpr (ps.map (tupleValue s))
  [{ name := a.name ++ "_toggle", value := .bool false },
   { name := a.name ++ "_tuple_fields"
     value := .array (ps.map fun p => .ofPairs [("type", .string p.tupleType), ("field", .string p.field)]) },
   { name := a.name ++ "_tuple"
     on := [{
       events := signalEvents [s.eased, s.current]
       update := "\x7bunit: \"\", fields: " ++ a.name ++ "_tuple_fields, values: " ++ values ++ "\x7d"
       force := true }] }]

def withDefault (k : String) (v : Value) (d : Dict Value) : Dict Value :=
  if Dict.has d k then d else Dict.put k v d

/-- The slider of a selection, and the switch that stops the clock when the slider is touched. -/
def sliderSignals (s : Scope) (a : Selection) (properties : Dict Value) : List Signal :=
  let bind := Dict.put "input" (.string "range") properties
  let (initial, bind) := match s.explicitDomain.head?, s.explicitDomain.getLast? with
    | some first, some last => (first, withDefault "max" last (withDefault "min" first bind))
    | _, _ => (.number 0, bind)
  [{ name := a.slider, value := initial, bind := .object bind },
   { name := s.id.isPlaying
     value := .bool true
     bind := .ofPairs [("input", .string "checkbox")]
     on := [{ events := signalEvents [a.slider], update := "false" }] }]

def timeScalesOf (s : Scope) (m : Mark) : List String :=
  (m.primary.block "update").filterMap fun c =>
    match FieldRef.ofValue? c.2 with
    | some r => if r.field = s.field ∧ r.scale ≠ "" then some r.scale else none
    | none => none

/-- Binds the scales of one unit: clips its mark and adds those of its time scales that are not yet there. -/
def bindUnit (s : Scope) (acc : Graph × List Scale) (u : ScopedUnit) : Graph × List Scale :=
  match acc.1.unitMark? u.path with
  | none => acc
  | some m =>
    let names := (timeScalesOf s m).eraseDups.filter fun n => !acc.2.any (·.name == n)
    (acc.1.merge (acc.1.editUnitMark u.path fun m => { m with clip := .bool true }),
      acc.2 ++ names.filterMap acc.1.scale?)

/-- The graph with the marks of a bound selection clipped, and the scales that the selection moves. -/
def bindScales (s : Scope) (g : Graph) (a : Selection) : Graph × List Scale :=
  let (g, scales) := s.units.foldl (bindUnit s) (g, [])
  (g, scales.map fun c => { c with domainRaw := signalRef (a.name ++ "_extent") })

def bridgeOne (s : Scope) (acc : Graph × Graph) (a : Selection) : Graph × Graph :=
  let (g, part) := acc
  match a.bind with
  | none => (g, { part with signals := part.signals ++ tupleSignals s a })
  | some (.input properties) =>
    (g, { part with signals := part.signals ++ tupleSignals s a ++ sliderSignals s a properties })
  | some .scales =>
    let extent : Signal := { name := a.name ++ "_extent", update := listExpr [s.minExtent, s.current] }
    let (g, scales) := bindScales s g a
    (g, { part with
      signals := part.signals ++ tupleSignals s a ++ [extent]
      scales := part.scales ++ scales })

def bridge (s : Scope) (g : Graph) : Graph :=
  let (g, part) := s.selections.foldl (bridgeOne s) (g, {})
  g.merge part

end AnimatedChart.Animation

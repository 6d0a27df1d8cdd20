import AnimatedChart.Spec.Basic

/-!
# The static part of a chart

`Chart.static` is the chart without its animation, as a base compiler can take it: time encodings and the enter and exit
looks are gone, filters on animation selections are gone, and every animation selection is a plain point selection over
the fields that its tuples are keyed on.
-/

namespace AnimatedChart.Spec

open Json

/-- The fields that a selection's tuples are keyed on: those of its predicate, or else the time field. -/
def Selection.fields (a : Selection) (time : Option TimeEncoding) : List String :=
  match a.predicates with
  | [] =>
    match time with
    | some t => if t.field.isEmpty then [] else [t.field]
    | none => []
  | ps => ps.map (·.field)

def Selection.plain (a : Selection) (time : Option TimeEncoding) : Param :=
  .plain (.record [
    ("name", .htmlText a.name),
    ("select", .record [
      ("fields", .list ((a.fields time).map .htmlText)),
      ("type", .text "point")])])

def Param.static (time : Option TimeEncoding) : Param → Param
  | .animation a => a.plain time
  | p => p

def Transform.filtersOn (names : List String) (t : Transform) : Bool :=
  !t.param.isEmpty && names.contains t.param

def Encoding.static (e : Encoding) : Encoding := { e with time := none }

def Unit.static (names : List String) (inherited : Option TimeEncoding) (u : Unit) : Unit where
  mark := u.mark
  encoding := u.encoding.map Encoding.static
  params := u.params.map (Param.static (u.time.orElse fun _ => inherited))
  transforms := u.transforms.filter fun t => !t.filtersOn names
  others := u.others

/-- A layer without animation, below the given time encoding. -/
def Layer.static (names : List String) (inherited : Option TimeEncoding) (l : Layer) : Layer where
  encoding := (l.encoding.map Encoding.static).filter fun e => !e.channels.isEmpty
  params := l.params.map (Param.static (l.time.orElse fun _ => inherited))
  transforms := l.transforms.filter fun t => !t.filtersOn names
  others := l.others

mutual

def View.static (names : List String) (inherited : Option TimeEncoding) : View → View
  | .unit u => .unit (u.static names inherited)
  | .layer l children =>
    .layer (l.static names inherited)
      (View.staticAll names (l.time.orElse fun _ => inherited) children)

def View.staticAll (names : List String) (inherited : Option TimeEncoding) : List View → List View
  | [] => []
  | v :: vs => v.static names inherited :: View.staticAll names inherited vs

end

mutual

def View.selections : View → List Selection
  | .unit u => u.selections
  | .layer l children => l.selections ++ View.selectionsOf children

def View.selectionsOf : List View → List Selection
  | [] => []
  | v :: vs => v.selections ++ View.selectionsOf vs

end

def Chart.selections : Chart → List Selection
  | .view v => v.selections
  | .vconcat us _ => (us.getD []).flatMap Unit.selections

def Chart.static (c : Chart) : Chart :=
  let names := c.selections.map (·.name)
  match c with
  | .view v => .view (v.static names none)
  | .vconcat us others => .vconcat (us.map (·.map (Unit.static names none))) others

end AnimatedChart.Spec

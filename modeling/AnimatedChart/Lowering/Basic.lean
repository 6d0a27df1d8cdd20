import AnimatedChart.Lowering.Mark
import AnimatedChart.Lowering.Param

/-!
# Lowering static charts

The reference base compiler lowers a chart of a core subset of the grammar to a dataflow graph.
-/

namespace AnimatedChart.Lowering

open Json Spec

def literal (v : Value) : String := v.toFragment.compact

def predicateExpr (p : FieldPredicate) : Except Error String :=
  let d := datum p.field
  if p.equal.isSome then .ok s!"{d} === {literal p.equal}"
  else if p.lt.isSome then .ok s!"{d} < {literal p.lt}"
  else if p.gt.isSome then .ok s!"{d} > {literal p.gt}"
  else if p.lte.isSome then .ok s!"{d} <= {literal p.lte}"
  else if p.gte.isSome then .ok s!"{d} >= {literal p.gte}"
  else
    match p.range, p.oneOf, p.valid with
    | some [a, b], _, _ => .ok s!"inrange({d}, {literal (.array [a, b])})"
    | _, some vs, _ => .ok s!"indexof({literal (.array vs)}, {d}) !== -1"
    | _, _, some true => .ok s!"isValid({d}) && isFinite(+{d})"
    | _, _, some false => .ok s!"!isValid({d}) || !isFinite(+{d})"
    | _, _, _ => .error (.plain s!"filter on {Text.quote p.field} has no operator")

def textOr (f : Option Fragment) : String :=
  match f with
  | some f => ((Reader.text f "").value?).getD ""
  | none => ""

def lowerTransform (t : Spec.Transform) : Except Error Value := do
  let ms ← (Reader.membersOf t.raw).mapError (.within "transform")
  match Dict.get? ms "calculate", Dict.get? ms "filter" with
  | some expr, _ =>
    return .ofPairs [("type", .string "formula"), ("expr", .string (textOr (some expr))),
      ("as", .string (textOr (Dict.get? ms "as")))]
  | none, none =>
    let names := String.intercalate " " (Dict.keys ms)
    throw (.new .unsupported s!"transform [{names}] is not supported by the reference compiler")
  | none, some filter =>
    if !t.param.isEmpty then
      let store := Text.quote (t.param ++ "_store")
      return filterBy s!"!length(data({store})) || vlSelectionTest({store}, datum)"
    else
      match Reader.text.run filter "" with
      | .ok expr => return filterBy expr
      | .error _ =>
        let p ← (FieldPredicate.reader.run filter {}).mapError (.within "filter")
        return filterBy (← predicateExpr p)

structure Context where
  place : Place := {}
  data : Option Fragment := none
  projection : Option Fragment := none
  transforms : List Spec.Transform := []
  channels : Dict Fragment := []
  params : List Param := []
  visit : Visit := .inOrder
deriving Inhabited

def Context.inherit (c : Context) (others : Dict Fragment) : Context :=
  { c with
    data := (Dict.get? others "data").orElse fun _ => c.data
    projection := (Dict.get? others "projection").orElse fun _ => c.projection }

def lowerTransforms : List Spec.Transform → Except Error (List Value)
  | [] => .ok []
  | t :: ts => do
    let v ← lowerTransform t
    let vs ← lowerTransforms ts
    return v :: vs

def lowerParams (m : MarkPlan) (p : Place) : List Param → Lower PUnit
  | [] => return
  | q :: qs => do
    lowerParam m p q
    lowerParams m p qs

def lowerUnit (u : Spec.Unit) (c : Context) : Lower (List Mark) := do
  if !u.hasMark then return []
  match c.data with
  | none => throw (.plain s!"view {Text.quote (viewName c.place.path)} has no data")
  | some raw =>
    let src ← source raw
    let own := (u.encoding.map (·.channels)).getD []
    let m := MarkPlan.ofFragments u.markType (Dict.putAll c.channels own)
    let transforms ← lowerTransforms (c.transforms ++ u.transforms)
    let projecting := m.projecting? c.place.path
    if projecting.isSome then useProjection c.projection c.place
    let data ← derive src (transforms ++ m.validity ++ projecting.toList ++ m.stacking?.toList)
    let mark ← drawMark c.visit m c.place c.projection data
    lowerParams m c.place (c.params ++ u.params)
    return [mark]

def Context.ofLayer (c : Context) (l : Layer) : Context :=
  { c.inherit l.others with
    transforms := c.transforms ++ l.transforms
    channels := Dict.putAll c.channels ((l.encoding.map (·.channels)).getD [])
    params := [] }

mutual

def lowerView (c : Context) : View → Lower (List Mark)
  | .unit u => lowerUnit u (c.inherit u.others)
  | .layer l children => lowerChildren (c.ofLayer l) l.params 0 children

def lowerChildren (c : Context) (params : List Param) : Nat → List View → Lower (List Mark)
  | _, [] => return []
  | i, v :: vs => do
    let place := { c.place with path := s!"{c.place.path}layer_{i}_" }
    let marks ← (lowerView { c with place, params } v).within s!"layer[{i}]"
    let rest ← lowerChildren c [] (i + 1) vs
    return marks ++ rest

end

structure Size where
  width : Float := 0
  height : Float := 0

def Size.orDefault (s : Size) : Size where
  width := if s.width ≤ 0 then 300 else s.width
  height := if s.height ≤ 0 then 200 else s.height

def numberOr (f : Option Fragment) (d : Float) : Float :=
  match f with
  | none => d
  | some f =>
    match Reader.number.run f 0 with
    | .ok x => x
    | .error _ => d

def commonProperties : List (String × Fragment) := [
  ("$schema", .text "https://vega.github.io/schema/vega/v5.json"),
  ("background", .text "white"),
  ("padding", Value.literal 5)]

def viewProperties (size : Size) (others : Dict Fragment) : List (String × Fragment) :=
  [("width", Value.literal (numberOr (Dict.get? others "width") size.width)),
   ("height", Value.literal (numberOr (Dict.get? others "height") size.height))]
  ++ others.filter (fun o => ["title", "description", "autosize", "config"].contains o.1)
  ++ [("style", .text "cell")]

def lowerConcat (visit : Visit) (others : Dict Fragment) : Nat → List Spec.Unit → Lower (List Mark)
  | _, [] => return []
  | i, u :: us => do
    let path := s!"concat_{i}_"
    let place : Place := { path, scalePrefix := path, width := "childWidth", height := "childHeight" }
    let c := (({ place, visit } : Context).inherit others).inherit u.others
    let marks ← (lowerUnit u c).within s!"vconcat[{i}]"
    let group := { Mark.ofType (path ++ "group") "group" with
      encode := [("update", .ofPairs [("width", signalRef "childWidth"), ("height", signalRef "childHeight")])]
      marks }
    let rest ← lowerConcat visit others (i + 1) us
    return group :: rest

/-- The draft to begin with. -/
def opening (size : Size) : Chart → Draft
  | .view _ => {}
  | .vconcat us _ =>
    let first := ((us.getD []).head?.map (·.others)).getD []
    let width := numberOr (Dict.get? first "width") size.width
    let height := numberOr (Dict.get? first "height") size.height
    { signals := [{ name := "childWidth", value := .number width }, { name := "childHeight", value := .number height }] }

def lowerChart (visit : Visit) (size : Size) : Chart → Lower (List Mark × Dict Fragment)
  | .view v => do
    let others := match v with
      | .unit u => u.others
      | .layer l _ => l.others
    let marks ← lowerView { visit } v
    return (marks, Dict.ofPairs (commonProperties ++ viewProperties size others))
  | .vconcat us others => do
    let marks ← lowerConcat visit others 0 (us.getD [])
    return (marks, Dict.ofPairs (commonProperties
      ++ [("layout", (Value.ofPairs [("padding", .number 20), ("columns", .number 1),
          ("bounds", .string "full"), ("align", .string "each")]).toFragment)]
      ++ others.filter (fun o => ["title", "description"].contains o.1)))

def axesOf (scales : List ScalePlan) (group : String) : List Value :=
  (scales.filter fun b => !b.axis.isEmpty && b.group == group).map ScalePlan.axisOf

def withAxes (scales : List ScalePlan) (m : Mark) : Mark :=
  let group := if m.name.endsWith "group" then (m.name.dropEnd 5).toString else m.name
  match m.type, group.isEmpty, axesOf scales group with
  | "group", false, a :: as => { m with others := Dict.put "axes" (.list (Value.toItems (a :: as))) m.others }
  | _, _, _ => m

def finish (s : Draft) (marks : List Mark) (properties : Dict Fragment) : Graph where
  data := s.data
  signals := s.signals
  scales := s.scales.map ScalePlan.build
  marks := marks.map (withAxes s.scales)
  others :=
    let properties := match axesOf s.scales "" with
      | [] => properties
      | axes => Dict.put "axes" (.list (Value.toItems axes)) properties
    match s.projection with
    | none => properties
    | some p => Dict.put "projections" (.list [p.toFragment]) properties

def lowerIn (visit : Visit) (size : Size) (c : Chart) : Except Error Graph :=
  match (lowerChart visit size.orDefault c).run (opening size.orDefault c) with
  | .ok ((marks, properties), s) => .ok (finish s marks properties)
  | .error e =>
    -- A coded error with an empty code counts as uncoded.
    if (e.code?.map Code.name).getD "" = "" then .error (.wrap .baseCompiler "reference compiler" e)
    else .error e

def compileIn (visit : Visit) (size : Size) (doc : String) : Except Error Graph := do
  lowerIn visit size (← Chart.parse doc)

def lower : Size → Chart → Except Error Graph := lowerIn .inOrder

def compile : Size → String → Except Error Graph := compileIn .inOrder

end AnimatedChart.Lowering

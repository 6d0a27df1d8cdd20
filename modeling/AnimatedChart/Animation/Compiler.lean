import AnimatedChart.Animation.TimeScale
import AnimatedChart.Animation.Tween
import AnimatedChart.Spec.Elaborate
import AnimatedChart.Spec.Static

/-!
# Compiling animated charts

The static part of a chart is lowered by a base compiler. The graph that comes back is then extended scope by scope,
each stage merging its part by name.
-/

namespace AnimatedChart.Animation

open Json Spec

/-- A compiler for static charts. -/
structure BaseCompiler where
  name : String
  compile : Nat → String → Except Error (Option Graph)

abbrev Compile := ExceptT Error (StateM (List String))

def inContext {α : Type} (context : String) (x : Compile α) : Compile α :=
  ExceptT.mk do
    match ← x.run with
    | .ok a => return .ok a
    | .error e => return .error (.within context e)

def normalize (g : Option Graph) : Except Error Graph :=
  match g with
  | none => .error (.new .baseCompiler "base compiler returned no graph")
  | some g => do
    let text ← g.encode.mapError (.wrap .baseCompiler "encode base graph")
    (Graph.parse text).mapError (.wrap .baseCompiler "decode base graph")

def lowerStatic (base : BaseCompiler) (c : Chart) : Compile Graph := do
  let doc := c.static.render
  let docs ← get
  set (docs ++ [doc])
  let g ← liftM (base.compile docs.length doc)
  liftM (normalize g)

/-! ## Entering and leaving rows -/

def channelProperties : String → List String
  | "color" => ["fill", "stroke"]
  | "x" => ["x", "xc", "x2", "width"]
  | "y" => ["y", "yc", "y2", "height"]
  | "x2" => ["x2"]
  | "y2" => ["y2"]
  | "size" => ["size", "fontSize"]
  | "opacity" => ["opacity", "fillOpacity", "strokeOpacity"]
  | "theta" => ["theta", "startAngle", "endAngle"]
  | "radius" => ["radius", "outerRadius"]
  | "longitude" => ["x"]
  | "latitude" => ["y"]
  | channel => [channel]

mutual

/-- A channel value with its scales replaced by those of a view, where the view has its own. -/
def renameScales (g : Graph) (path : String) : Value → Value
  | .object ms =>
    match (Dict.get? ms "scale").bind Value.text? with
    | some name =>
      if (g.scale? (path ++ name)).isSome then .object (Dict.put "scale" (.string (path ++ name)) ms)
      else .object ms
    | none => .object ms
  | .array vs => .array (renameScalesAll g path vs)
  | v => v

def renameScalesAll (g : Graph) (path : String) : List Value → List Value
  | [] => []
  | v :: vs => renameScales g path v :: renameScalesAll g path vs

end

def overrideChart (u : ScopedUnit) (e : Encoding) : Chart :=
  .view (.unit {
    mark := u.unit.mark
    encoding := some { channels := e.channels }
    transforms := u.transforms.filter (·.param.isEmpty)
    others := Dict.ofPairs (u.data.toList.map (("data", ·)) ++ u.projection.toList.map (("projection", ·))) })

/-- The encode block for an encoding of entering or leaving rows: the properties of its channels. -/
def overrideBlock (base : BaseCompiler) (st : Stage) (u : ScopedUnit) (e : Encoding) :
    Compile (Dict Value) := do
  let g ← lowerStatic base (overrideChart u e)
  match g.unitMark? "" with
  | none => return []
  | some m =>
    let update := m.primary.block "update"
    let properties := (Dict.keys e.channels).flatMap channelProperties
    return Dict.ofPairs (properties.filterMap fun p => (Dict.get? update p).map fun v =>
      (p, if u.path.isEmpty then v else renameScales st.graph u.path v))

def blockFor (base : BaseCompiler) (st : Stage) (u : ScopedUnit) (block : String) :
    Option Encoding → Compile (List (String × Dict Value))
  | none => return []
  | some e => do
    let properties ← inContext (block ++ " encoding") (overrideBlock base st u e)
    return [(block, properties)]

def enterExit (base : BaseCompiler) (st : Stage) (u : ScopedUnit) : Compile Graph := do
  let enter ← blockFor base st u "enter" u.unit.enter
  let exit ← blockFor base st u "exit" u.unit.exit
  match enter ++ exit with
  | [] => return {}
  | blocks => return st.graph.editUnitMark u.path fun m =>
      m.mapPrimary fun p => blocks.foldl (fun p b => p.withBlock b.1 b.2) p

/-! ## Scopes -/

def Stage.start (g : Graph) (s : Scope) (first : ScopedUnit) : Except Error Stage :=
  let data := ((s.units.findSome? fun u => g.unitMark? u.path).map Mark.dataset).getD ""
  if data.isEmpty && s.explicitDomain.isEmpty then .error (noMark first.path)
  else .ok { scope := s, graph := g, data }

def compileUnits (base : BaseCompiler) : Nat → List ScopedUnit → Stage → Compile Stage
  | _, [], st => return st
  | i, u :: us, st => do
    if (st.scope.filtersOf u).isEmpty then compileUnits base (i + 1) us st
    else
      match ← liftM (bindKeyframes st i u) with
      | none => compileUnits base (i + 1) us st
      | some (st, b) =>
        let st := st.merge (rescale st u b)
        let st := st.merge (interpolate st u b)
        let part ← enterExit base st u
        compileUnits base (i + 1) us (st.merge part)

/-- The graph with a scope's own signals and scales: its clock, its time scale, its holds and its
selections. -/
def Stage.withClock (st : Stage) : Stage :=
  let s := st.scope
  let g := ((st.graph.merge (clock s)).merge (timeScale s st.data)).merge (pause s)
  { st with graph := bridge s g }

def compileScope (base : BaseCompiler) (g : Graph) (s : Scope) : Compile Graph :=
  match s.units with
  | [] => return g
  | first :: _ => inContext ("scope " ++ s.id.layerId) do
    let st ← liftM (Stage.start g s first)
    let st ← compileUnits base 0 s.units st.withClock
    return st.graph

def compileScopes (base : BaseCompiler) : List Scope → Graph → Compile Graph
  | [], g => return g
  | s :: ss, g => do
    let g ← compileScope base g s
    compileScopes base ss g

/-- The marks in the order of the names: each named one where its name stands, those without a name in their
own sequence where a name is empty. -/
def arrange (named : List Mark) : List String → List Mark → List Mark
  | [], unnamed => unnamed
  | "" :: names, [] => arrange named names []
  | "" :: names, m :: unnamed => m :: arrange named names unnamed
  | name :: names, unnamed =>
    match named.reverse.find? (·.name == name) with
    | some m => m :: arrange named names unnamed
    | none => arrange named names unnamed

/-- Top-level marks in their former drawing order, which merging does not keep; new marks follow. -/
def restoreOrder (order : List String) (marks : List Mark) : List Mark :=
  arrange (marks.filter fun m => !m.name.isEmpty) order (marks.filter (·.name.isEmpty))
    ++ marks.filter fun m => !m.name.isEmpty && !order.contains m.name

def compileElaborated (base : BaseCompiler) (c : Chart) : Compile Graph := do
  match c.scopes.find? (·.field.isEmpty) with
  | some s => throw (.within ("scope " ++ s.id.layerId) (.missing "time encoding" "field"))
  | none =>
    let g ← lowerStatic base c
    let animated ← compileScopes base c.scopes g
    return { animated with marks := restoreOrder (g.marks.map (·.name)) animated.marks }

def compileDocument (base : BaseCompiler) (doc : String) : Except Error Graph := do
  let c ← Chart.parse doc
  ((compileElaborated base c.elaborate).run.run []).1

end AnimatedChart.Animation

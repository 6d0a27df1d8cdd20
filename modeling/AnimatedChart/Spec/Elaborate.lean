import AnimatedChart.Spec.Scope

/-!
# Elaboration

Elaboration fills in what an animation leaves open. After it every time encoding has a scale type, a range, a decided
key and a decided rescale flag; every animation selection of a scope has a normal trigger and an easing; and every scope
has a selection, synthesized when the chart declares none.
-/

namespace AnimatedChart.Spec

/-! ## Time encodings -/

def defaultStep : Float := 500

def defaultEnd : Float := 5000

def firstField (encodings : List (Option Encoding)) (channel : String) (pass : ChannelDef → Bool) :
    Option String :=
  encodings.findSome? fun e =>
    match e.bind (·.channel? channel) with
    | some d => if !d.field.isEmpty && pass d then some d.field else none
    | none => none

/-- The field that identifies a row across keyframes: a bar's nominal position, else the colour, else the
detail. -/
def inferKey (markType : String) (encodings : List (Option Encoding)) : Option String :=
  let positions := if markType = "bar" then ["x", "y"] else []
  (positions.findSome? fun c => firstField encodings c (·.type == "nominal")).orElse fun _ =>
    ["color", "detail"].findSome? fun c => firstField encodings c fun _ => true

namespace TimeScale

def elaborate (s : TimeScale) : TimeScale :=
  let type :=
    if !s.type.isEmpty then s.type
    else if (s.range.map TimeRange.isStep).getD false || s.domain.isEmpty then band
    else linear
  { type
    range := some (s.range.getD
      (if type = linear then .values [.number 0, .number defaultEnd] else .step defaultStep))
    zero := if type = linear then some (s.zero.getD false) else s.zero
    domain := s.domain }

end TimeScale

/-- A time encoding with everything decided; mark type and encodings tell the key if none is given. -/
def TimeEncoding.elaborate (t : TimeEncoding) (markType : String) (encodings : List (Option Encoding)) :
    TimeEncoding where
  field := t.field
  scale := some (t.scale.getD {}).elaborate
  key := some (match t.key with
    | none =>
      match inferKey markType encodings with
      | some f => .field f (some false)
      | none => .disabled
    | some (.field n none) => .field n (some false)
    | some k => k)
  rescale := some (t.rescale.getD false)

/-- A selection in normal form for its scope. -/
def Selection.elaborate (id : ScopeId) (a : Selection) : Selection :=
  let filters := a.select.trigger.filters
  let filters := if a.isSlider && !filters.contains id.isPlaying then filters ++ [id.isPlaying] else filters
  { a with select := { a.select with
      trigger := .list filters
      easing := some (a.select.easing.getD .byDefault) } }

def Param.elaborate (id : ScopeId) : Param → Param
  | .animation a => .animation (a.elaborate id)
  | p => p

def Selection.synthesized (name : String) : Selection where
  name := name
  select := { type := "point", trigger := .list [], easing := some .byDefault }

def Unit.filteredBy (name : String) (u : Unit) : Unit :=
  if u.hasMark && !u.transforms.any (·.param == name) then
    { u with transforms := u.transforms ++ [.ofParam name] }
  else u

/-! ## Views -/

def Unit.elaborate (id : ScopeId) (inherited : Option TimeEncoding) (u : Unit) : Unit :=
  let time := match inherited with
    | some t => some (match u.time with
      | some own => t.override own
      | none => t)
    | none => u.time
  match time with
  | none => u
  | some t =>
    let params := u.params.map (Param.elaborate id)
    let u := { u with
      encoding := some { u.encoding.getD {} with time := some (t.elaborate u.markType [u.encoding]) }
      params }
    if (Spec.selections params).isEmpty then
      { u.filteredBy id.defaultSelection with
        params := params ++ [.animation (.synthesized id.defaultSelection)] }
    else u

mutual

def View.declaresTime : View → Bool
  | .unit u => u.time.isSome
  | .layer l children => l.time.isSome || View.anyDeclaresTime children

def View.anyDeclaresTime : List View → Bool
  | [] => false
  | v :: vs => v.declaresTime || View.anyDeclaresTime vs

end

mutual

def View.mapMarked (f : Unit → Unit) : View → View
  | .unit u => .unit (if u.hasMark then f u else u)
  | .layer l children => .layer l (View.mapMarkedAll f children)

def View.mapMarkedAll (f : Unit → Unit) : List View → List View
  | [] => []
  | v :: vs => v.mapMarked f :: View.mapMarkedAll f vs

end

def View.markedOf (views : List View) : List Unit :=
  (View.unitsOf views).filter Unit.hasMark

def Layer.elaborateOwned (id : ScopeId) (time : TimeEncoding) (l : Layer) (children : List View) : View :=
  let units := View.markedOf children
  let first := units.head?
  let elaborated := time.elaborate ((first.map Unit.markType).getD "")
    (l.encoding :: (first.map (·.encoding)).toList)
  let l := { l with
    encoding := some { l.encoding.getD {} with time := some elaborated }
    params := l.params.map (Param.elaborate id) }
  let children := View.mapMarkedAll (fun u => { u with params := u.params.map (Param.elaborate id) }) children
  if units.any (fun u => !u.selections.isEmpty) || !l.selections.isEmpty then .layer l children
  else
    .layer { l with params := l.params ++ [.animation (.synthesized id.defaultSelection)] }
      (View.mapMarkedAll (Unit.filteredBy id.defaultSelection) children)

def Layer.withoutTime (l : Layer) : Layer :=
  { l with encoding := (l.encoding.map fun e => { e with time := none }).filter fun e => !e.channels.isEmpty }

mutual

def View.elaborate (id : ScopeId) (inherited : Option TimeEncoding) : View → View
  | .unit u => .unit (u.elaborate id inherited)
  | .layer l children =>
    let time := match l.time with
      | some own => some ((inherited.getD {}).override own)
      | none => inherited
    if View.anyDeclaresTime children then
      .layer l.withoutTime (View.elaborateChildren id time 0 children)
    else
      match time with
      | none => .layer l children
      | some t => l.elaborateOwned id t children

/-- The children of a layer that hands its time encoding down. -/
def View.elaborateChildren (id : ScopeId) (time : Option TimeEncoding) : Nat → List View → List View
  | _, [] => []
  | i, .unit u :: vs =>
    .unit (if u.hasMark then u.elaborate (id.child "layer" i) time else u)
      :: View.elaborateChildren id time (i + 1) vs
  | i, .layer l children :: vs =>
    View.elaborate (id.child "layer" i) time (.layer l children) :: View.elaborateChildren id time (i + 1) vs

end

def Chart.elaborate : Chart → Chart
  | .view v => .view (v.elaborate .root none)
  | .vconcat us others =>
    .vconcat (us.map fun us => us.mapIdx fun i u => u.elaborate (ScopeId.root.child "concat" i) none) others

end AnimatedChart.Spec

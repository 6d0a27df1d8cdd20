import AnimatedChart.Animation.Keyframes

/-!
# Rescaling and tweening

With rescaling, the scales of a mark are fitted to the current keyframe, and each gets a twin that is fitted to the next
one.
-/

namespace AnimatedChart.Animation

open Json Spec

def twinName (scale : String) : String := scale ++ "_next"

/-- The scale is continuous and drawn from the mark's rows, before or after they were bound to keyframes. -/
def isRescalable (c : Scale) (b : Binding) : Bool :=
  c.hasContinuousDomain
    && ((domainData c.domain).contains b.source || (domainData c.domain).contains b.curr)

def rescaleOne (g : Graph) (b : Binding) (c : Scale) : List Scale :=
  let twin := match g.scale? (twinName c.name) with
    | some t => t
    | none => { c with name := twinName c.name, domain := rebindDomain c.domain b.curr b.next }
  [{ c with domain := rebindDomain c.domain b.source b.curr },
   { twin with domain := rebindDomain twin.domain b.source b.next }]

def channelScales (m : Mark) : List String :=
  ((m.primary.block "update").filterMap fun c =>
    match FieldRef.ofValue? c.2 with
    | some r => if r.scale.isEmpty then none else some r.scale
    | none => none).eraseDups

def rescale (st : Stage) (u : ScopedUnit) (b : Binding) : Graph :=
  match st.scope.time.rescales, st.graph.unitMark? u.path with
  | true, some m =>
    let scales := (channelScales m).filterMap st.graph.scale?
    { scales := (scales.filter (isRescalable · b)).flatMap (rescaleOne st.graph b) }
  | _, _ => {}

/-- A channel's value with the unconditional part replaced: the last rule of a list, or the whole. -/
def replaceDefault (v : Value) (new : Value) : Value :=
  match v with
  | .array (r :: rs) => .array ((r :: rs).dropLast ++ [new])
  | _ => new

/-- How a channel is drawn from a row: the tweened value and the value of the row itself. -/
def tweenExprs (st : Stage) (b : Binding) (key : String) (r : FieldRef) (scale : Option Scale) :
    String × String :=
  let s := st.scope
  let own := access "datum" r.field
  let matched := access "datum.next" r.field
  let through (e : String) : String := if scale.isSome then scaleCall r.scale e else e
  let tweened :=
    if b.spans then
      let values := call "fieldvaluesforkey"
        [stringLiteral b.continuity, stringLiteral r.field, stringLiteral key, access "datum" key]
      through (call "interpolateCatmullRom" [values, s!"{s.eased} / {s.maxRange}"])
    else
      match scale with
      | none => lerp own matched s.tween
      | some c =>
        if c.isColor then scaleCall r.scale (lerp own matched s.tween)
        else
          let destination := if s.time.rescales && isRescalable c b then twinName r.scale else r.scale
          lerp (scaleCall r.scale own) (scaleCall destination matched) s.tween
  (tweened, through own)

/-- The tweened value of a channel. -/
def tweenChannel? (st : Stage) (b : Binding) (key : String) (v : Value) : Option Value := do
  let r ← FieldRef.ofValue? v
  let scale ← if r.scale.isEmpty then some none
    else ((st.graph.scale? r.scale).filter fun c => !c.hasDiscreteRange).map some
  let (tweened, own) := tweenExprs st b key r scale
  let expr := s!"isValid(datum.next) ? {tweened} : {own}"
  let expr :=
    if (scale.map (·.type)) == some "band" && r.band.isSome then
      s!"({expr}) + bandwidth({stringLiteral r.scale}) * {valueLiteral r.band}"
    else expr
  let offset := if r.offset.isSome then [("offset", r.offset)] else []
  return replaceDefault v (.ofPairs ([("signal", .string expr)] ++ offset))

def tweenBlock (st : Stage) (b : Binding) (key : String) (block : Dict Value) : Dict Value :=
  Dict.mapValues (fun v => (tweenChannel? st b key v).getD v) block

def interpolate (st : Stage) (u : ScopedUnit) (b : Binding) : Graph :=
  match b.key with
  | none => {}
  | some key =>
    st.graph.editUnitMark u.path fun m =>
      m.mapPrimary fun p => p.withBlock "update" (tweenBlock st b key (p.block "update"))

end AnimatedChart.Animation

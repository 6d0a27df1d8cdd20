import AnimatedChart.Lowering.State

/-!
# Parameters

A variable parameter becomes a signal. A point selection becomes a store and the signals that maintain it:
the fields of its tuples, the tuple under the pointer, whether it is toggled, and the change of the store.
-/

namespace AnimatedChart.Lowering

open Json

structure ParamDefinition where
  name : String := ""
  value : Value := .null
  expr : String := ""
  bind : Value := .null
  select : Option Fragment := none
deriving Inhabited

structure SelectDefinition where
  type : String := ""
  fields : Reader.Slots String := {}
  encodings : Reader.Slots String := {}

def ParamDefinition.reader : Reader ParamDefinition := .fields [
  ⟨"name", (·.name), fun b d => { d with name := b }, .text⟩,
  ⟨"value", (·.value), fun b d => { d with value := b }, .any⟩,
  ⟨"expr", (·.expr), fun b d => { d with expr := b }, .text⟩,
  ⟨"bind", (·.bind), fun b d => { d with bind := b }, .any⟩,
  ⟨"select", (·.select), fun b d => { d with select := b }, .fragment⟩]

def SelectDefinition.read (f : Fragment) : Except Error SelectDefinition :=
  match Reader.text.run f "" with
  | .ok type => .ok { type }
  | .error _ => Reader.run (Reader.record [
      ("type", fun f d => do return { d with type := ← Reader.text f d.type }),
      ("fields", fun f d => do return { d with fields := ← Reader.slots "" .text f d.fields }),
      ("encodings", fun f d => do return { d with encodings := ← Reader.slots "" .text f d.encodings })])
      f ({} : SelectDefinition)

def addVariable (d : ParamDefinition) : Lower PUnit := do
  let s ← get
  if !s.signals.any (·.name == d.name) then
    modify fun s => { s with signals := s.signals ++
      [{ name := d.name, value := d.value, update := d.expr, bind := d.bind }] }

def unitSignal : Signal where
  name := "unit"
  value := .object []
  on := [{ events := .string "pointermove", update := "isTuple(group()) ? group() : unit" }]

def pointSignals (name : String) (fields : List String) (unit : String) : List Signal :=
  let click : Value := .array [.ofPairs [("source", .string "scope"), ("type", .string "click")]]
  let dblclick : Value := .array [.ofPairs [("source", .string "view"), ("type", .string "dblclick")]]
  let values := String.intercalate ", " (fields.map fun f =>
    "(item().isVoronoi ? datum.datum : datum)[" ++ Text.quote f ++ "]")
  let store := Text.quote (name ++ "_store")
  [{ name := name ++ "_tuple_fields"
     value := .array (fields.map fun f => .ofPairs [("type", .string "E"), ("field", .string f)]) },
   { name := name ++ "_tuple"
     on := [
       { events := click
         update := "datum && item().mark.marktype !== 'group' ? \x7bunit: " ++ Text.quote unit
           ++ ", fields: " ++ name ++ "_tuple_fields, values: [" ++ values ++ "]\x7d : null"
         force := true },
       { events := dblclick, update := "null" }] },
   { name := name ++ "_toggle"
     value := .bool false
     on := [{ events := click, update := "event.shiftKey" }, { events := dblclick, update := "false" }] },
   { name := name ++ "_modify"
     on := [{
       events := signalRef (name ++ "_tuple")
       update := s!"modify({store}, {name}_toggle ? null : {name}_tuple, {name}_toggle ? null : true, "
         ++ s!"{name}_toggle ? {name}_tuple : null)" }] }]

/-- The store and the signals of a point selection, unless there is a store of its name. -/
def addPoint (name : String) (fields : List String) (unit : String) : Lower PUnit := do
  let s ← get
  if !s.data.any (·.name == name ++ "_store") then
    let first := if s.pointer then [] else [unitSignal]
    modify fun s => { s with
      data := s.data ++ [{ name := name ++ "_store" }]
      signals := s.signals ++ first ++ pointSignals name fields unit
      pointer := true }

def viewName (path : String) : String :=
  if path.endsWith "_" then (path.dropEnd 1).toString else path

def lowerParam (m : MarkPlan) (p : Place) (param : Spec.Param) : Lower PUnit := do
  match param with
  | .animation _ => throw (.within "param" (.outside .json))
  | .plain raw =>
    let d ← liftM ((ParamDefinition.reader.run raw {}).mapError (Error.within "param"))
    if d.name.isEmpty then throw (.missing "param" "name")
    match d.select with
    | none => addVariable d
    | some select =>
      let sel ← liftM ((SelectDefinition.read select).mapError
        (Error.within ("param " ++ Text.quote d.name)))
      if sel.type ≠ "point" then
        throw (.new .unsupported
          s!"{sel.type} selection {Text.quote d.name} is not supported by the reference compiler")
      let fields := sel.fields.toList ++ sel.encodings.toList.filterMap fun e => (m.field? e).map (·.field)
      if fields.isEmpty then
        throw (.new .unsupported s!"point selection {Text.quote d.name} needs fields")
      addPoint d.name fields (viewName p.path)

end AnimatedChart.Lowering

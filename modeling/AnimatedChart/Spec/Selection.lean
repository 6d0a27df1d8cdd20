import AnimatedChart.Json.Reading

/-!
# Animation selections

An animation selection is a point selection that the clock drives.
-/

namespace AnimatedChart.Spec

open Json

/-- What advances a selection: the timer, in the form it is written, gated by filter expressions. -/
inductive Trigger where
  | missing
  | word
  | bare
  | single (filter : String)
  /-- An object with a list of filters; the normal form. -/
  | list (filters : List String)
deriving Repr, Inhabited, BEq

namespace Trigger

def filters : Trigger → List String
  | single s => [s]
  | list fs => fs
  | _ => []

def isNormal : Trigger → Bool
  | list _ => true
  | _ => false

def notTimer (got : String) : Error :=
  .plain ("animation selection must be triggered by the timer, got " ++ Text.quote got)

@[simp] def layout : List (Json.Field (String × Option Fragment)) := [
  ⟨"type", (·.1), fun b r => (b, r.2), .text⟩,
  ⟨"filter", (·.2), fun b r => (r.1, b), .fragment⟩]

def read (f : Fragment) : Except Error Trigger :=
  match Reader.text.run f "" with
  | .ok s => if s = "timer" then .ok word else .error (notTimer s)
  | .error _ => do
    let r ← (Reader.fields layout).run f ("", none)
    if r.1 = "timer" then
      match r.2 with
      | none => return bare
      | some g =>
        match Reader.text.run g "" with
        | .ok s => return single s
        | .error _ => return list (← (Reader.list "" .text).run g [])
    else throw (notTimer r.1)

def toFragment : Trigger → Fragment
  | word => .text "timer"
  | bare => .record [("type", .text "timer")]
  | single s => .record [("filter", .text s), ("type", .text "timer")]
  | t => .record [("filter", .list (t.filters.map .text)), ("type", .text "timer")]

end Trigger

/-- A comparison on one field. -/
structure FieldPredicate where
  field : String := ""
  equal : Value := .null
  lt : Value := .null
  gt : Value := .null
  lte : Value := .null
  gte : Value := .null
  range : Option (List Value) := none
  oneOf : Option (List Value) := none
  valid : Option Bool := none
deriving Repr, Inhabited, BEq

namespace FieldPredicate

@[simp] def layout : List (Json.Field FieldPredicate) := [
  ⟨"field", (·.field), fun b p => { p with field := b }, .text⟩,
  ⟨"equal", (·.equal), fun b p => { p with equal := b }, .any⟩,
  ⟨"lt", (·.lt), fun b p => { p with lt := b }, .any⟩,
  ⟨"gt", (·.gt), fun b p => { p with gt := b }, .any⟩,
  ⟨"lte", (·.lte), fun b p => { p with lte := b }, .any⟩,
  ⟨"gte", (·.gte), fun b p => { p with gte := b }, .any⟩,
  ⟨"range", (·.range), fun b p => { p with range := b }, .list? .null .any⟩,
  ⟨"oneOf", (·.oneOf), fun b p => { p with oneOf := b }, .list? .null .any⟩,
  ⟨"valid", (·.valid), fun b p => { p with valid := b }, .optional false .flag⟩]

def reader : Reader FieldPredicate := .fields layout

def operand (v : Value) : Option Fragment := if v.isSome then some v.toFragment else none

def listed (vs : Option (List Value)) : Option Fragment :=
  match vs with
  | some (v :: vs) => some (.list (Value.toItems (v :: vs)))
  | _ => none

def toFragment (p : FieldPredicate) : Fragment :=
  .recordOf [
    ("field", some (.text p.field)),
    ("equal", operand p.equal), ("lt", operand p.lt), ("gt", operand p.gt),
    ("lte", operand p.lte), ("gte", operand p.gte),
    ("range", listed p.range), ("oneOf", listed p.oneOf), ("valid", p.valid.map .bool)]

def tupleType (p : FieldPredicate) : String :=
  if p.equal.isSome then "E"
  else if p.lt.isSome then "E-LT"
  else if p.gt.isSome then "E-GT"
  else if p.lte.isSome then "E-LTE"
  else if p.gte.isSome then "E-GTE"
  else if p.range.isSome then "R"
  else if p.oneOf.isSome then "E"
  else if p.valid.isSome then "E-VALID"
  else "E"

end FieldPredicate

/-- Which rows belong to the current keyframe. -/
inductive Predicate where
  | single (p : FieldPredicate)
  | all (ps : List FieldPredicate)
deriving Repr, Inhabited, BEq

namespace Predicate

def fields : Predicate → List FieldPredicate
  | single p => [p]
  | all ps => ps

def isConjunction : Predicate → Bool
  | single _ => false
  | all _ => true

def read (f : Fragment) : Except Error Predicate :=
  match (Reader.record [("and", Reader.slots {} FieldPredicate.reader)]).run f {} with
  | .ok { items := some ps, .. } => .ok (all ps)
  | _ => (FieldPredicate.reader.run f {}).map single

def toFragment : Predicate → Fragment
  | single p => p.toFragment
  | all ps => .record [("and", .list (ps.map FieldPredicate.toFragment))]

end Predicate

/-- How the clock is eased: by a named function, or along a curve through control points. -/
inductive Easing where
  | named (name : String)
  | curve (points : List Float)
deriving Repr, Inhabited, BEq

namespace Easing

def byDefault : Easing := named "easeLinear"

def name : Easing → String
  | named n => n
  | curve _ => ""

def read (f : Fragment) : Except Error Easing :=
  match Reader.text.run f "" with
  | .ok s => .ok (named s)
  | .error _ => ((Reader.list 0 .number).run f []).map curve

def toFragment : Easing → Fragment
  | named n => .text n
  | curve ps => .list (ps.map Value.literal)

end Easing

/-- The clock holds on a keyframe value for so many milliseconds. -/
structure Pause where
  value : Value := .null
  duration : Float := 0
deriving Repr, Inhabited, BEq

namespace Pause

@[simp] def layout : List (Json.Field Pause) := [
  ⟨"value", (·.value), fun b p => { p with value := b }, .any⟩,
  ⟨"duration", (·.duration), fun b p => { p with duration := b }, .number⟩]

def reader : Reader Pause := .fields layout

def toFragment (p : Pause) : Fragment :=
  .record [("value", p.value.toFragment), ("duration", Value.literal p.duration)]

end Pause

inductive Bind where
  | scales
  | input (properties : Dict Value)
deriving Repr, Inhabited, BEq

namespace Bind

def read (f : Fragment) : Except Error Bind :=
  match Reader.text.run f "" with
  | .ok s =>
    if s = "scales" then .ok scales
    else .error (.plain ("unsupported selection bind " ++ Text.quote s))
  | .error _ => do
    let d ← (Reader.dict? .null .any).run f none
    return input (d.getD [])

def toFragment : Bind → Fragment
  | scales => .text "scales"
  | input d => .record (Value.toMembers d)

end Bind

/-- The selecting part of an animation selection, with the properties that it only hands on. -/
structure Select where
  type : String := ""
  trigger : Trigger := .missing
  predicate : Option Predicate := none
  easing : Option Easing := none
  pauses : List Pause := []
  others : Dict Fragment := []
deriving Repr, Inhabited, BEq

namespace Select

@[simp] def layout : List (Json.Field (Select × Reader.Slots Pause)) := [
  .first _ ⟨"type", (·.type), fun b s => { s with type := b }, .text⟩,
  .first _ ⟨"on", (·.trigger), fun b s => { s with trigger := b }, .settled Trigger.read⟩,
  .first _ ⟨"predicate", (·.predicate), fun b s => { s with predicate := b },
             .optional default (.settled Predicate.read)⟩,
  .first _ ⟨"easing", (·.easing), fun b s => { s with easing := b }, .optional default (.settled Easing.read)⟩,
  ⟨"pause", (·.2), fun b s => (s.1, b), .slots {} Pause.reader⟩]

def reader : Reader (Select × Reader.Slots Pause) := .fields layout

def names : List String := ["type", "on", "predicate", "easing", "pause"]

def read : Fragment → Except Error Select :=
  readEntry reader ({}, {}) names fun r others => { r.1 with pauses := r.2.toList, others }

def written (s : Select) : List (String × Option Fragment) := [
  ("type", some (.text s.type)),
  ("on", some s.trigger.toFragment),
  ("predicate", s.predicate.map Predicate.toFragment),
  ("easing", s.easing.map Easing.toFragment),
  ("pause", if s.pauses.isEmpty then none else some (.list (s.pauses.map Pause.toFragment)))]

def toFragment (s : Select) : Fragment := .recordWith s.written s.others

end Select

/-- A point selection that the clock drives. -/
structure Selection where
  name : String := ""
  select : Select := {}
  bind : Option Bind := none
  others : Dict Fragment := []
deriving Repr, Inhabited, BEq

namespace Selection

@[simp] def layout : List (Json.Field Selection) := [
  ⟨"name", (·.name), fun b a => { a with name := b }, .text⟩,
  ⟨"select", (·.select), fun b a => { a with select := b }, .settled Select.read⟩,
  ⟨"bind", (·.bind), fun b a => { a with bind := b }, .optional default (.settled Bind.read)⟩]

def reader : Reader Selection := .fields layout

def names : List String := ["name", "select", "bind"]

def read : Fragment → Except Error Selection := readEntry reader {} names fun a others => { a with others }

def written (a : Selection) : List (String × Option Fragment) := [
  ("name", some (.text a.name)),
  ("select", some a.select.toFragment),
  ("bind", a.bind.map Bind.toFragment)]

def toFragment (a : Selection) : Fragment := .recordWith a.written a.others

def easingName (a : Selection) : String :=
  match a.select.easing with
  | some e => e.name
  | none => ""

def isSlider (a : Selection) : Bool :=
  match a.bind with
  | some (.input _) => true
  | _ => false

def bindsScales (a : Selection) : Bool :=
  match a.bind with
  | some .scales => true
  | _ => false

def predicates (a : Selection) : List FieldPredicate :=
  match a.select.predicate with
  | some p => p.fields
  | none => []

end Selection

/-- An entry of a view's parameters: an animation selection, or anything else as it is written. -/
inductive Param where
  | animation (a : Selection)
  | plain (raw : Fragment)
deriving Repr, Inhabited, BEq

namespace Param

def selection? : Param → Option Selection
  | animation a => some a
  | plain _ => none

def name : Param → String
  | animation a => a.name
  | plain raw => ((Reader.record [("name", Reader.text)] raw "").value?).getD ""

/-- The trigger of a point selection is the timer, as a word or as the type of an object. -/
def isTimer (f : Fragment) : Bool :=
  match Reader.text.run f "" with
  | .ok s => s == "timer"
  | .error _ =>
    match (Reader.record [("type", Reader.text)]).run f "" with
    | .ok s => s == "timer"
    | .error _ => false

@[simp] def layout : List (Json.Field (String × Option Fragment)) := [
  ⟨"type", (·.1), fun b r => (b, r.2), .text⟩,
  ⟨"on", (·.2), fun b r => (r.1, b), .fragment⟩]

def isAnimation (f : Fragment) : Bool :=
  match (Reader.record [("select", Reader.fragment)]).run f none with
  | .ok (some sel) =>
    match (Reader.fields layout).run sel ("", none) with
    | .ok (type, some on) => type == "point" && isTimer on
    | _ => false
  | _ => false

def read (f : Fragment) : Except Error Param :=
  if isAnimation f then (Selection.read f).map animation else .ok (plain f)

def toFragment : Param → Fragment
  | animation a => a.toFragment
  | plain raw => raw

end Param

def selections (params : List Param) : List Selection :=
  params.filterMap Param.selection?

end AnimatedChart.Spec

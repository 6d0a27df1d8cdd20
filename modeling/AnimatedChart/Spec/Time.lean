import AnimatedChart.Json.Reading

/-!
# Time encodings

A time encoding says which field a chart animates through and how: the scale from field values to elapsed milliseconds,
the key by which a row is recognised in the next keyframe, and whether positions are rescaled to every keyframe.
-/

namespace AnimatedChart.Spec

open Json

/-- Where the clock runs: so many milliseconds for each value, or over an explicit list. -/
inductive TimeRange where
  | step (ms : Float)
  | values (vs : List Value)
deriving Repr, Inhabited, BEq

namespace TimeRange

def isStep : TimeRange → Bool
  | step _ => true
  | values _ => false

def last? : TimeRange → Option Float
  | step _ => none
  | values vs => vs.getLast?.bind Value.number?

def read (f : Fragment) : Except Error TimeRange :=
  match f with
  | .array .. => do
    let vs ← (Reader.list .null .any).run f []
    return values vs
  | _ => do
    let s ← (Reader.record [("step", Reader.optional 0 .number)]).run f none
    match s with
    | some ms => return step ms
    | none => throw (.plain "time range must be an array or \x7b\"step\": n\x7d")

def toFragment : TimeRange → Fragment
  | step ms => .record [("step", Value.literal ms)]
  | values vs => .list (Value.toItems vs)

end TimeRange

/-- The scale from field values to elapsed milliseconds. -/
structure TimeScale where
  type : String := ""
  range : Option TimeRange := none
  zero : Option Bool := none
  domain : List Value := []
deriving Repr, Inhabited, BEq

namespace TimeScale

def band : String := "band"

def linear : String := "linear"

@[simp] def layout : List (Json.Field TimeScale) := [
  ⟨"type", (·.type), fun b s => { s with type := b }, .text⟩,
  ⟨"range", (·.range), fun b s => { s with range := b }, .optional default (.settled TimeRange.read)⟩,
  ⟨"zero", (·.zero), fun b s => { s with zero := b }, .optional false .flag⟩,
  ⟨"domain", (·.domain), fun b s => { s with domain := b }, .list .null .any⟩]

def reader : Reader TimeScale := .fields layout

def toFragment (s : TimeScale) : Fragment :=
  .recordOf [
    ("type", if s.type.isEmpty then none else some (.text s.type)),
    ("range", s.range.map TimeRange.toFragment),
    ("zero", s.zero.map .bool),
    ("domain", if s.domain.isEmpty then none else some (.list (Value.toItems s.domain)))]

end TimeScale

/-- How a row is recognised in the next keyframe. -/
inductive Key where
  /-- Rows are not matched. -/
  | disabled
  /-- Rows are matched by a field; a looping key wraps from the last keyframe to the first. -/
  | field (name : String) (loop : Option Bool)
deriving Repr, Inhabited, BEq

namespace Key

@[simp] def layout : List (Json.Field (String × Option Bool)) := [
  ⟨"field", (·.1), fun b r => (b, r.2), .text⟩,
  ⟨"loop", (·.2), fun b r => (r.1, b), .optional false .flag⟩]

def read (f : Fragment) : Except Error Key :=
  match (Reader.flag.run f false) with
  | .ok _ => .ok disabled
  | .error _ => do
    let r ← (Reader.fields layout).run f ("", none)
    return field r.1 r.2

def toFragment : Key → Fragment
  | disabled => .bool false
  | field n loop => .recordOf [("field", some (.text n)), ("loop", loop.map .bool)]

end Key

/-- Which field a chart animates through and how. -/
structure TimeEncoding where
  field : String := ""
  scale : Option TimeScale := none
  key : Option Key := none
  rescale : Option Bool := none
deriving Repr, Inhabited, BEq

namespace TimeEncoding

@[simp] def layout : List (Json.Field TimeEncoding) := [
  ⟨"field", (·.field), fun b t => { t with field := b }, .text⟩,
  ⟨"scale", (·.scale), fun b t => { t with scale := b }, .optional {} TimeScale.reader⟩,
  ⟨"key", (·.key), fun b t => { t with key := b }, .optional default (.settled Key.read)⟩,
  ⟨"rescale", (·.rescale), fun b t => { t with rescale := b }, .optional false .flag⟩]

def reader : Reader TimeEncoding := .fields layout

def read (f : Fragment) : Except Error TimeEncoding := reader.run f {}

def toFragment (t : TimeEncoding) : Fragment :=
  .recordOf [
    ("field", if t.field.isEmpty then none else some (.text t.field)),
    ("scale", t.scale.map TimeScale.toFragment),
    ("key", t.key.map Key.toFragment),
    ("rescale", t.rescale.map .bool)]

def rescales (t : TimeEncoding) : Bool := t.rescale == some true

def keyField? (t : TimeEncoding) : Option String :=
  match t.key with
  | some (.field n _) => if n.isEmpty then none else some n
  | _ => none

def isKeyed (t : TimeEncoding) : Bool := t.keyField?.isSome

def loops (t : TimeEncoding) : Bool :=
  match t.key with
  | some (.field n (some b)) => !n.isEmpty && b
  | _ => false

def scaleType (t : TimeEncoding) : String :=
  match t.scale with
  | some s => s.type
  | none => ""

def override (inherited own : TimeEncoding) : TimeEncoding where
  field := if own.field.isEmpty then inherited.field else own.field
  scale := own.scale.orElse fun _ => inherited.scale
  key := own.key.orElse fun _ => inherited.key
  rescale := own.rescale.orElse fun _ => inherited.rescale

end TimeEncoding
end AnimatedChart.Spec

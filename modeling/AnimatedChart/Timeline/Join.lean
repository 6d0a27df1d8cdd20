import AnimatedChart.Json.Value

/-!
# Joining keyframes

The rows of two keyframes are paired by a key, as keyed interpolation does.
-/

namespace AnimatedChart.Timeline

open Json

def compareNumbers (x y : Float) : Ordering :=
  if x.isNaN then (if y.isNaN then .eq else .lt)
  else if y.isNaN then .gt
  else if x < y then .lt
  else if y < x then .gt
  else .eq

def compareTexts (a b : String) : Ordering :=
  if a < b then .lt else if a = b then .eq else .gt

def compareValues (a b : Value) : Ordering :=
  match a.number?, b.number? with
  | some x, some y => compareNumbers x y
  | some _, none => .lt
  | none, some _ => .gt
  | none, none => compareTexts a.display b.display

def sameValue (a b : Value) : Bool := compareValues a b == .eq

abbrev Row := Dict Value

def Row.value? (r : Row) (field : String) : Option Value :=
  (Dict.get? r field).filter Value.isSome

def distinctValues : List Value → List Value
  | [] => []
  | v :: vs => v :: (distinctValues vs).filter fun w => !sameValue v w

def distinct (rows : List Row) (field : String) : List Value :=
  (distinctValues (rows.filterMap (Row.value? · field))).mergeSort fun a b => compareValues a b != .gt

def keyframe (rows : List Row) (field : String) (value : Value) : List Row :=
  rows.filter fun r =>
    match Dict.get? r field with
    | some v => sameValue v value
    | none => false

def earlier (a b : Value) : Value := if compareValues b a == .lt then b else a

def later (a b : Value) : Value := if compareValues b a == .gt then b else a

/-- A row and its match in the next keyframe. -/
structure Pair where
  curr : Row
  next : Row
deriving Repr, Inhabited

/-- The rows of two keyframes, paired. -/
structure Joined where
  matched : List Pair := []
  /-- Rows without a match in the next keyframe. -/
  exiting : List Row := []
  /-- Rows of the next keyframe that match no row. -/
  entering : List Row := []
deriving Repr, Inhabited

def matchIndex? (key : String) (next : List Row) (r : Row) : Option Nat :=
  (Row.value? r key).bind fun k => next.findIdx? fun n =>
    match Dict.get? n key with
    | some v => sameValue v k
    | none => false

def join (curr next : List Row) (key : String) : Joined :=
  let indices := curr.filterMap (matchIndex? key next)
  { matched := curr.filterMap fun r => ((matchIndex? key next r).bind fun i => next[i]?).map fun n => ⟨r, n⟩
    exiting := curr.filter fun r => (matchIndex? key next r).isNone
    entering := (next.zipIdx.filter fun n => !indices.contains n.2).map (·.1) }

/-- The value of a field part of the way between the rows of a pair, if it is a number in both. -/
def Pair.lerp? (p : Pair) (field : String) (t : Float) : Option Float :=
  match (Dict.get? p.curr field).bind Value.number?, (Dict.get? p.next field).bind Value.number? with
  | some a, some b => some (a + (b - a) * t)
  | _, _ => none

end AnimatedChart.Timeline

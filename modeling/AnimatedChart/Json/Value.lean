import AnimatedChart.Decimal.Layout
import AnimatedChart.Decimal.Number
import AnimatedChart.Dict
import AnimatedChart.Json.Fragment

/-!
# JSON values

A `Value` is what a fragment means: numbers are binary, strings are texts, and an object is a dictionary in which the
last member of a name counts.
-/

namespace AnimatedChart.Json

/-- The meaning of a piece of JSON. -/
inductive Value where
  | null
  | bool (b : Bool)
  | number (x : Float)
  | string (s : String)
  | array (items : List Value)
  /-- Members in ascending name order, each name once. -/
  | object (members : List (String × Value))
deriving Repr, Inhabited, BEq

def numberOfLiteral? (literal : String) : Option Float :=
  let cs := literal.toList
  let negative := cs.head? == some '-'
  let cs := if negative then cs.drop 1 else cs
  let whole := cs.takeWhile Char.isDigit
  let cs := cs.dropWhile Char.isDigit
  let (fraction, cs) := match cs with
    | '.' :: rest => (rest.takeWhile Char.isDigit, rest.dropWhile Char.isDigit)
    | cs => ([], cs)
  let e : Int := match cs with
    | _ :: '-' :: ds => Decimal.exponentOfDigits true ds
    | _ :: '+' :: ds => Decimal.exponentOfDigits false ds
    | _ :: ds => Decimal.exponentOfDigits false ds
    | [] => 0
  Decimal.ofDecimal negative (whole ++ fraction) (e - (fraction.length : Int))

namespace Value

mutual

def ofFragment : Fragment → Value × Bool
  | .null => (null, true)
  | .bool b => (bool b, true)
  | .number l =>
    match numberOfLiteral? l with
    | some x => (number x, true)
    | none => (null, false)
  | .string b => (string (Fragment.unescape b), true)
  | .array items _ =>
    let r := ofItems items
    (array r.1, r.2)
  | .object members _ =>
    let r := ofMembers members
    (object (Dict.ofPairs r.1), r.2)

def ofItems : List Fragment → List Value × Bool
  | [] => ([], true)
  | f :: fs =>
    let v := ofFragment f
    let vs := ofItems fs
    (v.1 :: vs.1, v.2 && vs.2)

def ofMembers : List (String × Fragment) → List (String × Value) × Bool
  | [] => ([], true)
  | (k, f) :: fs =>
    let v := ofFragment f
    let vs := ofMembers fs
    ((Fragment.unescape k, v.1) :: vs.1, v.2 && vs.2)

end

def literal (x : Float) : Fragment :=
  .number (Decimal.Layout.json.write x)

mutual

def toFragment : Value → Fragment
  | null => .null
  | bool b => .bool b
  | number x => literal x
  | string s => .text s
  | array items => .list (toItems items)
  | object members => .record (toMembers members)

def toItems : List Value → List Fragment
  | [] => []
  | v :: vs => v.toFragment :: toItems vs

def toMembers : List (String × Value) → List (String × Fragment)
  | [] => []
  | (k, v) :: ms => (k, v.toFragment) :: toMembers ms

end

mutual

def display : Value → String
  | null => "<nil>"
  | bool true => "true"
  | bool false => "false"
  | number x => Decimal.Layout.plain.write x
  | string s => s
  | array items => "[" ++ displayItems items ++ "]"
  | object members => "map[" ++ displayMembers members ++ "]"

def displayItems : List Value → String
  | [] => ""
  | [v] => v.display
  | v :: vs => v.display ++ " " ++ displayItems vs

def displayMembers : List (String × Value) → String
  | [] => ""
  | [(k, v)] => k ++ ":" ++ v.display
  | (k, v) :: ms => k ++ ":" ++ v.display ++ " " ++ displayMembers ms

end

def isSome : Value → Bool
  | null => false
  | _ => true

def text? : Value → Option String
  | string s => some s
  | _ => none

def number? : Value → Option Float
  | number x => some x
  | _ => none

def members? : Value → Option (Dict Value)
  | object ms => some ms
  | _ => none

def items? : Value → Option (List Value)
  | array vs => some vs
  | _ => none

def member? (v : Value) (name : String) : Option Value :=
  v.members?.bind (Dict.get? · name)

def ofPairs (pairs : List (String × Value)) : Value :=
  object (Dict.ofPairs pairs)

end Value
end AnimatedChart.Json

import AnimatedChart.Error
import AnimatedChart.Json.Printer
import AnimatedChart.Json.Value

/-!
# Expression text

Signals, filters and encodings hold expressions as text. The functions here write the pieces they are made of: string
literals, field access, calls and lists.
-/

namespace AnimatedChart.Animation

open Json

def isIdentifierStart (c : Char) : Bool := c.isAlpha || c == '_' || c == '$'

def isIdentifierRest (c : Char) : Bool := isIdentifierStart c || c.isDigit

def spellsIdentifier : List Char → Bool
  | [] => false
  | c :: cs => isIdentifierStart c && cs.all isIdentifierRest

def isIdentifier (s : String) : Bool := spellsIdentifier s.toList

def maxNameSize : Nat := 256

def checkName (kind name : String) : Except Error Unit :=
  if name.isEmpty then .error (.missing kind "name")
  else if name.utf8ByteSize > maxNameSize then
    .error (.new .invalidSpec (kind ++ " name too long (max " ++ toString maxNameSize ++ " characters)"))
  else if isIdentifier name then .ok ()
  else .error (.new .invalidSpec (kind ++ " name " ++ Text.quote name ++ " is not a valid identifier"))

def escaped : List Char → List Char
  | [] => []
  | c :: cs => if c = '\\' ∨ c = '\'' then '\\' :: c :: escaped cs else c :: escaped cs

def stringLiteral (s : String) : String := "'" ++ String.ofList (escaped s.toList) ++ "'"

def pathParts : List Char → List (List Char)
  | [] => [[]]
  | c :: cs =>
    if c = '.' then [] :: pathParts cs
    else
      match pathParts cs with
      | [] => [[c]]
      | part :: parts => (c :: part) :: parts

/-- Access to a part of a path: by its name if that is an identifier, otherwise by its quoted name. -/
def accessPart (part : List Char) : String :=
  if spellsIdentifier part then "." ++ String.ofList part
  else "[" ++ Text.quote (String.ofList part) ++ "]"

def access (object field : String) : String :=
  object ++ String.join ((pathParts field.toList).map accessPart)

def commaList (items : List String) : String := String.intercalate ", " items

def call (function : String) (args : List String) : String := function ++ "(" ++ commaList args ++ ")"

def scaleCall (scale argument : String) : String := call "scale" [stringLiteral scale, argument]

def listExpr (items : List String) : String := "[" ++ commaList items ++ "]"

def valueLiteral (v : Value) : String := v.toFragment.compact

def lerp (a b t : String) : String := call "lerp" [listExpr [a, b], t]

end AnimatedChart.Animation

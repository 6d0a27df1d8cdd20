import AnimatedChart.Json.Token

/-!
# Parsing

The parser consumes one token at a time and keeps the containers that are still open on a stack, innermost first.
-/

namespace AnimatedChart.Json

def maxDepth : Nat := 10000

/-- Containers nest no deeper than they may. -/
def Fragment.isShallow (f : Fragment) : Bool := decide (f.depth ≤ maxDepth)

/-- An open container, its content so far in reverse. -/
inductive Frame where
  | array (items : List Fragment) (blanks : List String)
  /-- The name is that of the member being read. -/
  | object (members : List (String × Fragment)) (name : String) (blanks : List String)

inductive Expected where
  | value
  | itemOrEnd
  | name
  | nameOrEnd
  | colon
  | commaOrEnd
deriving DecidableEq

namespace Frame

def blanksOf (reversed : List String) : List String :=
  if reversed.all String.isEmpty then [] else reversed.reverse

def note (blank : String) : Frame → Frame
  | array items bs => array items (blank :: bs)
  | object ms n bs => object ms n (blank :: bs)

def add (v : Fragment) : Frame → Frame
  | array items bs => array (v :: items) bs
  | object ms n bs => object ((n, v) :: ms) "" bs

def close : Frame → Fragment
  | array items bs => .array items.reverse (blanksOf bs)
  | object ms _ bs => .object ms.reverse (blanksOf bs)

end Frame

def noteBlank (blank : String) : List Frame → List Frame
  | [] => []
  | f :: rest => f.note blank :: rest

def parseTokens : Expected → List Frame → List Lexeme → Option (Fragment × List Lexeme)
  | _, _, [] => none
  | exp, stack, ⟨blank, t⟩ :: rest =>
    let stack := noteBlank blank stack
    let done (v : Fragment) (stack : List Frame) : Option (Fragment × List Lexeme) :=
      match stack with
      | [] => some (v, rest)
      | f :: fs => parseTokens .commaOrEnd (f.add v :: fs) rest
    let isValue := exp = .value ∨ exp = .itemOrEnd
    match t with
    | .null => if isValue then done .null stack else none
    | .bool b => if isValue then done (.bool b) stack else none
    | .number l => if isValue then done (.number l) stack else none
    | .string b =>
      if isValue then done (.string b) stack
      else if exp = .name ∨ exp = .nameOrEnd then
        match stack with
        | .object ms _ bs :: fs => parseTokens .colon (.object ms b bs :: fs) rest
        | _ => none
      else none
    | .lbracket =>
      if isValue ∧ stack.length < maxDepth then parseTokens .itemOrEnd (.array [] [] :: stack) rest else none
    | .lbrace =>
      if isValue ∧ stack.length < maxDepth then parseTokens .nameOrEnd (.object [] "" [] :: stack) rest
      else none
    | .rbracket =>
      if exp = .itemOrEnd ∨ exp = .commaOrEnd then
        match stack with
        | .array items bs :: fs => done (Frame.array items bs).close fs
        | _ => none
      else none
    | .rbrace =>
      if exp = .nameOrEnd ∨ exp = .commaOrEnd then
        match stack with
        | .object ms n bs :: fs => done (Frame.object ms n bs).close fs
        | _ => none
      else none
    | .comma =>
      if exp = .commaOrEnd then
        match stack with
        | .array items bs :: fs => parseTokens .value (.array items bs :: fs) rest
        | .object ms n bs :: fs => parseTokens .name (.object ms n bs :: fs) rest
        | [] => none
      else none
    | .colon => if exp = .colon then parseTokens .value stack rest else none
    | .bad => none

namespace Fragment

def parse? (s : String) : Option Fragment :=
  match parseTokens .value [] (Token.scan s.toList) with
  | some (v, []) => some v
  | _ => none

def parseFirst? (s : String) : Option Fragment :=
  (parseTokens .value [] (Token.scan s.toList)).map (·.1)

end Fragment
end AnimatedChart.Json

/-!
# References of expressions

An expression refers to signals by their bare names, and to datasets and scales by the string that is the first argument
of certain functions.
-/

namespace AnimatedChart.Dependency

inductive Token where
  | ident (name : String)
  | string (text : String)
  | number (text : String)
  | symbol (c : Char)
deriving Repr, DecidableEq, Inhabited

namespace Token

def isBlank (c : Char) : Bool := c == ' ' || c == '\t' || c == '\n' || c == '\r'

def isStart (c : Char) : Bool := c == '_' || c == '$' || c.isAlpha

def isPart (c : Char) : Bool := isStart c || c.isDigit

/-- The text of a string literal after its opening quote, and what follows its closing quote. -/
def literal (quote : Char) : List Char → List Char × List Char
  | [] => ([], [])
  | ['\\'] => (['\\'], [])
  | '\\' :: d :: cs => (d :: (literal quote cs).1, (literal quote cs).2)
  | c :: cs => if c = quote then ([], cs) else (c :: (literal quote cs).1, (literal quote cs).2)

theorem literal_length (quote : Char) (cs : List Char) : (literal quote cs).2.length ≤ cs.length := by
  fun_induction literal quote cs with
  | case1 => simp
  | case2 => simp
  | case3 d cs ih => simp only [List.length_cons]; omega
  | case4 => simp
  | case5 => simp only [List.length_cons]; omega

/-- The characters that go on with a number after `last`, and what follows: letters, digits and points, and
a sign right after an exponent letter. -/
def numberRest (last : Char) : List Char → List Char × List Char
  | [] => ([], [])
  | c :: cs =>
    if isPart c || c == '.' || ((c == '-' || c == '+') && (last == 'e' || last == 'E')) then
      (c :: (numberRest c cs).1, (numberRest c cs).2)
    else ([], c :: cs)

theorem numberRest_length (last : Char) (cs : List Char) : (numberRest last cs).2.length ≤ cs.length := by
  fun_induction numberRest last cs with
  | case1 => simp
  | case2 last c cs _ ih => simp only [List.length_cons]; omega
  | case3 => simp

def scan : List Char → List Token
  | [] => []
  | c :: cs =>
    if isBlank c then scan cs
    else if c = '\'' ∨ c = '"' then
      string (String.ofList (literal c cs).1) :: scan (literal c cs).2
    else if isStart c then
      ident (String.ofList (c :: cs.takeWhile isPart)) :: scan (cs.dropWhile isPart)
    else if c.isDigit then
      number (String.ofList (c :: (numberRest c cs).1)) :: scan (numberRest c cs).2
    else symbol c :: scan cs
termination_by cs => cs.length
decreasing_by
  · simp
  · have := literal_length c cs
    simp only [List.length_cons]
    omega
  · have := (List.dropWhile_sublist isPart (l := cs)).length_le
    simp only [List.length_cons]
    omega
  · have := numberRest_length c cs
    simp only [List.length_cons]
    omega
  · simp

def last : Token → Option Char
  | number n => n.toList.getLast?
  | symbol c => some c
  | _ => none

end Token

inductive Kind where
  | data
  | signal
  | scale
  | mark
deriving Repr, DecidableEq, Inhabited

def Kind.text : Kind → String
  | data => "data"
  | signal => "signal"
  | scale => "scale"
  | mark => "mark"

/-- A named part of a graph. -/
structure Ref where
  kind : Kind
  name : String
deriving Repr, DecidableEq, Inhabited

def Ref.text (r : Ref) : String := r.kind.text ++ ":" ++ r.name

def argumentKind? (function : String) : Option Kind :=
  if ["data", "indata", "modify", "vlSelectionTest", "vlSelectionResolve",
    "fieldvaluesforkey"].contains function then some .data
  else if ["scale", "invert", "bandwidth", "domain", "range", "copy", "gradient"].contains function then
    some .scale
  else none

def isReserved (name : String) : Bool :=
  ["datum", "event", "item", "parent", "this", "true", "false", "null", "undefined", "NaN", "Infinity",
    "PI", "E", "LN2", "LN10", "LOG2E", "LOG10E", "SQRT1_2", "SQRT2", "MIN_VALUE", "MAX_VALUE"].contains name

/-- The reference that an identifier is, between the last character before it and the tokens after it. -/
def identReference? (before : Option Char) (name : String) (after : List Token) : Option Ref :=
  if before = some '.' then none
  else
    match after with
    | .symbol '(' :: .string text :: _ => (argumentKind? name).map (⟨·, text⟩)
    | .symbol '(' :: _ => none
    | _ =>
      if after.head? = some (.symbol ':') ∧ (before = some '\x7b' ∨ before = some ',') then none
      else if isReserved name then none
      else some ⟨.signal, name⟩

def tokenReferences (before : Option Char) : List Token → List Ref
  | [] => []
  | .ident name :: rest => (identReference? before name rest).toList ++ tokenReferences none rest
  | t :: rest => tokenReferences t.last rest

/-- The references of an expression, each once, in the order of first appearance. -/
def references (expr : String) : List Ref :=
  ((tokenReferences none (Token.scan expr.toList)).filter (!·.name.isEmpty)).eraseDups

end AnimatedChart.Dependency

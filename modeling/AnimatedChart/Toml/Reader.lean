import AnimatedChart.Decimal.Number
import AnimatedChart.Instant

/-!
# Reading TOML

A document is a sequence of statements: the header of a table, the header of a further table in a list, or a key with
its value.
-/

namespace AnimatedChart.Toml

open Text

inductive Word where
  | integer (n : Int)
  | decimal (x : Float)
  | moment (text : String)
deriving Repr, Inhabited

def underscoresFit (after : Bool) : List Char → Bool
  | [] => after
  | c :: cs => (c != '_' || after) && underscoresFit (isHexDigit c) cs

def hasLeadingZero : List Char → Bool
  | '0' :: c :: _ => !("box".contains c)
  | '-' :: '0' :: _ :: _ => true
  | '+' :: '0' :: _ :: _ => true
  | _ => false

def inRange (n : Int) : Option Int := if -9223372036854775808 ≤ n ∧ n < 9223372036854775808 then some n else none

def natInBase (base : Nat) (ds : List Char) : Nat :=
  ds.foldl (fun n d => base * n + (hexValue? d).getD 0) 0

def integer? (cs : List Char) : Option Int :=
  if underscoresFit false cs && !hasLeadingZero cs then
    let digits (ds : List Char) : Int := natInBase 10 (ds.filter (· != '_'))
    match cs with
    | '-' :: ds => inRange (-(digits ds))
    | '+' :: ds => inRange (digits ds)
    | ds => inRange (digits ds)
  else none

def decimalParts (cs : List Char) : List (List Char) :=
  (cs.splitBy fun a b => !isMark a && !isMark b).filter fun p => !p.any isMark
where
  isMark (c : Char) : Bool := c == '.' || c == 'e' || c == 'E'

def pointsFit : List Char → Bool
  | [] => true
  | ['.'] => false
  | '.' :: c :: cs => c.isDigit && pointsFit (c :: cs)
  | _ :: cs => pointsFit cs

def decimal? (cs : List Char) : Option Float :=
  let parts := decimalParts cs
  if parts.all (underscoresFit false) && !(parts.head?.any hasLeadingZero) && pointsFit cs then
    Decimal.parse? (String.ofList (cs.filter (· != '_')))
  else none

def isMoment (s : String) : Bool :=
  let s := String.ofList (s.toList.map fun c => if c = ' ' then 'T' else c.toUpper)
  [s, s ++ "Z", s ++ "T00:00:00Z", "2000-01-01T" ++ s ++ "Z"].any fun t =>
    (Instant.parse? t).isSome && t.toList[13]? == some ':'

def isMomentChar (c : Char) : Bool := c.isDigit || "-:Tt .Zz+".contains c

def isDecimalChar (c : Char) : Bool := c.isDigit || "_.-+eE".contains c

def based? (base : Nat) (cs : List Char) : Option (Word × List Char) :=
  let isIn (c : Char) : Bool := (hexValue? c).any (· < base)
  let word := cs.takeWhile fun c => isIn c || c == '_'
  if (cs.head?.any isIn) && underscoresFit true word then
    (inRange (natInBase base (word.filter (· != '_')))).map fun n => (.integer n, cs.drop word.length)
  else none

def number? (sign cs : List Char) : Option (Word × List Char) :=
  let word := cs.takeWhile fun c => c.isDigit || c == '_'
  let rest := cs.drop word.length
  if !(cs.head?.any Char.isDigit) then none
  else if rest.head?.any fun c => c == '.' || c == 'e' || c == 'E' then
    let tail := rest.takeWhile isDecimalChar
    (decimal? (sign ++ word ++ tail)).map fun x => (.decimal x, rest.drop tail.length)
  else (integer? (sign ++ word)).map fun n => (.integer n, rest)

def moment? (cs : List Char) : Option (Word × List Char) :=
  let word := (cs.takeWhile isMomentChar).reverse.dropWhile (· == ' ') |>.reverse
  if isMoment (String.ofList word) then some (.moment (String.ofList word), cs.drop word.length) else none

def named? (negative : Bool) : List Char → Option (Word × List Char)
  | 'i' :: 'n' :: 'f' :: rest => some (.decimal (if negative then -1 / 0 else 1 / 0), rest)
  | 'n' :: 'a' :: 'n' :: rest => some (.decimal (0 / 0), rest)
  | _ => none

def word? (cs : List Char) : Option (Word × List Char) :=
  match cs with
  | '0' :: 'x' :: rest => based? 16 rest
  | '0' :: 'o' :: rest => based? 8 rest
  | '0' :: 'b' :: rest => based? 2 rest
  | '+' :: rest => (named? false rest).orElse fun _ => number? ['+'] rest
  | '-' :: rest => (named? true rest).orElse fun _ => number? ['-'] rest
  | _ =>
    let rest := cs.dropWhile Char.isDigit
    if (cs.head?.any Char.isDigit) && (rest.head?.any fun c => c == '-' || c == ':') then moment? cs
    else (named? false cs).orElse fun _ => number? [] cs

abbrev Read := Option (List Char × List Char)

def Read.cons (c : Char) (r : Read) : Read := r.map fun (t, rest) => (c :: t, rest)

def escape? : Char → Option Char
  | 'b' => some '\x08'
  | 't' => some '\t'
  | 'n' => some '\n'
  | 'f' => some '\x0c'
  | 'r' => some '\r'
  | '"' => some '"'
  | '\\' => some '\\'
  | _ => none

def scalar? (ds : List Char) : Option Char := do
  let n ← ds.foldlM (fun n d => (hexValue? d).map (16 * n + ·)) 0
  if n.isValidChar then some (Char.ofNat n) else none

def isSpace (c : Char) : Bool := c == ' ' || c == '\t'

def isLineEnd (c : Char) : Bool := c == '\n' || c == '\r'

def lineText : List Char → Read
  | '"' :: rest => some ([], rest)
  | '\\' :: 'u' :: a :: b :: c :: d :: rest => (scalar? [a, b, c, d]).bind fun ch => (lineText rest).cons ch
  | '\\' :: 'U' :: a :: b :: c :: d :: e :: f :: g :: h :: rest =>
    (scalar? [a, b, c, d, e, f, g, h]).bind fun ch => (lineText rest).cons ch
  | '\\' :: l :: rest => (escape? l).bind fun ch => (lineText rest).cons ch
  | c :: rest => if isLineEnd c then none else (lineText rest).cons c
  | [] => none

def rawLineText : List Char → Read
  | [] => none
  | c :: rest => if c = '\'' then some ([], rest) else if isLineEnd c then none else (rawLineText rest).cons c

def closes (mark : Char) (rest : List Char) : Bool :=
  rest.take 2 == [mark, mark] && rest[2]? != some mark

/-- A mark and what follows it are too many: there are four, and `before`, which has what was written before
them, last first, ends with two of them. -/
def overflows (mark : Char) (before rest : List Char) : Bool :=
  rest.take 3 == [mark, mark, mark] && before.take 2 == [mark, mark]

def endsLine (cs : List Char) : Bool := ((cs.dropWhile isSpace).head?.map isLineEnd).getD false

/-- A text of several lines. A backslash at the end of a line takes away the blanks and line ends up to the
next character; `skipping` tells that they are being taken away. `before` is what was written before, last
first: a quote after a backslash does not count towards too many. -/
def linesText : (skipping : Bool) → (before : List Char) → List Char → Read
  | _, before, '"' :: rest =>
    if closes '"' rest then some ([], rest.drop 2)
    else if overflows '"' before rest && before[2]? != some '\\' then none
    else (linesText false ('"' :: before) rest).cons '"'
  | _, _, '\\' :: 'u' :: a :: b :: c :: d :: rest =>
    (scalar? [a, b, c, d]).bind fun ch => (linesText false [d] rest).cons ch
  | _, _, '\\' :: 'U' :: a :: b :: c :: d :: e :: f :: g :: h :: rest =>
    (scalar? [a, b, c, d, e, f, g, h]).bind fun ch => (linesText false [h] rest).cons ch
  | _, before, '\\' :: l :: rest =>
    if endsLine (l :: rest) then linesText true (l :: before) rest
    else (escape? l).bind fun ch => (linesText false (l :: '\\' :: before) rest).cons ch
  | skipping, before, c :: rest =>
    if skipping && (isSpace c || isLineEnd c) then linesText true (c :: before) rest
    else (linesText false (c :: before) rest).cons c
  | _, _, [] => none

def rawLinesText : (before : List Char) → List Char → Read
  | _, [] => none
  | before, c :: rest =>
    if c = '\'' && closes c rest then some ([], rest.drop 2)
    else if c = '\'' && overflows c before rest then none
    else (rawLinesText (c :: before) rest).cons c

def dropLineEnd : List Char → List Char
  | '\n' :: rest => rest
  | '\r' :: '\n' :: rest => rest
  | cs => cs

def text? : List Char → Option Read
  | '"' :: '"' :: '"' :: rest => some (linesText false [] (dropLineEnd rest))
  | '\'' :: '\'' :: '\'' :: rest => some (rawLinesText [] (dropLineEnd rest))
  | '"' :: rest => some (lineText rest)
  | '\'' :: rest => some (rawLineText rest)
  | _ => none

abbrev Key := List String

inductive Value where
  | string (s : String)
  | word (w : Word)
  | bool (b : Bool)
  | list (items : List Value)
  | table (pairs : List (Key × Value))
deriving Inhabited

def Value.isList : Value → Bool
  | .list _ => true
  | _ => false

inductive Statement where
  | header (key : Key)
  | item (key : Key)
  | assign (key : Key) (v : Value)
deriving Inhabited

def isKeyChar (c : Char) : Bool := c.isAlphanum || c == '_' || c == '-'

def skipSpaces (cs : List Char) : List Char := cs.dropWhile isSpace

def skipFiller : (inComment : Bool) → List Char → List Char
  | _, [] => []
  | inComment, c :: cs =>
    if inComment then skipFiller (c != '\n') cs
    else if isSpace c || isLineEnd c then skipFiller false cs
    else if c = '#' then skipFiller true cs
    else c :: cs

def keyPart : List Char → Option (String × List Char)
  | '"' :: rest => (lineText rest).map fun (t, r) => (String.ofList t, r)
  | '\'' :: rest => (rawLineText rest).map fun (t, r) => (String.ofList t, r)
  | cs =>
    let bare := cs.takeWhile isKeyChar
    if bare.isEmpty then none else some (String.ofList bare, cs.drop bare.length)

def keyPath : (fuel : Nat) → List Char → Option (Key × List Char)
  | 0, _ => none
  | fuel + 1, cs => do
    let (part, rest) ← keyPart (skipSpaces cs)
    match skipSpaces rest with
    | '.' :: rest =>
      let (parts, rest) ← keyPath fuel rest
      return (part :: parts, rest)
    | rest => return ([part], rest)

mutual

def value : (fuel : Nat) → List Char → Option (Value × List Char)
  | 0, _ => none
  | fuel + 1, cs =>
    match cs with
    | '[' :: rest => (items fuel rest).map fun (vs, r) => (.list vs, r)
    | '{' :: rest => (firstPair fuel rest).map fun (ps, r) => (.table ps, r)
    | 't' :: 'r' :: 'u' :: 'e' :: rest => some (.bool true, rest)
    | 'f' :: 'a' :: 'l' :: 's' :: 'e' :: rest => some (.bool false, rest)
    | _ =>
      match text? cs with
      | some r => r.map fun (t, rest) => (.string (String.ofList t), rest)
      | none => (word? cs).map fun (w, rest) => (.word w, rest)

def items : (fuel : Nat) → List Char → Option (List Value × List Char)
  | 0, _ => none
  | fuel + 1, cs =>
    match skipFiller false cs with
    | ']' :: rest => some ([], rest)
    | cs => do
      let (v, rest) ← value fuel cs
      match skipFiller false rest with
      | ',' :: rest =>
        let (vs, rest) ← items fuel rest
        return (v :: vs, rest)
      | ']' :: rest => return ([v], rest)
      | _ => none

def firstPair : (fuel : Nat) → List Char → Option (List (Key × Value) × List Char)
  | 0, _ => none
  | fuel + 1, cs =>
    match skipSpaces cs with
    | '}' :: rest => some ([], rest)
    | cs => pairs fuel cs

def pairs : (fuel : Nat) → List Char → Option (List (Key × Value) × List Char)
  | 0, _ => none
  | fuel + 1, cs => do
    let (key, v, rest) ← pair fuel cs
    match skipSpaces rest with
    | ',' :: rest =>
      let (ps, rest) ← pairs fuel rest
      return ((key, v) :: ps, rest)
    | '}' :: rest => return ([(key, v)], rest)
    | _ => none

def pair : (fuel : Nat) → List Char → Option (Key × Value × List Char)
  | 0, _ => none
  | fuel + 1, cs => do
    let (key, rest) ← keyPath (fuel + 1) cs
    match rest with
    | '=' :: rest =>
      let (v, rest) ← value fuel (skipSpaces rest)
      return (key, v, rest)
    | _ => none

end

def lineEnd (cs : List Char) : Option (List Char) :=
  match skipSpaces cs with
  | [] => some []
  | '#' :: rest => some (rest.dropWhile (· != '\n'))
  | '\n' :: rest => some rest
  | '\r' :: '\n' :: rest => some rest
  | _ => none

def statement (fuel : Nat) (cs : List Char) : Option (Statement × List Char) :=
  match cs with
  | '[' :: '[' :: rest => do
    let (key, rest) ← keyPath fuel rest
    match rest with
    | ']' :: ']' :: rest => some (.item key, rest)
    | _ => none
  | '[' :: rest => do
    let (key, rest) ← keyPath fuel rest
    match rest with
    | ']' :: rest => some (.header key, rest)
    | _ => none
  | _ => (pair fuel cs).map fun (k, v, rest) => (.assign k v, rest)

def statementsFrom (size : Nat) : (fuel : Nat) → List Char → Option (List Statement)
  | 0, _ => none
  | fuel + 1, cs =>
    match skipFiller false cs with
    | [] => some []
    | cs => do
      let (s, rest) ← statement size cs
      let rest ← lineEnd rest
      let ss ← statementsFrom size fuel rest
      return s :: ss

/-- No control characters stand in the text, and carriage returns only before line feeds. -/
def isPlain : List Char → Bool
  | [] => true
  | '\r' :: cs => cs.head? == some '\n' && isPlain cs
  | c :: cs => (c == '\t' || c == '\n' || (c.toNat ≥ 0x20 && c.toNat != 0x7F)) && isPlain cs

/-- The statements of a text; nothing if it is malformed. A mark of the byte order may come first. -/
def statements (text : String) : Option (List Statement) :=
  let cs := text.toList
  let cs := if cs.head? == some (Char.ofNat 0xFEFF) then cs.tail else cs
  if isPlain cs then statementsFrom (2 * cs.length + 2) (cs.length + 1) cs else none

end AnimatedChart.Toml

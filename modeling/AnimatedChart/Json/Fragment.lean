import AnimatedChart.Text.Quoted

/-!
# Written JSON

A `Fragment` is a piece of JSON as it stands in a document: number literals and string bodies are kept as they are
spelled, members keep their order and their duplicates, and a container remembers the blanks between its tokens.
-/

namespace AnimatedChart.Json.Escape

open Text

def unit? (a b c d : Char) : Option Nat := do
  let a ← hexValue? a
  let b ← hexValue? b
  let c ← hexValue? c
  let d ← hexValue? d
  return ((a * 16 + b) * 16 + c) * 16 + d

def unitDigits (n : Nat) : List Char :=
  [hexDigit (n / 4096 % 16), hexDigit (n / 256 % 16), hexDigit (n / 16 % 16), hexDigit (n % 16)]

def isSurrogate (n : Nat) : Bool := 0xD800 ≤ n && n < 0xE000

def pair? (hi lo : Nat) : Option Char :=
  if 0xD800 ≤ hi ∧ hi < 0xDC00 ∧ 0xDC00 ≤ lo ∧ lo < 0xE000 then
    some (Char.ofNat ((hi - 0xD800) * 0x400 + (lo - 0xDC00) + 0x10000))
  else none

def letter? : Char → Option Char
  | '"' => some '"'
  | '\\' => some '\\'
  | '/' => some '/'
  | 'b' => some '\x08'
  | 'f' => some '\x0c'
  | 'n' => some '\n'
  | 'r' => some '\r'
  | 't' => some '\t'
  | _ => none

def replacement : Char := Char.ofNat 0xFFFD

def decode : List Char → List Char
  | '\\' :: 'u' :: a :: b :: c :: d :: '\\' :: 'u' :: e :: f :: g :: h :: rest =>
    match unit? a b c d with
    | none => decode (e :: f :: g :: h :: rest)
    | some n =>
      if isSurrogate n then
        match (unit? e f g h).bind (pair? n) with
        | some ch => ch :: decode rest
        | none => replacement :: decode ('\\' :: 'u' :: e :: f :: g :: h :: rest)
      else Char.ofNat n :: decode ('\\' :: 'u' :: e :: f :: g :: h :: rest)
  | '\\' :: 'u' :: a :: b :: c :: d :: rest =>
    match unit? a b c d with
    | none => decode rest
    | some n => (if isSurrogate n then replacement else Char.ofNat n) :: decode rest
  | '\\' :: l :: rest =>
    match letter? l with
    | some ch => ch :: decode rest
    | none => decode rest
  | c :: rest => c :: decode rest
  | [] => []
termination_by cs => cs.length
decreasing_by all_goals (simp only [List.length_cons]; omega)

/-- How one character is written. -/
def encodeChar (html : Bool) (c : Char) : List Char :=
  if c = '"' then ['\\', '"']
  else if c = '\\' then ['\\', '\\']
  else if c = '\x08' then ['\\', 'b']
  else if c = '\x0c' then ['\\', 'f']
  else if c = '\n' then ['\\', 'n']
  else if c = '\r' then ['\\', 'r']
  else if c = '\t' then ['\\', 't']
  else if c.toNat < 0x20 || c.toNat == 0x2028 || c.toNat == 0x2029
      || (html && (c == '<' || c == '>' || c == '&')) then
    '\\' :: 'u' :: unitDigits c.toNat
  else [c]

def encode (html : Bool) (cs : List Char) : List Char :=
  cs.flatMap (encodeChar html)

end AnimatedChart.Json.Escape

namespace AnimatedChart.Json

/-- JSON as it is written. -/
inductive Fragment where
  | null
  | bool (b : Bool)
  | number (literal : String)
  /-- A string, by the text between its quotes. -/
  | string (body : String)
  /-- Items, and the blanks before each token up to the closing bracket; no list when there are none. -/
  | array (items : List Fragment) (blanks : List String)
  /-- Members with the bodies of their names, and the blanks as for an array. -/
  | object (members : List (String × Fragment)) (blanks : List String)
deriving Repr, Inhabited, BEq

namespace Fragment

def unescape (body : String) : String :=
  String.ofList (Escape.decode body.toList)

def text (s : String) : Fragment :=
  string (String.ofList (Escape.encode false s.toList))

def htmlText (s : String) : Fragment :=
  string (String.ofList (Escape.encode true s.toList))

def list (items : List Fragment) : Fragment := array items []

def record (members : List (String × Fragment)) : Fragment :=
  object (members.map fun m => (String.ofList (Escape.encode false m.1.toList), m.2)) []

mutual

/-- Every number is a finite one. -/
def isFinite : Fragment → Bool
  | number literal => literal.toList.getLast?.any Char.isDigit
  | array items _ => areFinite items
  | object members _ => membersAreFinite members
  | _ => true

def areFinite : List Fragment → Bool
  | [] => true
  | f :: fs => f.isFinite && areFinite fs

def membersAreFinite : List (String × Fragment) → Bool
  | [] => true
  | (_, f) :: fs => f.isFinite && membersAreFinite fs

end

mutual

def depth : Fragment → Nat
  | array items _ => 1 + depthOfItems items
  | object members _ => 1 + depthOfMembers members
  | _ => 0

def depthOfItems : List Fragment → Nat
  | [] => 0
  | f :: fs => max f.depth (depthOfItems fs)

def depthOfMembers : List (String × Fragment) → Nat
  | [] => 0
  | (_, f) :: ms => max f.depth (depthOfMembers ms)

end

end Fragment
end AnimatedChart.Json

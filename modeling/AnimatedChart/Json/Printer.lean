import AnimatedChart.Json.Fragment

/-!
# Printing

A fragment is printed with its literals, its string bodies and its member order as they are; only blanks are chosen
here.
-/

namespace AnimatedChart.Json

inductive Style where
  | compact
  | indented
deriving DecidableEq

namespace Style

def newline (s : Style) (depth : Nat) (rest : List Char) : List Char :=
  match s with
  | compact => rest
  | indented => '\n' :: (List.replicate (2 * depth) ' ' ++ rest)

def colon (s : Style) (rest : List Char) : List Char :=
  match s with
  | compact => ':' :: rest
  | indented => ':' :: ' ' :: rest

end Style

def quoteBody (b : String) (rest : List Char) : List Char :=
  '"' :: (b.toList ++ '"' :: rest)

namespace Fragment

mutual

def write (s : Style) (depth : Nat) : Fragment → List Char → List Char
  | null, rest => 'n' :: 'u' :: 'l' :: 'l' :: rest
  | bool true, rest => 't' :: 'r' :: 'u' :: 'e' :: rest
  | bool false, rest => 'f' :: 'a' :: 'l' :: 's' :: 'e' :: rest
  | number l, rest => l.toList ++ rest
  | string b, rest => quoteBody b rest
  | array [] _, rest => '[' :: ']' :: rest
  | array (v :: vs) _, rest =>
    '[' :: s.newline (depth + 1) (v.write s (depth + 1)
      (writeItems s (depth + 1) vs (s.newline depth (']' :: rest))))
  | object [] _, rest => '{' :: '}' :: rest
  | object ((k, v) :: ms) _, rest =>
    '{' :: s.newline (depth + 1) (quoteBody k (s.colon (v.write s (depth + 1)
      (writeMembers s (depth + 1) ms (s.newline depth ('}' :: rest))))))

def writeItems (s : Style) (depth : Nat) : List Fragment → List Char → List Char
  | [], rest => rest
  | v :: vs, rest => ',' :: s.newline depth (v.write s depth (writeItems s depth vs rest))

def writeMembers (s : Style) (depth : Nat) : List (String × Fragment) → List Char → List Char
  | [], rest => rest
  | (k, v) :: ms, rest =>
    ',' :: s.newline depth (quoteBody k (s.colon (v.write s depth (writeMembers s depth ms rest))))

end

def compact (f : Fragment) : String :=
  String.ofList (f.write .compact 0 [])

def pretty (f : Fragment) : String :=
  String.ofList (f.write .indented 0 ['\n'])

end Fragment
end AnimatedChart.Json

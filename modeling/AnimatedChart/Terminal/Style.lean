import AnimatedChart.Pipeline.Basic
import AnimatedChart.Terminal.Cells

/-!
# Text on a terminal

Styled text without colours: tabs become four blanks, and the lines of a text with several lines are filled
up to the same width.
-/

namespace AnimatedChart.Terminal

def fill (width : Nat) (s : String) : String :=
  s ++ String.ofList (List.replicate (width - cells s) ' ')

def expandTabs : List Char → List Char
  | [] => []
  | '\t' :: cs => ' ' :: ' ' :: ' ' :: ' ' :: expandTabs cs
  | '\r' :: '\n' :: cs => '\n' :: expandTabs cs
  | c :: cs => c :: expandTabs cs

def styled (s : String) : String :=
  let lines := (String.ofList (expandTabs s.toList)).splitOn "\n"
  match lines with
  | [line] => line
  | lines =>
    let width := (lines.map cells).foldl max 0
    String.intercalate "\n" (lines.map (fill width))

def times (n : Nat) (c : Char) : String := String.ofList (List.replicate n c)

def maxTextSize : Nat := 9223372036854775807

def repeated (n : Nat) (c : Char) : Except Error String :=
  if n * c.utf8Size ≤ maxTextSize then .ok (times n c) else .error .fatal

def cellLines (cell : String) : List String := (String.ofList (expandTabs cell.toList)).splitOn "\n"

def cellWidth (cell : String) : Nat := ((cell.splitOn "\n").map cells).foldl max 0

def cut : (width : Nat) → List Char → List Char
  | _, [] => []
  | width, c :: cs => if charCells c ≤ width then c :: cut (width - charCells c) cs else []

/-- A line that takes exactly so many terminal cells, unless a wide character at its end leaves one over. -/
def fit (width : Nat) (line : String) : String := fill width (String.ofList (cut width line.toList))

def rule (left middle right : String) (widths : List Nat) : String :=
  left ++ String.intercalate middle (widths.map fun w => times w '─') ++ right

def rowLines (widths : List Nat) (row : List String) : List String :=
  let height := (row.map fun c => (c.splitOn "\n").length).foldl max 1
  (List.range height).map fun (i : Nat) =>
    let line := (widths.zip row).map fun (w, cell) => fit w ((cellLines cell).getD i "")
    "│" ++ String.intercalate "│" line ++ "│"

def columnWidths (headers : List String) (rows : List (List String)) : List Nat :=
  rows.foldl (fun ws row => List.zipWith max ws (row.map cellWidth)) (headers.map cellWidth)

def table (headers : List String) (rows : List (List String)) : String :=
  let widths := columnWidths headers rows
  String.intercalate "\n" (
    rule "╭" "┬" "╮" widths :: rowLines widths headers
      ++ rule "├" "┼" "┤" widths :: rows.flatMap (rowLines widths)
      ++ [rule "╰" "┴" "╯" widths])

end AnimatedChart.Terminal

namespace AnimatedChart.Terminal.Status

def success (text : String) : String := "✓ " ++ text ++ "\n"

def failure (text : String) : String := "✗ " ++ text ++ "\n"

def warning (text : String) : String := "! " ++ styled text ++ "\n"

def info (text : String) : String := "› " ++ text ++ "\n"

def detail (text : String) : String := "  " ++ styled text ++ "\n"

def file (path : String) : String := "  → " ++ styled path ++ "\n"

def labelled (label value : String) : String := fill 12 label ++ " " ++ styled value ++ "\n"

def next (purpose command : String) : String := styled (purpose ++ ":") ++ " " ++ styled command ++ "\n"

def stats (s : Stats) (cached : Bool) (elapsed : String) : String :=
  let counted (n : Nat) (what : String) : String := toString n ++ " " ++ what
  let scopes := if s.scopes = 1 then [] else [counted s.scopes "scopes"]
  let time := if cached then ["cached"] else [elapsed, "fresh"]
  "  " ++ String.intercalate " · "
    ([counted s.signals "signals", counted s.data "data", counted s.marks "marks"] ++ scopes ++ time) ++ "\n"

end AnimatedChart.Terminal.Status

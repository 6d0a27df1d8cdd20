import AnimatedChart.Animation.Compiler
import AnimatedChart.Command.Script
import AnimatedChart.Config
import AnimatedChart.Lowering.Basic

/-!
# Base compilers by name

Static charts are lowered by the library itself, the reference compiler, or by a command that reads the chart
and writes the graph.
-/

namespace AnimatedChart.Command

inductive Unterminated where
  | apostrophe
  | quote
  | backslash
deriving Repr, DecidableEq, Inhabited

def Unterminated.text : Unterminated → String
  | apostrophe => "Unterminated single-quoted string"
  | quote => "Unterminated double-quoted string"
  | backslash => "Unterminated backslash-escape"

/-- Where in a command line the reader is. -/
inductive Place where
  | gap
  | gapEscape
  | word (w : List Char)
  | wordEscape (w : List Char)
  | apostrophes (w : List Char)
  | quotes (w : List Char)
  | quotesEscape (w : List Char)

def isGap (c : Char) : Bool := c == ' ' || c == '\n' || c == '\t'

def wordStep (w : List Char) (c : Char) : Place :=
  if c = '\'' then .apostrophes w
  else if c = '"' then .quotes w
  else if c = '\\' then .wordEscape w
  else .word (c :: w)

def splitFrom : Place → List Char → Except Unterminated (List String)
  | .gap, [] => .ok []
  | .gapEscape, [] => .error .backslash
  | .word w, [] => .ok [String.ofList w.reverse]
  | .wordEscape _, [] => .error .backslash
  | .apostrophes _, [] => .error .apostrophe
  | .quotes _, [] => .error .quote
  | .quotesEscape _, [] => .error .quote
  | .gap, c :: cs =>
    if isGap c then splitFrom .gap cs
    else if c = '\\' then splitFrom .gapEscape cs
    else splitFrom (wordStep [] c) cs
  | .gapEscape, c :: cs => if c = '\n' then splitFrom .gap cs else splitFrom (.word [c]) cs
  | .word w, c :: cs =>
    if isGap c then (splitFrom .gap cs).map (String.ofList w.reverse :: ·) else splitFrom (wordStep w c) cs
  | .wordEscape w, c :: cs => if c = '\n' then splitFrom (.word w) cs else splitFrom (.word (c :: w)) cs
  | .apostrophes w, c :: cs => if c = '\'' then splitFrom (.word w) cs else splitFrom (.apostrophes (c :: w)) cs
  | .quotes w, c :: cs =>
    if c = '"' then splitFrom (.word w) cs
    else if c = '\\' then splitFrom (.quotesEscape w) cs
    else splitFrom (.quotes (c :: w)) cs
  | .quotesEscape w, c :: cs =>
    if c = '\n' then splitFrom (.quotes w) cs
    else if "$`\"\\".contains c then splitFrom (.quotes (c :: w)) cs
    else splitFrom (.quotes (c :: '\\' :: w)) cs

def split (line : String) : Except Unterminated (List String) := splitFrom .gap line.toList

def isSpecial (c : Char) : Bool := "\\'\"`$\x7b[|&;<>()*?!".contains c

def quoteWord (w : String) : String :=
  if w.isEmpty then "''"
  else if w.any isGap then
    String.intercalate "\\'" ((w.splitOn "'").map fun p => if p.isEmpty then "" else "'" ++ p ++ "'")
  else
    let escaped := w.toList.flatMap fun c => if isSpecial c then ['\\', c] else [c]
    String.ofList (if escaped.head? == some '~' then '\\' :: escaped else escaped)

def join (ws : List String) : String := String.intercalate " " (ws.map quoteWord)

end AnimatedChart.Command

namespace AnimatedChart

structure Command where
  words : List String
  timeout : Duration
deriving Repr, Inhabited

namespace Command

/-- Reads a command line. -/
def ofLine (line : String) (timeout : Duration) : Except Error Command :=
  let line := if (Text.trim line).isEmpty then defaultCommand else line
  match split line with
  | .error u => .error (.wrap .invalidConfig ("parse compiler command " ++ Text.quote line) (.plain u.text))
  | .ok [] => .error (.new .invalidConfig "empty compiler command")
  | .ok words => .ok ⟨words, if timeout.nanoseconds ≤ 0 then defaultTimeout else timeout⟩

def name (c : Command) : String := join c.words

def program (c : Command) : String := c.words.headD ""

inductive Outcome where
  | finished (r : Run)
  | refused (cause : Error)

def run (c : Command) (input : String) : Outcome :=
  let base := Data.baseName c.program
  let inSystem := c.program == base || c.program == "/bin/" ++ base || c.program == "/usr/bin/" ++ base
  match inSystem, base, c.words.tail with
  | true, "sh", "-c" :: script :: _ => .finished (runScript script input)
  | true, "sh", [] => .finished (runScript input "")
  | true, "cat", _ => .finished (({ words := c.words } : Simple).run { input })
  | true, "false", _ => .finished { status := 1 }
  | true, "true", _ => .finished {}
  | true, "echo", _ => .finished (({ words := c.words } : Simple).run {})
  | true, "printf", _ => .finished (({ words := c.words } : Simple).run {})
  | true, "sleep", _ => .finished (({ words := c.words } : Simple).run {})
  | _, _, _ =>
    if c.program.isEmpty then .refused (.plain "exec: no command")
    else if c.program.contains '/' then .refused (.outside .file)
    else .refused (.plain ("exec: " ++ Text.quote c.program ++ ": executable file not found in $PATH"))

def compile (c : Command) (doc : String) : Except Error Graph :=
  let failed (cause : Error) : Error := .wrap .baseCompiler (c.program ++ " failed") cause
  match c.run doc with
  | .refused cause => .error (failed cause)
  | .finished r =>
    if r.elapsed.nanoseconds > c.timeout.nanoseconds then
      .error (.wrap .timeout (c.program ++ " timed out after " ++ c.timeout.text) (.plain "signal: killed"))
    else if r.status ≠ 0 then
      let note := Text.trim r.err
      .error (failed (.plain ("exit status " ++ toString r.status ++ if note.isEmpty then "" else ": " ++ note)))
    else
      (Graph.parse r.out).mapError (Error.wrap .baseCompiler (c.program ++ " produced an invalid graph"))

end Command

inductive Adapter where
  | reference
  | command (c : Command)
deriving Repr, Inhabited

namespace Adapter

def choose (kind line : String) (timeout : Duration) : Except Error Adapter :=
  if kind.isEmpty || kind == "reference" then .ok .reference
  else if kind == "command" then (Command.ofLine line timeout).map .command
  else .error (.new .invalidConfig ("unknown compiler kind " ++ Text.quote kind
    ++ " (want command or reference)"))

def base : Adapter → Animation.BaseCompiler
  | reference => ⟨"reference", fun _ doc => (Lowering.compile {} doc).map some⟩
  | command c => ⟨c.name, fun _ doc => (c.compile doc).map some⟩

end Adapter
end AnimatedChart

import AnimatedChart.Decimal.Number
import AnimatedChart.Duration

/-!
# Scripts

The small part of the shell language that compiler commands are written in: simple commands with
redirections between the standard streams, joined by `;`, `&&`, `||` and pipes.
-/

namespace AnimatedChart.Command

inductive Piece where
  | word (s : String)
  /-- `;`, `&&`, `||` or `|`. -/
  | joint (s : String)
  /-- A redirection of a stream; its target is the next word. -/
  | redirect (stream : Nat) (how : String)
deriving Repr, DecidableEq, Inhabited

inductive Quoting where
  | none
  | apostrophes
  | quotes
deriving DecidableEq

def pieces : Quoting → (w : Option (List Char)) → List Char → Option (List Piece)
  | .none, w, [] => some (flush w)
  | _, _, [] => none
  | .apostrophes, w, c :: cs => if c = '\'' then pieces .none w cs else pieces .apostrophes (some (c :: w.getD [])) cs
  | .quotes, w, '\\' :: c :: cs =>
    pieces .quotes (some (if "$`\"\\".contains c then c :: w.getD [] else c :: '\\' :: w.getD [])) cs
  | .quotes, w, c :: cs => if c = '"' then pieces .none w cs else pieces .quotes (some (c :: w.getD [])) cs
  | .none, w, '\\' :: c :: cs => pieces .none (some (c :: w.getD [])) cs
  | .none, w, '&' :: '&' :: cs => (pieces .none none cs).map (flush w ++ .joint "&&" :: ·)
  | .none, w, '|' :: '|' :: cs => (pieces .none none cs).map (flush w ++ .joint "||" :: ·)
  | .none, w, '>' :: '&' :: cs => (pieces .none none cs).map (redirect w 1 ">&" ++ ·)
  | .none, w, '>' :: '>' :: cs => (pieces .none none cs).map (redirect w 1 ">" ++ ·)
  | .none, w, c :: cs =>
    if c = '\'' then pieces .apostrophes (some (w.getD [])) cs
    else if c = '"' then pieces .quotes (some (w.getD [])) cs
    else if c = ' ' ∨ c = '\t' then (pieces .none none cs).map (flush w ++ ·)
    else if c = ';' ∨ c = '\n' then (pieces .none none cs).map (flush w ++ .joint ";" :: ·)
    else if c = '|' then (pieces .none none cs).map (flush w ++ .joint "|" :: ·)
    else if c = '>' then (pieces .none none cs).map (redirect w 1 ">" ++ ·)
    else if c = '<' then (pieces .none none cs).map (redirect w 0 "<" ++ ·)
    else pieces .none (some (c :: w.getD [])) cs
where
  flush (w : Option (List Char)) : List Piece := w.toList.map fun w => .word (String.ofList w.reverse)
  /-- A redirection; a single digit right before it names the stream. -/
  redirect (w : Option (List Char)) (stream : Nat) (how : String) : List Piece :=
    match w with
    | some [d] => if d.isDigit then [.redirect (d.toNat - '0'.toNat) how] else flush w ++ [.redirect stream how]
    | _ => flush w ++ [.redirect stream how]

inductive Sink where
  | out
  | err
  | nowhere
deriving Repr, DecidableEq, Inhabited

structure Simple where
  words : List String := []
  noInput : Bool := false
  out : Sink := .out
  err : Sink := .err
deriving Repr, Inhabited

def Simple.redirect (c : Simple) (stream : Nat) (how target : String) : Simple :=
  let sink : Sink := if how = ">&" then (if target = "1" then c.out else if target = "2" then c.err else .nowhere)
    else .nowhere
  if stream = 0 then { c with noInput := true }
  else if stream = 1 then { c with out := sink }
  else if stream = 2 then { c with err := sink }
  else c

structure Run where
  input : String := ""
  out : String := ""
  err : String := ""
  status : Nat := 0
  ended : Bool := false
  elapsed : Duration := ⟨0⟩
deriving Repr, Inhabited

def Run.write (r : Run) (s : Sink) (text : String) : Run :=
  match s with
  | .out => { r with out := r.out ++ text }
  | .err => { r with err := r.err ++ text }
  | .nowhere => r

def unescape : List Char → List Char
  | '\\' :: 'n' :: cs => '\n' :: unescape cs
  | '\\' :: 't' :: cs => '\t' :: unescape cs
  | '\\' :: 'r' :: cs => '\r' :: unescape cs
  | '\\' :: '\\' :: cs => '\\' :: unescape cs
  | '\\' :: '"' :: cs => '"' :: unescape cs
  | c :: cs => c :: unescape cs
  | [] => []

def fillIn : List Char → List String → List Char
  | '%' :: '%' :: cs, ws => '%' :: fillIn cs ws
  | '%' :: 's' :: cs, ws => (ws.headD "").toList ++ fillIn cs ws.tail
  | '%' :: 'd' :: cs, ws => (ws.headD "0").toList ++ fillIn cs ws.tail
  | c :: cs, ws => c :: fillIn cs ws
  | [], _ => []

/-- Shows what stands under a name: the input, nothing, or the complaint that nothing is there. -/
def Simple.showFile (c : Simple) (r : Run) (name : String) : Run :=
  if name = "-" then (if c.noInput then r else { (r.write c.out r.input) with input := "" })
  else if name = "/dev/null" then r
  else { (r.write c.err ("cat: " ++ name ++ ": No such file or directory\n")) with status := 1 }

def Simple.run (c : Simple) (r : Run) : Run :=
  let ok (r : Run) : Run := { r with status := 0 }
  match c.words with
  | [] => ok r
  | "exit" :: n => { r with ended := true, status := ((n.head?.bind String.toNat?).getD r.status) % 256 }
  | "true" :: _ => ok r
  | ":" :: _ => ok r
  | "false" :: _ => { r with status := 1 }
  | "cat" :: names => (if names.isEmpty then ["-"] else names).foldl (Simple.showFile c) (ok r)
  | "echo" :: "-n" :: ws => ok (r.write c.out (String.ofList (unescape (String.intercalate " " ws).toList)))
  | "echo" :: ws => ok (r.write c.out (String.ofList (unescape (String.intercalate " " ws).toList) ++ "\n"))
  | "printf" :: f :: ws => ok (r.write c.out (String.ofList (fillIn (unescape f.toList) ws)))
  | "sleep" :: n :: _ =>
    let d := (Duration.parse? (n ++ "s")).getD ⟨0⟩
    ok { r with elapsed := ⟨r.elapsed.nanoseconds + d.nanoseconds⟩ }
  | name :: _ => { (r.write c.err ("sh: 1: " ++ name ++ ": not found\n")) with status := 127 }

def runPipe : List Simple → Run → Run
  | [], r => r
  | [c], r => c.run r
  | c :: cs, r =>
    let first := c.run { r with out := "" }
    let rest := runPipe cs { first with input := first.out, out := r.out, ended := false }
    { rest with ended := false }

def pipes : (joint : String) → (done : List Simple) → (c : Simple) → List Piece → List (String × List Simple)
  | j, done, c, [] => [(j, done ++ [c])]
  | j, done, c, .word s :: ps => pipes j done { c with words := c.words ++ [s] } ps
  | j, done, c, .redirect n how :: .word t :: ps => pipes j done (c.redirect n how t) ps
  | j, done, c, .redirect _ _ :: ps => pipes j done c ps
  | j, done, c, .joint "|" :: ps => pipes j (done ++ [c]) {} ps
  | j, done, c, .joint s :: ps => (j, done ++ [c]) :: pipes s [] {} ps

/-- Runs pipes one after the other, those after `&&` and `||` only if the status so far asks for it. -/
def runPipes (r : Run) : List (String × List Simple) → Run
  | [] => r
  | (j, cs) :: rest =>
    let skipped := r.ended || (j == "&&" && r.status != 0) || (j == "||" && r.status == 0)
      || cs.all (·.words.isEmpty)
    runPipes (if skipped then r else runPipe cs r) rest

def runScript (script input : String) : Run :=
  match pieces .none none script.toList with
  | some ps => runPipes { input } (pipes ";" [] {} ps)
  | none => { status := 2, err := "sh: 1: Syntax error: Unterminated quoted string\n" }

end AnimatedChart.Command

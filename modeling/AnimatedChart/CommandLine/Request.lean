import AnimatedChart.CommandLine.Flags
import AnimatedChart.Config

/-!
# Requests

What a command line asks for. The command is found first, among the words that are neither flags nor their
values; then its flags are read and its arguments counted.
-/

namespace AnimatedChart.CommandLine

inductive Request where
  | compile (input output : String) (noCache check refresh : Bool)
  | elaborate (input output : String) (noCache : Bool)
  | check (input : String)
  | graph (input format output : String) (noCache : Bool)
  | preview (input : String) (noCache : Bool)
  | play (input : String) (scope : Int) (noCache : Bool)
  | serve (address : String) (noCache : Bool)
  | clearCache
  | cachePath
  | completion (shell : String)
  | version
  | help
deriving Repr, DecidableEq, Inhabited

inductive Arity where
  | any
  | none
  | one
deriving Repr, DecidableEq, Inhabited

structure CommandForm where
  path : List String
  flags : List Flag := []
  arity : Arity := .one
  /-- The arguments that it takes; any if there are none. -/
  choices : List String := []
  request : Arguments → Request

namespace CommandForm

def output : Flag := { name := "output", letter := some 'o' }

def noCache : Flag := { name := "no-cache", kind := .switch }

def config : Flag := { name := "config" }

def help : Flag := { name := "help", letter := some 'h', kind := .switch }

def version : Flag := { name := "version", letter := some 'v', kind := .switch }

def all : List CommandForm := [
  { path := []
    flags := [version]
    arity := .any
    request := fun a => if a.on "version" then .version else .help },
  { path := ["compile"]
    flags := [output, noCache, { name := "check", kind := .switch }, { name := "refresh", kind := .switch }]
    request := fun a => .compile a.word (a.text "output") (a.on "no-cache") (a.on "check") (a.on "refresh") },
  { path := ["elaborate"]
    flags := [output, noCache]
    request := fun a => .elaborate a.word (a.text "output") (a.on "no-cache") },
  { path := ["check"]
    request := fun a => .check a.word },
  { path := ["graph"]
    flags := [{ name := "format", letter := some 'f' }, output, noCache]
    request := fun a =>
      .graph a.word ((Dict.get? a.flags "format").getD "dot") (a.text "output") (a.on "no-cache") },
  { path := ["preview"]
    flags := [noCache]
    request := fun a => .preview a.word (a.on "no-cache") },
  { path := ["play"]
    flags := [{ name := "scope", kind := .number }, noCache]
    request := fun a => .play a.word (number (a.text "scope")) (a.on "no-cache") },
  { path := ["serve"]
    flags := [{ name := "addr" }, noCache]
    arity := .none
    request := fun a => .serve (a.text "addr") (a.on "no-cache") },
  { path := ["cache"]
    arity := .any
    request := fun _ => .help },
  { path := ["cache", "clear"]
    arity := .none
    request := fun _ => .clearCache },
  { path := ["cache", "path"]
    arity := .none
    request := fun _ => .cachePath },
  { path := ["completion"]
    choices := ["bash", "zsh", "fish", "powershell"]
    request := fun a => .completion a.word },
  { path := ["help"]
    arity := .any
    request := fun _ => .help }]

def named? (path : List String) : Option CommandForm := all.find? (·.path == path)

def names : List String := all.filterMap fun c =>
  match c.path with
  | [name] => if name == "help" then none else some name
  | _ => none

def title (c : CommandForm) : String := String.intercalate " " (appName :: c.path)

end CommandForm

/-- The word may have its value in the next one. -/
def takesNext (w : String) : Bool :=
  !w.contains '=' && (w.startsWith "--" || (w.startsWith "-" && w.utf8ByteSize == 2))

def firstWord? : List String → Option String
  | [] => none
  | w :: ws =>
    if w = "--" then none
    else if takesNext w then
      match ws with
      | _ :: v :: rest => firstWord? (v :: rest)
      | _ => none
    else if w.isEmpty || w.startsWith "-" then firstWord? ws
    else some w

/-- The words without the first occurrence of one that is neither a flag nor a flag's value. -/
def without (x : String) : List String → List String
  | [] => []
  | w :: ws =>
    if w = "--" then w :: ws
    else if takesNext w then
      match ws with
      | [] => [w]
      | v :: rest => w :: v :: without x rest
    else if w = x then ws
    else w :: without x ws

/-- The command that words name, and the words that are left. -/
def find : (depth : Nat) → CommandForm → List String → CommandForm × List String
  | 0, c, ws => (c, ws)
  | depth + 1, c, ws =>
    match firstWord? ws with
    | none => (c, ws)
    | some w =>
      match CommandForm.named? (c.path ++ [w]) with
      | none => (c, ws)
      | some c => find depth c (without w ws)

/-! ## Suggestions -/

/-- One row of the table of distances between two texts: `above` is the row before, `corner` the distance
above and to the left, `left` the one to the left. -/
def distanceRow (c : UInt8) : (corner left : Nat) → List UInt8 → (above : List Nat) → List Nat
  | corner, left, d :: ds, a :: above =>
    let x := if c = d then corner else 1 + min corner (min left a)
    x :: distanceRow c a x ds above
  | _, _, _, _ => []

def editDistance (s t : List UInt8) : Nat :=
  let start := List.range (t.length + 1)
  let step (row : List Nat) (c : UInt8) : List Nat :=
    let corner := row.headD 0
    (corner + 1) :: distanceRow c corner (corner + 1) t row.tail
  (s.foldl step start).getLastD 0

def suggestions (typed : String) : List String :=
  CommandForm.names.filter fun name =>
    editDistance (Text.bytes typed.toLower) (Text.bytes name) ≤ 2 || name.startsWith typed.toLower

def unknownCommand (typed title : String) (meant : List String) : Error :=
  let hint := if meant.isEmpty then "" else
    "\n\nDid you mean this?\n" ++ String.join (meant.map fun name => "\t" ++ name ++ "\n")
  .plain ("unknown command " ++ Text.quote typed ++ " for " ++ Text.quote title ++ hint)

def CommandForm.checkWords (c : CommandForm) (words : List String) : Except Error Unit :=
  match c.arity, words with
  | .none, w :: _ => .error (unknownCommand w c.title [])
  | .one, [w] =>
    if c.choices.isEmpty || c.choices.contains w then .ok ()
    else .error (.plain ("invalid argument " ++ Text.quote w ++ " for " ++ Text.quote c.title))
  | .one, ws => .error (.plain ("accepts 1 arg(s), received " ++ toString ws.length))
  | _, _ => .ok ()

/-- What a command line asks for, and the path of the configuration that it names; empty if it names none. -/
def Request.ofWords (words : List String) : Except Error (Request × String) := do
  let top : CommandForm := (CommandForm.named? []).getD { path := [], request := fun _ => .help }
  let (c, rest) := find 2 top words
  if c.path.isEmpty then
    if let some w := firstWord? rest then throw (unknownCommand w c.title (suggestions w))
  let a ← readWords (c.flags ++ [CommandForm.config, CommandForm.help]) {} rest
  if a.on "help" then return (.help, "")
  let request := c.request a
  if request != .version && request != .help then c.checkWords a.words
  return (request, a.text "config")

end AnimatedChart.CommandLine

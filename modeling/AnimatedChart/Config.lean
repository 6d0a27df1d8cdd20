import AnimatedChart.Data.Files
import AnimatedChart.Duration
import AnimatedChart.Json.Reading
import AnimatedChart.Toml.Document

/-!
# Configuration

What a configuration file sets, and what holds without one.
-/

namespace AnimatedChart

def appName : String := "vlanimate"

def compilerKinds : List String := ["reference", "command"]

def checkCompiler (kind : String) : Except Error Unit :=
  if compilerKinds.contains kind then .ok ()
  else .error (.plain ("invalid compiler: " ++ Text.quote kind ++ " (must be one of: "
    ++ String.intercalate ", " compilerKinds ++ ")"))

def defaultCommand : String := "vl2vg"

def defaultTimeout : Duration := .seconds 30

structure Config where
  compiler : String := "reference"
  command : String := defaultCommand
  timeout : Duration := defaultTimeout
  cacheEnabled : Bool := true
  cacheDir : String := ""
  redisUrl : String := ""
  cacheTtl : Duration := .hours 168
  address : String := ":8080"
  mongoUri : String := ""
  mongoDatabase : String := appName
  tick : Duration := ⟨1000000000 / 60⟩
deriving Repr, Inhabited

namespace Config

abbrev Setter := Toml.Node → Config → Option Config

def text (set : String → Config → Config) : Setter
  | .leaf (.string s), c => some (set s c)
  | _, _ => none

def flag (set : Bool → Config → Config) : Setter
  | .leaf (.bool b), c => some (set b c)
  | _, _ => none

def duration (set : Duration → Config → Config) : Setter
  | .leaf (.string s), c => (Duration.parse? s).map fun d => set d c
  | .leaf (.word (.integer n)), c => (Duration.parse? (toString n)).map fun d => set d c
  | _, _ => none

def sections : List (String × List (String × Setter)) := [
  ("compiler", [
    ("kind", text fun s c => { c with compiler := s }),
    ("command", text fun s c => { c with command := s }),
    ("timeout", duration fun d c => { c with timeout := d })]),
  ("cache", [
    ("enabled", flag fun b c => { c with cacheEnabled := b }),
    ("dir", text fun s c => { c with cacheDir := s }),
    ("redis_url", text fun s c => { c with redisUrl := s }),
    ("ttl", duration fun d c => { c with cacheTtl := d })]),
  ("server", [
    ("addr", text fun s c => { c with address := s }),
    ("mongo_uri", text fun s c => { c with mongoUri := s }),
    ("mongo_database", text fun s c => { c with mongoDatabase := s })]),
  ("preview", [
    ("tick", duration fun d c => { c with tick := d })])]

def setFields (fields : List (String × Setter)) : Toml.Entries → Config → Option Config
  | [], c => some c
  | (k, n) :: rest, c =>
    match Json.Reader.field? fields k with
    | none => setFields fields rest c
    | some set => (set n c).bind (setFields fields rest)

def setSections : Toml.Entries → Config → Option Config
  | [], c => some c
  | (k, n) :: rest, c =>
    match Json.Reader.field? sections k, n with
    | none, _ => setSections rest c
    | some fields, .table es => (setFields fields es c).bind (setSections rest)
    | some _, _ => none

def isKnown (root : Toml.Entries) : Toml.Key → Bool
  | [s] => (root.get? s).isSome && (Json.Reader.field? sections s).isSome
  | [s, f] =>
    ((root.find [s]).bind (·.get? f)).isSome
      && ((Json.Reader.field? sections s).bind fun fields => Json.Reader.field? fields f).isSome
  | _ => false

def check (c : Config) : Except Error Unit := do
  (checkCompiler c.compiler).mapError (Error.wrap .invalidConfig "[compiler] kind")
  if c.compiler == "command" && (Text.trim c.command).isEmpty then
    throw (.missing "[compiler] kind = \"command\"" "command")
  if c.timeout.nanoseconds ≤ 0 then throw (.new .invalidConfig "[compiler] timeout must be positive")
  if c.cacheTtl.nanoseconds < 0 then throw (.new .invalidConfig "[cache] ttl must not be negative")
  if c.tick.nanoseconds ≤ 0 then throw (.new .invalidConfig "[preview] tick must be positive")

def parse (path text : String) : Except Error Config := do
  let malformed : Error := .wrap .invalidConfig ("parse " ++ path) (.outside .toml)
  let some d := Toml.Document.parse? text | throw malformed
  let some c := setSections d.root {} | throw malformed
  let unknown := (d.keys.filter fun k => !isKnown d.root k).map Toml.keyText
  if !unknown.isEmpty then
    throw (.new .invalidConfig (path ++ ": unknown keys "
      ++ String.intercalate ", " (unknown.mergeSort fun a b => decide (a ≤ b))))
  c.check
  return c

def load (files : Data.Files) (path : String) (askedFor : Bool) : Except Error Config :=
  match files.read path with
  | .content text => parse path text
  | .missing => if askedFor then .error (.new .fileNotFound ("config file " ++ path ++ " not found")) else .ok {}
  | .unreadable => .error (.wrap .invalidConfig ("parse " ++ path) (.outside .file))

/-- The directory of the cache, below the user's directory for caches if none is configured. -/
def cacheDirectory (c : Config) (userCaches : String) : String :=
  if c.cacheDir.isEmpty then Data.join userCaches appName else c.cacheDir

end Config
end AnimatedChart

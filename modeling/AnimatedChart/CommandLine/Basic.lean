import AnimatedChart.CommandLine.Request
import AnimatedChart.Terminal.Playback
import AnimatedChart.Timeline.Statistics

/-!
# Commands

What each command does to the files and caches of a workspace, what it writes, and what it tells.
-/

namespace AnimatedChart.CommandLine

open Terminal

structure Workspace where
  files : Data.Files
  configHome : String
  cacheHome : String
  caches : Dict Cache.FileCache := []
  /-- What a command reads where its input is `-`. -/
  stdin : String := ""
  now : Instant := ⟨0⟩
  /-- How the time that a command takes is shown. -/
  elapsed : String := "0s"

structure Run where
  workspace : Workspace
  config : Config := {}
  stdout : String := ""
  stderr : String := ""

abbrev Action := ExceptT Error (StateM Run)

namespace Action

def print (text : String) : Action Unit := modify fun r => { r with stdout := r.stdout ++ text }

def note (text : String) : Action Unit := modify fun r => { r with stderr := r.stderr ++ text }

/-! ## Files -/

def isStdin (path : String) : Bool := path == "-"

def inputName (path : String) : String := if isStdin path then "stdin" else Data.baseName path

def inputDirectory (path : String) : String := if isStdin path then "." else Data.directory path

def readInput (path : String) : Action String := do
  let w := (← get).workspace
  if isStdin path then return w.stdin
  match w.files.read path with
  | .content text => return text
  | .missing => throw (.new .fileNotFound (path ++ " not found"))
  | .unreadable => throw (.outside .file)

def isFile (output : String) : Bool := !output.isEmpty && output != "-"

def write (output text : String) : Action Unit := do
  if isFile output then
    match (← get).workspace.files.write output text with
    | some files => modify fun r => { r with workspace := { r.workspace with files } }
    | none => throw (.outside .file)
  else print text

def cacheDirectory : Action String := do
  let r ← get
  return r.config.cacheDirectory r.workspace.cacheHome

/-- The cache of a command, and the name under which it is kept. -/
def openCache (noCache : Bool) : Action (Option (String × Cache.FileCache)) := do
  let r ← get
  if noCache || !r.config.cacheEnabled then return none
  if !r.config.redisUrl.isEmpty then throw (.within "ping redis" (.plain "no connection"))
  let directory ← cacheDirectory
  match r.workspace.files.makeDirectory directory with
  | none => throw (.outside .file)
  | some files =>
    set { r with workspace := { r.workspace with files } }
    let name := files.key directory
    return some (name, (Dict.get? r.workspace.caches name).getD {})

def keepCache (name : String) (c : Cache.FileCache) : Action Unit :=
  modify fun r => { r with workspace := { r.workspace with caches := Dict.put name c r.workspace.caches } }

def inSession {α : Type} (noCache : Bool) (x : Step α) : Action α := do
  let opened ← openCache noCache
  let r ← get
  let session : Session := {
    cache := (opened.map fun c => Cache.files c.2).getD .null
    now := r.workspace.now
    ttl := r.config.cacheTtl }
  let (result, session) := session.run x
  match opened, session.cache with
  | some (name, _), .files c => keepCache name c
  | _, _ => pure ()
  liftM result

def options : Action Pipeline.Options := do
  let c := (← get).config
  return { compiler := c.compiler, command := c.command, timeout := c.timeout }

/-! ## Commands -/

def compile (input output : String) (noCache check refresh : Bool) : Action Unit := do
  let doc ← readInput input
  let options := { (← options) with check, refresh }
  let result ← inSession noCache (Pipeline.execute doc options)
  -- A graph that cannot be written leaves an empty file.
  let text := result.graph.encode
  ExceptT.adapt (fun e => if isFile output then .within ("create " ++ output) e else e)
    (write output (text.toOption.getD ""))
  discard (liftM text)
  note (Status.success ("Compiled " ++ inputName input))
  if isFile output then note (Status.file output)
  note (Status.stats result.stats result.cached (← get).workspace.elapsed)
  for m in result.unresolved do note (Status.warning ("unresolved " ++ m.text))
  if isFile output then
    note ("\n" ++ Status.next "Inspect its dependencies" (appName ++ " graph " ++ output ++ " -f svg -o graph.svg"))

def elaborate (input output : String) (noCache : Bool) : Action Unit := do
  let doc ← readInput input
  let chart ← inSession noCache (Pipeline.elaborate doc false)
  write output ((← liftM chart.encode) ++ "\n")
  if isFile output then note (Status.success ("Elaborated " ++ inputName input) ++ Status.file output)

def readGraph (input text : String) : Except Error Graph :=
  (Graph.parse text).mapError (Error.wrap .invalidFormat ("decode " ++ inputName input))

def check (input : String) : Action Unit := do
  let g ← liftM (readGraph input (← readInput input))
  let d := Dependency.Dependencies.ofGraph g
  match d.error? with
  | none => note (Status.success ("All references in " ++ inputName input ++ " resolve") ++ Status.detail d.summary)
  | some e =>
    for m in d.unresolved do note (Status.failure m.text)
    throw e

def isChart (doc : String) : Bool :=
  match Json.Fragment.parse? doc with
  | some (.object ms _) => ms.any fun m => ["mark", "layer", "vconcat"].contains (Json.Fragment.unescape m.1)
  | _ => false

def graphOf (input doc : String) (options : Pipeline.Options) : Step Graph := do
  if isChart doc then
    let result ← Pipeline.execute doc options
    return result.graph
  else liftM (readGraph input doc)

def graph (input format output : String) (noCache : Bool) : Action Unit := do
  liftM ((Pipeline.checkFormat format).mapError (Error.wrap .invalidInput "--format"))
  let doc ← readInput input
  let options ← options
  let g ← inSession noCache (graphOf input doc options)
  let drawing ← liftM (Pipeline.draw g format)
  write output drawing
  if isFile output then note (Status.success "Rendered dependency graph" ++ Status.file output)

def clocks (input : String) (noCache : Bool) : Action (List Pipeline.ScopeClock) := do
  let doc ← readInput input
  let loader : Data.Loader := { files := (← get).workspace.files, directory := inputDirectory input }
  inSession noCache (Pipeline.clocks loader (inputName input) doc)

def nothing : String := "—"

def keyframeTable (c : Pipeline.ScopeClock) : String :=
  let tl := c.timeline
  table ["#", "Value", "Offset", "Hold", "Pause", "Rows"] ((tl.keyframes.zipIdx).map fun (k, i) =>
    let pause := tl.pauseFor k
    [toString i, k.display, Duration.briefMillis ((tl.offset? i).getD 0), Duration.briefMillis (tl.holdAt i),
      if pause > 0 then Duration.briefMillis pause else nothing,
      match c.rows with
      | none => nothing
      | some rows => toString (Timeline.keyframe rows tl.field k).length])

def showClock (c : Pipeline.ScopeClock) : Action Unit := do
  let tl := c.timeline
  print (styled ("Scope " ++ Pipeline.scopeName c.scope.id) ++ "\n")
  note (Status.labelled "field" tl.field ++ Status.labelled "scale" tl.type
    ++ Status.labelled "duration" (Duration.briefMillis tl.duration)
    ++ Status.labelled "loop" (if tl.loop then "true" else "false"))
  if let some d := c.scope.driver? then note (Status.labelled "selection" d.name)
  print (keyframeTable c ++ "\n")
  let s := tl.summary
  note (Status.detail ("hold mean " ++ Duration.briefMillis s.mean ++ " · σ " ++ Duration.briefMillis s.deviation
    ++ " · median " ++ Duration.briefMillis s.median ++ " · min " ++ Duration.briefMillis s.min
    ++ " · max " ++ Duration.briefMillis s.max))

def preview (input : String) (noCache : Bool) : Action Unit := do
  for (c, i) in (← clocks input noCache).zipIdx do
    if i > 0 then print "\n"
    showClock c

def play (input : String) (scope : Int) (noCache : Bool) : Action Unit := do
  let cs ← clocks input noCache
  match if scope < 0 then none else cs[scope.toNat]? with
  | none =>
    throw (.new .invalidInput
      ("--scope " ++ toString scope ++ " out of range (chart has " ++ toString cs.length ++ ")"))
  | some c =>
    let tick := (← get).config.tick
    print ((← liftM (Playback.start (inputName input) c.timeline tick).view) ++ "\n")

def clearCache : Action Unit := do
  match ← openCache false with
  | none => note (Status.info "Caching is disabled")
  | some (name, c) =>
    let directory ← cacheDirectory
    let (others, files) := (← get).workspace.files.removeBelow directory ".json"
    modify fun r => { r with workspace := { r.workspace with files } }
    keepCache name c.clear
    note (Status.success ("Cleared " ++ toString (c.files.length + others) ++ " cached entries")
      ++ Status.detail ("Directory: " ++ directory))

def cachePath : Action Unit := do
  if !(← get).config.redisUrl.isEmpty then note (Status.info "Results are cached in redis")
  print ((← cacheDirectory) ++ "\n")

def versionText : String := appName ++ " version dev\ncommit: none\nbuilt: unknown\n"

def perform : Request → Action Unit
  | .compile input output noCache check refresh => compile input output noCache check refresh
  | .elaborate input output noCache => elaborate input output noCache
  | .check input => check input
  | .graph input format output noCache => graph input format output noCache
  | .preview input noCache => preview input noCache
  | .play input scope noCache => play input scope noCache
  | .clearCache => clearCache
  | .cachePath => cachePath
  | .serve _ _ => throw (.new .unsupported "serving needs a network")
  | .completion _ => throw (.new .unsupported "no completion scripts")
  | .version => print versionText
  | .help => print (String.intercalate "\n" (CommandForm.names.map fun name => appName ++ " " ++ name) ++ "\n")

def defaultConfig (w : Workspace) : String := Data.join (Data.join w.configHome appName) "config.toml"

def configure (path : String) : Action Unit := do
  let w := (← get).workspace
  let askedFor := !path.isEmpty
  let path := if askedFor then path else defaultConfig w
  let config ← liftM (Config.load w.files path askedFor)
  modify fun r => { r with config }

def ofWords (words : List String) : Action Unit := do
  let (request, config) ← liftM (Request.ofWords words)
  if request != .version && request != .help then configure config
  perform request

end Action

def run (w : Workspace) (words : List String) : Except Error Unit × Run :=
  (ExceptT.run (Action.ofWords words)).run { workspace := w }

end AnimatedChart.CommandLine

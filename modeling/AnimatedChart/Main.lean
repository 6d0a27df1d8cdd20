import Std.Time.DateTime
import AnimatedChart.CommandLine.Basic

/-!
# The program

Runs a command line on the files of this computer. What the command may read is loaded into a workspace, the
command is carried out there, and what it changed is written back.
-/

namespace AnimatedChart.CommandLine

def readFile? (path : String) : IO (Option String) := do
  try return some (← IO.FS.readFile path) catch _ => return none

def namesIn (path : String) : IO (List String) := do
  try
    let entries ← (← IO.FS.realPath path).readDir
    return entries.toList.map fun e => e.fileName
  catch _ => return []

def isDirectory (path : String) : IO Bool := do
  try (← IO.FS.realPath path).isDir catch _ => return false

def addresses (doc : String) : List String :=
  match Spec.Chart.parse doc with
  | .error _ => []
  | .ok c => c.elaborate.scopes.filterMap fun s => do
    let d ← (Data.Definition.read (← Pipeline.animatedData? s)).toOption
    if d.url.isEmpty then none else some d.url

def waypoints (path : String) : List String :=
  let parts := path.splitOn "/"
  (List.range parts.length).map fun i => String.intercalate "/" (parts.take (i + 1))

def Workspace.withPath (w : Workspace) (path : String) : IO Workspace := do
  let mut w := w
  for p in waypoints path do
    if !p.isEmpty then
      if ← isDirectory p then
        w := { w with files := { w.files with directories := w.files.key p :: w.files.directories } }
  let key := w.files.key path
  match ← readFile? path with
  | some text => return { w with files := { w.files with contents := Dict.put key text w.files.contents } }
  | none => return w

def cacheFile (directory name : String) : String × String :=
  let cs := name.toList
  (directory ++ "/" ++ String.ofList (cs.take 2), String.ofList (cs.drop 2) ++ ".json")

def readCache (directory : String) : IO Cache.FileCache := do
  let mut files : Dict Cache.Stored := []
  for group in ← namesIn directory do
    for name in ← namesIn (directory ++ "/" ++ group) do
      if name.endsWith ".json" then
        if let some text ← readFile? (directory ++ "/" ++ group ++ "/" ++ name) then
          files := Dict.put (group ++ String.ofList (name.toList.take (name.length - 5))) (.text text) files
  return { files }

def writeCache (directory : String) (before after : Cache.FileCache) : IO Unit := do
  for (name, _) in before.files do
    if !Dict.has after.files name then
      let (group, file) := cacheFile directory name
      IO.FS.removeFile (group ++ "/" ++ file)
  for (name, stored) in after.files do
    if Dict.get? before.files name != some stored then
      let (group, file) := cacheFile directory name
      IO.FS.createDirAll group
      IO.FS.writeFile (group ++ "/" ++ file) stored.render

def writeFiles (before after : Data.Files) : IO Unit := do
  for (path, text) in after.contents do
    if Dict.get? before.contents path != some text then IO.FS.writeFile path text
  for (path, _) in before.contents do
    if !Dict.has after.contents path then IO.FS.removeFile path

/-- The user's directory of a kind: the one that the environment names, or a place below the home directory. -/
def userDirectory (setting place : String) : IO String := do
  match ← IO.getEnv setting with
  | some d => if d.isEmpty then below else return d
  | none => below
where
  below : IO String := do return Data.join ((← IO.getEnv "HOME").getD "") place

def exitCode (e : Error) : UInt32 :=
  match e.code? with
  | some .invalidInput | some .invalidSpec | some .invalidFormat | some .invalidConfig | some .missingField
  | some .fileNotFound => 2
  | _ => 1

def Request.paths : Request → List String
  | .compile input output _ _ _ | .elaborate input output _ | .graph input _ output _ =>
    [input, output, Data.directory output]
  | .check input | .preview input _ | .play input _ _ => [input]
  | _ => []

def runProgram (words : List String) : IO UInt32 := do
  let started ← IO.monoNanosNow
  let now : Instant := ⟨(← Std.Time.Timestamp.now).toNanosecondsSinceUnixEpoch.toInt⟩
  let mut w : Workspace := {
    files := { root := toString (← IO.currentDir) }
    configHome := ← userDirectory "XDG_CONFIG_HOME" ".config"
    cacheHome := ← userDirectory "XDG_CACHE_HOME" ".cache"
    now }
  if let .ok (request, config) := Request.ofWords words then
    let configFile := if config.isEmpty then Action.defaultConfig w else config
    for path in configFile :: request.paths do
      if path == "-" then w := { w with stdin := ← (← IO.getStdin).readToEnd }
      else if !path.isEmpty then w ← w.withPath path
    let input := request.paths.headD ""
    let doc := if input == "-" then w.stdin else (Dict.get? w.files.contents (w.files.key input)).getD ""
    for url in addresses doc do
      if !Data.isRemote url then w ← w.withPath (Data.pathOf (Action.inputDirectory input) url)
    if let .ok c := Config.load w.files configFile (!config.isEmpty) then
      let directory := c.cacheDirectory w.cacheHome
      w := { w with caches := [(w.files.key directory, ← readCache directory)] }
  w := { w with elapsed := (Duration.mk ((← IO.monoNanosNow) - started)).brief }
  let (result, r) := run w words
  writeFiles w.files r.workspace.files
  for (directory, cache) in r.workspace.caches do
    writeCache directory ((Dict.get? w.caches directory).getD {}) cache
  IO.print r.stdout
  IO.eprint r.stderr
  match result with
  | .ok () => return 0
  | .error e =>
    IO.eprintln e.text
    return exitCode e

end AnimatedChart.CommandLine

def main (words : List String) : IO UInt32 := AnimatedChart.CommandLine.runProgram words

import AnimatedChart.Data.Files
import AnimatedChart.Data.Table
import AnimatedChart.Data.Url
import AnimatedChart.Session

/-!
# Loading data

The rows behind a chart's data definition: values in the definition itself, a file, or data from the network.
-/

namespace AnimatedChart.Data

open Json

structure Definition where
  name : String := ""
  url : String := ""
  values : Option Fragment := none
  format : String := ""
  /-- The path to the rows in JSON. -/
  property : String := ""
deriving Inhabited

def Definition.read (f : Fragment) : Except Error Definition :=
  Reader.run (Reader.record [
    ("name", fun f d => do return { d with name := ← Reader.text f d.name }),
    ("url", fun f d => do return { d with url := ← Reader.text f d.url }),
    ("values", fun f d => do return { d with values := ← Reader.fragment f d.values }),
    ("format", Reader.record [
      ("type", fun f d => do return { d with format := ← Reader.text f d.format }),
      ("property", fun f d => do return { d with property := ← Reader.text f d.property })])])
    f ({} : Definition)

def formatOf (url : String) : String :=
  match (extension url).toLower with
  | "csv" => "csv"
  | "tsv" => "tsv"
  | _ => "json"

def Response.data (url : String) : Response → Except (Error × Bool) String
  | .failed => .error (.wrap .network ("fetch " ++ url) (.outside .url), true)
  | .answer status text body =>
    if status = 404 then .error (.new .notFound (url ++ ": not found"), false)
    else if status = 429 ∨ 500 ≤ status then .error (.new .network (url ++ ": " ++ text), true)
    else if 300 ≤ status then .error (.new .network (url ++ ": " ++ text), false)
    else .ok body

def request (url : String) : (retries : Nat) → Network → Except Error String × Network
  | 0, n =>
    let (r, n) := n.send
    ((r.data url).mapError (·.1), n)
  | k + 1, n =>
    let (r, n) := n.send
    match r.data url with
    | .ok body => (.ok body, n)
    | .error (e, again) => if again then request url k n else (.error e, n)

structure Loader where
  files : Files
  directory : String
  attempts : Nat := 3

def Loader.request (l : Loader) (url : String) : Step String := do
  if isRequestable url then
    let (result, network) := Data.request url (l.attempts - 1) (← get).network
    modify fun s => { s with network }
    Session.tell (.fetched url ((result.toOption.map String.utf8ByteSize).getD 0) result.toOption.isNone)
    liftM result
  else
    Session.tell (.fetched url 0 true)
    throw (.wrap .invalidSpec ("data url " ++ Text.quote url) (.outside .url))

def Loader.fetch (l : Loader) (url : String) : Step String := do
  match ← Session.answered (.source url) .ok with
  | some data => return data
  | none =>
    Session.tell (.fetch url)
    let data ← l.request url
    Session.keep (.source url) data Cache.sourceTtl
    return data

def pathOf (directory url : String) : String :=
  let path := if url.startsWith "file://" then String.ofList (url.toList.drop 7) else url
  if isAbsolute path then path else join directory path

def Loader.readFile (l : Loader) (url : String) : Except Error String :=
  let path := pathOf l.directory url
  match l.files.read path with
  | .content text => .ok text
  | .missing => .error (.new .fileNotFound ("data file " ++ path ++ " not found"))
  | .unreadable => .error (.within ("read " ++ path) (.outside .file))

def Loader.loadUrl (l : Loader) (d : Definition) : Step Table := do
  let data ← if isRemote d.url then l.fetch d.url else liftM (l.readFile d.url)
  let format := if d.format.isEmpty then formatOf d.url else d.format
  liftM ((decode data format d.property).mapError (Error.within d.url))

def Loader.load (l : Loader) (d : Definition) : Step Table :=
  match d.values with
  | some (.string b) => liftM (decode (Fragment.unescape b) d.format d.property)
  | some .null => liftM (decode "" d.format d.property)
  | some f => liftM (rowsOfFragment f d.property)
  | none =>
    if !d.url.isEmpty then l.loadUrl d
    else if !d.name.isEmpty then
      throw (.new .unsupported ("named data " ++ Text.quote d.name ++ " is supplied at runtime"))
    else throw (.new .invalidSpec "data must have values, url or name")

def Definition.malformed : Error := .wrap .invalidSpec "decode data definition" (.outside .json)

def Loader.loadFragment (l : Loader) (definition : Fragment) : Step Table :=
  match Definition.read definition with
  | .ok d => l.load d
  | .error _ => throw Definition.malformed

def Loader.loadText (l : Loader) (definition : String) : Step Table :=
  if definition.isEmpty then throw (.new .missingField "chart has no data")
  else
    match Fragment.parse? definition with
    | some f => l.loadFragment f
    | none => throw Definition.malformed

end AnimatedChart.Data

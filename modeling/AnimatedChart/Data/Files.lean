import AnimatedChart.Dict

/-!
# Files

The files that can be read and written, by their paths. Paths below the working directory are kept as they
are seen from it.
-/

namespace AnimatedChart.Data

/-- What follows the last point in the last part of a path; empty when there is no point. -/
def extension (path : String) : String :=
  let last := path.toList.reverse.takeWhile (· != '/')
  if last.contains '.' then String.ofList (last.takeWhile (· != '.')).reverse else ""

def isAbsolute (path : String) : Bool := path.startsWith "/"

/-- The parts of a path without needless ones: empty parts and points are dropped, and two points take back the part
before them. -/
def resolveParts (rooted : Bool) : (kept : List String) → List String → List String
  | kept, [] => kept.reverse
  | kept, p :: ps =>
    if p = "" ∨ p = "." then resolveParts rooted kept ps
    else if p = ".." then
      match kept with
      | [] => resolveParts rooted (if rooted then [] else [".."]) ps
      | k :: ks => if k = ".." then resolveParts rooted (".." :: kept) ps else resolveParts rooted ks ps
    else resolveParts rooted (p :: kept) ps

def clean (path : String) : String :=
  let parts := String.intercalate "/" (resolveParts (isAbsolute path) [] (path.splitOn "/"))
  if isAbsolute path then "/" ++ parts else if parts.isEmpty then "." else parts

def join (dir path : String) : String :=
  if dir.isEmpty ∧ path.isEmpty then ""
  else if dir.isEmpty then clean path
  else if path.isEmpty then clean dir
  else clean (dir ++ "/" ++ path)

def directory (path : String) : String :=
  clean (String.ofList (path.toList.reverse.dropWhile (· != '/')).reverse)

def baseName (path : String) : String :=
  if path.isEmpty then "."
  else
    let trimmed := path.toList.reverse.dropWhile (· == '/')
    if trimmed.isEmpty then "/" else String.ofList (trimmed.takeWhile (· != '/')).reverse

structure Files where
  root : String
  contents : Dict String := []
  /-- Directories that hold no file of these, by path. -/
  directories : List String := []
deriving Repr, Inhabited

inductive FileContent where
  | content (text : String)
  | missing
  | unreadable
deriving Repr, DecidableEq, Inhabited

namespace Files

/-- The path under which a file is kept: seen from the working directory if it lies there. -/
def key (fs : Files) (path : String) : String :=
  let path := clean path
  let front := clean fs.root ++ "/"
  if path = clean fs.root ∨ path = "." then ""
  else if path.startsWith front then String.ofList (path.toList.drop front.length)
  else path

def isAbove (key : String) : Bool := key = "/" ∨ (key.splitOn "/").all (· == "..")

def isDirectory (fs : Files) (key : String) : Bool :=
  key.isEmpty || isAbove key || (fs.contents.any fun f => f.1.startsWith (key ++ "/"))
    || fs.directories.any fun d => d == key || d.startsWith (key ++ "/")

def maxName : Nat := 255

def maxPath : Nat := 4095

def below (key name : String) : String :=
  if key.isEmpty then name else if key = "/" then key ++ name else key ++ "/" ++ name

def above (key : String) : String :=
  if key.isEmpty || isAbove key then (if key = "/" then key else below key "..")
  else if key.contains '/' then directory key
  else ""

inductive Place where
  | file (text : String)
  | directory
  /-- Nothing is there, but the directory around it is. -/
  | free
  /-- Nothing is there, not even the directory around it. -/
  | missing
  /-- Nothing can be there: the path runs through a file, or has a name that no file can have. -/
  | impossible
deriving Repr, DecidableEq, Inhabited

/-- Follows the parts of a path from a directory, to a place and the path under which it is kept. -/
def walk (fs : Files) : (key : String) → List String → String × Place
  | key, [] => (key, .directory)
  | key, p :: ps =>
    if p = "" ∨ p = "." then walk fs key ps
    else if p = ".." then walk fs (above key) ps
    else
      let key := below key p
      if p.utf8ByteSize > maxName then (key, .impossible)
      else
        match Dict.get? fs.contents key with
        | some text => (key, if ps.isEmpty then .file text else .impossible)
        | none =>
          if fs.isDirectory key then walk fs key ps
          else (key, if ps.isEmpty then .free else .missing)

/-- Where a path leads. It is followed part by part, so that a part that is not there cannot be taken back. -/
def find (fs : Files) (path : String) : String × Place :=
  let front := clean fs.root ++ "/"
  if path.isEmpty then ("", .missing)
  else if path.contains (Char.ofNat 0) || path.utf8ByteSize > maxPath then ("", .impossible)
  else if path = clean fs.root then ("", .directory)
  else if path.startsWith front then walk fs "" ((String.ofList (path.toList.drop front.length)).splitOn "/")
  else walk fs (if isAbsolute path then "/" else "") (path.splitOn "/")

def read (fs : Files) (path : String) : FileContent :=
  match (fs.find path).2 with
  | .file text => .content text
  | .free | .missing => .missing
  | .directory | .impossible => .unreadable

def write (fs : Files) (path content : String) : Option Files :=
  match fs.find path with
  | (key, .file _) | (key, .free) => some { fs with contents := Dict.put key content fs.contents }
  | _ => none

def makeDirectory (fs : Files) (path : String) : Option Files :=
  match fs.find path with
  | (_, .directory) => some fs
  | (_, .free) | (_, .missing) =>
    if path.isEmpty then none else some { fs with directories := fs.key path :: fs.directories }
  | _ => none

/-- Removes the files below a directory whose paths end in a given way, and tells how many there were. -/
def removeBelow (fs : Files) (path ending : String) : Nat × Files :=
  let key := fs.key path
  let below (f : String) : Bool := (key.isEmpty || f.startsWith (key ++ "/")) && f.endsWith ending
  let (gone, kept) := fs.contents.partition fun f => below f.1
  (gone.length, { fs with contents := kept })

end Files
end AnimatedChart.Data

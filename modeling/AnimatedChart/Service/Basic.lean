import AnimatedChart.Store

/-!
# The service

Charts are posted to be compiled or elaborated, and compiled graphs are stored and can be asked for again.
-/

namespace AnimatedChart.Service

open Text

/-- The bytes of a text with escapes; nothing if an escape is malformed. -/
def unescape (plus : Bool) : List Char → Option (List UInt8)
  | [] => some []
  | '%' :: a :: b :: rest => do
    let n := (← hexValue? a) * 16 + (← hexValue? b)
    return UInt8.ofNat n :: (← unescape plus rest)
  | c :: rest =>
    if c = '%' then none
    else do
      let c := if plus && c == '+' then ' ' else c
      return bytes (String.ofList [c]) ++ (← unescape plus rest)

def isPathByte (b : UInt8) : Bool :=
  let c := Char.ofNat b.toNat
  c.isAlphanum || "-_.~$&+,/:;=@".toList.contains c

def escapePath (bs : List UInt8) : List Char :=
  bs.flatMap fun b =>
    if isPathByte b then [Char.ofNat b.toNat]
    else '%' :: (hexDigits 2 b.toNat).map Char.toUpper

def cut (separator : Char) : List Char → List Char × List (List Char)
  | [] => ([], [])
  | c :: rest =>
    let (first, others) := cut separator rest
    if c = separator then ([], first :: others) else (c :: first, others)

def parts (separator : Char) (cs : List Char) : List String :=
  let (first, others) := cut separator cs
  (first :: others).map String.ofList

structure Address where
  path : String
  /-- Names and values, in order. -/
  query : List (String × String) := []
deriving Repr, DecidableEq, Inhabited

def parameter? (s : String) : Option (String × String) := do
  let cs := s.toList
  if cs.isEmpty || cs.contains ';' then none
  let name := cs.takeWhile (· != '=')
  return (ofBytes (← unescape true name), ofBytes (← unescape true (cs.drop (name.length + 1))))

def Address.ofTarget (target : String) : Address :=
  let raw := target.toList.takeWhile (· != '?')
  let query := target.toList.drop (raw.length + 1)
  let path := match unescape false raw with
    | some bs => if escapePath bs == raw then ofBytes bs else String.ofList raw
    | none => String.ofList raw
  { path, query := (parts '&' query).filterMap parameter? }

def Address.parameter (a : Address) (name : String) : String :=
  ((a.query.find? (·.1 == name)).map (·.2)).getD ""

def flag? (s : String) : Option Bool :=
  if ["1", "t", "T", "true", "TRUE", "True"].contains s then some true
  else if ["0", "f", "F", "false", "FALSE", "False"].contains s then some false
  else none

def Address.flag (a : Address) (name : String) (default : Bool) : Bool :=
  (flag? (a.parameter name)).getD default

end AnimatedChart.Service

namespace AnimatedChart

open Json

namespace Service

structure Request where
  method : String
  target : String
  body : String := ""
deriving Repr, Inhabited

inductive Body where
  | json (f : Fragment)
  | text (s : String)
deriving Repr, Inhabited

structure Response where
  status : Nat
  type : String
  body : Body
deriving Repr, Inhabited

def Response.json (status : Nat) (f : Fragment) : Response := ⟨status, "application/json", .json f⟩

def Response.notFound : Response := ⟨404, "text/plain; charset=utf-8", .text "404 page not found\n"⟩

def Response.notAllowed : Response := ⟨405, "", .text ""⟩

def statusOf : Option Code → Nat
  | some .invalidInput | some .invalidSpec | some .invalidFormat | some .missingField => 400
  | some .notFound | some .fileNotFound => 404
  | some .unsupported => 422
  | some .baseCompiler | some .network => 502
  | some .timeout => 504
  | _ => 500

def Response.ofError (e : Error) : Response :=
  if e.isFatal then ⟨500, "", .text ""⟩
  else
  let code := (e.code?.map Code.name).getD ""
  let code := if code.isEmpty then Code.internal.name else code
  .json (statusOf e.code?)
    (.record [("error", .record [("code", .text code), ("message", .text e.userText)])])

inductive Route where
  | health
  | compile
  | elaborate
  | graph (id : String)
deriving Repr, DecidableEq

def Route.ofPath? (path : String) : Option Route :=
  match parts '/' path.toList with
  | ["", "healthz"] => some .health
  | ["", "v1", "compile"] => some .compile
  | ["", "v1", "elaborate"] => some .elaborate
  | ["", "v1", "graphs", id] => if id.isEmpty then none else some (.graph id)
  | _ => none

def Route.method : Route → String
  | .health => "GET"
  | .compile => "POST"
  | .elaborate => "POST"
  | .graph _ => "GET"

def methods : List String :=
  ["CONNECT", "DELETE", "GET", "HEAD", "OPTIONS", "PATCH", "POST", "PUT", "TRACE"]

def maxBody : Nat := 8388608

def document (r : Request) : Except Error String :=
  if r.body.utf8ByteSize > maxBody then
    .error (.wrap .invalidInput "read request body" (.plain "http: request body too large"))
  else if r.body.isEmpty then .error (.new .invalidInput "request body is empty")
  else .ok r.body

end Service

structure Service where
  session : Session := {}
  store : Store := {}
  options : Pipeline.Options := {}
  version : String := "dev"

namespace Service

/-- The record of a compiled graph and its text: a stored one if the graph was found in the cache, and else a new
one. -/
def record (s : Service) (fresh : String) (r : Pipeline.Result) (graph : String) :
    Except Error (Store.Record × Store) := do
  let compiler := if s.options.compiler.isEmpty then "reference" else s.options.compiler
  let stored := if r.cached then (s.store.lookup r.document compiler).toOption else none
  match stored with
  | some found => return (found, s.store)
  | none =>
    let made : Store.Record :=
      { id := fresh, document := r.document, compiler, graph, stats := r.stats, created := s.session.now }
    return (made, ← s.store.put made)

def compiled (id : String) (graph : Fragment) (r : Pipeline.Result) : Response :=
  .json 200 (.recordOf [("id", some (.text id)), ("graph", some graph),
    ("stats", some r.stats.toFragment), ("cached", some (.bool r.cached)),
    ("unresolved", if r.unresolved.isEmpty then none
      else some (.list (r.unresolved.map fun u => .text u.text)))])

def publish (s : Service) (fresh : String) (r : Pipeline.Result) : Except Error (Response × Store) := do
  let text ← r.graph.encode.mapError (.wrap .internal "encode graph")
  let (kept, store) ← s.record fresh r text
  match Fragment.parse? text with
  | none => throw (.outside .json)
  | some graph => return (compiled kept.id graph r, store)

def compile (s : Service) (fresh : String) (a : Address) (r : Request) : Response × Service :=
  match document r with
  | .error e => (.ofError e, s)
  | .ok doc =>
    let o := s.options
    let o := { o with check := a.flag "check" o.check, refresh := a.flag "refresh" o.refresh }
    match s.session.run (Pipeline.execute doc o) with
    | (.error e, session) => (.ofError e, { s with session })
    | (.ok result, session) =>
      match s.publish fresh result with
      | .error e => (.ofError e, { s with session })
      | .ok (response, store) => (response, { s with session, store })

def elaborate (s : Service) (r : Request) : Response × Service :=
  match document r with
  | .error e => (.ofError e, s)
  | .ok doc =>
    match s.session.run (Pipeline.elaborate doc s.options.refresh) with
    | (.error e, session) => (.ofError e, { s with session })
    | (.ok c, session) =>
      match c.encode with
      | .error e => (.ofError (.wrap .internal "encode spec" e), { s with session })
      | .ok _ => (.json 200 c.toFragment, { s with session })

def graph (s : Service) (id : String) : Response :=
  match (do Store.checkId id; (← s.store.get id).toFragment : Except Error Fragment) with
  | .error e => .ofError e
  | .ok f => .json 200 f

def handle (s : Service) (fresh : String) (r : Request) : Response × Service :=
  let a := Address.ofTarget r.target
  if !methods.contains r.method then (.notAllowed, s)
  else
    match Route.ofPath? a.path with
    | none => (.notFound, s)
    | some route =>
      if route.method != r.method then (.notAllowed, s)
      else
        match route with
        | .health => (.json 200 (.record [("status", .text "ok"), ("version", .text s.version)]), s)
        | .compile => s.compile fresh a r
        | .elaborate => s.elaborate r
        | .graph id => (s.graph id, s)

end Service
end AnimatedChart

import AnimatedChart.Command.Basic
import AnimatedChart.Data.Loader
import AnimatedChart.Dependency.Report
import AnimatedChart.Timeline.Basic

/-!
# The pipeline

A document is elaborated, compiled and checked. Elaborated charts and graphs are kept in the session's cache
under the document's digest, and what is found there and can still be read is not made anew.
-/

namespace AnimatedChart

open Json

structure Stats where
  scopes : Nat := 0
  data : Nat := 0
  signals : Nat := 0
  scales : Nat := 0
  marks : Nat := 0
  elaborateTime : Duration := ⟨0⟩
  compileTime : Duration := ⟨0⟩
  checkTime : Duration := ⟨0⟩
deriving Repr, Inhabited

namespace Stats

def ofGraph (scopes : Nat) (g : Graph) : Stats where
  scopes := scopes
  data := g.data.length
  signals := g.signals.length
  scales := g.scales.length
  marks := g.marks.length

def toFragment (s : Stats) : Fragment :=
  let nat (n : Nat) : Fragment := .number (toString n)
  let time (d : Duration) : Fragment := .number (toString d.nanoseconds)
  .record [("scopes", nat s.scopes), ("data", nat s.data), ("signals", nat s.signals),
    ("scales", nat s.scales), ("marks", nat s.marks), ("elaborate_ns", time s.elaborateTime),
    ("compile_ns", time s.compileTime), ("check_ns", time s.checkTime)]

end Stats
end AnimatedChart

namespace AnimatedChart.Pipeline

open Spec (Chart)

structure Options where
  compiler : String := ""
  command : String := ""
  timeout : Duration := ⟨0⟩
  check : Bool := false
  /-- What is cached is made anew. -/
  refresh : Bool := false
  /-- The base compiler, in place of the one that is chosen by name. -/
  base : Option Animation.BaseCompiler := none

namespace Options

def withDefaults (o : Options) : Options :=
  { o with
    compiler := if o.compiler.isEmpty then "reference" else o.compiler
    command := if o.command.isEmpty then defaultCommand else o.command
    timeout := if o.timeout.nanoseconds = 0 then defaultTimeout else o.timeout }

def validate (o : Options) : Except Error Unit :=
  if o.timeout.nanoseconds < 0 then .error (.plain ("invalid timeout: " ++ o.timeout.text))
  else if o.base.isSome then .ok ()
  else checkCompiler o.compiler

def baseCompiler (o : Options) : Except Error Animation.BaseCompiler :=
  match o.base with
  | some b => .ok b
  | none => (Adapter.choose o.compiler o.command o.timeout).map Adapter.base

end Options

structure Result where
  document : String
  graph : Graph
  unresolved : List Dependency.Mention
  stats : Stats
  cached : Bool

def elaborateAnew (request : Cache.Request) (doc : String) : Step Chart :=
  match Chart.parse doc with
  | .error e => do
    Session.tell (.elaborated 0 true)
    throw e
  | .ok c => do
    let c := c.elaborate
    Session.tell (.elaborated c.scopes.length false)
    Session.keepText request c.encode
    return c

def elaborate (doc : String) (refresh : Bool) : Step Chart := do
  let request := Cache.Request.elaborated ((← get).keyer.digest doc)
  match ← Session.remembered request Chart.parse refresh with
  | some c => return c
  | none => elaborateAnew request doc

def graphOf (base : Animation.BaseCompiler) (c : Chart) : Except Error Graph :=
  ((Animation.compileElaborated base c).run.run []).1

def compileAnew (request : Cache.Request) (c : Chart) (base : Animation.BaseCompiler) : Step Graph := do
  Session.tell (.compiling base.name)
  match graphOf base c with
  | .error e =>
    Session.tell (.compiled base.name 0 true)
    throw e
  | .ok g =>
    Session.tell (.compiled base.name g.signals.length false)
    Session.keepText request g.encode
    return g

def compile (document : String) (c : Chart) (base : Animation.BaseCompiler) (refresh : Bool) :
    Step (Graph × Bool) := do
  let request := Cache.Request.compiled document base.name
  match ← Session.remembered request Graph.parse refresh with
  | some g => return (g, true)
  | none => return (← compileAnew request c base, false)

def conclude (document : String) (c : Chart) (graph : Graph) (cached check : Bool) : Step Result := do
  let d := Dependency.Dependencies.ofGraph graph
  Session.tell (.checked d.unresolved.length)
  match if check then d.error? else none with
  | some e => throw (.within "check" e)
  | none => return { document, graph, unresolved := d.unresolved, stats := .ofGraph c.scopes.length graph, cached }

def executeWith (base : Animation.BaseCompiler) (doc : String) (check refresh : Bool) : Step Result := do
  let document := (← get).keyer.digest doc
  let c ← (elaborate doc refresh).within "elaborate"
  let (graph, cached) ← (compile document c base refresh).within "compile"
  conclude document c graph cached check

def execute (doc : String) (options : Options) : Step Result := do
  let o := options.withDefaults
  liftM (o.validate.mapError (Error.within "invalid options"))
  let base ← liftM o.baseCompiler
  executeWith base doc o.check o.refresh

def checkFormat (format : String) : Except Error Unit :=
  if ["dot", "svg"].contains format then .ok ()
  else .error (.plain ("invalid format: " ++ Text.quote format ++ " (must be one of: dot, svg)"))

def draw (g : Graph) (format : String) : Except Error String := do
  checkFormat format
  if format == "dot" then return (Dependency.Dependencies.ofGraph g).dot { marks := true }
  else throw (.within "render svg" (.plain "no renderer"))

open Spec (Scope ScopedUnit ScopeId)

structure ScopeClock where
  scope : Scope
  rows : Data.Table
  timeline : Timeline

def scopeName (id : ScopeId) : String := if id.isRoot then "root" else id.path

/-- The data that a scope animates: that of its first unit with data and filters, or of its first unit with
data. -/
def animatedData? (s : Scope) : Option Json.Fragment :=
  let units := s.units.filter fun u => u.data.isSome
  ((units.find? fun u => !(s.filtersOf u).isEmpty).orElse fun _ => units.head?).bind ScopedUnit.data

def clockOf (loader : Data.Loader) (s : Scope) : Step ScopeClock := Step.within ("scope " ++ scopeName s.id) do
  let rows ← match animatedData? s with
    | none => pure none
    | some f => loader.loadFragment f
  let timeline ← liftM (Timeline.build (some s.time) s.driver? (rows.getD []))
  return { scope := s, rows, timeline }

def clocks (loader : Data.Loader) (name doc : String) : Step (List ScopeClock) := do
  let c ← elaborate doc false
  match c.scopes with
  | [] => throw (.new .invalidInput (name ++ " has no time encoding"))
  | scopes => scopes.mapM (clockOf loader)

end AnimatedChart.Pipeline

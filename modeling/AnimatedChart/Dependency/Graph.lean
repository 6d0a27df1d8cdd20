import AnimatedChart.Dependency.Expression
import AnimatedChart.Graph.Basic

/-!
# Dependencies of a graph

The nodes of a dependency graph are the names that a dataflow graph defines, its edges run from what is read to what
reads it.
-/

namespace AnimatedChart.Dependency

open Json

/-- A named part of a graph, inside the group of the given name. -/
structure Node where
  ref : Ref
  /-- Empty at the top level. -/
  group : String := ""
  /-- The signal is there without a definition. -/
  builtin : Bool := false
deriving Repr, DecidableEq, Inhabited

/-- A part of a graph, or one of its free properties, mentions a name. -/
structure Mention where
  /-- Nothing for a property of the graph itself. -/
  owner : Option Ref
  target : Ref
deriving Repr, DecidableEq, Inhabited

/-- What is read and what reads it. -/
structure Edge where
  source : Ref
  reader : Ref
deriving Repr, DecidableEq, Inhabited

def markRef (group : String) (i : Nat) (m : Mark) : Ref :=
  if !m.name.isEmpty then ⟨.mark, m.name⟩
  else if group.isEmpty then ⟨.mark, s!"mark_{i}"⟩
  else ⟨.mark, s!"{group}/mark_{i}"⟩

def entryNodes (group : String) (data : List Dataset) (signals : List Signal) (scales : List Scale) :
    List Node :=
  data.map (fun d => ⟨⟨.data, d.name⟩, group, false⟩)
    ++ signals.map (fun s => ⟨⟨.signal, s.name⟩, group, false⟩)
    ++ scales.map (fun s => ⟨⟨.scale, s.name⟩, group, false⟩)

mutual

def markNodes (group : String) (i : Nat) : Mark → List Node
  | ⟨name, type, source, clip, encode, data, signals, scales, marks, others⟩ =>
    let ref := markRef group i ⟨name, type, source, clip, encode, data, signals, scales, marks, others⟩
    [⟨ref, group, false⟩]
      ++ ((source.bind (·.facet)).toList.map fun f => ⟨⟨.data, f.name⟩, ref.name, false⟩)
      ++ entryNodes ref.name data signals scales
      ++ marksNodes ref.name 0 marks

def marksNodes (group : String) : Nat → List Mark → List Node
  | _, [] => []
  | i, m :: ms => markNodes group i m ++ marksNodes group (i + 1) ms

end

def definitions (g : Graph) : List Node :=
  entryNodes "" g.data g.signals g.scales ++ marksNodes "" 0 g.marks

/-! ## Mentions -/

mutual

/-- The names that a free value mentions, by the keys that hold expressions or names. -/
def valueRefs : Value → List Ref
  | .object ms => memberRefs ms
  | .array vs => itemRefs vs
  | _ => []

def itemRefs : List Value → List Ref
  | [] => []
  | v :: vs => valueRefs v ++ itemRefs vs

def memberRefs : List (String × Value) → List Ref
  | [] => []
  | (k, .string s) :: ms =>
    (if k = "signal" ∨ k = "expr" ∨ k = "test" then references s
      else if k = "scale" then [⟨.scale, s⟩]
      else if k = "data" ∨ k = "from" then [⟨.data, s⟩]
      else []) ++ memberRefs ms
  | (k, v) :: ms => (if k = "values" then [] else valueRefs v) ++ memberRefs ms

end

/-- The names that a property kept as it is written mentions; one that is no value mentions none. -/
def fragmentRefs (f : Fragment) : List Ref :=
  match Value.ofFragment f with
  | (v, true) => valueRefs v
  | _ => []

def othersRefs (others : Dict Fragment) : List Ref := others.flatMap fun o => fragmentRefs o.2

def datasetRefs (d : Dataset) : List Ref :=
  (match d.source with
    | .string s => [⟨.data, s⟩]
    | .array vs => (vs.filterMap Value.text?).map fun s => ⟨.data, s⟩
    | _ => [])
    ++ d.transform.flatMap valueRefs

def signalRefs (s : Signal) : List Ref :=
  references s.init ++ references s.update
    ++ s.on.flatMap fun h => valueRefs h.events ++ references h.update

def scaleRefs (s : Scale) : List Ref :=
  valueRefs s.domain ++ valueRefs s.domainRaw ++ valueRefs s.range ++ othersRefs s.others

def entryMentions (data : List Dataset) (signals : List Signal) (scales : List Scale) : List Mention :=
  data.flatMap (fun d => (datasetRefs d).map (⟨some ⟨.data, d.name⟩, ·⟩))
    ++ signals.flatMap (fun s => (signalRefs s).map (⟨some ⟨.signal, s.name⟩, ·⟩))
    ++ scales.flatMap (fun s => (scaleRefs s).map (⟨some ⟨.scale, s.name⟩, ·⟩))

/-- The mentions by a mark's source: a facet reads its dataset, and the mark reads the facet. -/
def sourceMentions (owner : Ref) (source : Option MarkSource) : List Mention :=
  match source with
  | none => []
  | some s =>
    [⟨some owner, ⟨.data, s.data⟩⟩]
      ++ (match s.facet with
        | none => []
        | some f => [⟨some ⟨.data, f.name⟩, ⟨.data, f.data⟩⟩, ⟨some owner, ⟨.data, f.name⟩⟩])

mutual

def markMentions (group : String) (i : Nat) : Mark → List Mention
  | ⟨name, type, source, clip, encode, data, signals, scales, marks, others⟩ =>
    let owner := markRef group i ⟨name, type, source, clip, encode, data, signals, scales, marks, others⟩
    sourceMentions owner source
      ++ ((encode.flatMap fun b => valueRefs b.2) ++ othersRefs others).map (⟨some owner, ·⟩)
      ++ entryMentions data signals scales
      ++ marksMentions owner.name 0 marks

def marksMentions (group : String) : Nat → List Mark → List Mention
  | _, [] => []
  | i, m :: ms => markMentions group i m ++ marksMentions group (i + 1) ms

end

def mentions (g : Graph) : List Mention :=
  entryMentions g.data g.signals g.scales ++ marksMentions "" 0 g.marks
    ++ (othersRefs g.others).map (⟨none, ·⟩)

/-! ## The dependency graph -/

/-- The names of a graph and how they depend on each other. -/
structure Dependencies where
  nodes : List Node := []
  edges : List Edge := []
  unresolved : List Mention := []
deriving Repr, Inhabited

def isBuiltin (r : Ref) : Bool :=
  r.kind == .signal
    && ["width", "height", "padding", "autosize", "background", "cursor"].contains r.name

def insertNew {α : Type} [BEq α] (a : α) (as : List α) : List α :=
  if as.contains a then as else as ++ [a]

namespace Dependencies

def has (d : Dependencies) (r : Ref) : Bool := d.nodes.any (·.ref == r)

def addNode (d : Dependencies) (n : Node) : Dependencies :=
  if d.has n.ref then d else { d with nodes := d.nodes ++ [n] }

/-- Adds the edge of a mention whose target is there. -/
def addEdge (d : Dependencies) (m : Mention) : Dependencies :=
  match m.owner with
  | none => d
  | some owner => if owner.name.isEmpty then d else { d with edges := insertNew ⟨m.target, owner⟩ d.edges }

def mention (d : Dependencies) (m : Mention) : Dependencies :=
  if m.target.name.isEmpty || m.owner == some m.target then d
  else if d.has m.target then d.addEdge m
  else if isBuiltin m.target then (d.addNode ⟨m.target, "", true⟩).addEdge m
  else { d with unresolved := insertNew m d.unresolved }

def ofGraph (g : Graph) : Dependencies :=
  (mentions g).foldl mention ((definitions g).foldl addNode {})

def dependencies (d : Dependencies) (r : Ref) : List Ref :=
  (d.edges.filter (·.reader == r)).map (·.source)

def dependents (d : Dependencies) (r : Ref) : List Ref :=
  (d.edges.filter (·.source == r)).map (·.reader)

def nextLevel (d : Dependencies) (seen level : List Ref) : List Ref :=
  ((level.flatMap d.dependencies).filter fun r => !seen.contains r).eraseDups

def levels (d : Dependencies) : (rounds : Nat) → (seen level : List Ref) → List Ref
  | 0, _, _ => []
  | rounds + 1, seen, level =>
    match d.nextLevel seen level with
    | [] => []
    | new => new ++ d.levels rounds (seen ++ new) new

/-- All names that a name reads, directly or not, nearest first. -/
def reads (d : Dependencies) (r : Ref) : List Ref := d.levels d.edges.length [r] [r]

end Dependencies
end AnimatedChart.Dependency

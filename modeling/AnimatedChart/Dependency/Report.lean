import AnimatedChart.Dependency.Graph

/-!
# Reports on dependencies

The error for unresolved references, a summary, and a drawing in the DOT language.
-/

namespace AnimatedChart.Dependency

def Mention.text (m : Mention) : String :=
  match m.owner.filter fun r => !r.name.isEmpty with
  | some r => m.target.text ++ " (referenced by " ++ r.text ++ ")"
  | none => m.target.text ++ " (top level)"

namespace Dependencies

/-- The error that lists unresolved mentions, the first ten of them; nothing when all are resolved. -/
def error? (d : Dependencies) : Option Error :=
  match d.unresolved with
  | [] => none
  | us =>
    let parts := (us.take 10).map Mention.text ++ if us.length > 10 then ["..."] else []
    some (.new .invalidSpec
      (toString us.length ++ " unresolved references: " ++ String.intercalate ", " parts))

def summary (d : Dependencies) : String :=
  String.intercalate ", " ([Kind.data, .signal, .scale, .mark].map fun k =>
    toString (d.nodes.countP fun n => !n.builtin && n.ref.kind == k) ++ " " ++ k.text)

structure Shown where
  marks : Bool := false
  builtins : Bool := false

def Shown.includes (o : Shown) (n : Node) : Bool :=
  (o.marks || n.ref.kind != .mark) && (o.builtins || !n.builtin)

def attributes : Kind → String
  | .data => "shape=cylinder, fillcolor=\"#dbeafe\""
  | .signal => "shape=box, style=\"rounded,filled\", fillcolor=\"#fef3c7\""
  | .scale => "shape=hexagon, fillcolor=\"#dcfce7\""
  | .mark => "shape=box, fillcolor=\"#f3f4f6\""

def nodeLine (indent : String) (n : Node) : String :=
  indent ++ Text.quote n.ref.text ++ " [label=" ++ Text.quote n.ref.name ++ ", "
    ++ attributes n.ref.kind ++ "];\n"

def groupLines (nodes : List Node) (group : String × Nat) : String :=
  let inside := nodes.filter (·.group == group.1)
  if group.1.isEmpty then String.join (inside.map (nodeLine "  "))
  else "  subgraph cluster_" ++ toString group.2 ++ " \x7b\n    label=" ++ Text.quote group.1
    ++ ";\n    style=dashed;\n" ++ String.join (inside.map (nodeLine "    ")) ++ "  \x7d\n"

def dot (d : Dependencies) (o : Shown) : String :=
  let nodes := d.nodes.filter o.includes
  let isShown (r : Ref) : Bool := nodes.any (·.ref == r)
  let edges := d.edges.filter fun e => isShown e.source && isShown e.reader
  "digraph G \x7b\n  rankdir=LR;\n  bgcolor=\"transparent\";\n"
    ++ "  node [style=filled, fontsize=12, fontname=\"Helvetica\"];\n\n"
    ++ String.join (((nodes.map (·.group)).eraseDups.zipIdx).map (groupLines nodes))
    ++ "\n"
    ++ String.join (edges.map fun e => "  " ++ Text.quote e.source.text ++ " -> " ++ Text.quote e.reader.text ++ ";\n")
    ++ "\x7d\n"

end Dependencies
end AnimatedChart.Dependency

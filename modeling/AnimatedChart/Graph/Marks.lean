import AnimatedChart.Graph.Basic

/-!
# Marks of a graph

A mark that is split into series is a group over a facet, and its rows are drawn by the first mark inside the group, its
primary mark.
-/

namespace AnimatedChart

class Named (α : Type) where
  nameOf : α → String

instance : Named Dataset := ⟨Dataset.name⟩
instance : Named Signal := ⟨Signal.name⟩
instance : Named Scale := ⟨Scale.name⟩
instance : Named Mark := ⟨Mark.name⟩

namespace Named

variable {α : Type} [Named α]

def occurs (name : String) (xs : List α) : Bool :=
  !name.isEmpty && xs.any fun x => nameOf x == name

def lasts : List α → List α
  | [] => []
  | x :: xs => if occurs (nameOf x) xs then lasts xs else x :: lasts xs

def merge (acc part : List α) : List α :=
  acc.filter (fun x => !occurs (nameOf x) part) ++ lasts part

end Named

def Graph.merge (acc part : Graph) : Graph where
  data := Named.merge acc.data part.data
  signals := Named.merge acc.signals part.signals
  scales := Named.merge acc.scales part.scales
  marks := Named.merge acc.marks part.marks
  others := Dict.putAll acc.others part.others

open Json

namespace Mark

def isFaceted (m : Mark) : Bool :=
  m.type == "group" && (m.source.bind (·.facet)).isSome

def dataset (m : Mark) : String :=
  match m.source with
  | none => ""
  | some s =>
    match s.facet with
    | some f => f.data
    | none => s.data

def withDataset (name : String) (m : Mark) : Mark :=
  { m with source := some (match m.source with
    | none => { data := name }
    | some s =>
      match s.facet with
      | some f => { s with facet := some { f with data := name } }
      | none => { s with data := name }) }

def primary (m : Mark) : Mark :=
  match m.isFaceted, m.marks with
  | true, first :: _ => first
  | _, _ => m

def mapPrimary (f : Mark → Mark) (m : Mark) : Mark :=
  match m.isFaceted, m.marks with
  | true, first :: rest => { m with marks := f first :: rest }
  | _, _ => f m

def block (m : Mark) (name : String) : Dict Value :=
  ((Dict.get? m.encode name).bind Value.members?).getD []

def withBlock (name : String) (members : Dict Value) (m : Mark) : Mark :=
  { m with encode := Dict.put name (.object members) m.encode }

mutual

def find? (name : String) : Mark → Option Mark
  | m@⟨n, _, _, _, _, _, _, _, marks, _⟩ => if n = name then some m else findIn? name marks

def findIn? (name : String) : List Mark → Option Mark
  | [] => none
  | m :: ms => (find? name m).orElse fun _ => findIn? name ms

end

mutual

def edit? (name : String) (f : Mark → Mark) : Mark → Option Mark
  | m@⟨n, type, source, clip, encode, data, signals, scales, marks, others⟩ =>
    if n = name then some (f m)
    else (editIn? name f marks).map fun marks => ⟨n, type, source, clip, encode, data, signals, scales, marks, others⟩

def editIn? (name : String) (f : Mark → Mark) : List Mark → Option (List Mark)
  | [] => none
  | m :: ms =>
    match edit? name f m with
    | some m => some (m :: ms)
    | none => (editIn? name f ms).map (m :: ·)

end

mutual

def walk (parent : Option Mark) : Mark → List (Mark × Option Mark)
  | m@⟨_, _, _, _, _, _, _, _, marks, _⟩ => (m, parent) :: walkAll (some m) marks

def walkAll (parent : Option Mark) : List Mark → List (Mark × Option Mark)
  | [] => []
  | m :: ms => walk parent m ++ walkAll parent ms

end

end Mark

namespace Graph

def walk (g : Graph) : List (Mark × Option Mark) := Mark.walkAll none g.marks

/-- The name of the mark that draws the unit at a path: its series group if there is one. -/
def unitMarkName? (g : Graph) (path : String) : Option String :=
  if (Mark.findIn? (path ++ "pathgroup") g.marks).isSome then some (path ++ "pathgroup")
  else if (Mark.findIn? (path ++ "marks") g.marks).isSome then some (path ++ "marks")
  else none

def unitMark? (g : Graph) (path : String) : Option Mark :=
  (g.unitMarkName? path).bind (Mark.findIn? · g.marks)

/-- The top-level mark around the unit's mark, with the unit's mark changed, as a part to merge. -/
def editUnitMark (g : Graph) (path : String) (f : Mark → Mark) : Graph :=
  match g.unitMarkName? path with
  | none => {}
  | some name =>
    match g.marks.findSome? (Mark.edit? name f) with
    | none => {}
    | some m => { marks := [m] }

end Graph
end AnimatedChart

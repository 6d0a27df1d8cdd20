import AnimatedChart.Animation.Bridge

/-!
# Keyframe datasets

The mark of an animated unit draws from datasets derived of its base dataset: the rows of the current
keyframe and those of the next one and, where rows are matched by a key, the matched rows. With the key `k`
and the prefix `P`:

* `P_curr` and `P_next` hold the rows of the two keyframes,
* `P_eq` is `P_curr` with the row of the same key in `P_next` attached,
* `P_eq_next` has the rows of `P_next` with a match in `P_curr`,
* `P_interpolate` has the rows of `P_eq` that have a match; the mark draws these,
* `P_continuity` has all keyed rows in time order, for selections that span keyframes.
-/

namespace AnimatedChart.Animation

open Json Spec

/-- The graph being extended for a scope. -/
structure Stage where
  scope : Scope
  graph : Graph
  /-- The dataset of the scope's first mark. -/
  data : String
  /-- The filter that each prefix of derived datasets was made for. -/
  prefixes : Dict String := []
deriving Inhabited

def Stage.merge (st : Stage) (part : Graph) : Stage := { st with graph := st.graph.merge part }

/-- The keyframe datasets of a mark. -/
structure Binding where
  /-- The dataset that the mark draws in the base graph. -/
  source : String
  /-- What the names of the derived datasets start with. -/
  stem : String
  key : Option String
  /-- A comparison spans more than one keyframe, so that the mark follows a curve through all of them. -/
  spans : Bool
deriving Inhabited

namespace Binding

def curr (b : Binding) : String := b.stem ++ "_curr"

def next (b : Binding) : String := b.stem ++ "_next"

def eq (b : Binding) : String := b.stem ++ "_eq"

def eqNext (b : Binding) : String := b.stem ++ "_eq_next"

def interpolated (b : Binding) : String := b.stem ++ "_interpolate"

def continuity (b : Binding) : String := b.stem ++ "_continuity"

def target (b : Binding) : String := if b.key.isSome then b.interpolated else b.curr

end Binding

/-- The comparisons that a unit's rows must pass: those of the selections that it filters on. -/
def unitComparisons (s : Scope) (u : ScopedUnit) : List FieldPredicate :=
  let ps := (s.filtersOf u).flatMap fun name => ((s.selections.find? (·.name == name)).map (comparisons s)).getD []
  if ps.isEmpty then [{ field := s.field, equal := .bool true }] else ps

def comparisonExpr (s : Scope) (keyframe : String) (p : FieldPredicate) : String :=
  let f := access "datum" p.field
  match p.tupleType with
  | "E-LT" => f ++ " < " ++ keyframe
  | "E-GT" => f ++ " > " ++ keyframe
  | "E-LTE" => f ++ " <= " ++ keyframe
  | "E-GTE" => f ++ " >= " ++ keyframe
  | "R" => call "inrange" [f, listExpr [s.minExtent, keyframe]]
  | "E-VALID" => call "isValid" [f]
  | _ => f ++ " == " ++ keyframe

def keyframeFilter (s : Scope) (ps : List FieldPredicate) (keyframe : String) : String :=
  String.intercalate " && " (ps.map (comparisonExpr s keyframe))

def spansKeyframes (p : FieldPredicate) : Bool :=
  ["E-LT", "E-GT", "E-LTE", "E-GTE", "R"].contains p.tupleType

/-- What the names of datasets derived of a source start with, and whether they are new. -/
def Stage.stemFor (st : Stage) (source filter : String) (i : Nat) : String × Bool × Stage :=
  let suffix := st.scope.id.suffix
  let base := source ++ suffix
  match Dict.get? st.prefixes base with
  | none => (base, true, { st with prefixes := Dict.put base filter st.prefixes })
  | some f =>
    if f = filter then (base, false, st)
    else
      let alt := s!"{source}_{i}{suffix}"
      if Dict.has st.prefixes alt then (alt, false, st)
      else (alt, true, { st with prefixes := Dict.put alt filter st.prefixes })

/-- A transform whose results depend on the other rows, so that every keyframe needs it for itself. -/
def isLayout (t : Value) : Bool :=
  match (t.member? "type").bind Value.text? with
  | some kind => ["stack", "window", "joinaggregate", "impute", "pie"].contains kind
  | none => false

def layoutOf (g : Graph) (source : String) : List Value :=
  ((g.dataset? source).map fun d => d.transform.filter isLayout).getD []

def lookup (data key attach : String) : Value :=
  .ofPairs [("type", .string "lookup"), ("from", .string data), ("key", .string key),
    ("fields", .array [.string key]), ("as", .array [.string attach])]

def derived (st : Stage) (b : Binding) (ps : List FieldPredicate) : List Dataset :=
  let s := st.scope
  let layout := layoutOf st.graph b.source
  let keyframe (name signal : String) : Dataset := {
    name
    source := .string b.source
    transform := filterBy (keyframeFilter s ps signal) :: layout }
  [keyframe b.curr s.current, keyframe b.next s.next]
  ++ match b.key with
    | none => []
    | some key =>
      [{ name := b.eq, source := .string b.curr, transform := [lookup b.next key "next"] },
       { name := b.eqNext
         source := .string b.next
         transform := [lookup b.curr key "prev", filterBy "isValid(datum.prev)"] },
       { name := b.interpolated, source := .string b.eq, transform := [filterBy "isValid(datum.next)"] }]
      ++ if b.spans then
        [{ name := b.continuity
           source := .string b.source
           transform := [
             filterBy (call "isValid" [access "datum" key]),
             .ofPairs [("type", .string "collect"), ("sort", .ofPairs [("field", .string s.field)])]] }]
      else []

def noMark (path : String) : Error :=
  .new .baseCompiler ("base graph has no mark for " ++ Text.quote (path ++ "marks"))

/-- Binds the mark of a unit, given with its index, to keyframe datasets. -/
def bindKeyframes (st : Stage) (i : Nat) (u : ScopedUnit) : Except Error (Option (Stage × Binding)) :=
  match st.graph.unitMark? u.path with
  | none => .error (noMark u.path)
  | some m =>
    if m.dataset.isEmpty then .ok none
    else
      let s := st.scope
      let ps := unitComparisons s u
      let (stem, fresh, st) := st.stemFor m.dataset (keyframeFilter s ps s.current) i
      let key := s.time.keyField?
      let b : Binding := { source := m.dataset, stem, key, spans := key.isSome && ps.any spansKeyframes }
      let st := if fresh then st.merge { data := derived st b ps } else st
      .ok (some (st.merge (st.graph.editUnitMark u.path (Mark.withDataset b.target)), b))

end AnimatedChart.Animation

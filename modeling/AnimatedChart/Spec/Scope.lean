import AnimatedChart.Spec.Basic

/-!
# Scopes

A scope is a part of a chart with its own clock: one time encoding, the animation selections declared in it and the
marked units that it animates.
-/

namespace AnimatedChart.Spec

/-- The path to a scope. -/
structure ScopeId where
  path : String
deriving Repr, Inhabited, DecidableEq

namespace ScopeId

def root : ScopeId := ⟨""⟩

def isRoot (id : ScopeId) : Bool := id.path.isEmpty

def child (id : ScopeId) (kind : String) (i : Int) : ScopeId :=
  let name := kind ++ "_" ++ toString i
  if id.isRoot then ⟨name⟩ else ⟨id.path ++ "_" ++ name⟩

def suffix (id : ScopeId) : String :=
  if id.isRoot then "" else "_" ++ id.path

def name (id : ScopeId) (base : String) : String := base ++ id.suffix

def layerId (id : ScopeId) : String :=
  if id.isRoot then "0" else id.path

def defaultSelection (id : ScopeId) : String := "current_frame_" ++ id.layerId

def isPlaying (id : ScopeId) : String := id.name "is_playing"

end ScopeId

open Json

/-- What a unit takes over from the views around it. -/
structure Inherited where
  data : Option Fragment := none
  projection : Option Fragment := none
  transforms : List Transform := []
deriving Inhabited

def Inherited.within (i : Inherited) (others : Dict Fragment) (transforms : List Transform) : Inherited where
  data := (Dict.get? others "data").orElse fun _ => i.data
  projection := (Dict.get? others "projection").orElse fun _ => i.projection
  transforms := i.transforms ++ transforms

/-- A marked unit with what it takes over. -/
structure ScopedUnit where
  unit : Unit
  /-- What the names of its marks start with. -/
  path : String
  data : Option Fragment
  projection : Option Fragment
  transforms : List Transform
deriving Inhabited

def ScopedUnit.below (u : Unit) (path : String) (i : Inherited) : ScopedUnit :=
  let i := i.within u.others u.transforms
  { unit := u, path, data := i.data, projection := i.projection, transforms := i.transforms }

/-- A part of a chart with its own clock. -/
structure Scope where
  id : ScopeId
  time : TimeEncoding
  selections : List Selection
  units : List ScopedUnit
deriving Inhabited

namespace Scope

def driver? (s : Scope) : Option Selection := s.selections.head?

/-- The scope's selections that a unit filters on, in the order of its filters. -/
def filtersOf (s : Scope) (u : ScopedUnit) : List String :=
  (u.transforms.map Transform.param).filter fun p => !p.isEmpty && s.selections.any (·.name == p)

def ofUnit (id : ScopeId) (time : TimeEncoding) (u : Unit) (path : String) (i : Inherited) : Scope where
  id := id
  time := time
  selections := u.selections
  units := [.below u path i]

end Scope

def childPath (path : String) (i : Nat) : String := s!"{path}layer_{i}_"

mutual

/-- The selections declared in a view below a layer that owns its time encoding, and its marked units. -/
def View.collect (path : String) (inh : Inherited) : View → List Selection × List ScopedUnit
  | .unit u => (u.selections, if u.hasMark then [.below u path inh] else [])
  | .layer l children =>
    let r := View.collectAll path (inh.within l.others l.transforms) 0 children
    (l.selections ++ r.1, r.2)

def View.collectAll (path : String) (inh : Inherited) : Nat → List View → List Selection × List ScopedUnit
  | _, [] => ([], [])
  | i, v :: vs =>
    let a := v.collect (childPath path i) inh
    let b := View.collectAll path inh (i + 1) vs
    (a.1 ++ b.1, a.2 ++ b.2)

end

mutual

def View.scopes (id : ScopeId) (path : String) (inh : Inherited) : View → List Scope
  | .unit u =>
    match u.time with
    | some t => if u.hasMark then [.ofUnit id t u path inh] else []
    | none => []
  | .layer l children =>
    let below := inh.within l.others l.transforms
    match l.time with
    | some t =>
      let r := View.collectAll path below 0 children
      [{ id, time := t, selections := l.selections ++ r.1, units := r.2 }]
    | none => View.scopesAll id path below 0 children

def View.scopesAll (id : ScopeId) (path : String) (inh : Inherited) : Nat → List View → List Scope
  | _, [] => []
  | i, v :: vs => v.scopes (id.child "layer" i) (childPath path i) inh ++ View.scopesAll id path inh (i + 1) vs

end

def Chart.scopes : Chart → List Scope
  | .view v => v.scopes .root "" {}
  | .vconcat us others =>
    let inh := ({} : Inherited).within others []
    ((us.getD []).mapIdx fun i u =>
      let id := ScopeId.root.child "concat" i
      View.scopes id (id.path ++ "_") inh (.unit u)).flatten

end AnimatedChart.Spec

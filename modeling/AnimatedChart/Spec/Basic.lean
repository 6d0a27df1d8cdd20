import AnimatedChart.Json.Parser
import AnimatedChart.Json.Printer
import AnimatedChart.Spec.Selection
import AnimatedChart.Spec.Time

/-!
# Animated charts

A chart is a tree of views. A `Unit` draws one mark, a layer draws its children on top of each other and may share an
encoding, parameters and transforms with them, and a vertical concatenation stacks units that are animated
independently.
-/

namespace AnimatedChart.Spec

open Json

structure Encoding where
  channels : Dict Fragment := []
  time : Option TimeEncoding := none
deriving Repr, Inhabited, BEq

/-- The part of a channel definition that elaboration looks at. -/
structure ChannelDef where
  field : String := ""
  type : String := ""
deriving Repr, Inhabited, BEq, DecidableEq

namespace Encoding

def read (f : Fragment) : Except Error Encoding := do
  let ms ← Reader.membersOf f
  let time ← match Dict.get? ms "time" with
    | none => pure none
    | some .null => pure none
    | some raw => (TimeEncoding.read raw).map some
  return { channels := Dict.remove ms "time", time }

def toFragment (e : Encoding) : Fragment :=
  .record (match e.time with
    | none => e.channels
    | some t => Dict.put "time" t.toFragment e.channels)

def channel? (e : Encoding) (name : String) : Option ChannelDef :=
  (Dict.get? e.channels name).map fun raw =>
    match (Reader.record [
      ("field", fun f (r : Value × String) => do return (← Reader.any f r.1, r.2)),
      ("type", fun f (r : Value × String) => do return (r.1, ← Reader.text f r.2))]).run
        raw (.null, "") with
    | .ok (field, type) => ⟨field.text?.getD "", type⟩
    | .error _ => {}

end Encoding

/-- An entry of a view's transforms, as it is written. -/
structure Transform where
  raw : Fragment
deriving Repr, Inhabited, BEq

namespace Transform

def param (t : Transform) : String :=
  match (Reader.record [("filter", Reader.fragment)]).run t.raw none with
  | .ok (some filter) =>
    match (Reader.record [("param", Reader.text)]).run filter "" with
    | .ok name => name
    | .error _ => ""
  | _ => ""

def ofParam (name : String) : Transform :=
  ⟨.record [("filter", .record [("param", .htmlText name)])]⟩

end Transform

/-- A single mark with its encoding. -/
structure Unit where
  mark : Option Fragment := none
  encoding : Option Encoding := none
  params : List Param := []
  transforms : List Transform := []
  /-- How rows look before they come in. -/
  enter : Option Encoding := none
  /-- How rows look after they have gone. -/
  exit : Option Encoding := none
  others : Dict Fragment := []
deriving Repr, Inhabited, BEq

structure Layer where
  encoding : Option Encoding := none
  params : List Param := []
  transforms : List Transform := []
  others : Dict Fragment := []
deriving Repr, Inhabited, BEq

inductive View where
  | unit (u : Unit)
  | layer (l : Layer) (children : List View)
deriving Repr, Inhabited, BEq

inductive Chart where
  | view (v : View)
  /-- Units stacked vertically; the list may be absent. -/
  | vconcat (units : Option (List Unit)) (others : Dict Fragment)
deriving Repr, Inhabited, BEq

namespace Unit

def hasMark (u : Unit) : Bool := u.mark.isSome

def markType (u : Unit) : String :=
  match u.mark with
  | none => ""
  | some raw =>
    match Reader.text.run raw "" with
    | .ok name => name
    | .error _ =>
      match (Reader.record [("type", Reader.text)]).run raw "" with
      | .ok type => type
      | .error _ => ""

def time (u : Unit) : Option TimeEncoding := u.encoding.bind (·.time)

def selections (u : Unit) : List Selection := Spec.selections u.params

@[simp] def layout : List (Json.Field Unit) := [
  ⟨"mark", (·.mark), fun b u => { u with mark := b }, .fragment⟩,
  ⟨"encoding", (·.encoding), fun b u => { u with encoding := b }, .optional {} (.settled Encoding.read)⟩,
  ⟨"params", (·.params), fun b u => { u with params := b }, .list default (.settled Param.read)⟩,
  ⟨"transform", (·.transforms), fun b u => { u with transforms := b }, .list default (.settled fun f => .ok ⟨f⟩)⟩,
  ⟨"enter", (·.enter), fun b u => { u with enter := b }, .optional {} (.settled Encoding.read)⟩,
  ⟨"exit", (·.exit), fun b u => { u with exit := b }, .optional {} (.settled Encoding.read)⟩]

def reader : Reader Unit := .fields layout

def names : List String := ["mark", "encoding", "params", "transform", "enter", "exit"]

def read : Fragment → Except Error Unit := readEntry reader {} names fun u others => { u with others }

def written (u : Unit) : List (String × Option Fragment) := [
  ("mark", u.mark),
  ("encoding", u.encoding.map Encoding.toFragment),
  ("params", if u.params.isEmpty then none else some (.list (u.params.map Param.toFragment))),
  ("transform", if u.transforms.isEmpty then none else some (.list (u.transforms.map Transform.raw))),
  ("enter", u.enter.map Encoding.toFragment),
  ("exit", u.exit.map Encoding.toFragment)]

def toFragment (u : Unit) : Fragment := .recordWith u.written u.others

end Unit

namespace Layer

def time (l : Layer) : Option TimeEncoding := l.encoding.bind (·.time)

def selections (l : Layer) : List Selection := Spec.selections l.params

@[simp] def layout : List (Json.Field Layer) := [
  ⟨"encoding", (·.encoding), fun b l => { l with encoding := b }, .optional {} (.settled Encoding.read)⟩,
  ⟨"params", (·.params), fun b l => { l with params := b }, .list default (.settled Param.read)⟩,
  ⟨"transform", (·.transforms), fun b l => { l with transforms := b }, .list default (.settled fun f => .ok ⟨f⟩)⟩]

def names : List String := ["layer", "encoding", "params", "transform"]

def read : Fragment → Except Error Layer := readEntry (.fields layout) {} names fun l others => { l with others }

def written (l : Layer) (children : List Fragment) : List (String × Option Fragment) := [
  ("encoding", l.encoding.map Encoding.toFragment),
  ("params", if l.params.isEmpty then none else some (.list (l.params.map Param.toFragment))),
  ("transform", if l.transforms.isEmpty then none else some (.list (l.transforms.map Transform.raw))),
  ("layer", some (.list children))]

def fragment (l : Layer) (children : List Fragment) : Fragment :=
  .record (Dict.putAll l.others ((l.written children).filterMap fun m => m.2.map (m.1, ·)))

def childrenAmong : List (String × Fragment) → List Fragment → Except Error (List Fragment)
  | [], cs => .ok cs
  | (k, v) :: rest, cs =>
    if Reader.foldName (Fragment.unescape k) = Reader.foldName "layer" then
      match v with
      | .array items _ => childrenAmong rest items
      | .null => childrenAmong rest []
      | _ => .error (.outside .json)
    else childrenAmong rest cs

def children : Fragment → Except Error (List Fragment)
  | .object ms _ => childrenAmong ms []
  | _ => .ok []

theorem sizeOf_childrenAmong (n : Nat) : ∀ (ms : List (String × Fragment)) (cs out : List Fragment),
    childrenAmong ms cs = .ok out → sizeOf cs < n + sizeOf ms → sizeOf out < n + sizeOf ms
  | [], cs, out, h, hn => by
    simp only [childrenAmong, Except.ok.injEq] at h
    simpa [h] using hn
  | (k, v) :: rest, cs, out, h, hn => by
    simp only [childrenAmong] at h
    simp only [List.cons.sizeOf_spec, Prod.mk.sizeOf_spec] at hn ⊢
    split at h
    · split at h
      · next items blanks =>
        have hi : sizeOf items < (n + 1 + sizeOf k + sizeOf (Fragment.array items blanks) + 1) + sizeOf rest := by
          simp only [Fragment.array.sizeOf_spec]
          omega
        have := sizeOf_childrenAmong _ rest items out h hi
        omega
      · have hi : sizeOf ([] : List Fragment)
            < (n + 1 + sizeOf k + sizeOf Fragment.null + 1) + sizeOf rest := by
          simp only [List.nil.sizeOf_spec]
          omega
        have := sizeOf_childrenAmong _ rest [] out h hi
        omega
      · simp at h
    · have := sizeOf_childrenAmong (n + 1 + (1 + sizeOf k + sizeOf v)) rest cs out h (by omega)
      omega

theorem sizeOf_children {f : Fragment} {out : List Fragment} (h : children f = .ok out) :
    sizeOf out < sizeOf f + 1 := by
  unfold children at h
  split at h
  · next ms blanks =>
    have h0 : sizeOf ([] : List Fragment) < 2 + sizeOf ms := by
      simp only [List.nil.sizeOf_spec]
      omega
    have := sizeOf_childrenAmong 2 ms [] out h h0
    simp only [Fragment.object.sizeOf_spec]
    have hb : 0 < sizeOf blanks := by cases blanks <;> simp only [List.nil.sizeOf_spec, List.cons.sizeOf_spec] <;> omega
    omega
  · obtain rfl := Except.ok.inj h
    have hf : 0 < sizeOf f := by
      cases f <;> simp only [Fragment.null.sizeOf_spec, Fragment.bool.sizeOf_spec, Fragment.number.sizeOf_spec,
        Fragment.string.sizeOf_spec, Fragment.array.sizeOf_spec, Fragment.object.sizeOf_spec] <;> omega
    simp only [List.nil.sizeOf_spec]
    omega

end Layer

namespace Chart

/-- What a unit inside a concatenation must not be, in the order in which it is looked for. -/
def compositions : List String := ["layer", "vconcat", "hconcat", "concat", "facet", "repeat"]

def checkUnits : Nat → List (Option Unit) → Except Error (List Unit)
  | _, [] => .ok []
  | i, none :: _ => .error (.plain s!"vconcat[{i}]: null view")
  | i, some u :: rest =>
    match compositions.find? (Dict.has u.others) with
    | some k => .error (.plain s!"vconcat[{i}]: {k} views cannot be animated inside vconcat")
    | none => (checkUnits (i + 1) rest).map (u :: ·)

def unitList : Reader (Option (List (Option Unit))) := .list? none (.optional {} (.settled Unit.read))

def readConcat (f : Fragment) : Except Error Chart := do
  let us ← (Reader.record [("vconcat", unitList)]).run f none
  let others ← Reader.othersOf f ["vconcat"]
  match us with
  | none => return vconcat none others
  | some us => return vconcat (some (← checkUnits 0 us)) others

mutual

/-- Reads a chart. Its members decide the kind: a layer, a concatenation, or else a unit. -/
def ofFragment (f : Fragment) : Except Error Chart := do
  let ms ← Reader.membersOf f
  if Dict.has ms "layer" then
    let l ← Layer.read f
    match _h : Layer.children f with
    | .error e => throw e
    | .ok cs =>
      let views ← readChildren 0 cs
      return view (.layer l views)
  else if Dict.has ms "vconcat" then readConcat f
  else return view (.unit (← Unit.read f))
termination_by 2 * sizeOf f + 1
decreasing_by
  have := Layer.sizeOf_children _h
  omega

/-- Reads the children of a layer, from the given index on. -/
def readChildren (i : Nat) : List Fragment → Except Error (List View)
  | [] => .ok []
  | c :: cs =>
    match ofFragment c with
    | .error e => .error (.within s!"layer[{i}]" e)
    | .ok (vconcat _ _) => .error (.plain s!"layer[{i}]: vconcat cannot be layered")
    | .ok (view v) => (readChildren (i + 1) cs).map (v :: ·)
termination_by cs => 2 * sizeOf cs

end

def parse (doc : String) : Except Error Chart :=
  let read : Except Error Chart :=
    match Fragment.parse? doc with
    | none => .error (.outside .json)
    | some f => ofFragment f
  read.mapError (.wrap .invalidSpec "parse animation spec")

end Chart

mutual

def View.toFragment : View → Fragment
  | .unit u => u.toFragment
  | .layer l children => l.fragment (View.toFragments children)

def View.toFragments : List View → List Fragment
  | [] => []
  | v :: vs => v.toFragment :: View.toFragments vs

end

def Chart.concatWritten (us : Option (List Unit)) : List (String × Option Fragment) :=
  [("vconcat", some (match us with
    | none => .null
    | some us => .list (us.map Unit.toFragment)))]

def Chart.toFragment : Chart → Fragment
  | .view v => v.toFragment
  | .vconcat us others => .recordWith (concatWritten us) others

def Chart.render (c : Chart) : String := c.toFragment.pretty

def Chart.encode (c : Chart) : Except Error String :=
  if c.toFragment.isShallow then .ok c.render else .error (.outside .json)

mutual

def View.units : View → List Unit
  | .unit u => [u]
  | .layer _ children => View.unitsOf children

def View.unitsOf : List View → List Unit
  | [] => []
  | v :: vs => v.units ++ View.unitsOf vs

end

def Chart.units : Chart → List Unit
  | .view v => v.units
  | .vconcat us _ => us.getD []

end AnimatedChart.Spec

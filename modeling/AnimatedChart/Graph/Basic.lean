import AnimatedChart.Json.Parser
import AnimatedChart.Json.Printer
import AnimatedChart.Json.Reading

/-!
# Dataflow graphs

A graph has datasets, signals, scales and marks, each with a name, and further properties that are kept as they are
written.
-/

namespace AnimatedChart

open Json

/-- A dataset, by its values, by its source, or by properties that this library does not look at. -/
structure Dataset where
  name : String := ""
  source : Value := .null
  values : Value := .null
  /-- Each an object, or null. -/
  transform : List Value := []
  others : Dict Fragment := []
deriving Repr, Inhabited, BEq

structure Handler where
  events : Value := .null
  update : String := ""
  force : Bool := false
  others : Dict Fragment := []
deriving Repr, Inhabited, BEq

structure Signal where
  name : String := ""
  value : Value := .null
  init : String := ""
  update : String := ""
  on : List Handler := []
  bind : Value := .null
  others : Dict Fragment := []
deriving Repr, Inhabited, BEq

structure Scale where
  name : String := ""
  type : String := ""
  domain : Value := .null
  domainRaw : Value := .null
  range : Value := .null
  zero : Option Bool := none
  align : Option Float := none
  others : Dict Fragment := []
deriving Repr, Inhabited, BEq

structure Facet where
  name : String := ""
  data : String := ""
  groupby : Value := .null
  others : Dict Fragment := []
deriving Repr, Inhabited, BEq

structure MarkSource where
  data : String := ""
  facet : Option Facet := none
deriving Repr, Inhabited, BEq

structure Mark where
  name : String
  type : String
  source : Option MarkSource
  clip : Value
  /-- Encode blocks by name, each an object or null. -/
  encode : Dict Value
  data : List Dataset
  signals : List Signal
  scales : List Scale
  marks : List Mark
  others : Dict Fragment
deriving Repr, Inhabited, BEq

def Mark.ofType (name type : String) : Mark :=
  ⟨name, type, none, .null, [], [], [], [], [], []⟩

structure Graph where
  data : List Dataset := []
  signals : List Signal := []
  scales : List Scale := []
  marks : List Mark := []
  others : Dict Fragment := []
deriving Repr, Inhabited, BEq

/-! ## Reading -/

def Json.Reader.object : Reader Value
  | .null, _ => pure .null
  | .object ms _, old => do
    let d ← Reader.entries .null .any ms (old.members?.getD [])
    pure (.object d)
  | _, old => .skipped old

namespace Dataset

@[simp] def layout : List (Json.Field (Dataset × Reader.Slots Value)) := [
  .first _ ⟨"name", (·.name), fun b d => { d with name := b }, .text⟩,
  .first _ ⟨"source", (·.source), fun b d => { d with source := b }, .any⟩,
  .first _ ⟨"values", (·.values), fun b d => { d with values := b }, .any⟩,
  ⟨"transform", (·.2), fun b d => (d.1, b), .slots .null .object⟩]

def reader : Reader (Dataset × Reader.Slots Value) := .fields layout

def names : List String := ["name", "source", "values", "transform"]

def read : Fragment → Except Error Dataset :=
  readEntry reader ({}, {}) names fun r others => { r.1 with transform := r.2.toList, others }

def toFragment (d : Dataset) : Fragment :=
  .recordWith [
    ("name", some (.text d.name)),
    ("source", if d.source.isSome then some d.source.toFragment else none),
    ("values", if d.values.isSome then some d.values.toFragment else none),
    ("transform", if d.transform.isEmpty then none else some (.list (Value.toItems d.transform)))] d.others

end Dataset

namespace Handler

@[simp] def layout : List (Json.Field Handler) := [
  ⟨"events", (·.events), fun b h => { h with events := b }, .any⟩,
  ⟨"update", (·.update), fun b h => { h with update := b }, .text⟩,
  ⟨"force", (·.force), fun b h => { h with force := b }, .flag⟩]

def reader : Reader Handler := .fields layout

def names : List String := ["events", "update", "force"]

def read : Fragment → Except Error Handler := readEntry reader {} names fun h others => { h with others }

def toFragment (h : Handler) : Fragment :=
  .recordWith [
    ("events", some h.events.toFragment),
    ("update", if h.update.isEmpty then none else some (.text h.update)),
    ("force", if h.force then some (.bool true) else none)] h.others

end Handler

namespace Signal

@[simp] def layout : List (Json.Field Signal) := [
  ⟨"name", (·.name), fun b s => { s with name := b }, .text⟩,
  ⟨"value", (·.value), fun b s => { s with value := b }, .any⟩,
  ⟨"init", (·.init), fun b s => { s with init := b }, .text⟩,
  ⟨"update", (·.update), fun b s => { s with update := b }, .text⟩,
  ⟨"on", (·.on), fun b s => { s with on := b }, .list {} (.settled Handler.read)⟩,
  ⟨"bind", (·.bind), fun b s => { s with bind := b }, .any⟩]

def reader : Reader Signal := .fields layout

def names : List String := ["name", "value", "init", "update", "on", "bind"]

def read : Fragment → Except Error Signal := readEntry reader {} names fun s others => { s with others }

def toFragment (s : Signal) : Fragment :=
  .recordWith [
    ("name", some (.text s.name)),
    ("value", if s.value.isSome then some s.value.toFragment else none),
    ("init", if s.init.isEmpty then none else some (.text s.init)),
    ("update", if s.update.isEmpty then none else some (.text s.update)),
    ("on", if s.on.isEmpty then none else some (.list (s.on.map Handler.toFragment))),
    ("bind", if s.bind.isSome then some s.bind.toFragment else none)] s.others

end Signal

namespace Scale

@[simp] def layout : List (Json.Field Scale) := [
  ⟨"name", (·.name), fun b s => { s with name := b }, .text⟩,
  ⟨"type", (·.type), fun b s => { s with type := b }, .text⟩,
  ⟨"domain", (·.domain), fun b s => { s with domain := b }, .any⟩,
  ⟨"domainRaw", (·.domainRaw), fun b s => { s with domainRaw := b }, .any⟩,
  ⟨"range", (·.range), fun b s => { s with range := b }, .any⟩,
  ⟨"zero", (·.zero), fun b s => { s with zero := b }, .optional false .flag⟩,
  ⟨"align", (·.align), fun b s => { s with align := b }, .optional 0 .number⟩]

def reader : Reader Scale := .fields layout

def names : List String := ["name", "type", "domain", "domainRaw", "range", "zero", "align"]

def read : Fragment → Except Error Scale := readEntry reader {} names fun s others => { s with others }

def toFragment (s : Scale) : Fragment :=
  .recordWith [
    ("name", some (.text s.name)),
    ("type", if s.type.isEmpty then none else some (.text s.type)),
    ("domain", if s.domain.isSome then some s.domain.toFragment else none),
    ("domainRaw", if s.domainRaw.isSome then some s.domainRaw.toFragment else none),
    ("range", if s.range.isSome then some s.range.toFragment else none),
    ("zero", s.zero.map .bool),
    ("align", s.align.map Value.literal)] s.others

end Scale

namespace Facet

@[simp] def layout : List (Json.Field Facet) := [
  ⟨"name", (·.name), fun b c => { c with name := b }, .text⟩,
  ⟨"data", (·.data), fun b c => { c with data := b }, .text⟩,
  ⟨"groupby", (·.groupby), fun b c => { c with groupby := b }, .any⟩]

def reader : Reader Facet := .fields layout

def names : List String := ["name", "data", "groupby"]

def read : Fragment → Except Error Facet := readEntry reader {} names fun c others => { c with others }

def toFragment (c : Facet) : Fragment :=
  .recordWith [
    ("name", some (.text c.name)),
    ("data", some (.text c.data)),
    ("groupby", if c.groupby.isSome then some c.groupby.toFragment else none)] c.others

end Facet

namespace MarkSource

@[simp] def layout : List (Json.Field MarkSource) := [
  ⟨"data", (·.data), fun b s => { s with data := b }, .text⟩,
  ⟨"facet", (·.facet), fun b s => { s with facet := b }, .optional {} (.settled Facet.read)⟩]

def reader : Reader MarkSource := .fields layout

def toFragment (s : MarkSource) : Fragment :=
  .recordOf [
    ("data", if s.data.isEmpty then none else some (.text s.data)),
    ("facet", s.facet.map Facet.toFragment)]

end MarkSource

namespace Mark

def fieldNames : List String :=
  ["name", "type", "from", "clip", "encode", "data", "signals", "scales", "marks"]

def blocks : Reader (Dict Value) := fun f d => do return (← Reader.dict? .null .object f (some d)).getD []

@[simp] def layout (nested : Fragment → Except Error Mark) : List (Json.Field Mark) := [
  ⟨"name", (·.name), fun b m => { m with name := b }, .text⟩,
  ⟨"type", (·.type), fun b m => { m with type := b }, .text⟩,
  ⟨"from", (·.source), fun b m => { m with source := b }, .optional {} MarkSource.reader⟩,
  ⟨"clip", (·.clip), fun b m => { m with clip := b }, .any⟩,
  ⟨"encode", (·.encode), fun b m => { m with encode := b }, blocks⟩,
  ⟨"data", (·.data), fun b m => { m with data := b }, .list {} (.settled Dataset.read)⟩,
  ⟨"signals", (·.signals), fun b m => { m with signals := b }, .list {} (.settled Signal.read)⟩,
  ⟨"scales", (·.scales), fun b m => { m with scales := b }, .list {} (.settled Scale.read)⟩,
  ⟨"marks", (·.marks), fun b m => { m with marks := b }, .list default (.settled nested)⟩]

def readNested : (depth : Nat) → Fragment → Except Error Mark
  -- Only a value without members is this shallow.
  | 0 => readEntry (.record []) (ofType "" "") fieldNames fun m others => { m with others }
  | depth + 1 =>
    readEntry (.fields (layout (readNested depth))) (ofType "" "") fieldNames fun m others => { m with others }

def read (f : Fragment) : Except Error Mark := readNested f.depth f

mutual

def toFragment : Mark → Fragment
  | ⟨name, type, source, clip, encode, data, signals, scales, marks, others⟩ =>
    .recordWith [
      ("name", if name.isEmpty then none else some (.text name)),
      ("type", some (.text type)),
      ("from", source.map MarkSource.toFragment),
      ("clip", if clip.isSome then some clip.toFragment else none),
      ("encode", if encode.isEmpty then none else some (.record (Value.toMembers encode))),
      ("data", if data.isEmpty then none else some (.list (data.map Dataset.toFragment))),
      ("signals", if signals.isEmpty then none else some (.list (signals.map Signal.toFragment))),
      ("scales", if scales.isEmpty then none else some (.list (scales.map Scale.toFragment))),
      ("marks", if marks.isEmpty then none else some (.list (toFragments marks)))] others

def toFragments : List Mark → List Fragment
  | [] => []
  | m :: ms => m.toFragment :: toFragments ms

end

end Mark

namespace Graph

@[simp] def layout : List (Json.Field Graph) := [
  ⟨"data", (·.data), fun b g => { g with data := b }, .list {} (.settled Dataset.read)⟩,
  ⟨"signals", (·.signals), fun b g => { g with signals := b }, .list {} (.settled Signal.read)⟩,
  ⟨"scales", (·.scales), fun b g => { g with scales := b }, .list {} (.settled Scale.read)⟩,
  ⟨"marks", (·.marks), fun b g => { g with marks := b }, .list default (.settled Mark.read)⟩]

def reader : Reader Graph := .fields layout

def names : List String := ["data", "signals", "scales", "marks"]

def read : Fragment → Except Error Graph := readEntry reader {} names fun g others => { g with others }

def toFragment (g : Graph) : Fragment :=
  .recordWith [
    ("data", if g.data.isEmpty then none else some (.list (g.data.map Dataset.toFragment))),
    ("signals", if g.signals.isEmpty then none else some (.list (g.signals.map Signal.toFragment))),
    ("scales", if g.scales.isEmpty then none else some (.list (g.scales.map Scale.toFragment))),
    ("marks", if g.marks.isEmpty then none else some (.list (Mark.toFragments g.marks)))] g.others

def render (g : Graph) : String := g.toFragment.pretty

def encode (g : Graph) : Except Error String :=
  if g.toFragment.isFinite && g.toFragment.isShallow then .ok g.render
  else .error (.within "encode" (.outside .json))

def parse (s : String) : Except Error Graph :=
  let read : Except Error Graph :=
    match Fragment.parseFirst? s with
    | none => .error (.outside .json)
    | some f => Graph.read f
  read.mapError (.within "decode")

def isEmpty (g : Graph) : Bool :=
  g.data.isEmpty && g.signals.isEmpty && g.scales.isEmpty && g.marks.isEmpty

def dataset? (g : Graph) (name : String) : Option Dataset := g.data.find? (·.name == name)

def signal? (g : Graph) (name : String) : Option Signal := g.signals.find? (·.name == name)

def scale? (g : Graph) (name : String) : Option Scale := g.scales.find? (·.name == name)

def mark? (g : Graph) (name : String) : Option Mark := g.marks.find? (·.name == name)

end Graph
end AnimatedChart

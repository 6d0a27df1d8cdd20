import AnimatedChart.Toml.Reader

/-!
# TOML documents

The statements of a document make one tree of tables. A key may be given once, except that a list may be replaced.
-/

namespace AnimatedChart.Toml

inductive Node where
  | leaf (v : Value)
  | table (entries : List (String × Node))
  | tables (items : List (List (String × Node)))
deriving Inhabited

abbrev Entries := List (String × Node)

def Entries.get? (es : Entries) (k : String) : Option Node := (es.find? (·.1 == k)).map (·.2)

def Entries.put (es : Entries) (k : String) (n : Node) : Entries :=
  if es.any (·.1 == k) then es.map fun e => if e.1 == k then (k, n) else e else es ++ [(k, n)]

/-- Changes the table at a path; of tables started one after the other the last one counts. -/
def Entries.alter (f : Entries → Option Entries) : Key → Entries → Option Entries
  | [], es => f es
  | k :: ks, es =>
    match es.get? k with
    | some (.table sub) => (Entries.alter f ks sub).map fun s => es.put k (.table s)
    | some (.tables subs) => do
      let last ← subs.getLast?
      let s ← Entries.alter f ks last
      return es.put k (.tables (subs.dropLast ++ [s]))
    | _ => none

def Entries.find (path : Key) (es : Entries) : Option Entries :=
  match path with
  | [] => some es
  | k :: ks =>
    match es.get? k with
    | some (.table sub) => Entries.find ks sub
    | some (.tables subs) => subs.getLast?.bind (Entries.find ks)
    | _ => none

/-- Sets the entry at the end of a path, making the tables on the way. -/
def Entries.putAt (n : Node) : Key → Entries → Option Entries
  | [], _ => none
  | [k], es => some (es.put k n)
  | k :: ks, es =>
    match es.get? k with
    | none => (Entries.putAt n ks []).map fun s => es.put k (.table s)
    | some (.table sub) => (Entries.putAt n ks sub).map fun s => es.put k (.table s)
    | some _ => none

mutual

def nodeOf : Value → Option Node
  | .table ps => (entriesOf [] ps).map .table
  | v => some (.leaf v)

def entriesOf (es : Entries) : List (Key × Value) → Option Entries
  | [] => some es
  | (key, v) :: ps => do
    let n ← nodeOf v
    entriesOf (← es.putAt n key) ps

end

structure Document where
  root : Entries := []
  /-- Tables that no statement has given yet. -/
  implied : List Key := []
  /-- Keys whose values are lists, as far as is noted. -/
  lists : List Key := []
  keys : List Key := []
deriving Inhabited

namespace Document

def imply (d : Document) (key : Key) : Document := { d with implied := key :: d.implied }

def give (d : Document) (key : Key) : Document := { d with implied := d.implied.filter (· != key) }

/-- Notes whether the value of a key is a list. -/
def note (d : Document) (context : Key) (k : String) (isList : Bool) : Document :=
  let key := if !k.isEmpty then context ++ [k] else if context.isEmpty then [""] else context
  let others := d.lists.filter (· != key)
  { d with lists := if isList then key :: others else others }

/-- Gives a key its value in the table at `context`. -/
def place (d : Document) (context : Key) (k : String) (n : Node) : Option Document := do
  let es ← d.root.find context
  let key := context ++ [k]
  let setNode : Option Document := do
    let root ← d.root.alter (fun es => some (es.put k n)) context
    return { d with root }
  match es.get? k with
  | none => setNode
  | some _ =>
    if d.lists.contains key then setNode.map (·.give key)
    else if d.implied.contains key then return d.give key
    else none

def implyParents (d : Document) : (done : Key) → (rest : Key) → Option Document
  | _, [] => some d
  | done, k :: ks => do
    let es ← d.root.find done
    let here := done ++ [k]
    match es.get? k with
    | none =>
      let root ← d.root.alter (fun es => some (es.put k (.table []))) done
      implyParents ({ d with root }.imply here) here ks
    | some (.table _) => implyParents d here ks
    | some (.tables _) => implyParents d here ks
    | some (.leaf _) => none

def openTable (d : Document) (key : Key) : Option Document := do
  let d ← d.implyParents [] key.dropLast
  d.place key.dropLast (key.getLast?.getD "") (.table [])

def openItem (d : Document) (key : Key) : Option Document := do
  let context := key.dropLast
  let k := key.getLast?.getD ""
  let d ← d.implyParents [] context
  let es ← d.root.find context
  let subs ← match es.get? k with
    | none => some []
    | some (.tables subs) => some subs
    | _ => none
  let root ← d.root.alter (fun es => some (es.put k (.tables (subs ++ [[]])))) context
  return { d with root }

def openImplied (d : Document) : (context : Key) → (parents : Key) → Option Document
  | _, [] => some d
  | context, k :: ks => do
    let d ← (d.imply (context ++ [k])).openTable (context ++ [k])
    openImplied d (context ++ [k]) ks

mutual

def enter (d : Document) (context : Key) (k : String) (inList : Bool) : Value → Option Document
  | .list vs => enterItems (d.note context k true) context k vs
  | .table ps => do
    let key := context ++ [k]
    let d := d.imply key
    let d ← if inList then d.openItem key else d.openTable key
    assignAll d key ps
  | _ => some d

def enterItems (d : Document) (context : Key) (k : String) : List Value → Option Document
  | [] => some d
  | v :: vs => do
    let d ← enter d context k true v
    enterItems d context k vs

def assignAll (d : Document) (context : Key) : List (Key × Value) → Option Document
  | [] => some d
  | (key, v) :: ps => do
    let d ← d.openImplied context key.dropLast
    let inner := context ++ key.dropLast
    let k := key.getLast?.getD ""
    let d ← enter { d with keys := d.keys ++ [inner ++ [k]] } inner k false v
    let d ← d.place inner k (← nodeOf v)
    assignAll (d.note inner k v.isList) context ps

end

def ofStatements (d : Document) (context : Key) : List Statement → Option Document
  | [] => some d
  | .header key :: ss => do
    let d ← d.openTable key
    ofStatements { d.note key "" false with keys := d.keys ++ [key] } key ss
  | .item key :: ss => do
    let d ← d.openItem key
    ofStatements { d.note key "" false with keys := d.keys ++ [key] } key ss
  | .assign key v :: ss => do
    let d ← d.assignAll context [(key, v)]
    ofStatements d context ss

def parse? (text : String) : Option Document := do
  ofStatements {} [] (← statements text)

end Document

def partText (part : String) : String :=
  let escaped (c : Char) : List Char :=
    match c with
    | '"' => ['\\', '"']
    | '\\' => ['\\', '\\']
    | '\x08' => ['\\', 'b']
    | '\t' => ['\\', 't']
    | '\n' => ['\\', 'n']
    | '\x0c' => ['\\', 'f']
    | '\r' => ['\\', 'r']
    | c => if c.toNat < 0x20 || c.toNat == 0x7F then '\\' :: 'u' :: Text.hexDigits 4 c.toNat else [c]
  if !part.isEmpty && part.all isKeyChar then part
  else String.ofList ('"' :: part.toList.flatMap escaped ++ ['"'])

def keyText (key : Key) : String := String.intercalate "." (key.map partText)

end AnimatedChart.Toml

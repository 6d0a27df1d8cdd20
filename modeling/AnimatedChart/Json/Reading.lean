import AnimatedChart.Error
import AnimatedChart.Json.Value

/-!
# Reading records

A record is read from the members of an object, in document order, into a value that starts out empty:

* a member sets the field of its name, or else the field whose name differs from its name by case only;
* of two members for one field the later one is read over what the earlier one left, and a list also over the
  items that an earlier, longer list had in the same places;
* `null` leaves texts, numbers, flags and records as they are, and empties what may be absent;
* a member of the wrong type is skipped and remembered, and the reading goes on;
* a reader may refuse its fragment, and then the whole reading stops with its error.

`Reading` is the outcome of such a reading. `Reading.settle` is the verdict: a reading that was refused or
that skipped something is an error.
-/

namespace AnimatedChart.Json

inductive Reading (α : Type) where
  /-- What was read, and whether nothing was skipped. -/
  | read (value : α) (clean : Bool)
  | refused (e : Error)

namespace Reading

variable {α β : Type}

def andThen (r : Reading α) (f : α → Reading β) : Reading β :=
  match r with
  | refused e => refused e
  | read a clean =>
    match f a with
    | refused e => refused e
    | read b clean' => read b (clean && clean')

instance : Monad Reading where
  pure a := read a true
  bind := andThen

def skipped (a : α) : Reading α := read a false

def settle : Reading α → Except Error α
  | read a true => .ok a
  | read _ false => .error (.outside .json)
  | refused e => .error e

def ofExcept : Except Error α → Reading α
  | .ok a => read a true
  | .error e => refused e

def value? : Reading α → Option α
  | read a _ => some a
  | refused _ => none

end Reading

abbrev Reader (α : Type) := Fragment → α → Reading α

namespace Reader

variable {α : Type}

/-- One spelling for all characters that differ by case only, of the characters that field names use. -/
def foldCase (c : Char) : Char :=
  if c.toNat = 0x17F then 's'
  else if c.toNat = 0x212A then 'k'
  else c.toLower

def foldName (s : String) : List Char := s.toList.map foldCase

def field? (fields : List (String × α)) (name : String) : Option α :=
  match fields.find? (·.1 == name) with
  | some f => some f.2
  | none => (fields.find? fun f => foldName f.1 == foldName name).map (·.2)

def members (fields : List (String × Reader α)) : List (String × Fragment) → α → Reading α
  | [], a => pure a
  | (k, v) :: rest, a =>
    match field? fields (Fragment.unescape k) with
    | none => members fields rest a
    | some r => r v a >>= members fields rest

def record (fields : List (String × Reader α)) : Reader α
  | .null, a => pure a
  | .object ms _, a => members fields ms a
  | _, a => .skipped a

def text : Reader String
  | .null, s => pure s
  | .string b, _ => pure (Fragment.unescape b)
  | _, s => .skipped s

def number : Reader Float
  | .null, x => pure x
  | .number l, x =>
    match numberOfLiteral? l with
    | some y => pure y
    | none => .skipped x
  | _, x => .skipped x

def flag : Reader Bool
  | .null, b => pure b
  | .bool b, _ => pure b
  | _, b => .skipped b

def any : Reader Value
  | f, _ =>
    let v := Value.ofFragment f
    .read v.1 v.2

def fragment : Reader (Option Fragment)
  | f, _ => pure (some f)

/-- What may be absent: `null` empties it, anything else is read over what is there or over `empty`. -/
def optional (empty : α) (r : Reader α) : Reader (Option α)
  | .null, _ => pure none
  | f, old => do
    let a ← r f (old.getD empty)
    pure (some a)

def items (empty : α) (r : Reader α) : List Fragment → List α → Reading (List α)
  | [], _ => pure []
  | f :: fs, old => do
    let a ← r f (old.head?.getD empty)
    let rest ← items empty r fs old.tail
    pure (a :: rest)

def list (empty : α) (r : Reader α) : Reader (List α)
  | .null, _ => pure []
  | .array fs _, old => items empty r fs old
  | _, old => .skipped old

def list? (empty : α) (r : Reader α) : Reader (Option (List α))
  | .null, _ => pure none
  | .array fs _, old => do
    let as ← items empty r fs (old.getD [])
    pure (some as)
  | _, old => .skipped old

/-- A list that may be read several times. -/
structure Slots (α : Type) where
  items : Option (List α) := none
  /-- Items that stood behind the end of the list at an earlier reading. -/
  spare : List α := []

def Slots.toList (s : Slots α) : List α := s.items.getD []

/-- A list whose items are read over those that stood in their places before, even if the list has been shorter in
between. -/
def slots (empty : α) (r : Reader α) : Reader (Slots α)
  | .null, _ => pure {}
  | .array [] _, _ => pure { items := some [] }
  | .array fs _, old => do
    let before := old.toList ++ old.spare
    let as ← items empty r fs before
    pure { items := some as, spare := before.drop as.length }
  | _, old => .skipped old

def entries (empty : α) (r : Reader α) : List (String × Fragment) → Dict α → Reading (Dict α)
  | [], d => pure d
  | (k, f) :: rest, d => do
    let a ← r f empty
    entries empty r rest (Dict.put (Fragment.unescape k) a d)

def dict? (empty : α) (r : Reader α) : Reader (Option (Dict α))
  | .null, _ => pure none
  | .object ms _, old => do
    let d ← entries empty r ms (old.getD [])
    pure (some d)
  | _, old => .skipped old

def run (r : Reader α) (f : Fragment) (empty : α) : Except Error α :=
  (r f empty).settle

def settled (r : Fragment → Except Error α) : Reader α
  | f, _ => .ofExcept (r f)

def membersOf (f : Fragment) : Except Error (Dict Fragment) :=
  match f with
  | .null => .ok []
  | .object ms _ => .ok (Dict.ofPairs (ms.map fun m => (Fragment.unescape m.1, m.2)))
  | _ => .error (.outside .json)

def othersOf (f : Fragment) (names : List String) : Except Error (Dict Fragment) :=
  (membersOf f).map fun d => d.filter fun e => !names.contains e.1

end Reader

/-! ## Fields -/

/-- A field of a record: how it is named, looked up, set and read. -/
structure Field (α : Type) where
  name : String
  {β : Type}
  get : α → β
  set : β → α → α
  reader : Reader β

def Field.read {α : Type} (x : Field α) : Reader α := fun f a => do return x.set (← x.reader f (x.get a)) a

@[simp] def Field.first {α : Type} (γ : Type) (x : Field α) : Field (α × γ) where
  name := x.name
  get := fun p => x.get p.1
  set := fun b p => (x.set b p.1, p.2)
  reader := x.reader

def Reader.fields {α : Type} (xs : List (Field α)) : Reader α := record (xs.map fun x => (x.name, x.read))

/-- Reads a record that keeps its further members as they are written. -/
def readEntry {α β : Type} (r : Reader α) (start : α) (names : List String) (finish : α → Dict Fragment → β)
    (f : Fragment) : Except Error β := do
  let a ← r.run f start
  let others ← Reader.othersOf f names
  return finish a others

namespace Fragment

/-- The members of a record with further members. -/
def written (fields : List (String × Option Fragment)) (others : Dict Fragment) : List (String × Fragment) :=
  let own := fields.filterMap fun m => m.2.map (m.1, ·)
  if others.isEmpty then own else Dict.putAll others own

def recordWith (fields : List (String × Option Fragment)) (others : Dict Fragment) : Fragment :=
  record (written fields others)

def recordOf (fields : List (String × Option Fragment)) : Fragment := recordWith fields []

end Fragment
end AnimatedChart.Json

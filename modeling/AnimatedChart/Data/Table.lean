import AnimatedChart.Error
import AnimatedChart.Json.Parser
import AnimatedChart.Timeline.Join

/-!
# Tables of rows

Rows are read from JSON or from delimited text. In JSON a path of properties may lead to the rows; a row that is no
object becomes an object with the single field `data`.
-/

namespace AnimatedChart.Data

/-- Where in a record the reader is. -/
inductive Position where
  | line
  | field
  /-- In a field without quotes. -/
  | plain (text : List Char)
  | quoted (text : List Char)
  /-- After a quote that ends a field unless another one follows. -/
  | closing (text : List Char)
deriving Repr, Inhabited

/-- The records that were read, and whether the next one is malformed. -/
structure Records where
  records : List (List String)
  malformed : Bool := false
deriving Repr, DecidableEq, Inhabited

def Records.cons (r : List String) (rs : Records) : Records := { rs with records := r :: rs.records }

inductive Move where
  | goOn (pos : Position) (fields : List String)
  | endRecord (record : List String)
  | malformed

def moveAtField (delimiter : Char) (fields : List String) (c : Char) : Move :=
  if c = '\n' then .endRecord (fields ++ [""])
  else if Text.isBlank c then .goOn .field fields
  else if c = '"' then .goOn (.quoted []) fields
  else if c = delimiter then .goOn .field (fields ++ [""])
  else .goOn (.plain [c]) fields

def move (delimiter : Char) (fields : List String) (c : Char) : Position → Move
  | .line => if c = '\n' then .goOn .line [] else moveAtField delimiter fields c
  | .field => moveAtField delimiter fields c
  | .plain t =>
    if c = delimiter then .goOn .field (fields ++ [String.ofList t.reverse])
    else if c = '\n' then .endRecord (fields ++ [String.ofList t.reverse])
    else if c = '"' then .malformed
    else .goOn (.plain (c :: t)) fields
  | .quoted t => if c = '"' then .goOn (.closing t) fields else .goOn (.quoted (c :: t)) fields
  | .closing t =>
    if c = '"' then .goOn (.quoted ('"' :: t)) fields
    else if c = delimiter then .goOn .field (fields ++ [String.ofList t.reverse])
    else if c = '\n' then .endRecord (fields ++ [String.ofList t.reverse])
    else .malformed

def finish (fields : List String) : Position → Records
  | .line => ⟨[], false⟩
  | .field => ⟨[fields ++ [""]], false⟩
  | .plain t => ⟨[fields ++ [String.ofList t.reverse]], false⟩
  | .quoted _ => ⟨[], true⟩
  | .closing t => ⟨[fields ++ [String.ofList t.reverse]], false⟩

def readRecords (delimiter : Char) : Position → List String → List Char → Records
  | pos, fields, [] => finish fields pos
  | pos, fields, c :: cs =>
    match move delimiter fields c pos with
    | .goOn pos fields => readRecords delimiter pos fields cs
    | .endRecord r => .cons r (readRecords delimiter .line [] cs)
    | .malformed => ⟨[], true⟩

def dropReturns : List Char → List Char
  | [] => []
  | ['\r'] => []
  | '\r' :: '\n' :: cs => '\n' :: dropReturns cs
  | c :: cs => c :: dropReturns cs

def Records.ofText (delimiter : Char) (s : String) : Records :=
  readRecords delimiter .line [] (dropReturns s.toList)

open Json Timeline

abbrev Table := Option (List Row)

def follow (path : String) : List String → Value → Except Error Value
  | [], v => .ok v
  | p :: ps, v =>
    match v.members? with
    | none => .error (.new .invalidFormat
        ("property " ++ Text.quote path ++ ": " ++ Text.quote p ++ " is not an object"))
    | some ms => follow path ps ((Dict.get? ms p).getD .null)

def rowOf (v : Value) : Row := v.members?.getD [("data", v)]

def rowsOf (v : Value) (property : String) : Except Error Table := do
  let v ← if property.isEmpty then pure v else follow property (property.splitOn ".") v
  match v.items? with
  | some vs => return some (vs.map rowOf)
  | none => throw (.new .invalidFormat "rows must be an array")

def rowsOfFragment (f : Fragment) (property : String) : Except Error Table :=
  match Value.ofFragment f with
  | (v, true) => rowsOf v property
  | _ => .error (.wrap .invalidFormat "decode json rows" (.outside .json))

def decodeJson (data property : String) : Except Error Table :=
  match Fragment.parse? data with
  | some f => rowsOfFragment f property
  | none => .error (.wrap .invalidFormat "decode json rows" (.outside .json))

def cellValue (cell : String) : Value :=
  match cell with
  | "" => .null
  | "true" => .bool true
  | "false" => .bool false
  | _ =>
    match Decimal.parse? cell with
    | some x => .number x
    | none => .string cell

/-- The row of a record. -/
def recordRow (header record : List String) : Row :=
  Dict.ofPairs (header.zipIdx.map fun (name, i) => (name, ((record[i]?).map cellValue).getD .null))

def decodeDelimited (delimiter : Char) (data : String) : Except Error Table :=
  let malformed (what : String) : Error := .wrap .invalidFormat ("read " ++ what) (.outside .csv)
  let r := Records.ofText delimiter data
  match r.records with
  | [] => if r.malformed then .error (malformed "header") else .ok none
  | header :: records =>
    if r.malformed then .error (malformed s!"row {records.length + 1}")
    else .ok (if records.isEmpty then none else some (records.map (recordRow header)))

def decode (data format property : String) : Except Error Table :=
  match format with
  | "" | "json" => decodeJson data property
  | "csv" => decodeDelimited ',' data
  | "tsv" => decodeDelimited '\t' data
  | _ => .error (.new .unsupported ("data format " ++ Text.quote format))

end AnimatedChart.Data

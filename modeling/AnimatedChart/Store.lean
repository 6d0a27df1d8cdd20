import AnimatedChart.Pipeline.Basic

/-!
# Stored graphs

Compiled graphs are stored under identifiers of 32 hexadecimal digits in five groups.
-/

namespace AnimatedChart

open Json

namespace Store

def isGrouped (bs : List UInt8) : Bool :=
  bs.zipIdx.all fun (b, i) => if i = 8 ∨ i = 13 ∨ i = 18 ∨ i = 23 then b == '-'.toUInt8 else isHex b
where
  isHex (b : UInt8) : Bool := Text.isHexDigit (Char.ofNat b.toNat)

/-- What is wrong with an identifier. -/
def idFault? (id : String) : Option String :=
  let bs := Text.bytes id
  let malformed (ok : Bool) : Option String := if ok then none else some "invalid UUID format"
  if bs.length = 36 then malformed (isGrouped bs)
  else if bs.length = 45 then
    if (Text.ofBytes (bs.take 9)).toLower = "urn:uuid:" then malformed (isGrouped (bs.drop 9))
    else some ("invalid urn prefix: " ++ Text.quoteBytes (bs.take 9))
  else if bs.length = 38 then malformed (isGrouped ((bs.drop 1).take 36))
  else if bs.length = 32 then malformed (bs.all isGrouped.isHex)
  else some ("invalid UUID length: " ++ toString bs.length)

def checkId (id : String) : Except Error Unit :=
  if id.isEmpty then .error (.new .invalidInput "graph id cannot be empty")
  else
    match idFault? id with
    | none => .ok ()
    | some fault => .error (.wrap .invalidInput ("invalid graph id " ++ Text.quote id) (.plain fault))

structure Record where
  id : String
  document : String
  compiler : String
  graph : String
  stats : Stats := {}
  created : Instant
deriving Repr, Inhabited

def Record.toFragment (r : Record) : Except Error Fragment :=
  match Fragment.parse? r.graph with
  | none => .error (.outside .json)
  | some g => .ok (.record [("id", .text r.id), ("doc_hash", .text r.document), ("compiler", .text r.compiler),
      ("graph", g), ("stats", r.stats.toFragment), ("created_at", .text r.created.text)])

end Store

structure Store where
  records : Dict Store.Record := []
deriving Repr, Inhabited

namespace Store

def put (s : Store) (r : Record) : Except Error Store := do
  checkId r.id
  return { s with records := Dict.put r.id r s.records }

def get (s : Store) (id : String) : Except Error Record :=
  match Dict.get? s.records id with
  | some r => .ok r
  | none => .error (.new .notFound ("graph " ++ id ++ " not found"))

def newer (best : Option Record) (r : Record) : Option Record :=
  match best with
  | none => some r
  | some b => if r.created.nanoseconds > b.created.nanoseconds then some r else some b

def lookup (s : Store) (document compiler : String) : Except Error Record :=
  let found := (s.records.map (·.2)).filter fun r => r.document == document && r.compiler == compiler
  match found.foldl newer none with
  | some r => .ok r
  | none => .error (.new .notFound ("no graph for document " ++ document))

end Store
end AnimatedChart

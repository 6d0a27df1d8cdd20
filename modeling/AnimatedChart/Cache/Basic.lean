import AnimatedChart.Duration
import AnimatedChart.Instant
import AnimatedChart.Json.Parser
import AnimatedChart.Json.Printer
import AnimatedChart.Json.Reading
import AnimatedChart.Text.Base64
import AnimatedChart.Text.Digest

/-!
# Caches

A cache keeps texts by key for a while. `FileCache` keeps one file for each key, named by the key's digest.
-/

namespace AnimatedChart.Cache

open Json

structure Entry where
  key : String := ""
  data : String := ""
  /-- The last moment at which the entry holds. -/
  expires : Option Instant := none
deriving Repr, DecidableEq, Inhabited

def Entry.readByte : Reader UInt8
  | .null, old => pure old
  | .number l, old =>
    match l.toNat? with
    | some n => if n < 256 then pure (UInt8.ofNat n) else .skipped old
    | none => .skipped old
  | _, old => .skipped old

def Entry.readData : Reader (Reader.Slots UInt8)
  | .string b, old =>
    match Text.Base64.decode? (Fragment.unescape b) with
    | some bs => pure { items := some bs }
    | none => .skipped old
  | f, old => Reader.slots 0 Entry.readByte f old

def Entry.readExpiry : Reader (Option Instant)
  | .null, old => pure old
  | .string b, _ =>
    match Instant.parse? b with
    | some t => pure (if t = .zero then none else some t)
    | none => .refused (.outside .json)
  | _, _ => .refused (.outside .json)

@[simp] def Entry.layout : List (Json.Field (Entry × Reader.Slots UInt8)) := [
  .first _ ⟨"key", (·.key), fun b e => { e with key := b }, .text⟩,
  ⟨"data", (·.2), fun b e => (e.1, b), Entry.readData⟩,
  .first _ ⟨"expires_at", (·.expires), fun b e => { e with expires := b }, Entry.readExpiry⟩]

def Entry.parse? (text : String) : Option Entry := do
  let f ← Fragment.parse? text
  let (e, data) ← ((Reader.fields layout).run f ({}, {})).toOption
  return { e with data := Text.ofBytes data.toList }

def Entry.toFragment (e : Entry) : Fragment :=
  .recordOf [
    ("key", some (.text e.key)),
    ("data", some (.text (Text.Base64.encode (Text.bytes e.data)))),
    ("expires_at", e.expires.map fun t => .text t.text)]

def Entry.render (e : Entry) : String := e.toFragment.compact

/-- What a file of the cache holds: an entry, or text that someone else put there. -/
inductive Stored where
  | entry (e : Entry)
  | text (s : String)
deriving Repr, DecidableEq, Inhabited

def Stored.entry? : Stored → Option Entry
  | .entry e => some e
  | .text s => Entry.parse? s

def Stored.render : Stored → String
  | .entry e => e.render
  | .text s => s

def Entry.holds (e : Entry) (key : String) (now : Instant) : Bool :=
  e.key == key && e.expires.all fun t => now.nanoseconds ≤ t.nanoseconds

structure FileCache where
  digest : String → String := Text.digest
  files : Dict Stored := []

namespace FileCache

def get (c : FileCache) (now : Instant) (key : String) : Option String × FileCache :=
  let name := c.digest key
  match Dict.get? c.files name with
  | none => (none, c)
  | some s =>
    match s.entry?.filter (·.holds key now) with
    | some e => (some e.data, c)
    | none => (none, { c with files := Dict.remove c.files name })

def set (c : FileCache) (now : Instant) (key data : String) (ttl : Duration) : FileCache :=
  let expires := if ttl.nanoseconds > 0 then some ⟨now.nanoseconds + ttl.nanoseconds⟩ else none
  { c with files := Dict.put (c.digest key) (.entry { key, data, expires }) c.files }

def delete (c : FileCache) (key : String) : FileCache :=
  { c with files := Dict.remove c.files (c.digest key) }

def clear (c : FileCache) : FileCache := { c with files := [] }

def overwrite (c : FileCache) (text : String) : FileCache :=
  { c with files := Dict.mapValues (fun _ => .text text) c.files }

end FileCache
end AnimatedChart.Cache

namespace AnimatedChart

inductive Cache where
  | null
  | files (c : Cache.FileCache)

namespace Cache

def get (c : Cache) (now : Instant) (key : String) : Option String × Cache :=
  match c with
  | null => (none, null)
  | files fc => (fc.get now key).map id files

def set (c : Cache) (now : Instant) (key data : String) (ttl : Duration) : Cache :=
  match c with
  | null => null
  | files fc => files (fc.set now key data ttl)

def delete (c : Cache) (key : String) : Cache :=
  match c with
  | null => null
  | files fc => files (fc.delete key)

/-- Drops everything and tells how many entries there were; nothing if there is nothing to drop from. -/
def clear? (c : Cache) : Option (Nat × Cache) :=
  match c with
  | null => none
  | files fc => some (fc.files.length, files fc.clear)

def overwrite (c : Cache) (text : String) : Cache :=
  match c with
  | null => null
  | files fc => files (fc.overwrite text)

def size : Cache → Nat
  | null => 0
  | files fc => fc.files.length

def sourceTtl : Duration := .hours 24

def resultTtl : Duration := .hours 168

end Cache
end AnimatedChart

namespace AnimatedChart.Cache

open Json

inductive Request where
  | source (uri : String)
  /-- The elaborated form of a document, by the document's digest. -/
  | elaborated (document : String)
  /-- The graph of a document, by the document's digest and the base compiler's name. -/
  | compiled (document compiler : String)
deriving Repr, DecidableEq, Inhabited

def Request.kind : Request → String
  | source _ => "source"
  | elaborated _ => "elaborate"
  | compiled _ _ => "compile"

def version : String := "v1"

def Request.parts : Request → List Fragment
  | source uri => [.htmlText version, .htmlText uri]
  | elaborated d => [.htmlText version, .htmlText d]
  | compiled d c => [.htmlText version, .htmlText d, .record [("compiler", .htmlText c)]]

def Request.text (r : Request) : String := (Fragment.list r.parts).compact

structure Keyer where
  /-- What stands before every key. -/
  scope : String := ""
  digest : String → String := Text.digest

def Keyer.key (k : Keyer) (r : Request) : String := k.scope ++ (r.kind ++ ":" ++ k.digest r.text)

end AnimatedChart.Cache

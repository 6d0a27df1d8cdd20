import AnimatedChart.Cache.Basic

/-!
# Sessions

A session is what successive runs share: the cache, the network, the clock, and what observers have been told.
-/

namespace AnimatedChart

inductive Event where
  | hit (kind : String)
  | miss (kind : String)
  | stored (kind : String) (bytes : Nat)
  | fetch (url : String)
  | fetched (url : String) (bytes : Nat) (failed : Bool)
  | elaborated (scopes : Nat) (failed : Bool)
  | compiling (compiler : String)
  | compiled (compiler : String) (signals : Nat) (failed : Bool)
  | checked (unresolved : Nat)
deriving Repr, DecidableEq, Inhabited

def Event.text : Event → String
  | hit k => "hit " ++ k
  | miss k => "miss " ++ k
  | stored k n => "set " ++ k ++ " " ++ toString n
  | fetch u => "fetch " ++ u
  | fetched u n f => "fetched " ++ u ++ " " ++ toString n ++ " failed=" ++ toString f
  | elaborated n f => "elaborated scopes=" ++ toString n ++ " failed=" ++ toString f
  | compiling c => "compiling " ++ c
  | compiled c n f => "compiled " ++ c ++ " signals=" ++ toString n ++ " failed=" ++ toString f
  | checked n => "checked unresolved=" ++ toString n

end AnimatedChart

namespace AnimatedChart.Data

inductive Response where
  | answer (status : Nat) (statusText body : String)
  | failed
deriving Repr, DecidableEq, Inhabited

/-- A network that gives its answers one after the other and then repeats the last one. -/
structure Network where
  responses : List Response := []
  requests : Nat := 0
deriving Repr, Inhabited

def Network.send (n : Network) : Response × Network :=
  match n.responses[min n.requests (n.responses.length - 1)]? with
  | some r => (r, { n with requests := n.requests + 1 })
  | none => (.failed, n)

end AnimatedChart.Data

namespace AnimatedChart

/-- What successive runs share. -/
structure Session where
  cache : Cache := .null
  keyer : Cache.Keyer := {}
  network : Data.Network := {}
  now : Instant := ⟨0⟩
  ttl : Duration := ⟨0⟩
  events : List Event := []

abbrev Step := ExceptT Error (StateM Session)

namespace Session

def tell (e : Event) : Step Unit := modify fun s => { s with events := s.events ++ [e] }

def findKept (r : Cache.Request) : Step (Option String) :=
  modifyGet fun s =>
    let (data, cache) := s.cache.get s.now (s.keyer.key r)
    (data, { s with cache })

def keep (r : Cache.Request) (data : String) (ttl : Duration) : Step Unit := do
  modify fun s => { s with cache := s.cache.set s.now (s.keyer.key r) data ttl }
  tell (.stored r.kind data.utf8ByteSize)

/-- The answer to a request that was kept earlier and can still be read. -/
def answered {α : Type} (r : Cache.Request) (read : String → Except Error α) : Step (Option α) := do
  match (← findKept r).bind fun data => (read data).toOption with
  | some a =>
    tell (.hit r.kind)
    return some a
  | none =>
    tell (.miss r.kind)
    return none

def remembered {α : Type} (r : Cache.Request) (read : String → Except Error α) (refresh : Bool) : Step (Option α) :=
  if refresh then pure none else answered r read

def lifetime (s : Session) : Duration := if s.ttl.nanoseconds > 0 then s.ttl else Cache.resultTtl

def keepText (r : Cache.Request) (text : Except Error String) : Step Unit := do
  match text with
  | .ok text => keep r text (← get).lifetime
  | .error _ => pure ()

def run {α : Type} (s : Session) (x : Step α) : Except Error α × Session := (ExceptT.run x).run s

end Session

def Step.within {α : Type} (context : String) (x : Step α) : Step α :=
  ExceptT.adapt (Error.within context) x

end AnimatedChart

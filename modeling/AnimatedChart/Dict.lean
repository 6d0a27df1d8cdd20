/-!
# Dictionaries

A dictionary is an association list kept in ascending key order.
-/

namespace AnimatedChart

abbrev Dict (α : Type) := List (String × α)

namespace Dict

variable {α β : Type}

def put (k : String) (v : α) : Dict α → Dict α
  | [] => [(k, v)]
  | (k', v') :: rest =>
    if k < k' then (k, v) :: (k', v') :: rest
    else if k = k' then (k, v) :: rest
    else (k', v') :: put k v rest

def get? (d : Dict α) (k : String) : Option α :=
  (d.find? (·.1 == k)).map (·.2)

def has (d : Dict α) (k : String) : Bool :=
  d.any (·.1 == k)

def remove (d : Dict α) (k : String) : Dict α :=
  d.filter (·.1 != k)

def keys (d : Dict α) : List String :=
  d.map (·.1)

def mapValues (f : α → β) (d : Dict α) : Dict β :=
  d.map fun e => (e.1, f e.2)

def putAll (d : Dict α) (pairs : List (String × α)) : Dict α :=
  pairs.foldl (fun d e => put e.1 e.2 d) d

def ofPairs (pairs : List (String × α)) : Dict α :=
  putAll [] pairs

end Dict
end AnimatedChart

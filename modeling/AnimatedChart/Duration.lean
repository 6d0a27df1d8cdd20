/-!
# Durations

A duration is a whole number of nanoseconds in the range of a signed 64-bit word.
-/

namespace AnimatedChart

/-- A span of time in nanoseconds. -/
structure Duration where
  nanoseconds : Int
deriving Repr, DecidableEq, Inhabited

namespace Duration

def limit : Nat := 9223372036854775808

def least : Duration := ⟨-(limit : Int)⟩

def microseconds (n : Int) : Duration := ⟨n * 1000⟩

def milliseconds (n : Int) : Duration := ⟨n * 1000000⟩

def seconds (n : Int) : Duration := ⟨n * 1000000000⟩

def hours (n : Int) : Duration := seconds (n * 3600)

def ofFloat (x : Float) : Duration :=
  if x < 9223372036854775808 ∧ x > -9223372036854775808 then ⟨x.toInt64.toInt⟩ else least

def toMillis (d : Duration) : Float := Float.ofInt d.nanoseconds / 1000000

/-! ## Writing -/

def withFraction (n places : Nat) : String :=
  let unit := Nat.pow 10 places
  let whole := toString (n / unit)
  let ds := Nat.toDigits 10 (n % unit)
  let ds := List.replicate (places - ds.length) '0' ++ ds
  let ds := (ds.reverse.dropWhile (· == '0')).reverse
  if ds.isEmpty || n % unit = 0 then whole else whole ++ "." ++ String.ofList ds

def magnitudeText (n : Nat) : String :=
  if n = 0 then "0s"
  else if n < 1000 then toString n ++ "ns"
  else if n < 1000000 then withFraction n 3 ++ "µs"
  else if n < 1000000000 then withFraction n 6 ++ "ms"
  else
    let minutes := n / 60000000000
    let rest := withFraction (n % 60000000000) 9 ++ "s"
    if minutes = 0 then rest
    else if minutes < 60 then toString minutes ++ "m" ++ rest
    else toString (minutes / 60) ++ "h" ++ toString (minutes % 60) ++ "m" ++ rest

def text (d : Duration) : String :=
  if d.nanoseconds < 0 then "-" ++ magnitudeText d.nanoseconds.natAbs else magnitudeText d.nanoseconds.natAbs

/-- The nearest multiple of a unit, away from zero if two are equally near. -/
def round (d unit : Duration) : Duration :=
  let n := d.nanoseconds.natAbs
  let u := unit.nanoseconds.natAbs
  let r := n % u
  let m : Int := if 2 * r < u then n - r else n - r + u
  if d.nanoseconds < 0 then ⟨max (-m) (-(limit : Int))⟩ else ⟨min m (limit - 1)⟩

/-- A duration for people: hundredths of a second, milliseconds or microseconds, whichever fits. -/
def brief (d : Duration) : String :=
  if d.nanoseconds ≥ 1000000000 then (d.round (milliseconds 10)).text
  else if d.nanoseconds ≥ 1000000 then (d.round (milliseconds 1)).text
  else (d.round (microseconds 1)).text

def briefMillis (ms : Float) : String := (ofFloat (ms * 1000000)).brief

/-! ## Reading -/

def unit? : String → Option Nat
  | "ns" => some 1
  | "us" | "µs" | "μs" => some 1000
  | "ms" => some 1000000
  | "s" => some 1000000000
  | "m" => some 60000000000
  | "h" => some 3600000000000
  | _ => none

def isCount (c : Char) : Bool := c.isDigit || c == '.'

def wholePart (ds : List Char) : Option Nat :=
  let n := ds.foldl (fun n d => n * 10 + (d.toNat - '0'.toNat)) 0
  if n ≤ limit then some n else none

/-- The digits after a point as a numerator and its power of ten. -/
def fractionPart (ds : List Char) : Nat × Float :=
  let step (s : Nat × Float × Bool) (d : Char) : Nat × Float × Bool :=
    let (n, scale, full) := s
    let m := n * 10 + (d.toNat - '0'.toNat)
    if full || n > (limit - 1) / 10 || m > limit then (n, scale, true) else (m, scale * 10, false)
  let (n, scale, _) := ds.foldl step (0, 1, false)
  (n, scale)

def term (cs : List Char) : Option (Nat × List Char) := do
  let whole := cs.takeWhile Char.isDigit
  let rest := cs.dropWhile Char.isDigit
  let n ← wholePart whole
  let (fraction, rest) := match rest with
    | '.' :: r => (r.takeWhile Char.isDigit, r.dropWhile Char.isDigit)
    | r => ([], r)
  if whole.isEmpty && fraction.isEmpty then none
  let unit ← unit? (String.ofList (rest.takeWhile fun c => !isCount c))
  let (f, scale) := fractionPart fraction
  if n * unit > limit then none
  let extra := if f = 0 then 0 else (Float.ofNat f * (Float.ofNat unit / scale)).toUInt64.toNat
  if n * unit + extra > limit then none
  return (n * unit + extra, rest.dropWhile fun c => !isCount c)

/-- The sum of terms, each shorter than the text that is left; `fuel` bounds their number. -/
def terms : (fuel : Nat) → Nat → List Char → Option Nat
  | _, sum, [] => some sum
  | 0, _, _ => none
  | fuel + 1, sum, cs => do
    let (n, rest) ← term cs
    if sum + n > limit then none
    terms fuel (sum + n) rest

def parse? (s : String) : Option Duration := do
  let (negative, cs) := match s.toList with
    | '-' :: cs => (true, cs)
    | '+' :: cs => (false, cs)
    | cs => (false, cs)
  if cs.isEmpty then none
  if cs == ['0'] then return ⟨0⟩
  let n ← terms cs.length 0 cs
  if negative then return ⟨-(n : Int)⟩
  if n > limit - 1 then none
  return ⟨n⟩

end Duration
end AnimatedChart

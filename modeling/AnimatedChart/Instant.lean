/-!
# Instants

A moment in time, counted in nanoseconds from the beginning of 1970, and the calendar in which it is read and written:
`2001-01-31T23:59:59.5Z`, with an offset in hours and minutes in place of the `Z` if need be.
-/

namespace AnimatedChart

structure Instant where
  /-- Nanoseconds since the beginning of 1970. -/
  nanoseconds : Int
deriving Repr, DecidableEq, Inhabited

namespace Instant

def daysTo (year month day : Int) : Int :=
  let y := if month ≤ 2 then year - 1 else year
  let era := y.fdiv 400
  let yearOfEra := y - era * 400
  let dayOfYear := (153 * (if month > 2 then month - 3 else month + 9) + 2) / 5 + day - 1
  era * 146097 + (yearOfEra * 365 + yearOfEra / 4 - yearOfEra / 100 + dayOfYear) - 719468

def dateOf (days : Int) : Int × Int × Int :=
  let z := days + 719468
  let era := z.fdiv 146097
  let dayOfEra := z - era * 146097
  let yearOfEra := (dayOfEra - dayOfEra / 1460 + dayOfEra / 36524 - dayOfEra / 146096) / 365
  let dayOfYear := dayOfEra - (365 * yearOfEra + yearOfEra / 4 - yearOfEra / 100)
  let mp := (5 * dayOfYear + 2) / 153
  let day := dayOfYear - (153 * mp + 2) / 5 + 1
  let month := if mp < 10 then mp + 3 else mp - 9
  let year := yearOfEra + era * 400
  (if month ≤ 2 then year + 1 else year, month, day)

def ofSeconds (n : Int) : Instant := ⟨n * 1000000000⟩

def zero : Instant := ofSeconds (daysTo 1 1 1 * 86400)

def daysIn (year month : Nat) : Nat :=
  if month = 2 then (if year % 4 = 0 ∧ (year % 100 ≠ 0 ∨ year % 400 = 0) then 29 else 28)
  else if month = 4 ∨ month = 6 ∨ month = 9 ∨ month = 11 then 30
  else 31

def bounded? (low high : Nat) (ds : List Char) : Option Nat :=
  let n := ds.foldl (fun n d => 10 * n + (d.toNat - '0'.toNat)) 0
  if ds.all Char.isDigit ∧ low ≤ n ∧ n ≤ high then some n else none

def fraction (ds : List Char) : Nat :=
  let ds := ds.take 9
  ds.foldl (fun n d => 10 * n + (d.toNat - '0'.toNat)) 0 * Nat.pow 10 (9 - ds.length)

def offset? : List Char → Option Int
  | ['Z'] => some 0
  | [sign, a, b, ':', c, d] => do
    let hours ← bounded? 0 24 [a, b]
    let minutes ← bounded? 0 60 [c, d]
    let n : Int := (hours * 60 + minutes) * 60
    if sign = '+' then some n else if sign = '-' then some (-n) else none
  | _ => none

def date? : List Char → Option (Int × List Char)
  | y1 :: y2 :: y3 :: y4 :: '-' :: m1 :: m2 :: '-' :: d1 :: d2 :: rest => do
    let year ← bounded? 0 9999 [y1, y2, y3, y4]
    let month ← bounded? 1 12 [m1, m2]
    let day ← bounded? 1 (daysIn year month) [d1, d2]
    return (daysTo year month day * 86400, rest)
  | _ => none

def hour? : List Char → Option (Nat × List Char)
  | h :: ':' :: rest => (bounded? 0 9 [h]).map (·, rest)
  | h1 :: h2 :: ':' :: rest => (bounded? 0 23 [h1, h2]).map (·, rest)
  | _ => none

def clock? (cs : List Char) : Option (Int × List Char) := do
  match ← hour? cs with
  | (hour, n1 :: n2 :: ':' :: s1 :: s2 :: rest) =>
    let minute ← bounded? 0 59 [n1, n2]
    let second ← bounded? 0 59 [s1, s2]
    let digits := match rest with
      | c :: rest => if c = '.' ∨ c = ',' then rest.takeWhile Char.isDigit else []
      | [] => []
    let seconds := (hour * 60 + minute) * 60 + second
    return (seconds * 1000000000 + fraction digits, if digits.isEmpty then rest else rest.drop (digits.length + 1))
  | _ => none

def parse? (s : String) : Option Instant := do
  match ← date? s.toList with
  | (seconds, 'T' :: rest) =>
    let (nanos, rest) ← clock? rest
    return ⟨(seconds - (← offset? rest)) * 1000000000 + nanos⟩
  | _ => none

def padded (width : Nat) (n : Nat) : String :=
  let ds := Nat.toDigits 10 n
  String.ofList (List.replicate (width - ds.length) '0' ++ ds)

def text (t : Instant) : String :=
  let seconds := t.nanoseconds.fdiv 1000000000
  let nanos := (t.nanoseconds - seconds * 1000000000).toNat
  let days := seconds.fdiv 86400
  let clock := (seconds - days * 86400).toNat
  let (year, month, day) := dateOf days
  let places := ((padded 9 nanos).toList.reverse.dropWhile (· == '0')).reverse
  padded 4 year.toNat ++ "-" ++ padded 2 month.toNat ++ "-" ++ padded 2 day.toNat ++ "T"
    ++ padded 2 (clock / 3600) ++ ":" ++ padded 2 (clock / 60 % 60) ++ ":" ++ padded 2 (clock % 60)
    ++ (if places.isEmpty then "" else "." ++ String.ofList places) ++ "Z"

end Instant
end AnimatedChart

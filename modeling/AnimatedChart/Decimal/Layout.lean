/-!
# Number text

Once the digits of a number are chosen, a `Layout` says how they are written: which magnitudes are written positionally,
and how many digits an exponent has at least.
-/

namespace AnimatedChart.Decimal

/-- A finite non-negative binary number, `mantissa * 2 ^ exponent`. -/
structure Dyadic where
  mantissa : Nat
  exponent : Int
  /-- The gap to the next number below is half the gap to the next number above. -/
  narrow : Bool
deriving Repr, DecidableEq

def Dyadic.ofBits (bits : UInt64) : Dyadic :=
  let e := ((bits >>> 52) &&& 0x7FF).toNat
  let f := (bits &&& 0xFFFFFFFFFFFFF).toNat
  if e = 0 then ⟨f, -1074, false⟩ else ⟨4503599627370496 + f, (e : Int) - 1075, f == 0 && decide (1 < e)⟩

/-- `digits * 10 ^ exponent`. -/
structure Scientific where
  digits : Nat
  exponent : Int
deriving Repr, DecidableEq

def compareScaled (a : Nat) (i : Int) (n : Nat) (j : Int) : Ordering :=
  compare (a * Nat.pow 10 i.toNat * Nat.pow 2 (-j).toNat) (n * Nat.pow 2 j.toNat * Nat.pow 10 (-i).toNat)

namespace Dyadic

/-- The decimal lies among the reals that round to `x`; the ends belong to the even mantissa. -/
def readsBack (x : Dyadic) (d : Scientific) : Bool :=
  let low := if x.narrow then 4 * x.mantissa - 1 else 4 * x.mantissa - 2
  let high := 4 * x.mantissa + 2
  let closed := x.mantissa % 2 == 0
  let atLow := compareScaled d.digits d.exponent low (x.exponent - 2)
  let atHigh := compareScaled d.digits d.exponent high (x.exponent - 2)
  (atLow == .gt || (closed && atLow == .eq)) && (atHigh == .lt || (closed && atHigh == .eq))

def below (x : Dyadic) (k : Int) : Bool :=
  compareScaled 1 k x.mantissa x.exponent == .gt

/-- The least `k` with `x < 10 ^ k`, estimated from the binary logarithm and settled by comparison. -/
def magnitude (x : Dyadic) : Int :=
  let estimate := ((Nat.log2 x.mantissa : Int) + x.exponent) * 30103 / 100000 - 1
  (((List.range 6).map fun i : Nat => estimate + (i : Int)).find? x.below).getD (estimate + 6)

/-- The neighbour of `x` on the grid of multiples of `10 ^ g` that reads back, the nearer one if both do. -/
def onGrid (x : Dyadic) (g : Int) : Option Scientific :=
  let num := x.mantissa * Nat.pow 2 x.exponent.toNat * Nat.pow 10 (-g).toNat
  let den := Nat.pow 2 (-x.exponent).toNat * Nat.pow 10 g.toNat
  let down : Scientific := ⟨num / den, g⟩
  let up : Scientific := ⟨num / den + 1, g⟩
  match x.readsBack down, x.readsBack up with
  | true, true =>
    match compare (2 * num) ((2 * (num / den) + 1) * den) with
    | .lt => some down
    | .gt => some up
    | .eq => if (num / den) % 2 = 0 then some down else some up
  | true, false => some down
  | false, true => some up
  | false, false => none

def exact (x : Dyadic) : Scientific :=
  if 0 ≤ x.exponent then ⟨x.mantissa * Nat.pow 2 x.exponent.toNat, 0⟩
  else ⟨x.mantissa * Nat.pow 5 (-x.exponent).toNat, x.exponent⟩

end Dyadic

def Scientific.strip (d : Scientific) : Scientific :=
  if d.digits ≠ 0 ∧ d.digits % 10 = 0 then Scientific.strip ⟨d.digits / 10, d.exponent + 1⟩ else d
termination_by d.digits
decreasing_by omega

def Dyadic.shortest (x : Dyadic) : Scientific :=
  if x.mantissa = 0 then ⟨0, 0⟩
  else
    let k := x.magnitude
    (((List.range 17).findSome? fun n : Nat => x.onGrid (k - 1 - (n : Int))).getD x.exact).strip

structure Layout where
  /-- The least exponent of the leading digit that is written positionally. -/
  plainFrom : Int
  /-- The least exponent of the leading digit above it that is written scientifically again. -/
  plainBelow : Int
  exponentWidth : Nat

/-- Numbers in documents: positional from `1e-6` up to `1e21`, exponents as short as they can be. -/
def Layout.json : Layout := ⟨-6, 21, 1⟩

/-- Numbers in running text: positional from `0.0001` up to `1e6`, exponents of two digits or more. -/
def Layout.plain : Layout := ⟨-4, 6, 2⟩

namespace Layout

def positional (ds : List Char) (e : Int) : List Char :=
  if e < 0 then '0' :: '.' :: List.replicate (-e - 1).toNat '0' ++ ds
  else
    let whole := e.toNat + 1
    if ds.length ≤ whole then ds ++ List.replicate (whole - ds.length) '0'
    else ds.take whole ++ '.' :: ds.drop whole

def scientific (width : Nat) (ds : List Char) (e : Int) : List Char :=
  let body := match ds with
    | [] => []
    | [d] => [d]
    | d :: rest => d :: '.' :: rest
  let ex := Nat.toDigits 10 e.natAbs
  body ++ 'e' :: (if e < 0 then '-' else '+') :: List.replicate (width - ex.length) '0' ++ ex

def digits (l : Layout) (d : Scientific) : List Char :=
  let ds := Nat.toDigits 10 d.digits
  let e := d.exponent + (ds.length : Int) - 1
  if l.plainFrom ≤ e ∧ e < l.plainBelow then positional ds e else scientific l.exponentWidth ds e

def write (l : Layout) (x : Float) : String :=
  if x.isNaN then "NaN"
  else
    let negative := x.toBits >>> 63 == 1
    if x.isInf then (if negative then "-Inf" else "+Inf")
    else
      let body :=
        let d := (Dyadic.ofBits x.toBits).shortest
        if d.digits = 0 then ['0'] else l.digits d
      String.ofList (if negative then '-' :: body else body)

end Layout

def roundDiv (num den : Nat) : Nat :=
  let q := num / den
  let r := num % den
  if 2 * r < den then q
  else if den < 2 * r then q + 1
  else if q % 2 = 0 then q else q + 1

def withPlaces (places n : Nat) : List Char :=
  let ds := Nat.toDigits 10 n
  let ds := List.replicate (places + 1 - ds.length) '0' ++ ds
  let whole := ds.length - places
  ds.take whole ++ if places = 0 then [] else '.' :: ds.drop whole

def fixed (places : Nat) (x : Float) : String :=
  if x.isNaN then "NaN"
  else
    let negative := x.toBits >>> 63 == 1
    if x.isInf then (if negative then "-Inf" else "+Inf")
    else
      let d := Dyadic.ofBits x.toBits
      let n := roundDiv (d.mantissa * Nat.pow 2 d.exponent.toNat * Nat.pow 10 places) (Nat.pow 2 (-d.exponent).toNat)
      String.ofList ((if negative then ['-'] else []) ++ withPlaces places n)

end AnimatedChart.Decimal

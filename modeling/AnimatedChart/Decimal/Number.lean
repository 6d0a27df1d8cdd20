import AnimatedChart.Text.Quoted

/-!
# Numbers in data

The numbers of delimited data: decimals with an optional exponent, hexadecimals with a binary exponent, and names for
the infinities and for what is not a number.
-/

namespace AnimatedChart.Decimal

def natOfDigits (ds : List Char) : Nat :=
  ds.foldl (fun n d => 10 * n + (d.toNat - '0'.toNat)) 0

/-- `digits * 10 ^ e`, rounded to the nearest binary number, or nothing when it is out of range. -/
def ofDecimal (negative : Bool) (digits : List Char) (e : Int) : Option Float :=
  let ds := digits.dropWhile (· == '0')
  let signed (x : Float) : Float := if negative then -x else x
  if ds.isEmpty then some (signed 0)
  else
    let lead := (ds.length : Int) + e
    if lead > 310 then none
    else if lead < -330 then some (signed 0)
    else
      let x := Float.ofScientific (natOfDigits ds) (e < 0) e.natAbs
      if x.isInf then none else some (signed x)

/-- An exponent's digits as a number; one with very many digits is as good as any huge exponent. -/
def exponentOfDigits (negative : Bool) (ds : List Char) : Int :=
  let ds := ds.dropWhile (· == '0')
  let n : Nat := if ds.length > 6 then 1000000 else natOfDigits ds
  if negative then -(n : Int) else n

open Text

def isDigitOf (hex : Bool) (c : Char) : Bool := if hex then isHexDigit c else c.isDigit

/-- Every underscore stands between two digits. -/
def underscoresDivide (hex : Bool) (after : Bool) : List Char → Bool
  | [] => true
  | ['_'] => false
  | '_' :: c :: cs => after && isDigitOf hex c && underscoresDivide hex true cs
  | c :: cs => underscoresDivide hex (isDigitOf hex c) cs

def mantissa (hex : Bool) (cs : List Char) : List Char × List Char × List Char :=
  let part (c : Char) : Bool := isDigitOf hex c
  let whole := cs.takeWhile part
  match cs.dropWhile part with
  | '.' :: rest => (whole, rest.takeWhile part, rest.dropWhile part)
  | rest => (whole, [], rest)

def exponentPart : List Char → Option Int
  | '-' :: ds => if ds.isEmpty || !ds.all Char.isDigit then none else some (exponentOfDigits true ds)
  | '+' :: ds => if ds.isEmpty || !ds.all Char.isDigit then none else some (exponentOfDigits false ds)
  | ds => if ds.isEmpty || !ds.all Char.isDigit then none else some (exponentOfDigits false ds)

/-- `m * 2 ^ e`, rounded to the nearest binary number, or nothing when it is out of range. -/
def ofBinary (negative : Bool) (m : Nat) (e : Int) : Option Float :=
  let signed (x : Float) : Float := if negative then -x else x
  let top := (Nat.log2 m : Int) + e
  if m = 0 then some (signed 0)
  else if top > 1100 then none
  else if top < -1200 then some (signed 0)
  else
    let x := if 0 ≤ e then Float.ofScientific (m * Nat.pow 2 e.toNat) false 0
      else Float.ofScientific (m * Nat.pow 5 (-e).toNat) true (-e).toNat
    if x.isInf then none else some (signed x)

def unsignedDecimal (negative : Bool) (cs : List Char) : Option Float :=
  let (whole, fraction, rest) := mantissa false cs
  if whole.isEmpty && fraction.isEmpty then none
  else
    let value (e : Int) : Option Float := ofDecimal negative (whole ++ fraction) (e - fraction.length)
    match rest with
    | [] => value 0
    | c :: cs => if c.toLower = 'e' then (exponentPart cs).bind value else none

def unsignedHex (negative : Bool) (cs : List Char) : Option Float :=
  let (whole, fraction, rest) := mantissa true cs
  if whole.isEmpty && fraction.isEmpty then none
  else
    match rest with
    | c :: cs =>
      if c.toLower = 'p' then
        let m := (whole ++ fraction).foldl (fun n d => 16 * n + (hexValue? d).getD 0) 0
        (exponentPart cs).bind fun e => ofBinary negative m (e - 4 * fraction.length)
      else none
    | [] => none

def unsigned (negative : Bool) (cs : List Char) : Option Float :=
  match cs with
  | '0' :: x :: c :: rest =>
    if x.toLower = 'x' then
      if underscoresDivide true true (c :: rest) then
        unsignedHex negative ((c :: rest).filter (· != '_'))
      else none
    else if underscoresDivide false false cs then unsignedDecimal negative (cs.filter (· != '_'))
    else none
  | _ => if underscoresDivide false false cs then unsignedDecimal negative (cs.filter (· != '_')) else none

def parse? (s : String) : Option Float :=
  let infinite (cs : List Char) : Bool :=
    ["inf", "infinity"].contains (String.ofList (cs.map Char.toLower))
  match s.toList with
  | '-' :: cs => if infinite cs then some (-1 / 0) else unsigned true cs
  | '+' :: cs => if infinite cs then some (1 / 0) else unsigned false cs
  | cs =>
    if infinite cs then some (1 / 0)
    else if String.ofList (cs.map Char.toLower) = "nan" then some (0 / 0)
    else unsigned false cs

end AnimatedChart.Decimal

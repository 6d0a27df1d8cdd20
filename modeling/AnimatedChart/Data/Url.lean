import AnimatedChart.Text.Quoted

/-!
# Addresses

Which texts are addresses that data can be requested from. The text starts with `http://` or `https://`.
-/

namespace AnimatedChart.Data

open Text

def isRemote (url : String) : Bool := url.startsWith "http://" || url.startsWith "https://"

/-- Every percent sign starts an escape of two hexadecimal digits that `allowed` accepts. -/
def escapesValid (allowed : Char → Char → Bool) : List Char → Bool
  | [] => true
  | '%' :: a :: b :: rest => isHexDigit a && isHexDigit b && allowed a b && escapesValid allowed rest
  | c :: rest => c != '%' && escapesValid allowed rest

def isEscaped (cs : List Char) : Bool := escapesValid (fun _ _ => true) cs

def isHostChar (c : Char) : Bool :=
  c.isAlphanum || c.toNat ≥ 0x80 || "-_.~!$&'()*+,;=:[]<>\"%".contains c

def isHostText (cs : List Char) : Bool :=
  cs.all isHostChar
    && escapesValid (fun a b => (hexValue? a).any (· ≥ 8) || (a == '2' && b == '5')) cs

def isPort : List Char → Bool
  | [] => true
  | c :: ds => c == ':' && ds.all Char.isDigit

def lastPart? (c : Char) (cs : List Char) : Option (List Char) :=
  if cs.contains c then some (c :: (cs.reverse.takeWhile (· != c)).reverse) else none

def isFourParts (s : String) : Bool :=
  let parts := s.splitOn "."
  parts.length == 4 && parts.all fun p =>
    !p.isEmpty && p.length ≤ 3 && p.all Char.isDigit && (p == "0" || !p.startsWith "0")
      && (p.toNat?).any (· < 256)

/-- How many groups of a long address a text has. -/
def groupCount? (final : Bool) (s : String) : Option Nat :=
  let isGroup (p : String) : Bool := !p.isEmpty && p.length ≤ 4 && p.all isHexDigit
  if s.isEmpty then some 0
  else
    let parts := s.splitOn ":"
    if parts.all isGroup then some parts.length
    else if final && parts.dropLast.all isGroup && isFourParts (parts.getLast?.getD "") then
      some (parts.length + 1)
    else none

def isLongAddress (s : String) : Bool :=
  match s.splitOn "::" with
  | [a] => groupCount? true a == some 8
  | [a, b] =>
    match groupCount? false a, groupCount? true b with
    | some m, some n => m + n ≤ 7
    | _, _ => false
  | _ => false

/-- The zone of an address, with the escaped percent sign before it. -/
def isZone (cs : List Char) : Bool :=
  let allowed (a b : Char) : Bool :=
    let n := 16 * (hexValue? a).getD 0 + (hexValue? b).getD 0
    n == 0x20 || (n < 0x80 && isHostChar (Char.ofNat n))
  cs.take 3 == ['%', '2', '5'] && cs.length > 3 && cs.all isHostChar && escapesValid allowed cs

/-- A host with its port. -/
def isHost (cs : List Char) : Bool :=
  match cs with
  | '[' :: inner =>
    match lastPart? ']' inner with
    | none => false
    | some after =>
      let name := inner.take (inner.length - after.length)
      let address := name.takeWhile (· != '%')
      let zone := name.drop address.length
      !inner.contains '[' && isPort after.tail && isLongAddress (String.ofList address)
        && (zone.isEmpty || isZone zone)
  | _ => !cs.contains '[' && (lastPart? ':' cs).all isPort && isHostText cs

def isUserChar (c : Char) : Bool := c.isAlphanum || "-._:~!$&'()*+,;=%@".contains c

def isAuthority (cs : List Char) : Bool :=
  match lastPart? '@' cs with
  | none => isHost cs
  | some host =>
    let user := cs.take (cs.length - host.length)
    isHost host.tail && user.all isUserChar && isEscaped user

def isRequestable (url : String) : Bool :=
  let cs := url.toList
  let main := cs.takeWhile (· != '#')
  let fragment := (cs.drop main.length).drop 1
  let rest := (main.dropWhile (· != '/')).drop 2
  let rest := rest.takeWhile (· != '?')
  let authority := rest.takeWhile (· != '/')
  main.all (fun c => c.toNat ≥ 0x20 && c.toNat != 0x7F)
    && isAuthority authority && isEscaped (rest.drop authority.length) && isEscaped fragment

end AnimatedChart.Data

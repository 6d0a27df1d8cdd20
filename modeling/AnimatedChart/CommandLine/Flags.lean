import AnimatedChart.Dict
import AnimatedChart.Error
import AnimatedChart.Text.Bytes

/-!
# Flags

Words on a command line that start with a hyphen set flags, and the others are arguments.
-/

namespace AnimatedChart.CommandLine

open Text (hexValue?)

inductive FlagKind where
  | text
  | switch
  | number
deriving Repr, DecidableEq, Inhabited

structure Flag where
  name : String
  letter : Option Char := none
  kind : FlagKind := .text
deriving Repr, Inhabited

namespace Flag

def title (f : Flag) : String :=
  match f.letter with
  | some c => "-" ++ String.singleton c ++ ", --" ++ f.name
  | none => "--" ++ f.name

def bare (f : Flag) : Option String := if f.kind = .switch then some "true" else none

end Flag

/-! ## Values -/

def switch? (s : String) : Option Bool :=
  if ["1", "t", "T", "TRUE", "true", "True"].contains s then some true
  else if ["0", "f", "F", "FALSE", "false", "False"].contains s then some false
  else none

/-- The outcome of reading a number: one that does not fit in 64 bits is out of range. -/
inductive NumberReading where
  | ok (n : Int)
  | malformed
  | outOfRange
deriving Repr, DecidableEq, Inhabited

def underscoresFit : (before : Bool) → List Char → Bool
  | before, [] => before
  | before, c :: cs => (c != '_' || before) && underscoresFit (c != '_') cs

/-- The number of digits in a base behind `n` that was read before, underscores left out. -/
def magnitude (base : Nat) : (n : Nat) → List Char → NumberReading
  | n, [] => .ok n
  | n, c :: cs =>
    if c == '_' then magnitude base n cs
    else
      match (hexValue? c).filter (· < base) with
      | none => .malformed
      | some d => if base * n + d < 18446744073709551616 then magnitude base (base * n + d) cs else .outOfRange

def markedBase? (c : Char) : Option Nat :=
  match c.toLower with
  | 'x' => some 16
  | 'o' => some 8
  | 'b' => some 2
  | _ => none

/-- The base of a number without its sign, and its digits with whether a digit came before them. -/
def basedDigits : List Char → Nat × Bool × List Char
  | '0' :: c :: d :: cs =>
    match markedBase? c with
    | some base => (base, true, d :: cs)
    | none => (8, true, c :: d :: cs)
  | '0' :: cs => (8, true, cs)
  | cs => (10, false, cs)

def readNumber (s : String) : NumberReading :=
  let (negative, cs) := match s.toList with
    | '-' :: cs => (true, cs)
    | '+' :: cs => (false, cs)
    | cs => (false, cs)
  let (base, before, digits) := basedDigits cs
  match magnitude base 0 digits with
  | .ok n =>
    let n : Int := if negative then -n else n
    if !underscoresFit before digits then .malformed
    else if -9223372036854775808 ≤ n ∧ n < 9223372036854775808 then .ok n
    else .outOfRange
  | r => r

def number (s : String) : Int :=
  match readNumber s with
  | .ok n => n
  | _ => 0

def FlagKind.refusal? (k : FlagKind) (value : String) : Option String :=
  let parsing (what why : String) : String := "strconv." ++ what ++ ": parsing " ++ Text.quote value ++ ": " ++ why
  match k with
  | .text => none
  | .switch => if (switch? value).isSome then none else some (parsing "ParseBool" "invalid syntax")
  | .number =>
    match readNumber value with
    | .ok _ => none
    | .malformed => some (parsing "ParseInt" "invalid syntax")
    | .outOfRange => some (parsing "ParseInt" "value out of range")

/-! ## Words -/

structure Arguments where
  flags : Dict String := []
  words : List String := []
deriving Repr, Inhabited

namespace Arguments

def text (a : Arguments) (flag : String) : String := (Dict.get? a.flags flag).getD ""

def on (a : Arguments) (flag : String) : Bool := (switch? (a.text flag)).getD false

def word (a : Arguments) : String := a.words.headD ""

end Arguments

def Flag.set (f : Flag) (value : String) (a : Arguments) : Except Error Arguments :=
  match f.kind.refusal? value with
  | some why =>
    .error (.plain ("invalid argument " ++ Text.quote value ++ " for " ++ Text.quote f.title ++ " flag: " ++ why))
  | none => .ok { a with flags := Dict.put f.name value a.flags }

def splitEquals (cs : List Char) : String × Option String :=
  (String.ofList (cs.takeWhile (· != '=')),
    match cs.dropWhile (· != '=') with
    | [] => none
    | _ :: value => some (String.ofList value))

/-- Errors quote a letter so. -/
def letterText (c : Char) : String :=
  let b := Char.ofNat ((Text.bytes (String.singleton c)).headD 0).toNat
  let shown := if b = '\'' then ['\\', b] else if b = '"' then [b] else Text.quoteChar b
  "'" ++ String.ofList shown ++ "'"

def areForTests (cs : List Char) : Bool := cs.take 5 == "test.".toList

/-- What a word means: it is an argument, it ends the flags, or it sets flags, the last of which may still
need a value. -/
inductive WordReading where
  | argument
  | finish
  | sets (a : Arguments)
  | needs (f : Flag) (a : Arguments) (otherwise : Error)

def readLetters (flags : List Flag) (a : Arguments) : List Char → Except Error WordReading
  | [] => .ok (.sets a)
  | c :: cs =>
    if areForTests (c :: cs) then .ok (.sets a)
    else
      match flags.find? (·.letter == some c) with
      | none =>
        .error (.plain ("unknown shorthand flag: " ++ letterText c ++ " in -" ++ String.ofList (c :: cs)))
      | some f =>
        match cs, f.bare with
        | '=' :: v :: vs, _ => (f.set (String.ofList (v :: vs)) a).map .sets
        | _, some value => (f.set value a).bind fun a => readLetters flags a cs
        | [], none =>
          .ok (.needs f a (.plain ("flag needs an argument: " ++ letterText c ++ " in -" ++ String.singleton c)))
        | _, none => (f.set (String.ofList cs) a).map .sets

def readWord (flags : List Flag) (a : Arguments) (w : String) : Except Error WordReading :=
  match w.toList with
  | ['-', '-'] => .ok .finish
  | '-' :: '-' :: cs =>
    if cs.head? == some '-' || cs.head? == some '=' then .error (.plain ("bad flag syntax: " ++ w))
    else
      let (name, value) := splitEquals cs
      match flags.find? (·.name == name) with
      | none => .error (.plain ("unknown flag: --" ++ name))
      | some f =>
        match value.orElse fun _ => f.bare with
        | some v => (f.set v a).map .sets
        | none => .ok (.needs f a (.plain ("flag needs an argument: --" ++ name)))
  | '-' :: c :: cs => readLetters flags a (c :: cs)
  | _ => .ok .argument

def readWords (flags : List Flag) (a : Arguments) : List String → Except Error Arguments
  | [] => .ok a
  | w :: ws =>
    match readWord flags a w with
    | .error e => .error e
    | .ok .argument => readWords flags { a with words := a.words ++ [w] } ws
    | .ok .finish => .ok { a with words := a.words ++ ws }
    | .ok (.sets a) => readWords flags a ws
    | .ok (.needs f a otherwise) =>
      match ws with
      | [] => .error otherwise
      | v :: ws =>
        match f.set v a with
        | .error e => .error e
        | .ok a => readWords flags a ws

end AnimatedChart.CommandLine

import AnimatedChart.Text.Quoted

/-!
# Errors

An error is a cause wrapped in context. Some causes lie outside this library (malformed JSON, a file that cannot be
read); they are named by their kind only.
-/

namespace AnimatedChart

inductive Code where
  | invalidInput
  | invalidSpec
  | invalidFormat
  | invalidConfig
  | missingField
  | notFound
  | fileNotFound
  | baseCompiler
  | network
  | timeout
  | internal
  | unsupported
  | other (name : String)
deriving Repr, DecidableEq, Inhabited

namespace Code

def name : Code → String
  | invalidInput => "INVALID_INPUT"
  | invalidSpec => "INVALID_SPEC"
  | invalidFormat => "INVALID_FORMAT"
  | invalidConfig => "INVALID_CONFIG"
  | missingField => "MISSING_FIELD"
  | notFound => "NOT_FOUND"
  | fileNotFound => "FILE_NOT_FOUND"
  | baseCompiler => "BASE_COMPILER"
  | network => "NETWORK_ERROR"
  | timeout => "TIMEOUT"
  | internal => "INTERNAL_ERROR"
  | unsupported => "UNSUPPORTED"
  | other n => n

end Code

inductive Outside where
  | json
  | csv
  | toml
  | file
  | url
deriving Repr, DecidableEq, Inhabited

def Outside.text : Outside → String
  | json => "<json>"
  | csv => "<csv>"
  | toml => "<toml>"
  | file => "<os>"
  | url => "<url>"

inductive Error where
  | outside (cause : Outside)
  | plain (text : String)
  /-- The work cannot go on, and there is nothing to say about it. -/
  | fatal
  /-- A categorised error with the error it was caused by, if any. -/
  | coded (code : Code) (text : String) (cause : Option Error)
  | within (context : String) (inner : Error)
deriving Repr, Inhabited

namespace Error

def text : Error → String
  | outside o => o.text
  | plain t => t
  | fatal => ""
  | coded c t none => c.name ++ ": " ++ t
  | coded c t (some e) => c.name ++ ": " ++ t ++ ": " ++ e.text
  | within ctx e => ctx ++ ": " ++ e.text

def code? : Error → Option Code
  | outside _ => none
  | plain _ => none
  | fatal => none
  | coded c _ _ => some c
  | within _ e => e.code?

def isFatal : Error → Bool
  | fatal => true
  | coded _ _ (some e) => e.isFatal
  | within _ e => e.isFatal
  | _ => false

def userText (e : Error) : String :=
  go e
where
  go : Error → String
    | coded _ t _ => t
    | within _ inner => if inner.code?.isSome then go inner else e.text
    | _ => e.text

def isCoded (e : Error) (c : Code) : Bool :=
  match e.code? with
  | some c' => c'.name == c.name
  | none => false

def new (c : Code) (t : String) : Error := coded c t none

def wrap (c : Code) (t : String) (cause : Error) : Error := coded c t (some cause)

def missing (construct field : String) : Error :=
  new .missingField (construct ++ " requires " ++ Text.quote field)

end Error
end AnimatedChart

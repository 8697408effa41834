import StyleGrammar.Location
import StyleGrammar.Token.Basic

/-!
# Faults of values

What can be wrong with the text of a value, and where.  The wording is `Cause.message`.
-/

namespace StyleGrammar

/-- Why a text is no value. -/
inductive Cause
  | endOfInput
  | invalidValue
  | unexpectedToken (t : Token)
  | unknownFunction (name : String)
  | unknownUnit (name : String)
  deriving DecidableEq, Repr, Inhabited

def Cause.message : Cause → String
  | endOfInput => "Unexpected end of input"
  | invalidValue => "Invalid value"
  | unexpectedToken t => "Unexpected token " ++ t.describe
  | unknownFunction n => "Unknown CSS function '" ++ n ++ "'"
  | unknownUnit u => "Unknown unit '" ++ u ++ "'"

/-- A cause and the place it was met. -/
structure Fault where
  cause : Cause
  place : Location
  deriving DecidableEq, Repr, Inhabited

def Location.suffix (l : Location) : String :=
  " at " ++ toString l.line ++ ":" ++ toString l.column

def Fault.message (f : Fault) : String := f.cause.message ++ f.place.suffix

end StyleGrammar

/-!
# FormulaLang.Program.ParseError

What can be wrong with a formula's text. An error is a cause and the byte of the text, without
blanks, where the offending item starts.
-/

namespace FormulaLang

inductive ParseError.Cause where
  | unexpectedCharacter (found : String)
  | unexpectedToken (found : String)
  | unexpectedEnd
  | missingClosingParen
  | expectedComma (found : String)
  | invalidNumber (literal : String)
  deriving DecidableEq, Repr

structure ParseError where
  cause : ParseError.Cause
  position : Nat
  deriving DecidableEq, Repr

namespace ParseError

/-- The text that the error complains about; the two errors about something missing have none. -/
def Cause.found? : Cause → Option String
  | unexpectedCharacter found => some found
  | unexpectedToken found => some found
  | unexpectedEnd => none
  | missingClosingParen => none
  | expectedComma found => some found
  | invalidNumber literal => some literal

def Cause.message : Cause → String
  | unexpectedCharacter found => "Unexpected character '" ++ found ++ "'."
  | unexpectedToken found => "Unexpected token '" ++ found ++ "'."
  | unexpectedEnd => "Unexpected end of input."
  | missingClosingParen => "Expected closing parenthesis ')' but none found."
  | expectedComma found => "Expected ',' between function arguments, found '" ++ found ++ "'."
  | invalidNumber literal => "'" ++ literal ++ "' is not a valid number."

def message (e : ParseError) : String :=
  "Error at position " ++ e.position.repr ++ ": " ++ e.cause.message

/-- The same error in a text with `offset` more bytes in front. -/
def shift (offset : Nat) (e : ParseError) : ParseError := { e with position := e.position + offset }

end ParseError

end FormulaLang

import FormulaLang.Decimal.Read
import FormulaLang.Text.Blank

/-!
# FormulaLang.CommandLine.Binding

Bindings of variables as they are written on the command line, `NAME=VALUE`. The name ends at the
first `=`. Blanks around the name and the value are dropped; inside the name everything is allowed.
-/

namespace FormulaLang.CommandLine

inductive BindingError where
  | missingSign (raw : String)
  | emptyValue (name : String)
  | badValue (name : String)
  deriving DecidableEq, Repr

def BindingError.message : BindingError → String
  | missingSign raw => "expected NAME=VALUE, found '" ++ raw ++ "'"
  | emptyValue name => "invalid value for '" ++ name ++ "': cannot parse float from empty string"
  | badValue name => "invalid value for '" ++ name ++ "': invalid float literal"

/-- Splits a text at its first `=`. -/
def splitSign? (cs : List Char) : Option (List Char × List Char) :=
  match cs with
  | [] => none
  | '=' :: rest => some ([], rest)
  | c :: rest => (splitSign? rest).map fun (before, after) => (c :: before, after)

/-- Reads a binding. Errors show the name as it is written. -/
def readBinding (raw : String) : Except BindingError (String × Float) :=
  match splitSign? raw.toList with
  | none => .error (.missingSign raw)
  | some (name, value) =>
    let value := (Text.trim (.ofList value)).toList
    match Decimal.readSigned? value with
    | some x => .ok (Text.trim (.ofList name), x)
    | none => .error (if value.isEmpty then .emptyValue (.ofList name) else .badValue (.ofList name))

end FormulaLang.CommandLine

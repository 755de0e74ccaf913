import FormulaLang.Decimal.Shortest
import FormulaLang.Operator

/-!
# FormulaLang.Evaluation.Error

Argument counts, and what can go wrong while a program runs.
-/

namespace FormulaLang

/-- The numbers of arguments that a function takes. -/
inductive Arity where
  | exactly (count : Nat)
  | between (least most : Nat)
  deriving DecidableEq, Repr

namespace Arity

def accepts : Arity → Nat → Bool
  | exactly count, found => found = count
  | between least most, found => least ≤ found && found ≤ most

def text : Arity → String
  | exactly 1 => "1 argument"
  | exactly count => count.repr ++ " arguments"
  | between least most => least.repr ++ " to " ++ most.repr ++ " arguments"

end Arity

inductive EvalError where
  | undefinedVariable (name : String)
  | unknownFunction (name : String)
  | argumentCount (name : String) (expected : Arity) (found : Nat)
  | divisionByZero (op : Operator)
  /-- A number of digits that rounding does not offer. -/
  | digitCount (digits : Float)
  | emptyProgram
  /-- A rule was handed fewer arguments than it reads. The counts of the builtin functions keep
  this from happening in a run. -/
  | missingArgument
  deriving DecidableEq

namespace EvalError

def message : EvalError → String
  | undefinedVariable name => "Undefined variable '" ++ name ++ "'."
  | unknownFunction name => "Unknown function '" ++ name ++ "'."
  | argumentCount name expected found =>
    "Function '" ++ name ++ "' expects " ++ expected.text ++ ", but got " ++ found.repr ++ "."
  | divisionByZero op => "Division by zero in '" ++ op.symbol ++ "'."
  | digitCount digits =>
    "Invalid argument to 'round': digit count " ++ Decimal.floatText digits ++
      " is not between 0 and 15."
  | emptyProgram => "Cannot evaluate an empty formula."
  | missingArgument => "A rule was handed too few arguments."

end EvalError

/-- Checks the number of arguments of a call. The error names the function as the call does. -/
def Arity.check (expected : Arity) (name : String) (found : Nat) : Except EvalError Unit :=
  if expected.accepts found then .ok () else .error (.argumentCount name expected found)

end FormulaLang

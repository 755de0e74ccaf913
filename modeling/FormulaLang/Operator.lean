/-!
# FormulaLang.Operator

The twelve binary operators, their symbols, and their levels: an operator of a lower level binds
tighter, operators of one level group from the left.
-/

namespace FormulaLang

inductive Operator where
  | add | sub | mul | div | rem | pow
  | eq | ne | lt | le | gt | ge
  deriving DecidableEq, Repr

namespace Operator

def all : List Operator := [add, sub, mul, div, rem, pow, eq, ne, lt, le, gt, ge]

def symbol : Operator → String
  | add => "+"
  | sub => "-"
  | mul => "*"
  | div => "/"
  | rem => "%"
  | pow => "^"
  | eq => "=="
  | ne => "!="
  | lt => "<"
  | le => "<="
  | gt => ">"
  | ge => ">="

def ofSymbol? (s : String) : Option Operator := all.find? (·.symbol = s)

def isComparison : Operator → Bool
  | eq | ne | lt | le | gt | ge => true
  | _ => false

/-- Powers bind tightest, then products, then sums, then comparisons. -/
def level : Operator → Nat
  | pow => 1
  | mul | div | rem => 2
  | add | sub => 3
  | eq | ne | lt | le | gt | ge => 4

end Operator

end FormulaLang

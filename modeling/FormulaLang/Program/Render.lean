import FormulaLang.Program.Basic
import FormulaLang.Decimal.Shortest

/-!
# FormulaLang.Program.Render

The normal form of a program's text: every operator application stands in parentheses, operators
and `=` have a blank on both sides, arguments are separated by `, ` and statements by `; `.
-/

namespace FormulaLang

mutual

def Expr.render : Expr → String
  | .num value => Decimal.floatText value
  | .var name => name
  | .assign name value => name ++ " = " ++ value.render
  | .binary op left right => "(" ++ left.render ++ " " ++ op.symbol ++ " " ++ right.render ++ ")"
  | .call name arguments => name ++ "(" ++ Expr.renderList ", " arguments ++ ")"
  | .quote statements => "\"" ++ Expr.renderList "; " statements ++ "\""

def Expr.renderList (separator : String) : List Expr → String
  | [] => ""
  | [e] => e.render
  | e :: f :: es => e.render ++ separator ++ Expr.renderList separator (f :: es)

end

def Program.render (p : Program) : String := Expr.renderList "; " p

end FormulaLang

import FormulaLang.Operator

/-!
# FormulaLang.Program.Basic

Expressions and programs. A program is a list of statements; a statement is an expression, most
often an assignment. A quote is a program in the place of an expression.

Trees are compared with `==`, which compares numbers as numbers: zeros of either sign agree, and
a value that is not a number agrees with nothing.
-/

namespace FormulaLang

inductive Expr where
  | num (value : Float)
  | var (name : String)
  | assign (name : String) (value : Expr)
  | binary (op : Operator) (left right : Expr)
  | call (name : String) (arguments : List Expr)
  | quote (statements : List Expr)

abbrev Program := List Expr

mutual

def Expr.agrees : Expr → Expr → Bool
  | .num x, .num y => x == y
  | .var m, .var n => m == n
  | .assign m a, .assign n b => m == n && a.agrees b
  | .binary p a b, .binary q c d => p == q && a.agrees c && b.agrees d
  | .call m as, .call n bs => m == n && Expr.allAgree as bs
  | .quote as, .quote bs => Expr.allAgree as bs
  | _, _ => false

def Expr.allAgree : List Expr → List Expr → Bool
  | [], [] => true
  | a :: as, b :: bs => a.agrees b && Expr.allAgree as bs
  | _, _ => false

end

instance : BEq Expr := ⟨Expr.agrees⟩

end FormulaLang

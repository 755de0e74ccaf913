import Mathlib
import FormulaLang.Program.Basic

/-!
# FormulaLang.Proofs.Nodes

The nodes of a tree: the expression itself and every expression below it, also inside quotes and
among arguments. A property of a tree is most often a property of all its nodes; `Everywhere` goes
down to the parts by one equation for each kind of expression.
-/

namespace FormulaLang

mutual

def Expr.nodes : Expr → List Expr
  | .num x => [.num x]
  | .var name => [.var name]
  | .assign name value => .assign name value :: value.nodes
  | .binary op left right => .binary op left right :: (left.nodes ++ right.nodes)
  | .call name es => .call name es :: Expr.nodesOf es
  | .quote p => .quote p :: Expr.nodesOf p

def Expr.nodesOf : List Expr → List Expr
  | [] => []
  | e :: es => e.nodes ++ Expr.nodesOf es

end

def Program.nodes (p : Program) : List Expr := Expr.nodesOf p

namespace Expr

/-- The names that a node spells itself. -/
def names : Expr → List String
  | .var name => [name]
  | .assign name _ => [name]
  | .call name _ => [name]
  | _ => []

/-- The assigned value, or the two sides of an operator. -/
def operands : Expr → List Expr
  | .assign _ value => [value]
  | .binary _ left right => [left, right]
  | _ => []

def isAssign : Expr → Bool
  | .assign _ _ => true
  | _ => false

def isQuote : Expr → Bool
  | .quote _ => true
  | _ => false

def Everywhere (P : Expr → Prop) (e : Expr) : Prop := ∀ n ∈ e.nodes, P n

def EverywhereIn (P : Expr → Prop) (es : List Expr) : Prop := ∀ n ∈ nodesOf es, P n

section Everywhere

variable {P Q : Expr → Prop}

@[simp] theorem everywhere_num {x : Float} : Everywhere P (.num x) ↔ P (.num x) := by
  simp [Everywhere, nodes]

@[simp] theorem everywhere_var {name : String} : Everywhere P (.var name) ↔ P (.var name) := by
  simp [Everywhere, nodes]

@[simp] theorem everywhere_assign {name : String} {value : Expr} :
    Everywhere P (.assign name value) ↔ P (.assign name value) ∧ Everywhere P value := by
  simp [Everywhere, nodes]

@[simp] theorem everywhere_binary {op : Operator} {left right : Expr} :
    Everywhere P (.binary op left right) ↔
      P (.binary op left right) ∧ Everywhere P left ∧ Everywhere P right := by
  simp [Everywhere, nodes, or_imp, forall_and]

@[simp] theorem everywhere_call {name : String} {es : List Expr} :
    Everywhere P (.call name es) ↔ P (.call name es) ∧ EverywhereIn P es := by
  simp [Everywhere, EverywhereIn, nodes]

@[simp] theorem everywhere_quote {p : Program} :
    Everywhere P (.quote p) ↔ P (.quote p) ∧ EverywhereIn P p := by
  simp [Everywhere, EverywhereIn, nodes]

@[simp] theorem everywhereIn_nil : EverywhereIn P [] := by
  simp [EverywhereIn, nodesOf]

@[simp] theorem everywhereIn_cons {e : Expr} {es : List Expr} :
    EverywhereIn P (e :: es) ↔ Everywhere P e ∧ EverywhereIn P es := by
  simp [Everywhere, EverywhereIn, nodesOf, or_imp, forall_and]

theorem everywhereIn_mono (h : ∀ e, P e → Q e) {es : List Expr} (hes : EverywhereIn P es) :
    EverywhereIn Q es :=
  fun n hn => h n (hes n hn)

end Everywhere

end Expr
end FormulaLang

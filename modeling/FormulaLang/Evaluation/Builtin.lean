import FormulaLang.Evaluation.Arithmetic

/-!
# FormulaLang.Evaluation.Builtin

The builtin functions. Each has a name, the numbers of arguments it takes, a mode for each
argument, and a rule. Names are matched without regard to the case of ASCII letters. An eager
argument is evaluated before the call, a deferred one only where the rule asks for it.
-/

namespace FormulaLang

inductive Mode where
  | eager
  | deferred
  deriving DecidableEq, Repr

inductive Control where
  | branch
  | count
  | loop
  deriving DecidableEq, Repr

inductive Rule where
  | math (f : MathFunction)
  | control (c : Control)
  deriving DecidableEq, Repr

structure Builtin where
  name : String
  arity : Arity
  /-- The modes of the first arguments; all others are eager. -/
  modes : List Mode
  rule : Rule
  deriving DecidableEq, Repr

/-- A text with its ASCII capitals made small. -/
def foldCase (s : String) : String := .ofList (s.toList.map Char.toLower)

namespace Builtin

def eager (name : String) (arity : Arity) (f : MathFunction) : Builtin :=
  ⟨name, arity, [], .math f⟩

def table : List Builtin := [
  eager "max" (.exactly 2) .max,
  eager "min" (.exactly 2) .min,
  eager "abs" (.exactly 1) .abs,
  eager "sqrt" (.exactly 1) .sqrt,
  eager "pow" (.exactly 2) .pow,
  eager "sin" (.exactly 1) .sin,
  eager "cos" (.exactly 1) .cos,
  eager "tan" (.exactly 1) .tan,
  eager "log" (.between 1 2) .log,
  eager "exp" (.exactly 1) .exp,
  eager "round" (.between 1 2) .round,
  eager "ceil" (.exactly 1) .ceil,
  eager "ceiling" (.exactly 1) .ceil,
  eager "floor" (.exactly 1) .floor,
  eager "sign" (.exactly 1) .sign,
  ⟨"if", .exactly 3, [.eager, .deferred, .deferred], .control .branch⟩,
  ⟨"for", .exactly 2, [.eager, .deferred], .control .count⟩,
  ⟨"while", .exactly 2, [.deferred, .deferred], .control .loop⟩]

/-- The builtin function of a name in any case. -/
def find? (name : String) : Option Builtin := table.find? (·.name = foldCase name)

def isBuiltin (name : String) : Bool := (find? name).isSome

/-- The names in the table are their own folded forms, so folding the name that is looked up is
enough to compare without regard to case. -/
theorem foldCase_name {b : Builtin} (h : b ∈ table) : foldCase b.name = b.name := by
  revert b
  decide +kernel

theorem find?_name {b : Builtin} (h : b ∈ table) : find? b.name = some b := by
  revert b
  decide +kernel

theorem mem_table_of_find? {name : String} {b : Builtin} (h : find? name = some b) :
    b ∈ table ∧ b.name = foldCase name :=
  ⟨List.mem_of_find?_eq_some h, by simpa using List.find?_some h⟩

end Builtin

end FormulaLang

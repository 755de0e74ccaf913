import Mathlib
import FormulaLang.Evaluation.Run
import FormulaLang.Proofs.Nearest

/-!
# FormulaLang.Proofs.BigStep

A direct semantics of expressions and programs: no lazy arguments, no modes, no fuel. Each relation
takes a state to an outcome, which is a value or the first error, and the state the effects so far
have led to.

* `Evaluates`: one expression. The three control functions have rules of their own, which say which
  argument is evaluated when; a conditional loop that goes on is evaluated anew. A condition holds
  unless its value is a zero of either sign.
* `EvaluatesEach`: expressions from left to right, each once.
* `Runs`: the statements of a program in order.
* `Rounds counter body n i`: the last `n` rounds of a counted loop, from round `i` on. The counter of
  a round is the double of its index.

The rules whose names end in `Err` stop at the first error.
-/

namespace FormulaLang
namespace BigStep

open Binary64 (Converts magnitude)

variable {σ : Type}

/-- The state with another number of running loops. -/
def atDepth (s : State σ) (depth : Nat) : State σ := { s with depth := depth }

/-- The state after a call of a host function, whose answer has been taken. -/
def noted (s : State σ) (name : String) (xs : List Float) (host : σ) : State σ :=
  { s with host := host, calls := ⟨name, xs⟩ :: s.calls }

mutual

inductive Evaluates (functions : Registry σ) :
    Expr → State σ → Except EvalError Float → State σ → Prop where
  | num {x : Float} {s : State σ} : Evaluates functions (.num x) s (.ok x) s
  | var {name : String} {x : Float} {s : State σ} : s.get? name = some x →
      Evaluates functions (.var name) s (.ok x) s
  | varErr {name : String} {s : State σ} : s.get? name = none →
      Evaluates functions (.var name) s (.error (.undefinedVariable name)) s
  | assign {name : String} {e : Expr} {x : Float} {s t : State σ} :
      Evaluates functions e s (.ok x) t →
      Evaluates functions (.assign name e) s (.ok x) (t.set name x)
  | assignErr {name : String} {e : Expr} {err : EvalError} {s t : State σ} :
      Evaluates functions e s (.error err) t →
      Evaluates functions (.assign name e) s (.error err) t
  | binary {op : Operator} {left right : Expr} {x y : Float} {s t u : State σ} :
      Evaluates functions left s (.ok x) t → Evaluates functions right t (.ok y) u →
      Evaluates functions (.binary op left right) s (op.apply x y) u
  | binaryLeftErr {op : Operator} {left right : Expr} {err : EvalError} {s t : State σ} :
      Evaluates functions left s (.error err) t →
      Evaluates functions (.binary op left right) s (.error err) t
  | binaryRightErr {op : Operator} {left right : Expr} {x : Float} {err : EvalError}
      {s t u : State σ} :
      Evaluates functions left s (.ok x) t → Evaluates functions right t (.error err) u →
      Evaluates functions (.binary op left right) s (.error err) u
  | quote {p : Program} {o : Except EvalError Float} {s t : State σ} :
      Runs functions p s o t → Evaluates functions (.quote p) s o t
  | unknownErr {name : String} {es : List Expr} {s : State σ} : Builtin.find? name = none →
      functions.get? name = none →
      Evaluates functions (.call name es) s (.error (.unknownFunction name)) s
  | hostCountErr {name : String} {f : HostFunction σ} {es : List Expr} {s : State σ} :
      Builtin.find? name = none → functions.get? name = some f → es.length ≠ f.arity →
      Evaluates functions (.call name es) s
        (.error (.argumentCount name (.exactly f.arity) es.length)) s
  | hostErr {name : String} {f : HostFunction σ} {es : List Expr} {err : EvalError}
      {s t : State σ} : Builtin.find? name = none → functions.get? name = some f →
      es.length = f.arity → EvaluatesEach functions es s (.error err) t →
      Evaluates functions (.call name es) s (.error err) t
  | host {name : String} {f : HostFunction σ} {es : List Expr} {xs : List Float} {s t : State σ} :
      Builtin.find? name = none → functions.get? name = some f → es.length = f.arity →
      EvaluatesEach functions es s (.ok xs) t →
      Evaluates functions (.call name es) s (.ok (f.call t.host xs).1)
        (noted t name xs (f.call t.host xs).2)
  | builtinCountErr {name : String} {b : Builtin} {es : List Expr} {s : State σ} :
      Builtin.find? name = some b → b.arity.accepts es.length = false →
      Evaluates functions (.call name es) s (.error (.argumentCount name b.arity es.length)) s
  | mathErr {name : String} {b : Builtin} {f : MathFunction} {es : List Expr} {err : EvalError}
      {s t : State σ} : Builtin.find? name = some b → b.rule = .math f →
      b.arity.accepts es.length = true → EvaluatesEach functions es s (.error err) t →
      Evaluates functions (.call name es) s (.error err) t
  | math {name : String} {b : Builtin} {f : MathFunction} {es : List Expr} {xs : List Float}
      {s t : State σ} : Builtin.find? name = some b → b.rule = .math f →
      b.arity.accepts es.length = true → EvaluatesEach functions es s (.ok xs) t →
      Evaluates functions (.call name es) s (f.apply xs) t
  | ifErr {name : String} {c yes no : Expr} {err : EvalError} {s t : State σ} :
      foldCase name = "if" → Evaluates functions c s (.error err) t →
      Evaluates functions (.call name [c, yes, no]) s (.error err) t
  | ifYes {name : String} {c yes no : Expr} {x : Float} {o : Except EvalError Float}
      {s t u : State σ} : foldCase name = "if" → Evaluates functions c s (.ok x) t →
      magnitude x ≠ 0 → Evaluates functions yes t o u →
      Evaluates functions (.call name [c, yes, no]) s o u
  | ifNo {name : String} {c yes no : Expr} {x : Float} {o : Except EvalError Float}
      {s t u : State σ} : foldCase name = "if" → Evaluates functions c s (.ok x) t →
      magnitude x = 0 → Evaluates functions no t o u →
      Evaluates functions (.call name [c, yes, no]) s o u
  | forErr {name : String} {c body : Expr} {err : EvalError} {s t : State σ} :
      foldCase name = "for" → Evaluates functions c s (.error err) t →
      Evaluates functions (.call name [c, body]) s (.error err) t
  | forRounds {name : String} {c body : Expr} {x : Float} {o : Except EvalError Unit}
      {s t u : State σ} : foldCase name = "for" → Evaluates functions c s (.ok x) t →
      Rounds functions (counterName (s.depth + 1)) body (iterationCount x) 0
        (atDepth t (s.depth + 1)) o u →
      Evaluates functions (.call name [c, body]) s (o.map fun _ => 1.0) (atDepth u s.depth)
  | whileErr {name : String} {c body : Expr} {err : EvalError} {s t : State σ} :
      foldCase name = "while" → Evaluates functions c s (.error err) t →
      Evaluates functions (.call name [c, body]) s (.error err) t
  | whileDone {name : String} {c body : Expr} {x : Float} {s t : State σ} :
      foldCase name = "while" → Evaluates functions c s (.ok x) t → magnitude x = 0 →
      Evaluates functions (.call name [c, body]) s (.ok 1.0) t
  | whileBodyErr {name : String} {c body : Expr} {x : Float} {err : EvalError} {s t u : State σ} :
      foldCase name = "while" → Evaluates functions c s (.ok x) t → magnitude x ≠ 0 →
      Evaluates functions body t (.error err) u →
      Evaluates functions (.call name [c, body]) s (.error err) u
  | whileAgain {name : String} {c body : Expr} {x y : Float} {o : Except EvalError Float}
      {s t u v : State σ} : foldCase name = "while" → Evaluates functions c s (.ok x) t →
      magnitude x ≠ 0 → Evaluates functions body t (.ok y) u →
      Evaluates functions (.call name [c, body]) u o v →
      Evaluates functions (.call name [c, body]) s o v

inductive EvaluatesEach (functions : Registry σ) :
    List Expr → State σ → Except EvalError (List Float) → State σ → Prop where
  | nil {s : State σ} : EvaluatesEach functions [] s (.ok []) s
  | cons {e : Expr} {es : List Expr} {x : Float} {xs : List Float} {s t u : State σ} :
      Evaluates functions e s (.ok x) t → EvaluatesEach functions es t (.ok xs) u →
      EvaluatesEach functions (e :: es) s (.ok (x :: xs)) u
  | headErr {e : Expr} {es : List Expr} {err : EvalError} {s t : State σ} :
      Evaluates functions e s (.error err) t → EvaluatesEach functions (e :: es) s (.error err) t
  | tailErr {e : Expr} {es : List Expr} {x : Float} {err : EvalError} {s t u : State σ} :
      Evaluates functions e s (.ok x) t → EvaluatesEach functions es t (.error err) u →
      EvaluatesEach functions (e :: es) s (.error err) u

inductive Runs (functions : Registry σ) :
    Program → State σ → Except EvalError Float → State σ → Prop where
  | empty {s : State σ} : Runs functions [] s (.error .emptyProgram) s
  | last {e : Expr} {o : Except EvalError Float} {s t : State σ} :
      Evaluates functions e s o t → Runs functions [e] s o t
  | cons {e f : Expr} {es : Program} {x : Float} {o : Except EvalError Float} {s t u : State σ} :
      Evaluates functions e s (.ok x) t → Runs functions (f :: es) t o u →
      Runs functions (e :: f :: es) s o u
  | headErr {e f : Expr} {es : Program} {err : EvalError} {s t : State σ} :
      Evaluates functions e s (.error err) t → Runs functions (e :: f :: es) s (.error err) t

inductive Rounds (functions : Registry σ) :
    String → Expr → Nat → Nat → State σ → Except EvalError Unit → State σ → Prop where
  | done {counter : String} {body : Expr} {i : Nat} {s : State σ} :
      Rounds functions counter body 0 i s (.ok ()) s
  | cons {counter : String} {body : Expr} {n i : Nat} {v x : Float} {o : Except EvalError Unit}
      {s t u : State σ} : Converts i v →
      Evaluates functions body (s.set counter v) (.ok x) t →
      Rounds functions counter body n (i + 1) t o u →
      Rounds functions counter body (n + 1) i s o u
  | bodyErr {counter : String} {body : Expr} {n i : Nat} {v : Float} {err : EvalError}
      {s t : State σ} : Converts i v →
      Evaluates functions body (s.set counter v) (.error err) t →
      Rounds functions counter body (n + 1) i s (.error err) t

end

/-! ## Depth

Rounds are evaluated one loop deeper, and every evaluation ends at the depth where it began. -/

mutual

theorem Evaluates.depth_eq {functions : Registry σ} :
    ∀ {e : Expr} {s t : State σ} {o : Except EvalError Float}, Evaluates functions e s o t →
      t.depth = s.depth
  | _, _, _, _, .num => rfl
  | _, _, _, _, .var _ => rfl
  | _, _, _, _, .varErr _ => rfl
  | _, _, _, _, .assign h => h.depth_eq
  | _, _, _, _, .assignErr h => h.depth_eq
  | _, _, _, _, .binary hl hr => hr.depth_eq.trans hl.depth_eq
  | _, _, _, _, .binaryLeftErr h => h.depth_eq
  | _, _, _, _, .binaryRightErr hl hr => hr.depth_eq.trans hl.depth_eq
  | _, _, _, _, .quote h => h.depth_eq
  | _, _, _, _, .unknownErr _ _ => rfl
  | _, _, _, _, .hostCountErr _ _ _ => rfl
  | _, _, _, _, .hostErr _ _ _ h => h.depth_eq
  | _, _, _, _, .host _ _ _ h => h.depth_eq
  | _, _, _, _, .builtinCountErr _ _ => rfl
  | _, _, _, _, .mathErr _ _ _ h => h.depth_eq
  | _, _, _, _, .math _ _ _ h => h.depth_eq
  | _, _, _, _, .ifErr _ h => h.depth_eq
  | _, _, _, _, .ifYes _ hc _ h => h.depth_eq.trans hc.depth_eq
  | _, _, _, _, .ifNo _ hc _ h => h.depth_eq.trans hc.depth_eq
  | _, _, _, _, .forErr _ h => h.depth_eq
  | _, _, _, _, .forRounds _ _ _ => rfl
  | _, _, _, _, .whileErr _ h => h.depth_eq
  | _, _, _, _, .whileDone _ h _ => h.depth_eq
  | _, _, _, _, .whileBodyErr _ hc _ h => h.depth_eq.trans hc.depth_eq
  | _, _, _, _, .whileAgain _ hc _ hb h => h.depth_eq.trans (hb.depth_eq.trans hc.depth_eq)

theorem EvaluatesEach.depth_eq {functions : Registry σ} :
    ∀ {es : List Expr} {s t : State σ} {o : Except EvalError (List Float)},
      EvaluatesEach functions es s o t → t.depth = s.depth
  | _, _, _, _, .nil => rfl
  | _, _, _, _, .cons h hs => hs.depth_eq.trans h.depth_eq
  | _, _, _, _, .headErr h => h.depth_eq
  | _, _, _, _, .tailErr h hs => hs.depth_eq.trans h.depth_eq

theorem Runs.depth_eq {functions : Registry σ} :
    ∀ {p : Program} {s t : State σ} {o : Except EvalError Float}, Runs functions p s o t →
      t.depth = s.depth
  | _, _, _, _, .empty => rfl
  | _, _, _, _, .last h => h.depth_eq
  | _, _, _, _, .cons h hs => hs.depth_eq.trans h.depth_eq
  | _, _, _, _, .headErr h => h.depth_eq

theorem Rounds.depth_eq {functions : Registry σ} :
    ∀ {counter : String} {body : Expr} {n i : Nat} {s t : State σ} {o : Except EvalError Unit},
      Rounds functions counter body n i s o t → t.depth = s.depth
  | _, _, _, _, _, _, _, .done => rfl
  | _, _, _, _, _, _, _, .cons _ h hs => hs.depth_eq.trans h.depth_eq
  | _, _, _, _, _, _, _, .bodyErr _ h => h.depth_eq

end

end BigStep
end FormulaLang

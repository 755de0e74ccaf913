import FormulaLang.Proofs.BigStep
import FormulaLang.Proofs.Calls

/-!
# FormulaLang.Proofs.Script

Evaluation as a script. A script is all that an evaluation asks of the state: it reads and writes
variables and calls host functions, one request after another, and each answer decides how it goes
on. `Script.perform` carries a script out on a state.

The script of an expression depends on the number of running loops and on nothing else of the
state, so what is proved of the script holds wherever the expression is evaluated. Main statement:
evaluating an expression is performing its script (`eval_eq_perform`).
-/

namespace FormulaLang

/-- The requests of an evaluation. A read goes on with the value of the variable; at an unbound
variable the evaluation ends. `starve` is where the fuel runs out. -/
inductive Script (σ α : Type) where
  | stop (o : Except EvalError α)
  | starve
  | read (name : String) (next : Float → Script σ α)
  | write (name : String) (value : Float) (next : Script σ α)
  | call (name : String) (f : HostFunction σ) (arguments : List Float) (next : Float → Script σ α)

namespace Script

open BigStep (noted)
open Evaluation (Reply)

variable {σ α β : Type}

def andThen : Script σ α → (α → Script σ β) → Script σ β
  | .stop (.ok a), f => f a
  | .stop (.error err), _ => .stop (.error err)
  | .starve, _ => .starve
  | .read name next, f => .read name fun x => (next x).andThen f
  | .write name x next, f => .write name x (next.andThen f)
  | .call name g xs next, f => .call name g xs fun x => (next x).andThen f

def perform : Script σ α → State σ → Reply σ α
  | .stop o, s => some (o, s)
  | .starve, _ => none
  | .read name next, s =>
    match s.get? name with
    | some x => (next x).perform s
    | none => some (.error (.undefinedVariable name), s)
  | .write name x next, s => next.perform (s.set name x)
  | .call name f xs next, s =>
    (next (f.call s.host xs).1).perform (noted s name xs (f.call s.host xs).2)

theorem perform_read_some {name : String} {x : Float} {s : State σ} (next : Float → Script σ α)
    (h : s.get? name = some x) : (Script.read name next).perform s = (next x).perform s := by
  simp only [perform, h]

theorem perform_read_none {name : String} {s : State σ} (next : Float → Script σ α)
    (h : s.get? name = none) :
    (Script.read name next).perform s = some (.error (.undefinedVariable name), s) := by
  simp only [perform, h]

/-- Going on after a script is going on after its performance. The depth is what it was before. -/
theorem andThen_perform {m : Script σ α} {f : α → Script σ β} {next : α → State σ → Reply σ β}
    {s : State σ} (h : ∀ a t, t.depth = s.depth → next a t = (f a).perform t) :
    Evaluation.andThen (m.perform s) next = (m.andThen f).perform s := by
  induction m generalizing s with
  | stop o =>
    cases o with
    | error err => rfl
    | ok a => exact h a s rfl
  | starve => rfl
  | read name k ih =>
    cases hx : s.get? name with
    | none =>
      rw [perform_read_none k hx, andThen, perform_read_none _ hx]
      rfl
    | some x =>
      rw [perform_read_some k hx, andThen, perform_read_some _ hx]
      exact ih x h
  | write name x m ih => exact ih h
  | call name g xs k ih => exact ih _ h

/-- A loop is entered and left around its rounds only, which do not see the depth. -/
theorem endFor_perform (m : Script σ Unit) (s : State σ) :
    Evaluation.endFor (m.perform s.enter) = (m.andThen fun _ => .stop (.ok 1.0)).perform s := by
  induction m generalizing s with
  | stop o => cases o <;> rfl
  | starve => rfl
  | read name k ih =>
    have henter : s.enter.get? name = s.get? name := rfl
    cases hx : s.get? name with
    | none =>
      rw [perform_read_none k (henter.trans hx), andThen, perform_read_none _ hx]
      rfl
    | some x =>
      rw [perform_read_some k (henter.trans hx), andThen, perform_read_some _ hx]
      exact ih x s
  | write name x m ih => exact ih (s.set name x)
  | call name g xs k ih => exact ih _ (noted s name xs (g.call s.host xs).2)

/-! ## The scripts of expressions

They are written over the scripts `sc` of the parts, as the rules of evaluation are over an
evaluator. -/

def each (sc : Expr → Script σ Float) : List Expr → Script σ (List Float)
  | [] => .stop (.ok [])
  | e :: es => (sc e).andThen fun x => (each sc es).andThen fun xs => .stop (.ok (x :: xs))

def statements (sc : Expr → Script σ Float) : Program → Script σ Float
  | [] => .stop (.error .emptyProgram)
  | [e] => sc e
  | e :: f :: es => (sc e).andThen fun _ => statements sc (f :: es)

def rounds (counter : String) (body : Script σ Float) : (n index : Nat) → Script σ Unit
  | 0, _ => .stop (.ok ())
  | n + 1, index =>
    .write counter (Binary64.ofNat index) (body.andThen fun _ => rounds counter body n (index + 1))

def loop (condition body : Script σ Float) : (most : Nat) → Script σ Float
  | 0 => .starve
  | most + 1 =>
    condition.andThen fun x =>
      if isTruthy x then body.andThen fun _ => loop condition body most else .stop (.ok 1.0)

/-- The script of an accepted call of a builtin function. -/
def accepted (sc : Nat → Expr → Script σ Float) (most depth : Nat) :
    Rule → List Expr → Script σ Float
  | .math f, es => (each (sc depth) es).andThen fun xs => .stop (f.apply xs)
  | .control .branch, [c, yes, no] =>
    (sc depth c).andThen fun x => if isTruthy x then sc depth yes else sc depth no
  | .control .count, [c, body] =>
    (sc depth c).andThen fun x =>
      (rounds (counterName (depth + 1)) (sc (depth + 1) body) (iterationCount x) 0).andThen
        fun _ => .stop (.ok 1.0)
  | .control .loop, [c, body] => loop (sc depth c) (sc depth body) most
  | _, _ => .stop (.error .missingArgument)

def invoke (functions : Registry σ) (sc : Nat → Expr → Script σ Float) (most depth : Nat)
    (name : String) (es : List Expr) : Script σ Float :=
  match Builtin.find? name with
  | some b =>
    if b.arity.accepts es.length then accepted sc most depth b.rule es
    else .stop (.error (.argumentCount name b.arity es.length))
  | none =>
    match functions.get? name with
    | none => .stop (.error (.unknownFunction name))
    | some f =>
      if es.length = f.arity then
        (each (sc depth) es).andThen fun xs => .call name f xs fun x => .stop (.ok x)
      else .stop (.error (.argumentCount name (.exactly f.arity) es.length))

def step (functions : Registry σ) (sc : Nat → Expr → Script σ Float) (most depth : Nat) :
    Expr → Script σ Float
  | .num x => .stop (.ok x)
  | .var name => .read name fun x => .stop (.ok x)
  | .assign name e => (sc depth e).andThen fun x => .write name x (.stop (.ok x))
  | .binary op left right =>
    (sc depth left).andThen fun x => (sc depth right).andThen fun y => .stop (op.apply x y)
  | .call name es => invoke functions sc most depth name es
  | .quote p => statements (sc depth) p

/-! One equation for each form of a call. -/

section Calls

variable {functions : Registry σ} {sc : Nat → Expr → Script σ Float} {most depth : Nat}
  {name : String} {es : List Expr}

theorem invoke_unknown (hb : Builtin.find? name = none) (hf : functions.get? name = none) :
    invoke functions sc most depth name es = .stop (.error (.unknownFunction name)) := by
  simp only [invoke, hb, hf]

theorem invoke_hostCount {f : HostFunction σ} (hb : Builtin.find? name = none)
    (hf : functions.get? name = some f) (hlen : es.length ≠ f.arity) :
    invoke functions sc most depth name es =
      .stop (.error (.argumentCount name (.exactly f.arity) es.length)) := by
  simp only [invoke, hb, hf, if_neg hlen]

theorem invoke_host {f : HostFunction σ} (hb : Builtin.find? name = none)
    (hf : functions.get? name = some f) (hlen : es.length = f.arity) :
    invoke functions sc most depth name es =
      (each (sc depth) es).andThen fun xs => .call name f xs fun x => .stop (.ok x) := by
  simp only [invoke, hb, hf, if_pos hlen]

theorem invoke_builtinCount {b : Builtin} (hb : Builtin.find? name = some b)
    (ha : b.arity.accepts es.length = false) :
    invoke functions sc most depth name es =
      .stop (.error (.argumentCount name b.arity es.length)) := by
  simp only [invoke, hb, ha, Bool.false_eq_true, if_false]

theorem invoke_math {b : Builtin} {f : MathFunction} (hb : Builtin.find? name = some b)
    (hf : b.rule = .math f) (ha : b.arity.accepts es.length = true) :
    invoke functions sc most depth name es =
      (each (sc depth) es).andThen fun xs => .stop (f.apply xs) := by
  simp only [invoke, hb, ha, if_true, hf, accepted]

theorem invoke_if {c yes no : Expr} (h : foldCase name = "if") :
    invoke functions sc most depth name [c, yes, no] =
      (sc depth c).andThen fun x => if isTruthy x then sc depth yes else sc depth no := by
  simp only [invoke, Evaluation.find?_if h]
  rfl

theorem invoke_for {c body : Expr} (h : foldCase name = "for") :
    invoke functions sc most depth name [c, body] =
      (sc depth c).andThen fun x =>
        (rounds (counterName (depth + 1)) (sc (depth + 1) body) (iterationCount x) 0).andThen
          fun _ => .stop (.ok 1.0) := by
  simp only [invoke, Evaluation.find?_for h]
  rfl

theorem invoke_while {c body : Expr} (h : foldCase name = "while") :
    invoke functions sc most depth name [c, body] = loop (sc depth c) (sc depth body) most := by
  simp only [invoke, Evaluation.find?_while h]
  rfl

end Calls

end Script

variable {σ : Type}

/-- The script of an expression where `depth` loops are running. -/
def Expr.script (functions : Registry σ) (fuel depth : Nat) (e : Expr) : Script σ Float :=
  match fuel with
  | 0 => .starve
  | fuel + 1 => Script.step functions (Expr.script functions fuel) fuel depth e

def Program.script (functions : Registry σ) (fuel depth : Nat) (p : Program) : Script σ Float :=
  Script.statements (Expr.script functions fuel depth) p

namespace Evaluation

open Script (andThen_perform endFor_perform)

/-- Each evaluation performs the script of its expression. -/
def Scripted (ev : Evaluator σ) (sc : Nat → Expr → Script σ Float) : Prop :=
  ∀ e s, ev e s = (sc s.depth e).perform s

section Rules

variable {ev : Evaluator σ} {sc : Nat → Expr → Script σ Float}

theorem Scripted.at_depth (h : Scripted ev sc) (e : Expr) {s t : State σ}
    (ht : t.depth = s.depth) : ev e t = (sc s.depth e).perform t := by
  rw [h, ht]

theorem evalEach_eq_perform (h : Scripted ev sc) (es : List Expr) (s : State σ) :
    evalEach ev es s = (Script.each (sc s.depth) es).perform s := by
  induction es generalizing s with
  | nil => rfl
  | cons e es ih =>
    rw [evalEach, h]
    refine andThen_perform fun x t ht => ?_
    rw [ih, ht]
    exact andThen_perform fun xs u _ => rfl

theorem evalStatements_eq_perform (h : Scripted ev sc) (p : Program) (s : State σ) :
    evalStatements ev p s = (Script.statements (sc s.depth) p).perform s := by
  match p with
  | [] => rfl
  | [e] => exact h e s
  | e :: f :: es =>
    rw [evalStatements, h]
    refine andThen_perform fun x t ht => ?_
    rw [evalStatements_eq_perform h (f :: es) t, ht]

theorem runFor_eq_perform (h : Scripted ev sc) (counter : String) (body : Expr) (n index : Nat)
    (s : State σ) :
    runFor ev counter (.later body) n index s =
      (Script.rounds counter (sc s.depth body) n index).perform s := by
  induction n generalizing index s with
  | zero => rfl
  | succ n ih =>
    rw [runFor, force, h]
    exact andThen_perform fun x t ht => (ih (index + 1) t).trans (by rw [ht]; rfl)

theorem runWhile_eq_perform (h : Scripted ev sc) (c body : Expr) (most : Nat) (s : State σ) :
    runWhile ev (.later c) (.later body) most s =
      (Script.loop (sc s.depth c) (sc s.depth body) most).perform s := by
  induction most generalizing s with
  | zero => rfl
  | succ most ih =>
    rw [runWhile, force, h]
    refine andThen_perform fun x t ht => ?_
    split
    · rw [force, h.at_depth body ht]
      exact andThen_perform fun y u hu => by rw [ih, hu, ht]
    · rfl

theorem evalCall_eq_perform (functions : Registry σ) (h : Scripted ev sc) (most : Nat)
    (name : String) (es : List Expr) (s : State σ) :
    evalCall functions ev most name es s =
      (Script.invoke functions sc most s.depth name es).perform s := by
  cases callForm functions name es with
  | unknown hb hf => rw [evalCall_unknown hb hf, Script.invoke_unknown hb hf]; rfl
  | hostCount hb hf hlen =>
    rw [evalCall_hostCount hb hf hlen, Script.invoke_hostCount hb hf hlen]
    rfl
  | host hb hf hlen =>
    rw [evalCall_host hb hf hlen, Script.invoke_host hb hf hlen, evalEach_eq_perform h]
    exact andThen_perform fun xs t _ => rfl
  | builtinCount hb ha => rw [evalCall_builtinCount hb ha, Script.invoke_builtinCount hb ha]; rfl
  | math hb hf ha =>
    rw [evalCall_math hb hf ha, Script.invoke_math hb hf ha, evalEach_eq_perform h]
    exact andThen_perform fun xs t _ => rfl
  | branch hname =>
    rw [evalCall_if hname, Script.invoke_if hname, h]
    refine andThen_perform fun x t ht => ?_
    split
    · exact h.at_depth _ ht
    · exact h.at_depth _ ht
  | count hname =>
    rw [evalCall_for hname, Script.invoke_for hname, h]
    refine andThen_perform fun x t ht => ?_
    have hdepth : t.enter.depth = s.depth + 1 := by rw [State.enter, ht]
    rw [runFor_eq_perform h, hdepth]
    exact endFor_perform _ t
  | loop hname =>
    rw [evalCall_while hname, Script.invoke_while hname, runWhile_eq_perform h]

theorem evalStep_eq_perform (functions : Registry σ) (h : Scripted ev sc) (most : Nat) (e : Expr)
    (s : State σ) :
    evalStep functions ev most e s = (Script.step functions sc most s.depth e).perform s := by
  cases e with
  | num x => rfl
  | var name =>
    cases hx : s.get? name with
    | none => simp only [evalStep, evalVariable, Script.step, hx, Script.perform_read_none _ hx]
    | some x =>
      simp only [evalStep, evalVariable, Script.step, hx, Script.perform_read_some _ hx]
      rfl
  | assign name e =>
    rw [evalStep, h]
    exact andThen_perform fun x t _ => rfl
  | binary op left right =>
    rw [evalStep, h]
    refine andThen_perform fun x t ht => ?_
    rw [h.at_depth right ht]
    exact andThen_perform fun y u _ => rfl
  | call name es => exact evalCall_eq_perform functions h most name es s
  | quote p => exact evalStatements_eq_perform h p s

end Rules

theorem eval_scripted (functions : Registry σ) (fuel : Nat) :
    Scripted (eval functions fuel) (Expr.script functions fuel) := by
  induction fuel with
  | zero => intro e s; rfl
  | succ fuel ih => intro e s; exact evalStep_eq_perform functions ih fuel e s

/-- Evaluating is performing the script. -/
theorem eval_eq_perform (functions : Registry σ) (fuel : Nat) (e : Expr) (s : State σ) :
    eval functions fuel e s = (e.script functions fuel s.depth).perform s :=
  eval_scripted functions fuel e s

theorem statements_eq_perform (functions : Registry σ) (fuel : Nat) (p : Program) (s : State σ) :
    evalStatements (eval functions fuel) p s = (p.script functions fuel s.depth).perform s :=
  evalStatements_eq_perform (eval_scripted functions fuel) p s

end Evaluation
end FormulaLang

import FormulaLang.Evaluation.Builtin
import FormulaLang.Evaluation.State
import FormulaLang.Program.Cursor

/-!
# FormulaLang.Evaluation.Run

Evaluation. An evaluation ends with a value or with the first error, and in both cases with a
state, which keeps all effects up to there. It may also not end, so it is computed with fuel:
`none` says that the fuel ran out, and more fuel changes no answer.

Fuel bounds the nesting of evaluations and the rounds of each conditional loop. The rules of
`if`, `for` and `while` get their arguments as lazy arguments, which are values or expressions
still to be evaluated. All rules are written over an evaluator of expressions `ev`, and `eval`
ties the knot.
-/

namespace FormulaLang

/-- A value, or an expression that is evaluated each time the value is wanted. -/
inductive LazyArg where
  | now (value : Float)
  | later (e : Expr)

namespace Evaluation

/-- What is known after an evaluation: nothing, if fuel ran out, or the outcome and the state. -/
abbrev Reply (σ α : Type) := Option (Except EvalError α × State σ)

abbrev Evaluator (σ : Type) := Expr → State σ → Reply σ Float

variable {σ : Type}

/-- Goes on with the value of an evaluation, unless it failed. -/
@[inline] def andThen {α β : Type} (r : Reply σ α) (next : α → State σ → Reply σ β) : Reply σ β :=
  match r with
  | none => none
  | some (.error e, s) => some (.error e, s)
  | some (.ok a, s) => next a s

def evalVariable (name : String) (s : State σ) : Reply σ Float :=
  match s.get? name with
  | some value => some (.ok value, s)
  | none => some (.error (.undefinedVariable name), s)

def evalEach (ev : Evaluator σ) : List Expr → State σ → Reply σ (List Float)
  | [], s => some (.ok [], s)
  | e :: es, s =>
    andThen (ev e s) fun value s =>
      andThen (evalEach ev es s) fun values s => some (.ok (value :: values), s)

def evalStatements (ev : Evaluator σ) : Program → State σ → Reply σ Float
  | [], s => some (.error .emptyProgram, s)
  | [e], s => ev e s
  | e :: f :: es, s => andThen (ev e s) fun _ s => evalStatements ev (f :: es) s

def evalArgument (ev : Evaluator σ) (mode : Mode) (e : Expr) (s : State σ) : Reply σ LazyArg :=
  match mode with
  | .eager => andThen (ev e s) fun value s => some (.ok (.now value), s)
  | .deferred => some (.ok (.later e), s)

/-- Prepares arguments from left to right, each by its mode. Modes that are not listed are eager. -/
def evalArguments (ev : Evaluator σ) : List Mode → List Expr → State σ → Reply σ (List LazyArg)
  | _, [], s => some (.ok [], s)
  | modes, e :: es, s =>
    andThen (evalArgument ev (modes.headD .eager) e s) fun a s =>
      andThen (evalArguments ev modes.tail es s) fun as s => some (.ok (a :: as), s)

def force (ev : Evaluator σ) (a : LazyArg) (s : State σ) : Reply σ Float :=
  match a with
  | .now value => some (.ok value, s)
  | .later e => ev e s

def forceEach (ev : Evaluator σ) : List LazyArg → State σ → Reply σ (List Float)
  | [], s => some (.ok [], s)
  | a :: as, s =>
    andThen (force ev a s) fun value s =>
      andThen (forceEach ev as s) fun values s => some (.ok (value :: values), s)

def evalIf (ev : Evaluator σ) (arguments : List LazyArg) (s : State σ) : Reply σ Float :=
  match arguments with
  | condition :: yes :: no :: _ =>
    andThen (force ev condition s) fun value s =>
      if isTruthy value then force ev yes s else force ev no s
  | _ => some (.error .missingArgument, s)

/-- The remaining rounds of a counted loop, the next of which has the given index. The counter is
written before each round. -/
def runFor (ev : Evaluator σ) (counter : String) (body : LazyArg) :
    (rounds index : Nat) → State σ → Reply σ Unit
  | 0, _, s => some (.ok (), s)
  | rounds + 1, index, s =>
    andThen (force ev body (s.set counter (Binary64.ofNat index))) fun _ s =>
      runFor ev counter body rounds (index + 1) s

/-- Leaves the innermost counted loop, whether it ended well or not. Its value is one. -/
def endFor (r : Reply σ Unit) : Reply σ Float :=
  match r with
  | none => none
  | some (.error e, s) => some (.error e, s.leave)
  | some (.ok (), s) => some (.ok 1.0, s.leave)

/-- The counting rule. The number of rounds is evaluated outside the loop. -/
def evalFor (ev : Evaluator σ) (arguments : List LazyArg) (s : State σ) : Reply σ Float :=
  match arguments with
  | count :: body :: _ =>
    andThen (force ev count s) fun value s =>
      endFor (runFor ev (counterName s.enter.depth) body (iterationCount value) 0 s.enter)
  | _ => some (.error .missingArgument, s)

def runWhile (ev : Evaluator σ) (condition body : LazyArg) : (rounds : Nat) → State σ → Reply σ Float
  | 0, _ => none
  | rounds + 1, s =>
    andThen (force ev condition s) fun value s =>
      if isTruthy value then
        andThen (force ev body s) fun _ s => runWhile ev condition body rounds s
      else some (.ok 1.0, s)

def evalWhile (ev : Evaluator σ) (rounds : Nat) (arguments : List LazyArg) (s : State σ) :
    Reply σ Float :=
  match arguments with
  | condition :: body :: _ => runWhile ev condition body rounds s
  | _ => some (.error .missingArgument, s)

def applyRule (ev : Evaluator σ) (rounds : Nat) (rule : Rule) (arguments : List LazyArg)
    (s : State σ) : Reply σ Float :=
  match rule with
  | .math f => andThen (forceEach ev arguments s) fun values s => some (f.apply values, s)
  | .control .branch => evalIf ev arguments s
  | .control .count => evalFor ev arguments s
  | .control .loop => evalWhile ev rounds arguments s

def callHost (name : String) (f : HostFunction σ) (values : List Float) (s : State σ) :
    Reply σ Float :=
  let (value, host) := f.call s.host values
  some (.ok value, { s with host := host, calls := ⟨name, values⟩ :: s.calls })

/-- Calls a function. Builtin names come before those of the host, and the number of arguments is
checked before any of them is evaluated. -/
def evalCall (functions : Registry σ) (ev : Evaluator σ) (rounds : Nat) (name : String)
    (arguments : List Expr) (s : State σ) : Reply σ Float :=
  match Builtin.find? name with
  | some b =>
    match b.arity.check name arguments.length with
    | .error e => some (.error e, s)
    | .ok () =>
      andThen (evalArguments ev b.modes arguments s) fun args s => applyRule ev rounds b.rule args s
  | none =>
    match functions.get? name with
    | none => some (.error (.unknownFunction name), s)
    | some f =>
      match (Arity.exactly f.arity).check name arguments.length with
      | .error e => some (.error e, s)
      | .ok () => andThen (evalEach ev arguments s) fun values s => callHost name f values s

def evalStep (functions : Registry σ) (ev : Evaluator σ) (rounds : Nat) (e : Expr) (s : State σ) :
    Reply σ Float :=
  match e with
  | .num value => some (.ok value, s)
  | .var name => evalVariable name s
  | .assign name e => andThen (ev e s) fun value s => some (.ok value, s.set name value)
  | .binary op left right =>
    andThen (ev left s) fun x s => andThen (ev right s) fun y s => some (op.apply x y, s)
  | .call name arguments => evalCall functions ev rounds name arguments s
  | .quote statements => evalStatements ev statements s

def eval (functions : Registry σ) (fuel : Nat) (e : Expr) (s : State σ) : Reply σ Float :=
  match fuel with
  | 0 => none
  | fuel + 1 => evalStep functions (eval functions fuel) fuel e s

/-- Fuel for whole runs. No machine lives to see it used up. -/
def ample : Nat := 2 ^ 60

end Evaluation

def Program.run {σ : Type} (functions : Registry σ) (p : Program) (s : State σ) :
    Evaluation.Reply σ Float :=
  Evaluation.evalStatements (Evaluation.eval functions Evaluation.ample) p s

inductive FormulaError where
  | parse (e : ParseError)
  | eval (e : EvalError)
  deriving DecidableEq

def FormulaError.message : FormulaError → String
  | parse e => e.message
  | eval e => e.message

/-- Reads a formula and runs it. A formula that cannot be read has no effect. -/
def evaluate {σ : Type} (functions : Registry σ) (source : String) (s : State σ) :
    Option (Except FormulaError Float × State σ) :=
  match Program.parse source with
  | .error e => some (.error (.parse e), s)
  | .ok p =>
    match p.run functions s with
    | none => none
    | some (.error e, s) => some (.error (.eval e), s)
    | some (.ok value, s) => some (.ok value, s)

end FormulaLang

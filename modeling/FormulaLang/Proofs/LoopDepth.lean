import FormulaLang.Proofs.RunSound

/-!
# FormulaLang.Proofs.LoopDepth

The number of running loops. An operation is anything that can be asked of a state: to evaluate an
expression, a program, a variable, a call or an argument, to force a lazy argument, or to apply one
of the control rules to lazy arguments.

* `Starts`: the evaluations that an operation starts itself, each with the state it starts in and
  the number of loops, none or one, whose body it is. The outcome of an operation depends on the
  evaluator there and nowhere else (`perform_congr`).
* `Reaches`: the evaluations that an operation comes to, and how many loops it is inside there. The
  operation need not end.
* `depth_balanced`: each operation that ends leaves the depth as it was, and inside `k` loops the
  depth is greater by `k`.
-/

namespace FormulaLang

inductive Operation where
  | eval (e : Expr)
  | program (p : Program)
  | lookup (name : String)
  | call (name : String) (arguments : List Expr)
  | argument (mode : Mode) (e : Expr)
  | force (a : LazyArg)
  | control (c : Control) (arguments : List LazyArg)

namespace Evaluation

variable {σ : Type}

/-- The answer as a lazy argument, which is what arguments are evaluated to. -/
def asValue (r : Reply σ Float) : Reply σ LazyArg :=
  andThen r fun x s => some (.ok (.now x), s)

/-- Performs an operation. The expressions that it comes to are evaluated by `ev`. -/
def performWith (functions : Registry σ) (ev : Evaluator σ) (rounds : Nat) (op : Operation)
    (s : State σ) : Reply σ LazyArg :=
  match op with
  | .eval e => asValue (evalStep functions ev rounds e s)
  | .program p => asValue (evalStatements ev p s)
  | .lookup name => asValue (evalVariable name s)
  | .call name es => asValue (evalCall functions ev rounds name es s)
  | .argument mode e => evalArgument ev mode e s
  | .force a => asValue (force ev a s)
  | .control c as => asValue (applyRule ev rounds (.control c) as s)

def perform (functions : Registry σ) (fuel : Nat) (op : Operation) (s : State σ) :
    Reply σ LazyArg :=
  performWith functions (eval functions fuel) fuel op s

/-- The answers to a sequence of operations on one state, up to the first that does not end. An
operation that fails is followed by the next one. -/
def session (functions : Registry σ) (fuel : Nat) :
    List Operation → State σ → List (Except EvalError LazyArg × State σ)
  | [], _ => []
  | op :: ops, s =>
    match perform functions fuel op s with
    | none => []
    | some (o, t) => (o, t) :: session functions fuel ops t

/-! ## Operations end at the depth where they begin -/

/-- The reply, if there is one, leaves a state of this depth. -/
def EndsAt {α : Type} (depth : Nat) (r : Reply σ α) : Prop :=
  ∀ o t, r = some (o, t) → t.depth = depth

/-- Evaluations end at the depth where they begin. -/
def Level (ev : Evaluator σ) : Prop := ∀ e s, EndsAt s.depth (ev e s)

section Rules

variable {ev : Evaluator σ} {depth : Nat}

theorem EndsAt.answer {α : Type} (o : Except EvalError α) {s : State σ} (hs : s.depth = depth) :
    EndsAt depth (some (o, s)) := by
  intro o' t h
  cases h
  exact hs

theorem EndsAt.andThen {α β : Type} {r : Reply σ α} {next : α → State σ → Reply σ β}
    (hr : EndsAt depth r) (hnext : ∀ a s, s.depth = depth → EndsAt depth (next a s)) :
    EndsAt depth (andThen r next) := by
  intro o t h
  obtain ⟨err, hfail, -⟩ | ⟨a, s, hdone, h⟩ := andThen_eq_some h
  · exact hr _ _ hfail
  · exact hnext a s (hr _ _ hdone) _ _ h

/-- The loop is left however its rounds end. -/
theorem EndsAt.endFor {r : Reply σ Unit} (hr : EndsAt (depth + 1) r) :
    EndsAt depth (endFor r) := by
  intro o t h
  obtain ⟨o', u, hrun, -, rfl⟩ := endFor_eq_some h
  rw [State.leave, hr o' u hrun]
  rfl

theorem EndsAt.asValue {r : Reply σ Float} (hr : EndsAt depth r) : EndsAt depth (asValue r) :=
  hr.andThen fun _ _ ht => .answer _ ht

theorem Sound.level {functions : Registry σ} (h : Sound functions ev) : Level ev :=
  fun e s o t he => (h e s o t he).depth_eq

theorem Level.force (h : Level ev) (a : LazyArg) {s : State σ} (hs : s.depth = depth) :
    EndsAt depth (force ev a s) := by
  cases a with
  | now x => exact .answer _ hs
  | later e => exact hs ▸ h e s

theorem Level.evalIf (h : Level ev) (as : List LazyArg) {s : State σ} (hs : s.depth = depth) :
    EndsAt depth (evalIf ev as s) := by
  unfold Evaluation.evalIf
  split
  · refine (h.force _ hs).andThen fun x t ht => ?_
    split
    · exact h.force _ ht
    · exact h.force _ ht
  · exact .answer _ hs

theorem Level.runFor (h : Level ev) (counter : String) (body : LazyArg) (n index : Nat)
    {s : State σ} (hs : s.depth = depth) : EndsAt depth (runFor ev counter body n index s) := by
  induction n generalizing index s with
  | zero => exact .answer _ hs
  | succ n ih =>
    have hset : (s.set counter (Binary64.ofNat index)).depth = depth := hs
    exact (h.force body hset).andThen fun _ t ht => ih (index + 1) ht

theorem Level.evalFor (h : Level ev) (as : List LazyArg) {s : State σ} (hs : s.depth = depth) :
    EndsAt depth (evalFor ev as s) := by
  unfold Evaluation.evalFor
  split
  · exact (h.force _ hs).andThen fun x t ht =>
      (h.runFor _ _ _ _ (congrArg (· + 1) ht : t.enter.depth = depth + 1)).endFor
  · exact .answer _ hs

theorem Level.runWhile (h : Level ev) (condition body : LazyArg) (rounds : Nat) {s : State σ}
    (hs : s.depth = depth) : EndsAt depth (runWhile ev condition body rounds s) := by
  induction rounds generalizing s with
  | zero => intro o t h; cases h
  | succ rounds ih =>
    refine (h.force condition hs).andThen fun x t ht => ?_
    split
    · exact (h.force body ht).andThen fun _ u hu => ih hu
    · exact .answer _ ht

theorem Level.control (h : Level ev) (rounds : Nat) (c : Control) (as : List LazyArg)
    {s : State σ} (hs : s.depth = depth) :
    EndsAt depth (applyRule ev rounds (.control c) as s) := by
  cases c with
  | branch => exact h.evalIf as hs
  | count => exact h.evalFor as hs
  | loop =>
    show EndsAt depth (evalWhile ev rounds as s)
    unfold evalWhile
    split
    · exact h.runWhile _ _ rounds hs
    · exact .answer _ hs

theorem Level.evalArgument (h : Level ev) (mode : Mode) (e : Expr) {s : State σ}
    (hs : s.depth = depth) : EndsAt depth (evalArgument ev mode e s) := by
  cases mode with
  | eager => exact (h.force (.later e) hs).andThen fun x t ht => .answer _ ht
  | deferred => exact .answer _ hs

theorem Level.evalArguments (h : Level ev) (modes : List Mode) (es : List Expr) {s : State σ}
    (hs : s.depth = depth) : EndsAt depth (evalArguments ev modes es s) := by
  induction es generalizing modes s with
  | nil => exact .answer _ hs
  | cons e es ih =>
    exact (h.evalArgument _ e hs).andThen fun a t ht =>
      (ih modes.tail ht).andThen fun as u hu => .answer _ hu

end Rules

theorem perform_endsAt (functions : Registry σ) (fuel : Nat) (op : Operation) (s : State σ) :
    EndsAt s.depth (perform functions fuel op s) := by
  have hsound := eval_sound functions fuel
  cases op with
  | eval e => exact EndsAt.asValue fun o t h => (evalStep_sound hsound h).depth_eq
  | program p => exact EndsAt.asValue fun o t h => (evalStatements_sound hsound h).depth_eq
  | lookup name =>
    refine EndsAt.asValue fun o t h => ?_
    unfold evalVariable at h
    split at h
    · cases h; rfl
    · cases h; rfl
  | call name es => exact EndsAt.asValue fun o t h => (evalCall_sound hsound h).depth_eq
  | argument mode e => exact hsound.level.evalArgument mode e rfl
  | force a => exact (hsound.level.force a rfl).asValue
  | control c as => exact (hsound.level.control fuel c as rfl).asValue

theorem depth_of_mem_session (functions : Registry σ) (fuel : Nat) (ops : List Operation)
    (s : State σ) : ∀ r ∈ session functions fuel ops s, r.2.depth = s.depth := by
  induction ops generalizing s with
  | nil => intro r hr; cases hr
  | cons op ops ih =>
    intro r hr
    rw [session] at hr
    split at hr
    · cases hr
    · rename_i o t h
      have ht := perform_endsAt functions fuel op s o t h
      rcases List.mem_cons.mp hr with rfl | hr
      · exact ht
      · exact (ih t r hr).trans ht

/-! ## The evaluations that an operation starts

Each relation holds of an expression and the state in which its evaluation is started, which comes
after all that is evaluated before it. -/

section Starts

variable (functions : Registry σ) (ev : Evaluator σ)

/-- Evaluations of expressions in order. -/
inductive Each : List Expr → State σ → Expr → State σ → Prop where
  | head {e : Expr} {es : List Expr} {s : State σ} : Each (e :: es) s e s
  | tail {e e' : Expr} {es : List Expr} {x : Float} {s t u : State σ} :
      ev e s = some (.ok x, t) → Each es t e' u → Each (e :: es) s e' u

/-- Evaluations of the eager arguments among the expressions. -/
inductive Prepares : List Mode → List Expr → State σ → Expr → State σ → Prop where
  | head {modes : List Mode} {e : Expr} {es : List Expr} {s : State σ} :
      modes.headD .eager = .eager → Prepares modes (e :: es) s e s
  | tail {modes : List Mode} {e e' : Expr} {es : List Expr} {a : LazyArg} {s t u : State σ} :
      evalArgument ev (modes.headD .eager) e s = some (.ok a, t) →
      Prepares modes.tail es t e' u → Prepares modes (e :: es) s e' u

/-- Evaluations of the body in the rounds of a counted loop, from a given index on. -/
inductive Turns (counter : String) (body : LazyArg) :
    (rounds index : Nat) → State σ → Expr → State σ → Prop where
  | head {n index : Nat} {e : Expr} {s : State σ} : body = .later e →
      Turns counter body (n + 1) index s e (s.set counter (Binary64.ofNat index))
  | tail {n index : Nat} {e : Expr} {x : Float} {s t u : State σ} :
      force ev body (s.set counter (Binary64.ofNat index)) = some (.ok x, t) →
      Turns counter body n (index + 1) t e u → Turns counter body (n + 1) index s e u

/-- Evaluations of the condition and the body in the rounds of a conditional loop. -/
inductive Loops (condition body : LazyArg) : (rounds : Nat) → State σ → Expr → State σ → Prop where
  | check {n : Nat} {e : Expr} {s : State σ} : condition = .later e →
      Loops condition body (n + 1) s e s
  | body {n : Nat} {e : Expr} {x : Float} {s t : State σ} :
      force ev condition s = some (.ok x, t) → isTruthy x = true → body = .later e →
      Loops condition body (n + 1) s e t
  | again {n : Nat} {e : Expr} {x y : Float} {s t u v : State σ} :
      force ev condition s = some (.ok x, t) → isTruthy x = true →
      force ev body t = some (.ok y, u) → Loops condition body n u e v →
      Loops condition body (n + 1) s e v

/-- Evaluations by a control rule. Those of the body of a counted loop are inside one more loop. -/
inductive Controls (rounds : Nat) :
    Nat → Control → List LazyArg → State σ → Expr → State σ → Prop where
  | condition {e : Expr} {yes no : LazyArg} {as : List LazyArg} {s : State σ} :
      Controls rounds 0 .branch (.later e :: yes :: no :: as) s e s
  | yes {e : Expr} {c no : LazyArg} {as : List LazyArg} {x : Float} {s t : State σ} :
      force ev c s = some (.ok x, t) → isTruthy x = true →
      Controls rounds 0 .branch (c :: .later e :: no :: as) s e t
  | no {e : Expr} {c yes : LazyArg} {as : List LazyArg} {x : Float} {s t : State σ} :
      force ev c s = some (.ok x, t) → isTruthy x = false →
      Controls rounds 0 .branch (c :: yes :: .later e :: as) s e t
  | number {e : Expr} {body : LazyArg} {as : List LazyArg} {s : State σ} :
      Controls rounds 0 .count (.later e :: body :: as) s e s
  | turn {e : Expr} {c body : LazyArg} {as : List LazyArg} {x : Float} {s t u : State σ} :
      force ev c s = some (.ok x, t) →
      Turns ev (counterName t.enter.depth) body (iterationCount x) 0 t.enter e u →
      Controls rounds 1 .count (c :: body :: as) s e u
  | loop {e : Expr} {c body : LazyArg} {as : List LazyArg} {s t : State σ} :
      Loops ev c body rounds s e t → Controls rounds 0 .loop (c :: body :: as) s e t

inductive Starts (rounds : Nat) : Nat → Operation → State σ → Expr → State σ → Prop where
  | assigned {name : String} {e : Expr} {s : State σ} :
      Starts rounds 0 (.eval (.assign name e)) s e s
  | operand {op : Operator} {left right e : Expr} {s t : State σ} :
      Each ev [left, right] s e t → Starts rounds 0 (.eval (.binary op left right)) s e t
  | called {k : Nat} {name : String} {es : List Expr} {e : Expr} {s t : State σ} :
      Starts rounds k (.call name es) s e t → Starts rounds k (.eval (.call name es)) s e t
  | quoted {p : Program} {e : Expr} {s t : State σ} :
      Each ev p s e t → Starts rounds 0 (.eval (.quote p)) s e t
  | statement {p : Program} {e : Expr} {s t : State σ} :
      Each ev p s e t → Starts rounds 0 (.program p) s e t
  | hostArgument {name : String} {f : HostFunction σ} {es : List Expr} {e : Expr}
      {s t : State σ} : Builtin.find? name = none → functions.get? name = some f →
      es.length = f.arity → Each ev es s e t → Starts rounds 0 (.call name es) s e t
  | argument {name : String} {b : Builtin} {es : List Expr} {e : Expr} {s t : State σ} :
      Builtin.find? name = some b → b.arity.accepts es.length = true →
      Prepares ev b.modes es s e t → Starts rounds 0 (.call name es) s e t
  | ruled {k : Nat} {name : String} {b : Builtin} {c : Control} {es : List Expr}
      {as : List LazyArg} {e : Expr} {s t u : State σ} : Builtin.find? name = some b →
      b.arity.accepts es.length = true → b.rule = .control c →
      evalArguments ev b.modes es s = some (.ok as, t) → Controls ev rounds k c as t e u →
      Starts rounds k (.call name es) s e u
  | eager {e : Expr} {s : State σ} : Starts rounds 0 (.argument .eager e) s e s
  | forced {e : Expr} {s : State σ} : Starts rounds 0 (.force (.later e)) s e s
  | controlled {k : Nat} {c : Control} {as : List LazyArg} {e : Expr} {s t : State σ} :
      Controls ev rounds k c as s e t → Starts rounds k (.control c as) s e t

/-- With this fuel the operation comes to evaluate `e` in `t`, inside the bodies of `k` more
counted loops than run around the operation. -/
inductive Reaches : (fuel k : Nat) → Operation → State σ → Expr → State σ → Prop where
  | direct {fuel k : Nat} {op : Operation} {e : Expr} {s t : State σ} :
      Starts functions (eval functions fuel) fuel k op s e t → Reaches fuel k op s e t
  | through {fuel j k : Nat} {op : Operation} {e e' : Expr} {s t u : State σ} :
      Starts functions (eval functions (fuel + 1)) (fuel + 1) j op s e t →
      Reaches fuel k (.eval e) t e' u → Reaches (fuel + 1) (j + k) op s e' u

end Starts

/-- The count of a counted loop is evaluated before the call, the body is not. -/
theorem evalArguments_loop {ev : Evaluator σ} {c body : Expr} {x : Float} {s t : State σ}
    (hc : ev c s = some (.ok x, t)) :
    evalArguments ev [.eager, .deferred] [c, body] s = some (.ok [.now x, .later body], t) := by
  rw [evalArguments, List.headD_cons, evalArgument, hc]
  rfl

/-- A counted loop that makes a round starts its body with the index zero. -/
theorem starts_body {functions : Registry σ} {ev : Evaluator σ} {rounds n : Nat} {name : String}
    {c body : Expr} {x : Float} {s t : State σ} (hname : foldCase name = "for")
    (hc : ev c s = some (.ok x, t)) (hx : iterationCount x = n + 1) :
    Starts functions ev rounds 1 (.eval (.call name [c, body])) s body
      (t.enter.set (counterName t.enter.depth) (Binary64.ofNat 0)) := by
  refine .called (.ruled (find?_for hname) rfl rfl (evalArguments_loop hc) (.turn rfl ?_))
  rw [hx]
  exact .head rfl

/-! ## The depth inside loops -/

section Depth

variable {functions : Registry σ} {ev : Evaluator σ} {rounds k : Nat} {e : Expr} {s t : State σ}

theorem Each.depth_eq {es : List Expr} (h : Each ev es s e t) (hev : Level ev) :
    t.depth = s.depth := by
  induction h with
  | head => rfl
  | tail hhead _ ih => exact ih.trans (hev _ _ _ _ hhead)

theorem Prepares.depth_eq {modes : List Mode} {es : List Expr} (h : Prepares ev modes es s e t)
    (hev : Level ev) : t.depth = s.depth := by
  induction h with
  | head _ => rfl
  | tail hhead _ ih => exact ih.trans (hev.evalArgument _ _ rfl _ _ hhead)

theorem Turns.depth_eq {counter : String} {body : LazyArg} {n index : Nat}
    (h : Turns ev counter body n index s e t) (hev : Level ev) : t.depth = s.depth := by
  induction h with
  | head _ => rfl
  | @tail _ index _ _ s _ _ hround _ ih =>
    have hset : (s.set counter (Binary64.ofNat index)).depth = s.depth := rfl
    exact ih.trans (hev.force body hset _ _ hround)

theorem Loops.depth_eq {condition body : LazyArg} {n : Nat} (h : Loops ev condition body n s e t)
    (hev : Level ev) : t.depth = s.depth := by
  induction h with
  | check _ => rfl
  | body hcondition _ _ => exact hev.force condition rfl _ _ hcondition
  | again hcondition _ hbody _ ih =>
    exact ih.trans ((hev.force body rfl _ _ hbody).trans (hev.force condition rfl _ _ hcondition))

theorem Controls.depth_eq {c : Control} {as : List LazyArg} (h : Controls ev rounds k c as s e t)
    (hev : Level ev) : t.depth = s.depth + k := by
  cases h with
  | condition => rfl
  | yes hc _ => exact hev.force _ rfl _ _ hc
  | no hc _ => exact hev.force _ rfl _ _ hc
  | number => rfl
  | turn hc hturn => rw [hturn.depth_eq hev, State.enter, hev.force _ rfl _ _ hc]
  | loop hloop => exact hloop.depth_eq hev

theorem Starts.depth_eq {op : Operation} (h : Starts functions ev rounds k op s e t)
    (hev : Level ev) : t.depth = s.depth + k := by
  induction h with
  | assigned => rfl
  | operand h => exact h.depth_eq hev
  | called _ ih => exact ih
  | quoted h => exact h.depth_eq hev
  | statement h => exact h.depth_eq hev
  | hostArgument _ _ _ h => exact h.depth_eq hev
  | argument _ _ h => exact h.depth_eq hev
  | ruled _ _ _ has h => rw [h.depth_eq hev, hev.evalArguments _ _ rfl _ _ has]
  | eager => rfl
  | forced => rfl
  | controlled h => exact h.depth_eq hev

theorem Reaches.depth_eq {fuel : Nat} {op : Operation} (h : Reaches functions fuel k op s e t) :
    t.depth = s.depth + k := by
  induction h with
  | direct h => exact h.depth_eq (eval_sound functions _).level
  | through h _ ih => rw [ih, h.depth_eq (eval_sound functions _).level, Nat.add_assoc]

end Depth

/-! ## No evaluation is left out -/

section Congruence

variable {functions : Registry σ} {ev ev' : Evaluator σ}

theorem andThen_congr {α β : Type} {r : Reply σ α} {f g : α → State σ → Reply σ β}
    (h : ∀ a t, r = some (.ok a, t) → f a t = g a t) : andThen r f = andThen r g := by
  match r, h with
  | none, _ => rfl
  | some (.error err, t), _ => rfl
  | some (.ok a, t), h => exact h a t rfl

theorem evalEach_congr {es : List Expr} {s : State σ}
    (h : ∀ e t, Each ev es s e t → ev e t = ev' e t) : evalEach ev es s = evalEach ev' es s := by
  induction es generalizing s with
  | nil => rfl
  | cons e es ih =>
    rw [evalEach, evalEach, ← h e s .head]
    exact andThen_congr fun x t hx => by rw [ih fun e' u hu => h e' u (.tail hx hu)]

theorem evalStatements_congr {p : Program} {s : State σ}
    (h : ∀ e t, Each ev p s e t → ev e t = ev' e t) :
    evalStatements ev p s = evalStatements ev' p s := by
  match p with
  | [] => rfl
  | [e] => exact h e s .head
  | e :: f :: es =>
    rw [evalStatements, evalStatements, ← h e s .head]
    exact andThen_congr fun x t hx => evalStatements_congr fun e' u hu => h e' u (.tail hx hu)

theorem evalArguments_congr {modes : List Mode} {es : List Expr} {s : State σ}
    (h : ∀ e t, Prepares ev modes es s e t → ev e t = ev' e t) :
    evalArguments ev modes es s = evalArguments ev' modes es s := by
  induction es generalizing modes s with
  | nil => rfl
  | cons e es ih =>
    have hhead : evalArgument ev (modes.headD .eager) e s =
        evalArgument ev' (modes.headD .eager) e s := by
      cases hmode : modes.headD .eager with
      | eager => rw [evalArgument, evalArgument, h e s (.head hmode)]
      | deferred => rfl
    rw [evalArguments, evalArguments, ← hhead]
    exact andThen_congr fun a t ha => by rw [ih fun e' u hu => h e' u (.tail ha hu)]

theorem force_congr {a : LazyArg} {s : State σ} (h : ∀ e, a = .later e → ev e s = ev' e s) :
    force ev a s = force ev' a s := by
  cases a with
  | now x => rfl
  | later e => exact h e rfl

theorem runFor_congr {counter : String} {body : LazyArg} {n index : Nat} {s : State σ}
    (h : ∀ e t, Turns ev counter body n index s e t → ev e t = ev' e t) :
    runFor ev counter body n index s = runFor ev' counter body n index s := by
  induction n generalizing index s with
  | zero => rfl
  | succ n ih =>
    rw [runFor, runFor, ← force_congr fun e he => h e _ (.head he)]
    exact andThen_congr fun x t hx => ih fun e u hu => h e u (.tail hx hu)

theorem runWhile_congr {condition body : LazyArg} {n : Nat} {s : State σ}
    (h : ∀ e t, Loops ev condition body n s e t → ev e t = ev' e t) :
    runWhile ev condition body n s = runWhile ev' condition body n s := by
  induction n generalizing s with
  | zero => rfl
  | succ n ih =>
    rw [runWhile, runWhile, ← force_congr fun e he => h e s (.check he)]
    refine andThen_congr fun x t hx => ?_
    cases htrue : isTruthy x with
    | false => rfl
    | true =>
      rw [if_pos rfl, if_pos rfl, ← force_congr fun e he => h e t (.body hx htrue he)]
      exact andThen_congr fun y u hy => ih fun e v hv => h e v (.again hx htrue hy hv)

theorem evalIf_congr {rounds : Nat} {as : List LazyArg} {s : State σ}
    (h : ∀ e t, Controls ev rounds 0 .branch as s e t → ev e t = ev' e t) :
    evalIf ev as s = evalIf ev' as s := by
  unfold evalIf
  split
  · rename_i condition yes no as
    have hcondition : force ev condition s = force ev' condition s :=
      force_congr fun e he => by subst he; exact h e s .condition
    rw [← hcondition]
    refine andThen_congr fun x t hx => ?_
    cases htrue : isTruthy x with
    | true => exact force_congr fun e he => by subst he; exact h e t (.yes hx htrue)
    | false => exact force_congr fun e he => by subst he; exact h e t (.no hx htrue)
  · rfl

theorem evalFor_congr {rounds : Nat} {as : List LazyArg} {s : State σ}
    (h : ∀ k e t, Controls ev rounds k .count as s e t → ev e t = ev' e t) :
    evalFor ev as s = evalFor ev' as s := by
  unfold evalFor
  split
  · rename_i number body as
    have hnumber : force ev number s = force ev' number s :=
      force_congr fun e he => by subst he; exact h 0 e s .number
    rw [← hnumber]
    exact andThen_congr fun x t hx => by rw [runFor_congr fun e u hu => h 1 e u (.turn hx hu)]
  · rfl

theorem evalWhile_congr {rounds : Nat} {as : List LazyArg} {s : State σ}
    (h : ∀ e t, Controls ev rounds 0 .loop as s e t → ev e t = ev' e t) :
    evalWhile ev rounds as s = evalWhile ev' rounds as s := by
  unfold evalWhile
  split
  · exact runWhile_congr fun e t ht => h e t (.loop ht)
  · rfl

theorem control_congr {rounds : Nat} {c : Control} {as : List LazyArg} {s : State σ}
    (h : ∀ k e t, Controls ev rounds k c as s e t → ev e t = ev' e t) :
    applyRule ev rounds (.control c) as s = applyRule ev' rounds (.control c) as s := by
  cases c with
  | branch => exact evalIf_congr (h 0)
  | count => exact evalFor_congr h
  | loop => exact evalWhile_congr (h 0)

theorem evalCall_accepted {name : String} {b : Builtin} {es : List Expr}
    (hb : Builtin.find? name = some b) (ha : b.arity.accepts es.length = true)
    (ev : Evaluator σ) (rounds : Nat) (s : State σ) :
    evalCall functions ev rounds name es s =
      andThen (evalArguments ev b.modes es s) fun as t => applyRule ev rounds b.rule as t := by
  simp [evalCall, hb, Arity.check, ha]

theorem Each.prepares {es : List Expr} {e : Expr} {s t : State σ} (h : Each ev es s e t) :
    Prepares ev [] es s e t := by
  induction h with
  | head => exact .head rfl
  | @tail e _ _ x s u _ hhead _ ih =>
    have harg : evalArgument ev .eager e s = some (.ok (.now x), u) := by
      rw [evalArgument, hhead]
      rfl
    exact .tail harg ih

theorem evalCall_congr {name : String} {es : List Expr} {rounds : Nat} {s : State σ}
    (h : ∀ k e t, Starts functions ev rounds k (.call name es) s e t → ev e t = ev' e t) :
    evalCall functions ev rounds name es s = evalCall functions ev' rounds name es s := by
  cases hb : Builtin.find? name with
  | none =>
    cases hf : functions.get? name with
    | none => rw [evalCall_unknown hb hf, evalCall_unknown hb hf]
    | some f =>
      by_cases hlen : es.length = f.arity
      · rw [evalCall_host hb hf hlen, evalCall_host hb hf hlen,
          evalEach_congr fun e t ht => h 0 e t (.hostArgument hb hf hlen ht)]
      · rw [evalCall_hostCount hb hf hlen, evalCall_hostCount hb hf hlen]
  | some b =>
    cases ha : b.arity.accepts es.length with
    | false => rw [evalCall_builtinCount hb ha, evalCall_builtinCount hb ha]
    | true =>
      have harguments {e : Expr} {t : State σ} (ht : Prepares ev b.modes es s e t) :
          ev e t = ev' e t := h 0 e t (.argument hb ha ht)
      cases hr : b.rule with
      | math f =>
        rw [modes_eq_nil_of_math hb hr] at harguments
        rw [evalCall_math hb hr ha, evalCall_math hb hr ha,
          evalEach_congr fun e t ht => harguments ht.prepares]
      | control c =>
        rw [evalCall_accepted hb ha, evalCall_accepted hb ha, hr,
          ← evalArguments_congr fun e t ht => harguments ht]
        exact andThen_congr fun as t has =>
          control_congr fun k e u hu => h k e u (.ruled hb ha hr has hu)

/-- The outcome of an operation depends on the evaluator at the evaluations that it starts, and
nowhere else. -/
theorem performWith_congr {op : Operation} {rounds : Nat} {s : State σ}
    (h : ∀ k e t, Starts functions ev rounds k op s e t → ev e t = ev' e t) :
    performWith functions ev rounds op s = performWith functions ev' rounds op s := by
  cases op with
  | eval e =>
    refine congrArg asValue ?_
    cases e with
    | num x => rfl
    | var name => rfl
    | assign name e => rw [evalStep, evalStep, h 0 e s .assigned]
    | binary op left right =>
      rw [evalStep, evalStep, ← h 0 left s (.operand .head)]
      exact andThen_congr fun x t hx => by rw [h 0 right t (.operand (.tail hx .head))]
    | call name es => exact evalCall_congr fun k e t ht => h k e t (.called ht)
    | quote p => exact evalStatements_congr fun e t ht => h 0 e t (.quoted ht)
  | program p =>
    exact congrArg asValue (evalStatements_congr fun e t ht => h 0 e t (.statement ht))
  | lookup name => rfl
  | call name es => exact congrArg asValue (evalCall_congr h)
  | argument mode e =>
    cases mode with
    | eager =>
      show evalArgument ev .eager e s = evalArgument ev' .eager e s
      rw [evalArgument, evalArgument, h 0 e s .eager]
    | deferred => rfl
  | force a => exact congrArg asValue (force_congr fun e he => h 0 e s (he ▸ .forced))
  | control c as =>
    exact congrArg asValue (control_congr fun k e t ht => h k e t (.controlled ht))

end Congruence

/-! ## Balance -/

/-- Each operation of a session that ends, with a value or an error, leaves the depth as it was.
Where an operation comes to evaluate an expression inside the bodies of `k` more loops, the depth
is greater by `k`; and these are all evaluations that it comes to, since its outcome depends on no
others. -/
theorem depth_balanced (functions : Registry σ) (fuel : Nat) :
    (∀ ops s, ∀ r ∈ session functions fuel ops s, r.2.depth = s.depth) ∧
    (∀ k op s e t, Reaches functions fuel k op s e t → t.depth = s.depth + k) ∧
    ∀ op s ev', (∀ k e t, Starts functions (eval functions fuel) fuel k op s e t →
      eval functions fuel e t = ev' e t) →
      perform functions fuel op s = performWith functions ev' fuel op s :=
  ⟨depth_of_mem_session functions fuel, fun _ _ _ _ _ h => h.depth_eq,
    fun _ _ _ h => performWith_congr h⟩

/-- The inner body fails two loops deep, and the session goes on outside both loops. -/
theorem depth_balanced_nested :
    (Reaches (.empty : Registry Unit) 3 2
        (.eval (.call "for" [.num 2.0, .call "FOR" [.num 2.0, .var "y"]])) ⟨.empty, 1, (), []⟩
        (.var "y") ⟨.ofList [("iter2", Binary64.ofNat 0), ("iter3", Binary64.ofNat 0)], 3, (), []⟩ ∧
      3 = 1 + 2) ∧
    ((.error (.undefinedVariable "y"),
          ⟨.ofList [("iter2", Binary64.ofNat 0), ("iter3", Binary64.ofNat 0)], 1, (), []⟩) ∈
        session (.empty : Registry Unit) 3
          [.eval (.call "for" [.num 2.0, .call "FOR" [.num 2.0, .var "y"]]), .lookup "iter2"]
          ⟨.empty, 1, (), []⟩ ∧
      1 = 1) := by
  have hcount : iterationCount 2.0 = 2 := by decide +kernel
  have houter : foldCase "for" = "for" := by decide +kernel
  have hinner : foldCase "FOR" = "for" := by decide +kernel
  have hfirst : Starts (.empty : Registry Unit) (eval .empty 3) 3 1
      (.eval (.call "for" [.num 2.0, .call "FOR" [.num 2.0, .var "y"]])) ⟨.empty, 1, (), []⟩
      (.call "FOR" [.num 2.0, .var "y"]) ⟨.ofList [("iter2", Binary64.ofNat 0)], 2, (), []⟩ :=
    starts_body (t := ⟨.empty, 1, (), []⟩) houter rfl hcount
  have hsecond : Starts (.empty : Registry Unit) (eval .empty 2) 2 1
      (.eval (.call "FOR" [.num 2.0, .var "y"]))
      ⟨.ofList [("iter2", Binary64.ofNat 0)], 2, (), []⟩ (.var "y")
      ⟨.ofList [("iter2", Binary64.ofNat 0), ("iter3", Binary64.ofNat 0)], 3, (), []⟩ :=
    starts_body (t := ⟨.ofList [("iter2", Binary64.ofNat 0)], 2, (), []⟩) hinner rfl hcount
  have hsession : (.error (.undefinedVariable "y"),
        ⟨.ofList [("iter2", Binary64.ofNat 0), ("iter3", Binary64.ofNat 0)], 1, (), []⟩) ∈
      session (.empty : Registry Unit) 3
        [.eval (.call "for" [.num 2.0, .call "FOR" [.num 2.0, .var "y"]]), .lookup "iter2"]
        ⟨.empty, 1, (), []⟩ := by
    simp only [session, perform, performWith, eval, evalStep, andThen, hcount, runFor, force,
      evalCall_for houter, evalCall_for hinner]
    exact List.mem_cons_self
  obtain ⟨hends, hinside, -⟩ := depth_balanced (.empty : Registry Unit) 3
  have hreaches := Reaches.through hfirst (.direct hsecond)
  exact ⟨⟨hreaches, hinside _ _ _ _ _ hreaches⟩, hsession, hends _ _ _ hsession⟩

end Evaluation
end FormulaLang

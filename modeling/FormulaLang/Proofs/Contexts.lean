import FormulaLang.Proofs.Fuel
import FormulaLang.Proofs.Nodes
import FormulaLang.Proofs.Prolong

/-!
# FormulaLang.Proofs.Contexts

What may be replaced in a program without a change of its runs. A `Context` is an expression with
one place left open, at any depth. Every node of a program stands in one
(`exists_context_of_mem_nodes`), so what is said of contexts is said of all places in programs.

An expression is *covered* by another if each of its scripts is prolonged by one of the other's,
which may need more fuel. This is kept by every kind of node, so by every context: an argument
that is evaluated many times, at other depths, asks for the same each time. Programs that cover
each other have the same runs (`SameRuns`).

Main statement: in every context, an expression and its quote, a call of `pow` and the operator,
and a quote among statements and its own statements have the same runs (`sameRuns_in_context`).
-/

namespace FormulaLang

inductive Context where
  | hole
  | assigned (name : String) (value : Context)
  | left (op : Operator) (value : Context) (other : Expr)
  | right (op : Operator) (other : Expr) (value : Context)
  | argument (name : String) (front : List Expr) (value : Context) (back : List Expr)
  | statement (front : Program) (value : Context) (back : Program)

def Context.fill (e : Expr) : Context → Expr
  | hole => e
  | assigned name value => .assign name (value.fill e)
  | left op value other => .binary op (value.fill e) other
  | right op other value => .binary op other (value.fill e)
  | argument name front value back => .call name (front ++ value.fill e :: back)
  | statement front value back => .quote (front ++ value.fill e :: back)

mutual

theorem Context.exists_of_mem_nodes : ∀ {e n : Expr}, n ∈ e.nodes → ∃ C : Context, e = C.fill n
  | .num x, n, h => by
    obtain rfl : n = .num x := by simpa [Expr.nodes] using h
    exact ⟨.hole, rfl⟩
  | .var name, n, h => by
    obtain rfl : n = .var name := by simpa [Expr.nodes] using h
    exact ⟨.hole, rfl⟩
  | .assign name value, n, h => by
    rcases List.mem_cons.mp h with rfl | h
    · exact ⟨.hole, rfl⟩
    · obtain ⟨C, rfl⟩ := Context.exists_of_mem_nodes h
      exact ⟨.assigned name C, rfl⟩
  | .binary op left right, n, h => by
    rcases List.mem_cons.mp h with rfl | h
    · exact ⟨.hole, rfl⟩
    rcases List.mem_append.mp h with h | h
    · obtain ⟨C, rfl⟩ := Context.exists_of_mem_nodes h
      exact ⟨.left op C right, rfl⟩
    · obtain ⟨C, rfl⟩ := Context.exists_of_mem_nodes h
      exact ⟨.right op left C, rfl⟩
  | .call name es, n, h => by
    rcases List.mem_cons.mp h with rfl | h
    · exact ⟨.hole, rfl⟩
    · obtain ⟨front, C, back, rfl⟩ := exists_context_of_mem_nodes h
      exact ⟨.argument name front C back, rfl⟩
  | .quote p, n, h => by
    rcases List.mem_cons.mp h with rfl | h
    · exact ⟨.hole, rfl⟩
    · obtain ⟨front, C, back, rfl⟩ := exists_context_of_mem_nodes h
      exact ⟨.statement front C back, rfl⟩

/-- Every node of a program stands in a context that is filled with it: no place where an expression
can stand is missing among the contexts of `sameRuns_in_context`. -/
theorem exists_context_of_mem_nodes : ∀ {p : Program} {n : Expr}, n ∈ p.nodes →
    ∃ (front : Program) (C : Context) (back : Program), p = front ++ C.fill n :: back
  | [], n, h => by cases h
  | e :: es, n, h => by
    rcases List.mem_append.mp h with h | h
    · obtain ⟨C, rfl⟩ := Context.exists_of_mem_nodes h
      exact ⟨[], C, es, rfl⟩
    · obtain ⟨front, C, back, heq⟩ := exists_context_of_mem_nodes (p := es) h
      exact ⟨e :: front, C, back, by rw [heq]; rfl⟩

end

variable {σ : Type}

/-! ## Scripts of statements -/

namespace Script

variable {α β γ : Type}

theorem andThen_assoc (m : Script σ α) (f : α → Script σ β) (g : β → Script σ γ) :
    (m.andThen f).andThen g = m.andThen fun a => (f a).andThen g := by
  induction m with
  | stop o => cases o <;> rfl
  | starve => rfl
  | read name next ih => exact congrArg (Script.read name) (funext ih)
  | write name x next ih => exact congrArg (Script.write name x) ih
  | call name h xs next ih => exact congrArg (Script.call name h xs) (funext ih)

theorem statements_cons (sc : Expr → Script σ Float) (e : Expr) {p : Program} (hp : p ≠ []) :
    statements sc (e :: p) = (sc e).andThen fun _ => statements sc p := by
  cases p with
  | nil => exact absurd rfl hp
  | cons f es => rfl

theorem statements_append (sc : Expr → Script σ Float) {p q : Program} (hp : p ≠ [])
    (hq : q ≠ []) :
    statements sc (p ++ q) = (statements sc p).andThen fun _ => statements sc q := by
  match p with
  | [] => exact absurd rfl hp
  | [e] => exact statements_cons sc e hq
  | e :: f :: es =>
    have ih := statements_append sc (p := f :: es) (List.cons_ne_nil f es) hq
    rw [List.cons_append, statements_cons sc e (by simp), ih, statements, andThen_assoc]

/-- Statements between others can be replaced if their script is prolonged. -/
theorem statements_between {sc sc' : Expr → Script σ Float} (h : ∀ e, (sc e).Prolonged (sc' e))
    {p q : Program} (hp : p ≠ []) (hq : q ≠ [])
    (hpq : (statements sc p).Prolonged (statements sc' q)) (front back : Program) :
    (statements sc (front ++ p ++ back)).Prolonged (statements sc' (front ++ q ++ back)) := by
  have hbehind : (statements sc (p ++ back)).Prolonged (statements sc' (q ++ back)) := by
    by_cases hback : back = []
    · rw [hback, List.append_nil, List.append_nil]
      exact hpq
    · rw [statements_append sc hp hback, statements_append sc' hq hback]
      exact hpq.andThen fun _ => statements_prolonged h back
  rw [List.append_assoc, List.append_assoc]
  by_cases hfront : front = []
  · rw [hfront]
    exact hbehind
  · rw [statements_append sc hfront (by simp [hp]), statements_append sc' hfront (by simp [hq])]
    exact (statements_prolonged h front).andThen fun _ => hbehind

end Script

/-! ## Covering -/

/-- Some fuel prolongs the scripts that the first program has with a given fuel, at all depths at
once. -/
def Program.Covers (functions : Registry σ) (p p' : Program) : Prop :=
  ∀ fuel, ∃ fuel', fuel ≤ fuel' ∧ ∀ depth,
    (p.script functions fuel depth).Prolonged (p'.script functions fuel' depth)

/-- The same of expressions, as the only statements of programs. -/
def Expr.Covers (functions : Registry σ) (e e' : Expr) : Prop :=
  Program.Covers functions [e] [e']

/-- Without fuel an expression does nothing, so it is enough to look at scripts with some. -/
theorem Program.Covers.of_succ {functions : Registry σ} {e : Expr} {p : Program}
    (h : ∀ fuel, ∃ fuel', fuel ≤ fuel' ∧ ∀ depth,
      (e.script functions (fuel + 1) depth).Prolonged (p.script functions (fuel' + 1) depth)) :
    Covers functions [e] p := by
  intro fuel
  cases fuel with
  | zero => exact ⟨0, Nat.le_refl 0, fun _ => .starve _⟩
  | succ fuel =>
    obtain ⟨fuel', hle, hp⟩ := h fuel
    exact ⟨fuel' + 1, Nat.succ_le_succ hle, hp⟩

namespace Expr

variable {functions : Registry σ}

theorem Covers.refl (e : Expr) : Covers functions e e :=
  fun fuel => ⟨fuel, Nat.le_refl fuel, fun _ => .refl _⟩

theorem Covers.self (es : List Expr) : List.Forall₂ (Covers functions) es es :=
  List.forall₂_same.mpr fun e _ => .refl e

/-- Parts that stand side by side can share the fuel. -/
theorem Covers.exists_fuel {es es' : List Expr} (h : List.Forall₂ (Covers functions) es es')
    (fuel : Nat) : ∃ fuel', fuel ≤ fuel' ∧
      List.Forall₂ (fun e e' => ∀ depth,
        (e.script functions fuel depth).Prolonged (e'.script functions fuel' depth)) es es' := by
  induction h with
  | nil => exact ⟨fuel, Nat.le_refl fuel, .nil⟩
  | cons he _ ih =>
    obtain ⟨fuel₁, hle₁, he⟩ := he fuel
    obtain ⟨fuel₂, hle₂, hes⟩ := ih
    refine ⟨max fuel₁ fuel₂, hle₁.trans (Nat.le_max_left ..), .cons ?_ (hes.imp ?_)⟩
    · intro depth
      exact (he depth).trans (Script.script_prolonged functions (Nat.le_max_left ..) depth _)
    · intro e e' he depth
      exact (he depth).trans (Script.script_prolonged functions (Nat.le_max_right ..) depth _)

/-- A node covers another if its scripts are prolonged where those of the parts are. -/
theorem Covers.of_parts {es es' : List Expr} {e e' : Expr}
    (h : List.Forall₂ (Covers functions) es es')
    (hstep : ∀ {sc sc' : Nat → Expr → Script σ Float} {most most' : Nat},
      List.Forall₂ (fun e e' => ∀ depth, (sc depth e).Prolonged (sc' depth e')) es es' →
      most ≤ most' → ∀ depth,
        (Script.step functions sc most depth e).Prolonged
          (Script.step functions sc' most' depth e')) :
    Covers functions e e' := by
  refine Program.Covers.of_succ fun fuel => ?_
  obtain ⟨fuel', hle, hes⟩ := exists_fuel h fuel
  exact ⟨fuel', hle, hstep hes hle⟩

theorem Covers.assign {e e' : Expr} (h : Covers functions e e') (name : String) :
    Covers functions (.assign name e) (.assign name e') := by
  refine of_parts (.cons h .nil) fun hparts _ depth => ?_
  obtain _ | ⟨he, _⟩ := hparts
  exact (he depth).andThen fun x => .refl _

theorem Covers.binary {left left' right right' : Expr} (hl : Covers functions left left')
    (hr : Covers functions right right') (op : Operator) :
    Covers functions (.binary op left right) (.binary op left' right') := by
  refine of_parts (.cons hl (.cons hr .nil)) fun hparts _ depth => ?_
  obtain _ | ⟨hl, _ | ⟨hr, _⟩⟩ := hparts
  exact (hl depth).andThen fun x => (hr depth).andThen fun y => .refl _

theorem Covers.call {es es' : List Expr} (h : List.Forall₂ (Covers functions) es es')
    (name : String) : Covers functions (.call name es) (.call name es') :=
  of_parts h fun hparts hle depth => Script.invoke_prolonged hparts hle depth name

theorem Covers.argument {e e' : Expr} (h : Covers functions e e') (name : String)
    (front back : List Expr) :
    Covers functions (.call name (front ++ e :: back)) (.call name (front ++ e' :: back)) :=
  call (List.rel_append (self front) (.cons h (self back))) name

theorem Covers.quote {p p' : Program} (h : p.Covers functions p') :
    Covers functions (.quote p) (.quote p') :=
  Program.Covers.of_succ h

end Expr

namespace Program

variable {functions : Registry σ}

theorem Covers.between {p q : Program} (h : p.Covers functions q) (hp : p ≠ []) (hq : q ≠ [])
    (front back : Program) : Covers functions (front ++ p ++ back) (front ++ q ++ back) := by
  intro fuel
  obtain ⟨fuel', hle, hpq⟩ := h fuel
  refine ⟨fuel', hle, fun depth => ?_⟩
  exact Script.statements_between (Script.script_prolonged functions hle depth) hp hq (hpq depth)
    front back

theorem Covers.statement {e e' : Expr} (h : e.Covers functions e') (front back : Program) :
    Covers functions (front ++ e :: back) (front ++ e' :: back) := by
  have hbetween := Covers.between h (List.cons_ne_nil e []) (List.cons_ne_nil e' []) front back
  rwa [List.append_assoc, List.append_assoc] at hbetween

end Program

section Covers

variable {functions : Registry σ}

theorem Context.covers {e e' : Expr} (h : e.Covers functions e') (C : Context) :
    (C.fill e).Covers functions (C.fill e') := by
  induction C with
  | hole => exact h
  | assigned name value ih => exact ih.assign name
  | left op value other ih => exact ih.binary (.refl other) op
  | right op other value ih => exact (Expr.Covers.refl other).binary ih op
  | argument name front value back ih => exact ih.argument name front back
  | statement front value back ih => exact .quote (.statement ih front back)

theorem covers_quote (e : Expr) : e.Covers functions (.quote [e]) :=
  fun fuel => ⟨fuel + 1, Nat.le_succ fuel, fun _ => .refl _⟩

theorem quote_covers (e : Expr) : (Expr.quote [e]).Covers functions e := by
  refine Program.Covers.of_succ fun fuel => ⟨fuel, Nat.le_refl fuel, fun depth => ?_⟩
  exact Script.script_prolonged functions (Nat.le_succ fuel) depth e

/-- The builtin function asks for the same as the operator, whatever name the host has taken. -/
theorem script_pow {name : String} (h : foldCase name = "pow") (fuel depth : Nat) (a b : Expr) :
    (Expr.call name [a, b]).script functions fuel depth =
      (Expr.binary .pow a b).script functions fuel depth := by
  cases fuel with
  | zero => rfl
  | succ fuel =>
    have hb : Builtin.find? name = some (.eager "pow" (.exactly 2) .pow) :=
      Evaluation.find?_of_foldCase (by simp [Builtin.table]) h
    show Script.invoke functions _ _ _ _ _ = _
    rw [Script.invoke_math hb rfl rfl]
    simp only [Script.each, Script.andThen_assoc]
    rfl

theorem covers_of_script_eq {e e' : Expr}
    (h : ∀ fuel depth, e.script functions fuel depth = e'.script functions fuel depth) :
    e.Covers functions e' := by
  intro fuel
  refine ⟨fuel, Nat.le_refl fuel, fun depth => ?_⟩
  show (e.script functions fuel depth).Prolonged (e'.script functions fuel depth)
  rw [h]
  exact .refl _

theorem quote_covers_statements {q : Program} (hq : q ≠ []) (front back : Program) :
    Program.Covers functions (front ++ .quote q :: back) (front ++ q ++ back) := by
  have hcovers : Program.Covers functions [.quote q] q := by
    refine .of_succ fun fuel => ⟨fuel, Nat.le_refl fuel, fun depth => ?_⟩
    exact Script.statements_prolonged
      (Script.script_prolonged functions (Nat.le_succ fuel) depth) q
  have hbetween := hcovers.between (List.cons_ne_nil _ []) hq front back
  rwa [List.append_assoc] at hbetween

theorem statements_cover_quote {q : Program} (hq : q ≠ []) (front back : Program) :
    Program.Covers functions (front ++ q ++ back) (front ++ .quote q :: back) := by
  have hcovers : Program.Covers functions q [.quote q] :=
    fun fuel => ⟨fuel + 1, Nat.le_succ fuel, fun _ => .refl _⟩
  have hbetween := hcovers.between hq (List.cons_ne_nil _ []) front back
  rwa [List.append_assoc front [_]] at hbetween

end Covers

/-! ## Runs -/

namespace Evaluation

/-- The programs have the same runs, whatever the host offers and from whatever state. With enough
fuel both end or neither does, with one outcome and one final state, the variables and the log of
host calls among it. A run that does not end has the same effects, in order. -/
structure SameRuns (p p' : Program) : Prop where
  answers : ∀ {σ : Type} (functions : Registry σ) (s t : State σ) (o : Except EvalError Float),
    (∃ fuel, evalStatements (eval functions fuel) p s = some (o, t)) ↔
      ∃ fuel, evalStatements (eval functions fuel) p' s = some (o, t)
  effects : ∀ {σ : Type} (functions : Registry σ) (s : State σ) (fuel : Nat),
    (∃ fuel', effects functions fuel p s <+: effects functions fuel' p' s) ∧
      ∃ fuel', effects functions fuel p' s <+: effects functions fuel' p s
  run : ∀ {σ : Type} (functions : Registry σ) (s : State σ),
    p.run functions s = p'.run functions s ∨
      p.run functions s = none ∨ p'.run functions s = none

section SameRuns

variable {p p' : Program}

theorem answer_of_covers {functions : Registry σ} (h : p.Covers functions p') {fuel : Nat}
    {s : State σ} {r : Except EvalError Float × State σ}
    (hr : evalStatements (eval functions fuel) p s = some r) :
    ∃ fuel', fuel ≤ fuel' ∧ evalStatements (eval functions fuel') p' s = some r := by
  obtain ⟨fuel', hle, hp⟩ := h fuel
  rw [statements_eq_perform] at hr
  refine ⟨fuel', hle, ?_⟩
  rw [statements_eq_perform]
  exact (hp s.depth).perform hr

theorem effects_of_covers {functions : Registry σ} (h : p.Covers functions p') (s : State σ)
    (fuel : Nat) : ∃ fuel', effects functions fuel p s <+: effects functions fuel' p' s := by
  obtain ⟨fuel', -, hp⟩ := h fuel
  exact ⟨fuel', (hp s.depth).effects s⟩

theorem run_of_covers {functions : Registry σ} (h : p.Covers functions p') (s : State σ) :
    p.run functions s = p'.run functions s ∨
      p.run functions s = none ∨ p'.run functions s = none := by
  cases hr : p.run functions s with
  | none => exact .inr (.inl rfl)
  | some r =>
    cases hr' : p'.run functions s with
    | none => exact .inr (.inr rfl)
    | some r' =>
      obtain ⟨fuel, hle, hanswer⟩ := answer_of_covers h hr
      have hkept := evalStatements_kept (eval_mono functions hle) p' s r' hr'
      exact .inl (hanswer.symm.trans hkept)

theorem sameRuns_of_covers
    (h : ∀ {σ : Type} (functions : Registry σ), p.Covers functions p' ∧ p'.Covers functions p) :
    SameRuns p p' where
  answers functions s t o := by
    constructor
    · rintro ⟨fuel, hr⟩
      obtain ⟨fuel', -, hr'⟩ := answer_of_covers (h functions).1 hr
      exact ⟨fuel', hr'⟩
    · rintro ⟨fuel, hr⟩
      obtain ⟨fuel', -, hr'⟩ := answer_of_covers (h functions).2 hr
      exact ⟨fuel', hr'⟩
  effects functions s fuel :=
    ⟨effects_of_covers (h functions).1 s fuel, effects_of_covers (h functions).2 s fuel⟩
  run functions s := run_of_covers (h functions).1 s

end SameRuns

/-- **Quoting and inlining are transparent.** Wherever an expression stands in a program, it can be
quoted; a call of `pow`, in any case, can be written with the operator; and a quote that stands as
a statement and is not empty can be replaced by its statements, in the program and in every
program that is quoted in it. The runs are the same. -/
theorem sameRuns_in_context (before : Program) (C : Context) (after : Program) :
    (∀ e, SameRuns (before ++ C.fill e :: after) (before ++ C.fill (.quote [e]) :: after)) ∧
    (∀ name a b, foldCase name = "pow" →
      SameRuns (before ++ C.fill (.call name [a, b]) :: after)
        (before ++ C.fill (.binary .pow a b) :: after)) ∧
    ∀ q : Program, q ≠ [] →
      SameRuns (before ++ .quote q :: after) (before ++ q ++ after) ∧
      ∀ front back : Program,
        SameRuns (before ++ C.fill (.quote (front ++ .quote q :: back)) :: after)
          (before ++ C.fill (.quote (front ++ q ++ back)) :: after) := by
  -- what covers each other in the hole does so in the program around it
  have hfill : ∀ {σ : Type} {functions : Registry σ} {e e' : Expr}, e.Covers functions e' →
      Program.Covers functions (before ++ C.fill e :: after) (before ++ C.fill e' :: after) :=
    fun h => .statement (C.covers h) before after
  refine ⟨fun e => ?_, fun name a b hname => ?_, fun q hq => ⟨?_, fun front back => ?_⟩⟩
  · exact sameRuns_of_covers fun _ => ⟨hfill (covers_quote e), hfill (quote_covers e)⟩
  · exact sameRuns_of_covers fun _ =>
      ⟨hfill (covers_of_script_eq fun fuel depth => script_pow hname fuel depth a b),
        hfill (covers_of_script_eq fun fuel depth => (script_pow hname fuel depth a b).symm)⟩
  · exact sameRuns_of_covers fun _ =>
      ⟨quote_covers_statements hq before after, statements_cover_quote hq before after⟩
  · exact sameRuns_of_covers fun _ =>
      ⟨hfill (.quote (quote_covers_statements hq front back)),
        hfill (.quote (statements_cover_quote hq front back))⟩

/-- In the body of a loop, which is evaluated three times. -/
theorem sameRuns_in_context_loop :
    SameRuns
      [.assign "x" (.num 2.0),
        .call "for" [.num 3.0, .assign "x" (.call "POW" [.var "x", .num 2.0])], .var "x"]
      [.assign "x" (.num 2.0),
        .call "for" [.num 3.0, .assign "x" (.binary .pow (.var "x") (.num 2.0))], .var "x"] ∧
    SameRuns
      [.assign "x" (.num 2.0),
        .call "for" [.num 3.0, .assign "x" (.quote [.quote [.assign "y" (.var "x"), .var "iter1"],
          .var "y"])], .var "x"]
      [.assign "x" (.num 2.0),
        .call "for" [.num 3.0, .assign "x" (.quote [.assign "y" (.var "x"), .var "iter1",
          .var "y"])], .var "x"] := by
  obtain ⟨-, hpow, hinline⟩ := sameRuns_in_context [.assign "x" (.num 2.0)]
    (.argument "for" [.num 3.0] (.assigned "x" .hole) []) [.var "x"]
  constructor
  · exact hpow "POW" _ _ (by decide +kernel)
  · exact (hinline [.assign "y" (.var "x"), .var "iter1"] (by simp)).2 [] [.var "y"]

end Evaluation
end FormulaLang

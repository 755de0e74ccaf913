import FormulaLang.Proofs.Contexts
import FormulaLang.Proofs.RunSound

/-!
# FormulaLang.Proofs.ConditionalLoop

What a conditional loop does. It is its own unfolding: a loop and the conditional that evaluates the
body and then the same loop again have the same runs. `covers_unfolding` and `unfolding_covers`
compare the scripts: each loop of scripts is prolonged by that of an unfolding with more fuel.

An evaluator can be *watched*: the expressions that a rule asks it for are noted with their
outcomes, in a record that is kept beside the host's state. The record of a loop that ends well is
that of its rounds, a value of the condition and one of the body each, and of one more value of
the condition. Main statement: `while_unfolds`.
-/

namespace FormulaLang

/-! ## Unfolding -/

section Unfolding

variable {σ : Type} {functions : Registry σ} {name branch : String} {c body : Expr}

/-- A loop asks for no more than its scripts with enough fuel, and enough rounds, do. -/
theorem script_while_prolonged (hname : foldCase name = "while") {fuel fuel' rounds : Nat}
    (hle : fuel ≤ fuel' + 1) (hrounds : fuel ≤ rounds + 1) (depth : Nat) :
    ((Expr.call name [c, body]).script functions fuel depth).Prolonged
      (Script.loop (c.script functions fuel' depth) (body.script functions fuel' depth) rounds) := by
  cases fuel with
  | zero => exact .starve _
  | succ fuel =>
    have hle' := Nat.le_of_succ_le_succ hle
    rw [Expr.script, Script.step, Script.invoke_while hname]
    exact Script.loop_prolonged (Script.script_prolonged functions hle' depth c)
      (Script.script_prolonged functions hle' depth body) (Nat.le_of_succ_le_succ hrounds)

theorem covers_unfolding (hname : foldCase name = "while") (hbranch : foldCase branch = "if") :
    (Expr.call name [c, body]).Covers functions
      (.call branch [c, .quote [body, .call name [c, body]], .num 1.0]) := by
  -- the loop stands in a quote, and that in an argument
  refine Program.Covers.of_succ fun fuel => ⟨fuel + 2, by omega, fun depth => ?_⟩
  show Script.Prolonged (Script.invoke functions _ _ _ _ _) (Script.invoke functions _ _ _ _ _)
  rw [Script.invoke_while hname, Script.invoke_if hbranch]
  cases fuel with
  | zero => exact .starve _
  | succ rounds =>
    have hparts : ∀ e : Expr, (e.script functions (rounds + 1) depth).Prolonged
        (e.script functions (rounds + 1 + 2) depth) :=
      Script.script_prolonged functions (by omega) depth
    refine (hparts c).andThen fun x => ?_
    split
    · refine (Script.script_prolonged functions (Nat.le_succ (rounds + 1)) depth body).andThen
        fun _ => ?_
      show Script.Prolonged _ (Script.invoke functions _ _ _ _ _)
      rw [Script.invoke_while hname]
      exact Script.loop_prolonged (.refl _) (.refl _) (Nat.le_succ rounds)
    · exact .refl _

theorem unfolding_covers (hname : foldCase name = "while") (hbranch : foldCase branch = "if") :
    (Expr.call branch [c, .quote [body, .call name [c, body]], .num 1.0]).Covers functions
      (.call name [c, body]) := by
  refine Program.Covers.of_succ fun fuel => ⟨fuel + 1, Nat.le_succ fuel, fun depth => ?_⟩
  show Script.Prolonged (Script.invoke functions _ _ _ _ _) (Script.invoke functions _ _ _ _ _)
  rw [Script.invoke_if hbranch, Script.invoke_while hname]
  refine (Script.script_prolonged functions (Nat.le_succ fuel) depth c).andThen fun x => ?_
  cases fuel with
  | zero => split <;> exact .starve _
  | succ fuel =>
    split
    · refine (Script.script_prolonged functions (by omega) depth body).andThen fun _ => ?_
      exact script_while_prolonged hname (by omega) (by omega) depth
    · exact .refl _

end Unfolding

namespace Evaluation

/-! ## Watching -/

structure Visit where
  expression : Expr
  outcome : Except EvalError Float

structure Round where
  test : Float
  value : Float

def Round.visits (c body : Expr) (r : Round) : List Visit := [⟨c, .ok r.test⟩, ⟨body, .ok r.value⟩]

variable {σ : Type}

def watch (s : State σ) (record : List Visit) : State (σ × List Visit) :=
  ⟨s.variables, s.depth, (s.host, record), s.calls⟩

def unwatch (s : State (σ × List Visit)) : State σ := ⟨s.variables, s.depth, s.host.1, s.calls⟩

/-- The evaluator, with a note of each evaluation that ends. -/
def watched (ev : Evaluator σ) : Evaluator (σ × List Visit) := fun e s =>
  match ev e (unwatch s) with
  | none => none
  | some (o, t) => some (o, watch t (s.host.2 ++ [⟨e, o⟩]))

theorem watched_of_eq {ev : Evaluator σ} {e : Expr} {s t : State σ} {o : Except EvalError Float}
    (h : ev e s = some (o, t)) (record : List Visit) :
    watched ev e (watch s record) = some (o, watch t (record ++ [⟨e, o⟩])) := by
  have hunwatch : unwatch (watch s record) = s := rfl
  simp only [watched, hunwatch, h]
  rfl

theorem exists_rounds_of_runWhile {ev : Evaluator σ} {c body : Expr} {most : Nat}
    {s t : State σ} {v : Float}
    (h : runWhile ev (.later c) (.later body) most s = some (.ok v, t)) (record : List Visit) :
    v = 1.0 ∧ ∃ (rounds : List Round) (last : Float),
      (∀ r ∈ rounds, isTruthy r.test = true) ∧ isTruthy last = false ∧
      runWhile (watched ev) (.later c) (.later body) most (watch s record) =
        some (.ok 1.0,
          watch t (record ++ (rounds.flatMap (Round.visits c body) ++ [⟨c, .ok last⟩]))) := by
  induction most generalizing s record with
  | zero => cases h
  | succ most ih =>
    rw [runWhile] at h
    obtain ⟨_, -, ⟨⟩⟩ | ⟨x, s₁, hc, h⟩ := andThen_eq_some h
    have hwatch := watched_of_eq hc record
    cases hx : isTruthy x with
    | false =>
      rw [hx, if_neg Bool.false_ne_true] at h
      cases h
      refine ⟨rfl, [], x, fun _ hr => absurd hr List.not_mem_nil, hx, ?_⟩
      rw [runWhile, force, hwatch]
      simp only [andThen, hx, Bool.false_eq_true, if_false]
      rfl
    | true =>
      rw [hx, if_pos rfl] at h
      obtain ⟨_, -, ⟨⟩⟩ | ⟨y, s₂, hbody, h⟩ := andThen_eq_some h
      have hwatch' := watched_of_eq hbody (record ++ [⟨c, .ok x⟩])
      obtain ⟨hv, rounds, last, htests, hlast, hrun⟩ :=
        ih h (record ++ [⟨c, .ok x⟩] ++ [⟨body, .ok y⟩])
      refine ⟨hv, ⟨x, y⟩ :: rounds, last, ?_, hlast, ?_⟩
      · intro r hr
        rcases List.mem_cons.mp hr with rfl | hr
        · exact hx
        · exact htests r hr
      · rw [runWhile, force, hwatch]
        simp only [andThen, hx, if_true, force, hwatch', hrun]
        rw [List.flatMap_cons, Round.visits]
        simp only [List.append_assoc, List.cons_append, List.nil_append]

/-! ## Loops -/

/-- **A conditional loop is its own unfolding.** It has the runs of the conditional that evaluates
the body and then the loop again, in any state and with any host functions. If it ends well its
value is one. It has then evaluated the condition and the body in turn, the condition once more
than the body; the last value of the condition is a zero and those before are not. -/
theorem while_unfolds {name branch : String} (hname : foldCase name = "while")
    (hbranch : foldCase branch = "if") (c body : Expr) :
    SameRuns [.call name [c, body]]
      [.call branch [c, .quote [body, .call name [c, body]], .num 1.0]] ∧
    ∀ {σ : Type} (functions : Registry σ) (fuel : Nat) (s t : State σ) (v : Float),
      eval functions (fuel + 1) (.call name [c, body]) s = some (.ok v, t) →
      v = 1.0 ∧ ∃ (rounds : List Round) (last : Float),
        (∀ r ∈ rounds, Binary64.magnitude r.test ≠ 0) ∧ Binary64.magnitude last = 0 ∧
        ∀ functions', evalStep functions' (watched (eval functions fuel)) fuel
            (.call name [c, body]) (watch s []) =
          some (.ok 1.0, watch t (rounds.flatMap (Round.visits c body) ++ [⟨c, .ok last⟩])) := by
  refine ⟨?_, fun functions fuel s t v h => ?_⟩
  · exact sameRuns_of_covers fun _ =>
      ⟨covers_unfolding hname hbranch, unfolding_covers hname hbranch⟩
  · rw [eval, evalStep, evalCall_while hname] at h
    obtain ⟨hv, rounds, last, htests, hlast, hrun⟩ := exists_rounds_of_runWhile h []
    refine ⟨hv, rounds, last, fun r hr => isTruthy_iff.mp (htests r hr),
      isTruthy_eq_false_iff.mp hlast, fun functions' => ?_⟩
    rw [evalStep, evalCall_while hname]
    exact hrun

/-- A condition that is not a number, and then a negative zero, so there is one round. -/
theorem while_unfolds_negative_zero :
    SameRuns [.call "While" [.var "x", .assign "x" (.num (-0.0))]]
      [.call "IF" [.var "x", .quote [.assign "x" (.num (-0.0)),
        .call "While" [.var "x", .assign "x" (.num (-0.0))]], .num 1.0]] ∧
    eval (.empty : Registry Unit) 3 (.call "While" [.var "x", .assign "x" (.num (-0.0))])
        ⟨.ofList [("x", 0.0 / 0.0)], 2, (), []⟩ =
      some (.ok 1.0, ⟨.ofList [("x", -0.0)], 2, (), []⟩) ∧
    ∃ (rounds : List Round) (last : Float),
      (∀ r ∈ rounds, Binary64.magnitude r.test ≠ 0) ∧ Binary64.magnitude last = 0 ∧
      ∀ functions', evalStep functions' (watched (eval .empty 2)) 2
          (.call "While" [.var "x", .assign "x" (.num (-0.0))])
          (watch ⟨.ofList [("x", 0.0 / 0.0)], 2, (), []⟩ []) =
        some (.ok 1.0, watch ⟨.ofList [("x", -0.0)], 2, (), []⟩
          (rounds.flatMap (Round.visits (.var "x") (.assign "x" (.num (-0.0)))) ++
            [⟨.var "x", .ok last⟩])) := by
  have hname : foldCase "While" = "while" := by decide +kernel
  have hrun : eval (.empty : Registry Unit) 3 (.call "While" [.var "x", .assign "x" (.num (-0.0))])
      ⟨.ofList [("x", 0.0 / 0.0)], 2, (), []⟩ =
        some (.ok 1.0, ⟨.ofList [("x", -0.0)], 2, (), []⟩) := by
    have hnan : isTruthy (0.0 / 0.0) = true := by decide +kernel
    have hzero : isTruthy (-0.0) = false := by decide +kernel
    have hget (x : Float) : (⟨.ofList [("x", x)], 2, (), []⟩ : State Unit).get? "x" = some x := rfl
    have hset : (⟨.ofList [("x", 0.0 / 0.0)], 2, (), []⟩ : State Unit).set "x" (-0.0) =
        ⟨.ofList [("x", -0.0)], 2, (), []⟩ := rfl
    simp only [eval, evalStep, evalCall_while hname, runWhile, force, evalVariable, hget, hset,
      andThen, hnan, hzero, if_true, Bool.false_eq_true, if_false]
  obtain ⟨hsame, hends⟩ := while_unfolds hname (by decide +kernel : foldCase "IF" = "if")
    (.var "x") (.assign "x" (.num (-0.0)))
  exact ⟨hsame, hrun, (hends _ 2 _ _ _ hrun).2⟩

end Evaluation
end FormulaLang

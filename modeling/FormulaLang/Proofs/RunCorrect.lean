import FormulaLang.Proofs.Fuel
import FormulaLang.Proofs.RunSound

/-!
# FormulaLang.Proofs.RunCorrect

The evaluator and the direct semantics are one. What is derived is answered with every fuel from
some point on: a reply that depends on fuel `Settles` on that answer, and each rule settles where
the evaluations it is made of do. With `eval_sound`:

* `eval_iff_evaluates`: some fuel is enough to answer `o` in state `t` iff that is derived.
* `run_refines_bigStep`: the same of programs and of whole runs, which have fixed fuel.
-/

namespace FormulaLang
namespace Evaluation

open BigStep

variable {σ : Type}

/-- From some fuel on, the reply is this answer. -/
def Settles {α : Type} (r : Nat → Reply σ α) (o : Except EvalError α) (t : State σ) : Prop :=
  ∃ n, ∀ fuel, n ≤ fuel → r fuel = some (o, t)

namespace Settles

theorem const {α : Type} {o : Except EvalError α} {t : State σ} :
    Settles (fun _ => some (o, t)) o t :=
  ⟨0, fun _ _ => rfl⟩

theorem next {α β : Type} {r : Nat → Reply σ α} {f : Nat → α → State σ → Reply σ β} {a : α}
    {o : Except EvalError β} {s t : State σ} (h : Settles r (.ok a) s)
    (hnext : Settles (fun fuel => f fuel a s) o t) :
    Settles (fun fuel => andThen (r fuel) (f fuel)) o t := by
  obtain ⟨n, hn⟩ := h
  obtain ⟨m, hm⟩ := hnext
  refine ⟨max n m, fun fuel hle => ?_⟩
  simp only [hn fuel (by omega), andThen]
  exact hm fuel (by omega)

theorem stop {α β : Type} {r : Nat → Reply σ α} {f : Nat → α → State σ → Reply σ β}
    {err : EvalError} {t : State σ} (h : Settles r (.error err) t) :
    Settles (fun fuel => andThen (r fuel) (f fuel)) (.error err) t := by
  obtain ⟨n, hn⟩ := h
  refine ⟨n, fun fuel hle => ?_⟩
  simp only [hn fuel hle, andThen]

/-- A reply that is given one unit of fuel later settles on the same answer. -/
theorem later {α : Type} {r r' : Nat → Reply σ α} {o : Except EvalError α} {t : State σ}
    (h : Settles r o t) (hr : ∀ fuel, r' (fuel + 1) = r fuel) : Settles r' o t := by
  obtain ⟨n, hn⟩ := h
  refine ⟨n + 1, fun fuel hle => ?_⟩
  obtain ⟨fuel, rfl⟩ : ∃ k, fuel = k + 1 := ⟨fuel - 1, by omega⟩
  rw [hr]
  exact hn fuel (by omega)

theorem endFor {r : Nat → Reply σ Unit} {o : Except EvalError Unit} {t : State σ}
    (h : Settles r o t) : Settles (fun fuel => endFor (r fuel)) (o.map fun _ => 1.0) t.leave := by
  obtain ⟨n, hn⟩ := h
  refine ⟨n, fun fuel hle => ?_⟩
  simp only [hn fuel hle]
  cases o <;> rfl

end Settles

/-! ## Calls -/

section Calls

variable {functions : Registry σ}

theorem settles_call {name : String} {es : List Expr} {o : Except EvalError Float} {s t : State σ}
    (h : Settles (fun fuel => evalCall functions (eval functions fuel) fuel name es s) o t) :
    Settles (fun fuel => eval functions fuel (.call name es) s) o t :=
  h.later fun _ => rfl

theorem settles_if {name : String} {c yes no : Expr} {o : Except EvalError Float} {s t : State σ}
    (hname : foldCase name = "if")
    (h : Settles (fun fuel => andThen (eval functions fuel c s) fun x s =>
      if isTruthy x then eval functions fuel yes s else eval functions fuel no s) o t) :
    Settles (fun fuel => eval functions fuel (.call name [c, yes, no]) s) o t := by
  apply settles_call
  simp only [evalCall_if hname]
  exact h

theorem settles_for {name : String} {c body : Expr} {o : Except EvalError Float} {s t : State σ}
    (hname : foldCase name = "for")
    (h : Settles (fun fuel => andThen (eval functions fuel c s) fun x s =>
      endFor (runFor (eval functions fuel) (counterName s.enter.depth) (.later body)
        (iterationCount x) 0 s.enter)) o t) :
    Settles (fun fuel => eval functions fuel (.call name [c, body]) s) o t := by
  apply settles_call
  simp only [evalCall_for hname]
  exact h

theorem eval_while_kept {name : String} {c body : Expr} (hname : foldCase name = "while")
    (fuel : Nat) (s : State σ) :
    Kept (eval functions fuel (.call name [c, body]) s)
      (runWhile (eval functions (fuel + 1)) (.later c) (.later body) fuel s) := by
  cases fuel with
  | zero => intro o h; cases h
  | succ fuel =>
    rw [eval, evalStep, evalCall_while hname]
    exact runWhile_kept (eval_mono functions (by omega)) _ _ (by omega) s

/-- The loop opens up to its first round. The rounds that are left have less fuel for their number
than for each of them, so they are compared with an evaluation that has less for both. -/
theorem settles_while {name : String} {c body : Expr} {o : Except EvalError Float} {s t : State σ}
    (hname : foldCase name = "while")
    (h : Settles (fun fuel => andThen (eval functions fuel c s) fun x s =>
      if isTruthy x then
        andThen (eval functions fuel body s) fun _ s =>
          eval functions fuel (.call name [c, body]) s
      else some (.ok 1.0, s)) o t) :
    Settles (fun fuel => eval functions fuel (.call name [c, body]) s) o t := by
  apply settles_call
  simp only [evalCall_while hname]
  obtain ⟨n, hn⟩ := h
  refine ⟨n + 1, fun fuel hle => ?_⟩
  obtain ⟨fuel, rfl⟩ : ∃ k, fuel = k + 1 := ⟨fuel - 1, by omega⟩
  have hmono := eval_mono functions (Nat.le_add_right fuel 1)
  refine (hmono c s).andThen (fun x s => ?_) _ (hn fuel (by omega))
  dsimp only [force]
  split
  · exact (hmono body s).andThen fun _ s => eval_while_kept hname fuel s
  · exact Kept.refl _

/-- An index has one double, so a round begins with the counter that the evaluator writes. -/
theorem settles_turn {counter : String} {body : Expr} {i : Nat} {v : Float}
    {o : Except EvalError Float} {s t : State σ} (hindex : Binary64.Converts i v)
    (hi : i < 2 ^ 64)
    (h : Settles (fun fuel => eval functions fuel body (s.set counter v)) o t) :
    Settles (fun fuel => eval functions fuel body (s.set counter (Binary64.ofNat i))) o t := by
  rwa [← hindex.unique (Binary64.converts_ofNat hi)]

/-- The loop is left from the depth it was entered to. -/
theorem settles_rounds_left {counter : String} {body : Expr} {n : Nat} {o : Except EvalError Unit}
    {s t u : State σ} (hcounter : counter = counterName (s.depth + 1)) (ht : t.depth = s.depth)
    (hu : u.depth = s.depth + 1)
    (h : Settles (fun fuel => runFor (eval functions fuel) counter (.later body) n 0
      (atDepth t (s.depth + 1))) o u) :
    Settles (fun fuel => endFor (runFor (eval functions fuel) (counterName t.enter.depth)
      (.later body) n 0 t.enter)) (o.map fun _ => 1.0) (atDepth u s.depth) := by
  have henter : atDepth t (s.depth + 1) = t.enter := by rw [State.enter, atDepth, ht]
  have hleave : atDepth u s.depth = u.leave := by rw [State.leave, atDepth, hu]; rfl
  have hname : counterName t.enter.depth = counter := by rw [← henter, hcounter]; rfl
  rw [hname, hleave, ← henter]
  exact h.endFor

end Calls

/-! ## Completeness -/

mutual

theorem settles_eval {functions : Registry σ} :
    ∀ {e : Expr} {s t : State σ} {o : Except EvalError Float}, Evaluates functions e s o t →
      Settles (fun fuel => eval functions fuel e s) o t
  | _, _, _, _, .num => Settles.const.later fun _ => rfl
  | _, _, _, _, .var h => Settles.const.later fun _ => by simp only [eval, evalStep, evalVariable, h]
  | _, _, _, _, .varErr h =>
    Settles.const.later fun _ => by simp only [eval, evalStep, evalVariable, h]
  | _, _, _, _, .assign h => ((settles_eval h).next .const).later fun _ => rfl
  | _, _, _, _, .assignErr h => (settles_eval h).stop.later fun _ => rfl
  | _, _, _, _, .binary hl hr =>
    ((settles_eval hl).next ((settles_eval hr).next .const)).later fun _ => rfl
  | _, _, _, _, .binaryLeftErr h => (settles_eval h).stop.later fun _ => rfl
  | _, _, _, _, .binaryRightErr hl hr =>
    ((settles_eval hl).next (settles_eval hr).stop).later fun _ => rfl
  | _, _, _, _, .quote h => (settles_statements h).later fun _ => rfl
  | _, _, _, _, .unknownErr hb hf => settles_call (by
      simp only [evalCall_unknown hb hf]
      exact .const)
  | _, _, _, _, .hostCountErr hb hf hlen => settles_call (by
      simp only [evalCall_hostCount hb hf hlen]
      exact .const)
  | _, _, _, _, .hostErr hb hf hlen h => settles_call (by
      simp only [evalCall_host hb hf hlen]
      exact (settles_each h).stop)
  | _, _, _, _, .host hb hf hlen h => settles_call (by
      simp only [evalCall_host hb hf hlen]
      exact (settles_each h).next .const)
  | _, _, _, _, .builtinCountErr hb ha => settles_call (by
      simp only [evalCall_builtinCount hb ha]
      exact .const)
  | _, _, _, _, .mathErr hb hf ha h => settles_call (by
      simp only [evalCall_math hb hf ha]
      exact (settles_each h).stop)
  | _, _, _, _, .math hb hf ha h => settles_call (by
      simp only [evalCall_math hb hf ha]
      exact (settles_each h).next .const)
  | _, _, _, _, .ifErr hname h => settles_if hname (settles_eval h).stop
  | _, _, _, _, .ifYes hname hc hx h => settles_if hname ((settles_eval hc).next (by
      simp only [isTruthy_iff.mpr hx, if_true]
      exact settles_eval h))
  | _, _, _, _, .ifNo hname hc hx h => settles_if hname ((settles_eval hc).next (by
      simp only [isTruthy_eq_false_iff.mpr hx, Bool.false_eq_true, if_false]
      exact settles_eval h))
  | _, _, _, _, .forErr hname h => settles_for hname (settles_eval h).stop
  | _, _, _, _, .forRounds hname hc h => settles_for hname ((settles_eval hc).next
      (settles_rounds_left rfl hc.depth_eq h.depth_eq (settles_rounds h (by
        rw [Nat.zero_add]
        exact (iterationCount_lt _).le))))
  | _, _, _, _, .whileErr hname h => settles_while hname (settles_eval h).stop
  | _, _, _, _, .whileDone hname h hx => settles_while hname ((settles_eval h).next (by
      simp only [isTruthy_eq_false_iff.mpr hx, Bool.false_eq_true, if_false]
      exact .const))
  | _, _, _, _, .whileBodyErr hname hc hx h => settles_while hname ((settles_eval hc).next (by
      simp only [isTruthy_iff.mpr hx, if_true]
      exact (settles_eval h).stop))
  | _, _, _, _, .whileAgain hname hc hx hb h => settles_while hname ((settles_eval hc).next (by
      simp only [isTruthy_iff.mpr hx, if_true]
      exact (settles_eval hb).next (settles_eval h)))

theorem settles_each {functions : Registry σ} :
    ∀ {es : List Expr} {s t : State σ} {o : Except EvalError (List Float)},
      EvaluatesEach functions es s o t →
      Settles (fun fuel => evalEach (eval functions fuel) es s) o t
  | _, _, _, _, .nil => .const
  | _, _, _, _, .cons h hs => (settles_eval h).next ((settles_each hs).next .const)
  | _, _, _, _, .headErr h => (settles_eval h).stop
  | _, _, _, _, .tailErr h hs => (settles_eval h).next (settles_each hs).stop

theorem settles_statements {functions : Registry σ} :
    ∀ {p : Program} {s t : State σ} {o : Except EvalError Float}, Runs functions p s o t →
      Settles (fun fuel => evalStatements (eval functions fuel) p s) o t
  | _, _, _, _, .empty => .const
  | _, _, _, _, .last h => settles_eval h
  | _, _, _, _, .cons h hs => (settles_eval h).next (settles_statements hs)
  | _, _, _, _, .headErr h => (settles_eval h).stop

theorem settles_rounds {functions : Registry σ} :
    ∀ {counter : String} {body : Expr} {n i : Nat} {s t : State σ} {o : Except EvalError Unit},
      Rounds functions counter body n i s o t → i + n ≤ 2 ^ 64 →
      Settles (fun fuel => runFor (eval functions fuel) counter (.later body) n i s) o t
  | _, _, _, _, _, _, _, .done, _ => .const
  | _, _, _, _, _, _, _, .cons hindex h hs, hle =>
    (settles_turn hindex (by omega) (settles_eval h)).next (settles_rounds hs (by omega))
  | _, _, _, _, _, _, _, .bodyErr hindex h, hle =>
    (settles_turn hindex (by omega) (settles_eval h)).stop

end

/-! ## Both ways -/

theorem eval_iff_evaluates {functions : Registry σ} {e : Expr} {s t : State σ}
    {o : Except EvalError Float} :
    (∃ fuel, eval functions fuel e s = some (o, t)) ↔ Evaluates functions e s o t := by
  constructor
  · rintro ⟨fuel, h⟩
    exact eval_sound functions fuel e s o t h
  · intro h
    obtain ⟨n, hn⟩ := settles_eval h
    exact ⟨n, hn n (Nat.le_refl n)⟩

theorem statements_iff_runs {functions : Registry σ} {p : Program} {s t : State σ}
    {o : Except EvalError Float} :
    (∃ fuel, evalStatements (eval functions fuel) p s = some (o, t)) ↔ Runs functions p s o t := by
  constructor
  · rintro ⟨fuel, h⟩
    exact evalStatements_sound (eval_sound functions fuel) h
  · intro h
    obtain ⟨n, hn⟩ := settles_statements h
    exact ⟨n, hn n (Nat.le_refl n)⟩

/-- The evaluator refines the direct semantics: an expression, and likewise a program, is answered
with some fuel exactly if that answer is derived; more fuel does not change the answer; and a run
gives the only answer that is derived, unless it gives none. -/
theorem run_refines_bigStep (functions : Registry σ) :
    (∀ e s o t, (∃ fuel, eval functions fuel e s = some (o, t)) ↔ Evaluates functions e s o t) ∧
    (∀ p s o t, (∃ fuel, evalStatements (eval functions fuel) p s = some (o, t)) ↔
      Runs functions p s o t) ∧
    (∀ p s o t fuel fuel', fuel ≤ fuel' → evalStatements (eval functions fuel) p s = some (o, t) →
      evalStatements (eval functions fuel') p s = some (o, t)) ∧
    (∀ p s o t, Runs functions p s o t → p.run functions s = none ∨ p.run functions s = some (o, t)) ∧
    ∀ p s o t, p.run functions s = some (o, t) → Runs functions p s o t := by
  refine ⟨fun e s o t => eval_iff_evaluates, fun p s o t => statements_iff_runs, ?_, ?_, ?_⟩
  · intro p s o t fuel fuel' hle h
    exact evalStatements_kept (eval_mono functions hle) p s _ h
  · intro p s o t h
    obtain ⟨n, hn⟩ := settles_statements h
    cases hrun : p.run functions s with
    | none => exact .inl rfl
    | some r =>
      have hmore := evalStatements_kept (eval_mono functions (Nat.le_max_left ample n)) p s _ hrun
      have hsettled : evalStatements (eval functions (max ample n)) p s = some (o, t) :=
        hn _ (Nat.le_max_right ample n)
      exact .inr (hmore.symm.trans hsettled)
  · intro p s o t h
    exact statements_iff_runs.mp ⟨ample, h⟩

/-- A zero and what is not a number as conditions, whose other branches would fail, and a loop of
two rounds. -/
theorem run_refines_bigStep_lazy :
    Runs (.empty : Registry Unit)
      [.assign "x" (.num 2.0), .call "IF" [.num 0.0, .var "y", .quote [.var "x"]],
        .call "if" [.num (0.0 / 0.0), .assign "y" (.var "x"), .var "z"],
        .call "for" [.var "y", .assign "x" (.var "iter")]]
      (.start .empty ()) (.ok 1.0)
      (((((((State.start .empty ()).set "x" 2.0).set "y" 2.0).set "iter" 0.0).set "x" 0.0).set
        "iter" 1.0).set "x" 1.0) := by
  have hzero : isTruthy 0.0 = false := by decide +kernel
  have hnan : isTruthy (0.0 / 0.0) = true := by decide +kernel
  have hcount : iterationCount 2.0 = 2 := by decide +kernel
  have hfirst : Binary64.ofNat 0 = 0.0 := by decide +kernel
  have hsecond : Binary64.ofNat (0 + 1) = 1.0 := by decide +kernel
  have hupper : foldCase "IF" = "if" := by decide +kernel
  have hif : foldCase "if" = "if" := by decide +kernel
  have hfor : foldCase "for" = "for" := by decide +kernel
  have hget (s : State Unit) (name : String) (x : Float) : (s.set name x).get? name = some x := by
    rw [State.set, State.get?, Table.get?_insert, if_pos rfl]
  refine ((run_refines_bigStep .empty).2.1 _ _ _ _).mp ⟨6, ?_⟩
  simp only [evalStatements, eval, evalStep, andThen, evalCall_if hupper, evalCall_if hif,
    evalCall_for hfor, hzero, hnan, if_true, Bool.false_eq_true, if_false, evalVariable, hget,
    hcount, runFor, force, hfirst, hsecond]
  rfl

end Evaluation
end FormulaLang

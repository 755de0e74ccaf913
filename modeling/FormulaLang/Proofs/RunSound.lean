import FormulaLang.Proofs.BigStep
import FormulaLang.Proofs.Calls

/-!
# FormulaLang.Proofs.RunSound

What the evaluator answers is derived. An evaluator is `Sound` if each of its answers is; each rule
over a sound evaluator then answers what its relation derives, so the evaluator that ties the knot
is sound for every fuel (`eval_sound`).
-/

namespace FormulaLang
namespace Evaluation

open BigStep

variable {σ : Type}

theorem andThen_eq_some {α β : Type} {r : Reply σ α} {next : α → State σ → Reply σ β}
    {o : Except EvalError β} {t : State σ} (h : andThen r next = some (o, t)) :
    (∃ err, r = some (.error err, t) ∧ o = .error err) ∨
    ∃ a s, r = some (.ok a, s) ∧ next a s = some (o, t) := by
  match r with
  | none => cases h
  | some (.error err, s) => cases h; exact .inl ⟨err, rfl, rfl⟩
  | some (.ok a, s) => exact .inr ⟨a, s, rfl, h⟩

theorem endFor_eq_some {r : Reply σ Unit} {o : Except EvalError Float} {t : State σ}
    (h : endFor r = some (o, t)) :
    ∃ o' u, r = some (o', u) ∧ o = o'.map (fun _ => 1.0) ∧ t = u.leave := by
  match r with
  | none => cases h
  | some (.error err, u) => cases h; exact ⟨_, u, rfl, rfl, rfl⟩
  | some (.ok (), u) => cases h; exact ⟨_, u, rfl, rfl, rfl⟩

/-- Each answer of the evaluator is derived. -/
def Sound (functions : Registry σ) (ev : Evaluator σ) : Prop :=
  ∀ e s o t, ev e s = some (o, t) → Evaluates functions e s o t

/-- Every value but the zeros of both signs is true. -/
theorem isTruthy_iff {x : Float} : isTruthy x = true ↔ Binary64.magnitude x ≠ 0 := by
  show (!(x == 0.0)) = true ↔ _
  rw [Ne, ← Binary64.beq_zero_iff, Bool.not_eq_true, Bool.not_eq_true']

theorem isTruthy_eq_false_iff {x : Float} : isTruthy x = false ↔ Binary64.magnitude x = 0 := by
  rw [← Bool.not_eq_true, isTruthy_iff, not_not]

theorem iterationCount_lt (x : Float) : iterationCount x < 2 ^ 64 := by
  rw [iterationCount]
  split
  · decide
  · exact (Nat.min_le_right _ _).trans_lt (by decide)

section Rules

variable {functions : Registry σ} {ev : Evaluator σ}

theorem evalEach_sound (hev : Sound functions ev) {es : List Expr} {s t : State σ}
    {o : Except EvalError (List Float)} (h : evalEach ev es s = some (o, t)) :
    EvaluatesEach functions es s o t := by
  induction es generalizing s o t with
  | nil => cases h; exact .nil
  | cons e es ih =>
    rw [evalEach] at h
    obtain ⟨err, he, rfl⟩ | ⟨x, u, he, h⟩ := andThen_eq_some h
    · exact .headErr (hev _ _ _ _ he)
    obtain ⟨err, hes, rfl⟩ | ⟨xs, v, hes, h⟩ := andThen_eq_some h
    · exact .tailErr (hev _ _ _ _ he) (ih hes)
    cases h
    exact .cons (hev _ _ _ _ he) (ih hes)

theorem evalStatements_sound (hev : Sound functions ev) {p : Program} {s t : State σ}
    {o : Except EvalError Float} (h : evalStatements ev p s = some (o, t)) :
    Runs functions p s o t := by
  match p with
  | [] => cases h; exact .empty
  | [e] => exact .last (hev _ _ _ _ h)
  | e :: f :: es =>
    rw [evalStatements] at h
    obtain ⟨err, he, rfl⟩ | ⟨x, u, he, h⟩ := andThen_eq_some h
    · exact .headErr (hev _ _ _ _ he)
    exact .cons (hev _ _ _ _ he) (evalStatements_sound hev h)

theorem runFor_sound (hev : Sound functions ev) {counter : String} {body : Expr} {n i : Nat}
    {s t : State σ} {o : Except EvalError Unit} (hle : i + n ≤ 2 ^ 64)
    (h : runFor ev counter (.later body) n i s = some (o, t)) :
    Rounds functions counter body n i s o t := by
  induction n generalizing i s with
  | zero => cases h; exact .done
  | succ n ih =>
    have hindex : Binary64.Converts i (Binary64.ofNat i) := Binary64.converts_ofNat (by omega)
    rw [runFor] at h
    obtain ⟨err, he, rfl⟩ | ⟨x, u, he, h⟩ := andThen_eq_some h
    · exact .bodyErr hindex (hev _ _ _ _ he)
    exact .cons hindex (hev _ _ _ _ he) (ih (by omega) h)

theorem runWhile_sound (hev : Sound functions ev) {name : String} {c body : Expr} {rounds : Nat}
    {s t : State σ} {o : Except EvalError Float} (hname : foldCase name = "while")
    (h : runWhile ev (.later c) (.later body) rounds s = some (o, t)) :
    Evaluates functions (.call name [c, body]) s o t := by
  induction rounds generalizing s with
  | zero => cases h
  | succ rounds ih =>
    rw [runWhile] at h
    obtain ⟨err, hc, rfl⟩ | ⟨x, u, hc, h⟩ := andThen_eq_some h
    · exact .whileErr hname (hev _ _ _ _ hc)
    have hcond := hev _ _ _ _ hc
    cases hx : isTruthy x with
    | false =>
      rw [hx] at h
      cases h
      exact .whileDone hname hcond (isTruthy_eq_false_iff.mp hx)
    | true =>
      rw [hx] at h
      obtain ⟨err, hb, rfl⟩ | ⟨y, v, hb, h⟩ := andThen_eq_some h
      · exact .whileBodyErr hname hcond (isTruthy_iff.mp hx) (hev _ _ _ _ hb)
      exact .whileAgain hname hcond (isTruthy_iff.mp hx) (hev _ _ _ _ hb) (ih h)

/-- The depth a counted loop is entered from is that before its count was evaluated. -/
theorem endFor_sound (hev : Sound functions ev) {name : String} {c body : Expr} {x : Float}
    {s t u : State σ} {o : Except EvalError Float} (hname : foldCase name = "for")
    (hc : Evaluates functions c s (.ok x) t)
    (h : endFor (runFor ev (counterName t.enter.depth) (.later body) (iterationCount x) 0 t.enter) =
      some (o, u)) :
    Evaluates functions (.call name [c, body]) s o u := by
  obtain ⟨o', v, hrun, rfl, rfl⟩ := endFor_eq_some h
  have hcount := iterationCount_lt x
  have hrounds := runFor_sound hev (by omega) hrun
  have hdepth : v.depth = s.depth + 1 := by
    rw [hrounds.depth_eq, State.enter, hc.depth_eq]
  have henter : t.enter = atDepth t (s.depth + 1) := by rw [State.enter, atDepth, hc.depth_eq]
  have hleave : v.leave = atDepth v s.depth := by rw [State.leave, atDepth, hdepth]; rfl
  rw [henter] at hrounds
  rw [hleave]
  exact .forRounds hname hc hrounds

theorem evalCall_sound (hev : Sound functions ev) {name : String} {es : List Expr} {rounds : Nat}
    {s t : State σ} {o : Except EvalError Float}
    (h : evalCall functions ev rounds name es s = some (o, t)) :
    Evaluates functions (.call name es) s o t := by
  cases callForm functions name es with
  | unknown hb hf =>
    rw [evalCall_unknown hb hf] at h
    cases h
    exact .unknownErr hb hf
  | hostCount hb hf hlen =>
    rw [evalCall_hostCount hb hf hlen] at h
    cases h
    exact .hostCountErr hb hf hlen
  | host hb hf hlen =>
    rw [evalCall_host hb hf hlen] at h
    obtain ⟨err, hes, rfl⟩ | ⟨xs, u, hes, h⟩ := andThen_eq_some h
    · exact .hostErr hb hf hlen (evalEach_sound hev hes)
    cases h
    exact .host hb hf hlen (evalEach_sound hev hes)
  | builtinCount hb ha =>
    rw [evalCall_builtinCount hb ha] at h
    cases h
    exact .builtinCountErr hb ha
  | math hb hf ha =>
    rw [evalCall_math hb hf ha] at h
    obtain ⟨err, hes, rfl⟩ | ⟨xs, u, hes, h⟩ := andThen_eq_some h
    · exact .mathErr hb hf ha (evalEach_sound hev hes)
    cases h
    exact .math hb hf ha (evalEach_sound hev hes)
  | branch hname =>
    rw [evalCall_if hname] at h
    obtain ⟨err, hc, rfl⟩ | ⟨x, u, hc, h⟩ := andThen_eq_some h
    · exact .ifErr hname (hev _ _ _ _ hc)
    split at h
    · rename_i hx
      exact .ifYes hname (hev _ _ _ _ hc) (isTruthy_iff.mp hx) (hev _ _ _ _ h)
    · rename_i hx
      have hzero := isTruthy_eq_false_iff.mp (Bool.eq_false_iff.mpr hx)
      exact .ifNo hname (hev _ _ _ _ hc) hzero (hev _ _ _ _ h)
  | count hname =>
    rw [evalCall_for hname] at h
    obtain ⟨err, hc, rfl⟩ | ⟨x, u, hc, h⟩ := andThen_eq_some h
    · exact .forErr hname (hev _ _ _ _ hc)
    exact endFor_sound hev hname (hev _ _ _ _ hc) h
  | loop hname =>
    rw [evalCall_while hname] at h
    exact runWhile_sound hev hname h

theorem evalStep_sound (hev : Sound functions ev) {e : Expr} {rounds : Nat} {s t : State σ}
    {o : Except EvalError Float} (h : evalStep functions ev rounds e s = some (o, t)) :
    Evaluates functions e s o t := by
  cases e with
  | num x => cases h; exact .num
  | var name =>
    simp only [evalStep, evalVariable] at h
    split at h
    · rename_i x hx
      cases h
      exact .var hx
    · rename_i hx
      cases h
      exact .varErr hx
  | assign name e =>
    obtain ⟨err, he, rfl⟩ | ⟨x, u, he, h⟩ := andThen_eq_some h
    · exact .assignErr (hev _ _ _ _ he)
    cases h
    exact .assign (hev _ _ _ _ he)
  | binary op left right =>
    obtain ⟨err, hl, rfl⟩ | ⟨x, u, hl, h⟩ := andThen_eq_some h
    · exact .binaryLeftErr (hev _ _ _ _ hl)
    obtain ⟨err, hr, rfl⟩ | ⟨y, v, hr, h⟩ := andThen_eq_some h
    · exact .binaryRightErr (hev _ _ _ _ hl) (hev _ _ _ _ hr)
    cases h
    exact .binary (hev _ _ _ _ hl) (hev _ _ _ _ hr)
  | call name es => exact evalCall_sound hev h
  | quote p => exact .quote (evalStatements_sound hev h)

end Rules

theorem eval_sound (functions : Registry σ) (fuel : Nat) : Sound functions (eval functions fuel) := by
  induction fuel with
  | zero => intro e s o t h; cases h
  | succ fuel ih => intro e s o t h; exact evalStep_sound ih h

end Evaluation
end FormulaLang

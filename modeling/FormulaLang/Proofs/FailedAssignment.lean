import FormulaLang.Proofs.HostCalls
import FormulaLang.Proofs.Purity

/-!
# FormulaLang.Proofs.FailedAssignment

What a failed assignment leaves behind. It fails where its right side does, before it writes, so it
has no effects of its own (`failed_assignment_writes_nothing`). But nothing is taken back: what the
right side has written until it failed stays written, so a failed assignment may change the
variables (`failed_assignment_keeps_inner`).
-/

namespace FormulaLang

variable {σ : Type}

theorem State.OnlyWrites.variables_eq {W : String → Prop} {s t : State σ} (h : OnlyWrites W s t)
    (hW : ∀ name, ¬W name) : t.variables = s.variables :=
  Table.ext_get? fun name => h.same name (hW name)

namespace Evaluation

open State (OnlyWrites)

variable {functions : Registry σ} {fuel : Nat} {name : String} {e : Expr} {s t : State σ}
  {err : EvalError}

theorem eval_assign_error_iff :
    eval functions (fuel + 1) (.assign name e) s = some (.error err, t) ↔
      eval functions fuel e s = some (.error err, t) := by
  rw [eval, evalStep]
  constructor
  · intro h
    obtain ⟨_, he, ⟨⟩⟩ | ⟨x, u, -, hx⟩ := andThen_eq_some h
    · exact he
    · cases hx
  · intro h
    rw [h]
    rfl

theorem effects_assign_error (h : eval functions fuel e s = some (.error err, t)) :
    effects functions (fuel + 1) [.assign name e] s = effects functions fuel [e] s := by
  rw [eval_eq_perform] at h
  show Script.effects ((e.script functions fuel s.depth).andThen _) s =
    (e.script functions fuel s.depth).effects s
  rw [Script.effects_andThen, Script.furtherEffects, h]
  exact List.append_nil _

/-- A run leaves the variables as they are if it has written to none of them anything but what they
had been bound to. -/
theorem variables_eq_iff {p : Program} {o : Except EvalError Float}
    (h : evalStatements (eval functions fuel) p s = some (o, t)) :
    t.variables = s.variables ↔
      ∀ n x, Effect.last n (effects functions fuel p s) = some x → s.get? n = some x := by
  have hget := get?_of_run h
  constructor
  · intro heq n x hlast
    have hn := hget n
    rw [hlast, Option.some_or] at hn
    rw [← hn]
    exact congrArg (Table.get? · n) heq.symm
  · intro hkept
    apply Table.ext_get?
    intro n
    show t.get? n = s.get? n
    rw [hget n]
    cases hlast : Effect.last n (effects functions fuel p s) with
    | none => exact Option.none_or
    | some x => rw [Option.some_or, hkept n x hlast]

/-- **A failed assignment writes nothing itself.** Its right side alone fails in the same way and
leaves the same state, and its effects are those of the right side. So only names change that the
right side assigns to, or that count its loops; the variables are what they were exactly if the
right side has last written to each variable what that was bound to; and they are if the right side
has neither assignments nor counted loops. -/
theorem failed_assignment_writes_nothing
    (h : eval functions (fuel + 1) (.assign name e) s = some (.error err, t)) :
    eval functions fuel e s = some (.error err, t) ∧
      effects functions (fuel + 1) [.assign name e] s = effects functions fuel [e] s ∧
      OnlyWrites (MayWrite e.nodes e.levels s.depth) s t ∧
      (t.variables = s.variables ↔
        ∀ n x, Effect.last n (effects functions fuel [e] s) = some x → s.get? n = some x) ∧
      ((∀ n value, .assign n value ∉ e.nodes) → e.levels = [] → t.variables = s.variables) := by
  have he := eval_assign_error_iff.mp h
  have hwrites := eval_writes_only he
  refine ⟨he, effects_assign_error he, hwrites, variables_eq_iff he, fun hassign hloops => ?_⟩
  refine hwrites.variables_eq ?_
  rintro n (⟨value, hmem⟩ | ⟨k, hmem, -⟩)
  · exact hassign n value hmem
  · rw [hloops] at hmem
    cases hmem

theorem failed_assignment_writes_nothing_same :
    eval (.empty : Registry Unit) 4 (.assign "x" (.call "max" [.assign "y" (.var "x"), .var "z"]))
      (.start (.ofList [("x", 7.0), ("y", 7.0)]) ()) =
        some (.error (.undefinedVariable "z"), .start (.ofList [("x", 7.0), ("y", 7.0)]) ()) ∧
    eval (.empty : Registry Unit) 3 (.call "max" [.assign "y" (.var "x"), .var "z"])
      (.start (.ofList [("x", 7.0), ("y", 7.0)]) ()) =
        some (.error (.undefinedVariable "z"), .start (.ofList [("x", 7.0), ("y", 7.0)]) ()) ∧
    effects (.empty : Registry Unit) 3 [.call "max" [.assign "y" (.var "x"), .var "z"]]
      (.start (.ofList [("x", 7.0), ("y", 7.0)]) ()) = [.write "y" 7.0] := by
  have hrun : eval (.empty : Registry Unit) 4
      (.assign "x" (.call "max" [.assign "y" (.var "x"), .var "z"]))
      (.start (.ofList [("x", 7.0), ("y", 7.0)]) ()) =
        some (.error (.undefinedVariable "z"), .start (.ofList [("x", 7.0), ("y", 7.0)]) ()) := rfl
  obtain ⟨hright, heffects, -⟩ := failed_assignment_writes_nothing hrun
  exact ⟨hrun, hright, heffects.symm.trans rfl⟩

/-- The assignment to `x` fails at the variable `z`, and `y` has been written by then. -/
theorem failed_assignment_keeps_inner :
    Program.parse "x = max(y = a, z)" =
      .ok [.assign "x" (.call "max" [.assign "y" (.var "a"), .var "z"])] ∧
    ∃ t, eval (.empty : Registry Unit) 4
        (.assign "x" (.call "max" [.assign "y" (.var "a"), .var "z"]))
        (.start (.ofList [("a", 1.0)]) ()) = some (.error (.undefinedVariable "z"), t) ∧
      t.variables ≠ .ofList [("a", 1.0)] := by
  refine ⟨by cbv, .start (.ofList [("a", 1.0), ("y", 1.0)]) (), rfl, fun h => ?_⟩
  have hy : (Table.ofList [("a", 1.0), ("y", 1.0)]).get? "y" = (Table.ofList [("a", 1.0)]).get? "y" :=
    congrArg (Table.get? · "y") h
  cases hy

end Evaluation
end FormulaLang

import FormulaLang.Proofs.Purity

/-!
# FormulaLang.Proofs.Rerun

Running a program once more. If a program reads nothing that it may write (`Program.Repeatable`), its
first run leaves alone whatever the second one reads, also where it stops midway; so over pure
functions the second run does what the first did. Its writes are those of the first run, and to
make the same writes twice is to make them once. Main statement: `rerun_changes_nothing`.
-/

namespace FormulaLang

variable {σ : Type}

def Program.Repeatable (p : Program) (depth : Nat) : Prop :=
  ∀ name, MayWrite p.nodes p.levels depth name → .var name ∉ p.nodes

namespace Evaluation

variable {functions : Registry σ} {fuel : Nat} {p : Program} {s t u w : State σ}
  {o o' : Except EvalError Float}

theorem get?_behind_run (hp : p.Repeatable s.depth)
    (h : evalStatements (eval functions fuel) p s = some (o, t)) {name : String}
    (hread : .var name ∈ p.nodes) : t.get? name = s.get? name :=
  (statements_write_only h).same name fun hwrite => hp name hwrite hread

theorem variables_of_repeated (h : evalStatements (eval functions fuel) p s = some (o, t))
    (h' : evalStatements (eval functions fuel) p u = some (o', w))
    (hvariables : u.variables = t.variables)
    (heffects : effects functions fuel p u = effects functions fuel p s) :
    w.variables = t.variables := by
  apply Table.ext_get?
  intro name
  have hfirst := get?_of_run h name
  have hsecond := get?_of_run h' name
  have hu : u.get? name = t.get? name := congrArg (Table.get? · name) hvariables
  calc w.get? name
      = (Effect.last name (effects functions fuel p s)).or (t.get? name) := by
        rw [hsecond, heffects, hu]
    _ = t.get? name := by rw [hfirst, ← Option.or_assoc, Option.or_self]

/-- **Running a repeatable program again changes nothing.** Where pure functions are registered and
a run of the program ends, well or with an error, a second run on the variables it has left ends
alike and leaves these variables as they are, whatever the host's state has become. It also does
the same on its way. -/
theorem rerun_changes_nothing (hpure : functions.Pure) (hp : p.Repeatable s.depth)
    (h : evalStatements (eval functions fuel) p s = some (o, t)) (hdepth : u.depth = s.depth)
    (hvariables : u.variables = t.variables) :
    ∃ w, evalStatements (eval functions fuel) p u = some (o, w) ∧ w.variables = t.variables ∧
      effects functions fuel p u = effects functions fuel p s := by
  have hreads : ∀ name, .var name ∈ p.nodes → u.get? name = s.get? name := by
    intro name hread
    have hu : u.get? name = t.get? name := congrArg (Table.get? · name) hvariables
    exact hu.trans (get?_behind_run hp h hread)
  obtain ⟨heffects, houtcome⟩ : effects functions fuel p u = effects functions fuel p s ∧ _ :=
    run_eq_of_pure hpure hdepth hreads
  rw [h, Option.map_some, Option.map_eq_some_iff] at houtcome
  obtain ⟨⟨_, w⟩, h', rfl⟩ := houtcome
  exact ⟨w, h', variables_of_repeated h h' hvariables heffects, heffects⟩

/-- A loop that calls the host and a division that fails behind it. The host has counted the calls of
the first run when the second one begins. -/
def failingBatch : Program :=
  [.call "for" [.num 2.0, .assign "a" (.call "tick" [.var "x"])],
    .assign "b" (.binary .div (.assign "c" (.var "x")) (.num 0.0))]

theorem rerun_changes_nothing_failing : ∃ w,
    evalStatements (eval ticks 5) failingBatch (.start (.ofList [("x", 3.0)]) 0) =
      some (.error (.divisionByZero .div), ⟨.ofList [("a", 3.0), ("c", 3.0),
        ("iter", Binary64.ofNat 1), ("x", 3.0)], 0, 2, [⟨"tick", [3.0]⟩, ⟨"tick", [3.0]⟩]⟩) ∧
    evalStatements (eval ticks 5) failingBatch (.start (.ofList [("a", 3.0), ("c", 3.0),
        ("iter", Binary64.ofNat 1), ("x", 3.0)]) 2) = some (.error (.divisionByZero .div), w) ∧
    w.variables = .ofList [("a", 3.0), ("c", 3.0), ("iter", Binary64.ofNat 1), ("x", 3.0)] := by
  have hp : failingBatch.Repeatable 0 := by
    intro name hwrite hread
    obtain rfl : name = "x" := by
      simpa [failingBatch, Program.nodes, Expr.nodes, Expr.nodesOf] using hread
    rw [failingBatch, Program.levels, Expr.levelsOf, Expr.levels_for (by decide +kernel)] at hwrite
    simp [MayWrite, Program.nodes, Expr.nodes, Expr.nodesOf, Expr.levels, Expr.levelsOf,
      counterName] at hwrite
  have hcount : iterationCount 2.0 = 2 := by decide +kernel
  have hrun : evalStatements (eval ticks 5) failingBatch (.start (.ofList [("x", 3.0)]) 0) =
      some (.error (.divisionByZero .div), ⟨.ofList [("a", 3.0), ("c", 3.0),
        ("iter", Binary64.ofNat 1), ("x", 3.0)], 0, 2, [⟨"tick", [3.0]⟩, ⟨"tick", [3.0]⟩]⟩) := by
    simp only [failingBatch, evalStatements, eval, evalStep, andThen, hcount, runFor, force,
      evalCall_for (show foldCase "for" = "for" by decide +kernel), Nat.zero_add]
    rfl
  obtain ⟨w, hagain, hvariables, -⟩ := rerun_changes_nothing ticks_pure hp hrun
    (u := .start (.ofList [("a", 3.0), ("c", 3.0), ("iter", Binary64.ofNat 1), ("x", 3.0)]) 2)
    rfl rfl
  exact ⟨w, hrun, hagain, hvariables⟩

end Evaluation
end FormulaLang

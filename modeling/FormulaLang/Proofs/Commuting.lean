import FormulaLang.Proofs.LoopDepth
import FormulaLang.Proofs.Purity

/-!
# FormulaLang.Proofs.Commuting

Statements that can change places. Two statements are independent if neither writes what the other
reads, nor do both write one name (`Independent`). Where the first cannot reach what the second
reads, the second does the same in front of it as behind it. Main statement: `statements_commute`.
-/

namespace FormulaLang
namespace Evaluation

open State (OnlyWrites)

variable {σ : Type} {functions : Registry σ} {fuel : Nat} {e e₁ e₂ : Expr}

structure Independent (depth : Nat) (e₁ e₂ : Expr) : Prop where
  writes : ∀ name, MayWrite e₁.nodes e₁.levels depth name → ¬MayWrite e₂.nodes e₂.levels depth name
  reads₂ : ∀ name, MayWrite e₁.nodes e₁.levels depth name → .var name ∉ e₂.nodes
  reads₁ : ∀ name, MayWrite e₂.nodes e₂.levels depth name → .var name ∉ e₁.nodes

theorem eval_behind (fuel : Nat) (hpure : functions.Pure) {W : String → Prop} {s t : State σ}
    (hdepth : t.depth = s.depth) (hwrites : OnlyWrites W s t)
    (hreads : ∀ name, W name → .var name ∉ e.nodes) :
    effects functions fuel [e] t = effects functions fuel [e] s ∧
      (eval functions fuel e t).map Prod.fst = (eval functions fuel e s).map Prod.fst := by
  refine run_eq_of_pure (p := [e]) hpure hdepth fun name hname => ?_
  have hnode : .var name ∈ e.nodes := by simpa [Program.nodes, Expr.nodesOf] using hname
  exact hwrites.same name fun hw => hreads name hw hnode

theorem get?_of_effects {s s' t t' : State σ} {x x' : Float}
    (h : eval functions fuel e s = some (.ok x, t))
    (h' : eval functions fuel e s' = some (.ok x', t'))
    (heffects : effects functions fuel [e] s = effects functions fuel [e] s') {name : String}
    (hget : s.get? name = s'.get? name) : t.get? name = t'.get? name := by
  rw [get?_of_run (p := [e]) h, get?_of_run (p := [e]) h', heffects, hget]

/-- **Independent statements commute.** Where pure functions are registered and one statement after
the other succeeds, they succeed in the other order, too. Each has the same value in both orders,
and the variables end alike. -/
theorem statements_commute (hpure : functions.Pure) {s u : State σ} {x₂ : Float}
    (hind : Independent s.depth e₁ e₂)
    (h : evalStatements (eval functions fuel) [e₁, e₂] s = some (.ok x₂, u)) :
    ∃ x₁ t t' u',
      eval functions fuel e₁ s = some (.ok x₁, t) ∧ eval functions fuel e₂ t = some (.ok x₂, u) ∧
      eval functions fuel e₂ s = some (.ok x₂, t') ∧ eval functions fuel e₁ t' = some (.ok x₁, u') ∧
      evalStatements (eval functions fuel) [e₂, e₁] s = some (.ok x₁, u') ∧
      u'.variables = u.variables := by
  obtain ⟨_, -, ⟨⟩⟩ | ⟨x₁, t, h₁, h₂⟩ := andThen_eq_some h
  change eval functions fuel e₂ t = some (.ok x₂, u) at h₂
  have hlevel := (eval_sound functions fuel).level
  -- the second statement in front of the first
  have ht : t.depth = s.depth := hlevel e₁ s _ _ h₁
  have hw₁ := eval_writes_only h₁
  obtain ⟨heffects₂, hfirst⟩ := eval_behind fuel hpure ht hw₁ hind.reads₂
  rw [h₂, Option.map_some, eq_comm, Option.map_eq_some_iff] at hfirst
  obtain ⟨⟨_, t'⟩, h₂', rfl⟩ := hfirst
  -- and the first behind it
  have ht' : t'.depth = s.depth := hlevel e₂ s _ _ h₂'
  have hw₂ := eval_writes_only h₂'
  obtain ⟨heffects₁, hsecond⟩ := eval_behind fuel hpure ht' hw₂ hind.reads₁
  rw [h₁, Option.map_some, Option.map_eq_some_iff] at hsecond
  obtain ⟨⟨_, u'⟩, h₁', rfl⟩ := hsecond
  have hprogram : evalStatements (eval functions fuel) [e₂, e₁] s = some (.ok x₁, u') := by
    rw [evalStatements, h₂']
    exact h₁'
  refine ⟨x₁, t, t', u', h₁, h₂, h₂', h₁', hprogram, Table.ext_get? fun name => ?_⟩
  have hw₁' := eval_writes_only h₁'
  have hw₂' := eval_writes_only h₂
  rw [ht'] at hw₁'
  rw [ht] at hw₂'
  show u'.get? name = u.get? name
  by_cases hname : MayWrite e₁.nodes e₁.levels s.depth name
  · have hother := hind.writes name hname
    calc u'.get? name
        = t.get? name := get?_of_effects h₁' h₁ heffects₁ (hw₂.same name hother)
      _ = u.get? name := (hw₂'.same name hother).symm
  · calc u'.get? name
        = t'.get? name := hw₁'.same name hname
      _ = u.get? name := get?_of_effects h₂' h₂ heffects₂.symm (hw₁.same name hname).symm

/-- The counter of the loop is none of the names of the first statement, which calls the host, as
the second does. -/
theorem statements_commute_loop : ∃ x₁ t t' u',
    eval ticks 5 (.assign "a" (.call "tick" [.var "x"])) (.start (.ofList [("x", 1.0)]) 0) =
      some (.ok x₁, t) ∧
    eval ticks 5 (.call "for" [.num 1.0, .assign "b" (.call "tick" [.var "iter"])]) t =
      some (.ok 1.0, ⟨.ofList [("a", 1.0), ("b", Binary64.ofNat 0), ("iter", Binary64.ofNat 0),
        ("x", 1.0)], 0, 2, [⟨"tick", [Binary64.ofNat 0]⟩, ⟨"tick", [1.0]⟩]⟩) ∧
    eval ticks 5 (.call "for" [.num 1.0, .assign "b" (.call "tick" [.var "iter"])])
      (.start (.ofList [("x", 1.0)]) 0) = some (.ok 1.0, t') ∧
    eval ticks 5 (.assign "a" (.call "tick" [.var "x"])) t' = some (.ok x₁, u') ∧
    u'.variables = .ofList [("a", 1.0), ("b", Binary64.ofNat 0), ("iter", Binary64.ofNat 0),
      ("x", 1.0)] := by
  have hind : Independent 0 (.assign "a" (.call "tick" [.var "x"]))
      (.call "for" [.num 1.0, .assign "b" (.call "tick" [.var "iter"])]) := by
    have hwrites₁ {name : String} (h : MayWrite (Expr.assign "a" (.call "tick" [.var "x"])).nodes
        (Expr.assign "a" (.call "tick" [.var "x"])).levels 0 name) : name = "a" := by
      simpa [MayWrite, Expr.nodes, Expr.nodesOf, Expr.levels, Expr.levelsOf] using h
    have hwrites₂ {name : String} (h : MayWrite
        (Expr.call "for" [.num 1.0, .assign "b" (.call "tick" [.var "iter"])]).nodes
        (Expr.call "for" [.num 1.0, .assign "b" (.call "tick" [.var "iter"])]).levels 0 name) :
        name = "b" ∨ name = "iter" := by
      rw [Expr.levels_for (by decide +kernel)] at h
      simpa [MayWrite, Expr.nodes, Expr.nodesOf, Expr.levels, Expr.levelsOf, counterName] using h
    refine ⟨fun name h₁ h₂ => ?_, fun name h₁ hread => ?_, fun name h₂ hread => ?_⟩
    · obtain rfl := hwrites₁ h₁
      simpa using hwrites₂ h₂
    · obtain rfl := hwrites₁ h₁
      simp [Expr.nodes, Expr.nodesOf] at hread
    · obtain rfl : name = "x" := by simpa [Expr.nodes, Expr.nodesOf] using hread
      simpa using hwrites₂ h₂
  have hcount : iterationCount 1.0 = 1 := by decide +kernel
  have hrun : evalStatements (eval ticks 5) [.assign "a" (.call "tick" [.var "x"]),
      .call "for" [.num 1.0, .assign "b" (.call "tick" [.var "iter"])]]
      (.start (.ofList [("x", 1.0)]) 0) = some (.ok 1.0, ⟨.ofList [("a", 1.0),
        ("b", Binary64.ofNat 0), ("iter", Binary64.ofNat 0), ("x", 1.0)], 0, 2,
        [⟨"tick", [Binary64.ofNat 0]⟩, ⟨"tick", [1.0]⟩]⟩) := by
    have hfirst : eval ticks 5 (.assign "a" (.call "tick" [.var "x"]))
        (.start (.ofList [("x", 1.0)]) 0) =
          some (.ok 1.0, ⟨.ofList [("a", 1.0), ("x", 1.0)], 0, 1, [⟨"tick", [1.0]⟩]⟩) := rfl
    rw [evalStatements, hfirst]
    simp only [andThen, evalStatements, eval, evalStep, hcount, runFor, force,
      evalCall_for (show foldCase "for" = "for" by decide +kernel)]
    rfl
  obtain ⟨x₁, t, t', u', h₁, h₂, h₂', h₁', -, hvariables⟩ := statements_commute ticks_pure hind hrun
  exact ⟨x₁, t, t', u', h₁, h₂, h₂', h₁', hvariables⟩

end Evaluation
end FormulaLang

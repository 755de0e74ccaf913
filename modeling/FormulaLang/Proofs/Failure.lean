import FormulaLang.Proofs.Locality

/-!
# FormulaLang.Proofs.Failure

Why runs fail. An error that a script stops with is one of its footprint; any other is an undefined
variable, at whose read the evaluation ends, so that it is unbound from the beginning to the end.
Main statement: `run_error_blames`, which also says of which programs no run fails.
-/

namespace FormulaLang

namespace Script

variable {σ α : Type} {F : Footprint} {post : α → Prop}

theorem perform_error {m : Script σ α} (hm : m.Within F post) {s t : State σ} {err : EvalError}
    (h : m.perform s = some (.error err, t)) :
    F.errors err ∨ ∃ name, err = .undefinedVariable name ∧ F.reads name ∧ t.get? name = none := by
  induction m generalizing s with
  | stop o =>
    cases h
    exact .inl hm
  | starve => cases h
  | read name next ih =>
    cases hx : s.get? name with
    | none =>
      rw [perform_read_none next hx] at h
      cases h
      exact .inr ⟨name, rfl, hm.1, hx⟩
    | some x =>
      rw [perform_read_some next hx] at h
      exact ih x (hm.2 x) h
  | write name x next ih => exact ih hm.2 h
  | call name f xs next ih => exact ih _ (hm _) h

end Script

variable {σ : Type}

/-- Nothing in the program can fail: what it reads is bound, its calls are of known functions and
have the numbers of arguments that these take, it does not divide nor round to a number of digits,
and neither it nor a quote in it is empty. -/
structure Faultless (functions : Registry σ) (p : Program) (s : State σ) : Prop where
  bound : ∀ name, .var name ∈ p.nodes → s.get? name ≠ none
  known : ∀ name es, .call name es ∈ p.nodes →
    ∃ arity, arityOf functions name = some arity ∧ arity.accepts es.length = true
  divides : ∀ op left right, .binary op left right ∈ p.nodes → op ≠ .div ∧ op ≠ .rem
  rounds : ∀ name x digits, .call name [x, digits] ∈ p.nodes → foldCase name ≠ "round"
  nonempty : p ≠ []
  quotes : .quote [] ∉ p.nodes

theorem arityOf_eq_none {functions : Registry σ} {name : String}
    (hname : Builtin.isBuiltin name = false) (hf : functions.get? name = none) :
    arityOf functions name = none := by
  rw [Builtin.isBuiltin, Option.isSome_eq_false_iff, Option.isNone_iff_eq_none] at hname
  rw [arityOf, hname, hf]
  rfl

theorem Faultless.not_blames {functions : Registry σ} {p : Program} {s : State σ}
    (h : Faultless functions p s) {unbound : String → Prop} {err : EvalError}
    (hunbound : ∀ name, unbound name → s.get? name = none) :
    ¬Blames functions (Expr.quote p).nodes unbound err := by
  intro hblames
  cases err with
  | undefinedVariable name =>
    obtain ⟨hmem, hname⟩ := hblames
    exact h.bound name (Expr.mem_nodes_of_quote hmem rfl) (hunbound name hname)
  | unknownFunction name =>
    obtain ⟨⟨es, hmem⟩, hname, hf⟩ := hblames
    obtain ⟨arity, harity, -⟩ := h.known name es (Expr.mem_nodes_of_quote hmem rfl)
    rw [arityOf_eq_none hname hf] at harity
    cases harity
  | argumentCount name expected found =>
    obtain ⟨⟨es, hmem, rfl⟩, hexpected, hrejects⟩ := hblames
    obtain ⟨arity, harity, haccepts⟩ := h.known name es (Expr.mem_nodes_of_quote hmem rfl)
    obtain rfl : arity = expected := Option.some.inj (harity.symm.trans hexpected)
    rw [haccepts] at hrejects
    cases hrejects
  | divisionByZero op =>
    obtain ⟨hop, left, right, hmem⟩ := hblames
    obtain ⟨hdiv, hrem⟩ := h.divides op left right (Expr.mem_nodes_of_quote hmem rfl)
    exact hop.elim hdiv hrem
  | digitCount digits =>
    obtain ⟨name, x, digits, hmem, hname⟩ := hblames
    exact h.rounds name x digits (Expr.mem_nodes_of_quote hmem rfl) hname
  | emptyProgram =>
    rcases List.mem_cons.mp hblames with heq | hmem
    · exact h.nonempty (Expr.quote.inj heq).symm
    · exact h.quotes hmem
  | missingArgument => exact hblames

namespace Evaluation

/-- Errors are truthful. What the error of a run tells of the program holds of the nodes of its
quote, so that an empty program is an empty quote among them; a variable that is called undefined
is unbound before the run and after it. Runs of a faultless program do not fail. -/
theorem run_error_blames (functions : Registry σ) (fuel : Nat) (p : Program) (s : State σ) :
    (∀ err t, evalStatements (eval functions fuel) p s = some (.error err, t) →
      Blames functions (Expr.quote p).nodes
        (fun name => s.get? name = none ∧ t.get? name = none) err) ∧
    (Faultless functions p s →
      ∀ o t, evalStatements (eval functions fuel) p s = some (o, t) → ∃ x, o = .ok x) := by
  have hblames : ∀ err t, evalStatements (eval functions fuel) p s = some (.error err, t) →
      Blames functions (Expr.quote p).nodes
        (fun name => s.get? name = none ∧ t.get? name = none) err := by
    intro err t h
    have hbound := (statements_write_only h).bound
    rw [statements_eq_perform] at h
    obtain herr | ⟨name, rfl, hread, hafter⟩ :=
      Script.perform_error (program_script_keeps functions fuel s.depth p) h
    · exact herr.mono (List.Subset.refl _) fun _ hfalse => hfalse.elim
    · have hbefore : s.get? name = none := by
        by_contra hname
        exact hbound name hname hafter
      exact ⟨hread, hbefore, hafter⟩
  refine ⟨hblames, fun hp o t h => ?_⟩
  cases o with
  | ok x => exact ⟨x, rfl⟩
  | error err => exact absurd (hblames err t h) (hp.not_blames fun _ hname => hname.1)

theorem run_error_blames_loop :
    Blames (.empty : Registry Unit)
      (Expr.quote [.assign "z" (.num 1.0), .call "While" [.var "z", .var "y"]]).nodes
      (fun name => (State.start (.ofList [("x", 2.0)]) ()).get? name = none ∧
        (State.start (.ofList [("x", 2.0), ("z", 1.0)]) ()).get? name = none)
      (.undefinedVariable "y") ∧
    Faultless (.empty : Registry Unit) [.call "If" [.var "x", .quote [.num 3.0], .var "x"]]
      (.start (.ofList [("x", 2.0)]) ()) ∧
    ∃ x, (.ok 3.0 : Except EvalError Float) = .ok x := by
  have hfaultless : Faultless (.empty : Registry Unit)
      [.call "If" [.var "x", .quote [.num 3.0], .var "x"]]
      (.start (.ofList [("x", 2.0)]) ()) := by
    refine ⟨?_, ?_, ?_, ?_, List.cons_ne_nil _ _, ?_⟩
    · intro name h
      obtain rfl : name = "x" := by simpa [Program.nodes, Expr.nodes, Expr.nodesOf] using h
      decide +kernel
    · intro name es h
      obtain ⟨rfl, rfl⟩ : name = "If" ∧ es = [.var "x", .quote [.num 3.0], .var "x"] := by
        simpa [Program.nodes, Expr.nodes, Expr.nodesOf] using h
      exact ⟨.exactly 3, rfl, rfl⟩
    · intro op left right h
      simp [Program.nodes, Expr.nodes, Expr.nodesOf] at h
    · intro name x digits h
      simp [Program.nodes, Expr.nodes, Expr.nodesOf] at h
    · simp [Program.nodes, Expr.nodes, Expr.nodesOf]
  refine ⟨?_, hfaultless, ?_⟩
  · exact (run_error_blames .empty 6 [.assign "z" (.num 1.0), .call "While" [.var "z", .var "y"]]
      (.start (.ofList [("x", 2.0)]) ())).1 _ _ rfl
  · exact (run_error_blames .empty 6 [.call "If" [.var "x", .quote [.num 3.0], .var "x"]]
      (.start (.ofList [("x", 2.0)]) ())).2 hfaultless _ _ rfl

end Evaluation
end FormulaLang

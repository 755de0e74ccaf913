import Mathlib
import FormulaLang.Evaluation.Run

/-!
# FormulaLang.Proofs.Calls

What a call does, without its lazy arguments. `callForm` sorts the calls: a name is unknown, a
host function's or a builtin's, the number of arguments is accepted or not, and an accepted call of
a builtin computes a mathematical function or is one of the three control functions. For each form
one equation says what `evalCall` is on it, in terms of the evaluator of expressions alone.
-/

namespace FormulaLang
namespace Evaluation

variable {σ : Type}

/-! ## The table -/

/-- A mathematical function has eager arguments only, and the control functions are these three. -/
theorem table_forms {b : Builtin} (h : b ∈ Builtin.table) :
    (∃ f, b.rule = .math f ∧ b.modes = []) ∨
    b = ⟨"if", .exactly 3, [.eager, .deferred, .deferred], .control .branch⟩ ∨
    b = ⟨"for", .exactly 2, [.eager, .deferred], .control .count⟩ ∨
    b = ⟨"while", .exactly 2, [.deferred, .deferred], .control .loop⟩ := by
  simp only [Builtin.table, List.mem_cons, List.not_mem_nil, or_false] at h
  rcases h with rfl | rfl | rfl | rfl | rfl | rfl | rfl | rfl | rfl | rfl | rfl | rfl | rfl | rfl |
    rfl | rfl | rfl | rfl
  all_goals first
    | exact .inl ⟨_, rfl, rfl⟩
    | exact .inr (.inl rfl)
    | exact .inr (.inr (.inl rfl))
    | exact .inr (.inr (.inr rfl))

theorem find?_of_foldCase {name : String} {b : Builtin} (hb : b ∈ Builtin.table)
    (h : foldCase name = b.name) : Builtin.find? name = some b := by
  have hfind := Builtin.find?_name hb
  rw [Builtin.find?, Builtin.foldCase_name hb] at hfind
  rw [Builtin.find?, h, hfind]

theorem find?_if {name : String} (h : foldCase name = "if") : Builtin.find? name =
    some ⟨"if", .exactly 3, [.eager, .deferred, .deferred], .control .branch⟩ :=
  find?_of_foldCase (by simp [Builtin.table]) h

theorem find?_for {name : String} (h : foldCase name = "for") : Builtin.find? name =
    some ⟨"for", .exactly 2, [.eager, .deferred], .control .count⟩ :=
  find?_of_foldCase (by simp [Builtin.table]) h

theorem find?_while {name : String} (h : foldCase name = "while") : Builtin.find? name =
    some ⟨"while", .exactly 2, [.deferred, .deferred], .control .loop⟩ :=
  find?_of_foldCase (by simp [Builtin.table]) h

theorem modes_eq_nil_of_math {name : String} {b : Builtin} {f : MathFunction}
    (hb : Builtin.find? name = some b) (hf : b.rule = .math f) : b.modes = [] := by
  rcases table_forms (Builtin.mem_table_of_find? hb).1 with ⟨_, -, h⟩ | rfl | rfl | rfl
  · exact h
  · cases hf
  · cases hf
  · cases hf

/-- The forms of a call. -/
inductive CallForm (functions : Registry σ) (name : String) : List Expr → Prop where
  | unknown {es : List Expr} : Builtin.find? name = none → functions.get? name = none →
      CallForm functions name es
  | hostCount {es : List Expr} {f : HostFunction σ} : Builtin.find? name = none →
      functions.get? name = some f → es.length ≠ f.arity → CallForm functions name es
  | host {es : List Expr} {f : HostFunction σ} : Builtin.find? name = none →
      functions.get? name = some f → es.length = f.arity → CallForm functions name es
  | builtinCount {es : List Expr} {b : Builtin} : Builtin.find? name = some b →
      b.arity.accepts es.length = false → CallForm functions name es
  | math {es : List Expr} {b : Builtin} {f : MathFunction} : Builtin.find? name = some b →
      b.rule = .math f → b.arity.accepts es.length = true → CallForm functions name es
  | branch {c yes no : Expr} : foldCase name = "if" → CallForm functions name [c, yes, no]
  | count {c body : Expr} : foldCase name = "for" → CallForm functions name [c, body]
  | loop {c body : Expr} : foldCase name = "while" → CallForm functions name [c, body]

theorem callForm (functions : Registry σ) (name : String) (es : List Expr) :
    CallForm functions name es := by
  cases hb : Builtin.find? name with
  | none =>
    cases hf : functions.get? name with
    | none => exact .unknown hb hf
    | some f =>
      by_cases hlen : es.length = f.arity
      · exact .host hb hf hlen
      · exact .hostCount hb hf hlen
  | some b =>
    cases ha : b.arity.accepts es.length with
    | false => exact .builtinCount hb ha
    | true =>
      obtain ⟨hmem, hname⟩ := Builtin.mem_table_of_find? hb
      rcases table_forms hmem with ⟨f, hf, -⟩ | rfl | rfl | rfl
      · exact .math hb hf ha
      · obtain ⟨c, yes, no, rfl⟩ := List.length_eq_three.mp (by simpa [Arity.accepts] using ha)
        exact .branch hname.symm
      · obtain ⟨c, body, rfl⟩ := List.length_eq_two.mp (by simpa [Arity.accepts] using ha)
        exact .count hname.symm
      · obtain ⟨c, body, rfl⟩ := List.length_eq_two.mp (by simpa [Arity.accepts] using ha)
        exact .loop hname.symm

/-! ## Eager arguments -/

theorem andThen_assoc {α β γ : Type} (r : Reply σ α) (f : α → State σ → Reply σ β)
    (g : β → State σ → Reply σ γ) :
    andThen (andThen r f) g = andThen r fun a s => andThen (f a s) g := by
  match r with
  | none => rfl
  | some (.error e, s) => rfl
  | some (.ok a, s) => rfl

theorem evalArguments_eager (ev : Evaluator σ) (es : List Expr) (s : State σ) :
    evalArguments ev [] es s =
      andThen (evalEach ev es s) fun xs s => some (.ok (xs.map .now), s) := by
  induction es generalizing s with
  | nil => rfl
  | cons e es ih =>
    simp only [evalArguments, evalArgument, evalEach, List.headD_nil, List.tail_nil, andThen_assoc]
    congr 1
    funext x t
    simp only [andThen, ih]
    cases evalEach ev es t with
    | none => rfl
    | some o =>
      obtain ⟨o, u⟩ := o
      cases o <;> rfl

theorem forceEach_now (ev : Evaluator σ) (xs : List Float) (s : State σ) :
    forceEach ev (xs.map .now) s = some (.ok xs, s) := by
  induction xs generalizing s with
  | nil => rfl
  | cons x xs ih =>
    rw [List.map_cons, forceEach, force]
    simp only [andThen, ih]

/-! ## One equation for each form -/

section Equations

variable {functions : Registry σ} {name : String} {es : List Expr}

theorem evalCall_unknown (hb : Builtin.find? name = none) (hf : functions.get? name = none)
    (ev : Evaluator σ) (rounds : Nat) (s : State σ) :
    evalCall functions ev rounds name es s = some (.error (.unknownFunction name), s) := by
  simp only [evalCall, hb, hf]

theorem evalCall_hostCount {f : HostFunction σ} (hb : Builtin.find? name = none)
    (hf : functions.get? name = some f) (hlen : es.length ≠ f.arity) (ev : Evaluator σ)
    (rounds : Nat) (s : State σ) :
    evalCall functions ev rounds name es s =
      some (.error (.argumentCount name (.exactly f.arity) es.length), s) := by
  simp [evalCall, hb, hf, Arity.check, Arity.accepts, hlen]

theorem evalCall_host {f : HostFunction σ} (hb : Builtin.find? name = none)
    (hf : functions.get? name = some f) (hlen : es.length = f.arity) (ev : Evaluator σ)
    (rounds : Nat) (s : State σ) :
    evalCall functions ev rounds name es s =
      andThen (evalEach ev es s) fun xs s => callHost name f xs s := by
  simp [evalCall, hb, hf, Arity.check, Arity.accepts, hlen]

theorem evalCall_builtinCount {b : Builtin} (hb : Builtin.find? name = some b)
    (ha : b.arity.accepts es.length = false) (ev : Evaluator σ) (rounds : Nat) (s : State σ) :
    evalCall functions ev rounds name es s =
      some (.error (.argumentCount name b.arity es.length), s) := by
  simp [evalCall, hb, Arity.check, ha]

theorem evalCall_math {b : Builtin} {f : MathFunction} (hb : Builtin.find? name = some b)
    (hf : b.rule = .math f) (ha : b.arity.accepts es.length = true) (ev : Evaluator σ)
    (rounds : Nat) (s : State σ) :
    evalCall functions ev rounds name es s =
      andThen (evalEach ev es s) fun xs s => some (f.apply xs, s) := by
  simp only [evalCall, hb, Arity.check, ha, if_true, modes_eq_nil_of_math hb hf, hf, applyRule,
    evalArguments_eager, andThen_assoc]
  simp only [andThen, forceEach_now]

theorem evalCall_if {c yes no : Expr} (h : foldCase name = "if") (ev : Evaluator σ) (rounds : Nat)
    (s : State σ) :
    evalCall functions ev rounds name [c, yes, no] s =
      andThen (ev c s) fun x s => if isTruthy x then ev yes s else ev no s := by
  simp only [evalCall, find?_if h]
  simp only [Arity.check, Arity.accepts, evalArguments, evalArgument, applyRule, evalIf, andThen]
  match ev c s with
  | none => rfl
  | some (.error e, t) => rfl
  | some (.ok x, t) => rfl

theorem evalCall_for {c body : Expr} (h : foldCase name = "for") (ev : Evaluator σ) (rounds : Nat)
    (s : State σ) :
    evalCall functions ev rounds name [c, body] s =
      andThen (ev c s) fun x s =>
        endFor (runFor ev (counterName s.enter.depth) (.later body) (iterationCount x) 0 s.enter) := by
  simp only [evalCall, find?_for h]
  simp only [Arity.check, Arity.accepts, evalArguments, evalArgument, applyRule, evalFor, andThen]
  match ev c s with
  | none => rfl
  | some (.error e, t) => rfl
  | some (.ok x, t) => rfl

theorem evalCall_while {c body : Expr} (h : foldCase name = "while") (ev : Evaluator σ)
    (rounds : Nat) (s : State σ) :
    evalCall functions ev rounds name [c, body] s =
      runWhile ev (.later c) (.later body) rounds s := by
  simp only [evalCall, find?_while h]
  simp [Arity.check, Arity.accepts, evalArguments, evalArgument, applyRule, andThen, evalWhile]

end Equations

end Evaluation
end FormulaLang

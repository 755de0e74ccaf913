import Mathlib
import FormulaLang.Evaluation.Run

/-!
# FormulaLang.Proofs.Fuel

More fuel changes no answer (`eval_mono`). A reply is *kept* by another if that gives the same
answer wherever the first gives one. Each rule keeps the answers of its evaluator, so one step
does, and so does the evaluator that ties the knot.
-/

namespace FormulaLang
namespace Evaluation

variable {σ : Type}

/-- The second reply gives the first one's answer, if that has one. -/
def Kept {α : Type} (r r' : Reply σ α) : Prop := ∀ o, r = some o → r' = some o

/-- Each answer of the first evaluator is one of the second. -/
def Extends (ev ev' : Evaluator σ) : Prop := ∀ e s, Kept (ev e s) (ev' e s)

theorem Kept.refl {α : Type} (r : Reply σ α) : Kept r r := fun _ h => h

theorem Kept.andThen {α β : Type} {r r' : Reply σ α} {next next' : α → State σ → Reply σ β}
    (h : Kept r r') (hnext : ∀ a s, Kept (next a s) (next' a s)) :
    Kept (andThen r next) (andThen r' next') := by
  intro o ho
  match r, h with
  | none, _ => cases ho
  | some (.error e, s), h => rw [h _ rfl]; exact ho
  | some (.ok a, s), h => rw [h _ rfl]; exact hnext a s o ho

section Rules

variable {ev ev' : Evaluator σ}

theorem evalEach_kept (h : Extends ev ev') (es : List Expr) (s : State σ) :
    Kept (evalEach ev es s) (evalEach ev' es s) := by
  induction es generalizing s with
  | nil => exact Kept.refl _
  | cons e es ih =>
    exact (h e s).andThen fun x s => (ih s).andThen fun xs s => Kept.refl _

theorem evalStatements_kept (h : Extends ev ev') (p : Program) (s : State σ) :
    Kept (evalStatements ev p s) (evalStatements ev' p s) := by
  match p with
  | [] => exact Kept.refl _
  | [e] => exact h e s
  | e :: f :: es => exact (h e s).andThen fun _ s => evalStatements_kept h (f :: es) s

theorem evalArguments_kept (h : Extends ev ev') (modes : List Mode) (es : List Expr)
    (s : State σ) : Kept (evalArguments ev modes es s) (evalArguments ev' modes es s) := by
  induction es generalizing modes s with
  | nil => exact Kept.refl _
  | cons e es ih =>
    have harg : Kept (evalArgument ev (modes.headD .eager) e s)
        (evalArgument ev' (modes.headD .eager) e s) := by
      cases modes.headD .eager with
      | eager => exact (h e s).andThen fun _ _ => Kept.refl _
      | deferred => exact Kept.refl _
    exact harg.andThen fun a s => (ih modes.tail s).andThen fun as s => Kept.refl _

theorem force_kept (h : Extends ev ev') (a : LazyArg) (s : State σ) :
    Kept (force ev a s) (force ev' a s) := by
  cases a with
  | now value => exact Kept.refl _
  | later e => exact h e s

theorem forceEach_kept (h : Extends ev ev') (as : List LazyArg) (s : State σ) :
    Kept (forceEach ev as s) (forceEach ev' as s) := by
  induction as generalizing s with
  | nil => exact Kept.refl _
  | cons a as ih =>
    exact (force_kept h a s).andThen fun x s => (ih s).andThen fun xs s => Kept.refl _

theorem evalIf_kept (h : Extends ev ev') (as : List LazyArg) (s : State σ) :
    Kept (evalIf ev as s) (evalIf ev' as s) := by
  unfold evalIf
  split
  · refine (force_kept h _ s).andThen fun x s => ?_
    split
    · exact force_kept h _ s
    · exact force_kept h _ s
  · exact Kept.refl _

theorem runFor_kept (h : Extends ev ev') (counter : String) (body : LazyArg) (rounds index : Nat)
    (s : State σ) :
    Kept (runFor ev counter body rounds index s) (runFor ev' counter body rounds index s) := by
  induction rounds generalizing index s with
  | zero => exact Kept.refl _
  | succ rounds ih => exact (force_kept h body _).andThen fun _ s => ih (index + 1) s

theorem endFor_kept {r r' : Reply σ Unit} (h : Kept r r') : Kept (endFor r) (endFor r') := by
  intro o ho
  match r, h with
  | none, _ => cases ho
  | some (.error e, s), h => rw [h _ rfl]; exact ho
  | some (.ok (), s), h => rw [h _ rfl]; exact ho

theorem evalFor_kept (h : Extends ev ev') (as : List LazyArg) (s : State σ) :
    Kept (evalFor ev as s) (evalFor ev' as s) := by
  unfold evalFor
  split
  · exact (force_kept h _ s).andThen fun x s => endFor_kept (runFor_kept h _ _ _ _ _)
  · exact Kept.refl _

theorem runWhile_kept (h : Extends ev ev') (condition body : LazyArg) {rounds rounds' : Nat}
    (hle : rounds ≤ rounds') (s : State σ) :
    Kept (runWhile ev condition body rounds s) (runWhile ev' condition body rounds' s) := by
  induction rounds generalizing rounds' s with
  | zero => intro o ho; cases ho
  | succ rounds ih =>
    obtain ⟨rounds', rfl⟩ := Nat.exists_eq_add_of_lt hle
    refine (force_kept h condition s).andThen fun x s => ?_
    split
    · exact (force_kept h body s).andThen fun _ s => ih (Nat.le_add_right _ _) s
    · exact Kept.refl _

theorem applyRule_kept (h : Extends ev ev') {rounds rounds' : Nat} (hle : rounds ≤ rounds')
    (rule : Rule) (as : List LazyArg) (s : State σ) :
    Kept (applyRule ev rounds rule as s) (applyRule ev' rounds' rule as s) := by
  cases rule with
  | math f => exact (forceEach_kept h as s).andThen fun _ _ => Kept.refl _
  | control c =>
    cases c with
    | branch => exact evalIf_kept h as s
    | count => exact evalFor_kept h as s
    | loop =>
      show Kept (evalWhile ev rounds as s) (evalWhile ev' rounds' as s)
      unfold evalWhile
      split
      · exact runWhile_kept h _ _ hle s
      · exact Kept.refl _

theorem evalCall_kept (functions : Registry σ) (h : Extends ev ev') {rounds rounds' : Nat}
    (hle : rounds ≤ rounds') (name : String) (es : List Expr) (s : State σ) :
    Kept (evalCall functions ev rounds name es s) (evalCall functions ev' rounds' name es s) := by
  unfold evalCall
  split
  · split
    · exact Kept.refl _
    · exact (evalArguments_kept h _ es s).andThen fun as s => applyRule_kept h hle _ as s
  · split
    · exact Kept.refl _
    · split
      · exact Kept.refl _
      · exact (evalEach_kept h es s).andThen fun xs s => Kept.refl _

theorem evalStep_kept (functions : Registry σ) (h : Extends ev ev') {rounds rounds' : Nat}
    (hle : rounds ≤ rounds') (e : Expr) (s : State σ) :
    Kept (evalStep functions ev rounds e s) (evalStep functions ev' rounds' e s) := by
  cases e with
  | num x => exact Kept.refl _
  | var name => exact Kept.refl _
  | assign name e => exact (h e s).andThen fun _ _ => Kept.refl _
  | binary op left right =>
    exact (h left s).andThen fun x s => (h right s).andThen fun y s => Kept.refl _
  | call name es => exact evalCall_kept functions h hle name es s
  | quote p => exact evalStatements_kept h p s

end Rules

theorem eval_mono (functions : Registry σ) {fuel fuel' : Nat} (hle : fuel ≤ fuel') :
    Extends (eval functions fuel) (eval functions fuel') := by
  induction fuel generalizing fuel' with
  | zero => intro e s o ho; cases ho
  | succ fuel ih =>
    obtain ⟨n, rfl⟩ := Nat.exists_eq_add_of_lt hle
    intro e s
    exact evalStep_kept functions (ih (Nat.le_add_right fuel n)) (Nat.le_add_right fuel n) e s

end Evaluation
end FormulaLang

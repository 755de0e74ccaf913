import FormulaLang.Proofs.Locality

/-!
# FormulaLang.Proofs.Purity

Host functions whose answers depend on their arguments alone (`Registry.Pure`). A script calls only
functions that are registered under the names it calls them by (`Registered`), so if these are pure
its effects and its outcome do not depend on the state of the host, and what is left of the state
are the variables that it may read. Main statement: `run_eq_of_pure`.
-/

namespace FormulaLang

variable {σ α β : Type}

def Registry.Pure (functions : Registry σ) : Prop :=
  ∀ name f, functions.get? name = some f → ∀ xs host host', (f.call host xs).1 = (f.call host' xs).1

theorem Evaluation.ticks_pure : Evaluation.ticks.Pure := by
  intro name f hf xs host host'
  have hentries : Evaluation.ticks.entries = [("tick", ⟨1, fun n xs => (xs.headD 0.0, n + 1)⟩)] :=
    rfl
  rw [Table.get?, hentries, List.lookup_cons] at hf
  split at hf
  · cases hf
    rfl
  · cases hf

namespace Script

open BigStep (noted)

/-! ## Registered calls -/

/-- Whatever the script is answered, it calls registered functions by their names. -/
def Registered (functions : Registry σ) : Script σ α → Prop
  | .stop _ => True
  | .starve => True
  | .read _ next => ∀ x, (next x).Registered functions
  | .write _ _ next => next.Registered functions
  | .call name f _ next => functions.get? name = some f ∧ ∀ x, (next x).Registered functions

section Rules

variable {functions : Registry σ}

theorem Registered.andThen {m : Script σ α} {f : α → Script σ β} (hm : m.Registered functions)
    (hf : ∀ a, (f a).Registered functions) : (m.andThen f).Registered functions := by
  induction m with
  | stop o =>
    cases o with
    | ok a => exact hf a
    | error err => trivial
  | starve => trivial
  | read name next ih => exact fun x => ih x (hm x)
  | write name x next ih => exact ih hm
  | call name g xs next ih => exact ⟨hm.1, fun x => ih x (hm.2 x)⟩

theorem each_registered {sc : Expr → Script σ Float} (h : ∀ e, (sc e).Registered functions)
    (es : List Expr) : (each sc es).Registered functions := by
  induction es with
  | nil => trivial
  | cons e es ih => exact (h e).andThen fun x => ih.andThen fun xs => trivial

theorem statements_registered {sc : Expr → Script σ Float} (h : ∀ e, (sc e).Registered functions)
    (p : Program) : (statements sc p).Registered functions := by
  match p with
  | [] => trivial
  | [e] => exact h e
  | e :: f :: es => exact (h e).andThen fun _ => statements_registered h (f :: es)

theorem rounds_registered {body : Script σ Float} (hbody : body.Registered functions)
    (counter : String) (n index : Nat) : (rounds counter body n index).Registered functions := by
  induction n generalizing index with
  | zero => trivial
  | succ n ih =>
    show (body.andThen fun _ => rounds counter body n (index + 1)).Registered functions
    exact hbody.andThen fun _ => ih (index + 1)

theorem loop_registered {condition body : Script σ Float}
    (hcondition : condition.Registered functions) (hbody : body.Registered functions) (most : Nat) :
    (loop condition body most).Registered functions := by
  induction most with
  | zero => trivial
  | succ most ih =>
    refine hcondition.andThen fun x => ?_
    split
    · exact hbody.andThen fun _ => ih
    · trivial

variable {sc : Nat → Expr → Script σ Float}

theorem invoke_registered (h : ∀ depth e, (sc depth e).Registered functions) (most depth : Nat)
    (name : String) (es : List Expr) :
    (invoke functions sc most depth name es).Registered functions := by
  have heach := each_registered (h depth) es
  cases Evaluation.callForm functions name es with
  | unknown hb hf =>
    rw [invoke_unknown hb hf]
    trivial
  | hostCount hb hf hlen =>
    rw [invoke_hostCount hb hf hlen]
    trivial
  | host hb hf hlen =>
    rw [invoke_host hb hf hlen]
    exact heach.andThen fun xs => ⟨hf, fun x => trivial⟩
  | builtinCount hb ha =>
    rw [invoke_builtinCount hb ha]
    trivial
  | math hb hf ha =>
    rw [invoke_math hb hf ha]
    exact heach.andThen fun xs => trivial
  | @branch c yes no hname =>
    rw [invoke_if hname]
    refine (h depth c).andThen fun x => ?_
    split
    · exact h depth yes
    · exact h depth no
  | @count c body hname =>
    rw [invoke_for hname]
    refine (h depth c).andThen fun x => ?_
    exact (rounds_registered (h (depth + 1) body) _ _ _).andThen fun _ => trivial
  | @loop c body hname =>
    rw [invoke_while hname]
    exact loop_registered (h depth c) (h depth body) most

theorem step_registered (h : ∀ depth e, (sc depth e).Registered functions) (most depth : Nat)
    (e : Expr) : (step functions sc most depth e).Registered functions := by
  cases e with
  | num x => trivial
  | var name => exact fun x => trivial
  | assign name e =>
    refine (h depth e).andThen fun x => ?_
    trivial
  | binary op left right => exact (h depth left).andThen fun x => (h depth right).andThen fun y => trivial
  | call name es => exact invoke_registered h most depth name es
  | quote p => exact statements_registered (h depth) p

end Rules

theorem script_registered (functions : Registry σ) (fuel depth : Nat) (e : Expr) :
    (e.script functions fuel depth).Registered functions := by
  induction fuel generalizing depth e with
  | zero => trivial
  | succ fuel ih => exact step_registered ih fuel depth e

/-! ## Performances without the host -/

/-- If the functions are pure, a script does the same wherever the variables agree that it may
read, whatever the state of the host. -/
theorem perform_agree_of_pure {functions : Registry σ} (hpure : functions.Pure) {F : Footprint}
    {post : α → Prop} {m : Script σ α} (hm : m.Within F post) (hcalls : m.Registered functions)
    {s t : State σ} (h : ∀ name, F.reads name → s.get? name = t.get? name) :
    m.effects s = m.effects t ∧ (m.perform s).map Prod.fst = (m.perform t).map Prod.fst := by
  induction m generalizing s t with
  | stop o => exact ⟨rfl, rfl⟩
  | starve => exact ⟨rfl, rfl⟩
  | read name next ih =>
    have hread := h name hm.1
    cases hx : s.get? name with
    | none =>
      rw [effects_read_none next hx, effects_read_none next (hread.symm.trans hx),
        perform_read_none next hx, perform_read_none next (hread.symm.trans hx)]
      exact ⟨rfl, rfl⟩
    | some x =>
      rw [effects_read_some next hx, effects_read_some next (hread.symm.trans hx),
        perform_read_some next hx, perform_read_some next (hread.symm.trans hx)]
      exact ih x (hm.2 x) (hcalls x) h
  | write name x next ih =>
    have hset : ∀ n, F.reads n → (s.set name x).get? n = (t.set name x).get? n := by
      intro n hn
      rw [State.get?_set, State.get?_set, h n hn]
    obtain ⟨heffects, houtcome⟩ := ih hm.2 hcalls hset
    exact ⟨congrArg (List.cons _) heffects, houtcome⟩
  | call name f xs next ih =>
    -- the two hosts may differ from here on, but the answers do not
    have hanswer := hpure name f hcalls.1 xs s.host t.host
    obtain ⟨heffects, houtcome⟩ := @ih (f.call s.host xs).1 (hm _) (hcalls.2 _)
      (noted s name xs (f.call s.host xs).2) (noted t name xs (f.call t.host xs).2) h
    simp only [effects, perform, ← hanswer]
    exact ⟨congrArg (List.cons _) heffects, houtcome⟩

end Script

/-! ## Runs -/

namespace Evaluation

variable {functions : Registry σ} {fuel : Nat}

/-- **Runs over pure functions depend on variables only.** Two runs of one program, at one depth and
from states that agree on the variables it mentions, have the same effects and the same outcome. -/
theorem run_eq_of_pure (hpure : functions.Pure) {p : Program} {s t : State σ}
    (hdepth : s.depth = t.depth) (h : ∀ name, .var name ∈ p.nodes → s.get? name = t.get? name) :
    effects functions fuel p s = effects functions fuel p t ∧
      (evalStatements (eval functions fuel) p s).map Prod.fst =
        (evalStatements (eval functions fuel) p t).map Prod.fst := by
  have hcalls := Script.statements_registered (Script.script_registered functions fuel s.depth) p
  have hperform := Script.perform_agree_of_pure hpure
    (program_script_keeps functions fuel s.depth p) hcalls
    fun name hname => h name (Expr.mem_nodes_of_quote hname rfl)
  rw [statements_eq_perform, statements_eq_perform, effects, effects, ← hdepth]
  exact hperform

/-- A variable ends with the value that it was last given, or as it was bound before. -/
theorem get?_of_run {p : Program} {s t : State σ} {o : Except EvalError Float}
    (h : evalStatements (eval functions fuel) p s = some (o, t)) (name : String) :
    t.get? name = (Effect.last name (effects functions fuel p s)).or (s.get? name) := by
  rw [statements_eq_perform] at h
  exact (Script.perform_effects h).2 name

end Evaluation
end FormulaLang

import FormulaLang.Proofs.Locality

/-!
# FormulaLang.Proofs.Prolong

What a run does before its fuel runs out, it does with more fuel, too. A script is prolonged by
another that asks for the same and goes on where the first one starves (`Prolonged`). The scripts
of the rules are prolonged if those of their parts are, and a loop by one with more rounds; so
fuel prolongs the scripts of all expressions. Main statement: `effects_mono`.
-/

namespace FormulaLang

variable {σ α β : Type}

namespace Script

/-- The second script does what the first does, and may go on where that starves. -/
inductive Prolonged : Script σ α → Script σ α → Prop where
  | starve (m : Script σ α) : Prolonged .starve m
  | stop (o : Except EvalError α) : Prolonged (.stop o) (.stop o)
  | read (name : String) {next next' : Float → Script σ α} :
      (∀ x, Prolonged (next x) (next' x)) → Prolonged (.read name next) (.read name next')
  | write (name : String) (x : Float) {next next' : Script σ α} :
      Prolonged next next' → Prolonged (.write name x next) (.write name x next')
  | call (name : String) (f : HostFunction σ) (xs : List Float) {next next' : Float → Script σ α} :
      (∀ x, Prolonged (next x) (next' x)) → Prolonged (.call name f xs next) (.call name f xs next')

theorem Prolonged.refl (m : Script σ α) : m.Prolonged m := by
  induction m with
  | stop o => exact .stop o
  | starve => exact .starve _
  | read name next ih => exact .read name ih
  | write name x next ih => exact .write name x ih
  | call name f xs next ih => exact .call name f xs ih

theorem Prolonged.andThen {m m' : Script σ α} {f f' : α → Script σ β} (hm : m.Prolonged m')
    (hf : ∀ a, (f a).Prolonged (f' a)) : (m.andThen f).Prolonged (m'.andThen f') := by
  induction hm with
  | starve m => exact .starve _
  | stop o =>
    cases o with
    | ok a => exact hf a
    | error err => exact .stop _
  | read name _ ih => exact .read name ih
  | write name x _ ih => exact .write name x ih
  | call name g xs _ ih => exact .call name g xs ih

theorem Prolonged.trans {m₁ m₂ m₃ : Script σ α} (h : m₁.Prolonged m₂) (h' : m₂.Prolonged m₃) :
    m₁.Prolonged m₃ := by
  induction h generalizing m₃ with
  | starve m => exact .starve _
  | stop o => exact h'
  | read name _ ih =>
    cases h' with
    | read _ h' => exact .read name fun x => ih x (h' x)
  | write name x _ ih =>
    cases h' with
    | write _ _ h' => exact .write name x (ih h')
  | call name f xs _ ih =>
    cases h' with
    | call _ _ _ h' => exact .call name f xs fun x => ih x (h' x)

theorem Prolonged.perform {m m' : Script σ α} (h : m.Prolonged m') {s : State σ}
    {r : Except EvalError α × State σ} (hr : m.perform s = some r) : m'.perform s = some r := by
  induction h generalizing s with
  | starve m => cases hr
  | stop o => exact hr
  | @read name next next' _ ih =>
    cases hx : s.get? name with
    | none =>
      rw [perform_read_none next hx] at hr
      rw [perform_read_none next' hx, hr]
    | some x =>
      rw [perform_read_some next hx] at hr
      rw [perform_read_some next' hx]
      exact ih x hr
  | write name x _ ih => exact ih hr
  | call name f xs _ ih => exact ih _ hr

theorem Prolonged.effects {m m' : Script σ α} (h : m.Prolonged m') (s : State σ) :
    m.effects s <+: m'.effects s := by
  induction h generalizing s with
  | starve m => exact List.nil_prefix
  | stop o => exact List.prefix_refl _
  | @read name next next' _ ih =>
    cases hx : s.get? name with
    | none =>
      rw [effects_read_none next hx]
      exact List.nil_prefix
    | some x =>
      rw [effects_read_some next hx, effects_read_some next' hx]
      exact ih x s
  | write name x _ ih => exact (List.prefix_cons_inj _).mpr (ih _)
  | call name f xs _ ih => exact (List.prefix_cons_inj _).mpr (ih _ _)

/-! ## The rules -/

section Rules

variable {sc sc' : Expr → Script σ Float}

theorem each_prolonged {es es' : List Expr}
    (h : List.Forall₂ (fun e e' => (sc e).Prolonged (sc' e')) es es') :
    (each sc es).Prolonged (each sc' es') := by
  induction h with
  | nil => exact .refl _
  | cons he _ ih => exact he.andThen fun x => ih.andThen fun xs => .refl _

theorem statements_prolonged (h : ∀ e, (sc e).Prolonged (sc' e)) (p : Program) :
    (statements sc p).Prolonged (statements sc' p) := by
  match p with
  | [] => exact .refl _
  | [e] => exact h e
  | e :: f :: es => exact (h e).andThen fun _ => statements_prolonged h (f :: es)

theorem rounds_prolonged {body body' : Script σ Float} (h : body.Prolonged body')
    (counter : String) (n index : Nat) :
    (rounds counter body n index).Prolonged (rounds counter body' n index) := by
  induction n generalizing index with
  | zero => exact .refl _
  | succ n ih => exact .write _ _ (h.andThen fun _ => ih (index + 1))

/-- A conditional loop starves when its rounds are used up. -/
theorem loop_prolonged {condition condition' body body' : Script σ Float}
    (hcondition : condition.Prolonged condition') (hbody : body.Prolonged body') {most most' : Nat}
    (hle : most ≤ most') : (loop condition body most).Prolonged (loop condition' body' most') := by
  induction most generalizing most' with
  | zero => exact .starve _
  | succ most ih =>
    obtain ⟨most', rfl⟩ := Nat.exists_eq_succ_of_ne_zero (Nat.ne_zero_of_lt hle)
    refine hcondition.andThen fun x => ?_
    split
    · exact hbody.andThen fun _ => ih (Nat.le_of_succ_le_succ hle)
    · exact .refl _

end Rules

section Step

variable {functions : Registry σ} {sc sc' : Nat → Expr → Script σ Float} {most most' : Nat}

theorem invoke_prolonged {es es' : List Expr}
    (h : List.Forall₂ (fun e e' => ∀ depth, (sc depth e).Prolonged (sc' depth e')) es es')
    (hle : most ≤ most') (depth : Nat) (name : String) :
    (invoke functions sc most depth name es).Prolonged
      (invoke functions sc' most' depth name es') := by
  have hlength := h.length_eq
  have heach := each_prolonged (h.imp fun _ _ he => he depth)
  cases Evaluation.callForm functions name es with
  | unknown hb hf =>
    rw [invoke_unknown hb hf, invoke_unknown hb hf]
    exact .refl _
  | hostCount hb hf hlen =>
    rw [invoke_hostCount hb hf hlen, invoke_hostCount hb hf (hlength ▸ hlen), hlength]
    exact .refl _
  | host hb hf hlen =>
    rw [invoke_host hb hf hlen, invoke_host hb hf (hlength ▸ hlen)]
    exact heach.andThen fun xs => .refl _
  | builtinCount hb ha =>
    rw [invoke_builtinCount hb ha, invoke_builtinCount hb (hlength ▸ ha), hlength]
    exact .refl _
  | math hb hf ha =>
    rw [invoke_math hb hf ha, invoke_math hb hf (hlength ▸ ha)]
    exact heach.andThen fun xs => .refl _
  | branch hname =>
    obtain _ | ⟨hc, _ | ⟨hyes, _ | ⟨hno, _ | _⟩⟩⟩ := h
    rw [invoke_if hname, invoke_if hname]
    refine (hc depth).andThen fun x => ?_
    split
    · exact hyes depth
    · exact hno depth
  | count hname =>
    obtain _ | ⟨hc, _ | ⟨hbody, _ | _⟩⟩ := h
    rw [invoke_for hname, invoke_for hname]
    refine (hc depth).andThen fun x => ?_
    exact (rounds_prolonged (hbody (depth + 1)) _ _ _).andThen fun _ => .refl _
  | loop hname =>
    obtain _ | ⟨hc, _ | ⟨hbody, _ | _⟩⟩ := h
    rw [invoke_while hname, invoke_while hname]
    exact loop_prolonged (hc depth) (hbody depth) hle

theorem step_prolonged (h : ∀ depth e, (sc depth e).Prolonged (sc' depth e)) (hle : most ≤ most')
    (depth : Nat) (e : Expr) :
    (step functions sc most depth e).Prolonged (step functions sc' most' depth e) := by
  cases e with
  | num x => exact .refl _
  | var name => exact .refl _
  | assign name e => exact (h depth e).andThen fun x => .refl _
  | binary op left right =>
    exact (h depth left).andThen fun x => (h depth right).andThen fun y => .refl _
  | call name es => exact invoke_prolonged (List.forall₂_same.mpr fun e _ d => h d e) hle depth name
  | quote p => exact statements_prolonged (h depth) p

end Step

/-- Fuel prolongs scripts. -/
theorem script_prolonged (functions : Registry σ) {fuel fuel' : Nat} (hle : fuel ≤ fuel')
    (depth : Nat) (e : Expr) :
    (e.script functions fuel depth).Prolonged (e.script functions fuel' depth) := by
  induction fuel generalizing fuel' depth e with
  | zero => exact .starve _
  | succ fuel ih =>
    obtain ⟨fuel', rfl⟩ := Nat.exists_eq_succ_of_ne_zero (Nat.ne_zero_of_lt hle)
    have hle' := Nat.le_of_succ_le_succ hle
    exact step_prolonged (ih hle') hle' depth e

end Script

namespace Evaluation

/-- What a run does before its fuel runs out is the beginning of what it does with more. -/
theorem effects_mono (functions : Registry σ) {fuel fuel' : Nat} (hle : fuel ≤ fuel')
    (p : Program) (s : State σ) : effects functions fuel p s <+: effects functions fuel' p s :=
  (Script.statements_prolonged (Script.script_prolonged functions hle s.depth) p).effects s

end Evaluation
end FormulaLang

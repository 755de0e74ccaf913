import FormulaLang.Proofs.Prolong
import FormulaLang.Proofs.RunSound

/-!
# FormulaLang.Proofs.HostCalls

Calls of host functions. The effects of a run make up its states: `State.replay` carries them out
again. In front of each call among them stand the effects of one evaluation of the arguments of a
call node, and these gave the values that the function was called with (`Declared`). A script that
makes only such calls `Declares` them; scripts put together of such ones do, too. Main statement:
`host_calls_declared`.
-/

namespace FormulaLang

open BigStep (atDepth noted)

variable {σ α β : Type}

/-! ## Replaying effects -/

/-- The state after an effect. A call is answered by the registered function. -/
def State.afterEffect (functions : Registry σ) (s : State σ) : Effect → State σ
  | .write name x => s.set name x
  | .call name xs =>
    match functions.get? name with
    | some f => noted s name xs (f.call s.host xs).2
    | none => s

def State.replay (functions : Registry σ) (s : State σ) (es : List Effect) : State σ :=
  es.foldl (State.afterEffect functions) s

theorem State.replay_append (functions : Registry σ) (s : State σ) (es es' : List Effect) :
    s.replay functions (es ++ es') = (s.replay functions es).replay functions es' :=
  List.foldl_append

theorem State.replay_call {functions : Registry σ} {name : String} {f : HostFunction σ}
    (hf : functions.get? name = some f) (s : State σ) (xs : List Float) (es : List Effect) :
    s.replay functions (.call name xs :: es) =
      (noted s name xs (f.call s.host xs).2).replay functions es := by
  rw [replay, List.foldl_cons, afterEffect, hf]
  rfl

namespace Script

/-! ## Scripts and the depth, scripts one after another -/

theorem perform_atDepth (m : Script σ α) (s : State σ) (depth : Nat) :
    m.perform (atDepth s depth) = (m.perform s).map fun r => (r.1, atDepth r.2 depth) := by
  induction m generalizing s with
  | stop o => rfl
  | starve => rfl
  | read name next ih =>
    have hget : (atDepth s depth).get? name = s.get? name := rfl
    cases hx : s.get? name with
    | none =>
      rw [perform_read_none next hx, perform_read_none next (hget.trans hx)]
      rfl
    | some x =>
      rw [perform_read_some next hx, perform_read_some next (hget.trans hx)]
      exact ih x s
  | write name x next ih => exact ih (s.set name x)
  | call name f xs next ih => exact ih _ (noted s name xs (f.call s.host xs).2)

theorem effects_atDepth (m : Script σ α) (s : State σ) (depth : Nat) :
    m.effects (atDepth s depth) = m.effects s := by
  induction m generalizing s with
  | stop o => rfl
  | starve => rfl
  | read name next ih =>
    have hget : (atDepth s depth).get? name = s.get? name := rfl
    cases hx : s.get? name with
    | none => rw [effects_read_none next hx, effects_read_none next (hget.trans hx)]
    | some x =>
      rw [effects_read_some next hx, effects_read_some next (hget.trans hx)]
      exact ih x s
  | write name x next ih => exact congrArg (List.cons _) (ih (s.set name x))
  | call name f xs next ih =>
    exact congrArg (List.cons _) (ih _ (noted s name xs (f.call s.host xs).2))

theorem perform_andThen (m : Script σ α) (f : α → Script σ β) (s : State σ) :
    (m.andThen f).perform s = Evaluation.andThen (m.perform s) fun a t => (f a).perform t :=
  (andThen_perform fun _ _ _ => rfl).symm

/-- What a script that goes on does after its first part: nothing, if that has no value. -/
def furtherEffects (m : Script σ α) (f : α → Script σ β) (s : State σ) : List Effect :=
  match m.perform s with
  | some (.ok a, t) => (f a).effects t
  | _ => []

theorem effects_andThen (m : Script σ α) (f : α → Script σ β) (s : State σ) :
    (m.andThen f).effects s = m.effects s ++ furtherEffects m f s := by
  induction m generalizing s with
  | stop o => cases o <;> rfl
  | starve => rfl
  | read name next ih =>
    cases hx : s.get? name with
    | none =>
      rw [andThen, effects_read_none _ hx, effects_read_none next hx, furtherEffects,
        perform_read_none next hx]
      rfl
    | some x =>
      rw [andThen, effects_read_some _ hx, effects_read_some next hx, furtherEffects,
        perform_read_some next hx]
      exact ih x s
  | write name x next ih => exact congrArg (List.cons _) (ih (s.set name x))
  | call name g xs next ih =>
    exact congrArg (List.cons _) (ih _ (noted s name xs (g.call s.host xs).2))

end Script

namespace Evaluation

theorem evalEach_length {ev : Evaluator σ} {es : List Expr} {s t : State σ} {xs : List Float}
    (h : evalEach ev es s = some (.ok xs, t)) : xs.length = es.length := by
  induction es generalizing s xs with
  | nil =>
    cases h
    rfl
  | cons e es ih =>
    rw [evalEach] at h
    obtain ⟨_, -, ⟨⟩⟩ | ⟨x, u, -, hrest⟩ := andThen_eq_some h
    obtain ⟨_, -, ⟨⟩⟩ | ⟨ys, v, hes, hvalues⟩ := andThen_eq_some hrest
    cases hvalues
    exact congrArg (· + 1) (ih hes)

def effectsEach (functions : Registry σ) (fuel : Nat) (es : List Expr) (s : State σ) :
    List Effect :=
  (Script.each (Expr.script functions fuel s.depth) es).effects s

/-- A run from the state has come to call the host function with these arguments when its effects
are `before`. The call is one that a node declares: its name is registered and not that of a
builtin, the node has as many arguments as the function takes, and the last of the effects are those
of evaluating these once, which gave the values. -/
def Declared (functions : Registry σ) (nodes : List Expr) (s : State σ) (before : List Effect)
    (name : String) (xs : List Float) : Prop :=
  ∃ es f earlier fuel depth,
    .call name es ∈ nodes ∧ (∀ b ∈ Builtin.table, b.name ≠ foldCase name) ∧
    functions.get? name = some f ∧ es.length = f.arity ∧ xs.length = f.arity ∧
    before = earlier ++
      effectsEach functions fuel es (atDepth (s.replay functions earlier) depth) ∧
    evalEach (eval functions fuel) es (atDepth (s.replay functions earlier) depth) =
      some (.ok xs, atDepth (s.replay functions before) depth)

/-- The same call in a run that began earlier. -/
theorem Declared.behind {functions : Registry σ} {nodes : List Expr} {s : State σ}
    {before : List Effect} {name : String} {xs : List Float} (front : List Effect)
    (h : Declared functions nodes (s.replay functions front) before name xs) :
    Declared functions nodes s (front ++ before) name xs := by
  obtain ⟨es, f, earlier, fuel, depth, hnode, hname, hf, hlen, hxs, hbefore, heval⟩ := h
  refine ⟨es, f, front ++ earlier, fuel, depth, hnode, hname, hf, hlen, hxs, ?_, ?_⟩
  · rw [State.replay_append, hbefore, List.append_assoc]
  · rw [State.replay_append, State.replay_append, heval]

end Evaluation

namespace Script

open Evaluation

variable {functions : Registry σ} {nodes : List Expr}

/-- The effects lead where the script leads, and the calls among them are declared by the nodes. -/
structure Declares (functions : Registry σ) (nodes : List Expr) (m : Script σ α) : Prop where
  replays : ∀ {s t : State σ} {o : Except EvalError α}, m.perform s = some (o, t) →
    t = s.replay functions (m.effects s)
  declared : ∀ {s : State σ} {before after : List Effect} {name : String} {xs : List Float},
    m.effects s = before ++ .call name xs :: after → Declared functions nodes s before name xs

namespace Declares

theorem of_stop (o : Except EvalError α) : (stop o : Script σ α).Declares functions nodes where
  replays h := by
    cases h
    rfl
  declared h := by simp [effects] at h

theorem of_starve : (starve : Script σ α).Declares functions nodes where
  replays h := by cases h
  declared h := by simp [effects] at h

theorem of_read (name : String) {next : Float → Script σ α}
    (h : ∀ x, (next x).Declares functions nodes) : (read name next).Declares functions nodes where
  replays {s t o} hperform := by
    cases hx : s.get? name with
    | none =>
      rw [perform_read_none next hx] at hperform
      rw [effects_read_none next hx]
      cases hperform
      rfl
    | some x =>
      rw [perform_read_some next hx] at hperform
      rw [effects_read_some next hx]
      exact (h x).replays hperform
  declared {s before after n xs} heffects := by
    cases hx : s.get? name with
    | none => simp [effects_read_none next hx] at heffects
    | some x =>
      rw [effects_read_some next hx] at heffects
      exact (h x).declared heffects

theorem of_write (name : String) (x : Float) {next : Script σ α}
    (h : next.Declares functions nodes) : (write name x next).Declares functions nodes where
  replays hperform := h.replays hperform
  declared {s before after n xs} heffects := by
    cases before with
    | nil => cases heffects
    | cons effect before =>
      obtain ⟨rfl, hrest⟩ := List.cons.inj heffects
      exact .behind (s := s) [.write name x] (h.declared hrest)

/-- A script that goes on, where the calls of its second part are declared with regard to the state
in which the first began. -/
theorem andThen_of {m : Script σ α} {f : α → Script σ β} (hm : m.Declares functions nodes)
    (hreplays : ∀ a s t o, (f a).perform s = some (o, t) → t = s.replay functions ((f a).effects s))
    (hdeclared : ∀ s a t, m.perform s = some (.ok a, t) → ∀ before name xs after,
      (f a).effects t = before ++ .call name xs :: after →
      Declared functions nodes s (m.effects s ++ before) name xs) :
    (m.andThen f).Declares functions nodes where
  replays {s t o} h := by
    rw [perform_andThen] at h
    rw [effects_andThen, furtherEffects]
    match hperform : m.perform s with
    | none =>
      rw [hperform] at h
      cases h
    | some (.error err, u) =>
      rw [hperform] at h
      cases h
      rw [List.append_nil]
      exact hm.replays hperform
    | some (.ok a, u) =>
      rw [hperform] at h
      rw [State.replay_append, ← hm.replays hperform]
      exact hreplays a u t o h
  declared {s before after name xs} h := by
    have hfurther : ∀ back, furtherEffects m f s = back ++ .call name xs :: after →
        Declared functions nodes s (m.effects s ++ back) name xs := by
      intro back hback
      rw [furtherEffects] at hback
      split at hback
      · rename_i a t hperform
        exact hdeclared s a t hperform back name xs after hback
      · simp at hback
    rw [effects_andThen] at h
    -- the call stands behind the effects of the first part, or it is one of these
    obtain ⟨back, rfl, hback⟩ | ⟨back, hfirst, hback⟩ := List.append_eq_append_iff.mp h
    · exact hfurther back hback
    · cases back with
      | nil =>
        rw [List.append_nil] at hfirst
        have hdecl := hfurther [] hback.symm
        rwa [List.append_nil, hfirst] at hdecl
      | cons effect back =>
        obtain ⟨rfl, -⟩ := List.cons.inj hback
        exact hm.declared hfirst

theorem andThen {m : Script σ α} {f : α → Script σ β} (hm : m.Declares functions nodes)
    (hf : ∀ a, (f a).Declares functions nodes) : (m.andThen f).Declares functions nodes := by
  refine hm.andThen_of (fun a s t o h => (hf a).replays h) ?_
  intro s a t hperform before name xs after heffects
  have hdecl := (hf a).declared heffects
  rw [hm.replays hperform] at hdecl
  exact hdecl.behind (m.effects s)

end Declares

/-! ## The scripts of expressions -/

theorem each_declares {sc : Expr → Script σ Float} {es : List Expr}
    (h : ∀ e ∈ es, (sc e).Declares functions nodes) : (each sc es).Declares functions nodes := by
  induction es with
  | nil => exact .of_stop _
  | cons e es ih =>
    obtain ⟨he, hes⟩ := List.forall_mem_cons.mp h
    exact he.andThen fun x => (ih hes).andThen fun xs => .of_stop _

theorem statements_declares {sc : Expr → Script σ Float} {p : Program}
    (h : ∀ e ∈ p, (sc e).Declares functions nodes) :
    (statements sc p).Declares functions nodes := by
  match p with
  | [] => exact .of_stop _
  | [e] => exact h e (List.mem_singleton_self e)
  | e :: f :: es =>
    obtain ⟨he, hes⟩ := List.forall_mem_cons.mp h
    exact he.andThen fun _ => statements_declares hes

theorem rounds_declares (counter : String) {body : Script σ Float}
    (hbody : body.Declares functions nodes) (n index : Nat) :
    (rounds counter body n index).Declares functions nodes := by
  induction n generalizing index with
  | zero => exact .of_stop _
  | succ n ih => exact .of_write _ _ (hbody.andThen fun _ => ih (index + 1))

theorem loop_declares {condition body : Script σ Float}
    (hcondition : condition.Declares functions nodes) (hbody : body.Declares functions nodes)
    (most : Nat) : (loop condition body most).Declares functions nodes := by
  induction most with
  | zero => exact .of_starve
  | succ most ih =>
    refine hcondition.andThen fun x => ?_
    split
    · exact hbody.andThen fun _ => ih
    · exact .of_stop _

/-- The scripts of all expressions inside a tree with these nodes declare their calls. -/
def Declaring (functions : Registry σ) (fuel : Nat) (nodes : List Expr) : Prop :=
  ∀ (depth : Nat) (e : Expr), e.nodes ⊆ nodes → (e.script functions fuel depth).Declares functions nodes

variable {fuel : Nat}

theorem Declaring.arguments (h : Declaring functions fuel nodes) {es : List Expr}
    (hes : Expr.nodesOf es ⊆ nodes) (depth : Nat) :
    ∀ e ∈ es, (e.script functions fuel depth).Declares functions nodes :=
  fun e he => h depth e (List.Subset.trans (Expr.nodes_subset_of_mem he) hes)

/-- An accepted call of a host function: the arguments, and then the call, which they declare. -/
theorem host_declares (h : Declaring functions fuel nodes) (depth : Nat) {name : String}
    {es : List Expr} {f : HostFunction σ} (hnode : .call name es ∈ nodes)
    (hes : Expr.nodesOf es ⊆ nodes) (hb : Builtin.find? name = none)
    (hf : functions.get? name = some f) (hlen : es.length = f.arity) :
    ((each (Expr.script functions fuel depth) es).andThen fun xs =>
      .call name f xs fun x => .stop (.ok x)).Declares functions nodes := by
  have heach := each_declares (h.arguments hes depth)
  have hname : ∀ b ∈ Builtin.table, b.name ≠ foldCase name := by
    simpa [Builtin.find?, List.find?_eq_none] using hb
  refine heach.andThen_of ?_ ?_
  · intro xs s t o hperform
    cases hperform
    rw [effects, State.replay_call hf]
    rfl
  · intro s xs t hperform before name' xs' after heffects
    -- the call is the only effect, so those in front of it are the effects of the arguments
    obtain ⟨rfl, rfl, rfl⟩ : before = [] ∧ name' = name ∧ xs' = xs := by
      cases before with
      | nil =>
        cases heffects
        exact ⟨rfl, rfl, rfl⟩
      | cons effect before => simp [effects] at heffects
    have heval : evalEach (eval functions fuel) es (atDepth s depth) =
        some (.ok xs', atDepth t depth) := by
      rw [evalEach_eq_perform (eval_scripted functions fuel), perform_atDepth]
      show ((each (Expr.script functions fuel depth) es).perform s).map _ = _
      rw [hperform]
      rfl
    refine ⟨es, f, [], fuel, depth, hnode, hname, hf, hlen, ?_, ?_, ?_⟩
    · rw [evalEach_length heval, hlen]
    · rw [List.append_nil, List.nil_append, effectsEach, effects_atDepth]
      rfl
    · rw [List.append_nil, ← heach.replays hperform]
      exact heval

theorem invoke_declares (h : Declaring functions fuel nodes) (most depth : Nat) {name : String}
    {es : List Expr} (hnodes : (Expr.call name es).nodes ⊆ nodes) :
    (invoke functions (Expr.script functions fuel) most depth name es).Declares functions nodes := by
  obtain ⟨hnode, hes⟩ := List.cons_subset.mp hnodes
  have hargs := h.arguments hes
  cases Evaluation.callForm functions name es with
  | unknown hb hf =>
    rw [invoke_unknown hb hf]
    exact .of_stop _
  | hostCount hb hf hlen =>
    rw [invoke_hostCount hb hf hlen]
    exact .of_stop _
  | host hb hf hlen =>
    rw [invoke_host hb hf hlen]
    exact host_declares h depth hnode hes hb hf hlen
  | builtinCount hb ha =>
    rw [invoke_builtinCount hb ha]
    exact .of_stop _
  | math hb hf ha =>
    rw [invoke_math hb hf ha]
    exact (each_declares (hargs depth)).andThen fun xs => .of_stop _
  | @branch c yes no hname =>
    rw [invoke_if hname]
    refine (hargs depth c (by simp)).andThen fun x => ?_
    split
    · exact hargs depth yes (by simp)
    · exact hargs depth no (by simp)
  | @count c body hname =>
    rw [invoke_for hname]
    refine (hargs depth c (by simp)).andThen fun x => ?_
    exact (rounds_declares _ (hargs (depth + 1) body (by simp)) _ _).andThen fun _ => .of_stop _
  | @loop c body hname =>
    rw [invoke_while hname]
    exact loop_declares (hargs depth c (by simp)) (hargs depth body (by simp)) most

theorem step_declares (h : Declaring functions fuel nodes) (most depth : Nat) {e : Expr}
    (hnodes : e.nodes ⊆ nodes) :
    (step functions (Expr.script functions fuel) most depth e).Declares functions nodes := by
  cases e with
  | num x => exact .of_stop _
  | var name => exact .of_read _ fun x => .of_stop _
  | assign name e =>
    have he := h depth e (List.cons_subset.mp hnodes).2
    exact he.andThen fun x => .of_write _ _ (.of_stop _)
  | binary op left right =>
    obtain ⟨hleft, hright⟩ := List.append_subset.mp (List.cons_subset.mp hnodes).2
    exact (h depth left hleft).andThen fun x => (h depth right hright).andThen fun y => .of_stop _
  | call name es => exact invoke_declares h most depth hnodes
  | quote p => exact statements_declares (h.arguments (List.cons_subset.mp hnodes).2 depth)

theorem script_declares (functions : Registry σ) (fuel : Nat) (nodes : List Expr) :
    Declaring functions fuel nodes := by
  induction fuel with
  | zero => exact fun _ _ _ => .of_starve
  | succ fuel ih => exact fun depth e he => step_declares ih fuel depth he

end Script

/-! ## Runs -/

namespace Evaluation

theorem program_declares (functions : Registry σ) (fuel depth : Nat) (p : Program) :
    (p.script functions fuel depth).Declares functions p.nodes :=
  Script.statements_declares
    ((Script.script_declares functions fuel p.nodes).arguments (List.Subset.refl _) depth)

section Nodes

variable {functions : Registry σ} {name : String} {es : List Expr}

theorem effects_call (functions : Registry σ) (fuel : Nat) (name : String) (es : List Expr)
    (s : State σ) : effects functions (fuel + 1) [.call name es] s =
      (Script.invoke functions (Expr.script functions fuel) fuel s.depth name es).effects s :=
  rfl

/-- A call with a wrong number of arguments does nothing, be it of a builtin or of the host. -/
theorem effects_of_rejected {arity : Arity} (harity : arityOf functions name = some arity)
    (hcount : arity.accepts es.length = false) (fuel : Nat) (s : State σ) :
    effects functions fuel [.call name es] s = [] := by
  cases fuel with
  | zero => rfl
  | succ fuel =>
    rw [effects_call]
    unfold arityOf at harity
    split at harity
    · rename_i b hb
      cases harity
      rw [Script.invoke_builtinCount hb hcount]
      rfl
    · rename_i hb
      obtain ⟨f, hf, rfl⟩ := Option.map_eq_some_iff.mp harity
      rw [Script.invoke_hostCount hb hf (by simpa [Arity.accepts] using hcount)]
      rfl

/-- A call of a host function does nothing behind its arguments if these fail. -/
theorem effects_of_argument_error {f : HostFunction σ} (hb : Builtin.find? name = none)
    (hf : functions.get? name = some f) (hlen : es.length = f.arity) {fuel : Nat} {s t : State σ}
    {err : EvalError} (h : evalEach (eval functions fuel) es s = some (.error err, t)) :
    effects functions (fuel + 1) [.call name es] s = effectsEach functions fuel es s := by
  rw [evalEach_eq_perform (eval_scripted functions fuel)] at h
  rw [effects_call, Script.invoke_host hb hf hlen, Script.effects_andThen, Script.furtherEffects, h]
  exact List.append_nil _

end Nodes

/-- Host functions are called as they are declared. Each call in a run, be it that the run ends
well, fails or goes on, is declared by a call node of the program. The effects of a run that ends
account for its last state and for the log of its calls, and those of one that goes on are the
beginning of what it does with more fuel. A node makes no call if it has a wrong number of arguments
or one of these fails. -/
theorem host_calls_declared (functions : Registry σ) (fuel : Nat) (p : Program) (s : State σ) :
    (∀ before name xs after, effects functions fuel p s = before ++ .call name xs :: after →
      Declared functions p.nodes s before name xs) ∧
    (∀ o t, evalStatements (eval functions fuel) p s = some (o, t) →
      t = s.replay functions (effects functions fuel p s) ∧
      t.calls = Effect.log (effects functions fuel p s) ++ s.calls) ∧
    (∀ fuel', fuel ≤ fuel' → effects functions fuel p s <+: effects functions fuel' p s) ∧
    (∀ name es arity u, arityOf functions name = some arity → arity.accepts es.length = false →
      effects functions fuel [.call name es] u = []) ∧
    ∀ name es f err u t, Builtin.find? name = none → functions.get? name = some f →
      es.length = f.arity → evalEach (eval functions fuel) es u = some (.error err, t) →
      effects functions (fuel + 1) [.call name es] u = effectsEach functions fuel es u := by
  have hdeclares := program_declares functions fuel s.depth p
  refine ⟨fun _ _ _ _ h => hdeclares.declared h, ?_, fun _ hle => effects_mono functions hle p s, ?_, ?_⟩
  · intro o t h
    rw [statements_eq_perform] at h
    exact ⟨hdeclares.replays h, (Script.perform_effects h).1⟩
  · intro name es arity u harity hcount
    exact effects_of_rejected harity hcount fuel u
  · intro name es f err u t hb hf hlen h
    exact effects_of_argument_error hb hf hlen h

/-- A call in the argument of another, and a call whose argument fails. -/
theorem host_calls_declared_nested :
    Declared ticks (Program.nodes [.call "tick" [.assign "y" (.call "tick" [.var "x"])]])
      (.start (.ofList [("x", 1.0)]) 0) [.call "tick" [1.0], .write "y" 1.0] "tick" [1.0] ∧
    effects ticks 6 [.call "tick" [.call "tick" [.quote []]]] (.start (.ofList [("x", 1.0)]) 0) =
      effectsEach ticks 5 [.call "tick" [.quote []]] (.start (.ofList [("x", 1.0)]) 0) := by
  constructor
  · exact (host_calls_declared ticks 5 _ (.start (.ofList [("x", 1.0)]) 0)).1 _ _ _ [] rfl
  · exact (host_calls_declared ticks 5 [] (.start (.ofList [("x", 1.0)]) 0)).2.2.2.2 "tick" _ _ _ _ _
      rfl rfl rfl rfl

end Evaluation
end FormulaLang

import FormulaLang.Proofs.HostCalls

/-!
# FormulaLang.Proofs.BuiltinNames

Names of builtin functions come first and do not see case. The host names are those that no
builtin has, whatever the case of ASCII letters. Registries that agree on the host names give every
expression the same script, so a host function under the name of a builtin is never called. A
program whose calls of builtins are spelt in another case has scripts that are alike: they ask for
the same and end alike, and only an error about the number of arguments tells the spellings apart.
A call of a host name goes to the registry. Main statement: `builtin_names_win`.
-/

namespace FormulaLang

variable {σ α β : Type}

/-- No builtin has this name in any case. -/
def IsHostName (name : String) : Prop := ∀ b ∈ Builtin.table, foldCase b.name ≠ foldCase name

instance (name : String) : Decidable (IsHostName name) :=
  inferInstanceAs (Decidable (∀ b ∈ Builtin.table, foldCase b.name ≠ foldCase name))

theorem find?_eq_none_iff {name : String} : Builtin.find? name = none ↔ IsHostName name := by
  rw [Builtin.find?, List.find?_eq_none]
  refine forall₂_congr fun b hb => ?_
  rw [Builtin.foldCase_name hb, decide_eq_true_eq]

theorem isLower_name : ∀ b ∈ Builtin.table, b.name.toList.all Char.isLower = true := by
  decide +kernel

theorem toLower_of_not_ascii {c : Char} (h : 128 ≤ c.toNat) : c.toLower = c := by
  have hupper : ¬(c.val ≥ 'A'.val ∧ c.val ≤ 'Z'.val) := by
    rintro ⟨-, hle⟩
    have hz : c.toNat ≤ 'Z'.toNat := UInt32.le_iff_toNat_le.mp hle
    exact absurd (h.trans hz) (by decide)
  rw [Char.toLower, dif_neg hupper]

/-- A character outside ASCII is in no name of a builtin, so a look-alike of one is a host name. -/
theorem isHostName_of_not_ascii {name : String} {c : Char} (hc : c ∈ name.toList)
    (h : 128 ≤ c.toNat) : IsHostName name := by
  intro b hb heq
  have hmem : c ∈ b.name.toList := by
    rw [← Builtin.foldCase_name hb, heq, foldCase, String.toList_ofList, ← toLower_of_not_ascii h]
    exact List.mem_map_of_mem hc
  have hlower : c.isLower = true := List.all_eq_true.mp (isLower_name b hb) c hmem
  rw [Char.isLower, Bool.and_eq_true, decide_eq_true_eq, decide_eq_true_eq] at hlower
  have hz : c.toNat ≤ 'z'.toNat := UInt32.le_iff_toNat_le.mp hlower.2
  exact absurd (h.trans hz) (by decide)

/-- The registries have the same functions under all host names. -/
def SameHosts (functions functions' : Registry σ) : Prop :=
  ∀ name, IsHostName name → functions'.get? name = functions.get? name

theorem sameHosts_insert (functions : Registry σ) {name : String} (h : ¬IsHostName name)
    (f : HostFunction σ) : SameHosts functions (functions.insert name f) := by
  intro m hm
  exact functions.get?_insert_of_ne f fun heq => h (heq ▸ hm)

namespace Script

theorem invoke_sameHosts {functions functions' : Registry σ} (h : SameHosts functions functions')
    (sc : Nat → Expr → Script σ Float) (most depth : Nat) (name : String) (es : List Expr) :
    invoke functions' sc most depth name es = invoke functions sc most depth name es := by
  cases hb : Builtin.find? name with
  | some b => simp only [invoke, hb]
  | none => simp only [invoke, hb, h name (find?_eq_none_iff.mp hb)]

theorem script_sameHosts {functions functions' : Registry σ} (h : SameHosts functions functions')
    (fuel : Nat) : Expr.script functions' fuel = Expr.script functions fuel := by
  induction fuel with
  | zero => rfl
  | succ fuel ih =>
    funext depth e
    rw [Expr.script, Expr.script, ih]
    cases e with
    | call name es => exact invoke_sameHosts h _ fuel depth name es
    | _ => rfl

end Script

/-! ## Spellings -/

/-- The second tree is the first one with names of builtins in another case. -/
inductive Recased : Expr → Expr → Prop where
  | num (x : Float) : Recased (.num x) (.num x)
  | var (name : String) : Recased (.var name) (.var name)
  | assign (name : String) {e e' : Expr} :
      Recased e e' → Recased (.assign name e) (.assign name e')
  | binary (op : Operator) {left left' right right' : Expr} : Recased left left' →
      Recased right right' → Recased (.binary op left right) (.binary op left' right')
  | call {m n : String} {es es' : List Expr} : m = n ∨ ¬IsHostName m ∧ foldCase m = foldCase n →
      List.Forall₂ Recased es es' → Recased (.call m es) (.call n es')
  | quote {p p' : Program} : List.Forall₂ Recased p p' → Recased (.quote p) (.quote p')

/-- The nodes of two trees of one shape, place by place. -/
def Expr.places (e e' : Expr) : List (Expr × Expr) := e.nodes.zip e'.nodes

def Program.places (p p' : Program) : List (Expr × Expr) := p.nodes.zip p'.nodes

mutual

theorem length_nodes_of_recased {e e' : Expr} (h : Recased e e') :
    e.nodes.length = e'.nodes.length := by
  cases h with
  | num x => rfl
  | var name => rfl
  | assign name h => simp only [Expr.nodes, List.length_cons, length_nodes_of_recased h]
  | binary op hleft hright =>
    simp only [Expr.nodes, List.length_cons, List.length_append, length_nodes_of_recased hleft,
      length_nodes_of_recased hright]
  | call _ h => simp only [Expr.nodes, List.length_cons, length_nodesOf_of_recased h]
  | quote h => simp only [Expr.nodes, List.length_cons, length_nodesOf_of_recased h]

theorem length_nodesOf_of_recased {es es' : List Expr} (h : List.Forall₂ Recased es es') :
    (Expr.nodesOf es).length = (Expr.nodesOf es').length := by
  cases h with
  | nil => rfl
  | cons he hes =>
    simp only [Expr.nodesOf, List.length_append, length_nodes_of_recased he,
      length_nodesOf_of_recased hes]

end

theorem places_assign (m n : String) (e e' : Expr) :
    (Expr.assign m e).places (.assign n e') = (.assign m e, .assign n e') :: e.places e' :=
  rfl

theorem places_binary {left left' : Expr} (h : Recased left left') (op op' : Operator)
    (right right' : Expr) : (Expr.binary op left right).places (.binary op' left' right') =
      (.binary op left right, .binary op' left' right') ::
        (left.places left' ++ right.places right') :=
  congrArg (List.cons _) (List.zip_append (length_nodes_of_recased h))

theorem places_call (m n : String) (es es' : List Expr) :
    (Expr.call m es).places (.call n es') =
      (.call m es, .call n es') :: Program.places es es' :=
  rfl

theorem places_quote (p p' : Program) :
    (Expr.quote p).places (.quote p') = (.quote p, .quote p') :: Program.places p p' :=
  rfl

theorem places_cons {e e' : Expr} (h : Recased e e') (es es' : Program) :
    Program.places (e :: es) (e' :: es') = e.places e' ++ Program.places es es' :=
  List.zip_append (length_nodes_of_recased h)

/-- The errors of two trees at their `places`. They are the same, but that one about the number of
arguments names the function as the call spells it. -/
inductive SameError (places : List (Expr × Expr)) : EvalError → EvalError → Prop where
  | same {err : EvalError} :
      (∀ name expected found, err ≠ .argumentCount name expected found) → SameError places err err
  | count {m n : String} {es es' : List Expr} (expected : Arity) {found : Nat} :
      (.call m es, .call n es') ∈ places → foldCase m = foldCase n → es.length = found →
      es'.length = found →
      SameError places (.argumentCount m expected found) (.argumentCount n expected found)

/-- Both evaluations go on forever, or both end in one state, with one value or with the same
error. -/
inductive SameReply (places : List (Expr × Expr)) :
    Evaluation.Reply σ α → Evaluation.Reply σ α → Prop where
  | starved : SameReply places none none
  | value (a : α) (t : State σ) : SameReply places (some (.ok a, t)) (some (.ok a, t))
  | failed {err err' : EvalError} (t : State σ) : SameError places err err' →
      SameReply places (some (.error err, t)) (some (.error err', t))

namespace Script

variable {places : List (Expr × Expr)}

/-- The scripts ask for the same, and they end with one value or with the same error. -/
inductive Alike (places : List (Expr × Expr)) : Script σ α → Script σ α → Prop where
  | value (a : α) : Alike places (.stop (.ok a)) (.stop (.ok a))
  | error {err err' : EvalError} : SameError places err err' →
      Alike places (.stop (.error err)) (.stop (.error err'))
  | starve : Alike places .starve .starve
  | read (name : String) {next next' : Float → Script σ α} :
      (∀ x, Alike places (next x) (next' x)) → Alike places (.read name next) (.read name next')
  | write (name : String) (x : Float) {next next' : Script σ α} :
      Alike places next next' → Alike places (.write name x next) (.write name x next')
  | call (name : String) (f : HostFunction σ) (xs : List Float) {next next' : Float → Script σ α} :
      (∀ x, Alike places (next x) (next' x)) →
      Alike places (.call name f xs next) (.call name f xs next')

theorem Alike.stop {o : Except EvalError α}
    (h : ∀ name expected found, o ≠ .error (.argumentCount name expected found)) :
    Alike places (.stop o : Script σ α) (.stop o) := by
  cases o with
  | ok a => exact .value a
  | error err => exact .error (.same fun name expected found heq => h name expected found (heq ▸ rfl))

theorem Alike.andThen {m m' : Script σ α} {f f' : α → Script σ β} (hm : m.Alike places m')
    (hf : ∀ a, (f a).Alike places (f' a)) : (m.andThen f).Alike places (m'.andThen f') := by
  induction hm with
  | value a => exact hf a
  | error herr => exact .error herr
  | starve => exact .starve
  | read name _ ih => exact .read name ih
  | write name x _ ih => exact .write name x ih
  | call name g xs _ ih => exact .call name g xs ih

theorem Alike.effects {m m' : Script σ α} (h : m.Alike places m') (s : State σ) :
    m'.effects s = m.effects s := by
  induction h generalizing s with
  | value a => rfl
  | error _ => rfl
  | starve => rfl
  | @read name next next' _ ih =>
    cases hx : s.get? name with
    | none => rw [effects_read_none next hx, effects_read_none next' hx]
    | some x =>
      rw [effects_read_some next hx, effects_read_some next' hx]
      exact ih x s
  | write name x _ ih => exact congrArg (List.cons _) (ih _)
  | call name f xs _ ih => exact congrArg (List.cons _) (ih _ _)

theorem Alike.perform {m m' : Script σ α} (h : m.Alike places m') (s : State σ) :
    SameReply places (m.perform s) (m'.perform s) := by
  induction h generalizing s with
  | value a => exact .value a s
  | error herr => exact .failed s herr
  | starve => exact .starved
  | @read name next next' _ ih =>
    cases hx : s.get? name with
    | none =>
      rw [perform_read_none next hx, perform_read_none next' hx]
      exact .failed s (.same nofun)
    | some x =>
      rw [perform_read_some next hx, perform_read_some next' hx]
      exact ih x s
  | write name x _ ih => exact ih _
  | call name f xs _ ih => exact ih _ _

/-! The rules, in the order of the scripts. -/

section Rules

variable {sc : Expr → Script σ Float}

theorem each_alike {es es' : List Expr}
    (h : List.Forall₂ (fun e e' => (sc e).Alike places (sc e')) es es') :
    (each sc es).Alike places (each sc es') := by
  induction h with
  | nil => exact .value []
  | cons he _ ih => exact he.andThen fun x => ih.andThen fun xs => .value (x :: xs)

theorem statements_alike {p p' : Program}
    (h : List.Forall₂ (fun e e' => (sc e).Alike places (sc e')) p p') :
    (statements sc p).Alike places (statements sc p') := by
  induction h with
  | nil => exact .error (.same nofun)
  | cons he hes ih =>
    cases hes with
    | nil => exact he
    | cons _ _ => exact he.andThen fun _ => ih

theorem rounds_alike {body body' : Script σ Float} (h : body.Alike places body')
    (counter : String) (n index : Nat) :
    (rounds counter body n index).Alike places (rounds counter body' n index) := by
  induction n generalizing index with
  | zero => exact .value ()
  | succ n ih => exact .write _ _ (h.andThen fun _ => ih (index + 1))

theorem loop_alike {condition condition' body body' : Script σ Float}
    (hcondition : condition.Alike places condition') (hbody : body.Alike places body')
    (most : Nat) : (loop condition body most).Alike places (loop condition' body' most) := by
  induction most with
  | zero => exact .starve
  | succ most ih =>
    refine hcondition.andThen fun x => ?_
    split
    · exact hbody.andThen fun _ => ih
    · exact .value _

end Rules

/-- Recased trees within the places have scripts that are alike. -/
def IgnoresCase (places : List (Expr × Expr)) (sc : Nat → Expr → Script σ Float) : Prop :=
  ∀ (depth : Nat) {e e' : Expr}, Recased e e' → e.places e' ⊆ places →
    (sc depth e).Alike places (sc depth e')

section Step

variable {functions : Registry σ} {sc : Nat → Expr → Script σ Float}

theorem IgnoresCase.arguments (h : IgnoresCase places sc) (depth : Nat) {es es' : List Expr}
    (hes : List.Forall₂ Recased es es') (hplaces : Program.places es es' ⊆ places) :
    List.Forall₂ (fun e e' => (sc depth e).Alike places (sc depth e')) es es' := by
  induction hes with
  | nil => exact .nil
  | cons he _ ih =>
    rw [places_cons he] at hplaces
    obtain ⟨hhead, htail⟩ := List.append_subset.mp hplaces
    exact .cons (h depth he hhead) (ih htail)

theorem apply_ne_argumentCount (f : MathFunction) (xs : List Float) (name : String)
    (expected : Arity) (found : Nat) : f.apply xs ≠ .error (.argumentCount name expected found) := by
  fun_cases MathFunction.apply f xs <;> simp [*]

theorem invoke_alike (h : IgnoresCase places sc) (most depth : Nat) {m n : String}
    {es es' : List Expr} (hname : m = n ∨ ¬IsHostName m ∧ foldCase m = foldCase n)
    (hes : List.Forall₂ Recased es es')
    (hplaces : (Expr.call m es).places (.call n es') ⊆ places) :
    (invoke functions sc most depth m es).Alike places
      (invoke functions sc most depth n es') := by
  have hfold : foldCase n = foldCase m := by
    rcases hname with rfl | ⟨-, h⟩
    · rfl
    · exact h.symm
  have hfind : Builtin.find? n = Builtin.find? m := by rw [Builtin.find?, hfold, Builtin.find?]
  have hhost : Builtin.find? m = none → m = n := fun hb =>
    hname.resolve_right fun hbuiltin => hbuiltin.1 (find?_eq_none_iff.mp hb)
  have hlen : es'.length = es.length := hes.length_eq.symm
  rw [places_call] at hplaces
  obtain ⟨hself, hbelow⟩ := List.cons_subset.mp hplaces
  have hparts := fun depth => h.arguments depth hes hbelow
  have heach := each_alike (hparts depth)
  cases Evaluation.callForm functions m es with
  | unknown hb hf =>
    obtain rfl := hhost hb
    rw [invoke_unknown hb hf, invoke_unknown hb hf]
    exact .error (.same fun _ _ _ => EvalError.noConfusion)
  | hostCount hb hf hne =>
    obtain rfl := hhost hb
    rw [invoke_hostCount hb hf hne, invoke_hostCount hb hf (hlen ▸ hne), hlen]
    exact .error (.count _ hself rfl rfl hlen)
  | host hb hf heq =>
    obtain rfl := hhost hb
    rw [invoke_host hb hf heq, invoke_host hb hf (hlen.trans heq)]
    exact heach.andThen fun xs => .call _ _ xs fun x => .value x
  | builtinCount hb ha =>
    rw [invoke_builtinCount hb ha, invoke_builtinCount (hfind.trans hb) (hlen ▸ ha), hlen]
    exact .error (.count _ hself hfold.symm rfl hlen)
  | math hb hf ha =>
    rw [invoke_math hb hf ha, invoke_math (hfind.trans hb) hf (hlen ▸ ha)]
    exact heach.andThen fun xs => .stop (apply_ne_argumentCount _ xs)
  | branch hm =>
    obtain ⟨c', yes', no', rfl⟩ := List.length_eq_three.mp hlen
    simp only [List.forall₂_cons] at hparts
    obtain ⟨hc, hyes, hno, -⟩ := hparts depth
    rw [invoke_if hm, invoke_if (hfold.trans hm)]
    refine hc.andThen fun x => ?_
    split
    · exact hyes
    · exact hno
  | count hm =>
    obtain ⟨c', body', rfl⟩ := List.length_eq_two.mp hlen
    simp only [List.forall₂_cons] at hparts
    rw [invoke_for hm, invoke_for (hfold.trans hm)]
    refine (hparts depth).1.andThen fun x => ?_
    exact (rounds_alike (hparts (depth + 1)).2.1 _ _ _).andThen fun _ => .value _
  | loop hm =>
    obtain ⟨c', body', rfl⟩ := List.length_eq_two.mp hlen
    simp only [List.forall₂_cons] at hparts
    obtain ⟨hc, hbody, -⟩ := hparts depth
    rw [invoke_while hm, invoke_while (hfold.trans hm)]
    exact loop_alike hc hbody most

theorem step_alike (h : IgnoresCase places sc) (most : Nat) :
    IgnoresCase places (step functions sc most) := by
  intro depth e e' he hplaces
  cases he with
  | num x => exact .value x
  | var name => exact .read name fun x => .value x
  | assign name he =>
    rw [places_assign] at hplaces
    exact (h depth he (List.cons_subset.mp hplaces).2).andThen fun x => .write name x (.value x)
  | binary op hleft hright =>
    rw [places_binary hleft] at hplaces
    obtain ⟨hl, hr⟩ := List.append_subset.mp (List.cons_subset.mp hplaces).2
    refine (h depth hleft hl).andThen fun x => (h depth hright hr).andThen fun y => .stop ?_
    intro name expected found herr
    cases (Operator.apply_error herr).2
  | call hname hes => exact invoke_alike h most depth hname hes hplaces
  | quote hp =>
    rw [places_quote] at hplaces
    exact statements_alike (h.arguments depth hp (List.cons_subset.mp hplaces).2)

end Step

theorem script_ignoresCase (functions : Registry σ) (fuel : Nat) (places : List (Expr × Expr)) :
    IgnoresCase places (Expr.script functions fuel) := by
  induction fuel with
  | zero => exact fun _ _ _ _ _ => .starve
  | succ fuel ih => exact step_alike ih fuel

end Script

/-! ## Runs -/

namespace Evaluation

theorem sameHosts_eval {functions functions' : Registry σ} (h : SameHosts functions functions')
    (fuel : Nat) (p : Program) (s : State σ) :
    evalStatements (eval functions' fuel) p s = evalStatements (eval functions fuel) p s := by
  rw [statements_eq_perform, statements_eq_perform, Program.script, Program.script,
    Script.script_sameHosts h]

theorem sameHosts_effects {functions functions' : Registry σ} (h : SameHosts functions functions')
    (fuel : Nat) (p : Program) (s : State σ) :
    effects functions' fuel p s = effects functions fuel p s := by
  rw [effects, effects, Program.script, Program.script, Script.script_sameHosts h]

/-- The name of a call among the effects is a host name. -/
theorem isHostName_of_mem_effects {functions : Registry σ} {fuel : Nat} {p : Program} {s : State σ}
    {name : String} {xs : List Float} (h : .call name xs ∈ effects functions fuel p s) :
    IsHostName name := by
  obtain ⟨before, after, hsplit⟩ := List.append_of_mem h
  obtain ⟨es, f, earlier, fuel', depth, -, hname, -⟩ :=
    (program_declares functions fuel s.depth p).declared hsplit
  intro b hb
  rw [Builtin.foldCase_name hb]
  exact hname b hb

theorem program_alike (functions : Registry σ) (fuel depth : Nat) {p p' : Program}
    (h : List.Forall₂ Recased p p') :
    (p.script functions fuel depth).Alike (p.places p') (p'.script functions fuel depth) :=
  Script.statements_alike
    ((Script.script_ignoresCase functions fuel _).arguments depth h (List.Subset.refl _))

/-- Calls the function that the registry has under the name, if it has one. -/
def evalRegistered (functions : Registry σ) (ev : Evaluator σ) (name : String) (es : List Expr)
    (s : State σ) : Reply σ Float :=
  match functions.get? name with
  | none => some (.error (.unknownFunction name), s)
  | some f =>
    if es.length = f.arity then andThen (evalEach ev es s) fun xs s => callHost name f xs s
    else some (.error (.argumentCount name (.exactly f.arity) es.length), s)

theorem evalCall_of_isHostName {name : String} (h : IsHostName name) (functions : Registry σ)
    (ev : Evaluator σ) (rounds : Nat) (es : List Expr) (s : State σ) :
    evalCall functions ev rounds name es s = evalRegistered functions ev name es s := by
  have hb := find?_eq_none_iff.mpr h
  cases hf : functions.get? name with
  | none =>
    rw [evalCall_unknown hb hf]
    simp only [evalRegistered, hf]
  | some f =>
    by_cases hlen : es.length = f.arity
    · rw [evalCall_host hb hf hlen]
      simp only [evalRegistered, hf, if_pos hlen]
    · rw [evalCall_hostCount hb hf hlen]
      simp only [evalRegistered, hf, if_neg hlen]

/-- Builtins win, in any case. Runs with registries that agree on the host names are the same, so a
function that is registered under the name of a builtin is not called and changes nothing. Another
case in the names of builtins changes nothing but the name in an error about the number of
arguments. Calls of host names, as are all names with a character outside ASCII, go to the
registry. -/
theorem builtin_names_win (functions : Registry σ) (fuel : Nat) (p : Program) (s : State σ) :
    (∀ functions', SameHosts functions functions' →
      evalStatements (eval functions' fuel) p s = evalStatements (eval functions fuel) p s ∧
      effects functions' fuel p s = effects functions fuel p s) ∧
    (∀ name, ¬IsHostName name →
      (∀ f, evalStatements (eval (functions.insert name f) fuel) p s =
        evalStatements (eval functions fuel) p s) ∧
      ∀ xs, .call name xs ∉ effects functions fuel p s) ∧
    (∀ p', List.Forall₂ Recased p p' →
      SameReply (p.places p') (evalStatements (eval functions fuel) p s)
        (evalStatements (eval functions fuel) p' s) ∧
      effects functions fuel p' s = effects functions fuel p s) ∧
    (∀ name, IsHostName name → ∀ es t, eval functions (fuel + 1) (.call name es) t =
      evalRegistered functions (eval functions fuel) name es t) ∧
    ∀ name c, c ∈ name.toList → 128 ≤ c.toNat → IsHostName name := by
  refine ⟨fun functions' h => ⟨sameHosts_eval h fuel p s, sameHosts_effects h fuel p s⟩, ?_, ?_,
    fun name h es t => evalCall_of_isHostName h functions _ fuel es t,
    fun name c hc h => isHostName_of_not_ascii hc h⟩
  · intro name h
    refine ⟨fun f => sameHosts_eval (sameHosts_insert functions h f) fuel p s, fun xs hcall => ?_⟩
    exact h (isHostName_of_mem_effects hcall)
  · intro p' h
    have halike := program_alike functions fuel s.depth h
    rw [statements_eq_perform, statements_eq_perform]
    exact ⟨halike.perform s, halike.effects s⟩

/-- A function registered as a builtin, a builtin in another case inside a quote, and a look-alike
of a builtin. -/
theorem builtin_names_win_round :
    evalStatements (eval (ticks.insert "iF" ⟨3, fun n xs => (xs.headD 0.0, n + 1)⟩) 4)
        [.call "If" [.num 1.0, .quote [.call "Round" []], .num 0.0]] (.start ∅ 0) =
      some (.error (.argumentCount "Round" (.between 1 2) 0), .start ∅ 0) ∧
    SameReply
      (Program.places [.call "If" [.num 1.0, .quote [.call "Round" []], .num 0.0]]
        [.call "IF" [.num 1.0, .quote [.call "ROUND" []], .num 0.0]])
      (some (.error (.argumentCount "Round" (.between 1 2) 0), .start ∅ 0))
      (evalStatements (eval ticks 4)
        [.call "IF" [.num 1.0, .quote [.call "ROUND" []], .num 0.0]] (.start ∅ 0)) ∧
    eval ticks 5 (.call "ſin" [.num 1.0]) (.start ∅ 0) =
      evalRegistered ticks (eval ticks 4) "ſin" [.num 1.0] (.start ∅ 0) := by
  obtain ⟨-, hshadow, hcase, hhost, hforeign⟩ := builtin_names_win ticks 4
    [.call "If" [.num 1.0, .quote [.call "Round" []], .num 0.0]] (.start ∅ 0)
  refine ⟨((hshadow "iF" (by decide +kernel)).1 _).trans rfl, (hcase _ ?_).1,
    hhost "ſin" (hforeign "ſin" 'ſ' (by decide +kernel) (by decide)) _ _⟩
  have hround : Recased (.call "Round" []) (.call "ROUND" []) :=
    .call (.inr ⟨by decide +kernel, by decide +kernel⟩) .nil
  exact .cons (.call (.inr ⟨by decide +kernel, by decide +kernel⟩)
    (.cons (.num 1.0) (.cons (.quote (.cons hround .nil)) (.cons (.num 0.0) .nil)))) .nil

end Evaluation
end FormulaLang

import FormulaLang.Proofs.Nodes
import FormulaLang.Proofs.Script

/-!
# FormulaLang.Proofs.Footprint

What the script of a tree can ask for, read off the tree. A footprint bounds the reads and the
writes of a script and the errors it stops with by itself; `Script.Within` holds of a script that
keeps to one whatever it is answered.

* `MayWrite`: the names a tree can write: those it assigns to, and the counters of its loops,
  which are numbered from the depth at which the tree is evaluated.
* `Blames`: what an error says about the tree.
* `script_confined`: the script of an expression keeps to the footprint of its nodes and loops.
-/

namespace FormulaLang

/-! ## Loops -/

mutual

/-- How deep the counted loops of a tree are: one for a loop that is inside no other. The number
of rounds is evaluated outside the loop, the body inside. -/
def Expr.levels : Expr → List Nat
  | .num _ => []
  | .var _ => []
  | .assign _ value => value.levels
  | .binary _ left right => left.levels ++ right.levels
  | .call name [count, body] =>
    if foldCase name = "for" then 1 :: (count.levels ++ body.levels.map (1 + ·))
    else count.levels ++ body.levels
  | .call _ es => Expr.levelsOf es
  | .quote p => Expr.levelsOf p

def Expr.levelsOf : List Expr → List Nat
  | [] => []
  | e :: es => e.levels ++ Expr.levelsOf es

end

def Program.levels (p : Program) : List Nat := Expr.levelsOf p

/-- The names that a tree with these nodes and loops can write where `depth` loops are running. -/
def MayWrite (nodes : List Expr) (levels : List Nat) (depth : Nat) (name : String) : Prop :=
  (∃ value, .assign name value ∈ nodes) ∨ ∃ k ∈ levels, name = counterName (depth + k)

namespace Expr

theorem levels_for {name : String} {count body : Expr} (h : foldCase name = "for") :
    (call name [count, body]).levels = 1 :: (count.levels ++ body.levels.map (1 + ·)) := by
  rw [levels, if_pos h]

/-- The loop in the number of rounds is outside, the one in the body inside. -/
example : (call "for" [call "for" [num 2.0, var "x"], call "FOR" [num 3.0, var "y"]]).levels =
    [1, 1, 2] := by
  decide +kernel

theorem levels_call {name : String} {es : List Expr} (h : foldCase name ≠ "for" ∨ es.length ≠ 2) :
    (call name es).levels = levelsOf es := by
  match es with
  | [] => rfl
  | [_] => rfl
  | [count, body] =>
    rw [levels, if_neg (by simpa using h), levelsOf, levelsOf, levelsOf, List.append_nil]
  | _ :: _ :: _ :: _ => rfl

theorem nodes_subset_of_mem {e : Expr} {es : List Expr} (h : e ∈ es) : e.nodes ⊆ nodesOf es := by
  induction es with
  | nil => cases h
  | cons e' es ih =>
    rcases List.mem_cons.mp h with rfl | h
    · exact List.subset_append_left _ _
    · exact List.subset_append_of_subset_right _ (ih h)

theorem levels_subset_of_mem {e : Expr} {es : List Expr} (h : e ∈ es) :
    e.levels ⊆ levelsOf es := by
  induction es with
  | nil => cases h
  | cons e' es ih =>
    rcases List.mem_cons.mp h with rfl | h
    · exact List.subset_append_left _ _
    · exact List.subset_append_of_subset_right _ (ih h)

theorem mem_nodes_self (e : Expr) : e ∈ e.nodes := by
  cases e <;> simp [nodes]

/-- The nodes of a quote are the quote and those of its program. -/
theorem mem_nodes_of_quote {p : Program} {e : Expr} (h : e ∈ (quote p).nodes)
    (he : e.isQuote = false) : e ∈ p.nodes := by
  rcases List.mem_cons.mp h with rfl | h
  · cases he
  · exact h

end Expr

/-! ## Errors -/

/-- The numbers of arguments of the function of a name: of a builtin in any case, else of a
registered function. -/
def arityOf {σ : Type} (functions : Registry σ) (name : String) : Option Arity :=
  match Builtin.find? name with
  | some b => some b.arity
  | none => (functions.get? name).map fun f => .exactly f.arity

/-- What an error tells of the nodes of the tree that is evaluated. The variables that errors may
call undefined are `unbound`. -/
def Blames {σ : Type} (functions : Registry σ) (nodes : List Expr) (unbound : String → Prop) :
    EvalError → Prop
  | .undefinedVariable name => .var name ∈ nodes ∧ unbound name
  | .unknownFunction name =>
    (∃ es, .call name es ∈ nodes) ∧ Builtin.isBuiltin name = false ∧ functions.get? name = none
  | .argumentCount name expected found =>
    (∃ es, .call name es ∈ nodes ∧ es.length = found) ∧ arityOf functions name = some expected ∧
      expected.accepts found = false
  | .divisionByZero op => (op = .div ∨ op = .rem) ∧ ∃ left right, .binary op left right ∈ nodes
  | .digitCount _ => ∃ name x digits, .call name [x, digits] ∈ nodes ∧ foldCase name = "round"
  | .emptyProgram => .quote [] ∈ nodes
  | .missingArgument => False

theorem Blames.mono {σ : Type} {functions : Registry σ} {nodes nodes' : List Expr}
    {unbound unbound' : String → Prop} {err : EvalError} (h : Blames functions nodes unbound err)
    (hnodes : nodes ⊆ nodes') (hunbound : ∀ name, unbound name → unbound' name) :
    Blames functions nodes' unbound' err := by
  cases err with
  | undefinedVariable name => exact ⟨hnodes h.1, hunbound name h.2⟩
  | unknownFunction name =>
    obtain ⟨⟨es, hes⟩, hname⟩ := h
    exact ⟨⟨es, hnodes hes⟩, hname⟩
  | argumentCount name expected found =>
    obtain ⟨⟨es, hes, hlen⟩, hname⟩ := h
    exact ⟨⟨es, hnodes hes, hlen⟩, hname⟩
  | divisionByZero op =>
    obtain ⟨hop, left, right, hmem⟩ := h
    exact ⟨hop, left, right, hnodes hmem⟩
  | digitCount digits =>
    obtain ⟨name, x, digits, hmem, hname⟩ := h
    exact ⟨name, x, digits, hnodes hmem, hname⟩
  | emptyProgram => exact hnodes h
  | missingArgument => exact h

theorem Operator.apply_error {op : Operator} {x y : Float} {err : EvalError}
    (h : op.apply x y = .error err) : (op = .div ∨ op = .rem) ∧ err = .divisionByZero op := by
  cases op with
  | div =>
    rw [apply] at h
    split at h
    · cases h; exact ⟨.inl rfl, rfl⟩
    · cases h
  | rem =>
    rw [apply] at h
    split at h
    · cases h; exact ⟨.inr rfl, rfl⟩
    · cases h
  | _ => cases h

/-- The number of arguments that a mathematical function always reads. -/
def MathFunction.needs : MathFunction → Nat
  | .max | .min | .pow => 2
  | _ => 1

/-- With the arguments that it needs, only `round` fails, and only for its digits. -/
theorem MathFunction.apply_error {f : MathFunction} {xs : List Float} {err : EvalError}
    (hlen : f.needs ≤ xs.length) (h : f.apply xs = .error err) :
    f = .round ∧ 2 ≤ xs.length ∧ ∃ digits, err = .digitCount digits := by
  match xs with
  | [] => cases f <;> cases hlen
  | [x] =>
    cases f with
    | max | min | pow => simp [needs] at hlen
    | _ => cases h
  | x :: y :: rest =>
    cases f with
    | round =>
      refine ⟨rfl, by simp, y, ?_⟩
      rw [apply] at h
      split at h
      · cases h
      · cases h
        rfl
    | log => cases rest <;> cases h
    | _ => cases h

/-- The number of arguments that the rule of a builtin function always reads. -/
def Rule.needs : Rule → Nat
  | .math f => f.needs
  | .control .branch => 3
  | .control _ => 2

def Arity.least : Arity → Nat
  | exactly count => count
  | between least _ => least

def Arity.most : Arity → Nat
  | exactly count => count
  | between _ most => most

theorem Arity.bounds_of_accepts {a : Arity} {n : Nat} (h : a.accepts n = true) :
    a.least ≤ n ∧ n ≤ a.most := by
  cases a with
  | exactly count =>
    have hn : n = count := by simpa [accepts] using h
    exact ⟨hn.ge, hn.le⟩
  | between low high => simpa [accepts, least, most] using h

theorem needs_le_least : ∀ b ∈ Builtin.table, b.rule.needs ≤ b.arity.least := by
  decide +kernel

theorem round_of_rule :
    ∀ b ∈ Builtin.table, b.rule = .math .round → b.name = "round" ∧ b.arity.most = 2 := by
  decide +kernel

/-- An accepted call of a mathematical function fails only if it is `round` of two arguments. -/
theorem apply_error_of_accepts {b : Builtin} {f : MathFunction} {xs : List Float}
    {err : EvalError} (hb : b ∈ Builtin.table) (hf : b.rule = .math f)
    (ha : b.arity.accepts xs.length = true) (h : f.apply xs = .error err) :
    b.name = "round" ∧ xs.length = 2 ∧ ∃ digits, err = .digitCount digits := by
  obtain ⟨hleast, hmost⟩ := Arity.bounds_of_accepts ha
  have hneeds := needs_le_least b hb
  rw [hf] at hneeds
  obtain ⟨rfl, htwo, herr⟩ := MathFunction.apply_error (le_trans hneeds hleast) h
  obtain ⟨hname, hround⟩ := round_of_rule b hb hf
  exact ⟨hname, by omega, herr⟩

/-! ## Scripts within a footprint -/

structure Footprint where
  reads : String → Prop
  writes : String → Prop
  errors : EvalError → Prop

/-- The second footprint has room for the first. -/
structure Footprint.Le (F G : Footprint) : Prop where
  reads : ∀ name, F.reads name → G.reads name
  writes : ∀ name, F.writes name → G.writes name
  errors : ∀ err, F.errors err → G.errors err

namespace Script

variable {σ α β : Type} {F G : Footprint}

/-- The script keeps to the footprint, and its values are as `post` says. -/
def Within (F : Footprint) (post : α → Prop) : Script σ α → Prop
  | .stop (.ok a) => post a
  | .stop (.error err) => F.errors err
  | .starve => True
  | .read name next => F.reads name ∧ ∀ x, (next x).Within F post
  | .write name _ next => F.writes name ∧ next.Within F post
  | .call _ _ _ next => ∀ x, (next x).Within F post

theorem Within.mono {m : Script σ α} {post : α → Prop} (hm : m.Within F post) (h : F.Le G) :
    m.Within G post := by
  induction m with
  | stop o =>
    cases o with
    | ok a => exact hm
    | error err => exact h.errors err hm
  | starve => trivial
  | read name next ih => exact ⟨h.reads name hm.1, fun x => ih x (hm.2 x)⟩
  | write name x next ih => exact ⟨h.writes name hm.1, ih hm.2⟩
  | call name f xs next ih => exact fun x => ih x (hm x)

theorem Within.andThen {m : Script σ α} {f : α → Script σ β} {P : α → Prop} {Q : β → Prop}
    (hm : m.Within F P) (hf : ∀ a, P a → (f a).Within F Q) : (m.andThen f).Within F Q := by
  induction m with
  | stop o =>
    cases o with
    | ok a => exact hf a hm
    | error err => exact hm
  | starve => trivial
  | read name next ih => exact ⟨hm.1, fun x => ih x (hm.2 x)⟩
  | write name x next ih => exact ⟨hm.1, ih hm.2⟩
  | call name g xs next ih => exact fun x => ih x (hm x)

/-- Nothing is said about the values. -/
abbrev Keeps (F : Footprint) (m : Script σ α) : Prop := m.Within F fun _ => True

theorem each_within {sc : Expr → Script σ Float} {es : List Expr}
    (h : ∀ e ∈ es, (sc e).Keeps F) : (each sc es).Within F fun xs => xs.length = es.length := by
  induction es with
  | nil => exact rfl
  | cons e es ih =>
    obtain ⟨he, hes⟩ := List.forall_mem_cons.mp h
    refine he.andThen fun x _ => (ih hes).andThen fun xs hxs => ?_
    exact congrArg (· + 1) hxs

theorem statements_keeps {sc : Expr → Script σ Float} {p : Program}
    (hempty : p = [] → F.errors .emptyProgram) (h : ∀ e ∈ p, (sc e).Keeps F) :
    (statements sc p).Keeps F := by
  match p with
  | [] => exact hempty rfl
  | [e] => exact h e (List.mem_singleton_self e)
  | e :: f :: es =>
    obtain ⟨he, hes⟩ := List.forall_mem_cons.mp h
    exact he.andThen fun _ _ => statements_keeps nofun hes

theorem rounds_keeps {counter : String} {body : Script σ Float} (hcounter : F.writes counter)
    (hbody : body.Keeps F) (n index : Nat) : (rounds counter body n index).Keeps F := by
  induction n generalizing index with
  | zero => trivial
  | succ n ih => exact ⟨hcounter, hbody.andThen fun _ _ => ih (index + 1)⟩

theorem loop_keeps {condition body : Script σ Float} (hcondition : condition.Keeps F)
    (hbody : body.Keeps F) (most : Nat) : (loop condition body most).Keeps F := by
  induction most with
  | zero => trivial
  | succ most ih =>
    refine hcondition.andThen fun x _ => ?_
    split
    · exact hbody.andThen fun _ _ => ih
    · trivial

end Script

/-! ## The footprint of a tree -/

section Tree

variable {σ : Type} {functions : Registry σ}

/-- The footprint of a tree with these nodes and loops. Undefined variables are no errors of the
tree itself: they are reads at which the evaluation ends. -/
def footprint (functions : Registry σ) (nodes : List Expr) (levels : List Nat) (depth : Nat) :
    Footprint where
  reads name := .var name ∈ nodes
  writes := MayWrite nodes levels depth
  errors := Blames functions nodes fun _ => False

theorem footprint_le {nodes nodes' : List Expr} {levels levels' : List Nat} {depth depth' : Nat}
    (hnodes : nodes ⊆ nodes') (hlevels : ∀ k ∈ levels, ∃ k' ∈ levels', depth + k = depth' + k') :
    (footprint functions nodes levels depth).Le (footprint functions nodes' levels' depth') where
  reads _ h := hnodes h
  writes name h := by
    obtain ⟨value, hmem⟩ | ⟨k, hk, rfl⟩ := h
    · exact .inl ⟨value, hnodes hmem⟩
    · obtain ⟨k', hk', heq⟩ := hlevels k hk
      exact .inr ⟨k', hk', by rw [heq]⟩
  errors _ h := h.mono hnodes fun _ => id

/-- The scripts of all expressions keep to the footprints of these. -/
def Confined (functions : Registry σ) (sc : Nat → Expr → Script σ Float) : Prop :=
  ∀ depth e, (sc depth e).Keeps (footprint functions e.nodes e.levels depth)

variable {sc : Nat → Expr → Script σ Float}

theorem Confined.part (h : Confined functions sc) {e part : Expr} {depth : Nat}
    (hnodes : part.nodes ⊆ e.nodes) (hlevels : part.levels ⊆ e.levels) :
    (sc depth part).Keeps (footprint functions e.nodes e.levels depth) :=
  (h depth part).mono (footprint_le hnodes fun k hk => ⟨k, hlevels hk, rfl⟩)

theorem Confined.arguments (h : Confined functions sc) (depth : Nat) (name : String)
    (es : List Expr) (hname : foldCase name ≠ "for" ∨ es.length ≠ 2) :
    ∀ e ∈ es, (sc depth e).Keeps
      (footprint functions (Expr.call name es).nodes (Expr.call name es).levels depth) := by
  intro e he
  apply h.part
  · exact List.subset_cons_of_subset _ (Expr.nodes_subset_of_mem he)
  · rw [Expr.levels_call hname]
    exact Expr.levels_subset_of_mem he

theorem Confined.count (h : Confined functions sc) (depth : Nat) {name : String} {c body : Expr}
    (hname : foldCase name = "for") : (sc depth c).Keeps (footprint functions
      (Expr.call name [c, body]).nodes (Expr.call name [c, body]).levels depth) := by
  apply h.part
  · exact List.subset_cons_of_subset _ (Expr.nodes_subset_of_mem (by simp))
  · rw [Expr.levels_for hname]
    exact List.subset_cons_of_subset _ (List.subset_append_left _ _)

/-- A loop in the body is one level deeper than in the body alone, and one loop more is running
around the body. -/
theorem Confined.body (h : Confined functions sc) (depth : Nat) {name : String} {c body : Expr}
    (hname : foldCase name = "for") : (sc (depth + 1) body).Keeps (footprint functions
      (Expr.call name [c, body]).nodes (Expr.call name [c, body]).levels depth) := by
  refine (h (depth + 1) body).mono (footprint_le ?_ fun k hk => ⟨1 + k, ?_, by omega⟩)
  · exact List.subset_cons_of_subset _ (Expr.nodes_subset_of_mem (by simp))
  · rw [Expr.levels_for hname]
    exact List.mem_cons_of_mem _ (List.mem_append_right _ (List.mem_map_of_mem hk))

theorem foldCase_ne_for_of_find? {name : String} (hb : Builtin.find? name = none) :
    foldCase name ≠ "for" := by
  intro h
  rw [Evaluation.find?_for h] at hb
  cases hb

theorem foldCase_ne_for_of_math {name : String} {b : Builtin} {f : MathFunction}
    (hb : Builtin.find? name = some b) (hf : b.rule = .math f) : foldCase name ≠ "for" := by
  intro h
  rw [Evaluation.find?_for h] at hb
  cases hb
  cases hf

namespace Script

theorem invoke_keeps (h : Confined functions sc) (most depth : Nat) (name : String)
    (es : List Expr) : (invoke functions sc most depth name es).Keeps
      (footprint functions (Expr.call name es).nodes (Expr.call name es).levels depth) := by
  have hself := Expr.mem_nodes_self (.call name es)
  cases Evaluation.callForm functions name es with
  | unknown hb hf =>
    rw [invoke_unknown hb hf]
    exact ⟨⟨es, hself⟩, by rw [Builtin.isBuiltin, hb]; rfl, hf⟩
  | hostCount hb hf hlen =>
    rw [invoke_hostCount hb hf hlen]
    exact ⟨⟨es, hself, rfl⟩, by simp only [arityOf, hb, hf, Option.map_some],
      by simp [Arity.accepts, hlen]⟩
  | host hb hf hlen =>
    rw [invoke_host hb hf hlen]
    have heach := each_within (h.arguments depth name es (.inl (foldCase_ne_for_of_find? hb)))
    exact heach.andThen fun xs _ x => trivial
  | builtinCount hb ha =>
    rw [invoke_builtinCount hb ha]
    exact ⟨⟨es, hself, rfl⟩, by simp only [arityOf, hb], ha⟩
  | @math _ b f hb hf ha =>
    rw [invoke_math hb hf ha]
    have heach := each_within (h.arguments depth name es (.inl (foldCase_ne_for_of_math hb hf)))
    refine heach.andThen fun xs hlen => ?_
    cases hout : f.apply xs with
    | ok x => trivial
    | error err =>
      obtain ⟨hmem, hname⟩ := Builtin.mem_table_of_find? hb
      obtain ⟨hround, htwo, digits, rfl⟩ := apply_error_of_accepts hmem hf (hlen ▸ ha) hout
      obtain ⟨x, y, rfl⟩ := List.length_eq_two.mp (hlen.symm.trans htwo)
      exact ⟨name, x, y, hself, hname ▸ hround⟩
  | @branch c yes no hname =>
    rw [invoke_if hname]
    have harg := h.arguments depth name [c, yes, no] (.inr (by simp))
    refine (harg c (by simp)).andThen fun x _ => ?_
    split
    · exact harg yes (by simp)
    · exact harg no (by simp)
  | @count c body hname =>
    rw [invoke_for hname]
    have hcounter : MayWrite (Expr.call name [c, body]).nodes (Expr.call name [c, body]).levels
        depth (counterName (depth + 1)) := .inr ⟨1, by rw [Expr.levels_for hname]; simp, rfl⟩
    refine (h.count depth hname).andThen fun x _ => ?_
    exact (rounds_keeps hcounter (h.body depth hname) _ _).andThen fun _ _ => trivial
  | @loop c body hname =>
    rw [invoke_while hname]
    have harg := h.arguments depth name [c, body] (.inl (by simp [hname]))
    exact loop_keeps (harg c (by simp)) (harg body (by simp)) most

theorem step_keeps (h : Confined functions sc) (most depth : Nat) (e : Expr) :
    (step functions sc most depth e).Keeps (footprint functions e.nodes e.levels depth) := by
  cases e with
  | num x => trivial
  | var name => exact ⟨Expr.mem_nodes_self _, fun x => trivial⟩
  | assign name e =>
    have he : (sc depth e).Keeps _ := h.part (e := .assign name e)
      (List.subset_cons_self _ _) (List.Subset.refl _)
    exact he.andThen fun x _ => ⟨.inl ⟨e, Expr.mem_nodes_self _⟩, trivial⟩
  | binary op left right =>
    have hleft : (sc depth left).Keeps _ := h.part (e := .binary op left right)
      (List.subset_cons_of_subset _ (List.subset_append_left _ _)) (List.subset_append_left _ _)
    have hright : (sc depth right).Keeps _ := h.part (e := .binary op left right)
      (List.subset_cons_of_subset _ (List.subset_append_right _ _)) (List.subset_append_right _ _)
    refine hleft.andThen fun x _ => hright.andThen fun y _ => ?_
    cases hout : op.apply x y with
    | ok z => trivial
    | error err =>
      obtain ⟨hop, rfl⟩ := op.apply_error hout
      exact ⟨hop, left, right, Expr.mem_nodes_self _⟩
  | call name es => exact invoke_keeps h most depth name es
  | quote p =>
    refine statements_keeps (fun hp => hp ▸ Expr.mem_nodes_self _) fun e he => ?_
    exact h.part (List.subset_cons_of_subset _ (Expr.nodes_subset_of_mem he))
      (Expr.levels_subset_of_mem he)

end Script

/-- The script of an expression keeps to the footprint of its nodes and loops. -/
theorem script_confined (functions : Registry σ) (fuel : Nat) :
    Confined functions (Expr.script functions fuel) := by
  induction fuel with
  | zero => intro depth e; trivial
  | succ fuel ih => intro depth e; exact Script.step_keeps ih fuel depth e

end Tree
end FormulaLang

import FormulaLang.Proofs.Footprint

/-!
# FormulaLang.Proofs.Locality

Which variables a run touches. A run that keeps to a footprint binds no fewer variables than
before and leaves all others than those it may write as they are. Its effects, which are its writes
and its calls of host functions in order, and its outcome depend on the variables it may read and
on no others.

* `run_writes_only`: a run writes the names that its tree assigns to and the counters of its
  loops.
* `run_eq_of_agree`: runs of one program from states that agree on the variables it mentions have
  the same outcome and the same effects.
-/

namespace FormulaLang

/-- What a run does to the state: it writes a variable or calls a host function. -/
inductive Effect where
  | write (name : String) (value : Float)
  | call (name : String) (arguments : List Float)

namespace Effect

def call? : Effect → Option HostCall
  | .write _ _ => none
  | .call name xs => some ⟨name, xs⟩

def log (es : List Effect) : List HostCall := (es.filterMap call?).reverse

def last (name : String) : List Effect → Option Float
  | [] => none
  | .write n x :: es => (last name es).or (if n = name then some x else none)
  | .call _ _ :: es => last name es

theorem mem_of_last_eq_some {name : String} {x : Float} {es : List Effect}
    (h : last name es = some x) : .write name x ∈ es := by
  induction es with
  | nil => cases h
  | cons e es ih =>
    cases e with
    | write n y =>
      rw [last] at h
      cases hlast : last name es with
      | some z =>
        rw [hlast, Option.some_or] at h
        exact List.mem_cons_of_mem _ (ih (hlast.trans h))
      | none =>
        rw [hlast, Option.none_or] at h
        split at h
        · rename_i hn
          cases h
          rw [hn]
          exact List.mem_cons_self
        · cases h
    | call n xs => exact List.mem_cons_of_mem _ (ih h)

theorem not_mem_of_last_eq_none {name : String} {es : List Effect} (h : last name es = none)
    (x : Float) : .write name x ∉ es := by
  induction es with
  | nil => exact List.not_mem_nil
  | cons e es ih =>
    intro hmem
    cases e with
    | write n y =>
      rw [last] at h
      obtain ⟨hes, hn⟩ := Option.or_eq_none_iff.mp h
      rcases List.mem_cons.mp hmem with heq | hmem
      · cases heq
        simp at hn
      · exact ih hes hmem
    | call n xs =>
      rcases List.mem_cons.mp hmem with heq | hmem
      · cases heq
      · exact ih h hmem

end Effect

namespace State

variable {σ : Type}

theorem get?_set (s : State σ) (name : String) (x : Float) (m : String) :
    (s.set name x).get? m = if m = name then some x else s.get? m :=
  s.variables.get?_insert name x m

/-- No binding is removed, and other names than those of `W` are bound as before. -/
structure OnlyWrites (W : String → Prop) (s t : State σ) : Prop where
  bound : ∀ name, s.get? name ≠ none → t.get? name ≠ none
  same : ∀ name, ¬W name → t.get? name = s.get? name

namespace OnlyWrites

variable {W : String → Prop} {s t : State σ}

theorem refl (W : String → Prop) (s : State σ) : OnlyWrites W s s := ⟨fun _ => id, fun _ _ => rfl⟩

/-- A write of a name of `W` in front. -/
theorem of_set {name : String} {x : Float} (hname : W name)
    (h : OnlyWrites W (s.set name x) t) : OnlyWrites W s t where
  bound m hm := by
    apply h.bound m
    rw [get?_set]
    split
    · exact Option.some_ne_none x
    · exact hm
  same m hm := by
    have hne : m ≠ name := fun heq => hm (heq ▸ hname)
    rw [h.same m hm, get?_set, if_neg hne]

end OnlyWrites

/-- The states differ at most in the variables, and not in those of the names. -/
structure Agree (names : String → Prop) (s₁ s₂ : State σ) : Prop where
  depth : s₁.depth = s₂.depth
  host : s₁.host = s₂.host
  reads : ∀ name, names name → s₁.get? name = s₂.get? name

theorem Agree.set {names : String → Prop} {s₁ s₂ : State σ} (h : Agree names s₁ s₂)
    (name : String) (x : Float) : Agree names (s₁.set name x) (s₂.set name x) where
  depth := h.depth
  host := h.host
  reads m hm := by rw [get?_set, get?_set, h.reads m hm]

theorem Agree.noted {names : String → Prop} {s₁ s₂ : State σ} (h : Agree names s₁ s₂)
    (name : String) (xs : List Float) (host : σ) :
    Agree names (BigStep.noted s₁ name xs host) (BigStep.noted s₂ name xs host) :=
  ⟨h.depth, rfl, h.reads⟩

end State

namespace Script

open BigStep (noted)
open State (OnlyWrites Agree)

variable {σ α : Type} {F : Footprint} {post : α → Prop}

theorem perform_writes_only {m : Script σ α} (hm : m.Within F post) {s t : State σ}
    {o : Except EvalError α} (h : m.perform s = some (o, t)) : OnlyWrites F.writes s t := by
  induction m generalizing s with
  | stop o' =>
    cases h
    exact .refl _ _
  | starve => cases h
  | read name next ih =>
    cases hx : s.get? name with
    | none =>
      rw [perform_read_none next hx] at h
      cases h
      exact .refl _ _
    | some x =>
      rw [perform_read_some next hx] at h
      exact ih x (hm.2 x) h
  | write name x next ih => exact .of_set hm.1 (ih hm.2 h)
  | call name f xs next ih =>
    have hrest := ih _ (hm _) h
    exact ⟨hrest.bound, hrest.same⟩

/-! ## Effects -/

def effects : Script σ α → State σ → List Effect
  | .stop _, _ => []
  | .starve, _ => []
  | .read name next, s =>
    match s.get? name with
    | some x => (next x).effects s
    | none => []
  | .write name x next, s => .write name x :: next.effects (s.set name x)
  | .call name f xs next, s =>
    .call name xs :: (next (f.call s.host xs).1).effects (noted s name xs (f.call s.host xs).2)

theorem effects_read_some {name : String} {x : Float} {s : State σ} (next : Float → Script σ α)
    (h : s.get? name = some x) : (Script.read name next).effects s = (next x).effects s := by
  simp only [effects, h]

theorem effects_read_none {name : String} {s : State σ} (next : Float → Script σ α)
    (h : s.get? name = none) : (Script.read name next).effects s = [] := by
  simp only [effects, h]

/-- The effects are all that a performance does to the variables and to the log. -/
theorem perform_effects {m : Script σ α} {s t : State σ} {o : Except EvalError α}
    (h : m.perform s = some (o, t)) :
    t.calls = Effect.log (m.effects s) ++ s.calls ∧
      ∀ name, t.get? name = (Effect.last name (m.effects s)).or (s.get? name) := by
  induction m generalizing s with
  | stop o' =>
    cases h
    exact ⟨rfl, fun _ => rfl⟩
  | starve => cases h
  | read name next ih =>
    cases hx : s.get? name with
    | none =>
      rw [perform_read_none next hx] at h
      rw [effects_read_none next hx]
      cases h
      exact ⟨rfl, fun _ => rfl⟩
    | some x =>
      rw [perform_read_some next hx] at h
      rw [effects_read_some next hx]
      exact ih x h
  | write name x next ih =>
    obtain ⟨hcalls, hget⟩ := ih h
    refine ⟨hcalls, fun n => ?_⟩
    rw [hget n, effects, Effect.last, State.get?_set, Option.or_assoc]
    congr 1
    by_cases hn : n = name
    · rw [if_pos hn, if_pos hn.symm, Option.some_or]
    · rw [if_neg hn, if_neg (Ne.symm hn), Option.none_or]
  | call name f xs next ih =>
    obtain ⟨hcalls, hget⟩ := ih _ h
    refine ⟨?_, hget⟩
    rw [hcalls]
    simp [effects, Effect.log, Effect.call?, noted]

/-- A script that keeps to a footprint does the same, and has the same outcome, wherever the
variables agree that it may read. -/
theorem perform_agree {m : Script σ α} (hm : m.Within F post) {s₁ s₂ : State σ}
    (h : Agree F.reads s₁ s₂) :
    m.effects s₁ = m.effects s₂ ∧
      (m.perform s₁).map (fun r => (r.1, r.2.host)) =
        (m.perform s₂).map (fun r => (r.1, r.2.host)) := by
  induction m generalizing s₁ s₂ with
  | stop o => exact ⟨rfl, by simp only [perform, Option.map_some, h.host]⟩
  | starve => exact ⟨rfl, rfl⟩
  | read name next ih =>
    have hread := h.reads name hm.1
    cases hx : s₁.get? name with
    | none =>
      rw [effects_read_none next hx, effects_read_none next (hread.symm.trans hx),
        perform_read_none next hx, perform_read_none next (hread.symm.trans hx)]
      exact ⟨rfl, by simp only [Option.map_some, h.host]⟩
    | some x =>
      rw [effects_read_some next hx, effects_read_some next (hread.symm.trans hx),
        perform_read_some next hx, perform_read_some next (hread.symm.trans hx)]
      exact ih x (hm.2 x) h
  | write name x next ih =>
    obtain ⟨heffects, hperform⟩ := ih hm.2 (h.set name x)
    exact ⟨congrArg (List.cons _) heffects, hperform⟩
  | call name f xs next ih =>
    simp only [effects, perform, h.host]
    obtain ⟨heffects, hperform⟩ :=
      ih (f.call s₂.host xs).1 (hm _) (h.noted name xs (f.call s₂.host xs).2)
    exact ⟨congrArg (List.cons _) heffects, hperform⟩

end Script

/-! ## Runs -/

theorem program_script_keeps {σ : Type} (functions : Registry σ) (fuel depth : Nat) (p : Program) :
    (p.script functions fuel depth).Keeps
      (footprint functions (Expr.quote p).nodes p.levels depth) :=
  script_confined functions (fuel + 1) depth (.quote p)

namespace Evaluation

open State (OnlyWrites Agree)

variable {σ : Type}

def effects (functions : Registry σ) (fuel : Nat) (p : Program) (s : State σ) : List Effect :=
  (p.script functions fuel s.depth).effects s

theorem eval_writes_only {functions : Registry σ} {fuel : Nat} {e : Expr} {s t : State σ}
    {o : Except EvalError Float} (h : eval functions fuel e s = some (o, t)) :
    OnlyWrites (MayWrite e.nodes e.levels s.depth) s t := by
  rw [eval_eq_perform] at h
  exact Script.perform_writes_only (script_confined functions fuel s.depth e) h

theorem statements_write_only {functions : Registry σ} {fuel : Nat} {p : Program} {s t : State σ}
    {o : Except EvalError Float} (h : evalStatements (eval functions fuel) p s = some (o, t)) :
    OnlyWrites (MayWrite p.nodes p.levels s.depth) s t := by
  rw [statements_eq_perform] at h
  have hwrites := Script.perform_writes_only (program_script_keeps functions fuel s.depth p) h
  refine ⟨hwrites.bound, fun name hname => hwrites.same name fun hquote => hname ?_⟩
  obtain ⟨value, hmem⟩ | hlevel := hquote
  · exact .inl ⟨value, Expr.mem_nodes_of_quote hmem rfl⟩
  · exact .inr hlevel

/-- A run, be it of an expression or of a program, unbinds no variable, and it writes only names
that its tree assigns to and counters of its loops. -/
theorem run_writes_only (functions : Registry σ) (fuel : Nat) (s t : State σ)
    (o : Except EvalError Float) :
    (∀ e, eval functions fuel e s = some (o, t) →
      OnlyWrites (MayWrite e.nodes e.levels s.depth) s t) ∧
    ∀ p : Program, evalStatements (eval functions fuel) p s = some (o, t) →
      OnlyWrites (MayWrite p.nodes p.levels s.depth) s t :=
  ⟨fun _ => eval_writes_only, fun _ => statements_write_only⟩

theorem run_writes_only_nested :
    OnlyWrites
      (MayWrite (Expr.call "for" [.num 2.0, .call "FOR" [.num 2.0, .var "y"]]).nodes [1, 2] 3)
      (⟨.empty, 3, (), []⟩ : State Unit)
      (((⟨.empty, 3, (), []⟩ : State Unit).set "iter4" (Binary64.ofNat 0)).set "iter5"
        (Binary64.ofNat 0)) := by
  have hcount : iterationCount 2.0 = 2 := by decide +kernel
  have hrun : eval .empty 4 (.call "for" [.num 2.0, .call "FOR" [.num 2.0, .var "y"]])
      (⟨.empty, 3, (), []⟩ : State Unit) = some (.error (.undefinedVariable "y"),
        ((⟨.empty, 3, (), []⟩ : State Unit).set "iter4" (Binary64.ofNat 0)).set "iter5"
          (Binary64.ofNat 0)) := by
    simp only [eval, evalStep, andThen, hcount, runFor, force,
      evalCall_for (show foldCase "for" = "for" by decide +kernel),
      evalCall_for (show foldCase "FOR" = "for" by decide +kernel)]
    rfl
  exact (run_writes_only .empty 4 _ _ (.error (.undefinedVariable "y"))).1 _ hrun

/-- Runs of one program from states that agree on the variables it mentions: one ends if the other
does, with the same outcome; they have the same effects; and a variable ends with the value that
both have written, or neither has written it and it is bound as it was. -/
theorem run_eq_of_agree {functions : Registry σ} {p : Program} {s₁ s₂ : State σ}
    (h : Agree (fun name => .var name ∈ p.nodes) s₁ s₂) (fuel : Nat) :
    (evalStatements (eval functions fuel) p s₁ = none ↔
      evalStatements (eval functions fuel) p s₂ = none) ∧
    effects functions fuel p s₁ = effects functions fuel p s₂ ∧
    ∀ o₁ o₂ t₁ t₂, evalStatements (eval functions fuel) p s₁ = some (o₁, t₁) →
      evalStatements (eval functions fuel) p s₂ = some (o₂, t₂) →
      o₁ = o₂ ∧ t₁.host = t₂.host ∧
      t₁.calls = Effect.log (effects functions fuel p s₁) ++ s₁.calls ∧
      t₂.calls = Effect.log (effects functions fuel p s₁) ++ s₂.calls ∧
      ∀ name,
        (∃ x, .write name x ∈ effects functions fuel p s₁ ∧ t₁.get? name = some x ∧
          t₂.get? name = some x) ∨
        ((∀ x, .write name x ∉ effects functions fuel p s₁) ∧ t₁.get? name = s₁.get? name ∧
          t₂.get? name = s₂.get? name) := by
  have hagree : Agree (footprint functions (Expr.quote p).nodes p.levels s₁.depth).reads s₁ s₂ :=
    ⟨h.depth, h.host, fun name hname => h.reads name (Expr.mem_nodes_of_quote hname rfl)⟩
  obtain ⟨heffects, houtcome⟩ :=
    Script.perform_agree (program_script_keeps functions fuel s₁.depth p) hagree
  have hsame : effects functions fuel p s₁ = effects functions fuel p s₂ := by
    rw [effects, effects, heffects, h.depth]
  rw [h.depth, ← statements_eq_perform, ← h.depth, ← statements_eq_perform] at houtcome
  refine ⟨?_, hsame, fun o₁ o₂ t₁ t₂ h₁ h₂ => ?_⟩
  · rw [← Option.map_eq_none_iff (f := fun r => (r.1, r.2.host)), houtcome, Option.map_eq_none_iff]
  rw [h₁, h₂, Option.map_some, Option.map_some] at houtcome
  obtain ⟨ho, hhost⟩ := Prod.mk.inj (Option.some.inj houtcome)
  rw [statements_eq_perform] at h₁ h₂
  obtain ⟨hcalls₁, hget₁⟩ := Script.perform_effects h₁
  obtain ⟨hcalls₂, hget₂⟩ := Script.perform_effects h₂
  rw [← effects] at hcalls₁ hget₁ hcalls₂ hget₂
  rw [← hsame] at hcalls₂ hget₂
  refine ⟨ho, hhost, hcalls₁, hcalls₂, fun name => ?_⟩
  cases hlast : Effect.last name (effects functions fuel p s₁) with
  | some x =>
    refine .inl ⟨x, Effect.mem_of_last_eq_some hlast, ?_, ?_⟩
    · rw [hget₁ name, hlast, Option.some_or]
    · rw [hget₂ name, hlast, Option.some_or]
  | none =>
    refine .inr ⟨Effect.not_mem_of_last_eq_none hlast, ?_, ?_⟩
    · rw [hget₁ name, hlast, Option.none_or]
    · rw [hget₂ name, hlast, Option.none_or]

/-- A host function that counts its calls and answers its argument. -/
def ticks : Registry Nat := .ofList [("tick", ⟨1, fun n xs => (xs.headD 0.0, n + 1)⟩)]

def tickLoop : Program :=
  [.assign "y" (.call "tick" [.var "x"]), .call "while" [.var "y", .assign "y" (.num 0.0)]]

theorem run_eq_of_agree_ticks : ∃ t₁ t₂,
    evalStatements (eval ticks 5) tickLoop (.start (.ofList [("x", 1.0), ("z", 5.0)]) 0) =
      some (.ok 1.0, t₁) ∧
    evalStatements (eval ticks 5) tickLoop (.start (.ofList [("x", 1.0)]) 0) =
      some (.ok 1.0, t₂) ∧
    effects ticks 5 tickLoop (.start (.ofList [("x", 1.0), ("z", 5.0)]) 0) =
      effects ticks 5 tickLoop (.start (.ofList [("x", 1.0)]) 0) ∧
    t₁.host = t₂.host := by
  have hagree : Agree (fun name => .var name ∈ tickLoop.nodes)
      (.start (.ofList [("x", 1.0), ("z", 5.0)]) 0) (.start (.ofList [("x", 1.0)]) 0) := by
    refine ⟨rfl, rfl, fun name h => ?_⟩
    obtain rfl | rfl : name = "x" ∨ name = "y" := by
      simpa [tickLoop, Program.nodes, Expr.nodes, Expr.nodesOf] using h
    · rfl
    · rfl
  obtain ⟨-, heffects, hruns⟩ := run_eq_of_agree hagree 5
  refine ⟨⟨.ofList [("x", 1.0), ("y", 0.0), ("z", 5.0)], 0, 1, [⟨"tick", [1.0]⟩]⟩,
    ⟨.ofList [("x", 1.0), ("y", 0.0)], 0, 1, [⟨"tick", [1.0]⟩]⟩, rfl, rfl, heffects, ?_⟩
  exact (hruns _ _ _ _ rfl rfl).2.1

end Evaluation
end FormulaLang

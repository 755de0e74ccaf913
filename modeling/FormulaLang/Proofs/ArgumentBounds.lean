import FormulaLang.Proofs.ErrorPosition
import FormulaLang.Proofs.Failure
import FormulaLang.Proofs.LoopDepth

/-!
# FormulaLang.Proofs.ArgumentBounds

No rule reads an argument that it was not given. `reads` is the number of arguments that a rule
reads, the first ones, of so many: a mathematical function depends on no others (`apply_take`) and
misses one exactly if it reads more than there are (`apply_eq_missing_iff`), and a control rule is
the same (`applyRule_take`, `applyRule_missing`). An accepted number of arguments covers what is
read, and arguments are prepared and forced one for one, so whatever an operation comes to read, in
any round of any loop, is there (`Accesses.lt`). The marks of a quoted token are cut off within its
text, too. Main statement: `accesses_in_range`.
-/

namespace FormulaLang

/-! ## What is read -/

/-- How many arguments a mathematical function reads of `found`. -/
def MathFunction.reads (f : MathFunction) (found : Nat) : Nat :=
  match f with
  | .max | .min | .pow => 2
  | .log | .round => if 2 ≤ found then 2 else 1
  | _ => 1

def Control.reads : Control → Nat
  | .branch => 3
  | .count => 2
  | .loop => 2

def Rule.reads (rule : Rule) (found : Nat) : Nat :=
  match rule with
  | .math f => f.reads found
  | .control c => c.reads

theorem MathFunction.reads_le_iff {f : MathFunction} {found : Nat} :
    f.reads found ≤ found ↔ f.needs ≤ found := by
  cases f with
  | log | round =>
    simp only [reads, needs]
    split <;> omega
  | _ => exact Iff.rfl

theorem Rule.reads_le {rule : Rule} {found : Nat} (h : rule.needs ≤ found) :
    rule.reads found ≤ found := by
  cases rule with
  | math f => exact MathFunction.reads_le_iff.mpr h
  | control c => cases c <;> exact h

/-- The numbers of arguments that a builtin function accepts cover what its rule reads. -/
theorem reads_le_of_accepts {b : Builtin} (hb : b ∈ Builtin.table) {found : Nat}
    (ha : b.arity.accepts found = true) : b.rule.reads found ≤ found :=
  Rule.reads_le ((needs_le_least b hb).trans (Arity.bounds_of_accepts ha).1)

/-- A function depends on no other arguments than those it reads. -/
theorem MathFunction.apply_take (f : MathFunction) (xs : List Float) :
    f.apply (xs.take (f.reads xs.length)) = f.apply xs := by
  match xs with
  | [] | [_] => cases f <;> rfl
  | x :: y :: xs =>
    cases f with
    | log | round =>
      rw [reads, if_pos (by simp)]
      rfl
    | _ => rfl

theorem MathFunction.apply_eq_missing_iff {f : MathFunction} {xs : List Float} :
    f.apply xs = .error .missingArgument ↔ xs.length < f.reads xs.length := by
  rw [← Nat.not_le, reads_le_iff]
  constructor
  · intro h hneeds
    obtain ⟨-, -, digits, ⟨⟩⟩ := apply_error hneeds h
  · intro hshort
    match xs with
    | [] => cases f <;> rfl
    | [x] =>
      cases f with
      | max | min | pow => rfl
      | _ => exact absurd (Nat.le_refl 1) hshort
    | x :: y :: xs => cases f <;> simp [needs] at hshort

namespace Evaluation

variable {σ : Type}

section Rules

variable {ev : Evaluator σ} {rounds : Nat} {c : Control}

theorem applyRule_take (as : List LazyArg) (s : State σ) :
    applyRule ev rounds (.control c) (as.take c.reads) s =
      applyRule ev rounds (.control c) as s := by
  cases c with
  | branch => rcases as with _ | ⟨_, _ | ⟨_, _ | ⟨_, _⟩⟩⟩ <;> rfl
  | count => rcases as with _ | ⟨_, _ | ⟨_, _⟩⟩ <;> rfl
  | loop => rcases as with _ | ⟨_, _ | ⟨_, _⟩⟩ <;> rfl

theorem applyRule_missing {as : List LazyArg} (h : as.length < c.reads) (s : State σ) :
    applyRule ev rounds (.control c) as s = some (.error .missingArgument, s) := by
  cases c with
  | branch =>
    match as with
    | [] | [_] | [_, _] => rfl
    | _ :: _ :: _ :: as => exact absurd h (by simp [Control.reads])
  | count =>
    match as with
    | [] | [_] => rfl
    | _ :: _ :: as => exact absurd h (by simp [Control.reads])
  | loop =>
    match as with
    | [] | [_] => rfl
    | _ :: _ :: as => exact absurd h (by simp [Control.reads])

/-! ## What is given -/

theorem evalArguments_length {modes : List Mode} {es : List Expr} {as : List LazyArg}
    {s t : State σ} (h : evalArguments ev modes es s = some (.ok as, t)) :
    as.length = es.length := by
  induction es generalizing modes as s with
  | nil =>
    cases h
    rfl
  | cons e es ih =>
    rw [evalArguments] at h
    obtain ⟨_, -, ⟨⟩⟩ | ⟨a, u, -, hrest⟩ := andThen_eq_some h
    obtain ⟨_, -, ⟨⟩⟩ | ⟨bs, v, hes, hdone⟩ := andThen_eq_some hrest
    cases hdone
    exact congrArg (· + 1) (ih hes)

theorem forceEach_length {as : List LazyArg} {xs : List Float} {s t : State σ}
    (h : forceEach ev as s = some (.ok xs, t)) : xs.length = as.length := by
  induction as generalizing xs s with
  | nil =>
    cases h
    rfl
  | cons a as ih =>
    rw [forceEach] at h
    obtain ⟨_, -, ⟨⟩⟩ | ⟨x, u, -, hrest⟩ := andThen_eq_some h
    obtain ⟨_, -, ⟨⟩⟩ | ⟨ys, v, has, hdone⟩ := andThen_eq_some hrest
    cases hdone
    exact congrArg (· + 1) (ih has)

end Rules

/-- With this fuel the operation comes to read the argument at position `i`, where a rule was given
`found` arguments: a mathematical function the forced values, a control rule the lazy arguments. The
rule is that of the call itself, or of one that is evaluated on the way. -/
inductive Accesses (functions : Registry σ) :
    (fuel : Nat) → Operation → State σ → (i found : Nat) → Prop where
  | math {fuel i : Nat} {name : String} {es : List Expr} {b : Builtin} {f : MathFunction}
      {as : List LazyArg} {xs : List Float} {s t u : State σ} : Builtin.find? name = some b →
      b.arity.accepts es.length = true → b.rule = .math f →
      evalArguments (eval functions fuel) b.modes es s = some (.ok as, t) →
      forceEach (eval functions fuel) as t = some (.ok xs, u) → i < f.reads xs.length →
      Accesses functions fuel (.call name es) s i xs.length
  | control {fuel i : Nat} {name : String} {es : List Expr} {b : Builtin} {c : Control}
      {as : List LazyArg} {s t : State σ} : Builtin.find? name = some b →
      b.arity.accepts es.length = true → b.rule = .control c →
      evalArguments (eval functions fuel) b.modes es s = some (.ok as, t) → i < c.reads →
      Accesses functions fuel (.call name es) s i as.length
  | called {fuel i found : Nat} {name : String} {es : List Expr} {s : State σ} :
      Accesses functions fuel (.call name es) s i found →
      Accesses functions fuel (.eval (.call name es)) s i found
  | inside {fuel k i found : Nat} {op : Operation} {e : Expr} {s t : State σ} :
      Starts functions (eval functions (fuel + 1)) (fuel + 1) k op s e t →
      Accesses functions fuel (.eval e) t i found → Accesses functions (fuel + 1) op s i found

theorem Accesses.lt {functions : Registry σ} {fuel i found : Nat} {op : Operation} {s : State σ}
    (h : Accesses functions fuel op s i found) : i < found := by
  induction h with
  | math hb ha hf has hxs hi =>
    have hlen := (forceEach_length hxs).trans (evalArguments_length has)
    have hreads := reads_le_of_accepts (Builtin.mem_table_of_find? hb).1 ha
    rw [hf, ← hlen] at hreads
    exact hi.trans_le hreads
  | control hb ha hc has hi =>
    have hreads := reads_le_of_accepts (Builtin.mem_table_of_find? hb).1 ha
    rw [hc, ← evalArguments_length has] at hreads
    exact hi.trans_le hreads
  | called _ ih => exact ih
  | inside _ _ ih => exact ih

theorem eval_ne_missing (functions : Registry σ) (fuel : Nat) (e : Expr) (s t : State σ) :
    eval functions fuel e s ≠ some (.error .missingArgument, t) := by
  intro h
  rw [eval_eq_perform] at h
  obtain hblames | ⟨_, ⟨⟩, -⟩ :=
    Script.perform_error (script_confined functions fuel s.depth e) h
  exact hblames

end Evaluation

/-! ## Quoted tokens -/

namespace Item

/-- The payload is the text without its first and its last byte, and both places where it is cut are
boundaries of characters. -/
structure Trimmed (text payload : String) : Prop where
  two_le : 2 ≤ text.utf8ByteSize
  first : (String.Pos.Raw.mk 1).IsValid text
  last : (String.Pos.Raw.mk (text.utf8ByteSize - 1)).IsValid text
  extract : String.Pos.Raw.extract text ⟨1⟩ ⟨text.utf8ByteSize - 1⟩ = payload

theorem trimmed_quoted (payload : String) : Trimmed (Token.quoted payload).text payload := by
  have hsize : (Token.quoted payload).text.utf8ByteSize = 1 + payload.utf8ByteSize + 1 :=
    size_quoted payload
  have hcut : (Token.quoted payload).text.utf8ByteSize - 1 = 1 + payload.utf8ByteSize := by
    rw [hsize, Nat.add_sub_cancel]
  have hfirst : String.Pos.Raw.mk 1 = "\"".rawEndPos := rfl
  have hlast : String.Pos.Raw.mk (1 + payload.utf8ByteSize) = ("\"" ++ payload).rawEndPos := by
    rw [String.rawEndPos, String.utf8ByteSize_append]
    rfl
  constructor
  · omega
  · rw [hfirst, String.Pos.Raw.isValid_iff_exists_append]
    exact ⟨_, payload ++ "\"", String.append_assoc .., rfl⟩
  · rw [hcut, hlast, String.Pos.Raw.isValid_iff_exists_append]
    exact ⟨_, "\"", rfl, rfl⟩
  · have hextract := String.extract_of_valid ['"'] payload.toList ['"']
    simp only [List.append_assoc, String.ofList_append, String.ofList_toList] at hextract
    rw [hcut, Token.text, String.append_assoc, ← String.utf8Len_toList]
    exact hextract

theorem join_of_scan_eq_append_cons {s : String} {front rest : List Item} {item : Item}
    (h : scan s.toList = front ++ item :: rest) : s = join front ++ (item.text ++ join rest) := by
  rw [← join_cons, ← join_append, ← h, join_scan]

end Item

open Evaluation Item

/-- No run reads an argument that is not there, and the marks of no quoted token are cut off outside
of its text. Each argument that an operation comes to read is in the list that its rule was given,
with any trees, variables, host functions and depth; so no call and no expression ends for want of
one. The numbers of arguments that are accepted cover what is read, `log` and `round` read a second
argument only if there is one, and what `reads` counts is what the rules depend on and miss. -/
theorem accesses_in_range {σ : Type} (functions : Registry σ) :
    (∀ fuel op s i found, Accesses functions fuel op s i found → i < found) ∧
    (∀ fuel e s t, eval functions fuel e s ≠ some (.error .missingArgument, t)) ∧
    (∀ fuel name es s t, evalCall functions (eval functions fuel) fuel name es s ≠
      some (.error .missingArgument, t)) ∧
    (∀ b ∈ Builtin.table, ∀ found, b.arity.accepts found = true → b.rule.reads found ≤ found) ∧
    (∀ f ∈ [MathFunction.log, .round], ∀ found, 1 < f.reads found ↔ 2 ≤ found) ∧
    (∀ (f : MathFunction) xs, f.apply (xs.take (f.reads xs.length)) = f.apply xs ∧
      (f.apply xs = .error .missingArgument ↔ xs.length < f.reads xs.length)) ∧
    (∀ (ev : Evaluator σ) rounds (c : Control) as s,
      applyRule ev rounds (.control c) (as.take c.reads) s =
        applyRule ev rounds (.control c) as s ∧
      (as.length < c.reads →
        applyRule ev rounds (.control c) as s = some (.error .missingArgument, s))) ∧
    ∀ (s : String) front payload rest, scan s.toList = front ++ .token (.quoted payload) :: rest →
      s = join front ++ ((Token.quoted payload).text ++ join rest) ∧
      Trimmed (Token.quoted payload).text payload := by
  refine ⟨fun _ _ _ _ _ h => h.lt, eval_ne_missing functions, ?_, ?_, ?_, ?_, ?_, ?_⟩
  · intro fuel name es s t
    exact eval_ne_missing functions (fuel + 1) (.call name es) s t
  · intro b hb found ha
    exact reads_le_of_accepts hb ha
  · intro f hf found
    rcases List.mem_pair.mp hf with rfl | rfl <;>
    · simp only [MathFunction.reads]
      split <;> omega
  · intro f xs
    exact ⟨f.apply_take xs, MathFunction.apply_eq_missing_iff⟩
  · intro ev rounds c as s
    exact ⟨applyRule_take as s, fun h => applyRule_missing h s⟩
  · intro s front payload rest h
    exact ⟨join_of_scan_eq_append_cons h, trimmed_quoted payload⟩

/-- The body of a counted loop that runs inside another one reads its second argument, and the marks
around a letter of two bytes are cut off. -/
theorem accesses_in_range_nested :
    (Accesses (.empty : Registry Unit) 3
        (.eval (.call "FOR" [.num 2.0, .call "max" [.var "iter2", .num 3.0]])) ⟨.empty, 1, (), []⟩
        1 2 ∧ 1 < 2) ∧
    (scan "a+\"é\"".toList =
        [.token (.identifier "a"), .token (.operator .add)] ++ [.token (.quoted "é")] ∧
      Trimmed (Token.quoted "é").text "é") := by
  obtain ⟨hlt, -, -, -, -, -, -, hquoted⟩ := accesses_in_range (.empty : Registry Unit)
  have hcount : iterationCount 2.0 = 2 := by decide +kernel
  have hloop : foldCase "FOR" = "for" := by decide +kernel
  have hmax : Builtin.find? "max" = some (.eager "max" (.exactly 2) .max) := by decide +kernel
  have hbody : Starts (.empty : Registry Unit) (eval .empty 3) 3 1
      (.eval (.call "FOR" [.num 2.0, .call "max" [.var "iter2", .num 3.0]])) ⟨.empty, 1, (), []⟩
      (.call "max" [.var "iter2", .num 3.0])
      ⟨.ofList [("iter2", Binary64.ofNat 0)], 2, (), []⟩ :=
    starts_body (t := ⟨.empty, 1, (), []⟩) hloop rfl hcount
  have hforced (t : State Unit) :
      forceEach (eval .empty 2) [.now (Binary64.ofNat 0), .now 3.0] t =
        some (.ok [Binary64.ofNat 0, 3.0], t) := rfl
  have haccess : Accesses (.empty : Registry Unit) 3
      (.eval (.call "FOR" [.num 2.0, .call "max" [.var "iter2", .num 3.0]])) ⟨.empty, 1, (), []⟩
      1 2 :=
    .inside hbody (.called (.math hmax rfl rfl rfl (hforced _) (by decide)))
  have hscan : scan "a+\"é\"".toList =
      [.token (.identifier "a"), .token (.operator .add)] ++ [.token (.quoted "é")] := by cbv
  exact ⟨⟨haccess, hlt _ _ _ _ _ haccess⟩, hscan, (hquoted _ _ _ _ hscan).2⟩

end FormulaLang

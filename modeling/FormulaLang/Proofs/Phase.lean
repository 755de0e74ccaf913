import FormulaLang.Proofs.ParseCorrect
import FormulaLang.Proofs.Spelling

/-!
# FormulaLang.Proofs.Phase

What may follow what in a program. A `Phase` says what a reader of the tokens so far expects next;
it forgets which parentheses are open. The tokens of a derivation can be followed from phase to
phase (`Statements.run`), so a text whose items cannot be is no program. Quotes are looked into:
a quoted token passes only if its payload is a program.
-/

namespace FormulaLang
namespace Grammar

open Item

inductive Phase where
  /-- A statement comes, or the end of an empty list of arguments. -/
  | statement
  /-- An operand comes. -/
  | operand
  /-- A statement has begun with this name, which may be assigned to. -/
  | target
  /-- An operand has begun with this name. -/
  | name
  /-- An operand is complete. -/
  | done
  deriving DecidableEq

namespace Phase

/-- An operand may begin. In the other phases one may end. -/
def opens : Phase → Bool
  | statement | operand => true
  | target | name | done => false

def step (φ : Phase) (t : Token) : Option Phase :=
  match t, φ with
  | .number _, statement | .number _, operand => some done
  | .quoted payload, statement | .quoted payload, operand =>
    match Program.readProgram (scan payload.toList) with
    | .ok _ => some done
    | .error _ => none
  | .identifier _, statement => some target
  | .identifier _, operand => some name
  | .leftParen, statement | .leftParen, operand => some operand
  | .leftParen, target | .leftParen, name => some statement
  | .rightParen, statement | .rightParen, target | .rightParen, name | .rightParen, done => some done
  | .operator _, target | .operator _, name | .operator _, done => some operand
  | .assign, target => some operand
  | .comma, target | .comma, name | .comma, done => some statement
  | .semicolon, target | .semicolon, name | .semicolon, done => some statement
  | _, _ => none

def run (φ : Phase) : List Item → Option Phase
  | [] => some φ
  | .bad _ :: _ => none
  | .token t :: items =>
    match φ.step t with
    | none => none
    | some ψ => run ψ items

theorem run_token {φ ψ : Phase} {t : Token} (h : φ.step t = some ψ) (items : List Item) :
    run φ (.token t :: items) = run ψ items := by
  rw [run, h]

theorem run_stuck {φ : Phase} {t : Token} (h : φ.step t = none) (items : List Item) :
    run φ (.token t :: items) = none := by
  rw [run, h]

theorem run_token_eq_some {φ ψ : Phase} {t : Token} {items : List Item}
    (h : run φ (.token t :: items) = some ψ) : ∃ χ, φ.step t = some χ ∧ run χ items = some ψ := by
  rw [run] at h
  split at h
  · cases h
  · rename_i χ hχ
    exact ⟨χ, hχ, h⟩

theorem run_append {φ χ : Phase} {items : List Item} (h : run φ items = some χ)
    (rest : List Item) : run φ (items ++ rest) = run χ rest := by
  induction items generalizing φ with
  | nil =>
    cases h
    rfl
  | cons item items ih =>
    cases item with
    | bad slice => cases h
    | token t =>
      obtain ⟨ψ, hψ, h⟩ := run_token_eq_some h
      rw [List.cons_append, run_token hψ, ih h]

theorem run_append_stuck {φ : Phase} {items : List Item} (h : run φ items = none)
    (rest : List Item) : run φ (items ++ rest) = none := by
  induction items generalizing φ with
  | nil => cases h
  | cons item items ih =>
    cases item with
    | bad slice => rfl
    | token t =>
      rw [List.cons_append]
      cases hψ : φ.step t with
      | none => exact run_stuck hψ _
      | some ψ =>
        rw [run_token hψ] at h ⊢
        exact ih h

theorem run_append_eq_some {φ ψ : Phase} {items rest : List Item}
    (h : run φ (items ++ rest) = some ψ) :
    ∃ χ, run φ items = some χ ∧ run χ rest = some ψ := by
  cases hitems : run φ items with
  | none =>
    rw [run_append_stuck hitems] at h
    cases h
  | some χ =>
    rw [run_append hitems] at h
    exact ⟨χ, rfl, h⟩

/-! ## Steps -/

theorem step_operator {φ : Phase} (h : φ.opens = false) (op : Operator) :
    φ.step (.operator op) = some .operand := by
  cases φ <;> cases h <;> rfl

theorem step_rightParen {φ : Phase} (h : φ.opens = false) : φ.step .rightParen = some .done := by
  cases φ <;> cases h <;> rfl

theorem step_separator {φ : Phase} (h : φ.opens = false) {t : Token} (ht : t.Separator) :
    φ.step t = some .statement := by
  rcases ht with rfl | rfl
  · cases φ <;> cases h <;> rfl
  · cases φ <;> cases h <;> rfl

theorem step_leftParen {φ : Phase} (h : φ.opens = true) : φ.step .leftParen = some .operand := by
  cases φ <;> cases h <;> rfl

theorem step_number {φ : Phase} (h : φ.opens = true) (literal : String) :
    φ.step (.number literal) = some .done := by
  cases φ <;> cases h <;> rfl

theorem step_quoted {φ : Phase} (h : φ.opens = true) {payload : String} {p : Program}
    (hp : Program.readProgram (scan payload.toList) = .ok p) :
    φ.step (.quoted payload) = some .done := by
  cases φ <;> cases h <;> simp only [step, hp]

theorem step_quoted_eq_some {φ ψ : Phase} {payload : String}
    (h : φ.step (.quoted payload) = some ψ) :
    ∃ p, Program.readProgram (scan payload.toList) = .ok p ∧ ψ = .done := by
  cases hp : Program.readProgram (scan payload.toList) with
  | error f => cases φ <;> simp [step, hp] at h
  | ok p => cases φ <;> simp [step, hp] at h <;> exact ⟨p, rfl, h.symm⟩

/-- A name is followed by anything that follows an operand, and by the arguments of a call. -/
theorem step_identifier {φ : Phase} (h : φ.opens = true) (name : String) :
    ∃ ψ, φ.step (.identifier name) = some ψ ∧ ψ.opens = false ∧
      ψ.step .leftParen = some .statement := by
  cases φ with
  | statement => exact ⟨.target, rfl, rfl, rfl⟩
  | operand => exact ⟨.name, rfl, rfl, rfl⟩
  | target => cases h
  | name => cases h
  | done => cases h

end Phase

/-! ## Following a derivation -/

/-- The tokens lead from the phase to one in which an operand may end. -/
def Phase.Completes (φ : Phase) (tokens : List Token) : Prop :=
  ∃ ψ, φ.run (tokens.map .token) = some ψ ∧ ψ.opens = false

theorem Phase.Completes.parens {φ χ : Phase} {tokens : List Token}
    (h : φ.step .leftParen = some χ) (ht : χ.Completes tokens) :
    φ.run ((.leftParen :: (tokens ++ [.rightParen])).map .token) = some .done := by
  obtain ⟨ψ, hψ, hends⟩ := ht
  rw [List.map_cons, run_token h, List.map_append, run_append hψ, List.map_singleton,
    run_token (step_rightParen hends)]
  rfl

mutual

theorem Primary.run : ∀ {tokens : List Token} {e : Expr}, Primary tokens e →
    ∀ {φ : Phase}, φ.opens = true → φ.Completes tokens
  | _, _, .number _, φ, h => ⟨.done, Phase.run_token (Phase.step_number h _) _, rfl⟩
  | _, _, .quoted hscan hp, φ, h => by
    have hread := hp.read
    rw [← hscan] at hread
    exact ⟨.done, Phase.run_token (Phase.step_quoted h hread) _, rfl⟩
  | _, _, @Primary.variable name, φ, h => by
    obtain ⟨ψ, hstep, hends, -⟩ := Phase.step_identifier h name
    exact ⟨ψ, Phase.run_token hstep _, hends⟩
  | _, _, @Primary.callEmpty name, φ, h => by
    obtain ⟨ψ, hstep, hends, hparen⟩ := Phase.step_identifier h name
    refine ⟨.done, ?_, rfl⟩
    rw [List.map_cons, Phase.run_token hstep, List.map_cons, Phase.run_token hparen]
    rfl
  | _, _, @Primary.call name _ _ hargs, φ, h => by
    obtain ⟨ψ, hstep, hends, hparen⟩ := Phase.step_identifier h name
    refine ⟨.done, ?_, rfl⟩
    rw [List.map_cons, Phase.run_token hstep]
    exact Phase.Completes.parens hparen hargs.run
  | _, _, .group he, φ, h =>
    ⟨.done, Phase.Completes.parens (Phase.step_leftParen h) (he.run rfl), rfl⟩

theorem Chain.run : ∀ {level : Nat} {tokens : List Token} {e : Expr}, Chain level tokens e →
    ∀ {φ : Phase}, φ.opens = true → φ.Completes tokens
  | _, _, _, .operand hp, _, h => hp.run h
  | _, _, _, .single hc, _, h => hc.run h
  | _, _, _, .apply _ hl hr, φ, h => by
    obtain ⟨χ, hχ, hends⟩ := hl.run h
    obtain ⟨ψ, hψ, hends'⟩ := hr.run (Eq.refl Phase.operand.opens)
    refine ⟨ψ, ?_, hends'⟩
    rw [List.map_append, Phase.run_append hχ, List.map_cons,
      Phase.run_token (Phase.step_operator hends _), hψ]

theorem Statement.run : ∀ {tokens : List Token} {e : Expr}, Statement tokens e →
    Phase.statement.Completes tokens
  | _, _, .assign hc => hc.run (Eq.refl Phase.operand.opens)
  | _, _, .expression hc => hc.run rfl

theorem Arguments.run : ∀ {tokens : List Token} {es : List Expr}, Arguments tokens es →
    Phase.statement.Completes tokens
  | _, _, .last hs => hs.run
  | _, _, .cons hs hes => by
    obtain ⟨χ, hχ, hends⟩ := hs.run
    obtain ⟨ψ, hψ, hends'⟩ := hes.run
    refine ⟨ψ, ?_, hends'⟩
    rw [List.map_append, Phase.run_append hχ, List.map_cons,
      Phase.run_token (Phase.step_separator hends Token.separator_comma), hψ]

end

theorem Statements.run {tokens : List Token} {p : Program} (h : Statements tokens p) :
    ∃ ψ, Phase.statement.run (tokens.map .token) = some ψ := by
  cases h with
  | empty => exact ⟨.statement, rfl⟩
  | last hs =>
    obtain ⟨ψ, hψ, -⟩ := hs.run
    exact ⟨ψ, hψ⟩
  | cons hs hp =>
    obtain ⟨χ, hχ, hends⟩ := hs.run
    obtain ⟨ψ, hψ⟩ := hp.run
    refine ⟨ψ, ?_⟩
    rw [List.map_append, Phase.run_append hχ, List.map_cons,
      Phase.run_token (Phase.step_separator hends Token.separator_semicolon), hψ]

/-- A text that cannot be followed is no program. -/
theorem run_of_readProgram {items : List Item} {p : Program}
    (h : Program.readProgram items = .ok p) : ∃ ψ, Phase.statement.run items = some ψ := by
  obtain ⟨tokens, rfl, hp⟩ := readProgram_eq_ok_iff.mp h
  exact hp.run

end Grammar
end FormulaLang

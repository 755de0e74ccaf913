import FormulaLang.Program.Parse

/-!
# FormulaLang.Program.Reader

The readers of `Program.Parse` without their bounds, and the equations that define them.
-/

namespace FormulaLang.Program

open Item

/-- A reader's answer without the proof that items were used up. -/
def unbound {α : Type} {P : List Item → Prop} :
    Except Failure (α × { rest : List Item // P rest }) → Except Failure (α × List Item)
  | .error f => .error f
  | .ok (a, rest) => .ok (a, rest.val)

def primary (items : List Item) : Except Failure (Expr × List Item) := unbound (readPrimary items)

def chain (level : Nat) (items : List Item) : Except Failure (Expr × List Item) :=
  unbound (readChain level items)

def operators (level : Nat) (left : Expr) (items : List Item) : Except Failure (Expr × List Item) :=
  unbound (readOperators level left items)

def statement (items : List Item) : Except Failure (Expr × List Item) :=
  unbound (readStatement items)

def arguments (items : List Item) : Except Failure (List Expr × List Item) :=
  unbound (readArguments items)

def argumentList (items : List Item) : Except Failure (List Expr × List Item) :=
  unbound (readArgumentList items)

theorem primary_eq (items : List Item) :
    primary items =
      match items with
      | .token (.number literal) :: rest =>
        match Decimal.readPlain? literal.toList with
        | some d => .ok (.num d.toFloat, rest)
        | none => .error ⟨.invalidNumber literal, 0, .token (.number literal) :: rest⟩
      | .token (.quoted payload) :: rest =>
        match readProgram (scan payload.toList) with
        | .ok statements => .ok (.quote statements, rest)
        | .error f =>
          .error ⟨f.cause, 1 + f.position (scan payload.toList), .token (.quoted payload) :: rest⟩
      | .token (.identifier name) :: .token .leftParen :: rest =>
        match arguments rest with
        | .error f => .error f
        | .ok (es, rest') => .ok (.call name es, rest')
      | .token (.identifier _) :: .bad slice :: rest =>
        .error ⟨.unexpectedCharacter slice, 0, .bad slice :: rest⟩
      | .token (.identifier name) :: rest => .ok (.var name, rest)
      | .token .leftParen :: rest =>
        match chain loosestLevel rest with
        | .error f => .error f
        | .ok (e, after) =>
          match after with
          | .token .rightParen :: rest' => .ok (e, rest')
          | after => .error (.refuse (fun _ => .missingClosingParen) .missingClosingParen after)
      | items => .error (.refuse (fun t => .unexpectedToken t.text) .unexpectedEnd items) := by
  rw [primary, readPrimary.eq_def]
  obtain _ | ⟨t | _, rest⟩ := items
  · rfl
  · cases t with
    | number literal =>
      dsimp only
      cases Decimal.readPlain? literal.toList <;> rfl
    | quoted payload =>
      dsimp only
      cases readProgram (scan payload.toList) <;> rfl
    | identifier name =>
      obtain _ | ⟨t | _, rest⟩ := rest
      · rfl
      · cases t with
        | leftParen =>
          simp only [arguments]
          cases readArguments rest <;> rfl
        | _ => rfl
      · rfl
    | leftParen =>
      simp only [chain]
      cases readChain loosestLevel rest with
      | error f => rfl
      | ok r =>
        obtain ⟨e, _ | ⟨t | _, _⟩, h⟩ := r
        · rfl
        · cases t <;> rfl
        · rfl
    | _ => rfl
  · rfl

theorem chain_zero (items : List Item) : chain 0 items = primary items := by
  rw [chain, readChain, primary]

theorem chain_succ (level : Nat) (items : List Item) :
    chain (level + 1) items =
      match chain level items with
      | .error f => .error f
      | .ok (left, rest) => operators level left rest := by
  rw [chain, readChain, chain]
  cases readChain level items with
  | error f => rfl
  | ok r =>
    simp only [unbound, operators]
    cases readOperators level r.1 r.2.val <;> rfl

theorem operators_eq (level : Nat) (left : Expr) (items : List Item) :
    operators level left items =
      match items with
      | .bad slice :: rest => .error ⟨.unexpectedCharacter slice, 0, .bad slice :: rest⟩
      | .token (.operator op) :: rest =>
        if op.level = level + 1 then
          match chain level rest with
          | .error f => .error f
          | .ok (right, rest') => operators level (.binary op left right) rest'
        else .ok (left, .token (.operator op) :: rest)
      | items => .ok (left, items) := by
  rw [operators, readOperators.eq_def]
  obtain _ | ⟨t | _, rest⟩ := items
  · rfl
  · cases t with
    | operator op =>
      simp only [chain]
      split
      · cases readChain level rest with
        | error f => rfl
        | ok r =>
          simp only [unbound, operators]
          cases readOperators level (.binary op left r.1) r.2.val <;> rfl
      · rfl
    | _ => rfl
  · rfl

theorem statement_eq (items : List Item) :
    statement items =
      match items with
      | .token (.identifier name) :: .token .assign :: rest =>
        match chain loosestLevel rest with
        | .error f => .error f
        | .ok (value, rest') => .ok (.assign name value, rest')
      | .token (.identifier _) :: .bad slice :: rest =>
        .error ⟨.unexpectedCharacter slice, 0, .bad slice :: rest⟩
      | items => chain loosestLevel items := by
  rw [statement, readStatement.eq_def]
  obtain _ | ⟨t | _, rest⟩ := items
  · rfl
  · cases t with
    | identifier name =>
      obtain _ | ⟨t | _, rest⟩ := rest
      · rfl
      · cases t with
        | assign =>
          simp only [chain]
          cases readChain loosestLevel rest <;> rfl
        | _ => rfl
      · rfl
    | _ => rfl
  · rfl

theorem arguments_eq (items : List Item) :
    arguments items =
      match items with
      | .token .rightParen :: rest => .ok ([], rest)
      | items => argumentList items := by
  rw [arguments, readArguments.eq_def]
  obtain _ | ⟨t | _, rest⟩ := items
  · rfl
  · cases t <;> rfl
  · rfl

theorem argumentList_eq (items : List Item) :
    argumentList items =
      match statement items with
      | .error f => .error f
      | .ok (e, after) =>
        match after with
        | .token .comma :: rest =>
          match argumentList rest with
          | .error f => .error f
          | .ok (es, rest') => .ok (e :: es, rest')
        | .token .rightParen :: rest => .ok ([e], rest)
        | after => .error (.refuse (fun t => .expectedComma t.text) .missingClosingParen after) := by
  rw [argumentList, readArgumentList, statement]
  cases readStatement items with
  | error f => rfl
  | ok r =>
    obtain ⟨e, _ | ⟨t | _, rest⟩, h⟩ := r
    · rfl
    · cases t with
      | comma =>
        simp only [unbound, argumentList]
        cases readArgumentList rest <;> rfl
      | _ => rfl
    · rfl

theorem readProgram_nil : readProgram [] = .ok [] := by rw [readProgram]

theorem readProgram_eq {items : List Item} (h : items ≠ []) :
    readProgram items =
      match statement items with
      | .error f => .error f
      | .ok (e, after) =>
        match after with
        | [] => .ok [e]
        | .token .semicolon :: rest =>
          match readProgram rest with
          | .error f => .error f
          | .ok es => .ok (e :: es)
        | after => .error (.refuse (fun t => .unexpectedToken t.text) .unexpectedEnd after) := by
  obtain _ | ⟨item, items⟩ := items
  · exact absurd rfl h
  · rw [readProgram, statement]
    cases readStatement (item :: items) with
    | error f => rfl
    | ok r =>
      obtain ⟨e, _ | ⟨t | _, rest⟩, h⟩ := r
      · rfl
      · cases t with
        | semicolon => cases readProgram rest <;> rfl
        | _ => rfl
      · rfl

end FormulaLang.Program

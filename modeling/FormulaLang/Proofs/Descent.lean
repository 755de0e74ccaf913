import FormulaLang.Proofs.ReadSound

/-!
# FormulaLang.Proofs.Descent

How deep the recursive descent goes. `Readers.unfold` is one level of it: every reader, with the
calls that it makes left to other readers. The readers are a fixed point of it, but so might be
readers that never answer; what settles the question is that a number of levels is enough. Each
call has a rank, of nine steps for each unit of weight and a few for the kind of reader, and a
reader calls others at smaller ranks only. So `n` levels give the readers' answers at all ranks
below `n`, whatever stands below them: `agreeBelow_iterate`.
-/

namespace FormulaLang
namespace Program

open Item Grammar

@[ext]
structure Readers where
  primary : List Item → Except Failure (Expr × List Item)
  chain : Nat → List Item → Except Failure (Expr × List Item)
  operators : Nat → Expr → List Item → Except Failure (Expr × List Item)
  statement : List Item → Except Failure (Expr × List Item)
  arguments : List Item → Except Failure (List Expr × List Item)
  argumentList : List Item → Except Failure (List Expr × List Item)
  program : List Item → Except Failure Program

def readers : Readers :=
  ⟨primary, chain, operators, statement, arguments, argumentList, readProgram⟩

namespace Readers

/-- One level of the descent. All that is read below it is read by `r`. -/
def unfold (r : Readers) : Readers where
  primary
    | .token (.number literal) :: rest =>
      match Decimal.readPlain? literal.toList with
      | some d => .ok (.num d.toFloat, rest)
      | none => .error ⟨.invalidNumber literal, 0, .token (.number literal) :: rest⟩
    | .token (.quoted payload) :: rest =>
      match r.program (scan payload.toList) with
      | .ok statements => .ok (.quote statements, rest)
      | .error f =>
        .error ⟨f.cause, 1 + f.position (scan payload.toList), .token (.quoted payload) :: rest⟩
    | .token (.identifier name) :: .token .leftParen :: rest =>
      match r.arguments rest with
      | .error f => .error f
      | .ok (es, rest') => .ok (.call name es, rest')
    | .token (.identifier _) :: .bad slice :: rest =>
      .error ⟨.unexpectedCharacter slice, 0, .bad slice :: rest⟩
    | .token (.identifier name) :: rest => .ok (.var name, rest)
    | .token .leftParen :: rest =>
      match r.chain loosestLevel rest with
      | .error f => .error f
      | .ok (e, after) =>
        match after with
        | .token .rightParen :: rest' => .ok (e, rest')
        | after => .error (.refuse (fun _ => .missingClosingParen) .missingClosingParen after)
    | items => .error (.refuse (fun t => .unexpectedToken t.text) .unexpectedEnd items)
  chain
    | 0, items => r.primary items
    | level + 1, items =>
      match r.chain level items with
      | .error f => .error f
      | .ok (left, rest) => r.operators level left rest
  operators level left
    | .bad slice :: rest => .error ⟨.unexpectedCharacter slice, 0, .bad slice :: rest⟩
    | .token (.operator op) :: rest =>
      if op.level = level + 1 then
        match r.chain level rest with
        | .error f => .error f
        | .ok (right, rest') => r.operators level (.binary op left right) rest'
      else .ok (left, .token (.operator op) :: rest)
    | items => .ok (left, items)
  statement
    | .token (.identifier name) :: .token .assign :: rest =>
      match r.chain loosestLevel rest with
      | .error f => .error f
      | .ok (value, rest') => .ok (.assign name value, rest')
    | .token (.identifier _) :: .bad slice :: rest =>
      .error ⟨.unexpectedCharacter slice, 0, .bad slice :: rest⟩
    | items => r.chain loosestLevel items
  arguments
    | .token .rightParen :: rest => .ok ([], rest)
    | items => r.argumentList items
  argumentList items :=
    match r.statement items with
    | .error f => .error f
    | .ok (e, after) =>
      match after with
      | .token .comma :: rest =>
        match r.argumentList rest with
        | .error f => .error f
        | .ok (es, rest') => .ok (e :: es, rest')
      | .token .rightParen :: rest => .ok ([e], rest)
      | after => .error (.refuse (fun t => .expectedComma t.text) .missingClosingParen after)
  program
    | [] => .ok []
    | item :: items =>
      match r.statement (item :: items) with
      | .error f => .error f
      | .ok (e, after) =>
        match after with
        | [] => .ok [e]
        | .token .semicolon :: rest =>
          match r.program rest with
          | .error f => .error f
          | .ok es => .ok (e :: es)
        | after => .error (.refuse (fun t => .unexpectedToken t.text) .unexpectedEnd after)

end Readers

theorem unfold_readers : readers.unfold = readers := by
  refine Readers.ext ?_ ?_ ?_ ?_ ?_ ?_ ?_
  · exact funext fun items => (primary_eq items).symm
  · funext level items
    cases level with
    | zero => exact (chain_zero items).symm
    | succ level => exact (chain_succ level items).symm
  · funext level left items
    exact (operators_eq level left items).symm
  · exact funext fun items => (statement_eq items).symm
  · exact funext fun items => (arguments_eq items).symm
  · exact funext fun items => (argumentList_eq items).symm
  · funext items
    cases items with
    | nil => exact readProgram_nil.symm
    | cons item items => exact (readProgram_eq (List.cons_ne_nil item items)).symm

/-! ## Ranks -/

/-- The readers of both answer alike wherever the call has a rank below `n`. -/
structure Readers.AgreeBelow (r r' : Readers) (n : Nat) : Prop where
  primary : ∀ items, 9 * totalWeight items < n → r.primary items = r'.primary items
  chain : ∀ level items, level ≤ loosestLevel → 9 * totalWeight items + level + 1 < n →
    r.chain level items = r'.chain level items
  operators : ∀ level left items, level < loosestLevel → 9 * totalWeight items < n →
    r.operators level left items = r'.operators level left items
  statement : ∀ items, 9 * totalWeight items + 6 < n → r.statement items = r'.statement items
  arguments : ∀ items, 9 * totalWeight items + 8 < n → r.arguments items = r'.arguments items
  argumentList : ∀ items, 9 * totalWeight items + 7 < n →
    r.argumentList items = r'.argumentList items
  program : ∀ items, 9 * totalWeight items + 7 < n → r.program items = r'.program items

section Step

variable {r : Readers} {n : Nat}

theorem unfold_primary (h : r.AgreeBelow readers n) {items : List Item}
    (hrank : 9 * totalWeight items < n + 1) :
    r.unfold.primary items = readers.unfold.primary items := by
  obtain _ | ⟨t | _, rest⟩ := items
  · rfl
  · cases t with
    | quoted payload =>
      have hw := totalWeight_payload payload rest
      simp only [Readers.unfold, h.program (scan payload.toList) (by omega)]
    | identifier name =>
      obtain _ | ⟨t | _, rest⟩ := rest
      · rfl
      · cases t with
        | leftParen =>
          have hw := totalWeight_tail (.token .leftParen) rest
          have hw' := totalWeight_tail (.token (.identifier name)) (.token .leftParen :: rest)
          simp only [Readers.unfold, h.arguments rest (by omega)]
        | _ => rfl
      · rfl
    | leftParen =>
      have hw := totalWeight_tail (.token .leftParen) rest
      have hlevel : loosestLevel = 4 := rfl
      simp only [Readers.unfold, h.chain loosestLevel rest (Nat.le_refl _) (by omega)]
    | _ => rfl
  · rfl

theorem unfold_chain (h : r.AgreeBelow readers n) {level : Nat} {items : List Item}
    (hlevel : level ≤ loosestLevel) (hrank : 9 * totalWeight items + level + 1 < n + 1) :
    r.unfold.chain level items = readers.unfold.chain level items := by
  cases level with
  | zero => exact h.primary items (by omega)
  | succ level =>
    simp only [Readers.unfold, h.chain level items (by omega) (by omega)]
    cases hread : readers.chain level items with
    | error f => rfl
    | ok a =>
      have hw := totalWeight_chain hread
      exact h.operators level a.1 a.2 hlevel (by omega)

theorem unfold_operators (h : r.AgreeBelow readers n) {level : Nat} {left : Expr}
    {items : List Item} (hlevel : level < loosestLevel) (hrank : 9 * totalWeight items < n + 1) :
    r.unfold.operators level left items = readers.unfold.operators level left items := by
  obtain _ | ⟨t | _, rest⟩ := items
  · rfl
  · cases t with
    | operator op =>
      have hw := totalWeight_tail (.token (.operator op)) rest
      have hloosest : loosestLevel = 4 := rfl
      simp only [Readers.unfold, h.chain level rest (by omega) (by omega)]
      cases hread : readers.chain level rest with
      | error f => rfl
      | ok a =>
        have hw' := totalWeight_chain hread
        simp only [h.operators level (.binary op left a.1) a.2 hlevel (by omega)]
    | _ => rfl
  · rfl

theorem unfold_statement (h : r.AgreeBelow readers n) {items : List Item}
    (hrank : 9 * totalWeight items + 6 < n + 1) :
    r.unfold.statement items = readers.unfold.statement items := by
  have hloosest : loosestLevel = 4 := rfl
  have hchain : r.chain loosestLevel items = readers.chain loosestLevel items :=
    h.chain loosestLevel items (Nat.le_refl _) (by omega)
  obtain _ | ⟨t | _, rest⟩ := items
  · exact hchain
  · cases t with
    | identifier name =>
      obtain _ | ⟨t | _, rest⟩ := rest
      · exact hchain
      · cases t with
        | assign =>
          have hw := totalWeight_tail (.token .assign) rest
          have hw' := totalWeight_tail (.token (.identifier name)) (.token .assign :: rest)
          simp only [Readers.unfold, h.chain loosestLevel rest (Nat.le_refl _) (by omega)]
        | _ => exact hchain
      · rfl
    | _ => exact hchain
  · exact hchain

theorem unfold_arguments (h : r.AgreeBelow readers n) {items : List Item}
    (hrank : 9 * totalWeight items + 8 < n + 1) :
    r.unfold.arguments items = readers.unfold.arguments items := by
  have hlist : r.argumentList items = readers.argumentList items := h.argumentList items (by omega)
  obtain _ | ⟨t | _, rest⟩ := items
  · exact hlist
  · cases t with
    | rightParen => rfl
    | _ => exact hlist
  · exact hlist

theorem unfold_argumentList (h : r.AgreeBelow readers n) {items : List Item}
    (hrank : 9 * totalWeight items + 7 < n + 1) :
    r.unfold.argumentList items = readers.unfold.argumentList items := by
  simp only [Readers.unfold, h.statement items (by omega)]
  cases hread : readers.statement items with
  | error f => rfl
  | ok a =>
    obtain ⟨e, after⟩ := a
    have hw := totalWeight_statement hread
    obtain _ | ⟨t | _, rest⟩ := after
    · rfl
    · cases t with
      | comma =>
        have hw' := totalWeight_tail (.token .comma) rest
        simp only [h.argumentList rest (by omega)]
      | _ => rfl
    · rfl

theorem unfold_program (h : r.AgreeBelow readers n) {items : List Item}
    (hrank : 9 * totalWeight items + 7 < n + 1) :
    r.unfold.program items = readers.unfold.program items := by
  cases items with
  | nil => rfl
  | cons item items =>
    simp only [Readers.unfold, h.statement (item :: items) (by omega)]
    cases hread : readers.statement (item :: items) with
    | error f => rfl
    | ok a =>
      obtain ⟨e, after⟩ := a
      have hw := totalWeight_statement hread
      obtain _ | ⟨t | _, rest⟩ := after
      · rfl
      · cases t with
        | semicolon =>
          have hw' := totalWeight_tail (.token .semicolon) rest
          simp only [h.program rest (by omega)]
        | _ => rfl
      · rfl

theorem agreeBelow_unfold (h : r.AgreeBelow readers n) :
    r.unfold.AgreeBelow readers.unfold (n + 1) where
  primary _ := unfold_primary h
  chain _ _ := unfold_chain h
  operators _ _ _ := unfold_operators h
  statement _ := unfold_statement h
  arguments _ := unfold_arguments h
  argumentList _ := unfold_argumentList h
  program _ := unfold_program h

end Step

/-- So many levels of the descent answer as the readers do, whatever stands below them. -/
theorem agreeBelow_iterate (r : Readers) (n : Nat) :
    (Readers.unfold^[n] r).AgreeBelow readers n := by
  induction n with
  | zero => constructor <;> intros <;> omega
  | succ n ih =>
    rw [Function.iterate_succ_apply', ← unfold_readers]
    exact agreeBelow_unfold ih

end Program
end FormulaLang

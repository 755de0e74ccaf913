import FormulaLang.Program.Reader
import FormulaLang.Proofs.Grammar

/-!
# FormulaLang.Proofs.ReadComplete

The readers find every derivation: from items that begin with tokens deriving a tree, and go on
with something that cannot belong to it, a reader gives that tree and leaves the rest.

What cannot belong to a chain depends on its level (`Stops`); what ends a statement does not
(`Closes`). A chain of level `n + 1` is read up to its last operand of level `n` and then left to
`operators`, so `Chain.read` is stated with `resume`: in front of a looser operator the reader has
not returned yet.
-/

namespace FormulaLang
namespace Grammar

open Item Program

/-- No item that a chain of the level could go on with, or that its reader refuses. -/
def Stops (level : Nat) : List Item → Prop
  | .token (.operator op) :: _ => level < op.level
  | .token .leftParen :: _ => False
  | .bad _ :: _ => False
  | _ => True

/-- The end, or a token that ends a statement. -/
def Closes : List Item → Prop
  | [] => True
  | .token .rightParen :: _ => True
  | .token .comma :: _ => True
  | .token .semicolon :: _ => True
  | _ => False

theorem stops_operator {level : Nat} {op : Operator} {rest : List Item} :
    Stops level (.token (.operator op) :: rest) ↔ level < op.level := Iff.rfl

theorem stops_assign {level : Nat} {rest : List Item} : Stops level (.token .assign :: rest) :=
  trivial

theorem closes_nil : Closes [] := trivial

theorem closes_rightParen {rest : List Item} : Closes (.token .rightParen :: rest) := trivial

theorem closes_comma {rest : List Item} : Closes (.token .comma :: rest) := trivial

theorem closes_semicolon {rest : List Item} : Closes (.token .semicolon :: rest) := trivial

/-- What the reader of a level does behind an operand of the level below. -/
def resume : Nat → Expr → List Item → Except Failure (Expr × List Item)
  | 0, e, rest => .ok (e, rest)
  | level + 1, e, rest => operators level e rest

theorem Stops.mono {level level' : Nat} {items : List Item} (h : Stops level items)
    (hle : level' ≤ level) : Stops level' items := by
  unfold Stops at h ⊢
  split at h
  · exact Nat.lt_of_le_of_lt hle h
  · cases h
  · cases h
  · trivial

theorem Closes.stops {items : List Item} (h : Closes items) (level : Nat) : Stops level items := by
  unfold Closes at h
  split at h
  · trivial
  · trivial
  · trivial
  · trivial
  · cases h

theorem operators_stop {level : Nat} {items : List Item} (h : Stops (level + 1) items) (e : Expr) :
    operators level e items = .ok (e, items) := by
  rw [operators_eq]
  split
  · cases h
  · rw [if_neg]
    exact Nat.ne_of_gt h
  · rfl

theorem resume_stop {level : Nat} {items : List Item} (h : Stops level items) (e : Expr) :
    resume level e items = .ok (e, items) := by
  cases level with
  | zero => rfl
  | succ level => exact operators_stop h e

theorem chain_error {items : List Item} {f : Failure} (h : primary items = .error f) (level : Nat) :
    chain level items = .error f := by
  induction level with
  | zero => rw [chain_zero, h]
  | succ level ih => rw [chain_succ, ih]

/-- Behind a name, an assignment sign is left unread. -/
theorem chain_identifier_assign (level : Nat) (name : String) (items : List Item) :
    chain level (.token (.identifier name) :: .token .assign :: items) =
      .ok (.var name, .token .assign :: items) := by
  induction level with
  | zero => rw [chain_zero, primary_eq]
  | succ level ih => rw [chain_succ, ih]; exact operators_stop stops_assign _

theorem arguments_of_argumentList {items rest : List Item} {es : List Expr}
    (h : argumentList items = .ok (es, rest)) : arguments items = .ok (es, rest) := by
  rw [arguments_eq]
  split
  · have hp : ∀ rest : List Item, primary (.token .rightParen :: rest) =
        .error ⟨.unexpectedToken ")", 0, .token .rightParen :: rest⟩ := fun _ => by rw [primary_eq]; rfl
    rw [argumentList_eq, statement_eq] at h
    simp only [chain_error (hp _)] at h
    cases h
  · exact h

theorem chain_closed {items rest : List Item} {e : Expr} (h : chain 4 items = resume 4 e rest)
    (hrest : Closes rest) : chain loosestLevel items = .ok (e, rest) :=
  h.trans (resume_stop (hrest.stops 4) e)

/-! ## Reading a derivation -/

mutual

theorem Primary.read : ∀ {tokens : List Token} {e : Expr}, Primary tokens e →
    ∀ {rest : List Item}, Stops 0 rest → primary (tokens.map .token ++ rest) = .ok (e, rest)
  | _, _, .number h, rest, _ => by
    have hd := Decimal.readPlain?_eq_some_iff.mpr ⟨h, rfl⟩
    rw [primary_eq]
    simp only [List.map_cons, List.map_nil, List.cons_append, List.nil_append, hd]
  | _, _, .quoted hscan hp, rest, _ => by
    rw [primary_eq]
    simp only [List.map_cons, List.map_nil, List.cons_append, List.nil_append, hscan, hp.read]
  | _, _, .variable, rest, hrest => by
    rw [primary_eq]
    cases rest with
    | nil => rfl
    | cons item rest =>
      cases item with
      | bad slice => cases hrest
      | token t =>
        cases t with
        | leftParen => cases hrest
        | _ => rfl
  | _, _, .callEmpty, rest, _ => by
    rw [primary_eq]
    simp only [List.map_cons, List.map_nil, List.cons_append, List.nil_append, arguments_eq]
  | _, _, @Primary.call _ tokens _ h, rest, _ => by
    have hread := arguments_of_argumentList (h.read rest)
    rw [primary_eq]
    simp only [List.map_cons, List.map_append, List.map_nil, List.cons_append, List.append_assoc,
      List.nil_append, hread]
  | _, _, @Primary.group tokens _ h, rest, _ => by
    have hclosed : Closes (.token .rightParen :: rest) := closes_rightParen
    have hread := chain_closed (h.read (hclosed.stops 3)) hclosed
    rw [primary_eq]
    simp only [List.map_cons, List.map_append, List.map_nil, List.cons_append, List.append_assoc,
      List.nil_append, hread]

theorem Chain.read : ∀ {level : Nat} {tokens : List Token} {e : Expr}, Chain level tokens e →
    ∀ {rest : List Item}, Stops (level - 1) rest →
      chain level (tokens.map .token ++ rest) = resume level e rest
  | _, _, _, .operand h, rest, hrest => by rw [chain_zero]; exact h.read hrest
  | _, _, _, @Chain.single level _ _ h, rest, hrest => by
    have hrest : Stops level rest := hrest
    have hread := h.read (hrest.mono (Nat.sub_le _ 1))
    rw [resume_stop hrest] at hread
    rw [chain_succ, hread]
    rfl
  | _, _, _, @Chain.apply level op _ rs _ _ hmem hl hr, rest, hrest => by
    have hop := mem_operatorsOf.mp hmem
    have hrest : Stops level rest := hrest
    have hlt : Stops level (.token (.operator op) :: (rs.map .token ++ rest)) :=
      stops_operator.mpr (by omega)
    have hleft := hl.read hlt
    have hright := hr.read (hrest.mono (Nat.sub_le _ 1))
    rw [resume_stop hrest] at hright
    rw [List.map_append, List.map_cons, List.append_assoc, List.cons_append, hleft]
    show operators level _ _ = operators level _ _
    rw [operators_eq]
    simp only [hop, if_true, hright]

theorem Statement.read : ∀ {tokens : List Token} {e : Expr}, Statement tokens e →
    ∀ {rest : List Item}, Closes rest → statement (tokens.map .token ++ rest) = .ok (e, rest)
  | _, _, .assign h, rest, hrest => by
    have hread := chain_closed (h.read (hrest.stops 3)) hrest
    rw [statement_eq]
    simp only [List.map_cons, List.cons_append, hread]
  | tokens, _, .expression h, rest, hrest => by
    have hread := chain_closed (h.read (hrest.stops 3)) hrest
    rw [statement_eq]
    split
    · -- the sign would be the rest, and it ends no statement
      rename_i name after heq
      rw [heq, chain_identifier_assign] at hread
      cases hread
      cases hrest
    · rename_i name slice after heq
      have hp : primary (.token (.identifier name) :: .bad slice :: after) =
          .error ⟨.unexpectedCharacter slice, 0, .bad slice :: after⟩ := by rw [primary_eq]
      rw [heq, chain_error hp] at hread
      cases hread
    · exact hread

theorem Arguments.read : ∀ {tokens : List Token} {es : List Expr}, Arguments tokens es →
    ∀ rest : List Item,
      argumentList (tokens.map .token ++ .token .rightParen :: rest) = .ok (es, rest)
  | _, _, .last h, rest => by
    rw [argumentList_eq, h.read closes_rightParen]
  | _, _, .cons h hs, rest => by
    rw [List.map_append, List.map_cons, List.append_assoc, List.cons_append, argumentList_eq,
      h.read closes_comma]
    simp only [hs.read]

theorem Statements.read : ∀ {tokens : List Token} {p : Program}, Statements tokens p →
    readProgram (tokens.map .token) = .ok p
  | _, _, .empty => by rw [List.map_nil, readProgram_nil]
  | tokens, _, .last h => by
    have hne : tokens.map Item.token ≠ [] := by simpa using h.tokens_ne_nil
    have hread := h.read closes_nil
    rw [List.append_nil] at hread
    rw [readProgram_eq hne, hread]
  | _, _, .cons h hs => by
    rw [List.map_append, List.map_cons, readProgram_eq (by simp), h.read closes_semicolon]
    simp only [hs.read]

end

end Grammar
end FormulaLang

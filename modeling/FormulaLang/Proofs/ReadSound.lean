import FormulaLang.Program.Reader
import FormulaLang.Proofs.Grammar

/-!
# FormulaLang.Proofs.ReadSound

What the readers give is a derivation: if a reader succeeds, the items in front of the rest are
tokens, and they derive the tree. The proofs recurse as the readers do, on the weight of the items
and then on the kind of reader. The reader of operators has read its left operand already, so
`operators_sound` extends a derivation of that operand.
-/

namespace FormulaLang
namespace Grammar

open Item Program

theorem unbound_ok {α : Type} {P : List Item → Prop} {a : α} {rest : List Item}
    {r : Except Failure (α × { rest : List Item // P rest })} (h : unbound r = .ok (a, rest)) :
    P rest := by
  cases r with
  | error f => cases h
  | ok r =>
    obtain ⟨b, rest', hrest⟩ := r
    cases h
    exact hrest

theorem totalWeight_tail (item : Item) (items : List Item) :
    totalWeight items < totalWeight (item :: items) := by
  have := weight_pos item
  rw [totalWeight]
  omega

theorem totalWeight_chain {level : Nat} {items rest : List Item} {e : Expr}
    (h : chain level items = .ok (e, rest)) : totalWeight rest < totalWeight items :=
  unbound_ok h

theorem totalWeight_statement {items rest : List Item} {e : Expr}
    (h : statement items = .ok (e, rest)) : totalWeight rest < totalWeight items :=
  unbound_ok h

theorem totalWeight_payload (payload : String) (rest : List Item) :
    totalWeight (scan payload.toList) < totalWeight (.token (.quoted payload) :: rest) := by
  have := totalWeight_scan payload.toList
  rw [totalWeight, weight]
  omega

mutual

theorem primary_sound (items : List Item) {e : Expr} {rest : List Item}
    (h : primary items = .ok (e, rest)) :
    ∃ tokens, items = tokens.map .token ++ rest ∧ Primary tokens e := by
  rw [primary_eq] at h
  split at h
  · rename_i literal after
    split at h
    · rename_i d hd
      obtain ⟨hn, rfl⟩ := Decimal.readPlain?_eq_some_iff.mp hd
      cases h
      exact ⟨[.number literal], rfl, .number hn⟩
    · cases h
  · rename_i payload after
    split at h
    · rename_i p hp
      have hw := totalWeight_payload payload after
      obtain ⟨tokens, hscan, hder⟩ := readProgram_sound (scan payload.toList) hp
      cases h
      exact ⟨[.quoted payload], rfl, .quoted hscan hder⟩
    · cases h
  · rename_i name after
    split at h
    · cases h
    · rename_i es rest' hargs
      have hw : totalWeight after <
          totalWeight (.token (.identifier name) :: .token .leftParen :: after) :=
        Nat.lt_trans (totalWeight_tail _ _) (totalWeight_tail _ _)
      cases h
      rcases arguments_sound after hargs with ⟨rfl, rfl⟩ | ⟨tokens, rfl, hder⟩
      · exact ⟨[.identifier name, .leftParen, .rightParen], rfl, .callEmpty⟩
      · exact ⟨.identifier name :: .leftParen :: (tokens ++ [.rightParen]), by simp, .call hder⟩
  · cases h
  · rename_i name after _ _
    cases h
    exact ⟨[.identifier name], rfl, .variable⟩
  · rename_i after
    split at h
    · cases h
    · rename_i e' mid hread
      split at h
      · rename_i rest'
        have hw : totalWeight after < totalWeight (.token .leftParen :: after) :=
          totalWeight_tail _ _
        obtain ⟨tokens, rfl, hder⟩ := chain_sound loosestLevel after hread
        cases h
        exact ⟨.leftParen :: (tokens ++ [.rightParen]), by simp, .group hder⟩
      · cases h
  · cases h
termination_by (totalWeight items, 0)

theorem chain_sound (level : Nat) (items : List Item) {e : Expr} {rest : List Item}
    (h : chain level items = .ok (e, rest)) :
    ∃ tokens, items = tokens.map .token ++ rest ∧ Chain level tokens e := by
  cases level with
  | zero =>
    rw [chain_zero] at h
    obtain ⟨tokens, hitems, hder⟩ := primary_sound items h
    exact ⟨tokens, hitems, .operand hder⟩
  | succ level =>
    rw [chain_succ] at h
    split at h
    · cases h
    · rename_i left mid hread
      have hw := totalWeight_chain hread
      obtain ⟨ls, rfl, hl⟩ := chain_sound level items hread
      obtain ⟨tokens, rfl, hder⟩ := operators_sound level left mid h
      exact ⟨ls ++ tokens, by simp, hder (.single hl)⟩
termination_by (totalWeight items, level + 1)

theorem operators_sound (level : Nat) (left : Expr) (items : List Item) {e : Expr}
    {rest : List Item} (h : operators level left items = .ok (e, rest)) :
    ∃ tokens, items = tokens.map .token ++ rest ∧
      ∀ {ls : List Token}, Chain (level + 1) ls left → Chain (level + 1) (ls ++ tokens) e := by
  rw [operators_eq] at h
  split at h
  · cases h
  · rename_i op after
    split at h
    · rename_i hop
      split at h
      · cases h
      · rename_i right mid hread
        have hw : totalWeight after < totalWeight (.token (.operator op) :: after) :=
          totalWeight_tail _ _
        have hw' := Nat.lt_trans (totalWeight_chain hread) hw
        obtain ⟨rs, rfl, hr⟩ := chain_sound level after hread
        obtain ⟨tokens, rfl, hder⟩ := operators_sound level (.binary op left right) mid h
        refine ⟨.operator op :: (rs ++ tokens), by simp, ?_⟩
        intro ls hl
        have happly := hder (Chain.apply (mem_operatorsOf.mpr hop) hl hr)
        rwa [List.append_assoc, List.cons_append] at happly
    · cases h
      exact ⟨[], rfl, fun hl => by rwa [List.append_nil]⟩
  · cases h
    exact ⟨[], rfl, fun hl => by rwa [List.append_nil]⟩
termination_by (totalWeight items, 0)

theorem statement_sound (items : List Item) {e : Expr} {rest : List Item}
    (h : statement items = .ok (e, rest)) :
    ∃ tokens, items = tokens.map .token ++ rest ∧ Statement tokens e := by
  rw [statement_eq] at h
  split at h
  · rename_i name after
    split at h
    · cases h
    · rename_i value mid hread
      have hw : totalWeight after <
          totalWeight (.token (.identifier name) :: .token .assign :: after) :=
        Nat.lt_trans (totalWeight_tail _ _) (totalWeight_tail _ _)
      obtain ⟨tokens, rfl, hder⟩ := chain_sound loosestLevel after hread
      cases h
      exact ⟨.identifier name :: .assign :: tokens, rfl, .assign hder⟩
  · cases h
  · obtain ⟨tokens, hitems, hder⟩ := chain_sound loosestLevel _ h
    exact ⟨tokens, hitems, .expression hder⟩
termination_by (totalWeight items, loosestLevel + 2)

theorem arguments_sound (items : List Item) {es : List Expr} {rest : List Item}
    (h : arguments items = .ok (es, rest)) :
    (items = .token .rightParen :: rest ∧ es = []) ∨
      ∃ tokens, items = tokens.map .token ++ .token .rightParen :: rest ∧ Arguments tokens es := by
  rw [arguments_eq] at h
  split at h
  · cases h
    exact .inl ⟨rfl, rfl⟩
  · exact .inr (argumentList_sound _ h)
termination_by (totalWeight items, loosestLevel + 4)

theorem argumentList_sound (items : List Item) {es : List Expr} {rest : List Item}
    (h : argumentList items = .ok (es, rest)) :
    ∃ tokens, items = tokens.map .token ++ .token .rightParen :: rest ∧ Arguments tokens es := by
  rw [argumentList_eq] at h
  split at h
  · cases h
  · rename_i e mid hread
    have hw := totalWeight_statement hread
    obtain ⟨ts, rfl, hder⟩ := statement_sound items hread
    split at h
    · rename_i after
      split at h
      · cases h
      · rename_i es' rest' hread'
        have hw' := Nat.lt_trans (totalWeight_tail (.token .comma) after) hw
        obtain ⟨us, rfl, hders⟩ := argumentList_sound after hread'
        cases h
        exact ⟨ts ++ .comma :: us, by simp, .cons hder hders⟩
    · cases h
      exact ⟨ts, rfl, .last hder⟩
    · cases h
termination_by (totalWeight items, loosestLevel + 3)

theorem readProgram_sound (items : List Item) {p : Program} (h : readProgram items = .ok p) :
    ∃ tokens, items = tokens.map .token ∧ Statements tokens p := by
  by_cases hne : items = []
  · subst hne
    rw [readProgram_nil] at h
    cases h
    exact ⟨[], rfl, .empty⟩
  rw [readProgram_eq hne] at h
  split at h
  · cases h
  · rename_i e mid hread
    have hw := totalWeight_statement hread
    obtain ⟨ts, rfl, hder⟩ := statement_sound items hread
    split at h
    · cases h
      exact ⟨ts, by simp, .last hder⟩
    · rename_i after
      split at h
      · cases h
      · rename_i es hread'
        have hw' := Nat.lt_trans (totalWeight_tail (.token .semicolon) after) hw
        obtain ⟨us, rfl, hders⟩ := readProgram_sound after hread'
        cases h
        exact ⟨ts ++ .semicolon :: us, by simp, .cons hder hders⟩
    · cases h
termination_by (totalWeight items, loosestLevel + 3)

end

end Grammar
end FormulaLang

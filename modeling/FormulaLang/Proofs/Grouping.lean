import FormulaLang.Proofs.ParseCorrect

/-!
# FormulaLang.Proofs.Grouping

How operators and operands in a row are grouped. A `Grouping` is a tree of operators over operands,
which it does not look into; `inOrder` reads it from the left. It is well grouped if no operator
stands below one that binds tighter, nor on the right of one that binds as tight.

* `existsUnique_grouping`: each row has exactly one well grouped tree. The last of the loosest
  operators of the row has to be its root.
* `WellGrouped.chain`: a well grouped tree of operands that are derived is derived as a chain.
* `expression_groups`: reading an expression gives that tree and stops behind the row.
-/

namespace FormulaLang
namespace Grammar

open Item Program

/-- Trees of operators. The leaves are not looked into. -/
inductive Grouping (α : Type) where
  | leaf (a : α)
  | node (op : Operator) (left right : Grouping α)

/-- The row `first op₁ a₁ op₂ a₂ …`. -/
def row {α : Type} (first : α) (others : List (Operator × α)) : List (α ⊕ Operator) :=
  .inl first :: others.flatMap fun (op, a) => [.inr op, .inl a]

namespace Grouping

variable {α : Type}

def root? : Grouping α → Option Operator
  | leaf _ => none
  | node op _ _ => some op

def inOrder : Grouping α → List (α ⊕ Operator)
  | leaf a => [.inl a]
  | node op left right => left.inOrder ++ .inr op :: right.inOrder

/-- At every node the operator on its left binds at least as tight as its own, and the one on its
right binds tighter. Operators of lower levels bind tighter. -/
def WellGrouped : Grouping α → Prop
  | leaf _ => True
  | node op left right =>
    (∀ o ∈ left.root?, o.level ≤ op.level) ∧ (∀ o ∈ right.root?, o.level < op.level) ∧
      left.WellGrouped ∧ right.WellGrouped

/-- The root is the loosest operator. -/
theorem WellGrouped.level_le {g : Grouping α} (h : g.WellGrouped) {op : Operator}
    (hop : .inr op ∈ g.inOrder) : ∃ o ∈ g.root?, op.level ≤ o.level := by
  induction g with
  | leaf a => simp [inOrder] at hop
  | node o left right ihl ihr =>
    obtain ⟨hleft, hright, hl, hr⟩ := h
    refine ⟨o, rfl, ?_⟩
    rcases List.mem_append.mp hop with hop | hop
    · obtain ⟨o', ho', hle⟩ := ihl hl hop
      exact hle.trans (hleft o' ho')
    · rcases List.mem_cons.mp hop with heq | hop
      · cases heq
        exact Nat.le_refl _
      · obtain ⟨o', ho', hle⟩ := ihr hr hop
        exact hle.trans (hright o' ho').le

theorem WellGrouped.level_le_left {op o : Operator} {left right : Grouping α}
    (h : (node op left right).WellGrouped) (ho : .inr o ∈ left.inOrder) : o.level ≤ op.level := by
  obtain ⟨o', ho', hle⟩ := h.2.2.1.level_le ho
  exact hle.trans (h.1 o' ho')

theorem WellGrouped.level_lt_right {op o : Operator} {left right : Grouping α}
    (h : (node op left right).WellGrouped) (ho : .inr o ∈ right.inOrder) : o.level < op.level := by
  obtain ⟨o', ho', hle⟩ := h.2.2.2.level_le ho
  exact hle.trans_lt (h.2.1 o' ho')

/-! ## One tree at most -/

/-- The root of one tree cannot stand on the left of the root of another one: it would be no looser
than that, and looser. -/
theorem WellGrouped.not_split {op op' : Operator} {left right left' right' : Grouping α}
    (h : (node op left right).WellGrouped) (h' : (node op' left' right').WellGrouped)
    {between : List (α ⊕ Operator)} (hleft : left'.inOrder = left.inOrder ++ .inr op :: between)
    (hright : right.inOrder = between ++ .inr op' :: right'.inOrder) : False := by
  have hle : op.level ≤ op'.level := h'.level_le_left (by simp [hleft])
  have hlt : op'.level < op.level := h.level_lt_right (by simp [hright])
  omega

theorem mem_inOrder_node (op : Operator) (left right : Grouping α) :
    .inr op ∈ (node op left right).inOrder := by
  simp [inOrder]

theorem not_mem_inOrder_leaf (op : Operator) (a : α) : .inr op ∉ (leaf a).inOrder := by
  simp [inOrder]

theorem WellGrouped.eq_of_inOrder {g g' : Grouping α} (h : g.WellGrouped) (h' : g'.WellGrouped)
    (heq : g.inOrder = g'.inOrder) : g = g' := by
  induction g generalizing g' with
  | leaf a =>
    cases g' with
    | leaf b =>
      cases heq
      rfl
    | node op' left' right' =>
      have hmem := mem_inOrder_node op' left' right'
      rw [← heq] at hmem
      exact absurd hmem (not_mem_inOrder_leaf op' a)
  | node op left right ihl ihr =>
    cases g' with
    | leaf b =>
      have hmem := mem_inOrder_node op left right
      rw [heq] at hmem
      exact absurd hmem (not_mem_inOrder_leaf op b)
    | node op' left' right' =>
      have hsplit : left.inOrder ++ .inr op :: right.inOrder =
          left'.inOrder ++ .inr op' :: right'.inOrder := heq
      -- either both roots stand at one place, or one of them stands in front of the other
      obtain ⟨between, hleft, hright⟩ | ⟨between, hleft, hright⟩ :=
        List.append_eq_append_iff.mp hsplit
      · cases between with
        | nil =>
          obtain ⟨hop, hrest⟩ := List.cons.inj hright
          cases hop
          rw [List.append_nil] at hleft
          rw [ihl h.2.2.1 h'.2.2.1 hleft.symm, ihr h.2.2.2 h'.2.2.2 hrest]
        | cons o between =>
          obtain ⟨hop, hrest⟩ := List.cons.inj hright
          cases hop
          exact (h.not_split h' hleft hrest).elim
      · cases between with
        | nil =>
          obtain ⟨hop, hrest⟩ := List.cons.inj hright
          cases hop
          rw [List.append_nil] at hleft
          rw [ihl h.2.2.1 h'.2.2.1 hleft, ihr h.2.2.2 h'.2.2.2 hrest.symm]
        | cons o between =>
          obtain ⟨hop, hrest⟩ := List.cons.inj hright
          cases hop
          exact (h'.not_split h hleft hrest).elim

/-! ## One tree at least -/

/-- The tree with one more operator and operand behind it. They go below the operators that are
looser. -/
def snoc (op : Operator) (a : α) : Grouping α → Grouping α
  | leaf b => node op (leaf b) (leaf a)
  | node o left right =>
    if o.level ≤ op.level then node op (node o left right) (leaf a)
    else node o left (right.snoc op a)

theorem inOrder_snoc (op : Operator) (a : α) (g : Grouping α) :
    (g.snoc op a).inOrder = g.inOrder ++ [.inr op, .inl a] := by
  induction g with
  | leaf b => rfl
  | node o left right _ ihr =>
    rw [snoc]
    split
    · rfl
    · rw [inOrder, ihr, inOrder, List.append_assoc, List.cons_append]

theorem root?_snoc (op : Operator) (a : α) (g : Grouping α) :
    (g.snoc op a).root? = some op ∨ (g.snoc op a).root? = g.root? := by
  cases g with
  | leaf b => exact .inl rfl
  | node o left right =>
    rw [snoc]
    split
    · exact .inl rfl
    · exact .inr rfl

theorem WellGrouped.snoc {g : Grouping α} (h : g.WellGrouped) (op : Operator) (a : α) :
    (g.snoc op a).WellGrouped := by
  induction g with
  | leaf b => exact ⟨nofun, nofun, trivial, trivial⟩
  | node o left right _ ihr =>
    rw [Grouping.snoc]
    split
    · rename_i hle
      refine ⟨?_, nofun, h, trivial⟩
      rintro _ ⟨⟩
      exact hle
    · rename_i hlt
      refine ⟨h.1, fun o' ho' => ?_, h.2.2.1, ihr h.2.2.2⟩
      rcases root?_snoc op a right with hroot | hroot
      · rw [hroot] at ho'
        cases ho'
        omega
      · rw [hroot] at ho'
        exact h.2.1 o' ho'

def append (g : Grouping α) (others : List (Operator × α)) : Grouping α :=
  others.foldl (fun g (op, a) => g.snoc op a) g

theorem inOrder_append (g : Grouping α) (others : List (Operator × α)) :
    (g.append others).inOrder =
      g.inOrder ++ others.flatMap fun (op, a) => [.inr op, .inl a] := by
  induction others generalizing g with
  | nil => simp [append]
  | cons other others ih =>
    obtain ⟨op, a⟩ := other
    show ((g.snoc op a).append others).inOrder = _
    rw [ih, inOrder_snoc, List.append_assoc, List.flatMap_cons]

theorem WellGrouped.append {g : Grouping α} (h : g.WellGrouped)
    (others : List (Operator × α)) : (g.append others).WellGrouped := by
  induction others generalizing g with
  | nil => exact h
  | cons other others ih => exact ih (h.snoc other.1 other.2)

end Grouping

theorem existsUnique_grouping {α : Type} (first : α) (others : List (Operator × α)) :
    ∃! g : Grouping α, g.WellGrouped ∧ g.inOrder = row first others := by
  have hwell : (Grouping.leaf first).WellGrouped := trivial
  refine ⟨(Grouping.leaf first).append others, ⟨hwell.append others, ?_⟩, ?_⟩
  · rw [Grouping.inOrder_append]
    rfl
  · rintro g ⟨hg, heq⟩
    refine hg.eq_of_inOrder (hwell.append others) ?_
    rw [heq, Grouping.inOrder_append]
    rfl

/-! ## Reading -/

/-- A list of tokens that is read as one operand of the tightest operators, at least in front of
something, and the tree that is read. -/
structure Operand where
  tokens : List Token
  tree : Expr
  reads : ∃ rest, primary (tokens.map .token ++ rest) = .ok (tree, rest)

theorem Operand.derives (a : Operand) : Primary a.tokens a.tree := by
  obtain ⟨rest, hread⟩ := a.reads
  obtain ⟨tokens, hitems, hder⟩ := primary_sound _ hread
  have htokens : a.tokens = tokens :=
    List.map_injective_iff.mpr (fun _ _ => Item.token.inj) (List.append_cancel_right hitems)
  rw [htokens]
  exact hder

def rowTokens (r : List (Operand ⊕ Operator)) : List Token :=
  r.flatMap (Sum.elim Operand.tokens fun op => [.operator op])

namespace Grouping

def toExpr : Grouping Operand → Expr
  | leaf a => a.tree
  | node op left right => .binary op left.toExpr right.toExpr

/-- A level is loose enough for a tree if it is that of its root or a looser one. -/
theorem WellGrouped.chain {g : Grouping Operand} (h : g.WellGrouped) {level : Nat}
    (hlevel : ∀ op ∈ g.root?, op.level ≤ level) :
    Chain level (rowTokens g.inOrder) g.toExpr := by
  induction g generalizing level with
  | leaf a =>
    rw [rowTokens, inOrder, List.flatMap_singleton]
    exact a.derives.chain level
  | node op left right ihl ihr =>
    obtain ⟨hleft, hright, hl, hr⟩ := h
    obtain ⟨below, -, hmem⟩ := exists_mem_operatorsOf op
    have hop := mem_operatorsOf.mp hmem
    have hchain : Chain (below + 1) (rowTokens left.inOrder ++ .operator op ::
        rowTokens right.inOrder) (.binary op left.toExpr right.toExpr) := by
      refine .apply hmem (ihl hl fun o ho => ?_) (ihr hr fun o ho => ?_)
      · exact hop ▸ hleft o ho
      · have := hright o ho
        omega
    have htokens : rowTokens (node op left right).inOrder =
        rowTokens left.inOrder ++ .operator op :: rowTokens right.inOrder := by
      rw [rowTokens, inOrder, List.flatMap_append, List.flatMap_cons]
      rfl
    rw [htokens]
    exact hchain.lift (hop ▸ hlevel op rfl)

end Grouping

theorem level_le_loosestLevel (op : Operator) : op.level ≤ loosestLevel := by
  cases op <;> decide

/-- **A row is grouped by precedence and from the left.** Powers bind tighter than products, these
than sums and these than comparisons, as they are listed for the grammar. Exactly one well grouped
tree has the row as its in-order reading. The row, with the end or a token that ends a statement
behind it, is read as that tree, and what is behind it is left unread. -/
theorem expression_groups (first : Operand) (others : List (Operator × Operand)) :
    (∀ op, ∃ i, op ∈ operatorsOf i) ∧
    (∀ i j, ∀ op ∈ operatorsOf i, ∀ op' ∈ operatorsOf j, op.level < op'.level ↔ i < j) ∧
    (∃! g : Grouping Operand, g.WellGrouped ∧ g.inOrder = row first others) ∧
    ∀ g : Grouping Operand, g.WellGrouped → g.inOrder = row first others →
      ∀ (c : Cursor) (rest : List Item),
        c.items = (rowTokens (row first others)).map .token ++ rest → Closes rest →
        c.expression = (.ok g.toExpr, c.moveTo rest) := by
  refine ⟨fun op => ⟨op.level, mem_operatorsOf.mpr rfl⟩, fun i j op hop op' hop' =>
    level_lt_iff hop hop', existsUnique_grouping first others,
    fun g hwell hrow c rest hitems hrest => ?_⟩
  have hread := chain_closed
    ((hwell.chain fun op _ => level_le_loosestLevel op).read (hrest.stops 3)) hrest
  rw [hrow, ← hitems] at hread
  rw [Cursor.expression, hread]
  rfl

def Operand.name (s : String) : Operand :=
  ⟨[.identifier s], .var s, [], by rw [List.append_nil, List.map_singleton, primary_eq]⟩

/-- Operators of all levels, and two each of those of sums and of comparisons. -/
theorem expression_groups_levels :
    (Cursor.ofText "a<b-c*d^e-f>=g;h").expression =
      (.ok (.binary .ge
        (.binary .lt (.var "a")
          (.binary .sub
            (.binary .sub (.var "b") (.binary .mul (.var "c") (.binary .pow (.var "d") (.var "e"))))
            (.var "f")))
        (.var "g")),
      (Cursor.ofText "a<b-c*d^e-f>=g;h").moveTo [.token .semicolon, .token (.identifier "h")]) := by
  have hwell : (Grouping.node .ge
      (.node .lt (.leaf (Operand.name "a"))
        (.node .sub
          (.node .sub (.leaf (.name "b"))
            (.node .mul (.leaf (.name "c")) (.node .pow (.leaf (.name "d")) (.leaf (.name "e")))))
          (.leaf (.name "f"))))
      (.leaf (.name "g"))).WellGrouped := by
    simp [Grouping.WellGrouped, Grouping.root?, Operator.level]
  refine (expression_groups (.name "a") [(.lt, .name "b"), (.sub, .name "c"), (.mul, .name "d"),
    (.pow, .name "e"), (.sub, .name "f"), (.ge, .name "g")]).2.2.2 _ hwell rfl
    (Cursor.ofText "a<b-c*d^e-f>=g;h") _ ?_ closes_semicolon
  cbv

end Grammar
end FormulaLang

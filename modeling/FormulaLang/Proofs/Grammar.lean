import FormulaLang.Proofs.Numeral
import FormulaLang.Program.Parse

/-!
# FormulaLang.Proofs.Grammar

The grammar of programs, as relations between a list of tokens and the tree that the list derives.

* `operatorsOf`: the operators of each level, from the powers to the comparisons.
* `Primary`, `Chain level`: operands of the tightest operators, and chains of a level. A chain
  grouped from the left ends with its last operator, so `Chain` recurses on the left operand. A
  whole expression is a chain of comparisons, which have level 4.
* `Statement`, `Arguments`, `Statements`: assignments and expressions, the arguments of a call,
  and whole programs, which may end with a semicolon.

The relations know nothing of lookahead or of the order of reading. A quoted token derives a
quote if its payload, scanned on its own, derives a program.
-/

namespace FormulaLang
namespace Grammar

open Item

/-- The operators that chains of each level are made of. -/
def operatorsOf : Nat → List Operator
  | 1 => [.pow]
  | 2 => [.mul, .div, .rem]
  | 3 => [.add, .sub]
  | 4 => [.eq, .ne, .lt, .le, .gt, .ge]
  | _ => []

theorem mem_operatorsOf {op : Operator} {level : Nat} :
    op ∈ operatorsOf level ↔ op.level = level := by
  constructor
  · intro h
    unfold operatorsOf at h
    split at h
    case h_5 => cases h
    all_goals
      revert op
      decide
  · rintro rfl
    cases op <;> decide

theorem exists_mem_operatorsOf (op : Operator) : ∃ below < 4, op ∈ operatorsOf (below + 1) := by
  refine ⟨op.level - 1, ?_, mem_operatorsOf.mpr ?_⟩
  · cases op <;> decide
  · cases op <;> rfl

theorem level_lt_iff {op op' : Operator} {i j : Nat} (h : op ∈ operatorsOf i)
    (h' : op' ∈ operatorsOf j) : op.level < op'.level ↔ i < j := by
  rw [mem_operatorsOf.mp h, mem_operatorsOf.mp h']

mutual

inductive Primary : List Token → Expr → Prop where
  | number {literal : String} : Decimal.Numeral literal.toList →
      Primary [.number literal] (.num (Decimal.numeral literal.toList).toFloat)
  | quoted {payload : String} {tokens : List Token} {p : Program} :
      scan payload.toList = tokens.map .token → Statements tokens p →
      Primary [.quoted payload] (.quote p)
  | variable {name : String} : Primary [.identifier name] (.var name)
  | callEmpty {name : String} :
      Primary [.identifier name, .leftParen, .rightParen] (.call name [])
  | call {name : String} {tokens : List Token} {es : List Expr} : Arguments tokens es →
      Primary (.identifier name :: .leftParen :: (tokens ++ [.rightParen])) (.call name es)
  | group {tokens : List Token} {e : Expr} : Chain 4 tokens e →
      Primary (.leftParen :: (tokens ++ [.rightParen])) e

inductive Chain : Nat → List Token → Expr → Prop where
  | operand {tokens : List Token} {e : Expr} : Primary tokens e → Chain 0 tokens e
  | single {level : Nat} {tokens : List Token} {e : Expr} :
      Chain level tokens e → Chain (level + 1) tokens e
  | apply {level : Nat} {op : Operator} {ls rs : List Token} {left right : Expr} :
      op ∈ operatorsOf (level + 1) → Chain (level + 1) ls left → Chain level rs right →
      Chain (level + 1) (ls ++ .operator op :: rs) (.binary op left right)

inductive Statement : List Token → Expr → Prop where
  | assign {name : String} {tokens : List Token} {e : Expr} : Chain 4 tokens e →
      Statement (.identifier name :: .assign :: tokens) (.assign name e)
  | expression {tokens : List Token} {e : Expr} : Chain 4 tokens e →
      Statement tokens e

inductive Arguments : List Token → List Expr → Prop where
  | last {tokens : List Token} {e : Expr} : Statement tokens e → Arguments tokens [e]
  | cons {ts us : List Token} {e : Expr} {es : List Expr} : Statement ts e → Arguments us es →
      Arguments (ts ++ .comma :: us) (e :: es)

inductive Statements : List Token → Program → Prop where
  | empty : Statements [] []
  | last {tokens : List Token} {e : Expr} : Statement tokens e → Statements tokens [e]
  | cons {ts us : List Token} {e : Expr} {es : Program} : Statement ts e → Statements us es →
      Statements (ts ++ .semicolon :: us) (e :: es)

end

theorem Chain.lift {level level' : Nat} {tokens : List Token} {e : Expr} (h : Chain level tokens e)
    (hle : level ≤ level') : Chain level' tokens e := by
  induction hle with
  | refl => exact h
  | step _ ih => exact .single ih

theorem Primary.chain {tokens : List Token} {e : Expr} (h : Primary tokens e) (level : Nat) :
    Chain level tokens e :=
  (Chain.operand h).lift (Nat.zero_le level)

/-- An operator applied to chains of tighter levels is a chain. -/
theorem Chain.binary {op : Operator} {ls rs : List Token} {left right : Expr}
    (hl : Primary ls left) (hr : Primary rs right) :
    Chain 4 (ls ++ .operator op :: rs) (.binary op left right) := by
  obtain ⟨below, hlt, hop⟩ := exists_mem_operatorsOf op
  exact (Chain.apply hop (hl.chain (below + 1)) (hr.chain below)).lift hlt

/-! ## No part of a program is empty -/

theorem Primary.tokens_ne_nil {tokens : List Token} {e : Expr} (h : Primary tokens e) :
    tokens ≠ [] := by
  cases h <;> simp

theorem Chain.tokens_ne_nil :
    ∀ {level : Nat} {tokens : List Token} {e : Expr}, Chain level tokens e → tokens ≠ []
  | _, _, _, .operand h => h.tokens_ne_nil
  | _, _, _, .single h => h.tokens_ne_nil
  | _, _, _, .apply _ _ _ => by simp

theorem Statement.tokens_ne_nil {tokens : List Token} {e : Expr} (h : Statement tokens e) :
    tokens ≠ [] := by
  cases h with
  | assign _ => simp
  | expression h => exact h.tokens_ne_nil

end Grammar
end FormulaLang

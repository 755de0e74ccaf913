import FormulaLang.Decimal.Read
import FormulaLang.Program.Basic
import FormulaLang.Program.ParseError
import FormulaLang.Text.Blank
import FormulaLang.Token.Scan

/-!
# FormulaLang.Program.Parse

Reading programs. The grammar over items is

    program    := [statement (";" statement)* [";"]]
    statement  := identifier "=" expression | expression
    expression := the chain of level 4
    chain n+1  := chain n (operator of level n+1, chain n)*      grouped from the left
    chain 0    := number | quoted | identifier ["(" [statement ("," statement)*] ")"]
                | "(" expression ")"

A quoted token holds a program that is scanned and read on its own. Reading looks one item ahead,
and two at the start of a statement; the first item that it cannot use is the error, and a bad
slice is an error as soon as it is looked at.

The readers return the unread items together with a proof that they weigh less than what was
given; the weight counts the characters inside quotes, so that reading a payload ends as well.
The equations of the readers without these proofs are in `Program.Reader`.
-/

namespace FormulaLang

namespace Item

/-- An upper bound on the steps that reading an item takes. -/
def weight : Item → Nat
  | .token (.quoted payload) => payload.toList.length + 1
  | _ => 1

def totalWeight : List Item → Nat
  | [] => 0
  | item :: items => item.weight + totalWeight items

theorem weight_pos (item : Item) : 0 < item.weight := by
  unfold weight
  split <;> omega

theorem weight_le_length {item : Item} (h : item.text.toList ≠ []) :
    item.weight ≤ item.text.toList.length := by
  have := List.length_pos_iff.mpr h
  unfold weight
  split
  · simp [text, Token.text]
  · omega

theorem totalWeight_scan (cs : List Char) : totalWeight (scan cs) ≤ cs.length := by
  match cs with
  | [] => simp [scan_nil, totalWeight]
  | c :: cs =>
    have ih := totalWeight_scan (scanFirst c cs).2
    have hw := weight_le_length (scanFirst_text_ne_nil c cs)
    have hlen := congrArg List.length (text_scanFirst c cs)
    simp only [List.length_append] at hlen
    rw [scan_cons, totalWeight]
    omega
termination_by cs.length
decreasing_by exact length_scanFirst c cs

end Item

open Item

/-- Why reading stopped: the cause, the unread items from the offending one on, and how far inside
that item the error lies, which is more than zero only inside a quote. -/
structure Failure where
  cause : ParseError.Cause
  inner : Nat
  rest : List Item

namespace Failure

/-- The failure at the first of `items` when a different token is needed there. -/
def refuse (onToken : Token → ParseError.Cause) (onEnd : ParseError.Cause) (items : List Item) :
    Failure :=
  match items with
  | [] => ⟨onEnd, 0, []⟩
  | .token t :: rest => ⟨onToken t, 0, .token t :: rest⟩
  | .bad slice :: rest => ⟨.unexpectedCharacter slice, 0, .bad slice :: rest⟩

def position (f : Failure) (items : List Item) : Nat :=
  totalSize items - totalSize f.rest + f.inner

end Failure

def loosestLevel : Nat := 4

namespace Program

/-- What a reader of `items` gives: a result with fewer unread items, or a failure. -/
abbrev Reading (α : Type) (items : List Item) :=
  Except Failure (α × { rest : List Item // totalWeight rest < totalWeight items })

mutual

def readPrimary (items : List Item) : Reading Expr items :=
  match items with
  | .token (.number literal) :: rest =>
    match Decimal.readPlain? literal.toList with
    | some d => .ok (.num d.toFloat, ⟨rest, by simp [totalWeight, weight]⟩)
    | none => .error ⟨.invalidNumber literal, 0, .token (.number literal) :: rest⟩
  | .token (.quoted payload) :: rest =>
    match readProgram (scan payload.toList) with
    | .ok statements => .ok (.quote statements, ⟨rest, by simp [totalWeight, weight]⟩)
    | .error f =>
      .error ⟨f.cause, 1 + f.position (scan payload.toList), .token (.quoted payload) :: rest⟩
  | .token (.identifier name) :: .token .leftParen :: rest =>
    match readArguments rest with
    | .error f => .error f
    | .ok (arguments, ⟨rest', h⟩) =>
      .ok (.call name arguments, ⟨rest', by simp [totalWeight, weight]; omega⟩)
  | .token (.identifier _) :: .bad slice :: rest =>
    .error ⟨.unexpectedCharacter slice, 0, .bad slice :: rest⟩
  | .token (.identifier name) :: rest =>
    .ok (.var name, ⟨rest, by simp [totalWeight, weight]⟩)
  | .token .leftParen :: rest =>
    match readChain loosestLevel rest with
    | .error f => .error f
    | .ok (e, ⟨after, h⟩) =>
      match after with
      | .token .rightParen :: rest' => .ok (e, ⟨rest', by simp [totalWeight, weight] at h ⊢; omega⟩)
      | after => .error (.refuse (fun _ => .missingClosingParen) .missingClosingParen after)
  | items => .error (.refuse (fun t => .unexpectedToken t.text) .unexpectedEnd items)
termination_by (totalWeight items, 0)
decreasing_by
  · have := totalWeight_scan payload.toList
    simp [totalWeight, weight, Prod.lex_def]; omega
  · simp [totalWeight, weight, Prod.lex_def]; omega
  · simp [totalWeight, weight, Prod.lex_def]

def readChain (level : Nat) (items : List Item) : Reading Expr items :=
  match level with
  | 0 => readPrimary items
  | level + 1 =>
    match readChain level items with
    | .error f => .error f
    | .ok (left, ⟨rest, h⟩) =>
      match readOperators level left rest with
      | .error f => .error f
      | .ok (e, ⟨rest', h'⟩) => .ok (e, ⟨rest', by omega⟩)
termination_by (totalWeight items, level + 1)

/-- Reads the operators of level `level + 1` that follow the operand `left`. -/
def readOperators (level : Nat) (left : Expr) (items : List Item) :
    Except Failure (Expr × { rest : List Item // totalWeight rest ≤ totalWeight items }) :=
  match items with
  | .bad slice :: rest => .error ⟨.unexpectedCharacter slice, 0, .bad slice :: rest⟩
  | .token (.operator op) :: rest =>
    if op.level = level + 1 then
      match readChain level rest with
      | .error f => .error f
      | .ok (right, ⟨rest', h⟩) =>
        match readOperators level (.binary op left right) rest' with
        | .error f => .error f
        | .ok (e, ⟨rest'', h'⟩) => .ok (e, ⟨rest'', by simp [totalWeight, weight]; omega⟩)
    else .ok (left, ⟨.token (.operator op) :: rest, Nat.le_refl _⟩)
  | items => .ok (left, ⟨items, Nat.le_refl _⟩)
termination_by (totalWeight items, 0)
decreasing_by
  · simp [totalWeight, weight, Prod.lex_def]
  · simp [totalWeight, weight, Prod.lex_def]; omega

/-- Reads a statement. An identifier may open an assignment, so the item behind it decides. -/
def readStatement (items : List Item) : Reading Expr items :=
  match items with
  | .token (.identifier name) :: .token .assign :: rest =>
    match readChain loosestLevel rest with
    | .error f => .error f
    | .ok (value, ⟨rest', h⟩) =>
      .ok (.assign name value, ⟨rest', by simp [totalWeight, weight]; omega⟩)
  | .token (.identifier _) :: .bad slice :: rest =>
    .error ⟨.unexpectedCharacter slice, 0, .bad slice :: rest⟩
  | items => readChain loosestLevel items
termination_by (totalWeight items, loosestLevel + 2)
decreasing_by
  · simp [totalWeight, weight, Prod.lex_def]; omega
  · simp [Prod.lex_def]

def readArguments (items : List Item) : Reading (List Expr) items :=
  match items with
  | .token .rightParen :: rest => .ok ([], ⟨rest, by simp [totalWeight, weight]⟩)
  | items => readArgumentList items
termination_by (totalWeight items, loosestLevel + 4)
decreasing_by simp [Prod.lex_def]

def readArgumentList (items : List Item) : Reading (List Expr) items :=
  match readStatement items with
  | .error f => .error f
  | .ok (e, ⟨after, h⟩) =>
    match after with
    | .token .comma :: rest =>
      match readArgumentList rest with
      | .error f => .error f
      | .ok (es, ⟨rest', h'⟩) =>
        .ok (e :: es, ⟨rest', by simp [totalWeight, weight] at h ⊢; omega⟩)
    | .token .rightParen :: rest => .ok ([e], ⟨rest, by simp [totalWeight, weight] at h ⊢; omega⟩)
    | after => .error (.refuse (fun t => .expectedComma t.text) .missingClosingParen after)
termination_by (totalWeight items, loosestLevel + 3)
decreasing_by
  · simp [Prod.lex_def]
  · simp [totalWeight, weight, Prod.lex_def] at h ⊢; omega

def readProgram (items : List Item) : Except Failure Program :=
  match items with
  | [] => .ok []
  | item :: items =>
    match readStatement (item :: items) with
    | .error f => .error f
    | .ok (e, ⟨after, _⟩) =>
      match after with
      | [] => .ok [e]
      | .token .semicolon :: rest =>
        match readProgram rest with
        | .error f => .error f
        | .ok es => .ok (e :: es)
      | after => .error (.refuse (fun t => .unexpectedToken t.text) .unexpectedEnd after)
termination_by (totalWeight items, loosestLevel + 3)
decreasing_by
  · simp [Prod.lex_def]
  · rename_i h; simp [totalWeight, weight, Prod.lex_def] at h ⊢; omega

end

end Program

end FormulaLang

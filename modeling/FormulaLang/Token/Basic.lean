import FormulaLang.Operator

/-!
# FormulaLang.Token.Basic

Tokens and items. An item is what the scanner yields: a token, or a bad slice of text that
belongs to no token. Every item keeps enough to give back its text.
-/

namespace FormulaLang

inductive Token where
  | number (literal : String)
  | identifier (name : String)
  | quoted (payload : String)
  | operator (op : Operator)
  | assign
  | leftParen
  | rightParen
  | comma
  | semicolon
  deriving DecidableEq, Repr

/-- The text of a token as it stands in a formula. -/
def Token.text : Token → String
  | .number literal => literal
  | .identifier name => name
  | .quoted payload => "\"" ++ payload ++ "\""
  | .operator op => op.symbol
  | .assign => "="
  | .leftParen => "("
  | .rightParen => ")"
  | .comma => ","
  | .semicolon => ";"

inductive Item where
  | token (t : Token)
  | bad (slice : String)
  deriving DecidableEq, Repr

namespace Item

def text : Item → String
  | .token t => t.text
  | .bad slice => slice

def size (item : Item) : Nat := item.text.utf8ByteSize

def totalSize : List Item → Nat
  | [] => 0
  | item :: items => item.size + totalSize items

end Item

end FormulaLang

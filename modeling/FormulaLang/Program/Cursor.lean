import FormulaLang.Program.Reader

/-!
# FormulaLang.Program.Cursor

A cursor stands in a text: it knows how many bytes lie behind it and which items are unread. Each
entry point reads from a cursor and gives the result with the cursor behind what it read, so that
reading can go on; after a failure that is behind the offending item.

`Program.parse` reads a whole formula, in which blanks mean nothing.
-/

namespace FormulaLang

open Item

structure Cursor where
  offset : Nat
  items : List Item

namespace Cursor

/-- The cursor at the start of a text. Blanks are not dropped. -/
def ofText (s : String) : Cursor := ⟨0, scan s.toList⟩

/-- The cursor in front of `rest`, which are the last items that are unread. -/
def moveTo (c : Cursor) (rest : List Item) : Cursor :=
  ⟨c.offset + (totalSize c.items - totalSize rest), rest⟩

/-- A reader's answer seen from a cursor. -/
def conclude {α : Type} (c : Cursor) :
    Except Failure (α × List Item) → Except ParseError α × Cursor
  | .error f => (.error ⟨f.cause, c.offset + f.position c.items⟩, c.moveTo f.rest.tail)
  | .ok (a, rest) => (.ok a, c.moveTo rest)

def expression (c : Cursor) : Except ParseError Expr × Cursor :=
  c.conclude (Program.chain loosestLevel c.items)

def statement (c : Cursor) : Except ParseError Expr × Cursor :=
  c.conclude (Program.statement c.items)

def program (c : Cursor) : Except ParseError Program × Cursor :=
  c.conclude <|
    match Program.readProgram c.items with
    | .error f => .error f
    | .ok p => .ok (p, [])

end Cursor

def Program.parse (source : String) : Except ParseError Program :=
  (Cursor.ofText (Text.strip source)).program.1

end FormulaLang

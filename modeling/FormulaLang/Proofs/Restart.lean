import FormulaLang.Proofs.Descent
import FormulaLang.Proofs.ErrorPosition

/-!
# FormulaLang.Proofs.Restart

The entry points of reading, called one after another on one cursor. Each ends: so many levels of
the descent as the text is long, times nine, answer as the readers do. An expression or a statement
that is read takes up at least one token and leaves the items behind its last one, and the cursor
stands where these begin. From there on it answers as a cursor at the start of the text behind,
since whatever is read, the bytes in front only add to the positions. Main statement:
`reading_restarts`.
-/

namespace FormulaLang

open Item Program Grammar Token

inductive Entry where
  | expression
  | statement
  | program

inductive Answer where
  | tree (e : Expr)
  | program (p : Program)

/-- The reader of an entry point. A program leaves no items. -/
def Program.Readers.read (r : Readers) (entry : Entry) (items : List Item) :
    Except Failure (Answer × List Item) :=
  match entry with
  | .expression => (r.chain loosestLevel items).map fun (e, rest) => (.tree e, rest)
  | .statement => (r.statement items).map fun (e, rest) => (.tree e, rest)
  | .program => (r.program items).map fun p => (.program p, [])

namespace Cursor

def call (entry : Entry) (c : Cursor) : Except ParseError Answer × Cursor :=
  match entry with
  | .expression => (c.expression.1.map .tree, c.expression.2)
  | .statement => (c.statement.1.map .tree, c.statement.2)
  | .program => (c.program.1.map .program, c.program.2)

def answers : List Entry → Cursor → List (Except ParseError Answer)
  | [], _ => []
  | entry :: entries, c => (c.call entry).1 :: answers entries (c.call entry).2

theorem call_eq (entry : Entry) (c : Cursor) :
    c.call entry = c.conclude (readers.read entry c.items) := by
  cases entry with
  | expression =>
    simp only [call, expression, Readers.read, readers]
    cases chain loosestLevel c.items <;> rfl
  | statement =>
    simp only [call, statement, Readers.read, readers]
    cases Program.statement c.items <;> rfl
  | program =>
    simp only [call, program, Readers.read, readers]
    cases readProgram c.items <;> rfl

/-! ## Enough levels -/

theorem read_iterate (r : Readers) {n : Nat} {items : List Item} (entry : Entry)
    (h : 9 * (totalWeight items + 1) ≤ n) :
    (Readers.unfold^[n] r).read entry items = readers.read entry items := by
  have hagree := agreeBelow_iterate r n
  have hloosest : loosestLevel = 4 := rfl
  cases entry with
  | expression =>
    simp only [Readers.read, hagree.chain loosestLevel items (Nat.le_refl _) (by omega)]
  | statement =>
    simp only [Readers.read, hagree.statement items (by omega)]
  | program =>
    simp only [Readers.read, hagree.program items (by omega)]

/-! ## More bytes in front -/

def advance (k : Nat) (c : Cursor) : Cursor := ⟨c.offset + k, c.items⟩

theorem conclude_advance {α : Type} (k : Nat) (c : Cursor)
    (r : Except Failure (α × List Item)) :
    (c.advance k).conclude r =
      ((c.conclude r).1.mapError (ParseError.shift k), (c.conclude r).2.advance k) := by
  have hmove (rest : List Item) : (c.advance k).moveTo rest = (c.moveTo rest).advance k := by
    rw [moveTo, advance, moveTo, advance, Nat.add_right_comm]
  cases r with
  | error f =>
    simp only [conclude, hmove, Except.mapError, ParseError.shift]
    simp only [advance, Nat.add_right_comm]
  | ok a =>
    simp only [conclude, hmove, Except.mapError]

theorem call_advance (k : Nat) (entry : Entry) (c : Cursor) :
    (c.advance k).call entry =
      ((c.call entry).1.mapError (ParseError.shift k), (c.call entry).2.advance k) := by
  rw [call_eq, call_eq]
  exact conclude_advance k c _

theorem answers_advance (k : Nat) (entries : List Entry) (c : Cursor) :
    (c.advance k).answers entries =
      (c.answers entries).map (Except.mapError (ParseError.shift k)) := by
  induction entries generalizing c with
  | nil => rfl
  | cons entry entries ih =>
    rw [answers, call_advance, ih, answers, List.map_cons]

/-! ## Behind what was read -/

/-- The cursor stands in the text, and whatever is read from it is read as from the start of the
text behind it, with errors so many bytes further on. -/
def Restarts (s : String) (c : Cursor) : Prop :=
  ∃ front behind, s = front ++ behind ∧ front.utf8ByteSize = c.offset ∧
    (ofText behind).items = c.items ∧
    ∀ entries, c.answers entries =
      ((ofText behind).answers entries).map (Except.mapError (ParseError.shift c.offset))

theorem join_tokens (tokens : List Token) : join (tokens.map .token) = .ofList (spell tokens) := by
  rw [join, List.map_map, spell, List.flatMap]
  rfl

theorem restarts_of_scan {s : String} {tokens : List Token} {rest : List Item}
    (h : scan s.toList = tokens.map .token ++ rest) :
    ((ofText s).moveTo rest).Restarts s := by
  obtain ⟨cs, hs, hscan, -⟩ := scan_eq_tokens h
  have hoffset : ((ofText s).moveTo rest).offset = totalSize (tokens.map .token) := by
    rw [moveTo, ofText, h, totalSize_append, Nat.add_sub_cancel, Nat.zero_add]
  have hitems : (ofText (.ofList cs)).items = rest := by
    rw [ofText, String.toList_ofList, hscan]
  have hcursor : (ofText s).moveTo rest =
      (ofText (.ofList cs)).advance (totalSize (tokens.map .token)) := by
    rw [advance, hitems, ← hoffset]
    exact congrArg (Cursor.mk · rest) (Nat.zero_add _).symm
  refine ⟨.ofList (spell tokens), .ofList cs, ?_, ?_, hitems, fun entries => ?_⟩
  · rw [← String.ofList_append, ← hs, String.ofList_toList]
  · rw [← join_tokens, utf8ByteSize_join, hoffset]
  · rw [hcursor, answers_advance, ← hcursor, hoffset]

theorem conclude_eq_ok {α : Type} {c c' : Cursor} {r : Except Failure (α × List Item)} {a : α}
    (h : c.conclude r = (.ok a, c')) : ∃ rest, r = .ok (a, rest) ∧ c' = c.moveTo rest := by
  match r with
  | .error f => cases h
  | .ok (b, rest) =>
    cases h
    exact ⟨rest, rfl, rfl⟩

end Cursor

open Cursor

/-- Reading ends and can go on. Levels of the descent, nine times as many as the text has characters
and nine more, answer as the entry points do. An expression or a statement that is read is derived
from at least one token, which with the unread items makes up those of the text; and the cursor
behind it answers all later calls as the text from there on does alone, with positions that count
the bytes in front. -/
theorem reading_restarts (s : String) :
    (∀ r n entry, 9 * (s.length + 1) ≤ n →
      (ofText s).conclude ((Readers.unfold^[n] r).read entry (scan s.toList)) =
        (ofText s).call entry) ∧
    (∀ e c, (ofText s).expression = (.ok e, c) →
      (∃ tokens, tokens ≠ [] ∧ scan s.toList = tokens.map .token ++ c.items ∧
        Chain loosestLevel tokens e) ∧ c.Restarts s) ∧
    ∀ e c, (ofText s).statement = (.ok e, c) →
      (∃ tokens, tokens ≠ [] ∧ scan s.toList = tokens.map .token ++ c.items ∧
        Statement tokens e) ∧ c.Restarts s := by
  refine ⟨fun r n entry hn => ?_, fun e c h => ?_, fun e c h => ?_⟩
  · have hweight := totalWeight_scan s.toList
    rw [String.length_toList] at hweight
    rw [call_eq, read_iterate r entry (by omega)]
    rfl
  · obtain ⟨rest, hread, rfl⟩ := conclude_eq_ok h
    obtain ⟨tokens, hscan, hder⟩ := chain_sound loosestLevel _ hread
    exact ⟨⟨tokens, hder.tokens_ne_nil, hscan, hder⟩, restarts_of_scan hscan⟩
  · obtain ⟨rest, hread, rfl⟩ := conclude_eq_ok h
    obtain ⟨tokens, hscan, hder⟩ := statement_sound _ hread
    exact ⟨⟨tokens, hder.tokens_ne_nil, hscan, hder⟩, restarts_of_scan hscan⟩

/-- Behind an assignment stands a parenthesis, which is an error at the same byte of the text. -/
theorem reading_restarts_assignment : ∃ c : Cursor,
    (ofText "y=a)b").statement = (.ok (.assign "y" (.var "a")), c) ∧ c.Restarts "y=a)b" ∧
    c.answers [.program, .expression] =
      [.error ⟨.unexpectedToken ")", 3⟩, .ok (.tree (.var "b"))] := by
  have hread : (ofText "y=a)b").statement = (.ok (.assign "y" (.var "a")),
      ⟨3, [.token .rightParen, .token (.identifier "b")]⟩) := by
    cbv
  refine ⟨_, hread, ((reading_restarts _).2.2 _ _ hread).2, ?_⟩
  cbv

end FormulaLang

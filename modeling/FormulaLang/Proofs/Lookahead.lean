import FormulaLang.Proofs.Descent
import FormulaLang.Proofs.ReadComplete
import FormulaLang.Proofs.Refusal

/-!
# FormulaLang.Proofs.Lookahead

No reader looks past the item that it stops at. Whatever follows an item `x`, a reader has its
answer before it gets behind `x`, or it gets behind `x` (`Settles`); which of the two, and the
answer in the first case, depends on `x` and the items in front of it only. Main statement: a
program fails as it does whatever follows the offending item (`readProgram_error_of_prefix`).

A reader is put together from others by `andRead`, in each level of the descent alike, and most
readers look at one item to decide what to do (`Head`). Each rule of the grammar settles on longer
inputs if the rules that it uses settle on shorter ones (`Settled.step`).
-/

namespace FormulaLang
namespace Grammar

open Item Program

abbrev Reader (α : Type) := List Item → Except Failure (α × List Item)

/-- The items that an answer leaves unread. -/
def unread {α : Type} : Except Failure (α × List Item) → List Item
  | .error f => f.rest
  | .ok (_, rest) => rest

/-- Goes on behind what has been read, unless that failed. -/
def andRead {α β : Type} (r : Except Failure (α × List Item)) (next : α → Reader β) :
    Except Failure (β × List Item) :=
  match r with
  | .error f => .error f
  | .ok (a, rest) => next a rest

/-! ## One level of the readers -/

/-- What is read behind an expression in parentheses. -/
def closeGroup (e : Expr) : Reader Expr
  | .token .rightParen :: rest => .ok (e, rest)
  | items => .error (.refuse (fun _ => .missingClosingParen) .missingClosingParen items)

end Grammar

namespace Program.Readers

open Item Grammar

variable (q : Readers)

/-- What is read behind a name that begins an operand. -/
def afterName (name : String) : Reader Expr
  | .token .leftParen :: rest => andRead (q.arguments rest) fun es rest => .ok (.call name es, rest)
  | .bad slice :: rest => .error ⟨.unexpectedCharacter slice, 0, .bad slice :: rest⟩
  | items => .ok (.var name, items)

/-- What is read behind an argument. -/
def afterArgument (e : Expr) : Reader (List Expr)
  | .token .comma :: rest => andRead (q.argumentList rest) fun es rest => .ok (e :: es, rest)
  | .token .rightParen :: rest => .ok ([e], rest)
  | items => .error (.refuse (fun t => .expectedComma t.text) .missingClosingParen items)

/-- Reads a program, which leaves nothing unread. -/
def whole (items : List Item) : Except Failure (Program × List Item) :=
  match q.program items with
  | .error f => .error f
  | .ok p => .ok (p, [])

/-- What is read behind a statement of a program. -/
def afterStatement (e : Expr) : Reader Program
  | [] => .ok ([e], [])
  | .token .semicolon :: rest => andRead (q.whole rest) fun p rest => .ok (e :: p, rest)
  | items => .error (.refuse (fun t => .unexpectedToken t.text) .unexpectedEnd items)

theorem unfold_identifier (name : String) (items : List Item) :
    q.unfold.primary (.token (.identifier name) :: items) = q.afterName name items := by
  obtain _ | ⟨t | _, rest⟩ := items
  · rfl
  · cases t with
    | leftParen =>
      simp only [Readers.unfold, afterName, andRead]
      cases q.arguments rest <;> rfl
    | _ => rfl
  · rfl

theorem unfold_group (items : List Item) :
    q.unfold.primary (.token .leftParen :: items) =
      andRead (q.chain loosestLevel items) closeGroup := by
  simp only [Readers.unfold, andRead]
  cases q.chain loosestLevel items with
  | error f => rfl
  | ok r =>
    obtain ⟨e, _ | ⟨t | _, _⟩⟩ := r
    · rfl
    · cases t <;> rfl
    · rfl

theorem unfold_chain_succ (level : Nat) (items : List Item) :
    q.unfold.chain (level + 1) items = andRead (q.chain level items) (q.operators level) := by
  simp only [Readers.unfold, andRead]
  cases q.chain level items <;> rfl

theorem unfold_operator {level : Nat} {op : Operator} (h : op.level = level + 1) (left : Expr)
    (items : List Item) :
    q.unfold.operators level left (.token (.operator op) :: items) =
      andRead (q.chain level items) fun right => q.operators level (.binary op left right) := by
  simp only [Readers.unfold, andRead, if_pos h]
  cases q.chain level items <;> rfl

theorem unfold_assign (name : String) (items : List Item) :
    q.unfold.statement (.token (.identifier name) :: .token .assign :: items) =
      andRead (q.chain loosestLevel items) fun value rest => .ok (.assign name value, rest) := by
  simp only [Readers.unfold, andRead]
  cases q.chain loosestLevel items <;> rfl

theorem unfold_arguments_of_ne {items : List Item}
    (h : ∀ rest, items ≠ .token .rightParen :: rest) :
    q.unfold.arguments items = q.argumentList items := by
  obtain _ | ⟨t | _, rest⟩ := items
  · rfl
  · cases t with
    | rightParen => exact absurd rfl (h rest)
    | _ => rfl
  · rfl

theorem unfold_argumentList (items : List Item) :
    q.unfold.argumentList items = andRead (q.statement items) q.afterArgument := by
  simp only [Readers.unfold, andRead]
  cases q.statement items with
  | error f => rfl
  | ok r =>
    obtain ⟨e, _ | ⟨t | _, rest⟩⟩ := r
    · rfl
    · cases t with
      | comma =>
        simp only [afterArgument, andRead]
        cases q.argumentList rest <;> rfl
      | _ => rfl
    · rfl

theorem unfold_whole {items : List Item} (h : items ≠ []) :
    q.unfold.whole items = andRead (q.statement items) q.afterStatement := by
  obtain ⟨item, items, rfl⟩ := List.exists_cons_of_ne_nil h
  simp only [whole, Readers.unfold, andRead]
  cases q.statement (item :: items) with
  | error f => rfl
  | ok r =>
    obtain ⟨e, _ | ⟨t | _, rest⟩⟩ := r
    · rfl
    · cases t with
      | semicolon =>
        simp only [afterStatement, andRead, whole]
        cases q.program rest <;> rfl
      | _ => rfl
    · rfl

end Program.Readers

namespace Grammar

open Item Program

/-! ## The readers, put together -/

/-- What is read behind a name that begins an operand. -/
def afterName (name : String) : Reader Expr
  | .token .leftParen :: rest => andRead (arguments rest) fun es rest => .ok (.call name es, rest)
  | .bad slice :: rest => .error ⟨.unexpectedCharacter slice, 0, .bad slice :: rest⟩
  | items => .ok (.var name, items)

/-- What is read behind an argument. -/
def afterArgument (e : Expr) : Reader (List Expr)
  | .token .comma :: rest => andRead (argumentList rest) fun es rest => .ok (e :: es, rest)
  | .token .rightParen :: rest => .ok ([e], rest)
  | items => .error (.refuse (fun t => .expectedComma t.text) .missingClosingParen items)

/-- Reads a program, which leaves nothing unread. -/
def whole (items : List Item) : Except Failure (Program × List Item) :=
  match readProgram items with
  | .error f => .error f
  | .ok p => .ok (p, [])

/-- What is read behind a statement of a program. -/
def afterStatement (e : Expr) : Reader Program
  | [] => .ok ([e], [])
  | .token .semicolon :: rest => andRead (whole rest) fun p rest => .ok (e :: p, rest)
  | items => .error (.refuse (fun t => .unexpectedToken t.text) .unexpectedEnd items)

theorem primary_identifier (name : String) (items : List Item) :
    primary (.token (.identifier name) :: items) = afterName name items := by
  have hlevel := readers.unfold_identifier name items
  rwa [unfold_readers] at hlevel

theorem primary_leftParen (items : List Item) :
    primary (.token .leftParen :: items) = andRead (chain loosestLevel items) closeGroup := by
  have hlevel := readers.unfold_group items
  rwa [unfold_readers] at hlevel

theorem chain_succ_eq_andRead (level : Nat) (items : List Item) :
    chain (level + 1) items = andRead (chain level items) (operators level) := by
  have hlevel := readers.unfold_chain_succ level items
  rwa [unfold_readers] at hlevel

theorem operators_operator {level : Nat} {op : Operator} (h : op.level = level + 1) (left : Expr)
    (items : List Item) :
    operators level left (.token (.operator op) :: items) =
      andRead (chain level items) fun right => operators level (.binary op left right) := by
  have hlevel := readers.unfold_operator h left items
  rwa [unfold_readers] at hlevel

/-- A statement is an expression, unless a name and an assignment sign begin it. -/
theorem statement_of_not_assign {items : List Item}
    (h : ∀ name rest, items ≠ .token (.identifier name) :: .token .assign :: rest) :
    statement items = chain loosestLevel items := by
  rw [statement_eq]
  split
  · exact absurd rfl (h _ _)
  · exact (chain_error (by rw [primary_identifier]; rfl) loosestLevel).symm
  · rfl

theorem statement_assign (name : String) (items : List Item) :
    statement (.token (.identifier name) :: .token .assign :: items) =
      andRead (chain loosestLevel items) fun value rest => .ok (.assign name value, rest) := by
  have hlevel := readers.unfold_assign name items
  rwa [unfold_readers] at hlevel

theorem arguments_of_ne {items : List Item} (h : ∀ rest, items ≠ .token .rightParen :: rest) :
    arguments items = argumentList items := by
  have hlevel := readers.unfold_arguments_of_ne h
  rwa [unfold_readers] at hlevel

theorem argumentList_eq_andRead (items : List Item) :
    argumentList items = andRead (statement items) afterArgument := by
  have hlevel := readers.unfold_argumentList items
  rwa [unfold_readers] at hlevel

theorem whole_eq_andRead {items : List Item} (h : items ≠ []) :
    whole items = andRead (statement items) afterStatement := by
  have hlevel := readers.unfold_whole h
  rwa [unfold_readers] at hlevel

/-! ## Readers leave no more than they are given -/

def Shortens {α : Type} (read : Reader α) : Prop :=
  ∀ items, (unread (read items)).length ≤ items.length

section Shortens

theorem Fails.length_le {Complete : List Token → Prop} {items : List Item} {f : Failure}
    (h : Fails Complete items f) : f.rest.length ≤ items.length := by
  obtain ⟨-, front, -, rfl, -⟩ := h
  simp

theorem shortens_of {α : Type} {read : Reader α} {Complete : List Token → Prop}
    (hok : ∀ items {a : α} {rest : List Item}, read items = .ok (a, rest) →
      ∃ tokens : List Token, items = tokens.map .token ++ rest)
    (herror : ∀ items {f : Failure}, read items = .error f → Fails Complete items f) :
    Shortens read := by
  intro items
  cases h : read items with
  | error f => exact (herror items h).length_le
  | ok r =>
    obtain ⟨tokens, rfl⟩ := hok items h
    simp [unread]

theorem shortens_chain (level : Nat) : Shortens (chain level) := by
  refine shortens_of (fun items _ _ h => ?_) (chain_fails level)
  obtain ⟨tokens, heq, -⟩ := chain_sound level items h
  exact ⟨tokens, heq⟩

theorem shortens_statement : Shortens statement := by
  refine shortens_of (fun items _ _ h => ?_) statement_fails
  obtain ⟨tokens, heq, -⟩ := statement_sound items h
  exact ⟨tokens, heq⟩

theorem shortens_argumentList : Shortens argumentList := by
  refine shortens_of (fun items _ _ h => ?_) argumentList_fails
  obtain ⟨tokens, rfl, -⟩ := argumentList_sound items h
  exact ⟨tokens ++ [.rightParen], by simp⟩

theorem shortens_arguments : Shortens arguments := by
  intro items
  rw [arguments_eq]
  split
  · simp [unread]
  · exact shortens_argumentList _

theorem shortens_operators (level : Nat) (left : Expr) : Shortens (operators level left) := by
  refine shortens_of (fun items _ _ h => ?_) (operators_fails level left)
  obtain ⟨tokens, heq, -⟩ := operators_sound level left items h
  exact ⟨tokens, heq⟩

theorem shortens_whole : Shortens whole := by
  intro items
  rw [whole]
  cases h : readProgram items with
  | error f => exact (readProgram_fails items h).length_le
  | ok p => exact Nat.zero_le _

theorem shortens_ok {α : Type} (a : α) : Shortens fun items => .ok (a, items) :=
  fun _ => Nat.le_refl _

theorem shortens_refuse {α : Type} (onToken : Token → ParseError.Cause)
    (onEnd : ParseError.Cause) :
    Shortens fun items => (.error (.refuse onToken onEnd items) : Except Failure (α × List Item)) :=
  fun _ => Nat.le_of_eq (congrArg List.length Failure.rest_refuse)

theorem length_andRead {α β : Type} {r : Except Failure (α × List Item)} {next : α → Reader β}
    {n : Nat} (hr : (unread r).length ≤ n) (hnext : ∀ a, Shortens (next a)) :
    (unread (andRead r next)).length ≤ n := by
  cases r with
  | error f => exact hr
  | ok r => exact Nat.le_trans (hnext r.1 r.2) hr

theorem Shortens.andRead {α β : Type} {read : Reader α} {next : α → Reader β}
    (hread : Shortens read) (hnext : ∀ a, Shortens (next a)) :
    Shortens fun items => andRead (read items) next :=
  fun items => length_andRead (hread items) hnext

/-- A reader that drops the first item it is given. -/
theorem length_drop {α : Type} {read : Reader α} (h : Shortens read) (y : Item)
    (items : List Item) : (unread (read items)).length ≤ (y :: items).length :=
  Nat.le_succ_of_le (h items)

theorem shortens_afterName (name : String) : Shortens (afterName name) := by
  intro items
  unfold afterName
  split
  · exact length_drop (shortens_arguments.andRead fun es => shortens_ok _) _ _
  · exact Nat.le_refl _
  · exact Nat.le_refl _

theorem shortens_closeGroup (e : Expr) : Shortens (closeGroup e) := by
  intro items
  unfold closeGroup
  split
  · exact length_drop (shortens_ok e) _ _
  · exact shortens_refuse (α := Expr) _ _ _

theorem shortens_afterArgument (e : Expr) : Shortens (afterArgument e) := by
  intro items
  unfold afterArgument
  split
  · exact length_drop (shortens_argumentList.andRead fun es => shortens_ok _) _ _
  · exact length_drop (shortens_ok [e]) _ _
  · exact shortens_refuse (α := List Expr) _ _ _

theorem shortens_afterStatement (e : Expr) : Shortens (afterStatement e) := by
  intro items
  unfold afterStatement
  split
  · exact Nat.le_refl _
  · exact length_drop (shortens_whole.andRead fun p => shortens_ok _) _ _
  · exact shortens_refuse (α := Program) _ _ _

/-- A name is always read. -/
theorem length_chain_identifier (level : Nat) (name : String) (items : List Item) :
    (unread (chain level (.token (.identifier name) :: items))).length ≤ items.length := by
  induction level with
  | zero =>
    rw [chain_zero, primary_identifier]
    exact shortens_afterName name items
  | succ level ih =>
    rw [chain_succ_eq_andRead]
    exact length_andRead ih (shortens_operators level)

theorem length_statement_identifier (name : String) (items : List Item) :
    (unread (statement (.token (.identifier name) :: items))).length ≤ items.length := by
  by_cases h : ∃ rest, items = .token .assign :: rest
  · obtain ⟨rest, rfl⟩ := h
    rw [statement_assign]
    exact length_drop ((shortens_chain loosestLevel).andRead fun value => shortens_ok _) _ _
  · rw [statement_of_not_assign]
    · exact length_chain_identifier loosestLevel name items
    · rintro _ rest ⟨⟩
      exact h ⟨rest, rfl⟩

end Shortens

/-! ## Answers that settle -/

/-- Behind `front`, the reader has an answer before it gets behind `x`, or it gets behind `x`,
whatever follows. -/
inductive Settles {α : Type} (read : Reader α) (front : List Item) (x : Item) : Prop where
  | reads (a : α) (mid : List Item) :
      (∀ rest, read (front ++ x :: rest) = .ok (a, mid ++ x :: rest)) → Settles read front x
  | fails (cause : ParseError.Cause) (inner : Nat) (mid : List Item) :
      (∀ rest, read (front ++ x :: rest) = .error ⟨cause, inner, mid ++ x :: rest⟩) →
      Settles read front x
  | beyond : (∀ rest, (unread (read (front ++ x :: rest))).length ≤ rest.length) →
      Settles read front x

theorem Settles.congr {α : Type} {read read' : Reader α} {front front' : List Item} {x : Item}
    (h : Settles read' front' x) (heq : ∀ rest, read (front ++ x :: rest) = read' (front' ++ x :: rest)) :
    Settles read front x := by
  cases h with
  | reads a mid h => exact .reads a mid fun rest => (heq rest).trans (h rest)
  | fails cause inner mid h => exact .fails cause inner mid fun rest => (heq rest).trans (h rest)
  | beyond h => exact .beyond fun rest => by rw [heq]; exact h rest

def SettlesBelow {α : Type} (n : Nat) (read : Reader α) : Prop :=
  ∀ front x, front.length < n → Settles read front x

theorem settlesBelow_zero {α : Type} (read : Reader α) : SettlesBelow 0 read :=
  fun _ _ h => absurd h (Nat.not_lt_zero _)

theorem settlesBelow_ok {α : Type} (n : Nat) (a : α) :
    SettlesBelow n fun items => .ok (a, items) :=
  fun front _ _ => .reads a front fun _ => rfl

theorem SettlesBelow.mono {α : Type} {n m : Nat} {read : Reader α} (h : SettlesBelow n read)
    (hle : m ≤ n) : SettlesBelow m read :=
  fun front x hfront => h front x (Nat.lt_of_lt_of_le hfront hle)

theorem SettlesBelow.congr {α : Type} {n : Nat} {read read' : Reader α}
    (h : SettlesBelow n read') (heq : ∀ items, read items = read' items) : SettlesBelow n read :=
  fun front x hfront => (h front x hfront).congr fun _ => heq _

theorem SettlesBelow.andRead {α β : Type} {n : Nat} {read : Reader α} {next : α → Reader β}
    (hread : SettlesBelow n read) (hnext : ∀ a, SettlesBelow n (next a))
    (hshort : Shortens read) (hshort' : ∀ a, Shortens (next a)) :
    SettlesBelow n fun items => andRead (read items) next := by
  intro front x hfront
  cases hread front x hfront with
  | reads a mid h =>
    have hmid : mid.length ≤ front.length := by
      have hlen := hshort (front ++ x :: [])
      rw [h, unread] at hlen
      simpa using hlen
    refine (hnext a mid x (Nat.lt_of_le_of_lt hmid hfront)).congr fun rest => ?_
    rw [h]
    rfl
  | fails cause inner mid h =>
    refine .fails cause inner mid fun rest => ?_
    rw [h]
    rfl
  | beyond h => exact .beyond fun rest => length_andRead (h rest) hshort'

/-- What a reader does at its first item: it drops it and goes on as another reader, or it stops
there. -/
inductive Head {α : Type} (n : Nat) (read : Reader α) (y : Item) : Prop where
  | takes {next : Reader α} : (∀ items, read (y :: items) = next items) → Shortens next →
      SettlesBelow n next → Head n read y
  | stays (a : α) : (∀ items, read (y :: items) = .ok (a, y :: items)) → Head n read y
  | refuses (cause : ParseError.Cause) (inner : Nat) :
      (∀ items, read (y :: items) = .error ⟨cause, inner, y :: items⟩) → Head n read y

theorem settlesBelow_succ {α : Type} {n : Nat} {read : Reader α} (h : ∀ y, Head n read y) :
    SettlesBelow (n + 1) read := by
  intro front x hfront
  cases front with
  | nil =>
    cases h x with
    | takes heq hshort _ => exact .beyond fun rest => by rw [List.nil_append, heq]; exact hshort rest
    | stays a heq => exact .reads a [] heq
    | refuses cause inner heq => exact .fails cause inner [] heq
  | cons y front =>
    cases h y with
    | takes heq _ hnext => exact (hnext front x (Nat.lt_of_succ_lt_succ hfront)).congr fun rest => heq _
    | stays a heq => exact .reads a (y :: front) fun rest => heq _
    | refuses cause inner heq => exact .fails cause inner (y :: front) fun rest => heq _

/-- A name and an assignment sign stand in front of `x` or reach it, whatever follows, or they do
not begin the items. -/
theorem assignment_cases (front : List Item) (x : Item) :
    (∃ name, front = [] ∧ x = .token (.identifier name)) ∨
    (∃ name, front = [.token (.identifier name)] ∧ x = .token .assign) ∨
    (∃ name front', front = .token (.identifier name) :: .token .assign :: front') ∨
    ∀ name rest rest',
      front ++ x :: rest ≠ .token (.identifier name) :: .token .assign :: rest' := by
  by_cases h : ∃ name rest rest',
      front ++ x :: rest = .token (.identifier name) :: .token .assign :: rest'
  · obtain ⟨name, rest, rest', heq⟩ := h
    match front, heq with
    | [], heq => exact .inl ⟨name, rfl, (List.cons.inj heq).1⟩
    | [y], heq =>
      obtain ⟨rfl, htail⟩ := List.cons.inj heq
      exact .inr (.inl ⟨name, rfl, (List.cons.inj htail).1⟩)
    | y :: z :: front, heq =>
      obtain ⟨rfl, htail⟩ := List.cons.inj heq
      obtain ⟨rfl, -⟩ := List.cons.inj htail
      exact .inr (.inr (.inl ⟨name, front, rfl⟩))
  · exact .inr (.inr (.inr fun name rest rest' heq => h ⟨name, rest, rest', heq⟩))

/-- All readers settle behind fewer than `n` items. -/
structure Settled (n : Nat) : Prop where
  atChain : ∀ level, SettlesBelow n (chain level)
  atOperators : ∀ level left, SettlesBelow n (operators level left)
  atArguments : SettlesBelow n arguments
  atArgumentList : SettlesBelow n argumentList
  atWhole : SettlesBelow n whole

namespace Settled

variable {n : Nat}

theorem afterName_step (h : Settled n) (name : String) : SettlesBelow (n + 1) (afterName name) := by
  refine settlesBelow_succ fun y => ?_
  cases y with
  | bad slice => exact .refuses (.unexpectedCharacter slice) 0 fun _ => rfl
  | token t =>
    cases t with
    | leftParen =>
      exact .takes (fun _ => rfl) (shortens_arguments.andRead fun es => shortens_ok _)
        (h.atArguments.andRead (fun es => settlesBelow_ok n _) shortens_arguments
          fun es => shortens_ok _)
    | _ => exact .stays (.var name) fun _ => rfl

theorem closeGroup_step (e : Expr) : SettlesBelow (n + 1) (closeGroup e) := by
  refine settlesBelow_succ fun y => ?_
  cases y with
  | bad slice => exact .refuses (.unexpectedCharacter slice) 0 fun _ => rfl
  | token t =>
    cases t with
    | rightParen => exact .takes (fun _ => rfl) (shortens_ok e) (settlesBelow_ok n e)
    | _ => exact .refuses .missingClosingParen 0 fun _ => rfl

theorem afterArgument_step (h : Settled n) (e : Expr) : SettlesBelow (n + 1) (afterArgument e) := by
  refine settlesBelow_succ fun y => ?_
  cases y with
  | bad slice => exact .refuses (.unexpectedCharacter slice) 0 fun _ => rfl
  | token t =>
    cases t with
    | comma =>
      exact .takes (fun _ => rfl) (shortens_argumentList.andRead fun es => shortens_ok _)
        (h.atArgumentList.andRead (fun es => settlesBelow_ok n _) shortens_argumentList
          fun es => shortens_ok _)
    | rightParen => exact .takes (fun _ => rfl) (shortens_ok [e]) (settlesBelow_ok n [e])
    | _ => exact .refuses (.expectedComma _) 0 fun _ => rfl

theorem afterStatement_step (h : Settled n) (e : Expr) : SettlesBelow (n + 1) (afterStatement e) := by
  refine settlesBelow_succ fun y => ?_
  cases y with
  | bad slice => exact .refuses (.unexpectedCharacter slice) 0 fun _ => rfl
  | token t =>
    cases t with
    | semicolon =>
      exact .takes (fun _ => rfl) (shortens_whole.andRead fun p => shortens_ok _)
        (h.atWhole.andRead (fun p => settlesBelow_ok n _) shortens_whole fun p => shortens_ok _)
    | _ => exact .refuses (.unexpectedToken _) 0 fun _ => rfl

theorem primary_step (h : Settled n) : SettlesBelow (n + 1) primary := by
  refine settlesBelow_succ fun y => ?_
  cases y with
  | bad slice => exact .refuses (.unexpectedCharacter slice) 0 fun _ => by rw [primary_eq]; rfl
  | token t =>
    cases t with
    | number literal =>
      cases hread : Decimal.readPlain? literal.toList with
      | none => exact .refuses (.invalidNumber literal) 0 fun _ => by rw [primary_eq]; simp only [hread]
      | some d =>
        exact .takes (fun _ => by rw [primary_eq]; simp only [hread]; rfl) (shortens_ok _)
          (settlesBelow_ok n _)
    | quoted payload =>
      cases hread : readProgram (scan payload.toList) with
      | error g =>
        exact .refuses g.cause (1 + g.position (scan payload.toList)) fun _ => by
          rw [primary_eq]; simp only [hread]
      | ok p =>
        exact .takes (fun _ => by rw [primary_eq]; simp only [hread]; rfl) (shortens_ok _)
          (settlesBelow_ok n _)
    | identifier name =>
      exact .takes (primary_identifier name) (shortens_afterName name)
        ((h.afterName_step name).mono (Nat.le_succ n))
    | leftParen =>
      exact .takes primary_leftParen ((shortens_chain loosestLevel).andRead shortens_closeGroup)
        ((h.atChain loosestLevel).andRead (fun e => (closeGroup_step e).mono (Nat.le_succ n))
          (shortens_chain loosestLevel) shortens_closeGroup)
    | _ => exact .refuses (.unexpectedToken _) 0 fun _ => by rw [primary_eq]; rfl

theorem operators_step (h : Settled n) (level : Nat) (left : Expr) :
    SettlesBelow (n + 1) (operators level left) := by
  refine settlesBelow_succ fun y => ?_
  cases y with
  | bad slice => exact .refuses (.unexpectedCharacter slice) 0 fun _ => by rw [operators_eq]
  | token t =>
    cases t with
    | operator op =>
      by_cases hop : op.level = level + 1
      · exact .takes (operators_operator hop left)
          ((shortens_chain level).andRead fun right => shortens_operators level _)
          ((h.atChain level).andRead (fun right => h.atOperators level _) (shortens_chain level)
            fun right => shortens_operators level _)
      · exact .stays left fun _ => by rw [operators_eq]; simp only [if_neg hop]
    | _ => exact .stays left fun _ => by rw [operators_eq]

theorem chain_step (h : Settled n) (level : Nat) : SettlesBelow (n + 1) (chain level) := by
  induction level with
  | zero => exact h.primary_step.congr chain_zero
  | succ level ih =>
    exact (ih.andRead (h.operators_step level) (shortens_chain level)
      (shortens_operators level)).congr (chain_succ_eq_andRead level)

theorem statement_step (h : Settled n) : SettlesBelow (n + 1) statement := by
  intro front x hfront
  rcases assignment_cases front x with ⟨name, rfl, rfl⟩ | ⟨name, rfl, rfl⟩ | ⟨name, front, rfl⟩ | hne
  · exact .beyond fun rest => length_statement_identifier name rest
  · refine .beyond fun rest => ?_
    rw [List.singleton_append, statement_assign]
    exact (shortens_chain loosestLevel).andRead (fun value => shortens_ok _) rest
  · have hvalue := (h.atChain loosestLevel).andRead
      (fun value => settlesBelow_ok n (Expr.assign name value)) (shortens_chain loosestLevel)
      fun value => shortens_ok _
    have hlen : front.length < n := by
      rw [List.length_cons, List.length_cons] at hfront
      omega
    exact (hvalue front x hlen).congr fun rest => statement_assign name _
  · exact (h.chain_step loosestLevel front x hfront).congr fun rest =>
      statement_of_not_assign fun name rest' => hne name rest rest'

theorem argumentList_step (h : Settled n) : SettlesBelow (n + 1) argumentList :=
  (h.statement_step.andRead h.afterArgument_step shortens_statement shortens_afterArgument).congr
    argumentList_eq_andRead

theorem arguments_step (h : Settled n) : SettlesBelow (n + 1) arguments := by
  intro front x hfront
  have hlist := h.argumentList_step front x hfront
  cases front with
  | nil =>
    by_cases hx : x = .token .rightParen
    · subst hx
      exact .beyond fun rest => by rw [List.nil_append, arguments_eq]; exact Nat.le_refl _
    · exact hlist.congr fun rest => arguments_of_ne fun _ heq => hx (List.cons.inj heq).1
  | cons y front =>
    by_cases hy : y = .token .rightParen
    · subst hy
      exact .reads [] front fun rest => by rw [List.cons_append, arguments_eq]
    · exact hlist.congr fun rest => arguments_of_ne fun _ heq => hy (List.cons.inj heq).1

theorem whole_step (h : Settled n) : SettlesBelow (n + 1) whole := by
  have hread := h.statement_step.andRead h.afterStatement_step shortens_statement shortens_afterStatement
  exact fun front x hfront => (hread front x hfront).congr fun rest => whole_eq_andRead (by simp)

theorem step (h : Settled n) : Settled (n + 1) where
  atChain := h.chain_step
  atOperators := h.operators_step
  atArguments := h.arguments_step
  atArgumentList := h.argumentList_step
  atWhole := h.whole_step

end Settled

theorem settled (n : Nat) : Settled n := by
  induction n with
  | zero =>
    exact ⟨fun _ => settlesBelow_zero _, fun _ _ => settlesBelow_zero _, settlesBelow_zero _,
      settlesBelow_zero _, settlesBelow_zero _⟩
  | succ n ih => exact ih.step

/-- What follows the item at which a program fails makes no difference. -/
theorem readProgram_error_of_prefix {front rest : List Item} {x : Item} {f : Failure}
    (h : readProgram (front ++ x :: rest) = .error f) (hrest : f.rest = x :: rest)
    (rest' : List Item) :
    readProgram (front ++ x :: rest') = .error { f with rest := x :: rest' } := by
  have hwhole : whole (front ++ x :: rest) = .error f := by rw [whole, h]
  cases (settled (front.length + 1)).atWhole front x (Nat.lt_succ_self _) with
  | reads p mid hreads =>
    rw [hreads] at hwhole
    cases hwhole
  | fails cause inner mid hfails =>
    have heq := hfails rest
    rw [hwhole] at heq
    cases heq
    obtain rfl : mid = [] := by simpa using hrest
    have hother := hfails rest'
    rw [whole] at hother
    split at hother
    · rename_i g hg
      cases hother
      exact hg
    · cases hother
  | beyond hbeyond =>
    have hlen := hbeyond rest
    rw [hwhole, unread, hrest, List.length_cons] at hlen
    exact absurd hlen (Nat.not_succ_le_self _)

end Grammar
end FormulaLang

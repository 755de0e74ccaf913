import FormulaLang.Proofs.ErrorPosition

/-!
# FormulaLang.Proofs.PullParser

A parser that pulls its tokens out of the text one at a time. Its state is what the scanner has left
of the text, and at most one token that has been scanned ahead. It changes with everything that is
asked of it, also where that fails. Nothing holds the parser to one look ahead: a rule can keep the
state from before, try something, and go back to it.

`Rules.unfold` is one level of the descent, every rule with the rules that it uses left to other
ones. The rule for statements goes on behind a name in the hope of an assignment sign and goes back
if there is none.

* `Stands`: the state stands in front of these items of a text of this length.
* `peek_token`, `nextToken_token`, `eat_token` and their like: what looking and taking do there.
-/

namespace FormulaLang

open Item

structure PullParser where
  /-- The number of bytes behind the scanner. -/
  scanned : Nat
  /-- The text in front of it. -/
  text : List Char
  /-- What has been scanned ahead: nothing, the end of the text, or a token and its first byte. -/
  ahead : Option (Option (Token × Nat))
  /-- The number of bytes of the whole text. -/
  length : Nat

/-- What can be asked of a parser. -/
abbrev Pull (α : Type) := PullParser → Except ParseError α × PullParser

def PullParser.start (s : String) : PullParser := ⟨0, s.toList, none, s.utf8ByteSize⟩

namespace Pull

variable {α β : Type}

def done (a : α) : Pull α := fun m => (.ok a, m)

def fail (err : ParseError) : Pull α := fun m => (.error err, m)

def andThen (p : Pull α) (next : α → Pull β) : Pull β := fun m =>
  match p m with
  | (.ok a, m) => next a m
  | (.error err, m) => (.error err, m)

/-- Scans ahead, unless that has been done. A bad slice is passed over with an error. -/
def fill : Pull Unit := fun m =>
  match m.ahead with
  | some _ => (.ok (), m)
  | none =>
    match m.text with
    | [] => (.ok (), { m with ahead := some none })
    | c :: cs =>
      match scanFirst c cs with
      | (.token t, rest) =>
        (.ok (), ⟨m.scanned + size (.token t), rest, some (some (t, m.scanned)), m.length⟩)
      | (.bad slice, rest) =>
        (.error ⟨.unexpectedCharacter slice, m.scanned⟩,
          ⟨m.scanned + size (.bad slice), rest, none, m.length⟩)

/-- The next token, which stays the next. -/
def peek : Pull (Option Token) :=
  fill.andThen fun _ m => (.ok (m.ahead.join.map Prod.fst), m)

/-- Takes the next token, with its first byte. -/
def nextToken : Pull (Option (Token × Nat)) :=
  fill.andThen fun _ m => (.ok m.ahead.join, { m with ahead := none })

/-- Takes the next token if it is this one. -/
def eat (t : Token) : Pull Bool :=
  peek.andThen fun found m =>
    if found = some t then (.ok true, { m with ahead := none }) else (.ok false, m)

/-- Fails at what was taken where a different token is needed. -/
def refuse (onToken : Token → ParseError.Cause) (onEnd : ParseError.Cause) :
    Option (Token × Nat) → Pull α
  | some (t, position) => fail ⟨onToken t, position⟩
  | none => fun m => (.error ⟨onEnd, m.length⟩, m)

/-! ## Rules -/

structure Rules where
  primary : Pull Expr
  chain : Nat → Pull Expr
  operators : Nat → Expr → Pull Expr
  statement : Pull Expr
  arguments : Pull (List Expr)
  argumentList : Pull (List Expr)
  program : Pull Program

namespace Rules

variable (r : Rules)

/-- Reads the text of a quoted token on its own. Errors in it are counted from the text around. -/
def quoted (payload : String) (position : Nat) : Pull Expr := fun m =>
  match (r.program (.start payload)).1 with
  | .ok p => (.ok (.quote p), m)
  | .error err => (.error (err.shift (position + 1)), m)

def number (literal : String) (position : Nat) : Pull Expr :=
  match Decimal.readPlain? literal.toList with
  | some d => done (.num d.toFloat)
  | none => fail ⟨.invalidNumber literal, position⟩

def closeParen (e : Expr) : Pull Expr :=
  nextToken.andThen fun
    | some (.rightParen, _) => done e
    | found => refuse (fun _ => .missingClosingParen) .missingClosingParen found

def readPrimary : Pull Expr :=
  nextToken.andThen fun
    | some (.number literal, position) => number literal position
    | some (.quoted payload, position) => r.quoted payload position
    | some (.identifier name, _) =>
      (eat .leftParen).andThen fun called =>
        if called then r.arguments.andThen fun es => done (.call name es) else done (.var name)
    | some (.leftParen, _) => (r.chain loosestLevel).andThen closeParen
    | found => refuse (fun t => .unexpectedToken t.text) .unexpectedEnd found

def readChain : Nat → Pull Expr
  | 0 => r.primary
  | level + 1 => (r.chain level).andThen (r.operators level)

def readOperators (level : Nat) (left : Expr) : Pull Expr :=
  peek.andThen fun
    | some (.operator op) =>
      if op.level = level + 1 then
        nextToken.andThen fun _ =>
          (r.chain level).andThen fun right => r.operators level (.binary op left right)
      else done left
    | _ => done left

/-- Behind a name, an assignment is tried. If there is no assignment sign the parser goes back to
where it was, with the name ahead. -/
def readStatement : Pull Expr :=
  peek.andThen fun
    | some (.identifier _) => fun checkpoint =>
      match nextToken checkpoint with
      | (.error err, m) => (.error err, m)
      | (.ok (some (.identifier name, _)), m) =>
        match eat .assign m with
        | (.error err, m) => (.error err, m)
        | (.ok true, m) => (r.chain loosestLevel).andThen (fun value => done (.assign name value)) m
        | (.ok false, _) => r.chain loosestLevel checkpoint
      | (.ok _, _) => r.chain loosestLevel checkpoint
    | _ => r.chain loosestLevel

def readArguments : Pull (List Expr) :=
  (eat .rightParen).andThen fun empty => if empty then done [] else r.argumentList

def readArgumentList : Pull (List Expr) :=
  r.statement.andThen fun e =>
    nextToken.andThen fun
      | some (.comma, _) => r.argumentList.andThen fun es => done (e :: es)
      | some (.rightParen, _) => done [e]
      | found => refuse (fun t => .expectedComma t.text) .missingClosingParen found

def readProgram : Pull Program :=
  peek.andThen fun
    | none => done []
    | some _ =>
      r.statement.andThen fun e =>
        nextToken.andThen fun
          | none => done [e]
          | some (.semicolon, _) => r.program.andThen fun p => done (e :: p)
          | found => refuse (fun t => .unexpectedToken t.text) .unexpectedEnd found

/-- One level of the descent. -/
def unfold : Rules :=
  ⟨r.readPrimary, r.readChain, r.readOperators, r.readStatement, r.readArguments,
    r.readArgumentList, r.readProgram⟩

/-- What stands below the descent: whatever comes next is refused. -/
def refusing : Rules :=
  let unexpected {α : Type} : Pull α :=
    nextToken.andThen (refuse (fun t => .unexpectedToken t.text) .unexpectedEnd)
  ⟨unexpected, fun _ => unexpected, fun _ _ => unexpected, unexpected, unexpected, unexpected,
    unexpected⟩

end Rules

end Pull

namespace PullParser

/-- The unread items, with the token that has been scanned ahead. -/
def items (m : PullParser) : List Item :=
  match m.ahead with
  | none => scan m.text
  | some none => []
  | some (some (t, _)) => .token t :: scan m.text

/-- Where the parser stands, and what is unread. -/
def cursor (m : PullParser) : Cursor := ⟨m.length - totalSize m.items, m.items⟩

/-- The rules, with as many levels as the unread items can take. -/
def rules (m : PullParser) : Pull.Rules :=
  Pull.Rules.unfold^[9 * (totalWeight m.items + 1)] .refusing

def expression : Pull Expr := fun m => m.rules.chain loosestLevel m

def statement : Pull Expr := fun m => m.rules.statement m

def program : Pull Program := fun m => m.rules.program m

/-- The states that a parser comes to: it is made for a text, and looks ahead, takes tokens and
reads at its entry points, whether that succeeds or not. -/
inductive Reachable : PullParser → Prop where
  | start (s : String) : Reachable (.start s)
  | peek {m : PullParser} : Reachable m → Reachable (Pull.peek m).2
  | nextToken {m : PullParser} : Reachable m → Reachable (Pull.nextToken m).2
  | expression {m : PullParser} : Reachable m → Reachable m.expression.2
  | statement {m : PullParser} : Reachable m → Reachable m.statement.2
  | program {m : PullParser} : Reachable m → Reachable m.program.2

end PullParser

namespace Pull

/-! ## States in front of items -/

section Stands

variable {length : Nat} {items rest : List Item} {m m' : PullParser} {t : Token} {slice : String}

/-- The state in front of a token that has been scanned ahead. -/
def held (length : Nat) (t : Token) (cs : List Char) : PullParser :=
  ⟨length - totalSize (scan cs), cs, some (some (t, length - totalSize (.token t :: scan cs))), length⟩

/-- In a text of this length, these are the items that are unread, be the first of them scanned
ahead or not. -/
inductive Stands (length : Nat) : List Item → PullParser → Prop where
  | fresh {cs : List Char} : totalSize (scan cs) ≤ length →
      Stands length (scan cs) ⟨length - totalSize (scan cs), cs, none, length⟩
  | held {t : Token} {cs : List Char} : totalSize (.token t :: scan cs) ≤ length →
      Stands length (.token t :: scan cs) (held length t cs)
  | ended : Stands length [] ⟨length, [], some none, length⟩

theorem Stands.start (s : String) : Stands s.utf8ByteSize (scan s.toList) (.start s) := by
  have hsize := totalSize_scan s
  have hstart := Stands.fresh hsize.le
  rwa [hsize, Nat.sub_self] at hstart

theorem Stands.length_eq (h : Stands length items m) : m.length = length := by
  cases h <;> rfl

theorem Stands.totalSize_le (h : Stands length items m) : totalSize items ≤ length := by
  cases h with
  | fresh hle => exact hle
  | held hle => exact hle
  | ended => exact Nat.zero_le length

theorem Stands.items_eq (h : Stands length items m) : m.items = items := by
  cases h <;> rfl

theorem Stands.cursor_eq (h : Stands length items m) :
    m.cursor = ⟨length - totalSize items, items⟩ := by
  rw [PullParser.cursor, h.items_eq, h.length_eq]

theorem scan_eq_nil {cs : List Char} (h : scan cs = []) : cs = [] := by
  cases cs with
  | nil => rfl
  | cons c cs =>
    rw [scan_cons] at h
    cases h

/-! ## Scanning ahead -/

theorem fill_nil (h : Stands length [] m) :
    fill m = (.ok (), ⟨length, [], some none, length⟩) := by
  generalize hitems : ([] : List Item) = items at h
  cases h with
  | fresh hle =>
    obtain rfl := scan_eq_nil hitems.symm
    simp [fill, scan_nil, totalSize]
  | held hle => cases hitems
  | ended => rfl

/-- Behind the first item of a text stands the text that the scanner leaves. -/
theorem scan_eq_cons {cs : List Char} {item : Item} (h : scan cs = item :: rest) :
    ∃ c cs' behind, cs = c :: cs' ∧ scanFirst c cs' = (item, behind) ∧ rest = scan behind := by
  cases cs with
  | nil =>
    rw [scan_nil] at h
    cases h
  | cons c cs =>
    rw [scan_cons] at h
    obtain ⟨hfirst, hrest⟩ := List.cons.inj h
    exact ⟨c, cs, _, rfl, Prod.ext hfirst rfl, hrest.symm⟩

theorem fill_token (h : Stands length (.token t :: rest) m) :
    ∃ cs, rest = scan cs ∧ totalSize (.token t :: scan cs) ≤ length ∧
      fill m = (.ok (), held length t cs) := by
  generalize hitems : .token t :: rest = items at h
  cases h with
  | fresh hle =>
    obtain ⟨c, cs, behind, rfl, hfirst, rfl⟩ := scan_eq_cons hitems.symm
    rw [← hitems] at hle ⊢
    refine ⟨behind, rfl, hle, ?_⟩
    rw [totalSize] at hle ⊢
    have hscanned : length - (size (.token t) + totalSize (scan behind)) + size (.token t) =
        length - totalSize (scan behind) := by omega
    simp only [fill, hfirst, hscanned, held, totalSize]
  | @held t' cs hle =>
    cases hitems
    exact ⟨cs, rfl, hle, rfl⟩
  | ended => cases hitems

theorem fill_bad (h : Stands length (.bad slice :: rest) m) :
    ∃ m', fill m = (.error ⟨.unexpectedCharacter slice, length - totalSize (.bad slice :: rest)⟩, m') ∧
      Stands length rest m' := by
  generalize hitems : .bad slice :: rest = items at h
  cases h with
  | fresh hle =>
    obtain ⟨c, cs, behind, rfl, hfirst, rfl⟩ := scan_eq_cons hitems.symm
    rw [← hitems] at hle ⊢
    rw [totalSize] at hle
    have hscanned : length - (size (.bad slice) + totalSize (scan behind)) + size (.bad slice) =
        length - totalSize (scan behind) := by omega
    refine ⟨_, by simp only [fill, hfirst, totalSize, hscanned], .fresh (by omega)⟩
  | held hle => cases hitems
  | ended => cases hitems

/-! ## Looking and taking -/

theorem andThen_ok {α β : Type} {p : Pull α} {a : α} (h : p m = (.ok a, m')) (next : α → Pull β) :
    p.andThen next m = next a m' := by
  rw [andThen, h]

theorem andThen_error {α β : Type} {p : Pull α} {err : ParseError} (h : p m = (.error err, m'))
    (next : α → Pull β) : p.andThen next m = (.error err, m') := by
  rw [andThen, h]

theorem peek_nil (h : Stands length [] m) : ∃ m', peek m = (.ok none, m') ∧ Stands length [] m' :=
  ⟨_, andThen_ok (fill_nil h) _, .ended⟩

theorem peek_token (h : Stands length (.token t :: rest) m) :
    ∃ m', peek m = (.ok (some t), m') ∧ Stands length (.token t :: rest) m' := by
  obtain ⟨cs, rfl, hle, hfill⟩ := fill_token h
  exact ⟨_, andThen_ok hfill _, .held hle⟩

theorem peek_bad (h : Stands length (.bad slice :: rest) m) :
    ∃ m', peek m = (.error ⟨.unexpectedCharacter slice, length - totalSize (.bad slice :: rest)⟩, m') ∧
      Stands length rest m' := by
  obtain ⟨m', hfill, hm'⟩ := fill_bad h
  exact ⟨m', andThen_error hfill _, hm'⟩

theorem taken {cs : List Char} (hle : totalSize (.token t :: scan cs) ≤ length) :
    Stands length (scan cs) { held length t cs with ahead := none } := by
  rw [totalSize] at hle
  exact .fresh (by omega)

theorem nextToken_nil (h : Stands length [] m) :
    ∃ m', nextToken m = (.ok none, m') ∧ Stands length [] m' := by
  have hfresh := @Stands.fresh length [] (by rw [scan_nil]; exact Nat.zero_le length)
  rw [scan_nil] at hfresh
  exact ⟨_, andThen_ok (fill_nil h) _, hfresh⟩

theorem nextToken_token (h : Stands length (.token t :: rest) m) :
    ∃ m', nextToken m = (.ok (some (t, length - totalSize (.token t :: rest))), m') ∧
      Stands length rest m' := by
  obtain ⟨cs, rfl, hle, hfill⟩ := fill_token h
  exact ⟨_, andThen_ok hfill _, taken hle⟩

theorem nextToken_bad (h : Stands length (.bad slice :: rest) m) :
    ∃ m', nextToken m =
        (.error ⟨.unexpectedCharacter slice, length - totalSize (.bad slice :: rest)⟩, m') ∧
      Stands length rest m' := by
  obtain ⟨m', hfill, hm'⟩ := fill_bad h
  exact ⟨m', andThen_error hfill _, hm'⟩

theorem eat_token (h : Stands length (.token t :: rest) m) :
    ∃ m', eat t m = (.ok true, m') ∧ Stands length rest m' := by
  obtain ⟨cs, rfl, hle, hfill⟩ := fill_token h
  refine ⟨_, ?_, taken hle⟩
  rw [eat, andThen_ok (andThen_ok hfill _)]
  exact if_pos rfl

theorem eat_bad (t : Token) (h : Stands length (.bad slice :: rest) m) :
    ∃ m', eat t m =
        (.error ⟨.unexpectedCharacter slice, length - totalSize (.bad slice :: rest)⟩, m') ∧
      Stands length rest m' := by
  obtain ⟨m', hpeek, hm'⟩ := peek_bad h
  exact ⟨m', andThen_error hpeek _, hm'⟩

/-- A different token, or the end, is not taken. -/
theorem eat_other (h : Stands length items m) (hbad : ∀ slice rest, items ≠ .bad slice :: rest)
    (ht : ∀ rest, items ≠ .token t :: rest) :
    ∃ m', eat t m = (.ok false, m') ∧ Stands length items m' := by
  match items with
  | [] =>
    obtain ⟨m', hpeek, hm'⟩ := peek_nil h
    refine ⟨m', ?_, hm'⟩
    rw [eat, andThen_ok hpeek]
    rfl
  | .token u :: rest =>
    obtain ⟨m', hpeek, hm'⟩ := peek_token h
    refine ⟨m', ?_, hm'⟩
    rw [eat, andThen_ok hpeek]
    refine if_neg ?_
    rintro ⟨⟩
    exact ht rest rfl
  | .bad slice :: rest => exact absurd rfl (hbad slice rest)

theorem exists_stands_of_eq {α : Type} {o : Except ParseError α}
    {r : Except ParseError α × PullParser} (h : ∃ m', r = (o, m') ∧ Stands length rest m') :
    ∃ rest, Stands length rest r.2 := by
  obtain ⟨m', rfl, hm'⟩ := h
  exact ⟨rest, hm'⟩

theorem exists_stands_peek (h : Stands length items m) : ∃ rest, Stands length rest (peek m).2 := by
  match items with
  | [] => exact exists_stands_of_eq (peek_nil h)
  | .token t :: rest => exact exists_stands_of_eq (peek_token h)
  | .bad slice :: rest => exact exists_stands_of_eq (peek_bad h)

theorem exists_stands_nextToken (h : Stands length items m) :
    ∃ rest, Stands length rest (nextToken m).2 := by
  match items with
  | [] => exact exists_stands_of_eq (nextToken_nil h)
  | .token t :: rest => exact exists_stands_of_eq (nextToken_token h)
  | .bad slice :: rest => exact exists_stands_of_eq (nextToken_bad h)

end Stands

end Pull
end FormulaLang

import FormulaLang.Proofs.Lookahead
import FormulaLang.Proofs.PullParser
import FormulaLang.Proofs.Restart

/-!
# FormulaLang.Proofs.Speculation

The pull parser reads what the readers of items read. A rule `Follows` a reader if, wherever it
stands, it answers as the reader does of the unread items, and stands where that stopped: in front
of what is left, or behind the item that was refused. One level of the descent follows one level of
the readers' descent (`follow_unfold`), so enough levels follow the readers.

The rule for statements tries an assignment and goes back; the reader of statements looks two items
ahead instead. So nothing is left of the attempt. Main statement: `speculation_leaves_no_trace`.
-/

namespace FormulaLang

open Item

/-- The error of a failure in a text of so many bytes. -/
def Failure.errorIn (length : Nat) (f : Failure) : ParseError :=
  ⟨f.cause, length - totalSize f.rest + f.inner⟩

namespace Pull

open Program Grammar

variable {α β : Type} {length : Nat} {items rest : List Item} {m m' : PullParser} {slice : String}

/-! ## Following readers -/

/-- The parser gives the answer that a reader gave, and stands where the reader stopped. -/
def Answers (length : Nat) (answer : Except Failure (α × List Item))
    (r : Except ParseError α × PullParser) : Prop :=
  match answer with
  | .ok (a, rest) => r.1 = .ok a ∧ Stands length rest r.2
  | .error f => r.1 = .error (f.errorIn length) ∧ Stands length f.rest.tail r.2

structure Follows (p : Pull α) (read : Reader α) : Prop where
  answers : ∀ {length items m}, Stands length items m → Answers length (read items) (p m)

theorem answers_done (a : α) (h : Stands length rest m) :
    Answers length (.ok (a, rest)) (done a m) :=
  ⟨rfl, h⟩

theorem Answers.andThen {p : Pull α} {answer : Except Failure (α × List Item)}
    (h : Answers length answer (p m)) {next : α → Pull β} {read : α → Reader β}
    (hnext : ∀ a, Follows (next a) (read a)) :
    Answers length (andRead answer read) (p.andThen next m) := by
  match answer with
  | .ok (a, rest) =>
    obtain ⟨ho, hm⟩ := h
    rw [andThen_ok (Prod.ext ho rfl)]
    exact (hnext a).answers hm
  | .error f =>
    obtain ⟨ho, hm⟩ := h
    rw [andThen_error (Prod.ext ho rfl)]
    exact ⟨rfl, hm⟩

/-- The reader fails at a bad slice that it begins with. -/
def Balks (read : Reader α) : Prop :=
  ∀ slice rest, read (.bad slice :: rest) =
    .error ⟨.unexpectedCharacter slice, 0, .bad slice :: rest⟩

/-- A bad slice stops whatever looks at it. -/
theorem answers_bad {p : Pull α} {read : Reader β} (hbalks : Balks read)
    (h : ∃ m', p m =
        (.error ⟨.unexpectedCharacter slice, length - totalSize (.bad slice :: rest)⟩, m') ∧
      Stands length rest m') (next : α → Pull β) :
    Answers length (read (.bad slice :: rest)) (p.andThen next m) := by
  obtain ⟨m', hp, hm'⟩ := h
  rw [andThen_error hp, hbalks]
  exact ⟨rfl, hm'⟩

theorem follows_peek {next : Option Token → Pull α} {read : Reader α} (hbalks : Balks read)
    (hend : ∀ {length m}, Stands length [] m → Answers length (read []) (next none m))
    (htoken : ∀ t {length rest m}, Stands length (.token t :: rest) m →
      Answers length (read (.token t :: rest)) (next (some t) m)) :
    Follows (peek.andThen next) read := by
  refine ⟨fun {length items m} hm => ?_⟩
  match items with
  | [] =>
    obtain ⟨m', hpeek, hm'⟩ := peek_nil hm
    rw [andThen_ok hpeek]
    exact hend hm'
  | .token t :: rest =>
    obtain ⟨m', hpeek, hm'⟩ := peek_token hm
    rw [andThen_ok hpeek]
    exact htoken t hm'
  | .bad slice :: rest => exact answers_bad hbalks (peek_bad hm) next

theorem follows_nextToken {next : Option (Token × Nat) → Pull α} {read : Reader α}
    (hbalks : Balks read)
    (hend : ∀ {length m}, Stands length [] m → Answers length (read []) (next none m))
    (htoken : ∀ t {length rest m}, Stands length rest m →
      Answers length (read (.token t :: rest))
        (next (some (t, length - totalSize (.token t :: rest))) m)) :
    Follows (nextToken.andThen next) read := by
  refine ⟨fun {length items m} hm => ?_⟩
  match items with
  | [] =>
    obtain ⟨m', hnext, hm'⟩ := nextToken_nil hm
    rw [andThen_ok hnext]
    exact hend hm'
  | .token t :: rest =>
    obtain ⟨m', hnext, hm'⟩ := nextToken_token hm
    rw [andThen_ok hnext]
    exact htoken t hm'
  | .bad slice :: rest => exact answers_bad hbalks (nextToken_bad hm) next

theorem follows_eat {t : Token} {next : Bool → Pull α} {read : Reader α} (hbalks : Balks read)
    (hyes : ∀ {length rest m}, Stands length rest m →
      Answers length (read (.token t :: rest)) (next true m))
    (hno : ∀ {length items m}, (∀ rest, items ≠ .token t :: rest) →
      (∀ slice rest, items ≠ .bad slice :: rest) → Stands length items m →
      Answers length (read items) (next false m)) :
    Follows ((eat t).andThen next) read := by
  refine ⟨fun {length items m} hm => ?_⟩
  by_cases ht : ∃ rest, items = .token t :: rest
  · obtain ⟨rest, rfl⟩ := ht
    obtain ⟨m', heat, hm'⟩ := eat_token hm
    rw [andThen_ok heat]
    exact hyes hm'
  by_cases hbad : ∃ slice rest, items = .bad slice :: rest
  · obtain ⟨slice, rest, rfl⟩ := hbad
    exact answers_bad hbalks (eat_bad t hm) next
  simp only [not_exists] at ht hbad
  obtain ⟨m', heat, hm'⟩ := eat_other hm hbad ht
  rw [andThen_ok heat]
  exact hno ht hbad hm'

section Refuse

variable (onToken : Token → ParseError.Cause) (onEnd : ParseError.Cause)

theorem answers_refuse_end (h : Stands length [] m) :
    Answers length (.error (.refuse onToken onEnd []) : Except Failure (α × List Item))
      (refuse onToken onEnd none m) := by
  refine ⟨?_, h⟩
  simp only [refuse, h.length_eq]
  rfl

theorem answers_refuse_token {t : Token} (h : Stands length rest m) :
    Answers length (.error (.refuse onToken onEnd (.token t :: rest)) : Except Failure (α × List Item))
      (refuse onToken onEnd (some (t, length - totalSize (.token t :: rest))) m) :=
  ⟨rfl, h⟩

theorem follows_refuse : Follows (nextToken.andThen (refuse onToken onEnd))
    (fun items => (.error (.refuse onToken onEnd items) : Except Failure (α × List Item))) :=
  follows_nextToken (fun _ _ => rfl) (answers_refuse_end onToken onEnd)
    fun _ => answers_refuse_token onToken onEnd

end Refuse

end Pull

/-! ## Bad slices -/

namespace Program.Readers

open Grammar Pull

/-- The readers that may begin with any item fail at a bad slice. -/
structure Balk (q : Readers) : Prop where
  primary : Balks q.primary
  chain : ∀ level, Balks (q.chain level)
  statement : Balks q.statement
  argumentList : Balks q.argumentList

theorem Balk.unfold {q : Readers} (h : q.Balk) : q.unfold.Balk where
  primary _ _ := rfl
  chain level slice rest := by
    cases level with
    | zero => exact h.primary slice rest
    | succ level =>
      simp only [Readers.unfold]
      rw [h.chain level slice rest]
  statement := h.chain loosestLevel
  argumentList slice rest := by
    simp only [Readers.unfold]
    rw [h.statement slice rest]

end Program.Readers

namespace Pull

open Program Grammar

variable {length : Nat} {items rest : List Item} {m m' : PullParser}

/-- Each rule follows its reader. -/
structure Rules.Follow (r : Rules) (q : Readers) : Prop where
  balk : q.Balk
  primary : Follows r.primary q.primary
  chain : ∀ level, Follows (r.chain level) (q.chain level)
  operators : ∀ level left, Follows (r.operators level left) (q.operators level left)
  statement : Follows r.statement q.statement
  arguments : Follows r.arguments q.arguments
  argumentList : Follows r.argumentList q.argumentList
  program : Follows r.program q.whole

section Step

variable {r : Rules} {q : Readers}

theorem number_answers (literal : String) (h : Stands length rest m) :
    Answers length (q.unfold.primary (.token (.number literal) :: rest))
      (Rules.number literal (length - totalSize (.token (.number literal) :: rest)) m) := by
  simp only [Readers.unfold, Rules.number]
  cases Decimal.readPlain? literal.toList with
  | none => exact ⟨rfl, h⟩
  | some d => exact ⟨rfl, h⟩

theorem quoted_answers (hr : r.Follow q) (payload : String) (h : Stands length rest m) :
    Answers length (q.unfold.primary (.token (.quoted payload) :: rest))
      (r.quoted payload (length - totalSize (.token (.quoted payload) :: rest)) m) := by
  have hprogram := hr.program.answers (Stands.start payload)
  simp only [Readers.unfold, Rules.quoted]
  rw [Readers.whole] at hprogram
  cases hread : q.program (scan payload.toList) with
  | ok p =>
    rw [hread] at hprogram
    rw [hprogram.1]
    exact ⟨rfl, h⟩
  | error f =>
    rw [hread] at hprogram
    rw [hprogram.1]
    refine ⟨?_, h⟩
    simp only [Failure.errorIn, ParseError.shift, Failure.position, totalSize_scan]
    congr 2
    omega

theorem closeParen_follows (e : Expr) : Follows (Rules.closeParen e) (closeGroup e) := by
  refine follows_nextToken (fun _ _ => rfl) (answers_refuse_end _ _) fun t length rest m hm => ?_
  cases t <;> exact ⟨rfl, hm⟩

theorem name_follows (hr : r.Follow q) (name : String) :
    Follows ((eat .leftParen).andThen fun called =>
        if called then r.arguments.andThen fun es => done (.call name es) else done (.var name))
      (q.afterName name) := by
  refine follows_eat (fun _ _ => rfl) (fun hm => ?_) fun {length items m} hparen hbad hm => ?_
  · exact (hr.arguments.answers hm).andThen fun es => ⟨answers_done _⟩
  · have hvar : q.afterName name items = .ok (.var name, items) := by
      obtain _ | ⟨t | slice, rest⟩ := items
      · rfl
      · cases t with
        | leftParen => exact absurd rfl (hparen rest)
        | _ => rfl
      · exact absurd rfl (hbad slice rest)
    rw [hvar]
    exact answers_done _ hm

theorem primary_follows (hr : r.Follow q) : Follows r.readPrimary q.unfold.primary := by
  refine follows_nextToken (fun _ _ => rfl) (answers_refuse_end _ _) fun t length rest m hm => ?_
  cases t with
  | number literal => exact number_answers literal hm
  | quoted payload => exact quoted_answers hr payload hm
  | identifier name =>
    rw [Readers.unfold_identifier]
    exact (name_follows hr name).answers hm
  | leftParen =>
    rw [Readers.unfold_group]
    exact ((hr.chain loosestLevel).answers hm).andThen closeParen_follows
  | _ => exact answers_refuse_token _ _ hm

theorem chain_follows (hr : r.Follow q) (level : Nat) :
    Follows (r.readChain level) (q.unfold.chain level) := by
  refine ⟨fun {length items m} hm => ?_⟩
  cases level with
  | zero => exact hr.primary.answers hm
  | succ level =>
    rw [Readers.unfold_chain_succ]
    exact ((hr.chain level).answers hm).andThen (hr.operators level)

theorem operators_follow (hr : r.Follow q) (level : Nat) (left : Expr) :
    Follows (r.readOperators level left) (q.unfold.operators level left) := by
  refine follows_peek (fun _ _ => rfl) (answers_done _) fun t length rest m hm => ?_
  cases t with
  | operator op =>
    by_cases hlevel : op.level = level + 1
    · obtain ⟨m', hnext, hm'⟩ := nextToken_token hm
      rw [Readers.unfold_operator q hlevel]
      simp only [if_pos hlevel]
      rw [andThen_ok hnext]
      exact ((hr.chain level).answers hm').andThen fun right => hr.operators level _
    · simp only [Readers.unfold, if_neg hlevel]
      exact answers_done _ hm
  | _ => exact answers_done _ hm

/-- The attempt is given up wherever no assignment sign follows the name, and what is read then is
read from the state before it. -/
theorem statement_follows (hr : r.Follow q) : Follows r.readStatement q.unfold.statement := by
  refine follows_peek (hr.balk.chain loosestLevel) (hr.chain loosestLevel).answers
    fun t length rest checkpoint hm => ?_
  cases t with
  | identifier name =>
    obtain ⟨m₁, hnext, hm₁⟩ := nextToken_token hm
    simp only [hnext]
    by_cases hassign : ∃ rest', rest = .token .assign :: rest'
    · obtain ⟨rest', rfl⟩ := hassign
      obtain ⟨m₂, heat, hm₂⟩ := eat_token hm₁
      simp only [heat]
      rw [Readers.unfold_assign]
      exact ((hr.chain loosestLevel).answers hm₂).andThen fun value => ⟨answers_done _⟩
    by_cases hbad : ∃ slice rest', rest = .bad slice :: rest'
    · obtain ⟨slice, rest', rfl⟩ := hbad
      obtain ⟨m₂, heat, hm₂⟩ := eat_bad .assign hm₁
      simp only [heat]
      exact ⟨rfl, hm₂⟩
    simp only [not_exists] at hassign hbad
    obtain ⟨m₂, heat, -⟩ := eat_other hm₁ hbad hassign
    simp only [heat]
    -- the state behind the attempt is dropped, so the two are compared from the checkpoint
    have hchain : q.unfold.statement (.token (.identifier name) :: rest) =
        q.chain loosestLevel (.token (.identifier name) :: rest) := by
      obtain _ | ⟨t | slice, rest'⟩ := rest
      · rfl
      · cases t with
        | assign => exact absurd rfl (hassign rest')
        | _ => rfl
      · exact absurd rfl (hbad slice rest')
    rw [hchain]
    exact (hr.chain loosestLevel).answers hm
  | _ => exact (hr.chain loosestLevel).answers hm

theorem arguments_follow (hr : r.Follow q) : Follows r.readArguments q.unfold.arguments := by
  refine follows_eat hr.balk.argumentList (answers_done _) fun {length items m} hparen _ hm => ?_
  rw [Readers.unfold_arguments_of_ne q hparen]
  exact hr.argumentList.answers hm

theorem argumentList_follows (hr : r.Follow q) :
    Follows r.readArgumentList q.unfold.argumentList := by
  refine ⟨fun {length items m} hm => ?_⟩
  rw [Readers.unfold_argumentList]
  refine (hr.statement.answers hm).andThen fun e => ?_
  refine follows_nextToken (fun _ _ => rfl) (answers_refuse_end _ _) fun t length rest m hm => ?_
  cases t with
  | comma => exact (hr.argumentList.answers hm).andThen fun es => ⟨answers_done _⟩
  | rightParen => exact answers_done _ hm
  | _ => exact answers_refuse_token _ _ hm

theorem program_follows (hr : r.Follow q) : Follows r.readProgram q.unfold.whole := by
  have hbalks : Balks q.unfold.whole := by
    intro slice rest
    rw [Readers.unfold_whole q (List.cons_ne_nil _ _), hr.balk.statement]
    rfl
  refine follows_peek hbalks (answers_done _) fun t length rest m hm => ?_
  rw [Readers.unfold_whole q (List.cons_ne_nil _ _)]
  refine (hr.statement.answers hm).andThen fun e => ?_
  refine follows_nextToken (fun _ _ => rfl) (answers_done _) fun t length rest m hm => ?_
  cases t with
  | semicolon => exact (hr.program.answers hm).andThen fun p => ⟨answers_done _⟩
  | _ => exact answers_refuse_token _ _ hm

theorem follow_unfold (hr : r.Follow q) : r.unfold.Follow q.unfold where
  balk := hr.balk.unfold
  primary := primary_follows hr
  chain := chain_follows hr
  operators := operators_follow hr
  statement := statement_follows hr
  arguments := arguments_follow hr
  argumentList := argumentList_follows hr
  program := program_follows hr

end Step

/-! ## Enough levels -/

end Pull

/-- What stands below the descent of the readers. -/
def Program.Readers.refusing : Program.Readers :=
  let refuse {α : Type} (items : List Item) : Except Failure α :=
    .error (.refuse (fun t => .unexpectedToken t.text) .unexpectedEnd items)
  ⟨refuse, fun _ => refuse, fun _ _ => refuse, refuse, refuse, refuse, refuse⟩

namespace Pull

open Program

theorem follow_refusing : Rules.refusing.Follow Readers.refusing where
  balk := ⟨fun _ _ => rfl, fun _ _ _ => rfl, fun _ _ => rfl, fun _ _ => rfl⟩
  primary := follows_refuse _ _
  chain _ := follows_refuse _ _
  operators _ _ := follows_refuse _ _
  statement := follows_refuse _ _
  arguments := follows_refuse _ _
  argumentList := follows_refuse _ _
  program := follows_refuse _ _

theorem follow_iterate (n : Nat) :
    (Rules.unfold^[n] .refusing).Follow (Readers.unfold^[n] .refusing) := by
  induction n with
  | zero => exact follow_refusing
  | succ n ih =>
    rw [Function.iterate_succ_apply', Function.iterate_succ_apply']
    exact follow_unfold ih

end Pull

namespace PullParser

open Program Grammar Pull

variable {α β : Type} {length : Nat} {items : List Item} {m : PullParser}
  {answer : Except Failure (α × List Item)} {r r' : Except ParseError α × PullParser}

theorem expression_answers (h : Stands length items m) :
    Answers length (chain loosestLevel items) m.expression := by
  have hloosest : loosestLevel = 4 := rfl
  have hagree := (agreeBelow_iterate .refusing (9 * (totalWeight items + 1))).chain loosestLevel items
    (Nat.le_refl _) (by omega)
  have hread : _ = chain loosestLevel items := hagree
  rw [← hread, expression, rules, h.items_eq]
  exact ((follow_iterate _).chain loosestLevel).answers h

theorem statement_answers (h : Stands length items m) :
    Answers length (Program.statement items) m.statement := by
  have hagree := (agreeBelow_iterate .refusing (9 * (totalWeight items + 1))).statement items
    (by omega)
  have hread : _ = Program.statement items := hagree
  rw [← hread, statement, rules, h.items_eq]
  exact (follow_iterate _).statement.answers h

theorem exists_stands_of_answers (h : Answers length answer r) :
    ∃ rest, Stands length rest r.2 := by
  match answer with
  | .ok (a, rest) => exact ⟨rest, h.2⟩
  | .error f => exact ⟨f.rest.tail, h.2⟩

theorem Reachable.exists_stands (h : Reachable m) : ∃ length items, Stands length items m := by
  induction h with
  | start s => exact ⟨_, _, .start s⟩
  | peek _ ih =>
    obtain ⟨length, items, hm⟩ := ih
    exact ⟨length, exists_stands_peek hm⟩
  | nextToken _ ih =>
    obtain ⟨length, items, hm⟩ := ih
    exact ⟨length, exists_stands_nextToken hm⟩
  | expression _ ih =>
    obtain ⟨length, items, hm⟩ := ih
    exact ⟨length, exists_stands_of_answers (expression_answers hm)⟩
  | statement _ ih =>
    obtain ⟨length, items, hm⟩ := ih
    exact ⟨length, exists_stands_of_answers (statement_answers hm)⟩
  | program _ ih =>
    obtain ⟨length, items, hm⟩ := ih
    exact ⟨length, exists_stands_of_answers ((follow_iterate _).program.answers hm)⟩

theorem Reachable.stands (h : Reachable m) : Stands m.length m.items m := by
  obtain ⟨length, items, hm⟩ := h.exists_stands
  rwa [hm.length_eq, hm.items_eq]

/-! ## Answers -/

/-- Parsers that give one answer agree on it, and on what is unread. -/
theorem agree_of_answers (h : Answers length answer r) (h' : Answers length answer r') :
    r.1 = r'.1 ∧ r.2.cursor = r'.2.cursor := by
  match answer with
  | .ok (a, rest) => exact ⟨h.1.trans h'.1.symm, h.2.cursor_eq.trans h'.2.cursor_eq.symm⟩
  | .error f => exact ⟨h.1.trans h'.1.symm, h.2.cursor_eq.trans h'.2.cursor_eq.symm⟩

/-- The same with what is read put into a tree. -/
theorem agree_of_answers_map {f : α → β} {r : Except ParseError β × PullParser}
    (h : Answers length (andRead answer fun a rest => .ok (f a, rest)) r)
    (h' : Answers length answer r') : r.1 = r'.1.map f ∧ r.2.cursor = r'.2.cursor := by
  match answer with
  | .ok (a, rest) =>
    refine ⟨?_, h.2.cursor_eq.trans h'.2.cursor_eq.symm⟩
    rw [h.1, h'.1]
    rfl
  | .error err =>
    refine ⟨?_, h.2.cursor_eq.trans h'.2.cursor_eq.symm⟩
    rw [h.1, h'.1]
    rfl

/-- The answer that a cursor gives is the parser's. -/
theorem conclude_of_answers (hanswers : Answers length answer r) (hm : Stands length items m)
    (hunread : ∃ front, items = front ++ unread answer) :
    (r.1, r.2.cursor) = m.cursor.conclude answer := by
  obtain ⟨front, rfl⟩ := hunread
  have hle := hm.totalSize_le
  rw [hm.cursor_eq]
  match answer with
  | .ok (a, rest) =>
    rw [Cursor.conclude, Cursor.moveTo, hanswers.1, hanswers.2.cursor_eq]
    simp only [unread, totalSize_append] at hle ⊢
    congr 2
    omega
  | .error f =>
    have htail : totalSize f.rest.tail ≤ totalSize f.rest := by
      cases f.rest with
      | nil => exact Nat.le_refl _
      | cons item rest => exact Nat.le_add_left _ _
    rw [Cursor.conclude, Cursor.moveTo, hanswers.1, hanswers.2.cursor_eq]
    simp only [unread, totalSize_append, Failure.errorIn, Failure.position] at hle ⊢
    congr 2
    · congr 1
      omega
    · omega

theorem suffix_of_fails {Complete : List Token → Prop} {f : Failure}
    (h : Fails Complete items f) : ∃ front, items = front ++ f.rest := by
  obtain ⟨-, front, -, heq, -⟩ := h
  exact ⟨_, heq⟩

theorem unread_expression (items : List Item) :
    ∃ front, items = front ++ unread (chain loosestLevel items) := by
  cases h : chain loosestLevel items with
  | ok a =>
    obtain ⟨tokens, heq, -⟩ := chain_sound loosestLevel items h
    exact ⟨_, heq⟩
  | error f => exact suffix_of_fails (chain_fails loosestLevel items h)

theorem unread_statement (items : List Item) :
    ∃ front, items = front ++ unread (Program.statement items) := by
  cases h : Program.statement items with
  | ok a =>
    obtain ⟨tokens, heq, -⟩ := statement_sound items h
    exact ⟨_, heq⟩
  | error f => exact suffix_of_fails (statement_fails items h)

/-! ## Statements -/

/-- **Trying an assignment leaves no trace.** Wherever a parser has come to, if a name and an
assignment sign are next, the rule for statements takes both and answers as that for expressions
does behind them, with the value assigned; in every other case it answers as that for expressions
does from where the parser stands, with the same tree or error and the same items unread, also where
the item behind the name is none or a bad one. Both answer as reading from a cursor does, which
looks two items ahead. -/
theorem speculation_leaves_no_trace {m : PullParser} (h : Reachable m) :
    (∀ name rest, m.items = .token (.identifier name) :: .token .assign :: rest →
      ∃ position position' m₁ m₂, nextToken m = (.ok (some (.identifier name, position)), m₁) ∧
        nextToken m₁ = (.ok (some (.assign, position')), m₂) ∧ m₂.items = rest ∧
        m.statement.1 = m₂.expression.1.map (.assign name) ∧
        m.statement.2.cursor = m₂.expression.2.cursor) ∧
    ((∀ name rest, m.items ≠ .token (.identifier name) :: .token .assign :: rest) →
      m.statement.1 = m.expression.1 ∧ m.statement.2.cursor = m.expression.2.cursor) ∧
    (m.statement.1, m.statement.2.cursor) = m.cursor.statement ∧
    (m.expression.1, m.expression.2.cursor) = m.cursor.expression := by
  have hm := h.stands
  have hstatement := statement_answers hm
  have hexpression := expression_answers hm
  refine ⟨fun name rest hitems => ?_, fun hother => ?_, ?_, ?_⟩
  · rw [hitems] at hm hstatement
    obtain ⟨m₁, hname, hm₁⟩ := nextToken_token hm
    obtain ⟨m₂, hassign, hm₂⟩ := nextToken_token hm₁
    rw [statement_assign] at hstatement
    exact ⟨_, _, m₁, m₂, hname, hassign, hm₂.items_eq,
      agree_of_answers_map hstatement (expression_answers hm₂)⟩
  · rw [statement_of_not_assign hother] at hstatement
    exact agree_of_answers hstatement hexpression
  · exact conclude_of_answers hstatement hm (unread_statement m.items)
  · exact conclude_of_answers hexpression hm (unread_expression m.items)

/-- Inside a call, where the name of a comparison has been scanned ahead, and in front of an
assignment. -/
theorem speculation_leaves_no_trace_argument :
    (∃ m : PullParser, Reachable m ∧ m.cursor = ⟨2, scan "y==a)".toList⟩ ∧
      m.ahead = some (some (.identifier "y", 2)) ∧
      m.statement.1 = m.expression.1 ∧ m.statement.2.cursor = m.expression.2.cursor) ∧
    ∃ m m' : PullParser, Reachable m ∧ m.cursor = ⟨0, scan "x=a;b".toList⟩ ∧ m'.items = scan "a;b".toList ∧
      m.statement.1 = m'.expression.1.map (.assign "x") ∧
      m.statement.2.cursor = m'.expression.2.cursor := by
  constructor
  · have hreachable := ((Reachable.start "f(y==a)").nextToken.nextToken).peek
    have hcursor : (peek (nextToken (nextToken (.start "f(y==a)")).2).2).2.cursor =
        ⟨2, scan "y==a)".toList⟩ := by cbv
    have hahead : (peek (nextToken (nextToken (.start "f(y==a)")).2).2).2.ahead =
        some (some (.identifier "y", 2)) := by cbv
    have hitems : scan "y==a)".toList = [.token (.identifier "y"), .token (.operator .eq),
        .token (.identifier "a"), .token .rightParen] := by cbv
    obtain ⟨-, hother, -⟩ := speculation_leaves_no_trace hreachable
    refine ⟨_, hreachable, hcursor, hahead, hother ?_⟩
    rintro name rest hassign
    have hunread := (congrArg Cursor.items hcursor).trans hitems
    cases hunread.symm.trans hassign
  · have hreachable := Reachable.start "x=a;b"
    have hitems : (start "x=a;b").items =
        .token (.identifier "x") :: .token .assign :: scan "a;b".toList := by cbv
    obtain ⟨hassign, -⟩ := speculation_leaves_no_trace hreachable
    obtain ⟨_, _, m₁, m₂, -, -, hrest, hanswer⟩ := hassign _ _ hitems
    exact ⟨_, m₂, hreachable, by cbv, hrest, hanswer⟩

end PullParser
end FormulaLang

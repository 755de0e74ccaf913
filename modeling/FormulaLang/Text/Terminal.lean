/-!
# FormulaLang.Text.Terminal

Texts for a terminal. Beside characters to show, such a text holds controls: lone control
characters, and sequences that the escape character opens, such as those that set a style.
`shown` is the text without its controls, for an output that is no terminal. The controls that
count as white space (tab, line feed, form feed, carriage return) stay.

A sequence swallows what follows, up to the character that ends sequences of its kind. Wherever it
stands, a new escape character opens a new sequence, so a styled part of a text never swallows what
follows it.
-/

namespace FormulaLang.Text

def escape : Char := '\x1b'

def styled (style : String) (s : String) : String := "\x1b[" ++ style ++ "m" ++ s ++ "\x1b[0m"

def isBlankControl (c : Char) : Bool := c == '\t' || c == '\n' || c == '\x0c' || c == '\r'

def isShown (c : Char) : Bool := (' ' ≤ c && c ≠ '\x7f') || isBlankControl c

/-- What is read of a sequence that the escape character has opened. -/
inductive Sequence where
  | opened
  /-- Between the escape character and the final one. -/
  | intermediate
  /-- Behind `[`, parameters up to a final letter. -/
  | parameters
  /-- Behind `]`, a text up to a bell. -/
  | command
  /-- Behind `P`, in front of any parameter. -/
  | deviceStart
  | deviceParameters
  | deviceIntermediate
  /-- A text up to a terminator. -/
  | string
  deriving DecidableEq, Repr

namespace Sequence

/-- Blank controls take effect in the midst of the sequences that hold no text of their own. -/
def admitsBlanks : Sequence → Bool
  | opened | intermediate | parameters => true
  | _ => false

/-- The terminator of a text is a byte, and counts also where it is a part of a character. -/
def holdsTerminator (c : Char) : Bool := (String.utf8EncodeChar c).contains 0x9c

/-- The sequence behind one more character, and `none` if that ends it. Characters that have no
meaning in the sequence are skipped. -/
def next : Sequence → Char → Option Sequence
  | opened, c =>
    if c = '[' then some parameters
    else if c = ']' then some command
    else if c = 'P' then some deviceStart
    else if c = 'X' ∨ c = '^' ∨ c = '_' then some string
    else if ' ' ≤ c ∧ c ≤ '/' then some intermediate
    else if '0' ≤ c ∧ c ≤ '~' then none
    else some opened
  | intermediate, c => if '0' ≤ c ∧ c ≤ '~' then none else some intermediate
  | parameters, c => if '@' ≤ c ∧ c ≤ '~' then none else some parameters
  | command, c => if c = '\x07' then none else some command
  | deviceStart, c =>
    if '@' ≤ c ∧ c ≤ '~' then some string
    else if '0' ≤ c ∧ c ≤ '?' then some deviceParameters
    else if ' ' ≤ c ∧ c ≤ '/' then some deviceIntermediate
    else some deviceStart
  | deviceParameters, c =>
    if '<' ≤ c ∧ c ≤ '~' then some string
    else if ' ' ≤ c ∧ c ≤ '/' then some deviceIntermediate
    else some deviceParameters
  | deviceIntermediate, c => if '0' ≤ c ∧ c ≤ '~' then some string else some deviceIntermediate
  | string, c => if holdsTerminator c then none else some string

end Sequence

inductive Place where
  | plain
  | inside (s : Sequence)
  /-- Behind a blank control in an open sequence. What follows is shown, up to the next control
  that is not, where the sequence goes on. -/
  | interrupted (s : Sequence)
  deriving DecidableEq, Repr

def Place.within (s : Sequence) (c : Char) : Place :=
  match s.next c with
  | none => plain
  | some s => inside s

def Place.step (p : Place) (c : Char) : Place × Bool :=
  if c = escape then (inside .opened, false)
  else if c = '\x18' ∨ c = '\x1a' then (plain, false)
  else
    match p with
    | plain => (plain, isShown c)
    | inside s => if isBlankControl c && s.admitsBlanks then (interrupted s, true) else (within s c, false)
    | interrupted s =>
      if '\x7f' < c then (plain, true)
      else if isShown c then (interrupted s, true)
      else (within s c, false)

def shownFrom (p : Place) : List Char → List Char
  | [] => []
  | c :: cs =>
    match p.step c with
    | (p, true) => c :: shownFrom p cs
    | (p, false) => shownFrom p cs

def shown (s : String) : String := .ofList (shownFrom .plain s.toList)

end FormulaLang.Text
